import Qdma.Devices
import Qdma.Lib.Custody

/-!
# Probing, removing and looking up

The kernel module keeps its devices in a list of its own, `xpdev_list`, with the handle of the
device below in each entry.  The bus probes and removes devices, any number at a time but one
thing at a time for each; a netlink command looks one up by its index, or walks the list.  The
list has a mutex.  What hangs on an entry has none: `xpdev_find_by_idx` gives its mutex back and
then the entry away, `xpdev_alloc` puts an entry into the list before it has a handle, and
`qdma_device_close` frees the device below while the entry is still in the list.

* `probeStep` is one access of `probe_one`, with `qdma_device_open` in it, or of the end of
  `remove_one`, by where the driver is with a device (`ProbePc`).  `openAlone_eq` ties it to
  `qdmaDeviceOpen`.
* `readStep` is one access of `qdma_device_get_config`, for a command or for one entry of
  `xpdev_list_dump`.
* `ModInv` is the invariant: what is in memory is what the driver has for some device
  (`Lib.Custody`), and both lists have the devices that are where the driver thinks they are.
  A step is local to one device (`Local`), and leaves what is known of the others
  (`ModInv.frame`).

An address is that of one object as long as the object is there; a pointer that is kept longer
may meet another object at the address, or none.
-/

namespace Qdma

open Lib

/-! ## The state -/

/-- `struct xlnx_dma_dev` and `struct xlnx_pci_dev`, by address. -/
inductive ModObj where
  | xdev (h : ℕ)
  | xpdev (p : ℕ)
  deriving DecidableEq

/-- Where the driver is with a PCI function: `h` is the handle, `i` the index in `conf`, `p` the
`xpdev`. -/
inductive ProbePc where
  | unbound
  /-- In `qdma_device_open`, with the device in its list. -/
  | opening (h i : ℕ)
  /-- `qdma_device_open` has returned. -/
  | opened (h i : ℕ)
  /-- `xpdev_alloc` has. -/
  | listed (h i p : ℕ)
  | handled (h i p : ℕ)
  | indexed (h p : ℕ)
  | bound (h p : ℕ)
  /-- In `qdma_device_close`, or in a `qdma_device_open` that fails, with the device out of its
  list. -/
  | closing (h : ℕ) (p : Option ℕ)
  /-- `qdma_device_close` has returned. -/
  | closed (p : ℕ)
  /-- In `xpdev_free`, with the `xpdev` out of its list. -/
  | unlisted (p : ℕ)
  deriving DecidableEq

/-- What a netlink command goes on with after `qdma_device_get_config`. -/
inductive ReadK where
  | cmd
  /-- The entries that `xpdev_list_dump` has still to look at. -/
  | dump (rest : List ℕ)
  deriving DecidableEq

/-- Where a netlink command is with an `xpdev`. -/
inductive NlReader where
  | idle
  /-- To read `xpdev->dev_hndl`. -/
  | config (p : ℕ) (k : ReadK)
  /-- To read `xdev->conf.pdev`. -/
  | deref (p h : ℕ) (k : ReadK)
  /-- To look the device up by its PCI function, in `xdev_check_hndl`. -/
  | check (p h pdev : ℕ) (k : ReadK)
  /-- To compare the PCI function, with the mutex given back. -/
  | verify (p h pdev : ℕ) (k : ReadK)
  /-- To write the line of an entry, with the configuration or without. -/
  | line (p : ℕ) (h : Option ℕ) (rest : List ℕ)
  /-- The device was found, and the command works on it. -/
  | works (p h : ℕ)
  deriving DecidableEq

/-- Both lists, the fields of the objects, and where everyone is. -/
structure ModState where
  xdevs : List Xdev
  pdevOf : ℕ → ℕ
  xpdevs : List ℕ
  devHndl : ℕ → ℕ
  idx : ℕ → ℕ
  drvdata : ℕ → Option ℕ
  alive : ModObj → Bool
  pc : ℕ → ProbePc
  reader : NlReader

/-- The module is loaded. -/
def ModState.init : ModState where
  xdevs := []
  pdevOf _ := 0
  xpdevs := []
  devHndl _ := 0
  idx _ := 0
  drvdata _ := none
  alive _ := false
  pc _ := .unbound
  reader := .idle

/-! ## Probing and removing -/

/-- What a probe meets: the addresses it is given, and what fails.  `refused` is what
`qdma_device_open` returns where it comes to no device at all, `inited` says that `xdev_map_bars`
and `qdma_device_init` are well. -/
structure ProbeFate where
  hndl : ℕ
  refused : Option ℤ
  inited : Bool
  xpdev : ℕ
  alloc : Bool
  cdev : Bool

def ModState.setPc (s : ModState) (d : ℕ) (pc : ProbePc) : ModState :=
  { s with pc := Function.update s.pc d pc }

/-- Behind `qdma_device_close`. -/
def ProbePc.afterClose : Option ℕ → ProbePc
  | none => .unbound
  | some p => .closed p

/-- `qdma_device_close` up to `kfree`. -/
def devCloseStep (s : ModState) (d h : ℕ) (p : Option ℕ) : ModState :=
  if h = 0 ∨ xdevCheckHndl s.xdevs d h < 0 then s.setPc d (.afterClose p)
  else { s.setPc d (.closing h p) with xdevs := qdmaDeviceClose s.xdevs d h }

/-- The index that `xdev_list_add` puts into `conf`. -/
def openedIdx (l : List Xdev) (h : ℕ) : ℕ := ((l.find? fun x => x.hndl = h).map (·.idx)).getD 0

/-- `qdma_device_open` to the end of `xdev_list_add`.  Whether the PCI function has a device is
its own affair, so this is one step. -/
def devOpenStep (s : ModState) (d : ℕ) (f : ProbeFate) : ModState :=
  if d = 0 ∨ (xdevFindByPdev s.xdevs d).isSome then s
  else
    match f.refused with
    -- a handle of 0 is not looked at
    | some rv => if rv < 0 then s else s.setPc d (.opened 0 0)
    | none =>
        { s.setPc d (.opening f.hndl (openedIdx (xdevListAdd s.xdevs f.hndl d) f.hndl)) with
          xdevs := xdevListAdd s.xdevs f.hndl d
          pdevOf := Function.update s.pdevOf f.hndl d
          alive := Function.update s.alive (.xdev f.hndl) true }

/-- One access of `probe_one`, or of `remove_one` behind `qdma_device_close`. -/
def probeStep (s : ModState) (d : ℕ) (f : ProbeFate) : ModState :=
  match s.pc d with
  | .unbound => devOpenStep s d f
  | .opening h i =>
      if f.inited then s.setPc d (.opened h i)
      else { s.setPc d (.closing h none) with xdevs := xdevListRemove s.xdevs h }
  | .opened h i =>
      if f.alloc then
        { s.setPc d (.listed h i f.xpdev) with
          xpdevs := s.xpdevs ++ [f.xpdev]
          devHndl := Function.update s.devHndl f.xpdev 0
          idx := Function.update s.idx f.xpdev 0xFF
          alive := Function.update s.alive (.xpdev f.xpdev) true }
      else devCloseStep s d h none
  | .listed h i p =>
      { s.setPc d (.handled h i p) with devHndl := Function.update s.devHndl p h }
  | .handled h i p => { s.setPc d (.indexed h p) with idx := Function.update s.idx p i }
  | .indexed h p =>
      if f.cdev then { s.setPc d (.bound h p) with drvdata := Function.update s.drvdata d (some p) }
      else devCloseStep s d h (some p)
  | .bound _ _ => s
  | .closing h p =>
      { s.setPc d (.afterClose p) with alive := Function.update s.alive (.xdev h) false }
  | .closed p => { s.setPc d (.unlisted p) with xpdevs := s.xpdevs.filter (· ≠ p) }
  | .unlisted p =>
      { s.setPc d .unbound with
        alive := Function.update s.alive (.xpdev p) false
        drvdata := Function.update s.drvdata d none }

/-- `remove_one`, up to `kfree` in `qdma_device_close`. -/
def removeStep (s : ModState) (d : ℕ) : ModState :=
  match s.drvdata d with
  | none => s
  | some p => devCloseStep s d (s.devHndl p) (some p)

/-! ## Looking up -/

/-- The next entry of a dump. -/
def NlReader.next : List ℕ → NlReader
  | [] => .idle
  | p :: rest => .config p (.dump rest)

/-- `qdma_device_get_config` is NULL. -/
def NlReader.refuse (p : ℕ) : ReadK → NlReader
  | .cmd => .idle
  | .dump rest => .line p none rest

/-- `qdma_device_get_config` gives a configuration. -/
def NlReader.accept (p h : ℕ) : ReadK → NlReader
  | .cmd => .works p h
  | .dump rest => .line p (some h) rest

/-- One access of a netlink command; `full` says that the buffer of a dump is. -/
def readStep (s : ModState) (full : Bool) : NlReader :=
  match s.reader with
  | .idle => .idle
  | .config p k => .deref p (s.devHndl p) k
  | .deref p h k => .check p h (s.pdevOf h) k
  | .check p h pdev k =>
      if pdev = 0 then .refuse p k
      else
        match xdevFindByPdev s.xdevs pdev with
        | none => .refuse p k
        | some xdev => if xdev.hndl ≠ h then .refuse p k else .verify p h pdev k
  | .verify p h pdev k => if s.pdevOf h ≠ pdev then .refuse p k else .accept p h k
  | .line _ _ rest => .next (if full then [] else rest)
  | .works p h => .works p h

/-- `xpdev_find_by_idx`. -/
def findStep (s : ModState) (idx : ℕ) : NlReader :=
  match s.xpdevs.find? fun p => s.idx p = idx with
  | none => .idle
  | some p => .config p .cmd

/-- `xpdev_list_dump` keeps the mutex. -/
def NlReader.dumping : NlReader → Bool
  | .config _ (.dump _) | .deref _ _ (.dump _) | .check _ _ _ (.dump _)
  | .verify _ _ _ (.dump _) | .line _ _ _ => true
  | _ => false

/-! ## Runs -/

inductive ModEv where
  | probe (d : ℕ) (f : ProbeFate)
  | remove (d : ℕ)
  | find (idx : ℕ)
  | dump
  | read (full : Bool)
  | finish

def modStep (s : ModState) : ModEv → ModState
  | .probe d f => probeStep s d f
  | .remove d => removeStep s d
  | .find idx => { s with reader := findStep s idx }
  | .dump => { s with reader := .next s.xpdevs }
  | .read full => { s with reader := readStep s full }
  | .finish => { s with reader := .idle }

/-- Memory that is given out is free, and the mutex of the list keeps it from changing under a
dump. -/
def ProbePc.canStep (s : ModState) (f : ProbeFate) : ProbePc → Prop
  | .unbound => f.hndl ≠ 0 ∧ s.alive (.xdev f.hndl) = false
  | .opened _ _ => s.alive (.xpdev f.xpdev) = false ∧ s.reader.dumping = false
  | .closed _ => s.reader.dumping = false
  | _ => True

instance (s : ModState) (f : ProbeFate) : ∀ pc, Decidable (ProbePc.canStep s f pc) := by
  intro pc
  unfold ProbePc.canStep
  split <;> infer_instance

/-- `probe_one` has returned 0. -/
def ProbePc.isBound : ProbePc → Bool
  | .bound _ _ => true
  | _ => false

def NlReader.isWorks : NlReader → Bool
  | .works _ _ => true
  | _ => false

/-- A device that is bound can be removed; a netlink command comes after another. -/
def modGuard (s : ModState) : ModEv → Prop
  | .probe d f => (s.pc d).canStep s f
  | .remove d => (s.pc d).isBound = true
  | .find _ => s.reader = .idle
  | .dump => s.reader = .idle
  | .read _ => True
  | .finish => s.reader.isWorks = true

def modSys : System ModState ModEv where
  step := modStep
  guard := modGuard

instance (s : ModState) : ∀ e, Decidable (modSys.guard s e) := by
  rintro ⟨⟩ <;> dsimp only [modSys, modGuard] <;> infer_instance

/-! ## Who has what -/

namespace ProbePc

/-- The handle, while the device is in `xdev_list`. -/
def handle : ProbePc → ℕ
  | .opening h _ | .opened h _ | .listed h _ _ | .handled h _ _ | .indexed h _ | .bound h _ => h
  | _ => 0

/-- The device below that is in memory. -/
def xdev : ProbePc → ℕ
  | .closing h _ => h
  | pc => pc.handle

/-- The `xpdev` in `xpdev_list`. -/
def entry : ProbePc → Option ℕ
  | .listed _ _ p | .handled _ _ p | .indexed _ p | .bound _ p | .closed p => some p
  | .closing _ p => p
  | _ => none

/-- The `xpdev` that is in memory. -/
def xpdev : ProbePc → Option ℕ
  | .unlisted p => some p
  | pc => pc.entry

/-- The `xpdev` with its handle in it. -/
def pair : ProbePc → Option (ℕ × ℕ)
  | .handled h _ p | .indexed h p | .bound h p => some (p, h)
  | _ => none

/-- The index the driver knows the device by. -/
def index (idx : ℕ → ℕ) : ProbePc → Option ℕ
  | .opening _ i | .opened _ i | .listed _ i _ | .handled _ i _ => some i
  | .indexed _ p | .bound _ p => some (idx p)
  | _ => none

/-- The driver has an object for the device. -/
def Has (pc : ProbePc) : Set ModObj
  | .xdev h => h ≠ 0 ∧ pc.xdev = h
  | .xpdev p => pc.xpdev = some p

end ProbePc

/-- What is known of the device of one PCI function that is in a phase. -/
structure FuncOk (s : ModState) (d : ℕ) (pc : ProbePc) : Prop where
  drvdata : ∀ h p, pc = .bound h p → s.drvdata d = some p
  pair : ∀ p h, pc.pair = some (p, h) → s.devHndl p = h
  pdev : pc.xdev ≠ 0 → s.pdevOf pc.xdev = d
  open' : pc.handle ≠ 0 → ∃ x ∈ s.xdevs, x.pdev = d ∧ ∀ i, pc.index s.idx = some i → x.idx = i
  opening : ∀ h i, pc = .opening h i → h ≠ 0
  closing : ∀ h p, pc = .closing h p → h ≠ 0

/-- What is in memory is what the driver has for some device, and both lists have the devices
that are where the driver thinks they are. -/
structure ModInv (s : ModState) : Prop where
  custody : Custody (fun d => (s.pc d).Has) {o | s.alive o = true}
  func : ∀ d, FuncOk s d (s.pc d)
  xdevs : ∀ x ∈ s.xdevs, (s.pc x.pdev).handle = x.hndl ∧ x.hndl ≠ 0 ∧ x.pdev ≠ 0
  xpdevs : ∀ p, p ∈ s.xpdevs ↔ ∃ d, (s.pc d).entry = some p

theorem ModInv.init : ModInv ModState.init where
  custody :=
    { alive_iff := fun o => by
        refine ⟨fun h => absurd h Bool.false_ne_true, ?_⟩
        rintro ⟨d, hd⟩
        cases o with
        | xdev h => exact absurd hd.2.symm hd.1
        | xpdev p => exact absurd hd (Option.some_ne_none p).symm
      unique := fun {d e o} hd _ => by
        cases o with
        | xdev h => exact absurd hd.2.symm hd.1
        | xpdev p => exact absurd hd (Option.some_ne_none p).symm }
  func _ :=
    { drvdata := fun _ _ h => ProbePc.noConfusion h
      pair := fun _ _ h => absurd h (Option.some_ne_none _).symm
      pdev := fun h => absurd rfl h
      open' := fun h => absurd rfl h
      opening := fun _ _ h => ProbePc.noConfusion h
      closing := fun _ _ h => ProbePc.noConfusion h }
  xdevs _ h := absurd h List.not_mem_nil
  xpdevs _ :=
    ⟨fun h => absurd h List.not_mem_nil, fun ⟨_, h⟩ => absurd h (Option.some_ne_none _).symm⟩

/-- A device that is open is found by its PCI function. -/
theorem ModInv.found {s : ModState} (h : ModInv s) {d : ℕ} (hopen : (s.pc d).handle ≠ 0) :
    d ≠ 0 ∧ ∃ x, xdevFindByPdev s.xdevs d = some x ∧ x.hndl = (s.pc d).handle ∧ x.pdev = d := by
  obtain ⟨x, hx, hpdev, -⟩ := (h.func d).open' hopen
  obtain ⟨y, hy⟩ : ∃ y, xdevFindByPdev s.xdevs d = some y := by
    refine Option.isSome_iff_exists.mp ?_
    unfold xdevFindByPdev
    rw [List.find?_isSome]
    exact ⟨x, hx, decide_eq_true hpdev⟩
  have hypdev : y.pdev = d := by
    have hy' : s.xdevs.find? (fun x => x.pdev = d) = some y := hy
    simpa only [decide_eq_true_eq] using List.find?_some hy'
  obtain ⟨hhndl, -, hd⟩ := h.xdevs y (List.mem_of_find?_eq_some hy)
  rw [hypdev] at hhndl hd
  exact ⟨hd, y, hy, hhndl.symm, hypdev⟩

/-- **The check of a handle** passes for a device that is open. -/
theorem ModInv.check {s : ModState} (h : ModInv s) {d : ℕ} (hopen : (s.pc d).handle ≠ 0) :
    xdevCheckHndl s.xdevs d (s.pc d).handle = 0 := by
  obtain ⟨hd, y, hy, hhndl, hpdev⟩ := h.found hopen
  unfold xdevCheckHndl
  rw [if_neg hd, hy]
  dsimp only
  rw [if_neg (fun hne => hne hhndl), if_neg (fun hne => hne hpdev)]

/-! ## What one device does -/

/-- The device `d` goes to a phase, and only what the driver has for it is different. -/
structure Local (s s' : ModState) (d : ℕ) (pc' : ProbePc) : Prop where
  pc : s'.pc = Function.update s.pc d pc'
  drvdata : ∀ e, e ≠ d → s'.drvdata e = s.drvdata e
  devHndl : ∀ e, e ≠ d → ∀ p, (s.pc e).xpdev = some p → s'.devHndl p = s.devHndl p
  idx : ∀ e, e ≠ d → ∀ p, (s.pc e).xpdev = some p → s'.idx p = s.idx p
  pdevOf : ∀ e, e ≠ d → (s.pc e).xdev ≠ 0 → s'.pdevOf (s.pc e).xdev = s.pdevOf (s.pc e).xdev
  xdevs : ∀ x : Xdev, x.pdev ≠ d → (x ∈ s'.xdevs ↔ x ∈ s.xdevs)
  xpdevs : ∀ p, p ∈ s'.xpdevs ↔ pc'.entry = some p ∨ p ∈ s.xpdevs ∧ (s.pc d).entry ≠ some p

/-- The entry in the list is in memory. -/
theorem ProbePc.xpdev_of_entry {pc : ProbePc} {p : ℕ} (h : pc.entry = some p) :
    pc.xpdev = some p := by
  cases pc with
  | unlisted q => exact absurd h (Option.some_ne_none p).symm
  | _ => exact h

/-- A handle with its `xpdev` is that of a device in memory. -/
theorem ProbePc.of_pair {pc : ProbePc} {p h : ℕ} (hpair : pc.pair = some (p, h)) :
    pc.xpdev = some p ∧ pc.handle = h := by
  cases pc with
  | handled _ _ _ | indexed _ _ | bound _ _ =>
      obtain ⟨rfl, rfl⟩ := Prod.mk.inj (Option.some.inj hpair)
      exact ⟨rfl, rfl⟩
  | _ => exact absurd hpair (Option.some_ne_none _).symm

/-- The index is in the `xpdev` or in none. -/
theorem ProbePc.index_congr {pc : ProbePc} {idx idx' : ℕ → ℕ}
    (h : ∀ p, pc.xpdev = some p → idx' p = idx p) : pc.index idx' = pc.index idx := by
  cases pc with
  | indexed _ p | bound _ p => exact congrArg some (h p rfl)
  | _ => rfl

/-- A device that is in its list is in memory. -/
theorem ProbePc.xdev_of_handle {pc : ProbePc} (h : pc.handle ≠ 0) : pc.xdev = pc.handle := by
  cases pc with
  | closing _ _ => exact absurd rfl h
  | _ => rfl

section

variable {s s' : ModState} {d : ℕ} {pc : ProbePc}

theorem Local.pc_self (h : Local s s' d pc) : s'.pc d = pc := by
  rw [h.pc, Function.update_self]

theorem Local.pc_other (h : Local s s' d pc) {e : ℕ} (hne : e ≠ d) : s'.pc e = s.pc e := by
  rw [h.pc, Function.update_of_ne hne]

/-- No two devices have an entry. -/
theorem ModInv.entry_unique (h : ModInv s) {e f p : ℕ} (he : (s.pc e).entry = some p)
    (hf : (s.pc f).entry = some p) : e = f :=
  h.custody.unique (o := .xpdev p) (ProbePc.xpdev_of_entry he) (ProbePc.xpdev_of_entry hf)

/-- The `xpdev` of a device is not that of another. -/
theorem ModInv.other_xpdev (h : ModInv s) {e p : ℕ} (hne : e ≠ d) (hp : (s.pc d).xpdev = some p) :
    (s.pc e).xpdev ≠ some p :=
  fun he => hne (h.custody.unique (o := .xpdev p) he hp)

/-- **The frame rule**: a step that is local to a device leaves what is known of the others. -/
theorem ModInv.frame (h : ModInv s) (hlocal : Local s s' d pc)
    (hcustody : Custody (fun e => (s'.pc e).Has) {o | s'.alive o = true})
    (hfunc : FuncOk s' d pc)
    (hown : ∀ x ∈ s'.xdevs, x.pdev = d → pc.handle = x.hndl ∧ x.hndl ≠ 0 ∧ d ≠ 0) :
    ModInv s' where
  custody := hcustody
  func e := by
    rcases eq_or_ne e d with rfl | hne
    · rw [hlocal.pc_self]
      exact hfunc
    · have hold := h.func e
      rw [hlocal.pc_other hne]
      constructor
      · intro a p hbound
        rw [hlocal.drvdata e hne]
        exact hold.drvdata a p hbound
      · intro p a hpair
        rw [hlocal.devHndl e hne p (ProbePc.of_pair hpair).1]
        exact hold.pair p a hpair
      · intro hxdev
        rw [hlocal.pdevOf e hne hxdev]
        exact hold.pdev hxdev
      · intro hhandle
        obtain ⟨x, hx, hxe, hidx⟩ := hold.open' hhandle
        refine ⟨x, (hlocal.xdevs x (hxe ▸ hne)).mpr hx, hxe, ?_⟩
        rw [ProbePc.index_congr (hlocal.idx e hne)]
        exact hidx
      · exact hold.opening
      · exact hold.closing
  xdevs x hx := by
    rcases eq_or_ne x.pdev d with hd | hne
    · rw [hd, hlocal.pc_self]
      exact hown x hx hd
    · rw [hlocal.pc_other hne]
      exact h.xdevs x ((hlocal.xdevs x hne).mp hx)
  xpdevs p := by
    rw [hlocal.xpdevs p]
    constructor
    · rintro (hnew | ⟨hmem, hne⟩)
      · exact ⟨d, hlocal.pc_self.symm ▸ hnew⟩
      · obtain ⟨e, he⟩ := (h.xpdevs p).mp hmem
        have hed : e ≠ d := by
          rintro rfl
          exact hne he
        exact ⟨e, (hlocal.pc_other hed).symm ▸ he⟩
    · rintro ⟨e, he⟩
      rcases eq_or_ne e d with rfl | hne
      · exact Or.inl (hlocal.pc_self ▸ he)
      · rw [hlocal.pc_other hne] at he
        exact Or.inr ⟨(h.xpdevs p).mpr ⟨e, he⟩, fun hd => hne (h.entry_unique he hd)⟩

/-- What the driver has goes by the two objects in memory. -/
theorem ProbePc.has_eq {pc pc' : ProbePc} (hxdev : pc'.xdev = pc.xdev)
    (hxpdev : pc'.xpdev = pc.xpdev) : pc'.Has = pc.Has := by
  ext o
  cases o with
  | xdev a =>
      show a ≠ 0 ∧ pc'.xdev = a ↔ a ≠ 0 ∧ pc.xdev = a
      rw [hxdev]
  | xpdev p =>
      show pc'.xpdev = some p ↔ pc.xpdev = some p
      rw [hxpdev]

/-- The driver goes on with the two objects it has. -/
theorem Local.custody (hlocal : Local s s' d pc) (h : ModInv s) (hxdev : pc.xdev = (s.pc d).xdev)
    (hxpdev : pc.xpdev = (s.pc d).xpdev) (halive : s'.alive = s.alive) :
    Custody (fun e => (s'.pc e).Has) {o | s'.alive o = true} := by
  refine h.custody.same ?_ (by rw [halive])
  intro e
  show (s'.pc e).Has = (s.pc e).Has
  rcases eq_or_ne e d with rfl | hne
  · rw [hlocal.pc_self]
    exact ProbePc.has_eq hxdev hxpdev
  · rw [hlocal.pc_other hne]

/-- The entries, where the one of the device stays. -/
theorem ModInv.entries_same (h : ModInv s) {o : Option ℕ} (ho : o = (s.pc d).entry) (p : ℕ) :
    p ∈ s.xpdevs ↔ o = some p ∨ p ∈ s.xpdevs ∧ (s.pc d).entry ≠ some p := by
  subst ho
  constructor
  · intro hmem
    by_cases hd : (s.pc d).entry = some p
    · exact Or.inl hd
    · exact Or.inr ⟨hmem, hd⟩
  · rintro (hd | ⟨hmem, -⟩)
    · exact (h.xpdevs p).mpr ⟨d, hd⟩
    · exact hmem

/-- **A step of the driver** with what it has: nothing is made or destroyed, and the lists keep
their members. -/
theorem ModInv.move (h : ModInv s) {pc₀ : ProbePc} (hat : s.pc d = pc₀) (pc : ProbePc)
    (hpc : s'.pc = Function.update s.pc d pc)
    (halive : s'.alive = s.alive) (hxdevs : s'.xdevs = s.xdevs) (hxpdevs : s'.xpdevs = s.xpdevs)
    (hpdevOf : s'.pdevOf = s.pdevOf) (hdrv : ∀ e, e ≠ d → s'.drvdata e = s.drvdata e)
    (hdev : ∀ p, pc₀.xpdev ≠ some p → s'.devHndl p = s.devHndl p)
    (hidx : ∀ p, pc₀.xpdev ≠ some p → s'.idx p = s.idx p)
    (hxdev : pc.xdev = pc₀.xdev) (hhandle : pc.handle = pc₀.handle)
    (hentry : pc.entry = pc₀.entry) (hxpdev : pc.xpdev = pc₀.xpdev)
    (hfunc : FuncOk s' d pc) : ModInv s' := by
  subst hat
  have hlocal : Local s s' d pc :=
    { pc := hpc
      drvdata := hdrv
      devHndl := fun e hne p hp => hdev p fun hd => h.other_xpdev hne hd hp
      idx := fun e hne p hp => hidx p fun hd => h.other_xpdev hne hd hp
      pdevOf := fun _ _ _ => by rw [hpdevOf]
      xdevs := fun _ _ => by rw [hxdevs]
      xpdevs := fun p => by
        rw [hxpdevs]
        exact h.entries_same hentry p }
  refine h.frame hlocal (hlocal.custody h hxdev hxpdev halive) hfunc ?_
  intro x hx hd
  rw [hxdevs] at hx
  rw [hhandle, ← hd]
  exact h.xdevs x hx

/-- A device that the driver has nothing open for. -/
theorem FuncOk.of_closed (hpair : pc.pair = none) (hxdev : pc.xdev = 0)
    (hhandle : pc.handle = 0) (hnot : ∀ a i, pc ≠ .opening a i) (hne : ∀ a p, pc ≠ .closing a p) :
    FuncOk s d pc where
  drvdata a p hb := by
    rw [hb] at hpair
    exact absurd hpair (Option.some_ne_none _)
  pair p a hp := by
    rw [hpair] at hp
    exact absurd hp (Option.some_ne_none _).symm
  pdev hx := absurd hxdev hx
  open' hh := absurd hhandle hh
  opening a i hc := absurd hc (hnot a i)
  closing a p hc := absurd hc (hne a p)

/-- Nothing is open behind `qdma_device_close`. -/
theorem FuncOk.afterClose (p : Option ℕ) : FuncOk s d (.afterClose p) := by
  cases p with
  | none => exact .of_closed rfl rfl rfl nofun nofun
  | some p => exact .of_closed rfl rfl rfl nofun nofun

theorem ProbePc.entry_afterClose (p : Option ℕ) : (ProbePc.afterClose p).entry = p := by
  cases p <;> rfl

theorem ProbePc.xpdev_afterClose (p : Option ℕ) : (ProbePc.afterClose p).xpdev = p := by
  cases p <;> rfl

theorem ProbePc.xdev_afterClose (p : Option ℕ) : (ProbePc.afterClose p).xdev = 0 := by
  cases p <;> rfl

theorem ProbePc.handle_afterClose (p : Option ℕ) : (ProbePc.afterClose p).handle = 0 := by
  cases p <;> rfl

/-- A listed device with the handle of `d` is that of `d`. -/
theorem ModInv.pdev_of_hndl (h : ModInv s) {x : Xdev} (hx : x ∈ s.xdevs)
    (hhndl : x.hndl = (s.pc d).xdev) : x.pdev = d := by
  obtain ⟨hhandle, hh, -⟩ := h.xdevs x hx
  have hopen : (s.pc x.pdev).handle ≠ 0 := hhandle ▸ hh
  refine h.custody.unique (o := .xdev x.hndl) ⟨hh, ?_⟩ ⟨hh, hhndl.symm⟩
  rw [ProbePc.xdev_of_handle hopen, hhandle]

/-- **A device is taken out of the list**, and stays in memory. -/
theorem ModInv.takeOut (h : ModInv s) {pc₀ : ProbePc} (hat : s.pc d = pc₀) {hndl : ℕ}
    {p : Option ℕ} (hne : hndl ≠ 0) (hhandle : pc₀.handle = hndl) (hxdev : pc₀.xdev = hndl)
    (hentry : pc₀.entry = p) (hxpdev : pc₀.xpdev = p) :
    ModInv { s.setPc d (.closing hndl p) with xdevs := xdevListRemove s.xdevs hndl } := by
  subst hat
  have hmem : ∀ x, x ∈ xdevListRemove s.xdevs hndl ↔ x ∈ s.xdevs ∧ x.hndl ≠ hndl := by
    intro x
    unfold xdevListRemove
    rw [List.mem_filter, decide_eq_true_eq]
  have hlocal : Local s { s.setPc d (.closing hndl p) with
      xdevs := xdevListRemove s.xdevs hndl } d (.closing hndl p) :=
    { pc := rfl
      drvdata := fun _ _ => rfl
      devHndl := fun _ _ _ _ => rfl
      idx := fun _ _ _ _ => rfl
      pdevOf := fun _ _ _ => rfl
      xdevs := fun x hx => (hmem x).trans ⟨And.left, fun hold => ⟨hold, fun heq =>
        hx (h.pdev_of_hndl hold (heq.trans hxdev.symm))⟩⟩
      xpdevs := h.entries_same hentry.symm }
  refine h.frame hlocal (hlocal.custody h hxdev.symm hxpdev.symm rfl) ?_ ?_
  · refine ⟨fun _ _ hb => ProbePc.noConfusion hb,
      fun _ _ hp => absurd hp (Option.some_ne_none _).symm, fun _ => ?_,
      fun hne => absurd rfl hne, fun _ _ hc => ProbePc.noConfusion hc, ?_⟩
    · have hpdev := (h.func d).pdev (hxdev ▸ hne)
      rw [hxdev] at hpdev
      exact hpdev
    · intro a q heq
      cases heq
      exact hne
  · intro x hx hd
    obtain ⟨hold, hne'⟩ := (hmem x).mp hx
    refine absurd ?_ hne'
    rw [← (h.xdevs x hold).1, hd, hhandle]

/-- **`qdma_device_close`** leaves the list without the device, and the device in memory. -/
theorem ModInv.close (h : ModInv s) {pc₀ : ProbePc} (hat : s.pc d = pc₀) {hndl : ℕ} {p : Option ℕ}
    (hhandle : pc₀.handle = hndl) (hxdev : pc₀.xdev = hndl) (hentry : pc₀.entry = p)
    (hxpdev : pc₀.xpdev = p) : ModInv (devCloseStep s d hndl p) := by
  subst hat
  unfold devCloseStep
  split
  · next hskip =>
      have hzero : hndl = 0 := by
        by_contra hne
        have hcheck := h.check (hhandle.symm ▸ hne)
        rw [hhandle] at hcheck
        exact hskip.elim hne fun hneg => absurd hcheck hneg.ne
      refine h.move rfl (.afterClose p) rfl rfl rfl rfl rfl (fun _ _ => rfl) (fun _ _ => rfl)
        (fun _ _ => rfl) ?_ ?_ ?_ ?_ (.afterClose p)
      · rw [ProbePc.xdev_afterClose, hxdev, hzero]
      · rw [ProbePc.handle_afterClose, hhandle, hzero]
      · rw [ProbePc.entry_afterClose, hentry]
      · rw [ProbePc.xpdev_afterClose, hxpdev]
  · next hgo =>
      rw [not_or, not_lt] at hgo
      have hlist : qdmaDeviceClose s.xdevs d hndl = xdevListRemove s.xdevs hndl := by
        unfold qdmaDeviceClose
        rw [if_neg hgo.1, if_neg (not_lt.mpr hgo.2)]
      rw [hlist]
      exact h.takeOut rfl hgo.1 hhandle hxdev hentry hxpdev

/-- An address that is free. -/
theorem not_alive {alive : ModObj → Bool} {o : ModObj} (h : alive o = false) :
    o ∉ {o | alive o = true} :=
  fun hmem => Bool.false_ne_true (h.symm.trans hmem)

/-- An object is made. -/
theorem alive_made (alive : ModObj → Bool) (o : ModObj) :
    {o' | Function.update alive o true o' = true} = insert o {o' | alive o' = true} := by
  ext o'
  show Function.update alive o true o' = true ↔ o' = o ∨ alive o' = true
  rcases eq_or_ne o' o with rfl | hne
  · rw [Function.update_self]
    exact ⟨fun _ => Or.inl rfl, fun _ => rfl⟩
  · rw [Function.update_of_ne hne]
    exact ⟨Or.inr, fun h => h.resolve_left hne⟩

/-- An object is destroyed. -/
theorem alive_freed (alive : ModObj → Bool) (o : ModObj) :
    {o' | Function.update alive o false o' = true} = {o' | alive o' = true} \ {o} := by
  ext o'
  show Function.update alive o false o' = true ↔ alive o' = true ∧ o' ≠ o
  rcases eq_or_ne o' o with rfl | hne
  · rw [Function.update_self]
    exact ⟨fun h => absurd h Bool.false_ne_true, fun h => absurd rfl h.2⟩
  · rw [Function.update_of_ne hne]
    exact (and_iff_left hne).symm

/-- A device that is listed is not at an address that is free. -/
theorem ModInv.hndl_ne (h : ModInv s) {a : ℕ} (hfree : s.alive (.xdev a) = false) :
    ∀ x ∈ s.xdevs, x.hndl ≠ a := by
  rintro x hx rfl
  obtain ⟨hhandle, hh, -⟩ := h.xdevs x hx
  refine h.custody.not_has (not_alive hfree) x.pdev ⟨hh, ?_⟩
  rw [ProbePc.xdev_of_handle (hhandle ▸ hh), hhandle]

/-- **A device is put into the list**: an `xdev` of its own, at the end. -/
theorem ModInv.openDev (h : ModInv s) {hndl : ℕ} (hat : s.pc d = .unbound) (hd : d ≠ 0)
    (hh : hndl ≠ 0) (hfree : s.alive (.xdev hndl) = false) :
    ModInv { s.setPc d (.opening hndl (openedIdx (xdevListAdd s.xdevs hndl d) hndl)) with
      xdevs := xdevListAdd s.xdevs hndl d
      pdevOf := Function.update s.pdevOf hndl d
      alive := Function.update s.alive (.xdev hndl) true } := by
  have hnew := not_alive hfree
  obtain ⟨idx, hadd⟩ : ∃ idx, xdevListAdd s.xdevs hndl d =
      s.xdevs ++ [{ hndl := hndl, pdev := d, idx := idx }] := by
    unfold xdevListAdd
    split
    · exact ⟨_, rfl⟩
    · exact ⟨_, rfl⟩
  have hmem : ∀ x, x ∈ xdevListAdd s.xdevs hndl d ↔
      x ∈ s.xdevs ∨ x = { hndl := hndl, pdev := d, idx := idx } := by
    intro x
    rw [hadd, List.mem_append, List.mem_singleton]
  have hidx : openedIdx (xdevListAdd s.xdevs hndl d) hndl = idx := by
    have hnone : s.xdevs.find? (fun x => x.hndl = hndl) = none :=
      List.find?_eq_none.mpr fun x hx => by
        rw [decide_eq_true_eq]
        exact h.hndl_ne hfree x hx
    unfold openedIdx
    rw [hadd, List.find?_append, hnone, Option.none_or, List.find?_singleton,
      if_pos (decide_eq_true rfl)]
    rfl
  rw [hidx]
  have hlocal : Local s { s.setPc d (.opening hndl idx) with
      xdevs := xdevListAdd s.xdevs hndl d
      pdevOf := Function.update s.pdevOf hndl d
      alive := Function.update s.alive (.xdev hndl) true } d (.opening hndl idx) :=
    { pc := rfl
      drvdata := fun _ _ => rfl
      devHndl := fun _ _ _ _ => rfl
      idx := fun _ _ _ _ => rfl
      pdevOf := fun e _ hne => Function.update_of_ne
        (fun heq => h.custody.not_has hnew e ⟨hh, heq⟩) _ _
      xdevs := fun x hx => (hmem x).trans (or_iff_left fun heq => hx (heq ▸ rfl))
      xpdevs := h.entries_same (by rw [hat]; rfl) }
  refine h.frame hlocal (h.custody.take (d := d) hnew ?_ ?_ ?_) ?_ ?_
  · show (ProbePc.Has _) = _
    rw [hlocal.pc_self, hat]
    ext o
    cases o with
    | xdev a =>
        show a ≠ 0 ∧ hndl = a ↔ ModObj.xdev a = .xdev hndl ∨ a ≠ 0 ∧ 0 = a
        constructor
        · rintro ⟨-, rfl⟩
          exact Or.inl rfl
        · rintro (heq | ⟨hne, hzero⟩)
          · cases heq
            exact ⟨hh, rfl⟩
          · exact absurd hzero.symm hne
    | xpdev p =>
        show none = some p ↔ ModObj.xpdev p = .xdev hndl ∨ none = some p
        exact ⟨Or.inr, fun h => h.elim (fun heq => ModObj.noConfusion heq) id⟩
  · intro e hne
    show (ProbePc.Has _) = _
    rw [hlocal.pc_other hne]
  · exact alive_made _ _
  · exact
      { drvdata := fun _ _ hb => ProbePc.noConfusion hb
        pair := fun _ _ hp => absurd hp (Option.some_ne_none _).symm
        pdev := fun _ => Function.update_self _ _ _
        open' := fun _ => ⟨_, (hmem _).mpr (Or.inr rfl), rfl, fun i hi => Option.some.inj hi⟩
        opening := fun _ _ hc => (ProbePc.opening.inj hc).1 ▸ hh
        closing := fun _ _ hc => ProbePc.noConfusion hc }
  · intro x hx hxd
    obtain hold | rfl := (hmem x).mp hx
    · have hhandle := h.xdevs x hold
      rw [hxd, hat] at hhandle
      exact absurd hhandle.1.symm hhandle.2.1
    · exact ⟨rfl, hh, hd⟩

/-- **`xpdev_alloc`**: an entry without a handle, at the end of the list. -/
theorem ModInv.alloc (h : ModInv s) {a i p : ℕ} (hat : s.pc d = .opened a i)
    (hfree : s.alive (.xpdev p) = false) :
    ModInv { s.setPc d (.listed a i p) with
      xpdevs := s.xpdevs ++ [p]
      devHndl := Function.update s.devHndl p 0
      idx := Function.update s.idx p 0xFF
      alive := Function.update s.alive (.xpdev p) true } := by
  have hnew := not_alive hfree
  have hlocal : Local s { s.setPc d (.listed a i p) with
      xpdevs := s.xpdevs ++ [p]
      devHndl := Function.update s.devHndl p 0
      idx := Function.update s.idx p 0xFF
      alive := Function.update s.alive (.xpdev p) true } d (.listed a i p) :=
    { pc := rfl
      drvdata := fun _ _ => rfl
      devHndl := fun e _ q hq => Function.update_of_ne (fun heq : q = p =>
        h.custody.not_has hnew e (show (s.pc e).xpdev = some p by rw [hq, heq])) _ _
      idx := fun e _ q hq => Function.update_of_ne (fun heq : q = p =>
        h.custody.not_has hnew e (show (s.pc e).xpdev = some p by rw [hq, heq])) _ _
      pdevOf := fun _ _ _ => rfl
      xdevs := fun _ _ => Iff.rfl
      xpdevs := fun q => by
        show q ∈ s.xpdevs ++ [p] ↔ some p = some q ∨ q ∈ s.xpdevs ∧ (s.pc d).entry ≠ some q
        rw [List.mem_append, List.mem_singleton, hat, Option.some_inj, eq_comm, or_comm]
        exact or_congr_right (and_iff_left (Option.some_ne_none q).symm).symm }
  have hold := h.func d
  rw [hat] at hold
  refine h.frame hlocal (h.custody.take (d := d) hnew ?_ ?_ ?_) ?_ ?_
  · show (ProbePc.Has _) = _
    rw [hlocal.pc_self, hat]
    ext o
    cases o with
    | xdev b =>
        show b ≠ 0 ∧ a = b ↔ ModObj.xdev b = .xpdev p ∨ b ≠ 0 ∧ a = b
        exact ⟨Or.inr, fun h => h.elim (fun heq => ModObj.noConfusion heq) id⟩
    | xpdev q =>
        show some p = some q ↔ ModObj.xpdev q = .xpdev p ∨ none = some q
        rw [Option.some_inj, ModObj.xpdev.injEq, eq_comm]
        exact ⟨Or.inl, fun h => h.resolve_right (Option.some_ne_none q).symm⟩
  · intro e hne
    show (ProbePc.Has _) = _
    rw [hlocal.pc_other hne]
  · exact alive_made _ _
  · exact
      { drvdata := fun _ _ hb => ProbePc.noConfusion hb
        pair := fun _ _ hp => absurd hp (Option.some_ne_none _).symm
        pdev := hold.pdev
        open' := hold.open'
        opening := fun _ _ hc => ProbePc.noConfusion hc
        closing := fun _ _ hc => ProbePc.noConfusion hc }
  · intro x hx hxd
    have hhandle := h.xdevs x hx
    rw [hxd, hat] at hhandle
    exact hhandle

/-- **The device is freed** at the end of `qdma_device_close`. -/
theorem ModInv.freeXdev (h : ModInv s) {a : ℕ} {p : Option ℕ} (hat : s.pc d = .closing a p) :
    ModInv { s.setPc d (.afterClose p) with
      alive := Function.update s.alive (.xdev a) false } := by
  have ha : a ≠ 0 := (h.func d).closing a p hat
  have hlocal : Local s { s.setPc d (.afterClose p) with
      alive := Function.update s.alive (.xdev a) false } d (.afterClose p) :=
    { pc := rfl
      drvdata := fun _ _ => rfl
      devHndl := fun _ _ _ _ => rfl
      idx := fun _ _ _ _ => rfl
      pdevOf := fun _ _ _ => rfl
      xdevs := fun _ _ => Iff.rfl
      xpdevs := h.entries_same (by rw [hat, ProbePc.entry_afterClose]; rfl) }
  refine h.frame hlocal (h.custody.drop (d := d) (o := .xdev a) ?_ ?_ ?_ ?_) (.afterClose p) ?_
  · show (s.pc d).Has (.xdev a)
    rw [hat]
    exact ⟨ha, rfl⟩
  · show (ProbePc.Has _) = _
    rw [hlocal.pc_self, hat]
    ext o
    cases o with
    | xdev b =>
        show b ≠ 0 ∧ (ProbePc.afterClose p).xdev = b ↔
          (b ≠ 0 ∧ a = b) ∧ ModObj.xdev b ≠ .xdev a
        rw [ProbePc.xdev_afterClose]
        refine ⟨fun hb => absurd hb.2.symm hb.1, ?_⟩
        rintro ⟨⟨-, rfl⟩, hne⟩
        exact absurd rfl hne
    | xpdev q =>
        show (ProbePc.afterClose p).xpdev = some q ↔ p = some q ∧ ModObj.xpdev q ≠ .xdev a
        rw [ProbePc.xpdev_afterClose]
        exact (and_iff_left fun heq => ModObj.noConfusion heq).symm
  · intro e hne
    show (ProbePc.Has _) = _
    rw [hlocal.pc_other hne]
  · exact alive_freed _ _
  · intro x hx hxd
    have hhandle := h.xdevs x hx
    rw [hxd, hat] at hhandle
    exact absurd hhandle.1.symm hhandle.2.1

/-- **The entry is taken out** of the list. -/
theorem ModInv.unlist (h : ModInv s) {p : ℕ} (hat : s.pc d = .closed p) :
    ModInv { s.setPc d (.unlisted p) with xpdevs := s.xpdevs.filter (· ≠ p) } := by
  have hlocal : Local s { s.setPc d (.unlisted p) with
      xpdevs := s.xpdevs.filter (· ≠ p) } d (.unlisted p) :=
    { pc := rfl
      drvdata := fun _ _ => rfl
      devHndl := fun _ _ _ _ => rfl
      idx := fun _ _ _ _ => rfl
      pdevOf := fun _ _ _ => rfl
      xdevs := fun _ _ => Iff.rfl
      xpdevs := fun q => by
        show q ∈ s.xpdevs.filter (· ≠ p) ↔ none = some q ∨ q ∈ s.xpdevs ∧ (s.pc d).entry ≠ some q
        rw [List.mem_filter, decide_eq_true_eq, hat]
        constructor
        · exact fun hq => Or.inr ⟨hq.1, fun heq => hq.2 (Option.some.inj heq).symm⟩
        · exact fun hq => hq.elim (fun heq => absurd heq (Option.some_ne_none q).symm)
            fun hq => ⟨hq.1, fun heq => hq.2 (congrArg some heq.symm)⟩ }
  refine h.frame hlocal (hlocal.custody h ?_ ?_ rfl)
    (.of_closed rfl rfl rfl nofun nofun) ?_
  · rw [hat]
    rfl
  · rw [hat]
    rfl
  · intro x hx hxd
    have hhandle := h.xdevs x hx
    rw [hxd, hat] at hhandle
    exact absurd hhandle.1.symm hhandle.2.1

/-- **The entry is freed**, and the driver has nothing more for the device. -/
theorem ModInv.freeXpdev (h : ModInv s) {p : ℕ} (hat : s.pc d = .unlisted p) :
    ModInv { s.setPc d .unbound with
      alive := Function.update s.alive (.xpdev p) false
      drvdata := Function.update s.drvdata d none } := by
  have hlocal : Local s { s.setPc d .unbound with
      alive := Function.update s.alive (.xpdev p) false
      drvdata := Function.update s.drvdata d none } d .unbound :=
    { pc := rfl
      drvdata := fun e hne => Function.update_of_ne hne _ _
      devHndl := fun _ _ _ _ => rfl
      idx := fun _ _ _ _ => rfl
      pdevOf := fun _ _ _ => rfl
      xdevs := fun _ _ => Iff.rfl
      xpdevs := h.entries_same (by rw [hat]; rfl) }
  refine h.frame hlocal (h.custody.drop (d := d) (o := .xpdev p) ?_ ?_ ?_ ?_)
    (.of_closed rfl rfl rfl nofun nofun) ?_
  · show (s.pc d).Has (.xpdev p)
    rw [hat]
    exact (rfl : some p = some p)
  · show (ProbePc.Has _) = _
    rw [hlocal.pc_self, hat]
    ext o
    cases o with
    | xdev b =>
        show b ≠ 0 ∧ 0 = b ↔ (b ≠ 0 ∧ 0 = b) ∧ ModObj.xdev b ≠ .xpdev p
        exact (and_iff_left fun heq => ModObj.noConfusion heq).symm
    | xpdev q =>
        show none = some q ↔ some p = some q ∧ ModObj.xpdev q ≠ .xpdev p
        refine ⟨fun heq => absurd heq (Option.some_ne_none q).symm, ?_⟩
        rintro ⟨heq, hne⟩
        exact absurd (congrArg ModObj.xpdev (Option.some.inj heq).symm) hne
  · intro e hne
    show (ProbePc.Has _) = _
    rw [hlocal.pc_other hne]
  · exact alive_freed _ _
  · intro x hx hxd
    have hhandle := h.xdevs x hx
    rw [hxd, hat] at hhandle
    exact absurd hhandle.1.symm hhandle.2.1

/-! ## One step -/

/-- What a lookup does is no business of the driver's. -/
theorem ModInv.of_reader (h : ModInv s) (r : NlReader) : ModInv { s with reader := r } where
  custody := h.custody
  func d :=
    { drvdata := (h.func d).drvdata
      pair := (h.func d).pair
      pdev := (h.func d).pdev
      open' := (h.func d).open'
      opening := (h.func d).opening
      closing := (h.func d).closing }
  xdevs := h.xdevs
  xpdevs := h.xpdevs

/-- What the two halves of an open meet, where `rv` is what the second returns if it fails. -/
def ProbeFate.openFate (f : ProbeFate) (rv : ℤ) : OpenFate :=
  match f.refused with
  | some rv => .refused rv
  | none => if f.inited then .opens else .fails rv

/-- `qdma_device_open` with nothing between its halves. -/
def openAlone (s : ModState) (d : ℕ) (f : ProbeFate) : ModState :=
  let t := devOpenStep s d f
  match t.pc d with
  | .opening _ _ => probeStep t d f
  | _ => t

/-- **An open that nothing comes between** is `qdmaDeviceOpen`. -/
theorem openAlone_eq (hat : s.pc d = .unbound) (f : ProbeFate) (rv : ℤ) :
    (openAlone s d f).xdevs = (qdmaDeviceOpen s.xdevs d f.hndl (f.openFate rv)).2.2 ∧
      ((openAlone s d f).pc d).handle =
        (qdmaDeviceOpen s.xdevs d f.hndl (f.openFate rv)).2.1 := by
  have hself : ∀ pc, (s.setPc d pc).pc d = pc := fun pc => Function.update_self _ _ _
  unfold openAlone devOpenStep qdmaDeviceOpen ProbeFate.openFate
  by_cases hzero : d = 0
  · rw [if_pos (Or.inl hzero), if_pos hzero]
    dsimp only
    rw [hat]
    exact ⟨rfl, congrArg _ hat⟩
  by_cases hfound : (xdevFindByPdev s.xdevs d).isSome = true
  · rw [if_pos (Or.inr hfound), if_neg hzero, if_pos hfound]
    dsimp only
    rw [hat]
    exact ⟨rfl, congrArg _ hat⟩
  rw [if_neg (fun h => h.elim hzero hfound), if_neg hzero, if_neg hfound]
  cases f.refused with
  | some rv' =>
      dsimp only
      by_cases hneg : rv' < 0
      · rw [if_pos hneg, hat]
        exact ⟨rfl, congrArg _ hat⟩
      · rw [if_neg hneg, hself]
        exact ⟨rfl, congrArg _ (hself _)⟩
  | none =>
      dsimp only
      rw [hself]
      dsimp only
      unfold probeStep
      dsimp only
      rw [hself]
      dsimp only
      cases f.inited with
      | true => exact ⟨rfl, congrArg _ (Function.update_self _ _ _)⟩
      | false => exact ⟨rfl, congrArg _ (Function.update_self _ _ _)⟩

/-- **The driver keeps the invariant**: one access of `probe_one` or of the end of
`remove_one`. -/
theorem ModInv.probe (h : ModInv s) {f : ProbeFate} (hg : (s.pc d).canStep s f) :
    ModInv (probeStep s d f) := by
  have hfunc := h.func d
  unfold probeStep
  cases hat : s.pc d with
  | unbound =>
      rw [hat] at hg
      change ModInv (devOpenStep s d f)
      unfold devOpenStep
      split
      case isTrue => exact h
      case isFalse hnone =>
        split
        · split
          · exact h
          · refine h.move hat (.opened 0 0) rfl rfl rfl rfl rfl (fun _ _ => rfl) (fun _ _ => rfl)
              (fun _ _ => rfl) rfl rfl rfl rfl ?_
            exact .of_closed rfl rfl rfl nofun nofun
        · exact h.openDev hat (fun hd => hnone (Or.inl hd)) hg.1 hg.2
  | opening a i =>
      rw [hat] at hfunc
      dsimp only
      split
      · refine h.move hat (.opened a i) rfl rfl rfl rfl rfl (fun _ _ => rfl) (fun _ _ => rfl)
          (fun _ _ => rfl) rfl rfl rfl rfl ?_
        exact
          { drvdata := fun _ _ hb => ProbePc.noConfusion hb
            pair := hfunc.pair
            pdev := hfunc.pdev
            open' := hfunc.open'
            opening := fun _ _ hc => ProbePc.noConfusion hc
            closing := fun _ _ hc => ProbePc.noConfusion hc }
      · exact h.takeOut hat (hfunc.opening a i rfl) rfl rfl rfl rfl
  | opened a i =>
      rw [hat] at hg
      dsimp only
      split
      · exact h.alloc hat hg.1
      · exact h.close hat rfl rfl rfl rfl
  | listed a i p =>
      rw [hat] at hfunc
      refine h.move hat (.handled a i p) rfl rfl rfl rfl rfl (fun _ _ => rfl) ?_
        (fun _ _ => rfl) rfl rfl rfl rfl ?_
      · exact fun q hq => Function.update_of_ne (fun heq : q = p => hq (congrArg some heq.symm)) _ _
      · exact
        { drvdata := fun _ _ hb => ProbePc.noConfusion hb
          pair := fun q b hp => by
            obtain ⟨rfl, rfl⟩ := Prod.mk.inj (Option.some.inj hp)
            exact Function.update_self _ _ _
          pdev := hfunc.pdev
          open' := hfunc.open'
          opening := fun _ _ hc => ProbePc.noConfusion hc
          closing := fun _ _ hc => ProbePc.noConfusion hc }
  | handled a i p =>
      rw [hat] at hfunc
      refine h.move hat (.indexed a p) rfl rfl rfl rfl rfl (fun _ _ => rfl) (fun _ _ => rfl)
        (fun q hq => Function.update_of_ne (fun heq : q = p => hq (congrArg some heq.symm)) _ _)
        rfl rfl rfl rfl ?_
      exact
        { drvdata := fun _ _ hb => ProbePc.noConfusion hb
          pair := hfunc.pair
          pdev := hfunc.pdev
          open' := fun hne => by
            obtain ⟨x, hx, hpdev, hidx⟩ := hfunc.open' hne
            refine ⟨x, hx, hpdev, fun j hj => ?_⟩
            have hij : Function.update s.idx p i p = j := Option.some.inj hj
            rw [hidx i rfl, ← hij, Function.update_self]
          opening := fun _ _ hc => ProbePc.noConfusion hc
          closing := fun _ _ hc => ProbePc.noConfusion hc }
  | indexed a p =>
      rw [hat] at hfunc
      dsimp only
      split
      · refine h.move hat (.bound a p) rfl rfl rfl rfl rfl
          (fun e hne => Function.update_of_ne hne _ _) (fun _ _ => rfl) (fun _ _ => rfl)
          rfl rfl rfl rfl ?_
        exact
          { drvdata := fun b q hb => by
              cases hb
              exact Function.update_self _ _ _
            pair := hfunc.pair
            pdev := hfunc.pdev
            open' := hfunc.open'
            opening := fun _ _ hc => ProbePc.noConfusion hc
            closing := fun _ _ hc => ProbePc.noConfusion hc }
      · exact h.close hat rfl rfl rfl rfl
  | bound a p => exact h
  | closing a p => exact h.freeXdev hat
  | closed p => exact h.unlist hat
  | unlisted p => exact h.freeXpdev hat

/-- `remove_one` of a device that is bound closes it with its handle. -/
theorem ModInv.removeStep_eq (h : ModInv s) {a p : ℕ} (hat : s.pc d = .bound a p) :
    removeStep s d = devCloseStep s d a (some p) := by
  have hfunc := h.func d
  unfold removeStep
  rw [hfunc.drvdata a p hat]
  dsimp only
  rw [hfunc.pair p a (by rw [hat]; rfl)]

/-- A device that is bound has a handle and an `xpdev`. -/
theorem ProbePc.of_isBound {pc : ProbePc} (h : pc.isBound = true) : ∃ a p, pc = .bound a p := by
  cases pc with
  | bound a p => exact ⟨a, p, rfl⟩
  | _ => exact absurd h Bool.false_ne_true

/-- **Every step keeps the invariant**. -/
theorem ModInv.step (h : ModInv s) {e : ModEv} (hg : modGuard s e) : ModInv (modStep s e) := by
  cases e with
  | probe d f => exact h.probe hg
  | remove d =>
      obtain ⟨a, p, hat⟩ := ProbePc.of_isBound hg
      show ModInv (removeStep s d)
      rw [h.removeStep_eq hat]
      exact h.close hat rfl rfl rfl rfl
  | find idx => exact h.of_reader _
  | dump => exact h.of_reader _
  | read full => exact h.of_reader _
  | finish => exact h.of_reader _

end

end Qdma

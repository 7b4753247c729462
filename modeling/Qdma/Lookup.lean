import Qdma.Probe

/-!
# What a lookup meets

A netlink command that has found an `xpdev`, or walks the list of them, goes on with pointers: to
the entry, and through its handle to the device below.  `touched` are the objects that an access
goes to, and an access is `Safe` when all of them are in memory.

* `lookup_safe_iff`: the driver's own accesses are safe whatever happens, as are all walks of
  lists; a lookup is safe just as long as some PCI function still has the object that it goes to
  (`StillThere`).
* `undisturbed_lookups`: when commands look up devices that are bound, and no device is removed
  under a command that refers to it (`Undisturbed`), all accesses are safe and each lookup goes
  through to the device that it was for.
-/

namespace Qdma

open Lib

/-! ## Accesses -/

/-- A walk of `xdev_list`. -/
def ModState.xdevWalk (s : ModState) : List ModObj := s.xdevs.map fun x => .xdev x.hndl

/-- A walk of `xpdev_list`, or a change of it. -/
def ModState.xpdevWalk (s : ModState) : List ModObj := s.xpdevs.map .xpdev

/-- What `qdma_device_close` goes to. -/
def closeTouched (s : ModState) (d h : ℕ) : List ModObj :=
  if h = 0 then []
  else s.xdevWalk ++ if xdevCheckHndl s.xdevs d h < 0 then [] else [.xdev h]

/-- What an access of `probe_one` or of the end of `remove_one` goes to. -/
def probeTouched (s : ModState) (d : ℕ) (f : ProbeFate) : List ModObj :=
  match s.pc d with
  | .unbound => s.xdevWalk
  | .opening h _ => .xdev h :: if f.inited then [] else s.xdevWalk
  | .opened h _ => if f.alloc then s.xpdevWalk else closeTouched s d h
  | .listed _ _ p => [.xpdev p]
  | .handled _ _ p => [.xpdev p]
  | .indexed h p => .xpdev p :: if f.cdev then [] else closeTouched s d h
  | .bound _ _ => []
  | .closing h _ => [.xdev h]
  | .closed p => .xpdev p :: s.xpdevWalk
  | .unlisted p => [.xpdev p]

/-- What `remove_one` goes to. -/
def removeTouched (s : ModState) (d : ℕ) : List ModObj :=
  match s.drvdata d with
  | none => []
  | some p => .xpdev p :: closeTouched s d (s.devHndl p)

/-- What an access of a lookup goes to. -/
def readTouched (s : ModState) : List ModObj :=
  match s.reader with
  | .idle => []
  | .config p _ => [.xpdev p]
  | .deref _ h _ => [.xdev h]
  | .check _ _ _ _ => s.xdevWalk
  | .verify _ h _ _ => [.xdev h]
  | .line p h _ => .xpdev p :: (h.map ModObj.xdev).toList
  | .works p h => [.xpdev p, .xdev h]

/-- The objects an event goes to, but for those that it makes. -/
def touched (s : ModState) : ModEv → List ModObj
  | .probe d f => probeTouched s d f
  | .remove d => removeTouched s d
  | .find _ => s.xpdevWalk
  | .dump => []
  | .read _ => readTouched s
  | .finish => []

/-- All of them are in memory. -/
def Safe (s : ModState) (e : ModEv) : Prop := ∀ o ∈ touched s e, s.alive o = true

instance (s : ModState) (e : ModEv) : Decidable (Safe s e) :=
  inferInstanceAs (Decidable (∀ o ∈ touched s e, s.alive o = true))

/-! ## What a lookup keeps -/

/-- The objects that the next access of a lookup goes to with no mutex held: a dump holds the one
of the entries. -/
def NlReader.kept : NlReader → List ModObj
  | .config p .cmd => [.xpdev p]
  | .deref _ h _ => [.xdev h]
  | .verify _ h _ _ => [.xdev h]
  | .line _ h _ => (h.map ModObj.xdev).toList
  | .works p h => [.xpdev p, .xdev h]
  | _ => []

/-- Some PCI function still has what a lookup goes to. -/
def StillThere (s : ModState) : ModEv → Prop
  | .read _ => ∀ o ∈ s.reader.kept, ∃ d, (s.pc d).Has o
  | _ => True

/-- The rest of a dump. -/
def ReadK.rest : ReadK → List ℕ
  | .cmd => []
  | .dump rest => rest

/-- The entries that a lookup refers to. -/
def NlReader.refs : NlReader → List ℕ
  | .idle => []
  | .config p k => p :: k.rest
  | .deref p _ k => p :: k.rest
  | .check p _ _ k => p :: k.rest
  | .verify p _ _ k => p :: k.rest
  | .line p _ rest => p :: rest
  | .works p _ => [p]

/-! ## The driver's accesses -/

variable {s : ModState} {d : ℕ}

theorem ModInv.alive_of_has (h : ModInv s) {o : ModObj} (ho : (s.pc d).Has o) : s.alive o = true :=
  h.custody.alive_of_has (d := d) ho

/-- A walk of the list of devices meets devices in memory. -/
theorem ModInv.xdevWalk_alive (h : ModInv s) : ∀ o ∈ s.xdevWalk, s.alive o = true := by
  intro o ho
  obtain ⟨x, hx, rfl⟩ := List.mem_map.mp ho
  obtain ⟨hhandle, hh, -⟩ := h.xdevs x hx
  refine h.alive_of_has (d := x.pdev) ⟨hh, ?_⟩
  rw [ProbePc.xdev_of_handle (hhandle ▸ hh), hhandle]

/-- A listed entry is in memory. -/
theorem ModInv.alive_of_mem (h : ModInv s) {p : ℕ} (hp : p ∈ s.xpdevs) :
    s.alive (.xpdev p) = true := by
  obtain ⟨d, hd⟩ := (h.xpdevs p).mp hp
  exact h.alive_of_has (d := d) (ProbePc.xpdev_of_entry hd)

/-- A walk of the list of entries meets entries in memory. -/
theorem ModInv.xpdevWalk_alive (h : ModInv s) : ∀ o ∈ s.xpdevWalk, s.alive o = true := by
  intro o ho
  obtain ⟨p, hp, rfl⟩ := List.mem_map.mp ho
  exact h.alive_of_mem hp

/-- `qdma_device_close` of a device with its own handle. -/
theorem ModInv.closeTouched_alive (h : ModInv s) {a : ℕ} (ha : (s.pc d).xdev = a) :
    ∀ o ∈ closeTouched s d a, s.alive o = true := by
  intro o ho
  unfold closeTouched at ho
  split at ho
  · exact absurd ho List.not_mem_nil
  · next hne =>
      obtain hwalk | hown := List.mem_append.mp ho
      · exact h.xdevWalk_alive o hwalk
      · split at hown
        · exact absurd hown List.not_mem_nil
        · rw [List.mem_singleton.mp hown]
          exact h.alive_of_has (d := d) ⟨hne, ha⟩

/-- The entry of a device and what else there is. -/
theorem ModInv.cons_alive (h : ModInv s) {p : ℕ} (hp : (s.pc d).xpdev = some p) {l : List ModObj}
    (hl : ∀ o ∈ l, s.alive o = true) : ∀ o ∈ ModObj.xpdev p :: l, s.alive o = true := by
  intro o ho
  obtain rfl | hrest := List.mem_cons.mp ho
  · exact h.alive_of_has (d := d) (show (s.pc d).Has (.xpdev p) from hp)
  · exact hl o hrest

/-- **The driver's own accesses** are safe. -/
theorem ModInv.probe_safe (h : ModInv s) (f : ProbeFate) : Safe s (.probe d f) := by
  show ∀ o ∈ probeTouched s d f, s.alive o = true
  have hnone : ∀ o ∈ ([] : List ModObj), s.alive o = true :=
    fun o ho => absurd ho List.not_mem_nil
  unfold probeTouched
  cases hat : s.pc d with
  | unbound => exact h.xdevWalk_alive
  | opening a i =>
      have hown : (s.pc d).Has (.xdev a) := by
        rw [hat]
        exact ⟨(h.func d).opening a i hat, rfl⟩
      intro o ho
      obtain rfl | hwalk := List.mem_cons.mp ho
      · exact h.alive_of_has hown
      · split at hwalk
        · exact absurd hwalk List.not_mem_nil
        · exact h.xdevWalk_alive o hwalk
  | opened a i =>
      dsimp only
      split
      · exact h.xpdevWalk_alive
      · exact h.closeTouched_alive (by rw [hat]; rfl)
  | listed a i p => exact h.cons_alive (d := d) (by rw [hat]; rfl) hnone
  | handled a i p => exact h.cons_alive (d := d) (by rw [hat]; rfl) hnone
  | indexed a p =>
      refine h.cons_alive (d := d) (by rw [hat]; rfl) ?_
      split
      · exact hnone
      · exact h.closeTouched_alive (by rw [hat]; rfl)
  | bound a p => exact hnone
  | closing a p =>
      intro o ho
      rw [List.mem_singleton.mp ho]
      exact h.alive_of_has (d := d) (by rw [hat]; exact ⟨(h.func d).closing a p hat, rfl⟩)
  | closed p => exact h.cons_alive (d := d) (by rw [hat]; rfl) h.xpdevWalk_alive
  | unlisted p => exact h.cons_alive (d := d) (by rw [hat]; rfl) hnone

theorem ModInv.remove_safe (h : ModInv s) (hg : modGuard s (.remove d)) : Safe s (.remove d) := by
  obtain ⟨a, p, hat⟩ := ProbePc.of_isBound hg
  show ∀ o ∈ removeTouched s d, s.alive o = true
  unfold removeTouched
  rw [(h.func d).drvdata a p hat]
  dsimp only
  rw [(h.func d).pair p a (by rw [hat]; rfl)]
  exact h.cons_alive (d := d) (by rw [hat]; rfl) (h.closeTouched_alive (by rw [hat]; rfl))

/-! ## Under the mutex of the list -/

/-- What a dump still has to look at stays in the list. -/
def DumpInv (s : ModState) : Prop := s.reader.dumping = true → ∀ p ∈ s.reader.refs, p ∈ s.xpdevs

theorem NlReader.refs_next (l : List ℕ) : (NlReader.next l).refs = l := by
  cases l <;> rfl

theorem devCloseStep_reader (s : ModState) (d h : ℕ) (p : Option ℕ) :
    (devCloseStep s d h p).reader = s.reader ∧ (devCloseStep s d h p).xpdevs = s.xpdevs := by
  unfold devCloseStep
  split <;> exact ⟨rfl, rfl⟩

/-- An open changes the phase of its own device, and nothing that a lookup has or has found. -/
theorem devOpenStep_frame (s : ModState) (d : ℕ) (f : ProbeFate) :
    (devOpenStep s d f).reader = s.reader ∧ (devOpenStep s d f).xpdevs = s.xpdevs ∧
      (devOpenStep s d f).idx = s.idx ∧ ∀ e, e ≠ d → (devOpenStep s d f).pc e = s.pc e := by
  unfold devOpenStep
  split
  · exact ⟨rfl, rfl, rfl, fun _ _ => rfl⟩
  · split
    · split
      · exact ⟨rfl, rfl, rfl, fun _ _ => rfl⟩
      · exact ⟨rfl, rfl, rfl, fun e hne => Function.update_of_ne hne _ _⟩
    · exact ⟨rfl, rfl, rfl, fun e hne => Function.update_of_ne hne _ _⟩

/-- The driver does not touch the state of a lookup. -/
theorem probeStep_reader (s : ModState) (d : ℕ) (f : ProbeFate) :
    (probeStep s d f).reader = s.reader := by
  unfold probeStep
  cases s.pc d with
  | unbound => exact (devOpenStep_frame s d f).1
  | opening a i =>
      dsimp only
      split
      · rfl
      · rfl
  | opened a i =>
      dsimp only
      split
      · rfl
      · exact (devCloseStep_reader ..).1
  | indexed a p =>
      dsimp only
      split
      · rfl
      · exact (devCloseStep_reader ..).1
  | _ => rfl

/-- The list does not change under a dump. -/
theorem probeStep_xpdevs {f : ProbeFate} (hg : (s.pc d).canStep s f)
    (hdump : s.reader.dumping = true) : (probeStep s d f).xpdevs = s.xpdevs := by
  unfold probeStep
  cases hat : s.pc d with
  | unbound => exact (devOpenStep_frame s d f).2.1
  | opening a i =>
      dsimp only
      split
      · rfl
      · rfl
  | opened a i =>
      rw [hat] at hg
      exact absurd hdump (hg.2 ▸ Bool.false_ne_true)
  | indexed a p =>
      dsimp only
      split
      · rfl
      · exact (devCloseStep_reader ..).2
  | closed p =>
      rw [hat] at hg
      exact absurd hdump (hg ▸ Bool.false_ne_true)
  | _ => rfl

theorem removeStep_reader (s : ModState) (d : ℕ) :
    (removeStep s d).reader = s.reader ∧ (removeStep s d).xpdevs = s.xpdevs := by
  unfold removeStep
  split
  · exact ⟨rfl, rfl⟩
  · exact devCloseStep_reader ..

/-- Where the check of a handle can leave a lookup. -/
theorem NlReader.refuse_or_accept {r : NlReader} {p h : ℕ} {k : ReadK}
    (hr : r = .refuse p k ∨ r = .accept p h k) :
    (∀ q ∈ r.refs, q ∈ p :: k.rest) ∧
      (r.dumping = true → (NlReader.config p k).dumping = true) := by
  cases k with
  | cmd =>
      obtain rfl | rfl := hr
      · exact ⟨fun _ hq => absurd hq List.not_mem_nil, id⟩
      · exact ⟨fun _ hq => hq, id⟩
  | dump rest =>
      obtain rfl | rfl := hr
      · exact ⟨fun _ hq => hq, fun _ => rfl⟩
      · exact ⟨fun _ hq => hq, fun _ => rfl⟩

/-- A lookup refers to no entry that it did not refer to before, and does not become a dump. -/
theorem readStep_refs (s : ModState) (full : Bool) :
    (∀ q ∈ (readStep s full).refs, q ∈ s.reader.refs) ∧
      ((readStep s full).dumping = true → s.reader.dumping = true) := by
  unfold readStep
  cases s.reader with
  | idle => exact ⟨fun _ hq => hq, id⟩
  | config p k => cases k <;> exact ⟨fun _ hq => hq, id⟩
  | deref p h k => cases k <;> exact ⟨fun _ hq => hq, id⟩
  | check p h pdev k =>
      have hrefuse := NlReader.refuse_or_accept (h := h) (p := p) (k := k) (Or.inl rfl)
      have hsame : ∀ k', (NlReader.check p h pdev k').dumping = (NlReader.config p k').dumping := by
        intro k'
        cases k' <;> rfl
      rw [hsame]
      dsimp only
      split
      · exact hrefuse
      · split
        · exact hrefuse
        · split
          · exact hrefuse
          · cases k <;> exact ⟨fun _ hq => hq, id⟩
  | verify p h pdev k =>
      have hsame : ∀ k',
          (NlReader.verify p h pdev k').dumping = (NlReader.config p k').dumping := by
        intro k'
        cases k' <;> rfl
      rw [hsame]
      dsimp only
      split
      · exact NlReader.refuse_or_accept (h := h) (Or.inl rfl)
      · exact NlReader.refuse_or_accept (h := h) (Or.inr rfl)
  | line p h rest =>
      refine ⟨fun q hq => ?_, fun _ => rfl⟩
      rw [NlReader.refs_next] at hq
      cases full with
      | false => exact List.mem_cons_of_mem p hq
      | true => exact absurd hq List.not_mem_nil
  | works p h => exact ⟨fun _ hq => hq, id⟩

theorem DumpInv.step (h : DumpInv s) {e : ModEv} (hg : modGuard s e) : DumpInv (modStep s e) := by
  unfold DumpInv at *
  cases e with
  | probe d f =>
      show (probeStep s d f).reader.dumping = true → _
      intro hdump p hp
      rw [probeStep_reader] at hdump
      have hp' : p ∈ (probeStep s d f).reader.refs := hp
      rw [probeStep_reader] at hp'
      show p ∈ (probeStep s d f).xpdevs
      rw [probeStep_xpdevs hg hdump]
      exact h hdump p hp'
  | remove d =>
      show (removeStep s d).reader.dumping = true →
        ∀ p ∈ (removeStep s d).reader.refs, p ∈ (removeStep s d).xpdevs
      rw [(removeStep_reader s d).1, (removeStep_reader s d).2]
      exact h
  | find idx =>
      show (findStep s idx).dumping = true → _
      unfold findStep
      split <;> exact fun hdump => absurd hdump Bool.false_ne_true
  | dump =>
      show _ → ∀ p ∈ (NlReader.next s.xpdevs).refs, p ∈ s.xpdevs
      rw [NlReader.refs_next]
      exact fun _ _ hp => hp
  | read full =>
      show (readStep s full).dumping = true → ∀ p ∈ (readStep s full).refs, p ∈ s.xpdevs
      intro hdump p hp
      obtain ⟨hrefs, hdumping⟩ := readStep_refs s full
      exact h (hdumping hdump) p (hrefs p hp)
  | finish => exact fun hdump => absurd hdump Bool.false_ne_true

/-! ## All accesses -/

/-- **The reads of a lookup** are safe just when what they go to with no mutex held is still
there. -/
theorem ModInv.read_safe (h : ModInv s) (hdump : DumpInv s) (full : Bool) :
    Safe s (.read full) ↔ StillThere s (.read full) := by
  have hhas : ∀ o, s.alive o = true ↔ ∃ d, (s.pc d).Has o := h.custody.alive_iff
  have hkept : StillThere s (.read full) ↔ ∀ o ∈ s.reader.kept, s.alive o = true :=
    forall₂_congr fun o _ => (hhas o).symm
  rw [hkept]
  show (∀ o ∈ readTouched s, s.alive o = true) ↔ _
  unfold DumpInv at hdump
  unfold readTouched
  -- what is touched and not kept is found under a mutex
  cases hat : s.reader with
  | idle => exact Iff.rfl
  | deref p a k => exact Iff.rfl
  | verify p a pdev k => exact Iff.rfl
  | works p a => exact Iff.rfl
  | config p k =>
      cases k with
      | cmd => exact Iff.rfl
      | dump rest =>
          rw [hat] at hdump
          refine ⟨fun _ o ho => absurd ho List.not_mem_nil, fun _ o ho => ?_⟩
          rw [List.mem_singleton.mp ho]
          exact h.alive_of_mem (hdump rfl p List.mem_cons_self)
  | check p a pdev k =>
      exact ⟨fun _ o ho => absurd ho List.not_mem_nil, fun _ => h.xdevWalk_alive⟩
  | line p a rest =>
      rw [hat] at hdump
      refine ⟨fun hall o ho => hall o (List.mem_cons_of_mem _ ho), fun hall o ho => ?_⟩
      obtain rfl | hrest := List.mem_cons.mp ho
      · exact h.alive_of_mem (hdump rfl p List.mem_cons_self)
      · exact hall o hrest

/-- An access is safe just when a lookup's is. -/
theorem ModInv.safe_iff (h : ModInv s) (hdump : DumpInv s) {e : ModEv} (hg : modGuard s e) :
    Safe s e ↔ StillThere s e := by
  cases e with
  | probe d f => exact iff_of_true (h.probe_safe f) trivial
  | remove d => exact iff_of_true (h.remove_safe hg) trivial
  | find idx => exact iff_of_true h.xpdevWalk_alive trivial
  | dump => exact iff_of_true (fun o ho => absurd ho List.not_mem_nil) trivial
  | read full => exact h.read_safe hdump full
  | finish => exact iff_of_true (fun o ho => absurd ho List.not_mem_nil) trivial

/-- **When all accesses are safe**: devices are probed and removed and their probes fail, in
`qdma_device_open` or behind it, in any order, and lookups go on meanwhile.  All accesses of a
run meet memory just when each that a lookup makes with no mutex held goes to what some PCI
function still has. -/
theorem lookup_safe_iff (es : List ModEv) (hrun : modSys.Admits .init es) :
    modSys.EachStep (fun s e _ => Safe s e) .init es ↔
      (modSys.restrict StillThere).Admits .init es := by
  refine modSys.eachStep_iff_admits (I := fun s => ModInv s ∧ DumpInv s) ?_ ?_ es
    ⟨ModInv.init, fun hdump => absurd hdump Bool.false_ne_true⟩ hrun
  · exact fun s e hs hg => hs.1.safe_iff hs.2 hg
  · exact fun s e hs hg _ => ⟨hs.1.step hg, hs.2.step hg⟩

/-- A device is being probed, and has an entry without a handle. -/
def probing (f : ProbeFate) (n : ℕ) : List ModEv := List.replicate n (.probe 7 f)

/-- All goes well. -/
def goodFate : ProbeFate :=
  { hndl := 16, refused := none, inited := true, xpdev := 32, alloc := true, cdev := true }

/-- A command for the device 255 comes while a device is being probed. -/
def earlyLookup : List ModEv := probing goodFate 3 ++ [.find 255, .read false, .read false]

/-- The device of a command is removed under it. -/
def lateLookup : List ModEv :=
  probing goodFate 6 ++ [.find 0, .read false, .remove 7, .probe 7 goodFate, .read false]

theorem lookup_safe_iff_early :
    ¬ modSys.EachStep (fun s e _ => Safe s e) .init earlyLookup ∧
      ¬ (modSys.restrict StillThere).Admits .init earlyLookup := by
  have hwrong : ¬ modSys.EachStep (fun s e _ => Safe s e) .init earlyLookup := by decide
  exact ⟨hwrong, fun h => hwrong ((lookup_safe_iff earlyLookup (by decide)).mpr h)⟩

example : ¬ modSys.EachStep (fun s e _ => Safe s e) .init lateLookup := by decide

/-! ## Undisturbed lookups -/

/-- The entry is that of a device that is bound, with its handle. -/
def HasDevice (s : ModState) (p : ℕ) : Prop := ∃ d h, h ≠ 0 ∧ s.pc d = .bound h p

/-- Commands are for devices that are bound, a dump comes when all are, and no device is removed
while a lookup refers to its entry. -/
def Undisturbed (s : ModState) : ModEv → Prop
  | .find idx => ∀ p, (s.xpdevs.find? fun p => s.idx p = idx) = some p → HasDevice s p
  | .dump => ∀ p ∈ s.xpdevs, HasDevice s p
  | .remove d => ∀ p, s.drvdata d = some p → p ∉ s.reader.refs
  | _ => True

/-- What is wanted of a step. -/
structure LookupRight (s : ModState) (e : ModEv) (s' : ModState) : Prop where
  safe : Safe s e
  /-- The check of a handle passes. -/
  passes : ∀ full, e = .read full → ∀ p h pdev k,
    (s.reader = .check p h pdev k → s'.reader = .verify p h pdev k) ∧
      (s.reader = .verify p h pdev k → s'.reader = .accept p h k)
  /-- The index of an entry that a lookup refers to stays. -/
  index : ∀ p ∈ s'.reader.refs, s'.idx p = s.idx p
  /-- A command works on the device with the index of the entry that it found. -/
  device : ∀ p h, s'.reader = .works p h → ∃ x ∈ s'.xdevs, x.hndl = h ∧ x.idx = s'.idx p

/-- The handle that a lookup has read is that of the device that is bound with the entry. -/
def NlReader.Right (s : ModState) : NlReader → Prop
  | .deref p h _ => ∃ d, h ≠ 0 ∧ s.pc d = .bound h p
  | .check p h pdev _ => h ≠ 0 ∧ s.pc pdev = .bound h p
  | .verify p h pdev _ => h ≠ 0 ∧ s.pc pdev = .bound h p
  | .line p h _ => ∃ d a, h = some a ∧ a ≠ 0 ∧ s.pc d = .bound a p
  | .works p h => ∃ d, h ≠ 0 ∧ s.pc d = .bound h p
  | _ => True

/-- A lookup is on its way to devices that are bound. -/
structure LookupInv (s : ModState) : Prop where
  mod : ModInv s
  dump : DumpInv s
  settled : ∀ p ∈ s.reader.refs, HasDevice s p
  right : s.reader.Right s

/-- A lookup stays on its way while the devices that it refers to stay bound. -/
theorem NlReader.Right.mono {s' : ModState} {r : NlReader} (h : r.Right s)
    (hkept : ∀ p ∈ r.refs, ∀ d a, s.pc d = .bound a p → s'.pc d = .bound a p) : r.Right s' := by
  cases r with
  | idle => trivial
  | config p k => trivial
  | deref p a k =>
      obtain ⟨d, ha, hat⟩ := h
      exact ⟨d, ha, hkept p List.mem_cons_self d a hat⟩
  | check p a pdev k => exact ⟨h.1, hkept p List.mem_cons_self pdev a h.2⟩
  | verify p a pdev k => exact ⟨h.1, hkept p List.mem_cons_self pdev a h.2⟩
  | line p a rest =>
      obtain ⟨d, b, ha, hb, hat⟩ := h
      exact ⟨d, b, ha, hb, hkept p List.mem_cons_self d b hat⟩
  | works p a =>
      obtain ⟨d, ha, hat⟩ := h
      exact ⟨d, ha, hkept p List.mem_cons_self d a hat⟩

theorem devCloseStep_other (s : ModState) (d h : ℕ) (p : Option ℕ) :
    (∀ e, e ≠ d → (devCloseStep s d h p).pc e = s.pc e) ∧ (devCloseStep s d h p).idx = s.idx := by
  unfold devCloseStep
  split <;> exact ⟨fun e hne => Function.update_of_ne hne _ _, rfl⟩

/-- The driver leaves the phases of other devices. -/
theorem probeStep_other {e : ℕ} (hne : e ≠ d) (f : ProbeFate) :
    (probeStep s d f).pc e = s.pc e := by
  unfold probeStep
  cases s.pc d with
  | unbound => exact (devOpenStep_frame s d f).2.2.2 e hne
  | opening a i =>
      dsimp only
      split
      · exact Function.update_of_ne hne _ _
      · exact Function.update_of_ne hne _ _
  | opened a i =>
      dsimp only
      split
      · exact Function.update_of_ne hne _ _
      · exact (devCloseStep_other ..).1 e hne
  | indexed a p =>
      dsimp only
      split
      · exact Function.update_of_ne hne _ _
      · exact (devCloseStep_other ..).1 e hne
  | bound a p => rfl
  | _ => exact Function.update_of_ne hne _ _

/-- A device that is bound stays bound while others are probed, and keeps its index. -/
theorem ModInv.probe_bound (h : ModInv s) {f : ProbeFate} (hg : (s.pc d).canStep s f) {e a p : ℕ}
    (hat : s.pc e = .bound a p) :
    (probeStep s d f).pc e = .bound a p ∧ (probeStep s d f).idx p = s.idx p := by
  have hp : (s.pc e).xpdev = some p := by rw [hat]; rfl
  rcases eq_or_ne e d with rfl | hne
  · unfold probeStep
    rw [hat]
    exact ⟨hat, rfl⟩
  · refine ⟨(probeStep_other hne f).trans hat, ?_⟩
    unfold probeStep
    cases hd : s.pc d with
    | unbound =>
        dsimp only
        rw [(devOpenStep_frame s d f).2.2.1]
    | opening b i =>
        dsimp only
        split
        · rfl
        · rfl
    | opened b i =>
        rw [hd] at hg
        dsimp only
        split
        · refine Function.update_of_ne (fun heq : p = f.xpdev => ?_) _ _
          exact h.custody.not_has (not_alive hg.1) e
            (show (s.pc e).xpdev = some f.xpdev by rw [hp, heq])
        · rw [(devCloseStep_other ..).2]
    | handled b i q =>
        refine Function.update_of_ne (fun heq : p = q => ?_) _ _
        exact h.other_xpdev (d := d) hne (by rw [hd, heq]; rfl) hp
    | indexed b q =>
        dsimp only
        split
        · rfl
        · rw [(devCloseStep_other ..).2]
    | _ => rfl

/-- A device that is bound stays bound while others are removed. -/
theorem ModInv.remove_bound (h : ModInv s) {e a p : ℕ} (hat : s.pc e = .bound a p)
    (hkeep : ∀ q, s.drvdata d = some q → q ≠ p) :
    (removeStep s d).pc e = .bound a p ∧ (removeStep s d).idx = s.idx := by
  have hne : e ≠ d := by
    rintro rfl
    exact hkeep p ((h.func e).drvdata a p hat) rfl
  unfold removeStep
  split
  · exact ⟨hat, rfl⟩
  · exact ⟨((devCloseStep_other ..).1 e hne).trans hat, (devCloseStep_other ..).2⟩

/-- The device of a lookup is found by its PCI function. -/
theorem ModInv.check_passes (h : ModInv s) {p a pdev : ℕ} {k : ReadK} (full : Bool)
    (hreader : s.reader = .check p a pdev k) (hright : a ≠ 0 ∧ s.pc pdev = .bound a p) :
    readStep s full = .verify p a pdev k := by
  have hhandle : (s.pc pdev).handle = a := by
    rw [hright.2]
    rfl
  obtain ⟨hpdev, x, hx, hhndl, -⟩ := h.found (hhandle.symm ▸ hright.1)
  unfold readStep
  rw [hreader]
  dsimp only
  rw [if_neg hpdev, hx]
  dsimp only
  rw [if_neg fun hne => hne (hhndl.trans hhandle)]

/-- The PCI function of a device that is bound. -/
theorem ModInv.pdevOf_bound (h : ModInv s) {a p : ℕ} (ha : a ≠ 0) (hat : s.pc d = .bound a p) :
    s.pdevOf a = d := by
  have hpdev := (h.func d).pdev
  rw [hat] at hpdev
  exact hpdev ha

theorem ModInv.verify_passes (h : ModInv s) {p a pdev : ℕ} {k : ReadK} (full : Bool)
    (hreader : s.reader = .verify p a pdev k) (hright : a ≠ 0 ∧ s.pc pdev = .bound a p) :
    readStep s full = .accept p a k := by
  unfold readStep
  rw [hreader]
  dsimp only
  rw [if_neg fun hne => hne (h.pdevOf_bound hright.1 hright.2)]

/-- **A lookup stays on its way**: one access. -/
theorem LookupInv.right_read (h : LookupInv s) (full : Bool) : (readStep s full).Right s := by
  have hright := h.right
  cases hreader : s.reader with
  | idle =>
      unfold readStep
      rw [hreader]
      trivial
  | config p k =>
      obtain ⟨d, a, ha, hat⟩ := h.settled p (by rw [hreader]; exact List.mem_cons_self)
      have hhndl := (h.mod.func d).pair p a (by rw [hat]; rfl)
      unfold readStep
      rw [hreader]
      show ∃ d, s.devHndl p ≠ 0 ∧ s.pc d = .bound (s.devHndl p) p
      rw [hhndl]
      exact ⟨d, ha, hat⟩
  | deref p a k =>
      rw [hreader] at hright
      obtain ⟨d, ha, hat⟩ := hright
      unfold readStep
      rw [hreader]
      show a ≠ 0 ∧ s.pc (s.pdevOf a) = .bound a p
      rw [h.mod.pdevOf_bound ha hat]
      exact ⟨ha, hat⟩
  | check p a pdev k =>
      rw [hreader] at hright
      rw [h.mod.check_passes full hreader hright]
      exact hright
  | verify p a pdev k =>
      rw [hreader] at hright
      rw [h.mod.verify_passes full hreader hright]
      cases k with
      | cmd => exact ⟨pdev, hright⟩
      | dump rest => exact ⟨pdev, a, rfl, hright⟩
  | line p a rest =>
      unfold readStep
      rw [hreader]
      dsimp only
      cases (if full = true then [] else rest) <;> trivial
  | works p a =>
      rw [hreader] at hright
      unfold readStep
      rw [hreader]
      exact hright

/-- The devices of a lookup stay bound, with their indexes. -/
theorem LookupInv.bound (h : LookupInv s) {e : ModEv} (hg : modGuard s e) (hquiet : Undisturbed s e)
    {p a : ℕ} (hat : s.pc d = .bound a p) (hp : p ∈ s.reader.refs ∨ ∀ d', e ≠ .remove d') :
    (modStep s e).pc d = .bound a p ∧ (modStep s e).idx p = s.idx p := by
  cases e with
  | probe d' f => exact h.mod.probe_bound hg hat
  | remove d' =>
      have hmem : p ∈ s.reader.refs := hp.resolve_right fun hne => hne d' rfl
      have hkept := h.mod.remove_bound (d := d') hat fun q hq heq => hquiet q hq (heq ▸ hmem)
      exact ⟨hkept.1, congrFun hkept.2 p⟩
  | find idx => exact ⟨hat, rfl⟩
  | dump => exact ⟨hat, rfl⟩
  | read full => exact ⟨hat, rfl⟩
  | finish => exact ⟨hat, rfl⟩

/-- Every entry that a lookup refers to after a step it referred to before, or has just found at
a device that is bound. -/
theorem LookupInv.settled_before (h : LookupInv s) {e : ModEv} (hquiet : Undisturbed s e) :
    ∀ p ∈ (modStep s e).reader.refs,
      HasDevice s p ∧ (p ∈ s.reader.refs ∨ ∀ d', e ≠ .remove d') := by
  cases e with
  | probe d f =>
      show ∀ p ∈ (probeStep s d f).reader.refs, _
      rw [probeStep_reader]
      exact fun p hp => ⟨h.settled p hp, Or.inl hp⟩
  | remove d =>
      show ∀ p ∈ (removeStep s d).reader.refs, _
      rw [(removeStep_reader s d).1]
      exact fun p hp => ⟨h.settled p hp, Or.inl hp⟩
  | find idx =>
      intro p hp
      refine ⟨hquiet p ?_, Or.inr fun _ heq => ModEv.noConfusion heq⟩
      have hp' : p ∈ (findStep s idx).refs := hp
      unfold findStep at hp'
      cases hfind : s.xpdevs.find? fun p => s.idx p = idx with
      | none =>
          rw [hfind] at hp'
          exact absurd hp' List.not_mem_nil
      | some q =>
          rw [hfind] at hp'
          rw [List.mem_singleton.mp hp']
  | dump =>
      intro p hp
      have hp' : p ∈ (NlReader.next s.xpdevs).refs := hp
      rw [NlReader.refs_next] at hp'
      exact ⟨hquiet p hp', Or.inr fun _ heq => ModEv.noConfusion heq⟩
  | read full =>
      intro p hp
      have hold := (readStep_refs s full).1 p hp
      exact ⟨h.settled p hold, Or.inl hold⟩
  | finish => exact fun p hp => absurd hp List.not_mem_nil

/-- A lookup that was on its way is so after a step. -/
theorem LookupInv.step (h : LookupInv s) {e : ModEv} (hg : modGuard s e)
    (hquiet : Undisturbed s e) : LookupInv (modStep s e) where
  mod := h.mod.step hg
  dump := h.dump.step hg
  settled p hp := by
    obtain ⟨⟨d, a, ha, hat⟩, hwho⟩ := h.settled_before hquiet p hp
    exact ⟨d, a, ha, (h.bound hg hquiet hat hwho).1⟩
  right := by
    have hkept : ∀ p ∈ s.reader.refs, ∀ d a, s.pc d = .bound a p →
        (modStep s e).pc d = .bound a p :=
      fun p hp d a hat => (h.bound hg hquiet hat (Or.inl hp)).1
    cases e with
    | probe d f =>
        show (probeStep s d f).reader.Right _
        rw [probeStep_reader]
        exact h.right.mono hkept
    | remove d =>
        show (removeStep s d).reader.Right _
        rw [(removeStep_reader s d).1]
        exact h.right.mono hkept
    | find idx =>
        show (findStep s idx).Right _
        unfold findStep
        split <;> trivial
    | dump =>
        show (NlReader.next s.xpdevs).Right _
        cases s.xpdevs <;> trivial
    | read full => exact (h.right_read full).mono fun _ _ _ _ hat => hat
    | finish => trivial

/-- The accesses of a lookup that is on its way are safe. -/
theorem LookupInv.stillThere (h : LookupInv s) (full : Bool) : StillThere s (.read full) := by
  have hright := h.right
  have hentry : ∀ p ∈ s.reader.refs, ∃ d, (s.pc d).Has (.xpdev p) := by
    intro p hp
    obtain ⟨d, a, -, hat⟩ := h.settled p hp
    exact ⟨d, by rw [hat]; exact (rfl : some p = some p)⟩
  have hdev : ∀ d a p, a ≠ 0 → s.pc d = .bound a p → ∃ d, (s.pc d).Has (.xdev a) :=
    fun d a p ha hat => ⟨d, by rw [hat]; exact ⟨ha, rfl⟩⟩
  show ∀ o ∈ s.reader.kept, ∃ d, (s.pc d).Has o
  cases hreader : s.reader with
  | idle => exact fun o ho => absurd ho List.not_mem_nil
  | config p k =>
      rw [hreader] at hentry
      cases k with
      | cmd =>
          intro o ho
          rw [List.mem_singleton.mp ho]
          exact hentry p List.mem_cons_self
      | dump rest => exact fun o ho => absurd ho List.not_mem_nil
  | deref p a k =>
      rw [hreader] at hright
      obtain ⟨d, ha, hat⟩ := hright
      intro o ho
      rw [List.mem_singleton.mp ho]
      exact hdev d a p ha hat
  | check p a pdev k => exact fun o ho => absurd ho List.not_mem_nil
  | verify p a pdev k =>
      rw [hreader] at hright
      intro o ho
      rw [List.mem_singleton.mp ho]
      exact hdev pdev a p hright.1 hright.2
  | line p a rest =>
      rw [hreader] at hright
      obtain ⟨d, b, rfl, hb, hat⟩ := hright
      intro o ho
      rw [List.mem_singleton.mp ho]
      exact hdev d b p hb hat
  | works p a =>
      rw [hreader] at hright hentry
      obtain ⟨d, ha, hat⟩ := hright
      intro o ho
      obtain rfl | ho := List.mem_cons.mp ho
      · exact hentry p List.mem_cons_self
      · rw [List.mem_singleton.mp ho]
        exact hdev d a p ha hat

/-- **A step that does not disturb a lookup** is as it should be. -/
theorem LookupInv.lookupRight (h : LookupInv s) {e : ModEv} (hg : modGuard s e)
    (hquiet : Undisturbed s e) : LookupRight s e (modStep s e) where
  safe := by
    refine (h.mod.safe_iff h.dump hg).mpr ?_
    cases e with
    | read full => exact h.stillThere full
    | _ => trivial
  passes := by
    rintro full rfl p a pdev k
    have hright := h.right
    refine ⟨fun hreader => ?_, fun hreader => ?_⟩
    · rw [hreader] at hright
      exact h.mod.check_passes full hreader hright
    · rw [hreader] at hright
      exact h.mod.verify_passes full hreader hright
  index p hp := by
    obtain ⟨⟨d, a, -, hat⟩, hwho⟩ := h.settled_before hquiet p hp
    exact (h.bound hg hquiet hat hwho).2
  device p a hreader := by
    have hnext := h.step hg hquiet
    have hright := hnext.right
    rw [hreader] at hright
    obtain ⟨d, ha, hat⟩ := hright
    have hopen := (hnext.mod.func d).open'
    rw [hat] at hopen
    obtain ⟨x, hx, rfl, hidx⟩ := hopen ha
    have hhandle := (hnext.mod.xdevs x hx).1
    rw [hat] at hhandle
    exact ⟨x, hx, hhandle.symm, hidx _ rfl⟩

/-- **Lookups that nothing disturbs**: commands look up devices that are bound, and a device is
not removed while a lookup refers to it; other devices are probed and removed meanwhile.  All
accesses meet memory, no check of a handle refuses, and a command works on the device with the
index of the entry it has found. -/
theorem undisturbed_lookups (es : List ModEv)
    (hrun : (modSys.restrict Undisturbed).Admits .init es) :
    modSys.EachStep LookupRight .init es := by
  refine modSys.eachStep_restrict (I := LookupInv) ?_ es ?_ hrun
  · exact fun s e hs hg hquiet => ⟨hs.lookupRight hg hquiet, hs.step hg hquiet⟩
  · exact ⟨ModInv.init, fun hdump => absurd hdump Bool.false_ne_true,
      fun p hp => absurd hp List.not_mem_nil, trivial⟩

/-- A device is removed after a command for it, with another probed meanwhile. -/
def twoDevices : List ModEv :=
  probing goodFate 6 ++
    [.find 0, .read false, .probe 9 { goodFate with hndl := 48, xpdev := 64 }, .read false,
      .read false, .read false, .finish, .remove 7]

theorem undisturbed_lookups_two : modSys.EachStep LookupRight .init twoDevices := by
  refine undisturbed_lookups twoDevices ?_
  refine ⟨⟨by decide, trivial⟩, ⟨by decide, trivial⟩, ⟨by decide, trivial⟩, ⟨by decide, trivial⟩,
    ⟨by decide, trivial⟩, ⟨by decide, trivial⟩, ⟨by decide, ?_⟩, ⟨by decide, trivial⟩,
    ⟨by decide, trivial⟩, ⟨by decide, trivial⟩, ⟨by decide, trivial⟩, ⟨by decide, trivial⟩,
    ⟨by decide, trivial⟩, ⟨by decide, ?_⟩, trivial⟩
  · intro p hp
    exact ⟨7, 16, by decide, by cases hp; rfl⟩
  · exact fun p _ hp => absurd hp List.not_mem_nil

end Qdma

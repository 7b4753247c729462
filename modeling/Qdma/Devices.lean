import Qdma.Defs
import Qdma.Lib.Numbering
import Qdma.Lib.Trace

/-!
# The devices and their indexes

`qdma_device_open` puts a device at the end of `xdev_list` with the index after that of the
device before it, `qdma_device_close` takes it out; the module keeps a list of its own with
the same indexes (`xpdev_list`), and both are searched by index.

An index is a byte.  After 256 devices it starts over, and nobody asks whether the device
that had it first is still there: `IndexFree`.  `device_indexes_unique_iff` says that this is
all that can go wrong.

* `qdmaDeviceOpen` and `qdmaDeviceClose` are the calls, as far as the list goes; `devSys` the
  system of them and of the rest of `probe_one`.
* Devices come and go in any order; a numbering of all devices ever opened is what the
  indexes are read from in the proof (`Lib.Numbered`).
-/

namespace Qdma

open Lib

/-! ## The lists -/

/-- `struct xlnx_dma_dev`, the fields the list is searched by, with its address. -/
structure Xdev where
  hndl : ℕ
  pdev : ℕ
  idx : ℕ
  deriving DecidableEq

/-- `struct xlnx_pci_dev`, likewise. -/
structure Xpdev where
  idx : ℕ
  devHndl : ℕ
  deriving DecidableEq

/-- `xdev_list_add`; `idx` is a `u8`. -/
def xdevListAdd (l : List Xdev) (hndl pdev : ℕ) : List Xdev :=
  match l.getLast? with
  | none => l ++ [{ hndl := hndl, pdev := pdev, idx := 0 }]
  | some last => l ++ [{ hndl := hndl, pdev := pdev, idx := (last.idx + 1) % 2 ^ 8 }]

/-- `xdev_list_remove`. -/
def xdevListRemove (l : List Xdev) (hndl : ℕ) : List Xdev := l.filter fun d => d.hndl ≠ hndl

/-- `xdev_find_by_pdev`. -/
def xdevFindByPdev (l : List Xdev) (pdev : ℕ) : Option Xdev := l.find? fun d => d.pdev = pdev

/-- `xdev_find_by_idx`. -/
def xdevFindByIdx (l : List Xdev) (idx : ℕ) : Option Xdev := l.find? fun d => d.idx = idx

/-- `xpdev_find_by_idx`. -/
def xpdevFindByIdx (l : List Xpdev) (idx : ℕ) : Option Xpdev := l.find? fun p => p.idx = idx

/-- `xdev_check_hndl`. -/
def xdevCheckHndl (l : List Xdev) (pdev hndl : ℕ) : ℤ :=
  if pdev = 0 then -einval
  else
    match xdevFindByPdev l pdev with
    | none => -einval
    | some xdev =>
        if xdev.hndl ≠ hndl then -einval
        else if xdev.pdev ≠ pdev then -einval
        else 0

/-! ## Opening and closing -/

/-- How the rest of `qdma_device_open` goes: a PCI function or the memory for the device is
not to be had, the BARs or `qdma_device_init` fail with the device in the list, or nothing
fails. -/
inductive OpenFate
  | refused (rv : ℤ)
  | fails (rv : ℤ)
  | opens
  deriving DecidableEq

/-- `qdma_device_open`: the result, `*dev_hndl` and the list.  `hndl` is the address the
device gets. -/
def qdmaDeviceOpen (l : List Xdev) (pdev hndl : ℕ) (fate : OpenFate) : ℤ × ℕ × List Xdev :=
  if pdev = 0 then (-einval, 0, l)
  else if (xdevFindByPdev l pdev).isSome then (-einval, 0, l)
  else
    match fate with
    | .refused rv => (rv, 0, l)
    | .fails rv => (rv, 0, xdevListRemove (xdevListAdd l hndl pdev) hndl)
    | .opens => (0, hndl, xdevListAdd l hndl pdev)

/-- `qdma_device_close`, as far as the list goes. -/
def qdmaDeviceClose (l : List Xdev) (pdev hndl : ℕ) : List Xdev :=
  if hndl = 0 then l
  else if xdevCheckHndl l pdev hndl < 0 then l
  else xdevListRemove l hndl

structure DevLists where
  xdevs : List Xdev
  xpdevs : List Xpdev

inductive DevEv
  | openDev (pdev hndl : ℕ) (fate : OpenFate)
  | bind (hndl : ℕ)
  | closeDev (pdev hndl : ℕ)
  deriving DecidableEq

/-- Devices are opened and closed in any order.  `bind` is what `probe_one` does after a
successful open: a new `xpdev` takes the index of the device; `remove_one` closes the device
and frees its `xpdev`.  A new device has an address of its own. -/
def devSys : System DevLists DevEv where
  step s
    | .openDev pdev hndl fate => { s with xdevs := (qdmaDeviceOpen s.xdevs pdev hndl fate).2.2 }
    | .bind hndl =>
        match s.xdevs.find? fun d => d.hndl = hndl with
        | none => s
        | some d => { s with xpdevs := s.xpdevs ++ [{ idx := d.idx, devHndl := hndl }] }
    | .closeDev pdev hndl =>
        { s with
          xdevs := qdmaDeviceClose s.xdevs pdev hndl
          xpdevs :=
            if hndl = 0 ∨ xdevCheckHndl s.xdevs pdev hndl < 0 then s.xpdevs
            else s.xpdevs.filter fun p => p.devHndl ≠ hndl }
  guard s
    | .openDev _ hndl _ => hndl ≠ 0 ∧ ∀ d ∈ s.xdevs, d.hndl ≠ hndl
    | .bind hndl => ∀ p ∈ s.xpdevs, p.devHndl ≠ hndl
    | .closeDev _ _ => True

instance (s : DevLists) : ∀ e, Decidable (devSys.guard s e) := by
  rintro ⟨⟩ <;> dsimp only [devSys] <;> infer_instance

/-- No device yet. -/
def noDevices : DevLists := { xdevs := [], xpdevs := [] }

/-! ## What an index is for -/

/-- An index names one device, in both lists. -/
structure IdxUnique (s : DevLists) : Prop where
  distinct : (s.xdevs.map (·.idx)).Nodup
  found : ∀ d ∈ s.xdevs, xdevFindByIdx s.xdevs d.idx = some d
  keyed : ∀ p ∈ s.xpdevs, ∃ d ∈ s.xdevs, d.hndl = p.devHndl ∧ d.idx = p.idx
  xpdistinct : (s.xpdevs.map (·.idx)).Nodup
  xpfound : ∀ p ∈ s.xpdevs, xpdevFindByIdx s.xpdevs p.idx = some p

/-- A device that is opened behind others does not get the index of the first of them. -/
def IndexFree (s : DevLists) : DevEv → Prop
  | .openDev pdev _ .opens =>
      pdev ≠ 0 → xdevFindByPdev s.xdevs pdev = none →
        ∀ first last, s.xdevs.head? = some first → s.xdevs.getLast? = some last →
          (last.idx + 1) % 2 ^ 8 ≠ first.idx
  | _ => True

/-! ## The invariant -/

/-- The first entry with a value is the only one. -/
theorem find?_of_nodup {α : Type} {f : α → ℕ} {l : List α} (h : (l.map f).Nodup) {a : α}
    (ha : a ∈ l) : (l.find? fun b => f b = f a) = some a := by
  obtain ⟨b, hb⟩ : ∃ b, (l.find? fun b => f b = f a) = some b := by
    refine Option.isSome_iff_exists.mp ?_
    rw [List.find?_isSome]
    exact ⟨a, ha, decide_eq_true rfl⟩
  have hmem := List.mem_of_find?_eq_some hb
  have hf : f b = f a := by simpa only [decide_eq_true_eq] using List.find?_some hb
  rw [hb, List.inj_on_of_nodup_map h hmem ha hf]

/-- The devices are numbered, and each `xpdev` belongs to one of them. -/
structure DevInv (s : DevLists) : Prop where
  numbered : ∃ ser, Numbered (2 ^ 8) Xdev.idx ser s.xdevs
  keyed : ∀ p ∈ s.xpdevs, ∃ d ∈ s.xdevs, d.hndl = p.devHndl ∧ d.idx = p.idx
  bound : (s.xpdevs.map (·.devHndl)).Nodup
  hndls : (s.xdevs.map (·.hndl)).Nodup

namespace DevInv

variable {s : DevLists}

theorem idxUnique (h : DevInv s) : IdxUnique s := by
  obtain ⟨ser, hser⟩ := h.numbered
  have hdistinct : (s.xdevs.map (·.idx)).Nodup := hser.nodup
  have hxp : (s.xpdevs.map (·.idx)).Nodup := by
    refine List.Nodup.map_on ?_ (List.Nodup.of_map _ h.bound)
    intro p hp q hq hidx
    obtain ⟨d, hd, hdp, hdi⟩ := h.keyed p hp
    obtain ⟨e, he, heq, hei⟩ := h.keyed q hq
    have hsame : d = e := List.inj_on_of_nodup_map hdistinct hd he (hdi.trans (hidx.trans hei.symm))
    refine List.inj_on_of_nodup_map h.bound hp hq ?_
    rw [← hdp, hsame, heq]
  exact ⟨hdistinct, fun d hd => find?_of_nodup hdistinct hd, h.keyed, hxp,
    fun p hp => find?_of_nodup hxp hp⟩

/-- A device is added. -/
theorem add (h : DevInv s) {hndl : ℕ} (pdev : ℕ) (hnew : ∀ d ∈ s.xdevs, d.hndl ≠ hndl)
    (hfree : ∀ first last, s.xdevs.head? = some first → s.xdevs.getLast? = some last →
      (last.idx + 1) % 2 ^ 8 ≠ first.idx) :
    DevInv { s with xdevs := xdevListAdd s.xdevs hndl pdev } := by
  obtain ⟨ser, hser⟩ := h.numbered
  obtain ⟨idx, hadd, hnumbered⟩ : ∃ idx,
      xdevListAdd s.xdevs hndl pdev = s.xdevs ++ [{ hndl := hndl, pdev := pdev, idx := idx }] ∧
        ∃ ser', Numbered (2 ^ 8) Xdev.idx ser' (xdevListAdd s.xdevs hndl pdev) := by
    unfold xdevListAdd
    cases hlast : s.xdevs.getLast? with
    | none =>
        refine ⟨0, rfl, fun _ => 0, ?_⟩
        rw [List.getLast?_eq_none_iff.mp hlast]
        exact Numbered.singleton (by decide) _ rfl
    | some last =>
        refine ⟨_, rfl, ?_⟩
        obtain ⟨first, hfirst⟩ : ∃ first, s.xdevs.head? = some first := by
          cases hl : s.xdevs with
          | nil =>
              rw [hl] at hlast
              cases hlast
          | cons first rest => exact ⟨first, rfl⟩
        refine hser.concat hfirst hlast (fun hmem => hnew _ hmem rfl) rfl ?_
        exact hfree first last hfirst hlast
  refine ⟨hnumbered, fun p hp => ?_, h.bound, ?_⟩
  · obtain ⟨d, hd, hrest⟩ := h.keyed p hp
    refine ⟨d, ?_, hrest⟩
    rw [hadd]
    exact List.mem_append_left _ hd
  · rw [hadd, List.map_append]
    refine List.nodup_append.mpr ⟨h.hndls, List.nodup_singleton _, ?_⟩
    intro a ha b hb
    obtain ⟨d, hd, rfl⟩ := List.mem_map.mp ha
    rw [List.mem_singleton.mp hb]
    exact hnew d hd

/-- A device is removed, with its `xpdev`. -/
theorem remove (h : DevInv s) (hndl : ℕ) :
    DevInv
      { xdevs := xdevListRemove s.xdevs hndl
        xpdevs := s.xpdevs.filter fun p => p.devHndl ≠ hndl } := by
  obtain ⟨ser, hser⟩ := h.numbered
  refine ⟨⟨ser, hser.sublist List.filter_sublist⟩, fun p hp => ?_,
    h.bound.sublist (List.filter_sublist.map _), h.hndls.sublist (List.filter_sublist.map _)⟩
  obtain ⟨hmem, hne⟩ := List.mem_filter.mp hp
  obtain ⟨d, hd, hhndl, hidx⟩ := h.keyed p hmem
  refine ⟨d, List.mem_filter.mpr ⟨hd, ?_⟩, hhndl, hidx⟩
  rw [hhndl]
  exact hne

/-- An `xpdev` is bound to a device. -/
theorem bind (h : DevInv s) {d : Xdev} (hd : d ∈ s.xdevs)
    (hnew : ∀ p ∈ s.xpdevs, p.devHndl ≠ d.hndl) :
    DevInv { s with xpdevs := s.xpdevs ++ [{ idx := d.idx, devHndl := d.hndl }] } := by
  refine ⟨h.numbered, fun p hp => ?_, ?_, h.hndls⟩
  · obtain hold | heq := List.mem_append.mp hp
    · exact h.keyed p hold
    · rw [List.mem_singleton.mp heq]
      exact ⟨d, hd, rfl, rfl⟩
  · rw [List.map_append]
    refine List.nodup_append.mpr ⟨h.bound, List.nodup_singleton _, ?_⟩
    intro a ha b hb
    obtain ⟨p, hp, rfl⟩ := List.mem_map.mp ha
    rw [List.mem_singleton.mp hb]
    exact hnew p hp

end DevInv

/-! ## One step -/

/-- A device that was added and taken out again leaves the list as it was. -/
theorem remove_add {l : List Xdev} {hndl : ℕ} (pdev : ℕ) (hnew : ∀ d ∈ l, d.hndl ≠ hndl) :
    xdevListRemove (xdevListAdd l hndl pdev) hndl = l := by
  have hkept : l.filter (fun d => d.hndl ≠ hndl) = l :=
    List.filter_eq_self.mpr fun d hd => decide_eq_true (hnew d hd)
  have hgone : ∀ idx, xdevListRemove (l ++ [{ hndl := hndl, pdev := pdev, idx := idx }]) hndl = l := by
    intro idx
    unfold xdevListRemove
    rw [List.filter_append, hkept, List.filter_singleton]
    simp
  unfold xdevListAdd
  cases l.getLast? with
  | none => exact hgone 0
  | some last => exact hgone _

/-- What `qdma_device_open` does to the list: a device is added, or nothing is different. -/
theorem qdmaDeviceOpen_list {l : List Xdev} {hndl : ℕ} (pdev : ℕ) (fate : OpenFate)
    (hnew : ∀ d ∈ l, d.hndl ≠ hndl) :
    (pdev ≠ 0 ∧ xdevFindByPdev l pdev = none ∧ fate = .opens ∧
        (qdmaDeviceOpen l pdev hndl fate).2.2 = xdevListAdd l hndl pdev) ∨
      (¬ (pdev ≠ 0 ∧ xdevFindByPdev l pdev = none ∧ fate = .opens) ∧
        (qdmaDeviceOpen l pdev hndl fate).2.2 = l) := by
  unfold qdmaDeviceOpen
  by_cases hpdev : pdev = 0
  · rw [if_pos hpdev]
    exact Or.inr ⟨fun h => h.1 hpdev, rfl⟩
  · rw [if_neg hpdev]
    cases hfind : xdevFindByPdev l pdev with
    | some d => exact Or.inr ⟨fun h => absurd h.2.1 nofun, rfl⟩
    | none =>
        cases fate with
        | refused rv => exact Or.inr ⟨fun h => absurd h.2.2 nofun, rfl⟩
        | fails rv => exact Or.inr ⟨fun h => absurd h.2.2 nofun, remove_add pdev hnew⟩
        | opens => exact Or.inl ⟨hpdev, rfl, rfl, rfl⟩

/-- A list that is left alone, with its `xpdev`s. -/
theorem DevInv.of_eq {s s' : DevLists} (h : DevInv s) (hxdevs : s'.xdevs = s.xdevs)
    (hxpdevs : s'.xpdevs = s.xpdevs) : DevInv s' := by
  obtain ⟨xdevs, xpdevs⟩ := s'
  cases hxdevs
  cases hxpdevs
  exact h

/-- **A step that meets the condition** keeps the numbering. -/
theorem DevInv.step {s : DevLists} (h : DevInv s) (e : DevEv) (hg : devSys.guard s e)
    (hcond : IndexFree s e) : DevInv (devSys.step s e) := by
  cases e with
  | openDev pdev hndl fate =>
      obtain ⟨-, hnew⟩ := hg
      obtain ⟨hpdev, hfind, rfl, hlist⟩ | ⟨-, hlist⟩ := qdmaDeviceOpen_list pdev fate hnew
      · exact (h.add pdev hnew (hcond hpdev hfind)).of_eq hlist rfl
      · exact h.of_eq hlist rfl
  | bind hndl =>
      unfold devSys
      dsimp only
      cases hfind : s.xdevs.find? fun d => d.hndl = hndl with
      | none => exact h
      | some d =>
          have hhndl : d.hndl = hndl := by
            simpa only [decide_eq_true_eq] using List.find?_some hfind
          subst hhndl
          exact h.bind (List.mem_of_find?_eq_some hfind) hg
  | closeDev pdev hndl =>
      by_cases hstays : hndl = 0 ∨ xdevCheckHndl s.xdevs pdev hndl < 0
      · refine h.of_eq ?_ (if_pos hstays)
        change qdmaDeviceClose s.xdevs pdev hndl = s.xdevs
        unfold qdmaDeviceClose
        obtain hzero | hcheck := hstays
        · rw [if_pos hzero]
        · rw [if_pos hcheck]
          exact ite_self _
      · refine (h.remove hndl).of_eq ?_ (if_neg hstays)
        change qdmaDeviceClose s.xdevs pdev hndl = xdevListRemove s.xdevs hndl
        unfold qdmaDeviceClose
        rw [if_neg fun hzero => hstays (Or.inl hzero), if_neg fun hcheck => hstays (Or.inr hcheck)]

/-- A step after which the indexes are distinct meets the condition. -/
theorem indexFree_of_unique {s : DevLists} (e : DevEv) (hg : devSys.guard s e)
    (hright : IdxUnique (devSys.step s e)) : IndexFree s e := by
  cases e with
  | bind hndl => trivial
  | closeDev pdev hndl => trivial
  | openDev pdev hndl fate =>
      cases fate with
      | refused rv => trivial
      | fails rv => trivial
      | opens =>
          intro hpdev hfind first last hfirst hlast heq
          have hdistinct := hright.distinct
          change ((qdmaDeviceOpen s.xdevs pdev hndl .opens).2.2.map (·.idx)).Nodup at hdistinct
          -- the new device has the index of the first one
          obtain ⟨-, -, -, hlist⟩ | ⟨hno, -⟩ := qdmaDeviceOpen_list pdev .opens hg.2
          · unfold xdevListAdd at hlist
            rw [hlast] at hlist
            rw [hlist, List.map_append] at hdistinct
            have hne := (List.nodup_append.mp hdistinct).2.2 first.idx
              (List.mem_map_of_mem (List.mem_of_head? hfirst)) _ (List.mem_singleton_self _)
            exact hne heq.symm
          · exact hno ⟨hpdev, hfind, rfl⟩

/-! ## Runs -/

theorem devInv_noDevices : DevInv noDevices where
  numbered := ⟨fun _ => 0, Numbered.nil _ _ _⟩
  keyed _ h := absurd h List.not_mem_nil
  bound := List.nodup_nil
  hndls := List.nodup_nil

/-- **Device indexes are unique** throughout a run just where no device is opened with the
index of the first one in the list. -/
theorem device_indexes_unique_iff (es : List DevEv) (hrun : devSys.Admits noDevices es) :
    (IdxUnique noDevices ∧ devSys.EachStep (fun _ _ s => IdxUnique s) noDevices es) ↔
      (devSys.restrict IndexFree).Admits noDevices es := by
  have hiff : devSys.EachStep (fun _ _ s => IdxUnique s) noDevices es ↔
      (devSys.restrict IndexFree).Admits noDevices es := devSys.eachStep_iff_admits (I := DevInv)
    (fun s e h hg => ⟨indexFree_of_unique e hg, fun hcond => (h.step e hg hcond).idxUnique⟩)
    (fun s e h hg hright => h.step e hg (indexFree_of_unique e hg hright)) es devInv_noDevices
    hrun
  rw [← hiff]
  exact ⟨fun h => h.2, fun h => ⟨devInv_noDevices.idxUnique, h⟩⟩

/-- Two devices come, the first goes and comes back. -/
theorem device_indexes_unique_back :
    IdxUnique noDevices ∧ devSys.EachStep (fun _ _ s => IdxUnique s) noDevices
      [.openDev 1 10 .opens, .bind 10, .openDev 2 11 .opens, .bind 11, .closeDev 1 10,
        .openDev 1 10 .opens] := by
  refine (device_indexes_unique_iff [.openDev 1 10 .opens, .bind 10, .openDev 2 11 .opens,
    .bind 11, .closeDev 1 10, .openDev 1 10 .opens] (by decide)).mpr ?_
  refine ⟨⟨by decide, ?_⟩, ⟨by decide, trivial⟩, ⟨by decide, ?_⟩, ⟨by decide, trivial⟩,
    ⟨by decide, trivial⟩, ⟨by decide, ?_⟩, trivial⟩
  · intro _ _ first last hfirst _
    cases hfirst
  · intro _ _ first last hfirst hlast
    cases hfirst
    cases hlast
    decide
  · intro _ _ first last hfirst hlast
    cases hfirst
    cases hlast
    decide

/-- One device stays; two others take turns, each opened before the other is closed. -/
def hotPlugs (n : ℕ) : List DevEv :=
  .openDev 1 10 .opens :: (List.range n).flatMap fun k =>
    [.openDev (2 + k % 2) (11 + k % 2) .opens, .closeDev (2 + (k + 1) % 2) (11 + (k + 1) % 2)]

/-- After 256 more devices the index of the one that stays is handed out again. -/
theorem device_index_again :
    ¬ ∀ es : List DevEv, devSys.Admits noDevices es →
      IdxUnique noDevices ∧ devSys.EachStep (fun _ _ s => IdxUnique s) noDevices es := by
  intro hall
  obtain ⟨-, heach⟩ := hall (hotPlugs 255 ++ [.openDev 3 12 .opens]) (by decide +kernel)
  have hlast := ((devSys.eachStep_append _ _ _).mp heach).2.1.distinct
  revert hlast
  decide +kernel

end Qdma

import Qdma.Lib.Tally
import Qdma.Resources

/-!
# Queues, their counts and their handles

A device counts its queues three times over: the two counters of `struct qdma_dev`, one
for each direction, and for each interrupt vector the number of queues on it
(`intr_list_cnt`).  The counters are raised and lowered by one in several places, far
from the flags they count.

* `addOutcome` is `qdma_queue_add` in full: what it returns, which index it takes, and
  that a failure puts the counter back.  With `qdmaQueueRemove_full` it gives the counts,
  the index taken and the handles over runs of additions and removals.
* `qdma_queue_config` names a queue by its id and takes the direction from the
  configuration; two queues can then share a hardware queue.
* `desc_alloc_irq` raises a vector's count at each start, `desc_free_irq` lowers it only
  when the queue is removed.
-/

namespace Qdma

open Lib

/-! ## Counters and flags -/

namespace XlnxDmaDev

/-- The queues of a direction that are enabled. -/
def marks (dev : XlnxDmaDev) (c2h : Bool) (i : ℕ) : Bool :=
  (dev.descq (dev.handle c2h i)).enabled

/-- The counter of a direction. -/
def qcnt (dev : XlnxDmaDev) (c2h : Bool) : ℕ := if c2h then dev.c2hQcnt else dev.h2cQcnt

/-- The counters, and what the slots of the two arrays know about themselves. -/
structure Registered (dev : XlnxDmaDev) : Prop where
  cnt : ∀ c2h, dev.qcnt c2h = tally (dev.marks c2h) dev.qmax
  qidx : ∀ c2h i, i < dev.qmax → (dev.descq (dev.handle c2h i)).conf.qidx = i
  c2h : ∀ c2h i, i < dev.qmax → dev.marks c2h i = true →
    (dev.descq (dev.handle c2h i)).conf.c2h = c2h

theorem handle_lt (dev : XlnxDmaDev) (c2h : Bool) {i : ℕ} (hi : i < dev.qmax) :
    dev.handle c2h i < 2 * dev.qmax := by
  unfold handle
  split <;> omega

theorem handle_inj (dev : XlnxDmaDev) {c2h c2h' : Bool} {i j : ℕ} (hi : i < dev.qmax)
    (hj : j < dev.qmax) (h : dev.handle c2h i = dev.handle c2h' j) : c2h = c2h' ∧ i = j := by
  unfold handle at h
  cases c2h <;> cases c2h' <;> simp at h ⊢ <;> omega

/-- Every handle in range is one of a direction. -/
theorem exists_handle (dev : XlnxDmaDev) {q : ℕ} (hq : q < 2 * dev.qmax) :
    ∃ c2h i, i < dev.qmax ∧ q = dev.handle c2h i := by
  by_cases h : q < dev.qmax
  · exact ⟨false, q, h, rfl⟩
  · refine ⟨true, q - dev.qmax, by omega, ?_⟩
    change q = dev.qmax + (q - dev.qmax)
    omega

end XlnxDmaDev

namespace XlnxDmaDev.Registered

variable {dev dev' : XlnxDmaDev} (h : dev.Registered) {c2h : Bool} {i : ℕ} (hi : i < dev.qmax)
  {d : QdmaDescq} (hmax : dev'.qmax = dev.qmax)
  (hdescq : dev'.descq = Function.update dev.descq (dev.handle c2h i) d)
include hi hmax hdescq

omit hi in
theorem descq_self : dev'.descq (dev'.handle c2h i) = d := by
  unfold handle at hdescq ⊢
  rw [hdescq, hmax, Function.update_self]

theorem descq_of_ne {c : Bool} {j : ℕ} (hj : j < dev.qmax) (hne : ¬ (c = c2h ∧ j = i)) :
    dev'.descq (dev'.handle c j) = dev.descq (dev.handle c j) := by
  have hhandle : dev'.handle c j = dev.handle c j := by
    unfold handle
    rw [hmax]
  rw [hhandle, hdescq, Function.update_of_ne]
  exact fun heq => hne (dev.handle_inj hj hi heq)

/-- The marks of the changed direction. -/
theorem marks_eq {j : ℕ} (hj : j < dev.qmax) :
    dev'.marks c2h j = Function.update (dev.marks c2h) i d.enabled j := by
  unfold marks
  by_cases hji : j = i
  · subst hji
    rw [descq_self hmax hdescq, Function.update_self]
  · rw [descq_of_ne hi hmax hdescq hj fun hc => hji hc.2, Function.update_of_ne hji]

include h

/-- One slot changes and its direction's counter follows. -/
theorem update (hcnt : dev'.qcnt c2h + (dev.marks c2h i).toNat = dev.qcnt c2h + d.enabled.toNat)
    (hother : ∀ c, c ≠ c2h → dev'.qcnt c = dev.qcnt c) (hidx : d.conf.qidx = i)
    (hc2h : d.enabled = true → d.conf.c2h = c2h) : dev'.Registered where
  cnt c := by
    rw [hmax]
    by_cases hc : c = c2h
    · subst hc
      have htally := tally_update (p := dev.marks c) hi d.enabled
      have hmarks : tally (dev'.marks c) dev.qmax =
          tally (Function.update (dev.marks c) i d.enabled) dev.qmax :=
        tally_congr fun j hj => marks_eq hi hmax hdescq hj
      have hold := h.cnt c
      omega
    · rw [hother c hc, h.cnt c]
      refine tally_congr fun j hj => ?_
      unfold marks
      rw [descq_of_ne hi hmax hdescq hj fun hcj => hc hcj.1]
  qidx c j hj := by
    rw [hmax] at hj
    by_cases hcj : c = c2h ∧ j = i
    · obtain ⟨rfl, rfl⟩ := hcj
      rw [descq_self hmax hdescq, hidx]
    · rw [descq_of_ne hi hmax hdescq hj hcj]
      exact h.qidx c j hj
  c2h c j hj hmark := by
    rw [hmax] at hj
    unfold marks at hmark
    by_cases hcj : c = c2h ∧ j = i
    · obtain ⟨rfl, rfl⟩ := hcj
      rw [descq_self hmax hdescq] at hmark ⊢
      exact hc2h hmark
    · rw [descq_of_ne hi hmax hdescq hj hcj] at hmark ⊢
      exact h.c2h c j hj hmark

end XlnxDmaDev.Registered

/-- One queue more in a direction, at handle `q`. -/
def countUp (dev : XlnxDmaDev) (c2h : Bool) (q : ℕ) (d : QdmaDescq) : XlnxDmaDev :=
  (dev.addQcnt c2h 1).setDescq q d

theorem addQcnt_qcnt (dev : XlnxDmaDev) (c2h c2h' : Bool) (n : ℕ) :
    (dev.addQcnt c2h n).qcnt c2h' = if c2h' = c2h then u16 (dev.qcnt c2h' + n) else dev.qcnt c2h' := by
  cases c2h <;> cases c2h' <;> rfl

theorem addQcnt_descq (dev : XlnxDmaDev) (c2h : Bool) (n : ℕ) :
    (dev.addQcnt c2h n).descq = dev.descq := by
  cases c2h <;> rfl

theorem addQcnt_qmax (dev : XlnxDmaDev) (c2h : Bool) (n : ℕ) :
    (dev.addQcnt c2h n).qmax = dev.qmax := by
  cases c2h <;> rfl

/-- A counter that goes up and down again is where it was. -/
theorem addQcnt_undo (dev : XlnxDmaDev) {c2h : Bool} (h : dev.qcnt c2h < 2 ^ 16 - 1) :
    (dev.addQcnt c2h 1).addQcnt c2h (2 ^ 16 - 1) = dev := by
  have hundo : ∀ n, n < 2 ^ 16 - 1 → u16 (u16 (n + 1) + (2 ^ 16 - 1)) = n := by
    intro n hn
    unfold u16
    omega
  cases c2h with
  | false =>
      change dev.h2cQcnt < 2 ^ 16 - 1 at h
      unfold XlnxDmaDev.addQcnt
      simp only [Bool.false_eq_true, if_false, hundo _ h]
  | true =>
      change dev.c2hQcnt < 2 ^ 16 - 1 at h
      unfold XlnxDmaDev.addQcnt
      simp only [if_true, hundo _ h]

/-! ## Addition -/

/-- The outcomes of `qdma_queue_add`: the value, the handle, the device. -/
inductive AddOutcome (dev : XlnxDmaDev) (qconf : QdmaQueueConf) : ℤ × ℕ × XlnxDmaDev → Prop
  | fails (rv : ℤ) (hrv : rv < 0)
      (hfull : qconf.qidx = qdmaQueueIdxInvalid →
        rv = -eagain ∧ ∀ i < dev.qmax, dev.marks qconf.c2h i = true) :
      AddOutcome dev qconf (rv, qdmaQueueIdxInvalid, dev)
  | adds (i : ℕ) (hi : i < dev.qmax) (hfree : dev.marks qconf.c2h i = false)
      (hauto : qconf.qidx = qdmaQueueIdxInvalid → ∀ j < i, dev.marks qconf.c2h j = true)
      (hask : qconf.qidx ≠ qdmaQueueIdxInvalid → i = qconf.qidx) :
      AddOutcome dev qconf
        (0, dev.handle qconf.c2h i,
          countUp dev qconf.c2h (dev.handle qconf.c2h i)
            (addedDescq dev (dev.descq (dev.handle qconf.c2h i)) qconf))

/-- The index `qdma_queue_add` takes, or why there is none. -/
theorem pickQueue_cases (dev : XlnxDmaDev) (qconf : QdmaQueueConf) :
    (∃ i, pickQueue dev qconf = .ok i ∧
        (qconf.qidx = qdmaQueueIdxInvalid → ∀ j < i, dev.marks qconf.c2h j = true) ∧
        (qconf.qidx ≠ qdmaQueueIdxInvalid → i = qconf.qidx)) ∨
      ∃ rv, pickQueue dev qconf = .error rv ∧ rv < 0 ∧
        (qconf.qidx = qdmaQueueIdxInvalid →
          rv = -eagain ∧ ∀ i < dev.qmax, dev.marks qconf.c2h i = true) := by
  unfold pickQueue
  dsimp only
  by_cases hinv : qconf.qidx = qdmaQueueIdxInvalid
  · rw [if_pos hinv]
    cases hfind : (List.range dev.qmax).find?
        fun i => !(dev.descq (dev.handle qconf.c2h i)).enabled with
    | none =>
        refine Or.inr ⟨-eagain, rfl, by decide, fun _ => ⟨rfl, fun i hi => ?_⟩⟩
        have hnot := List.find?_eq_none.mp hfind i (List.mem_range.mpr hi)
        unfold XlnxDmaDev.marks
        simpa using hnot
    | some i =>
        refine Or.inl ⟨i, rfl, fun _ j hj => ?_, fun hne => absurd hinv hne⟩
        have hbefore := (List.find?_range_eq_some.mp hfind).2.2 j hj
        unfold XlnxDmaDev.marks
        simpa using hbefore
  · rw [if_neg hinv]
    split
    · exact Or.inl ⟨qconf.qidx, rfl, fun hc => absurd hc hinv, fun _ => rfl⟩
    · exact Or.inr ⟨-einval, rfl, by decide, fun hc => absurd hc hinv⟩

theorem addOutcome {dev : XlnxDmaDev} (h : dev.Registered) (hmax : dev.qmax < qdmaQueueIdxInvalid)
    (qconf : QdmaQueueConf) : AddOutcome dev qconf (qdmaQueueAdd dev qconf) := by
  have hcnt := h.cnt qconf.c2h
  unfold qdmaQueueAdd
  dsimp only
  change AddOutcome dev qconf (if dev.qmax ≤ dev.qcnt qconf.c2h then _ else _)
  by_cases hfull : dev.qmax ≤ dev.qcnt qconf.c2h
  · rw [if_pos hfull]
    refine AddOutcome.fails _ (by decide) fun _ => ⟨rfl, tally_eq_iff.mp ?_⟩
    exact le_antisymm (tally_le _ _) (hcnt ▸ hfull)
  · rw [if_neg hfull]
    by_cases hidx : qconf.qidx ≠ qdmaQueueIdxInvalid ∧ dev.qmax ≤ qconf.qidx
    · rw [if_pos hidx]
      exact AddOutcome.fails _ (by decide) fun hc => absurd hc hidx.1
    · rw [if_neg hidx]
      have hpick : pickQueue (dev.addQcnt qconf.c2h 1) qconf = pickQueue dev qconf := by
        obtain ⟨m, c, heq⟩ := addQcnt_eq dev qconf.c2h 1
        rw [heq]
        rfl
      rw [hpick]
      obtain ⟨i, hok, hauto, hask⟩ | ⟨rv, herr, hrv, hwhy⟩ := pickQueue_cases dev qconf
      · obtain ⟨hi, hfree⟩ := pickQueue_eq_ok hidx hok
        have hself := h.qidx qconf.c2h i hi
        have hhandle : (if qconf.c2h = true then
            (dev.descq (dev.handle qconf.c2h i)).conf.qidx + dev.qmax
          else (dev.descq (dev.handle qconf.c2h i)).conf.qidx) = dev.handle qconf.c2h i := by
          rw [hself]
          unfold XlnxDmaDev.handle
          rw [Nat.add_comm]
        have hadds := AddOutcome.adds i hi hfree hauto hask
        unfold countUp at hadds
        rw [hok]
        obtain ⟨m, c, heq⟩ := addQcnt_eq dev qconf.c2h 1
        rw [heq] at hadds ⊢
        change AddOutcome dev qconf (0, if qconf.c2h = true then
            (dev.descq (dev.handle qconf.c2h i)).conf.qidx + dev.qmax
          else (dev.descq (dev.handle qconf.c2h i)).conf.qidx, _)
        rw [hhandle]
        exact hadds
      · rw [herr]
        dsimp only
        rw [addQcnt_undo dev (by unfold qdmaQueueIdxInvalid at hmax; omega)]
        exact AddOutcome.fails rv hrv hwhy

/-- A queue added at a free slot is counted. -/
theorem XlnxDmaDev.Registered.countUp {dev : XlnxDmaDev} (h : dev.Registered)
    (hmax : dev.qmax < qdmaQueueIdxInvalid) {qconf : QdmaQueueConf} {i : ℕ} (hi : i < dev.qmax)
    (hfree : dev.marks qconf.c2h i = false) :
    (Qdma.countUp dev qconf.c2h (dev.handle qconf.c2h i)
      (addedDescq dev (dev.descq (dev.handle qconf.c2h i)) qconf)).Registered := by
  have hlt : dev.qcnt qconf.c2h < 2 ^ 16 - 1 := by
    have hle := tally_le (dev.marks qconf.c2h) dev.qmax
    rw [← h.cnt] at hle
    exact Nat.lt_of_le_of_lt hle hmax
  have hqcnt : ∀ c, (Qdma.countUp dev qconf.c2h (dev.handle qconf.c2h i)
      (addedDescq dev (dev.descq (dev.handle qconf.c2h i)) qconf)).qcnt c =
        (dev.addQcnt qconf.c2h 1).qcnt c := fun _ => rfl
  have hdescq : (Qdma.countUp dev qconf.c2h (dev.handle qconf.c2h i)
      (addedDescq dev (dev.descq (dev.handle qconf.c2h i)) qconf)).descq =
        Function.update dev.descq (dev.handle qconf.c2h i)
          (addedDescq dev (dev.descq (dev.handle qconf.c2h i)) qconf) := by
    unfold Qdma.countUp
    rw [setDescq_descq, addQcnt_descq]
  refine h.update hi (addQcnt_qmax dev _ _) hdescq ?_ ?_ (h.qidx qconf.c2h i hi) fun _ => rfl
  · rw [hqcnt, addQcnt_qcnt, if_pos rfl, hfree]
    change u16 (dev.qcnt qconf.c2h + 1) + 0 = dev.qcnt qconf.c2h + 1
    unfold u16
    omega
  · intro c hc
    rw [hqcnt, addQcnt_qcnt, if_neg hc]

/-! ## Removal -/

/-- A removal that is not rejected, in full. -/
theorem qdmaQueueRemove_full (f : ℕ → CmdFate) {dev : XlnxDmaDev} {q : ℕ} (hq : q < 2 * dev.qmax)
    (hen : (dev.descq q).enabled = true) :
    qdmaQueueRemove f dev q =
      (0, ({ dev with
          intrListCnt := (descFreeIrq dev q).intrListCnt
          descq := Function.update dev.descq q (removedDescq (dev.descq q)) } : XlnxDmaDev).addQcnt
        (dev.descq q).conf.c2h (2 ^ 16 - 1)) := by
  unfold qdmaQueueRemove qdmaDescqCleanup
  rw [getDescqById_of_enabled hq hen]
  simp only [setDescq_descq_self, Bool.false_eq_true, if_false]
  have hirq : descFreeIrq (dev.setDescq q { dev.descq q with inited := false, online := false }) q =
      { dev.setDescq q { dev.descq q with inited := false, online := false } with
        intrListCnt := (descFreeIrq dev q).intrListCnt } := by
    unfold descFreeIrq
    rw [setDescq_descq_self]
    change (if dev.numVecs = 0 then _ else _) = _
    split
    · rfl
    · rfl
  rw [hirq]
  simp only [XlnxDmaDev.setDescq, Function.update_self, Function.update_idem]
  rfl

theorem qdmaQueueRemove_rejected_rv (f : ℕ → CmdFate) {dev : XlnxDmaDev} {q : ℕ}
    (h : ¬ (q < 2 * dev.qmax ∧ (dev.descq q).enabled = true)) :
    qdmaQueueRemove f dev q = (-einval, dev) := by
  unfold qdmaQueueRemove
  cases hget : dev.getDescqById q true with
  | none => rfl
  | some id =>
      obtain ⟨-, hlt, hen⟩ := getDescqById_eq_some hget
      exact absurd ⟨hlt, hen rfl⟩ h

/-- A queue removed is no longer counted. -/
theorem XlnxDmaDev.Registered.removed {dev : XlnxDmaDev} (h : dev.Registered) (f : ℕ → CmdFate)
    {q : ℕ} (hq : q < 2 * dev.qmax) (hen : (dev.descq q).enabled = true) :
    (qdmaQueueRemove f dev q).2.Registered := by
  obtain ⟨c2h, i, hi, rfl⟩ := dev.exists_handle hq
  have hmark : dev.marks c2h i = true := hen
  have hdir := h.c2h c2h i hi hen
  rw [qdmaQueueRemove_full f hq hen, hdir]
  dsimp only
  have hpos : 0 < dev.qcnt c2h := by
    rw [h.cnt]
    have hunmark := tally_unmark hi hmark rfl
    omega
  have hmaxlt := dev.qmax_lt
  have hle := tally_le (dev.marks c2h) dev.qmax
  rw [← h.cnt] at hle
  refine h.update (d := removedDescq (dev.descq (dev.handle c2h i))) hi (addQcnt_qmax _ _ _)
    (addQcnt_descq _ _ _) ?_ ?_ (h.qidx c2h i hi) fun hc => by cases hc
  · rw [addQcnt_qcnt, if_pos rfl]
    rw [hmark]
    change u16 (dev.qcnt c2h + (2 ^ 16 - 1)) + 1 = dev.qcnt c2h + 0
    unfold u16
    omega
  · intro c hc
    rw [addQcnt_qcnt, if_neg hc]
    rfl

/-! ## Runs of additions and removals -/

/-- The device with the handles given out for the queues it has. -/
structure Registry where
  dev : XlnxDmaDev
  handles : List ℕ

inductive RegistryEv where
  | add (qconf : QdmaQueueConf)
  | remove (id : ℕ) (f : ℕ → CmdFate)

def registryStep (s : Registry) : RegistryEv → Registry
  | .add qconf =>
      let r := qdmaQueueAdd s.dev qconf
      { dev := r.2.2, handles := if r.1 = 0 then s.handles ++ [r.2.1] else s.handles }
  | .remove id f =>
      let r := qdmaQueueRemove f s.dev id
      { dev := r.2, handles := if r.1 = 0 then s.handles.erase id else s.handles }

/-- Any call, at any time. -/
def registrySys : System Registry RegistryEv where
  step := registryStep
  guard _ _ := True

/-- What an addition promises. -/
structure AddSpec (dev : XlnxDmaDev) (qconf : QdmaQueueConf) (r : ℤ × ℕ × XlnxDmaDev) : Prop where
  /-- A failure changes neither counts nor flags. -/
  fails : r.1 ≠ 0 → (∀ c2h, r.2.2.qcnt c2h = dev.qcnt c2h) ∧
    ∀ q, (r.2.2.descq q).enabled = (dev.descq q).enabled
  /-- `-EAGAIN` at an automatic index means that the direction is full. -/
  full : qconf.qidx = qdmaQueueIdxInvalid →
    (r.1 = -eagain ↔ ∀ i < dev.qmax, dev.marks qconf.c2h i = true)
  /-- Otherwise the lowest free index is taken. -/
  lowest : qconf.qidx = qdmaQueueIdxInvalid → (∃ i < dev.qmax, dev.marks qconf.c2h i = false) →
    r.1 = 0 ∧ ∃ i < dev.qmax, dev.marks qconf.c2h i = false ∧
      (∀ j < i, dev.marks qconf.c2h j = true) ∧
      ∀ q, (r.2.2.descq q).enabled = ((dev.descq q).enabled || decide (q = dev.handle qconf.c2h i))
  /-- The handle finds the queue that was enabled. -/
  handle : r.1 = 0 → ∃ q < 2 * dev.qmax, (dev.descq q).enabled = false ∧
    (r.2.2.descq q).enabled = true ∧ (∀ p, p ≠ q → r.2.2.descq p = dev.descq p) ∧
    r.2.2.getDescqById r.2.1 true = some q

/-- The counts, the handles given out, and what the next addition will do. -/
structure Registry.Sound (s : Registry) : Prop where
  h2c : s.dev.h2cQcnt = tally (fun i => (s.dev.descq i).enabled) s.dev.qmax
  c2h : s.dev.c2hQcnt = tally (fun i => (s.dev.descq (s.dev.qmax + i)).enabled) s.dev.qmax
  handles : s.handles.Nodup
  found : ∀ q, q ∈ s.handles ↔ s.dev.getDescqById q true = some q
  add : ∀ qconf, AddSpec s.dev qconf (qdmaQueueAdd s.dev qconf)

/-- The invariant of a run. -/
structure RegistryInv (s : Registry) : Prop where
  registered : s.dev.Registered
  max : s.dev.qmax < qdmaQueueIdxInvalid
  nodup : s.handles.Nodup
  mem : ∀ q, q ∈ s.handles ↔ q < 2 * s.dev.qmax ∧ (s.dev.descq q).enabled = true

theorem countUp_enabled (dev : XlnxDmaDev) (c2h : Bool) {q : ℕ} {d : QdmaDescq}
    (hd : d.enabled = true) (p : ℕ) :
    ((countUp dev c2h q d).descq p).enabled = ((dev.descq p).enabled || decide (p = q)) := by
  unfold countUp
  rw [setDescq_descq, addQcnt_descq]
  by_cases hp : p = q
  · subst hp
    rw [Function.update_self, hd, decide_eq_true rfl, Bool.or_true]
  · rw [Function.update_of_ne hp, decide_eq_false hp, Bool.or_false]

theorem addSpec {dev : XlnxDmaDev} (h : dev.Registered) (hmax : dev.qmax < qdmaQueueIdxInvalid)
    (qconf : QdmaQueueConf) : AddSpec dev qconf (qdmaQueueAdd dev qconf) := by
  have hout := addOutcome h hmax qconf
  generalize qdmaQueueAdd dev qconf = r at hout ⊢
  cases hout with
  | fails rv hrv hfull =>
      refine ⟨fun _ => ⟨fun _ => rfl, fun _ => rfl⟩, fun hauto => ?_, fun hauto hfree => ?_,
        fun hzero => ?_⟩
      · obtain ⟨hagain, hall⟩ := hfull hauto
        exact ⟨fun _ => hall, fun _ => hagain⟩
      · obtain ⟨i, hi, hfree⟩ := hfree
        rw [(hfull hauto).2 i hi] at hfree
        cases hfree
      · change rv = 0 at hzero
        omega
  | adds i hi hfree hauto hask =>
      have henabled := countUp_enabled dev qconf.c2h (q := dev.handle qconf.c2h i)
        (show (addedDescq dev (dev.descq (dev.handle qconf.c2h i)) qconf).enabled = true from rfl)
      have hself := henabled (dev.handle qconf.c2h i)
      rw [decide_eq_true rfl, Bool.or_true] at hself
      refine ⟨fun hc => absurd rfl hc, fun _ => ⟨fun hc => ?_, fun hall => ?_⟩, fun hidx _ => ?_,
        fun _ => ?_⟩
      · exact absurd hc (show ¬ (0 : ℤ) = -eagain by decide)
      · rw [hall i hi] at hfree
        cases hfree
      · exact ⟨rfl, i, hi, hfree, hauto hidx, henabled⟩
      · refine ⟨dev.handle qconf.c2h i, dev.handle_lt qconf.c2h hi, hfree, hself, ?_, ?_⟩
        · intro p hp
          unfold countUp
          rw [setDescq_descq, addQcnt_descq, Function.update_of_ne hp]
        · refine getDescqById_of_enabled ?_ hself
          change dev.handle qconf.c2h i < 2 * (dev.addQcnt qconf.c2h 1).qmax
          rw [addQcnt_qmax]
          exact dev.handle_lt qconf.c2h hi

theorem RegistryInv.add {s : Registry} (h : RegistryInv s) (qconf : QdmaQueueConf) :
    RegistryInv (registryStep s (.add qconf)) := by
  have hout := addOutcome h.registered h.max qconf
  unfold registryStep
  dsimp only
  generalize qdmaQueueAdd s.dev qconf = r at hout ⊢
  cases hout with
  | fails rv hrv hfull =>
      dsimp only
      rw [if_neg (by omega)]
      exact h
  | adds i hi hfree hauto hask =>
      dsimp only
      rw [if_pos rfl]
      have hnot : s.dev.handle qconf.c2h i ∉ s.handles := by
        intro hmem
        have hen := ((h.mem _).mp hmem).2
        rw [show (s.dev.descq (s.dev.handle qconf.c2h i)).enabled = false from hfree] at hen
        cases hen
      have hmaxeq : (countUp s.dev qconf.c2h (s.dev.handle qconf.c2h i)
          (addedDescq s.dev (s.dev.descq (s.dev.handle qconf.c2h i)) qconf)).qmax = s.dev.qmax :=
        addQcnt_qmax s.dev qconf.c2h 1
      refine ⟨h.registered.countUp h.max hi hfree, ?_, ?_, fun q => ?_⟩
      · dsimp only
        rw [hmaxeq]
        exact h.max
      · exact List.nodup_append_comm.mp (List.nodup_cons.mpr ⟨hnot, h.nodup⟩)
      · dsimp only
        rw [hmaxeq, countUp_enabled s.dev qconf.c2h rfl, List.mem_append, List.mem_singleton, h.mem q]
        have hlt := s.dev.handle_lt qconf.c2h hi
        by_cases hq : q = s.dev.handle qconf.c2h i
        · subst hq
          simp [hlt]
        · simp [hq]

theorem RegistryInv.remove {s : Registry} (h : RegistryInv s) (id : ℕ) (f : ℕ → CmdFate) :
    RegistryInv (registryStep s (.remove id f)) := by
  unfold registryStep
  dsimp only
  by_cases hid : id < 2 * s.dev.qmax ∧ (s.dev.descq id).enabled = true
  · have hreg := h.registered.removed f hid.1 hid.2
    rw [qdmaQueueRemove_full f hid.1 hid.2] at hreg ⊢
    dsimp only at hreg ⊢
    rw [if_pos rfl]
    refine ⟨hreg, ?_, h.nodup.erase id, fun q => ?_⟩
    · dsimp only
      rw [addQcnt_qmax]
      exact h.max
    · dsimp only
      rw [addQcnt_qmax, addQcnt_descq, h.nodup.mem_erase_iff, h.mem q]
      dsimp only
      by_cases hq : q = id
      · subst hq
        rw [Function.update_self]
        simp [removedDescq]
      · rw [Function.update_of_ne hq]
        simp [hq]
  · rw [qdmaQueueRemove_rejected_rv f hid]
    dsimp only
    rw [if_neg (by decide)]
    exact h

theorem RegistryInv.step {s : Registry} (h : RegistryInv s) (e : RegistryEv) :
    RegistryInv (registrySys.step s e) := by
  cases e with
  | add qconf => exact h.add qconf
  | remove id f => exact h.remove id f

theorem RegistryInv.sound {s : Registry} (h : RegistryInv s) : s.Sound where
  h2c := h.registered.cnt false
  c2h := h.registered.cnt true
  handles := h.nodup
  found q := by
    rw [h.mem q]
    constructor
    · exact fun hq => getDescqById_of_enabled hq.1 hq.2
    · intro hget
      obtain ⟨-, hlt, hen⟩ := getDescqById_eq_some hget
      exact ⟨hlt, hen rfl⟩
  add := addSpec h.registered h.max

theorem DeviceInit.registered {dev : XlnxDmaDev} (h : DeviceInit dev) : dev.Registered where
  cnt c2h := by
    have hnone : ∀ i < dev.qmax, dev.marks c2h i = false := by
      intro i _
      unfold XlnxDmaDev.marks
      rw [h.descq]
      rfl
    rw [tally_eq_zero hnone]
    cases c2h with
    | false => exact h.h2cQcnt
    | true => exact h.c2hQcnt
  qidx c2h i hi := by
    rw [h.descq]
    unfold XlnxDmaDev.handle
    cases c2h with
    | false => exact if_pos hi
    | true =>
        change (if dev.qmax + i < dev.qmax then dev.qmax + i else dev.qmax + i - dev.qmax) = i
        rw [if_neg (by omega)]
        omega
  c2h c2h i hi hmark := by
    unfold XlnxDmaDev.marks at hmark
    rw [h.descq] at hmark
    cases hmark

/-- **Counts, indices and handles** over every run of additions and removals. -/
theorem queue_counts_and_handles {dev : XlnxDmaDev} (hinit : DeviceInit dev)
    (hmax : dev.qmax < qdmaQueueIdxInvalid) (es : List RegistryEv) :
    (registrySys.exec { dev := dev, handles := [] } es).Sound := by
  have hstart : RegistryInv { dev := dev, handles := [] } := by
    refine ⟨hinit.registered, hmax, List.nodup_nil, fun q => ?_⟩
    dsimp only
    rw [hinit.descq]
    simp [qdmaDescqInit]
  exact (registrySys.invariant_free (fun _ e h => h.step e) es hstart).sound

theorem queue_counts_and_handles_full :
    DeviceInit polledDev ∧ polledDev.qmax < qdmaQueueIdxInvalid ∧
      (registrySys.exec { dev := polledDev, handles := [] }
        [.add mmH2cConf, .add stC2hConf, .add mmH2cConf, .remove 0 fun _ => .completes]).handles =
          [1] ∧
      (registrySys.exec { dev := polledDev, handles := [] }
        [.add mmH2cConf, .add stC2hConf, .add mmH2cConf,
          .remove 0 fun _ => .completes]).Sound :=
  ⟨polledDev_init, by decide, by decide +kernel,
    queue_counts_and_handles polledDev_init (by decide) _⟩

/-! ## Hardware queues -/

/-- The part of a queue's name that says what kind it is. -/
def queueKind (st c2h : Bool) : String :=
  (if st then "ST" else "MM") ++ "-" ++ (if c2h then "C2H" else "H2C") ++ "-"

/-- `conf.name`, as `qdma_descq_config` prints it on device `idx`. -/
def descqName (idx : ℕ) (d : QdmaDescq) : String :=
  "qdma" ++ Nat.repr idx ++ "-" ++ queueKind d.conf.st d.conf.c2h ++ Nat.repr d.conf.qidx

theorem queueKind_length (st c2h : Bool) : (queueKind st c2h).toList.length = 7 := by
  cases st <;> cases c2h <;> rfl

theorem queueKind_c2h {st st' c2h c2h' : Bool}
    (h : (queueKind st c2h).toList = (queueKind st' c2h').toList) : c2h = c2h' := by
  revert h
  cases st <;> cases st' <;> cases c2h <;> cases c2h' <;> decide

/-- Queues of one name have one direction and one index. -/
theorem descqName_inj {idx : ℕ} {d d' : QdmaDescq} (h : descqName idx d = descqName idx d') :
    d.conf.c2h = d'.conf.c2h ∧ d.conf.qidx = d'.conf.qidx := by
  have hlist := congrArg String.toList h
  unfold descqName at hlist
  simp only [String.toList_append, List.append_assoc, List.append_cancel_left_eq] at hlist
  obtain ⟨hkind, hidx⟩ := List.append_inj hlist (by rw [queueKind_length, queueKind_length])
  rw [Nat.toList_repr, Nat.toList_repr] at hidx
  have hback := congrArg (fun digits => Nat.ofDigitChars 10 digits 0) hidx
  simp only [Nat.ofDigitChars_ten_toDigits] at hback
  exact ⟨queueKind_c2h hkind, hback⟩

/-- The hardware queue a queue uses: the contexts are reached by both. -/
def QdmaDescq.hwQueue (d : QdmaDescq) : ℕ × Bool := (d.qidxHw, d.conf.c2h)

/-- Two queues with nothing of the hardware in common. -/
structure Apart (d d' : QdmaDescq) : Prop where
  hwQueue : d.hwQueue ≠ d'.hwQueue
  doorbell : ∀ pidx pidx', (descqPidxUpdate d pidx).1 ≠ (descqPidxUpdate d' pidx').1
  name : ∀ idx, descqName idx d ≠ descqName idx d'

/-- Enabled queues are apart. -/
def SharesNone (dev : XlnxDmaDev) : Prop :=
  ∀ p q, p < 2 * dev.qmax → q < 2 * dev.qmax → (dev.descq p).enabled = true →
    (dev.descq q).enabled = true → p ≠ q → Apart (dev.descq p) (dev.descq q)

theorem apart_of_conf {d d' : QdmaDescq} (hhw : d.hwQueue ≠ d'.hwQueue)
    (h : ¬ (d.conf.c2h = d'.conf.c2h ∧ d.conf.qidx = d'.conf.qidx)) : Apart d d' where
  hwQueue := hhw
  doorbell pidx pidx' heq := by
    refine h ?_
    unfold descqPidxUpdate qdmaRegC2hPidxBase qdmaRegH2cPidxBase qdmaRegPidxStep at heq
    dsimp only at heq
    generalize hc : d.conf.c2h = c at heq
    generalize hc' : d'.conf.c2h = c' at heq
    cases c <;> cases c' <;> simp only [Bool.false_eq_true, if_true, if_false] at heq
    · exact ⟨rfl, by omega⟩
    · omega
    · omega
    · exact ⟨rfl, by omega⟩
  name idx heq := h (descqName_inj heq)

/-- Every slot has the hardware queue and the index of its place, and an enabled one the
direction of its array. -/
structure Seated (base : ℕ) (dev : XlnxDmaDev) : Prop where
  qidxHw : ∀ c2h i, i < dev.qmax → (dev.descq (dev.handle c2h i)).qidxHw = u32 (base + i)
  qidx : ∀ c2h i, i < dev.qmax → (dev.descq (dev.handle c2h i)).conf.qidx = i
  c2h : ∀ c2h i, i < dev.qmax → dev.marks c2h i = true →
    (dev.descq (dev.handle c2h i)).conf.c2h = c2h

theorem Seated.sharesNone {base : ℕ} {dev : XlnxDmaDev} (h : Seated base dev) : SharesNone dev := by
  intro p q hp hq hpen hqen hne
  obtain ⟨c, i, hi, rfl⟩ := dev.exists_handle hp
  obtain ⟨c', j, hj, rfl⟩ := dev.exists_handle hq
  have hdiff : ¬ (c = c' ∧ i = j) := by
    rintro ⟨rfl, rfl⟩
    exact hne rfl
  refine apart_of_conf ?_ ?_
  · unfold QdmaDescq.hwQueue
    rw [h.qidxHw c i hi, h.qidxHw c' j hj, h.c2h c i hi hpen, h.c2h c' j hj hqen]
    intro heq
    obtain ⟨hidx, hdir⟩ := Prod.mk.inj heq
    have hmax := dev.qmax_lt
    unfold u32 at hidx
    exact hdiff ⟨hdir, by omega⟩
  · rw [h.qidx c i hi, h.qidx c' j hj, h.c2h c i hi hpen, h.c2h c' j hj hqen]
    exact hdiff

/-- A slot is configured and keeps its place. -/
theorem Seated.update {base : ℕ} {dev dev' : XlnxDmaDev} (h : Seated base dev) {c2h : Bool} {i : ℕ}
    (hi : i < dev.qmax) {d : QdmaDescq} (hmax : dev'.qmax = dev.qmax)
    (hdescq : dev'.descq = Function.update dev.descq (dev.handle c2h i) d)
    (hhw : d.qidxHw = (dev.descq (dev.handle c2h i)).qidxHw)
    (hidx : d.conf.qidx = (dev.descq (dev.handle c2h i)).conf.qidx)
    (hdir : d.enabled = true → d.conf.c2h = c2h) : Seated base dev' := by
  have hself := XlnxDmaDev.Registered.descq_self hmax hdescq
  have hother := fun {c : Bool} {j : ℕ} (hj : j < dev.qmax) hne =>
    XlnxDmaDev.Registered.descq_of_ne (c := c) (j := j) hi hmax hdescq hj hne
  refine ⟨fun c j hj => ?_, fun c j hj => ?_, fun c j hj hmark => ?_⟩
  · rw [hmax] at hj
    by_cases hcj : c = c2h ∧ j = i
    · obtain ⟨rfl, rfl⟩ := hcj
      rw [hself, hhw]
      exact h.qidxHw c j hj
    · rw [hother hj hcj]
      exact h.qidxHw c j hj
  · rw [hmax] at hj
    by_cases hcj : c = c2h ∧ j = i
    · obtain ⟨rfl, rfl⟩ := hcj
      rw [hself, hidx]
      exact h.qidx c j hj
    · rw [hother hj hcj]
      exact h.qidx c j hj
  · rw [hmax] at hj
    unfold XlnxDmaDev.marks at hmark
    by_cases hcj : c = c2h ∧ j = i
    · obtain ⟨rfl, rfl⟩ := hcj
      rw [hself] at hmark ⊢
      exact hdir hmark
    · rw [hother hj hcj] at hmark ⊢
      exact h.c2h c j hj hmark

/-- `prep` is the call of `qdma_device_prep_q_resource` that grants a virtual function its range. -/
inductive ConfigEv where
  | prep (funcId qbase : ℕ)
  | add (qconf : QdmaQueueConf)
  | config (qid : ℕ) (qconf : QdmaQueueConf)
  | remove (id : ℕ) (f : ℕ → CmdFate)

/-- Any call, at any time. -/
def configSys : System XlnxDmaDev ConfigEv where
  step dev
    | .prep funcId qbase => dev.grantRange funcId (u16 qbase)
    | .add qconf => (qdmaQueueAdd dev qconf).2.2
    | .config qid qconf => (qdmaQueueConfig dev qid qconf).2
    | .remove id f => (qdmaQueueRemove f dev id).2
  guard _ _ := True

/-- `qdma_queue_config` is given the direction its id stands for, unless it refuses. -/
def OwnDirection (dev : XlnxDmaDev) : ConfigEv → Prop
  | .config qid qconf =>
      qid < 2 * dev.qmax → (dev.descq qid).enabled = false → qconf.c2h = decide (dev.qmax ≤ qid)
  | _ => True

/-- All slots move together. -/
theorem Seated.grantRange {base : ℕ} {dev : XlnxDmaDev} (h : Seated base dev) (funcId qbase : ℕ) :
    Seated (base + qbase) (dev.grantRange funcId qbase) := by
  have hslot : ∀ c2h i, i < dev.qmax → (dev.grantRange funcId qbase).descq (dev.handle c2h i) =
      { dev.descq (dev.handle c2h i) with
        qidxHw := u32 ((dev.descq (dev.handle c2h i)).qidxHw + qbase) } := by
    intro c2h i hi
    have hlt : dev.handle c2h i < 2 * dev.qmax := by
      unfold XlnxDmaDev.handle
      split <;> omega
    exact if_pos hlt
  refine ⟨fun c2h i hi => ?_, fun c2h i hi => ?_, fun c2h i hi hmark => ?_⟩
  · refine (congrArg QdmaDescq.qidxHw (hslot c2h i hi)).trans ?_
    change u32 ((dev.descq (dev.handle c2h i)).qidxHw + qbase) = _
    rw [h.qidxHw c2h i hi]
    unfold u32
    omega
  · exact (congrArg (fun d : QdmaDescq => d.conf.qidx) (hslot c2h i hi)).trans (h.qidx c2h i hi)
  · refine (congrArg (fun d : QdmaDescq => d.conf.c2h) (hslot c2h i hi)).trans
      (h.c2h c2h i hi ?_)
    exact (congrArg QdmaDescq.enabled (hslot c2h i hi)).symm.trans hmark

theorem Seated.add {base : ℕ} {dev : XlnxDmaDev} (h : Seated base dev) (qconf : QdmaQueueConf) :
    Seated base (qdmaQueueAdd dev qconf).2.2 := by
  have hrun := addRun dev qconf
  generalize (qdmaQueueAdd dev qconf).2.2 = dev' at hrun ⊢
  cases hrun with
  | fails m c => exact ⟨h.qidxHw, h.qidx, h.c2h⟩
  | adds m c i hi hfree => exact h.update hi rfl rfl rfl rfl fun _ => rfl

theorem Seated.config {base : ℕ} {dev : XlnxDmaDev} (h : Seated base dev) {qid : ℕ}
    {qconf : QdmaQueueConf} (hown : OwnDirection dev (.config qid qconf)) :
    Seated base (qdmaQueueConfig dev qid qconf).2 := by
  by_cases hlt : qid < 2 * dev.qmax
  · obtain hsame | ⟨hfree, m, c, heq⟩ := qdmaQueueConfig_cases dev qid qconf
    · rw [hsame]
      exact h
    · rw [heq]
      obtain ⟨c2h, i, hi, rfl⟩ := dev.exists_handle hlt
      refine h.update hi rfl rfl rfl rfl fun _ => ?_
      -- the direction asked for is that of the array the id falls in
      change qconf.c2h = c2h
      rw [hown hlt hfree]
      unfold XlnxDmaDev.handle
      cases c2h with
      | false => simpa using hi
      | true => simp
  · have hnone : dev.getDescqById qid false = none := by
      unfold XlnxDmaDev.getDescqById
      rw [if_pos ⟨by omega, by omega⟩]
    unfold qdmaQueueConfig
    rw [hnone]
    exact h

theorem Seated.remove {base : ℕ} {dev : XlnxDmaDev} (h : Seated base dev) (id : ℕ)
    (f : ℕ → CmdFate) : Seated base (qdmaQueueRemove f dev id).2 := by
  by_cases hid : id < 2 * dev.qmax ∧ (dev.descq id).enabled = true
  · obtain ⟨m, c, cnt, heq⟩ := qdmaQueueRemove_eq f hid.1 hid.2
    rw [heq]
    obtain ⟨c2h, i, hi, rfl⟩ := dev.exists_handle hid.1
    exact h.update hi rfl rfl rfl rfl fun hc => by cases hc
  · rw [qdmaQueueRemove_rejected f hid]
    exact h

theorem DeviceInit.seated {dev : XlnxDmaDev} (h : DeviceInit dev) :
    Seated (u16 (dev.funcId * dev.qmax)) dev where
  qidxHw c2h i hi := by
    have hbase : u16 (dev.funcId * dev.qmax) < 2 ^ 16 := Nat.mod_lt _ (by decide)
    have hmax := dev.qmax_lt
    rw [h.descq, u32_of_lt (by omega)]
    unfold XlnxDmaDev.handle
    cases c2h with
    | false => simp [qdmaDescqInit, hi]
    | true => simp [qdmaDescqInit]
  qidx := h.registered.qidx
  c2h := h.registered.c2h

/-- **Enabled queues share no hardware queue** when each configuration has the direction
its id stands for. -/
theorem enabled_queues_apart {dev : XlnxDmaDev} (hinit : DeviceInit dev) (es : List ConfigEv)
    (hrun : (configSys.restrict OwnDirection).Admits dev es) :
    SharesNone (configSys.exec dev es) := by
  have hstep : ∀ s e, (∃ base, Seated base s) → (configSys.restrict OwnDirection).guard s e →
      ∃ base, Seated base ((configSys.restrict OwnDirection).step s e) := by
    rintro s e ⟨base, hs⟩ hg
    cases e with
    | prep funcId qbase => exact ⟨_, hs.grantRange funcId (u16 qbase)⟩
    | add qconf => exact ⟨base, hs.add qconf⟩
    | config qid qconf => exact ⟨base, hs.config hg.2⟩
    | remove id f => exact ⟨base, hs.remove id f⟩
  obtain ⟨base, hseated⟩ :=
    (configSys.restrict OwnDirection).invariant hstep es ⟨_, hinit.seated⟩ hrun
  exact hseated.sharesNone

/-- An H2C queue is added, and the C2H queue of the same index configured by its id. -/
def bothWays (c2h : Bool) : List ConfigEv :=
  [.add mmH2cConf, .config 1 { mmH2cConf with c2h := c2h }]

theorem enabled_queues_apart_both_ways :
    ((configSys.exec polledDev (bothWays true)).descq 0).enabled = true ∧
      ((configSys.exec polledDev (bothWays true)).descq 1).enabled = true ∧
      SharesNone (configSys.exec polledDev (bothWays true)) := by
  refine ⟨by decide, by decide, enabled_queues_apart polledDev_init _ ?_⟩
  exact ⟨⟨trivial, trivial⟩, ⟨trivial, fun _ _ => by decide⟩, trivial⟩

/-- The configuration says H2C for an id of the C2H array. -/
theorem queues_share_after_config :
    ¬ ∀ (dev : XlnxDmaDev) (es : List ConfigEv), DeviceInit dev → configSys.Admits dev es →
      SharesNone (configSys.exec dev es) := by
  intro hall
  have hnone := hall polledDev (bothWays false) polledDev_init ⟨trivial, trivial, trivial⟩
  exact (hnone 0 1 (by decide) (by decide) (by decide) (by decide) (by decide)).hwQueue (by decide)

/-! ## Vectors -/

/-- The queue is online and on vector `v`. -/
def XlnxDmaDev.onVec (dev : XlnxDmaDev) (v q : ℕ) : Bool :=
  (dev.descq q).online && decide ((dev.descq q).intrId = v)

/-- A vector's count is the number of online queues on it. -/
def VecExact (dev : XlnxDmaDev) : Prop :=
  ∀ v, dev.intrListCnt v = tally (dev.onVec v) (2 * dev.qmax)

inductive VecEv where
  | add (qconf : QdmaQueueConf)
  | start (id : ℕ) (env : StartEnv)
  | stop (id : ℕ) (f : ℕ → CmdFate)
  | remove (id : ℕ) (f : ℕ → CmdFate)

/-- Any call, at any time. -/
def vecSys : System XlnxDmaDev VecEv where
  step dev
    | .add qconf => (qdmaQueueAdd dev qconf).2.2
    | .start id env => (qdmaQueueStart env dev id).2
    | .stop id f => (qdmaQueueStop f dev id).2
    | .remove id f => (qdmaQueueRemove f dev id).2
  guard _ _ := True

/-- Every allocation of a start on this queue succeeds. -/
def RingAllocs.gives (al : RingAllocs) (d : QdmaDescq) : Bool :=
  al.desc.isSome && (!d.isStC2h || ((flFill al d.conf.rngsz).isSome && al.wrb.isSome))

/-- A start that has its rings is programmed, a queue that is stopped is not online, and
one that is removed is online or on a vector without queues. -/
def VecKept (dev : XlnxDmaDev) : VecEv → Prop
  | .add _ => True
  | .start id env =>
      Startable dev id → env.al.gives (dev.descq id) = true → env.setup.Completes
  | .stop id _ => id < 2 * dev.qmax → (dev.descq id).enabled = true → (dev.descq id).online = false
  | .remove id _ => id < 2 * dev.qmax → (dev.descq id).enabled = true →
      (dev.descq id).online = true ∨ dev.intrListCnt (dev.descq id).intrId = 0

theorem descqAllocRings_gives (al : RingAllocs) (d : QdmaDescq) :
    (descqAllocRings al d).1 < 0 ∨ al.gives d = true := by
  have hneg : -enomem < 0 := by decide
  unfold descqAllocRings RingAllocs.gives descRingAlloc wrbRingAlloc
  cases al.desc with
  | none => exact Or.inl hneg
  | some bus =>
      dsimp only [Option.map_some]
      cases d.isStC2h with
      | false => exact Or.inr rfl
      | true =>
          simp only [if_true]
          cases flFill al d.conf.rngsz with
          | none => exact Or.inl hneg
          | some fls =>
              cases al.wrb with
              | none => exact Or.inl hneg
              | some a => exact Or.inr rfl

/-- A queue changes; the count of each vector follows it. -/
theorem VecExact.update {dev dev' : XlnxDmaDev} (h : VecExact dev) {q : ℕ} {d : QdmaDescq}
    (hq : q < 2 * dev.qmax) (hmax : dev'.qmax = dev.qmax)
    (hdescq : dev'.descq = Function.update dev.descq q d)
    (hcnt : ∀ v, dev'.intrListCnt v + (dev.onVec v q).toNat =
      dev.intrListCnt v + (d.online && decide (d.intrId = v)).toNat) : VecExact dev' := by
  intro v
  have hvec : dev'.onVec v = Function.update (dev.onVec v) q (d.online && decide (d.intrId = v)) := by
    funext p
    unfold XlnxDmaDev.onVec
    rw [hdescq]
    by_cases hp : p = q
    · subst hp
      rw [Function.update_self, Function.update_self]
    · rw [Function.update_of_ne hp, Function.update_of_ne hp]
  have htally := tally_update (p := dev.onVec v) hq (d.online && decide (d.intrId = v))
  have hold := h v
  have hnew := hcnt v
  rw [hmax, hvec]
  omega

/-- A change that concerns neither vector nor flag. -/
theorem VecExact.same {dev dev' : XlnxDmaDev} (h : VecExact dev) {q : ℕ} {d : QdmaDescq}
    (hq : q < 2 * dev.qmax) (hmax : dev'.qmax = dev.qmax)
    (hdescq : dev'.descq = Function.update dev.descq q d) (hcnt : dev'.intrListCnt = dev.intrListCnt)
    (honline : d.online = (dev.descq q).online)
    (hvec : d.online = true → d.intrId = (dev.descq q).intrId) : VecExact dev' := by
  refine h.update hq hmax hdescq fun v => ?_
  have hon : (d.online && decide (d.intrId = v)) = dev.onVec v q := by
    unfold XlnxDmaDev.onVec
    cases hd : d.online with
    | false => rw [← honline, hd]; rfl
    | true => rw [← honline, hd, hvec hd]
  rw [hcnt, hon]

theorem VecExact.add {dev : XlnxDmaDev} (h : VecExact dev) (qconf : QdmaQueueConf) :
    VecExact (qdmaQueueAdd dev qconf).2.2 := by
  have hrun := addRun dev qconf
  generalize (qdmaQueueAdd dev qconf).2.2 = dev' at hrun ⊢
  cases hrun with
  | fails m c => exact h
  | adds m c i hi hfree => exact h.same (dev.handle_lt _ hi) rfl rfl rfl rfl fun _ => rfl

theorem VecExact.stop {dev : XlnxDmaDev} (h : VecExact dev) {id : ℕ} (f : ℕ → CmdFate)
    (hkept : id < 2 * dev.qmax → (dev.descq id).enabled = true → (dev.descq id).online = false) :
    VecExact (qdmaQueueStop f dev id).2 := by
  by_cases hid : id < 2 * dev.qmax ∧ (dev.descq id).enabled = true
  · have hoff := hkept hid.1 hid.2
    rw [qdmaQueueStop_eq f hid.1 hid.2, threadRemoveWork_eq]
    exact h.same hid.1 rfl rfl rfl hoff.symm fun hc => by cases hc
  · rw [qdmaQueueStop_rejected f hid]
    exact h

theorem VecExact.remove {dev : XlnxDmaDev} (h : VecExact dev) (hv : dev.numVecs ≠ 0) {id : ℕ}
    (f : ℕ → CmdFate)
    (hkept : id < 2 * dev.qmax → (dev.descq id).enabled = true →
      (dev.descq id).online = true ∨ dev.intrListCnt (dev.descq id).intrId = 0) :
    VecExact (qdmaQueueRemove f dev id).2 := by
  by_cases hid : id < 2 * dev.qmax ∧ (dev.descq id).enabled = true
  · rw [qdmaQueueRemove_full f hid.1 hid.2]
    obtain ⟨m, c, hcnt⟩ := addQcnt_eq
      ({ dev with
          intrListCnt := (descFreeIrq dev id).intrListCnt
          descq := Function.update dev.descq id (removedDescq (dev.descq id)) } : XlnxDmaDev)
      (dev.descq id).conf.c2h (2 ^ 16 - 1)
    dsimp only
    rw [hcnt]
    refine h.update (d := removedDescq (dev.descq id)) hid.1 rfl rfl fun v => ?_
    change (descFreeIrq dev id).intrListCnt v + _ = _ + 0
    unfold descFreeIrq
    rw [if_neg hv]
    dsimp only
    have hexact := h v
    unfold XlnxDmaDev.onVec
    by_cases hvec : (dev.descq id).intrId = v
    · subst hvec
      rw [Function.update_self, decide_eq_true rfl, Bool.and_true]
      obtain hon | hzero := hkept hid.1 hid.2
      · have hmark : dev.onVec (dev.descq id).intrId id = true := by
          unfold XlnxDmaDev.onVec
          rw [hon, decide_eq_true rfl]
          rfl
        have hunmark := tally_unmark hid.1 hmark rfl
        rw [hon]
        change dev.intrListCnt (dev.descq id).intrId - 1 + 1 = _
        omega
      · have hoff : (dev.descq id).online = false := by
          by_contra hon
          have hmark : dev.onVec (dev.descq id).intrId id = true := by
            unfold XlnxDmaDev.onVec
            rw [Bool.not_eq_false] at hon
            rw [hon, decide_eq_true rfl]
            rfl
          have hunmark := tally_unmark hid.1 hmark rfl
          omega
        rw [hoff, hzero]
        rfl
    · rw [Function.update_of_ne (Ne.symm hvec), decide_eq_false hvec, Bool.and_false]
      rfl
  · rw [qdmaQueueRemove_rejected f hid]
    exact h

/-- The vector `desc_alloc_irq` picks. -/
def pickVec (dev : XlnxDmaDev) : ℕ :=
  descAllocIrqLoop dev.intrListCnt dev.numVecs 0 0 (dev.intrListCnt 0)

/-- A start that gets its rings raises the count of the vector it puts the queue on. -/
theorem start_cnt {env : StartEnv} {dev : XlnxDmaDev} {q : ℕ} (hs : Startable dev q)
    (hv : dev.numVecs ≠ 0) (hok : ¬ (descqAllocRings env.al (dev.descq q)).1 < 0)
    (hset : env.setup.Completes) :
    (qdmaQueueStart env dev q).2.qmax = dev.qmax ∧
      (qdmaQueueStart env dev q).2.numVecs = dev.numVecs ∧
      (qdmaQueueStart env dev q).2.intrListCnt =
        Function.update dev.intrListCnt (pickVec dev) (dev.intrListCnt (pickVec dev) + 1) ∧
      ∃ d, (qdmaQueueStart env dev q).2.descq = Function.update dev.descq q d ∧
        d.online = true ∧ d.intrId = pickVec dev := by
  unfold qdmaQueueStart
  rw [getDescqById_of_enabled hs.lt hs.enabled]
  dsimp only
  rw [hs.enabled, hs.inited, hs.online]
  simp only [Bool.not_true, Bool.or_self, Bool.false_eq_true, if_false]
  have halloc : qdmaDescqAllocResource env.al dev q =
      (0, descAllocIrq (dev.setDescq q (descqAllocRings env.al (dev.descq q)).2) q) := by
    unfold qdmaDescqAllocResource
    dsimp only
    rw [if_neg hok]
  rw [halloc]
  simp only [lt_irrefl, if_false]
  generalize (descqAllocRings env.al (dev.descq q)).2 = d
  have hinited : (descAllocIrq (dev.setDescq q d) q).setDescq q
      { (descAllocIrq (dev.setDescq q d) q).descq q with inited := true } =
      { dev with
        intrListCnt :=
          Function.update dev.intrListCnt (pickVec dev) (dev.intrListCnt (pickVec dev) + 1)
        descq := Function.update dev.descq q (initedDescq d (pickVec dev)) } := by
    unfold descAllocIrq
    rw [if_neg (show (dev.setDescq q d).numVecs ≠ 0 from hv)]
    simp only [XlnxDmaDev.setDescq, Function.update_self, Function.update_idem]
    rfl
  rw [hinited]
  -- programming the contexts does not touch the vectors, and it succeeds
  obtain ⟨vec, mmio, hprog, hrv, -⟩ := progHw_eq env.setup
    { dev with
      intrListCnt :=
        Function.update dev.intrListCnt (pickVec dev) (dev.intrListCnt (pickVec dev) + 1)
      descq := Function.update dev.descq q (initedDescq d (pickVec dev)) } q
  rw [contextSetup_completes hset] at hrv
  have hgood := not_lt.mpr (le_of_eq hrv.symm)
  rw [if_neg hgood, hprog]
  dsimp only
  generalize (qdmaDescqContextSetup _ _ _ _).2 = ctxt
  obtain ⟨r, hr⟩ : ∃ r : XlnxDmaDev, r =
      { dev with
        intrListCnt :=
          Function.update dev.intrListCnt (pickVec dev) (dev.intrListCnt (pickVec dev) + 1)
        qid2vec := vec
        mmio := mmio
        ctxt := ctxt
        descq := Function.update dev.descq q (initedDescq d (pickVec dev)) } := ⟨_, rfl⟩
  rw [← hr]
  obtain ⟨w, b, hadd⟩ := threadAddWork_eq
    (r.setDescq q { initedDescq d (pickVec dev) with online := true }) q
  rw [Function.update_self, hadd, setDescq_descq, Function.update_idem, Function.update_self, hr]
  exact ⟨rfl, rfl, rfl, { initedDescq d (pickVec dev) with online := true, wrkthp := w, wbthp := b },
    by rw [Function.update_idem], rfl, rfl⟩

/-- A start that does not get its rings leaves the vectors alone. -/
theorem start_alloc_fails {env : StartEnv} {dev : XlnxDmaDev} {q : ℕ} (hs : Startable dev q)
    (hfail : (descqAllocRings env.al (dev.descq q)).1 < 0) :
    ∃ ctxt, (qdmaQueueStart env dev q).2 =
      { dev with
        ctxt := ctxt
        descq := Function.update dev.descq q (failedDescq (dev.descq q)) } := by
  rw [start_unallocated env hs hfail]
  exact ⟨_, rfl⟩

theorem start_not_startable {env : StartEnv} {dev : XlnxDmaDev} {q : ℕ} (hs : ¬ Startable dev q) :
    (qdmaQueueStart env dev q).2 = dev := by
  rw [start_rejected env hs]

theorem VecExact.start {dev : XlnxDmaDev} (h : VecExact dev) (hv : dev.numVecs ≠ 0) {id : ℕ}
    {env : StartEnv}
    (hkept : Startable dev id → env.al.gives (dev.descq id) = true → env.setup.Completes) :
    VecExact (qdmaQueueStart env dev id).2 := by
  by_cases hs : Startable dev id
  · by_cases hfail : (descqAllocRings env.al (dev.descq id)).1 < 0
    · obtain ⟨ctxt, heq⟩ := start_alloc_fails hs hfail
      rw [heq]
      exact h.same hs.lt rfl rfl rfl rfl fun _ => rfl
    · have hgives := (descqAllocRings_gives env.al (dev.descq id)).resolve_left hfail
      obtain ⟨hmax, -, hcnt, d, hdescq, honline, hvec⟩ := start_cnt hs hv hfail (hkept hs hgives)
      refine h.update hs.lt hmax hdescq fun v => ?_
      have hoff : dev.onVec v id = false := by
        unfold XlnxDmaDev.onVec
        rw [hs.online]
        rfl
      rw [hcnt, hoff, honline, hvec]
      by_cases hpick : pickVec dev = v
      · subst hpick
        rw [Function.update_self, decide_eq_true rfl]
        rfl
      · rw [Function.update_of_ne (Ne.symm hpick), decide_eq_false hpick]
        rfl
  · rw [start_not_startable hs]
    exact h

/-- The number of vectors is fixed. -/
theorem vecSys_fixed (dev : XlnxDmaDev) (e : VecEv) :
    (vecSys.step dev e).numVecs = dev.numVecs := by
  cases e with
  | add qconf =>
      change (qdmaQueueAdd dev qconf).2.2.numVecs = dev.numVecs
      have hrun := addRun dev qconf
      generalize (qdmaQueueAdd dev qconf).2.2 = dev' at hrun ⊢
      cases hrun with
      | fails _ _ => rfl
      | adds _ _ _ _ _ => rfl
  | start id env =>
      change (qdmaQueueStart env dev id).2.numVecs = dev.numVecs
      have hrun := startRun env dev id
      generalize qdmaQueueStart env dev id = r at hrun ⊢
      obtain ⟨rv, dev'⟩ := r
      dsimp only at hrun ⊢
      cases hrun with
      | rejected _ _ => rfl
      | allocFails _ _ _ => rfl
      | progFails _ _ _ _ _ _ _ _ _ => rfl
      | starts d idx cnt vec mmio r hs hd hidx hok hr =>
          obtain ⟨w, b, hadd⟩ := threadAddWork_eq
            (r.setDescq id { r.descq id with online := true }) id
          rw [hadd, hr]
          rfl
  | stop id f =>
      change (qdmaQueueStop f dev id).2.numVecs = dev.numVecs
      by_cases hid : id < 2 * dev.qmax ∧ (dev.descq id).enabled = true
      · rw [qdmaQueueStop_eq f hid.1 hid.2, threadRemoveWork_eq]
      · rw [qdmaQueueStop_rejected f hid]
  | remove id f =>
      change (qdmaQueueRemove f dev id).2.numVecs = dev.numVecs
      by_cases hid : id < 2 * dev.qmax ∧ (dev.descq id).enabled = true
      · obtain ⟨m, c, cnt, heq⟩ := qdmaQueueRemove_eq f hid.1 hid.2
        rw [heq]
      · rw [qdmaQueueRemove_rejected f hid]

/-- **Vector counts are exact** in every run that meets `VecKept`. -/
theorem vector_counts_exact {dev : XlnxDmaDev} (hinit : DeviceInit dev) (hv : dev.numVecs ≠ 0)
    (es : List VecEv) (hrun : (vecSys.restrict VecKept).Admits dev es) :
    VecExact (vecSys.exec dev es) := by
  have hstart : VecExact dev := by
    intro v
    rw [hinit.intrListCnt, tally_eq_zero]
    intro q _
    unfold XlnxDmaDev.onVec
    rw [hinit.descq]
    rfl
  have hstep : ∀ s e, VecExact s ∧ s.numVecs ≠ 0 → (vecSys.restrict VecKept).guard s e →
      VecExact ((vecSys.restrict VecKept).step s e) ∧
        ((vecSys.restrict VecKept).step s e).numVecs ≠ 0 := by
    rintro s e ⟨hs, hvs⟩ ⟨-, hkept⟩
    refine ⟨?_, by rw [System.restrict_step, vecSys_fixed]; exact hvs⟩
    cases e with
    | add qconf => exact hs.add qconf
    | start id env => exact hs.start hvs hkept
    | stop id f => exact hs.stop f hkept
    | remove id f => exact hs.remove hvs f hkept
  exact ((vecSys.restrict VecKept).invariant hstep es ⟨hstart, hv⟩ hrun).1

/-- A device with two queues in each direction and two vectors. -/
def vectorDev : XlnxDmaDev :=
  { polledDev with
    numVecs := 2
    numVecs_le := by decide
    qmax := 2
    qmax_lt := by decide
    descq := fun q => qdmaDescqInit 0 (if q < 2 then q else q - 2) (if q < 2 then q else q - 2) }

theorem vectorDev_init : DeviceInit vectorDev :=
  ⟨rfl, fun _ => rfl, rfl, rfl, fun _ => rfl, fun _ => rfl, fun _ => rfl, fun _ => rfl, rfl⟩

/-- Two queues are started, on a vector each, and the first is removed. -/
theorem vector_counts_exact_removed :
    (vecSys.exec vectorDev [.add mmH2cConf, .start 0 plainStart, .add mmH2cConf,
      .start 1 plainStart, .remove 0 fun _ => .completes]).intrListCnt 1 = 1 ∧
    VecExact (vecSys.exec vectorDev [.add mmH2cConf, .start 0 plainStart, .add mmH2cConf,
      .start 1 plainStart, .remove 0 fun _ => .completes]) := by
  have hplain : plainStart.setup.Completes := ⟨fun _ => rfl, fun _ => rfl, fun _ => rfl⟩
  refine ⟨by decide +kernel, vector_counts_exact vectorDev_init (by decide) _ ?_⟩
  refine ⟨⟨trivial, trivial⟩, ⟨trivial, fun _ _ => hplain⟩, ⟨trivial, trivial⟩,
    ⟨trivial, fun _ _ => hplain⟩, ⟨trivial, fun _ _ => Or.inl ?_⟩, trivial⟩
  decide +kernel

/-- `qdma_queue_stop` does not lower the count that the start raised. -/
theorem vector_count_kept_by_stop :
    ¬ ∀ (dev : XlnxDmaDev) (es : List VecEv), DeviceInit dev → dev.numVecs ≠ 0 →
      vecSys.Admits dev es → VecExact (vecSys.exec dev es) := by
  intro hall
  have hexact := hall vectorDev [.add mmH2cConf, .start 0 plainStart, .stop 0 fun _ => .completes]
    vectorDev_init (by decide) ⟨trivial, trivial, trivial, trivial⟩ 0
  revert hexact
  decide +kernel

end Qdma

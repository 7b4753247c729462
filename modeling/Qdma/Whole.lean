import Qdma.Deliver
import Qdma.Fifo
import Qdma.Wakeup
import Mathlib.Algebra.Order.BigOperators.Group.Finset

/-!
# Whole reads

A reader of a streaming C2H queue is told that its bytes are there: at once, by the count
of its own submission, or by `check_rx_request_completed`.  It copies them later, in a
critical section of its own.  Until then the bytes are still part of `rxq->dlen`, and
nothing says whose they are.

* `ReaderState.due` is what a reader was promised and has not copied yet.
* `ReadsWhole` is the property: a call whose wait was neither timed out nor interrupted
  returns what it asked for.
* `LeavesPromised` is a condition for it: no step counts a byte for one reader that is
  promised to another, or that the reader itself has counted before.
-/

namespace Qdma

open Lib

/-! ## Sums of what is due -/

/-- One value changes and the others do not grow. -/
theorem sum_le_moved {S : Finset ℕ} {f g : ℕ → ℕ} {k : ℕ} (hk : k ∈ S)
    (h : ∀ i ≠ k, g i ≤ f i) : ∑ i ∈ S, g i + f k ≤ ∑ i ∈ S, f i + g k := by
  have hrest : ∑ i ∈ S.erase k, g i ≤ ∑ i ∈ S.erase k, f i :=
    Finset.sum_le_sum fun i hi => h i (Finset.ne_of_mem_erase hi)
  rw [← Finset.add_sum_erase S g hk, ← Finset.add_sum_erase S f hk]
  omega

/-- The values of a list change, each to at most `w`, and the others do not grow. -/
theorem sum_le_settled {S : Finset ℕ} {f g w : ℕ → ℕ} {ds : List ℕ} (hnodup : ds.Nodup)
    (hout : ∀ i ∉ ds, g i ≤ f i) (hin : ∀ i ∈ ds, g i ≤ w i) :
    ∑ i ∈ S, g i ≤ ∑ i ∈ S, f i + (ds.map w).sum := by
  have hsplit : ∀ i ∈ S, g i ≤ f i + if i ∈ ds.toFinset then w i else 0 := by
    intro i _
    by_cases hi : i ∈ ds
    · rw [if_pos (List.mem_toFinset.mpr hi)]
      exact (hin i hi).trans (Nat.le_add_left _ _)
    · rw [if_neg fun hm => hi (List.mem_toFinset.mp hm), Nat.add_zero]
      exact hout i hi
  have hlist : ∑ i ∈ S, (if i ∈ ds.toFinset then w i else 0) ≤ (ds.map w).sum := by
    rw [← Finset.sum_filter, ← List.sum_toFinset w hnodup]
    refine Finset.sum_le_sum_of_subset ?_
    intro i hi
    exact (Finset.mem_filter.mp hi).2
  calc ∑ i ∈ S, g i ≤ ∑ i ∈ S, (f i + if i ∈ ds.toFinset then w i else 0) :=
        Finset.sum_le_sum hsplit
    _ = ∑ i ∈ S, f i + ∑ i ∈ S, (if i ∈ ds.toFinset then w i else 0) := Finset.sum_add_distrib
    _ ≤ ∑ i ∈ S, f i + (ds.map w).sum := Nat.add_le_add_left hlist _

/-! ## Readers that copy -/

/-- The callers of a queue, the calls made so far, and what each call that has copied
returned. -/
structure ReaderState where
  w : WaitState
  calls : Finset ReqId
  got : ReqId → Option ℕ

def ReaderState.init (x : Xfer) : ReaderState where
  w := WaitState.init x
  calls := ∅
  got _ := none

inductive ReaderEv where
  | wait (e : WaitEv)
  /-- The part of `qdma_sg_req_submit_st_c2h` behind `copy_data`; `lens` are the lengths
  of the scatter list's entries. -/
  | copy (id : ReqId) (lens : List ℕ) (page : Option ℕ → ℕ → BitVec 8)

/-- What the copy of a reader does to the queue, and what it returns. -/
def ReaderState.read (s : ReaderState) (lens : List ℕ) (page : Option ℕ → ℕ → BitVec 8) :
    RxReadResult StRxQueue :=
  qdmaDescqRxqRead listOps page s.w.x.descq.stC2hWrbUddEn lens s.w.x.descq.rxQueue

def readerStep (s : ReaderState) : ReaderEv → ReaderState
  | .wait e =>
      { s with
        w := waitStep s.w e
        calls :=
          match e with
          | .submit id _ => insert id s.calls
          | _ => s.calls }
  | .copy id lens page =>
      let r := s.read lens page
      { s with
        w := waitStep (waitStep s.w (.rxRead r.rxq)) (.ret id)
        got := Function.update s.got id (some r.copied) }

/-- Reads and returns are the copies' own. -/
def OutsideCopy (s : WaitState) : WaitEv → Prop
  | .rxRead _ | .ret _ => False
  | .hwWrb pidx _ => pidx < s.x.descq.rngszWrb
  | _ => True

/-- The entries of a reader's scatter list have the bytes it asks for. -/
def readerGuard (s : ReaderState) : ReaderEv → Prop
  | .wait e => waitGuard s.w e ∧ OutsideCopy s.w e
  | .copy id lens _ => s.w.caller id = .leaving ∧ lens.sum = (s.w.x.reqs id).count

def readerSys : System ReaderState ReaderEv where
  step := readerStep
  guard := readerGuard

/-- A call that copied and did not give up its wait returned the count of its request. -/
def ReadsWhole (s : ReaderState) : Prop :=
  ∀ id n, s.got id = some n → id ∉ s.w.removed → n = (s.w.x.reqs id).count

/-- The bytes a reader was promised and has not copied. -/
def ReaderState.due (s : ReaderState) (id : ReqId) : ℕ :=
  match s.w.caller id with
  | .leaving => if id ∈ s.w.removed then 0 else (s.w.x.reqs id).count
  | .waiting => if (s.w.x.reqs id).cb.done then (s.w.x.reqs id).count else 0
  | _ => 0

def ReaderState.owed (s : ReaderState) : ℕ := ∑ id ∈ s.calls, s.due id

/-- The payload of the entries that wait for the next pass. -/
def QdmaDescq.wrbBytes (d : QdmaDescq) : ℕ :=
  (d.descWrb.map fun ring => ((d.entries ring (d.unread ring)).map ring.entryLen).sum).getD 0

/-- A reader finds nothing, or its bytes and everything promised; entries are consumed
while nothing is promised, if anybody waits, and with room in `dlen`; and a reader that
gave up copies only what is promised to nobody. -/
def LeavesPromised (s : ReaderState) : ReaderEv → Prop
  | .wait (.submit _ req) =>
      s.w.x.descq.enabled = true → req.write = false →
        s.w.x.descq.rxQueue.dlen = 0 ∨ s.owed + req.count ≤ s.w.x.descq.rxQueue.dlen
  | .wait (.serviceWb _) =>
      (s.owed = 0 ∨ s.w.x.descq.pendList = [] ∨ s.w.x.descq.wrbWaiting = 0) ∧
        s.w.x.descq.rxQueue.dlen + s.w.x.descq.wrbBytes < 2 ^ 32
  | .copy id _ _ =>
      id ∈ s.w.removed →
        s.owed = 0 ∨ s.owed + (s.w.x.reqs id).count ≤ s.w.x.descq.rxQueue.dlen
  | _ => True

/-! ## A read and a pass without user-defined data -/

/-- A queue without user-defined data. -/
structure StRxQueue.Plain (q : StRxQueue) : Prop where
  good : q.Good
  udd : q.udd = []

/-- A read returns what the list has room for, or all there is. -/
theorem StRxQueue.Plain.read {q : StRxQueue} (h : q.Plain) (lens : List ℕ)
    (page : Option ℕ → ℕ → BitVec 8) :
    StRxQueue.Plain (qdmaDescqRxqRead listOps page false lens q).rxq ∧
      (qdmaDescqRxqRead listOps page false lens q).copied = min lens.sum q.dlen ∧
      (qdmaDescqRxqRead listOps page false lens q).rxq.dlen = q.dlen - lens.sum := by
  have hread := read_stream page h.good false (clear_of_noUdd h.udd h.good lens)
  refine ⟨⟨hread.good, noUdd_read page h.good.counts h.udd false lens⟩, ?_, ?_⟩
  · rw [hread.copied, h.good.stream_length]
  · rw [← hread.good.stream_length page, hread.rest, List.length_drop, h.good.stream_length]

theorem RxReady.wrbBytes {ring : WrbRing} {d : QdmaDescq} (h : RxReady ring d) :
    d.wrbBytes = ((d.entries ring (d.unread ring)).map ring.entryLen).sum := by
  unfold QdmaDescq.wrbBytes
  rw [h.aligned.wrb]
  rfl

/-- The pages of some entries hold their payload. -/
theorem sum_shapes (d : QdmaDescq) (ring : WrbRing) (es : List ℕ) :
    ((es.flatMap (shapesAt d ring)).map Prod.fst).sum = (es.map ring.entryLen).sum := by
  induction es with
  | nil => rfl
  | cons cur es ih =>
      have hone := sum_packetPages d.stC2hWrbUddEn (ring.entryLen cur)
      unfold packetPages at hone
      rw [← pagePieces_eq] at hone
      rw [List.flatMap_cons, List.map_append, List.sum_append, ih, List.map_cons, List.sum_cons]
      exact congrArg (· + _) hone

theorem rxBytes_of_fresh {ns : List StRxData} (h : ∀ n ∈ ns, n.offset = 0) :
    rxBytes ns = ((ns.map StRxData.shape).map Prod.fst).sum := by
  unfold rxBytes
  rw [List.map_map]
  congr 1
  refine List.map_congr_left fun n hn => ?_
  rw [h n hn]
  rfl

/-- The first entries are some of those that wait. -/
theorem sum_entries_le (d : QdmaDescq) (ring : WrbRing) {n m : ℕ} (h : n ≤ m) :
    ((d.entries ring n).map ring.entryLen).sum ≤ ((d.entries ring m).map ring.entryLen).sum := by
  unfold QdmaDescq.entries
  have hsub : (List.range n).Sublist (List.range m) := List.range_sublist.mpr h
  exact ((hsub.map _).map _).sum_le_sum fun _ _ => Nat.zero_le _

/-- **A pass without user-defined data** only adds bytes, if they fit `dlen`. -/
theorem WbRun.plain {al : RxAllocs} {ring : WrbRing} {x : Xfer} {r : ℤ × Xfer} {n : ℕ}
    {rxs : List StRxData} {extra : List StC2hWrbUdd} (h : WbRun al ring x r n rxs extra)
    (hx : RxReady ring x.descq) (hplain : x.descq.stC2hWrbUddEn = false)
    (hq : x.descq.rxQueue.Plain)
    (hroom : x.descq.rxQueue.dlen + x.descq.wrbBytes < 2 ^ 32) :
    r.2.descq.rxQueue.Plain ∧ x.descq.rxQueue.dlen ≤ r.2.descq.rxQueue.dlen := by
  have hudds : ∀ cur, uddsAt x.descq ring cur = [] := by
    intro cur
    unfold uddsAt
    rw [hplain]
    rfl
  obtain ⟨hn, hextra⟩ : n ≤ x.descq.unread ring ∧ extra = [] := by
    obtain ⟨rv, hends, -⟩ := h.ends
    cases hends with
    | through hn => exact ⟨hn.le, rfl⟩
    | oom hn _ => exact ⟨hn.le, rfl⟩
    | err hn _ _ => exact ⟨hn.le, hudds _⟩
  have hnone : (x.descq.entries ring n).flatMap (uddsAt x.descq ring) ++ extra = [] := by
    rw [hextra, List.append_nil, List.flatMap_eq_nil_iff]
    exact fun cur _ => hudds cur
  have hgrows := h.rxq
  rw [hnone] at hgrows
  have hbytes : rxBytes rxs ≤ x.descq.wrbBytes := by
    calc rxBytes rxs = ((rxs.map StRxData.shape).map Prod.fst).sum :=
          rxBytes_of_fresh fun m hm => (hgrows.rxOk m hm).2
      _ ≤ (((x.descq.entries ring n).flatMap (shapesAt x.descq ring)).map Prod.fst).sum :=
          (h.shapes.map Prod.fst).sum_le_sum fun _ _ => Nat.zero_le _
      _ = ((x.descq.entries ring n).map ring.entryLen).sum := sum_shapes _ _ _
      _ ≤ x.descq.wrbBytes := by
          rw [hx.wrbBytes]
          exact sum_entries_le x.descq ring hn
  obtain ⟨hcounts, hdlen⟩ := hgrows.counts hq.good.counts (by
    rw [uddBytes_nil]
    omega)
  have hnoLeads : ∀ m ∈ rxs, m.leads = false := by
    intro m hm
    have hshape := h.shapes.subset (List.mem_map_of_mem hm)
    obtain ⟨cur, -, hmem⟩ := List.mem_flatMap.mp hshape
    unfold shapesAt at hmem
    rw [hplain, pagePieces_eq] at hmem
    obtain ⟨j, -, hj⟩ := List.mem_map.mp hmem
    have href : m.uddRef = false := by
      have hsnd := congrArg Prod.snd hj
      rw [Bool.false_and] at hsnd
      exact hsnd.symm
    unfold StRxData.leads
    rw [href, Bool.false_and]
  refine ⟨⟨⟨hcounts, ?_⟩, ?_⟩, ?_⟩
  · rw [hgrows.rx, hgrows.udd, List.append_nil]
    exact (hq.good.paired.append_noLeads (fun _ _ => 0) hnoLeads).1
  · rw [hgrows.udd, hq.udd]
    rfl
  · rw [hdlen]
    exact Nat.le_add_right _ _

/-! ## The invariant -/

structure ReaderInv (s : ReaderState) : Prop where
  ready : ∃ ring, RxReady ring s.w.x.descq
  st : s.w.x.descq.isStC2h = true
  plain : s.w.x.descq.stC2hWrbUddEn = false
  workList : s.w.x.descq.workList = []
  rxq : s.w.x.descq.rxQueue.Plain
  nodup : s.w.x.descq.pendList.Nodup
  pending : ∀ id ∈ s.w.x.descq.pendList, s.w.x.needs id = (s.w.x.reqs id).count ∧
    s.w.caller id ≠ .away ∧ s.w.caller id ≠ .counted
  counted : ∀ id, s.w.caller id = .counted →
    s.w.x.needs id = (s.w.x.reqs id).count ∧ (s.w.x.reqs id).cb.done = false
  called : ∀ id, s.w.caller id ≠ .away → id ∈ s.calls
  owed : s.owed ≤ s.w.x.descq.rxQueue.dlen
  got : ∀ id n, s.got id = some n →
    s.w.caller id = .back ∧ (id ∉ s.w.removed → n = (s.w.x.reqs id).count)

theorem ReaderInv.readsWhole {s : ReaderState} (h : ReaderInv s) : ReadsWhole s :=
  fun id n hn hin => (h.got id n hn).2 hin

/-! ### What is due -/

section Due

variable {s s' : ReaderState} {id : ReqId}

/-- It is read off the caller, the control block and the count. -/
theorem due_congr (hcaller : s'.w.caller id = s.w.caller id)
    (hreq : s'.w.x.reqs id = s.w.x.reqs id) (hremoved : id ∈ s'.w.removed ↔ id ∈ s.w.removed) :
    s'.due id = s.due id := by
  unfold ReaderState.due
  rw [hcaller, hreq]
  simp only [hremoved]

theorem due_le (s : ReaderState) (id : ReqId) : s.due id ≤ (s.w.x.reqs id).count := by
  unfold ReaderState.due
  split
  · split
    · exact Nat.zero_le _
    · exact le_refl _
  · split
    · exact le_refl _
    · exact Nat.zero_le _
  · exact Nat.zero_le _

theorem due_leaving (hcaller : s.w.caller id = .leaving) (hin : id ∉ s.w.removed) :
    s.due id = (s.w.x.reqs id).count := by
  unfold ReaderState.due
  rw [hcaller]
  exact if_neg hin

theorem due_gaveUp (hcaller : s.w.caller id = .leaving) (hout : id ∈ s.w.removed) :
    s.due id = 0 := by
  unfold ReaderState.due
  rw [hcaller]
  exact if_pos hout

theorem due_waiting (hcaller : s.w.caller id = .waiting) :
    s.due id = if (s.w.x.reqs id).cb.done then (s.w.x.reqs id).count else 0 := by
  unfold ReaderState.due
  rw [hcaller]

/-- Anywhere else nothing is due. -/
theorem due_idle {c : Caller} (hcaller : s.w.caller id = c)
    (hidle : c ≠ .leaving ∧ c ≠ .waiting) : s.due id = 0 := by
  unfold ReaderState.due
  rw [hcaller]
  split
  · exact absurd rfl hidle.1
  · exact absurd rfl hidle.2
  · rfl

theorem due_le_owed (s : ReaderState) {id : ReqId} (h : id ∈ s.calls) : s.due id ≤ s.owed :=
  Finset.single_le_sum (f := s.due) (fun _ _ => Nat.zero_le _) h

end Due

/-! ### A caller that moves -/

section Moved

variable {s : ReaderState} {id i : ReqId} {c : Caller}

theorem ReaderInv.placed_moved (h : ReaderInv s) (hpending : id ∈ s.w.x.descq.pendList → c ≠ .away)
    (hc : c ≠ .counted) (hi : i ∈ s.w.x.descq.pendList) :
    Function.update s.w.caller id c i ≠ .away ∧ Function.update s.w.caller id c i ≠ .counted := by
  by_cases hne : i = id
  · subst hne
    rw [Function.update_self]
    exact ⟨hpending hi, hc⟩
  · rw [Function.update_of_ne hne]
    exact (h.pending i hi).2

/-- A caller that has counted the bytes had done so before the move. -/
theorem counted_of_moved (hc : c ≠ .counted) (hi : Function.update s.w.caller id c i = .counted) :
    s.w.caller i = .counted := by
  by_cases hne : i = id
  · subst hne
    rw [Function.update_self] at hi
    exact absurd hi hc
  · rw [Function.update_of_ne hne] at hi
    exact hi

theorem ReaderInv.called_moved (h : ReaderInv s) (haway : s.w.caller id ≠ .away)
    (hi : Function.update s.w.caller id c i ≠ .away) : i ∈ s.calls := by
  by_cases hne : i = id
  · subst hne
    exact h.called i haway
  · rw [Function.update_of_ne hne] at hi
    exact h.called i hi

end Moved

/-! ### Steps of the hardware and of a pass -/

/-- The queue is different in nothing that a reader looks at. -/
theorem ReaderInv.ofQueue {s : ReaderState} (h : ReaderInv s) {d : QdmaDescq}
    (hready : ∃ ring, RxReady ring d) (hst : d.isStC2h = s.w.x.descq.isStC2h)
    (hplain : d.stC2hWrbUddEn = s.w.x.descq.stC2hWrbUddEn)
    (hwork : d.workList = s.w.x.descq.workList) (hpend : d.pendList = s.w.x.descq.pendList)
    (hrxq : d.rxQueue = s.w.x.descq.rxQueue) :
    ReaderInv { s with w := { s.w with x := { s.w.x with descq := d } } } where
  ready := hready
  st := hst.trans h.st
  plain := hplain.trans h.plain
  workList := hwork.trans h.workList
  rxq := by
    change d.rxQueue.Plain
    rw [hrxq]
    exact h.rxq
  nodup := by
    change d.pendList.Nodup
    rw [hpend]
    exact h.nodup
  pending id hid := by
    change id ∈ d.pendList at hid
    rw [hpend] at hid
    exact h.pending id hid
  counted := h.counted
  called := h.called
  owed := by
    change s.owed ≤ d.rxQueue.dlen
    rw [hrxq]
    exact h.owed
  got := h.got

/-- A pass that completes requests promises their bytes. -/
theorem ReaderInv.serviceWb {s : ReaderState} (h : ReaderInv s) {al : RxAllocs}
    (hok : LeavesPromised s (.wait (.serviceWb al))) :
    ReaderInv (readerStep s (.wait (.serviceWb al))) := by
  obtain ⟨hfree, hroom⟩ := hok
  obtain ⟨ring, hx⟩ := h.ready
  obtain ⟨n, rxs, extra, hrun⟩ := stC2hWb_run al hx
  obtain ⟨hrxq, hgrown⟩ := hrun.plain hx h.plain h.rxq hroom
  have hstep : readerStep s (.wait (.serviceWb al)) =
      { s with w := { s.w with x := (descqStC2hWb al s.w.x).2 } } := by
    have hwb : waitStep s.w (.serviceWb al) = { s.w with x := (descqStC2hWb al s.w.x).2 } := by
      change { s.w with x := qdmaDescqServiceWb al s.w.x } = _
      unfold qdmaDescqServiceWb
      rw [if_pos h.st]
    simp only [readerStep, hwb]
  rw [hstep]
  have hwrb := hx.wrbWaiting
  generalize descqStC2hWb al s.w.x = r at hrun hrxq hgrown ⊢
  have hready : ∃ ring, RxReady ring r.2.descq := ⟨ring, hrun.ready⟩
  have hst : r.2.descq.isStC2h = true := by
    unfold QdmaDescq.isStC2h
    rw [hrun.same.conf]
    exact h.st
  have hplain : r.2.descq.stC2hWrbUddEn = false := hrun.same.uddEn.trans h.plain
  rcases hrun.woken h.nodup with ⟨hbooks, -⟩ | ⟨hsome, z, ds, rest, hbooks, hsplit, hwoken⟩
  · have hpend := hbooks.pendList
    have hreqs := hbooks.reqs
    refine ⟨hready, hst, hplain, hbooks.workList.trans h.workList, hrxq, ?_, ?_, ?_, h.called, ?_,
      ?_⟩
    · change r.2.descq.pendList.Nodup
      rw [hpend]
      exact h.nodup
    · intro id hid
      change id ∈ r.2.descq.pendList at hid
      rw [hpend] at hid
      simp only [Xfer.needs, hreqs]
      exact h.pending id hid
    · intro id hid
      simp only [Xfer.needs, hreqs]
      exact h.counted id hid
    · have hdue : ∑ id ∈ s.calls, ReaderState.due { s with w := { s.w with x := r.2 } } id =
          s.owed := by
        refine Finset.sum_congr rfl fun id _ => due_congr rfl ?_ Iff.rfl
        exact congrFun hreqs id
      exact hdue.le.trans (h.owed.trans hgrown)
    · intro id n hn
      simp only [hreqs]
      exact h.got id n hn
  · have hzreqs : z.reqs = s.w.x.reqs := hbooks.reqs
    have hzneeds : ∀ id, z.needs id = s.w.x.needs id := by
      intro id
      unfold Xfer.needs
      rw [hzreqs]
    have hcount : ∀ id, (r.2.reqs id).count = (s.w.x.reqs id).count := by
      intro id
      rw [(hwoken.asked id).1, hzreqs]
    have hkept : ∀ id ∉ ds, r.2.reqs id = s.w.x.reqs id := by
      intro id hid
      rw [hwoken.kept id hid, hzreqs]
    have hlist : (ds ++ rest).Nodup := by
      rw [← hsplit]
      exact h.nodup
    have hapart := List.nodup_append.mp hlist
    have hpending : ∀ id ∈ ds ++ rest, s.w.x.needs id = (s.w.x.reqs id).count ∧
        s.w.caller id ≠ .away ∧ s.w.caller id ≠ .counted := by
      rw [← hsplit]
      exact h.pending
    refine ⟨hready, hst, hplain, hwoken.workList (hbooks.workList.trans h.workList), hrxq, ?_, ?_,
      ?_, h.called, ?_, ?_⟩
    · change r.2.descq.pendList.Nodup
      rw [hwoken.pendList]
      exact hapart.2.1
    · intro id hid
      change id ∈ r.2.descq.pendList at hid
      rw [hwoken.pendList] at hid
      have hnot : id ∉ ds := fun hd => hapart.2.2 id hd id hid rfl
      simp only [Xfer.needs, hkept id hnot]
      exact hpending id (List.mem_append_right _ hid)
    · intro id hid
      have hnot : id ∉ ds := fun hd => (hpending id (List.mem_append_left _ hd)).2.2 hid
      simp only [Xfer.needs, hkept id hnot]
      exact h.counted id hid
    · -- what the pass promises is in `dlen`, and nothing was promised before
      have hsum : ∑ id ∈ s.calls, ReaderState.due { s with w := { s.w with x := r.2 } } id ≤
          s.owed + (ds.map s.w.x.needs).sum := by
        refine sum_le_settled hapart.1 ?_ ?_
        · intro id hid
          have hsame : ReaderState.due { s with w := { s.w with x := r.2 } } id = s.due id :=
            due_congr rfl (hkept id hid) Iff.rfl
          exact hsame.le
        · intro id hid
          rw [(hpending id (List.mem_append_left _ hid)).1, ← hcount id]
          exact due_le _ id
      have hfits := hwoken.fits
      have hmap : ds.map z.needs = ds.map s.w.x.needs := List.map_congr_left fun id _ => hzneeds id
      rw [hmap] at hfits
      refine hsum.trans ?_
      change s.owed + _ ≤ r.2.descq.rxQueue.dlen
      rcases hfree with hzero | hempty | hnone
      · rw [hzero, Nat.zero_add]
        exact hfits
      · have hds : ds = [] := by
          rw [hempty] at hsplit
          exact (List.append_eq_nil_iff.mp hsplit.symm).1
        rw [hds, List.map_nil, List.sum_nil, Nat.add_zero]
        exact h.owed.trans hgrown
      · exact absurd (hwrb.symm.trans hnone) hsome
    · intro id n hn
      simp only [hcount]
      exact h.got id n hn

/-! ### Steps of the readers -/

/-- One reader goes on; what the others are due does not change. -/
theorem owed_le_moved {s t : ReaderState} {id : ReqId} (hcalls : t.calls = s.calls)
    (hid : id ∈ s.calls) (hcaller : ∀ i ≠ id, t.w.caller i = s.w.caller i)
    (hreqs : ∀ i ≠ id, t.w.x.reqs i = s.w.x.reqs i)
    (hremoved : ∀ i ≠ id, (i ∈ t.w.removed ↔ i ∈ s.w.removed)) :
    t.owed + s.due id ≤ s.owed + t.due id := by
  unfold ReaderState.owed
  rw [hcalls]
  exact sum_le_moved hid fun i hi => (due_congr (hcaller i hi) (hreqs i hi) (hremoved i hi)).le

/-- The count: with enough there the reader is promised its bytes on top of what is
promised already; with nothing there it waits for all of them. -/
theorem ReaderInv.count {s : ReaderState} (h : ReaderInv s) {id : ReqId} {req : QdmaSgReq}
    (haway : s.w.caller id = .away)
    (hok : s.w.x.descq.rxQueue.dlen = 0 ∨ s.owed + req.count ≤ s.w.x.descq.rxQueue.dlen) :
    ReaderInv { s with w := submitStC2hCount s.w id req, calls := insert id s.calls } := by
  have hnot : id ∉ s.w.x.descq.pendList := fun hm => (h.pending id hm).2.1 haway
  have hreq : ∀ i ≠ id, (submitStC2hCount s.w id req).x.reqs i = s.w.x.reqs i :=
    fun i hi => Function.update_of_ne hi _ _
  have hcaller : ∀ i ≠ id, (submitStC2hCount s.w id req).caller i = s.w.caller i :=
    fun i hi => Function.update_of_ne hi _ _
  have hself : (submitStC2hCount s.w id req).caller id =
      if req.count ≤ s.w.x.descq.rxQueue.dlen then .leaving else .counted :=
    Function.update_self ..
  have hselfreq : (submitStC2hCount s.w id req).x.reqs id =
      { req with
        cb := { QdmaSgtReqCb.zero with
          offset := if req.count ≤ s.w.x.descq.rxQueue.dlen then req.count
            else req.count - s.w.x.descq.rxQueue.dlen } } :=
    Function.update_self ..
  refine ⟨h.ready, h.st, h.plain, h.workList, h.rxq, h.nodup, ?_, ?_, ?_, ?_, ?_⟩
  · intro i hi
    have hne : i ≠ id := fun heq => hnot (heq ▸ hi)
    simp only [Xfer.needs, hreq i hne, hcaller i hne]
    exact h.pending i hi
  · intro i hi
    by_cases hne : i = id
    · subst hne
      change (submitStC2hCount s.w i req).caller i = .counted at hi
      rw [hself] at hi
      split at hi
      · cases hi
      · rename_i hshort
        -- nothing was there, so nothing was counted
        have hzero : s.w.x.descq.rxQueue.dlen = 0 := hok.resolve_right (by omega)
        simp only [Xfer.needs, hselfreq]
        rw [if_neg hshort, hzero, Nat.sub_zero]
        exact ⟨rfl, rfl⟩
    · change (submitStC2hCount s.w id req).caller i = .counted at hi
      rw [hcaller i hne] at hi
      simp only [Xfer.needs, hreq i hne]
      exact h.counted i hi
  · intro i hi
    by_cases hne : i = id
    · exact Finset.mem_insert.mpr (Or.inl hne)
    · change (submitStC2hCount s.w id req).caller i ≠ .away at hi
      rw [hcaller i hne] at hi
      exact Finset.mem_insert_of_mem (h.called i hi)
  · have hzero : s.due id = 0 :=
      due_idle haway (by decide)
    have hbefore : ReaderState.owed { s with calls := insert id s.calls } = s.owed :=
      Finset.sum_insert_of_eq_zero_if_notMem fun _ => hzero
    have hmoved := owed_le_moved (s := { s with calls := insert id s.calls })
      (t := { s with w := submitStC2hCount s.w id req, calls := insert id s.calls }) rfl
      (Finset.mem_insert_self id s.calls) hcaller hreq fun _ _ => Iff.rfl
    rw [hbefore] at hmoved
    have hdue : ReaderState.due
        { s with w := submitStC2hCount s.w id req, calls := insert id s.calls } id ≤
        if req.count ≤ s.w.x.descq.rxQueue.dlen then req.count else 0 := by
      by_cases henough : req.count ≤ s.w.x.descq.rxQueue.dlen
      · rw [if_pos henough]
        refine (due_le _ id).trans ?_
        change ((submitStC2hCount s.w id req).x.reqs id).count ≤ req.count
        rw [hselfreq]
      · rw [if_neg henough, due_idle ?_ (c := .counted) (by decide)]
        change (submitStC2hCount s.w id req).caller id = _
        rw [hself, if_neg henough]
    have howed := h.owed
    change ReaderState.owed _ ≤ s.w.x.descq.rxQueue.dlen
    split at hdue
    · omega
    · omega
  · intro i n hn
    obtain ⟨hback, hcount⟩ := h.got i n hn
    have hne : i ≠ id := by
      rintro rfl
      rw [haway] at hback
      cases hback
    change (submitStC2hCount s.w id req).caller i = _ ∧
      (_ → n = ((submitStC2hCount s.w id req).x.reqs i).count)
    rw [hcaller i hne, hreq i hne]
    exact ⟨hback, hcount⟩

/-- A submission that was refused. -/
theorem ReaderInv.refused {s : ReaderState} (h : ReaderInv s) {id : ReqId}
    (haway : s.w.caller id = .away) : ReaderInv { s with calls := insert id s.calls } where
  ready := h.ready
  st := h.st
  plain := h.plain
  workList := h.workList
  rxq := h.rxq
  nodup := h.nodup
  pending := h.pending
  counted := h.counted
  called i hi := Finset.mem_insert_of_mem (h.called i hi)
  owed := by
    have hzero : s.due id = 0 :=
      due_idle haway (by decide)
    have hsame : ReaderState.owed { s with calls := insert id s.calls } = s.owed :=
      Finset.sum_insert_of_eq_zero_if_notMem fun _ => hzero
    rw [hsame]
    exact h.owed
  got := h.got

/-- A caller moves on, and what it is due does not grow. -/
theorem ReaderInv.move {s : ReaderState} (h : ReaderInv s) {id : ReqId} {c : Caller}
    (haway : s.w.caller id ≠ .away) (hback : s.w.caller id ≠ .back) (hc : c ≠ .counted)
    (hpending : id ∈ s.w.x.descq.pendList → c ≠ .away)
    (hdue : ReaderState.due
      { s with w := { s.w with caller := Function.update s.w.caller id c } } id ≤ s.due id) :
    ReaderInv { s with w := { s.w with caller := Function.update s.w.caller id c } } := by
  have hother : ∀ i ≠ id, Function.update s.w.caller id c i = s.w.caller i :=
    fun i hi => Function.update_of_ne hi _ _
  refine ⟨h.ready, h.st, h.plain, h.workList, h.rxq, h.nodup, ?_, ?_, ?_, ?_, ?_⟩
  · intro i hi
    exact ⟨(h.pending i hi).1, h.placed_moved hpending hc hi⟩
  · intro i hi
    exact h.counted i (counted_of_moved hc hi)
  · intro i hi
    exact h.called_moved haway hi
  · have hmoved := owed_le_moved (s := s)
      (t := { s with w := { s.w with caller := Function.update s.w.caller id c } }) rfl
      (h.called id haway) hother (fun _ _ => rfl) fun _ _ => Iff.rfl
    have howed := h.owed
    change ReaderState.owed _ ≤ s.w.x.descq.rxQueue.dlen
    omega
  · intro i n hn
    obtain ⟨hgone, hcount⟩ := h.got i n hn
    have hne : i ≠ id := by
      rintro rfl
      exact hback hgone
    refine ⟨?_, hcount⟩
    change Function.update s.w.caller id c i = _
    rw [hother i hne]
    exact hgone

/-- A reader that has counted nothing goes to the list. -/
theorem ReaderInv.enqueue {s : ReaderState} (h : ReaderInv s) {id : ReqId}
    (hcounted : s.w.caller id = .counted) :
    ReaderInv { s with w := submitStC2hEnqueue s.w id } := by
  obtain ⟨hneeds, hundone⟩ := h.counted id hcounted
  have haway : s.w.caller id ≠ .away := by rw [hcounted]; decide
  have hback : s.w.caller id ≠ .back := by rw [hcounted]; decide
  have hnot : id ∉ s.w.x.descq.pendList := fun hm => (h.pending id hm).2.2 hcounted
  have hzero : s.due id = 0 :=
    due_idle hcounted (by decide)
  unfold submitStC2hEnqueue
  split
  · have hqueued : Caller.queued (s.w.x.reqs id) ≠ .counted ∧
        Caller.queued (s.w.x.reqs id) ≠ .away := by
      rcases queued_cases (s.w.x.reqs id) with heq | heq
      · rw [heq]
        exact ⟨by decide, by decide⟩
      · rw [heq]
        exact ⟨by decide, by decide⟩
    have hmoved := h.move (c := .queued (s.w.x.reqs id)) haway hback hqueued.1
      (fun hm => absurd hm hnot) (by
        -- the request is not done, and nothing is due to it
        rw [hzero]
        rcases queued_cases (s.w.x.reqs id) with heq | heq
        · rw [due_waiting]
          · change (if (s.w.x.reqs id).cb.done then _ else 0) ≤ 0
            rw [hundone]
            exact le_refl 0
          · change Function.update s.w.caller id _ id = _
            rw [Function.update_self, heq]
        · refine (due_idle ?_ (c := .detached) (by decide)).le
          change Function.update s.w.caller id _ id = _
          rw [Function.update_self, heq])
    obtain ⟨ring, hx⟩ := h.ready
    refine ⟨⟨ring, hx.relist hx.desc s.w.x.descq.workList _⟩, h.st, h.plain, h.workList, h.rxq, ?_,
      ?_, hmoved.counted, hmoved.called, hmoved.owed, hmoved.got⟩
    · change (s.w.x.descq.pendList ++ [id]).Nodup
      rw [List.nodup_append]
      refine ⟨h.nodup, List.nodup_singleton id, ?_⟩
      rintro i hi j hj rfl
      rw [List.mem_singleton] at hj
      exact hnot (hj ▸ hi)
    · intro i hi
      change i ∈ s.w.x.descq.pendList ++ [id] at hi
      rcases List.mem_append.mp hi with hi | hi
      · exact hmoved.pending i hi
      · rw [List.mem_singleton] at hi
        subst hi
        refine ⟨hneeds, ?_⟩
        change Function.update s.w.caller i _ i ≠ _ ∧ Function.update s.w.caller i _ i ≠ _
        rw [Function.update_self]
        exact ⟨hqueued.2, hqueued.1⟩
  · refine h.move haway hback (by decide) (fun hm => absurd hm hnot) ?_
    refine (due_idle ?_ (c := .away) (by decide)).le.trans (Nat.zero_le _)
    exact Function.update_self ..

/-- The end of the wait: a reader that was served keeps what it is due. -/
theorem ReaderInv.test {s : ReaderState} (h : ReaderInv s) {id : ReqId}
    (hwaiting : s.w.caller id = .waiting) :
    ReaderInv (readerStep s (.wait (.test id))) := by
  have haway : s.w.caller id ≠ .away := by rw [hwaiting]; decide
  have hback : s.w.caller id ≠ .back := by rw [hwaiting]; decide
  change ReaderInv
    { s with
      w := { s.w with
        caller := Function.update s.w.caller id
          (if (s.w.x.reqs id).cb.done then .leaving else .expired) } }
  cases hdone : (s.w.x.reqs id).cb.done with
  | true =>
      rw [if_pos rfl]
      refine h.move haway hback (by decide) (fun _ => by decide) ?_
      rw [due_waiting hwaiting, if_pos hdone]
      exact due_le _ id
  | false =>
      rw [if_neg Bool.false_ne_true]
      refine h.move haway hback (by decide) (fun _ => by decide) ?_
      refine (due_idle ?_ (c := .expired) (by decide)).le.trans (Nat.zero_le _)
      exact Function.update_self ..

/-- A reader that gave up takes its request off the list; nothing is due to it. -/
theorem ReaderInv.remove {s : ReaderState} (h : ReaderInv s) {id : ReqId}
    (hexpired : s.w.caller id = .expired) :
    ReaderInv (readerStep s (.wait (.remove id))) := by
  have haway : s.w.caller id ≠ .away := by rw [hexpired]; decide
  have hother : ∀ i ≠ id, Function.update s.w.caller id .leaving i = s.w.caller i :=
    fun i hi => Function.update_of_ne hi _ _
  have hremoved : ∀ i ≠ id, (i ∈ s.w.removed ++ [id] ↔ i ∈ s.w.removed) := by
    intro i hi
    rw [List.mem_append, List.mem_singleton]
    exact or_iff_left hi
  obtain ⟨ring, hx⟩ := h.ready
  refine ⟨⟨ring, hx.relist hx.desc _ _⟩, h.st, h.plain, ?_, h.rxq, h.nodup.erase id, ?_, ?_, ?_, ?_,
    ?_⟩
  · change s.w.x.descq.workList.erase id = []
    rw [h.workList]
    rfl
  · intro i hi
    change i ∈ s.w.x.descq.pendList.erase id at hi
    have hmem := List.mem_of_mem_erase hi
    exact ⟨(h.pending i hmem).1, h.placed_moved (fun _ => by decide) (by decide) hmem⟩
  · intro i hi
    exact h.counted i (counted_of_moved (by decide) hi)
  · intro i hi
    exact h.called_moved haway hi
  · have hzero : ReaderState.due (readerStep s (.wait (.remove id))) id = 0 := by
      refine due_gaveUp ?_ ?_
      · change Function.update s.w.caller id .leaving id = _
        exact Function.update_self ..
      · change id ∈ s.w.removed ++ [id]
        exact List.mem_append_right _ (List.mem_singleton_self id)
    have hmoved := owed_le_moved (s := s) (t := readerStep s (.wait (.remove id))) rfl
      (h.called id haway) hother (fun _ _ => rfl) hremoved
    have howed := h.owed
    change ReaderState.owed _ ≤ s.w.x.descq.rxQueue.dlen
    omega
  · intro i n hn
    obtain ⟨hback, hcount⟩ := h.got i n hn
    have hne : i ≠ id := by
      rintro rfl
      rw [hexpired] at hback
      cases hback
    change Function.update s.w.caller id .leaving i = _ ∧ (i ∉ s.w.removed ++ [id] → _)
    rw [hother i hne, hremoved i hne]
    exact ⟨hback, hcount⟩

/-- **The copy.**  What was promised is there, and what the others were promised stays. -/
theorem ReaderInv.copy {s : ReaderState} (h : ReaderInv s) {id : ReqId} {lens : List ℕ}
    {page : Option ℕ → ℕ → BitVec 8} (hleaving : s.w.caller id = .leaving)
    (hlens : lens.sum = (s.w.x.reqs id).count) (hok : LeavesPromised s (.copy id lens page)) :
    ReaderInv (readerStep s (.copy id lens page)) := by
  have haway : s.w.caller id ≠ .away := by rw [hleaving]; decide
  have hother : ∀ i ≠ id, Function.update s.w.caller id .back i = s.w.caller i :=
    fun i hi => Function.update_of_ne hi _ _
  obtain ⟨ring, hx⟩ := h.ready
  obtain ⟨hrxq, hcopied, hdlen⟩ := h.rxq.read lens page
  rw [← h.plain] at hrxq hcopied hdlen
  have hcalled := h.called id haway
  have howed := h.owed
  have hdue := due_le_owed s hcalled
  refine ⟨⟨ring, hx.rxRead _⟩, h.st, h.plain, h.workList, hrxq, h.nodup, ?_, ?_, ?_, ?_, ?_⟩
  · intro i hi
    exact ⟨(h.pending i hi).1, h.placed_moved (fun _ => by decide) (by decide) hi⟩
  · intro i hi
    exact h.counted i (counted_of_moved (by decide) hi)
  · intro i hi
    exact h.called_moved haway hi
  · have hzero : ReaderState.due (readerStep s (.copy id lens page)) id = 0 :=
      due_idle (Function.update_self ..) (c := .back) (by decide)
    have hmoved := owed_le_moved (s := s) (t := readerStep s (.copy id lens page)) rfl hcalled
      hother (fun _ _ => rfl) fun _ _ => Iff.rfl
    rw [hzero, Nat.add_zero] at hmoved
    change ReaderState.owed _ ≤ (s.read lens page).rxq.dlen
    unfold ReaderState.read
    rw [hdlen, hlens]
    by_cases hout : id ∈ s.w.removed
    · rcases hok hout with hnone | hroom
      · omega
      · omega
    · rw [due_leaving hleaving hout] at hmoved
      omega
  · intro i n hn
    change Function.update s.got id (some (s.read lens page).copied) i = _ at hn
    change Function.update s.w.caller id .back i = _ ∧ (i ∉ s.w.removed → _)
    by_cases hne : i = id
    · subst hne
      rw [Function.update_self] at hn ⊢
      refine ⟨rfl, fun hin => ?_⟩
      have hcount := due_leaving hleaving hin
      have hn' : n = (s.read lens page).copied := (Option.some.inj hn).symm
      rw [hn']
      unfold ReaderState.read
      rw [hcopied, hlens]
      change _ = (s.w.x.reqs i).count
      exact Nat.min_eq_left (by omega)
    · rw [Function.update_of_ne hne] at hn
      rw [hother i hne]
      exact h.got i n hn

/-! ## Every run -/

/-- **One step** that leaves what is promised. -/
theorem ReaderInv.step {s : ReaderState} {e : ReaderEv} (h : ReaderInv s)
    (hg : readerGuard s e) (hok : LeavesPromised s e) : ReaderInv (readerStep s e) := by
  cases e with
  | copy id lens page => exact h.copy hg.1 hg.2 hok
  | wait e =>
      obtain ⟨hcaller, houtside⟩ := hg
      obtain ⟨ring, hx⟩ := h.ready
      cases e with
      | submit id req =>
          have haway : s.w.caller id = .away := hcaller
          simp only [readerStep, waitStep]
          split
          · rename_i henabled
            unfold submitPart
            split
            · exact h.refused haway
            · rename_i hdir
              have hwrite : req.write = false := by
                have hst := h.st
                unfold QdmaDescq.isStC2h at hst
                rw [Bool.and_eq_true] at hst
                rw [hst.2] at hdir
                cases hw : req.write with
                | false => rfl
                | true =>
                    rw [hw] at hdir
                    exact absurd rfl hdir
              rw [if_pos h.st]
              exact h.count haway (hok henabled hwrite)
          · exact h.refused haway
      | enqueue id => exact h.enqueue hcaller
      | wrkProc =>
          have hsame : qdmaThreadWrkProc s.w.x = s.w.x := by
            unfold qdmaThreadWrkProc
            rw [h.workList]
            rfl
          simp only [readerStep, waitStep]
          rw [hsame]
          exact h
      | serviceWb al => exact h.serviceWb hok
      | hwWb cidx =>
          have hdesc : (s.w.x.descq.desc.map fun r => { r with wbCidx := cidx }).isSome = true := by
            rw [Option.isSome_map]
            exact hx.desc
          exact h.ofQueue ⟨ring, hx.relist hdesc s.w.x.descq.workList s.w.x.descq.pendList⟩ rfl rfl
            rfl rfl rfl
      | hwWrb pidx mem => exact h.ofQueue ⟨_, hx.hwCompletion houtside mem⟩ rfl rfl rfl rfl rfl
      | rxRead rxq => exact houtside.elim
      | test id => exact h.test hcaller
      | remove id => exact h.remove hcaller
      | ret id => exact houtside.elim

/-- Nobody reads yet. -/
theorem ReaderInv.init {d : QdmaDescq} (hd : RxStarted d) (hplain : d.stC2hWrbUddEn = false)
    (hwork : d.workList = []) (hpend : d.pendList = []) (hrxq : d.rxQueue = StRxQueue.empty)
    (reqs : ReqId → QdmaSgReq) (intrCoalEn : Bool) (coals : List IntrCoalConf) :
    ReaderInv (ReaderState.init (Xfer.init d reqs intrCoalEn coals)) := by
  obtain ⟨hready, -⟩ := hd.rxReady
  obtain ⟨-, -, -, -, -, -, hst, -⟩ := hd
  refine ⟨hready, hst, hplain, hwork, ?_, ?_, ?_, ?_, ?_, Nat.zero_le _, ?_⟩
  · change d.rxQueue.Plain
    rw [hrxq]
    exact ⟨⟨counts_empty, Or.inl rfl⟩, rfl⟩
  · change d.pendList.Nodup
    rw [hpend]
    exact List.nodup_nil
  · intro id hid
    change id ∈ d.pendList at hid
    rw [hpend] at hid
    cases hid
  · intro id hid
    cases hid
  · intro id hid
    exact absurd rfl hid
  · intro id n hn
    cases hn

instance decidableOutsideCopy (s : WaitState) : ∀ e, Decidable (OutsideCopy s e) := by
  rintro ⟨⟩ <;> dsimp only [OutsideCopy] <;> infer_instance

instance decidableReaderGuard (s : ReaderState) : ∀ e, Decidable (readerSys.guard s e) := by
  rintro ⟨⟩ <;> dsimp only [readerSys, readerGuard] <;> infer_instance

instance decidableLeavesPromised (s : ReaderState) : ∀ e, Decidable (LeavesPromised s e) := by
  rintro (⟨⟨⟩⟩ | _) <;> dsimp only [LeavesPromised] <;> infer_instance

instance (s : ReaderState) (e : ReaderEv) :
    Decidable ((readerSys.restrict LeavesPromised).guard s e) :=
  inferInstanceAs (Decidable (readerSys.guard s e ∧ LeavesPromised s e))

/-- Two readers of a page wait; the first is served by a packet of 5000 bytes and copies. -/
def firstServedRun : List ReaderEv :=
  [.wait (.submit 0 pageReadReq), .wait (.enqueue 0), .wait (.submit 1 pageReadReq),
    .wait (.enqueue 1), .wait (.hwWrb 1 (twoEntries false)), .wait (.serviceWb rxPlenty),
    .wait (.test 0), .copy 0 [4096] fun _ _ => 0]

/-- A packet of 5000 bytes is there when a reader asks for 8192; a packet of one byte
arrives, and the reader is served. -/
def leftoverRun : List ReaderEv :=
  [.wait (.hwWrb 1 (twoEntries false)), .wait (.serviceWb rxPlenty),
    .wait (.submit 0 { onePlaceReq with write := false }), .wait (.enqueue 0),
    .wait (.hwWrb 2 (twoEntries false)), .wait (.serviceWb rxPlenty), .wait (.test 0),
    .copy 0 [8192] fun _ _ => 0]

end Qdma

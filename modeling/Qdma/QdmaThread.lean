import Qdma.Kthread
import Qdma.RxSpec

/-!
# The worker and the writeback threads

`qdma_thread.c` makes two kinds of kernel threads of its queues.  A *worker* posts what
is on `work_list` and has work as long as a request is not fully posted and the ring
has room.  A *writeback thread*, in polled mode, services the queues that have
requests on `pend_list`.

Both sleep when they find nothing to do, the worker without a timeout.  Who gives them
work is spread over the driver:

* `qdma_sg_req_submit` queues a request under the queue's lock and wakes the worker
  after it;
* `descq_mm_n_h2c_wb`, which makes room in the ring, wakes the worker under the lock;
* the posting functions move requests to `pend_list` and wake the writeback thread
  under the lock, `qdma_sg_req_submit_st_c2h` does the same after it.

`wrkThread` and `wbThread` collect these places, and their field `tells` is the proof
that none is missing.
-/

namespace Qdma

open Lib

/-! ## What is to do -/

/-- `qdma_thread_wrk_pend`. -/
def qdmaThreadWrkPend (x : Xfer) : ℕ :=
  x.descq.workList.countP fun id =>
    decide ((x.reqs id).cb.offset < (x.reqs id).count) && decide (x.descq.avail ≠ 0)

/-- `qdma_thread_wb_pend`. -/
def qdmaThreadWbPend (x : Xfer) : Bool := !x.descq.pendList.isEmpty

theorem wrkPend_ne_zero_iff (x : Xfer) : qdmaThreadWrkPend x ≠ 0 ↔
    x.descq.avail ≠ 0 ∧ ∃ id ∈ x.descq.workList, (x.reqs id).cb.offset < (x.reqs id).count := by
  unfold qdmaThreadWrkPend
  rw [← Nat.pos_iff_ne_zero, List.countP_pos_iff]
  constructor
  · rintro ⟨id, hid, hwork⟩
    rw [Bool.and_eq_true, decide_eq_true_iff, decide_eq_true_iff] at hwork
    exact ⟨hwork.2, id, hid, hwork.1⟩
  · rintro ⟨hroom, id, hid, hshort⟩
    exact ⟨id, hid, by rw [Bool.and_eq_true]; exact ⟨decide_eq_true hshort, decide_eq_true hroom⟩⟩

theorem wbPend_iff (x : Xfer) : qdmaThreadWbPend x = true ↔ x.descq.pendList ≠ [] := by
  unfold qdmaThreadWbPend
  rw [Bool.not_eq_true', List.isEmpty_eq_false_iff]

/-! ## The wakeups under the queue's lock -/

/-- `descq_mm_n_h2c_wb` gets to `qdma_kthread_wakeup(descq->wrkthp)`. -/
def mmNH2cWbWakes (x : Xfer) : Bool :=
  if x.descq.pidx = x.descq.cidx then false
  else
    match x.descq.desc with
    | none => false
    | some ring =>
        if ring.wbCidx = x.descq.cidx then false
        else
          let d := (descqWbCredit x ring.wbCidx).2.descq
          !d.workList.isEmpty && decide (d.avail ≠ 0)

/-- A posting function gets to `qdma_kthread_wakeup(descq->wbthp)`: it had room, and it
did not fail. -/
def procSgtRequestWakes (x : Xfer) (id : ReqId) : Bool :=
  decide (x.descq.avail ≠ 0) && decide ((qdmaDescqProcSgtRequest x id).1 = 0)

/-- One of the calls of a pass over `work_list` does. -/
def wrkProcLoopWakes : List ReqId → Xfer → Bool
  | [], _ => false
  | id :: rest, x =>
      procSgtRequestWakes x id ||
        (let x := wrkProcOne x id
         if x.descq.avail = 0 then false else wrkProcLoopWakes rest x)

/-! ## What gives a worker no new work -/

/-- Nothing has come onto `work_list`, there is no more room, and what is on the list has
as much left to post. -/
structure NoNewWork (x y : Xfer) : Prop where
  workList : y.descq.workList ⊆ x.descq.workList
  avail : y.descq.avail ≠ 0 → x.descq.avail ≠ 0
  asked : ∀ id ∈ y.descq.workList,
    (y.reqs id).cb.offset = (x.reqs id).cb.offset ∧ (y.reqs id).count = (x.reqs id).count

namespace NoNewWork

variable {x y z : Xfer}

theorem refl (x : Xfer) : NoNewWork x x := ⟨List.Subset.refl _, id, fun _ _ => ⟨rfl, rfl⟩⟩

theorem trans (h₁ : NoNewWork x y) (h₂ : NoNewWork y z) : NoNewWork x z where
  workList := List.Subset.trans h₂.workList h₁.workList
  avail h := h₁.avail (h₂.avail h)
  asked id hid := by
    obtain ⟨hoff, hcount⟩ := h₁.asked id (h₂.workList hid)
    obtain ⟨hoff', hcount'⟩ := h₂.asked id hid
    exact ⟨hoff'.trans hoff, hcount'.trans hcount⟩

theorem pend (h : NoNewWork x y) (hy : qdmaThreadWrkPend y ≠ 0) : qdmaThreadWrkPend x ≠ 0 := by
  rw [wrkPend_ne_zero_iff] at hy ⊢
  obtain ⟨hroom, id, hid, hshort⟩ := hy
  obtain ⟨hoff, hcount⟩ := h.asked id hid
  rw [hoff, hcount] at hshort
  exact ⟨h.avail hroom, id, h.workList hid, hshort⟩

/-- The control block of one request changes elsewhere. -/
theorem setCb (x : Xfer) (id : ReqId) (cb : QdmaSgtReqCb)
    (hoff : cb.offset = (x.reqs id).cb.offset) : NoNewWork x (x.setCb id cb) := by
  refine ⟨List.Subset.refl _, fun h => h, ?_⟩
  intro i _
  by_cases hi : i = id
  · subst hi
    simp only [Xfer.setCb, Function.update_self]
    exact ⟨hoff, trivial⟩
  · simp only [Xfer.setCb, Function.update_of_ne hi]
    exact ⟨trivial, trivial⟩

theorem listDel (x : Xfer) (id : ReqId) : NoNewWork x (x.listDel id) :=
  ⟨fun _ hi => List.mem_of_mem_erase hi, fun h => h, fun _ _ => ⟨rfl, rfl⟩⟩

theorem reqDone (x : Xfer) (id : ReqId) (error : ℤ) : NoNewWork x (qdmaSgtReqDone x id error) := by
  have hdel := listDel x id
  have hset := setCb (x.listDel id) id
    { ((x.listDel id).reqs id).cb with
      status := if (x.reqs id).fpDone && decide ((x.reqs id).cb.offset ≠ (x.reqs id).count)
        then -einval else error
      done := true } rfl
  have h := hdel.trans hset
  exact ⟨h.workList, h.avail, h.asked⟩

theorem reqUpdatePendLoop :
    ∀ (ids : List ReqId) (credit : ℕ) (x : Xfer), NoNewWork x (reqUpdatePendLoop ids credit x).1 := by
  intro ids
  induction ids with
  | nil => intro credit x; exact refl x
  | cons id rest ih =>
      intro credit x
      unfold Qdma.reqUpdatePendLoop
      dsimp only
      have hone : NoNewWork x (if (x.reqs id).cb.descNr ≤ credit then
          (qdmaSgtReqDone x id 0, credit - (x.reqs id).cb.descNr)
          else (x.setCb id { (x.reqs id).cb with descNr := (x.reqs id).cb.descNr - credit }, 0)).1 := by
        split
        · exact reqDone x id 0
        · exact setCb x id _ rfl
      generalize (if (x.reqs id).cb.descNr ≤ credit then
          (qdmaSgtReqDone x id 0, credit - (x.reqs id).cb.descNr)
          else (x.setCb id { (x.reqs id).cb with descNr := (x.reqs id).cb.descNr - credit }, 0)) = r
        at hone ⊢
      split
      · exact hone
      · exact hone.trans (ih _ _)

theorem checkRxLoop :
    ∀ (ids : List ReqId) (dlen : ℕ) (x : Xfer), NoNewWork x (checkRxLoop ids dlen x) := by
  intro ids
  induction ids with
  | nil => intro dlen x; exact refl x
  | cons id rest ih =>
      intro dlen x
      unfold Qdma.checkRxLoop
      dsimp only
      split
      · exact refl x
      · exact (reqDone x id 0).trans (ih _ _)

/-- Between the books and the counters nothing is the worker's. -/
theorem of_same (hwork : y.descq.workList = x.descq.workList) (havail : y.descq.avail = x.descq.avail)
    (hreqs : y.reqs = x.reqs) : NoNewWork x y where
  workList := by
    rw [hwork]
    exact List.Subset.refl _
  avail h := havail ▸ h
  asked id _ := by
    rw [hreqs]
    exact ⟨rfl, rfl⟩

end NoNewWork

/-! ### A pass over received completions -/

theorem takes_setRxq (p : StC2hPass) (rxq : StRxQueue) : Takes p.x (p.setRxq rxq).x := rfl

theorem takes_oops (x : Xfer) : Takes x { x with descq := { x.descq with oops := true } } := rfl

theorem takes_rxData (al : RxAllocs) (p : StC2hPass) (fl : FlDesc) (udd : Bool) :
    Takes p.x (descqStC2hRxData al p fl udd).x := by
  unfold descqStC2hRxData
  dsimp only
  split
  · exact takes_setRxq _ _
  · exact Takes.refl _

theorem takes_setDstAddr (x : Xfer) (fls : ℕ → FlDesc) (slot : ℕ) (addr : BitVec 64) :
    Takes x { x with descq := { x.descq with stRxFl := some fls }.setDstAddr slot addr } := by
  unfold QdmaDescq.setDstAddr
  obtain ⟨desc, oops, heq, -⟩ := writeDesc_cases { x.descq with stRxFl := some fls } slot
    { QdmaDescq.slotAt { x.descq with stRxFl := some fls } slot with dstAddr := addr }
  rw [heq]
  rfl

theorem takes_stC2hPages (al : RxAllocs) :
    ∀ (flNr len : ℕ) (udd : Bool) (p : StC2hPass), Takes p.x (stC2hPages al flNr len udd p).x := by
  intro flNr
  induction flNr with
  | zero => intro len udd p; exact Takes.refl p.x
  | succ flNr ih =>
      intro len udd p
      unfold stC2hPages
      cases hfl : p.x.descq.stRxFl with
      | none => exact takes_oops p.x
      | some fls =>
          dsimp only
          have hrx := takes_rxData al p { fls p.pidx with len := min len pageSize } udd
          generalize descqStC2hRxData al p { fls p.pidx with len := min len pageSize } udd = r
            at hrx ⊢
          generalize (flRefillEntry (al.page r.pages) { fls p.pidx with len := min len pageSize }).2
            = fl
          exact (hrx.trans (takes_setDstAddr r.x (Function.update fls p.pidx fl) p.pidx
            fl.dmaAddr)).trans (ih _ _ _)

theorem takes_stC2hUdd {al : RxAllocs} {ring : WrbRing} {p p' : StC2hPass} {udd : Bool}
    (h : stC2hUdd al ring p = some (p', udd)) : Takes p.x p'.x := by
  unfold stC2hUdd at h
  dsimp only at h
  split at h
  · split at h
    · cases h
    · split at h
      · cases h
      · cases h
        exact takes_setRxq _ _
  · cases h
    exact Takes.refl p.x

theorem takes_wrbNext (x : Xfer) : Takes x { x with descq := wrbNext x.descq } := by
  unfold wrbNext
  split
  · rfl
  · rfl

/-- **A pass takes from the receive side only**, whatever state the queue is in. -/
theorem takes_stC2hEntries (al : RxAllocs) :
    ∀ (budget : ℕ) (p : StC2hPass), Takes p.x (stC2hEntries al budget p).2.x := by
  intro budget
  induction budget with
  | zero => intro p; exact Takes.refl p.x
  | succ budget ih =>
      intro p
      cases hwrb : p.x.descq.descWrb with
      | none =>
          have hstuck : (stC2hEntries al (budget + 1) p).2.x =
              { p.x with descq := { p.x.descq with oops := true } } := by
            rw [stC2hEntries]
            split
            · rfl
            · rename_i hsome
              rw [hwrb] at hsome
              cases hsome
          rw [hstuck]
          exact takes_oops p.x
      | some ring =>
          cases hudd : stC2hUdd al ring p with
          | none =>
              simp only [stC2hEntries, hwrb, hudd]
              exact Takes.refl p.x
          | some r =>
              obtain ⟨p', udd⟩ := r
              have hstep := takes_stC2hUdd hudd
              simp only [stC2hEntries, hwrb, hudd]
              generalize ring.word p'.x.descq.descWrbCur = word
              generalize word / 2 ^ sC2hWbEntryLength % (mC2hWbEntryLength + 1) = len
              generalize (len + pageSize - 1) / pageSize = flNr
              split
              · exact hstep
              · have hpages := hstep.trans (takes_stC2hPages al flNr len udd p')
                generalize stC2hPages al flNr len udd p' = p₂ at hpages ⊢
                exact (hpages.trans (takes_wrbNext p₂.x)).trans (ih _)

theorem NoNewWork.of_takes {x y : Xfer} (h : Takes x y) : NoNewWork x y :=
  of_same (by rw [h]) (by rw [h]) (by rw [h])

theorem NoNewWork.coal (x : Xfer) : NoNewWork x (intrCoalAdvance x) := by
  obtain ⟨coal, mmio, heq⟩ := intrCoalAdvance_eq x
  rw [heq]
  exact of_same rfl rfl rfl

theorem NoNewWork.stC2hWb (al : RxAllocs) (x : Xfer) : NoNewWork x (descqStC2hWb al x).2 := by
  unfold descqStC2hWb
  split
  · exact of_same rfl rfl rfl
  · rename_i ring _
    dsimp only
    have hpass := takes_stC2hEntries al (stC2hBudget { x.descq with pidxWrb := ring.wbPidx })
      { x := { x with descq := { x.descq with pidxWrb := ring.wbPidx } }, pidx := x.descq.pidx,
        kmallocs := 0, pages := 0 }
    generalize stC2hEntries al (stC2hBudget { x.descq with pidxWrb := ring.wbPidx })
      { x := { x with descq := { x.descq with pidxWrb := ring.wbPidx } }, pidx := x.descq.pidx,
        kmallocs := 0, pages := 0 } = r at hpass ⊢
    obtain ⟨rv, p⟩ := r
    have htakes : NoNewWork x p.x := by
      have h := NoNewWork.of_takes hpass
      exact ⟨h.workList, h.avail, h.asked⟩
    cases rv with
    | some rv => exact htakes
    | none =>
        dsimp only
        split
        · exact htakes
        · refine NoNewWork.trans ?_ (NoNewWork.checkRxLoop _ _ _)
          refine NoNewWork.trans ?_ (NoNewWork.coal _)
          exact ⟨htakes.workList, htakes.avail, htakes.asked⟩

/-- **A writeback that makes room wakes the worker**, if there is anything on its
list. -/
theorem mmNH2cWb_tells (x : Xfer) (hpend : qdmaThreadWrkPend (descqMmNH2cWb x) ≠ 0) :
    qdmaThreadWrkPend x ≠ 0 ∨ mmNH2cWbWakes x = true := by
  unfold mmNH2cWbWakes
  unfold descqMmNH2cWb at hpend
  split
  · rename_i hempty
    rw [if_pos hempty] at hpend
    exact Or.inl hpend
  · rename_i hbusy
    rw [if_neg hbusy] at hpend
    cases hring : x.descq.desc with
    | none =>
        rw [hring] at hpend
        exact Or.inl ((NoNewWork.of_same rfl rfl rfl).pend hpend)
    | some ring =>
        rw [hring] at hpend
        dsimp only at hpend ⊢
        by_cases hsame : ring.wbCidx = x.descq.cidx
        · rw [if_pos hsame] at hpend
          exact Or.inl hpend
        · rw [if_neg hsame] at hpend ⊢
          right
          generalize (descqWbCredit x ring.wbCidx) = r at hpend ⊢
          obtain ⟨n, y⟩ := r
          -- after the credits the pass only takes requests off the lists
          have hloop := NoNewWork.reqUpdatePendLoop y.descq.pendList (u32 (n + y.descq.credit)) y
          have hlater : NoNewWork y (intrCoalAdvance
              { reqUpdatePend y n with
                mmio := (reqUpdatePend y n).mmio ++
                  [descqPidxUpdate (reqUpdatePend y n).descq (reqUpdatePend y n).descq.pidx] }) := by
            refine NoNewWork.trans ?_ (NoNewWork.coal _)
            exact ⟨hloop.workList, hloop.avail, hloop.asked⟩
          have hy := hlater.pend hpend
          rw [wrkPend_ne_zero_iff] at hy
          obtain ⟨hroom, id, hid, -⟩ := hy
          rw [Bool.and_eq_true, Bool.not_eq_true', List.isEmpty_eq_false_iff]
          exact ⟨List.ne_nil_of_mem hid, decide_eq_true hroom⟩

/-! ## The worker thread -/

/-- What is left to others: everything but the worker's own pass.  A request that is on a
list is not submitted again. -/
def WrkOthers (s : WaitState) : WaitEv → Prop
  | .wrkProc => False
  | .submit id _ => ¬ s.x.isLinked id
  | _ => True

/-- The submission gets to the `list_add_tail` on `work_list`, and so to the wakeup behind
the unlock. -/
def submitWakes (s : WaitState) : WaitEv → Bool
  | .submit id req =>
      s.x.descq.enabled && !((req.write && s.x.descq.conf.c2h) || (!req.write && !s.x.descq.conf.c2h)) &&
        !s.x.descq.isStC2h && decide (0 ≤ (qdmaSgReqSubmit s.x id req).1)
  | _ => false

/-- The wakeup in the writeback handler. -/
def serviceWakes (s : WaitState) : WaitEv → Bool
  | .serviceWb _ => !s.x.descq.isStC2h && mmNH2cWbWakes s.x
  | _ => false

theorem submit_tells {s : WaitState} {id : ReqId} {req : QdmaSgReq} (hnot : ¬ s.x.isLinked id)
    (hpend : qdmaThreadWrkPend (waitStep s (.submit id req)).x ≠ 0) :
    qdmaThreadWrkPend s.x ≠ 0 ∨ submitWakes s (.submit id req) = true := by
  unfold waitStep at hpend
  dsimp only at hpend
  simp only [submitWakes]
  cases hen : s.x.descq.enabled with
  | false =>
      rw [hen, if_neg Bool.false_ne_true] at hpend
      exact Or.inl hpend
  | true =>
      rw [hen, if_pos rfl] at hpend
      unfold submitPart at hpend
      cases hdir : (req.write && s.x.descq.conf.c2h) || (!req.write && !s.x.descq.conf.c2h) with
      | true =>
          rw [hdir, if_pos rfl] at hpend
          exact Or.inl hpend
      | false =>
          rw [hdir, if_neg Bool.false_ne_true] at hpend
          cases hst : s.x.descq.isStC2h with
          | true =>
              -- a reader has counted the bytes; its request is on no list
              rw [hst, if_pos rfl] at hpend
              have hquiet : NoNewWork s.x (submitStC2hCount s id req).x := by
                refine ⟨List.Subset.refl _, fun h => h, ?_⟩
                intro i hi
                have hne : i ≠ id := fun heq => hnot (Or.inl (heq ▸ hi))
                unfold submitStC2hCount
                dsimp only
                rw [Function.update_of_ne hne]
                exact ⟨rfl, rfl⟩
              exact Or.inl (hquiet.pend hpend)
          | false =>
              rw [hst, if_neg Bool.false_ne_true] at hpend
              dsimp only at hpend
              by_cases hrv : (qdmaSgReqSubmit s.x id req).1 < 0
              · rw [if_pos hrv] at hpend
                exact Or.inl hpend
              · right
                simpa using Int.not_lt.mp hrv

theorem wrk_tells (s : WaitState) (e : WaitEv) (hok : WrkOthers s e)
    (hpend : decide (qdmaThreadWrkPend (waitStep s e).x ≠ 0) = true) :
    decide (qdmaThreadWrkPend s.x ≠ 0) = true ∨ serviceWakes s e = true ∨
      submitWakes s e = true := by
  rw [decide_eq_true_iff] at hpend ⊢
  cases e with
  | submit id req =>
      rcases submit_tells hok hpend with h | h
      · exact Or.inl h
      · exact Or.inr (Or.inr h)
  | enqueue id =>
      refine Or.inl (NoNewWork.pend (x := s.x) ?_ hpend)
      change NoNewWork s.x (submitStC2hEnqueue s id).x
      unfold submitStC2hEnqueue
      split
      · exact NoNewWork.of_same rfl rfl rfl
      · exact NoNewWork.refl s.x
  | wrkProc => exact hok.elim
  | serviceWb al =>
      change qdmaThreadWrkPend (qdmaDescqServiceWb al s.x) ≠ 0 at hpend
      unfold qdmaDescqServiceWb at hpend
      unfold serviceWakes
      cases hst : s.x.descq.isStC2h with
      | true =>
          rw [hst, if_pos rfl] at hpend
          exact Or.inl ((NoNewWork.stC2hWb al s.x).pend hpend)
      | false =>
          rw [hst, if_neg Bool.false_ne_true] at hpend
          rcases mmNH2cWb_tells s.x hpend with h | h
          · exact Or.inl h
          · exact Or.inr (Or.inl h)
  | hwWb cidx => exact Or.inl ((NoNewWork.of_same rfl rfl rfl).pend hpend)
  | hwWrb pidx mem => exact Or.inl ((NoNewWork.of_same rfl rfl rfl).pend hpend)
  | rxRead rxq => exact Or.inl ((NoNewWork.of_same rfl rfl rfl).pend hpend)
  | test id => exact Or.inl hpend
  | remove id => exact Or.inl ((NoNewWork.listDel s.x id).pend hpend)
  | ret id => exact Or.inl ((NoNewWork.of_same rfl rfl rfl).pend hpend)

/-- A `qdma_wrk_th` thread.  Its queues are serviced and given requests by others; their
`wrkthp` is followed without a test. -/
def wrkThread : KthreadOps WaitState WaitEv Unit where
  fpending s := decide (qdmaThreadWrkPend s.x ≠ 0)
  fproc _ s := { s with x := qdmaThreadWrkProc s.x }
  timeout := 0
  act := waitStep
  ok s e := waitGuard s e ∧ WrkOthers s e
  wakesNow := serviceWakes
  wakesLater := submitWakes
  strict := true
  tells s e hok hpend := wrk_tells s e hok.2 hpend

instance decidableWrkOthers (s : WaitState) : ∀ e, Decidable (WrkOthers s e) := by
  rintro ⟨⟩ <;> dsimp only [WrkOthers] <;> infer_instance

instance (s : WaitState) (e : WaitEv) : Decidable (wrkThread.ok s e) :=
  inferInstanceAs (Decidable (waitSys.guard s e ∧ WrkOthers s e))

/-- **The worker sleeps on no work**: for any queues and any interleaving of the thread
with submissions, writebacks, the hardware and the calls that link and unlink queues, it
never sleeps while a queue of its list has a request to post and room to post it and
nobody is on the way to wake it, and no wakeup goes through `NULL`, just if every wakeup
finds `wrkthp` set and no queue is linked to the sleeping thread with work. -/
theorem worker_wakeful_iff (queues : ℕ → WaitState) (es : List (XthreadEv WaitEv Unit))
    (hrun : (xthreadSys wrkThread).Admits (Xthread.start queues) es) :
    (xthreadSys wrkThread).EachStep (fun _ _ s' => s'.Wakeful wrkThread)
        (Xthread.start queues) es ↔
      ((xthreadSys wrkThread).restrict (Reaches wrkThread)).Admits (Xthread.start queues) es :=
  xthread_wakeful_iff rfl queues es hrun

/-- A queue to link. -/
def openState : WaitState := WaitState.init (Xfer.init openQueue (fun _ => onePlaceReq) false [])

/-- A queue is linked to a thread, the thread goes to sleep, -/
def toSleep (O : Type) (o : O) : List (XthreadEv WaitEv O) :=
  [.link 0, .attach 0] ++ List.replicate 5 (.turn o)

/-- and a request wakes it. -/
def wokenRun : List (XthreadEv WaitEv Unit) :=
  toSleep Unit () ++ [.act 0 (.submit 0 onePlaceReq), .wakeup 0] ++ List.replicate 4 (.turn ())

theorem worker_wakeful_woken :
    (xthreadSys wrkThread).EachStep (fun _ _ s' => s'.Wakeful wrkThread)
        (Xthread.start fun _ => openState) wokenRun ∧
      (((xthreadSys wrkThread).exec (Xthread.start fun _ => openState) wokenRun).items
        0).x.descq.pendList = [0] := by
  refine ⟨?_, by decide +kernel⟩
  exact (worker_wakeful_iff (fun _ => openState) wokenRun (by decide +kernel)).mpr (by decide +kernel)

/-- The woken worker takes one turn of its loop. -/
theorem xthread_round_woken :
    let s := (xthreadSys wrkThread).exec (Xthread.start fun _ => openState)
      [.link 0, .attach 0, .act 0 (.submit 0 onePlaceReq), .wakeup 0]
    ∃ n ≤ 6, (xthreadAfter wrkThread (fun _ => ()) n s).pc = .top ∧
      ((xthreadAfter wrkThread (fun _ => ()) n s).items 0).x = qdmaThreadWrkProc (s.items 0).x := by
  intro s
  have hround := @xthread_round _ _ _ wrkThread s (fun _ => ())
    (by decide +kernel) (by decide +kernel) (by decide +kernel)
  have hlist : s.workList = [0] := by decide +kernel
  rw [hlist] at hround
  obtain ⟨n, hn, htop, -, hdone⟩ := hround.2 ⟨0, List.mem_singleton_self 0, by decide +kernel⟩
  obtain ⟨o, ho⟩ := hdone 0 (List.mem_singleton_self 0)
  clear_value s
  exact ⟨n, hn, htop, congrArg WaitState.x ho⟩

/-- A worker without work is told to stop between its test of the flag and its
announcement, and goes to sleep. -/
theorem stop_heard_missed :
    let s := (xthreadSys wrkThread).exec (Xthread.start fun _ => openState) [.turn (), .stop]
    ¬ XthreadExits wrkThread (fun _ => ()) (xthreadStep wrkThread s .stopWake) := by
  intro s
  rw [stop_heard_iff (fun _ => ()) rfl, not_not]
  exact ⟨rfl, rfl, fun i hi => absurd hi List.not_mem_nil⟩

/-! ## The writeback thread -/

theorem pendList_mmPut (id : ReqId) (st : MmLoop) (addr : BitVec 64) (len : ℕ) :
    (mmPut id st addr len).x.descq.pendList = st.x.descq.pendList := by
  obtain ⟨desc, oops, heq, -⟩ := writeDesc_cases st.x.descq st.x.descq.pidx
    (mmDesc st.x.descq.conf.c2h st.epAddr addr len)
  change (st.x.descq.writeDesc st.x.descq.pidx
    (mmDesc st.x.descq.conf.c2h st.epAddr addr len)).pendList = _
  rw [heq]

/-- A request that cannot be posted leaves `pend_list` as it was. -/
theorem pendList_of_fails (x : Xfer) (id : ReqId) (h : (qdmaDescqProcSgtRequest x id).1 ≠ 0) :
    (qdmaDescqProcSgtRequest x id).2.descq.pendList = x.descq.pendList ∧
      (qdmaDescqProcSgtRequest x id).1 < 0 := by
  have herr : (-einval : ℤ) < 0 ∧ (-eio : ℤ) < 0 ∧ (-1 : ℤ) < 0 := by decide
  unfold qdmaDescqProcSgtRequest at h ⊢
  split at h
  · rename_i hst
    rw [if_pos hst]
    unfold descqMmProcRequest at h ⊢
    dsimp only at h ⊢
    split at h
    · exact absurd rfl h
    · rename_i hroom
      rw [if_neg hroom]
      split at h
      · exact ⟨rfl, herr.1⟩
      · rename_i sg off hstart
        have hloop := postSgl_keeps xdmaDescBlenMax (mmPut id)
          (P := fun st : MmLoop => st.x.descq.pendList = x.descq.pendList)
          (fun st addr len hst => (pendList_mmPut id st addr len).trans hst) sg off x.descq.avail
          { x := x, epAddr := (x.reqs id).epAddr, dataCnt := 0, descCnt := 0, descEnd := none } rfl
        split at h
        · exact ⟨hloop, herr.2.1⟩
        · exact absurd rfl h
  · rename_i hst
    rw [if_neg hst]
    split at h
    · rename_i hc2h
      rw [if_pos hc2h]
      unfold descqProcStH2cRequest at h ⊢
      dsimp only at h ⊢
      split at h
      · exact absurd rfl h
      · rename_i hroom
        rw [if_neg hroom]
        split at h
        · exact ⟨rfl, herr.1⟩
        · exact absurd rfl h
    · rename_i hc2h
      rw [if_neg hc2h]
      exact ⟨rfl, herr.2.2⟩

theorem wrkProcOne_tells {x : Xfer} {id : ReqId} (h : (wrkProcOne x id).descq.pendList ≠ []) :
    x.descq.pendList ≠ [] ∨ procSgtRequestWakes x id = true := by
  unfold procSgtRequestWakes
  by_cases hrv : (qdmaDescqProcSgtRequest x id).1 = 0
  · by_cases hroom : x.descq.avail = 0
    · -- nothing was done for want of room
      left
      have hone : wrkProcOne x id = x := by
        have hproc : qdmaDescqProcSgtRequest x id = (0, x) ∨ qdmaDescqProcSgtRequest x id = (-1, x) := by
          unfold qdmaDescqProcSgtRequest descqMmProcRequest descqProcStH2cRequest
          dsimp only
          rw [if_pos hroom, if_pos hroom]
          split
          · exact Or.inl rfl
          · split
            · exact Or.inl rfl
            · exact Or.inr rfl
        rcases hproc with hp | hp
        · unfold wrkProcOne
          rw [hp]
          rfl
        · rw [hp] at hrv
          exact absurd hrv (show ¬ (-1 : ℤ) = 0 by decide)
      rwa [hone] at h
    · right
      rw [decide_eq_true hroom, decide_eq_true hrv]
      rfl
  · left
    obtain ⟨hsame, hneg⟩ := pendList_of_fails x id hrv
    unfold wrkProcOne at h
    dsimp only at h
    rw [if_pos hneg] at h
    intro hnil
    refine h ?_
    change (qdmaDescqProcSgtRequest x id).2.descq.pendList.erase id = []
    rw [hsame, hnil]
    rfl

theorem wrkProcLoop_tells :
    ∀ (ids : List ReqId) {x : Xfer}, (wrkProcLoop ids x).descq.pendList ≠ [] →
      x.descq.pendList ≠ [] ∨ wrkProcLoopWakes ids x = true := by
  intro ids
  induction ids with
  | nil => exact fun h => Or.inl h
  | cons id rest ih =>
      intro x h
      unfold wrkProcLoopWakes
      unfold wrkProcLoop at h
      dsimp only at h ⊢
      have hone : (wrkProcOne x id).descq.pendList ≠ [] →
          x.descq.pendList ≠ [] ∨ (procSgtRequestWakes x id || if (wrkProcOne x id).descq.avail = 0
            then false else wrkProcLoopWakes rest (wrkProcOne x id)) = true := by
        intro hp
        rcases wrkProcOne_tells hp with hold | hwakes
        · exact Or.inl hold
        · exact Or.inr (by rw [hwakes]; rfl)
      split at h
      · exact hone h
      · rename_i hroom
        rcases ih h with hp | hlater
        · exact hone hp
        · refine Or.inr ?_
          rw [if_neg hroom, hlater, Bool.or_true]

/-- A `qdma_wb_th` thread services its queues; the rest is done by others. -/
def WbOthers : WaitEv → Prop
  | .serviceWb _ => False
  | _ => True

/-- The wakeups of the writeback thread by a worker's pass. -/
def passWakes (s : WaitState) : WaitEv → Bool
  | .wrkProc => wrkProcLoopWakes s.x.descq.workList s.x
  | _ => false

/-- A reader's request goes to `pend_list`, and the wakeup follows the unlock. -/
def enqueueWakes (s : WaitState) : WaitEv → Bool
  | .enqueue _ => s.x.descq.online
  | _ => false

theorem wb_tells (s : WaitState) (e : WaitEv) (hok : WbOthers e)
    (hpend : qdmaThreadWbPend (waitStep s e).x = true) :
    qdmaThreadWbPend s.x = true ∨ passWakes s e = true ∨ enqueueWakes s e = true := by
  rw [wbPend_iff] at hpend ⊢
  cases e with
  | submit id req =>
      left
      have hsame : (waitStep s (.submit id req)).x.descq.pendList = s.x.descq.pendList := by
        unfold waitStep submitPart submitStC2hCount qdmaSgReqSubmit
        dsimp only
        split
        · split
          · rfl
          · split
            · rfl
            · split
              · rfl
              · split
                · rfl
                · split
                  · rfl
                  · rfl
        · rfl
      rwa [hsame] at hpend
  | enqueue id =>
      unfold enqueueWakes
      cases hon : s.x.descq.online with
      | true => exact Or.inr (Or.inr rfl)
      | false =>
          left
          change (submitStC2hEnqueue s id).x.descq.pendList ≠ [] at hpend
          unfold submitStC2hEnqueue at hpend
          rw [hon, if_neg Bool.false_ne_true] at hpend
          exact hpend
  | wrkProc =>
      rcases wrkProcLoop_tells s.x.descq.workList hpend with h | h
      · exact Or.inl h
      · exact Or.inr (Or.inl h)
  | serviceWb al => exact hok.elim
  | hwWb cidx => exact Or.inl hpend
  | hwWrb pidx mem => exact Or.inl hpend
  | rxRead rxq => exact Or.inl hpend
  | test id => exact Or.inl hpend
  | remove id =>
      left
      intro hnil
      refine hpend ?_
      change s.x.descq.pendList.erase id = []
      rw [hnil]
      rfl
  | ret id => exact Or.inl hpend

/-- A `qdma_wb_th` thread, for a queue in polled mode.  Its `wbthp` is tested before it is
followed. -/
def wbThread : KthreadOps WaitState WaitEv RxAllocs where
  fpending s := qdmaThreadWbPend s.x
  fproc al s := { s with x := qdmaDescqServiceWb al s.x }
  timeout := 5
  act := waitStep
  ok s e := waitGuard s e ∧ WbOthers e
  wakesNow := passWakes
  wakesLater := enqueueWakes
  strict := false
  tells s e hok hpend := wb_tells s e hok.2 hpend

instance decidableWbOthers : ∀ e, Decidable (WbOthers e) := by
  rintro ⟨⟩ <;> dsimp only [WbOthers] <;> infer_instance

instance (s : WaitState) (e : WaitEv) : Decidable (wbThread.ok s e) :=
  inferInstanceAs (Decidable (waitSys.guard s e ∧ WbOthers e))

/-- **The writeback thread sleeps on no pending request**: in every run whose wakeups find
`wbthp` set and whose queues are linked to a sleeping thread without pending requests. -/
theorem writeback_wakeful (queues : ℕ → WaitState) (es : List (XthreadEv WaitEv RxAllocs))
    (hrun : ((xthreadSys wbThread).restrict (Reaches wbThread)).Admits (Xthread.start queues) es) :
    (xthreadSys wbThread).EachStep (fun _ _ s' => s'.Wakeful wbThread)
      (Xthread.start queues) es :=
  xthread_wakeful queues es hrun

/-- The worker posts a request and wakes the writeback thread, which completes it. -/
def servicedRun : List (XthreadEv WaitEv RxAllocs) :=
  toSleep RxAllocs noAllocs ++
    [.act 0 (.submit 0 onePlaceReq), .act 0 .wrkProc, .act 0 (.hwWb 1)] ++
      List.replicate 4 (.turn noAllocs)

theorem writeback_wakeful_serviced :
    (xthreadSys wbThread).EachStep (fun _ _ s' => s'.Wakeful wbThread)
        (Xthread.start fun _ => openState) servicedRun ∧
      (((xthreadSys wbThread).exec (Xthread.start fun _ => openState) servicedRun).items
        0).x.completed = [⟨0, 0, onePlaceReq.count⟩] :=
  ⟨writeback_wakeful (fun _ => openState) servicedRun (by decide +kernel), by decide +kernel⟩

end Qdma

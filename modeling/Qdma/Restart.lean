import Qdma.LifeSpec
import Qdma.Traffic

/-!
# Starting a queue again

`qdma_queue_start` programs a context with producer index 0 over zeroed rings.  The
software's own counters are set by `qdma_descq_config`, that is when the queue is
added; neither a stop nor a start touches them, and neither empties the request
lists.

A `History` is a device with its traffic.  Its events are the calls of `LifeEv`, the
submissions, the passes of the worker and writeback threads, what the hardware
writes and what a waiting caller does, in any order and on any queues.  Two records
are kept that nothing reads: how many descriptors were posted on a queue since it was
added (`posted`), and whether a service pass since then has seen a completion index
other than 0 (`seen`).

`StartedFresh` is what is wanted of a queue that was just started.  Every history
gives it to a start of a queue that is `Untouched`: nothing posted and no completion
seen since the addition, and nothing left over on the handle from before.
-/

namespace Qdma

open Lib

/-! ## Histories -/

/-- The part of `qdma_sg_req_submit_st_c2h` before the wait; the copy out of the
receive queue is an event of its own. -/
def qdmaSgReqSubmitStC2h (x : Xfer) (id : ReqId) (req : QdmaSgReq) : ℤ × Xfer :=
  let avail := x.descq.rxQueue.dlen
  if req.count ≤ avail then
    (0, { x with
      reqs := Function.update x.reqs id
        { req with cb := { QdmaSgtReqCb.zero with offset := req.count } } })
  else if !x.descq.online then (-einval, x)
  else
    (0,
      { x with
        descq := { x.descq with pendList := x.descq.pendList ++ [id] }
        reqs := Function.update x.reqs id
          { req with cb := { QdmaSgtReqCb.zero with offset := req.count - avail } }
        submitted := x.submitted ++ [id] })

/-- `qdma_sg_req_submit` on any queue. -/
def sgReqSubmit (x : Xfer) (id : ReqId) (req : QdmaSgReq) : ℤ × Xfer :=
  if (req.write && x.descq.conf.c2h) || (!req.write && !x.descq.conf.c2h) then (-einval, x)
  else if x.descq.isStC2h then qdmaSgReqSubmitStC2h x id req
  else qdmaSgReqSubmit x id req

/-- The hardware writes completion entries and its index of them. -/
def hwCompletion (x : Xfer) (pidx : ℕ) (mem : ℕ → BitVec 8) : Xfer :=
  { x with
    descq :=
      { x.descq with
        descWrb := x.descq.descWrb.map fun r => { r with wbPidx := pidx, mem := mem } } }

/-- The completion index a service pass reads; 0 where there is none to read. -/
def QdmaDescq.wrbSeen (d : QdmaDescq) : ℕ :=
  if d.isStC2h then (d.descWrb.map (·.wbPidx)).getD 0 else 0

/-- A device with its requests and the two records. -/
structure History where
  dev : XlnxDmaDev
  reqs : ReqId → QdmaSgReq
  posted : ℕ → ℕ
  seen : ℕ → Bool

/-- Traffic on queue `q`. -/
inductive TrafficEv where
  | submit (id : ReqId) (req : QdmaSgReq)
  | wrkProc
  | serviceWb (al : RxAllocs)
  | hwWb (cidx : ℕ)
  | hwWrb (pidx : ℕ) (mem : ℕ → BitVec 8)
  /-- A reader copies data out and leaves `rxq`. -/
  | rxRead (rxq : StRxQueue)
  | timeout (id : ReqId)

inductive HistEv where
  | life (e : LifeEv)
  | traffic (q : ℕ) (e : TrafficEv)

def trafficStep (x : Xfer) : TrafficEv → Xfer
  | .submit id req => if x.descq.enabled then (sgReqSubmit x id req).2 else x
  | .wrkProc => qdmaThreadWrkProc x
  | .serviceWb al => qdmaDescqServiceWb al x
  | .hwWb cidx => hwWriteback x cidx
  | .hwWrb pidx mem => hwCompletion x pidx mem
  | .rxRead rxq => { x with descq := { x.descq with rxQueue := rxq } }
  | .timeout id => x.listDel id

/-- The event is a service pass that finds an index other than 0. -/
def TrafficEv.sees (d : QdmaDescq) : TrafficEv → Bool
  | .serviceWb _ => d.wrbSeen ≠ 0
  | _ => false

namespace History

/-- Before the first call. -/
def init (dev : XlnxDmaDev) (reqs : ReqId → QdmaSgReq) : History where
  dev := dev
  reqs := reqs
  posted _ := 0
  seen _ := false

/-- Queue `q` as its traffic sees it. -/
def xfer (h : History) (q : ℕ) : Xfer :=
  Xfer.init (h.dev.descq q) h.reqs h.dev.intrCoalEn h.dev.intrCoalList

/-- A step of traffic on queue `q`. -/
def drive (h : History) (q : ℕ) (e : TrafficEv) : History :=
  let x := trafficStep (h.xfer q) e
  { dev :=
      { h.dev with
        descq := Function.update h.dev.descq q x.descq
        intrCoalList := x.intrCoalList
        mmio := h.dev.mmio ++ x.mmio }
    reqs := x.reqs
    posted := Function.update h.posted q (h.posted q + x.posted.length)
    seen := Function.update h.seen q (h.seen q || e.sees (h.dev.descq q)) }

/-- A call; the records of a queue it adds start over. -/
def call (h : History) (e : LifeEv) : History :=
  let added := fun q => !(h.dev.descq q).enabled && ((lifeStep h.dev e).descq q).enabled
  { dev := lifeStep h.dev e
    reqs := h.reqs
    posted := fun q => if added q then 0 else h.posted q
    seen := fun q => if added q then false else h.seen q }

end History

def histStep (h : History) : HistEv → History
  | .life e => h.call e
  | .traffic q e => h.drive q e

/-- Any event, as long as the device has not been cleaned up. -/
def histSys : System History HistEv where
  step := histStep
  guard h _ := h.dev.present = true

instance (h : History) (e : HistEv) : Decidable (histSys.guard h e) :=
  inferInstanceAs (Decidable (_ = _))

/-! ## The property -/

/-- A queue as a newly added one is, when its rings are zeroed and its context has
just been written. -/
structure StartedFresh (d : QdmaDescq) : Prop where
  pidx : d.pidx = 0
  cidx : d.cidx = 0
  pidxWrb : d.pidxWrb = 0
  cidxWrb : d.cidxWrb = 0
  avail : d.avail = d.conf.rngsz - 1
  credit : d.credit = 0
  descWrbCur : d.descWrbCur = (d.descWrb.map (·.va)).getD 0 + d.cidxWrb * d.stC2hWrbEntryLen
  workList : d.workList = []
  pendList : d.pendList = []
  rxQueue : d.rxQueue = StRxQueue.empty

/-- Since the queue was added it has carried no traffic, and nothing is left on its
handle from an earlier one: no request, no received data, and, unless the start sets
it anyway, no pointer into a writeback ring. -/
structure Untouched (h : History) (q : ℕ) : Prop where
  posted : h.posted q = 0
  seen : h.seen q = false
  workList : (h.dev.descq q).workList = []
  pendList : (h.dev.descq q).pendList = []
  rxQueue : (h.dev.descq q).rxQueue = StRxQueue.empty
  descWrbCur : (h.dev.descq q).isStC2h = false → (h.dev.descq q).descWrbCur = 0

/-! ## The counters -/

/-- The counters a transfer moves. -/
def QdmaDescq.counters (d : QdmaDescq) : List ℕ :=
  [d.pidx, d.cidx, d.avail, d.credit, d.pidxWrb, d.cidxWrb]

/-- The counters are where `qdma_descq_config` puts them. -/
def Unmoved (d : QdmaDescq) : Prop :=
  d.conf.rngsz = rngSzDflt ∧ d.counters = [0, 0, rngSzDflt - 1, 0, 0, 0]

theorem unmoved_addedDescq (dev : XlnxDmaDev) (d : QdmaDescq) (qconf : QdmaQueueConf) :
    Unmoved (addedDescq dev d qconf) := ⟨rfl, rfl⟩

theorem Unmoved.pidx_eq_cidx {d : QdmaDescq} (h : Unmoved d) : d.pidx = d.cidx := by
  have hc := h.2
  simp only [QdmaDescq.counters, List.cons.injEq] at hc
  rw [hc.1, hc.2.1]

theorem Unmoved.of_eq {d d' : QdmaDescq} (h : Unmoved d) (hconf : d'.conf = d.conf)
    (hcnt : d'.counters = d.counters) : Unmoved d' :=
  ⟨by rw [hconf]; exact h.1, hcnt.trans h.2⟩

theorem counters_writeDesc (d : QdmaDescq) (slot : ℕ) (v : QdmaDesc) :
    (d.writeDesc slot v).conf = d.conf ∧ (d.writeDesc slot v).counters = d.counters := by
  obtain ⟨desc, oops, heq, -⟩ := writeDesc_cases d slot v
  rw [heq]
  exact ⟨rfl, rfl⟩

theorem Unmoved.writeDesc {d : QdmaDescq} (h : Unmoved d) (slot : ℕ) (v : QdmaDesc) :
    Unmoved (d.writeDesc slot v) :=
  h.of_eq (counters_writeDesc d slot v).1 (counters_writeDesc d slot v).2

theorem Unmoved.postAccount {x : Xfer} (h : Unmoved x.descq) (id : ReqId) (dataCnt : ℕ) :
    Unmoved (postAccount x id 0 dataCnt).descq := by
  obtain ⟨hconf, hcnt⟩ := h
  simp only [QdmaDescq.counters, List.cons.injEq] at hcnt
  obtain ⟨hp, hc, ha, hcr, hpw, hcw, -⟩ := hcnt
  rw [postAccount_eq]
  refine ⟨hconf, ?_⟩
  simp only [QdmaDescq.counters]
  rw [hp, hc, ha, hcr, hpw, hcw]
  rfl

/-! ## A pass that posts nothing -/

/-- What a posting loop keeps: the record of postings grows, and while it has not
grown the counters have not moved and no descriptor was counted. -/
structure NoPost (x : Xfer) (y : Xfer) (descCnt : ℕ) : Prop where
  le : x.posted.length ≤ y.posted.length
  unmoved : y.posted.length = x.posted.length → Unmoved y.descq ∧ descCnt = 0

theorem NoPost.put {x y : Xfer} {n : ℕ} (h : NoPost x y n) (d : QdmaDescq) (p : Posting)
    (mmio : List (ℕ × BitVec 32)) (m : ℕ) :
    NoPost x { y with descq := d, posted := y.posted ++ [p], mmio := mmio } m where
  le := by
    rw [List.length_append]
    exact h.le.trans (Nat.le_add_right _ _)
  unmoved heq := by
    rw [List.length_append, List.length_singleton] at heq
    exact absurd heq (by have := h.le; omega)

theorem unmoved_mmProc {x : Xfer} (h : Unmoved x.descq) (id : ReqId)
    (heq : (descqMmProcRequest x id).2.posted.length = x.posted.length) :
    Unmoved (descqMmProcRequest x id).2.descq := by
  revert heq
  unfold descqMmProcRequest
  dsimp only
  split
  · exact fun _ => h
  · split
    · exact fun _ => h
    · rename_i sg off _
      obtain ⟨st, hst⟩ : ∃ st, st = postSgl xdmaDescBlenMax (mmPut id) sg off x.descq.avail
        { x := x, epAddr := (x.reqs id).epAddr, dataCnt := 0, descCnt := 0, descEnd := none } :=
        ⟨_, rfl⟩
      have hloop : NoPost x st.x st.descCnt := by
        rw [hst]
        refine postSgl_keeps (P := fun st : MmLoop => NoPost x st.x st.descCnt) _ _ ?_ _ _ _ _
          ⟨le_rfl, fun _ => ⟨h, rfl⟩⟩
        intro st addr len hst
        exact hst.put _ _ _ _
      rw [← hst]
      split
      · intro heq
        exact (hloop.unmoved heq).1
      · intro heq
        dsimp only at heq
        rw [postAccount_eq] at heq
        obtain ⟨hun, hzero⟩ := hloop.unmoved heq
        rw [hzero]
        exact Unmoved.postAccount (x := { st.x with descq := _ }) ((hun.writeDesc _ _).writeDesc _ _)
          id st.dataCnt

theorem unmoved_stH2cProc {x : Xfer} (h : Unmoved x.descq) (id : ReqId)
    (heq : (descqProcStH2cRequest x id).2.posted.length = x.posted.length) :
    Unmoved (descqProcStH2cRequest x id).2.descq := by
  revert heq
  unfold descqProcStH2cRequest
  dsimp only
  split
  · exact fun _ => h
  · split
    · exact fun _ => h
    · rename_i sg off _
      obtain ⟨st, hst⟩ : ∃ st, st = postSgl pageSize (stH2cPut id) sg off x.descq.avail
        { x := x, dataCnt := 0, descCnt := 0 } := ⟨_, rfl⟩
      have hloop : NoPost x st.x st.descCnt := by
        rw [hst]
        refine postSgl_keeps (P := fun st : StH2cLoop => NoPost x st.x st.descCnt) _ _ ?_ _ _ _ _
          ⟨le_rfl, fun _ => ⟨h, rfl⟩⟩
        intro st addr len hst
        exact hst.put _ _ _ _
      rw [← hst]
      intro heq
      rw [postAccount_eq] at heq
      obtain ⟨hun, hzero⟩ := hloop.unmoved heq
      rw [hzero]
      exact hun.postAccount id st.dataCnt

theorem unmoved_proc {x : Xfer} (h : Unmoved x.descq) (id : ReqId)
    (heq : (qdmaDescqProcSgtRequest x id).2.posted.length = x.posted.length) :
    Unmoved (qdmaDescqProcSgtRequest x id).2.descq := by
  revert heq
  unfold qdmaDescqProcSgtRequest
  split
  · exact unmoved_mmProc h id
  · split
    · exact unmoved_stH2cProc h id
    · exact fun _ => h

theorem unmoved_wrkProcOne {x : Xfer} (h : Unmoved x.descq) (id : ReqId)
    (heq : (wrkProcOne x id).posted.length = x.posted.length) :
    Unmoved (wrkProcOne x id).descq := by
  revert heq
  unfold wrkProcOne
  dsimp only
  split
  · intro heq
    exact (unmoved_proc h id heq).of_eq rfl rfl
  · exact unmoved_proc h id

/-- The record only grows, so a pass that ends where it began has not moved in
between. -/
theorem unmoved_wrkProcLoop :
    ∀ (ids : List ReqId) {x : Xfer}, Unmoved x.descq →
      (wrkProcLoop ids x).posted.length = x.posted.length →
      Unmoved (wrkProcLoop ids x).descq := by
  intro ids
  induction ids with
  | nil => intro x h _; exact h
  | cons id rest ih =>
      intro x h
      have hone := (drives_wrkProcOne x id).posted
      unfold wrkProcLoop
      dsimp only
      split
      · exact unmoved_wrkProcOne h id
      · intro heq
        have hrest := (drives_wrkProcLoop rest (wrkProcOne x id)).posted
        have hsame : (wrkProcOne x id).posted.length = x.posted.length := by omega
        exact ih (unmoved_wrkProcOne h id hsame) (heq.trans hsame.symm)

/-! ## A service pass that sees nothing -/

theorem unmoved_serviceWb {x : Xfer} (h : Unmoved x.descq) (al : RxAllocs)
    (hseen : x.descq.wrbSeen = 0) : Unmoved (qdmaDescqServiceWb al x).descq := by
  unfold qdmaDescqServiceWb
  cases hst : x.descq.isStC2h with
  | false =>
      rw [if_neg Bool.false_ne_true]
      unfold descqMmNH2cWb
      rw [if_pos h.pidx_eq_cidx]
      exact h
  | true =>
      rw [if_pos rfl]
      unfold descqStC2hWb
      cases hwrb : x.descq.descWrb with
      | none => exact h.of_eq rfl rfl
      | some ring =>
          have hpidx : ring.wbPidx = 0 := by
            unfold QdmaDescq.wrbSeen at hseen
            rw [if_pos hst, hwrb] at hseen
            exact hseen
          obtain ⟨hconf, hcnt⟩ := h
          simp only [QdmaDescq.counters, List.cons.injEq] at hcnt
          obtain ⟨hp, hc, ha, hcr, -, hcw, -⟩ := hcnt
          -- both indexes are 0, so there is no entry to process
          have hbudget : stC2hBudget { x.descq with pidxWrb := ring.wbPidx } = 0 := by
            unfold stC2hBudget
            simp [hpidx, hcw]
          dsimp only
          rw [hbudget]
          refine ⟨hconf, ?_⟩
          simp only [stC2hEntries, QdmaDescq.counters, if_true]
          rw [hp, hc, ha, hcr, hpidx, hcw]

/-! ## The invariant -/

/-- What the records say about a queue: while they are clear its counters are
unmoved, and a queue that is not inited has no writeback ring. -/
structure Recorded (posted : ℕ) (seen : Bool) (d : QdmaDescq) : Prop where
  unmoved : d.enabled = true → posted = 0 → seen = false → Unmoved d
  noRing : d.inited = false → d.descWrb = none

/-- The flags a step of traffic leaves alone. -/
structure SameFlags (d d' : QdmaDescq) : Prop where
  enabled : d'.enabled = d.enabled
  inited : d'.inited = d.inited
  descWrb : d.descWrb = none → d'.descWrb = none

theorem SameFlags.of_sameSetup {d d' : QdmaDescq} (h : SameSetup d d') : SameFlags d d' := by
  rw [h]
  exact ⟨rfl, rfl, id⟩

theorem sgReqSubmit_cases (x : Xfer) (id : ReqId) (req : QdmaSgReq) :
    ∃ work pend reqs submitted, (sgReqSubmit x id req).2 = { x with
      descq := { x.descq with workList := work, pendList := pend }
      reqs := reqs
      submitted := submitted } := by
  have hsame : ∃ work pend reqs submitted, x = { x with
      descq := { x.descq with workList := work, pendList := pend }
      reqs := reqs
      submitted := submitted } := ⟨_, _, _, _, rfl⟩
  unfold sgReqSubmit
  split
  · exact hsame
  · split
    · unfold qdmaSgReqSubmitStC2h
      dsimp only
      split
      · exact ⟨_, _, _, _, rfl⟩
      · split
        · exact hsame
        · exact ⟨_, _, _, _, rfl⟩
    · unfold qdmaSgReqSubmit
      split
      · exact hsame
      · split
        · exact hsame
        · split
          · exact hsame
          · exact ⟨_, _, _, _, rfl⟩

theorem sameFlags_traffic (x : Xfer) (e : TrafficEv) :
    SameFlags x.descq (trafficStep x e).descq := by
  cases e with
  | submit id req =>
      simp only [trafficStep]
      split
      · obtain ⟨work, pend, reqs, submitted, heq⟩ := sgReqSubmit_cases x id req
        rw [heq]
        exact ⟨rfl, rfl, fun h => h⟩
      · exact ⟨rfl, rfl, fun h => h⟩
  | wrkProc => exact SameFlags.of_sameSetup (drives_threadWrkProc x).setup
  | serviceWb al => exact SameFlags.of_sameSetup (drives_serviceWb al x).setup
  | hwWb cidx => exact ⟨rfl, rfl, fun h => h⟩
  | hwWrb pidx mem => exact ⟨rfl, rfl, fun h => by rw [trafficStep, hwCompletion, h]; rfl⟩
  | rxRead rxq => exact ⟨rfl, rfl, fun h => h⟩
  | timeout id => exact ⟨rfl, rfl, fun h => h⟩

/-- Traffic that posts nothing and sees nothing moves nothing. -/
theorem unmoved_traffic {x : Xfer} (h : Unmoved x.descq) (e : TrafficEv)
    (hposted : (trafficStep x e).posted.length = x.posted.length)
    (hsees : e.sees x.descq = false) : Unmoved (trafficStep x e).descq := by
  cases e with
  | submit id req =>
      simp only [trafficStep]
      split
      · obtain ⟨work, pend, reqs, submitted, heq⟩ := sgReqSubmit_cases x id req
        rw [heq]
        exact h.of_eq rfl rfl
      · exact h
  | wrkProc => exact unmoved_wrkProcLoop x.descq.workList h hposted
  | serviceWb al => exact unmoved_serviceWb h al (by simpa [TrafficEv.sees] using hsees)
  | hwWb cidx => exact h.of_eq rfl rfl
  | hwWrb pidx mem => exact h.of_eq rfl rfl
  | rxRead rxq => exact h.of_eq rfl rfl
  | timeout id => exact h.of_eq rfl rfl

theorem Recorded.traffic {posted : ℕ} {seen : Bool} {x : Xfer} (hx : x.posted = [])
    (h : Recorded posted seen x.descq) (e : TrafficEv) :
    Recorded (posted + (trafficStep x e).posted.length) (seen || e.sees x.descq)
      (trafficStep x e).descq := by
  have hflags := sameFlags_traffic x e
  refine ⟨?_, ?_⟩
  · intro hen hposted hseen
    rw [hflags.enabled] at hen
    obtain ⟨hposted, hnew⟩ := Nat.add_eq_zero_iff.mp hposted
    obtain ⟨hseen, hsees⟩ := Bool.or_eq_false_iff.mp hseen
    exact unmoved_traffic (h.unmoved hen hposted hseen) e (by rw [hnew, hx]; rfl) hsees
  · intro hin
    rw [hflags.inited] at hin
    exact hflags.descWrb (h.noRing hin)

/-- What a call other than an addition does to a queue: the counters stay, no queue
is enabled, and a queue without `inited` has been released. -/
structure Handled (d d' : QdmaDescq) : Prop where
  conf : d'.conf = d.conf
  counters : d'.counters = d.counters
  enabled : d'.enabled = true → d.enabled = true
  released : d'.inited = false → d'.descWrb = none ∨ (d'.descWrb = d.descWrb ∧ d.inited = false)

theorem Handled.refl (d : QdmaDescq) : Handled d d := ⟨rfl, rfl, id, fun h => Or.inr ⟨rfl, h⟩⟩

theorem Handled.trans {d d' d'' : QdmaDescq} (h : Handled d d') (h' : Handled d' d'') :
    Handled d d'' where
  conf := h'.conf.trans h.conf
  counters := h'.counters.trans h.counters
  enabled hen := h.enabled (h'.enabled hen)
  released hin := by
    obtain hnone | ⟨hwrb, hin'⟩ := h'.released hin
    · exact Or.inl hnone
    · rw [hwrb]
      exact h.released hin'

theorem handled_stoppedDescq (d : QdmaDescq) : Handled d (stoppedDescq d) :=
  ⟨rfl, rfl, id, fun _ => Or.inl rfl⟩

theorem handled_removedDescq (d : QdmaDescq) : Handled d (removedDescq d) :=
  ⟨rfl, rfl, fun h => absurd h Bool.false_ne_true, fun _ => Or.inl rfl⟩

theorem handled_cleanedDescq (d : QdmaDescq) : Handled d (cleanedDescq d) :=
  ⟨rfl, rfl, id, fun _ => Or.inl rfl⟩

theorem handled_failedDescq (d : QdmaDescq) : Handled d (failedDescq d) :=
  ⟨rfl, rfl, id, fun _ => Or.inl rfl⟩

theorem handled_allocated {d d' : QdmaDescq} (h : Allocated d d') (idx : ℕ) :
    Handled d (initedDescq d' idx) := by
  cases h with
  | plain ring hst hzero => exact ⟨rfl, rfl, id, fun hc => by cases hc⟩
  | stC2h ring fls wrb hst hzero => exact ⟨rfl, rfl, id, fun hc => by cases hc⟩

theorem Handled.update {descq : ℕ → QdmaDescq} {q : ℕ} {d : QdmaDescq}
    (h : Handled (descq q) d) (p : ℕ) : Handled (descq p) (Function.update descq q d p) := by
  by_cases hp : p = q
  · subst hp
    rw [Function.update_self]
    exact h
  · rw [Function.update_of_ne hp]
    exact Handled.refl _

/-- The queue a start leaves behind. -/
theorem start_ok_descq {env : StartEnv} {dev : XlnxDmaDev} {q : ℕ}
    (h : (qdmaQueueStart env dev q).1 = 0) :
    ∃ d idx w b, Allocated (dev.descq q) d ∧ Startable dev q ∧
      (qdmaQueueStart env dev q).2.descq = Function.update dev.descq q
        { initedDescq d idx with online := true, wrkthp := w, wbthp := b } := by
  have hrun := startRun env dev q
  rw [h] at hrun
  generalize (qdmaQueueStart env dev q).2 = dev' at hrun ⊢
  cases hrun with
  | rejected rv hrv => exact absurd rfl hrv.ne
  | allocFails rv hs hrv => exact absurd rfl hrv.ne
  | progFails rv d idx cnt vec hs hd hneg hrv => exact absurd rfl hrv.ne
  | starts d idx cnt vec mmio r hs hd hidx hok hr =>
      obtain ⟨w, b, heq⟩ := threadAddWork_eq (r.setDescq q { r.descq q with online := true }) q
      refine ⟨d, idx, w, b, hd, hs, ?_⟩
      rw [heq, hr]
      simp only [XlnxDmaDev.setDescq, Function.update_self, Function.update_idem]

theorem handled_start (env : StartEnv) (dev : XlnxDmaDev) (q p : ℕ) :
    Handled (dev.descq p) ((qdmaQueueStart env dev q).2.descq p) := by
  have hrun := startRun env dev q
  generalize (qdmaQueueStart env dev q).1 = rv at hrun
  generalize (qdmaQueueStart env dev q).2 = dev' at hrun ⊢
  cases hrun with
  | rejected rv hrv => exact Handled.refl _
  | allocFails rv hs hrv => exact (handled_failedDescq (dev.descq q)).update p
  | progFails rv d idx cnt vec hs hd hneg hrv =>
      exact ((handled_allocated hd idx).trans (handled_failedDescq _)).update p
  | starts d idx cnt vec mmio r hs hd hidx hok hr =>
      obtain ⟨w, b, heq⟩ := threadAddWork_eq (r.setDescq q { r.descq q with online := true }) q
      rw [heq, hr]
      simp only [XlnxDmaDev.setDescq, Function.update_self, Function.update_idem]
      have hd' := handled_allocated hd idx
      refine Handled.update ?_ p
      exact ⟨hd'.conf, hd'.counters, hd'.enabled, hd'.released⟩

theorem handled_stop (f : ℕ → CmdFate) (dev : XlnxDmaDev) (q p : ℕ) :
    Handled (dev.descq p) ((qdmaQueueStop f dev q).2.descq p) := by
  by_cases hq : q < 2 * dev.qmax ∧ (dev.descq q).enabled = true
  · rw [qdmaQueueStop_eq f hq.1 hq.2]
    exact (handled_stoppedDescq (dev.descq q)).update p
  · rw [qdmaQueueStop_rejected f hq]
    exact Handled.refl _

theorem handled_remove (f : ℕ → CmdFate) (dev : XlnxDmaDev) (q p : ℕ) :
    Handled (dev.descq p) ((qdmaQueueRemove f dev q).2.descq p) := by
  by_cases hq : q < 2 * dev.qmax ∧ (dev.descq q).enabled = true
  · obtain ⟨h, c, cnt, heq⟩ := qdmaQueueRemove_eq f hq.1 hq.2
    rw [heq]
    exact (handled_removedDescq (dev.descq q)).update p
  · rw [qdmaQueueRemove_rejected f hq]
    exact Handled.refl _

theorem handled_foldl {f : XlnxDmaDev → ℕ → XlnxDmaDev}
    (hf : ∀ dev q p, Handled (dev.descq p) ((f dev q).descq p)) (p : ℕ) :
    ∀ (qs : List ℕ) (dev : XlnxDmaDev), Handled (dev.descq p) ((qs.foldl f dev).descq p) := by
  intro qs
  induction qs with
  | nil => intro dev; exact Handled.refl _
  | cons q rest ih => intro dev; exact (hf dev q p).trans (ih (f dev q))

theorem handled_cleanup (fStop fClean : ℕ → ℕ → CmdFate) (dev : XlnxDmaDev) (p : ℕ) :
    Handled (dev.descq p) ((qdmaDeviceCleanup fStop fClean dev).descq p) := by
  have hstops : Handled (dev.descq p) ((stopAll fStop dev).descq p) := by
    refine handled_foldl ?_ p _ dev
    intro dev q p
    split
    · exact handled_stop (fStop q) dev q p
    · exact Handled.refl _
  have hcleans : ∀ dev : XlnxDmaDev, Handled (dev.descq p) ((cleanupAll fClean dev).descq p) := by
    intro dev
    refine handled_foldl ?_ p _ dev
    intro dev q p
    obtain ⟨cnt, heq⟩ := qdmaDescqCleanup_eq (fClean q) dev q
    rw [heq]
    exact (handled_cleanedDescq (dev.descq q)).update p
  unfold qdmaDeviceCleanup
  split
  · exact Handled.refl _
  · exact hstops.trans (hcleans _)

theorem Recorded.handled {posted : ℕ} {seen : Bool} {d d' : QdmaDescq}
    (h : Recorded posted seen d) (hd : Handled d d') : Recorded posted seen d' where
  unmoved hen hposted hseen :=
    (h.unmoved (hd.enabled hen) hposted hseen).of_eq hd.conf hd.counters
  noRing hin := by
    obtain hnone | ⟨hwrb, hin'⟩ := hd.released hin
    · exact hnone
    · exact hwrb.trans (h.noRing hin')

/-- The invariant of a history. -/
def History.Inv (h : History) : Prop := ∀ q, Recorded (h.posted q) (h.seen q) (h.dev.descq q)

theorem DeviceInit.inv {dev : XlnxDmaDev} (h : DeviceInit dev) (reqs : ReqId → QdmaSgReq) :
    (History.init dev reqs).Inv := by
  intro q
  refine ⟨?_, ?_⟩
  · intro hen
    have hoff : (dev.descq q).enabled = false := by rw [h.descq q]; rfl
    exact absurd (hoff.symm.trans hen) Bool.false_ne_true
  · intro _
    change (dev.descq q).descWrb = none
    rw [h.descq q]
    rfl

/-- A call that enables nothing keeps the records as they are. -/
theorem inv_call_of_handled {h : History} {e : LifeEv} (hinv : h.Inv)
    (hd : ∀ p, Handled (h.dev.descq p) ((lifeStep h.dev e).descq p)) : (h.call e).Inv := by
  intro p
  have hnot : (!(h.dev.descq p).enabled && ((lifeStep h.dev e).descq p).enabled) = false := by
    cases hen : ((lifeStep h.dev e).descq p).enabled with
    | false => exact Bool.and_false _
    | true => rw [(hd p).enabled hen]; rfl
  simp only [History.call, hnot]
  exact (hinv p).handled (hd p)

theorem inv_add {h : History} (hinv : h.Inv) (qconf : QdmaQueueConf) :
    (h.call (.add qconf)).Inv := by
  intro p
  have hrun := addRun h.dev qconf
  change Recorded
    (if !(h.dev.descq p).enabled && ((qdmaQueueAdd h.dev qconf).2.2.descq p).enabled then 0
      else h.posted p)
    (if !(h.dev.descq p).enabled && ((qdmaQueueAdd h.dev qconf).2.2.descq p).enabled then false
      else h.seen p)
    ((qdmaQueueAdd h.dev qconf).2.2.descq p)
  generalize (qdmaQueueAdd h.dev qconf).2.2 = dev' at hrun ⊢
  cases hrun with
  | fails m c =>
      simp only [Bool.not_and_self]
      exact hinv p
  | adds m c i hi hfree =>
      generalize h.dev.handle qconf.c2h i = q at hfree ⊢
      by_cases hp : p = q
      · subst hp
        simp only [Function.update_self]
        exact ⟨fun _ _ _ => unmoved_addedDescq _ _ _, (hinv p).noRing⟩
      · simp only [Function.update_of_ne hp, Bool.not_and_self]
        exact hinv p

theorem inv_step {h : History} (hinv : h.Inv) (e : HistEv) : (histStep h e).Inv := by
  cases e with
  | traffic q e =>
      intro p
      by_cases hp : p = q
      · subst hp
        simp only [histStep, History.drive, Function.update_self]
        exact Recorded.traffic (x := h.xfer p) rfl (hinv p) e
      · simp only [histStep, History.drive, Function.update_of_ne hp]
        exact hinv p
  | life e =>
      cases e with
      | add qconf => exact inv_add hinv qconf
      | start id env => exact inv_call_of_handled hinv fun p => handled_start env h.dev id p
      | stop id f => exact inv_call_of_handled hinv fun p => handled_stop f h.dev id p
      | remove id f => exact inv_call_of_handled hinv fun p => handled_remove f h.dev id p
      | cleanup fStop fClean =>
          exact inv_call_of_handled hinv fun p => handled_cleanup fStop fClean h.dev p

/-! ## Starts -/

theorem startedFresh_of_allocated {d d' : QdmaDescq} (hd : Allocated d d') (hun : Unmoved d)
    (hnone : d.descWrb = none) (hwork : d.workList = []) (hpend : d.pendList = [])
    (hrx : d.rxQueue = StRxQueue.empty) (hcur : d.isStC2h = false → d.descWrbCur = 0)
    (idx : ℕ) (w b : Option ℕ) :
    StartedFresh { initedDescq d' idx with online := true, wrkthp := w, wbthp := b } := by
  obtain ⟨hconf, hcnt⟩ := hun
  simp only [QdmaDescq.counters, List.cons.injEq] at hcnt
  obtain ⟨hp, hc, ha, hcr, hpw, hcw, -⟩ := hcnt
  have havail : d.avail = d.conf.rngsz - 1 := by rw [ha, hconf]
  cases hd with
  | plain ring hst hzero =>
      refine ⟨hp, hc, hpw, hcw, havail, hcr, ?_, hwork, hpend, hrx⟩
      change d.descWrbCur = (d.descWrb.map (·.va)).getD 0 + d.cidxWrb * d.stC2hWrbEntryLen
      rw [hcur hst, hnone, hcw, Nat.zero_mul]
      rfl
  | stC2h ring fls wrb hst hzero =>
      refine ⟨hp, hc, hpw, hcw, havail, hcr, ?_, hwork, hpend, ?_⟩
      · change wrb.va = wrb.va + d.cidxWrb * d.stC2hWrbEntryLen
        rw [hcw, Nat.zero_mul, Nat.add_zero]
      · change { d.rxQueue with dlen := 0 } = StRxQueue.empty
        rw [hrx]
        rfl

/-- **A start of an untouched queue is a fresh start**, after any history. -/
theorem restart_fresh {dev : XlnxDmaDev} (hinit : DeviceInit dev) (reqs : ReqId → QdmaSgReq)
    (es : List HistEv) (hrun : histSys.Admits (History.init dev reqs) es) (q : ℕ) (env : StartEnv)
    (huntouched : Untouched (histSys.exec (History.init dev reqs) es) q)
    (hok : (qdmaQueueStart env (histSys.exec (History.init dev reqs) es).dev q).1 = 0) :
    StartedFresh
      ((qdmaQueueStart env (histSys.exec (History.init dev reqs) es).dev q).2.descq q) := by
  have hstep : ∀ h e, History.Inv h → histSys.guard h e → History.Inv (histSys.step h e) :=
    fun _ e h _ => inv_step h e
  have hinv := histSys.invariant hstep es (hinit.inv reqs) hrun
  generalize histSys.exec (History.init dev reqs) es = h at huntouched hok hinv ⊢
  obtain ⟨d, idx, w, b, hd, hs, heq⟩ := start_ok_descq hok
  rw [heq, Function.update_self]
  have hun := (hinv q).unmoved hs.enabled huntouched.posted huntouched.seen
  exact startedFresh_of_allocated hd hun ((hinv q).noRing hs.inited) huntouched.workList
    huntouched.pendList huntouched.rxQueue huntouched.descWrbCur idx w b

/-- A queue that was started and stopped without traffic. -/
def idleLife : List HistEv :=
  [.life (.add mmH2cConf), .life (.start 0 plainStart), .traffic 0 .wrkProc,
    .traffic 0 (.serviceWb noAllocs), .life (.stop 0 fun _ => .completes)]

theorem restart_fresh_after_idle_life :
    StartedFresh ((qdmaQueueStart plainStart
      (histSys.exec (History.init polledDev fun _ => onePlaceReq) idleLife).dev 0).2.descq 0) :=
  restart_fresh polledDev_init (fun _ => onePlaceReq) idleLife (by decide +kernel) 0 plainStart
    ⟨by decide +kernel, by decide +kernel, by decide +kernel, by decide +kernel,
      by decide +kernel, fun _ => by decide +kernel⟩ (by decide +kernel)

/-- One request, written by the hardware and completed, between a start and a
stop. -/
def busyLife : List HistEv :=
  [.life (.add mmH2cConf), .life (.start 0 plainStart), .traffic 0 (.submit 0 onePlaceReq),
    .traffic 0 .wrkProc, .traffic 0 (.hwWb 1), .traffic 0 (.serviceWb noAllocs),
    .life (.stop 0 fun _ => .completes)]

/-- The next start succeeds, with both indexes where the first life left them. -/
theorem restart_keeps_indexes :
    DeviceInit polledDev ∧
      histSys.Admits (History.init polledDev fun _ => onePlaceReq) busyLife ∧
      (qdmaQueueStart plainStart
        (histSys.exec (History.init polledDev fun _ => onePlaceReq) busyLife).dev 0).1 = 0 ∧
      ¬ StartedFresh ((qdmaQueueStart plainStart
        (histSys.exec (History.init polledDev fun _ => onePlaceReq) busyLife).dev 0).2.descq 0) := by
  refine ⟨polledDev_init, by decide +kernel, by decide +kernel, ?_⟩
  intro h
  exact absurd h.pidx (by decide +kernel)

end Qdma

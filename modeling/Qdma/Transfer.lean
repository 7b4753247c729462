import Qdma.Lib.Trace
import Qdma.PostRuns
import Qdma.Rx

/-!
# One queue and everyone who drives it

A memory-mapped or streaming H2C queue is driven by its submitters, the worker
thread, the writeback thread (or the interrupt handler) and the hardware.  Each
of them takes the queue's lock for one step, so a run is a sequence of the events
`Ev`, in any order.

* `submit` — a caller queues a request (`qdma_sg_req_submit`, up to the wait);
* `wrkProc` — the worker thread posts what is on `work_list`;
* `serviceWb` — `qdma_descq_service_wb`;
* `hwWb` — the hardware writes back its consumer index;
* `timeout` — a waiting caller gives up (the wait timed out or was interrupted)
  and takes its request off its list;
* `ret` — a blocking submission returns, after a completion or a timeout.

The guard of `xferSys` says what can really happen: a request is submitted once,
only a blocking caller can give up, and the hardware's index lies in the window
of posted descriptors.
-/

namespace Qdma

open Lib

/-! ## The worker thread -/

/-- The body of the loop of `qdma_thread_wrk_proc`: a request that cannot be
posted is completed with the error. -/
def wrkProcOne (x : Xfer) (id : ReqId) : Xfer :=
  let r := qdmaDescqProcSgtRequest x id
  if r.1 < 0 then qdmaSgtReqDone r.2 id r.1 else r.2

/-- The loop of `qdma_thread_wrk_proc` over `work_list`. -/
def wrkProcLoop : List ReqId → Xfer → Xfer
  | [], x => x
  | id :: rest, x =>
      let x := wrkProcOne x id
      if x.descq.avail = 0 then x else wrkProcLoop rest x

/-- `qdma_thread_wrk_proc`. -/
def qdmaThreadWrkProc (x : Xfer) : Xfer := wrkProcLoop x.descq.workList x

/-! ## Submission -/

/-- `qdma_sg_req_submit` up to the point where it waits, on a queue that is not
streaming C2H.  The scatter list is the mapped one; a mapping of no entries is
the failure of `pci_map_sg`. -/
def qdmaSgReqSubmit (x : Xfer) (id : ReqId) (req : QdmaSgReq) : ℤ × Xfer :=
  if (req.write && x.descq.conf.c2h) || (!req.write && !x.descq.conf.c2h) then (-einval, x)
  else if !req.dmaMapped && decide (req.sgt.nents = 0) then (-eio, x)
  else if !x.descq.online then (-einval, x)
  else
    (0,
      { x with
        descq := { x.descq with workList := x.descq.workList ++ [id] }
        reqs := Function.update x.reqs id { req with cb := QdmaSgtReqCb.zero }
        submitted := x.submitted ++ [id] })

/-- The hardware writes its consumer index back. -/
def hwWriteback (x : Xfer) (cidx : ℕ) : Xfer :=
  { x with descq := { x.descq with desc := x.descq.desc.map fun r => { r with wbCidx := cidx } } }

/-! ## Events and runs -/

inductive Ev where
  | submit (id : ReqId) (req : QdmaSgReq)
  | wrkProc
  | serviceWb
  | hwWb (cidx : ℕ)
  | timeout (id : ReqId)
  | ret (id : ReqId)

/-- The request is on one of the queue's lists. -/
def Xfer.isLinked (x : Xfer) (id : ReqId) : Prop :=
  id ∈ x.descq.workList ∨ id ∈ x.descq.pendList

instance (x : Xfer) (id : ReqId) : Decidable (x.isLinked id) :=
  inferInstanceAs (Decidable (_ ∨ _))

/-- No event of these queues allocates. -/
def noAllocs : RxAllocs where
  kmalloc _ := false
  page _ := none

def xferStep (x : Xfer) : Ev → Xfer
  | .submit id req => (qdmaSgReqSubmit x id req).2
  | .wrkProc => qdmaThreadWrkProc x
  | .serviceWb => qdmaDescqServiceWb noAllocs x
  | .hwWb cidx => hwWriteback x cidx
  | .timeout id => x.listDel id
  | .ret id => { x with returned := x.returned ++ [id] }

def xferGuard (x : Xfer) : Ev → Prop
  | .submit id _ => id ∉ x.submitted ∧ ¬ x.isLinked id
  | .wrkProc => True
  | .serviceWb => True
  | .hwWb cidx => cidx < x.descq.conf.rngsz ∧
      Cyclic.gap x.descq.conf.rngsz cidx x.descq.cidx ≤
        Cyclic.gap x.descq.conf.rngsz x.descq.pidx x.descq.cidx
  | .timeout id => (x.reqs id).fpDone = false ∧ (x.reqs id).cb.done = false ∧ x.isLinked id
  | .ret id => (x.reqs id).fpDone = false ∧ id ∈ x.submitted ∧ id ∉ x.returned ∧
      ¬ x.isLinked id

instance decidableXferGuard (x : Xfer) : ∀ e, Decidable (xferGuard x e) := by
  rintro ⟨⟩ <;> dsimp only [xferGuard] <;> infer_instance

/-- A memory-mapped or streaming H2C queue with its environment. -/
def xferSys : System Xfer Ev where
  step := xferStep
  guard := xferGuard

instance (x : Xfer) (e : Ev) : Decidable (xferSys.guard x e) := decidableXferGuard x e

/-- How many descriptors the hardware has consumed, counted from the start. -/
def Xfer.hwConsumed (x : Xfer) : ℕ :=
  x.retired + Cyclic.gap x.descq.conf.rngsz ((x.descq.desc.map (·.wbCidx)).getD x.descq.cidx)
    x.descq.cidx

/-! ## What the pieces of a step leave alone -/

/-- `y` differs from `x` at most in the requests, the lists, the credit and the
record of completions: the ring and its counters are the same. -/
def SameRing (x y : Xfer) : Prop :=
  y = { x with
    descq :=
      { x.descq with
        workList := y.descq.workList
        pendList := y.descq.pendList
        credit := y.descq.credit }
    reqs := y.reqs
    completed := y.completed }

theorem SameRing.refl (x : Xfer) : SameRing x x := rfl

theorem SameRing.trans {x y z : Xfer} (h₁ : SameRing x y) (h₂ : SameRing y z) : SameRing x z := by
  unfold SameRing at *
  rw [h₂, h₁]

theorem sameRing_setCb (x : Xfer) (id : ReqId) (cb : QdmaSgtReqCb) : SameRing x (x.setCb id cb) :=
  rfl

theorem sameRing_listDel (x : Xfer) (id : ReqId) : SameRing x (x.listDel id) := rfl

theorem sameRing_reqDone (x : Xfer) (id : ReqId) (error : ℤ) :
    SameRing x (qdmaSgtReqDone x id error) := rfl

theorem sameRing_reqUpdatePendLoop :
    ∀ (ids : List ReqId) (credit : ℕ) (x : Xfer),
      SameRing x (reqUpdatePendLoop ids credit x).1 := by
  intro ids
  induction ids with
  | nil => intro credit x; exact SameRing.refl x
  | cons id rest ih =>
      intro credit x
      unfold reqUpdatePendLoop
      dsimp only
      by_cases hle : (x.reqs id).cb.descNr ≤ credit
      · rw [if_pos hle]
        split
        · exact sameRing_reqDone x id 0
        · exact (sameRing_reqDone x id 0).trans (ih _ _)
      · rw [if_neg hle]
        split
        · exact sameRing_setCb x id _
        · exact (sameRing_setCb x id _).trans (ih _ _)

theorem sameRing_reqUpdatePend (x : Xfer) (credit : ℕ) : SameRing x (reqUpdatePend x credit) :=
  (sameRing_reqUpdatePendLoop x.descq.pendList (u32 (credit + x.descq.credit)) x).trans rfl

end Qdma

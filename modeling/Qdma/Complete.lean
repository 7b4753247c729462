import Qdma.Post

/-!
# Completing requests

The other half of a queue's life: `qdma_sgt_req_done`, the matching of credits
with pending requests (`req_update_pend`), the credit computation
(`descq_wb_credit`) and the writeback handler of memory-mapped and streaming H2C
queues (`descq_mm_n_h2c_wb`), all of `qdma_descq.c`.

A completion is inferred: the handler learns only how far the hardware's consumer
index has moved, adds that many *credits* to what is left from earlier
(`descq->credit`), and takes the pending requests in list order as long as the
credits cover their `desc_nr`.
-/

namespace Qdma

/-! ## One request -/

/-- `qdma_sgt_req_done`.  A callback is reported an error of its own when the
offset is not the count. -/
def qdmaSgtReqDone (x : Xfer) (id : ReqId) (error : ℤ) : Xfer :=
  let x := x.listDel id
  let req := x.reqs id
  let error := if req.fpDone && decide (req.cb.offset ≠ req.count) then -einval else error
  let x := x.setCb id { req.cb with status := error, done := true }
  { x with completed := x.completed ++ [⟨id, error, req.cb.offset⟩] }

/-! ## Credits -/

/-- The loop of `req_update_pend` over `pend_list`; the credit left over is
returned. -/
def reqUpdatePendLoop : List ReqId → ℕ → Xfer → Xfer × ℕ
  | [], credit, x => (x, credit)
  | id :: rest, credit, x =>
      let cb := (x.reqs id).cb
      let r :=
        if cb.descNr ≤ credit then (qdmaSgtReqDone x id 0, credit - cb.descNr)
        else (x.setCb id { cb with descNr := cb.descNr - credit }, 0)
      if r.2 = 0 then r else reqUpdatePendLoop rest r.2 r.1

/-- `req_update_pend`. -/
def reqUpdatePend (x : Xfer) (credit : ℕ) : Xfer :=
  let r := reqUpdatePendLoop x.descq.pendList (u32 (credit + x.descq.credit)) x
  { r.1 with descq := { r.1.descq with credit := r.2 } }

/-- `descq_wb_credit`: how far the consumer index has moved, and the queue moved
with it. -/
def descqWbCredit (x : Xfer) (cidx : ℕ) : ℕ × Xfer :=
  let q := x.descq
  if cidx = q.cidx then (0, x)
  else
    let n := if cidx < q.cidx then u32 (u32Sub q.conf.rngsz q.cidx + cidx) else cidx - q.cidx
    (n,
      { x with
        descq := { q with cidx := cidx, avail := u32 (q.avail + n) }
        retired := x.retired + n })

/-! ## Aggregated interrupts -/

/-- `intr_cidx_update`: the register and the value.  The direction bit is the
number of the bit, as in the source. -/
def intrCidxUpdate (d : QdmaDescq) (swCidx : ℕ) : ℕ × BitVec 32 :=
  (qdmaRegIntCidxBase + d.conf.qidx * qdmaRegPidxStep,
    BitVec.ofNat 32 swCidx ||| (if d.conf.c2h then 16#32 else 0#32))

/-- What both writeback handlers do to the aggregation ring: always the first
one, `xdev->intr_coal_list[0]`. -/
def intrCoalAdvance (x : Xfer) : Xfer :=
  if x.intrCoalEn then
    match x.intrCoalList with
    | [] => x
    | coal :: rest =>
        let coal :=
          if coal.intrRingSize ≤ coal.cidx then
            { coal with cidx := 0, pidx := 0, color := !coal.color }
          else { coal with cidx := u32 (coal.cidx + 1), pidx := u32 (coal.pidx + 1) }
        { x with
          intrCoalList := coal :: rest
          mmio := x.mmio ++ [intrCidxUpdate x.descq coal.cidx] }
  else x

/-! ## The writeback handler -/

/-- `descq_mm_n_h2c_wb`. -/
def descqMmNH2cWb (x : Xfer) : Xfer :=
  if x.descq.pidx = x.descq.cidx then x
  else
    match x.descq.desc with
    | none => { x with descq := { x.descq with oops := true } }
    | some ring =>
        if ring.wbCidx = x.descq.cidx then x
        else
          let r := descqWbCredit x ring.wbCidx
          let x := reqUpdatePend r.2 r.1
          intrCoalAdvance { x with mmio := x.mmio ++ [descqPidxUpdate x.descq x.descq.pidx] }

end Qdma

import Qdma.Defs
import Qdma.Lib.Cut
import Qdma.Lib.Cyclic

/-!
# Posting descriptors

The two functions that turn a queued request into ring descriptors,
`descq_mm_proc_request` and `descq_proc_st_h2c_request` of `qdma_descq.c`, with
`sgt_find_offset` of `xdev.c`, which finds the place where a partly posted
request is taken up again.

Both functions walk the scatter list and cut every segment into pieces the
engine can carry, one descriptor a piece, until the list or the free ring space
(`desc_max`) ends.  The walk is `postSgl`, over the state of the function's
locals; what one piece does to the ring is the function's own `put`.

`Xfer` is the state of one queue and its requests.  Besides what the driver
stores it carries a record of what happened, which no function reads: the
descriptors written (`posted`), how many of them the driver knows to be consumed
(`retired`), and the requests accepted, completed and returned from.
-/

namespace Qdma

open Lib Lib.Extent

/-- A descriptor write: the request it was made for, the slot, the content. -/
structure Posting where
  owner : ReqId
  slot : ℕ
  desc : QdmaDesc
  deriving DecidableEq

/-- A call of `qdma_sgt_req_done`: the request, the status it leaves in the
control block and the number of bytes it reports. -/
structure Completion where
  id : ReqId
  status : ℤ
  bytesDone : ℕ
  deriving DecidableEq

/-- One queue, the requests it knows by address, and the registers and
aggregation rings its functions write. -/
structure Xfer where
  descq : QdmaDescq
  reqs : ReqId → QdmaSgReq
  intrCoalEn : Bool
  intrCoalList : List IntrCoalConf
  mmio : List (ℕ × BitVec 32)
  posted : List Posting
  retired : ℕ
  submitted : List ReqId
  completed : List Completion
  returned : List ReqId

/-- A queue about to take its first request. -/
def Xfer.init (descq : QdmaDescq) (reqs : ReqId → QdmaSgReq) (intrCoalEn : Bool)
    (intrCoalList : List IntrCoalConf) : Xfer where
  descq := descq
  reqs := reqs
  intrCoalEn := intrCoalEn
  intrCoalList := intrCoalList
  mmio := []
  posted := []
  retired := 0
  submitted := []
  completed := []
  returned := []

/-! ## Doorbells -/

def qdmaRegIntCidxBase : ℕ := 0x6400
def qdmaRegH2cPidxBase : ℕ := 0x6404
def qdmaRegC2hPidxBase : ℕ := 0x6408
def qdmaRegWrbCidxBase : ℕ := 0x640C
def qdmaRegPidxStep : ℕ := 0x10

/-- `descq_pidx_update`: the register and the value written. -/
def descqPidxUpdate (d : QdmaDescq) (pidx : ℕ) : ℕ × BitVec 32 :=
  ((if d.conf.c2h then qdmaRegC2hPidxBase else qdmaRegH2cPidxBase) +
      d.conf.qidx * qdmaRegPidxStep,
    BitVec.ofNat 32 pidx ||| (BitVec.ofNat 32 d.irqEn <<< 16))

/-! ## Finding the segment of an offset -/

/-- The loop of `sgt_find_offset`, at segment `i` with the lengths before it
summed up in `len`.  The result is `rv`, `*sg_p` (with the segments linked after
it) and `*sg_offset`. -/
def sgtFindOffsetLoop (offset : ℕ) :
    List Scatterlist → ℕ → ℕ → Option (ℕ × List Scatterlist × ℕ)
  | [], _, _ => none
  | sg :: rest, len, i =>
      let len := u32 (len + sg.dmaLen)
      if len = offset then some (i + 1, rest, 0)
      else if offset < len then some (i, sg :: rest, len - offset)
      else sgtFindOffsetLoop offset rest len (i + 1)

/-- `sgt_find_offset`; `none` is `-EINVAL`.  The loop bound is an `int`, so from
`2 ^ 31` entries on it is negative and the loop does not run. -/
def sgtFindOffset (sgt : SgTable) (offset : ℕ) : Option (ℕ × List Scatterlist × ℕ) :=
  if sgt.nents < 2 ^ 31 then sgtFindOffsetLoop offset sgt.sgl 0 0 else none

/-- Where a posting function starts: at the head of the scatter list for a new
request, at `sgt_find_offset` for one that is partly posted, and nowhere
(`-EINVAL`) when the offset is out of range. -/
def postStart (req : QdmaSgReq) : Option (List Scatterlist × ℕ) :=
  if req.cb.offset = 0 then some (req.sgt.sgl, 0)
  else
    match sgtFindOffset req.sgt req.cb.offset with
    | none => none
    | some (rv, sg, sgOffset) => if req.sgt.nents ≤ rv then none else some (sg, sgOffset)

/-! ## The walk over the scatter list -/

section Walk

variable {σ : Type} (blen : ℕ) (put : σ → BitVec 64 → ℕ → σ)

/-- `while (tlen)`: cut one segment until it or the budget of free descriptors
ends; the budget left over is returned. -/
def postSeg : ℕ → ℕ → BitVec 64 → σ → σ × ℕ
  | 0, _, _, st => (st, 0)
  | budget + 1, tlen, addr, st =>
      if tlen = 0 then (st, budget + 1)
      else
        let len := min tlen blen
        postSeg budget (tlen - len) (addr + (len : BitVec 64)) (put st addr len)

/-- `for (; i < sg_max && desc_cnt < desc_max; i++, sg = sg_next(sg))`. -/
def postSgl : List Scatterlist → ℕ → ℕ → σ → σ
  | [], _, _, st => st
  | sg :: rest, sgOffset, budget, st =>
      if budget = 0 then st
      else
        -- the source clears `sg_offset` first and then subtracts and adds it
        let sgOffset := if sgOffset ≠ 0 then 0 else sgOffset
        let tlen := sg.dmaLen - sgOffset
        let addr := sg.dmaAddress + (sgOffset : BitVec 64)
        let r := postSeg blen put budget tlen addr st
        postSgl rest sgOffset r.2 r.1

end Walk

/-! ## Request lists -/

def Xfer.setCb (x : Xfer) (id : ReqId) (cb : QdmaSgtReqCb) : Xfer :=
  { x with reqs := Function.update x.reqs id { x.reqs id with cb := cb } }

/-- `list_del(&cb->list)`: the node leaves the list it is on. -/
def Xfer.listDel (x : Xfer) (id : ReqId) : Xfer :=
  { x with
    descq :=
      { x.descq with
        workList := x.descq.workList.erase id
        pendList := x.descq.pendList.erase id } }

/-- `req_submitted`: from `work_list` to the tail of `pend_list`. -/
def reqSubmitted (x : Xfer) (id : ReqId) : Xfer :=
  let x := x.listDel id
  { x with descq := { x.descq with pendList := x.descq.pendList ++ [id] } }

/-! ## Ring writes -/

/-- `++descq->pidx == descq->conf.rngsz` and the reset that follows it. -/
def pidxNext (d : QdmaDescq) : ℕ :=
  if u32 (d.pidx + 1) = d.conf.rngsz then 0 else u32 (d.pidx + 1)

/-- The content of a slot, as far as there is a ring. -/
def QdmaDescq.slotAt (d : QdmaDescq) (slot : ℕ) : QdmaDesc :=
  match d.desc with
  | none => QdmaDesc.zero
  | some r => r.slots slot

/-- A store to a slot of the descriptor ring. -/
def QdmaDescq.writeDesc (d : QdmaDescq) (slot : ℕ) (v : QdmaDesc) : QdmaDescq :=
  match d.desc with
  | none => { d with oops := true }
  | some r => { d with desc := some { r with slots := Function.update r.slots slot v } }

def QdmaDesc.setFlag (d : QdmaDesc) (bit : ℕ) : QdmaDesc :=
  { d with flagLen := d.flagLen ||| (1#32 <<< bit) }

/-! ## Memory-mapped queues -/

/-- `XDMA_DESC_BLEN_MAX`. -/
def xdmaDescBlenMax : ℕ := (1 <<< 28) - 1

/-- The locals of `descq_mm_proc_request` that its loop changes; `desc` points at
slot `pidx` throughout. -/
structure MmLoop where
  x : Xfer
  epAddr : BitVec 64
  dataCnt : ℕ
  descCnt : ℕ
  descEnd : Option ℕ

/-- The descriptor of one piece of a memory-mapped transfer. -/
def mmDesc (c2h : Bool) (epAddr addr : BitVec 64) (len : ℕ) : QdmaDesc where
  srcAddr := if c2h then epAddr else addr
  flagLen := BitVec.ofNat 32 len ||| (1#32 <<< sDescFDv)
  rsvd0 := 0
  dstAddr := if c2h then addr else epAddr
  rsvd1 := 0

/-- The body of the inner loop of `descq_mm_proc_request`. -/
def mmPut (id : ReqId) (st : MmLoop) (addr : BitVec 64) (len : ℕ) : MmLoop :=
  let d := st.x.descq
  let desc := mmDesc d.conf.c2h st.epAddr addr len
  { x :=
      { st.x with
        descq := { d.writeDesc d.pidx desc with pidx := pidxNext d }
        posted := st.x.posted ++ [⟨id, d.pidx, desc⟩] }
    epAddr := st.epAddr + (len : BitVec 64)
    dataCnt := u32 (st.dataCnt + len)
    descCnt := st.descCnt + 1
    descEnd := some d.pidx }

/-- What both posting functions do after their loop: account for the
descriptors and, once the offset has reached the count, move the request to
`pend_list`. -/
def postAccount (x : Xfer) (id : ReqId) (descCnt dataCnt : ℕ) : Xfer :=
  let req := x.reqs id
  let cb :=
    { req.cb with
      descNr := u32 (req.cb.descNr + descCnt)
      offset := u32 (req.cb.offset + dataCnt) }
  let x := { x with descq := { x.descq with avail := u32Sub x.descq.avail descCnt } }
  let x := x.setCb id cb
  if cb.offset = req.count then reqSubmitted x id else x

/-- `descq_mm_proc_request`. -/
def descqMmProcRequest (x : Xfer) (id : ReqId) : ℤ × Xfer :=
  let req := x.reqs id
  let descMax := x.descq.avail
  if descMax = 0 then (0, x)
  else
    match postStart req with
    | none => (-einval, x)
    | some (sg, sgOffset) =>
        let descStart := x.descq.pidx
        let st := postSgl xdmaDescBlenMax (mmPut id) sg sgOffset descMax
          { x := x, epAddr := req.epAddr, dataCnt := 0, descCnt := 0, descEnd := none }
        match st.descEnd with
        | none => (-eio, st.x)
        | some descEnd =>
            let d := st.x.descq
            let d := d.writeDesc descEnd ((d.slotAt descEnd).setFlag sDescFEop)
            let d := d.writeDesc descStart ((d.slotAt descStart).setFlag sDescFSop)
            let x := postAccount { st.x with descq := d } id st.descCnt st.dataCnt
            (0, { x with mmio := x.mmio ++ [descqPidxUpdate x.descq x.descq.pidx] })

/-! ## Streaming H2C queues -/

/-- The locals of `descq_proc_st_h2c_request` that its loop changes. -/
structure StH2cLoop where
  x : Xfer
  dataCnt : ℕ
  descCnt : ℕ

/-- The descriptor of one piece of a streaming transfer: the reserved word keeps
what the slot held. -/
def h2cDesc (old : QdmaDesc) (addr : BitVec 64) (len : ℕ) : QdmaDesc :=
  { old with
    srcAddr := addr
    flagLen := BitVec.ofNat 32 len |||
      ((1#32 <<< sDescFDv) ||| (1#32 <<< sDescFSop) ||| (1#32 <<< sDescFEop)) }

/-- The body of the inner loop of `descq_proc_st_h2c_request`, which rings the
doorbell for every descriptor. -/
def stH2cPut (id : ReqId) (st : StH2cLoop) (addr : BitVec 64) (len : ℕ) : StH2cLoop :=
  let d := st.x.descq
  let desc := h2cDesc (d.slotAt d.pidx) addr len
  let d' := { d.writeDesc d.pidx desc with pidx := pidxNext d }
  { x :=
      { st.x with
        descq := d'
        posted := st.x.posted ++ [⟨id, d.pidx, desc⟩]
        mmio := st.x.mmio ++ [descqPidxUpdate d' d'.pidx] }
    dataCnt := u32 (st.dataCnt + len)
    descCnt := st.descCnt + 1 }

/-- `descq_proc_st_h2c_request`. -/
def descqProcStH2cRequest (x : Xfer) (id : ReqId) : ℤ × Xfer :=
  let req := x.reqs id
  let descMax := x.descq.avail
  if descMax = 0 then (0, x)
  else
    match postStart req with
    | none => (-einval, x)
    | some (sg, sgOffset) =>
        let st := postSgl pageSize (stH2cPut id) sg sgOffset descMax
          { x := x, dataCnt := 0, descCnt := 0 }
        (0, postAccount st.x id st.descCnt st.dataCnt)

/-- `qdma_descq_proc_sgt_request`: streaming C2H requests never get here. -/
def qdmaDescqProcSgtRequest (x : Xfer) (id : ReqId) : ℤ × Xfer :=
  if !x.descq.conf.st then descqMmProcRequest x id
  else if !x.descq.conf.c2h then descqProcStH2cRequest x id
  else (-1, x)

end Qdma

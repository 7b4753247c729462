import Qdma.Complete

/-!
# Receiving on a streaming C2H queue

A streaming C2H queue posts a free list of pages and is told by *completion
entries* how many bytes arrived.  `descq_st_c2h_wb` walks the new entries: each
hands its pages to the receive queue and refills their slots, and with
user-defined data enabled each also queues the bytes carried in the entry itself.

Every allocation can fail, so a pass runs against an `RxAllocs`: what each of its
`kmalloc` calls and each of its page allocations gives, in call order.
-/

namespace Qdma

/-! ## The receive queue -/

/-- `rxq_enqueue_tail`. -/
def rxqEnqueueTail (rxq : StRxQueue) (rx : StRxData) : StRxQueue :=
  { rxq with rx := rxq.rx ++ [rx], dlen := u32 (rxq.dlen + u32Sub rx.len rx.offset) }

/-- `udd_enqueue_tail`. -/
def uddEnqueueTail (rxq : StRxQueue) (udd : StC2hWrbUdd) : StRxQueue :=
  { rxq with udd := rxq.udd ++ [udd], dlen := u32 (rxq.dlen + u32Sub udd.uddLen udd.offset) }

/-- `rxq_dequeue_head`, and the queue without the node. -/
def rxqDequeueHead (rxq : StRxQueue) : Option StRxData × StRxQueue :=
  match rxq.rx with
  | [] => (none, rxq)
  | rx :: rest =>
      (some rx, { rxq with rx := rest, dlen := u32Sub rxq.dlen (u32Sub rx.len rx.offset) })

/-- `rxq_free_resource`: the nodes are freed one by one; the user-defined data is
not. -/
def rxqFreeResource (rxq : StRxQueue) : StRxQueue :=
  { rxq with
    rx := []
    dlen := rxq.rx.foldl (fun dlen rx => u32Sub dlen (u32Sub rx.len rx.offset)) rxq.dlen }

/-! ## Allocations -/

/-- What the allocations of one pass give.  A page that cannot be mapped has no
bus address. -/
structure RxAllocs where
  kmalloc : ℕ → Bool
  page : ℕ → Option (ℕ × Option (BitVec 64))

/-- `fl_refill_entry`. -/
def flRefillEntry (page : Option (ℕ × Option (BitVec 64))) (fl : FlDesc) : ℤ × FlDesc :=
  let fl := if fl.pg.isSome then { fl with pg := none, dmaAddr := 0 } else fl
  match page with
  | some (pg, some mapping) => (0, { fl with pg := some pg, dmaAddr := mapping })
  | some (_, none) => (-enomem, fl)
  | none => (-enomem, fl)

/-! ## One pass over the completion entries -/

def sC2hWbEntryFDescErr : ℕ := 2
def sC2hWbEntryLength : ℕ := 4
def mC2hWbEntryLength : ℕ := 0xFFFF
def lC2hWbEntryDmaInfo : ℕ := 3

/-- The state of a pass: the queue with its requests, the local producer index,
and how many allocations were made. -/
structure StC2hPass where
  x : Xfer
  pidx : ℕ
  kmallocs : ℕ
  pages : ℕ

def StC2hPass.setRxq (p : StC2hPass) (rxq : StRxQueue) : StC2hPass :=
  { p with x := { p.x with descq := { p.x.descq with rxQueue := rxq } } }

/-- `descq_st_c2h_rx_data` for one page. -/
def descqStC2hRxData (al : RxAllocs) (p : StC2hPass) (fl : FlDesc) (udd : Bool) : StC2hPass :=
  let ok := al.kmalloc p.kmallocs
  let p := { p with kmallocs := p.kmallocs + 1 }
  if ok then
    p.setRxq (rxqEnqueueTail p.x.descq.rxQueue
      { pg := fl.pg, offset := 0, len := fl.len, uddRef := udd })
  else p

/-- A store of a refilled page's address to its ring slot. -/
def QdmaDescq.setDstAddr (d : QdmaDescq) (slot : ℕ) (addr : BitVec 64) : QdmaDescq :=
  d.writeDesc slot { d.slotAt slot with dstAddr := addr }

/-- `while (fl_nr)`: hand over the pages of one entry.  `len` is what is left of
the packet. -/
def stC2hPages (al : RxAllocs) : ℕ → ℕ → Bool → StC2hPass → StC2hPass
  | 0, _, _, p => p
  | flNr + 1, len, udd, p =>
      match p.x.descq.stRxFl with
      | none => { p with x := { p.x with descq := { p.x.descq with oops := true } } }
      | some fls =>
          let slot := p.pidx
          let fl := { fls slot with len := min len pageSize }
          let p := descqStC2hRxData al p fl udd
          let fl := (flRefillEntry (al.page p.pages) fl).2
          let d := p.x.descq
          let d := { d with stRxFl := some (Function.update fls slot fl) }
          let d := d.setDstAddr slot fl.dmaAddr
          let next := if d.conf.rngsz ≤ u32 (slot + 1) then 0 else u32 (slot + 1)
          stC2hPages al flNr (len - fl.len) false
            { p with x := { p.x with descq := d }, pidx := next, pages := p.pages + 1 }

/-- `wrb_next`. -/
def wrbNext (d : QdmaDescq) : QdmaDescq :=
  if u32 (d.cidxWrb + 1) = d.rngszWrb then
    { d with cidxWrb := 0, descWrbCur := (d.descWrb.map (·.va)).getD 0 }
  else { d with cidxWrb := u32 (d.cidxWrb + 1), descWrbCur := d.descWrbCur + d.stC2hWrbEntryLen }

/-- Byte `i` of the completion entry at `desc_wrb_cur`. -/
def WrbRing.byte (ring : WrbRing) (cur i : ℕ) : BitVec 8 := ring.mem (cur - ring.va + i)

/-- `wrb[0]`, a little-endian 64-bit word. -/
def WrbRing.word (ring : WrbRing) (cur : ℕ) : ℕ :=
  ((List.range 8).map fun i => (ring.byte cur i).toNat * 2 ^ (8 * i)).sum

/-- The user-defined data of the entry at `desc_wrb_cur`. -/
def WrbRing.udd (ring : WrbRing) (cur entryLen : ℕ) : StC2hWrbUdd :=
  let uddLen := (entryLen + 256 - lC2hWbEntryDmaInfo + 1) % 256
  { data := (ring.byte cur (lC2hWbEntryDmaInfo - 1) &&& 0xF0#8) ::
      (List.range (uddLen - 1)).map fun i => ring.byte cur (lC2hWbEntryDmaInfo + i)
    uddLen := uddLen
    offset := 0 }

/-- The part of the loop body that allocates and queues the user-defined data;
`none` is the early `-ENOMEM`. -/
def stC2hUdd (al : RxAllocs) (ring : WrbRing) (p : StC2hPass) : Option (StC2hPass × Bool) :=
  let d := p.x.descq
  if d.stC2hWrbUddEn then
    if !al.kmalloc p.kmallocs then none
    else if !al.kmalloc (p.kmallocs + 1) then none
    else
      let udd := ring.udd d.descWrbCur d.stC2hWrbEntryLen
      some ({ p with kmallocs := p.kmallocs + 2 }.setRxq (uddEnqueueTail d.rxQueue udd), true)
  else some (p, false)

/-- `while (budget)`: one completion entry an iteration.  The first component is
the value of an early return. -/
def stC2hEntries (al : RxAllocs) : ℕ → StC2hPass → Option ℤ × StC2hPass
  | 0, p => (none, p)
  | budget + 1, p =>
      match p.x.descq.descWrb with
      | none => (none, { p with x := { p.x with descq := { p.x.descq with oops := true } } })
      | some ring =>
          match stC2hUdd al ring p with
          | none => (some (-enomem), p)
          | some (p', udd) =>
              let word := ring.word p'.x.descq.descWrbCur
              let len := (word / 2 ^ sC2hWbEntryLength) % (mC2hWbEntryLength + 1)
              if (word / 2 ^ sC2hWbEntryFDescErr) % 2 = 1 then (some (-eio), p')
              else
                let flNr := (len + pageSize - 1) / pageSize
                let p := stC2hPages al flNr len udd p'
                stC2hEntries al budget
                  { p with x := { p.x with descq := wrbNext p.x.descq } }

/-- The loop of `check_rx_request_completed`. -/
def checkRxLoop : List ReqId → ℕ → Xfer → Xfer
  | [], _, x => x
  | id :: rest, dlen, x =>
      let offset := (x.reqs id).cb.offset
      if dlen < offset then x else checkRxLoop rest (dlen - offset) (qdmaSgtReqDone x id 0)

/-- `check_rx_request_completed`. -/
def checkRxRequestCompleted (x : Xfer) : Xfer :=
  checkRxLoop x.descq.pendList x.descq.rxQueue.dlen x

/-- `descq_wrb_cidx_update`: the register and the value. -/
def descqWrbCidxUpdate (d : QdmaDescq) (cidx : ℕ) : ℕ × BitVec 32 :=
  (qdmaRegWrbCidxBase + d.conf.qidx * qdmaRegPidxStep,
    BitVec.ofNat 32 cidx ||| (BitVec.ofNat 32 d.irqEn <<< 28) |||
      (BitVec.ofNat 32 d.wrbStatDescEn <<< 27) ||| (BitVec.ofNat 32 d.wrbTrigMode <<< 24) |||
      (BitVec.ofNat 32 d.wrbTimerIdx <<< 20))

/-- The number of entries to process.  The wrap case adds the descriptor ring's
size, as the source does. -/
def stC2hBudget (d : QdmaDescq) : ℕ :=
  if d.cidxWrb < d.pidxWrb then d.pidxWrb - d.cidxWrb
  else if d.pidxWrb < d.cidxWrb then u32 (d.pidxWrb + u32Sub d.conf.rngsz d.cidxWrb)
  else 0

/-- `descq_st_c2h_wb`. -/
def descqStC2hWb (al : RxAllocs) (x : Xfer) : ℤ × Xfer :=
  match x.descq.descWrb with
  | none => (0, { x with descq := { x.descq with oops := true } })
  | some ring =>
      let x := { x with descq := { x.descq with pidxWrb := ring.wbPidx } }
      let budget := stC2hBudget x.descq
      match stC2hEntries al budget { x := x, pidx := x.descq.pidx, kmallocs := 0, pages := 0 } with
      | (some rv, p) => (rv, p.x)
      | (none, p) =>
          if budget = 0 then (0, p.x)
          else
            let d := { p.x.descq with pidx := p.pidx }
            let last := if d.pidx = 0 then d.conf.rngsz - 1 else d.pidx - 1
            let x :=
              { p.x with
                descq := d
                mmio := p.x.mmio ++ [descqPidxUpdate d last, descqWrbCidxUpdate d d.cidxWrb] }
            (0, checkRxRequestCompleted (intrCoalAdvance x))

/-- `qdma_descq_service_wb`. -/
def qdmaDescqServiceWb (al : RxAllocs) (x : Xfer) : Xfer :=
  if x.descq.isStC2h then (descqStC2hWb al x).2 else descqMmNH2cWb x

end Qdma

import Qdma.Rx

/-!
# Reading from the receive queue

`qdma_descq_rxq_read` copies what a streaming C2H queue has received to the scatter
list of a reader.  It walks two segmentations at once, the received pages and the
entries of the list, and puts the page it stops in back to the head of the queue.  A
page that starts a packet is preceded by the user-defined data of its completion
entry, which waits on a list of its own.

The function touches the queue through four helpers only, so it is written over an
`RxqOps`: `listOps` is the queue as a pair of lists.  What it reads and writes outside
the queue is explicit: `page` is what `page_address` points at, the result holds the
bytes written to each entry, the pages freed, whether an `rx` node was read through
`NULL`, and whether the function returned with `rxq->lock` held.
-/

namespace Qdma

/-! ## The helpers -/

/-- `rxq_enqueue_head`. -/
def rxqEnqueueHead (rxq : StRxQueue) (rx : StRxData) : StRxQueue :=
  { rxq with rx := rx :: rxq.rx, dlen := u32 (rxq.dlen + u32Sub rx.len rx.offset) }

/-- `udd_dequeue_head`, and the queue without the node. -/
def uddDequeueHead (rxq : StRxQueue) : Option StC2hWrbUdd × StRxQueue :=
  match rxq.udd with
  | [] => (none, rxq)
  | udd :: rest =>
      (some udd,
        { rxq with udd := rest, dlen := u32Sub rxq.dlen (u32Sub udd.uddLen udd.offset) })

/-- `udd_enqueue_head`. -/
def uddEnqueueHead (rxq : StRxQueue) (udd : StC2hWrbUdd) : StRxQueue :=
  { rxq with udd := udd :: rxq.udd, dlen := u32 (rxq.dlen + u32Sub udd.uddLen udd.offset) }

/-- The helpers `qdma_descq_rxq_read` calls, on a queue `σ` with nodes `ν` and `μ`.
`size` is the number of nodes on the list of pages. -/
structure RxqOps (σ ν μ : Type) where
  deqRx : σ → Option ν × σ
  enqRxHead : σ → ν → σ
  deqUdd : σ → Option μ × σ
  enqUddHead : σ → μ → σ
  rx : ν → StRxData
  setRx : ν → StRxData → ν
  udd : μ → StC2hWrbUdd
  setUdd : μ → StC2hWrbUdd → μ
  size : σ → ℕ

/-- The queue as lists. -/
def listOps : RxqOps StRxQueue StRxData StC2hWrbUdd where
  deqRx := rxqDequeueHead
  enqRxHead := rxqEnqueueHead
  deqUdd := uddDequeueHead
  enqUddHead := uddEnqueueHead
  rx := id
  setRx _ rx := rx
  udd := id
  setUdd _ udd := udd
  size q := q.rx.length

/-! ## The walk -/

/-- The locals of `qdma_descq_rxq_read`; `out` is what the current entry has
received. -/
structure RxCursor (σ ν μ : Type) where
  rxq : σ
  rx : Option ν
  udd : Option μ
  out : List (BitVec 8)
  copied : ℕ
  freed : List (Option ℕ)
  oops : Bool

section Read

variable {σ ν μ : Type} (ops : RxqOps σ ν μ) (page : Option ℕ → ℕ → BitVec 8)

/-- The user-defined data at the head of its list, copied in front of `node`.  The
source counts from the node's offset, not from its own. -/
def copyUdd (node : ν) (len : ℕ) (c : RxCursor σ ν μ) : ℕ × RxCursor σ ν μ :=
  match ops.deqUdd c.rxq with
  | (none, rxq) => (len, { c with rxq := rxq, udd := none })
  | (some u, rxq) =>
      let udd := ops.udd u
      let uddCpy := min len (u32Sub udd.uddLen udd.offset)
      let bytes := (List.range uddCpy).map fun i => udd.data.getD ((ops.rx node).offset + i) 0
      let u := ops.setUdd u { udd with offset := (udd.offset + uddCpy) % 2 ^ 8 }
      let c := { c with rxq := rxq, out := c.out ++ bytes, copied := u32 (c.copied + uddCpy) }
      if (ops.udd u).offset = (ops.udd u).uddLen then (len - uddCpy, { c with udd := none })
      else (len - uddCpy, { c with rxq := ops.enqUddHead rxq u, udd := some u })

/-- The payload of `node`; a page that is used up is freed and the next one taken. -/
def copyData (node : ν) (len : ℕ) (c : RxCursor σ ν μ) : ℕ × RxCursor σ ν μ :=
  let rx := ops.rx node
  let copy := min len (u32Sub rx.len rx.offset)
  let bytes := (List.range copy).map fun i => page rx.pg (rx.offset + i)
  let offset := u32 (rx.offset + copy)
  let c := { c with out := c.out ++ bytes, copied := u32 (c.copied + copy) }
  if offset = rx.len then
    let r := ops.deqRx c.rxq
    (len - copy, { c with rxq := r.2, rx := r.1, freed := c.freed ++ [rx.pg] })
  else (len - copy, { c with rx := some (ops.setRx node { rx with offset := offset }) })

/-- `rx->udd_ref != NULL && rx->offset == 0`: a packet starts here. -/
def StRxData.leads (rx : StRxData) : Bool := rx.uddRef && decide (rx.offset = 0)

/-- `while (len && (rx || udd))`.  Every pass shortens `len` or takes a node off the
queue, which is what the fuel counts. -/
def readEntry : ℕ → ℕ → RxCursor σ ν μ → RxCursor σ ν μ
  | 0, _, c => c
  | fuel + 1, len, c =>
      if len = 0 then c
      else
        match c.rx with
        | none => if c.udd.isSome then { c with oops := true } else c
        | some node =>
            let r := if (ops.rx node).leads || c.udd.isSome then copyUdd ops node len c else (len, c)
            let r := copyData ops page node r.1 r.2
            readEntry fuel r.1 r.2

/-- `for_each_sg`; the first component is what each entry has received. -/
def readSgl : List ℕ → RxCursor σ ν μ → List (List (BitVec 8)) × RxCursor σ ν μ
  | [], c => ([], c)
  | len :: rest, c =>
      let c := readEntry ops page (len + ops.size c.rxq + 1) len { c with out := [] }
      if c.oops || (c.rx.isNone && c.udd.isNone) then (c.out :: rest.map fun _ => [], c)
      else
        let r := readSgl rest c
        (c.out :: r.1, r.2)

end Read

/-- What a read leaves: the queue, the bytes written to each entry, the count
returned, the pages freed, whether `NULL` was read through, and whether the lock is
still held. -/
structure RxReadResult (σ : Type) where
  rxq : σ
  out : List (List (BitVec 8))
  copied : ℕ
  freed : List (Option ℕ)
  oops : Bool
  locked : Bool

section Read

variable {σ ν μ : Type} (ops : RxqOps σ ν μ) (page : Option ℕ → ℕ → BitVec 8)

/-- The page the walk stopped in goes back to the head. -/
def putBack (c : RxCursor σ ν μ) : σ :=
  match c.rx with
  | none => c.rxq
  | some node =>
      if (ops.rx node).offset < (ops.rx node).len then ops.enqRxHead c.rxq node else c.rxq

/-- `qdma_descq_rxq_read` over the lengths of the scatter list's entries.  Without a
page and without user-defined data it returns at once, and does not unlock. -/
def qdmaDescqRxqRead (uddEn : Bool) (lens : List ℕ) (rxq : σ) : RxReadResult σ :=
  let r := ops.deqRx rxq
  let u := if r.1.isNone && uddEn then ops.deqUdd r.2 else (none, r.2)
  if r.1.isNone && uddEn && u.1.isNone then
    { rxq := u.2, out := lens.map fun _ => [], copied := 0, freed := [], oops := false,
      locked := true }
  else
    let s := readSgl ops page lens
      { rxq := u.2, rx := r.1, udd := u.1, out := [], copied := 0, freed := [], oops := false }
    if s.2.oops then
      { rxq := s.2.rxq, out := s.1, copied := s.2.copied, freed := s.2.freed, oops := true,
        locked := true }
    else
      { rxq := putBack ops s.2, out := s.1, copied := s.2.copied, freed := s.2.freed,
        oops := false, locked := false }

end Read

end Qdma

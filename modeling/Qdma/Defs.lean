import Mathlib.Data.BitVec
import Mathlib.Data.List.Basic

/-!
# The data model of the queue driver

The records of `libqdma`: scatter lists and requests (`libqdma_export.h`), the
descriptor formats (`qdma_regs.h`), the receive side and the queue itself
(`qdma_descq.h`), and the aggregation rings of `xdev.h`.  Field names are the
source's.

### Conventions

* Addresses are 64-bit words, so their arithmetic wraps as the hardware's does.
  Lengths, indexes and counters are natural numbers; where the C type is
  `unsigned int` the functions reduce modulo `2 ^ 32` at every addition the
  source makes, and the bounds of the inputs are fields of the records.
* A pointer to a coherent buffer is an `Option`: `none` is `NULL`.  Reading or
  writing through `none` is recorded in `QdmaDescq.oops`, which no function of
  the source reads.
* The three descriptor formats share their words: `struct qdma_h2c_desc` is the
  first half of `struct qdma_mm_desc` and `struct qdma_c2h_desc` a single
  address.  One record, `QdmaDesc`, is the content of a ring slot.
-/

namespace Qdma

/-! ## Numbers of the platform -/

/-- `unsigned int` arithmetic. -/
def u32 (n : ℕ) : ℕ := n % 2 ^ 32

@[simp] theorem u32_of_lt {n : ℕ} (h : n < 2 ^ 32) : u32 n = n := Nat.mod_eq_of_lt h

theorem u32_lt (n : ℕ) : u32 n < 2 ^ 32 := Nat.mod_lt _ (by decide)

/-- The difference of two `unsigned int`s. -/
def u32Sub (a b : ℕ) : ℕ := u32 (a + 2 ^ 32 - b)

@[simp] theorem u32Sub_of_le {a b : ℕ} (ha : a < 2 ^ 32) (h : b ≤ a) : u32Sub a b = a - b := by
  unfold u32Sub u32
  rw [show a + 2 ^ 32 - b = (a - b) + 2 ^ 32 by omega, Nat.add_mod_right]
  exact Nat.mod_eq_of_lt (by omega)

def pageShift : ℕ := 12

/-- `PAGE_SIZE`, as on x86-64. -/
def pageSize : ℕ := 1 <<< pageShift

def eio : ℤ := 5
def eagain : ℤ := 11
def enomem : ℤ := 12
def ebusy : ℤ := 16
def einval : ℤ := 22

/-! ## Scatter lists and requests -/

/-- One mapped scatter-list entry: `sg_dma_address` and `sg_dma_len`. -/
structure Scatterlist where
  dmaAddress : BitVec 64
  dmaLen : ℕ
  dmaLen_lt : dmaLen < 2 ^ 32

/-- `struct sg_table`: the mapped entries; `nents` is their number, an
`unsigned int`. -/
structure SgTable where
  sgl : List Scatterlist
  nents_lt : sgl.length < 2 ^ 32

def SgTable.nents (sgt : SgTable) : ℕ := sgt.sgl.length

/-- The number of bytes a scatter list describes. -/
def sglTotal (sgl : List Scatterlist) : ℕ := (sgl.map (·.dmaLen)).sum

/-- `struct qdma_sgt_req_cb`, the driver's private part of a request. -/
structure QdmaSgtReqCb where
  descNr : ℕ
  offset : ℕ
  done : Bool
  status : ℤ
  deriving DecidableEq

/-- `memset(cb, 0, QDMA_REQ_OPAQUE_SIZE)`. -/
def QdmaSgtReqCb.zero : QdmaSgtReqCb where
  descNr := 0
  offset := 0
  done := false
  status := 0

/-- `struct qdma_sg_req`.  `fpDone` says whether a completion callback is set,
that is whether the request is non-blocking. -/
structure QdmaSgReq where
  cb : QdmaSgtReqCb
  write : Bool
  dmaMapped : Bool
  epAddr : BitVec 64
  sgt : SgTable
  count : ℕ
  count_lt : count < 2 ^ 32
  timeoutMs : ℕ
  fpDone : Bool

/-- `count` is "total data size": the segments cover exactly the bytes asked
for. -/
def QdmaSgReq.WellFormed (req : QdmaSgReq) : Prop := sglTotal req.sgt.sgl = req.count

/-- A request is named by its address; the list nodes of `work_list` and
`pend_list` are embedded in it. -/
abbrev ReqId := ℕ

/-! ## Descriptor and writeback rings -/

/-- A ring slot, with the words of `struct qdma_mm_desc`. -/
structure QdmaDesc where
  srcAddr : BitVec 64
  flagLen : BitVec 32
  rsvd0 : BitVec 32
  dstAddr : BitVec 64
  rsvd1 : BitVec 64
  deriving DecidableEq

def QdmaDesc.zero : QdmaDesc where
  srcAddr := 0
  flagLen := 0
  rsvd0 := 0
  dstAddr := 0
  rsvd1 := 0

def sDescFDv : ℕ := 28
def sDescFSop : ℕ := 29
def sDescFEop : ℕ := 30

/-- The length field of `flag_len`, below the flag bits. -/
def QdmaDesc.len (d : QdmaDesc) : ℕ := d.flagLen.toNat % 2 ^ sDescFDv

/-- The coherent buffer behind `desc` and `desc_wb`: the slots and, after them,
the `struct qdma_desc_wb` the hardware writes back. -/
structure DescRing where
  bus : BitVec 64
  len : ℕ
  slots : ℕ → QdmaDesc
  wbPidx : ℕ
  wbCidx : ℕ

/-- The coherent buffer behind `desc_wrb` and `desc_wrb_wb`, at kernel address
`va`: the completion entries byte by byte and the `struct qdma_c2h_wrb_wb`. -/
structure WrbRing where
  va : ℕ
  bus : BitVec 64
  len : ℕ
  mem : ℕ → BitVec 8
  wbPidx : ℕ
  wbCidx : ℕ

/-! ## The receive side of a streaming C2H queue -/

/-- `struct fl_desc`: a receive buffer of the free list. -/
structure FlDesc where
  pg : Option ℕ
  dmaAddr : BitVec 64
  len : ℕ
  deriving DecidableEq

/-- `struct st_c2h_wrb_udd`: user-defined data taken from a completion entry. -/
structure StC2hWrbUdd where
  data : List (BitVec 8)
  uddLen : ℕ
  offset : ℕ
  deriving DecidableEq

/-- `struct st_rx_data`: a received page waiting for a reader. -/
structure StRxData where
  pg : Option ℕ
  offset : ℕ
  len : ℕ
  uddRef : Bool
  deriving DecidableEq

/-- `struct st_rx_queue`.  The two singly linked lists with their head and tail
pointers are lists here. -/
structure StRxQueue where
  dlen : ℕ
  udd : List StC2hWrbUdd
  rx : List StRxData
  deriving DecidableEq

def StRxQueue.empty : StRxQueue where
  dlen := 0
  udd := []
  rx := []

/-! ## Queues -/

/-! `enum ctxt_desc_sz_sel`.  A selector is kept as the number stored in it: the
source casts an unchecked configuration byte to the enumeration. -/

def descSz8B : ℕ := 0
def descSz16B : ℕ := 1
def descSz32B : ℕ := 2
def descSzRsv : ℕ := 3

/-- `struct qdma_queue_conf`, less the device name made from the other
fields. -/
structure QdmaQueueConf where
  qidx : ℕ
  st : Bool
  c2h : Bool
  stC2hWrbDescSize : ℕ
  rngsz : ℕ
  deriving DecidableEq

/-- `struct qdma_descq`. -/
structure QdmaDescq where
  conf : QdmaQueueConf
  channel : ℕ
  enabled : Bool
  inited : Bool
  online : Bool
  irqEn : ℕ
  prefetchEn : ℕ
  wrbStatDescEn : ℕ
  wrbTrigMode : ℕ
  wrbTimerIdx : ℕ
  qidxHw : ℕ
  intrId : ℕ
  wrkthp : Option ℕ
  wbthp : Option ℕ
  workList : List ReqId
  pendList : List ReqId
  avail : ℕ
  pidx : ℕ
  cidx : ℕ
  credit : ℕ
  desc : Option DescRing
  rxQueue : StRxQueue
  rngszWrb : ℕ
  pidxWrb : ℕ
  cidxWrb : ℕ
  stC2hWrbDescSize : ℕ
  stC2hWrbUddEn : Bool
  stC2hWrbEntryLen : ℕ
  stRxFl : Option (ℕ → FlDesc)
  descWrbCur : ℕ
  descWrb : Option WrbRing
  /-- A ring was read or written through a `NULL` pointer. -/
  oops : Bool

/-- `conf.st && conf.c2h`, the test that selects the streaming C2H paths. -/
def QdmaDescq.isStC2h (d : QdmaDescq) : Bool := d.conf.st && d.conf.c2h

def rngSzDflt : ℕ := 256
def wrbRngSzDflt : ℕ := 256

/-- `TRIG_MODE_ANY`. -/
def trigModeAny : ℕ := 1

/-- `qdma_descq_init`: everything zero except the hardware queue id and the
software index. -/
def qdmaDescqInit (qbase idxHw idxSw : ℕ) : QdmaDescq where
  conf := { qidx := idxSw, st := false, c2h := false, stC2hWrbDescSize := 0, rngsz := 0 }
  channel := 0
  enabled := false
  inited := false
  online := false
  irqEn := 0
  prefetchEn := 0
  wrbStatDescEn := 0
  wrbTrigMode := 0
  wrbTimerIdx := 0
  qidxHw := qbase + idxHw
  intrId := 0
  wrkthp := none
  wbthp := none
  workList := []
  pendList := []
  avail := 0
  pidx := 0
  cidx := 0
  credit := 0
  desc := none
  rxQueue := StRxQueue.empty
  rngszWrb := 0
  pidxWrb := 0
  cidxWrb := 0
  stC2hWrbDescSize := 0
  stC2hWrbUddEn := false
  stC2hWrbEntryLen := 0
  stRxFl := none
  descWrbCur := 0
  descWrb := none
  oops := false

/-- The `switch` of `qdma_descq_config`: `default` and `DESC_SZ_RSV` fall through
to the 8-byte case. -/
def stC2hWrbEntryLenOf (size : ℕ) : ℕ :=
  if size = descSz16B then 16 else if size = descSz32B then 32 else 8

/-- The selectors for which the `switch` leaves the user-defined data enabled. -/
def descSzKnown (size : ℕ) : Bool := size = descSz8B || size = descSz16B || size = descSz32B

/-- `qdma_descq_config`, with the device's `num_vecs` and `pftch_en`. -/
def qdmaDescqConfig (numVecs pftchEn : ℕ) (d : QdmaDescq) (qconf : QdmaQueueConf)
    (reconfig : Bool) : QdmaDescq :=
  let size := if qconf.c2h && qconf.st then qconf.stC2hWrbDescSize else descSzRsv
  { d with
    conf :=
      { d.conf with
        rngsz := rngSzDflt
        st := if reconfig then d.conf.st else qconf.st
        c2h := if reconfig then d.conf.c2h else qconf.c2h }
    rngszWrb := wrbRngSzDflt
    avail := rngSzDflt - 1
    pidx := 0
    cidx := 0
    cidxWrb := 0
    pidxWrb := 0
    credit := 0
    irqEn := if numVecs = 0 then 0 else 1
    wrbStatDescEn := 1
    wrbTrigMode := trigModeAny
    wrbTimerIdx := 0
    prefetchEn := pftchEn
    stC2hWrbDescSize := size
    stC2hWrbUddEn := qconf.c2h && qconf.st && descSzKnown size
    stC2hWrbEntryLen := stC2hWrbEntryLenOf size }

/-! ## Aggregated interrupts -/

/-- `struct intr_coal_conf`, less the ring memory. -/
structure IntrCoalConf where
  vecId : ℕ
  intrRingSize : ℕ
  color : Bool
  pidx : ℕ
  cidx : ℕ
  deriving DecidableEq

end Qdma

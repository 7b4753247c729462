import Qdma.Context
import Qdma.Transfer

/-!
# The life of a queue

`qdma_queue_add`, `qdma_queue_start`, `qdma_queue_stop` and `qdma_queue_remove` of
`libqdma_export.c`, `qdma_device_cleanup`, and what they are made of: allocating
and releasing the rings, programming the contexts, and hanging the queue on the
driver's threads and on a vector's interrupt list (`qdma_thread.c`).

The state is one device with its queues, the driver's threads, and the hardware
state the calls write.  A queue is named by its handle: `0 … qmax - 1` are the H2C
queues and `qmax … 2 * qmax - 1` the C2H queues.

* The device is one whose first `qdma_device_prep_q_resource` has been made, so
  the call at the head of `qdma_queue_add` returns 0 at once.
* The list nodes of a queue (`wrkthp_list`, `wbthp_list`, `intr_list`) are its
  occurrences on the lists.  Linking a node that is linked and unlinking one that
  is not are recorded in `listFault`, which nothing reads.
* What the allocator gives and what becomes of the context commands are arguments
  of the calls.
-/

namespace Qdma

open Lib

/-! ## The device -/

/-- `struct qdma_kthread`: the queues it serves, by handle. -/
structure QdmaKthread where
  workCnt : ℕ
  workList : List ℕ
  deriving DecidableEq

def xdevNumIrqMax : ℕ := 8

/-- `struct xlnx_dma_dev` with its `struct qdma_dev` (`present` says that
`dev_priv` is set), the driver's threads, and the hardware state: contexts,
vector maps and the register writes made. -/
structure XlnxDmaDev where
  numVecs : ℕ
  numVecs_le : numVecs ≤ 8
  pftchEn : ℕ
  funcId : ℕ
  intrCoalEn : Bool
  intrCoalList : List IntrCoalConf
  intrList : ℕ → List ℕ
  intrListCnt : ℕ → ℕ
  present : Bool
  qmax : ℕ
  qmax_lt : qmax < 2 ^ 16
  h2cQcnt : ℕ
  c2hQcnt : ℕ
  descq : ℕ → QdmaDescq
  threadCnt : ℕ
  threadCnt_pos : 0 < threadCnt
  wrkThreads : ℕ → QdmaKthread
  wbThreads : ℕ → QdmaKthread
  ctxt : CtxtStore
  qid2vec : ℕ → BitVec 32
  mmio : List (ℕ × BitVec 32)
  /-- A list operation met a node in the wrong state. -/
  listFault : Bool

namespace XlnxDmaDev

def setDescq (dev : XlnxDmaDev) (q : ℕ) (d : QdmaDescq) : XlnxDmaDev :=
  { dev with descq := Function.update dev.descq q d }

/-- `qdma_device_get_descq_by_id`. -/
def getDescqById (dev : XlnxDmaDev) (idx : ℕ) (init : Bool) : Option ℕ :=
  if dev.qmax ≤ idx ∧ dev.qmax ≤ idx - dev.qmax then none
  else if init && !(dev.descq idx).enabled then none
  else some idx

end XlnxDmaDev

/-! ## Rings -/

/-- What the allocations of a start give: a bus address for the descriptor ring,
memory for the free list and pages for its entries, and the two addresses of the
writeback ring. -/
structure RingAllocs where
  desc : Option (BitVec 64)
  fl : Bool
  page : ℕ → Option (ℕ × Option (BitVec 64))
  wrb : Option (ℕ × BitVec 64)

def FlDesc.zero : FlDesc where
  pg := none
  dmaAddr := 0
  len := 0

/-- The loop of `fl_fill`, from entry `i` with `n` entries to go. -/
def flFillLoop (page : ℕ → Option (ℕ × Option (BitVec 64))) :
    ℕ → ℕ → (ℕ → FlDesc) → Option (ℕ → FlDesc)
  | 0, _, fls => some fls
  | n + 1, i, fls =>
      let r := flRefillEntry (page i) (fls i)
      if r.1 < 0 then none else flFillLoop page n (i + 1) (Function.update fls i r.2)

/-- `fl_fill`; `none` is `-ENOMEM`, with everything taken released again. -/
def flFill (al : RingAllocs) (rngsz : ℕ) : Option (ℕ → FlDesc) :=
  if al.fl then flFillLoop al.page rngsz 0 fun _ => FlDesc.zero else none

/-- `desc_ring_alloc` for the descriptor ring: zeroed memory. -/
def descRingAlloc (bus : Option (BitVec 64)) (ringSz : ℕ) : Option DescRing :=
  bus.map fun bus =>
    { bus := bus, len := ringSz, slots := fun _ => QdmaDesc.zero, wbPidx := 0, wbCidx := 0 }

/-- `desc_ring_alloc` for the writeback ring. -/
def wrbRingAlloc (addr : Option (ℕ × BitVec 64)) (ringSz : ℕ) : Option WrbRing :=
  addr.map fun a =>
    { va := a.1, bus := a.2, len := ringSz, mem := fun _ => 0, wbPidx := 0, wbCidx := 0 }

/-- `qdma_descq_free_resource`.  Received pages are released only when the byte
count says there are some. -/
def qdmaDescqFreeResource (d : QdmaDescq) : QdmaDescq :=
  { d with
    desc := none
    stRxFl := none
    descWrb := none
    rxQueue := if d.rxQueue.dlen = 0 then d.rxQueue else rxqFreeResource d.rxQueue }

/-- The free list's pages written to the ring's slots. -/
def DescRing.fillDst (ring : DescRing) (rngsz : ℕ) (fls : ℕ → FlDesc) : DescRing :=
  { ring with
    slots := fun i =>
      if i < rngsz then { ring.slots i with dstAddr := (fls i).dmaAddr } else ring.slots i }

/-- `qdma_descq_alloc_resource` up to the choice of the interrupt vector. -/
def descqAllocRings (al : RingAllocs) (d : QdmaDescq) : ℤ × QdmaDescq :=
  match descRingAlloc al.desc d.conf.rngsz with
  | none => (-enomem, qdmaDescqFreeResource { d with desc := none })
  | some ring =>
      if d.isStC2h then
        match flFill al d.conf.rngsz with
        | none => (-enomem, qdmaDescqFreeResource { d with desc := some ring, stRxFl := none })
        | some fls =>
            let d :=
              { d with desc := some (ring.fillDst d.conf.rngsz fls), stRxFl := some fls }
            match wrbRingAlloc al.wrb d.rngszWrb with
            | none => (-enomem, qdmaDescqFreeResource { d with descWrb := none })
            | some wrb =>
                (0,
                  { d with
                    descWrb := some wrb
                    descWrbCur := wrb.va
                    rxQueue := { d.rxQueue with dlen := 0 } })
      else (0, { d with desc := some ring })

/-! ## Interrupt vectors -/

/-- The loop of `desc_alloc_irq`, at vector `i` with `n` vectors to go. -/
def descAllocIrqLoop (cnt : ℕ → ℕ) : ℕ → ℕ → ℕ → ℕ → ℕ
  | 0, _, idx, _ => idx
  | n + 1, i, idx, min =>
      let r := if cnt i < min then (cnt i, i) else (min, idx)
      if r.1 = 0 then r.2 else descAllocIrqLoop cnt n (i + 1) r.2 r.1

/-- `desc_alloc_irq`. -/
def descAllocIrq (dev : XlnxDmaDev) (q : ℕ) : XlnxDmaDev :=
  if dev.numVecs = 0 then dev
  else
    let idx := descAllocIrqLoop dev.intrListCnt dev.numVecs 0 0 (dev.intrListCnt 0)
    { dev with
      intrListCnt := Function.update dev.intrListCnt idx (dev.intrListCnt idx + 1)
      descq := Function.update dev.descq q { dev.descq q with intrId := idx } }

/-- `desc_free_irq`. -/
def descFreeIrq (dev : XlnxDmaDev) (q : ℕ) : XlnxDmaDev :=
  if dev.numVecs = 0 then dev
  else
    let v := (dev.descq q).intrId
    { dev with intrListCnt := Function.update dev.intrListCnt v (dev.intrListCnt v - 1) }

/-- `qdma_descq_alloc_resource`. -/
def qdmaDescqAllocResource (al : RingAllocs) (dev : XlnxDmaDev) (q : ℕ) : ℤ × XlnxDmaDev :=
  let r := descqAllocRings al (dev.descq q)
  let dev := dev.setDescq q r.2
  if r.1 < 0 then (r.1, dev) else (0, descAllocIrq dev q)

/-! ## Contexts -/

/-- `qdma_descq_context_clear` on a queue of the device; no caller looks at its
result. -/
def descqContextClear (f : ℕ → CmdFate) (dev : XlnxDmaDev) (q : ℕ) : XlnxDmaDev :=
  let d := dev.descq q
  { dev with ctxt := (qdmaDescqContextClear f dev.ctxt d.qidxHw d.conf.st d.conf.c2h).2 }

/-- `qdma_descq_prog_hw`. -/
def qdmaDescqProgHw (f : SetupFates) (dev : XlnxDmaDev) (q : ℕ) : ℤ × XlnxDmaDev :=
  let d := dev.descq q
  let vec := hwProgQid2vec (dev.qid2vec d.qidxHw) d.conf.c2h d.intrId dev.intrCoalEn
  let r := qdmaDescqContextSetup f dev.ctxt dev.funcId d
  let dev :=
    { dev with
      qid2vec := if d.irqEn = 0 then dev.qid2vec else Function.update dev.qid2vec d.qidxHw vec
      ctxt := r.2 }
  if r.1 < 0 then (r.1, dev)
  else
    let bells :=
      if d.isStC2h then [descqWrbCidxUpdate d 0, descqPidxUpdate d (d.conf.rngsz - 1)] else []
    (r.1, { dev with mmio := dev.mmio ++ bells ++ [intrCidxUpdate d 0] })

/-! ## Threads -/

namespace XlnxDmaDev

/-- The queue's `wrkthp_list` node is on some worker thread's list. -/
def wrkLinked (dev : XlnxDmaDev) (q : ℕ) : Bool :=
  (List.range dev.threadCnt).any fun t => (dev.wrkThreads t).workList.contains q

/-- Its `wbthp_list` node is on some writeback thread's list. -/
def wbLinked (dev : XlnxDmaDev) (q : ℕ) : Bool :=
  (List.range dev.threadCnt).any fun t => (dev.wbThreads t).workList.contains q

/-- Its `intr_list` node is on some vector's list. -/
def intrLinked (dev : XlnxDmaDev) (q : ℕ) : Bool :=
  (List.range dev.numVecs).any fun v => (dev.intrList v).contains q

end XlnxDmaDev

/-- `list_add_tail` and `work_cnt++` on a thread. -/
def QdmaKthread.addTail (thp : QdmaKthread) (q : ℕ) : QdmaKthread where
  workCnt := u32 (thp.workCnt + 1)
  workList := thp.workList ++ [q]

/-- `list_del` takes a node off the list it is on. -/
def QdmaKthread.unlink (thp : QdmaKthread) (q : ℕ) : QdmaKthread :=
  { thp with workList := thp.workList.erase q }

/-- `work_cnt--`. -/
def QdmaKthread.decWork (thp : QdmaKthread) : QdmaKthread :=
  { thp with workCnt := u32Sub thp.workCnt 1 }

/-- The loop of `qdma_thread_add_work`, at thread `i` with `n` threads to go;
`v` is set at the first thread only. -/
def pickWorkerLoop (threadCnt : ℕ) (cnt : ℕ → ℕ) : ℕ → ℕ → ℕ → ℕ → ℕ
  | 0, _, idx, _ => idx
  | n + 1, i, idx, v =>
      if idx = threadCnt then pickWorkerLoop threadCnt cnt n (i + 1) i (cnt i)
      else if cnt i = 0 then i
      else if cnt i < v then pickWorkerLoop threadCnt cnt n (i + 1) i v
      else pickWorkerLoop threadCnt cnt n (i + 1) idx v

/-- The worker thread `qdma_thread_add_work` chooses. -/
def pickWorker (dev : XlnxDmaDev) : ℕ :=
  pickWorkerLoop dev.threadCnt (fun t => (dev.wrkThreads t).workCnt) dev.threadCnt 0 dev.threadCnt 0

/-- `qdma_thread_add_work`. -/
def qdmaThreadAddWork (dev : XlnxDmaDev) (q : ℕ) : XlnxDmaDev :=
  let idx := pickWorker dev
  let dev :=
    { dev with
      wrkThreads := Function.update dev.wrkThreads idx ((dev.wrkThreads idx).addTail q)
      listFault := dev.listFault || dev.wrkLinked q }
  if dev.numVecs ≠ 0 then
    let v := (dev.descq q).intrId
    { dev with
      intrList := Function.update dev.intrList v (dev.intrList v ++ [q])
      listFault := dev.listFault || dev.intrLinked q
      descq := Function.update dev.descq q { dev.descq q with wrkthp := some idx, wbthp := none } }
  else
    let wb := dev.threadCnt - idx - 1
    { dev with
      wbThreads := Function.update dev.wbThreads wb ((dev.wbThreads wb).addTail q)
      listFault := dev.listFault || dev.wbLinked q
      descq :=
        Function.update dev.descq q { dev.descq q with wrkthp := some idx, wbthp := some wb } }

/-- The worker's part of `qdma_thread_remove_work`. -/
def removeWrk (dev : XlnxDmaDev) (q : ℕ) : Option ℕ → XlnxDmaDev
  | none => dev
  | some t =>
      { dev with
        wrkThreads := Function.update (fun i => (dev.wrkThreads i).unlink q) t
          ((dev.wrkThreads t).unlink q).decWork
        listFault := dev.listFault || !dev.wrkLinked q }

/-- The writeback part: without a thread the queue is taken to be on an interrupt
list. -/
def removeWb (dev : XlnxDmaDev) (q : ℕ) : Option ℕ → XlnxDmaDev
  | some t =>
      { dev with
        wbThreads := Function.update (fun i => (dev.wbThreads i).unlink q) t
          ((dev.wbThreads t).unlink q).decWork
        listFault := dev.listFault || !dev.wbLinked q }
  | none =>
      { dev with
        intrList := fun v => (dev.intrList v).erase q
        listFault := dev.listFault || !dev.intrLinked q }

/-- `qdma_thread_remove_work`. -/
def qdmaThreadRemoveWork (dev : XlnxDmaDev) (q : ℕ) : XlnxDmaDev :=
  let d := dev.descq q
  let dev := dev.setDescq q { d with wbthp := none, wrkthp := none }
  removeWb (removeWrk dev q d.wrkthp) q d.wbthp

/-! ## The exported calls -/

/-- `QDMA_QUEUE_IDX_INVALID`. -/
def qdmaQueueIdxInvalid : ℕ := 0xFFFF

/-- `unsigned short` arithmetic. -/
def u16 (n : ℕ) : ℕ := n % 2 ^ 16

/-- One queue more or less in a direction's count. -/
def XlnxDmaDev.addQcnt (dev : XlnxDmaDev) (c2h : Bool) (n : ℕ) : XlnxDmaDev :=
  if c2h then { dev with c2hQcnt := u16 (dev.c2hQcnt + n) }
  else { dev with h2cQcnt := u16 (dev.h2cQcnt + n) }

/-- The handle of the queue at index `i` of a direction. -/
def XlnxDmaDev.handle (dev : XlnxDmaDev) (c2h : Bool) (i : ℕ) : ℕ := if c2h then dev.qmax + i else i

/-- The index `qdma_queue_add` takes: the first free one, or the one asked for. -/
def pickQueue (dev : XlnxDmaDev) (qconf : QdmaQueueConf) : Except ℤ ℕ :=
  let free := fun i => !(dev.descq (dev.handle qconf.c2h i)).enabled
  if qconf.qidx = qdmaQueueIdxInvalid then
    match (List.range dev.qmax).find? free with
    | none => .error (-eagain)
    | some i => .ok i
  else if free qconf.qidx then .ok qconf.qidx
  else .error (-einval)

/-- `qdma_queue_add`; the handle it stores is the second component. -/
def qdmaQueueAdd (dev : XlnxDmaDev) (qconf : QdmaQueueConf) : ℤ × ℕ × XlnxDmaDev :=
  let qcnt := if qconf.c2h then dev.c2hQcnt else dev.h2cQcnt
  if dev.qmax ≤ qcnt then (-eagain, qdmaQueueIdxInvalid, dev)
  else if qconf.qidx ≠ qdmaQueueIdxInvalid ∧ dev.qmax ≤ qconf.qidx then
    (-einval, qdmaQueueIdxInvalid, dev)
  else
    let dev := dev.addQcnt qconf.c2h 1
    match pickQueue dev qconf with
    | .error rv => (rv, qdmaQueueIdxInvalid, dev.addQcnt qconf.c2h (2 ^ 16 - 1))
    | .ok i =>
        let q := dev.handle qconf.c2h i
        let d := { dev.descq q with enabled := true }
        let d := qdmaDescqConfig dev.numVecs dev.pftchEn d qconf false
        (0, if d.conf.c2h then d.conf.qidx + dev.qmax else d.conf.qidx, dev.setDescq q d)

/-- What happens to a start from outside: the allocations, the commands that set
the contexts up and those that clear them after a failure. -/
structure StartEnv where
  al : RingAllocs
  setup : SetupFates
  clear : ℕ → CmdFate

/-- The `err_out` label of `qdma_queue_start`. -/
def startErrOut (clear : ℕ → CmdFate) (dev : XlnxDmaDev) (q : ℕ) : XlnxDmaDev :=
  let dev := descqContextClear clear dev q
  dev.setDescq q { qdmaDescqFreeResource (dev.descq q) with inited := false }

/-- `qdma_queue_start`. -/
def qdmaQueueStart (env : StartEnv) (dev : XlnxDmaDev) (id : ℕ) : ℤ × XlnxDmaDev :=
  match dev.getDescqById id true with
  | none => (-einval, dev)
  | some q =>
      let d := dev.descq q
      if !d.enabled || d.inited || d.online then (-einval, dev)
      else
        let r := qdmaDescqAllocResource env.al dev q
        if r.1 < 0 then (r.1, startErrOut env.clear r.2 q)
        else
          let r := qdmaDescqProgHw env.setup
            (r.2.setDescq q { r.2.descq q with inited := true }) q
          if r.1 < 0 then (r.1, startErrOut env.clear r.2 q)
          else (0, qdmaThreadAddWork (r.2.setDescq q { r.2.descq q with online := true }) q)

/-- `qdma_queue_stop`. -/
def qdmaQueueStop (f : ℕ → CmdFate) (dev : XlnxDmaDev) (id : ℕ) : ℤ × XlnxDmaDev :=
  match dev.getDescqById id true with
  | none => (-einval, dev)
  | some q =>
      let dev := descqContextClear f (qdmaThreadRemoveWork dev q) q
      (0, dev.setDescq q
        { qdmaDescqFreeResource (dev.descq q) with online := false, inited := false })

/-- `qdma_descq_cleanup`. -/
def qdmaDescqCleanup (f : ℕ → CmdFate) (dev : XlnxDmaDev) (q : ℕ) : XlnxDmaDev :=
  let d := dev.descq q
  let dev :=
    if d.inited then
      descqContextClear f (dev.setDescq q { d with inited := false, online := false }) q
    else dev
  let dev := descFreeIrq dev q
  dev.setDescq q (qdmaDescqFreeResource (dev.descq q))

/-- `qdma_queue_remove`: the flags are cleared before the cleanup looks at
them. -/
def qdmaQueueRemove (f : ℕ → CmdFate) (dev : XlnxDmaDev) (id : ℕ) : ℤ × XlnxDmaDev :=
  match dev.getDescqById id true with
  | none => (-einval, dev)
  | some q =>
      let dev := dev.setDescq q { dev.descq q with inited := false, online := false }
      let dev := qdmaDescqCleanup f dev q
      let dev := dev.setDescq q { dev.descq q with enabled := false }
      (0, dev.addQcnt (dev.descq q).conf.c2h (2 ^ 16 - 1))

/-- The first loops of `qdma_device_cleanup`: stop every enabled queue. -/
def stopAll (f : ℕ → ℕ → CmdFate) (dev : XlnxDmaDev) : XlnxDmaDev :=
  (List.range (2 * dev.qmax)).foldl
    (fun dev q => if (dev.descq q).enabled then (qdmaQueueStop (f q) dev q).2 else dev) dev

/-- The last loops: release what every queue still holds. -/
def cleanupAll (f : ℕ → ℕ → CmdFate) (dev : XlnxDmaDev) : XlnxDmaDev :=
  (List.range (2 * dev.qmax)).foldl (fun dev q => qdmaDescqCleanup (f q) dev q) dev

/-- `qdma_device_cleanup`, as far as the queues go. -/
def qdmaDeviceCleanup (fStop fClean : ℕ → ℕ → CmdFate) (dev : XlnxDmaDev) : XlnxDmaDev :=
  if !dev.present then dev
  else { cleanupAll fClean (stopAll fStop dev) with present := false }

/-! ## Runs of calls -/

def QdmaKthread.idle : QdmaKthread where
  workCnt := 0
  workList := []

/-- The device as `qdma_device_init` leaves it, over threads that serve nothing
yet. -/
structure DeviceInit (dev : XlnxDmaDev) : Prop where
  present : dev.present = true
  descq : ∀ q, dev.descq q =
    qdmaDescqInit (u16 (dev.funcId * dev.qmax)) (if q < dev.qmax then q else q - dev.qmax)
      (if q < dev.qmax then q else q - dev.qmax)
  h2cQcnt : dev.h2cQcnt = 0
  c2hQcnt : dev.c2hQcnt = 0
  wrkThreads : ∀ t, dev.wrkThreads t = QdmaKthread.idle
  wbThreads : ∀ t, dev.wbThreads t = QdmaKthread.idle
  intrList : ∀ v, dev.intrList v = []
  intrListCnt : ∀ v, dev.intrListCnt v = 0
  listFault : dev.listFault = false

/-- What `device_set_qrange` does to the queues of a virtual function that is granted the range
from `qbase` on. -/
def XlnxDmaDev.grantRange (dev : XlnxDmaDev) (funcId qbase : ℕ) : XlnxDmaDev :=
  { dev with
    funcId := funcId
    descq := fun q =>
      if q < 2 * dev.qmax then { dev.descq q with qidxHw := u32 ((dev.descq q).qidxHw + qbase) }
      else dev.descq q }

/-- The calls of a device's life, each with what the outside does to it. -/
inductive LifeEv where
  | add (qconf : QdmaQueueConf)
  | start (id : ℕ) (env : StartEnv)
  | stop (id : ℕ) (f : ℕ → CmdFate)
  | remove (id : ℕ) (f : ℕ → CmdFate)
  | cleanup (fStop fClean : ℕ → ℕ → CmdFate)

def lifeStep (dev : XlnxDmaDev) : LifeEv → XlnxDmaDev
  | .add qconf => (qdmaQueueAdd dev qconf).2.2
  | .start id env => (qdmaQueueStart env dev id).2
  | .stop id f => (qdmaQueueStop f dev id).2
  | .remove id f => (qdmaQueueRemove f dev id).2
  | .cleanup fStop fClean => qdmaDeviceCleanup fStop fClean dev

/-- Every call needs a device that has not been cleaned up. -/
def lifeSys : System XlnxDmaDev LifeEv where
  step := lifeStep
  guard dev _ := dev.present = true

instance (dev : XlnxDmaDev) (e : LifeEv) : Decidable (lifeSys.guard dev e) :=
  inferInstanceAs (Decidable (_ = _))

/-! ## A small device -/

/-- One queue in each direction, one thread of each kind, no interrupts. -/
def polledDev : XlnxDmaDev where
  numVecs := 0
  numVecs_le := by decide
  pftchEn := 0
  funcId := 0
  intrCoalEn := false
  intrCoalList := []
  intrList _ := []
  intrListCnt _ := 0
  present := true
  qmax := 1
  qmax_lt := by decide
  h2cQcnt := 0
  c2hQcnt := 0
  descq q := qdmaDescqInit 0 (if q < 1 then q else q - 1) (if q < 1 then q else q - 1)
  threadCnt := 1
  threadCnt_pos := by decide
  wrkThreads _ := QdmaKthread.idle
  wbThreads _ := QdmaKthread.idle
  ctxt _ _ := ctxtZero
  qid2vec _ := 0
  mmio := []
  listFault := false

theorem polledDev_init : DeviceInit polledDev :=
  ⟨rfl, fun _ => rfl, rfl, rfl, fun _ => rfl, fun _ => rfl, fun _ => rfl, fun _ => rfl, rfl⟩

/-- A start that is given all it asks for. -/
def plainStart : StartEnv where
  al :=
    { desc := some 0x10000
      fl := true
      page := fun i => some (i, some (BitVec.ofNat 64 (0x100000 + pageSize * i)))
      wrb := some (0x20000, 0x20000) }
  setup :=
    { clear := fun _ => .completes
      clearAgain := fun _ => .completes
      write := fun _ => .completes }
  clear _ := .completes

/-- The configuration of a memory-mapped H2C queue, at any free index. -/
def mmH2cConf : QdmaQueueConf where
  qidx := qdmaQueueIdxInvalid
  st := false
  c2h := false
  stC2hWrbDescSize := 0
  rngsz := 0

end Qdma

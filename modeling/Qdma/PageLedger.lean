import Qdma.Lib.Owners
import Qdma.Lib.Tally
import Qdma.Lib.Trace
import Qdma.Restart
import Qdma.WbSpec

/-!
# Whose pages they are

The pages of a streaming C2H queue come from `alloc_pages_node` and go back through
`__free_pages`.  In between they change hands: `fl_fill` puts them in the free list,
`descq_st_c2h_rx_data` moves one to the receive queue while `fl_refill_entry` puts another
in its place, a reader frees it, and a stop is to free what is left.

A `PageLedger` watches the calls to the kernel: which pages were taken and given back, in
order, and at which bus address each page is mapped.  No function of the source reads it.
`refill`, `flFillLedger`, `flFreeLedger` and `passLedger` follow `fl_refill_entry`,
`fl_fill`, `fl_free` and `descq_st_c2h_wb` call by call; what the functions do to the queue
is in `Qdma.Rx`, `Qdma.Read` and `Qdma.Lifecycle`.

A `PageRun` is the queue with its ledger, driven through starts, passes, reads and stops in
any order.  `PagesOwned` is what is wanted in every state of it.
-/

namespace Qdma

open Lib

/-! ## The calls to the kernel -/

structure PageLedger where
  log : List (Booking ℕ)
  mapping : ℕ → Option (BitVec 64)

namespace PageLedger

/-- Nothing has been allocated. -/
def empty : PageLedger where
  log := []
  mapping _ := none

/-- `alloc_pages_node`. -/
def allocPagesNode (l : PageLedger) (pg : ℕ) : PageLedger := { l with log := l.log ++ [.take pg] }

/-- `__free_pages`. -/
def freePages (l : PageLedger) (pg : ℕ) : PageLedger := { l with log := l.log ++ [.give pg] }

/-- `dma_map_page`. -/
def dmaMapPage (l : PageLedger) (pg : ℕ) (mapping : BitVec 64) : PageLedger :=
  { l with mapping := Function.update l.mapping pg (some mapping) }

/-- `dma_unmap_page`, at the address the page is mapped at. -/
def dmaUnmapPage (l : PageLedger) (pg : ℕ) : PageLedger :=
  { l with mapping := Function.update l.mapping pg none }

/-- `fl_refill_entry`.  A page that cannot be mapped is freed at once. -/
def refill (l : PageLedger) (page : Option (ℕ × Option (BitVec 64))) (fl : FlDesc) : PageLedger :=
  let l :=
    match fl.pg with
    | some pg => l.dmaUnmapPage pg
    | none => l
  match page with
  | some (pg, some mapping) => (l.allocPagesNode pg).dmaMapPage pg mapping
  | some (pg, none) => (l.allocPagesNode pg).freePages pg
  | none => l

/-- `__free_pages` for each of some received pages. -/
def freeAll (l : PageLedger) (pgs : List (Option ℕ)) : PageLedger :=
  { l with log := l.log ++ pgs.reduceOption.map .give }

end PageLedger

/-! ## The free list -/

/-- The loop of `fl_free`, from entry `i` with `n` entries to go: it ends at the first
entry without a page. -/
def flFreeLoop (fls : ℕ → FlDesc) : ℕ → ℕ → PageLedger → PageLedger
  | 0, _, l => l
  | n + 1, i, l =>
      match (fls i).pg with
      | none => l
      | some pg => flFreeLoop fls n (i + 1) ((l.dmaUnmapPage pg).freePages pg)

/-- `fl_free`. -/
def flFreeLedger (rngsz : ℕ) (fls : Option (ℕ → FlDesc)) (l : PageLedger) : PageLedger :=
  match fls with
  | none => l
  | some fls => flFreeLoop fls rngsz 0 l

/-- The loop of `fl_fill` up to its end or its first failure, with the entries it leaves. -/
def flFillWatch (page : ℕ → Option (ℕ × Option (BitVec 64))) :
    ℕ → ℕ → (ℕ → FlDesc) → PageLedger → (ℕ → FlDesc) × PageLedger
  | 0, _, fls, l => (fls, l)
  | n + 1, i, fls, l =>
      let r := flRefillEntry (page i) (fls i)
      let fls' := Function.update fls i r.2
      let l' := l.refill (page i) (fls i)
      if r.1 < 0 then (fls', l') else flFillWatch page n (i + 1) fls' l'

/-- `fl_fill`. -/
def flFillLedger (al : RingAllocs) (rngsz : ℕ) (l : PageLedger) : PageLedger :=
  if al.fl then
    let w := flFillWatch al.page rngsz 0 (fun _ => FlDesc.zero) l
    if (flFill al rngsz).isSome then w.2 else flFreeLedger rngsz (some w.1) w.2
  else l

/-- `qdma_descq_free_resource`. -/
def freeResourceLedger (d : QdmaDescq) (l : PageLedger) : PageLedger :=
  let l := flFreeLedger d.conf.rngsz d.stRxFl l
  if d.rxQueue.dlen = 0 then l else l.freeAll (d.rxQueue.rx.map (·.pg))

/-! ## A pass -/

/-- `while (fl_nr)`. -/
def pagesLedger (al : RxAllocs) : ℕ → ℕ → Bool → StC2hPass → PageLedger → PageLedger
  | 0, _, _, _, l => l
  | flNr + 1, len, udd, p, l =>
      match p.x.descq.stRxFl with
      | none => l
      | some fls =>
          pagesLedger al flNr (len - min len pageSize) false (stC2hPage al fls len udd p)
            (l.refill (al.page p.pages) (fls p.pidx))

/-- `while (budget)`. -/
def entriesLedger (al : RxAllocs) : ℕ → StC2hPass → PageLedger → PageLedger
  | 0, _, l => l
  | budget + 1, p, l =>
      match p.x.descq.descWrb with
      | none => l
      | some ring =>
          let len := ring.entryLen p.x.descq.descWrbCur
          if uddFails al p || ring.entryErr p.x.descq.descWrbCur then l
          else
            entriesLedger al budget (entryDone al ring p)
              (pagesLedger al (pagesOf len) len p.x.descq.stC2hWrbUddEn (withUdd ring p) l)

/-- `descq_st_c2h_wb`. -/
def passLedger (al : RxAllocs) (x : Xfer) (l : PageLedger) : PageLedger :=
  match x.descq.descWrb with
  | none => l
  | some ring =>
      entriesLedger al (stC2hBudget { x.descq with pidxWrb := ring.wbPidx }) (passStart ring x) l

/-! ## Runs -/

structure PageRun where
  x : Xfer
  ledger : PageLedger

namespace PageRun

def setDescq (s : PageRun) (d : QdmaDescq) (l : PageLedger) : PageRun where
  x := { s.x with descq := d }
  ledger := l

/-- `qdma_queue_start`.  `progHw` says whether the contexts can be programmed; where they
cannot, everything is released again. -/
def start (s : PageRun) (al : RingAllocs) (progHw : Bool) : PageRun :=
  let d := s.x.descq
  if d.inited || d.online then s
  else
    let r := descqAllocRings al d
    let fills := al.desc.isSome && d.isStC2h
    let l := if fills then flFillLedger al d.conf.rngsz s.ledger else s.ledger
    let fls := if fills then flFill al d.conf.rngsz else none
    if r.1 < 0 then
      s.setDescq { r.2 with inited := false } (freeResourceLedger { d with stRxFl := fls } l)
    else if progHw then s.setDescq { r.2 with inited := true, online := true } l
    else
      s.setDescq { qdmaDescqFreeResource r.2 with inited := false } (freeResourceLedger r.2 l)

/-- `qdma_queue_stop`. -/
def stop (s : PageRun) : PageRun :=
  s.setDescq { qdmaDescqFreeResource s.x.descq with online := false, inited := false }
    (freeResourceLedger s.x.descq s.ledger)

/-- `qdma_descq_rxq_read`, over pages that hold `mem`. -/
def read (s : PageRun) (mem : Option ℕ → ℕ → BitVec 8) (lens : List ℕ) : PageRun :=
  let d := s.x.descq
  let r := qdmaDescqRxqRead listOps mem d.stC2hWrbUddEn lens d.rxQueue
  s.setDescq { d with rxQueue := r.rxq } (s.ledger.freeAll r.freed)

end PageRun

/-! The start and the stop of a run are those of the device, up to the vector and the
threads of the queue. -/

theorem pageRun_stop_device (f : ℕ → CmdFate) {dev : XlnxDmaDev} {q : ℕ}
    (hq : q < 2 * dev.qmax) (hen : (dev.descq q).enabled = true) {s : PageRun}
    (hs : s.x.descq = dev.descq q) :
    (qdmaQueueStop f dev q).2.descq q = { s.stop.x.descq with wrkthp := none, wbthp := none } := by
  rw [qdmaQueueStop_eq f hq hen]
  dsimp only
  rw [Function.update_self, ← hs]
  rfl

theorem pageRun_start_device (env : StartEnv) {dev : XlnxDmaDev} {q : ℕ}
    (hstart : Startable dev q) {s : PageRun} (hs : s.x.descq = dev.descq q) :
    ∃ progHw idx w b, (qdmaQueueStart env dev q).2.descq q =
      { (s.start env.al progHw).x.descq with intrId := idx, wrkthp := w, wbthp := b } := by
  have hidle : ¬ (s.x.descq.inited || s.x.descq.online) = true := by
    rw [hs, hstart.inited, hstart.online]
    decide
  obtain ⟨hneg, hd⟩ | ⟨hzero, -⟩ := descqAllocRings_cases env.al (dev.descq q)
  · -- the fields the two leave alone are those of the queue before
    refine ⟨false, (dev.descq q).intrId, (dev.descq q).wrkthp, (dev.descq q).wbthp, ?_⟩
    rw [start_unallocated env hstart hneg]
    unfold PageRun.start
    dsimp only
    rw [if_neg hidle, hs, if_pos hneg, hd, Function.update_self]
    rfl
  · obtain ⟨idx, cnt, vec, mmio, -, ⟨-, -, heq⟩ | ⟨-, r, hr, heq⟩⟩ :=
      start_allocated env hstart (Prod.ext hzero rfl)
    · refine ⟨false, idx, (descqAllocRings env.al (dev.descq q)).2.wrkthp,
        (descqAllocRings env.al (dev.descq q)).2.wbthp, ?_⟩
      rw [heq]
      unfold PageRun.start
      dsimp only
      rw [if_neg hidle, hs, hzero, if_neg (lt_irrefl 0), Function.update_self]
      rfl
    · obtain ⟨w, b, hthread⟩ := threadAddWork_eq (r.setDescq q { r.descq q with online := true }) q
      refine ⟨true, idx, w, b, ?_⟩
      rw [heq, hthread, hr]
      unfold PageRun.start
      dsimp only
      rw [if_neg hidle, hs, hzero, if_neg (lt_irrefl 0), if_pos rfl]
      simp only [XlnxDmaDev.setDescq, Function.update_self]
      rfl

inductive PageEv where
  | start (al : RingAllocs) (progHw : Bool)
  | submit (id : ReqId) (req : QdmaSgReq)
  | hwWrb (pidx : ℕ) (mem : ℕ → BitVec 8)
  | serviceWb (al : RxAllocs)
  | read (mem : Option ℕ → ℕ → BitVec 8) (lens : List ℕ)
  | timeout (id : ReqId)
  | stop

def pageStep (s : PageRun) : PageEv → PageRun
  | .start al progHw => s.start al progHw
  | .submit id req => { s with x := (qdmaSgReqSubmitStC2h s.x id req).2 }
  | .hwWrb pidx mem => { s with x := hwCompletion s.x pidx mem }
  | .serviceWb al =>
      { x := (descqStC2hWb al s.x).2
        ledger := passLedger al s.x s.ledger }
  | .read mem lens => s.read mem lens
  | .timeout id => { s with x := s.x.listDel id }
  | .stop => s.stop

/-- From call `n` on, no page is given out that is in use: neither one of the ledger's, nor
one that an earlier call has given out and that was mapped. -/
def FreshFrom (l : PageLedger) (page : ℕ → Option (ℕ × Option (BitVec 64))) (n : ℕ) : Prop :=
  ∀ i pg m, n ≤ i → page i = some (pg, m) →
    ¬ Out l.log pg ∧ ∀ j m', n ≤ j → j < i → page j ≠ some (pg, some m')

/-- Everything can fail; what the page allocator gives is free. -/
def pageGuard (s : PageRun) : PageEv → Prop
  | .start al _ => FreshFrom s.ledger al.page 0
  | .serviceWb al => FreshFrom s.ledger al.page 0
  | _ => True

def pageSys : System PageRun PageEv where
  step := pageStep
  guard := pageGuard

/-! ## The property -/

/-- The slots with the page. -/
def flMarks (fls : ℕ → FlDesc) (pg i : ℕ) : Bool := decide ((fls i).pg = some pg)

/-- The slots of the free list that hold the page. -/
def QdmaDescq.inFl (d : QdmaDescq) (pg : ℕ) : ℕ :=
  match d.stRxFl with
  | none => 0
  | some fls => tally (flMarks fls pg) d.conf.rngsz

/-- The nodes of the receive queue that hold it. -/
def QdmaDescq.inRxq (d : QdmaDescq) (pg : ℕ) : ℕ := (d.rxQueue.rx.map (·.pg)).count (some pg)

/-- The owners of a page: slots, nodes, and the kernel if it was given back. -/
def PageRun.owners (s : PageRun) (pg : ℕ) : ℕ :=
  s.x.descq.inFl pg + s.x.descq.inRxq pg + if Out s.ledger.log pg then 0 else 1

/-- A slot is posted: the descriptor holds the mapping of the slot's page, which is in
use. -/
structure SlotPosted (l : PageLedger) (fl : FlDesc) (desc : QdmaDesc) (pg : ℕ) : Prop where
  page : fl.pg = some pg
  live : Out l.log pg
  mapped : l.mapping pg = some desc.dstAddr
  notNull : desc.dstAddr ≠ 0

/-- Every posted buffer is a mapped page, every page has one owner, and a queue that is
stopped has no pages. -/
structure PagesOwned (s : PageRun) : Prop where
  posted : ∀ ring, s.x.descq.desc = some ring → ∃ fls, s.x.descq.stRxFl = some fls ∧
    ∀ i < s.x.descq.conf.rngsz, ∃ pg, SlotPosted s.ledger (fls i) (ring.slots i) pg
  oneOwner : ∀ pg, .take pg ∈ s.ledger.log → s.owners pg = 1
  stopped : s.x.descq.inited = false → s.x.descq.stRxFl = none ∧ s.x.descq.rxQueue.rx = []

/-! ## The condition -/

/-- The address at which the page of the call is mapped. -/
def pageAddr (page : Option (ℕ × Option (BitVec 64))) : Option (BitVec 64) := page.bind (·.2)

/-- The call gives a page and an address for it other than 0. -/
def PageMapped (page : Option (ℕ × Option (BitVec 64))) : Prop := ∃ m ∈ pageAddr page, m ≠ 0

/-- `n` pages can be handed over and replaced, with `k` calls of `kmalloc` and `m` of the
page allocator made before. -/
def PagesGranted (al : RxAllocs) (k m n : ℕ) : Prop :=
  ∀ i < n, al.kmalloc (k + i) = true ∧ PageMapped (al.page (m + i))

/-- The same for every entry the pass comes to. -/
def EntriesGranted (al : RxAllocs) : ℕ → StC2hPass → Prop
  | 0, _ => True
  | budget + 1, p =>
      ∀ ring ∈ p.x.descq.descWrb, (uddFails al p || ring.entryErr p.x.descq.descWrbCur) = true ∨
        PagesGranted al (withUdd ring p).kmallocs p.pages
          (pagesOf (ring.entryLen p.x.descq.descWrbCur)) ∧
        EntriesGranted al budget (entryDone al ring p)

/-- Where a start is given everything it asks for, no page is mapped at address 0. -/
def StartMapped (al : RingAllocs) (progHw : Bool) (rngsz : ℕ) : Prop :=
  al.desc.isSome = true → al.fl = true → al.wrb.isSome = true → progHw = true →
    (∀ i < rngsz, (pageAddr (al.page i)).isSome = true) →
      ∀ i < rngsz, pageAddr (al.page i) ≠ some 0

/-- Every page a pass takes out of its slot finds its node and its successor, and a stop
finds a byte count where there are pages. -/
def PagesKept (s : PageRun) : PageEv → Prop
  | .start al progHw => StartMapped al progHw s.x.descq.conf.rngsz
  | .serviceWb al =>
      ∀ ring ∈ s.x.descq.descWrb,
        EntriesGranted al (stC2hBudget { s.x.descq with pidxWrb := ring.wbPidx })
          (passStart ring s.x)
  | .stop => s.x.descq.rxQueue.dlen = 0 → s.x.descq.rxQueue.rx = []
  | _ => True

instance (page : Option (ℕ × Option (BitVec 64))) : Decidable (PageMapped page) :=
  match h : pageAddr page with
  | none => isFalse fun ⟨m, hm, _⟩ => by rw [h] at hm; cases hm
  | some m =>
      decidable_of_iff (m ≠ 0)
        ⟨fun hm => ⟨m, h, hm⟩, fun ⟨m', hm', hne⟩ => by rw [h] at hm'; cases hm'; exact hne⟩

instance (al : RxAllocs) (k m n : ℕ) : Decidable (PagesGranted al k m n) :=
  inferInstanceAs (Decidable (∀ i < n, _ ∧ _))

instance decidableEntriesGranted (al : RxAllocs) :
    ∀ budget p, Decidable (EntriesGranted al budget p)
  | 0, _ => inferInstanceAs (Decidable True)
  | budget + 1, p =>
      have := decidableEntriesGranted al budget
      inferInstanceAs (Decidable (∀ ring ∈ p.x.descq.descWrb, _ ∨ _ ∧ _))

instance (al : RingAllocs) (progHw : Bool) (rngsz : ℕ) : Decidable (StartMapped al progHw rngsz) :=
  inferInstanceAs (Decidable (_ → _))

instance (s : PageRun) : ∀ e, Decidable (PagesKept s e) := by
  rintro ⟨⟩ <;> dsimp only [PagesKept] <;> infer_instance

/-- A streaming C2H queue that was added and not started. -/
structure JustAdded (d : QdmaDescq) : Prop where
  kind : d.isStC2h = true
  inited : d.inited = false
  desc : d.desc = none
  fl : d.stRxFl = none
  wrb : d.descWrb = none
  rx : d.rxQueue.rx = []
  pidx : d.pidx < d.conf.rngsz
  rngsz : d.conf.rngsz < 2 ^ 32

/-- So is what `qdma_queue_add` makes of a fresh queue. -/
theorem justAdded_config (numVecs pftchEn qbase idxHw idxSw : ℕ) (enabled : Bool)
    (qconf : QdmaQueueConf) (hst : qconf.st = true) (hc2h : qconf.c2h = true) :
    JustAdded (qdmaDescqConfig numVecs pftchEn
      { qdmaDescqInit qbase idxHw idxSw with enabled := enabled } qconf false) where
  kind := by
    change (qconf.st && qconf.c2h) = true
    rw [hst, hc2h]
    rfl
  inited := rfl
  desc := rfl
  fl := rfl
  wrb := rfl
  rx := rfl
  pidx := by change 0 < rngSzDflt; decide
  rngsz := by change rngSzDflt < 2 ^ 32; decide

namespace PageRun

/-- A queue whose first page has yet to be allocated. -/
def init (x : Xfer) : PageRun where
  x := x
  ledger := PageLedger.empty

end PageRun

end Qdma

import Qdma.Intr
import Qdma.ReadSpec
import Qdma.Lib.Locks

/-!
# Locks

Every entry point of the driver takes the locks it needs and gives them back, on many
paths.  This file follows the lock operations of each of them, path by path: the state and
the arguments decide the branches exactly as in the functions themselves, and what comes
from elsewhere (an allocation, a message that could not be sent, the receive queue found
after a wait) is an argument.

The context functions of a virtual function send a message and take `mbox_lock` inside the
locks of their callers; the build is an argument too.  The locks of the service threads
are left out.

A path that reads through `NULL` does not return.

Two paths leave a lock behind and one releases a lock it never took; `LockCall.Clean` says
when.
-/

namespace Qdma

open Lib

/-- The locks of a device and of its queues. -/
inductive QdmaLock where
  | qdev
  | descq (q : ℕ)
  | rxq (q : ℕ)
  | xdev
  | mbox
  deriving DecidableEq

/-- The locks that are taken inside others. -/
def QdmaLock.Inner : QdmaLock → Prop
  | .qdev => False
  | .descq _ => False
  | .rxq _ => True
  | .xdev => True
  | .mbox => True

/-- The lock operations up to where a call returns, or to where it does not. -/
structure LockPath where
  ops : List (LockOp QdmaLock)
  returns : Bool

/-- No lock is released that is not held, and a call that returns holds none. -/
def LockPath.Kept (p : LockPath) : Prop :=
  ∃ held, holds [] p.ops = some held ∧ (p.returns = true → held = [])

/-! ## The mailbox and the contexts -/

/-- `qdma_mbox_send_msg`. -/
def mboxSendOps (sendOk waitResp : Bool) : List (LockOp QdmaLock) :=
  if sendOk && waitResp then critical .mbox [] ++ critical .mbox [] else critical .mbox []

/-- Which of the two builds of `qdma_context.c`. -/
inductive QdmaBuild where
  | pf
  | vf
  deriving DecidableEq

/-- A context function: register writes, or a message and its answer. -/
def ctxtOps (b : QdmaBuild) (sendOk : Bool) : List (LockOp QdmaLock) :=
  match b with
  | .pf => []
  | .vf => mboxSendOps sendOk true

/-! ## Queues -/

/-- `qdma_device_get_descq_by_id` with `init` set. -/
def getDescqOps (dev : XlnxDmaDev) (idx : ℕ) : List (LockOp QdmaLock) :=
  if dev.qmax ≤ idx ∧ dev.qmax ≤ idx - dev.qmax then [] else critical (.descq idx) []

/-- `qdma_descq_free_resource`. -/
def freeResourceOps (d : QdmaDescq) (q : ℕ) : List (LockOp QdmaLock) :=
  if d.rxQueue.dlen = 0 then [] else critical (.rxq q) []

/-- `desc_alloc_irq` and `desc_free_irq`. -/
def descIrqOps (dev : XlnxDmaDev) : List (LockOp QdmaLock) :=
  if dev.numVecs = 0 then [] else critical .xdev []

/-- What `qdma_device_prep_q_resource` finds: whether its work was done before, the
messages it sends otherwise, and its result. -/
structure PrepEnv where
  initQrange : Bool
  sends : List Bool
  rv : ℤ

/-- `qdma_device_prep_q_resource`. -/
def prepQResourceOps (b : QdmaBuild) (env : PrepEnv) : List (LockOp QdmaLock) :=
  critical .qdev (if env.initQrange then [] else env.sends.flatMap (ctxtOps b))

/-- The search of `qdma_queue_add`, `n` slots from slot `i` on. -/
def findFreeOps (enabled : ℕ → Bool) (slot : ℕ → ℕ) : ℕ → ℕ → List (LockOp QdmaLock)
  | 0, _ => []
  | n + 1, i =>
      critical (.descq (slot i)) [] ++
        if enabled (slot i) then findFreeOps enabled slot n (i + 1) else []

/-- `qdma_queue_add`; `qhndl` says that there is somewhere to store the handle. -/
def queueAddOps (b : QdmaBuild) (env : PrepEnv) (qhndl : Bool) (dev : XlnxDmaDev)
    (qconf : QdmaQueueConf) : List (LockOp QdmaLock) :=
  let qcnt := if qconf.c2h then dev.c2hQcnt else dev.h2cQcnt
  prepQResourceOps b env ++
    if env.rv < 0 then []
    else if !qhndl then [.release .qdev]
    else if dev.qmax ≤ qcnt then critical .qdev []
    else if qconf.qidx ≠ qdmaQueueIdxInvalid ∧ dev.qmax ≤ qconf.qidx then critical .qdev []
    else
      critical .qdev [] ++
        (if qconf.qidx = qdmaQueueIdxInvalid then
          findFreeOps (fun q => (dev.descq q).enabled) (dev.handle qconf.c2h) dev.qmax 0
        else critical (.descq (dev.handle qconf.c2h qconf.qidx)) []) ++
        match pickQueue dev qconf with
        | .error _ => critical .qdev []
        | .ok _ => []

/-- `qdma_queue_config`. -/
def queueConfigOps (dev : XlnxDmaDev) (qid : ℕ) : List (LockOp QdmaLock) :=
  match dev.getDescqById qid false with
  | none => []
  | some q => critical (.descq q) [] ++ if (dev.descq q).enabled then [] else critical .qdev []

/-- `qdma_queue_start`; the allocations and the programming run inside the queue's lock,
`qdma_thread_add_work` after it. -/
def queueStartOps (b : QdmaBuild) (sends : ℕ → Bool) (env : StartEnv) (dev : XlnxDmaDev) (id : ℕ) :
    List (LockOp QdmaLock) :=
  getDescqOps dev id ++
    match dev.getDescqById id true with
    | none => []
    | some q =>
        let d := dev.descq q
        if !d.enabled || d.inited || d.online then critical (.descq q) []
        else
          let r := qdmaDescqAllocResource env.al dev q
          if r.1 < 0 then
            critical (.descq q)
              (freeResourceOps d q ++ (ctxtOps b (sends 0) ++ freeResourceOps (r.2.descq q) q))
          else
            let p := qdmaDescqProgHw env.setup
              (r.2.setDescq q { r.2.descq q with inited := true }) q
            if p.1 < 0 then
              critical (.descq q)
                (descIrqOps dev ++ (ctxtOps b (sends 0) ++
                  (ctxtOps b (sends 1) ++ freeResourceOps (p.2.descq q) q)))
            else
              critical (.descq q) (descIrqOps dev ++ ctxtOps b (sends 0)) ++
                (descIrqOps dev ++ critical (.descq q) [])

/-- `qdma_queue_stop`; a queue without a writeback thread is on an interrupt list. -/
def queueStopOps (b : QdmaBuild) (sendOk : Bool) (dev : XlnxDmaDev) (id : ℕ) :
    List (LockOp QdmaLock) :=
  getDescqOps dev id ++
    match dev.getDescqById id true with
    | none => []
    | some q =>
        critical (.descq q) [] ++
          ((if (dev.descq q).wbthp.isSome then [] else critical .xdev []) ++
            (ctxtOps b sendOk ++ (freeResourceOps (dev.descq q) q ++ critical (.descq q) [])))

/-- `qdma_queue_remove`; `inited` is what `qdma_descq_cleanup` finds in between. -/
def queueRemoveOps (b : QdmaBuild) (sendOk inited : Bool) (dev : XlnxDmaDev) (id : ℕ) :
    List (LockOp QdmaLock) :=
  getDescqOps dev id ++
    match dev.getDescqById id true with
    | none => []
    | some q =>
        critical (.descq q) [] ++
          (critical (.descq q)
              ((if inited then ctxtOps b sendOk else []) ++
                (descIrqOps dev ++ freeResourceOps (dev.descq q) q)) ++
            (critical (.descq q) [] ++ critical .qdev []))

/-! ## Requests -/

/-- A request and what becomes of it: whether its buffer can be mapped, whether it is done
when the wait ends, and the receive queue it then reads. -/
structure SubmitEnv where
  write : Bool
  count : ℕ
  noWait : Bool
  mapOk : Bool
  done : Bool
  sendOk : Bool
  lens : List ℕ
  page : Option ℕ → ℕ → BitVec 8
  rxqRead : StRxQueue

/-- `qdma_descq_rxq_read`. -/
def rxqReadPath (env : SubmitEnv) (d : QdmaDescq) (q : ℕ) : LockPath :=
  let r := qdmaDescqRxqRead listOps env.page d.stC2hWrbUddEn env.lens env.rxqRead
  { ops := .acquire (.rxq q) :: if r.locked then [] else [.release (.rxq q)]
    returns := !r.oops }

/-- One part of a call after another. -/
def LockPath.after (ops : List (LockOp QdmaLock)) (p : LockPath) : LockPath :=
  { p with ops := ops ++ p.ops }

def LockPath.ret (ops : List (LockOp QdmaLock)) : LockPath := { ops := ops, returns := true }

/-- `qdma_sg_req_submit_st_c2h`; a wait that expires dumps the queue, which reads its
contexts. -/
def submitStC2hPath (b : QdmaBuild) (env : SubmitEnv) (d : QdmaDescq) (q : ℕ) : LockPath :=
  .after (critical (.rxq q) []) <|
    if env.count ≤ d.rxQueue.dlen then rxqReadPath env d q
    else
      .after (critical (.descq q) []) <|
        if !d.online then .ret []
        else if env.noWait then .ret []
        else
          .after (if env.done then [] else ctxtOps b env.sendOk ++ critical (.descq q) []) <|
            rxqReadPath env d q

/-- The direction of a request does not fit the queue. -/
def SubmitEnv.wrongWay (env : SubmitEnv) (d : QdmaDescq) : Bool :=
  (env.write && d.conf.c2h) || (!env.write && !d.conf.c2h)

/-- `qdma_sg_req_submit`. -/
def submitPath (b : QdmaBuild) (env : SubmitEnv) (dev : XlnxDmaDev) (id : ℕ) : LockPath :=
  .after (getDescqOps dev id) <|
    match dev.getDescqById id true with
    | none => .ret []
    | some q =>
        let d := dev.descq q
        if env.wrongWay d then .ret []
        else if d.isStC2h then submitStC2hPath b env d q
        else if !env.mapOk then .ret []
        else
          .after (critical (.descq q) []) <|
            if !d.online then .ret []
            else if d.wrkthp.isNone then { ops := [], returns := false }
            else if env.noWait || env.done then .ret []
            else .ret (critical (.descq q) [])

/-! ## Completions and interrupts -/

/-- The pages of one entry: `descq_st_c2h_rx_data` takes the lock where it could allocate
a node. -/
def rxDataOps (al : RxAllocs) (q kmallocs flNr : ℕ) : List (LockOp QdmaLock) :=
  (List.range flNr).flatMap fun i => if al.kmalloc (kmallocs + i) then critical (.rxq q) [] else []

/-- How a handler ends: at its end, early, or with a pointer that is `NULL`. -/
inductive WbEnd where
  | finished
  | early
  | stopped
  deriving DecidableEq

/-- The loop of `descq_st_c2h_wb`. -/
def stC2hEntriesOps (al : RxAllocs) (q : ℕ) : ℕ → StC2hPass → List (LockOp QdmaLock) × WbEnd
  | 0, _ => ([], .finished)
  | budget + 1, p =>
      match p.x.descq.descWrb with
      | none => ([], .stopped)
      | some ring =>
          match stC2hUdd al ring p with
          | none => ([], .early)
          | some (p', udd) =>
              let word := ring.word p'.x.descq.descWrbCur
              let len := (word / 2 ^ sC2hWbEntryLength) % (mC2hWbEntryLength + 1)
              if (word / 2 ^ sC2hWbEntryFDescErr) % 2 = 1 then ([], .early)
              else
                let flNr := (len + pageSize - 1) / pageSize
                if flNr ≠ 0 ∧ p'.x.descq.stRxFl.isNone then ([], .stopped)
                else if flNr ≠ 0 ∧ p'.x.descq.desc.isNone then
                  (rxDataOps al q p'.kmallocs 1, .stopped)
                else
                  let p := stC2hPages al flNr len udd p'
                  let r := stC2hEntriesOps al q budget
                    { p with x := { p.x with descq := wrbNext p.x.descq } }
                  (rxDataOps al q p'.kmallocs flNr ++ r.1, r.2)

/-- The aggregation ring is moved, or looked for in vain. -/
def coalStops (x : Xfer) : Bool := x.intrCoalEn && x.intrCoalList.isEmpty

/-- `descq_st_c2h_wb`; `check_rx_request_completed` takes the lock once. -/
def stC2hWbOps (al : RxAllocs) (q : ℕ) (x : Xfer) : List (LockOp QdmaLock) × WbEnd :=
  match x.descq.descWrb with
  | none => ([], .stopped)
  | some ring =>
      let x := { x with descq := { x.descq with pidxWrb := ring.wbPidx } }
      let budget := stC2hBudget x.descq
      let r := stC2hEntriesOps al q budget { x := x, pidx := x.descq.pidx, kmallocs := 0, pages := 0 }
      if r.2 ≠ .finished ∨ budget = 0 then r
      else if coalStops x then (r.1, .stopped)
      else (r.1 ++ critical (.rxq q) [], .finished)

/-- `descq_mm_n_h2c_wb`, which takes no lock; a worker thread to wake up must be there. -/
def mmNH2cWbEnd (x : Xfer) : WbEnd :=
  if x.descq.pidx = x.descq.cidx then .early
  else
    match x.descq.desc with
    | none => .stopped
    | some ring =>
        if ring.wbCidx = x.descq.cidx then .early
        else
          let d := (descqWbCredit x ring.wbCidx).2.descq
          if (d.workList ≠ [] ∧ d.avail ≠ 0 ∧ d.wrkthp.isNone) ∨ coalStops x = true then .stopped
          else .finished

/-- `qdma_descq_service_wb`. -/
def serviceWbPath (al : RxAllocs) (q : ℕ) (x : Xfer) : LockPath :=
  let r := if x.descq.isStC2h then stC2hWbOps al q x else ([], mmNH2cWbEnd x)
  if r.2 = .stopped then { ops := .acquire (.descq q) :: r.1, returns := false }
  else .ret (critical (.descq q) r.1)

/-- `irq_top`. -/
def irqTopOps (s : IntrState) (irq : ℕ) : List (LockOp QdmaLock) :=
  match s.msix.findIdx? (· = irq) with
  | none => []
  | some _ =>
      .acquire .xdev :: if (irqTop s irq).1 < 0 then [] else [.release .xdev]

/-! ## The calls -/

inductive LockCall where
  | queueAdd (b : QdmaBuild) (env : PrepEnv) (qhndl : Bool) (dev : XlnxDmaDev)
      (qconf : QdmaQueueConf)
  | queueConfig (dev : XlnxDmaDev) (qid : ℕ)
  | queueStart (b : QdmaBuild) (sends : ℕ → Bool) (env : StartEnv) (dev : XlnxDmaDev) (id : ℕ)
  | queueStop (b : QdmaBuild) (sendOk : Bool) (dev : XlnxDmaDev) (id : ℕ)
  | queueRemove (b : QdmaBuild) (sendOk inited : Bool) (dev : XlnxDmaDev) (id : ℕ)
  | sgReqSubmit (b : QdmaBuild) (env : SubmitEnv) (dev : XlnxDmaDev) (id : ℕ)
  | serviceWb (al : RxAllocs) (q : ℕ) (x : Xfer)
  | irqTop (s : IntrState) (irq : ℕ)
  | mboxSendMsg (sendOk waitResp : Bool)

def LockCall.path : LockCall → LockPath
  | .queueAdd b env qhndl dev qconf => .ret (queueAddOps b env qhndl dev qconf)
  | .queueConfig dev qid => .ret (queueConfigOps dev qid)
  | .queueStart b sends env dev id => .ret (queueStartOps b sends env dev id)
  | .queueStop b sendOk dev id => .ret (queueStopOps b sendOk dev id)
  | .queueRemove b sendOk inited dev id => .ret (queueRemoveOps b sendOk inited dev id)
  | .sgReqSubmit b env dev id => submitPath b env dev id
  | .serviceWb al q x => serviceWbPath al q x
  | .irqTop s irq => .ret (irqTopOps s irq)
  | .mboxSendMsg sendOk waitResp => .ret (mboxSendOps sendOk waitResp)

/-- The request gets as far as reading the receive queue. -/
def SubmitEnv.Reads (env : SubmitEnv) (d : QdmaDescq) : Prop :=
  env.wrongWay d = false ∧ d.isStC2h = true ∧
    (env.count ≤ d.rxQueue.dlen ∨ d.online = true ∧ env.noWait = false)

/-- The entries an interrupt goes over all name a queue. -/
def IntrState.Known (s : IntrState) (irq : ℕ) : Prop :=
  ∀ i coal, s.msix.findIdx? (· = irq) = some i → s.dev.intrCoalEn = true →
    s.dev.intrCoalList[i]? = some coal → irq = coal.vecId →
    ∀ j, j < u32Sub coal.intrRingSize coal.pidx - coal.pidx →
      (∀ k, k ≤ j → (s.ring i (coal.pidx + k)).coalColor = coal.color) →
      s.dev.getDescqById (s.ring i (coal.pidx + j)).qid false ≠ none

/-- The calls that keep their locks: a queue is added with somewhere to store its handle,
a read finds a page or user-defined data where the queue has it, and an interrupt finds
its queues. -/
def LockCall.Clean : LockCall → Prop
  | .queueAdd _ env qhndl _ _ => env.rv < 0 ∨ qhndl = true
  | .sgReqSubmit _ env dev id =>
      ∀ q, dev.getDescqById id true = some q → env.Reads (dev.descq q) →
        env.rxqRead.rx ≠ [] ∨ env.rxqRead.udd ≠ [] ∨ (dev.descq q).stC2hWrbUddEn = false
  | .irqTop s irq => s.Known irq
  | _ => True

/-! ## Parts of paths -/

/-- Any lock at all: what uses it starts with none held. -/
def AnyLock (_ : QdmaLock) : Prop := True

theorem Inner.neutral_any {ops : List (LockOp QdmaLock)} (h : Neutral QdmaLock.Inner ops) :
    Neutral AnyLock ops := h.mono fun _ _ => trivial

theorem neutral_lock (l : QdmaLock) : Neutral AnyLock (critical l []) := neutral_pair trivial

/-- The lock of a queue around what uses inner locks. -/
theorem neutral_descq {ops : List (LockOp QdmaLock)} (h : Neutral QdmaLock.Inner ops) (q : ℕ) :
    Neutral AnyLock (critical (.descq q) ops) := h.critical (fun _ _ => trivial) trivial id

theorem mboxSendOps_neutral (sendOk waitResp : Bool) :
    Neutral QdmaLock.Inner (mboxSendOps sendOk waitResp) :=
  ((neutral_pair trivial).append (neutral_pair trivial)).ite (neutral_pair trivial)

theorem ctxtOps_neutral (b : QdmaBuild) (sendOk : Bool) :
    Neutral QdmaLock.Inner (ctxtOps b sendOk) := by
  cases b with
  | pf => exact neutral_nil _
  | vf => exact mboxSendOps_neutral sendOk true

theorem freeResourceOps_neutral (d : QdmaDescq) (q : ℕ) :
    Neutral QdmaLock.Inner (freeResourceOps d q) := (neutral_nil _).ite (neutral_pair trivial)

theorem descIrqOps_neutral (dev : XlnxDmaDev) : Neutral QdmaLock.Inner (descIrqOps dev) :=
  (neutral_nil _).ite (neutral_pair trivial)

theorem getDescqOps_neutral (dev : XlnxDmaDev) (idx : ℕ) : Neutral AnyLock (getDescqOps dev idx) :=
  (neutral_nil _).ite (neutral_lock _)

theorem prepQResourceOps_neutral (b : QdmaBuild) (env : PrepEnv) :
    Neutral AnyLock (prepQResourceOps b env) :=
  ((neutral_nil _).ite (Neutral.flatMap (ctxtOps_neutral b) env.sends)).critical
    (fun _ _ => trivial) trivial id

theorem findFreeOps_neutral (enabled : ℕ → Bool) (slot : ℕ → ℕ) :
    ∀ n i, Neutral AnyLock (findFreeOps enabled slot n i) := by
  intro n
  induction n with
  | zero =>
      intro i
      exact neutral_nil _
  | succ n ih =>
      intro i
      exact (neutral_lock _).append ((ih (i + 1)).ite (neutral_nil _))

theorem rxDataOps_neutral (al : RxAllocs) (q kmallocs flNr : ℕ) :
    Neutral QdmaLock.Inner (rxDataOps al q kmallocs flNr) :=
  Neutral.flatMap (fun _ => (neutral_pair trivial).ite (neutral_nil _)) _

theorem neutral_fst_ite {c : Prop} [Decidable c] {r r' : List (LockOp QdmaLock) × WbEnd}
    (h : Neutral QdmaLock.Inner r.1) (h' : Neutral QdmaLock.Inner r'.1) :
    Neutral QdmaLock.Inner (if c then r else r').1 := by
  split
  · exact h
  · exact h'

theorem stC2hEntriesOps_neutral (al : RxAllocs) (q : ℕ) :
    ∀ budget p, Neutral QdmaLock.Inner (stC2hEntriesOps al q budget p).1 := by
  intro budget
  induction budget with
  | zero =>
      intro p
      exact neutral_nil _
  | succ budget ih =>
      intro p
      unfold stC2hEntriesOps
      cases p.x.descq.descWrb with
      | none => exact neutral_nil _
      | some ring =>
          dsimp only
          cases stC2hUdd al ring p with
          | none => exact neutral_nil _
          | some r =>
              refine neutral_fst_ite (neutral_nil _) (neutral_fst_ite (neutral_nil _) ?_)
              refine neutral_fst_ite (rxDataOps_neutral _ _ _ _) ?_
              exact (rxDataOps_neutral _ _ _ _).append (ih _)

theorem stC2hWbOps_neutral (al : RxAllocs) (q : ℕ) (x : Xfer) :
    Neutral QdmaLock.Inner (stC2hWbOps al q x).1 := by
  unfold stC2hWbOps
  cases x.descq.descWrb with
  | none => exact neutral_nil _
  | some ring =>
      dsimp only
      have hentries := stC2hEntriesOps_neutral al q
      refine neutral_fst_ite (hentries _ _) (neutral_fst_ite (hentries _ _) ?_)
      exact (hentries _ _).append (neutral_pair trivial)

/-! ## Whole calls -/

theorem kept_ret_iff (ops : List (LockOp QdmaLock)) : (LockPath.ret ops).Kept ↔ Lib.Balanced ops := by
  unfold LockPath.Kept LockPath.ret Lib.Balanced
  constructor
  · rintro ⟨held, hheld, hret⟩
    rw [hheld, hret rfl]
  · exact fun h => ⟨[], h, fun _ => rfl⟩

theorem kept_after_iff {ops : List (LockOp QdmaLock)} (h : Neutral AnyLock ops) (p : LockPath) :
    (LockPath.after ops p).Kept ↔ p.Kept := by
  unfold LockPath.Kept LockPath.after
  dsimp only
  rw [holds_append, h.balanced]
  rfl

theorem kept_of_neutral {ops : List (LockOp QdmaLock)} (h : Neutral AnyLock ops) :
    (LockPath.ret ops).Kept := (kept_ret_iff ops).mpr h.balanced

theorem queueAdd_kept_iff (b : QdmaBuild) (env : PrepEnv) (qhndl : Bool) (dev : XlnxDmaDev)
    (qconf : QdmaQueueConf) :
    (LockPath.ret (queueAddOps b env qhndl dev qconf)).Kept ↔ env.rv < 0 ∨ qhndl = true := by
  rw [kept_ret_iff]
  unfold queueAddOps
  dsimp only
  rw [(prepQResourceOps_neutral b env).balanced.append_iff]
  by_cases hrv : env.rv < 0
  · rw [if_pos hrv]
    exact iff_of_true (neutral_nil AnyLock).balanced (Or.inl hrv)
  rw [if_neg hrv]
  cases qhndl with
  | false =>
      -- the lock was given back by the preparation
      rw [if_pos (by decide)]
      exact iff_of_false (not_balanced_release _) (by simp [hrv])
  | true =>
      rw [if_neg (by decide)]
      refine iff_of_true (Neutral.balanced (A := AnyLock) ?_) (Or.inr rfl)
      refine (neutral_lock _).ite ((neutral_lock _).ite ?_)
      refine ((neutral_lock _).append ?_).append ?_
      · exact (findFreeOps_neutral _ _ _ _).ite (neutral_lock _)
      · split
        · exact neutral_lock _
        · exact neutral_nil _

theorem queueConfig_kept (dev : XlnxDmaDev) (qid : ℕ) :
    (LockPath.ret (queueConfigOps dev qid)).Kept := by
  refine kept_of_neutral ?_
  unfold queueConfigOps
  split
  · exact neutral_nil _
  · exact (neutral_lock _).append ((neutral_nil _).ite (neutral_lock _))

theorem queueStart_kept (b : QdmaBuild) (sends : ℕ → Bool) (env : StartEnv) (dev : XlnxDmaDev)
    (id : ℕ) : (LockPath.ret (queueStartOps b sends env dev id)).Kept := by
  refine kept_of_neutral ((getDescqOps_neutral dev id).append ?_)
  split
  · exact neutral_nil _
  · dsimp only
    refine (neutral_lock _).ite (Neutral.ite ?_ (Neutral.ite ?_ ?_))
    · exact neutral_descq ((freeResourceOps_neutral _ _).append
        ((ctxtOps_neutral _ _).append (freeResourceOps_neutral _ _))) _
    · exact neutral_descq ((descIrqOps_neutral _).append ((ctxtOps_neutral _ _).append
        ((ctxtOps_neutral _ _).append (freeResourceOps_neutral _ _)))) _
    · exact (neutral_descq ((descIrqOps_neutral _).append (ctxtOps_neutral _ _)) _).append
        ((Inner.neutral_any (descIrqOps_neutral _)).append (neutral_lock _))

theorem queueStop_kept (b : QdmaBuild) (sendOk : Bool) (dev : XlnxDmaDev) (id : ℕ) :
    (LockPath.ret (queueStopOps b sendOk dev id)).Kept := by
  refine kept_of_neutral ((getDescqOps_neutral dev id).append ?_)
  split
  · exact neutral_nil _
  · refine (neutral_lock _).append (((neutral_nil _).ite (neutral_lock _)).append ?_)
    exact (Inner.neutral_any (ctxtOps_neutral _ _)).append
      ((Inner.neutral_any (freeResourceOps_neutral _ _)).append (neutral_lock _))

theorem queueRemove_kept (b : QdmaBuild) (sendOk inited : Bool) (dev : XlnxDmaDev) (id : ℕ) :
    (LockPath.ret (queueRemoveOps b sendOk inited dev id)).Kept := by
  refine kept_of_neutral ((getDescqOps_neutral dev id).append ?_)
  split
  · exact neutral_nil _
  · refine (neutral_lock _).append (Neutral.append ?_ ((neutral_lock _).append (neutral_lock _)))
    exact neutral_descq (((ctxtOps_neutral _ _).ite (neutral_nil _)).append
      ((descIrqOps_neutral _).append (freeResourceOps_neutral _ _))) _

/-- A handler that does not return holds the queue's lock for good. -/
theorem serviceWb_kept (al : RxAllocs) (q : ℕ) (x : Xfer) : (serviceWbPath al q x).Kept := by
  have hinner : Neutral QdmaLock.Inner
      (if x.descq.isStC2h then stC2hWbOps al q x else ([], mmNH2cWbEnd x)).1 := by
    split
    · exact stC2hWbOps_neutral al q x
    · exact neutral_nil _
  unfold serviceWbPath
  dsimp only
  generalize (if x.descq.isStC2h then stC2hWbOps al q x else ([], mmNH2cWbEnd x)) = r at hinner ⊢
  by_cases hstop : r.2 = .stopped
  · rw [if_pos hstop]
    refine ⟨[.descq q], hinner [.descq q] fun l hl => ?_, fun h => absurd h Bool.false_ne_true⟩
    rw [List.mem_singleton] at hl
    subst hl
    exact id
  · rw [if_neg hstop]
    exact kept_of_neutral (neutral_descq hinner q)

/-- The read that returns at once does not unlock; one that reads through `NULL` does not
return. -/
theorem rxqRead_kept_iff (env : SubmitEnv) (d : QdmaDescq) (q : ℕ) :
    (rxqReadPath env d q).Kept ↔
      env.rxqRead.rx ≠ [] ∨ env.rxqRead.udd ≠ [] ∨ d.stC2hWrbUddEn = false := by
  have hheld : holds [] [LockOp.acquire (QdmaLock.rxq q)] = some [.rxq q] := by simp [holds]
  unfold rxqReadPath LockPath.Kept
  dsimp only
  by_cases hempty : env.rxqRead.rx = [] ∧ env.rxqRead.udd = [] ∧ d.stC2hWrbUddEn = true
  · obtain ⟨hrx, hudd, hen⟩ := hempty
    have hread : (qdmaDescqRxqRead listOps env.page d.stC2hWrbUddEn env.lens env.rxqRead).locked =
          true ∧
        (qdmaDescqRxqRead listOps env.page d.stC2hWrbUddEn env.lens env.rxqRead).oops = false := by
      unfold qdmaDescqRxqRead listOps rxqDequeueHead uddDequeueHead
      simp [hrx, hudd, hen]
    rw [hread.1, hread.2, if_pos rfl, hheld]
    refine iff_of_false ?_ (by simp [hrx, hudd, hen])
    rintro ⟨held, heq, hret⟩
    rw [hret rfl] at heq
    cases heq
  · have hclean : env.rxqRead.rx ≠ [] ∨ env.rxqRead.udd ≠ [] ∨ d.stC2hWrbUddEn = false := by
      by_contra hnot
      push Not at hnot
      exact hempty ⟨hnot.1, hnot.2.1, by simpa using hnot.2.2⟩
    refine iff_of_true ?_ hclean
    obtain ⟨hrx, hudd, hen, -⟩ | ⟨s, -, ⟨-, heq⟩ | ⟨-, heq⟩⟩ :=
      read_cases env.page d.stC2hWrbUddEn env.lens env.rxqRead
    · exact absurd ⟨hrx, hudd, hen⟩ hempty
    · rw [heq]
      exact ⟨_, hheld, fun h => absurd h Bool.false_ne_true⟩
    · rw [heq]
      exact ⟨[], by simp [holds], fun _ => rfl⟩

theorem kept_ret_nil : (LockPath.ret []).Kept := kept_of_neutral (neutral_nil _)

theorem submitStC2h_kept_iff (b : QdmaBuild) (env : SubmitEnv) (d : QdmaDescq) (q : ℕ) :
    (submitStC2hPath b env d q).Kept ↔
      (env.count ≤ d.rxQueue.dlen ∨ d.online = true ∧ env.noWait = false →
        env.rxqRead.rx ≠ [] ∨ env.rxqRead.udd ≠ [] ∨ d.stC2hWrbUddEn = false) := by
  unfold submitStC2hPath
  rw [kept_after_iff (neutral_lock _)]
  by_cases hnow : env.count ≤ d.rxQueue.dlen
  · rw [if_pos hnow, rxqRead_kept_iff]
    simp [hnow]
  rw [if_neg hnow, kept_after_iff (neutral_lock _)]
  cases hon : d.online with
  | false =>
      rw [if_pos (by decide)]
      exact iff_of_true kept_ret_nil (by simp [hnow])
  | true =>
      rw [if_neg (by decide)]
      cases hwait : env.noWait with
      | true =>
          rw [if_pos rfl]
          exact iff_of_true kept_ret_nil (by simp [hnow])
      | false =>
          rw [if_neg (by decide), kept_after_iff, rxqRead_kept_iff]
          · simp
          · exact (neutral_nil _).ite
              ((Inner.neutral_any (ctxtOps_neutral _ _)).append (neutral_lock _))

theorem sgReqSubmit_kept_iff (b : QdmaBuild) (env : SubmitEnv) (dev : XlnxDmaDev) (id : ℕ) :
    (submitPath b env dev id).Kept ↔
      ∀ q, dev.getDescqById id true = some q → env.Reads (dev.descq q) →
        env.rxqRead.rx ≠ [] ∨ env.rxqRead.udd ≠ [] ∨ (dev.descq q).stC2hWrbUddEn = false := by
  unfold submitPath
  rw [kept_after_iff (getDescqOps_neutral dev id)]
  cases hget : dev.getDescqById id true with
  | none => exact iff_of_true kept_ret_nil (by simp)
  | some q =>
      dsimp only
      simp only [Option.some.injEq, forall_eq']
      unfold SubmitEnv.Reads
      cases hway : env.wrongWay (dev.descq q) with
      | true =>
          rw [if_pos rfl]
          exact iff_of_true kept_ret_nil (by simp)
      | false =>
          rw [if_neg (by decide)]
          cases hst : (dev.descq q).isStC2h with
          | true =>
              rw [if_pos rfl, submitStC2h_kept_iff]
              simp
          | false =>
              rw [if_neg (by decide)]
              refine iff_of_true ?_ (by simp)
              split
              · exact kept_ret_nil
              · rw [kept_after_iff (neutral_lock _)]
                split
                · exact kept_ret_nil
                · split
                  · exact ⟨[], rfl, fun h => absurd h Bool.false_ne_true⟩
                  · split
                    · exact kept_ret_nil
                    · exact kept_of_neutral (neutral_lock _)

/-- The loop of `irq_top` gives up at the first entry of the right colour that names no
queue. -/
theorem irqLoop_found_iff (ring : ℕ → QdmaIntrRing) (color : Bool) (lookup : ℕ → Option ℕ) :
    ∀ n counter, (irqLoop ring color lookup n counter).found = true ↔
      ∀ j, j < n → (∀ k, k ≤ j → (ring (counter + k)).coalColor = color) →
        lookup (ring (counter + j)).qid ≠ none := by
  intro n
  induction n with
  | zero =>
      intro counter
      simp [irqLoop]
  | succ n ih =>
      intro counter
      unfold irqLoop
      by_cases hcolor : (ring counter).coalColor = color
      · rw [if_neg (not_not.mpr hcolor)]
        cases hlook : lookup (ring counter).qid with
        | none =>
            refine iff_of_false Bool.false_ne_true fun hall => ?_
            refine hall 0 (Nat.succ_pos n) (fun k hk => ?_) hlook
            rw [Nat.le_zero.mp hk]
            exact hcolor
        | some descq =>
            dsimp only
            rw [ih (counter + 1)]
            constructor
            · rintro hall (_ | j) hj hk
              · rw [Nat.add_zero, hlook]
                exact Option.some_ne_none _
              · have hnext := hall j (by omega) fun k hkj => by
                  have := hk (k + 1) (by omega)
                  rwa [show counter + (k + 1) = counter + 1 + k by omega] at this
                rwa [show counter + (j + 1) = counter + 1 + j by omega]
            · intro hall j hj hk
              have hnext := hall (j + 1) (by omega) fun k hkj => by
                cases k with
                | zero => exact hcolor
                | succ k =>
                    rw [show counter + (k + 1) = counter + 1 + k by omega]
                    exact hk k (by omega)
              rwa [show counter + (j + 1) = counter + 1 + j by omega] at hnext
      · rw [if_pos hcolor]
        refine iff_of_true rfl fun j _ hk => absurd (hk 0 (Nat.zero_le j)) ?_
        exact hcolor

theorem irqTop_fails_iff {s : IntrState} {irq i : ℕ} (hfind : s.msix.findIdx? (· = irq) = some i) :
    (irqTop s irq).1 < 0 ↔ ¬ s.Known irq := by
  have hhandled : ¬ irqHandled < 0 := by decide
  have hinval : -einval < 0 := by decide
  unfold irqTop IntrState.Known
  rw [hfind]
  dsimp only
  by_cases hen : s.dev.intrCoalEn = true
  · rw [if_pos hen]
    cases hcoal : s.dev.intrCoalList[i]? with
    | none =>
        refine iff_of_false hhandled (not_not.mpr ?_)
        rintro _ coal ⟨⟩ _ hsome
        rw [hcoal] at hsome
        cases hsome
    | some coal =>
        dsimp only
        by_cases hvec : irq = coal.vecId
        · rw [if_pos hvec]
          have hfound := irqLoop_found_iff (s.ring i) coal.color (s.dev.getDescqById · false)
            (u32Sub coal.intrRingSize coal.pidx - coal.pidx) coal.pidx
          generalize irqLoop (s.ring i) coal.color (s.dev.getDescqById · false)
            (u32Sub coal.intrRingSize coal.pidx - coal.pidx) coal.pidx = r at hfound ⊢
          have hknown : r.found = true ↔ _ := hfound
          by_cases hr : r.found = true
          · rw [if_pos hr]
            refine iff_of_false hhandled (not_not.mpr ?_)
            rintro _ coal' ⟨⟩ _ hsome _
            rw [hcoal] at hsome
            cases hsome
            exact hknown.mp hr
          · rw [if_neg hr]
            refine iff_of_true hinval fun hall => hr ?_
            exact hknown.mpr (hall i coal rfl hen hcoal hvec)
        · rw [if_neg hvec]
          refine iff_of_false hhandled (not_not.mpr ?_)
          rintro _ coal' ⟨⟩ _ hsome hvec'
          rw [hcoal] at hsome
          cases hsome
          exact absurd hvec' hvec
  · rw [if_neg hen]
    refine iff_of_false hhandled (not_not.mpr ?_)
    rintro _ coal ⟨⟩ hen'
    exact absurd hen' hen

theorem irqTop_kept_iff (s : IntrState) (irq : ℕ) :
    (LockPath.ret (irqTopOps s irq)).Kept ↔ s.Known irq := by
  rw [kept_ret_iff]
  unfold irqTopOps
  cases hfind : s.msix.findIdx? (· = irq) with
  | none =>
      refine iff_of_true (neutral_nil AnyLock).balanced ?_
      intro i coal hi
      rw [hfind] at hi
      cases hi
  | some i =>
      dsimp only
      have hfails := irqTop_fails_iff hfind
      by_cases hneg : (irqTop s irq).1 < 0
      · rw [if_pos hneg]
        exact iff_of_false (not_balanced_acquire _) (hfails.mp hneg)
      · rw [if_neg hneg]
        exact iff_of_true (neutral_lock .xdev).balanced (not_not.mp (mt hfails.mpr hneg))

/-- **When a call keeps its locks.** -/
theorem locks_kept_iff (c : LockCall) : c.path.Kept ↔ c.Clean := by
  cases c with
  | queueAdd b env qhndl dev qconf => exact queueAdd_kept_iff b env qhndl dev qconf
  | queueConfig dev qid => exact iff_of_true (queueConfig_kept dev qid) trivial
  | queueStart b sends env dev id => exact iff_of_true (queueStart_kept b sends env dev id) trivial
  | queueStop b sendOk dev id => exact iff_of_true (queueStop_kept b sendOk dev id) trivial
  | queueRemove b sendOk inited dev id =>
      exact iff_of_true (queueRemove_kept b sendOk inited dev id) trivial
  | sgReqSubmit b env dev id => exact sgReqSubmit_kept_iff b env dev id
  | serviceWb al q x => exact iff_of_true (serviceWb_kept al q x) trivial
  | irqTop s irq => exact irqTop_kept_iff s irq
  | mboxSendMsg sendOk waitResp =>
      exact iff_of_true (kept_of_neutral (Inner.neutral_any (mboxSendOps_neutral _ _))) trivial

/-- A queue is added without a place for its handle: the lock of the device is released
a second time. -/
theorem lock_released_twice : ¬ ∀ c : LockCall, c.path.Kept := by
  intro hall
  have hkept := hall (.queueAdd .pf { initQrange := true, sends := [], rv := 0 } false polledDev
    mmH2cConf)
  rw [LockCall.path, kept_ret_iff] at hkept
  revert hkept
  decide +kernel

end Qdma

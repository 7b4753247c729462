import Qdma.DumpText
import Qdma.Enabled
import Qdma.Restart
import Qdma.Xpdev

/-!
# Queue commands over netlink

A queue command carries an index of 32 bits and flags.  `qconf_get` stores the index in an
`unsigned short` before anything looks at it; what is left is checked by `xpdev_queue_get`
against the `qmax` of the table, and by `qdma_queue_add` against the `qmax` of the device below.

* `xnlQAdd` … `xnlQDumpWrb` are the handlers; all but two are `xnlQCall` with a call below.
* `IndexRight` says that a command acts on the queue it names and on no other, or that it
  fails and leaves all as it was where there is no such queue.
* The first addition that gets a range of hardware queues sets the device up for all queues,
  whichever it names; `SetsUpMore` says when that shows elsewhere.
* `TableInv` is what the commands keep: the two limits are one, the handle in a slot is that
  of its own queue, and without a range nothing has happened yet.  With it an index that is not
  cut acts as it should, and one that is cut does so exactly where what is left of it is refused
  (`queue_index_right_iff`).
-/

namespace Qdma

open Lib

/-! ## The handlers -/

def xnlQidxInvalid : ℕ := 0xFFFF

def xnlFQmodeSt : BitVec 32 := 0x1
def xnlFQmodeMm : BitVec 32 := 0x2
def xnlFQdirH2c : BitVec 32 := 0x4
def xnlFQdirC2h : BitVec 32 := 0x8

def hasFlag (f k : BitVec 32) : Bool := decide (f &&& k ≠ 0)

/-- `qconf->qidx = nla_get_u32(…)` and what follows. -/
def qconfQidx (v : BitVec 32) : ℕ :=
  let qidx := u16 v.toNat
  if qidx = xnlQidxInvalid then qdmaQueueIdxInvalid else qidx

/-- `qconf_get`; `none` is `-EINVAL`. -/
def qconfGet (f v : BitVec 32) : Option QdmaQueueConf :=
  if hasFlag f xnlFQmodeSt && hasFlag f xnlFQmodeMm then none
  else if hasFlag f xnlFQdirH2c && hasFlag f xnlFQdirC2h then none
  else some
    { qidx := qconfQidx v
      st := hasFlag f xnlFQmodeSt
      c2h := hasFlag f xnlFQdirC2h
      stC2hWrbDescSize := 0
      rngsz := 0 }

/-- What becomes of the requests of one command: those of the calls below, the allocation of
the buffer for a dump, the read of the contexts with the text made of it, and the answer. -/
structure NlEnv where
  add : QueueAddFates
  start : StartEnv
  clear : ℕ → CmdFate
  dump : DumpEnv
  mem : Bool
  ctxtRv : ℤ
  ctxtText : List Char
  respond : ℤ

/-- What a handler returns, the device, and what it shows of a queue. -/
structure NlRes where
  rv : ℤ
  x : XlnxPciDev
  parts : List DumpPart

def XlnxPciDev.setDev (x : XlnxPciDev) (dev : XlnxDmaDev) : XlnxPciDev :=
  { x with prep := { x.prep with dev := dev } }

/-- A call below, by handle: the value, the device and what was written to the buffer. -/
abbrev QCall := XlnxDmaDev → ℕ → ℤ × XlnxDmaDev × List DumpPart

/-- A handler behind `xnl_rcv_check_xpdev`: the configuration, the slot, the call with the
handle in the slot, and the answer. -/
def xnlQCall (call : QCall) (env : NlEnv) (x : XlnxPciDev) (f v : BitVec 32) : NlRes :=
  match qconfGet f v with
  | none => { rv := -einval, x := x, parts := [] }
  | some qconf =>
      -- `xnl_rcv_check_qidx`
      match xpdevQueueGet x qconf.qidx qconf.c2h true with
      | none => { rv := -einval, x := x, parts := [] }
      | some i =>
          let r := call x.prep.dev (x.qdata i).qhndl
          if r.1 < 0 then { rv := r.1, x := x.setDev r.2.1, parts := [] }
          else { rv := env.respond, x := x.setDev r.2.1, parts := r.2.2 }

def startCall (env : NlEnv) : QCall := fun dev id =>
  let r := qdmaQueueStart env.start dev id
  (r.1, r.2, [])

def stopCall (env : NlEnv) : QCall := fun dev id =>
  let r := qdmaQueueStop env.clear dev id
  (r.1, r.2, [])

/-- The dumps need a buffer. -/
def dumpQCall (env : NlEnv) (rv : XlnxDmaDev → ℕ → ℤ) (cmd : ℕ → DumpCmd) : QCall := fun dev id =>
  if !env.mem then (-enomem, dev, [])
  else
    let r := dumpCall env.dump xnlRespBuflenMax dev (cmd id)
    (rv dev id, r.dev, r.parts)

/-- The value of `qdma_queue_dump`. -/
def queueDumpRv (env : NlEnv) (dev : XlnxDmaDev) (id : ℕ) : ℤ :=
  match dev.getDescqById id false with
  | none => -einval
  | some _ => if env.ctxtRv < 0 then env.ctxtRv else 0

/-- Whether `qdma_queue_dump_desc` and `qdma_queue_dump_wrb` fail; else they return a length. -/
def ringDumpRv (dev : XlnxDmaDev) (id : ℕ) : ℤ :=
  match dev.getDescqById id true with
  | none => -einval
  | some _ => 0

def xnlQStart (env : NlEnv) := xnlQCall (startCall env) env

def xnlQStop (env : NlEnv) := xnlQCall (stopCall env) env

def xnlQDump (env : NlEnv) :=
  xnlQCall (dumpQCall env (queueDumpRv env) fun id => .dump id env.ctxtRv env.ctxtText) env

def xnlQDumpDesc (env : NlEnv) (v1 v2 : BitVec 32) :=
  xnlQCall (dumpQCall env ringDumpRv fun id => .desc id v1 v2) env

def xnlQDumpWrb (env : NlEnv) (v1 v2 : BitVec 32) :=
  xnlQCall (dumpQCall env ringDumpRv fun id => .wrb id v1 v2) env

/-- `qdma_cdev_destroy`. -/
def qdmaCdevDestroy (xcdev : Option ℕ) (cdevs : List QdmaCdev) : List QdmaCdev :=
  match xcdev with
  | none => cdevs
  | some addr => cdevs.filter fun c => c.addr ≠ addr

/-- `xpdev_queue_delete`. -/
def xpdevQueueDelete (clear : ℕ → CmdFate) (x : XlnxPciDev) (qidx : ℕ) (c2h : Bool) :
    ℤ × XlnxPciDev :=
  match xpdevQueueGet x qidx c2h true with
  | none => (-einval, x)
  | some i =>
      let r :=
        if (x.qdata i).qhndl ≠ qdmaQueueIdxInvalid then
          qdmaQueueRemove clear x.prep.dev (x.qdata i).qhndl
        else (0, x.prep.dev)
      (r.1,
        { x.setDev r.2 with
          qdata := Function.update x.qdata i { qhndl := 0, xcdev := none }
          cdevs := qdmaCdevDestroy (x.qdata i).xcdev x.cdevs })

def xnlQDel (env : NlEnv) (x : XlnxPciDev) (f v : BitVec 32) : NlRes :=
  match qconfGet f v with
  | none => { rv := -einval, x := x, parts := [] }
  | some qconf =>
      let r := xpdevQueueDelete env.clear x qconf.qidx qconf.c2h
      { rv := if r.1 < 0 then r.1 else env.respond, x := r.2, parts := [] }

/-- `xnl_q_add`; the entry size is read for a streaming C2H queue only. -/
def xnlQAdd (env : NlEnv) (size : BitVec 8) (x : XlnxPciDev) (f v : BitVec 32) : NlRes :=
  match qconfGet f v with
  | none => { rv := -einval, x := x, parts := [] }
  | some qconf =>
      let qconf :=
        if qconf.c2h && qconf.st then { qconf with stC2hWrbDescSize := size.toNat } else qconf
      let r := xpdevQueueAdd env.add x qconf
      { rv := if r.1 < 0 then r.1 else env.respond, x := r.2, parts := [] }

/-- The queue commands. -/
inductive NlCmd where
  | add (size : BitVec 8)
  | start
  | stop
  | del
  | dump
  | desc (v1 v2 : BitVec 32)
  | wrb (v1 v2 : BitVec 32)

/-- A command with its attributes, and what the outside does to it. -/
structure NlReq where
  env : NlEnv
  cmd : NlCmd
  flags : BitVec 32
  qidx : BitVec 32

def NlCmd.handler (env : NlEnv) : NlCmd → XlnxPciDev → BitVec 32 → BitVec 32 → NlRes
  | .add size => xnlQAdd env size
  | .start => xnlQStart env
  | .stop => xnlQStop env
  | .del => xnlQDel env
  | .dump => xnlQDump env
  | .desc v1 v2 => xnlQDumpDesc env v1 v2
  | .wrb v1 v2 => xnlQDumpWrb env v1 v2

def NlReq.res (r : NlReq) (x : XlnxPciDev) : NlRes := r.cmd.handler r.env x r.flags r.qidx

/-- Any commands in any order. -/
def nlSys : System XlnxPciDev NlReq where
  step x r := (r.res x).x
  guard _ _ := True

/-! ## The property -/

/-- Every queue but `i` is as before, and so is its slot. -/
def KeptBut (x y : XlnxPciDev) (i : ℕ) : Prop :=
  ∀ q, q ≠ i → y.prep.dev.descq q = x.prep.dev.descq q ∧ y.qdata q = x.qdata q

/-- The command has done to queue `q` what it is for. -/
def NlReq.Done (r : NlReq) (x y : XlnxPciDev) (parts : List DumpPart) (q : ℕ) : Prop :=
  match r.cmd with
  | .add _ => (x.prep.dev.descq q).enabled = false ∧ (y.prep.dev.descq q).enabled = true
  | .start => (x.prep.dev.descq q).online = false ∧ (y.prep.dev.descq q).online = true
  | .stop => (y.prep.dev.descq q).online = false
  | .del => (x.prep.dev.descq q).enabled = true ∧ (y.prep.dev.descq q).enabled = false
  | .dump => parts = (dumpCall r.env.dump xnlRespBuflenMax x.prep.dev
      (.dump q r.env.ctxtRv r.env.ctxtText)).parts
  | .desc v1 v2 =>
      parts = (dumpCall r.env.dump xnlRespBuflenMax x.prep.dev (.desc q v1 v2)).parts
  | .wrb v1 v2 =>
      parts = (dumpCall r.env.dump xnlRespBuflenMax x.prep.dev (.wrb q v1 v2)).parts

/-- The direction that is asked for. -/
def NlReq.c2h (r : NlReq) : Bool := hasFlag r.flags xnlFQdirC2h

/-- Index `i`, sent to `x`, acts on queue `i` or is refused. -/
structure ActsOn (r : NlReq) (x : XlnxPciDev) (i : ℕ) : Prop where
  refused : x.qmax ≤ i → (r.res x).rv < 0 ∧ (r.res x).parts = [] ∧ (r.res x).x = x
  only : i < x.qmax → KeptBut x (r.res x).x (x.prep.dev.handle r.c2h i)
  acts : i < x.qmax → 0 ≤ (r.res x).rv →
    r.Done x (r.res x).x (r.res x).parts (x.prep.dev.handle r.c2h i)

/-- The command acts on the queue it names or is refused. -/
def IndexRight (r : NlReq) (x : XlnxPciDev) : Prop := ActsOn r x r.qidx.toNat

/-- The range of hardware queues is not there yet and can be had. -/
def PrepFates.SetsRange (f : PrepFates) (s : PrepDev) : Prop :=
  s.initQrange = false ∧ (s.vf = true → 0 ≤ f.rangeRv)

/-- The command sets the device up and either names no queue, so that it is refused afterwards,
or is for a virtual function whose queues do not start at 0: all of them are moved. -/
def NlReq.SetsUpMore (r : NlReq) (x : XlnxPciDev) : Prop :=
  (∃ size, r.cmd = .add size) ∧ (qconfGet r.flags r.qidx).isSome = true ∧
    r.env.add.prep.SetsRange x.prep ∧
    ((x.qmax ≤ qconfQidx r.qidx ∧ qconfQidx r.qidx ≠ qdmaQueueIdxInvalid) ∨
      (x.prep.vf = true ∧ u16 r.env.add.prep.rangeQbase ≠ 0))

/-- A device as `probe_one` leaves it.  The limit is 32 for a physical and 8 for a virtual
function, so that no handle is the invalid one. -/
structure Probed (x : XlnxPciDev) : Prop where
  dev : DeviceInit x.prep.dev
  prep : PrepInit x.prep
  qmax : x.qmax = x.prep.dev.qmax
  pos : 0 < x.qmax
  room : 2 * x.qmax ≤ qdmaQueueIdxInvalid
  qdata : ∀ i, x.qdata i = { qhndl := 0, xcdev := none }

/-- What every command keeps. -/
structure TableInv (x : XlnxPciDev) : Prop where
  qmax : x.qmax = x.prep.dev.qmax
  room : 2 * x.qmax ≤ qdmaQueueIdxInvalid
  qidx : ∀ c2h, ∀ i < x.qmax, (x.prep.dev.descq (x.prep.dev.handle c2h i)).conf.qidx = i
  slot : ∀ c2h, ∀ i < x.qmax,
    x.qdata (x.prep.dev.handle c2h i) = { qhndl := 0, xcdev := none } ∨
      (x.qdata (x.prep.dev.handle c2h i)).qhndl = x.prep.dev.handle c2h i
  fresh : x.prep.initQrange = false → Probed x

/-! ## The calls below -/

/-- The hardware index a queue is given with the range. -/
def PrepFates.rangeQidxHw (f : PrepFates) (s : PrepDev) (q : ℕ) : ℕ :=
  if s.vf = true ∧ q < 2 * s.dev.qmax then u32 ((s.dev.descq q).qidxHw + u16 f.rangeQbase)
  else (s.dev.descq q).qidxHw

/-- The range is set with the hardware indexes, or nothing is done. -/
theorem deviceSetQrange_cases (f : PrepFates) {s : PrepDev} (hrange : s.initQrange = false) :
    (f.SetsRange s ∧ (deviceSetQrange f s).1 = 0 ∧ (deviceSetQrange f s).2.initQrange = true ∧
        ∀ q, (deviceSetQrange f s).2.dev.descq q =
          { s.dev.descq q with qidxHw := f.rangeQidxHw s q }) ∨
      (¬ f.SetsRange s ∧ (deviceSetQrange f s).1 < 0 ∧ (deviceSetQrange f s).2 = s) := by
  unfold deviceSetQrange XlnxDmaDev.grantRange PrepFates.SetsRange PrepFates.rangeQidxHw
  cases hvf : s.vf with
  | true =>
      rw [if_pos rfl]
      by_cases hrv : f.rangeRv < 0
      · rw [if_pos hrv]
        exact Or.inr ⟨fun h => absurd (h.2 rfl) (Int.not_le.mpr hrv), hrv, rfl⟩
      · rw [if_neg hrv]
        refine Or.inl ⟨⟨hrange, fun _ => Int.not_lt.mp hrv⟩, rfl, rfl, fun q => ?_⟩
        dsimp only
        by_cases hq : q < 2 * s.dev.qmax
        · rw [if_pos hq, if_pos ⟨rfl, hq⟩]
        · rw [if_neg hq, if_neg fun h => hq h.2]
  | false =>
      rw [if_neg Bool.false_ne_true]
      refine Or.inl ⟨⟨hrange, fun h => absurd h Bool.false_ne_true⟩, rfl, rfl, fun q => ?_⟩
      rw [if_neg fun h => absurd h.1 Bool.false_ne_true]

theorem ringSetup_kept (f : PrepFates) (s : PrepDev) (ringSize : ℕ) :
    (s.intrRingSetup f ringSize).2.dev.descq = s.dev.descq ∧
      (s.intrRingSetup f ringSize).2.initQrange = s.initQrange := by
  rcases intrRingSetup_spec f s ringSize with
    ⟨-, heq⟩ | ⟨-, -, list, bus, -, -, -, heq⟩ | ⟨-, -, heq⟩
  · rw [heq]
    exact ⟨rfl, rfl⟩
  · rw [heq]
    exact ⟨rfl, rfl⟩
  · rw [heq]
    exact ⟨rfl, rfl⟩

/-- Preparing the resources gives the queues their hardware indexes and nothing else. -/
theorem prep_sets {f : PrepFates} {s : PrepDev} (h : f.SetsRange s) :
    (qdmaDevicePrepQResource f s).2.initQrange = true ∧
      ∀ q, (qdmaDevicePrepQResource f s).2.dev.descq q =
        { s.dev.descq q with qidxHw := f.rangeQidxHw s q } := by
  unfold qdmaDevicePrepQResource
  rw [if_neg (by rw [h.1]; exact Bool.false_ne_true)]
  rcases deviceSetQrange_cases f h.1 with ⟨-, hrv, hrange, hdescq⟩ | ⟨hno, -, -⟩
  · have hzero : ¬ (deviceSetQrange f s).1 < 0 := by
      rw [hrv]
      exact lt_irrefl 0
    rw [if_neg hzero]
    generalize (deviceSetQrange f s).2 = t at hrange hdescq ⊢
    obtain ⟨hringq, hringr⟩ := ringSetup_kept f t xdevIntrCoalRingSize
    rw [← hringr] at hrange
    simp only [← hringq] at hdescq
    generalize t.intrRingSetup f xdevIntrCoalRingSize = r at hrange hdescq ⊢
    dsimp only
    split
    · exact ⟨hrange, hdescq⟩
    · split
      · obtain ⟨ctxt, heq⟩ := qdmaIntrContextSetup_eq f r.2
        rw [heq]
        exact ⟨hrange, hdescq⟩
      · exact ⟨hrange, hdescq⟩
  · exact absurd h hno

/-- Without a new range nothing is done. -/
theorem prep_idle {f : PrepFates} {s : PrepDev} (h : ¬ f.SetsRange s) :
    (qdmaDevicePrepQResource f s).2 = s := by
  unfold qdmaDevicePrepQResource
  by_cases hset : s.initQrange = true
  · rw [if_pos hset]
  · rw [if_neg hset]
    rcases deviceSetQrange_cases f (Bool.eq_false_iff.mpr hset) with ⟨hsets, -⟩ | ⟨-, hrv, hsame⟩
    · exact absurd hsets h
    · rw [if_pos hrv]
      exact hsame

/-- A call that works on queue `q`, and leaves it its configuration. -/
structure OneQueue (dev dev' : XlnxDmaDev) (q : ℕ) : Prop where
  qmax : dev'.qmax = dev.qmax
  others : ∀ p, p ≠ q → dev'.descq p = dev.descq p
  conf : (dev'.descq q).conf = (dev.descq q).conf

theorem OneQueue.refl (dev : XlnxDmaDev) (q : ℕ) : OneQueue dev dev q := ⟨rfl, fun _ _ => rfl, rfl⟩

theorem OneQueue.of_update {dev dev' : XlnxDmaDev} {q : ℕ} {d : QdmaDescq}
    (hmax : dev'.qmax = dev.qmax) (h : dev'.descq = Function.update dev.descq q d)
    (hconf : d.conf = (dev.descq q).conf) : OneQueue dev dev' q := by
  refine ⟨hmax, fun p hp => ?_, ?_⟩
  · rw [h, Function.update_of_ne hp]
  · rw [h, Function.update_self]
    exact hconf

theorem oneQueue_start (env : StartEnv) (dev : XlnxDmaDev) (q : ℕ) :
    OneQueue dev (qdmaQueueStart env dev q).2 q := by
  have hrun := startRun env dev q
  generalize (qdmaQueueStart env dev q).1 = rv at hrun
  generalize (qdmaQueueStart env dev q).2 = dev' at hrun ⊢
  cases hrun with
  | rejected rv hrv => exact OneQueue.refl dev q
  | allocFails rv hs hrv => exact OneQueue.of_update rfl rfl rfl
  | progFails rv d idx cnt vec hs hd hneg hrv =>
      exact OneQueue.of_update rfl rfl (handled_allocated hd idx).conf
  | starts d idx cnt vec mmio r hs hd hidx hok hr =>
      obtain ⟨w, b, heq⟩ := threadAddWork_eq (r.setDescq q { r.descq q with online := true }) q
      rw [heq, hr]
      simp only [XlnxDmaDev.setDescq, Function.update_self, Function.update_idem]
      exact OneQueue.of_update rfl rfl (handled_allocated hd idx).conf

theorem oneQueue_stop (f : ℕ → CmdFate) (dev : XlnxDmaDev) (q : ℕ) :
    OneQueue dev (qdmaQueueStop f dev q).2 q :=
  ⟨qdmaQueueStop_qmax f dev q, fun _ hp => qdmaQueueStop_descq_of_ne f hp,
    (handled_stop f dev q q).conf⟩

theorem oneQueue_remove (f : ℕ → CmdFate) (dev : XlnxDmaDev) (q : ℕ) :
    OneQueue dev (qdmaQueueRemove f dev q).2 q := by
  by_cases hq : q < 2 * dev.qmax ∧ (dev.descq q).enabled = true
  · obtain ⟨h, c, cnt, heq⟩ := qdmaQueueRemove_eq f hq.1 hq.2
    rw [heq]
    exact OneQueue.of_update rfl rfl rfl
  · rw [qdmaQueueRemove_rejected f hq]
    exact OneQueue.refl dev q

theorem wrbNext_conf (d : QdmaDescq) : (wrbNext d).conf = d.conf := by
  unfold wrbNext
  split
  · rfl
  · rfl

theorem dumpWrbLoop_conf (ring : WrbRing) (stop : ℤ) (wrb n i : ℕ) (d : QdmaDescq) :
    (dumpWrbLoop ring stop wrb n i d).2.conf = d.conf := by
  induction n generalizing i d with
  | zero => rfl
  | succ n ih =>
      unfold dumpWrbLoop
      split
      · exact (ih (i + 1) (wrbNext d)).trans (wrbNext_conf d)
      · rfl

theorem qdmaDescqDumpWrb_conf (d : QdmaDescq) (start stop : BitVec 32) :
    (qdmaDescqDumpWrb d start stop).2.conf = d.conf := by
  unfold qdmaDescqDumpWrb
  split
  · rfl
  · exact dumpWrbLoop_conf _ _ _ _ _ _

/-- A dump works on the queue with its handle at most. -/
theorem oneQueue_dump {env : DumpEnv} {buflen : ℕ} {dev : XlnxDmaDev} {id : ℕ} {cmd : DumpCmd}
    (hcmd : (∃ rv ctxt, cmd = .dump id rv ctxt) ∨ (∃ v1 v2, cmd = .desc id v1 v2) ∨
      ∃ v1 v2, cmd = .wrb id v1 v2) : OneQueue dev (dumpCall env buflen dev cmd).dev id := by
  rcases hcmd with ⟨rv, ctxt, rfl⟩ | ⟨v1, v2, rfl⟩ | ⟨v1, v2, rfl⟩
  · rw [dumpCall]
    cases dev.getDescqById id false with
    | none => exact OneQueue.refl dev id
    | some q =>
        dsimp only
        split
        · exact OneQueue.refl dev id
        · exact OneQueue.refl dev id
  · rw [dumpCall]
    cases dev.getDescqById id true with
    | none => exact OneQueue.refl dev id
    | some q =>
        dsimp only
        split
        · exact OneQueue.refl dev id
        · exact OneQueue.refl dev id
  · rw [dumpCall]
    cases hget : dev.getDescqById id true with
    | none => exact OneQueue.refl dev id
    | some q =>
        obtain ⟨rfl, -, -⟩ := getDescqById_eq_some hget
        dsimp only
        split
        · exact OneQueue.refl dev q
        · exact OneQueue.of_update rfl rfl (qdmaDescqDumpWrb_conf _ _ _)

/-- A call that works on the queue with its handle at most. -/
def OneCall (call : QCall) : Prop := ∀ dev id, OneQueue dev (call dev id).2.1 id

theorem oneCall_start (env : NlEnv) : OneCall (startCall env) := fun dev id =>
  oneQueue_start env.start dev id

theorem oneCall_stop (env : NlEnv) : OneCall (stopCall env) := fun dev id =>
  oneQueue_stop env.clear dev id

theorem oneCall_dump (env : NlEnv) (rv : XlnxDmaDev → ℕ → ℤ) {cmd : ℕ → DumpCmd}
    (hcmd : ∀ id, (∃ rv ctxt, cmd id = .dump id rv ctxt) ∨ (∃ v1 v2, cmd id = .desc id v1 v2) ∨
      ∃ v1 v2, cmd id = .wrb id v1 v2) : OneCall (dumpQCall env rv cmd) := by
  intro dev id
  unfold dumpQCall
  dsimp only
  split
  · exact OneQueue.refl dev id
  · exact oneQueue_dump (hcmd id)

theorem start_done {env : StartEnv} {dev : XlnxDmaDev} {q : ℕ}
    (h : ¬ (qdmaQueueStart env dev q).1 < 0) :
    (dev.descq q).online = false ∧ ((qdmaQueueStart env dev q).2.descq q).online = true := by
  have hzero : (qdmaQueueStart env dev q).1 = 0 := by
    have hrun := startRun env dev q
    generalize (qdmaQueueStart env dev q).1 = rv at hrun h ⊢
    generalize (qdmaQueueStart env dev q).2 = dev' at hrun
    cases hrun with
    | rejected rv hrv => exact absurd hrv h
    | allocFails rv hs hrv => exact absurd hrv h
    | progFails rv d idx cnt vec hs hd hneg hrv => exact absurd hrv h
    | starts d idx cnt vec mmio r hs hd hidx hok hr => rfl
  obtain ⟨d, idx, w, b, -, hs, hdescq⟩ := start_ok_descq hzero
  rw [hdescq, Function.update_self]
  exact ⟨hs.online, rfl⟩

theorem stop_done {f : ℕ → CmdFate} {dev : XlnxDmaDev} {q : ℕ}
    (h : ¬ (qdmaQueueStop f dev q).1 < 0) : ((qdmaQueueStop f dev q).2.descq q).online = false := by
  have hinval : -einval < 0 := by decide
  have hq : q < 2 * dev.qmax ∧ (dev.descq q).enabled = true := by
    cases hget : dev.getDescqById q true with
    | none =>
        unfold qdmaQueueStop at h
        rw [hget] at h
        exact absurd hinval h
    | some p =>
        obtain ⟨-, hlt, hen⟩ := getDescqById_eq_some hget
        exact ⟨hlt, hen rfl⟩
  rw [qdmaQueueStop_eq f hq.1 hq.2]
  dsimp only
  rw [Function.update_self]
  rfl

theorem remove_done {f : ℕ → CmdFate} {dev : XlnxDmaDev} {q : ℕ}
    (h : ¬ (qdmaQueueRemove f dev q).1 < 0) :
    (dev.descq q).enabled = true ∧ ((qdmaQueueRemove f dev q).2.descq q).enabled = false := by
  by_cases hq : q < 2 * dev.qmax ∧ (dev.descq q).enabled = true
  · obtain ⟨h, c, cnt, heq⟩ := qdmaQueueRemove_eq f hq.1 hq.2
    rw [heq]
    dsimp only
    rw [Function.update_self]
    exact ⟨hq.2, rfl⟩
  · have hinval : -einval < 0 := by decide
    rw [qdmaQueueRemove_rejected_rv f hq] at h
    exact absurd hinval h

/-! ## The table -/

section Table

variable {x : XlnxPciDev}

theorem qconfQidx_eq (v : BitVec 32) : qconfQidx v = v.toNat % 2 ^ 16 := by
  unfold qconfQidx
  dsimp only
  split
  · rename_i h
    exact h.symm
  · rfl

theorem qconfGet_eq_some {f v : BitVec 32} {qconf : QdmaQueueConf} (h : qconfGet f v = some qconf) :
    qconf.qidx = qconfQidx v ∧ qconf.c2h = hasFlag f xnlFQdirC2h := by
  unfold qconfGet at h
  split at h
  · cases h
  · split at h
    · cases h
    · cases h
      exact ⟨rfl, rfl⟩

/-- The slot that is found is that of the queue, and it is filled if that was asked for. -/
theorem xpdevQueueGet_eq_some (hmax : x.qmax = x.prep.dev.qmax) {i k : ℕ} {c2h b : Bool}
    (h : xpdevQueueGet x i c2h b = some k) :
    i < x.qmax ∧ k = x.prep.dev.handle c2h i ∧
      (b = true → x.qdata k ≠ { qhndl := 0, xcdev := none }) := by
  unfold xpdevQueueGet at h
  by_cases hi : x.qmax ≤ i
  · rw [if_pos hi] at h
    cases h
  · rw [if_neg hi] at h
    dsimp only at h
    generalize hk : (if c2h = true then x.qmax + i else i) = k' at h
    split at h
    · cases h
    · rename_i hfull
      cases h
      refine ⟨by omega, ?_, fun hb hzero => hfull ?_⟩
      · rw [← hk, hmax]
        rfl
      · rw [hb, hzero]
        rfl

theorem TableInv.handle_of_slot (h : TableInv x) {i : ℕ} (hi : i < x.qmax) {c2h : Bool}
    (hfull : x.qdata (x.prep.dev.handle c2h i) ≠ { qhndl := 0, xcdev := none }) :
    (x.qdata (x.prep.dev.handle c2h i)).qhndl = x.prep.dev.handle c2h i :=
  (h.slot c2h i hi).resolve_left hfull

/-- What is left to look at when the limits are as before. -/
theorem TableInv.of_same {y : XlnxPciDev} (h : TableInv x) (hmax : y.qmax = x.qmax)
    (hmax' : y.prep.dev.qmax = x.prep.dev.qmax)
    (hqidx : ∀ q, (y.prep.dev.descq q).conf.qidx = (x.prep.dev.descq q).conf.qidx)
    (hslot : ∀ q, y.qdata q = x.qdata q ∨ y.qdata q = { qhndl := 0, xcdev := none } ∨
      (y.qdata q).qhndl = q) (hfresh : y.prep.initQrange = false → Probed y) : TableInv y := by
  have hhandle : ∀ c2h i, y.prep.dev.handle c2h i = x.prep.dev.handle c2h i := fun c2h i => by
    unfold XlnxDmaDev.handle
    rw [hmax']
  refine ⟨by rw [hmax, hmax', h.qmax], by rw [hmax]; exact h.room, fun c2h i hi => ?_,
    fun c2h i hi => ?_, hfresh⟩
  · rw [hmax] at hi
    rw [hhandle, hqidx]
    exact h.qidx c2h i hi
  · rw [hmax] at hi
    rw [hhandle]
    rcases hslot (x.prep.dev.handle c2h i) with heq | hzero | hown
    · rw [heq]
      exact h.slot c2h i hi
    · exact Or.inl hzero
    · exact Or.inr hown

theorem Probed.tableInv (h : Probed x) : TableInv x := by
  refine ⟨h.qmax, h.room, fun c2h i hi => ?_, fun c2h i _ => Or.inl (h.qdata _), fun _ => h⟩
  rw [h.dev.descq]
  change (if x.prep.dev.handle c2h i < x.prep.dev.qmax then x.prep.dev.handle c2h i
    else x.prep.dev.handle c2h i - x.prep.dev.qmax) = i
  rw [h.qmax] at hi
  unfold XlnxDmaDev.handle
  cases c2h with
  | false => exact if_pos hi
  | true =>
      rw [if_pos rfl, if_neg (by omega)]
      exact Nat.add_sub_cancel_left _ _

/-- A slot is filled once a range is set only. -/
theorem TableInv.range_of_slot (h : TableInv x) {k : ℕ}
    (hfull : x.qdata k ≠ { qhndl := 0, xcdev := none }) : x.prep.initQrange = true := by
  by_contra hno
  exact hfull ((h.fresh (Bool.eq_false_iff.mpr hno)).qdata k)

theorem KeptBut.refl (x : XlnxPciDev) (i : ℕ) : KeptBut x x i := fun _ _ => ⟨rfl, rfl⟩

/-- A command that fails and changes nothing is right whatever it names; one that does
something is right for the queue it does it to. -/
theorem ActsOn.of_cases {r : NlReq} {i : ℕ}
    (h : ((r.res x).rv < 0 ∧ (r.res x).parts = [] ∧ (r.res x).x = x) ∨
      (i < x.qmax ∧ KeptBut x (r.res x).x (x.prep.dev.handle r.c2h i) ∧
        (0 ≤ (r.res x).rv →
          r.Done x (r.res x).x (r.res x).parts (x.prep.dev.handle r.c2h i)))) : ActsOn r x i := by
  rcases h with ⟨hrv, hparts, hsame⟩ | ⟨hi, hkept, hdone⟩
  · refine ⟨fun _ => ⟨hrv, hparts, hsame⟩, fun _ => ?_,
      fun _ hpos => absurd hrv (Int.not_lt.mpr hpos)⟩
    rw [hsame]
    exact KeptBut.refl x _
  · exact ⟨fun hno => absurd hi (Nat.not_lt.mpr hno), fun _ => hkept, fun _ => hdone⟩

theorem keptBut_setDev {dev' : XlnxDmaDev} {q : ℕ} (h : OneQueue x.prep.dev dev' q) :
    KeptBut x (x.setDev dev') q := fun p hp => ⟨h.others p hp, rfl⟩

theorem OneQueue.conf_eq {dev dev' : XlnxDmaDev} {q : ℕ} (h : OneQueue dev dev' q) (p : ℕ) :
    (dev'.descq p).conf = (dev.descq p).conf := by
  by_cases hp : p = q
  · rw [hp]
    exact h.conf
  · rw [h.others p hp]

/-- A command that is refused above, or whose call is made with the handle of its queue. -/
theorem xnlQCall_cases (h : TableInv x) (call : QCall) (env : NlEnv) (f v : BitVec 32) :
    (∃ rv < 0, xnlQCall call env x f v = { rv := rv, x := x, parts := [] }) ∨
    (qconfQidx v < x.qmax ∧ x.prep.initQrange = true ∧
      let q := x.prep.dev.handle (hasFlag f xnlFQdirC2h) (qconfQidx v)
      let r := call x.prep.dev q
      xnlQCall call env x f v =
        if r.1 < 0 then { rv := r.1, x := x.setDev r.2.1, parts := [] }
        else { rv := env.respond, x := x.setDev r.2.1, parts := r.2.2 }) := by
  have hinval : -einval < 0 := by decide
  unfold xnlQCall
  cases hconf : qconfGet f v with
  | none => exact Or.inl ⟨_, hinval, rfl⟩
  | some qconf =>
      obtain ⟨hqidx, hc2h⟩ := qconfGet_eq_some hconf
      dsimp only
      rw [hqidx, hc2h]
      cases hget : xpdevQueueGet x (qconfQidx v) (hasFlag f xnlFQdirC2h) true with
      | none => exact Or.inl ⟨_, hinval, rfl⟩
      | some k =>
          obtain ⟨hi, rfl, hfull⟩ := xpdevQueueGet_eq_some h.qmax hget
          refine Or.inr ⟨hi, h.range_of_slot (hfull rfl), ?_⟩
          dsimp only
          rw [h.handle_of_slot hi (hfull rfl)]

theorem tableInv_call (h : TableInv x) {call : QCall} (hcall : OneCall call) (env : NlEnv)
    (f v : BitVec 32) : TableInv (xnlQCall call env x f v).x := by
  rcases xnlQCall_cases h call env f v with ⟨rv, -, heq⟩ | ⟨-, hrange, heq⟩
  · rw [heq]
    exact h
  · have hone := hcall x.prep.dev (x.prep.dev.handle (hasFlag f xnlFQdirC2h) (qconfQidx v))
    have hnext : TableInv (x.setDev (call x.prep.dev
        (x.prep.dev.handle (hasFlag f xnlFQdirC2h) (qconfQidx v))).2.1) :=
      h.of_same rfl hone.qmax (fun p => congrArg QdmaQueueConf.qidx (hone.conf_eq p))
        (fun _ => Or.inl rfl) fun hno => absurd (hrange.symm.trans hno) (by decide)
    rw [heq]
    split
    · exact hnext
    · exact hnext

/-- A handler made of a call acts on the index that is left. -/
theorem actsOn_call (h : TableInv x) {call : QCall} (hcall : OneCall call) {r : NlReq}
    (hres : r.res x = xnlQCall call r.env x r.flags r.qidx)
    (hdone : ∀ q, ¬ (call x.prep.dev q).1 < 0 →
      r.Done x (x.setDev (call x.prep.dev q).2.1) (call x.prep.dev q).2.2 q) :
    ActsOn r x (qconfQidx r.qidx) := by
  refine ActsOn.of_cases ?_
  rw [hres]
  rcases xnlQCall_cases h call r.env r.flags r.qidx with ⟨rv, hrv, heq⟩ | ⟨hi, -, heq⟩
  · rw [heq]
    exact Or.inl ⟨hrv, rfl, rfl⟩
  · have hone := hcall x.prep.dev (x.prep.dev.handle r.c2h (qconfQidx r.qidx))
    refine Or.inr ⟨hi, ?_⟩
    rw [heq]
    by_cases hneg : (call x.prep.dev (x.prep.dev.handle (hasFlag r.flags xnlFQdirC2h)
        (qconfQidx r.qidx))).1 < 0
    · rw [if_pos hneg]
      exact ⟨keptBut_setDev hone, fun hpos => absurd hneg (Int.not_lt.mpr hpos)⟩
    · rw [if_neg hneg]
      exact ⟨keptBut_setDev hone, fun _ => hdone _ hneg⟩

/-! ### Deletion -/

/-- A deletion is refused above, or the queue is removed with its handle and its slot emptied. -/
theorem xpdevQueueDelete_cases (h : TableInv x) (clear : ℕ → CmdFate) (i : ℕ) (c2h : Bool) :
    xpdevQueueDelete clear x i c2h = (-einval, x) ∨
    (i < x.qmax ∧ x.prep.initQrange = true ∧ ∃ cdevs,
      let q := x.prep.dev.handle c2h i
      xpdevQueueDelete clear x i c2h =
        ((qdmaQueueRemove clear x.prep.dev q).1,
          { x.setDev (qdmaQueueRemove clear x.prep.dev q).2 with
            qdata := Function.update x.qdata q { qhndl := 0, xcdev := none }
            cdevs := cdevs })) := by
  unfold xpdevQueueDelete
  cases hget : xpdevQueueGet x i c2h true with
  | none => exact Or.inl rfl
  | some k =>
      obtain ⟨hi, rfl, hfull⟩ := xpdevQueueGet_eq_some h.qmax hget
      have hlt : x.prep.dev.handle c2h i < 2 * x.prep.dev.qmax :=
        x.prep.dev.handle_lt c2h (by rw [← h.qmax]; exact hi)
      have hroom := h.room
      rw [h.qmax] at hroom
      refine Or.inr ⟨hi, h.range_of_slot (hfull rfl),
        qdmaCdevDestroy (x.qdata (x.prep.dev.handle c2h i)).xcdev x.cdevs, ?_⟩
      dsimp only
      rw [h.handle_of_slot hi (hfull rfl), if_pos (by omega)]

theorem actsOn_del (h : TableInv x) {r : NlReq} (hcmd : r.cmd = .del) :
    ActsOn r x (qconfQidx r.qidx) := by
  refine ActsOn.of_cases ?_
  have hinval : -einval < 0 := by decide
  have hres : r.res x = xnlQDel r.env x r.flags r.qidx := by
    unfold NlReq.res
    rw [hcmd]
    rfl
  have hdone : ∀ y parts q, r.Done x y parts q ↔
      (x.prep.dev.descq q).enabled = true ∧ (y.prep.dev.descq q).enabled = false := by
    intro y parts q
    unfold NlReq.Done
    rw [hcmd]
  simp only [hdone]
  rw [hres]
  unfold xnlQDel
  cases hconf : qconfGet r.flags r.qidx with
  | none => exact Or.inl ⟨hinval, rfl, rfl⟩
  | some qconf =>
      obtain ⟨hqidx, hc2h⟩ := qconfGet_eq_some hconf
      have hdir : qconf.c2h = r.c2h := hc2h
      dsimp only
      rw [hqidx, hdir]
      rcases xpdevQueueDelete_cases h r.env.clear (qconfQidx r.qidx) r.c2h with
        heq | ⟨hi, -, cdevs, heq⟩
      · rw [heq]
        exact Or.inl ⟨hinval, rfl, rfl⟩
      · have hone := oneQueue_remove r.env.clear x.prep.dev
          (x.prep.dev.handle r.c2h (qconfQidx r.qidx))
        rw [heq]
        refine Or.inr ⟨hi, fun p hp => ⟨hone.others p hp, ?_⟩, fun hpos => ?_⟩
        · exact Function.update_of_ne hp _ _
        · refine remove_done (f := r.env.clear) fun hneg => ?_
          dsimp only at hpos
          rw [if_pos hneg] at hpos
          exact absurd hneg (Int.not_lt.mpr hpos)

theorem tableInv_del (h : TableInv x) (env : NlEnv) (f v : BitVec 32) :
    TableInv (xnlQDel env x f v).x := by
  unfold xnlQDel
  cases qconfGet f v with
  | none => exact h
  | some qconf =>
      dsimp only
      rcases xpdevQueueDelete_cases h env.clear qconf.qidx qconf.c2h with
        heq | ⟨-, hrange, cdevs, heq⟩
      · rw [heq]
        exact h
      · have hone := oneQueue_remove env.clear x.prep.dev
          (x.prep.dev.handle qconf.c2h qconf.qidx)
        rw [heq]
        refine h.of_same rfl hone.qmax (fun p => congrArg QdmaQueueConf.qidx (hone.conf_eq p))
          (fun p => ?_) fun hno => absurd (hrange.symm.trans hno) (by decide)
        by_cases hp : p = x.prep.dev.handle qconf.c2h qconf.qidx
        · rw [hp]
          exact Or.inr (Or.inl (Function.update_self _ _ _))
        · exact Or.inl (Function.update_of_ne hp _ _)

/-! ### Addition -/

/-- The queue that is taken is the one asked for, unless any is. -/
theorem taken_eq_some {dev : XlnxDmaDev} {qconf : QdmaQueueConf} {i : ℕ}
    (h : dev.taken qconf = some i) :
    i < dev.qmax ∧ (qconf.qidx ≠ qdmaQueueIdxInvalid → i = qconf.qidx) := by
  unfold XlnxDmaDev.taken at h
  split at h
  · cases h
  · split at h
    · cases h
    · rename_i hidx
      cases hpick : pickQueue dev qconf with
      | error rv =>
          rw [hpick] at h
          cases h
      | ok j =>
          rw [hpick] at h
          cases h
          refine ⟨(pickQueue_eq_ok hidx hpick).1, fun hne => ?_⟩
          unfold pickQueue at hpick
          dsimp only at hpick
          rw [if_neg hne] at hpick
          split at hpick
          · cases hpick
            rfl
          · cases hpick

/-- Filling a slot writes no other slot, and the handle into this one. -/
theorem xpdevQueueFill_qdata (f : QueueAddFates) (c2h : Bool) {i qhndl : ℕ}
    (hmax : x.qmax = x.prep.dev.qmax) (hi : addedQidx x.prep.dev c2h qhndl = i) (p : ℕ) :
    (xpdevQueueFill f x c2h qhndl).2.qdata p = x.qdata p ∨
      (p = x.prep.dev.handle c2h i ∧ ((xpdevQueueFill f x c2h qhndl).2.qdata p).qhndl = qhndl) := by
  unfold xpdevQueueFill
  rw [hi]
  cases hget : xpdevQueueGet x i c2h false with
  | none => exact Or.inl rfl
  | some k =>
      obtain ⟨-, rfl, -⟩ := xpdevQueueGet_eq_some hmax hget
      by_cases hp : p = x.prep.dev.handle c2h i
      · refine Or.inr ⟨hp, ?_⟩
        rw [hp]
        dsimp only
        rw [Function.update_self]
      · exact Or.inl (Function.update_of_ne hp _ _)

theorem xpdevQueueFill_qmax (f : QueueAddFates) (x : XlnxPciDev) (c2h : Bool) (qhndl : ℕ) :
    (xpdevQueueFill f x c2h qhndl).2.qmax = x.qmax := by
  unfold xpdevQueueFill
  split
  · rfl
  · rfl

/-- The device once its resources are prepared. -/
def XlnxPciDev.prepared (x : XlnxPciDev) (f : PrepFates) : XlnxPciDev :=
  { x with prep := (qdmaDevicePrepQResource f x.prep).2 }

theorem prepared_idle {f : PrepFates} (h : ¬ f.SetsRange x.prep) : x.prepared f = x := by
  unfold XlnxPciDev.prepared
  rw [prep_idle h]

/-- Only the queues of a virtual function that start above 0 are moved. -/
theorem prepared_descq (h : TableInv x) {f : PrepFates}
    (hbase : ¬ (x.prep.vf = true ∧ u16 f.rangeQbase ≠ 0)) :
    (x.prepared f).prep.dev.descq = x.prep.dev.descq := by
  by_cases hsets : f.SetsRange x.prep
  · funext q
    refine ((prep_sets hsets).2 q).trans ?_
    have hnew := h.fresh hsets.1
    have hroom := h.room
    have hsame : f.rangeQidxHw x.prep q = (x.prep.dev.descq q).qidxHw := by
      unfold PrepFates.rangeQidxHw
      split
      · rename_i hq
        have hzero : u16 f.rangeQbase = 0 := by
          by_contra hne
          exact hbase ⟨hq.1, hne⟩
        obtain ⟨c2h, i, hi, rfl⟩ := x.prep.dev.exists_handle hq.2
        rw [hzero, hnew.prep.qidxHw c2h i hi, hnew.prep.own hq.1]
        rw [h.qmax] at hroom
        unfold qdmaQueueIdxInvalid at hroom
        exact Nat.mod_eq_of_lt (by omega)
      · rfl
    rw [hsame]
  · rw [prepared_idle hsets]

theorem tableInv_prepared (h : TableInv x) (f : PrepFates) : TableInv (x.prepared f) := by
  have hslots := sameSlots_prep f x.prep
  refine h.of_same rfl hslots.qmax (fun q => congrArg QdmaQueueConf.qidx (hslots.conf q))
    (fun _ => Or.inl rfl) fun hno => ?_
  by_cases hsets : f.SetsRange x.prep
  · exact absurd ((prep_sets hsets).1.symm.trans hno) (by decide)
  · rw [prepared_idle hsets] at hno ⊢
    exact h.fresh hno

/-- The preparation of a device without a range fails or sets one. -/
theorem prep_range {f : PrepFates} {s : PrepDev} (h : ¬ (qdmaDevicePrepQResource f s).1 < 0) :
    (qdmaDevicePrepQResource f s).2.initQrange = true := by
  by_cases hsets : f.SetsRange s
  · exact (prep_sets hsets).1
  · rw [prep_idle hsets]
    by_contra hno
    unfold qdmaDevicePrepQResource at h
    rw [if_neg hno] at h
    rcases deviceSetQrange_cases f (Bool.eq_false_iff.mpr hno) with ⟨hsets', -⟩ | ⟨-, hrv, -⟩
    · exact hsets hsets'
    · rw [if_pos hrv] at h
      exact h hrv

/-- An addition prepares the device and fails, or it then enables one queue: the one asked for,
if one is asked for. -/
theorem xpdevQueueAdd_outcome (h : TableInv x) (f : QueueAddFates) (qconf : QdmaQueueConf) :
    TableInv (xpdevQueueAdd f x qconf).2 ∧
    (((xpdevQueueAdd f x qconf).1 < 0 ∧ (xpdevQueueAdd f x qconf).2 = x.prepared f.prep) ∨
    ((xpdevQueueAdd f x qconf).2.prep.initQrange = true ∧
      ∃ i < x.qmax, (qconf.qidx ≠ qdmaQueueIdxInvalid → i = qconf.qidx) ∧
      KeptBut (x.prepared f.prep) (xpdevQueueAdd f x qconf).2 (x.prep.dev.handle qconf.c2h i) ∧
      (x.prep.dev.descq (x.prep.dev.handle qconf.c2h i)).enabled = false ∧
      ((xpdevQueueAdd f x qconf).2.prep.dev.descq (x.prep.dev.handle qconf.c2h i)).enabled =
        true)) := by
  have hslots := sameSlots_prep f.prep x.prep
  rcases xpdevQueueAdd_cases f x qconf with
    ⟨-, hneg, hback⟩ | ⟨-, -, hneg, hback⟩ | ⟨hprep, i, htake, hfree, -, hcall⟩
  · rw [hback]
    exact ⟨tableInv_prepared h f.prep, Or.inl ⟨hneg, rfl⟩⟩
  · rw [hback]
    exact ⟨tableInv_prepared h f.prep, Or.inl ⟨hneg, rfl⟩⟩
  · obtain ⟨hi, hasked⟩ := taken_eq_some htake
    rw [← h.qmax] at hi
    have hqidx := h.qidx qconf.c2h i hi
    have hrange := prep_range hprep
    unfold XlnxPciDev.prepared
    generalize (qdmaDevicePrepQResource f.prep x.prep).2 = s at hslots hrange hcall ⊢
    have hhandle : x.prep.dev.handleOf qconf.c2h i = x.prep.dev.handle qconf.c2h i := by
      unfold XlnxDmaDev.handleOf
      rw [hqidx]
      unfold XlnxDmaDev.handle
      split
      · exact Nat.add_comm _ _
      · rfl
    have hmax : (x.takes s qconf i).prep.dev.qmax = x.prep.dev.qmax :=
      (addQcnt_qmax s.dev qconf.c2h 1).trans hslots.qmax
    have hlook := (addedQidx_handleOf hmax qconf.c2h i).trans hqidx
    rw [hhandle] at hlook hcall
    have hdescq : (xpdevQueueAdd f x qconf).2.prep.dev.descq =
        Function.update s.dev.descq (x.prep.dev.handle qconf.c2h i)
          (addedDescq s.dev (s.dev.descq (x.prep.dev.handle qconf.c2h i)) qconf) := by
      rw [hcall]
      exact xpdevQueueFill_takes_descq f hslots qconf i _
    have hrange' : (xpdevQueueAdd f x qconf).2.prep.initQrange = true := by
      rw [hcall, xpdevQueueFill_dev]
      exact hrange
    have hplace' := handle_of_qmax hmax qconf.c2h i
    have hfill := xpdevQueueFill_qdata (x := x.takes s qconf i) f qconf.c2h
      (h.qmax.trans hmax.symm) hlook
    rw [hplace', ← hcall] at hfill
    refine ⟨h.of_same ?_ ?_ (fun q => ?_) (fun q => ?_)
        (fun hno => absurd (hrange'.symm.trans hno) (by decide)),
      Or.inr ⟨hrange', i, hi, hasked, fun q hq => ?_, hfree, ?_⟩⟩
    · rw [hcall, xpdevQueueFill_qmax]
      rfl
    · rw [hcall, xpdevQueueFill_dev]
      exact hmax
    · rw [hdescq]
      by_cases hq : q = x.prep.dev.handle qconf.c2h i
      · rw [hq, Function.update_self, ← hslots.conf]
        rfl
      · rw [Function.update_of_ne hq, hslots.conf]
    · rcases hfill q with heq | ⟨hq, heq⟩
      · exact Or.inl heq
      · exact Or.inr (Or.inr (heq.trans hq.symm))
    · rw [hdescq, Function.update_of_ne hq]
      refine ⟨rfl, ?_⟩
      rcases hfill q with heq | ⟨hq', -⟩
      · exact heq
      · exact absurd hq' hq
    · rw [hdescq, Function.update_self]
      rfl

/-- The configuration `xnl_q_add` hands on. -/
def addConf (size : BitVec 8) (qconf : QdmaQueueConf) : QdmaQueueConf :=
  if qconf.c2h && qconf.st then { qconf with stC2hWrbDescSize := size.toNat } else qconf

theorem addConf_same (size : BitVec 8) (qconf : QdmaQueueConf) :
    (addConf size qconf).qidx = qconf.qidx ∧ (addConf size qconf).c2h = qconf.c2h := by
  unfold addConf
  split
  · exact ⟨rfl, rfl⟩
  · exact ⟨rfl, rfl⟩

theorem actsOn_add (h : TableInv x) {r : NlReq} {size : BitVec 8} (hcmd : r.cmd = .add size)
    (hidx : qconfQidx r.qidx ≠ qdmaQueueIdxInvalid) (hmore : ¬ r.SetsUpMore x) :
    ActsOn r x (qconfQidx r.qidx) := by
  refine ActsOn.of_cases ?_
  have hinval : -einval < 0 := by decide
  have hres : r.res x = xnlQAdd r.env size x r.flags r.qidx := by
    unfold NlReq.res
    rw [hcmd]
    rfl
  have hdone : ∀ y parts q, r.Done x y parts q ↔
      (x.prep.dev.descq q).enabled = false ∧ (y.prep.dev.descq q).enabled = true := by
    intro y parts q
    unfold NlReq.Done
    rw [hcmd]
  simp only [hdone]
  rw [hres]
  unfold xnlQAdd
  cases hconf : qconfGet r.flags r.qidx with
  | none => exact Or.inl ⟨hinval, rfl, rfl⟩
  | some qconf =>
      obtain ⟨hqidx, hc2h⟩ := qconfGet_eq_some hconf
      obtain ⟨hqidx', hc2h'⟩ := addConf_same size qconf
      dsimp only
      change _ ∧ _ ∧ (xpdevQueueAdd r.env.add x (addConf size qconf)).2 = x ∨
        _ ∧ KeptBut x (xpdevQueueAdd r.env.add x (addConf size qconf)).2 _ ∧ _
      have hspare : r.env.add.prep.SetsRange x.prep →
          ¬ (x.qmax ≤ qconfQidx r.qidx ∨
            (x.prep.vf = true ∧ u16 r.env.add.prep.rangeQbase ≠ 0)) := fun hsets hbad =>
        hmore ⟨⟨size, hcmd⟩, by rw [hconf]; rfl, hsets, hbad.imp_left fun hle => ⟨hle, hidx⟩⟩
      -- the queues are as before, unless the device is set up for nobody else
      have hprep : x.prepared r.env.add.prep = x ∨ (qconfQidx r.qidx < x.qmax ∧
          (x.prepared r.env.add.prep).prep.dev.descq = x.prep.dev.descq) := by
        by_cases hsets : r.env.add.prep.SetsRange x.prep
        · obtain ⟨hlt, hbase⟩ := not_or.mp (hspare hsets)
          exact Or.inr ⟨Nat.lt_of_not_le hlt, prepared_descq h hbase⟩
        · exact Or.inl (prepared_idle hsets)
      have hdescq : (x.prepared r.env.add.prep).prep.dev.descq = x.prep.dev.descq := by
        rcases hprep with heq | ⟨-, heq⟩
        · rw [heq]
        · exact heq
      obtain ⟨-, ⟨hneg, hback⟩ | ⟨-, i, hi, hasked, hkept, hfree, hnew⟩⟩ :=
        xpdevQueueAdd_outcome h r.env.add (addConf size qconf)
      · have hrv : (if (xpdevQueueAdd r.env.add x (addConf size qconf)).1 < 0
            then (xpdevQueueAdd r.env.add x (addConf size qconf)).1 else r.env.respond) < 0 := by
          rw [if_pos hneg]
          exact hneg
        rw [hback]
        rcases hprep with heq | ⟨hlt, -⟩
        · exact Or.inl ⟨hrv, rfl, heq⟩
        · exact Or.inr ⟨hlt, fun q _ => ⟨congrFun hdescq q, rfl⟩,
            fun hpos => absurd hrv (Int.not_lt.mpr hpos)⟩
      · have hii : i = qconfQidx r.qidx := by
          rw [hasked (by rw [hqidx', hqidx]; exact hidx), hqidx', hqidx]
        have hdir : (addConf size qconf).c2h = r.c2h := hc2h'.trans hc2h
        rw [hdir, hii] at hkept hfree hnew
        refine Or.inr ⟨hii ▸ hi, fun q hq => ?_, fun _ => ⟨hfree, hnew⟩⟩
        obtain ⟨hd, hslot⟩ := hkept q hq
        exact ⟨hd.trans (congrFun hdescq q), hslot⟩

theorem tableInv_add (h : TableInv x) (env : NlEnv) (size : BitVec 8) (f v : BitVec 32) :
    TableInv (xnlQAdd env size x f v).x := by
  unfold xnlQAdd
  cases qconfGet f v with
  | none => exact h
  | some qconf => exact (xpdevQueueAdd_outcome h env.add (addConf size qconf)).1

end Table

/-! ## Every command -/

/-- A dump that does not fail shows what the call below writes. -/
theorem dumpQCall_parts {env : NlEnv} {rv : XlnxDmaDev → ℕ → ℤ} {cmd : ℕ → DumpCmd}
    {dev : XlnxDmaDev} {q : ℕ} (h : ¬ (dumpQCall env rv cmd dev q).1 < 0) :
    (dumpQCall env rv cmd dev q).2.2 = (dumpCall env.dump xnlRespBuflenMax dev (cmd q)).parts := by
  have hnomem : -enomem < 0 := by decide
  unfold dumpQCall at h ⊢
  dsimp only at h ⊢
  split
  · rename_i hmem
    rw [if_pos hmem] at h
    exact absurd hnomem h
  · rfl

theorem tableInv_step {x : XlnxPciDev} (h : TableInv x) (r : NlReq) : TableInv (r.res x).x := by
  obtain ⟨env, cmd, f, v⟩ := r
  cases cmd with
  | add size => exact tableInv_add h env size f v
  | start => exact tableInv_call h (oneCall_start env) env f v
  | stop => exact tableInv_call h (oneCall_stop env) env f v
  | del => exact tableInv_del h env f v
  | dump => exact tableInv_call h (oneCall_dump env _ fun _ => Or.inl ⟨_, _, rfl⟩) env f v
  | desc v1 v2 =>
      exact tableInv_call h (oneCall_dump env _ fun _ => Or.inr (Or.inl ⟨_, _, rfl⟩)) env f v
  | wrb v1 v2 =>
      exact tableInv_call h (oneCall_dump env _ fun _ => Or.inr (Or.inr ⟨_, _, rfl⟩)) env f v

theorem xnlQCall_qmax (call : QCall) (env : NlEnv) (x : XlnxPciDev) (f v : BitVec 32) :
    (xnlQCall call env x f v).x.qmax = x.qmax := by
  unfold xnlQCall
  split
  · rfl
  · split
    · rfl
    · dsimp only
      split
      · rfl
      · rfl

theorem xpdevQueueAdd_qmax (f : QueueAddFates) (x : XlnxPciDev) (qconf : QdmaQueueConf) :
    (xpdevQueueAdd f x qconf).2.qmax = x.qmax := by
  rcases xpdevQueueAdd_cases f x qconf with
    ⟨-, -, hback⟩ | ⟨-, -, -, hback⟩ | ⟨-, i, -, -, -, hcall⟩
  · rw [hback]
  · rw [hback]
  · rw [hcall, xpdevQueueFill_qmax]
    rfl

/-- The limit of the table is never written. -/
theorem res_qmax (x : XlnxPciDev) (r : NlReq) : (r.res x).x.qmax = x.qmax := by
  obtain ⟨env, cmd, f, v⟩ := r
  cases cmd with
  | add size =>
      change (xnlQAdd env size x f v).x.qmax = x.qmax
      unfold xnlQAdd
      split
      · rfl
      · exact xpdevQueueAdd_qmax env.add x _
  | start => exact xnlQCall_qmax _ env x f v
  | stop => exact xnlQCall_qmax _ env x f v
  | del =>
      change (xnlQDel env x f v).x.qmax = x.qmax
      unfold xnlQDel xpdevQueueDelete
      split
      · rfl
      · dsimp only
        split
        · rfl
        · rfl
  | dump => exact xnlQCall_qmax _ env x f v
  | desc v1 v2 => exact xnlQCall_qmax _ env x f v
  | wrb v1 v2 => exact xnlQCall_qmax _ env x f v

/-- What is left of the index is acted on or refused, unless it asks for any queue or the device
is set up and more shows of it. -/
theorem actsOn_cut {x : XlnxPciDev} (h : TableInv x) (r : NlReq)
    (hidx : qconfQidx r.qidx ≠ qdmaQueueIdxInvalid) (hmore : ¬ r.SetsUpMore x) :
    ActsOn r x (qconfQidx r.qidx) := by
  obtain ⟨env, cmd, f, v⟩ := r
  cases cmd with
  | add size => exact actsOn_add h rfl hidx hmore
  | start => exact actsOn_call h (oneCall_start env) rfl fun _ hneg => start_done hneg
  | stop => exact actsOn_call h (oneCall_stop env) rfl fun _ hneg => stop_done hneg
  | del => exact actsOn_del h rfl
  | dump =>
      exact actsOn_call h (oneCall_dump env _ fun _ => Or.inl ⟨_, _, rfl⟩) rfl
        fun _ hneg => dumpQCall_parts hneg
  | desc v1 v2 =>
      exact actsOn_call h (oneCall_dump env _ fun _ => Or.inr (Or.inl ⟨_, _, rfl⟩)) rfl
        fun _ hneg => dumpQCall_parts hneg
  | wrb v1 v2 =>
      exact actsOn_call h (oneCall_dump env _ fun _ => Or.inr (Or.inr ⟨_, _, rfl⟩)) rfl
        fun _ hneg => dumpQCall_parts hneg

/-! ## An index that is cut -/

theorem prep_granted {s : PrepDev} (h : PrepInit s) :
    (qdmaDevicePrepQResource grantedPrep s).1 = 0 := by
  unfold qdmaDevicePrepQResource
  rw [if_neg (by rw [h.range]; decide)]
  dsimp only
  rcases deviceSetQrange_spec h grantedPrep with ⟨-, hrv, -⟩ | ⟨hbad, -, -⟩
  · rw [if_neg (by rw [hrv]; exact lt_irrefl 0)]
    generalize (deviceSetQrange grantedPrep s).2 = t
    rcases intrRingSetup_spec grantedPrep t xdevIntrCoalRingSize with
      ⟨-, heq⟩ | ⟨hyes, -, list, bus, -, -, -, heq⟩ | ⟨-, hrings, -⟩
    · rw [heq, if_neg (fun hc => hc rfl)]
      rfl
    · rw [heq, if_neg (fun hc => hc rfl), if_pos rfl]
      generalize hu : PrepDev.mk _ _ _ _ _ _ _ _ _ _ = u
      have hcoal : u.dev.intrCoalEn = true := by rw [← hu]
      have hvec : u.dev.numVecs ≠ 0 := by
        rw [← hu]
        exact hyes.2.2.1
      refine (qdmaIntrContextSetup_spec grantedPrep hcoal hvec fun _ => 0).1.mpr ?_
      unfold PrepFates.Programs
      split
      · exact fun _ _ _ => (by decide : (⟨0, true, 0⟩ : MboxReply).Good)
      · exact fun _ _ _ _ => rfl
    · exact absurd ⟨rfl, fun _ _ => rfl⟩ hrings
  · exact absurd (fun _ => le_refl 0) hbad

/-- On a new device every queue can be had. -/
theorem taken_init {dev : XlnxDmaDev} (h : DeviceInit dev) (hpos : 0 < dev.qmax)
    (qconf : QdmaQueueConf) (hidx : qconf.qidx = qdmaQueueIdxInvalid ∨ qconf.qidx < dev.qmax) :
    ∃ i, dev.taken qconf = some i := by
  have hfree : ∀ q, (dev.descq q).enabled = false := fun q => by
    rw [h.descq]
    rfl
  have hcnt : dev.qcnt qconf.c2h = 0 := by
    unfold XlnxDmaDev.qcnt
    split
    · exact h.c2hQcnt
    · exact h.h2cQcnt
  unfold XlnxDmaDev.taken pickQueue
  rw [hcnt, if_neg (by omega), if_neg (by omega)]
  simp only [hfree]
  by_cases hinv : qconf.qidx = qdmaQueueIdxInvalid
  · rw [if_pos hinv]
    cases hfind : (List.range dev.qmax).find? fun _ => !false with
    | none =>
        have hno := List.find?_eq_none.mp hfind 0 (List.mem_range.mpr hpos)
        exact absurd rfl hno
    | some i => exact ⟨i, rfl⟩
  · rw [if_neg hinv]
    exact ⟨qconf.qidx, rfl⟩

/-- Everything a command wants is granted. -/
def grantedNl : NlEnv where
  add :=
    { prep := grantedPrep
      cdev := { kzalloc := some 0x1000, cdevAdd := 0, qdmaClass := true, deviceCreate := 0 }
      xcdev := none }
  start :=
    { al := { desc := none, fl := false, page := fun _ => none, wrb := none }
      setup :=
        { clear := fun _ => .completes
          clearAgain := fun _ => .completes
          write := fun _ => .completes }
      clear := fun _ => .completes }
  clear _ := .completes
  dump := blankEnv
  mem := true
  ctxtRv := 0
  ctxtText := []
  respond := 0

/-- The addition of a queue with an index, to memory-mapped transfers to the card. -/
def addReq (v : BitVec 32) : NlReq := { env := grantedNl, cmd := .add 0, flags := 0, qidx := v }

/-- The configuration in it. -/
def addReqConf (v : BitVec 32) : QdmaQueueConf where
  qidx := qconfQidx v
  st := false
  c2h := false
  stC2hWrbDescSize := 0
  rngsz := 0

theorem addReq_res (x : XlnxPciDev) (v : BitVec 32) :
    ((addReq v).res x).x = (xpdevQueueAdd grantedNl.add x (addReqConf v)).2 := by
  have hget : qconfGet 0 v = some (addReqConf v) := by
    unfold qconfGet
    rw [if_neg (by decide), if_neg (by decide)]
    rfl
  change (xnlQAdd grantedNl 0 x 0 v).x = _
  unfold xnlQAdd
  rw [hget]
  rfl

/-- An addition to a new device that names a queue once its index is cut, or any queue. -/
theorem addReq_changes {x : XlnxPciDev} (h : Probed x) {v : BitVec 32}
    (hidx : qconfQidx v = qdmaQueueIdxInvalid ∨ qconfQidx v < x.qmax) :
    ((addReq v).res x).x ≠ x := by
  intro hsame
  have hpos := h.pos
  have hgranted : ¬ (qdmaDevicePrepQResource grantedNl.add.prep x.prep).1 < 0 := by
    have hzero : (qdmaDevicePrepQResource grantedNl.add.prep x.prep).1 = 0 := prep_granted h.prep
    rw [hzero]
    exact lt_irrefl 0
  rw [h.qmax] at hidx hpos
  obtain ⟨i, htake⟩ := taken_init h.dev hpos (addReqConf v) hidx
  obtain ⟨hold, hnew⟩ := xpdevQueueAdd_enabled hgranted htake
  rw [addReq_res] at hsame
  rw [hsame] at hnew
  exact absurd (hnew.symm.trans hold) (by decide)

/-- It sets the device up, and nothing shows of that. -/
theorem addReq_not_more {x : XlnxPciDev} {v : BitVec 32}
    (hidx : qconfQidx v = qdmaQueueIdxInvalid ∨ qconfQidx v < x.qmax) :
    ¬ (addReq v).SetsUpMore x := by
  rintro ⟨-, -, -, ⟨hle, hne⟩ | ⟨-, hbase⟩⟩
  · exact hidx.elim hne (Nat.not_lt.mpr hle)
  · exact hbase rfl

/-- The range of a virtual function that starts above 0 moves its queues. -/
theorem prepared_moves {x : XlnxPciDev} (h : TableInv x) {f : PrepFates}
    (hsets : f.SetsRange x.prep) (hvf : x.prep.vf = true) (hbase : u16 f.rangeQbase ≠ 0) (c2h : Bool)
    {i : ℕ} (hi : i < x.qmax) :
    (x.prepared f).prep.dev.descq (x.prep.dev.handle c2h i) ≠
      x.prep.dev.descq (x.prep.dev.handle c2h i) := by
  intro hsame
  have hnew := h.fresh hsets.1
  have hroom := h.room
  unfold qdmaQueueIdxInvalid at hroom
  rw [h.qmax] at hi hroom
  have hhw : (x.prep.dev.descq (x.prep.dev.handle c2h i)).qidxHw = i := by
    rw [hnew.prep.qidxHw c2h i hi, hnew.prep.own hvf, Nat.zero_add]
  have hmoved := congrArg QdmaDescq.qidxHw hsame
  rw [show (x.prepared f).prep.dev.descq _ = _ from (prep_sets hsets).2 _] at hmoved
  dsimp only at hmoved
  unfold PrepFates.rangeQidxHw at hmoved
  rw [if_pos ⟨hvf, x.prep.dev.handle_lt c2h hi⟩, hhw] at hmoved
  have hbase' : u16 f.rangeQbase < 2 ^ 16 := Nat.mod_lt _ (by decide)
  unfold u32 at hmoved
  omega

/-- Whatever it names, a command that sets the device up for more is not right: there is a
range where there was none, and a queue of the other direction is moved. -/
theorem setsUpMore_shows {x : XlnxPciDev} (h : TableInv x) {r : NlReq} (hmore : r.SetsUpMore x) :
    ¬ IndexRight r x := by
  intro hright
  obtain ⟨⟨size, hcmd⟩, hgood, hsets, hbad⟩ := hmore
  obtain ⟨qconf, hconf⟩ := Option.isSome_iff_exists.mp hgood
  have hc2h : (addConf size qconf).c2h = r.c2h :=
    (addConf_same size qconf).2.trans (qconfGet_eq_some hconf).2
  have hres : (r.res x).x = (xpdevQueueAdd r.env.add x (addConf size qconf)).2 := by
    unfold NlReq.res
    rw [hcmd]
    change (xnlQAdd r.env size x r.flags r.qidx).x = _
    unfold xnlQAdd
    rw [hconf]
    rfl
  obtain ⟨-, hout⟩ := xpdevQueueAdd_outcome h r.env.add (addConf size qconf)
  rw [← hres, hc2h] at hout
  have hrange : (r.res x).x.prep.initQrange = true := by
    rcases hout with ⟨-, hback⟩ | ⟨hset, -⟩
    · rw [hback]
      exact (prep_sets hsets).1
    · exact hset
  by_cases hv : x.qmax ≤ r.qidx.toNat
  · rw [(hright.refused hv).2.2, hsets.1] at hrange
    cases hrange
  · have hlt := Nat.lt_of_not_le hv
    rcases hbad with ⟨hle, -⟩ | ⟨hvf, hbase⟩
    · rw [qconfQidx_eq] at hle
      exact hv (hle.trans (Nat.mod_le _ _))
    · have hother : ∀ i < x.qmax,
          x.prep.dev.handle (!r.c2h) r.qidx.toNat ≠ x.prep.dev.handle r.c2h i := by
        intro i hi heq
        rw [h.qmax] at hi hlt
        exact Bool.not_ne_self _ (x.prep.dev.handle_inj hlt hi heq).1
      have hkept := (hright.only hlt _ (hother _ hlt)).1
      refine prepared_moves h hsets hvf hbase (!r.c2h) hlt (Eq.trans ?_ hkept)
      rcases hout with ⟨-, hback⟩ | ⟨-, i, hi, -, hrest, -⟩
      · rw [hback]
      · exact (hrest _ (hother i hi)).1.symm

/-- **An index** names its queue in every command that can follow any others and does not set the
device up for more than its queue, exactly where it fits 16 bits or where what is left of it names
no queue either and does not ask for any.  A command that does set up more is never right. -/
theorem queue_index_right_iff {x₀ : XlnxPciDev} (h : Probed x₀) {v : BitVec 32}
    (hv : v.toNat ≠ xnlQidxInvalid) :
    ((∀ (rs : List NlReq) (r : NlReq), r.qidx = v → ¬ r.SetsUpMore (nlSys.exec x₀ rs) →
        IndexRight r (nlSys.exec x₀ rs)) ↔
      v.toNat < 2 ^ 16 ∨ (x₀.qmax ≤ v.toNat % 2 ^ 16 ∧ v.toNat % 2 ^ 16 ≠ xnlQidxInvalid)) ∧
    ∀ (rs : List NlReq) (r : NlReq), r.qidx = v → r.SetsUpMore (nlSys.exec x₀ rs) →
      ¬ IndexRight r (nlSys.exec x₀ rs) := by
  have hroom := h.room
  have hcut := qconfQidx_eq v
  have hinv : ∀ rs, TableInv (nlSys.exec x₀ rs) ∧ (nlSys.exec x₀ rs).qmax = x₀.qmax := fun rs =>
    nlSys.invariant_free (I := fun x => TableInv x ∧ x.qmax = x₀.qmax)
      (fun x r h => ⟨tableInv_step h.1 r, (res_qmax x r).trans h.2⟩) rs ⟨h.tableInv, rfl⟩
  unfold xnlQidxInvalid at hv ⊢
  unfold qdmaQueueIdxInvalid at hroom
  refine ⟨⟨fun hall => ?_, fun hcond rs r hr hmore => ?_⟩,
    fun rs r _ hmore => setsUpMore_shows (hinv rs).1 hmore⟩
  · by_contra hno
    have hidx : qconfQidx v = qdmaQueueIdxInvalid ∨ qconfQidx v < x₀.qmax := by
      unfold qdmaQueueIdxInvalid
      omega
    have hright := hall [] (addReq v) rfl (addReq_not_more hidx)
    exact addReq_changes h hidx (hright.refused (show x₀.qmax ≤ v.toNat by omega)).2.2
  · obtain ⟨hinv, hqmax⟩ := hinv rs
    generalize nlSys.exec x₀ rs = x at hinv hqmax hmore ⊢
    have hacts := actsOn_cut hinv r (by
      rw [hr, hcut]
      unfold qdmaQueueIdxInvalid
      omega) hmore
    rw [hr, hcut] at hacts
    unfold IndexRight
    rw [hr]
    by_cases hsmall : v.toNat < 2 ^ 16
    · rw [Nat.mod_eq_of_lt hsmall] at hacts
      exact hacts
    · -- both the index and what is left of it are beyond the limit
      have hrefused := hacts.refused (by omega)
      exact ⟨fun _ => hrefused, fun hlt => absurd hlt (by omega), fun hlt => absurd hlt (by omega)⟩

theorem plainXpdev_probed : Probed plainXpdev where
  dev :=
    { present := polledDev_init.present
      descq := polledDev_init.descq
      h2cQcnt := polledDev_init.h2cQcnt
      c2hQcnt := polledDev_init.c2hQcnt
      wrkThreads := polledDev_init.wrkThreads
      wbThreads := polledDev_init.wbThreads
      intrList := polledDev_init.intrList
      intrListCnt := polledDev_init.intrListCnt
      listFault := polledDev_init.listFault }
  prep :=
    { range := oneVectorDev_init.range
      base := oneVectorDev_init.base
      own := oneVectorDev_init.own
      qidxHw := oneVectorDev_init.qidxHw
      list := oneVectorDev_init.list }
  qmax := rfl
  pos := Nat.one_pos
  room := by decide
  qdata _ := rfl

theorem queue_index_right_zero : (0 : BitVec 32).toNat < plainXpdev.qmax ∧
    ∀ (rs : List NlReq) (r : NlReq), r.qidx = 0 → ¬ r.SetsUpMore (nlSys.exec plainXpdev rs) →
      IndexRight r (nlSys.exec plainXpdev rs) :=
  ⟨by decide, (queue_index_right_iff plainXpdev_probed (by decide)).1.mpr (Or.inl (by decide))⟩

/-- Index `0x10000` adds queue 0. -/
theorem queue_index_cut :
    ¬ ∀ (x₀ : XlnxPciDev) (v : BitVec 32), Probed x₀ → v.toNat ≠ xnlQidxInvalid →
      ∀ (rs : List NlReq) (r : NlReq), r.qidx = v → IndexRight r (nlSys.exec x₀ rs) := by
  intro hall
  have hright := hall plainXpdev 0x10000 plainXpdev_probed (by decide) [] (addReq 0x10000) rfl
  have hbig : plainXpdev.qmax ≤ (0x10000 : BitVec 32).toNat := by decide
  have hcut : qconfQidx 0x10000 < plainXpdev.qmax := by decide
  exact addReq_changes plainXpdev_probed (Or.inr hcut) (hright.refused hbig).2.2

end Qdma

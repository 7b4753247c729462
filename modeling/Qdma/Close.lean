import Qdma.Devices
import Qdma.LifeSpec
import Qdma.Lib.Undo

/-!
# Opening a device and closing it

`qdma_device_open` takes the regions of the PCI function, puts the device into `xdev_list`,
maps the BARs, requests the interrupts, sets the channels of the memory-mapped engines
running and arms the timer of the mailbox.  `qdma_device_close` goes through all of it again.

Two things are not undone.  The channels of the C2H engine stay on: `hw_mm_channel_disable`
takes a `bool` and is given a `DMA_` direction, which is never zero.  And the timer can be
armed behind the close: a callback that is running when the timer is stopped arms it again,
for nobody tells it that the device goes away.  `device_close_undoes` says that this is all.

* `deviceOpen` is the open, `openSys` what happens then: the calls on the queues, the
  callbacks of the timer, and the steps of the close, between which a callback can begin or
  end.
* What is not here: SR-IOV and the rings of interrupt aggregation, which touch nothing that
  the claim of the close is about, and the mailbox's own registers.
-/

namespace Qdma

open Lib

/-! ## Registers -/

def qdmaRegGlblRngSzBase : ℕ := 0x204
def qdmaRegGlblRngSzCount : ℕ := 16
def qdmaRegGlblWbAcc : ℕ := 0x250
def qdmaRegC2hTimerCntBase : ℕ := 0xA00
def qdmaRegC2hTimerCntCount : ℕ := 16
def c2hTimerCntDflt : ℕ := 0x1
def qdmaRegC2hCntThBase : ℕ := 0xA40
def qdmaRegC2hCntThCount : ℕ := 16
def c2hCntThDflt : ℕ := 0x1
def qdmaRegC2hBufSzBase : ℕ := 0xAB0
def qdmaRegC2hBufSzCount : ℕ := 16

def qdmaRegMmControlRun : BitVec 32 := 0x1
def qdmaRegMmControlStep : ℕ := 0x100
def qdmaRegC2hMmControlBase : ℕ := 0x1004
def qdmaRegH2cMmControlBase : ℕ := 0x1204

/-- `DMA_TO_DEVICE` and `DMA_FROM_DEVICE`. -/
def dmaToDevice : ℕ := 1
def dmaFromDevice : ℕ := 2

/-- The same value to the registers of an array. -/
def fillRegs (base count value : ℕ) : List (ℕ × BitVec 32) :=
  (List.range count).map fun i => (base + 4 * i, BitVec.ofNat 32 value)

/-- `hw_set_global_csr`: the registers written, with their values. -/
def hwSetGlobalCsr : List (ℕ × BitVec 32) :=
  (qdmaRegGlblWbAcc, 0x1) ::
    (fillRegs qdmaRegGlblRngSzBase qdmaRegGlblRngSzCount (rngSzDflt + 1) ++
      fillRegs qdmaRegC2hBufSzBase qdmaRegC2hBufSzCount pageSize ++
      fillRegs qdmaRegC2hTimerCntBase qdmaRegC2hTimerCntCount c2hTimerCntDflt ++
      fillRegs qdmaRegC2hCntThBase qdmaRegC2hCntThCount c2hCntThDflt)

/-- The register both functions choose. -/
def mmControlReg (channel : ℕ) (c2h : Bool) : ℕ :=
  (if c2h then qdmaRegH2cMmControlBase else qdmaRegC2hMmControlBase) +
    channel * qdmaRegMmControlStep

/-- `hw_mm_channel_enable`. -/
def hwMmChannelEnable (channel : ℕ) (c2h : Bool) : ℕ × BitVec 32 :=
  (mmControlReg channel c2h, qdmaRegMmControlRun)

/-- `hw_mm_channel_disable`. -/
def hwMmChannelDisable (channel : ℕ) (c2h : Bool) : ℕ × BitVec 32 := (mmControlReg channel c2h, 0)

/-! ## Opening -/

def xdmaMaxBars : ℕ := 6

/-- What `qdma_device_open` is given: its configuration, and what the PCI function, the
allocator and the threads of the driver are like.  `vf` is `__QDMA_VF__`, `hndl` the address
the device gets, `regs` what the registers hold. -/
structure OpenEnv where
  vf : Bool
  pdev : ℕ
  hndl : ℕ
  hndl_ne : hndl ≠ 0
  requestRegions : ℤ
  enableDevice : ℤ
  dmaMaskSet : ℤ
  xdevAlloc : Bool
  qdevAlloc : Bool
  iomap : ℕ → Option ℕ
  barId : ℕ → BitVec 32
  funcIdReg : ℕ
  pollMode : Bool
  msixVecCount : ℤ
  enableMsix : ℤ → ℤ
  vector : ℕ → ℕ
  requestIrq : ℕ → ℤ
  qsetsMax : ℕ
  qsetsMax_lt : qsetsMax < 2 ^ 16
  h2cChannelMax : ℕ
  c2hChannelMax : ℕ
  pftchEn : ℕ
  threadCnt : ℕ
  threadCnt_pos : 0 < threadCnt
  wrkThreads : ℕ → QdmaKthread
  wbThreads : ℕ → QdmaKthread
  ctxt : CtxtStore
  qid2vec : ℕ → BitVec 32
  regs : ℕ → BitVec 32

/-- `xdev->bar[]`, `bar_num_config`, and the addresses that are mapped. -/
structure BarTable where
  bar : ℕ → Option ℕ
  mapped : List ℕ
  barNumConfig : Option ℕ

/-- The loop of `xdev_map_bars`, from BAR `i` with `n` to go. -/
def xdevMapBarsLoop (env : OpenEnv) : ℕ → ℕ → BarTable → BarTable
  | 0, _, t => t
  | n + 1, i, t =>
      match env.iomap i with
      | none => t
      | some addr =>
          xdevMapBarsLoop env n (i + 1)
            { bar := Function.update t.bar i (some addr)
              mapped := t.mapped ++ [addr]
              barNumConfig :=
                if t.barNumConfig = none ∧ env.barId i &&& 0xFFFF0000#32 = 0x1FD30000#32 then some i
                else t.barNumConfig }

/-- The loop of `xdev_unmap_bars`. -/
def xdevUnmapBarsLoop : ℕ → ℕ → BarTable → BarTable
  | 0, _, t => t
  | n + 1, i, t =>
      match t.bar i with
      | none => xdevUnmapBarsLoop n (i + 1) t
      | some addr =>
          xdevUnmapBarsLoop n (i + 1)
            { t with
              bar := Function.update t.bar i none
              mapped := t.mapped.erase addr }

/-- `xdev_unmap_bars`. -/
def xdevUnmapBars (t : BarTable) : BarTable := xdevUnmapBarsLoop xdmaMaxBars 0 t

/-- `xdev_map_bars`. -/
def xdevMapBars (env : OpenEnv) : ℤ × BarTable :=
  let t := xdevMapBarsLoop env xdmaMaxBars 0
    { bar := fun _ => none
      mapped := []
      barNumConfig := if env.vf then some 0 else none }
  if t.barNumConfig = none then (-einval, xdevUnmapBars t) else (0, t)

/-- `while (--i >= 0) free_irq(…)`. -/
def freeIrqLoop (vector : ℕ → ℕ) : ℕ → List ℕ → List ℕ
  | 0, irqs => irqs
  | i + 1, irqs => freeIrqLoop vector i (irqs.erase (vector i))

/-- The requests of `intr_setup`, from vector `i` with `n` to go, and the undoing of those
made when one fails. -/
def requestIrqLoop (env : OpenEnv) : ℕ → ℕ → List ℕ → ℤ × List ℕ
  | 0, _, irqs => (0, irqs)
  | n + 1, i, irqs =>
      if env.requestIrq i ≠ 0 then (env.requestIrq i, freeIrqLoop env.vector i irqs)
      else requestIrqLoop env n (i + 1) (irqs ++ [env.vector i])

/-- `intr_setup`: the value returned, `num_vecs` and the interrupts requested. -/
def intrSetup (env : OpenEnv) : ℤ × ℕ × List ℕ :=
  if env.pollMode then (0, 0, [])
  else if env.msixVecCount = 0 then (0, 0, [])
  else
    let numVecs := min env.msixVecCount (xdevNumIrqMax : ℤ)
    if env.enableMsix numVecs < 0 then (env.enableMsix numVecs, numVecs.toNat, [])
    else
      let r := requestIrqLoop env numVecs.toNat 0 []
      (r.1, numVecs.toNat, r.2)

theorem intrSetup_numVecs_le (env : OpenEnv) : (intrSetup env).2.1 ≤ 8 := by
  have hmax : min env.msixVecCount (xdevNumIrqMax : ℤ) ≤ 8 := min_le_right _ _
  unfold intrSetup
  split
  · exact Nat.zero_le 8
  · split
    · exact Nat.zero_le 8
    · dsimp only
      split
      · dsimp only
        omega
      · dsimp only
        omega

/-- `xdev->func_id` as `qdma_device_init` finds it. -/
def OpenEnv.funcId (env : OpenEnv) : ℕ := if env.vf then 0 else env.funcIdReg

/-- The channels `qdma_device_init` sets running. -/
def OpenEnv.mmEnables (env : OpenEnv) : List (ℕ × BitVec 32) :=
  if env.vf ∨ env.funcId ≠ 0 then []
  else
    (List.range env.h2cChannelMax).map (fun i => hwMmChannelEnable i true) ++
      (List.range env.c2hChannelMax).map fun i => hwMmChannelEnable i false

/-- The device when `qdma_device_init` returns 0. -/
def qdmaDeviceInit (env : OpenEnv) : XlnxDmaDev where
  numVecs := (intrSetup env).2.1
  numVecs_le := intrSetup_numVecs_le env
  pftchEn := env.pftchEn
  funcId := env.funcId
  intrCoalEn := false
  intrCoalList := []
  intrList _ := []
  intrListCnt _ := 0
  present := true
  qmax := env.qsetsMax
  qmax_lt := env.qsetsMax_lt
  h2cQcnt := 0
  c2hQcnt := 0
  descq q :=
    qdmaDescqInit (u16 (env.funcId * env.qsetsMax))
      (if q < env.qsetsMax then q else q - env.qsetsMax)
      (if q < env.qsetsMax then q else q - env.qsetsMax)
  threadCnt := env.threadCnt
  threadCnt_pos := env.threadCnt_pos
  wrkThreads := env.wrkThreads
  wbThreads := env.wbThreads
  ctxt := env.ctxt
  qid2vec := env.qid2vec
  mmio := if env.vf ∨ env.funcId ≠ 0 then [] else hwSetGlobalCsr ++ env.mmEnables
  listFault := false

/-- How far `qdma_device_close` is: what it does next. -/
inductive ClosePc where
  | opened
  | stopQueues
  | intrTeardown
  | mmDisable
  | descqCleanup
  | timerStop
  | unmapBars
  | releaseRegions
  | listRemove
  | closed
  deriving DecidableEq

/-- `struct timer_list` of the mailbox, and whether its callback is running. -/
structure MboxTimer where
  armed : Bool
  running : Bool

/-- A device with what it holds of the outside. -/
structure OpenXdev where
  dev : XlnxDmaDev
  xdevs : List Xdev
  bars : BarTable
  irqs : List ℕ
  msix : Bool
  regions : Bool
  enabled : Bool
  offline : Bool
  timer : MboxTimer
  pc : ClosePc

/-- `qdma_mbox_timer_start`. -/
def OpenXdev.timerStart (s : OpenXdev) : OpenXdev :=
  { s with timer := { s.timer with armed := true } }

/-- `qdma_mbox_timer_stop`: `del_timer` does not wait for a callback that is running. -/
def OpenXdev.timerStop (s : OpenXdev) : OpenXdev :=
  { s with timer := { s.timer with armed := false } }

/-- The device when nothing fails. -/
def newXdev (env : OpenEnv) (l : List Xdev) : OpenXdev :=
  OpenXdev.timerStart
    { dev := qdmaDeviceInit env
      xdevs := xdevListAdd l env.hndl env.pdev
      bars := (xdevMapBars env).2
      irqs := (intrSetup env).2.2
      msix := decide ((intrSetup env).2.1 ≠ 0)
      regions := true
      enabled := true
      offline := false
      timer := { armed := false, running := false }
      pc := .opened }

/-- `qdma_device_open`: the value returned and, where there is one, the new device.  A failed
`xdev_alloc` returns 0, with no device. -/
def deviceOpen (env : OpenEnv) (l : List Xdev) : ℤ × Option OpenXdev :=
  if env.pdev = 0 then (-einval, none)
  else if (xdevFindByPdev l env.pdev).isSome then (-einval, none)
  else if env.requestRegions ≠ 0 then (env.requestRegions, none)
  else if env.enableDevice ≠ 0 then (env.enableDevice, none)
  else if env.dmaMaskSet ≠ 0 then (env.dmaMaskSet, none)
  else if !env.xdevAlloc then (0, none)
  else if (xdevMapBars env).1 ≠ 0 then ((xdevMapBars env).1, none)
  else if (intrSetup env).1 ≠ 0 then (-einval, none)
  else if env.qsetsMax = 0 then (-einval, none)
  else if !env.qdevAlloc then (-enomem, none)
  else (0, some (newXdev env l))

/-! ## Closing, and what can happen meanwhile -/

/-- What `qdma_device_cleanup` writes to the channels: the direction is given for a `bool`. -/
def OpenEnv.mmDisables (env : OpenEnv) (funcId : ℕ) : List (ℕ × BitVec 32) :=
  if env.vf ∨ funcId ≠ 0 then []
  else
    (List.range env.h2cChannelMax).map (fun i => hwMmChannelDisable i (dmaToDevice ≠ 0)) ++
      (List.range env.c2hChannelMax).map fun i => hwMmChannelDisable i (dmaFromDevice ≠ 0)

/-- The next step of `qdma_device_close`; those from `stopQueues` to `descqCleanup` are
`qdma_device_cleanup`. -/
def closeStep (env : OpenEnv) (fStop fClean : ℕ → ℕ → CmdFate) (s : OpenXdev) : OpenXdev :=
  match s.pc with
  | .opened =>
      if env.hndl = 0 ∨ xdevCheckHndl s.xdevs env.pdev env.hndl < 0 then { s with pc := .closed }
      else { s with pc := .stopQueues }
  | .stopQueues =>
      if !s.dev.present then { s with pc := .timerStop }
      else { s with dev := stopAll fStop s.dev, pc := .intrTeardown }
  | .intrTeardown =>
      { s with
        irqs := freeIrqLoop env.vector s.dev.numVecs s.irqs
        msix := decide (s.dev.numVecs = 0) && s.msix
        pc := .mmDisable }
  | .mmDisable =>
      { s with
        dev := { s.dev with mmio := s.dev.mmio ++ env.mmDisables s.dev.funcId }
        pc := .descqCleanup }
  | .descqCleanup =>
      { s with dev := { cleanupAll fClean s.dev with present := false }, pc := .timerStop }
  | .timerStop => { s.timerStop with pc := .unmapBars }
  | .unmapBars => { s with bars := xdevUnmapBars s.bars, pc := .releaseRegions }
  | .releaseRegions => { s with regions := false, enabled := false, pc := .listRemove }
  | .listRemove => { s with xdevs := xdevListRemove s.xdevs env.hndl, pc := .closed }
  | .closed => s

inductive OpenEv where
  | call (e : LifeEv)
  | timerFires
  | callbackEnds
  | close (fStop fClean : ℕ → ℕ → CmdFate)

/-- A call on the queues, not the cleanup of them all. -/
def LifeEv.onQueue : LifeEv → Bool
  | .cleanup _ _ => false
  | _ => true

/-- An open device.  The callback (`qdma_mbox_proc`) ends with the flag: it arms the timer
unless the device is offline. -/
def openSys (env : OpenEnv) : System OpenXdev OpenEv where
  step s
    | .call e => { s with dev := lifeStep s.dev e }
    | .timerFires => { s with timer := { armed := false, running := true } }
    | .callbackEnds =>
        let s := if s.offline then s.timerStop else s.timerStart
        { s with timer := { s.timer with running := false } }
    | .close fStop fClean => closeStep env fStop fClean s
  guard s
    | .call e => s.pc = .opened ∧ e.onQueue = true ∧ lifeSys.guard s.dev e
    | .timerFires => s.timer.armed = true
    | .callbackEnds => s.timer.running = true
    | .close _ _ => s.pc ≠ .closed

/-! ## What a close is for -/

/-- Nothing of the open is left. -/
structure Undone (env : OpenEnv) (s : OpenXdev) : Prop where
  timer : s.timer.armed = false
  channels : ∀ w ∈ env.mmEnables, readBack s.dev.mmio env.regs w.1 = 0
  irqs : s.irqs = []
  bars : s.bars.mapped = []
  listed : ∀ d ∈ s.xdevs, d.hndl ≠ env.hndl

/-- No C2H channel was set running. -/
def NoC2hChannel (env : OpenEnv) : Prop :=
  env.vf = true ∨ env.funcId ≠ 0 ∨ env.c2hChannelMax = 0

/-- The timer is stopped while its callback is not running. -/
def StopsIdle (s : OpenXdev) : OpenEv → Prop
  | .close _ _ => s.pc = .timerStop → s.timer.running = false
  | _ => True

instance (env : OpenEnv) : Decidable (NoC2hChannel env) :=
  inferInstanceAs (Decidable (_ ∨ _ ∨ _))

/-! ## Calls on the queues -/

/-- What a call on the queues leaves alone: it rings doorbells. -/
structure CallFrame (dev dev' : XlnxDmaDev) : Prop where
  numVecs : dev'.numVecs = dev.numVecs
  funcId : dev'.funcId = dev.funcId
  present : dev'.present = dev.present
  mmio : ∃ bells, dev'.mmio = dev.mmio ++ bells ∧ ∀ w ∈ bells, qdmaRegIntCidxBase ≤ w.1

namespace CallFrame

variable {dev dev' dev'' : XlnxDmaDev}

theorem of_mmio (hn : dev'.numVecs = dev.numVecs) (hf : dev'.funcId = dev.funcId)
    (hp : dev'.present = dev.present) (hm : dev'.mmio = dev.mmio) : CallFrame dev dev' :=
  ⟨hn, hf, hp, [], by rw [hm, List.append_nil], fun w hw => by cases hw⟩

theorem refl (dev : XlnxDmaDev) : CallFrame dev dev := of_mmio rfl rfl rfl rfl

theorem trans (h : CallFrame dev dev') (h' : CallFrame dev' dev'') : CallFrame dev dev'' := by
  obtain ⟨bells, hm, hb⟩ := h.mmio
  obtain ⟨bells', hm', hb'⟩ := h'.mmio
  refine ⟨h'.numVecs.trans h.numVecs, h'.funcId.trans h.funcId, h'.present.trans h.present,
    bells ++ bells', ?_, ?_⟩
  · rw [hm', hm, List.append_assoc]
  · intro w hw
    exact (List.mem_append.mp hw).elim (hb w) (hb' w)

theorem setDescq (dev : XlnxDmaDev) (q : ℕ) (d : QdmaDescq) : CallFrame dev (dev.setDescq q d) :=
  of_mmio rfl rfl rfl rfl

theorem add (dev : XlnxDmaDev) (qconf : QdmaQueueConf) :
    CallFrame dev (qdmaQueueAdd dev qconf).2.2 := by
  generalize (qdmaQueueAdd dev qconf).2.2 = r, addRun dev qconf = hrun
  cases hrun with
  | fails h c => exact of_mmio rfl rfl rfl rfl
  | adds h c i hi hfree => exact of_mmio rfl rfl rfl rfl

theorem allocIrq (dev : XlnxDmaDev) (q : ℕ) : CallFrame dev (descAllocIrq dev q) := by
  obtain ⟨cnt, idx, hirq, -⟩ := descAllocIrq_eq dev q
  rw [hirq]
  exact of_mmio rfl rfl rfl rfl

theorem allocResource (al : RingAllocs) (dev : XlnxDmaDev) (q : ℕ) :
    CallFrame dev (qdmaDescqAllocResource al dev q).2 := by
  unfold qdmaDescqAllocResource
  generalize descqAllocRings al (dev.descq q) = r
  dsimp only
  split
  · exact setDescq dev q r.2
  · exact (setDescq dev q r.2).trans (allocIrq _ q)

theorem errOut (clear : ℕ → CmdFate) (dev : XlnxDmaDev) (q : ℕ) :
    CallFrame dev (startErrOut clear dev q) := by
  rw [startErrOut_eq]
  exact of_mmio rfl rfl rfl rfl

/-- Every doorbell is behind the first register of `intr_cidx_update`. -/
theorem bell_le (d : QdmaDescq) (idx : ℕ) :
    qdmaRegIntCidxBase ≤ (descqPidxUpdate d idx).1 ∧
      qdmaRegIntCidxBase ≤ (descqWrbCidxUpdate d idx).1 ∧
        qdmaRegIntCidxBase ≤ (intrCidxUpdate d idx).1 := by
  unfold descqPidxUpdate descqWrbCidxUpdate intrCidxUpdate
  have hh2c : qdmaRegIntCidxBase ≤ qdmaRegH2cPidxBase := by decide
  have hc2h : qdmaRegIntCidxBase ≤ qdmaRegC2hPidxBase := by decide
  have hwrb : qdmaRegIntCidxBase ≤ qdmaRegWrbCidxBase := by decide
  refine ⟨?_, ?_, ?_⟩
  · dsimp only
    split
    · omega
    · omega
  · dsimp only
    omega
  · dsimp only
    omega

theorem progHw (f : SetupFates) (dev : XlnxDmaDev) (q : ℕ) :
    CallFrame dev (qdmaDescqProgHw f dev q).2 := by
  unfold qdmaDescqProgHw
  generalize dev.descq q = d
  dsimp only
  split
  · exact of_mmio rfl rfl rfl rfl
  · refine ⟨rfl, rfl, rfl, _, List.append_assoc _ _ _, fun w hw => ?_⟩
    obtain hw | hw := List.mem_append.mp hw
    · split at hw
      · obtain rfl | hw := List.mem_cons.mp hw
        · exact (bell_le d 0).2.1
        · rw [List.mem_singleton.mp hw]
          exact (bell_le d _).1
      · cases hw
    · rw [List.mem_singleton.mp hw]
      exact (bell_le d 0).2.2

theorem addWork (dev : XlnxDmaDev) (q : ℕ) : CallFrame dev (qdmaThreadAddWork dev q) := by
  obtain ⟨w, b, hwork⟩ := threadAddWork_eq dev q
  rw [hwork]
  exact of_mmio rfl rfl rfl rfl

theorem start (env : StartEnv) (dev : XlnxDmaDev) (id : ℕ) :
    CallFrame dev (qdmaQueueStart env dev id).2 := by
  unfold qdmaQueueStart
  cases dev.getDescqById id true with
  | none => exact refl dev
  | some q =>
      dsimp only
      split
      · exact refl dev
      · have halloc := allocResource env.al dev q
        generalize qdmaDescqAllocResource env.al dev q = r at halloc ⊢
        split
        · exact halloc.trans (errOut env.clear r.2 q)
        · have hprog := (halloc.trans (setDescq r.2 q { r.2.descq q with inited := true })).trans
            (progHw env.setup _ q)
          generalize qdmaDescqProgHw env.setup _ q = r' at hprog ⊢
          split
          · exact hprog.trans (errOut env.clear r'.2 q)
          · exact (hprog.trans (setDescq r'.2 q _)).trans (addWork _ q)

theorem stop (f : ℕ → CmdFate) (dev : XlnxDmaDev) (id : ℕ) :
    CallFrame dev (qdmaQueueStop f dev id).2 := by
  by_cases hq : id < 2 * dev.qmax ∧ (dev.descq id).enabled = true
  · rw [qdmaQueueStop_eq f hq.1 hq.2, threadRemoveWork_eq]
    exact of_mmio rfl rfl rfl rfl
  · rw [qdmaQueueStop_rejected f hq]
    exact refl dev

theorem remove (f : ℕ → CmdFate) (dev : XlnxDmaDev) (id : ℕ) :
    CallFrame dev (qdmaQueueRemove f dev id).2 := by
  by_cases hq : id < 2 * dev.qmax ∧ (dev.descq id).enabled = true
  · obtain ⟨h, c, cnt, hrem⟩ := qdmaQueueRemove_eq f hq.1 hq.2
    rw [hrem]
    exact of_mmio rfl rfl rfl rfl
  · rw [qdmaQueueRemove_rejected f hq]
    exact refl dev

/-- **One call.** -/
theorem call (dev : XlnxDmaDev) {e : LifeEv} (he : e.onQueue = true) :
    CallFrame dev (lifeStep dev e) := by
  cases e with
  | add qconf => exact add dev qconf
  | start id env => exact start env dev id
  | stop id f => exact stop f dev id
  | remove id f => exact remove f dev id
  | cleanup fStop fClean => cases he

/-- The loops of `qdma_device_cleanup` over the queues. -/
theorem foldl {f : XlnxDmaDev → ℕ → XlnxDmaDev} (hf : ∀ dev q, CallFrame dev (f dev q)) :
    ∀ (qs : List ℕ) (dev : XlnxDmaDev), CallFrame dev (qs.foldl f dev) := by
  intro qs
  induction qs with
  | nil => intro dev; exact refl dev
  | cons q qs ih =>
      intro dev
      exact (hf dev q).trans (ih (f dev q))

theorem stopAll (f : ℕ → ℕ → CmdFate) (dev : XlnxDmaDev) : CallFrame dev (Qdma.stopAll f dev) := by
  refine foldl (fun dev q => ?_) _ dev
  split
  · exact stop (f q) dev q
  · exact refl dev

end CallFrame

/-- The last loops of `qdma_device_cleanup` do not even ring doorbells. -/
theorem cleanupAll_frame (f : ℕ → ℕ → CmdFate) (dev : XlnxDmaDev) :
    (cleanupAll f dev).numVecs = dev.numVecs ∧ (cleanupAll f dev).funcId = dev.funcId ∧
      (cleanupAll f dev).mmio = dev.mmio := by
  unfold cleanupAll
  generalize List.range (2 * dev.qmax) = qs
  induction qs generalizing dev with
  | nil => exact ⟨rfl, rfl, rfl⟩
  | cons q qs ih =>
      obtain ⟨cnt, hclean⟩ := qdmaDescqCleanup_eq (f q) dev q
      obtain ⟨hn, hf, hm⟩ := ih (qdmaDescqCleanup (f q) dev q)
      rw [hclean] at hn hf hm
      rw [List.foldl_cons, hclean]
      exact ⟨hn, hf, hm⟩

/-! ## The BARs and the interrupts -/

/-- The table records what is mapped. -/
theorem xdevMapBarsLoop_mapped (env : OpenEnv) :
    ∀ (n i : ℕ) {t : BarTable}, (∀ j, i ≤ j → t.bar j = none) →
      t.mapped = (List.range i).filterMap t.bar →
        (xdevMapBarsLoop env n i t).mapped =
          (List.range (i + n)).filterMap (xdevMapBarsLoop env n i t).bar := by
  intro n
  induction n with
  | zero => intro i t _ h; exact h
  | succ n ih =>
      intro i t hnone h
      unfold xdevMapBarsLoop
      cases env.iomap i with
      | none =>
          -- the BARs from here on stay empty
          have hrest : ((List.range (n + 1)).map (i + ·)).filterMap t.bar = [] := by
            rw [List.filterMap_eq_nil_iff]
            intro j hj
            obtain ⟨k, -, rfl⟩ := List.mem_map.mp hj
            exact hnone _ (Nat.le_add_right i k)
          rw [List.range_add, List.filterMap_append, hrest, List.append_nil]
          exact h
      | some addr =>
          dsimp only
          have hidx : i + (n + 1) = i + 1 + n := by omega
          rw [hidx]
          refine ih (i + 1) (fun j hj => ?_) ?_
          · exact (Function.update_of_ne (by omega) _ _).trans (hnone j (by omega))
          · have hbefore : (List.range i).filterMap (Function.update t.bar i (some addr)) =
                (List.range i).filterMap t.bar := by
              refine List.filterMap_congr fun j hj => ?_
              exact Function.update_of_ne (Nat.ne_of_lt (List.mem_range.mp hj)) _ _
            dsimp only
            rw [List.range_succ, List.filterMap_append, hbefore, ← h, List.filterMap_cons,
              Function.update_self, List.filterMap_nil]

/-- Unmapping gives back what the table records. -/
theorem xdevUnmapBarsLoop_mapped :
    ∀ (n i : ℕ) (t : BarTable), (xdevUnmapBarsLoop n i t).mapped =
      giveBack t.mapped ((List.range' i n).filterMap t.bar) := by
  intro n
  induction n with
  | zero => intro i t; rfl
  | succ n ih =>
      intro i t
      unfold xdevUnmapBarsLoop
      rw [List.range'_succ]
      cases hbar : t.bar i with
      | none =>
          dsimp only
          rw [ih, List.filterMap_cons_none hbar]
      | some addr =>
          have hlater : (List.range' (i + 1) n).filterMap (Function.update t.bar i none) =
              (List.range' (i + 1) n).filterMap t.bar := by
            refine List.filterMap_congr fun j hj => ?_
            have hlt := (List.mem_range'_1.mp hj).1
            exact Function.update_of_ne (by omega) _ _
          dsimp only
          rw [ih, List.filterMap_cons_some hbar, giveBack_cons, hlater]

/-- **The BARs**: what an open maps a close unmaps. -/
theorem xdevUnmapBars_mapBars (env : OpenEnv) (h : (xdevMapBars env).1 = 0) :
    (xdevUnmapBars (xdevMapBars env).2).mapped = [] := by
  unfold xdevMapBars at h ⊢
  have hmapped := xdevMapBarsLoop_mapped env xdmaMaxBars 0
    (t := ⟨fun _ => none, [], if env.vf then some 0 else none⟩) (fun _ _ => rfl) rfl
  generalize xdevMapBarsLoop env xdmaMaxBars 0 _ = t at h hmapped ⊢
  dsimp only at h ⊢
  split at h
  · have hneg : -einval ≠ 0 := by decide
    exact absurd h hneg
  · rename_i hfound
    rw [if_neg hfound]
    unfold xdevUnmapBars
    rw [xdevUnmapBarsLoop_mapped, hmapped, Nat.zero_add, List.range_eq_range']
    exact giveBack_of_perm (List.Perm.refl _)

/-- The interrupts are given back from the last to the first. -/
theorem freeIrqLoop_eq (vector : ℕ → ℕ) :
    ∀ (n : ℕ) (irqs : List ℕ),
      freeIrqLoop vector n irqs = giveBack irqs ((List.range n).map vector).reverse := by
  intro n
  induction n with
  | zero => intro irqs; rfl
  | succ n ih =>
      intro irqs
      rw [freeIrqLoop, ih, List.range_succ, List.map_append, List.reverse_append]
      rfl

theorem requestIrqLoop_eq (env : OpenEnv) :
    ∀ (n i : ℕ) (irqs : List ℕ), (requestIrqLoop env n i irqs).1 = 0 →
      (requestIrqLoop env n i irqs).2 = irqs ++ (List.range' i n).map env.vector := by
  intro n
  induction n with
  | zero => intro i irqs _; exact (List.append_nil irqs).symm
  | succ n ih =>
      intro i irqs h
      unfold requestIrqLoop at h ⊢
      split at h
      · rename_i hfail
        exact absurd h hfail
      · rename_i hok
        rw [if_neg hok, ih _ _ h, List.range'_succ, List.map_cons, List.append_assoc]
        rfl

theorem intrSetup_irqs (env : OpenEnv) : (intrSetup env).1 = 0 →
    (intrSetup env).2.2 = (List.range (intrSetup env).2.1).map env.vector := by
  unfold intrSetup
  split
  · intro _
    rfl
  · split
    · intro _
      rfl
    · dsimp only
      split
      · rename_i hfail
        intro h
        exact absurd h (ne_of_lt hfail)
      · intro h
        dsimp only at h ⊢
        rw [requestIrqLoop_eq env _ _ _ h, List.nil_append, ← List.range_eq_range']

/-- **The interrupts**: what an open requests a close frees. -/
theorem freeIrqLoop_intrSetup (env : OpenEnv) (h : (intrSetup env).1 = 0) :
    freeIrqLoop env.vector (intrSetup env).2.1 (intrSetup env).2.2 = [] := by
  rw [freeIrqLoop_eq, intrSetup_irqs env h]
  exact giveBack_of_perm (List.reverse_perm _).symm

/-! ## The channels -/

theorem mmDisables_zero (env : OpenEnv) (f : ℕ) : ∀ w ∈ env.mmDisables f, w.2 = 0 := by
  intro w hw
  unfold OpenEnv.mmDisables at hw
  split at hw
  · cases hw
  · obtain hw | hw := List.mem_append.mp hw
    · obtain ⟨i, -, rfl⟩ := List.mem_map.mp hw
      rfl
    · obtain ⟨i, -, rfl⟩ := List.mem_map.mp hw
      rfl

/-- Both directions are written to the registers of H2C. -/
theorem mmDisables_h2c (env : OpenEnv) (f : ℕ) :
    ∀ w ∈ env.mmDisables f, qdmaRegH2cMmControlBase ≤ w.1 := by
  intro w hw
  unfold OpenEnv.mmDisables at hw
  split at hw
  · cases hw
  · obtain hw | hw := List.mem_append.mp hw
    · obtain ⟨i, -, rfl⟩ := List.mem_map.mp hw
      exact Nat.le_add_right _ _
    · obtain ⟨i, -, rfl⟩ := List.mem_map.mp hw
      exact Nat.le_add_right _ _

/-- Without C2H channels every channel that was set running is turned off. -/
theorem mmEnables_disabled {env : OpenEnv} (h : NoC2hChannel env) :
    ∀ w ∈ env.mmEnables, ∃ w' ∈ env.mmDisables env.funcId, w'.1 = w.1 := by
  intro w hw
  unfold OpenEnv.mmEnables at hw
  split at hw
  · cases hw
  · rename_i hon
    have hzero : env.c2hChannelMax = 0 := by
      obtain hvf | hf | hzero := h
      · exact absurd (Or.inl hvf) hon
      · exact absurd (Or.inr hf) hon
      · exact hzero
    rw [hzero, List.range_zero, List.map_nil, List.append_nil] at hw
    obtain ⟨i, hi, rfl⟩ := List.mem_map.mp hw
    refine ⟨hwMmChannelDisable i true, ?_, rfl⟩
    unfold OpenEnv.mmDisables
    rw [if_neg hon]
    exact List.mem_append_left _ (List.mem_map.mpr ⟨i, hi, rfl⟩)

/-- What the registers saw of a device that is open, and of one whose channels were turned
off. -/
structure MmLog (env : OpenEnv) (off : List (ℕ × BitVec 32)) (mmio : List (ℕ × BitVec 32)) :
    Prop where
  eq : ∃ bells, mmio = (qdmaDeviceInit env).mmio ++ bells ++ off ∧
    ∀ w ∈ bells, qdmaRegIntCidxBase ≤ w.1

/-- **The channels** are off where there was no C2H channel, -/
theorem MmLog.cleared {env : OpenEnv} {mmio : List (ℕ × BitVec 32)}
    (h : MmLog env (env.mmDisables env.funcId) mmio) (hno : NoC2hChannel env) :
    ∀ w ∈ env.mmEnables, readBack mmio env.regs w.1 = 0 := by
  intro w hw
  obtain ⟨bells, hlog, -⟩ := h.eq
  rw [hlog, readBack_append]
  exact readBack_of_forall (fun w' hw' _ => mmDisables_zero env _ w' hw')
    (Or.inl (mmEnables_disabled hno w hw))

/-- and nowhere else: the first C2H channel is still running. -/
theorem MmLog.running {env : OpenEnv} {mmio : List (ℕ × BitVec 32)}
    (h : MmLog env (env.mmDisables env.funcId) mmio) (hno : ¬ NoC2hChannel env) :
    ∃ w ∈ env.mmEnables, readBack mmio env.regs w.1 ≠ 0 := by
  unfold NoC2hChannel at hno
  have hon : ¬ (env.vf = true ∨ env.funcId ≠ 0) := fun hoff =>
    hno (hoff.elim Or.inl fun hf => Or.inr (Or.inl hf))
  have hpos : 0 < env.c2hChannelMax :=
    Nat.pos_of_ne_zero fun hzero => hno (Or.inr (Or.inr hzero))
  have hmem : hwMmChannelEnable 0 false ∈ env.mmEnables := by
    unfold OpenEnv.mmEnables
    rw [if_neg hon]
    exact List.mem_append_right _ (List.mem_map.mpr ⟨0, List.mem_range.mpr hpos, rfl⟩)
  have hreg : (hwMmChannelEnable 0 false).1 = qdmaRegC2hMmControlBase := rfl
  have hbell : qdmaRegC2hMmControlBase < qdmaRegIntCidxBase := by decide
  have hh2c : qdmaRegC2hMmControlBase < qdmaRegH2cMmControlBase := by decide
  obtain ⟨bells, hlog, hbells⟩ := h.eq
  refine ⟨_, hmem, ?_⟩
  have hrun : readBack mmio env.regs (hwMmChannelEnable 0 false).1 = qdmaRegMmControlRun := by
    have hinit : (qdmaDeviceInit env).mmio = hwSetGlobalCsr ++ env.mmEnables := if_neg hon
    rw [hlog, readBack_append, readBack_of_notMem, readBack_append, readBack_of_notMem, hinit,
      readBack_append]
    · refine readBack_of_forall (fun w hw _ => ?_) (Or.inl ⟨_, hmem, rfl⟩)
      unfold OpenEnv.mmEnables at hw
      rw [if_neg hon] at hw
      obtain hw | hw := List.mem_append.mp hw
      · obtain ⟨i, -, rfl⟩ := List.mem_map.mp hw
        rfl
      · obtain ⟨i, -, rfl⟩ := List.mem_map.mp hw
        rfl
    · intro w hw
      rw [hreg]
      exact Nat.ne_of_gt (hbell.trans_le (hbells w hw))
    · intro w hw
      rw [hreg]
      exact Nat.ne_of_gt (hh2c.trans_le (mmDisables_h2c env _ w hw))
  rw [hrun]
  decide

/-! ## A run -/

/-- What a successful open has found. -/
structure Opens (env : OpenEnv) (l : List Xdev) : Prop where
  pdev : env.pdev ≠ 0
  new : xdevFindByPdev l env.pdev = none
  bars : (xdevMapBars env).1 = 0
  irqs : (intrSetup env).1 = 0

/-- A check that is passed: the other branch has no device. -/
theorem passed_of_eq_some {c : Prop} [Decidable c] {rv : ℤ} {r : ℤ × Option OpenXdev}
    {s : OpenXdev} (h : (if c then (rv, none) else r) = (0, some s)) : ¬ c ∧ r = (0, some s) := by
  by_cases hc : c
  · rw [if_pos hc] at h
    cases h
  · rw [if_neg hc] at h
    exact ⟨hc, h⟩

theorem deviceOpen_eq_some {env : OpenEnv} {l : List Xdev} {s : OpenXdev}
    (h : deviceOpen env l = (0, some s)) : Opens env l ∧ s = newXdev env l := by
  unfold deviceOpen at h
  obtain ⟨hpdev, h⟩ := passed_of_eq_some h
  obtain ⟨hfound, h⟩ := passed_of_eq_some h
  obtain ⟨-, h⟩ := passed_of_eq_some h
  obtain ⟨-, h⟩ := passed_of_eq_some h
  obtain ⟨-, h⟩ := passed_of_eq_some h
  obtain ⟨-, h⟩ := passed_of_eq_some h
  obtain ⟨hbars, h⟩ := passed_of_eq_some h
  obtain ⟨hirqs, h⟩ := passed_of_eq_some h
  obtain ⟨-, h⟩ := passed_of_eq_some h
  obtain ⟨-, h⟩ := passed_of_eq_some h
  refine ⟨⟨hpdev, ?_, not_not.mp hbars, not_not.mp hirqs⟩, ?_⟩
  · exact Option.not_isSome_iff_eq_none.mp hfound
  · cases h
    rfl

/-- With memory and queues it succeeds. -/
theorem deviceOpen_of_opens {env : OpenEnv} {l : List Xdev} (h : Opens env l)
    (hpci : env.requestRegions = 0 ∧ env.enableDevice = 0 ∧ env.dmaMaskSet = 0)
    (hmem : env.xdevAlloc = true ∧ env.qdevAlloc = true) (hq : env.qsetsMax ≠ 0) :
    deviceOpen env l = (0, some (newXdev env l)) := by
  have hnew : ¬ (xdevFindByPdev l env.pdev).isSome = true := by
    rw [h.new]
    exact Bool.false_ne_true
  obtain ⟨hreq, hen, hmask⟩ := hpci
  unfold deviceOpen
  rw [if_neg h.pdev, if_neg hnew, if_neg (not_not.mpr hreq), if_neg (not_not.mpr hen),
    if_neg (not_not.mpr hmask), hmem.1, if_neg (by decide), if_neg (not_not.mpr h.bars),
    if_neg (not_not.mpr h.irqs), if_neg hq, hmem.2, if_neg (by decide)]

/-- The device is found by its PCI function. -/
theorem Opens.check {env : OpenEnv} {l : List Xdev} (h : Opens env l) :
    xdevCheckHndl (xdevListAdd l env.hndl env.pdev) env.pdev env.hndl = 0 := by
  obtain ⟨idx, hadd⟩ : ∃ idx, xdevListAdd l env.hndl env.pdev =
      l ++ [{ hndl := env.hndl, pdev := env.pdev, idx := idx }] := by
    unfold xdevListAdd
    split
    · exact ⟨_, rfl⟩
    · exact ⟨_, rfl⟩
  have hfind : xdevFindByPdev (xdevListAdd l env.hndl env.pdev) env.pdev =
      some { hndl := env.hndl, pdev := env.pdev, idx := idx } := by
    have hnew := h.new
    unfold xdevFindByPdev at hnew ⊢
    rw [hadd, List.find?_append, hnew, Option.none_or, List.find?_cons_of_pos]
    exact decide_eq_true rfl
  unfold xdevCheckHndl
  rw [if_neg h.pdev, hfind]
  dsimp only
  rw [if_neg (not_not.mpr rfl), if_neg (not_not.mpr rfl)]

/-- How many steps of the close are behind. -/
def ClosePc.rank : ClosePc → ℕ
  | .opened => 0
  | .stopQueues => 1
  | .intrTeardown => 2
  | .mmDisable => 3
  | .descqCleanup => 4
  | .timerStop => 5
  | .unmapBars => 6
  | .releaseRegions => 7
  | .listRemove => 8
  | .closed => 9

/-- What the device still holds: each thing is there until its step of the close. -/
structure OpenInv (env : OpenEnv) (l : List Xdev) (s : OpenXdev) : Prop where
  numVecs : s.dev.numVecs = (intrSetup env).2.1
  funcId : s.dev.funcId = env.funcId
  online : s.offline = false
  present : s.pc.rank ≤ 4 → s.dev.present = true
  irqs : s.irqs = if s.pc.rank ≤ 2 then (intrSetup env).2.2 else []
  channels : MmLog env (if s.pc.rank ≤ 3 then [] else env.mmDisables env.funcId) s.dev.mmio
  bars : if s.pc.rank ≤ 6 then s.bars = (xdevMapBars env).2 else s.bars.mapped = []
  listed : if s.pc.rank ≤ 8 then s.xdevs = xdevListAdd l env.hndl env.pdev
    else ∀ d ∈ s.xdevs, d.hndl ≠ env.hndl

namespace OpenInv

variable {env : OpenEnv} {l : List Xdev} {s : OpenXdev}

theorem new (env : OpenEnv) (l : List Xdev) : OpenInv env l (newXdev env l) where
  numVecs := rfl
  funcId := rfl
  online := rfl
  present _ := rfl
  irqs := rfl
  channels := ⟨[], by rw [List.append_nil]; exact (List.append_nil _).symm, fun w hw => by cases hw⟩
  bars := rfl
  listed := rfl

/-- Only the timer is different. -/
theorem withTimer (h : OpenInv env l s) (t : MboxTimer) : OpenInv env l { s with timer := t } :=
  ⟨h.numVecs, h.funcId, h.online, h.present, h.irqs, h.channels, h.bars, h.listed⟩

/-- The queues are different, and the close has not come to the channels. -/
theorem withDev (h : OpenInv env l s) (hpc : s.pc.rank ≤ 3) {dev : XlnxDmaDev}
    (hd : CallFrame s.dev dev) : OpenInv env l { s with dev := dev } := by
  obtain ⟨bells, hlog, hbells⟩ := h.channels.eq
  obtain ⟨bells', hlog', hbells'⟩ := hd.mmio
  rw [if_pos hpc, List.append_nil] at hlog
  refine ⟨hd.numVecs.trans h.numVecs, hd.funcId.trans h.funcId, h.online, fun hp => ?_, h.irqs, ?_,
    h.bars, h.listed⟩
  · exact hd.present.trans (h.present hp)
  · refine ⟨bells ++ bells', ?_, fun w hw => ?_⟩
    · change dev.mmio = _ ++ if s.pc.rank ≤ 3 then [] else _
      rw [if_pos hpc, List.append_nil, hlog', hlog, List.append_assoc]
    · exact (List.mem_append.mp hw).elim (hbells w) (hbells' w)

/-- **One step of the close.** -/
theorem close (ho : Opens env l) (h : OpenInv env l s) (fStop fClean : ℕ → ℕ → CmdFate)
    (hopen : s.pc ≠ .closed) :
    OpenInv env l (closeStep env fStop fClean s) ∧
      (closeStep env fStop fClean s).pc.rank = s.pc.rank + 1 ∧
        (closeStep env fStop fClean s).timer =
          if s.pc = .timerStop then { s.timer with armed := false } else s.timer := by
  obtain ⟨dev, xdevs, bars, irqs, msix, regions, enabled, offline, timer, pc⟩ := s
  have hpresent : pc.rank ≤ 4 → dev.present = true := h.present
  have hlisted := h.listed
  have hlog := h.channels
  have hlate : ∀ {k : ℕ}, ¬ k + 5 ≤ 4 := by
    intro k
    omega
  cases pc with
  | opened =>
      have hok : ¬ (env.hndl = 0 ∨ xdevCheckHndl xdevs env.pdev env.hndl < 0) := by
        have hlist : xdevs = xdevListAdd l env.hndl env.pdev := hlisted
        rw [hlist, ho.check]
        exact fun hbad => hbad.elim env.hndl_ne (lt_irrefl _)
      unfold closeStep
      dsimp only
      rw [if_neg hok]
      refine ⟨⟨h.numVecs, h.funcId, h.online, fun _ => hpresent (Nat.zero_le 4), h.irqs, hlog,
        h.bars, hlisted⟩, rfl, rfl⟩
  | stopQueues =>
      have hhere : dev.present = true := hpresent (by decide)
      have hstop := withDev h (Nat.le_add_left 1 2) (CallFrame.stopAll fStop dev)
      unfold closeStep
      dsimp only
      rw [hhere, if_neg (by decide)]
      refine ⟨⟨hstop.numVecs, hstop.funcId, hstop.online, fun _ => hstop.present (Nat.le_add_left 1 3),
        hstop.irqs, hstop.channels, hstop.bars, hstop.listed⟩, rfl, rfl⟩
  | intrTeardown =>
      have hirqs : freeIrqLoop env.vector dev.numVecs irqs = [] := by
        have hn : dev.numVecs = (intrSetup env).2.1 := h.numVecs
        have hheld : irqs = (intrSetup env).2.2 := h.irqs
        rw [hn, hheld]
        exact freeIrqLoop_intrSetup env ho.irqs
      unfold closeStep
      dsimp only
      exact ⟨⟨h.numVecs, h.funcId, h.online, fun _ => hpresent (by decide), hirqs, hlog, h.bars,
        hlisted⟩, rfl, rfl⟩
  | mmDisable =>
      obtain ⟨bells, heq, hbells⟩ := hlog.eq
      have hf : dev.funcId = env.funcId := h.funcId
      unfold closeStep
      dsimp only
      refine ⟨⟨h.numVecs, h.funcId, h.online, fun _ => hpresent (by decide), h.irqs,
        ⟨bells, ?_, hbells⟩, h.bars, hlisted⟩, rfl, rfl⟩
      change dev.mmio ++ env.mmDisables dev.funcId = _ ++ env.mmDisables env.funcId
      change dev.mmio = _ ++ [] at heq
      rw [heq, hf, List.append_nil]
  | descqCleanup =>
      obtain ⟨hn, hf, hm⟩ := cleanupAll_frame fClean dev
      obtain ⟨bells, heq, hbells⟩ := hlog.eq
      unfold closeStep
      dsimp only
      exact ⟨⟨hn.trans h.numVecs, hf.trans h.funcId, h.online, fun hp => absurd hp hlate, h.irqs,
        ⟨bells, hm.trans heq, hbells⟩, h.bars, hlisted⟩, rfl, rfl⟩
  | timerStop =>
      unfold closeStep OpenXdev.timerStop
      dsimp only
      exact ⟨⟨h.numVecs, h.funcId, h.online, fun hp => absurd hp hlate, h.irqs, hlog, h.bars,
        hlisted⟩, rfl, rfl⟩
  | unmapBars =>
      have hbars : bars = (xdevMapBars env).2 := h.bars
      unfold closeStep
      dsimp only
      refine ⟨⟨h.numVecs, h.funcId, h.online, fun hp => absurd hp hlate, h.irqs, hlog, ?_,
        hlisted⟩, rfl, rfl⟩
      rw [hbars]
      exact xdevUnmapBars_mapBars env ho.bars
  | releaseRegions =>
      unfold closeStep
      dsimp only
      exact ⟨⟨h.numVecs, h.funcId, h.online, fun hp => absurd hp hlate, h.irqs, hlog, h.bars,
        hlisted⟩, rfl, rfl⟩
  | listRemove =>
      unfold closeStep
      dsimp only
      refine ⟨⟨h.numVecs, h.funcId, h.online, fun hp => absurd hp hlate, h.irqs, hlog, h.bars,
        ?_⟩, rfl, rfl⟩
      intro d hd
      exact of_decide_eq_true (List.mem_filter.mp hd).2
  | closed => exact absurd rfl hopen

/-- The end of a callback arms the timer of a device that is online. -/
theorem callbackEnds_eq (h : OpenInv env l s) :
    (openSys env).step s .callbackEnds = { s with timer := { armed := true, running := false } } := by
  have harms : (if s.offline then s.timerStop else s.timerStart) = s.timerStart := by
    rw [h.online]
    rfl
  unfold openSys
  dsimp only
  rw [harms]
  rfl

/-- **One step.** -/
theorem step (ho : Opens env l) (h : OpenInv env l s) {e : OpenEv}
    (hg : (openSys env).guard s e) : OpenInv env l ((openSys env).step s e) := by
  cases e with
  | call e =>
      obtain ⟨hpc, hq, -⟩ := hg
      refine withDev h ?_ (CallFrame.call s.dev hq)
      rw [hpc]
      exact Nat.zero_le 3
  | timerFires => exact withTimer h _
  | callbackEnds =>
      rw [callbackEnds_eq h]
      exact withTimer h _
  | close fStop fClean => exact (close ho h fStop fClean hg).1

end OpenInv

/-! ## The timer -/

/-- The timer will run again, or its callback is running. -/
def MboxTimer.Live (t : MboxTimer) : Prop := t.armed = true ∨ t.running = true

section Timer

variable {env : OpenEnv} {l : List Xdev} {s : OpenXdev}

theorem rank_eq_timerStop {pc : ClosePc} : pc.rank = 5 ↔ pc = .timerStop := by
  cases pc with
  | timerStop => exact ⟨fun _ => rfl, fun _ => rfl⟩
  | _ => exact ⟨nofun, nofun⟩

/-- **A live timer stays live** unless it is stopped between two callbacks. -/
theorem live_step (ho : Opens env l) (h : OpenInv env l s) (hlive : s.timer.Live) {e : OpenEv}
    (hg : (openSys env).guard s e)
    (hstop : ∀ fStop fClean, e = .close fStop fClean → s.pc = .timerStop →
      s.timer.running = true) :
    ((openSys env).step s e).timer.Live := by
  cases e with
  | call e => exact hlive
  | timerFires => exact Or.inr rfl
  | callbackEnds =>
      rw [h.callbackEnds_eq]
      exact Or.inl rfl
  | close fStop fClean =>
      obtain ⟨-, -, htimer⟩ := h.close ho fStop fClean hg
      change (closeStep env fStop fClean s).timer.Live
      rw [htimer]
      by_cases hpc : s.pc = .timerStop
      · -- stopped in the middle of a callback
        rw [if_pos hpc]
        exact Or.inr (hstop fStop fClean rfl hpc)
      · rw [if_neg hpc]
        exact hlive

/-- Behind its stop the timer is idle. -/
structure Stopped (env : OpenEnv) (l : List Xdev) (s : OpenXdev) : Prop where
  inv : OpenInv env l s
  idle : 5 < s.pc.rank → s.timer.armed = false ∧ s.timer.running = false

/-- **The timer** where it is stopped between two callbacks. -/
theorem Stopped.step (ho : Opens env l) (h : Stopped env l s) {e : OpenEv}
    (hg : ((openSys env).restrict StopsIdle).guard s e) :
    Stopped env l ((openSys env).step s e) := by
  obtain ⟨hg, hstop⟩ := hg
  refine ⟨h.inv.step ho hg, fun hrank => ?_⟩
  cases e with
  | call e => exact h.idle hrank
  | timerFires =>
      have harmed : s.timer.armed = true := hg
      rw [(h.idle hrank).1] at harmed
      cases harmed
  | callbackEnds =>
      have hrun : s.timer.running = true := hg
      rw [h.inv.callbackEnds_eq] at hrank
      rw [(h.idle hrank).2] at hrun
      cases hrun
  | close fStop fClean =>
      obtain ⟨-, hnext, htimer⟩ := h.inv.close ho fStop fClean hg
      change 5 < (closeStep env fStop fClean s).pc.rank at hrank
      change (closeStep env fStop fClean s).timer.armed = false ∧
        (closeStep env fStop fClean s).timer.running = false
      rw [hnext] at hrank
      rw [htimer]
      by_cases hpc : s.pc = .timerStop
      · rw [if_pos hpc]
        exact ⟨rfl, hstop hpc⟩
      · rw [if_neg hpc]
        refine h.idle ?_
        have hne : s.pc.rank ≠ 5 := fun heq => hpc (rank_eq_timerStop.mp heq)
        omega

/-- Once live behind its stop, the timer is live for ever. -/
theorem live_run (ho : Opens env l) :
    ∀ (es : List OpenEv) {s : OpenXdev}, OpenInv env l s → s.timer.Live → 5 < s.pc.rank →
      (openSys env).Admits s es → ((openSys env).exec s es).timer.Live := by
  intro es s h hlive hrank hrun
  refine ((openSys env).invariant
    (I := fun s => OpenInv env l s ∧ s.timer.Live ∧ 5 < s.pc.rank) ?_ es ⟨h, hlive, hrank⟩ hrun).2.1
  rintro s e ⟨h, hlive, hrank⟩ hg
  have hpc : s.pc ≠ .timerStop := fun heq => by
    rw [rank_eq_timerStop.mpr heq] at hrank
    exact lt_irrefl _ hrank
  refine ⟨h.step ho hg, live_step ho h hlive hg fun _ _ _ heq => absurd heq hpc, ?_⟩
  cases e with
  | close fStop fClean =>
      obtain ⟨-, hnext, -⟩ := h.close ho fStop fClean hg
      change 5 < (closeStep env fStop fClean s).pc.rank
      omega
  | callbackEnds =>
      rw [h.callbackEnds_eq]
      exact hrank
  | _ => exact hrank

/-- A run in which the timer is stopped in the middle of a callback leaves it live. -/
theorem live_of_busy_stop (ho : Opens env l) :
    ∀ (es : List OpenEv) {s : OpenXdev}, OpenInv env l s → (s.pc.rank ≤ 5 → s.timer.Live) →
      (openSys env).Admits s es → ¬ ((openSys env).restrict StopsIdle).Admits s es →
        ((openSys env).exec s es).timer.Live := by
  intro es
  induction es with
  | nil => intro s _ _ _ hbad; exact absurd trivial hbad
  | cons e es ih =>
      intro s h hlive hrun hbad
      obtain ⟨hg, hrest⟩ := hrun
      by_cases hidle : StopsIdle s e
      · -- the stop is later
        refine ih (h.step ho hg) (fun hrank => ?_) hrest fun hgood => hbad ⟨⟨hg, hidle⟩, hgood⟩
        have hsame : s.pc.rank ≤ 5 := by
          cases e with
          | close fStop fClean =>
              obtain ⟨-, hnext, -⟩ := h.close ho fStop fClean hg
              change (closeStep env fStop fClean s).pc.rank ≤ 5 at hrank
              omega
          | callbackEnds =>
              rw [h.callbackEnds_eq] at hrank
              exact hrank
          | _ => exact hrank
        refine live_step ho h (hlive hsame) hg fun fStop fClean he hpc => ?_
        subst he
        obtain ⟨-, hnext, -⟩ := h.close ho fStop fClean hg
        have hfive := rank_eq_timerStop.mpr hpc
        change (closeStep env fStop fClean s).pc.rank ≤ 5 at hrank
        omega
      · -- the stop is here
        cases e with
        | close fStop fClean =>
            have hpc : s.pc = .timerStop := by
              by_contra hne
              exact hidle fun heq => absurd heq hne
            have hbusy : s.timer.running = true := by
              by_contra hoff
              exact hidle fun _ => Bool.eq_false_iff.mpr hoff
            have hnow := live_step ho h (Or.inr hbusy) hg fun _ _ _ _ => hbusy
            obtain ⟨-, hnext, -⟩ := h.close ho fStop fClean hg
            refine live_run ho es (h.step ho hg) hnow ?_ hrest
            change 5 < (closeStep env fStop fClean s).pc.rank
            rw [hnext, hpc]
            exact Nat.lt_succ_self 5
        | _ => exact absurd trivial hidle

end Timer

/-! ## What is left -/

/-- **A close undoes the open**, but for the C2H channels and a callback that is running when
the timer is stopped.  Once no callback is running any more, it does so only then. -/
theorem device_close_undoes (env : OpenEnv) (l : List Xdev) {s : OpenXdev}
    (hopen : deviceOpen env l = (0, some s)) (es : List OpenEv)
    (hrun : (openSys env).Admits s es) (hclosed : ((openSys env).exec s es).pc = .closed) :
    (NoC2hChannel env → ((openSys env).restrict StopsIdle).Admits s es →
      Undone env ((openSys env).exec s es)) ∧
    (Undone env ((openSys env).exec s es) →
      NoC2hChannel env ∧ (((openSys env).exec s es).timer.running = false →
        ((openSys env).restrict StopsIdle).Admits s es)) := by
  obtain ⟨ho, rfl⟩ := deviceOpen_eq_some hopen
  have hinv : OpenInv env l ((openSys env).exec (newXdev env l) es) :=
    (openSys env).invariant (fun s e h hg => h.step ho hg) es (OpenInv.new env l) hrun
  have hlog := hinv.channels
  rw [hclosed] at hlog
  constructor
  · intro hno hidle
    have hstopped : Stopped env l ((openSys env).exec (newXdev env l) es) :=
      ((openSys env).restrict StopsIdle).invariant (fun s e h hg => h.step ho hg) es
        ⟨OpenInv.new env l, fun hrank => absurd hrank (Nat.not_lt_zero 5)⟩ hidle
    have hirqs := hinv.irqs
    have hbars := hinv.bars
    have hlisted := hinv.listed
    have htimer := hstopped.idle
    rw [hclosed] at hirqs hbars hlisted htimer
    exact ⟨(htimer (by decide)).1, hlog.cleared hno, hirqs, hbars, hlisted⟩
  · intro hundone
    refine ⟨?_, fun hquiet => ?_⟩
    · by_contra hno
      obtain ⟨w, hw, hne⟩ := hlog.running hno
      exact hne (hundone.channels w hw)
    · by_contra hbusy
      obtain harmed | hrunning := live_of_busy_stop ho es (OpenInv.new env l)
        (fun _ => Or.inl rfl) hrun hbusy
      · rw [hundone.timer] at harmed
        cases harmed
      · rw [hquiet] at hrunning
        cases hrunning

/-! ## A small device -/

/-- A physical function as the driver opens it: one channel in each direction, polled, with
the configuration in its first BAR. -/
def onePf (funcId : ℕ) : OpenEnv where
  vf := false
  pdev := 1
  hndl := 0x1000
  hndl_ne := Nat.succ_ne_zero 0xFFF
  requestRegions := 0
  enableDevice := 0
  dmaMaskSet := 0
  xdevAlloc := true
  qdevAlloc := true
  iomap i := if i = 0 then some 0x8000 else none
  barId _ := 0x1FD30000
  funcIdReg := funcId
  pollMode := true
  msixVecCount := 0
  enableMsix _ := 0
  vector i := i
  requestIrq _ := 0
  qsetsMax := 1
  qsetsMax_lt := Nat.one_lt_two_pow (Nat.succ_ne_zero 15)
  h2cChannelMax := 1
  c2hChannelMax := 1
  pftchEn := 0
  threadCnt := 1
  threadCnt_pos := Nat.one_pos
  wrkThreads _ := QdmaKthread.idle
  wbThreads _ := QdmaKthread.idle
  ctxt _ _ := ctxtZero
  qid2vec _ := 0
  regs _ := 0

/-- The first BAR is the configuration. -/
theorem xdevMapBars_onePf (funcId : ℕ) : (xdevMapBars (onePf funcId)).1 = 0 := by
  have hid : (onePf funcId).barId 0 &&& 0xFFFF0000#32 = 0x1FD30000#32 := by
    change 0x1FD30000#32 &&& 0xFFFF0000#32 = 0x1FD30000#32
    decide
  have hmap : (onePf funcId).iomap 0 = some 0x8000 := rfl
  have hend : (onePf funcId).iomap 1 = none := rfl
  have hpf : (onePf funcId).vf = false := rfl
  unfold xdevMapBars xdmaMaxBars
  rw [hpf, if_neg Bool.false_ne_true, xdevMapBarsLoop, hmap]
  dsimp only
  rw [xdevMapBarsLoop, Nat.zero_add, hend]
  dsimp only
  have hcfg : (none : Option ℕ) = none ∧
      (onePf funcId).barId 0 &&& 0xFFFF0000#32 = 0x1FD30000#32 := ⟨rfl, hid⟩
  rw [if_pos hcfg, if_neg (Option.some_ne_none 0)]

theorem opens_onePf (funcId : ℕ) : Opens (onePf funcId) [] where
  pdev := Nat.one_ne_zero
  new := rfl
  bars := xdevMapBars_onePf funcId
  irqs := rfl

theorem deviceOpen_onePf (funcId : ℕ) :
    deviceOpen (onePf funcId) [] = (0, some (newXdev (onePf funcId) [])) :=
  deviceOpen_of_opens (opens_onePf funcId) ⟨rfl, rfl, rfl⟩ ⟨rfl, rfl⟩ Nat.one_ne_zero

instance decidableOpenGuard (env : OpenEnv) (s : OpenXdev) :
    ∀ e, Decidable ((openSys env).guard s e) := by
  rintro ⟨⟩ <;> dsimp only [openSys] <;> infer_instance

instance decidableStopsIdle (s : OpenXdev) : ∀ e, Decidable (StopsIdle s e) := by
  rintro ⟨⟩ <;> dsimp only [StopsIdle] <;> infer_instance

instance decidableIdleGuard (env : OpenEnv) (s : OpenXdev) (e : OpenEv) :
    Decidable (((openSys env).restrict StopsIdle).guard s e) :=
  have := decidableOpenGuard env s e
  have := decidableStopsIdle s e
  inferInstanceAs (Decidable (_ ∧ _))

/-- The next `n` steps of a close in which every command completes. -/
def closeSteps (n : ℕ) : List OpenEv :=
  List.replicate n (.close (fun _ _ => .completes) fun _ _ => .completes)

/-- A callback before the close. -/
def closeIdle : List OpenEv := [.timerFires, .callbackEnds] ++ closeSteps 9

/-- A callback that begins before the timer is stopped and ends behind the close. -/
def closeBusy : List OpenEv := closeSteps 4 ++ [.timerFires] ++ closeSteps 5 ++ [.callbackEnds]

/-- A device that is closed between two callbacks, on a function that has no channels. -/
theorem device_close_undoes_idle :
    Undone (onePf 1) ((openSys (onePf 1)).exec (newXdev (onePf 1) []) closeIdle) :=
  (device_close_undoes (onePf 1) [] (deviceOpen_onePf 1) closeIdle (by decide +kernel)
    (by decide +kernel)).1 (by decide) (by decide +kernel)

/-- The first function of the board leaves its C2H channel on; and on any function the timer
can be armed behind the close. -/
theorem device_close_leaves :
    (¬ ∀ (env : OpenEnv) (l : List Xdev) (s : OpenXdev) (es : List OpenEv),
      deviceOpen env l = (0, some s) → (openSys env).Admits s es →
        ((openSys env).exec s es).pc = .closed → Undone env ((openSys env).exec s es)) ∧
    (¬ ∀ (env : OpenEnv) (l : List Xdev) (s : OpenXdev) (es : List OpenEv), NoC2hChannel env →
      deviceOpen env l = (0, some s) → (openSys env).Admits s es →
        ((openSys env).exec s es).pc = .closed →
          ((openSys env).exec s es).timer.armed = false) := by
  constructor
  · intro hall
    have hundone := hall (onePf 0) [] _ closeIdle (deviceOpen_onePf 0) (by decide +kernel)
      (by decide +kernel)
    have hmem : hwMmChannelEnable 0 false ∈ (onePf 0).mmEnables := by decide
    have hrun : readBack ((openSys (onePf 0)).exec (newXdev (onePf 0) []) closeIdle).dev.mmio
        (onePf 0).regs (hwMmChannelEnable 0 false).1 = 1 := by decide +kernel
    have hoff := hundone.channels _ hmem
    rw [hrun] at hoff
    exact absurd hoff (by decide)
  · intro hall
    have hoff := hall (onePf 1) [] _ closeBusy (by decide) (deviceOpen_onePf 1)
      (by decide +kernel) (by decide +kernel)
    have harmed : ((openSys (onePf 1)).exec (newXdev (onePf 1) []) closeBusy).timer.armed =
        true := by decide +kernel
    rw [harmed] at hoff
    cases hoff

end Qdma

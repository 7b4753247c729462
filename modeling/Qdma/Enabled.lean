import Qdma.LifeSpec

/-!
# Enabled contexts and the rings behind them

While the `QEN` bit of a queue's SW context is set the hardware reads descriptors
from the address the context holds and, on a streaming C2H queue, fills the pages of
the free list and writes completion entries.  `ContextsBacked` says that it never
does so over released memory.

Three places can break this.  `qdma_queue_remove` clears `inited` and then calls
`qdma_descq_cleanup`, which clears the contexts only of a queue with `inited` set;
`qdma_queue_stop`, and `qdma_queue_start` after a failure, clear the contexts but
release the rings whatever became of the command.  `clearsTakeEffect` excludes them,
and under it the relation holds through every run (`contexts_backed`).
-/

namespace Qdma

open Lib

/-! ## The property -/

/-- The direction of a handle. -/
def XlnxDmaDev.isC2h (dev : XlnxDmaDev) (q : ℕ) : Bool := decide (dev.qmax ≤ q)

/-- The rings of a queue are allocated where its contexts say. -/
structure AtAddress (c2h : Bool) (ctxt : CtxtStore) (d : QdmaDescq) : Prop where
  desc : ∃ ring, d.desc = some ring ∧ ring.bus = ctxtDescBus (ctxt d.qidxHw (swSel c2h))
  wrb : d.isStC2h = true → ∃ ring, d.descWrb = some ring ∧
    (ring.bus >>> 6).setWidth 58 = ctxtWrbBus64 (ctxt d.qidxHw .wrb)
  fl : d.isStC2h = true → ∃ fls, d.stRxFl = some fls

/-- No enabled context is over released rings. -/
def ContextsBacked (dev : XlnxDmaDev) : Prop :=
  ∀ q < 2 * dev.qmax,
    ctxtQen (dev.ctxt (dev.descq q).qidxHw (swSel (dev.isC2h q))) = true →
      AtAddress (dev.isC2h q) dev.ctxt (dev.descq q)

/-- A removal finds the queue stopped, and the clear of the SW context that
precedes a release takes effect where there is something to clear: in a stop, in a
cleanup, and in a start that fails after its write of the context. -/
def clearsTakeEffect (dev : XlnxDmaDev) : LifeEv → Prop
  | .add _ => True
  | .start _ env => (env.setup.write 0).applied = true → (env.clear 0).applied = true
  | .stop id f => (dev.descq id).inited = true → (f 0).applied = true
  | .remove id _ => (dev.descq id).inited = false
  | .cleanup fStop _ =>
      ∀ q ∈ List.range (2 * dev.qmax), (dev.descq q).inited = true → (fStop q 0).applied = true

instance decidableClearsTakeEffect (dev : XlnxDmaDev) : ∀ e, Decidable (clearsTakeEffect dev e) := by
  rintro ⟨⟩ <;> dsimp only [clearsTakeEffect] <;> infer_instance

def clearedSys : System XlnxDmaDev LifeEv := lifeSys.restrict clearsTakeEffect

instance (dev : XlnxDmaDev) (e : LifeEv) : Decidable (clearedSys.guard dev e) :=
  have := decidableClearsTakeEffect dev e
  inferInstanceAs (Decidable (_ ∧ _))

/-! ## The invariant -/

/-- One queue: its contexts are disabled unless it is `inited`, and then its rings
are where they say. -/
structure QueueBacked (c2h : Bool) (ctxt : CtxtStore) (d : QdmaDescq) : Prop where
  dir : d.enabled = true → d.conf.c2h = c2h
  flags : d.enabled = true → d.FlagsFit
  idle : d.inited = false → ctxtQen (ctxt d.qidxHw (swSel c2h)) = false
  live : d.inited = true → d.enabled = true ∧ AtAddress c2h ctxt d

/-- The hardware queue id of a handle, over the function's first. -/
def XlnxDmaDev.qidxHwOf (dev : XlnxDmaDev) (q : ℕ) : ℕ :=
  u16 (dev.funcId * dev.qmax) + if q < dev.qmax then q else q - dev.qmax

structure Backed (dev : XlnxDmaDev) : Prop where
  ids : ∀ q, (dev.descq q).qidxHw = dev.qidxHwOf q
  queue : ∀ q < 2 * dev.qmax, QueueBacked (dev.isC2h q) dev.ctxt (dev.descq q)

theorem Backed.contextsBacked {dev : XlnxDmaDev} (h : Backed dev) : ContextsBacked dev := by
  intro q hq hqen
  cases hin : (dev.descq q).inited with
  | true => exact ((h.queue q hq).live hin).2
  | false =>
      rw [(h.queue q hq).idle hin] at hqen
      cases hqen

/-! ## Contexts of other queues -/

theorem not_ownSel_sw {st c2h c2h' : Bool} (h : c2h' ≠ c2h) : ¬ OwnSel st c2h (swSel c2h') := by
  rintro (hs | hs | hs | ⟨-, hs | hs⟩)
  · revert hs h
    cases c2h <;> cases c2h' <;> decide
  · exact swSel_ne_hwSel _ _ hs
  · exact swSel_ne_crSel _ _ hs
  · exact swSel_ne_pftch _ hs
  · exact swSel_ne_wrb _ hs

theorem not_ownSel_wrb (st : Bool) : ¬ OwnSel st false .wrb := by
  rintro (hs | hs | hs | ⟨hc, -⟩)
  · exact absurd hs (by decide)
  · exact absurd hs (by decide)
  · exact absurd hs (by decide)
  · rw [Bool.and_false] at hc
    cases hc

/-- Two queues with one hardware id run in opposite directions. -/
theorem isC2h_ne_of_qidxHwOf_eq {dev : XlnxDmaDev} {p q : ℕ} (hne : p ≠ q)
    (h : dev.qidxHwOf p = dev.qidxHwOf q) : dev.isC2h p ≠ dev.isC2h q := by
  unfold XlnxDmaDev.qidxHwOf at h
  unfold XlnxDmaDev.isC2h
  intro hc
  rw [decide_eq_decide] at hc
  by_cases hpm : p < dev.qmax
  · have hqm : q < dev.qmax := by omega
    rw [if_pos hpm, if_pos hqm] at h
    omega
  · have hqm : ¬ q < dev.qmax := by omega
    rw [if_neg hpm, if_neg hqm] at h
    omega

/-- The store differs from `ctxt` at most in what a queue of this id, mode and
direction owns. -/
def OnlyOwn (qidHw : ℕ) (st c2h : Bool) (ctxt ctxt' : CtxtStore) : Prop :=
  ∀ q s, (q = qidHw → ¬ OwnSel st c2h s) → ctxt' q s = ctxt q s

theorem onlyOwn_clear (f : ℕ → CmdFate) (ctxt : CtxtStore) (qidHw : ℕ) (st c2h : Bool) :
    OnlyOwn qidHw st c2h ctxt (qdmaDescqContextClear f ctxt qidHw st c2h).2 :=
  fun _ _ h => contextClear_frame f ctxt h

theorem onlyOwn_setup (f : SetupFates) (ctxt : CtxtStore) (funcId : ℕ) (d : QdmaDescq) :
    OnlyOwn d.qidxHw d.conf.st d.conf.c2h ctxt (qdmaDescqContextSetup f ctxt funcId d).2 :=
  fun _ _ h => contextSetup_frame f ctxt funcId d h

theorem OnlyOwn.trans {qidHw : ℕ} {st c2h : Bool} {ctxt ctxt' ctxt'' : CtxtStore}
    (h₁ : OnlyOwn qidHw st c2h ctxt ctxt') (h₂ : OnlyOwn qidHw st c2h ctxt' ctxt'') :
    OnlyOwn qidHw st c2h ctxt ctxt'' :=
  fun q s h => (h₂ q s h).trans (h₁ q s h)

/-- A queue does not notice what happens to the contexts of another one. -/
theorem QueueBacked.of_onlyOwn {c2h c2h' st : Bool} {ctxt ctxt' : CtxtStore} {d : QdmaDescq}
    {qidHw : ℕ} (h : QueueBacked c2h ctxt d) (hown : OnlyOwn qidHw st c2h' ctxt ctxt')
    (hother : d.qidxHw = qidHw → c2h ≠ c2h') : QueueBacked c2h ctxt' d := by
  have hsw : ctxt' d.qidxHw (swSel c2h) = ctxt d.qidxHw (swSel c2h) :=
    hown _ _ fun hq => not_ownSel_sw (hother hq)
  refine ⟨h.dir, h.flags, ?_, ?_⟩
  · rw [hsw]
    exact h.idle
  · intro hin
    obtain ⟨hen, hat⟩ := h.live hin
    refine ⟨hen, ?_, ?_, hat.fl⟩
    · rw [hsw]
      exact hat.desc
    · intro hst
      have hwrb : ctxt' d.qidxHw .wrb = ctxt d.qidxHw .wrb := by
        refine hown _ _ ?_
        intro hq
        have hc2h : c2h = true := by
          rw [← h.dir hen]
          unfold QdmaDescq.isStC2h at hst
          exact (Bool.and_eq_true_iff.mp hst).2
        have hc2h' : c2h' = false := by
          cases c2h' with
          | false => rfl
          | true => exact absurd hc2h (hother hq)
        rw [hc2h']
        exact not_ownSel_wrb st
      rw [hwrb]
      exact hat.wrb hst

/-- **One queue rewritten**, with at most its own contexts. -/
theorem Backed.update {dev dev' : XlnxDmaDev} (h : Backed dev) {q : ℕ} {d : QdmaDescq} {st : Bool}
    (hqmax : dev'.qmax = dev.qmax) (hfunc : dev'.funcId = dev.funcId)
    (hd : dev'.descq = Function.update dev.descq q d) (hid : d.qidxHw = (dev.descq q).qidxHw)
    (hown : OnlyOwn (dev.descq q).qidxHw st (dev.isC2h q) dev.ctxt dev'.ctxt)
    (hq : q < 2 * dev.qmax) (hbacked : QueueBacked (dev.isC2h q) dev'.ctxt d) : Backed dev' := by
  have hidOf : ∀ p, dev'.qidxHwOf p = dev.qidxHwOf p := by
    intro p
    unfold XlnxDmaDev.qidxHwOf
    rw [hqmax, hfunc]
  have hdir : ∀ p, dev'.isC2h p = dev.isC2h p := by
    intro p
    unfold XlnxDmaDev.isC2h
    rw [hqmax]
  constructor
  · intro p
    rw [hidOf, hd]
    by_cases hp : p = q
    · subst hp
      rw [Function.update_self, hid]
      exact h.ids p
    · rw [Function.update_of_ne hp]
      exact h.ids p
  · intro p hp
    rw [hqmax] at hp
    rw [hdir, hd]
    by_cases hpq : p = q
    · subst hpq
      rw [Function.update_self]
      exact hbacked
    · rw [Function.update_of_ne hpq]
      refine (h.queue p hp).of_onlyOwn hown ?_
      intro hsame
      rw [h.ids p, h.ids q] at hsame
      exact isC2h_ne_of_qidxHwOf_eq hpq hsame

/-! ## The calls -/

section Calls

variable {dev : XlnxDmaDev} {q : ℕ}

/-- A change that touches neither the queues nor the contexts. -/
theorem Backed.of_same {dev' : XlnxDmaDev} (h : Backed dev) (hqmax : dev'.qmax = dev.qmax)
    (hfunc : dev'.funcId = dev.funcId) (hd : dev'.descq = dev.descq)
    (hc : dev'.ctxt = dev.ctxt) : Backed dev' := by
  constructor
  · intro p
    unfold XlnxDmaDev.qidxHwOf
    rw [hd, hqmax, hfunc]
    exact h.ids p
  · intro p hp
    unfold XlnxDmaDev.isC2h
    rw [hd, hc, hqmax]
    rw [hqmax] at hp
    exact h.queue p hp

theorem onlyOwn_refl (qidHw : ℕ) (st c2h : Bool) (ctxt : CtxtStore) :
    OnlyOwn qidHw st c2h ctxt ctxt := fun _ _ _ => rfl

theorem handle_lt {c2h : Bool} {i : ℕ} (hi : i < dev.qmax) : dev.handle c2h i < 2 * dev.qmax := by
  unfold XlnxDmaDev.handle
  split <;> omega

theorem isC2h_handle {c2h : Bool} {i : ℕ} (hi : i < dev.qmax) :
    dev.isC2h (dev.handle c2h i) = c2h := by
  unfold XlnxDmaDev.isC2h XlnxDmaDev.handle
  cases c2h with
  | true => simp
  | false => simpa using hi

/-- `qdma_descq_config` gives values that fit their fields. -/
theorem addedDescq_flagsFit (dev : XlnxDmaDev) (d : QdmaDescq) (qconf : QdmaQueueConf) :
    (addedDescq dev d qconf).FlagsFit := by
  have hstat : (addedDescq dev d qconf).wrbStatDescEn = 1 := rfl
  have htrig : (addedDescq dev d qconf).wrbTrigMode = trigModeAny := rfl
  have hirq : (addedDescq dev d qconf).irqEn = if dev.numVecs = 0 then 0 else 1 := rfl
  refine ⟨?_, by rw [hstat]; decide, by rw [htrig]; decide⟩
  rw [hirq]
  split <;> decide

/-- The two are one queue with one configuration. -/
structure SameIdent (d d' : QdmaDescq) : Prop where
  conf : d'.conf = d.conf
  qidxHw : d'.qidxHw = d.qidxHw
  enabled : d'.enabled = true → d.enabled = true
  irqEn : d'.irqEn = d.irqEn
  wrbStatDescEn : d'.wrbStatDescEn = d.wrbStatDescEn
  wrbTrigMode : d'.wrbTrigMode = d.wrbTrigMode

theorem SameIdent.flagsFit {d d' : QdmaDescq} (h : SameIdent d d') (hf : d.FlagsFit) :
    d'.FlagsFit := by
  refine ⟨?_, ?_, ?_⟩
  · rw [h.irqEn]
    exact hf.irqEn
  · rw [h.wrbStatDescEn]
    exact hf.wrbStatDescEn
  · rw [h.wrbTrigMode]
    exact hf.wrbTrigMode

theorem SameIdent.trans {d d' d'' : QdmaDescq} (h₁ : SameIdent d d') (h₂ : SameIdent d' d'') :
    SameIdent d d'' where
  conf := h₂.conf.trans h₁.conf
  qidxHw := h₂.qidxHw.trans h₁.qidxHw
  enabled h := h₁.enabled (h₂.enabled h)
  irqEn := h₂.irqEn.trans h₁.irqEn
  wrbStatDescEn := h₂.wrbStatDescEn.trans h₁.wrbStatDescEn
  wrbTrigMode := h₂.wrbTrigMode.trans h₁.wrbTrigMode

/-- Allocating the rings leaves the queue's identity and configuration alone. -/
theorem Allocated.sameIdent {d d' : QdmaDescq} (h : Allocated d d') : SameIdent d d' := by
  cases h with
  | plain _ _ _ => exact ⟨rfl, rfl, id, rfl, rfl, rfl⟩
  | stC2h _ _ _ _ _ => exact ⟨rfl, rfl, id, rfl, rfl, rfl⟩

theorem sameIdent_inited (d : QdmaDescq) (idx : ℕ) : SameIdent d (initedDescq d idx) :=
  ⟨rfl, rfl, id, rfl, rfl, rfl⟩

theorem sameIdent_failed (d : QdmaDescq) : SameIdent d (failedDescq d) :=
  ⟨rfl, rfl, id, rfl, rfl, rfl⟩

theorem sameIdent_stopped (d : QdmaDescq) : SameIdent d (stoppedDescq d) :=
  ⟨rfl, rfl, id, rfl, rfl, rfl⟩

/-- A queue whose contexts are disabled need not have rings. -/
theorem QueueBacked.released {c2h : Bool} {ctxt ctxt' : CtxtStore} {d d' : QdmaDescq}
    (h : QueueBacked c2h ctxt d) (hid : SameIdent d d') (hin : d'.inited = false)
    (hqen : ctxtQen (ctxt' d.qidxHw (swSel c2h)) = false) : QueueBacked c2h ctxt' d' where
  dir hen := by
    rw [hid.conf]
    exact h.dir (hid.enabled hen)
  flags hen := hid.flagsFit (h.flags (hid.enabled hen))
  idle _ := by
    rw [hid.qidxHw]
    exact hqen
  live hc := by
    rw [hin] at hc
    cases hc

theorem Backed.add (h : Backed dev) (qconf : QdmaQueueConf) :
    Backed (qdmaQueueAdd dev qconf).2.2 := by
  have hrun := addRun dev qconf
  generalize (qdmaQueueAdd dev qconf).2.2 = dev' at hrun ⊢
  cases hrun with
  | fails _ _ => exact h.of_same rfl rfl rfl rfl
  | adds _ _ i hi hfree =>
      have hq : dev.handle qconf.c2h i < 2 * dev.qmax := handle_lt hi
      have hold := h.queue _ hq
      refine h.update rfl rfl rfl rfl (onlyOwn_refl _ false _ _) hq ?_
      refine ⟨?_, fun _ => addedDescq_flagsFit dev _ qconf, hold.idle, ?_⟩
      · intro _
        exact (isC2h_handle hi).symm
      · -- a queue that is free is not initialised
        intro hin
        rw [(hold.live hin).1] at hfree
        cases hfree

/-- After a setup that succeeded the rings are where the contexts say. -/
theorem atAddress_of_setup_ok {f : SetupFates} {ctxt : CtxtStore} {funcId : ℕ} {d d' : QdmaDescq}
    {idx : ℕ} (hd : Allocated d d') (hflags : d.FlagsFit)
    (hok : ¬ (qdmaDescqContextSetup f ctxt funcId (initedDescq d' idx)).1 < 0) :
    AtAddress d'.conf.c2h (qdmaDescqContextSetup f ctxt funcId (initedDescq d' idx)).2 d' := by
  obtain ⟨hsw, hwrb⟩ := contextSetup_ok hok
  have hfit : (initedDescq d' idx).FlagsFit :=
    (sameIdent_inited d' idx).flagsFit (hd.sameIdent.flagsFit hflags)
  have hbus : ctxtDescBus ((qdmaDescqContextSetup f ctxt funcId (initedDescq d' idx)).2
      d'.qidxHw (swSel d'.conf.c2h)) = d'.descBus :=
    (congrArg ctxtDescBus hsw).trans (ctxtDescBus_makeSwContext funcId _)
  cases hd with
  | plain ring hst _ =>
      have hno : ¬ d.isStC2h = true := by rw [hst]; exact Bool.false_ne_true
      exact ⟨⟨ring, rfl, hbus.symm⟩, fun hc => absurd hc hno, fun hc => absurd hc hno⟩
  | stC2h ring fls wrb hst _ =>
      refine ⟨⟨ring, rfl, hbus.symm⟩, fun hc => ⟨wrb, rfl, ?_⟩, fun _ => ⟨fls, rfl⟩⟩
      exact ((congrArg ctxtWrbBus64 (hwrb hc)).trans
        (ctxtWrbBus64_makeWrbContext funcId hfit)).symm

/-- The SW context after a clear that had an effect, or nothing to clear. -/
theorem qen_clear {f : ℕ → CmdFate} {ctxt : CtxtStore} {qidHw : ℕ} {st c2h : Bool}
    (h : (f 0).applied = false → ctxtQen (ctxt qidHw (swSel c2h)) = false) :
    ctxtQen ((qdmaDescqContextClear f ctxt qidHw st c2h).2 qidHw (swSel c2h)) = false := by
  rw [contextClear_sw]
  cases hf : (f 0).applied with
  | true => exact ctxtQen_zero
  | false => exact h hf

/-- **Rings released over disabled contexts.** -/
theorem Backed.release {dev' : XlnxDmaDev} {d : QdmaDescq} (h : Backed dev) (hq : q < 2 * dev.qmax)
    (hen : (dev.descq q).enabled = true) (hqmax : dev'.qmax = dev.qmax)
    (hfunc : dev'.funcId = dev.funcId) (hd : dev'.descq = Function.update dev.descq q d)
    (hid : SameIdent (dev.descq q) d) (hin : d.inited = false)
    (hown : OnlyOwn (dev.descq q).qidxHw (dev.descq q).conf.st (dev.descq q).conf.c2h
      dev.ctxt dev'.ctxt)
    (hqen : ctxtQen (dev'.ctxt (dev.descq q).qidxHw (swSel (dev.descq q).conf.c2h)) = false) :
    Backed dev' := by
  have hold := h.queue q hq
  rw [hold.dir hen] at hown hqen
  exact h.update hqmax hfunc hd hid.qidxHw hown hq (hold.released hid hin hqen)

/-- Before a start the contexts are disabled. -/
theorem Backed.idle_of_startable (h : Backed dev) (hs : Startable dev q) :
    ctxtQen (dev.ctxt (dev.descq q).qidxHw (swSel (dev.descq q).conf.c2h)) = false := by
  have hold := h.queue q hs.lt
  rw [hold.dir hs.enabled]
  exact hold.idle hs.inited

theorem Backed.start (h : Backed dev) (env : StartEnv) (id : ℕ)
    (hclear : (env.setup.write 0).applied = true → (env.clear 0).applied = true) :
    Backed (qdmaQueueStart env dev id).2 := by
  have hrun := startRun env dev id
  generalize (qdmaQueueStart env dev id).1 = rv at hrun
  generalize (qdmaQueueStart env dev id).2 = dev' at hrun ⊢
  cases hrun with
  | rejected _ _ => exact h
  | allocFails _ hs _ =>
      exact h.release hs.lt hs.enabled rfl rfl rfl (sameIdent_failed _) rfl
        (onlyOwn_clear _ _ _ _ _) (qen_clear fun _ => h.idle_of_startable hs)
  | progFails _ d idx cnt vec hs hd _ _ =>
      have hid := hd.sameIdent
      have hsetup := onlyOwn_setup env.setup dev.ctxt dev.funcId (initedDescq d idx)
      refine h.release hs.lt hs.enabled rfl rfl rfl
        ((hid.trans (sameIdent_inited d idx)).trans (sameIdent_failed _)) rfl ?_ ?_
      · rw [← hid.conf, ← hid.qidxHw]
        exact hsetup.trans (onlyOwn_clear _ _ _ _ _)
      · rw [← hid.conf, ← hid.qidxHw]
        refine qen_clear ?_
        -- the clear had no effect, so neither had the write of the context
        intro hno
        have hwrite : (env.setup.write 0).applied = false := by
          rw [← Bool.not_eq_true]
          intro hw
          rw [hclear hw] at hno
          cases hno
        obtain hz | hsame := contextSetup_sw_of_not_applied env.setup dev.ctxt dev.funcId
          (initedDescq d idx) hwrite
        · exact (congrArg ctxtQen hz).trans ctxtQen_zero
        · refine (congrArg ctxtQen hsame).trans ?_
          change ctxtQen (dev.ctxt d.qidxHw (swSel d.conf.c2h)) = false
          rw [hid.conf, hid.qidxHw]
          exact h.idle_of_startable hs
  | starts d idx cnt vec mmio r hs hd hidx hok hr =>
      have hid := hd.sameIdent
      have hold := h.queue id hs.lt
      have hdir := hold.dir hs.enabled
      have hat := atAddress_of_setup_ok hd (hold.flags hs.enabled) hok
      have hown := onlyOwn_setup env.setup dev.ctxt dev.funcId (initedDescq d idx)
      obtain ⟨w, b, hwork⟩ := threadAddWork_eq (r.setDescq id { r.descq id with online := true }) id
      have hdescq : (qdmaThreadAddWork (r.setDescq id { r.descq id with online := true }) id).descq =
          Function.update dev.descq id
            { initedDescq d idx with online := true, wrkthp := w, wbthp := b } := by
        rw [hwork, hr]
        simp only [XlnxDmaDev.setDescq, Function.update_self, Function.update_idem]
      have hctxt : (qdmaThreadAddWork (r.setDescq id { r.descq id with online := true }) id).ctxt =
          (qdmaDescqContextSetup env.setup dev.ctxt dev.funcId (initedDescq d idx)).2 := by
        rw [hwork, hr]
        rfl
      have hc2h : d.conf.c2h = dev.isC2h id := by
        rw [hid.conf]
        exact hdir
      have hfit := hid.flagsFit (hold.flags hs.enabled)
      have hen : d.enabled = true := hd.flags.2.1.trans hs.enabled
      rw [hc2h] at hat
      rw [show (initedDescq d idx).conf.c2h = dev.isC2h id from hc2h,
        show (initedDescq d idx).qidxHw = (dev.descq id).qidxHw from hid.qidxHw, ← hctxt] at hown
      rw [← hctxt] at hat
      refine h.update ?_ ?_ hdescq hid.qidxHw hown hs.lt ?_
      · rw [hwork, hr]
        rfl
      · rw [hwork, hr]
        rfl
      · exact
          { dir := fun _ => hc2h
            flags := fun _ => ⟨hfit.irqEn, hfit.wrbStatDescEn, hfit.wrbTrigMode⟩
            idle := fun hc => Bool.noConfusion hc
            live := fun _ => ⟨hen, hat.desc, hat.wrb, hat.fl⟩ }

theorem Backed.stop (h : Backed dev) (f : ℕ → CmdFate)
    (hclear : (dev.descq q).inited = true → (f 0).applied = true) :
    Backed (qdmaQueueStop f dev q).2 := by
  by_cases hq : q < 2 * dev.qmax ∧ (dev.descq q).enabled = true
  · have hold := h.queue q hq.1
    rw [qdmaQueueStop_eq f hq.1 hq.2, threadRemoveWork_eq]
    refine h.release hq.1 hq.2 rfl rfl rfl (sameIdent_stopped _) rfl (onlyOwn_clear _ _ _ _ _)
      (qen_clear ?_)
    intro hno
    rw [hold.dir hq.2]
    refine hold.idle ?_
    rw [← Bool.not_eq_true]
    intro hin
    rw [hclear hin] at hno
    cases hno
  · rw [qdmaQueueStop_rejected f hq]
    exact h

theorem Backed.remove (h : Backed dev) (f : ℕ → CmdFate) (hin : (dev.descq q).inited = false) :
    Backed (qdmaQueueRemove f dev q).2 := by
  by_cases hq : q < 2 * dev.qmax ∧ (dev.descq q).enabled = true
  · have hold := h.queue q hq.1
    obtain ⟨hh, c, cnt, heq⟩ := qdmaQueueRemove_eq f hq.1 hq.2
    rw [heq]
    refine h.release hq.1 hq.2 rfl rfl rfl
      ⟨rfl, rfl, fun hc => Bool.noConfusion hc, rfl, rfl, rfl⟩ rfl (fun _ _ _ => rfl) ?_
    rw [hold.dir hq.2]
    exact hold.idle hin
  · rw [qdmaQueueRemove_rejected f hq]
    exact h

/-- Releasing what the queues still hold, none of them `inited`. -/
theorem Backed.cleanupAll (f : ℕ → ℕ → CmdFate) :
    ∀ (qs : List ℕ) {dev : XlnxDmaDev}, Backed dev → (∀ q ∈ qs, q < 2 * dev.qmax) →
      (∀ q ∈ qs, (dev.descq q).inited = false) →
      Backed (qs.foldl (fun dev q => qdmaDescqCleanup (f q) dev q) dev) := by
  intro qs
  induction qs with
  | nil => intro dev h _ _; exact h
  | cons q rest ih =>
      intro dev h hlt hin
      rw [List.foldl_cons]
      have hq := hlt q (List.mem_cons_self ..)
      have hinQ := hin q (List.mem_cons_self ..)
      have hold := h.queue q hq
      obtain ⟨cnt, heq⟩ := qdmaDescqCleanup_eq (f q) dev q
      rw [if_neg (by rw [hinQ]; exact Bool.false_ne_true)] at heq
      rw [heq]
      refine ih ?_ (fun p hp => hlt p (List.mem_cons_of_mem _ hp)) ?_
      · refine h.update rfl rfl rfl rfl (onlyOwn_refl _ false _ _) hq ?_
        exact hold.released ⟨rfl, rfl, id, rfl, rfl, rfl⟩ rfl (hold.idle hinQ)
      · intro p hp
        by_cases hpq : p = q
        · subst hpq
          exact congrArg QdmaDescq.inited (Function.update_self p (cleanedDescq _) dev.descq)
        · exact (congrArg QdmaDescq.inited (Function.update_of_ne hpq _ dev.descq)).trans
            (hin p (List.mem_cons_of_mem _ hp))

theorem Backed.deviceCleanup (h : Backed dev) (fStop fClean : ℕ → ℕ → CmdFate)
    (hclear : ∀ q ∈ List.range (2 * dev.qmax),
      (dev.descq q).inited = true → (fStop q 0).applied = true) :
    Backed (qdmaDeviceCleanup fStop fClean dev) := by
  unfold qdmaDeviceCleanup
  split
  · exact h
  · obtain ⟨hstop, hmax, hin, -⟩ := stopAll_rule
      (C := fun q d => d.inited = true → (fStop q 0).applied = true) fStop
      (fun _ q hb _ _ hc => Backed.stop hb (fStop q) hc) (List.range (2 * dev.qmax)) h
      List.nodup_range (fun q hq => List.mem_range.mp hq) (fun q hq _ => hclear q hq) _ rfl
    have hall : ∀ q ∈ List.range (2 * dev.qmax), ((stopAll fStop dev).descq q).inited = false := by
      intro q hq
      have hafter : (stopAll fStop dev).descq q = afterStops (dev.descq q) := hin q hq
      rw [hafter]
      unfold afterStops
      cases hen : (dev.descq q).enabled with
      | true => rfl
      | false =>
          rw [if_neg Bool.false_ne_true, ← Bool.not_eq_true]
          intro hc
          rw [((h.queue q (List.mem_range.mp hq)).live hc).1] at hen
          cases hen
    have hrange : (stopAll fStop dev).qmax = dev.qmax := hmax
    have hclean := Backed.cleanupAll fClean (List.range (2 * (stopAll fStop dev).qmax)) hstop
      (fun q hq => List.mem_range.mp hq) (by rw [hrange]; exact hall)
    exact hclean.of_same rfl rfl rfl rfl

/-- **One call keeps the relation**, if its clears take effect. -/
theorem Backed.step (h : Backed dev) (e : LifeEv) (hcall : clearsTakeEffect dev e) :
    Backed (lifeStep dev e) := by
  cases e with
  | add qconf => exact h.add qconf
  | start id env => exact h.start env id hcall
  | stop id f => exact h.stop f hcall
  | remove id f => exact h.remove f hcall
  | cleanup fStop fClean => exact h.deviceCleanup fStop fClean hcall

end Calls

/-! ## Whole runs -/

/-- No SW context of the device's queues is enabled. -/
def Quiet (dev : XlnxDmaDev) : Prop :=
  ∀ q < 2 * dev.qmax, ctxtQen (dev.ctxt (dev.qidxHwOf q) (swSel (dev.isC2h q))) = false

theorem DeviceInit.backed {dev : XlnxDmaDev} (h : DeviceInit dev) (hquiet : Quiet dev) :
    Backed dev := by
  have hids : ∀ q, (dev.descq q).qidxHw = dev.qidxHwOf q := by
    intro q
    rw [h.descq q]
    rfl
  refine ⟨hids, ?_⟩
  intro q hq
  have hen : (dev.descq q).enabled = false := by rw [h.descq q]; rfl
  have hin : (dev.descq q).inited = false := by rw [h.descq q]; rfl
  refine ⟨?_, ?_, ?_, ?_⟩
  · intro hc
    rw [hen] at hc
    cases hc
  · intro hc
    rw [hen] at hc
    cases hc
  · intro _
    rw [hids q]
    exact hquiet q hq
  · intro hc
    rw [hin] at hc
    cases hc

/-- **Enabled contexts are backed** in every state between calls, from a device the
hardware has left quiet. -/
theorem contexts_backed {dev : XlnxDmaDev} (hinit : DeviceInit dev) (hquiet : Quiet dev)
    (es : List LifeEv) (hrun : clearedSys.Admits dev es) :
    ContextsBacked (clearedSys.exec dev es) :=
  (clearedSys.invariant (fun _ e h hg => Backed.step h e hg.2) es (hinit.backed hquiet)
    hrun).contextsBacked

theorem polledDev_quiet : Quiet polledDev := fun _ _ => ctxtQen_zero

/-- A start whose write of the SW context times out after it took effect. -/
def lateStart : StartEnv :=
  { plainStart with setup := { plainStart.setup with write := fun _ => .timesOut true } }

/-- A start that fails and is cleared up, a start, a stop, and the end of the
device over a running queue. -/
def clearedLife : List LifeEv :=
  [.add mmH2cConf, .start 0 lateStart, .start 0 plainStart, .stop 0 fun _ => .completes,
    .start 0 plainStart, .cleanup (fun _ _ => .completes) fun _ _ => .completes]

theorem contexts_backed_cleared_life :
    DeviceInit polledDev ∧ Quiet polledDev ∧ clearedSys.Admits polledDev clearedLife ∧
      ContextsBacked (clearedSys.exec polledDev clearedLife) :=
  have hrun : clearedSys.Admits polledDev clearedLife := by decide +kernel
  ⟨polledDev_init, polledDev_quiet, hrun,
    contexts_backed polledDev_init polledDev_quiet clearedLife hrun⟩

/-- A running queue that is removed: its context is never cleared. -/
def removesEnabled : List LifeEv :=
  [.add mmH2cConf, .start 0 plainStart, .remove 0 fun _ => .completes]

/-- A stop whose clear of the SW context is lost. -/
def stopTimesOut : List LifeEv :=
  [.add mmH2cConf, .start 0 plainStart, .stop 0 fun _ => .timesOut false]

theorem contexts_enabled_over_freed_rings :
    DeviceInit polledDev ∧ Quiet polledDev ∧
      (lifeSys.Admits polledDev removesEnabled ∧
        ¬ ContextsBacked (lifeSys.exec polledDev removesEnabled)) ∧
      (lifeSys.Admits polledDev stopTimesOut ∧
        ¬ ContextsBacked (lifeSys.exec polledDev stopTimesOut)) := by
  refine ⟨polledDev_init, polledDev_quiet, ⟨by decide +kernel, ?_⟩, by decide +kernel, ?_⟩
  · intro h
    obtain ⟨ring, hring, -⟩ := (h 0 (by decide +kernel) (by decide +kernel)).desc
    exact absurd (Option.isSome_of_eq_some hring) (by decide +kernel)
  · intro h
    obtain ⟨ring, hring, -⟩ := (h 0 (by decide +kernel) (by decide +kernel)).desc
    exact absurd (Option.isSome_of_eq_some hring) (by decide +kernel)

end Qdma

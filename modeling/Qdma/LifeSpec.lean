import Qdma.Lifecycle

/-!
# What the calls of a queue's life do

One lemma a call.  `qdmaQueueAdd_cases` and `startRun` list the outcomes of an
addition and of a start with everything that decides between them, and
`qdmaQueueStop_eq` and `qdmaQueueRemove_eq` say what a stop and a removal write.
The properties of whole runs are derived from these and do not open the calls
again.
-/

namespace Qdma

variable {dev : XlnxDmaDev} {q : ℕ}

/-! ## Pieces -/

section Pieces

variable (dev q)

@[simp] theorem setDescq_descq (d : QdmaDescq) :
    (dev.setDescq q d).descq = Function.update dev.descq q d := rfl

@[simp] theorem setDescq_ctxt (d : QdmaDescq) : (dev.setDescq q d).ctxt = dev.ctxt := rfl

@[simp] theorem setDescq_setDescq (d d' : QdmaDescq) :
    (dev.setDescq q d).setDescq q d' = dev.setDescq q d' := by
  simp [XlnxDmaDev.setDescq]

@[simp] theorem setDescq_descq_self (d : QdmaDescq) : (dev.setDescq q d).descq q = d := by
  rw [setDescq_descq, Function.update_self]

end Pieces

/-- A handle that is found is in range, and enabled if that was asked for. -/
theorem getDescqById_eq_some {id : ℕ} {init : Bool} (h : dev.getDescqById id init = some q) :
    q = id ∧ id < 2 * dev.qmax ∧ (init = true → (dev.descq id).enabled = true) := by
  unfold XlnxDmaDev.getDescqById at h
  by_cases hrange : dev.qmax ≤ id ∧ dev.qmax ≤ id - dev.qmax
  · rw [if_pos hrange] at h
    cases h
  · rw [if_neg hrange] at h
    by_cases hen : (init && !(dev.descq id).enabled) = true
    · rw [if_pos hen] at h
      cases h
    · rw [if_neg hen] at h
      refine ⟨(Option.some.inj h).symm, by omega, ?_⟩
      intro hinit
      rw [hinit, Bool.true_and, Bool.not_eq_true', Bool.not_eq_false] at hen
      exact hen

theorem getDescqById_of_enabled (hq : q < 2 * dev.qmax) (hen : (dev.descq q).enabled = true) :
    dev.getDescqById q true = some q := by
  unfold XlnxDmaDev.getDescqById
  rw [if_neg (by omega), hen]
  rfl

theorem descFreeIrq_eq (dev : XlnxDmaDev) (q : ℕ) :
    ∃ cnt, descFreeIrq dev q = { dev with intrListCnt := cnt } := by
  unfold descFreeIrq
  by_cases hv : dev.numVecs = 0
  · exact ⟨dev.intrListCnt, by rw [if_pos hv]⟩
  · exact ⟨_, by rw [if_neg hv]⟩

/-- The vector chosen is one of the vectors seen. -/
theorem descAllocIrqLoop_lt (cnt : ℕ → ℕ) {m : ℕ} :
    ∀ n i idx min, idx < m → i + n ≤ m → descAllocIrqLoop cnt n i idx min < m := by
  intro n
  induction n with
  | zero => intro i idx min hidx _; exact hidx
  | succ n ih =>
      intro i idx min hidx hm
      have hnext : (if cnt i < min then (cnt i, i) else (min, idx)).2 < m := by
        split
        · exact (by omega : i < m)
        · exact hidx
      unfold descAllocIrqLoop
      dsimp only
      generalize (if cnt i < min then (cnt i, i) else (min, idx)) = r at hnext ⊢
      split
      · exact hnext
      · exact ih (i + 1) r.2 r.1 hnext (by omega)

/-- `desc_alloc_irq` gives the queue a vector, if there are any. -/
theorem descAllocIrq_eq (dev : XlnxDmaDev) (q : ℕ) :
    ∃ cnt idx, descAllocIrq dev q = { dev with
        intrListCnt := cnt
        descq := Function.update dev.descq q { dev.descq q with intrId := idx } } ∧
      (dev.numVecs ≠ 0 → idx < dev.numVecs) := by
  unfold descAllocIrq
  by_cases hv : dev.numVecs = 0
  · refine ⟨dev.intrListCnt, (dev.descq q).intrId, ?_, fun h => absurd hv h⟩
    rw [if_pos hv, Function.update_eq_self]
  · refine ⟨_, _, by rw [if_neg hv], fun _ => ?_⟩
    exact descAllocIrqLoop_lt _ dev.numVecs 0 0 _ (Nat.pos_of_ne_zero hv) (by omega)

/-- Releasing twice is releasing once. -/
theorem freeResource_freeResource (d : QdmaDescq) :
    qdmaDescqFreeResource (qdmaDescqFreeResource d) = qdmaDescqFreeResource d := by
  unfold qdmaDescqFreeResource rxqFreeResource
  by_cases h : d.rxQueue.dlen = 0
  · simp [h]
  · simp [h]

/-- The rings a start leaves behind: `d` with its descriptor ring, and on a
streaming C2H queue its free list and writeback ring as well. -/
inductive Allocated (d : QdmaDescq) : QdmaDescq → Prop
  | plain (ring : DescRing) (hst : d.isStC2h = false) (hzero : ring.wbCidx = 0) :
      Allocated d { d with desc := some ring }
  | stC2h (ring : DescRing) (fls : ℕ → FlDesc) (wrb : WrbRing) (hst : d.isStC2h = true)
      (hzero : wrb.wbPidx = 0) :
      Allocated d
        { d with
          desc := some ring
          stRxFl := some fls
          descWrb := some wrb
          descWrbCur := wrb.va
          rxQueue := { d.rxQueue with dlen := 0 } }

/-- Allocating the rings touches neither the flags nor the thread pointers. -/
theorem Allocated.flags {d d' : QdmaDescq} (h : Allocated d d') :
    d'.online = d.online ∧ d'.enabled = d.enabled ∧ d'.wrkthp = d.wrkthp ∧ d'.wbthp = d.wbthp := by
  cases h with
  | plain _ _ _ => exact ⟨rfl, rfl, rfl, rfl⟩
  | stC2h _ _ _ _ _ => exact ⟨rfl, rfl, rfl, rfl⟩

/-- The allocations of a start succeed as a whole or leave the queue released. -/
theorem descqAllocRings_cases (al : RingAllocs) (d : QdmaDescq) :
    ((descqAllocRings al d).1 < 0 ∧ (descqAllocRings al d).2 = qdmaDescqFreeResource d) ∨
      (descqAllocRings al d).1 = 0 ∧ Allocated d (descqAllocRings al d).2 := by
  have hneg : -enomem < 0 := by decide
  unfold descqAllocRings
  cases hring : descRingAlloc al.desc d.conf.rngsz with
  | none => exact Or.inl ⟨hneg, rfl⟩
  | some ring =>
      have hcidx : ring.wbCidx = 0 := by
        unfold descRingAlloc at hring
        obtain ⟨bus, -, rfl⟩ := Option.map_eq_some_iff.mp hring
        rfl
      dsimp only
      cases hst : d.isStC2h with
      | false => exact Or.inr ⟨rfl, Allocated.plain ring hst hcidx⟩
      | true =>
          rw [if_pos rfl]
          cases flFill al d.conf.rngsz with
          | none => exact Or.inl ⟨hneg, rfl⟩
          | some fls =>
              dsimp only
              cases hwrb : wrbRingAlloc al.wrb d.rngszWrb with
              | none => exact Or.inl ⟨hneg, rfl⟩
              | some wrb =>
                  have hpidx : wrb.wbPidx = 0 := by
                    unfold wrbRingAlloc at hwrb
                    obtain ⟨addr, -, rfl⟩ := Option.map_eq_some_iff.mp hwrb
                    rfl
                  exact Or.inr ⟨rfl, Allocated.stC2h _ fls wrb hst hpidx⟩

/-- What is left after a stop. -/
def stoppedDescq (d : QdmaDescq) : QdmaDescq :=
  { qdmaDescqFreeResource d with wrkthp := none, wbthp := none, online := false, inited := false }

/-- What is left after a removal.  The thread pointers stay. -/
def removedDescq (d : QdmaDescq) : QdmaDescq :=
  { qdmaDescqFreeResource d with online := false, inited := false, enabled := false }

/-- What an addition makes of a queue. -/
def addedDescq (dev : XlnxDmaDev) (d : QdmaDescq) (qconf : QdmaQueueConf) : QdmaDescq :=
  qdmaDescqConfig dev.numVecs dev.pftchEn { d with enabled := true } qconf false

/-! ## Addition -/

/-- The outcomes of `qdma_queue_add`, up to the queue counts. -/
inductive AddRun (dev : XlnxDmaDev) (qconf : QdmaQueueConf) : XlnxDmaDev → Prop
  | fails (h c : ℕ) : AddRun dev qconf { dev with h2cQcnt := h, c2hQcnt := c }
  | adds (h c i : ℕ) (hi : i < dev.qmax)
      (hfree : (dev.descq (dev.handle qconf.c2h i)).enabled = false) :
      AddRun dev qconf
        { dev with
          h2cQcnt := h
          c2hQcnt := c
          descq := Function.update dev.descq (dev.handle qconf.c2h i)
            (addedDescq dev (dev.descq (dev.handle qconf.c2h i)) qconf) }

theorem addQcnt_eq (dev : XlnxDmaDev) (c2h : Bool) (n : ℕ) :
    ∃ h c, dev.addQcnt c2h n = { dev with h2cQcnt := h, c2hQcnt := c } := by
  unfold XlnxDmaDev.addQcnt
  cases c2h with
  | false => exact ⟨_, _, rfl⟩
  | true => exact ⟨_, _, rfl⟩

/-- The index an addition takes is free and in range. -/
theorem pickQueue_eq_ok {qconf : QdmaQueueConf} {i : ℕ}
    (hidx : ¬ (qconf.qidx ≠ qdmaQueueIdxInvalid ∧ dev.qmax ≤ qconf.qidx))
    (h : pickQueue dev qconf = .ok i) :
    i < dev.qmax ∧ (dev.descq (dev.handle qconf.c2h i)).enabled = false := by
  unfold pickQueue at h
  dsimp only at h
  by_cases hinv : qconf.qidx = qdmaQueueIdxInvalid
  · rw [if_pos hinv] at h
    split at h
    · cases h
    · rename_i j hj
      cases h
      refine ⟨List.mem_range.mp (List.mem_of_find?_eq_some hj), ?_⟩
      simpa using List.find?_some hj
  · rw [if_neg hinv] at h
    split at h
    · rename_i hfree
      cases h
      refine ⟨?_, by simpa using hfree⟩
      exact Nat.lt_of_not_le fun hle => hidx ⟨hinv, hle⟩
    · cases h

theorem addRun (dev : XlnxDmaDev) (qconf : QdmaQueueConf) :
    AddRun dev qconf (qdmaQueueAdd dev qconf).2.2 := by
  have hsame : AddRun dev qconf dev := AddRun.fails dev.h2cQcnt dev.c2hQcnt
  obtain ⟨h, c, hcnt⟩ := addQcnt_eq dev qconf.c2h 1
  have hunchanged : pickQueue (dev.addQcnt qconf.c2h 1) qconf = pickQueue dev qconf := by
    rw [hcnt]
    rfl
  unfold qdmaQueueAdd
  dsimp only
  by_cases hfull : dev.qmax ≤ if qconf.c2h then dev.c2hQcnt else dev.h2cQcnt
  · rw [if_pos hfull]
    exact hsame
  · rw [if_neg hfull]
    by_cases hidx : qconf.qidx ≠ qdmaQueueIdxInvalid ∧ dev.qmax ≤ qconf.qidx
    · rw [if_pos hidx]
      exact hsame
    · rw [if_neg hidx, hunchanged]
      cases hpick : pickQueue dev qconf with
      | error rv =>
          dsimp only
          rw [hcnt]
          obtain ⟨h', c', hback⟩ :=
            addQcnt_eq { dev with h2cQcnt := h, c2hQcnt := c } qconf.c2h (2 ^ 16 - 1)
          rw [hback]
          exact AddRun.fails h' c'
      | ok i =>
          obtain ⟨hi, hfree⟩ := pickQueue_eq_ok hidx hpick
          dsimp only
          rw [hcnt]
          exact AddRun.adds h c i hi hfree

/-! ## Start -/

/-- The queue passes the checks at the head of `qdma_queue_start`. -/
structure Startable (dev : XlnxDmaDev) (q : ℕ) : Prop where
  lt : q < 2 * dev.qmax
  enabled : (dev.descq q).enabled = true
  inited : (dev.descq q).inited = false
  online : (dev.descq q).online = false

/-- The queue when its rings are there and its contexts are about to be set up. -/
def initedDescq (d : QdmaDescq) (idx : ℕ) : QdmaDescq := { d with intrId := idx, inited := true }

/-- What is left of a queue whose start failed. -/
def failedDescq (d : QdmaDescq) : QdmaDescq := { qdmaDescqFreeResource d with inited := false }

/-- The outcomes of `qdma_queue_start`: the value returned and the device.  `d` is
the queue with its rings, `idx` its vector. -/
inductive StartRun (env : StartEnv) (dev : XlnxDmaDev) (q : ℕ) : ℤ → XlnxDmaDev → Prop
  | rejected (rv : ℤ) (hrv : rv < 0) : StartRun env dev q rv dev
  | allocFails (rv : ℤ) (hs : Startable dev q) (hrv : rv < 0) :
      StartRun env dev q rv
        { dev with
          ctxt := (qdmaDescqContextClear env.clear dev.ctxt (dev.descq q).qidxHw
            (dev.descq q).conf.st (dev.descq q).conf.c2h).2
          descq := Function.update dev.descq q (failedDescq (dev.descq q)) }
  | progFails (rv : ℤ) (d : QdmaDescq) (idx : ℕ) (cnt : ℕ → ℕ) (vec : ℕ → BitVec 32)
      (hs : Startable dev q) (hd : Allocated (dev.descq q) d)
      (hneg : (qdmaDescqContextSetup env.setup dev.ctxt dev.funcId (initedDescq d idx)).1 < 0)
      (hrv : rv < 0) :
      StartRun env dev q rv
        { dev with
          intrListCnt := cnt
          qid2vec := vec
          ctxt := (qdmaDescqContextClear env.clear
            (qdmaDescqContextSetup env.setup dev.ctxt dev.funcId (initedDescq d idx)).2
            d.qidxHw d.conf.st d.conf.c2h).2
          descq := Function.update dev.descq q (failedDescq (initedDescq d idx)) }
  | starts (d : QdmaDescq) (idx : ℕ) (cnt : ℕ → ℕ) (vec : ℕ → BitVec 32)
      (mmio : List (ℕ × BitVec 32)) (r : XlnxDmaDev) (hs : Startable dev q)
      (hd : Allocated (dev.descq q) d) (hidx : dev.numVecs ≠ 0 → idx < dev.numVecs)
      (hok : ¬ (qdmaDescqContextSetup env.setup dev.ctxt dev.funcId (initedDescq d idx)).1 < 0)
      (hr : r =
        { dev with
          intrListCnt := cnt
          qid2vec := vec
          mmio := mmio
          ctxt := (qdmaDescqContextSetup env.setup dev.ctxt dev.funcId (initedDescq d idx)).2
          descq := Function.update dev.descq q (initedDescq d idx) }) :
      StartRun env dev q 0 (qdmaThreadAddWork (r.setDescq q { r.descq q with online := true }) q)

/-- What `qdma_descq_prog_hw` writes, and when it fails. -/
theorem progHw_eq (f : SetupFates) (dev : XlnxDmaDev) (q : ℕ) :
    ∃ vec mmio, (qdmaDescqProgHw f dev q).2 = { dev with
        qid2vec := vec
        mmio := mmio
        ctxt := (qdmaDescqContextSetup f dev.ctxt dev.funcId (dev.descq q)).2 } ∧
      (qdmaDescqProgHw f dev q).1 = (qdmaDescqContextSetup f dev.ctxt dev.funcId (dev.descq q)).1 ∧
      ((qdmaDescqProgHw f dev q).1 < 0 → mmio = dev.mmio) := by
  unfold qdmaDescqProgHw
  dsimp only
  by_cases hneg : (qdmaDescqContextSetup f dev.ctxt dev.funcId (dev.descq q)).1 < 0
  · rw [if_pos hneg]
    exact ⟨_, _, rfl, rfl, fun _ => rfl⟩
  · rw [if_neg hneg]
    exact ⟨_, _, rfl, rfl, fun h => absurd h hneg⟩

theorem startErrOut_eq (clear : ℕ → CmdFate) (dev : XlnxDmaDev) (q : ℕ) :
    startErrOut clear dev q = { dev with
      ctxt := (qdmaDescqContextClear clear dev.ctxt (dev.descq q).qidxHw (dev.descq q).conf.st
        (dev.descq q).conf.c2h).2
      descq := Function.update dev.descq q (failedDescq (dev.descq q)) } := rfl

theorem failedDescq_freeResource (d : QdmaDescq) :
    failedDescq (qdmaDescqFreeResource d) = failedDescq d := by
  unfold failedDescq
  rw [freeResource_freeResource]

/-- A start that has its rings: it fails at the contexts, or hangs the queue on a
thread. -/
theorem start_allocated (env : StartEnv) (hs : Startable dev q) {d : QdmaDescq}
    (halloc : descqAllocRings env.al (dev.descq q) = (0, d)) :
    ∃ idx cnt vec mmio, (dev.numVecs ≠ 0 → idx < dev.numVecs) ∧
      ((qdmaDescqContextSetup env.setup dev.ctxt dev.funcId (initedDescq d idx)).1 < 0 ∧
          (qdmaQueueStart env dev q).1 < 0 ∧
          (qdmaQueueStart env dev q).2 =
            { dev with
              intrListCnt := cnt
              qid2vec := vec
              ctxt := (qdmaDescqContextClear env.clear
                (qdmaDescqContextSetup env.setup dev.ctxt dev.funcId (initedDescq d idx)).2
                d.qidxHw d.conf.st d.conf.c2h).2
              descq := Function.update dev.descq q (failedDescq (initedDescq d idx)) } ∨
        ¬ (qdmaDescqContextSetup env.setup dev.ctxt dev.funcId (initedDescq d idx)).1 < 0 ∧
          ∃ r : XlnxDmaDev, r =
              { dev with
                intrListCnt := cnt
                qid2vec := vec
                mmio := mmio
                ctxt := (qdmaDescqContextSetup env.setup dev.ctxt dev.funcId (initedDescq d idx)).2
                descq := Function.update dev.descq q (initedDescq d idx) } ∧
            qdmaQueueStart env dev q =
              (0, qdmaThreadAddWork (r.setDescq q { r.descq q with online := true }) q)) := by
  unfold qdmaQueueStart
  rw [getDescqById_of_enabled hs.lt hs.enabled]
  dsimp only
  rw [hs.enabled, hs.inited, hs.online]
  simp only [Bool.not_true, Bool.or_self, Bool.false_eq_true, if_false]
  unfold qdmaDescqAllocResource
  rw [halloc]
  simp only [lt_irrefl, if_false]
  obtain ⟨cnt, idx, hirq, hidx⟩ := descAllocIrq_eq (dev.setDescq q d) q
  obtain ⟨vec, mmio, hprog, hrv, hmmio⟩ := progHw_eq env.setup
    { dev with
      intrListCnt := cnt
      descq := Function.update dev.descq q (initedDescq d idx) } q
  have hinited : (descAllocIrq (dev.setDescq q d) q).setDescq q
      { (descAllocIrq (dev.setDescq q d) q).descq q with inited := true } =
      { dev with
        intrListCnt := cnt
        descq := Function.update dev.descq q (initedDescq d idx) } := by
    rw [hirq]
    simp only [XlnxDmaDev.setDescq, Function.update_self, Function.update_idem]
    rfl
  rw [hinited]
  simp only [Function.update_self] at hprog hrv
  refine ⟨idx, cnt, vec, mmio, hidx, ?_⟩
  by_cases hneg : (qdmaDescqContextSetup env.setup dev.ctxt dev.funcId
      (initedDescq d idx)).1 < 0
  · have hfail := hrv ▸ hneg
    rw [if_pos hfail, hprog, hmmio hfail, startErrOut_eq]
    simp only [Function.update_self, Function.update_idem]
    exact Or.inl ⟨hneg, hfail, rfl⟩
  · have hgood := hrv ▸ hneg
    rw [if_neg hgood, hprog]
    exact Or.inr ⟨hneg, _, rfl, rfl⟩

/-- A start that does not get its rings. -/
theorem start_unallocated (env : StartEnv) (hs : Startable dev q)
    (hneg : (descqAllocRings env.al (dev.descq q)).1 < 0) :
    qdmaQueueStart env dev q =
      ((descqAllocRings env.al (dev.descq q)).1,
        { dev with
          ctxt := (qdmaDescqContextClear env.clear dev.ctxt (dev.descq q).qidxHw
            (dev.descq q).conf.st (dev.descq q).conf.c2h).2
          descq := Function.update dev.descq q (failedDescq (dev.descq q)) }) := by
  unfold qdmaQueueStart
  rw [getDescqById_of_enabled hs.lt hs.enabled]
  dsimp only
  rw [hs.enabled, hs.inited, hs.online]
  simp only [Bool.not_true, Bool.or_self, Bool.false_eq_true, if_false]
  obtain ⟨-, hd⟩ | ⟨hzero, -⟩ := descqAllocRings_cases env.al (dev.descq q)
  · have hstate : startErrOut env.clear
        (dev.setDescq q (qdmaDescqFreeResource (dev.descq q))) q = _ :=
      startErrOut_eq _ _ _
    simp only [XlnxDmaDev.setDescq, Function.update_self, Function.update_idem,
      failedDescq_freeResource] at hstate
    unfold qdmaDescqAllocResource
    simp only [hneg, if_true, hd, XlnxDmaDev.setDescq, hstate]
    rfl
  · omega

/-- A call that fails the checks at the head of `qdma_queue_start`. -/
theorem start_rejected (env : StartEnv) (hs : ¬ Startable dev q) :
    qdmaQueueStart env dev q = (-einval, dev) := by
  unfold qdmaQueueStart
  cases hget : dev.getDescqById q true with
  | none => rfl
  | some q' =>
      obtain ⟨rfl, hlt, hen⟩ := getDescqById_eq_some hget
      dsimp only
      by_cases hbad :
          (!(dev.descq q').enabled || (dev.descq q').inited || (dev.descq q').online) = true
      · rw [if_pos hbad]
      · simp only [Bool.not_eq_true, Bool.or_eq_false_iff] at hbad
        exact absurd ⟨hlt, hen rfl, hbad.1.2, hbad.2⟩ hs

theorem startRun (env : StartEnv) (dev : XlnxDmaDev) (id : ℕ) :
    StartRun env dev id (qdmaQueueStart env dev id).1 (qdmaQueueStart env dev id).2 := by
  by_cases hs : Startable dev id
  · obtain ⟨hneg, -⟩ | ⟨hzero, hd⟩ := descqAllocRings_cases env.al (dev.descq id)
    · rw [start_unallocated env hs hneg]
      exact StartRun.allocFails _ hs hneg
    · obtain ⟨idx, cnt, vec, mmio, hidx, ⟨hneg, hrv, heq⟩ | ⟨hok, r, hr, heq⟩⟩ :=
        start_allocated env hs (Prod.ext hzero rfl)
      · rw [heq]
        exact StartRun.progFails _ _ idx cnt vec hs hd hneg hrv
      · rw [heq]
        exact StartRun.starts _ idx cnt vec mmio r hs hd hidx hok hr
  · have hinval : -einval < 0 := by decide
    rw [start_rejected env hs]
    exact StartRun.rejected _ hinval

/-- Hanging a queue on its lists writes only the lists and the two pointers. -/
theorem threadAddWork_eq (dev : XlnxDmaDev) (q : ℕ) :
    ∃ w b, qdmaThreadAddWork dev q = { dev with
      wrkThreads := (qdmaThreadAddWork dev q).wrkThreads
      wbThreads := (qdmaThreadAddWork dev q).wbThreads
      intrList := (qdmaThreadAddWork dev q).intrList
      listFault := (qdmaThreadAddWork dev q).listFault
      descq := Function.update dev.descq q { dev.descq q with wrkthp := w, wbthp := b } } := by
  unfold qdmaThreadAddWork
  dsimp only
  by_cases hv : dev.numVecs = 0
  · rw [if_neg (not_not.mpr hv)]
    exact ⟨_, _, rfl⟩
  · rw [if_pos hv]
    exact ⟨_, _, rfl⟩

/-! ## Stop and removal -/

theorem removeWrk_fields (dev : XlnxDmaDev) (q : ℕ) (thp : Option ℕ) :
    removeWrk dev q thp = { dev with
      wrkThreads := (removeWrk dev q thp).wrkThreads
      listFault := (removeWrk dev q thp).listFault } := by
  cases thp <;> rfl

theorem removeWb_fields (dev : XlnxDmaDev) (q : ℕ) (thp : Option ℕ) :
    removeWb dev q thp = { dev with
      wbThreads := (removeWb dev q thp).wbThreads
      intrList := (removeWb dev q thp).intrList
      listFault := (removeWb dev q thp).listFault } := by
  cases thp <;> rfl

theorem threadRemoveWork_def (dev : XlnxDmaDev) (q : ℕ) :
    qdmaThreadRemoveWork dev q =
      removeWb (removeWrk (dev.setDescq q { dev.descq q with wbthp := none, wrkthp := none }) q
        (dev.descq q).wrkthp) q (dev.descq q).wbthp := rfl

/-- Unlinking a queue changes the lists and forgets the two threads. -/
theorem threadRemoveWork_eq (dev : XlnxDmaDev) (q : ℕ) :
    qdmaThreadRemoveWork dev q = { dev with
      descq := Function.update dev.descq q { dev.descq q with wbthp := none, wrkthp := none }
      wrkThreads := (qdmaThreadRemoveWork dev q).wrkThreads
      wbThreads := (qdmaThreadRemoveWork dev q).wbThreads
      intrList := (qdmaThreadRemoveWork dev q).intrList
      listFault := (qdmaThreadRemoveWork dev q).listFault } := by
  unfold qdmaThreadRemoveWork
  rw [removeWb_fields, removeWrk_fields]
  rfl

/-- A stop that is not rejected. -/
theorem qdmaQueueStop_eq (f : ℕ → CmdFate) (hq : q < 2 * dev.qmax)
    (hen : (dev.descq q).enabled = true) :
    (qdmaQueueStop f dev q).2 =
      { qdmaThreadRemoveWork dev q with
        ctxt := (qdmaDescqContextClear f dev.ctxt (dev.descq q).qidxHw (dev.descq q).conf.st
          (dev.descq q).conf.c2h).2
        descq := Function.update dev.descq q (stoppedDescq (dev.descq q)) } := by
  unfold qdmaQueueStop
  rw [getDescqById_of_enabled hq hen]
  dsimp only
  unfold descqContextClear
  rw [threadRemoveWork_eq]
  simp only [XlnxDmaDev.setDescq, Function.update_self, Function.update_idem]
  rfl

/-- A stop of a queue that is not there changes nothing. -/
theorem qdmaQueueStop_rejected (f : ℕ → CmdFate)
    (h : ¬ (q < 2 * dev.qmax ∧ (dev.descq q).enabled = true)) :
    (qdmaQueueStop f dev q).2 = dev := by
  unfold qdmaQueueStop
  cases hget : dev.getDescqById q true with
  | none => rfl
  | some id =>
      obtain ⟨-, hlt, hen⟩ := getDescqById_eq_some hget
      exact absurd ⟨hlt, hen rfl⟩ h

/-- A stop rewrites its own queue only. -/
theorem qdmaQueueStop_descq_of_ne (f : ℕ → CmdFate) {p : ℕ} (hp : p ≠ q) :
    (qdmaQueueStop f dev q).2.descq p = dev.descq p := by
  by_cases hq : q < 2 * dev.qmax ∧ (dev.descq q).enabled = true
  · rw [qdmaQueueStop_eq f hq.1 hq.2]
    exact Function.update_of_ne hp _ _
  · rw [qdmaQueueStop_rejected f hq]

theorem qdmaQueueStop_qmax (f : ℕ → CmdFate) (dev : XlnxDmaDev) (q : ℕ) :
    (qdmaQueueStop f dev q).2.qmax = dev.qmax := by
  by_cases hq : q < 2 * dev.qmax ∧ (dev.descq q).enabled = true
  · rw [qdmaQueueStop_eq f hq.1 hq.2, threadRemoveWork_eq]
  · rw [qdmaQueueStop_rejected f hq]

/-- What a queue is after the stops of a cleanup. -/
def afterStops (d : QdmaDescq) : QdmaDescq := if d.enabled then stoppedDescq d else d

/-- **The rule for the stops of a cleanup.**  `C` is what a stop needs of its queue;
it is asked of the queues as they were at the beginning, for a stop rewrites its own
queue only. -/
theorem stopAll_rule {P : XlnxDmaDev → Prop} {C : ℕ → QdmaDescq → Prop}
    (f : ℕ → ℕ → CmdFate)
    (hstop : ∀ dev q, P dev → q < 2 * dev.qmax → (dev.descq q).enabled = true →
      C q (dev.descq q) → P (qdmaQueueStop (f q) dev q).2) :
    ∀ (qs : List ℕ) {dev : XlnxDmaDev}, P dev → qs.Nodup → (∀ q ∈ qs, q < 2 * dev.qmax) →
      (∀ q ∈ qs, (dev.descq q).enabled = true → C q (dev.descq q)) →
      ∀ dev', dev' = qs.foldl (fun dev q =>
          if (dev.descq q).enabled then (qdmaQueueStop (f q) dev q).2 else dev) dev →
        P dev' ∧ dev'.qmax = dev.qmax ∧ (∀ q ∈ qs, dev'.descq q = afterStops (dev.descq q)) ∧
          ∀ q ∉ qs, dev'.descq q = dev.descq q := by
  intro qs
  induction qs with
  | nil =>
      rintro dev h - - - dev' rfl
      exact ⟨h, rfl, fun q hq => absurd hq (by simp), fun q _ => rfl⟩
  | cons q rest ih =>
      rintro dev h hnodup hlt hC dev' rfl
      obtain ⟨hq, hrest⟩ := List.nodup_cons.mp hnodup
      have hqlt := hlt q (List.mem_cons_self ..)
      rw [List.foldl_cons]
      -- the state after the first of them
      obtain ⟨mid, hmid⟩ : ∃ mid, mid =
          if (dev.descq q).enabled then (qdmaQueueStop (f q) dev q).2 else dev := ⟨_, rfl⟩
      rw [← hmid]
      have hfirst : P mid ∧ mid.qmax = dev.qmax ∧ mid.descq q = afterStops (dev.descq q) ∧
          ∀ p, p ≠ q → mid.descq p = dev.descq p := by
        rw [hmid]
        unfold afterStops
        cases hen : (dev.descq q).enabled with
        | true =>
            rw [if_pos rfl, if_pos rfl]
            refine ⟨hstop dev q h hqlt hen (hC q (List.mem_cons_self ..) hen),
              qdmaQueueStop_qmax (f q) dev q, ?_, fun p hp => qdmaQueueStop_descq_of_ne (f q) hp⟩
            rw [qdmaQueueStop_eq (f q) hqlt hen]
            exact Function.update_self q _ dev.descq
        | false =>
            rw [if_neg Bool.false_ne_true, if_neg Bool.false_ne_true]
            exact ⟨h, rfl, rfl, fun p _ => rfl⟩
      obtain ⟨hP, hmax, hself, hsame⟩ := hfirst
      have hne : ∀ p ∈ rest, p ≠ q := fun p hp he => hq (he ▸ hp)
      obtain ⟨hP', hmax', hin, hout⟩ := ih hP hrest
        (fun p hp => by rw [hmax]; exact hlt p (List.mem_cons_of_mem _ hp))
        (fun p hp => by rw [hsame p (hne p hp)]; exact hC p (List.mem_cons_of_mem _ hp)) _ rfl
      refine ⟨hP', hmax'.trans hmax, ?_, ?_⟩
      · intro p hp
        obtain rfl | hp := List.mem_cons.mp hp
        · rw [hout p hq, hself]
        · rw [hin p hp, hsame p (hne p hp)]
      · intro p hp
        rw [hout p fun hc => hp (List.mem_cons_of_mem _ hc)]
        exact hsame p fun he => hp (he ▸ List.mem_cons_self ..)

/-- A removal that is not rejected.  The contexts are not touched. -/
theorem qdmaQueueRemove_eq (f : ℕ → CmdFate) (hq : q < 2 * dev.qmax)
    (hen : (dev.descq q).enabled = true) :
    ∃ h c cnt, (qdmaQueueRemove f dev q).2 = { dev with
      h2cQcnt := h
      c2hQcnt := c
      intrListCnt := cnt
      descq := Function.update dev.descq q (removedDescq (dev.descq q)) } := by
  unfold qdmaQueueRemove qdmaDescqCleanup
  rw [getDescqById_of_enabled hq hen]
  simp only [setDescq_descq_self, Bool.false_eq_true, if_false]
  obtain ⟨cnt, hirq⟩ := descFreeIrq_eq
    (dev.setDescq q { dev.descq q with inited := false, online := false }) q
  rw [hirq]
  obtain ⟨h, c, hcnt⟩ := addQcnt_eq
    { dev.setDescq q (removedDescq (dev.descq q)) with intrListCnt := cnt }
    (dev.descq q).conf.c2h (2 ^ 16 - 1)
  refine ⟨h, c, cnt, ?_⟩
  simp only [XlnxDmaDev.setDescq, Function.update_self, Function.update_idem] at hcnt ⊢
  exact hcnt

/-- What `qdma_descq_cleanup` makes of a queue. -/
def cleanedDescq (d : QdmaDescq) : QdmaDescq :=
  { qdmaDescqFreeResource d with inited := false, online := !d.inited && d.online }

theorem cleanedDescq_of_not_inited {d : QdmaDescq} (h : d.inited = false) :
    cleanedDescq d = qdmaDescqFreeResource d := by
  cases d
  cases h
  rfl

theorem qdmaDescqCleanup_eq (f : ℕ → CmdFate) (dev : XlnxDmaDev) (q : ℕ) :
    ∃ cnt, qdmaDescqCleanup f dev q = { dev with
      intrListCnt := cnt
      ctxt := if (dev.descq q).inited then (qdmaDescqContextClear f dev.ctxt (dev.descq q).qidxHw
        (dev.descq q).conf.st (dev.descq q).conf.c2h).2 else dev.ctxt
      descq := Function.update dev.descq q (cleanedDescq (dev.descq q)) } := by
  unfold qdmaDescqCleanup
  dsimp only
  cases hin : (dev.descq q).inited with
  | true =>
      rw [if_pos rfl]
      obtain ⟨cnt, hirq⟩ := descFreeIrq_eq (descqContextClear f
        (dev.setDescq q { dev.descq q with inited := false, online := false }) q) q
      refine ⟨cnt, ?_⟩
      rw [hirq]
      simp only [descqContextClear, XlnxDmaDev.setDescq, Function.update_self,
        Function.update_idem, if_true, cleanedDescq, hin]
      rfl
  | false =>
      rw [if_neg Bool.false_ne_true]
      obtain ⟨cnt, hirq⟩ := descFreeIrq_eq dev q
      refine ⟨cnt, ?_⟩
      rw [hirq]
      rw [cleanedDescq_of_not_inited hin, if_neg Bool.false_ne_true]
      rfl

theorem qdmaQueueRemove_rejected (f : ℕ → CmdFate)
    (h : ¬ (q < 2 * dev.qmax ∧ (dev.descq q).enabled = true)) :
    (qdmaQueueRemove f dev q).2 = dev := by
  unfold qdmaQueueRemove
  cases hget : dev.getDescqById q true with
  | none => rfl
  | some id =>
      obtain ⟨-, hlt, hen⟩ := getDescqById_eq_some hget
      exact absurd ⟨hlt, hen rfl⟩ h

end Qdma

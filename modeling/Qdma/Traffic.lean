import Qdma.Lifecycle

/-!
# What traffic does to a queue

The functions that run on an online queue, `qdma_thread_wrk_proc` and
`qdma_descq_service_wb`, seen from the calls of its life: they do not change how the
queue is set up, and as long as the rings are there they do not lose them and do not
read or write anything else (`Drives`).
-/

namespace Qdma

/-! ## The relation -/

/-- `d'` differs from `d` at most in the lists, the counters, the content of the
descriptor ring, the free list and the receive queue. -/
def SameSetup (d d' : QdmaDescq) : Prop :=
  d' = { d with
    workList := d'.workList
    pendList := d'.pendList
    avail := d'.avail
    pidx := d'.pidx
    cidx := d'.cidx
    credit := d'.credit
    desc := d'.desc
    rxQueue := d'.rxQueue
    pidxWrb := d'.pidxWrb
    cidxWrb := d'.cidxWrb
    stRxFl := d'.stRxFl
    descWrbCur := d'.descWrbCur
    oops := d'.oops }

theorem SameSetup.refl (d : QdmaDescq) : SameSetup d d := rfl

theorem SameSetup.trans {d d' d'' : QdmaDescq} (h₁ : SameSetup d d') (h₂ : SameSetup d' d'') :
    SameSetup d d'' := by
  unfold SameSetup at *
  rw [h₂, h₁]

/-- Everything `qdma_queue_start` allocates is there. -/
structure QdmaDescq.RingsUp (d : QdmaDescq) : Prop where
  desc : d.desc.isSome = true
  wrb : d.isStC2h = true → d.descWrb.isSome = true
  fl : d.isStC2h = true → d.stRxFl.isSome = true

/-- Work on a queue that leaves its setup alone and, as long as the rings are
there, keeps them and stays inside them. -/
structure Drives (x y : Xfer) : Prop where
  setup : SameSetup x.descq y.descq
  posted : x.posted.length ≤ y.posted.length
  rings : x.descq.RingsUp → y.descq.RingsUp ∧ y.descq.oops = x.descq.oops

namespace Drives

theorem refl (x : Xfer) : Drives x x := ⟨SameSetup.refl _, le_rfl, fun h => ⟨h, rfl⟩⟩

theorem trans {x y z : Xfer} (h₁ : Drives x y) (h₂ : Drives y z) : Drives x z where
  setup := h₁.setup.trans h₂.setup
  posted := h₁.posted.trans h₂.posted
  rings hx := by
    obtain ⟨hy, ho⟩ := h₁.rings hx
    obtain ⟨hz, ho'⟩ := h₂.rings hy
    exact ⟨hz, ho'.trans ho⟩

/-- The lists, the counters and the record of completions are free. -/
theorem of_sameRing {x y : Xfer} (h : SameRing x y) : Drives x y := by
  rw [h]
  exact ⟨rfl, le_rfl, fun hup => ⟨⟨hup.desc, hup.wrb, hup.fl⟩, rfl⟩⟩

theorem reqDone (x : Xfer) (id : ReqId) (error : ℤ) : Drives x (qdmaSgtReqDone x id error) :=
  of_sameRing (sameRing_reqDone x id error)

end Drives

/-! ## Stores to the ring -/

/-- A store to the ring changes the ring and nothing else, and a ring that is there
takes it. -/
theorem writeDesc_cases (d : QdmaDescq) (slot : ℕ) (v : QdmaDesc) :
    ∃ desc oops, d.writeDesc slot v = { d with desc := desc, oops := oops } ∧
      (d.desc.isSome = true → desc.isSome = true ∧ oops = d.oops) := by
  unfold QdmaDescq.writeDesc
  cases hd : d.desc with
  | none => exact ⟨d.desc, true, by rw [hd], fun hc => by cases hc⟩
  | some r =>
      exact ⟨some { r with slots := Function.update r.slots slot v }, d.oops, rfl,
        fun _ => ⟨rfl, rfl⟩⟩

theorem drives_writeDesc (x : Xfer) (slot : ℕ) (v : QdmaDesc) (pidx : ℕ) (ps : List Posting)
    (mmio : List (ℕ × BitVec 32)) :
    Drives x
      { x with
        descq := { x.descq.writeDesc slot v with pidx := pidx }
        posted := x.posted ++ ps
        mmio := mmio } := by
  obtain ⟨desc, oops, heq, hup⟩ := writeDesc_cases x.descq slot v
  rw [heq]
  refine ⟨rfl, by simp, ?_⟩
  intro h
  obtain ⟨hdesc, hoops⟩ := hup h.desc
  exact ⟨⟨hdesc, h.wrb, h.fl⟩, hoops⟩

/-! ## Posting -/

section Walk

variable {σ : Type} (blen : ℕ) (put : σ → BitVec 64 → ℕ → σ) {P : σ → Prop}

/-- What every piece keeps is kept by the walk over a segment. -/
theorem postSeg_keeps (hput : ∀ st addr len, P st → P (put st addr len)) :
    ∀ (budget tlen : ℕ) (addr : BitVec 64) (st : σ), P st →
      P (postSeg blen put budget tlen addr st).1 := by
  intro budget
  induction budget with
  | zero => intro tlen addr st h; exact h
  | succ budget ih =>
      intro tlen addr st h
      unfold postSeg
      split
      · exact h
      · exact ih _ _ _ (hput st addr _ h)

/-- And by the walk over the scatter list. -/
theorem postSgl_keeps (hput : ∀ st addr len, P st → P (put st addr len)) :
    ∀ (sgl : List Scatterlist) (sgOffset budget : ℕ) (st : σ), P st →
      P (postSgl blen put sgl sgOffset budget st) := by
  intro sgl
  induction sgl with
  | nil => intro sgOffset budget st h; exact h
  | cons sg rest ih =>
      intro sgOffset budget st h
      unfold postSgl
      split
      · exact h
      · exact ih _ _ _ (postSeg_keeps blen put hput _ _ _ _ h)

end Walk

theorem drives_postAccount (x : Xfer) (id : ReqId) (descCnt dataCnt : ℕ) :
    Drives x (postAccount x id descCnt dataCnt) := by
  rw [postAccount_eq]
  exact ⟨rfl, le_rfl, fun hup => ⟨⟨hup.desc, hup.wrb, hup.fl⟩, rfl⟩⟩

theorem drives_setFlag (x : Xfer) (slot bit : ℕ) :
    Drives x
      { x with descq := x.descq.writeDesc slot ((x.descq.slotAt slot).setFlag bit) } := by
  obtain ⟨desc, oops, heq, hup⟩ := writeDesc_cases x.descq slot ((x.descq.slotAt slot).setFlag bit)
  rw [heq]
  refine ⟨rfl, le_rfl, ?_⟩
  intro h
  obtain ⟨hdesc, hoops⟩ := hup h.desc
  exact ⟨⟨hdesc, h.wrb, h.fl⟩, hoops⟩

theorem drives_mmProc (x : Xfer) (id : ReqId) : Drives x (descqMmProcRequest x id).2 := by
  unfold descqMmProcRequest
  dsimp only
  split
  · exact Drives.refl x
  · split
    · exact Drives.refl x
    · rename_i sg off _
      obtain ⟨st, hst⟩ : ∃ st, st = postSgl xdmaDescBlenMax (mmPut id) sg off x.descq.avail
        { x := x, epAddr := (x.reqs id).epAddr, dataCnt := 0, descCnt := 0, descEnd := none } :=
        ⟨_, rfl⟩
      have hloop : Drives x st.x := by
        rw [hst]
        refine postSgl_keeps (P := fun st : MmLoop => Drives x st.x) _ _ ?_ _ _ _ _ (Drives.refl x)
        intro st addr len h
        exact h.trans (drives_writeDesc st.x _ _ _ _ _)
      rw [← hst]
      split
      · exact hloop
      · -- the flags of the first and the last descriptor, then the bookkeeping
        rename_i descEnd _
        have h₁ := hloop.trans (drives_setFlag st.x descEnd sDescFEop)
        have h₂ := h₁.trans (drives_setFlag _ x.descq.pidx sDescFSop)
        have h₃ := h₂.trans (drives_postAccount _ id st.descCnt st.dataCnt)
        exact ⟨h₃.setup, h₃.posted, h₃.rings⟩

theorem drives_stH2cProc (x : Xfer) (id : ReqId) : Drives x (descqProcStH2cRequest x id).2 := by
  unfold descqProcStH2cRequest
  dsimp only
  split
  · exact Drives.refl x
  · split
    · exact Drives.refl x
    · refine Drives.trans ?_ (drives_postAccount _ id _ _)
      refine postSgl_keeps (P := fun st : StH2cLoop => Drives x st.x) _ _ ?_ _ _ _ _ (Drives.refl x)
      intro st addr len h
      exact h.trans (drives_writeDesc st.x _ _ _ _ _)

theorem drives_procSgtRequest (x : Xfer) (id : ReqId) :
    Drives x (qdmaDescqProcSgtRequest x id).2 := by
  unfold qdmaDescqProcSgtRequest
  split
  · exact drives_mmProc x id
  · split
    · exact drives_stH2cProc x id
    · exact Drives.refl x

theorem drives_wrkProcOne (x : Xfer) (id : ReqId) : Drives x (wrkProcOne x id) := by
  have hproc := drives_procSgtRequest x id
  unfold wrkProcOne
  dsimp only
  split
  · exact hproc.trans (Drives.reqDone _ id _)
  · exact hproc

theorem drives_wrkProcLoop :
    ∀ (ids : List ReqId) (x : Xfer), Drives x (wrkProcLoop ids x) := by
  intro ids
  induction ids with
  | nil => intro x; exact Drives.refl x
  | cons id rest ih =>
      intro x
      have hone := drives_wrkProcOne x id
      unfold wrkProcLoop
      dsimp only
      split
      · exact hone
      · exact hone.trans (ih _)

/-- **The worker thread.** -/
theorem drives_threadWrkProc (x : Xfer) : Drives x (qdmaThreadWrkProc x) :=
  drives_wrkProcLoop x.descq.workList x

/-! ## Memory-mapped and streaming H2C completions -/

theorem drives_wbCredit (x : Xfer) (cidx : ℕ) : Drives x (descqWbCredit x cidx).2 := by
  unfold descqWbCredit
  dsimp only
  split
  · exact Drives.refl x
  · exact ⟨rfl, le_rfl, fun hup => ⟨⟨hup.desc, hup.wrb, hup.fl⟩, rfl⟩⟩

/-- The aggregation ring and the registers are outside the queue. -/
theorem intrCoalAdvance_eq (x : Xfer) :
    ∃ coal mmio, intrCoalAdvance x = { x with intrCoalList := coal, mmio := mmio } := by
  unfold intrCoalAdvance
  split
  · split
    · exact ⟨_, _, rfl⟩
    · exact ⟨_, _, rfl⟩
  · exact ⟨_, _, rfl⟩

theorem drives_intrCoalAdvance (x : Xfer) : Drives x (intrCoalAdvance x) := by
  obtain ⟨coal, mmio, heq⟩ := intrCoalAdvance_eq x
  rw [heq]
  exact ⟨rfl, le_rfl, fun hup => ⟨hup, rfl⟩⟩

theorem drives_mmNH2cWb (x : Xfer) : Drives x (descqMmNH2cWb x) := by
  unfold descqMmNH2cWb
  split
  · exact Drives.refl x
  · split
    · -- a queue without a ring: the pass stops at the first read
      rename_i hnone
      refine ⟨rfl, le_rfl, ?_⟩
      intro hup
      have hsome := hup.desc
      rw [hnone] at hsome
      cases hsome
    · rename_i ring _
      split
      · exact Drives.refl x
      · have hcredit := drives_wbCredit x ring.wbCidx
        have hpend := hcredit.trans (Drives.of_sameRing
          (sameRing_reqUpdatePend (descqWbCredit x ring.wbCidx).2 (descqWbCredit x ring.wbCidx).1))
        refine Drives.trans ?_ (drives_intrCoalAdvance _)
        exact ⟨hpend.setup, hpend.posted, hpend.rings⟩

/-! ## Streaming C2H completions -/

theorem drives_setRxq (p : StC2hPass) (rxq : StRxQueue) : Drives p.x (p.setRxq rxq).x :=
  ⟨rfl, le_rfl, fun hup => ⟨⟨hup.desc, hup.wrb, hup.fl⟩, rfl⟩⟩

theorem drives_rxData (al : RxAllocs) (p : StC2hPass) (fl : FlDesc) (udd : Bool) :
    Drives p.x (descqStC2hRxData al p fl udd).x := by
  unfold descqStC2hRxData
  dsimp only
  split
  · exact drives_setRxq _ _
  · exact Drives.refl _

/-- A page handed over and its slot refilled. -/
theorem drives_setDstAddr (x : Xfer) (fls : ℕ → FlDesc) (slot : ℕ) (addr : BitVec 64) :
    Drives x
      { x with descq := { x.descq with stRxFl := some fls }.setDstAddr slot addr } := by
  unfold QdmaDescq.setDstAddr
  obtain ⟨desc, oops, heq, hup⟩ := writeDesc_cases { x.descq with stRxFl := some fls } slot
    { QdmaDescq.slotAt { x.descq with stRxFl := some fls } slot with dstAddr := addr }
  rw [heq]
  refine ⟨rfl, le_rfl, ?_⟩
  intro h
  obtain ⟨hdesc, hoops⟩ := hup h.desc
  exact ⟨⟨hdesc, h.wrb, fun _ => rfl⟩, hoops⟩

theorem SameSetup.conf {d d' : QdmaDescq} (h : SameSetup d d') : d'.conf = d.conf := by rw [h]

theorem SameSetup.isStC2h {d d' : QdmaDescq} (h : SameSetup d d') : d'.isStC2h = d.isStC2h := by
  unfold QdmaDescq.isStC2h
  rw [h.conf]

theorem SameSetup.descWrb {d d' : QdmaDescq} (h : SameSetup d d') : d'.descWrb = d.descWrb := by
  rw [h]

/-- The pass stops at a missing free list or ring, which a queue with its rings does
not have. -/
theorem drives_oops {x : Xfer} (h : ¬ x.descq.RingsUp) :
    Drives x { x with descq := { x.descq with oops := true } } :=
  ⟨rfl, le_rfl, fun hup => absurd hup h⟩

theorem drives_stC2hPages (al : RxAllocs) :
    ∀ (flNr len : ℕ) (udd : Bool) (p : StC2hPass), p.x.descq.isStC2h = true →
      Drives p.x (stC2hPages al flNr len udd p).x := by
  intro flNr
  induction flNr with
  | zero => intro len udd p _; exact Drives.refl p.x
  | succ flNr ih =>
      intro len udd p hst
      unfold stC2hPages
      split
      · rename_i hnone
        refine drives_oops fun hup => ?_
        have hsome := hup.fl hst
        rw [hnone] at hsome
        cases hsome
      · rename_i fls _
        dsimp only
        have hrx := drives_rxData al p { fls p.pidx with len := min len pageSize } udd
        obtain ⟨r, hr⟩ : ∃ r, r = descqStC2hRxData al p
          { fls p.pidx with len := min len pageSize } udd := ⟨_, rfl⟩
        rw [← hr] at hrx ⊢
        obtain ⟨fl, hfl⟩ : ∃ fl, fl = (flRefillEntry (al.page r.pages)
          { fls p.pidx with len := min len pageSize }).2 := ⟨_, rfl⟩
        rw [← hfl]
        have hslot := hrx.trans
          (drives_setDstAddr r.x (Function.update fls p.pidx fl) p.pidx fl.dmaAddr)
        refine Drives.trans ?_ (ih _ _ _ ?_)
        · exact hslot
        · exact hslot.setup.isStC2h.trans hst

theorem drives_stC2hUdd {al : RxAllocs} {ring : WrbRing} {p p' : StC2hPass} {udd : Bool}
    (h : stC2hUdd al ring p = some (p', udd)) : Drives p.x p'.x := by
  unfold stC2hUdd at h
  dsimp only at h
  split at h
  · split at h
    · cases h
    · split at h
      · cases h
      · cases h
        exact drives_setRxq _ _
  · cases h
    exact Drives.refl p.x

theorem drives_wrbNext (x : Xfer) : Drives x { x with descq := wrbNext x.descq } := by
  unfold wrbNext
  split
  · exact ⟨rfl, le_rfl, fun hup => ⟨⟨hup.desc, hup.wrb, hup.fl⟩, rfl⟩⟩
  · exact ⟨rfl, le_rfl, fun hup => ⟨⟨hup.desc, hup.wrb, hup.fl⟩, rfl⟩⟩

theorem drives_stC2hEntries (al : RxAllocs) :
    ∀ (budget : ℕ) (p : StC2hPass), p.x.descq.isStC2h = true →
      Drives p.x (stC2hEntries al budget p).2.x := by
  intro budget
  induction budget with
  | zero => intro p _; exact Drives.refl p.x
  | succ budget ih =>
      intro p hst
      cases hwrb : p.x.descq.descWrb with
      | none =>
          have hstuck : (stC2hEntries al (budget + 1) p).2.x =
              { p.x with descq := { p.x.descq with oops := true } } := by
            rw [stC2hEntries]
            split
            · rfl
            · simp_all only [reduceCtorEq]
          rw [hstuck]
          refine drives_oops fun hup => ?_
          have hsome := hup.wrb hst
          rw [hwrb] at hsome
          cases hsome
      | some ring =>
          cases hudd : stC2hUdd al ring p with
          | none =>
              simp only [stC2hEntries, hwrb, hudd]
              exact Drives.refl p.x
          | some r =>
              obtain ⟨p', udd⟩ := r
              have hstep := drives_stC2hUdd hudd
              have hst' : p'.x.descq.isStC2h = true := hstep.setup.isStC2h.trans hst
              simp only [stC2hEntries, hwrb, hudd]
              generalize ring.word p'.x.descq.descWrbCur = word
              generalize word / 2 ^ sC2hWbEntryLength % (mC2hWbEntryLength + 1) = len
              generalize (len + pageSize - 1) / pageSize = flNr
              split
              · exact hstep
              · have hpages := hstep.trans (drives_stC2hPages al flNr len udd p' hst')
                generalize stC2hPages al flNr len udd p' = p₂ at hpages ⊢
                have hnext := hpages.trans (drives_wrbNext p₂.x)
                refine Drives.trans ?_ (ih _ ?_)
                · exact hnext
                · exact hnext.setup.isStC2h.trans hst

theorem drives_checkRxLoop :
    ∀ (ids : List ReqId) (dlen : ℕ) (x : Xfer), Drives x (checkRxLoop ids dlen x) := by
  intro ids
  induction ids with
  | nil => intro dlen x; exact Drives.refl x
  | cons id rest ih =>
      intro dlen x
      unfold checkRxLoop
      dsimp only
      split
      · exact Drives.refl x
      · exact (Drives.reqDone x id 0).trans (ih _ _)

theorem drives_stC2hWb (al : RxAllocs) (x : Xfer) (hst : x.descq.isStC2h = true) :
    Drives x (descqStC2hWb al x).2 := by
  unfold descqStC2hWb
  split
  · rename_i hnone
    refine drives_oops fun hup => ?_
    have hsome := hup.wrb hst
    rw [hnone] at hsome
    cases hsome
  · rename_i ring _
    have hpidx : Drives x { x with descq := { x.descq with pidxWrb := ring.wbPidx } } :=
      ⟨rfl, le_rfl, fun hup => ⟨⟨hup.desc, hup.wrb, hup.fl⟩, rfl⟩⟩
    have hentries := fun budget => hpidx.trans (drives_stC2hEntries al budget
      { x := { x with descq := { x.descq with pidxWrb := ring.wbPidx } }, pidx := x.descq.pidx,
        kmallocs := 0, pages := 0 } hst)
    dsimp only
    split
    · rename_i rv p hp
      have h := hentries (stC2hBudget { x.descq with pidxWrb := ring.wbPidx })
      rw [hp] at h
      exact h
    · rename_i p hp
      have h := hentries (stC2hBudget { x.descq with pidxWrb := ring.wbPidx })
      rw [hp] at h
      split
      · exact h
      · refine Drives.trans ?_ (drives_checkRxLoop _ _ _)
        refine Drives.trans ?_ (drives_intrCoalAdvance _)
        exact ⟨h.setup.trans rfl, h.posted, fun hup =>
          ⟨⟨(h.rings hup).1.desc, (h.rings hup).1.wrb, (h.rings hup).1.fl⟩, (h.rings hup).2⟩⟩

/-- **Servicing a queue.** -/
theorem drives_serviceWb (al : RxAllocs) (x : Xfer) : Drives x (qdmaDescqServiceWb al x) := by
  unfold qdmaDescqServiceWb
  split
  · rename_i hst
    exact drives_stC2hWb al x hst
  · exact drives_mmNH2cWb x

end Qdma

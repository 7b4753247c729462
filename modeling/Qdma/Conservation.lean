import Qdma.Credits

/-!
# No credit and no completion is lost

Without timeouts, and with requests whose segments are non-empty and fit one
descriptor each (what the character device submits), the correspondence of
`Qdma.Credits` never breaks: a partly posted request always stands between two
segments, so no posting error can occur either.  On top of it three things hold
in every state.

* The descriptors the requests wait for are those in flight and those whose
  credits are in hand.
* Requests complete in the order in which they were submitted.
* A pending request always waits for more than what is in hand, so that once
  everything is consumed and serviced nothing is left pending (`Steady.strict`).
-/

namespace Qdma

open Lib Lib.Extent Lib.Cyclic

/-! ## Requests of the character device -/

/-- At least one segment, none empty, none longer than a descriptor carries. -/
def FitsDescriptors (blen : ℕ) (req : QdmaSgReq) : Prop :=
  req.sgt.sgl ≠ [] ∧ ∀ sg ∈ req.sgt.sgl, 0 < sg.dmaLen ∧ sg.dmaLen ≤ blen

instance (blen : ℕ) (req : QdmaSgReq) : Decidable (FitsDescriptors blen req) :=
  inferInstanceAs (Decidable (req.sgt.sgl ≠ [] ∧
    ∀ sg ∈ req.sgt.sgl, 0 < sg.dmaLen ∧ sg.dmaLen ≤ blen))

/-- A segment that fits is one piece. -/
theorem pieces_of_fits {blen : ℕ} :
    ∀ {sgl : List Scatterlist}, (∀ sg ∈ sgl, 0 < sg.dmaLen ∧ sg.dmaLen ≤ blen) →
      pieces blen sgl = sgl.map Scatterlist.extent := by
  intro sgl
  induction sgl with
  | nil => intro _; rfl
  | cons sg sgl ih =>
      intro hfit
      obtain ⟨hpos, hle⟩ := hfit sg List.mem_cons_self
      have hcut : cut blen sg.dmaAddress sg.dmaLen = [sg.extent] := by
        rw [cut_pos (by omega) hpos, Nat.min_eq_left hle, Nat.sub_self, cut_zero]
        rfl
      rw [pieces_cons, hcut, ih fun s hs => hfit s (List.mem_cons_of_mem _ hs), List.map_cons]
      rfl

theorem total_take_of_fits {blen : ℕ} {sgl : List Scatterlist}
    (hfit : ∀ sg ∈ sgl, 0 < sg.dmaLen ∧ sg.dmaLen ≤ blen) (K : ℕ) :
    total ((pieces blen sgl).take K) = sglTotal (sgl.take K) := by
  rw [pieces_of_fits hfit, ← List.map_take, total_map_extent]

theorem FitsDescriptors.count_pos {blen : ℕ} {req : QdmaSgReq} (h : FitsDescriptors blen req)
    (hwf : req.WellFormed) : 0 < req.count := by
  obtain ⟨sg, rest, hsgl⟩ := List.exists_cons_of_ne_nil h.1
  have hpos := (h.2 sg (by rw [hsgl]; exact List.mem_cons_self)).1
  rw [← hwf, hsgl, sglTotal_cons]
  omega

/-- A partly posted request stands between two segments. -/
theorem FitsDescriptors.resumesAtSegment {blen : ℕ} {req : QdmaSgReq}
    (h : FitsDescriptors blen req) (hok : ReqOk blen req) (hpos : req.cb.offset ≠ 0)
    (hpart : req.cb.offset ≠ req.count) : req.resumesAtSegment := by
  obtain ⟨K, -, hoff, -⟩ := hok.sent
  rw [total_take_of_fits h.2] at hoff
  have hlt : sglTotal req.sgt.sgl < 2 ^ 32 := by
    rw [hok.wf]
    exact req.count_lt
  have hle : req.cb.offset ≤ sglTotal req.sgt.sgl := by
    have := sglTotal_take_add_drop req.sgt.sgl K
    omega
  obtain ⟨rv, sg, off, hfind⟩ :=
    sgtFindOffset_isSome hlt hok.nents_lt (Nat.pos_of_ne_zero hpos) hle
  obtain ⟨-, hcases⟩ := sgtFindOffset_spec hlt (Nat.pos_of_ne_zero hpos) hfind
  rcases hcases with ⟨rfl, hsum⟩ | ⟨-, -, hlo, hhi⟩
  · have hrv : rv < req.sgt.nents := by
      by_contra hge
      have hall : req.sgt.sgl.take rv = req.sgt.sgl :=
        List.take_of_length_le (Nat.le_of_not_lt hge)
      rw [hall] at hsum
      exact hpart (hsum.symm.trans hok.wf)
    simp [QdmaSgReq.resumesAtSegment, hfind, hrv]
  · -- the offset is a prefix sum, so no segment straddles it
    exfalso
    rcases Nat.lt_or_ge rv K with hlt' | hge
    · have := sglTotal_take_mono req.sgt.sgl (Nat.succ_le_of_lt hlt')
      simp only [Nat.succ_eq_add_one] at this
      omega
    · have := sglTotal_take_mono req.sgt.sgl hge
      omega

/-! ## The invariant -/

/-- What holds besides the correspondence, with `c` credits in hand. -/
structure SteadyAt (c : ℕ) (x : Xfer) : Prop where
  ledger : LedgerAt c x
  fits : ∀ id ∈ x.liveIds, FitsDescriptors (blenOf x.descq) (x.reqs id)
  fifo : x.submitted = x.completed.map (·.id) ++ x.liveIds
  status : ∀ e ∈ x.completed, e.status = 0
  waits : ∀ id ∈ x.descq.pendList, 0 < (x.reqs id).cb.descNr

/-- Between two steps, the first pending request waits for more than is in hand. -/
structure Steady (x : Xfer) : Prop where
  ledger : Ledger x
  steadyAt : SteadyAt x.descq.credit x
  strict : ∀ id ∈ x.descq.pendList.head?, x.descq.credit < (x.reqs id).cb.descNr

namespace SteadyAt

variable {c : ℕ} {x y : Xfer} {id : ReqId} {rest : List ReqId}

/-- Completing the first pending request keeps the order of completions. -/
theorem reqCompleted (h : SteadyAt c x) (hpend : x.descq.pendList = id :: rest)
    (hle : (x.reqs id).cb.descNr ≤ c) :
    SteadyAt (c - (x.reqs id).cb.descNr) (qdmaSgtReqDone x id 0) := by
  have hl := h.ledger.reqCompleted hpend hle
  have hlive : x.liveIds = id :: (rest ++ x.descq.workList) := by
    unfold Xfer.liveIds
    rw [hpend, List.cons_append]
  have hnot : id ∉ rest ++ x.descq.workList := by
    have := h.ledger.nodup
    rw [hlive] at this
    exact (List.nodup_cons.mp this).1
  have hlive' : (qdmaSgtReqDone x id 0).liveIds = rest ++ x.descq.workList := by
    change x.descq.pendList.erase id ++ x.descq.workList.erase id = _
    rw [erase_append_erase h.ledger.nodup, ← Xfer.liveIds, hlive, List.erase_cons_head]
  have hold : ∀ i ∈ rest ++ x.descq.workList, (qdmaSgtReqDone x id 0).reqs i = x.reqs i :=
    fun i hi => LedgerAt.reqDone_reqs fun heq => hnot (heq ▸ hi)
  have hfull : (x.reqs id).cb.offset = (x.reqs id).count :=
    h.ledger.pending id (by rw [hpend]; exact List.mem_cons_self)
  have hcompleted : (qdmaSgtReqDone x id 0).completed =
      x.completed ++ [⟨id, 0, (x.reqs id).cb.offset⟩] := by
    simp [qdmaSgtReqDone, Xfer.setCb, Xfer.listDel, hfull]
  refine ⟨hl, ?_, ?_, ?_, ?_⟩
  · intro i hi
    rw [hlive'] at hi
    rw [hold i hi]
    exact h.fits i (by rw [hlive]; exact List.mem_cons_of_mem _ hi)
  · change x.submitted = _
    rw [hcompleted, hlive', h.fifo, hlive]
    simp
  · intro e he
    rw [hcompleted] at he
    rcases List.mem_append.mp he with hmem | hmem
    · exact h.status e hmem
    · obtain rfl : e = ⟨id, 0, (x.reqs id).cb.offset⟩ := by simpa using hmem
      rfl
  · intro i hi
    have hi' : i ∈ rest := by
      change i ∈ x.descq.pendList.erase id at hi
      rwa [hpend, List.erase_cons_head] at hi
    rw [hold i (List.mem_append_left _ hi')]
    exact h.waits i (by rw [hpend]; exact List.mem_cons_of_mem _ hi')

/-- Crediting the first pending request keeps everything else. -/
theorem reqCredited (h : SteadyAt c x) (hpend : x.descq.pendList = id :: rest)
    (hlt : c < (x.reqs id).cb.descNr) :
    SteadyAt 0 (x.setCb id { (x.reqs id).cb with descNr := (x.reqs id).cb.descNr - c }) := by
  refine ⟨h.ledger.reqCredited hpend hlt, ?_, h.fifo, h.status, ?_⟩
  · intro i hi
    by_cases heq : i = id
    · subst heq
      simp only [Xfer.setCb, Function.update_self]
      exact h.fits i hi
    · simp only [Xfer.setCb, Function.update_of_ne heq]
      exact h.fits i hi
  · intro i hi
    by_cases heq : i = id
    · subst heq
      simp only [Xfer.setCb, Function.update_self]
      omega
    · simp only [Xfer.setCb, Function.update_of_ne heq]
      exact h.waits i hi

/-- What changes neither the lists nor the requests keeps the order. -/
theorem of_frame {c' : ℕ} (h : SteadyAt c x) (hl : LedgerAt c' y)
    (hwork : y.descq.workList = x.descq.workList) (hpend : y.descq.pendList = x.descq.pendList)
    (hconf : y.descq.conf = x.descq.conf) (hreqs : y.reqs = x.reqs)
    (hsub : y.submitted = x.submitted) (hcomp : y.completed = x.completed) : SteadyAt c' y := by
  have hlive : y.liveIds = x.liveIds := by
    unfold Xfer.liveIds
    rw [hwork, hpend]
  have hblen : blenOf y.descq = blenOf x.descq := by
    unfold blenOf
    rw [hconf]
  refine ⟨hl, ?_, ?_, ?_, ?_⟩
  · rw [hlive, hblen, hreqs]
    exact h.fits
  · rw [hsub, hcomp, hlive]
    exact h.fifo
  · rw [hcomp]
    exact h.status
  · rw [hpend, hreqs]
    exact h.waits

end SteadyAt

namespace Steady

variable {x : Xfer} {id : ReqId} {rest : List ReqId}

/-- No partly posted request stands inside a segment. -/
theorem resumesAtSegments (h : Steady x) : x.ResumesAtSegments := by
  intro id hid hne
  have hlive : id ∈ x.liveIds := List.mem_append_right _ hid
  exact (h.steadyAt.fits id hlive).resumesAtSegment (h.ledger.reqs id hlive) hne
    (h.ledger.partly id hid hne)

/-- A batch has at least one descriptor. -/
theorem batch_pos (h : Steady x) {K : ℕ} {y : Xfer} (hadv : Advances x id K y)
    (hid : id ∈ x.descq.workList) :
    0 < min x.descq.avail ((pieces (blenOf x.descq) (x.reqs id).sgt.sgl).length - K) := by
  have hlive : id ∈ x.liveIds := List.mem_append_right _ hid
  have hwf := (h.ledger.reqs id hlive).wf
  have hcount := (h.steadyAt.fits id hlive).count_pos hwf
  have hav := hadv.avail_ne
  have hK : K < (pieces (blenOf x.descq) (x.reqs id).sgt.sgl).length := by
    by_contra hge
    -- all pieces posted would mean the offset is the count
    have hall : (x.reqs id).cb.offset = (x.reqs id).count := by
      rw [hadv.offset_eq, List.take_of_length_le (Nat.le_of_not_lt hge),
        total_pieces (blenOf_pos _)]
      exact hwf
    exact h.ledger.partly id hid (by omega) hall
  omega

/-- One request of a worker pass. -/
theorem wrkProcOne (h : Steady x) (hw : x.descq.workList = id :: rest)
    (hres : x.ResumesAtSegments) : Steady (wrkProcOne x id) := by
  have hmem : id ∈ x.descq.workList := by
    rw [hw]
    exact List.mem_cons_self
  have hlive : id ∈ x.liveIds := List.mem_append_right _ hmem
  have hok := h.ledger.reqs id hlive
  have hledger := h.ledger.wrkProcOne hw hres
  rcases h.ledger.wrkProcOne_cases hw hres with ⟨-, hr⟩ | ⟨-, hcount, -⟩ | ⟨K, hadv⟩
  · rw [hr]
    exact h
  · have := (h.steadyAt.fits id hlive).count_pos hok.wf
    omega
  · have hav : x.descq.avail < 2 ^ 32 := lt_trans h.ledger.ring.avail_lt h.ledger.ring.rngsz_lt
    have hpos := h.batch_pos hadv hmem
    have hnr := hadv.descNr_eq hok
    have hlive' := hadv.liveIds_eq hok h.ledger.nodup hw hav
    have hconf : (Qdma.wrkProcOne x id).descq.conf = x.descq.conf := by rw [hadv.posts.frame]
    have hcredit : (Qdma.wrkProcOne x id).descq.credit = x.descq.credit := by
      rw [hadv.posts.frame]
    have hother : ∀ i, i ≠ id → (Qdma.wrkProcOne x id).reqs i = x.reqs i :=
      fun i hi => hadv.posts.reqs_of_ne hi
    have hpendkept := (hadv.reqs_of_lists h.ledger.nodup hw).1
    have hpendmem : ∀ i ∈ (Qdma.wrkProcOne x id).descq.pendList,
        i ∈ x.descq.pendList ∨ i = id := by
      intro i hi
      rcases hadv.lists hok h.ledger.nodup hw hav with ⟨-, -, hp⟩ | ⟨-, -, -, -, hp⟩
      · rw [hp] at hi
        simpa using hi
      · rw [hp] at hi
        exact Or.inl hi
    refine ⟨hledger, ⟨hledger.toLedgerAt, ?_, ?_, ?_, ?_⟩, ?_⟩
    · intro i hi
      rw [hlive'] at hi
      rw [blenOf, hconf, ← blenOf]
      by_cases heq : i = id
      · subst heq
        rw [hadv.posts.reqs_self]
        exact h.steadyAt.fits i hi
      · rw [hother i heq]
        exact h.steadyAt.fits i hi
    · rw [hlive']
      rw [hadv.posts.frame]
      exact h.steadyAt.fifo
    · rw [hadv.posts.frame]
      exact h.steadyAt.status
    · intro i hi
      rcases hpendmem i hi with hp | rfl
      · rw [hpendkept i hp]
        exact h.steadyAt.waits i hp
      · omega
    · intro i hi
      rw [hcredit]
      by_cases hnil : x.descq.pendList = []
      · -- the batch is the first of all, and it is not empty
        obtain rfl : i = id := by
          rcases hpendmem i (List.mem_of_mem_head? hi) with hp | heq
          · rw [hnil] at hp
            cases hp
          · exact heq
        have hfirst : i ∈ x.liveIds.head? := by
          unfold Xfer.liveIds
          rw [hnil, hw]
          rfl
        have := h.ledger.bounded i hfirst
        omega
      · -- the first pending request is the one it was
        rw [hadv.head_pendList hok h.ledger.nodup hw hav hnil] at hi
        rw [hpendkept i (List.mem_of_mem_head? hi)]
        exact h.strict i hi

/-- A writeback service. -/
theorem serviceWb (h : Steady x) : Steady (descqMmNH2cWb x) := by
  have hledger := h.ledger.serviceWb
  rcases h.ledger.serviceWb_cases with hr | hr | ⟨cidx, avail, cr, coals, mmio, x₁, rfl, hx₁, hr⟩
  · rw [hr]
    exact h
  · rw [hr] at hledger ⊢
    exact ⟨hledger, h.steadyAt.of_frame hledger.toLedgerAt rfl rfl rfl rfl rfl rfl, h.strict⟩
  · have hstart := h.steadyAt.of_frame (h.ledger.retired_window hx₁) rfl rfl rfl rfl rfl rfl
    obtain ⟨hloop, hend⟩ := reqUpdatePendLoop_induct
      (fun _ _ _ _ hx => hx.reqCompleted) (fun _ _ _ _ hx => hx.reqCredited)
      x.descq.pendList hstart rfl
    rw [hr] at hledger ⊢
    refine ⟨hledger, hloop.of_frame hledger.toLedgerAt rfl rfl rfl rfl rfl rfl, ?_⟩
    intro i hi
    rcases hend with hzero | hnil
    · exact lt_of_eq_of_lt hzero (hloop.waits i (List.mem_of_mem_head? hi))
    · have hmem := List.mem_of_mem_head? hi
      dsimp only at hmem
      rw [hnil] at hmem
      exact absurd hmem List.not_mem_nil

end Steady

/-! ## Runs -/

/-- The steps of a run without timeouts over requests of the character device. -/
def CdevStep (x : Xfer) : Ev → Prop
  | .submit _ req =>
      FitsDescriptors (blenOf x.descq) req ∧ req.WellFormed ∧ req.sgt.nents < 2 ^ 31
  | .timeout _ => False
  | .wrkProc | .serviceWb | .hwWb _ | .ret _ => True

instance decidableCdevStep (x : Xfer) : ∀ e, Decidable (CdevStep x e) := by
  rintro ⟨⟩ <;> dsimp only [CdevStep] <;> infer_instance

instance (x : Xfer) (e : Ev) : Decidable ((xferSys.restrict CdevStep).guard x e) :=
  inferInstanceAs (Decidable (xferGuard x e ∧ CdevStep x e))

theorem Steady.enqueue {x : Xfer} {id : ReqId} {req : QdmaSgReq} (h : Steady x)
    (hnew : id ∉ x.submitted) (hfit : FitsDescriptors (blenOf x.descq) req)
    (hwf : req.WellFormed) (hn : req.sgt.nents < 2 ^ 31) : Steady (x.enqueue id req) := by
  have hledger := h.ledger.enqueue hnew hwf hn
  have hnot : id ∉ x.liveIds := fun hmem => hnew (h.ledger.live id hmem)
  have hlive : (x.enqueue id req).liveIds = x.liveIds ++ [id] := by
    simp [Xfer.liveIds, Xfer.enqueue]
  have hold : ∀ i ∈ x.liveIds, (x.enqueue id req).reqs i = x.reqs i := by
    intro i hi
    have hne : i ≠ id := fun heq => hnot (heq ▸ hi)
    simp [Xfer.enqueue, Function.update_of_ne hne]
  refine ⟨hledger, ⟨hledger.toLedgerAt, ?_, ?_, h.steadyAt.status, ?_⟩, ?_⟩
  · intro i hi
    rw [hlive] at hi
    change FitsDescriptors (blenOf x.descq) _
    rcases List.mem_append.mp hi with hmem | hmem
    · rw [hold i hmem]
      exact h.steadyAt.fits i hmem
    · obtain rfl : i = id := by simpa using hmem
      simp only [Xfer.enqueue, Function.update_self]
      exact hfit
  · change x.submitted ++ [id] = x.completed.map (·.id) ++ _
    rw [hlive, h.steadyAt.fifo, List.append_assoc]
  · intro i hi
    rw [hold i (List.mem_append_left _ hi)]
    exact h.steadyAt.waits i hi
  · intro i hi
    have hmem : i ∈ x.descq.pendList := List.mem_of_mem_head? hi
    rw [hold i (List.mem_append_left _ hmem)]
    exact h.strict i hi

/-- **Every step of such a run keeps the invariant.** -/
theorem Steady.step {x : Xfer} {e : Ev} (h : Steady x) (hg : xferGuard x e)
    (hstep : CdevStep x e) : Steady (xferStep x e) := by
  cases e with
  | submit id req =>
      rcases qdmaSgReqSubmit_cases x id req with hr | ⟨hr, -⟩
      · rw [xferStep, hr]
        exact h
      · rw [xferStep, hr]
        exact h.enqueue hg.1 hstep.1 hstep.2.1 hstep.2.2
  | wrkProc =>
      exact Ledger.wrkProcLoop_induct (fun _ hx => hx.ledger)
        (fun _ _ _ hx hw hres => Steady.wrkProcOne hx hw hres) _ h rfl h.resumesAtSegments
  | serviceWb =>
      rw [xferStep, serviceWb_of_isMmOrH2c h.ledger.ring.kind]
      exact h.serviceWb
  | hwWb c =>
      have hledger : Ledger (xferStep x (.hwWb c)) := h.ledger.step hg trivial
      exact ⟨hledger, h.steadyAt.of_frame hledger.toLedgerAt rfl rfl rfl rfl rfl rfl, h.strict⟩
  | timeout id => exact hstep.elim
  | ret id =>
      have hledger : Ledger (xferStep x (.ret id)) := h.ledger.step hg trivial
      exact ⟨hledger, h.steadyAt.of_frame hledger.toLedgerAt rfl rfl rfl rfl rfl rfl, h.strict⟩

theorem FreshQueue.steady {d : QdmaDescq} (h : FreshQueue d) (reqs : ReqId → QdmaSgReq)
    (coalEn : Bool) (coals : List IntrCoalConf) : Steady (Xfer.init d reqs coalEn coals) := by
  have hledger := h.ledger reqs coalEn coals
  have hpend : (Xfer.init d reqs coalEn coals).descq.pendList = [] := h.pendList_eq
  have hlive : (Xfer.init d reqs coalEn coals).liveIds = [] := by
    unfold Xfer.liveIds
    rw [hpend]
    exact h.workList_eq
  refine ⟨hledger, ⟨hledger.toLedgerAt, ?_, ?_, ?_, ?_⟩, ?_⟩
  · intro i hi
    rw [hlive] at hi
    exact absurd hi List.not_mem_nil
  · rw [hlive]
    rfl
  · intro e he
    exact absurd he List.not_mem_nil
  · intro i hi
    rw [hpend] at hi
    exact absurd hi List.not_mem_nil
  · intro i hi
    rw [hpend] at hi
    cases hi

/-- **Credit conservation, order of completions, no lost completion.**  In every
run of submissions as the character device makes them, worker passes, writeback
services and in-window writebacks, in any order: the `desc_nr` of the pending
requests and of the first request of `work_list` add up to the descriptors in
flight and the credits in hand; completions carry status 0 and come in submission
order; and once everything posted is retired and `work_list` is empty, nothing is
pending and no credit is left. -/
theorem credits_conserved (d : QdmaDescq) (hd : FreshQueue d) (reqs : ReqId → QdmaSgReq)
    (coalEn : Bool) (coals : List IntrCoalConf) (es : List Ev)
    (hrun : (xferSys.restrict CdevStep).Admits (Xfer.init d reqs coalEn coals) es) :
    let x := xferSys.exec (Xfer.init d reqs coalEn coals) es
    (x.descq.pendList.map fun id => (x.reqs id).cb.descNr).sum +
        (x.descq.workList.head?.map fun id => (x.reqs id).cb.descNr).getD 0 =
      (x.posted.length - x.retired) + x.descq.credit ∧
    x.completed.map (·.id) <+: x.submitted ∧ (∀ e ∈ x.completed, e.status = 0) ∧
    (x.retired = x.posted.length → x.descq.workList = [] →
      x.descq.pendList = [] ∧ x.descq.credit = 0) := by
  intro x
  have h : Steady x :=
    (xferSys.restrict CdevStep).invariant (fun _ _ hx hg => Steady.step hx hg.1 hg.2) es
      (hd.steady reqs coalEn coals) hrun
  have hsum := h.ledger.sum_share
  have hposted := h.ledger.ring.posted_eq
  rw [Xfer.liveIds, List.map_append, List.sum_append, h.ledger.sum_workList] at hsum
  refine ⟨by omega, ?_, h.steadyAt.status, ?_⟩
  · rw [h.steadyAt.fifo]
    exact List.prefix_append _ _
  · intro hretired hwork
    rw [hwork] at hsum
    simp only [List.head?_nil, Option.map_none, Option.getD_none, Nat.add_zero] at hsum
    cases hp : x.descq.pendList with
    | nil =>
        rw [hp] at hsum
        simp only [List.map_nil, List.sum_nil] at hsum
        exact ⟨rfl, by omega⟩
    | cons id rest =>
        -- the first pending request alone waits for more than is in hand
        exfalso
        have hstrict := h.strict id (by rw [hp]; rfl)
        rw [hp, List.map_cons, List.sum_cons] at hsum
        omega

/-- Two requests of two descriptors each, three of them consumed: one request is
done and the other waits for one more. -/
theorem credits_conserved_two_requests :
    let x := xferSys.exec h2cStart
      [.submit 0 twoPlacesReq, .submit 1 twoPlacesReq, .wrkProc, .hwWb 3, .serviceWb]
    x.completed.map (·.id) = [0] ∧ x.descq.pendList = [1] ∧
      (x.descq.pendList.map fun id => (x.reqs id).cb.descNr).sum +
          (x.descq.workList.head?.map fun id => (x.reqs id).cb.descNr).getD 0 =
        (x.posted.length - x.retired) + x.descq.credit :=
  ⟨by decide +kernel, by decide +kernel,
    (credits_conserved (h2cQueue false) (freshQueue_h2cQueue false) (fun _ => onePlaceReq) false []
      [.submit 0 twoPlacesReq, .submit 1 twoPlacesReq, .wrkProc, .hwWb 3, .serviceWb]
      (by decide +kernel)).1⟩

end Qdma

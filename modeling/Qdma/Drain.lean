import Qdma.Conservation
import Qdma.Dma

/-!
# Every request gets through

`Conservation` says that no completion is lost; this module says that every completion
comes.  A *round* is what the worker thread, the hardware and the writeback thread do
in turn: a pass over `work_list`, the hardware consuming what is posted, and the service
of its writeback.  From any state of a run over requests of the character device, a
number of rounds that depends only on the descriptors left to post completes every
request, without an error and in the order of submission (`requests_drain`).

Behind it is a count: the descriptors still to be posted (`leftover`).  A pass posts as
many of them as there are free slots or all of them, never fewer
(`Steady.leftover_wrkProc`), and after a round every slot is free again.
-/

namespace Qdma

open Lib Lib.Extent Lib.Cyclic

/-! ## What is left to post -/

/-- The extents behind the first `n` bytes, where no extent straddles the edge. -/
def dropBytes {A : Type} : ℕ → List (Extent A) → List (Extent A)
  | _, [] => []
  | 0, es => es
  | n + 1, e :: es => dropBytes (n + 1 - e.len) es

theorem dropBytes_zero {A : Type} (es : List (Extent A)) : dropBytes 0 es = es := by
  cases es with
  | nil => rfl
  | cons e es => rfl

theorem dropBytes_total {A : Type} :
    ∀ (es : List (Extent A)) (K : ℕ), (∀ e ∈ es, 0 < e.len) →
      dropBytes (total (es.take K)) es = es.drop K := by
  intro es
  induction es with
  | nil => intro K _; rw [List.take_nil, List.drop_nil]; exact dropBytes_zero _
  | cons e es ih =>
      intro K hpos
      cases K with
      | zero => exact dropBytes_zero _
      | succ K =>
          have he := hpos e List.mem_cons_self
          rw [List.take_succ_cons, total_cons, List.drop_succ_cons,
            ← ih K fun f hf => hpos f (List.mem_cons_of_mem e hf)]
          obtain ⟨n, hn⟩ : ∃ n, e.len + total (es.take K) = n + 1 :=
            ⟨e.len - 1 + total (es.take K), by omega⟩
          rw [hn]
          change dropBytes (n + 1 - e.len) es = _
          rw [← hn, Nat.add_sub_cancel_left]

/-- The pieces of the request that are not posted. -/
def QdmaSgReq.left (blen : ℕ) (req : QdmaSgReq) : List (Extent (BitVec 64)) :=
  dropBytes req.cb.offset (pieces blen req.sgt.sgl)

/-- The descriptors that the requests of `work_list` still need. -/
def Xfer.leftover (x : Xfer) : ℕ :=
  (x.descq.workList.map fun id => ((x.reqs id).left (blenOf x.descq)).length).sum

theorem left_of_offset {blen : ℕ} {req : QdmaSgReq} {K : ℕ}
    (hoff : req.cb.offset = total ((pieces blen req.sgt.sgl).take K)) :
    req.left blen = (pieces blen req.sgt.sgl).drop K := by
  unfold QdmaSgReq.left
  rw [hoff]
  exact dropBytes_total _ K fun e he => pieces_len_pos he

/-- The same requests with as much left of each. -/
theorem leftover_congr {x y : Xfer} (hwork : y.descq.workList = x.descq.workList)
    (hconf : y.descq.conf = x.descq.conf)
    (hreqs : ∀ id ∈ x.descq.workList, (y.reqs id).cb.offset = (x.reqs id).cb.offset ∧
      (y.reqs id).sgt = (x.reqs id).sgt) : y.leftover = x.leftover := by
  unfold Xfer.leftover blenOf
  rw [hwork, hconf]
  refine congrArg List.sum (List.map_congr_left fun id hid => ?_)
  unfold QdmaSgReq.left
  rw [(hreqs id hid).1, (hreqs id hid).2]

/-! ## A pass of the worker -/

namespace Steady

variable {x : Xfer} {id : ReqId} {rest : List ReqId}

/-- **One request of a pass** takes the free slots it needs, or all there are. -/
theorem leftover_wrkProcOne (h : Steady x) (hw : x.descq.workList = id :: rest) :
    (Qdma.wrkProcOne x id).descq.avail ≤ x.descq.avail ∧
      (Qdma.wrkProcOne x id).leftover + x.descq.avail =
        x.leftover + (Qdma.wrkProcOne x id).descq.avail := by
  have hmem : id ∈ x.descq.workList := by
    rw [hw]
    exact List.mem_cons_self
  have hlive : id ∈ x.liveIds := List.mem_append_right _ hmem
  have hok := h.ledger.reqs id hlive
  rcases h.ledger.wrkProcOne_cases hw h.resumesAtSegments with ⟨-, hr⟩ | ⟨-, hcount, -⟩ | ⟨K, hadv⟩
  · rw [hr]
    exact ⟨le_rfl, rfl⟩
  · have := (h.steadyAt.fits id hlive).count_pos hok.wf
    omega
  · have hav : x.descq.avail < 2 ^ 32 := lt_trans h.ledger.ring.avail_lt h.ledger.ring.rngsz_lt
    have hconf : (Qdma.wrkProcOne x id).descq.conf = x.descq.conf := by rw [hadv.posts.frame]
    have hblen : blenOf (Qdma.wrkProcOne x id).descq = blenOf x.descq := by
      unfold blenOf
      rw [hconf]
    have hleft := congrArg List.length (left_of_offset hadv.offset_eq)
    rw [List.length_drop] at hleft
    have hspent : (Qdma.wrkProcOne x id).descq.avail = x.descq.avail -
        min x.descq.avail ((pieces (blenOf x.descq) (x.reqs id).sgt.sgl).length - K) := by
      have hframe : (Qdma.wrkProcOne x id).descq.avail = u32Sub x.descq.avail
          (((pieces (blenOf x.descq) (x.reqs id).sgt.sgl).drop K).take x.descq.avail).length := by
        rw [hadv.posts.frame]
      rw [hframe, Advances.length_batch, u32Sub_of_le hav (Nat.min_le_left _ _)]
    have hkept := (hadv.reqs_of_lists h.ledger.nodup hw).2
    have hrest : ∀ ids ⊆ rest,
        (ids.map fun i => (((Qdma.wrkProcOne x id).reqs i).left
          (blenOf (Qdma.wrkProcOne x id).descq)).length) =
        ids.map fun i => ((x.reqs i).left (blenOf x.descq)).length := by
      intro ids hids
      refine List.map_congr_left fun i hi => ?_
      rw [hkept i (hids hi), hblen]
    have hx : x.leftover = (pieces (blenOf x.descq) (x.reqs id).sgt.sgl).length - K +
        (rest.map fun i => ((x.reqs i).left (blenOf x.descq)).length).sum := by
      unfold Xfer.leftover
      rw [hw, List.map_cons, List.sum_cons, hleft]
    refine ⟨by omega, ?_⟩
    obtain ⟨hoff, hfull⟩ := postedCb_offset (blenOf_pos x.descq) hok.wf hadv.offset_eq x.descq.avail
    have hself := hadv.posts.reqs_self
    have hnew : ((Qdma.wrkProcOne x id).reqs id).cb.offset =
        total ((pieces (blenOf x.descq) (x.reqs id).sgt.sgl).take (K + x.descq.avail)) := by
      rw [hself]
      exact hoff
    rcases hadv.lists hok h.ledger.nodup hw hav with ⟨hall, hwork, -⟩ | ⟨-, -, hzero, hwork, -⟩
    · -- the request has left the list, so there was room for the rest of it
      have hy : (Qdma.wrkProcOne x id).leftover =
          (rest.map fun i => ((x.reqs i).left (blenOf x.descq)).length).sum := by
        unfold Xfer.leftover
        rw [hwork, hrest rest (List.Subset.refl _)]
      have hroom := hfull.mp (hnew.symm.trans hall)
      omega
    · -- the ring is full, and the request stays with what did not fit
      have hsgt : ((Qdma.wrkProcOne x id).reqs id).sgt = (x.reqs id).sgt := by rw [hself]
      have hleft' : ((Qdma.wrkProcOne x id).reqs id).left (blenOf x.descq) =
          (pieces (blenOf x.descq) (x.reqs id).sgt.sgl).drop (K + x.descq.avail) := by
        rw [← hsgt]
        refine left_of_offset ?_
        rw [hnew, hsgt]
      have hy : (Qdma.wrkProcOne x id).leftover =
          (pieces (blenOf x.descq) (x.reqs id).sgt.sgl).length - (K + x.descq.avail) +
            (rest.map fun i => ((x.reqs i).left (blenOf x.descq)).length).sum := by
        unfold Xfer.leftover
        rw [hwork, List.map_cons, List.sum_cons, hrest rest (List.Subset.refl _), hblen, hleft',
          List.length_drop]
      omega

/-- **A pass** takes the free slots it needs, or all there are. -/
theorem leftover_wrkProc (h : Steady x) :
    (qdmaThreadWrkProc x).leftover = x.leftover - x.descq.avail := by
  have hpass : ∀ (ids : List ReqId) {x : Xfer}, Steady x → x.descq.workList = ids →
      (Qdma.wrkProcLoop ids x).descq.avail ≤ x.descq.avail ∧
        (Qdma.wrkProcLoop ids x).leftover + x.descq.avail =
          x.leftover + (Qdma.wrkProcLoop ids x).descq.avail ∧
        ((Qdma.wrkProcLoop ids x).descq.avail = 0 ∨
          (Qdma.wrkProcLoop ids x).descq.workList = []) := by
    intro ids
    induction ids with
    | nil => exact fun _ hw => ⟨le_rfl, rfl, Or.inr hw⟩
    | cons id rest ih =>
        intro x hx hw
        obtain ⟨hle, hsum⟩ := hx.leftover_wrkProcOne hw
        unfold Qdma.wrkProcLoop
        dsimp only
        split
        · rename_i hfull
          exact ⟨hle, hsum, Or.inl hfull⟩
        · rename_i hav
          have hone := hx.wrkProcOne hw hx.resumesAtSegments
          rcases hx.ledger.wrkProcOne_next hw hx.resumesAtSegments with hfull | ⟨hlist, -⟩
          · exact absurd hfull hav
          · obtain ⟨hle', hsum', hend⟩ := ih hone hlist
            exact ⟨le_trans hle' hle, by omega, hend⟩
  obtain ⟨hle, hsum, hend⟩ := hpass x.descq.workList h rfl
  change (Qdma.wrkProcLoop x.descq.workList x).leftover = _
  rcases hend with hfull | hnil
  · omega
  · have hnone : (Qdma.wrkProcLoop x.descq.workList x).leftover = 0 := by
      unfold Xfer.leftover
      rw [hnil]
      rfl
    omega

/-- What is on `work_list` has something left. -/
theorem workList_of_leftover (h : Steady x) (hnone : x.leftover = 0) : x.descq.workList = [] := by
  by_contra hne
  obtain ⟨id, rest, hw⟩ := List.exists_cons_of_ne_nil hne
  have hmem : id ∈ x.descq.workList := by
    rw [hw]
    exact List.mem_cons_self
  have hlive : id ∈ x.liveIds := List.mem_append_right _ hmem
  have hok := h.ledger.reqs id hlive
  have hpos := (h.steadyAt.fits id hlive).count_pos hok.wf
  obtain ⟨K, -, hoff, -⟩ := hok.sent
  have hzero : ((x.reqs id).left (blenOf x.descq)).length = 0 := by
    unfold Xfer.leftover at hnone
    rw [hw, List.map_cons, List.sum_cons] at hnone
    omega
  rw [left_of_offset hoff, List.length_drop] at hzero
  -- nothing left would mean that the offset is the count
  have hall : (x.reqs id).cb.offset = (x.reqs id).count := by
    rw [hoff, List.take_of_length_le (by omega), total_pieces (blenOf_pos _)]
    exact hok.wf
  exact h.ledger.partly id hmem (by omega) hall

/-! ## The hardware and the writeback -/

/-- A service leaves `work_list` to the worker. -/
theorem leftover_serviceWb (h : Steady x) : (descqMmNH2cWb x).leftover = x.leftover := by
  have hkept : ∀ (ids : List ReqId) (credit : ℕ) {y : Xfer}, y.liveIds.Nodup →
      (∀ id ∈ ids, id ∈ y.descq.pendList) → ids.Nodup →
      (reqUpdatePendLoop ids credit y).1.leftover = y.leftover := by
    intro ids
    induction ids with
    | nil => intro credit y _ _ _; rfl
    | cons id rest ih =>
        intro credit y hnodup hpend hids
        have hid := hpend id List.mem_cons_self
        obtain ⟨hnot, hrest⟩ := List.nodup_cons.mp hids
        have haway : id ∉ y.descq.workList := fun hmem =>
          (List.nodup_append.mp hnodup).2.2 id hid id hmem rfl
        have hother : ∀ (z : Xfer) (cb : QdmaSgtReqCb), z.reqs = Function.update y.reqs id
            { y.reqs id with cb := cb } → ∀ i ∈ y.descq.workList,
              (z.reqs i).cb.offset = (y.reqs i).cb.offset ∧ (z.reqs i).sgt = (y.reqs i).sgt := by
          intro z cb hz i hi
          have hne : i ≠ id := by
            rintro rfl
            exact haway hi
          rw [hz, Function.update_of_ne hne]
          exact ⟨rfl, rfl⟩
        have hdone : (qdmaSgtReqDone y id 0).leftover = y.leftover :=
          leftover_congr (List.erase_of_not_mem haway) rfl (hother _ _ rfl)
        unfold reqUpdatePendLoop
        dsimp only
        by_cases hle : (y.reqs id).cb.descNr ≤ credit
        · rw [if_pos hle]
          split
          · exact hdone
          · rw [← hdone]
            refine ih _ ?_ ?_ hrest
            · change (y.descq.pendList.erase id ++ y.descq.workList.erase id).Nodup
              rw [erase_append_erase hnodup]
              exact hnodup.erase id
            · intro i hi
              have hne : i ≠ id := by
                rintro rfl
                exact hnot hi
              exact (List.mem_erase_of_ne hne).mpr (hpend i (List.mem_cons_of_mem id hi))
        · rw [if_neg hle]
          exact leftover_congr rfl rfl (hother _ _ rfl)
  rcases h.ledger.serviceWb_cases with hr | hr | ⟨cidx, avail, cr, coals, mmio, x₁, rfl, -, hr⟩
  · rw [hr]
  · rw [hr]
    exact leftover_congr rfl rfl fun _ _ => ⟨rfl, rfl⟩
  · have hnodup := h.ledger.nodup
    have hloop := hkept x.descq.pendList (cr + x.descq.credit)
      (y := { x with
        descq := { x.descq with cidx := cidx, avail := avail }
        retired := x.retired + cr })
      hnodup (fun _ hi => hi) (List.nodup_append.mp hnodup).1
    rw [hr]
    refine (leftover_congr rfl rfl fun _ _ => ⟨rfl, rfl⟩).trans (hloop.trans ?_)
    exact leftover_congr rfl rfl fun _ _ => ⟨rfl, rfl⟩

/-- With nothing in flight, every slot is free and nothing is pending. -/
theorem idle_of_inFlight (h : Steady x) (hflight : x.inFlight = 0) :
    x.descq.avail = x.descq.conf.rngsz - 1 ∧ x.descq.pendList = [] := by
  have havail := h.ledger.ring.avail_add
  refine ⟨by omega, ?_⟩
  have hsum := h.ledger.sum_share
  rw [Xfer.liveIds, List.map_append, List.sum_append] at hsum
  cases hp : x.descq.pendList with
  | nil => rfl
  | cons id rest =>
      -- the first pending request alone waits for more than is in hand
      exfalso
      have hstrict := h.strict id (by rw [hp]; rfl)
      rw [hp, List.map_cons, List.sum_cons] at hsum
      omega

end Steady

/-- The service of a writeback that names everything posted. -/
theorem inFlight_serviceWb {x : Xfer} {ring : DescRing} (h : RingInv x)
    (hring : x.descq.desc = some ring) (hall : ring.wbCidx = x.descq.pidx) :
    (descqMmNH2cWb x).inFlight = 0 := by
  unfold descqMmNH2cWb
  by_cases hsame : x.descq.pidx = x.descq.cidx
  · rw [if_pos hsame]
    unfold Xfer.inFlight
    rw [hsame, gap_self]
  · have hnew : ring.wbCidx ≠ x.descq.cidx := hall ▸ hsame
    rw [if_neg hsame, hring]
    dsimp only
    rw [if_neg hnew, descqWbCredit_eq h (hall ▸ h.pidx_lt)]
    dsimp only
    have hs := sameRing_reqUpdatePend
      { x with
        descq :=
          { x.descq with
            cidx := ring.wbCidx
            avail := u32 (x.descq.avail + gap x.descq.conf.rngsz ring.wbCidx x.descq.cidx) }
        retired := x.retired + gap x.descq.conf.rngsz ring.wbCidx x.descq.cidx }
      (gap x.descq.conf.rngsz ring.wbCidx x.descq.cidx)
    generalize reqUpdatePend _ _ = z at hs ⊢
    obtain ⟨coals, mmio, hc⟩ := intrCoalAdvance_frame
      { z with mmio := z.mmio ++ [descqPidxUpdate z.descq z.descq.pidx] }
    rw [hc]
    change z.inFlight = 0
    rw [hs]
    change gap x.descq.conf.rngsz x.descq.pidx ring.wbCidx = 0
    rw [hall, gap_self]

/-! ## Rounds -/

/-- The worker posts, the hardware consumes what is posted, and its writeback is
serviced. -/
def serveRound (x : Xfer) : List Ev :=
  [.wrkProc, .hwWb (qdmaThreadWrkProc x).descq.pidx, .serviceWb]

/-- A number of rounds. -/
def drainRun : ℕ → Xfer → List Ev
  | 0, _ => []
  | n + 1, x => serveRound x ++ drainRun n (xferSys.exec x (serveRound x))

theorem submitted_wrkProcLoop :
    ∀ (ids : List ReqId) {x : Xfer}, RingInv x → (wrkProcLoop ids x).submitted = x.submitted := by
  intro ids
  induction ids with
  | nil => exact fun _ => rfl
  | cons id rest ih =>
      intro x hx
      have hone : (wrkProcOne x id).submitted = x.submitted := by
        have hproc : (qdmaDescqProcSgtRequest x id).2.submitted = x.submitted := by
          rcases proc_cases x id hx.kind with
            ⟨-, hr⟩ | ⟨-, -, hr⟩ | ⟨-, sg, off, -, -, -, hr⟩ | ⟨-, sg, off, -, -, -, hr⟩
          · rw [hr]
          · rw [hr]
          · rw [hr]
          · rw [hr.frame]
        unfold wrkProcOne
        dsimp only
        split
        · exact hproc
        · exact hproc
      unfold wrkProcLoop
      dsimp only
      split
      · exact hone
      · exact (ih (hx.wrkProcOne id)).trans hone

theorem submitted_serviceWb {x : Xfer} (h : RingInv x) :
    (descqMmNH2cWb x).submitted = x.submitted := by
  rcases descqMmNH2cWb_cases x with hr | ⟨-, hr⟩ | ⟨ring, coals, mmio, hsome, -, -, hr⟩
  · rw [hr]
  · rw [hr]
  · have hwb : x.descq.desc.map (·.wbCidx) = some ring.wbCidx := by rw [hsome]; rfl
    obtain ⟨hlt, -⟩ := h.window _ hwb
    have hs := sameRing_reqUpdatePend (descqWbCredit x ring.wbCidx).2 (descqWbCredit x ring.wbCidx).1
    rw [hr, hs, descqWbCredit_eq h hlt]

/-- What a round leaves. -/
structure AfterRound (x y : Xfer) : Prop where
  steady : Steady y
  allocated : y.descq.desc.isSome = true
  avail : y.descq.avail = rngSzDflt - 1
  pendList : y.descq.pendList = []
  leftover : y.leftover = x.leftover - x.descq.avail
  submitted : y.submitted = x.submitted

/-- **A round** can be run, completes everything posted and frees every slot. -/
theorem Steady.round {x : Xfer} (h : Steady x) (hring : x.descq.desc.isSome = true) :
    (xferSys.restrict CdevStep).Admits x (serveRound x) ∧
      AfterRound x (xferSys.exec x (serveRound x)) := by
  have hposted := h.step (e := .wrkProc) trivial trivial
  have hmoves := RingMoves.step h.ledger.ring (e := .wrkProc) fun _ => Ev.noConfusion
  have hleft := h.leftover_wrkProc
  have hsub := submitted_wrkProcLoop x.descq.workList h.ledger.ring
  change Steady (qdmaThreadWrkProc x) at hposted
  change RingMoves x (qdmaThreadWrkProc x) at hmoves
  change (qdmaThreadWrkProc x).submitted = x.submitted at hsub
  have hguard : xferGuard (qdmaThreadWrkProc x) (.hwWb (qdmaThreadWrkProc x).descq.pidx) :=
    ⟨hposted.ledger.ring.pidx_lt, le_rfl⟩
  have hconsumed := hposted.step hguard trivial
  have hserved := hconsumed.step (e := .serviceWb) trivial trivial
  refine ⟨⟨⟨trivial, trivial⟩, ⟨hguard, trivial⟩, ⟨trivial, trivial⟩, trivial⟩, ?_⟩
  change AfterRound x (xferStep (hwWriteback (qdmaThreadWrkProc x)
    (qdmaThreadWrkProc x).descq.pidx) .serviceWb)
  change Steady (hwWriteback (qdmaThreadWrkProc x) (qdmaThreadWrkProc x).descq.pidx) at hconsumed
  change Steady (xferStep (hwWriteback (qdmaThreadWrkProc x)
    (qdmaThreadWrkProc x).descq.pidx) .serviceWb) at hserved
  have halloc := hmoves.allocated.trans hring
  have hleft' : (hwWriteback (qdmaThreadWrkProc x) (qdmaThreadWrkProc x).descq.pidx).leftover =
      (qdmaThreadWrkProc x).leftover := leftover_congr rfl rfl fun _ _ => ⟨rfl, rfl⟩
  generalize qdmaThreadWrkProc x = y at *
  obtain ⟨ring, hdesc⟩ := Option.isSome_iff_exists.mp halloc
  have hdesc' : (hwWriteback y y.descq.pidx).descq.desc = some { ring with wbCidx := y.descq.pidx } := by
    change y.descq.desc.map _ = _
    rw [hdesc]
    rfl
  have hservice := serviceWb_of_isMmOrH2c hconsumed.ledger.ring.kind noAllocs
  rw [xferStep, hservice] at hserved ⊢
  have hflight := inFlight_serviceWb hconsumed.ledger.ring hdesc' rfl
  obtain ⟨havail, hpend⟩ := hserved.idle_of_inFlight hflight
  refine ⟨hserved, ?_, ?_, hpend, ?_, ?_⟩
  · rw [(RingMoves.serviceWb hconsumed.ledger.ring).allocated, hdesc']
    rfl
  · rw [havail, hserved.ledger.ring.rngsz_eq]
  · rw [hconsumed.leftover_serviceWb, hleft', hleft]
  · rw [submitted_serviceWb hconsumed.ledger.ring]
    exact hsub

/-- **Rounds in a row**: the first one frees the ring, each further one posts a ring full. -/
theorem Steady.rounds :
    ∀ (n : ℕ) {x : Xfer}, Steady x → x.descq.desc.isSome = true → x.descq.avail = rngSzDflt - 1 →
      x.descq.pendList = [] →
      let y := xferSys.exec x (drainRun n x)
      (xferSys.restrict CdevStep).Admits x (drainRun n x) ∧ Steady y ∧ y.descq.pendList = [] ∧
        y.leftover = x.leftover - (rngSzDflt - 1) * n ∧ y.submitted = x.submitted := by
  intro n
  induction n with
  | zero => exact fun h _ _ hpend => ⟨trivial, h, hpend, by rw [Nat.mul_zero]; rfl, rfl⟩
  | succ n ih =>
      intro x h hring havail _
      obtain ⟨hadmits, hround⟩ := h.round hring
      obtain ⟨hadmits', hsteady, hpend, hleft, hsub⟩ :=
        ih hround.steady hround.allocated hround.avail hround.pendList
      intro y
      have hy : y = xferSys.exec (xferSys.exec x (serveRound x))
          (drainRun n (xferSys.exec x (serveRound x))) := xferSys.exec_append _ _ _
      rw [hy]
      refine ⟨((xferSys.restrict CdevStep).admits_append _ _ _).mpr ⟨hadmits, hadmits'⟩, hsteady, hpend,
        ?_, hsub.trans hround.submitted⟩
      rw [hleft, hround.leftover, havail, Nat.mul_succ]
      omega

/-- **Every request gets through.**  After any run of submissions as the character device
makes them, with no empty segment, worker passes, writeback services and in-window writebacks,
on a queue with a ring: one round and one more for every ring full of descriptors that is left
complete every request, without an error and in the order of submission. -/
theorem requests_drain (d : QdmaDescq) (hd : FreshQueue d) (hring : d.desc.isSome = true)
    (reqs : ReqId → QdmaSgReq) (coalEn : Bool) (coals : List IntrCoalConf) (es : List Ev) (n : ℕ)
    (hrun : (xferSys.restrict CdevStep).Admits (Xfer.init d reqs coalEn coals) es)
    (hn : (xferSys.exec (Xfer.init d reqs coalEn coals) es).leftover ≤ (rngSzDflt - 1) * n) :
    let x := xferSys.exec (Xfer.init d reqs coalEn coals) es
    let y := xferSys.exec x (drainRun (n + 1) x)
    xferSys.Admits x (drainRun (n + 1) x) ∧ y.completed.map (·.id) = x.submitted ∧
      ∀ e ∈ y.completed, e.status = 0 := by
  intro x y
  have hinv : Steady x ∧ x.descq.desc.isSome = true := by
    refine (xferSys.restrict CdevStep).invariant
      (I := fun x => Steady x ∧ x.descq.desc.isSome = true) ?_ es
      ⟨hd.steady reqs coalEn coals, hring⟩ hrun
    rintro z e ⟨hz, halloc⟩ ⟨hg, hok⟩
    refine ⟨hz.step hg hok, ?_⟩
    by_cases hhw : ∃ cidx, e = .hwWb cidx
    · obtain ⟨cidx, rfl⟩ := hhw
      change (z.descq.desc.map _).isSome = true
      rw [Option.isSome_map]
      exact halloc
    · exact (RingMoves.step hz.ledger.ring fun cidx heq => hhw ⟨cidx, heq⟩).allocated.trans halloc
  obtain ⟨h, halloc⟩ := hinv
  -- the first round frees the ring, the others find it free
  obtain ⟨hadmits, hround⟩ := h.round halloc
  obtain ⟨hadmits', hsteady, hpend, hleft, hsub⟩ :=
    Steady.rounds n hround.steady hround.allocated hround.avail hround.pendList
  have hy : y = xferSys.exec (xferSys.exec x (serveRound x))
      (drainRun n (xferSys.exec x (serveRound x))) := xferSys.exec_append _ _ _
  refine ⟨xferSys.admits_of_restrict _
    (((xferSys.restrict CdevStep).admits_append _ _ _).mpr ⟨hadmits, hadmits'⟩), ?_, ?_⟩
  · have hnone : y.leftover = 0 := by
      rw [hy, hleft, hround.leftover]
      change x.leftover ≤ (rngSzDflt - 1) * n at hn
      omega
    rw [hy] at hnone ⊢
    have hfifo := hsteady.steadyAt.fifo
    rw [Xfer.liveIds, hpend, hsteady.workList_of_leftover hnone, hsub, hround.submitted] at hfifo
    simpa using hfifo.symm
  · rw [hy]
    exact hsteady.steadyAt.status

/-- Two requests are waiting when the rounds begin. -/
theorem requests_drain_two :
    let x := xferSys.exec h2cStart [.submit 0 twoPlacesReq, .submit 1 onePlaceReq]
    (xferSys.exec x (drainRun 2 x)).completed.map (·.id) = [0, 1] := by
  intro x
  have h := requests_drain (h2cQueue false) (freshQueue_h2cQueue false) rfl (fun _ => onePlaceReq)
    false [] [.submit 0 twoPlacesReq, .submit 1 onePlaceReq] 1 (by decide +kernel) (by decide +kernel)
  exact h.2.1.trans (by decide +kernel)

end Qdma

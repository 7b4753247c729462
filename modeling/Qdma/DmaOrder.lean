import Qdma.Dma

/-!
# Whole transfers, in order

`Dma` says that the engine carries out what is posted.  What is posted is what the
callers asked for as long as every request is posted by one call: then its descriptors
stand next to one another in the ring and together are one copy between its buffer and
the card (`Block`).  A request that is split over two calls is posted at its `ep_addr`
twice, so the condition here is that the worker finds room for all of a request that it
takes up (`TakesUpWhole`).

In the runs that meet it the queue does what a queue of copies would do:

* the requests are carried out whole, one after the other, in the order of their
  submission (`transfers_in_order`);
* the bytes of a request that was completed without an error are where they belong, and
  stay there (`completed_transferred`);
* what one queue wrote to the card another can read back (`written_read_back`).
-/

namespace Qdma

open Lib Lib.Extent Lib.Cyclic

/-! ## The descriptors of one call -/

/-- Descriptors in a row are the copy that has their bytes on both sides. -/
theorem join_eq_of_sides {c2h : Bool} {ps : List Posting} {c : DmaCopy}
    (hhost : ps.flatMap (fun p => (p.desc.host c2h).bytes) = if c2h then c.dst else c.src)
    (hcard : ps.flatMap (fun p => (⟨p.desc.dev c2h, p.desc.len⟩ : Extent (BitVec 64)).bytes) =
      if c2h then c.src else c.dst) :
    Copy.join (ps.map (·.desc.copy)) = c := by
  refine Copy.ext ?_ ?_
  · change (ps.map (·.desc.copy)).flatMap (·.src) = _
    rw [List.flatMap_map]
    cases c2h with
    | false => exact hhost
    | true => exact hcard
  · change (ps.map (·.desc.copy)).flatMap (·.dst) = _
    rw [List.flatMap_map]
    cases c2h with
    | false => exact hcard
    | true => exact hhost

/-- On the card's side the pieces of one call follow one another. -/
theorem card_bytes_eq {c2h : Bool} {start : BitVec 64} {ps : List Posting}
    (hdev : ∀ k p, ps[k]? = some p → p.desc.dev c2h =
      start + (total ((ps.map fun p => p.desc.host c2h).take k) : BitVec 64)) :
    ps.flatMap (fun p => (⟨p.desc.dev c2h, p.desc.len⟩ : Extent (BitVec 64)).bytes) =
      (⟨start, total (ps.map fun p => p.desc.host c2h)⟩ : Extent (BitVec 64)).bytes := by
  have hlens : ∀ qs : List Posting,
      total (qs.map fun p => (⟨p.desc.dev c2h, p.desc.len⟩ : Extent (BitVec 64))) =
        total (qs.map fun p => p.desc.host c2h) := by
    intro qs
    unfold total
    rw [List.map_map, List.map_map]
    rfl
  have hrow := bytesOf_consecutive
    (ps.map fun p => (⟨p.desc.dev c2h, p.desc.len⟩ : Extent (BitVec 64))) start (by
      intro k e he
      rw [List.getElem?_map, Option.map_eq_some_iff] at he
      obtain ⟨p, hp, rfl⟩ := he
      rw [← List.map_take, hlens, List.map_take]
      exact hdev k p hp)
  rwa [hlens, bytesOf, List.flatMap_map] at hrow

/-- **The descriptors of a request together are the request's copy.** -/
theorem join_copies {blen : ℕ} (hb : 0 < blen) {c2h : Bool} {req : QdmaSgReq} {ps : List Posting}
    (hhosts : ps.map (fun p => p.desc.host c2h) = pieces blen req.sgt.sgl)
    (hdev : ∀ k p, ps[k]? = some p → p.desc.dev c2h =
      req.epAddr + (total ((ps.map fun p => p.desc.host c2h).take k) : BitVec 64)) :
    Copy.join (ps.map (·.desc.copy)) = req.copy c2h := by
  have hbuffer : ps.flatMap (fun p => (p.desc.host c2h).bytes) = req.buffer := by
    unfold QdmaSgReq.buffer
    rw [← bytesOf_cutAll hb]
    change _ = bytesOf (pieces blen req.sgt.sgl)
    rw [← hhosts, bytesOf, List.flatMap_map]
  have hcard := card_bytes_eq hdev
  rw [hhosts, total_pieces hb] at hcard
  cases c2h with
  | false => exact join_eq_of_sides hbuffer hcard
  | true => exact join_eq_of_sides hbuffer hcard

/-- The postings of one request. -/
structure Block (c2h : Bool) (req : QdmaSgReq) (id : ReqId) (ps : List Posting) : Prop where
  owner : ∀ p ∈ ps, p.owner = id
  ne_nil : ps ≠ []
  copy : Copy.join (ps.map (·.desc.copy)) = req.copy c2h

/-! ## The condition -/

/-- The number of descriptors the requests need. -/
def Xfer.needed (x : Xfer) (ids : List ReqId) : ℕ :=
  (ids.map fun id => descsNeeded (blenOf x.descq) (x.reqs id).sgt.sgl).sum

/-- As long as the worker finds free descriptors for its next request, it finds as many as
the request needs. -/
def Xfer.TakesUpWhole (x : Xfer) : Prop :=
  ∀ k < x.descq.workList.length, x.needed (x.descq.workList.take k) < x.descq.avail →
    x.needed (x.descq.workList.take (k + 1)) ≤ x.descq.avail

instance (x : Xfer) : Decidable x.TakesUpWhole :=
  inferInstanceAs (Decidable (∀ k < _, _ → _))

/-- Requests are well formed and taken up whole. -/
def WholeStep (x : Xfer) : Ev → Prop
  | .submit _ req => req.WellFormed
  | .wrkProc => x.TakesUpWhole
  | .serviceWb | .hwWb _ | .timeout _ | .ret _ => True

instance decidableWholeStep (x : Xfer) : ∀ e, Decidable (WholeStep x e) := by
  rintro ⟨⟩ <;> dsimp only [WholeStep] <;> infer_instance

/-! ## The ring as a line of requests -/

/-- What is posted are the requests `ids`, whole and in the order of submission, and those
on `work_list` come behind them. -/
structure Lines (x : Xfer) (ids : List ReqId) : Prop where
  mm : x.descq.conf.st = false
  nodup : x.submitted.Nodup
  order : (ids ++ x.descq.workList).Sublist x.submitted
  blocks : ∃ bs : List (ReqId × List Posting), ids = bs.map (·.1) ∧
    x.posted = bs.flatMap (·.2) ∧ ∀ b ∈ bs, Block x.descq.conf.c2h (x.reqs b.1) b.1 b.2
  wf : ∀ id ∈ x.submitted, (x.reqs id).WellFormed
  unposted : ∀ id ∈ x.descq.workList, (x.reqs id).cb.offset = 0
  pending : ∀ id ∈ x.descq.pendList, id ∈ ids
  done : ∀ e ∈ x.completed, e.status = 0 → e.id ∈ ids

namespace Lines

variable {x y : Xfer} {ids : List ReqId} {id : ReqId}

theorem mem_submitted (h : Lines x ids) (hid : id ∈ ids) : id ∈ x.submitted :=
  h.order.subset (List.mem_append_left _ hid)

theorem nodup_append (h : Lines x ids) : (ids ++ x.descq.workList).Nodup := h.order.nodup h.nodup

/-- Nothing is posted: requests leave their lists, and control blocks keep their offsets. -/
theorem settles (h : Lines x ids) (hconf : y.descq.conf = x.descq.conf)
    (hposted : y.posted = x.posted) (hsub : y.submitted = x.submitted)
    (hwork : y.descq.workList.Sublist x.descq.workList)
    (hpend : ∀ id ∈ y.descq.pendList, id ∈ x.descq.pendList)
    (hreqs : ∀ i, ∃ cb, cb.offset = (x.reqs i).cb.offset ∧ y.reqs i = { x.reqs i with cb := cb })
    (hdone : ∀ e ∈ y.completed, e ∈ x.completed ∨ e.status ≠ 0 ∨ e.id ∈ ids) : Lines y ids := by
  refine ⟨?_, ?_, ?_, ?_, ?_, ?_, fun i hi => h.pending i (hpend i hi), ?_⟩
  · rw [hconf]
    exact h.mm
  · rw [hsub]
    exact h.nodup
  · rw [hsub]
    exact (hwork.append_left ids).trans h.order
  · obtain ⟨bs, hids, hbs, hblocks⟩ := h.blocks
    refine ⟨bs, hids, hposted.trans hbs, fun b hb => ?_⟩
    obtain ⟨cb, -, hi⟩ := hreqs b.1
    rw [hconf, hi]
    exact ⟨(hblocks b hb).owner, (hblocks b hb).ne_nil, (hblocks b hb).copy⟩
  · intro i hi
    rw [hsub] at hi
    obtain ⟨cb, -, hreq⟩ := hreqs i
    rw [hreq]
    exact h.wf i hi
  · intro i hi
    obtain ⟨cb, hoff, hreq⟩ := hreqs i
    rw [hreq]
    exact hoff.trans (h.unposted i (hwork.subset hi))
  · intro e he hzero
    rcases hdone e he with hold | hne | hid
    · exact h.done e hold hzero
    · exact absurd hzero hne
    · exact hid

theorem listDel (h : Lines x ids) (id : ReqId) : Lines (x.listDel id) ids :=
  h.settles rfl rfl rfl List.erase_sublist (fun _ hi => List.mem_of_mem_erase hi)
    (fun i => ⟨(x.reqs i).cb, rfl, rfl⟩) fun _ he => Or.inl he

theorem setCb (h : Lines x ids) (id : ReqId) (cb : QdmaSgtReqCb)
    (hoff : cb.offset = (x.reqs id).cb.offset) : Lines (x.setCb id cb) ids := by
  refine h.settles rfl rfl rfl (List.Sublist.refl _) (fun _ hi => hi) ?_ fun _ he => Or.inl he
  intro i
  by_cases hi : i = id
  · subst hi
    exact ⟨cb, hoff, Function.update_self ..⟩
  · exact ⟨(x.reqs i).cb, rfl, Function.update_of_ne hi _ _⟩

/-- A request that fails, or one that was posted, is completed. -/
theorem reqDone (h : Lines x ids) {error : ℤ} (hdone : error = 0 → id ∈ ids) :
    Lines (qdmaSgtReqDone x id error) ids := by
  have hset := (h.listDel id).setCb id
    { ((x.listDel id).reqs id).cb with
      status := if (x.reqs id).fpDone && decide ((x.reqs id).cb.offset ≠ (x.reqs id).count)
        then -einval else error
      done := true } rfl
  refine hset.settles rfl rfl rfl (List.Sublist.refl _) (fun _ hi => hi)
    (fun i => ⟨_, rfl, rfl⟩) ?_
  intro e he
  rcases List.mem_append.mp he with hold | hnew
  · exact Or.inl hold
  · right
    rw [List.mem_singleton] at hnew
    subst hnew
    by_cases hzero : error = 0
    · exact Or.inr (hdone hzero)
    · left
      dsimp only
      split
      · exact show ¬ (-einval : ℤ) = 0 by decide
      · exact hzero

/-- What the lines do not speak of. -/
theorem of_frame (h : Lines x ids) (hconf : y.descq.conf = x.descq.conf)
    (hwork : y.descq.workList = x.descq.workList) (hpend : y.descq.pendList = x.descq.pendList)
    (hreqs : y.reqs = x.reqs) (hposted : y.posted = x.posted) (hsub : y.submitted = x.submitted)
    (hcomp : y.completed = x.completed) : Lines y ids := by
  refine h.settles hconf hposted hsub (hwork ▸ List.Sublist.refl _) ?_ ?_ ?_
  · intro i hi
    rwa [hpend] at hi
  · intro i
    exact ⟨(x.reqs i).cb, rfl, by rw [hreqs]⟩
  · intro e he
    rw [hcomp] at he
    exact Or.inl he

/-- The credits of a writeback complete requests that were posted. -/
theorem reqUpdatePendLoop :
    ∀ (pend : List ReqId) (credit : ℕ) {x : Xfer}, Lines x ids → (∀ id ∈ pend, id ∈ ids) →
      Lines (reqUpdatePendLoop pend credit x).1 ids := by
  intro pend
  induction pend with
  | nil => exact fun _ _ h _ => h
  | cons id rest ih =>
      intro credit x h hpend
      have hrest : ∀ i ∈ rest, i ∈ ids := fun i hi => hpend i (List.mem_cons_of_mem id hi)
      unfold Qdma.reqUpdatePendLoop
      dsimp only
      by_cases hle : (x.reqs id).cb.descNr ≤ credit
      · have hdone : Lines (qdmaSgtReqDone x id 0) ids :=
          h.reqDone fun _ => hpend id List.mem_cons_self
        rw [if_pos hle]
        split
        · exact hdone
        · exact ih _ hdone hrest
      · rw [if_neg hle]
        exact h.setCb id _ rfl

theorem serviceWb (h : Lines x ids) (hring : RingInv x) : Lines (descqMmNH2cWb x) ids := by
  rcases descqMmNH2cWb_cases x with hr | ⟨-, hr⟩ | ⟨ring, coals, mmio, hsome, -, -, hr⟩
  · rw [hr]
    exact h
  · rw [hr]
    exact h.of_frame rfl rfl rfl rfl rfl rfl rfl
  · have hwb : x.descq.desc.map (·.wbCidx) = some ring.wbCidx := by rw [hsome]; rfl
    obtain ⟨hlt, -⟩ := hring.window _ hwb
    rw [hr, descqWbCredit_eq hring hlt]
    have hcredit : Lines { x with
        descq :=
          { x.descq with
            cidx := ring.wbCidx
            avail := u32 (x.descq.avail + gap x.descq.conf.rngsz ring.wbCidx x.descq.cidx) }
        retired := x.retired + gap x.descq.conf.rngsz ring.wbCidx x.descq.cidx } ids :=
      h.of_frame rfl rfl rfl rfl rfl rfl rfl
    exact (hcredit.reqUpdatePendLoop _ _ h.pending).of_frame rfl rfl rfl rfl rfl rfl rfl

/-- **A request comes in**, behind everything. -/
theorem enqueue {req : QdmaSgReq} (h : Lines x ids) (hnew : id ∉ x.submitted)
    (hwf : req.WellFormed) : Lines (x.enqueue id req) ids := by
  have hother : ∀ i ∈ x.submitted, (x.enqueue id req).reqs i = x.reqs i := by
    intro i hi
    have hne : i ≠ id := by
      rintro rfl
      exact hnew hi
    exact Function.update_of_ne hne _ _
  have hself : (x.enqueue id req).reqs id = { req with cb := QdmaSgtReqCb.zero } :=
    Function.update_self ..
  refine ⟨h.mm, ?_, ?_, ?_, ?_, ?_, h.pending, h.done⟩
  · refine List.nodup_append.mpr ⟨h.nodup, List.nodup_singleton id, ?_⟩
    intro i hi j hj heq
    rw [List.mem_singleton] at hj
    rw [← hj, ← heq] at hnew
    exact hnew hi
  · change (ids ++ (x.descq.workList ++ [id])).Sublist (x.submitted ++ [id])
    rw [← List.append_assoc]
    exact h.order.append_right [id]
  · obtain ⟨bs, hids, hbs, hblocks⟩ := h.blocks
    refine ⟨bs, hids, hbs, fun b hb => ?_⟩
    have hmem : b.1 ∈ ids := hids ▸ List.mem_map_of_mem hb
    rw [hother b.1 (h.mem_submitted hmem)]
    exact hblocks b hb
  · intro i hi
    rcases List.mem_append.mp hi with hold | hlast
    · rw [hother i hold]
      exact h.wf i hold
    · rw [List.mem_singleton] at hlast
      rw [hlast, hself]
      exact hwf
  · intro i hi
    rcases List.mem_append.mp hi with hold | hlast
    · rw [hother i (h.order.subset (List.mem_append_right _ hold))]
      exact h.unposted i hold
    · rw [List.mem_singleton] at hlast
      rw [hlast, hself]
      rfl

/-- **A request is posted whole** and joins the line. -/
theorem posted {rest : List ReqId} (h : Lines x ids) (hw : x.descq.workList = id :: rest)
    (hposts : Posts x id (pieces (blenOf x.descq) (x.reqs id).sgt.sgl) y)
    (hne : pieces (blenOf x.descq) (x.reqs id).sgt.sgl ≠ [])
    (hdev : ∃ ps, y.posted = x.posted ++ ps ∧ ∀ k p, ps[k]? = some p →
      p.desc.dev x.descq.conf.c2h = (x.reqs id).epAddr +
        (total ((ps.map fun p => p.desc.host x.descq.conf.c2h).take k) : BitVec 64)) :
    Lines y (ids ++ [id]) ∧ y.descq.workList = rest := by
  have hmem : id ∈ x.descq.workList := by
    rw [hw]
    exact List.mem_cons_self
  have hsub := h.order.subset (List.mem_append_right _ hmem)
  have hwf := h.wf id hsub
  have hzero := h.unposted id hmem
  have hconf : y.descq.conf = x.descq.conf := by rw [hposts.frame]
  have hsubmitted : y.submitted = x.submitted := by rw [hposts.frame]
  have hcompleted : y.completed = x.completed := by rw [hposts.frame]
  have hself := hposts.reqs_self
  -- the offset has reached the count, so the request has moved to `pend_list`
  have hoff : (postedCb (x.reqs id).cb (pieces (blenOf x.descq) (x.reqs id).sgt.sgl)).offset =
      (x.reqs id).count := by
    have hlt := (x.reqs id).count_lt
    unfold postedCb QdmaSgtReqCb.account
    dsimp only
    rw [hzero, Nat.zero_add, total_pieces (blenOf_pos _), hwf, u32_of_lt hlt, u32_of_lt hlt]
  have hlists := hposts.lists
  rw [if_pos hoff] at hlists
  have hleft : y.descq.workList = x.descq.workList.erase id := congrArg Prod.fst hlists
  have hwork : y.descq.workList = rest := by
    rw [hleft, hw, List.erase_cons_head]
  have hpend : y.descq.pendList = x.descq.pendList.erase id ++ [id] := congrArg Prod.snd hlists
  have hkept : ∀ i, ∃ cb, y.reqs i = { x.reqs i with cb := cb } := by
    intro i
    by_cases hi : i = id
    · subst hi
      exact ⟨_, hself⟩
    · exact ⟨(x.reqs i).cb, hposts.reqs_of_ne hi⟩
  obtain ⟨ps, hps, hdevs⟩ := hdev
  obtain ⟨ps', hps', hhosts, howner⟩ := hposts.posted_eq
  obtain rfl : ps' = ps := List.append_cancel_left (hps'.symm.trans hps)
  refine ⟨⟨?_, ?_, ?_, ?_, ?_, ?_, ?_, ?_⟩, hwork⟩
  · rw [hconf]
    exact h.mm
  · rw [hsubmitted]
    exact h.nodup
  · rw [hsubmitted, hwork, List.append_assoc, List.singleton_append, ← hw]
    exact h.order
  · obtain ⟨bs, hids, hbs, hblocks⟩ := h.blocks
    refine ⟨bs ++ [(id, ps')], ?_, ?_, ?_⟩
    · rw [List.map_append, ← hids]
      rfl
    · rw [hps, hbs, List.flatMap_append, List.flatMap_singleton]
    · intro b hb
      rw [hconf]
      obtain ⟨cb, hreq⟩ := hkept b.1
      rw [hreq]
      rcases List.mem_append.mp hb with hold | hnew
      · exact ⟨(hblocks b hold).owner, (hblocks b hold).ne_nil, (hblocks b hold).copy⟩
      · rw [List.mem_singleton] at hnew
        subst hnew
        refine ⟨howner, ?_, join_copies (blenOf_pos x.descq) hhosts hdevs⟩
        rintro rfl
        exact hne hhosts.symm
  · intro i hi
    rw [hsubmitted] at hi
    obtain ⟨cb, hreq⟩ := hkept i
    rw [hreq]
    exact h.wf i hi
  · intro i hi
    rw [hwork] at hi
    have hnodup := (List.nodup_append.mp h.nodup_append).2.1
    rw [hw] at hnodup
    have hne' : i ≠ id := by
      rintro rfl
      exact (List.nodup_cons.mp hnodup).1 hi
    rw [hposts.reqs_of_ne hne']
    exact h.unposted i (by rw [hw]; exact List.mem_cons_of_mem _ hi)
  · intro i hi
    rw [hpend] at hi
    rcases List.mem_append.mp hi with hold | hnew
    · exact List.mem_append_left _ (h.pending i (List.mem_of_mem_erase hold))
    · exact List.mem_append_right _ hnew
  · intro e he hstatus
    rw [hcompleted] at he
    exact List.mem_append_left _ (h.done e he hstatus)

end Lines

/-! ## A pass of the worker -/

/-- What the posting function appends counts the card's addresses up from `ep_addr`. -/
theorem dev_wrkProcOne {x : Xfer} {id : ReqId} (hmm : x.descq.conf.st = false)
    (hmem : id ∈ x.descq.workList) :
    ∃ ps, (wrkProcOne x id).posted = x.posted ++ ps ∧
      ∀ k p, ps[k]? = some p → p.desc.dev x.descq.conf.c2h = (x.reqs id).epAddr +
        (total ((ps.map fun p => p.desc.host x.descq.conf.c2h).take k) : BitVec 64) := by
  obtain ⟨ps, hps, hdev⟩ := dev_procCall hmm hmem x.descq.avail
  refine ⟨ps, ?_, hdev⟩
  unfold procCall at hps
  rw [if_pos hmem] at hps
  rw [← hps]
  unfold wrkProcOne
  dsimp only
  split
  · rfl
  · rfl

/-- The rest of the list finds the room that the first request leaves. -/
theorem Xfer.TakesUpWhole.tail {x y : Xfer} {id : ReqId} {rest : List ReqId}
    (h : x.TakesUpWhole) (hw : x.descq.workList = id :: rest) (hw' : y.descq.workList = rest)
    (hconf : y.descq.conf = x.descq.conf) (hsgt : ∀ i, (y.reqs i).sgt = (x.reqs i).sgt)
    (havail : y.descq.avail = x.descq.avail - x.needed [id]) : y.TakesUpWhole := by
  have hneeds : ∀ ids, x.needed (id :: ids) = x.needed [id] + y.needed ids := by
    intro ids
    unfold Xfer.needed
    simp only [List.map_cons, List.sum_cons, List.map_nil, List.sum_nil, Nat.add_zero, hsgt]
    unfold blenOf
    rw [hconf]
  intro k hk hroom
  rw [hw'] at hk hroom ⊢
  have hnext := h (k + 1) (by rw [hw]; exact Nat.succ_lt_succ hk)
  rw [hw, List.take_succ_cons, List.take_succ_cons, hneeds (rest.take k),
    hneeds (rest.take (k + 1))] at hnext
  omega

/-- **One request of a pass**: without room nothing happens, a request without bytes fails,
and any other is posted whole. -/
theorem Lines.wrkProcOne {x : Xfer} {ids : List ReqId} {id : ReqId} {rest : List ReqId}
    (h : Lines x ids) (hring : RingInv x) (hwhole : x.TakesUpWhole)
    (hw : x.descq.workList = id :: rest) :
    (∃ ids', Lines (Qdma.wrkProcOne x id) ids') ∧
      ((Qdma.wrkProcOne x id).descq.avail = 0 ∨
        (Qdma.wrkProcOne x id).descq.workList = rest ∧ (Qdma.wrkProcOne x id).TakesUpWhole) := by
  have hmem : id ∈ x.descq.workList := by
    rw [hw]
    exact List.mem_cons_self
  have hstart := postStart_of_zero (h.unposted id hmem)
  have hone : x.needed [id] = (pieces (blenOf x.descq) (x.reqs id).sgt.sgl).length := by
    rw [length_pieces (blenOf_pos _)]
    unfold Xfer.needed
    rw [List.map_singleton, List.sum_singleton]
  have hroom : x.descq.avail ≠ 0 → x.needed [id] ≤ x.descq.avail := by
    intro hav
    have hfirst := hwhole 0 (by rw [hw]; exact Nat.succ_pos _) (Nat.pos_of_ne_zero hav)
    rwa [hw] at hfirst
  rcases proc_cases x id hring.kind with
    ⟨hav, hr⟩ | ⟨-, hnone, -⟩ | ⟨-, sg, off, hsome, -, hnil, hr⟩ | ⟨hav, sg, off, hsome, hne, hrv, hposts⟩
  · have hsame : Qdma.wrkProcOne x id = x := by
      unfold Qdma.wrkProcOne
      rw [hr]
      rfl
    rw [hsame]
    exact ⟨⟨ids, h⟩, Or.inl hav⟩
  · rw [hstart] at hnone
    cases hnone
  · rw [hstart] at hsome
    cases hsome
    have hfails : Qdma.wrkProcOne x id = qdmaSgtReqDone x id (-eio) := by
      unfold Qdma.wrkProcOne
      rw [hr]
      rfl
    have hlist : (qdmaSgtReqDone x id (-eio)).descq.workList = rest := by
      change x.descq.workList.erase id = rest
      rw [hw, List.erase_cons_head]
    rw [hfails]
    refine ⟨⟨ids, h.reqDone fun hzero => ?_⟩, Or.inr ⟨hlist, hwhole.tail hw hlist rfl ?_ ?_⟩⟩
    · exact absurd hzero (show ¬ (-eio : ℤ) = 0 by decide)
    · intro i
      exact (settles_reqDone x id (-eio)).sgt i
    · change x.descq.avail = x.descq.avail - x.needed [id]
      rw [hone, hnil]
      rfl
  · rw [hstart] at hsome
    cases hsome
    have hposted : Qdma.wrkProcOne x id = (qdmaDescqProcSgtRequest x id).2 := by
      unfold Qdma.wrkProcOne
      dsimp only
      rw [hrv]
      rfl
    have hall : (pieces (blenOf x.descq) (x.reqs id).sgt.sgl).take x.descq.avail =
        pieces (blenOf x.descq) (x.reqs id).sgt.sgl := by
      refine List.take_of_length_le ?_
      rw [← hone]
      exact hroom hav
    have hdev := dev_wrkProcOne h.mm hmem
    rw [hall] at hposts
    rw [hposted] at hdev ⊢
    obtain ⟨hlines, hlist⟩ := h.posted hw hposts (hne h.mm) hdev
    refine ⟨⟨_, hlines⟩, Or.inr ⟨hlist, hwhole.tail hw hlist ?_ ?_ ?_⟩⟩
    · rw [hposts.frame]
    · intro i
      by_cases hi : i = id
      · subst hi
        rw [hposts.reqs_self]
      · rw [hposts.reqs_of_ne hi]
    · have havail : (qdmaDescqProcSgtRequest x id).2.descq.avail = u32Sub x.descq.avail
          (pieces (blenOf x.descq) (x.reqs id).sgt.sgl).length := by
        rw [hposts.frame]
      rw [havail, u32Sub_of_le (lt_trans hring.avail_lt hring.rngsz_lt) (hone ▸ hroom hav), hone]

/-- A whole pass. -/
theorem Lines.wrkProcLoop :
    ∀ (rest : List ReqId) {x : Xfer} {ids : List ReqId}, Lines x ids → RingInv x →
      x.TakesUpWhole → x.descq.workList = rest → ∃ ids', Lines (Qdma.wrkProcLoop rest x) ids' := by
  intro rest
  induction rest with
  | nil => exact fun h _ _ _ => ⟨_, h⟩
  | cons id rest ih =>
      intro x ids h hring hwhole hw
      obtain ⟨⟨ids', hone⟩, hnext⟩ := h.wrkProcOne hring hwhole hw
      unfold Qdma.wrkProcLoop
      dsimp only
      split
      · exact ⟨ids', hone⟩
      · rename_i hav
        rcases hnext with hfull | ⟨hlist, hwhole'⟩
        · exact absurd hfull hav
        · exact ih hone (hring.wrkProcOne id) hwhole' hlist

/-- **Every step that takes requests up whole keeps the line.** -/
theorem Lines.step {x : Xfer} {ids : List ReqId} {e : Ev} (h : Lines x ids) (hring : RingInv x)
    (hg : xferGuard x e) (hok : WholeStep x e) : ∃ ids', Lines (xferStep x e) ids' := by
  cases e with
  | submit id req =>
      rcases qdmaSgReqSubmit_cases x id req with hr | ⟨hr, -⟩
      · rw [xferStep, hr]
        exact ⟨ids, h⟩
      · rw [xferStep, hr]
        exact ⟨ids, h.enqueue hg.1 hok⟩
  | wrkProc => exact h.wrkProcLoop _ hring hok rfl
  | serviceWb =>
      rw [xferStep, serviceWb_of_isMmOrH2c hring.kind]
      exact ⟨ids, h.serviceWb hring⟩
  | hwWb cidx => exact ⟨ids, h.of_frame rfl rfl rfl rfl rfl rfl rfl⟩
  | timeout id => exact ⟨ids, h.listDel id⟩
  | ret id => exact ⟨ids, h.of_frame rfl rfl rfl rfl rfl rfl rfl⟩

/-! ## The transfers of a run -/

/-- The memories a queue reads and writes. -/
def DmaMem.source (c2h : Bool) (m : DmaMem) : BitVec 64 → BitVec 8 := if c2h then m.card else m.host

def DmaMem.target (c2h : Bool) (m : DmaMem) : BitVec 64 → BitVec 8 := if c2h then m.host else m.card

theorem DmaMem.target_carryAll (c2h : Bool) (cs : List DmaCopy) (m : DmaMem) :
    (m.carryAll c2h cs).target c2h = Copy.runAll cs (m.source c2h) (m.target c2h) := by
  rw [DmaMem.carryAll_eq]
  cases c2h with
  | false => rfl
  | true => rfl

/-- What the requests ask for, in a row. -/
def Xfer.asks (x : Xfer) (ids : List ReqId) : List DmaCopy :=
  ids.map fun id => (x.reqs id).copy x.descq.conf.c2h

/-- The requests `ids` are carried out in their order, which is that of their submission:
the memories are what a number of them, whole, and a part of the next make of them, and
when nothing posted is left, what all of them make. -/
structure CarriedInOrder (mem : DmaMem) (s : DmaState) (ids : List ReqId) : Prop where
  order : ids.Sublist s.x.submitted
  posted : ∀ id, id ∈ ids ↔ ∃ p ∈ s.x.posted, p.owner = id
  sofar : ∃ n part,
    s.mem = (mem.carryAll s.x.descq.conf.c2h (s.x.asks (ids.take n))).carryAll
      s.x.descq.conf.c2h part ∧
    (part = [] ∨ ∃ id rest, ids[n]? = some id ∧
      Copy.join (part ++ rest) = (s.x.reqs id).copy s.x.descq.conf.c2h)
  finished : s.carried = s.x.posted.length →
    s.mem = mem.carryAll s.x.descq.conf.c2h (s.x.asks ids)

/-- Whole requests, and the copies they ask for. -/
theorem carryAll_blocks {x : Xfer} (m : DmaMem) :
    ∀ (bs : List (ReqId × List Posting)),
      (∀ b ∈ bs, Block x.descq.conf.c2h (x.reqs b.1) b.1 b.2) →
      m.carryAll x.descq.conf.c2h ((bs.flatMap (·.2)).map (·.desc.copy)) =
        m.carryAll x.descq.conf.c2h (x.asks (bs.map (·.1))) := by
  intro bs
  induction bs generalizing m with
  | nil => exact fun _ => rfl
  | cons b bs ih =>
      intro hblocks
      have hfirst := (hblocks b List.mem_cons_self).copy
      rw [List.flatMap_cons, List.map_append, DmaMem.carryAll_append,
        DmaMem.carryAll_join _ (b.2.map (·.desc.copy)), hfirst]
      exact ih _ fun b' hb' => hblocks b' (List.mem_cons_of_mem b hb')

theorem Lines.carriedInOrder {mem : DmaMem} {s : DmaState} {ids : List ReqId}
    (h : Lines s.x ids) (hdma : DmaInv mem s) : CarriedInOrder mem s ids := by
  obtain ⟨bs, hids, hposted, hblocks⟩ := h.blocks
  refine ⟨(List.sublist_append_left _ _).trans h.order, ?_, ?_, ?_⟩
  · intro id
    rw [hids, hposted]
    constructor
    · intro hid
      obtain ⟨b, hb, rfl⟩ := List.mem_map.mp hid
      obtain ⟨p, hp⟩ := List.exists_mem_of_ne_nil _ (hblocks b hb).ne_nil
      exact ⟨p, List.mem_flatMap.mpr ⟨b, hb, hp⟩, (hblocks b hb).owner p hp⟩
    · rintro ⟨p, hp, rfl⟩
      obtain ⟨b, hb, hpb⟩ := List.mem_flatMap.mp hp
      rw [(hblocks b hb).owner p hpb]
      exact List.mem_map_of_mem hb
  · obtain ⟨n, part, htake, hpart⟩ := take_flatMap_eq (·.2) bs s.carried
    refine ⟨n, part.map (·.desc.copy), ?_, ?_⟩
    · have hmem := hdma.mem_eq
      unfold Xfer.copies at hmem
      rw [hposted, htake, List.map_append, DmaMem.carryAll_append,
        carryAll_blocks mem _ fun b hb => hblocks b (List.mem_of_mem_take hb), List.map_take,
        ← hids] at hmem
      exact hmem
    · rcases hpart with hnil | ⟨b, rest, hb, hsplit⟩
      · exact Or.inl (by rw [hnil]; rfl)
      · refine Or.inr ⟨b.1, rest.map (·.desc.copy), ?_, ?_⟩
        · rw [hids, List.getElem?_map, hb]
          rfl
        · rw [← List.map_append, ← hsplit]
          exact (hblocks b (List.mem_of_getElem? hb)).copy
  · intro hall
    have hmem := hdma.mem_eq
    unfold Xfer.copies at hmem
    rw [hall, List.take_length, hposted, carryAll_blocks mem bs hblocks, ← hids] at hmem
    exact hmem

/-- The driver takes requests up whole; the engine does as it likes. -/
def WholeMove (s : DmaState) : DmaEv → Prop
  | .drv e => WholeStep s.x e
  | .carry => True

instance decidableWholeMove (s : DmaState) : ∀ e, Decidable (WholeMove s e) := by
  rintro ⟨⟩ <;> dsimp only [WholeMove] <;> infer_instance

instance (s : DmaState) (e : DmaEv) : Decidable ((dmaSys.restrict WholeMove).guard s e) :=
  inferInstanceAs (Decidable (dmaSys.guard s e ∧ WholeMove s e))

theorem FreshQueue.lines {d : QdmaDescq} (h : FreshQueue d) (hmm : d.conf.st = false)
    (reqs : ReqId → QdmaSgReq) (coalEn : Bool) (coals : List IntrCoalConf) :
    Lines (Xfer.init d reqs coalEn coals) [] := by
  have hwork : (Xfer.init d reqs coalEn coals).descq.workList = [] := h.workList_eq
  have hpend : (Xfer.init d reqs coalEn coals).descq.pendList = [] := h.pendList_eq
  refine ⟨hmm, List.nodup_nil, ?_, ⟨[], rfl, rfl, fun _ hb => absurd hb List.not_mem_nil⟩,
    fun _ hi => absurd hi List.not_mem_nil, ?_, ?_, fun _ he => absurd he List.not_mem_nil⟩
  · rw [hwork]
    exact List.Sublist.refl _
  · rw [hwork]
    exact fun _ hi => absurd hi List.not_mem_nil
  · rw [hpend]
    exact fun _ hi => absurd hi List.not_mem_nil

/-- **Transfers in order.**  In every run of a memory-mapped queue's drivers and its engine in
which requests are taken up whole: the requests that are posted are carried out whole, one
after the other, in the order of their submission. -/
theorem transfers_in_order (d : QdmaDescq) (hd : FreshQueue d) (hmm : d.conf.st = false)
    (reqs : ReqId → QdmaSgReq) (coalEn : Bool) (coals : List IntrCoalConf) (mem : DmaMem)
    (es : List DmaEv)
    (hrun : (dmaSys.restrict WholeMove).Admits
      (DmaState.init (Xfer.init d reqs coalEn coals) mem) es) :
    ∃ ids, CarriedInOrder mem
      (dmaSys.exec (DmaState.init (Xfer.init d reqs coalEn coals) mem) es) ids := by
  have hinv := (dmaSys.restrict WholeMove).invariant
    (I := fun s => DmaInv mem s ∧ ∃ ids, Lines s.x ids) ?_ es
    ⟨hd.dmaInv reqs coalEn coals mem, [], hd.lines hmm reqs coalEn coals⟩ hrun
  · obtain ⟨hdma, ids, hlines⟩ := hinv
    exact ⟨ids, hlines.carriedInOrder hdma⟩
  · rintro s e ⟨hdma, ids, hlines⟩ ⟨hg, hok⟩
    refine ⟨hdma.step hg, ?_⟩
    cases e with
    | drv e => exact hlines.step hdma.ring hg.1 hok
    | carry =>
        refine ⟨ids, ?_⟩
        have hsame : (dmaStep s .carry).x = s.x := by
          unfold dmaStep
          dsimp only
          split
          · rfl
          · rfl
        change Lines (dmaStep s .carry).x ids
        rw [hsame]
        exact hlines

/-- Two requests, posted by one pass; the engine stops between the two descriptors of the
second. -/
def twoTransfersRun : List DmaEv :=
  [.drv (.submit 0 onePlaceReq), .drv (.submit 1 twoPlacesReq), .drv .wrkProc, .carry, .carry]

theorem transfers_in_order_two :
    (dmaSys.exec (DmaState.init h2cStart countingMem) twoTransfersRun).x.posted.length = 3 ∧
      ∃ ids, CarriedInOrder countingMem
        (dmaSys.exec (DmaState.init h2cStart countingMem) twoTransfersRun) ids :=
  ⟨by decide +kernel, transfers_in_order (h2cQueue false) (freshQueue_h2cQueue false) rfl
    (fun _ => onePlaceReq) false [] countingMem twoTransfersRun (by decide +kernel)⟩

/-! ## What a completion says -/

/-- The addresses of the card do not repeat within a request. -/
theorem nodup_bytes (a : BitVec 64) {n : ℕ} (hn : n ≤ 2 ^ 64) :
    (⟨a, n⟩ : Extent (BitVec 64)).bytes.Nodup := by
  unfold bytes
  refine List.Nodup.map_on ?_ List.nodup_range
  intro i hi j hj heq
  have hij := congrArg BitVec.toNat (add_left_cancel heq)
  rw [List.mem_range] at hi hj
  change i % 2 ^ 64 = j % 2 ^ 64 at hij
  rwa [Nat.mod_eq_of_lt (lt_of_lt_of_le hi hn), Nat.mod_eq_of_lt (lt_of_lt_of_le hj hn)] at hij

/-- Requests are taken up whole, and no caller gives up on one that was posted. -/
def SettledStep (x : Xfer) (e : Ev) : Prop :=
  WholeStep x e ∧
    match e with
    | .submit _ req => req.sgt.nents < 2 ^ 31
    | .timeout id => (x.reqs id).cb.descNr = 0
    | .wrkProc | .serviceWb | .hwWb _ | .ret _ => True

instance decidableSettledStep (x : Xfer) : ∀ e, Decidable (SettledStep x e) := by
  rintro ⟨⟩ <;> dsimp only [SettledStep] <;> infer_instance

theorem SettledStep.stepOk {x : Xfer} {ids : List ReqId} {e : Ev} (h : SettledStep x e)
    (hlines : Lines x ids) : StepOk x e := by
  cases e with
  | submit id req => exact h
  | wrkProc => exact fun id hid hne => absurd (hlines.unposted id hid) hne
  | timeout id => exact h.2
  | serviceWb | hwWb _ | ret _ => exact trivial

def SettledMove (s : DmaState) : DmaEv → Prop
  | .drv e => SettledStep s.x e
  | .carry => True

instance decidableSettledMove (s : DmaState) : ∀ e, Decidable (SettledMove s e) := by
  rintro ⟨⟩ <;> dsimp only [SettledMove] <;> infer_instance

instance (s : DmaState) (e : DmaEv) : Decidable ((dmaSys.restrict SettledMove).guard s e) :=
  inferInstanceAs (Decidable (dmaSys.guard s e ∧ SettledMove s e))

/-- A state of such a run. -/
structure DoneCarried (mem : DmaMem) (s : DmaState) : Prop where
  dma : DmaInv mem s
  ledger : Ledger s.x
  lines : ∃ ids, Lines s.x ids

theorem DoneCarried.step {mem : DmaMem} {s : DmaState} {e : DmaEv} (h : DoneCarried mem s)
    (hg : dmaGuard s e) (hok : SettledMove s e) : DoneCarried mem (dmaStep s e) := by
  obtain ⟨ids, hlines⟩ := h.lines
  have hdma := h.dma.step hg
  cases e with
  | drv e =>
      exact ⟨hdma, h.ledger.step hg.1 (SettledStep.stepOk hok hlines),
        hlines.step h.dma.ring hg.1 hok.1⟩
  | carry =>
      have hsame : (dmaStep s .carry).x = s.x := by
        unfold dmaStep
        dsimp only
        split
        · rfl
        · rfl
      refine ⟨hdma, ?_, ids, ?_⟩
      · rw [hsame]
        exact h.ledger
      · rw [hsame]
        exact hlines

/-- The bytes of the request are where they belong. -/
def Transferred (mem : DmaMem) (s : DmaState) (id : ReqId) : Prop :=
  let c := (s.x.reqs id).copy s.x.descq.conf.c2h
  c.dst.map (s.mem.target s.x.descq.conf.c2h) = c.src.map (mem.source s.x.descq.conf.c2h)

/-- Nothing that is submitted after the request goes to the same place. -/
def Xfer.LastThere (x : Xfer) (id : ReqId) : Prop :=
  ∀ i, [id, i].Sublist x.submitted → List.Disjoint ((x.reqs i).copy x.descq.conf.c2h).dst
    ((x.reqs id).copy x.descq.conf.c2h).dst

/-- All descriptors of a request that is off the lists have been carried out. -/
theorem DoneCarried.carried {mem : DmaMem} {s : DmaState} (h : DoneCarried mem s) {id : ReqId}
    (hid : id ∉ s.x.liveIds) {pre ps post : List Posting} (hposted : s.x.posted = pre ++ (ps ++ post))
    (howner : ∀ p ∈ ps, p.owner = id) (hne : ps ≠ []) : pre.length + ps.length ≤ s.carried := by
  have hpos := List.length_pos_of_ne_nil hne
  have hlast : s.x.posted[pre.length + (ps.length - 1)]? = some (ps.getLast hne) := by
    rw [hposted, List.getElem?_append_right (Nat.le_add_right _ _), Nat.add_sub_cancel_left,
      List.getElem?_append_left (by omega), List.getLast_eq_getElem]
    exact List.getElem?_eq_getElem _
  have hlt := h.ledger.toLedgerAt.index_lt hid hlast (howner _ (List.getLast_mem hne))
  have hret := h.dma.retired_le
  omega

theorem DoneCarried.transferred {mem : DmaMem} {s : DmaState} (h : DoneCarried mem s) {e : Completion}
    (he : e ∈ s.x.completed) (hstatus : e.status = 0)
    (hbuffer : s.x.descq.conf.c2h = true → (s.x.reqs e.id).buffer.Nodup)
    (hlast : s.x.LastThere e.id) : Transferred mem s e.id := by
  obtain ⟨ids, hlines⟩ := h.lines
  obtain ⟨bs, hids, hposted, hblocks⟩ := hlines.blocks
  have hmem := hlines.done e he hstatus
  have hsub := hlines.mem_submitted hmem
  rw [hids] at hmem
  obtain ⟨b, hb, hbid⟩ := List.mem_map.mp hmem
  obtain ⟨bs₁, bs₂, rfl⟩ := List.append_of_mem hb
  have hblock := hblocks b hb
  rw [List.flatMap_append, List.flatMap_cons] at hposted
  -- the whole block lies before the engine
  have hcarried := h.carried (h.ledger.finished e he).2 hposted
    (fun p hp => (hblock.owner p hp).trans hbid) hblock.ne_nil
  have htake : s.x.posted.take s.carried = bs₁.flatMap (·.2) ++
      (b.2 ++ (bs₂.flatMap (·.2)).take (s.carried - (bs₁.flatMap (·.2)).length - b.2.length)) := by
    rw [hposted, List.take_append, List.take_of_length_le (by omega), List.take_append,
      List.take_of_length_le (by omega)]
  have hcopy : Copy.join (b.2.map (·.desc.copy)) = (s.x.reqs e.id).copy s.x.descq.conf.c2h :=
    hbid ▸ hblock.copy
  -- what comes behind it goes elsewhere
  have hbehind : ∀ d ∈ ((bs₂.flatMap (·.2)).take
      (s.carried - (bs₁.flatMap (·.2)).length - b.2.length)).map (·.desc.copy),
      List.Disjoint d.dst (Copy.join (b.2.map (·.desc.copy))).dst := by
    intro d hd
    obtain ⟨p, hp, rfl⟩ := List.mem_map.mp hd
    obtain ⟨b', hb', hpb⟩ := List.mem_flatMap.mp (List.mem_of_mem_take hp)
    have hblock' := hblocks b' (List.mem_append_right _ (List.mem_cons_of_mem b hb'))
    have horder : [e.id, b'.1].Sublist s.x.submitted := by
      refine List.Sublist.trans ?_ ((List.sublist_append_left _ _).trans hlines.order)
      rw [hids, List.map_append, List.map_cons, hbid]
      refine List.Sublist.trans ?_ (List.sublist_append_right _ _)
      exact (List.singleton_sublist.mpr (List.mem_map_of_mem hb')).cons_cons e.id
    have hdisj := hlast b'.1 horder
    rw [hcopy]
    intro a ha
    refine hdisj ?_
    rw [← hblock'.copy]
    exact List.mem_flatMap.mpr ⟨p.desc.copy, List.mem_map_of_mem hpb, ha⟩
  have hnodup : (Copy.join (b.2.map (·.desc.copy))).dst.Nodup := by
    rw [hcopy]
    have hwf := hlines.wf e.id hsub
    have hlt := (s.x.reqs e.id).count_lt
    unfold QdmaSgReq.copy
    dsimp only
    cases hc2h : s.x.descq.conf.c2h with
    | false =>
        refine nodup_bytes _ ?_
        unfold QdmaSgReq.WellFormed at hwf
        omega
    | true => exact hbuffer hc2h
  unfold Transferred
  dsimp only
  rw [h.dma.mem_eq, DmaMem.target_carryAll, Xfer.copies, htake, List.map_append, List.map_append,
    ← hcopy]
  exact Copy.map_runAll_join hnodup hbehind

/-- A queue keeps its configuration. -/
theorem conf_dmaStep {mem : DmaMem} {s : DmaState} {e : DmaEv} (h : DmaInv mem s) :
    (dmaStep s e).x.descq.conf = s.x.descq.conf := by
  cases e with
  | drv e =>
      by_cases hhw : ∃ cidx, e = .hwWb cidx
      · obtain ⟨cidx, rfl⟩ := hhw
        rfl
      · exact (RingMoves.step h.ring fun cidx heq => hhw ⟨cidx, heq⟩).conf
  | carry =>
      unfold dmaStep
      dsimp only
      split
      · rfl
      · rfl

/-- **The states of such a run.** -/
theorem settled_run {d : QdmaDescq} (hd : FreshQueue d) (hmm : d.conf.st = false)
    (reqs : ReqId → QdmaSgReq) (coalEn : Bool) (coals : List IntrCoalConf) (mem : DmaMem)
    (es : List DmaEv)
    (hrun : (dmaSys.restrict SettledMove).Admits
      (DmaState.init (Xfer.init d reqs coalEn coals) mem) es) :
    let s := dmaSys.exec (DmaState.init (Xfer.init d reqs coalEn coals) mem) es
    DoneCarried mem s ∧ s.x.descq.conf = d.conf := by
  refine (dmaSys.restrict SettledMove).invariant
    (I := fun s => DoneCarried mem s ∧ s.x.descq.conf = d.conf) ?_ es
    ⟨⟨hd.dmaInv reqs coalEn coals mem, hd.ledger reqs coalEn coals, [],
      hd.lines hmm reqs coalEn coals⟩, rfl⟩ hrun
  rintro s e ⟨hs, hconf⟩ ⟨hg, hok⟩
  exact ⟨hs.step hg hok, (conf_dmaStep hs.dma).trans hconf⟩

/-- **A completed request is transferred.**  In every run of a memory-mapped queue's drivers
and its engine in which requests are taken up whole and no caller gives up on a posted one: a
request that was completed with status 0 has its bytes, as they were at the beginning, in
their place, unless a request submitted later went to the same place, or the buffer of a read
names a byte twice. -/
theorem completed_transferred (d : QdmaDescq) (hd : FreshQueue d) (hmm : d.conf.st = false)
    (reqs : ReqId → QdmaSgReq) (coalEn : Bool) (coals : List IntrCoalConf) (mem : DmaMem)
    (es : List DmaEv)
    (hrun : (dmaSys.restrict SettledMove).Admits
      (DmaState.init (Xfer.init d reqs coalEn coals) mem) es) :
    let s := dmaSys.exec (DmaState.init (Xfer.init d reqs coalEn coals) mem) es
    ∀ e ∈ s.x.completed, e.status = 0 →
      (s.x.descq.conf.c2h = true → (s.x.reqs e.id).buffer.Nodup) → s.x.LastThere e.id →
        Transferred mem s e.id := by
  have h := (settled_run hd hmm reqs coalEn coals mem es hrun).1
  exact fun e he hstatus hbuffer hlast => h.transferred he hstatus hbuffer hlast

/-- One request alone on its queue is the last one everywhere. -/
theorem lastThere_of_single {x : Xfer} {id : ReqId} (h : x.submitted = [id]) : x.LastThere id := by
  intro i hi
  have hlen := hi.length_le
  rw [h] at hlen
  exact absurd hlen (Nat.not_succ_le_self 1)

theorem completed_transferred_one :
    Transferred countingMem (dmaSys.exec (DmaState.init h2cStart countingMem) carriedRun) 0 := by
  have h := completed_transferred (h2cQueue false) (freshQueue_h2cQueue false) rfl
    (fun _ => onePlaceReq) false [] countingMem carriedRun (by decide +kernel)
  refine h ⟨0, 0, 8192⟩ (by decide +kernel) rfl (fun hc2h => absurd hc2h (by decide +kernel)) ?_
  exact lastThere_of_single (by decide +kernel)

/-! ### To the card and back -/

/-- **What was written is read back.**  A buffer is written to the card by one queue and read
from there by another into a buffer that names no byte twice, each in a run of its own in which
requests are taken up whole, no caller gives up on a posted one, and what is submitted later
goes elsewhere.  Once both requests are completed, the second buffer holds what the first
held. -/
theorem written_read_back (w r : QdmaDescq) (hw : FreshQueue w) (hr : FreshQueue r)
    (hwmm : w.conf.st = false) (hrmm : r.conf.st = false) (hwdir : w.conf.c2h = false)
    (hrdir : r.conf.c2h = true) (wreqs rreqs : ReqId → QdmaSgReq) (mem : DmaMem)
    (es fs : List DmaEv) (s t : DmaState)
    (hwrite : (dmaSys.restrict SettledMove).Admits
      (DmaState.init (Xfer.init w wreqs false []) mem) es)
    (hs : s = dmaSys.exec (DmaState.init (Xfer.init w wreqs false []) mem) es)
    (hread : (dmaSys.restrict SettledMove).Admits
      (DmaState.init (Xfer.init r rreqs false []) s.mem) fs)
    (ht : t = dmaSys.exec (DmaState.init (Xfer.init r rreqs false []) s.mem) fs)
    (e f : Completion) (he : e ∈ s.x.completed) (hf : f ∈ t.x.completed) (hestatus : e.status = 0)
    (hfstatus : f.status = 0) (helast : s.x.LastThere e.id) (hflast : t.x.LastThere f.id)
    (hbuffer : (t.x.reqs f.id).buffer.Nodup)
    (haddr : (t.x.reqs f.id).epAddr = (s.x.reqs e.id).epAddr)
    (hlen : sglTotal (t.x.reqs f.id).sgt.sgl = sglTotal (s.x.reqs e.id).sgt.sgl) :
    (t.x.reqs f.id).buffer.map t.mem.host = (s.x.reqs e.id).buffer.map mem.host := by
  obtain ⟨hsettled, hsconf⟩ := settled_run hw hwmm wreqs false [] mem es hwrite
  obtain ⟨htsettled, htconf⟩ := settled_run hr hrmm rreqs false [] s.mem fs hread
  rw [← hs] at hsettled hsconf
  rw [← ht] at htsettled htconf
  have hsdir : s.x.descq.conf.c2h = false := by rw [hsconf, hwdir]
  have htdir : t.x.descq.conf.c2h = true := by rw [htconf, hrdir]
  have hwritten := hsettled.transferred he hestatus
    (fun hc2h => absurd (hsdir.symm.trans hc2h) Bool.false_ne_true) helast
  have hgot := htsettled.transferred hf hfstatus (fun _ => hbuffer) hflast
  unfold Transferred at hwritten hgot
  rw [hsdir] at hwritten
  rw [htdir] at hgot
  -- the first run leaves on the card what the second takes from there
  change (⟨(s.x.reqs e.id).epAddr, sglTotal (s.x.reqs e.id).sgt.sgl⟩ :
    Extent (BitVec 64)).bytes.map s.mem.card = (s.x.reqs e.id).buffer.map mem.host at hwritten
  change (t.x.reqs f.id).buffer.map t.mem.host =
    (⟨(t.x.reqs f.id).epAddr, sglTotal (t.x.reqs f.id).sgt.sgl⟩ :
      Extent (BitVec 64)).bytes.map s.mem.card at hgot
  rw [hgot, haddr, hlen, hwritten]

/-- A memory-mapped C2H queue. -/
def c2hMmQueue : QdmaDescq := qdmaDescqConfig 0 0 ringedQueue ⟨0, false, true, 0, 0⟩ false

theorem freshQueue_c2hMmQueue : FreshQueue c2hMmQueue := by
  refine freshQueue_config 0 0 ringedQueue ⟨0, false, true, 0, 0⟩ false rfl rfl rfl ?_
  rintro r ⟨⟩
  rfl

theorem twoPages_lt : 8192 < 2 ^ 32 := by decide

/-- Two pages from the start of the card's memory to another place. -/
def readBackReq : QdmaSgReq :=
  { onePlaceReq with write := false, sgt := ⟨[⟨0x300000, 8192, twoPages_lt⟩], by decide⟩ }

def readBackRun : List DmaEv :=
  [.drv (.submit 0 readBackReq), .drv .wrkProc, .carry, .drv (.hwWb 1), .drv .serviceWb]

theorem written_read_back_one :
    let s := dmaSys.exec (DmaState.init h2cStart countingMem) carriedRun
    let t := dmaSys.exec
      (DmaState.init (Xfer.init c2hMmQueue (fun _ => readBackReq) false []) s.mem) readBackRun
    (t.x.reqs 0).buffer.map t.mem.host = (s.x.reqs 0).buffer.map countingMem.host := by
  intro s t
  have hsgl : (t.x.reqs 0).sgt.sgl.map Scatterlist.extent = [⟨0x300000, 8192⟩] := by
    decide +kernel
  have hbuffer : (t.x.reqs 0).buffer.Nodup := by
    unfold QdmaSgReq.buffer
    rw [hsgl, bytesOf_cons, bytesOf_nil, List.append_nil]
    exact nodup_bytes _ (by decide)
  have hwrite : (dmaSys.restrict SettledMove).Admits (DmaState.init h2cStart countingMem)
      carriedRun := by
    decide +kernel
  have hread : (dmaSys.restrict SettledMove).Admits
      (DmaState.init (Xfer.init c2hMmQueue (fun _ => readBackReq) false []) s.mem) readBackRun := by
    decide +kernel
  have he : (⟨0, 0, 8192⟩ : Completion) ∈ s.x.completed := by decide +kernel
  have hf : (⟨0, 0, 8192⟩ : Completion) ∈ t.x.completed := by decide +kernel
  have helast : s.x.LastThere 0 := lastThere_of_single (by decide +kernel)
  have hflast : t.x.LastThere 0 := lastThere_of_single (by decide +kernel)
  have haddr : (t.x.reqs 0).epAddr = (s.x.reqs 0).epAddr := by decide +kernel
  have hlen : sglTotal (t.x.reqs 0).sgt.sgl = sglTotal (s.x.reqs 0).sgt.sgl := by decide +kernel
  have h := written_read_back (h2cQueue false) c2hMmQueue (freshQueue_h2cQueue false)
    freshQueue_c2hMmQueue rfl rfl rfl rfl (fun _ => onePlaceReq) (fun _ => readBackReq) countingMem
    carriedRun readBackRun s t hwrite rfl hread rfl ⟨0, 0, 8192⟩ ⟨0, 0, 8192⟩ he hf rfl rfl
  clear_value t s
  exact h helast hflast hbuffer haddr hlen

end Qdma

import Qdma.Serve
import Qdma.Read

/-!
# Blocking and non-blocking submissions

The same request, on the same queue and under the same schedule, is submitted twice:
with `fp_done` `NULL`, so that the caller waits and is returned a count, and with
`fp_done` set, so that it is called with a count.

On a memory-mapped or streaming H2C queue the two runs go in lockstep: nothing but
`qdma_sgt_req_done` looks at `fp_done`, and it looks at it for a request whose bytes
are all posted, unless it completes it with an error.  On a streaming C2H queue the
two forms never agree: with enough data there `fp_done` is not called at all, and
otherwise it is called before anything was copied, by anybody, with the number of
bytes that were missing.
-/

namespace Qdma

open Lib

/-! ## The two forms -/

/-- What has been moved so far: the descriptors written, how many of them the driver
knows to be consumed, and the bytes copied to each entry of the request's scatter
list. -/
structure DataMoved where
  posted : List Posting
  retired : ℕ
  out : List (List (BitVec 8))

/-- An `unsigned int` returned as an `int`. -/
def intOfU32 (n : ℕ) : ℤ := if n < 2 ^ 31 then n else n - 2 ^ 32

section Forms

-- `page` is what `page_address` points at, `lens` are the lengths of the entries of the
-- request's scatter list
variable (page : Option ℕ → ℕ → BitVec 8) (lens : List ℕ)

/-- The copy at the end of `qdma_sg_req_submit_st_c2h`. -/
def stC2hCopy (y : Xfer) : RxReadResult StRxQueue :=
  qdmaDescqRxqRead listOps page y.descq.stC2hWrbUddEn lens y.descq.rxQueue

/-- Nothing copied. -/
def noCopy : List (List (BitVec 8)) := lens.map fun _ => []

/-- `qdma_sg_req_submit` with `fp_done` `NULL`, where `es` is what happens until the
wait is over; `none` if it does not return. -/
def blockingSubmit (x : Xfer) (id : ReqId) (req : QdmaSgReq) (es : List TrafficEv) :
    Option (ℤ × DataMoved) :=
  let r := sgReqSubmit x id { req with fpDone := false }
  if r.1 < 0 then some (r.1, ⟨r.2.posted, r.2.retired, noCopy lens⟩)
  else
    let y := es.foldl trafficStep r.2
    if x.descq.isStC2h then
      let c := stC2hCopy page lens y
      if c.oops then none else some (intOfU32 c.copied, ⟨y.posted, y.retired, c.out⟩)
    else
      let cb := (y.reqs id).cb
      some (if !cb.done || decide (cb.status ≠ 0) || decide (cb.offset = 0) then -eio
        else (cb.offset : ℤ), ⟨y.posted, y.retired, noCopy lens⟩)

/-- `qdma_sg_req_submit` with `fp_done` set: the calls of it, and what has been moved.
Only with enough data there does the call copy any. -/
def nonblockingSubmit (x : Xfer) (id : ReqId) (req : QdmaSgReq) (es : List TrafficEv) :
    List Completion × DataMoved :=
  let y := es.foldl trafficStep (sgReqSubmit x id { req with fpDone := true }).2
  (y.completed.filter fun c => c.id = id,
    ⟨y.posted, y.retired,
      if x.descq.isStC2h && decide (req.count ≤ x.descq.rxQueue.dlen) then
        (stC2hCopy page lens y).out
      else noCopy lens⟩)

end Forms

/-- The request an event submits. -/
def TrafficEv.submits : TrafficEv → List ReqId
  | .submit id _ => [id]
  | _ => []

/-- The event is not a caller giving up request `id`. -/
def TrafficEv.spares (id : ReqId) : TrafficEv → Prop
  | .timeout i => i ≠ id
  | _ => True

/-- A schedule around request `id`: other requests are submitted, each once, and `id`
is not given up. -/
structure Schedule (x : Xfer) (id : ReqId) (es : List TrafficEv) : Prop where
  fresh : (id :: (x.liveIds ++ es.flatMap TrafficEv.submits)).Nodup
  spares : ∀ e ∈ es, e.spares id

/-! ## Lockstep -/

/-- The same state with `fp_done` of request `id` set. -/
def Xfer.withFp (x : Xfer) (id : ReqId) : Xfer :=
  { x with reqs := Function.update x.reqs id { x.reqs id with fpDone := true } }

section Walk

variable {σ : Type} (blen : ℕ) (put : σ → BitVec 64 → ℕ → σ) (f : σ → σ)

/-- A change that no piece notices. -/
theorem postSeg_map (hput : ∀ st addr len, put (f st) addr len = f (put st addr len)) :
    ∀ (budget tlen : ℕ) (addr : BitVec 64) (st : σ),
      postSeg blen put budget tlen addr (f st) =
        (f (postSeg blen put budget tlen addr st).1, (postSeg blen put budget tlen addr st).2) := by
  intro budget
  induction budget with
  | zero => intro tlen addr st; rfl
  | succ budget ih =>
      intro tlen addr st
      unfold postSeg
      split
      · rfl
      · dsimp only
        rw [hput]
        exact ih _ _ _

theorem postSgl_map (hput : ∀ st addr len, put (f st) addr len = f (put st addr len)) :
    ∀ (sgl : List Scatterlist) (sgOffset budget : ℕ) (st : σ),
      postSgl blen put sgl sgOffset budget (f st) = f (postSgl blen put sgl sgOffset budget st) := by
  intro sgl
  induction sgl with
  | nil => intro sgOffset budget st; rfl
  | cons sg rest ih =>
      intro sgOffset budget st
      unfold postSgl
      split
      · rfl
      · dsimp only
        rw [postSeg_map blen put f hput]
        exact ih _ _ _

end Walk

section Lockstep

variable (id : ReqId)

/-- Nothing else about a request is different. -/
theorem withFp_req (x : Xfer) (i : ReqId) :
    ∃ b, (x.withFp id).reqs i = { x.reqs i with fpDone := b } := by
  by_cases hi : i = id
  · subst hi
    exact ⟨true, Function.update_self ..⟩
  · exact ⟨(x.reqs i).fpDone, Function.update_of_ne hi _ _⟩

theorem withFp_cb (x : Xfer) (i : ReqId) : ((x.withFp id).reqs i).cb = (x.reqs i).cb := by
  obtain ⟨b, hb⟩ := withFp_req id x i
  rw [hb]

theorem withFp_setCb (x : Xfer) (i : ReqId) (cb : QdmaSgtReqCb) :
    (x.withFp id).setCb i cb = (x.setCb i cb).withFp id := by
  unfold Xfer.setCb Xfer.withFp
  dsimp only
  congr 1
  funext j
  by_cases hj : j = id
  · subst hj
    by_cases hi : i = j
    · subst hi
      simp only [Function.update_self]
    · simp only [Function.update_of_ne (Ne.symm hi), Function.update_self]
  · by_cases hi : j = i
    · subst hi
      simp only [Function.update_self, Function.update_of_ne hj]
    · simp only [Function.update_of_ne hj, Function.update_of_ne hi]

theorem withFp_listDel (x : Xfer) (i : ReqId) :
    (x.withFp id).listDel i = (x.listDel i).withFp id := rfl

/-- Another request is completed alike. -/
theorem withFp_reqDone_ne (x : Xfer) {i : ReqId} (hi : i ≠ id) (error : ℤ) :
    qdmaSgtReqDone (x.withFp id) i error = (qdmaSgtReqDone x i error).withFp id := by
  have hreq : (x.withFp id).reqs i = x.reqs i := Function.update_of_ne hi _ _
  have hreq' : ((x.withFp id).listDel i).reqs i = (x.listDel i).reqs i := hreq
  unfold qdmaSgtReqDone
  dsimp only
  rw [hreq', withFp_listDel, withFp_setCb]
  rfl

/-- The request itself, when all its bytes are posted. -/
theorem withFp_reqDone_self {x : Xfer} (hcov : x.Covered id) (error : ℤ) :
    qdmaSgtReqDone (x.withFp id) id error = (qdmaSgtReqDone x id error).withFp id := by
  have hreq : ((x.withFp id).listDel id).reqs id = { x.reqs id with fpDone := true } :=
    Function.update_self ..
  have hreq' : (x.listDel id).reqs id = x.reqs id := rfl
  have hoff : (x.reqs id).cb.offset = (x.reqs id).count := hcov
  unfold qdmaSgtReqDone
  dsimp only
  rw [hreq, hreq', withFp_listDel, withFp_setCb]
  simp only [hoff, ne_eq, not_true_eq_false, decide_false, Bool.and_false, Bool.false_eq_true,
    if_false]
  rfl

/-! ### Posting -/

theorem withFp_postAccount (x : Xfer) (i : ReqId) (descCnt dataCnt : ℕ) :
    postAccount (x.withFp id) i descCnt dataCnt = (postAccount x i descCnt dataCnt).withFp id := by
  obtain ⟨b, hb⟩ := withFp_req id x i
  unfold postAccount
  dsimp only
  rw [hb]
  dsimp only
  have hset := withFp_setCb id
    { x with descq := { x.descq with avail := u32Sub x.descq.avail descCnt } } i
    { (x.reqs i).cb with
      descNr := u32 ((x.reqs i).cb.descNr + descCnt)
      offset := u32 ((x.reqs i).cb.offset + dataCnt) }
  split
  · exact congrArg (reqSubmitted · i) hset
  · exact hset

theorem withFp_mmProc (x : Xfer) (i : ReqId) :
    descqMmProcRequest (x.withFp id) i =
      ((descqMmProcRequest x i).1, (descqMmProcRequest x i).2.withFp id) := by
  obtain ⟨b, hb⟩ := withFp_req id x i
  have hstart : postStart ((x.withFp id).reqs i) = postStart (x.reqs i) := by
    rw [hb]
    rfl
  have hep : ((x.withFp id).reqs i).epAddr = (x.reqs i).epAddr := by rw [hb]
  have havail : (x.withFp id).descq = x.descq := rfl
  unfold descqMmProcRequest
  dsimp only
  rw [hstart, hep, havail]
  by_cases hzero : x.descq.avail = 0
  · simp only [if_pos hzero]
  · simp only [if_neg hzero]
    cases postStart (x.reqs i) with
    | none => rfl
    | some r =>
        obtain ⟨sg, off⟩ := r
        dsimp only
        have hloop := postSgl_map xdmaDescBlenMax (mmPut i)
          (fun st : MmLoop => { st with x := st.x.withFp id }) (fun _ _ _ => rfl) sg off
          x.descq.avail
          { x := x, epAddr := (x.reqs i).epAddr, dataCnt := 0, descCnt := 0, descEnd := none }
        dsimp only at hloop
        rw [hloop]
        generalize postSgl xdmaDescBlenMax (mmPut i) sg off x.descq.avail
          { x := x, epAddr := (x.reqs i).epAddr, dataCnt := 0, descCnt := 0, descEnd := none } = st
        cases st.descEnd with
        | none => rfl
        | some descEnd =>
            dsimp only
            have hacc := fun d => withFp_postAccount id { st.x with descq := d } i st.descCnt
              st.dataCnt
            refine Prod.ext rfl ?_
            dsimp only
            refine congrArg (fun y : Xfer =>
              { y with mmio := y.mmio ++ [descqPidxUpdate y.descq y.descq.pidx] }) (hacc _)

theorem withFp_stH2cProc (x : Xfer) (i : ReqId) :
    descqProcStH2cRequest (x.withFp id) i =
      ((descqProcStH2cRequest x i).1, (descqProcStH2cRequest x i).2.withFp id) := by
  obtain ⟨b, hb⟩ := withFp_req id x i
  have hstart : postStart ((x.withFp id).reqs i) = postStart (x.reqs i) := by
    rw [hb]
    rfl
  have havail : (x.withFp id).descq = x.descq := rfl
  unfold descqProcStH2cRequest
  dsimp only
  rw [hstart, havail]
  by_cases hzero : x.descq.avail = 0
  · simp only [if_pos hzero]
  · simp only [if_neg hzero]
    cases postStart (x.reqs i) with
    | none => rfl
    | some r =>
        obtain ⟨sg, off⟩ := r
        dsimp only
        have hloop := postSgl_map pageSize (stH2cPut i)
          (fun st : StH2cLoop => { st with x := st.x.withFp id }) (fun _ _ _ => rfl) sg off
          x.descq.avail { x := x, dataCnt := 0, descCnt := 0 }
        dsimp only at hloop
        rw [hloop]
        exact Prod.ext rfl (withFp_postAccount id _ i _ _)

theorem withFp_procSgtRequest (x : Xfer) (i : ReqId) :
    qdmaDescqProcSgtRequest (x.withFp id) i =
      ((qdmaDescqProcSgtRequest x i).1, (qdmaDescqProcSgtRequest x i).2.withFp id) := by
  have hconf : (x.withFp id).descq.conf = x.descq.conf := rfl
  unfold qdmaDescqProcSgtRequest
  rw [hconf]
  split
  · exact withFp_mmProc id x i
  · split
    · exact withFp_stH2cProc id x i
    · rfl

/-- The request is completed, with an error. -/
def Xfer.Failed (x : Xfer) (id : ReqId) : Prop :=
  id ∉ x.liveIds ∧ (x.reqs id).cb.status ≠ 0

/-- It stays so. -/
theorem Serves.failed {x y : Xfer} {ds : List Completion} (h : Serves x y ds) {id : ReqId}
    (hf : x.Failed id) : y.Failed id := by
  refine ⟨fun hy => hf.1 ((h.mem_live_iff id).mpr (Or.inl hy)), ?_⟩
  rw [h.off id hf.1]
  exact hf.2

theorem reqDone_failed {x : Xfer} (hx : x.liveIds.Nodup) {error : ℤ} (herr : error < 0) :
    (qdmaSgtReqDone x id error).Failed id := by
  refine ⟨?_, ?_⟩
  · change id ∉ x.descq.pendList.erase id ++ x.descq.workList.erase id
    rw [erase_append_erase hx]
    exact fun hm => hx.not_mem_erase hm
  · have hinval : -einval ≠ 0 := by decide
    -- whichever of the two errors is kept
    have hite : ∀ (p : Prop) [Decidable p], (if p then -einval else error) ≠ 0 := by
      intro p _
      split
      · exact hinval
      · exact herr.ne
    simp only [qdmaSgtReqDone, Xfer.setCb, Xfer.listDel, Function.update_self]
    exact hite _

theorem withFp_wrkProcOne {x : Xfer} (hx : x.liveIds.Nodup) {i : ReqId}
    (hi : i ∈ x.descq.workList) :
    wrkProcOne (x.withFp id) i = (wrkProcOne x i).withFp id ∨ (wrkProcOne x i).Failed id := by
  unfold wrkProcOne
  dsimp only
  rw [withFp_procSgtRequest]
  dsimp only
  by_cases hneg : (qdmaDescqProcSgtRequest x i).1 < 0
  · rw [if_pos hneg, if_pos hneg]
    by_cases hid : i = id
    · subst hid
      exact Or.inr (reqDone_failed i ((postsOne_procSgtRequest hx hi).serves.nodup hx) hneg)
    · exact Or.inl (withFp_reqDone_ne id _ hid _)
  · rw [if_neg hneg, if_neg hneg]
    exact Or.inl rfl

theorem withFp_wrkProcLoop :
    ∀ (ids : List ReqId) {x : Xfer}, x.liveIds.Nodup → ids.Nodup →
      (∀ i ∈ ids, i ∈ x.descq.workList) →
      wrkProcLoop ids (x.withFp id) = (wrkProcLoop ids x).withFp id ∨
        (wrkProcLoop ids x).Failed id := by
  intro ids
  induction ids with
  | nil => intro x _ _ _; exact Or.inl rfl
  | cons i rest ih =>
      intro x hx hids hsub
      obtain ⟨hnew, hrest⟩ := List.nodup_cons.mp hids
      obtain ⟨ds, hone, hothers⟩ := serves_wrkProcOne hx (hsub i List.mem_cons_self)
      have hsub' : ∀ j ∈ rest, j ∈ (wrkProcOne x i).descq.workList := fun j hj =>
        hothers j (fun heq => hnew (heq ▸ hj)) (hsub j (List.mem_cons_of_mem _ hj))
      unfold wrkProcLoop
      dsimp only
      rcases withFp_wrkProcOne id hx (hsub i List.mem_cons_self) with heq | hfailed
      · rw [heq]
        have havail : ((wrkProcOne x i).withFp id).descq.avail = (wrkProcOne x i).descq.avail := rfl
        rw [havail]
        split
        · exact Or.inl rfl
        · exact ih (hone.nodup hx) hrest hsub'
      · right
        split
        · exact hfailed
        · obtain ⟨ds', hloop⟩ := serves_wrkProcLoop rest (hone.nodup hx) hrest hsub'
          exact hloop.failed hfailed

/-! ### Completing -/

/-- A pending request is completed when all its bytes are posted, so alike. -/
theorem withFp_reqUpdatePendLoop :
    ∀ (ids : List ReqId) (credit : ℕ) (x : Xfer), ids.Nodup → (id ∈ ids → x.Covered id) →
      reqUpdatePendLoop ids credit (x.withFp id) =
        ((reqUpdatePendLoop ids credit x).1.withFp id, (reqUpdatePendLoop ids credit x).2) := by
  intro ids
  induction ids with
  | nil => intro credit x _ _; rfl
  | cons i rest ih =>
      intro credit x hids hcov
      obtain ⟨hnew, hrest⟩ := List.nodup_cons.mp hids
      have hdone : qdmaSgtReqDone (x.withFp id) i 0 = (qdmaSgtReqDone x i 0).withFp id := by
        by_cases hi : i = id
        · subst hi
          exact withFp_reqDone_self i (hcov List.mem_cons_self) 0
        · exact withFp_reqDone_ne id x hi 0
      unfold reqUpdatePendLoop
      dsimp only
      rw [withFp_cb, withFp_setCb, hdone]
      by_cases hle : (x.reqs i).cb.descNr ≤ credit
      · rw [if_pos hle, if_pos hle]
        dsimp only
        split
        · rfl
        · refine ih _ _ hrest fun hmem => ?_
          have hne : id ≠ i := fun heq => hnew (heq ▸ hmem)
          unfold Xfer.Covered
          rw [reqDone_reqs_of_ne 0 hne]
          exact hcov (List.mem_cons_of_mem _ hmem)
      · rw [if_neg hle, if_neg hle]
        rfl

theorem withFp_intrCoalAdvance (x : Xfer) :
    intrCoalAdvance (x.withFp id) = (intrCoalAdvance x).withFp id := by
  unfold intrCoalAdvance
  have hen : (x.withFp id).intrCoalEn = x.intrCoalEn := rfl
  have hlist : (x.withFp id).intrCoalList = x.intrCoalList := rfl
  rw [hen, hlist]
  cases x.intrCoalEn with
  | false => rfl
  | true =>
      cases x.intrCoalList with
      | nil => rfl
      | cons coal rest => rfl

theorem withFp_wbCredit (x : Xfer) (cidx : ℕ) :
    descqWbCredit (x.withFp id) cidx =
      ((descqWbCredit x cidx).1, (descqWbCredit x cidx).2.withFp id) := by
  unfold descqWbCredit
  have hd : (x.withFp id).descq = x.descq := rfl
  rw [hd]
  dsimp only
  split
  · rfl
  · rfl

theorem withFp_mmNH2cWb {x : Xfer} (hx : x.liveIds.Nodup)
    (hcov : id ∈ x.descq.pendList → x.Covered id) :
    descqMmNH2cWb (x.withFp id) = (descqMmNH2cWb x).withFp id := by
  unfold descqMmNH2cWb
  have hd : (x.withFp id).descq = x.descq := rfl
  rw [hd]
  by_cases hidle : x.descq.pidx = x.descq.cidx
  · rw [if_pos hidle, if_pos hidle]
  · rw [if_neg hidle, if_neg hidle]
    cases x.descq.desc with
    | none => rfl
    | some ring =>
        dsimp only
        by_cases hsame : ring.wbCidx = x.descq.cidx
        · rw [if_pos hsame, if_pos hsame]
        · rw [if_neg hsame, if_neg hsame, withFp_wbCredit, ← withFp_intrCoalAdvance]
          refine congrArg intrCoalAdvance ?_
          have hbooks := sameBooks_wbCredit x ring.wbCidx
          generalize descqWbCredit x ring.wbCidx = r at hbooks ⊢
          have hpend : reqUpdatePend (r.2.withFp id) r.1 = (reqUpdatePend r.2 r.1).withFp id := by
            have hr : (r.2.withFp id).descq = r.2.descq := rfl
            unfold reqUpdatePend
            rw [hr, withFp_reqUpdatePendLoop id]
            · rfl
            · rw [hbooks.pendList]
              exact nodup_pendList hx
            · intro hmem
              rw [hbooks.pendList] at hmem
              unfold Xfer.Covered
              rw [hbooks.reqs]
              exact hcov hmem
          dsimp only
          rw [hpend]
          rfl

end Lockstep

/-! ## A request along a schedule -/

/-- The record of completions of a request that was queued: none while it is on a list,
then one, which says what its control block says. -/
structure Tracked (x : Xfer) (id : ReqId) : Prop where
  live : id ∈ x.liveIds → (x.reqs id).cb.done = false ∧ x.completed.filter (·.id = id) = []
  gone : id ∉ x.liveIds → x.completed.filter (·.id = id) =
    [⟨id, (x.reqs id).cb.status, (x.reqs id).cb.offset⟩]
  pended : id ∈ x.descq.pendList → x.Covered id

theorem filter_id_eq_nil {ds : List Completion} {id : ReqId} (h : id ∉ ds.map (·.id)) :
    ds.filter (·.id = id) = [] := by
  refine List.filter_eq_nil_iff.mpr fun d hd heq => h ?_
  rw [← of_decide_eq_true heq]
  exact List.mem_map_of_mem hd

/-- Of calls on different requests one is on `c`. -/
theorem filter_id_eq_singleton {ds : List Completion} (h : (ds.map (·.id)).Nodup)
    {c : Completion} (hc : c ∈ ds) : ds.filter (·.id = c.id) = [c] := by
  induction ds with
  | nil => cases hc
  | cons d ds ih =>
      obtain ⟨hnew, hrest⟩ := List.nodup_cons.mp h
      rcases List.mem_cons.mp hc with rfl | hc
      · rw [List.filter_cons_of_pos (by simp), filter_id_eq_nil hnew]
      · have hne : d.id ≠ c.id := by
          intro heq
          refine hnew ?_
          change d.id ∈ ds.map (·.id)
          rw [heq]
          exact List.mem_map_of_mem hc
        rw [List.filter_cons_of_neg (by simpa using hne)]
        exact ih hrest hc

theorem Tracked.serves {x y : Xfer} {ds : List Completion} {id : ReqId} (h : Tracked x id)
    (hx : x.liveIds.Nodup) (hs : Serves x y ds) : Tracked y id where
  live hy := by
    have hnot := hs.notMem_of_live hx hy
    obtain ⟨hdone, hrec⟩ := h.live ((hs.mem_live_iff id).mpr (Or.inl hy))
    refine ⟨(hs.kept id hnot).1.trans hdone, ?_⟩
    rw [hs.completed, List.filter_append, hrec, filter_id_eq_nil hnot]
    rfl
  gone hy := by
    rw [hs.completed, List.filter_append]
    by_cases hd : id ∈ ds.map (·.id)
    · have hlive := (hs.mem_live_iff id).mpr (Or.inr hd)
      obtain ⟨c, hc, rfl⟩ := List.mem_map.mp hd
      obtain ⟨-, hstatus, hoff⟩ := hs.told c hc
      rw [(h.live hlive).2, filter_id_eq_singleton
        (List.nodup_append.mp (hs.nodup_append hx)).2.1 hc, hstatus, hoff]
      rfl
    · have hgone : id ∉ x.liveIds := fun hm => ((hs.mem_live_iff id).mp hm).elim hy hd
      rw [h.gone hgone, filter_id_eq_nil hd, hs.off id hgone, List.append_nil]
  pended := hs.pended id h.pended

/-- A step of somebody else. -/
structure Spares (x y : Xfer) (id : ReqId) : Prop where
  reqs : y.reqs id = x.reqs id
  completed : y.completed = x.completed
  live : id ∈ y.liveIds ↔ id ∈ x.liveIds
  pend : id ∈ y.descq.pendList ↔ id ∈ x.descq.pendList

theorem Spares.refl (x : Xfer) (id : ReqId) : Spares x x id := ⟨rfl, rfl, Iff.rfl, Iff.rfl⟩

theorem Tracked.spares {x y : Xfer} {id : ReqId} (h : Tracked x id) (hs : Spares x y id) :
    Tracked y id where
  live hy := by
    rw [hs.reqs, hs.completed]
    exact h.live (hs.live.mp hy)
  gone hy := by
    rw [hs.reqs, hs.completed]
    exact h.gone fun hx => hy (hs.live.mpr hx)
  pended hy := by
    unfold Xfer.Covered
    rw [hs.reqs]
    exact h.pended (hs.pend.mp hy)

theorem Spares.failed {x y : Xfer} {id : ReqId} (hs : Spares x y id) (h : x.Failed id) :
    y.Failed id := by
  refine ⟨fun hy => h.1 (hs.live.mp hy), ?_⟩
  rw [hs.reqs]
  exact h.2

theorem spares_listDel (x : Xfer) {id i : ReqId} (hi : i ≠ id) : Spares x (x.listDel i) id := by
  have hmem : ∀ l : List ReqId, id ∈ l.erase i ↔ id ∈ l :=
    fun l => List.mem_erase_of_ne (Ne.symm hi)
  refine ⟨rfl, rfl, ?_, hmem _⟩
  change id ∈ x.descq.pendList.erase i ++ x.descq.workList.erase i ↔
    id ∈ x.descq.pendList ++ x.descq.workList
  rw [List.mem_append, List.mem_append, hmem, hmem]

theorem spares_submit (x : Xfer) {id i : ReqId} (hi : i ≠ id) (req : QdmaSgReq) :
    Spares x (sgReqSubmit x i req).2 id := by
  have hne : id ≠ i := Ne.symm hi
  have hone : id ∉ [i] := fun hm => hne (List.mem_singleton.mp hm)
  unfold sgReqSubmit
  split
  · exact Spares.refl x id
  · split
    · unfold qdmaSgReqSubmitStC2h
      dsimp only
      split
      · exact ⟨Function.update_of_ne hne _ _, rfl, Iff.rfl, Iff.rfl⟩
      · split
        · exact Spares.refl x id
        · refine ⟨Function.update_of_ne hne _ _, rfl, ?_, ?_⟩
          · change id ∈ x.descq.pendList ++ [i] ++ x.descq.workList ↔ id ∈ x.liveIds
            simp only [Xfer.liveIds, List.mem_append, hone, or_false]
          · change id ∈ x.descq.pendList ++ [i] ↔ _
            simp only [List.mem_append, hone, or_false]
    · rcases qdmaSgReqSubmit_cases x i req with heq | ⟨heq, -⟩
      · rw [heq]
        exact Spares.refl x id
      · rw [heq]
        refine ⟨Function.update_of_ne hne _ _, rfl, ?_, Iff.rfl⟩
        change id ∈ x.descq.pendList ++ (x.descq.workList ++ [i]) ↔ id ∈ x.liveIds
        simp only [Xfer.liveIds, List.mem_append, hone, or_false]

theorem liveIds_submit (x : Xfer) (i : ReqId) (req : QdmaSgReq) :
    (sgReqSubmit x i req).2.liveIds = x.liveIds ∨
      (sgReqSubmit x i req).2.liveIds.Perm (i :: x.liveIds) := by
  unfold sgReqSubmit
  split
  · exact Or.inl rfl
  · split
    · unfold qdmaSgReqSubmitStC2h
      dsimp only
      split
      · exact Or.inl rfl
      · split
        · exact Or.inl rfl
        · right
          change (x.descq.pendList ++ [i] ++ x.descq.workList).Perm (i :: x.liveIds)
          rw [List.append_assoc]
          exact List.perm_middle
    · rcases qdmaSgReqSubmit_cases x i req with heq | ⟨heq, -⟩
      · rw [heq]
        exact Or.inl rfl
      · rw [heq]
        right
        change (x.descq.pendList ++ (x.descq.workList ++ [i])).Perm (i :: x.liveIds)
        rw [← List.append_assoc]
        exact List.perm_append_singleton i _

/-- An event is a step of another caller or a pass over the requests. -/
theorem traffic_cases {x : Xfer} (hx : x.liveIds.Nodup) {id : ReqId} {e : TrafficEv}
    (hsub : id ∉ e.submits) (hspare : e.spares id) :
    Spares x (trafficStep x e) id ∨ ∃ ds, Serves x (trafficStep x e) ds := by
  cases e with
  | submit i req =>
      have hi : i ≠ id := fun heq => hsub (List.mem_singleton.mpr heq.symm)
      left
      simp only [trafficStep]
      split
      · exact spares_submit x hi req
      · exact Spares.refl x id
  | wrkProc => exact Or.inr (serves_threadWrkProc hx)
  | serviceWb al => exact Or.inr (serves_serviceWb hx al)
  | hwWb cidx => exact Or.inr ⟨[], Serves.of_sameBooks rfl⟩
  | hwWrb pidx mem => exact Or.inr ⟨[], Serves.of_sameBooks rfl⟩
  | rxRead rxq => exact Or.inr ⟨[], Serves.of_sameBooks rfl⟩
  | timeout i => exact Or.inl (spares_listDel x hspare)

/-- No request gets on the lists twice. -/
theorem nodup_traffic {x : Xfer} {e : TrafficEv} {rest : List ReqId}
    (h : (x.liveIds ++ (e.submits ++ rest)).Nodup) :
    ((trafficStep x e).liveIds ++ rest).Nodup := by
  have hx : x.liveIds.Nodup := (List.nodup_append.mp h).1
  have hserves : ∀ {y : Xfer} {ds : List Completion}, Serves x y ds →
      (x.liveIds ++ rest).Nodup → (y.liveIds ++ rest).Nodup := by
    intro y ds hs hnodup
    have hperm := hs.live.append_right rest
    have hall := hperm.nodup_iff.mpr hnodup
    refine hall.sublist ?_
    rw [List.append_assoc]
    exact (List.sublist_append_right _ _).append_left _
  cases e with
  | submit i req =>
      have hkeep : (x.liveIds ++ rest).Nodup := by
        refine h.sublist ?_
        exact (List.sublist_append_right [i] rest).append_left _
      simp only [trafficStep]
      split
      · rcases liveIds_submit x i req with heq | hperm
        · rw [heq]
          exact hkeep
        · refine ((hperm.append_right rest).trans ?_).nodup_iff.mpr h
          exact List.perm_middle.symm
      · exact hkeep
  | wrkProc =>
      obtain ⟨ds, hs⟩ := serves_threadWrkProc hx
      exact hserves hs h
  | serviceWb al =>
      obtain ⟨ds, hs⟩ := serves_serviceWb hx al
      exact hserves hs h
  | hwWb cidx => exact h
  | hwWrb pidx mem => exact h
  | rxRead rxq => exact h
  | timeout i =>
      refine h.sublist ?_
      change (x.descq.pendList.erase i ++ x.descq.workList.erase i ++ rest).Sublist _
      exact ((List.erase_sublist.append List.erase_sublist).append_right _)

theorem conf_traffic (x : Xfer) (e : TrafficEv) : (trafficStep x e).descq.conf = x.descq.conf := by
  cases e with
  | submit i req =>
      simp only [trafficStep]
      split
      · obtain ⟨work, pend, reqs, submitted, heq⟩ := sgReqSubmit_cases x i req
        rw [heq]
      · rfl
  | wrkProc => exact (drives_threadWrkProc x).setup.conf
  | serviceWb al => exact (drives_serviceWb al x).setup.conf
  | hwWb cidx => rfl
  | hwWrb pidx mem => rfl
  | rxRead rxq => rfl
  | timeout i => rfl

theorem isStC2h_traffic (x : Xfer) (e : TrafficEv) :
    (trafficStep x e).descq.isStC2h = x.descq.isStC2h := by
  unfold QdmaDescq.isStC2h
  rw [conf_traffic]

/-! ### Memory-mapped and streaming H2C queues -/

theorem withFp_submit {x : Xfer} (hst : x.descq.isStC2h = false) {id i : ReqId} (hi : i ≠ id)
    (req : QdmaSgReq) : (sgReqSubmit (x.withFp id) i req).2 = (sgReqSubmit x i req).2.withFp id := by
  have hd : (x.withFp id).descq = x.descq := rfl
  have hreqs : Function.update (x.withFp id).reqs i { req with cb := QdmaSgtReqCb.zero } =
      Function.update (Function.update x.reqs i { req with cb := QdmaSgtReqCb.zero }) id
        { (Function.update x.reqs i { req with cb := QdmaSgtReqCb.zero }) id with
          fpDone := true } := by
    rw [Function.update_of_ne (Ne.symm hi)]
    exact Function.update_comm (Ne.symm hi) _ _ _
  unfold sgReqSubmit qdmaSgReqSubmit
  rw [hd, hst]
  by_cases hdir : (req.write && x.descq.conf.c2h || !req.write && !x.descq.conf.c2h) = true
  · rw [if_pos hdir, if_pos hdir]
  · simp only [if_neg hdir, Bool.false_eq_true, if_false]
    split
    · rfl
    · split
      · rfl
      · rw [hreqs]
        rfl

/-- **One event.**  The two runs stay in step until the request fails. -/
theorem withFp_traffic {x : Xfer} (hx : x.liveIds.Nodup) (hst : x.descq.isStC2h = false)
    {id : ReqId} (hcov : id ∈ x.descq.pendList → x.Covered id) {e : TrafficEv}
    (hsub : id ∉ e.submits) :
    trafficStep (x.withFp id) e = (trafficStep x e).withFp id ∨ (trafficStep x e).Failed id := by
  cases e with
  | submit i req =>
      have hi : i ≠ id := fun heq => hsub (List.mem_singleton.mpr heq.symm)
      have hen : (x.withFp id).descq.enabled = x.descq.enabled := rfl
      left
      simp only [trafficStep]
      rw [hen]
      split
      · exact withFp_submit hst hi req
      · rfl
  | wrkProc =>
      exact withFp_wrkProcLoop id x.descq.workList hx (List.nodup_append.mp hx).2.1 fun _ h => h
  | serviceWb al =>
      have hd : (x.withFp id).descq.isStC2h = x.descq.isStC2h := rfl
      left
      simp only [trafficStep, qdmaDescqServiceWb]
      rw [hd, hst]
      exact withFp_mmNH2cWb id hx hcov
  | hwWb cidx => exact Or.inl rfl
  | hwWrb pidx mem => exact Or.inl rfl
  | rxRead rxq => exact Or.inl rfl
  | timeout i => exact Or.inl rfl

theorem Tracked.traffic {x : Xfer} {id : ReqId} (h : Tracked x id) (hx : x.liveIds.Nodup)
    {e : TrafficEv} (hsub : id ∉ e.submits) (hspare : e.spares id) :
    Tracked (trafficStep x e) id := by
  rcases traffic_cases hx hsub hspare with hs | ⟨ds, hs⟩
  · exact h.spares hs
  · exact h.serves hx hs

/-- A failed request stays failed. -/
theorem failed_run {id : ReqId} :
    ∀ (es : List TrafficEv) {x : Xfer}, (x.liveIds ++ es.flatMap TrafficEv.submits).Nodup →
      id ∉ es.flatMap TrafficEv.submits → (∀ e ∈ es, e.spares id) → x.Failed id →
      (es.foldl trafficStep x).Failed id := by
  intro es
  induction es with
  | nil => intro x _ _ _ h; exact h
  | cons e es ih =>
      intro x hnodup hsub hspare h
      rw [List.flatMap_cons] at hnodup hsub
      rw [List.mem_append, not_or] at hsub
      refine ih (nodup_traffic hnodup) hsub.2 (fun e he => hspare e (List.mem_cons_of_mem _ he)) ?_
      rcases traffic_cases (List.nodup_append.mp hnodup).1 hsub.1 (hspare e List.mem_cons_self)
        with hs | ⟨ds, hs⟩
      · exact hs.failed h
      · exact hs.failed h

/-- **The whole schedule.** -/
theorem withFp_run {id : ReqId} :
    ∀ (es : List TrafficEv) {x : Xfer}, (x.liveIds ++ es.flatMap TrafficEv.submits).Nodup →
      id ∉ es.flatMap TrafficEv.submits → (∀ e ∈ es, e.spares id) →
      x.descq.isStC2h = false → Tracked x id →
      Tracked (es.foldl trafficStep x) id ∧
        (es.foldl trafficStep (x.withFp id) = (es.foldl trafficStep x).withFp id ∨
          (es.foldl trafficStep x).Failed id) := by
  intro es
  induction es with
  | nil => intro x _ _ _ _ h; exact ⟨h, Or.inl rfl⟩
  | cons e es ih =>
      intro x hnodup hsub hspare hst h
      rw [List.flatMap_cons] at hnodup hsub
      rw [List.mem_append, not_or] at hsub
      have hx := (List.nodup_append.mp hnodup).1
      have hrest : ∀ e ∈ es, e.spares id := fun e he => hspare e (List.mem_cons_of_mem _ he)
      have hnodup' := nodup_traffic hnodup
      have hst' := (isStC2h_traffic x e).trans hst
      obtain ⟨htracked, hlock⟩ := ih hnodup' hsub.2 hrest hst'
        (h.traffic hx hsub.1 (hspare e List.mem_cons_self))
      refine ⟨htracked, ?_⟩
      rcases withFp_traffic hx hst h.pended hsub.1 with heq | hfailed
      · rw [List.foldl_cons, List.foldl_cons, heq]
        exact hlock
      · exact Or.inr (failed_run es hnodup' hsub.2 hrest hfailed)

/-! ### Streaming C2H queues -/

/-- A request that was never queued is never completed. -/
theorem offList_run {id : ReqId} :
    ∀ (es : List TrafficEv) {x : Xfer}, (x.liveIds ++ es.flatMap TrafficEv.submits).Nodup →
      id ∉ es.flatMap TrafficEv.submits → (∀ e ∈ es, e.spares id) → id ∉ x.liveIds →
      x.completed.filter (·.id = id) = [] →
      (es.foldl trafficStep x).completed.filter (·.id = id) = [] := by
  intro es
  induction es with
  | nil => intro x _ _ _ _ h; exact h
  | cons e es ih =>
      intro x hnodup hsub hspare hoff hrec
      rw [List.flatMap_cons] at hnodup hsub
      rw [List.mem_append, not_or] at hsub
      have hrest : ∀ e ∈ es, e.spares id := fun e he => hspare e (List.mem_cons_of_mem _ he)
      rcases traffic_cases (List.nodup_append.mp hnodup).1 hsub.1 (hspare e List.mem_cons_self)
        with hs | ⟨ds, hs⟩
      · refine ih (nodup_traffic hnodup) hsub.2 hrest (fun hy => hoff (hs.live.mp hy)) ?_
        rw [hs.completed]
        exact hrec
      · have hmem := fun hm => hoff ((hs.mem_live_iff id).mpr hm)
        refine ih (nodup_traffic hnodup) hsub.2 hrest (fun hy => hmem (Or.inl hy)) ?_
        rw [hs.completed, List.filter_append, hrec, filter_id_eq_nil fun hd => hmem (Or.inr hd)]
        rfl

theorem offset_reqDone (x : Xfer) (id i : ReqId) (error : ℤ) :
    ((qdmaSgtReqDone x i error).reqs id).cb.offset = (x.reqs id).cb.offset := by
  by_cases hi : id = i
  · subst hi
    simp only [qdmaSgtReqDone, Xfer.setCb, Xfer.listDel, Function.update_self]
  · rw [reqDone_reqs_of_ne error hi]

/-- No descriptor is posted for a request on a streaming C2H queue. -/
theorem offset_wrkProcOne {x : Xfer} (hst : x.descq.isStC2h = true) (id i : ReqId) :
    ((wrkProcOne x i).reqs id).cb.offset = (x.reqs id).cb.offset := by
  obtain ⟨hs, hc⟩ : x.descq.conf.st = true ∧ x.descq.conf.c2h = true := by
    simpa [QdmaDescq.isStC2h] using hst
  have hproc : qdmaDescqProcSgtRequest x i = (-1, x) := by
    unfold qdmaDescqProcSgtRequest
    simp only [hs, hc, Bool.not_true, Bool.false_eq_true, if_false]
  unfold wrkProcOne
  rw [hproc]
  exact offset_reqDone x id i (-1)

theorem offset_wrkProcLoop (id : ReqId) :
    ∀ (ids : List ReqId) {x : Xfer}, x.descq.isStC2h = true →
      ((wrkProcLoop ids x).reqs id).cb.offset = (x.reqs id).cb.offset := by
  intro ids
  induction ids with
  | nil => intro x _; rfl
  | cons i rest ih =>
      intro x hst
      have hone := offset_wrkProcOne hst id i
      unfold wrkProcLoop
      dsimp only
      split
      · exact hone
      · rw [ih ((drives_wrkProcOne x i).setup.isStC2h.trans hst)]
        exact hone

theorem offset_checkRxLoop (id : ReqId) :
    ∀ (ids : List ReqId) (dlen : ℕ) (x : Xfer),
      ((checkRxLoop ids dlen x).reqs id).cb.offset = (x.reqs id).cb.offset := by
  intro ids
  induction ids with
  | nil => intro dlen x; rfl
  | cons i rest ih =>
      intro dlen x
      unfold checkRxLoop
      dsimp only
      split
      · rfl
      · rw [ih, offset_reqDone]

theorem offset_traffic {x : Xfer} (hst : x.descq.isStC2h = true) {id : ReqId} {e : TrafficEv}
    (hsub : id ∉ e.submits) :
    ((trafficStep x e).reqs id).cb.offset = (x.reqs id).cb.offset := by
  cases e with
  | submit i req =>
      have hi : i ≠ id := fun heq => hsub (List.mem_singleton.mpr heq.symm)
      simp only [trafficStep]
      split
      · rw [(spares_submit x hi req).reqs]
      · rfl
  | wrkProc => exact offset_wrkProcLoop id x.descq.workList hst
  | serviceWb al =>
      simp only [trafficStep, qdmaDescqServiceWb]
      rw [if_pos hst]
      obtain ⟨y, hbooks, heq | heq⟩ := stC2hWb_cases al x
      · rw [heq, hbooks.reqs]
      · rw [heq]
        unfold checkRxRequestCompleted
        rw [offset_checkRxLoop, hbooks.reqs]
  | hwWb cidx => rfl
  | hwWrb pidx mem => rfl
  | rxRead rxq => rfl
  | timeout i => rfl

/-- What is reported for a queued request is the number of bytes that were missing when
it was submitted. -/
theorem missing_run {id : ReqId} {m : ℕ} :
    ∀ (es : List TrafficEv) {x : Xfer}, (x.liveIds ++ es.flatMap TrafficEv.submits).Nodup →
      id ∉ es.flatMap TrafficEv.submits → (∀ e ∈ es, e.spares id) →
      x.descq.isStC2h = true → (x.reqs id).cb.offset = m →
      (∀ c ∈ x.completed, c.id = id → c.bytesDone = m) →
      ∀ c ∈ (es.foldl trafficStep x).completed, c.id = id → c.bytesDone = m := by
  intro es
  induction es with
  | nil => intro x _ _ _ _ _ h; exact h
  | cons e es ih =>
      intro x hnodup hsub hspare hst hoff hrec
      rw [List.flatMap_cons] at hnodup hsub
      rw [List.mem_append, not_or] at hsub
      have hoff' := (offset_traffic hst hsub.1).trans hoff
      refine ih (nodup_traffic hnodup) hsub.2 (fun e he => hspare e (List.mem_cons_of_mem _ he))
        ((isStC2h_traffic x e).trans hst) hoff' ?_
      rcases traffic_cases (List.nodup_append.mp hnodup).1 hsub.1 (hspare e List.mem_cons_self)
        with hs | ⟨ds, hs⟩
      · rw [hs.completed]
        exact hrec
      · intro c hc hid
        rw [hs.completed, List.mem_append] at hc
        rcases hc with hc | hc
        · exact hrec c hc hid
        · rw [← (hs.told c hc).2.2, hid]
          exact hoff'

/-! ### The copy -/

section Copy

variable {σ ν μ : Type} (ops : RxqOps σ ν μ) (page : Option ℕ → ℕ → BitVec 8)

/-- Bytes are appended to the entry and counted. -/
def CopiesTo (c c' : RxCursor σ ν μ) : Prop :=
  c.copied < 2 ^ 32 →
    c'.copied < 2 ^ 32 ∧ ∃ bs, c'.out = c.out ++ bs ∧ (bs = [] → c'.copied = c.copied)

theorem CopiesTo.refl (c : RxCursor σ ν μ) : CopiesTo c c :=
  fun h => ⟨h, [], (List.append_nil _).symm, fun _ => rfl⟩

theorem CopiesTo.trans {c c' c'' : RxCursor σ ν μ} (h₁ : CopiesTo c c') (h₂ : CopiesTo c' c'') :
    CopiesTo c c'' := by
  intro h
  obtain ⟨hlt, bs, hout, hzero⟩ := h₁ h
  obtain ⟨hlt', bs', hout', hzero'⟩ := h₂ hlt
  refine ⟨hlt', bs ++ bs', by rw [hout', hout, List.append_assoc], ?_⟩
  intro hnil
  obtain ⟨hb, hb'⟩ := List.append_eq_nil_iff.mp hnil
  rw [hzero' hb', hzero hb]

theorem copiesTo_bytes {c c' : RxCursor σ ν μ} (n : ℕ) (f : ℕ → BitVec 8)
    (hout : c'.out = c.out ++ (List.range n).map f) (hcopied : c'.copied = u32 (c.copied + n)) :
    CopiesTo c c' := by
  intro h
  refine ⟨by rw [hcopied]; exact u32_lt _, _, hout, ?_⟩
  intro hnil
  have hn : n = 0 := by simpa using hnil
  rw [hcopied, hn, Nat.add_zero]
  exact u32_of_lt h

theorem copiesTo_copyUdd (node : ν) (len : ℕ) (c : RxCursor σ ν μ) :
    CopiesTo c (copyUdd ops node len c).2 := by
  unfold copyUdd
  split
  · exact CopiesTo.refl c
  · dsimp only
    split
    · exact copiesTo_bytes _ _ rfl rfl
    · exact copiesTo_bytes _ _ rfl rfl

theorem copiesTo_copyData (node : ν) (len : ℕ) (c : RxCursor σ ν μ) :
    CopiesTo c (copyData ops page node len c).2 := by
  unfold copyData
  dsimp only
  split
  · exact copiesTo_bytes _ _ rfl rfl
  · exact copiesTo_bytes _ _ rfl rfl

theorem copiesTo_readEntry :
    ∀ (fuel len : ℕ) (c : RxCursor σ ν μ), CopiesTo c (readEntry ops page fuel len c) := by
  intro fuel
  induction fuel with
  | zero => intro len c; exact CopiesTo.refl c
  | succ fuel ih =>
      intro len c
      unfold readEntry
      split
      · exact CopiesTo.refl c
      · cases c.rx with
        | none =>
            dsimp only
            split
            · exact CopiesTo.refl c
            · exact CopiesTo.refl c
        | some node =>
            dsimp only
            refine CopiesTo.trans ?_ (ih _ _)
            refine CopiesTo.trans ?_ (copiesTo_copyData ops page node _ _)
            split
            · exact copiesTo_copyUdd ops node len c
            · exact CopiesTo.refl c

/-- Nothing in the entries, nothing counted. -/
theorem readSgl_copied :
    ∀ (lens : List ℕ) (c : RxCursor σ ν μ), c.copied < 2 ^ 32 →
      (readSgl ops page lens c).1 = noCopy lens →
      (readSgl ops page lens c).2.copied = c.copied := by
  intro lens
  induction lens with
  | nil => intro c _ _; rfl
  | cons len rest ih =>
      intro c hc
      unfold readSgl
      dsimp only
      obtain ⟨hlt, bs, hout, hzero⟩ := copiesTo_readEntry ops page (len + ops.size c.rxq + 1) len
        { c with out := [] } hc
      generalize readEntry ops page (len + ops.size c.rxq + 1) len { c with out := [] } = r
        at hlt hout hzero ⊢
      have hbs : r.out = [] → r.copied = c.copied := by
        intro hnil
        rw [hout] at hnil
        exact hzero hnil
      split
      · intro heq
        exact hbs (List.cons.inj heq).1
      · intro heq
        obtain ⟨hhead, htail⟩ := List.cons.inj heq
        rw [ih r hlt htail]
        exact hbs hhead

theorem stC2hCopy_copied {lens : List ℕ} {y : Xfer}
    (h : (stC2hCopy page lens y).out = noCopy lens) : (stC2hCopy page lens y).copied = 0 := by
  have hzero : 0 < 2 ^ 32 := by decide
  revert h
  unfold stC2hCopy qdmaDescqRxqRead
  dsimp only
  generalize (if (listOps.deqRx y.descq.rxQueue).1.isNone && y.descq.stC2hWrbUddEn then
    listOps.deqUdd (listOps.deqRx y.descq.rxQueue).2
    else (none, (listOps.deqRx y.descq.rxQueue).2)) = u
  split
  · exact fun _ => rfl
  · split
    · exact readSgl_copied listOps page lens _ hzero
    · exact readSgl_copied listOps page lens _ hzero

end Copy

/-! ## Agreement -/

section Agreement

variable {page : Option ℕ → ℕ → BitVec 8} {lens : List ℕ} {x : Xfer} {id : ReqId}
  {req : QdmaSgReq} {es : List TrafficEv} {n : ℤ} {moved : DataMoved}

/-- `fp_done` was called once, with `n` bytes and no error, and what was moved is what
the blocking form moves. -/
def Agrees (r : List Completion × DataMoved) (id : ReqId) (n : ℤ) (moved : DataMoved) : Prop :=
  (∃ bytes : ℕ, (bytes : ℤ) = n ∧ r.1 = [⟨id, 0, bytes⟩]) ∧ r.2 = moved

/-- A submission that is accepted without `fp_done` is accepted with it. -/
theorem sgReqSubmit_mm (hst : x.descq.isStC2h = false)
    (h : 0 ≤ (sgReqSubmit x id { req with fpDone := false }).1) (b : Bool) :
    sgReqSubmit x id { req with fpDone := b } = (0, x.enqueue id { req with fpDone := b }) := by
  have hinval : ¬ 0 ≤ -einval := by decide
  have hio : ¬ 0 ≤ -eio := by decide
  revert h
  unfold sgReqSubmit qdmaSgReqSubmit
  simp only [hst, Bool.false_eq_true, if_false]
  split_ifs with hdir hmap honline
  · exact fun h => absurd h hinval
  · exact fun h => absurd h hio
  · exact fun h => absurd h hinval
  · exact fun _ => rfl

/-- The state in which a streaming C2H queue has a request counted, with `offset` set. -/
def Xfer.counted (x : Xfer) (id : ReqId) (req : QdmaSgReq) (offset : ℕ) : Xfer :=
  { x with
    reqs := Function.update x.reqs id
      { req with cb := { QdmaSgtReqCb.zero with offset := offset } } }

theorem sgReqSubmit_st (hst : x.descq.isStC2h = true)
    (h : 0 ≤ (sgReqSubmit x id { req with fpDone := false }).1) (b : Bool) :
    (sgReqSubmit x id { req with fpDone := b }).2 =
      if req.count ≤ x.descq.rxQueue.dlen then x.counted id { req with fpDone := b } req.count
      else
        { x.counted id { req with fpDone := b } (req.count - x.descq.rxQueue.dlen) with
          descq := { x.descq with pendList := x.descq.pendList ++ [id] }
          submitted := x.submitted ++ [id] } := by
  have hinval : ¬ 0 ≤ -einval := by decide
  revert h
  unfold sgReqSubmit qdmaSgReqSubmitStC2h
  simp only [hst, if_true]
  split_ifs with hdir hcount hcount honline
  · exact fun h => absurd h hinval
  · exact fun h => absurd h hinval
  · exact fun _ => rfl
  · exact fun h => absurd h hinval
  · exact fun _ => rfl

/-- The blocking form on a queue that is not streaming C2H. -/
theorem blockingSubmit_mm (hst : x.descq.isStC2h = false) (hn : 0 ≤ n)
    (hret : blockingSubmit page lens x id req es = some (n, moved)) :
    0 ≤ (sgReqSubmit x id { req with fpDone := false }).1 ∧
      let y := es.foldl trafficStep (x.enqueue id { req with fpDone := false })
      (y.reqs id).cb.done = true ∧ (y.reqs id).cb.status = 0 ∧ ((y.reqs id).cb.offset : ℤ) = n ∧
        moved = ⟨y.posted, y.retired, noCopy lens⟩ := by
  have hio : ¬ 0 ≤ -eio := by decide
  unfold blockingSubmit at hret
  dsimp only at hret
  have hacc : 0 ≤ (sgReqSubmit x id { req with fpDone := false }).1 := by
    by_contra hneg
    rw [if_pos (not_le.mp hneg)] at hret
    have heq := (Prod.mk.inj (Option.some.inj hret)).1
    omega
  refine ⟨hacc, ?_⟩
  rw [sgReqSubmit_mm hst hacc, if_neg (lt_irrefl 0), hst, if_neg Bool.false_ne_true] at hret
  dsimp only at hret ⊢
  generalize es.foldl trafficStep (x.enqueue id { req with fpDone := false }) = y at hret ⊢
  obtain ⟨hrv, hmoved⟩ := Prod.mk.inj (Option.some.inj hret)
  split at hrv
  · exact absurd (hrv ▸ hn) hio
  · rename_i hbad
    simp only [Bool.or_eq_true, Bool.not_eq_true', decide_eq_true_eq, not_or, Bool.not_eq_false,
      not_not] at hbad
    exact ⟨hbad.1.1, hbad.1.2, hrv, hmoved.symm⟩

/-- The blocking form on a streaming C2H queue. -/
theorem blockingSubmit_st (hst : x.descq.isStC2h = true) (hn : 0 ≤ n)
    (hret : blockingSubmit page lens x id req es = some (n, moved)) :
    0 ≤ (sgReqSubmit x id { req with fpDone := false }).1 ∧
      ((moved.out = noCopy lens) → n = 0) := by
  unfold blockingSubmit at hret
  dsimp only at hret
  have hacc : 0 ≤ (sgReqSubmit x id { req with fpDone := false }).1 := by
    by_contra hneg
    rw [if_pos (not_le.mp hneg)] at hret
    have heq := (Prod.mk.inj (Option.some.inj hret)).1
    omega
  refine ⟨hacc, ?_⟩
  rw [if_neg (not_lt.mpr hacc), hst, if_pos rfl] at hret
  generalize es.foldl trafficStep (sgReqSubmit x id { req with fpDone := false }).2 = y at hret
  split at hret
  · cases hret
  · obtain ⟨hrv, hmoved⟩ := Prod.mk.inj (Option.some.inj hret)
    intro hout
    rw [← hmoved] at hout
    rw [← hrv, stC2hCopy_copied page hout]
    rfl

/-- On a queue that is not streaming C2H the two runs are in step to the end. -/
theorem agrees_mm (hst : x.descq.isStC2h = false) (hes : Schedule x id es)
    (hrec : x.completed.filter (·.id = id) = []) (hn : 0 ≤ n)
    (hret : blockingSubmit page lens x id req es = some (n, moved)) :
    Agrees (nonblockingSubmit page lens x id req es) id n moved := by
  obtain ⟨hacc, hdone, hstatus, hoff, hmoved⟩ := blockingSubmit_mm hst hn hret
  obtain ⟨hid, -⟩ := List.nodup_cons.mp hes.fresh
  rw [List.mem_append, not_or] at hid
  have hlive : (x.enqueue id { req with fpDone := false }).liveIds.Perm (id :: x.liveIds) := by
    change (x.descq.pendList ++ (x.descq.workList ++ [id])).Perm (id :: x.liveIds)
    rw [← List.append_assoc]
    exact List.perm_append_singleton id _
  have hstart : Tracked (x.enqueue id { req with fpDone := false }) id := by
    refine ⟨fun _ => ⟨?_, hrec⟩, fun hgone => ?_, fun hpend => ?_⟩
    · change (Function.update x.reqs id _ id).cb.done = false
      rw [Function.update_self]
      rfl
    · exact absurd (hlive.mem_iff.mpr List.mem_cons_self) hgone
    · exact absurd (mem_liveIds_of_pend (x := x) hpend) hid.1
  have hfp : x.enqueue id { req with fpDone := true } =
      (x.enqueue id { req with fpDone := false }).withFp id := by
    unfold Xfer.enqueue Xfer.withFp
    dsimp only
    rw [Function.update_self, Function.update_idem]
  obtain ⟨htracked, hlock⟩ := withFp_run es ((hlive.append_right _).nodup_iff.mpr hes.fresh) hid.2
    hes.spares hst hstart
  unfold nonblockingSubmit
  rw [sgReqSubmit_mm hst hacc, hfp, hst]
  dsimp only at hdone hstatus hoff hmoved ⊢
  generalize es.foldl trafficStep (x.enqueue id { req with fpDone := false }) = y at *
  have hgone : id ∉ y.liveIds := by
    intro hm
    rw [(htracked.live hm).1] at hdone
    cases hdone
  rcases hlock with heq | hfailed
  · rw [heq]
    refine ⟨⟨(y.reqs id).cb.offset, hoff, ?_⟩, hmoved.symm⟩
    rw [← hstatus]
    exact htracked.gone hgone
  · exact absurd hstatus hfailed.2

/-- On a streaming C2H queue `fp_done` is not called, or called for bytes nobody has
copied. -/
theorem not_agrees_st (hst : x.descq.isStC2h = true) (hes : Schedule x id es)
    (hrec : x.completed.filter (·.id = id) = []) (hn : 0 ≤ n)
    (hret : blockingSubmit page lens x id req es = some (n, moved)) :
    ¬ Agrees (nonblockingSubmit page lens x id req es) id n moved := by
  obtain ⟨hacc, hnone⟩ := blockingSubmit_st hst hn hret
  obtain ⟨hid, hnodup⟩ := List.nodup_cons.mp hes.fresh
  rw [List.mem_append, not_or] at hid
  rintro ⟨⟨bytes, hbytes, hcalls⟩, hmoved⟩
  unfold nonblockingSubmit at hcalls hmoved
  rw [sgReqSubmit_st hst hacc] at hcalls hmoved
  dsimp only at hcalls hmoved
  by_cases hcount : req.count ≤ x.descq.rxQueue.dlen
  · rw [if_pos hcount] at hcalls
    have hnil := offList_run es (x := x.counted id { req with fpDone := true } req.count) hnodup
      hid.2 hes.spares hid.1 hrec
    rw [hnil] at hcalls
    cases hcalls
  · rw [if_neg hcount] at hcalls hmoved
    rw [if_neg (by simp [hcount])] at hmoved
    have hzero : n = 0 := hnone (by rw [← hmoved])
    have hmiss := missing_run (m := req.count - x.descq.rxQueue.dlen) es
      (x := { x.counted id { req with fpDone := true } (req.count - x.descq.rxQueue.dlen) with
        descq := { x.descq with pendList := x.descq.pendList ++ [id] }
        submitted := x.submitted ++ [id] }) ?_ hid.2 hes.spares hst ?_ ?_
      ⟨id, 0, bytes⟩ ?_ rfl
    · dsimp only at hmiss
      omega
    · have hperm : (x.descq.pendList ++ [id] ++ x.descq.workList).Perm (id :: x.liveIds) := by
        rw [List.append_assoc]
        exact List.perm_middle
      exact (hperm.append_right _).nodup_iff.mpr hes.fresh
    · change (Function.update x.reqs id _ id).cb.offset = _
      rw [Function.update_self]
    · intro c hc hcid
      have hmem : c ∈ x.completed.filter (·.id = id) :=
        List.mem_filter.mpr ⟨hc, decide_eq_true hcid⟩
      rw [hrec] at hmem
      cases hmem
    · refine List.mem_of_mem_filter (p := fun c => decide (c.id = id)) ?_
      rw [hcalls]
      exact List.mem_singleton_self _

/-- **The two forms agree exactly on the queues that are not streaming C2H.**  For every
state of the queue at submission, every request and every schedule under which the
blocking form returns `n ≥ 0`. -/
theorem submissions_agree_iff (page : Option ℕ → ℕ → BitVec 8) (lens : List ℕ) (x : Xfer)
    (id : ReqId) (req : QdmaSgReq) (es : List TrafficEv) (hes : Schedule x id es)
    (hrec : x.completed.filter (·.id = id) = []) (n : ℤ) (moved : DataMoved) (hn : 0 ≤ n)
    (hret : blockingSubmit page lens x id req es = some (n, moved)) :
    Agrees (nonblockingSubmit page lens x id req es) id n moved ↔ x.descq.isStC2h = false := by
  constructor
  · intro h
    cases hst : x.descq.isStC2h with
    | false => rfl
    | true => exact absurd h (not_agrees_st hst hes hrec hn hret)
  · exact fun hst => agrees_mm hst hes hrec hn hret

end Agreement

/-- One request of two pages, posted and consumed. -/
theorem submissions_agree_one_request :
    ∃ moved, moved.posted.length = 1 ∧
      blockingSubmit (fun _ _ => 0) [] h2cStart 0 onePlaceReq
        [.wrkProc, .hwWb 1, .serviceWb noAllocs] = some (8192, moved) ∧
      Agrees (nonblockingSubmit (fun _ _ => 0) [] h2cStart 0 onePlaceReq
        [.wrkProc, .hwWb 1, .serviceWb noAllocs]) 0 8192 moved := by
  have hrv : (blockingSubmit (fun _ _ => 0) [] h2cStart 0 onePlaceReq
      [.wrkProc, .hwWb 1, .serviceWb noAllocs]).map (fun r => (r.1, r.2.posted.length)) =
        some (8192, 1) := by decide +kernel
  obtain ⟨⟨n, moved⟩, hret, heq⟩ := Option.map_eq_some_iff.mp hrv
  obtain ⟨rfl, hposted⟩ := Prod.mk.inj heq
  refine ⟨moved, hposted, hret, ?_⟩
  refine (submissions_agree_iff _ [] h2cStart 0 onePlaceReq _ ⟨by decide +kernel, ?_⟩
    (by decide +kernel) 8192 moved (by decide) hret).mpr (by decide +kernel)
  intro e he
  simp only [List.mem_cons, List.not_mem_nil, or_false] at he
  rcases he with rfl | rfl | rfl
  · trivial
  · trivial
  · trivial

/-- A streaming C2H queue with eight bytes received. -/
def receivedStart : Xfer :=
  Xfer.init
    { qdmaDescqConfig 0 0 ringedQueue ⟨0, true, true, 0, 0⟩ false with
      rxQueue := { dlen := 8, udd := [], rx := [⟨some 0, 0, 8, false⟩] } }
    (fun _ => onePlaceReq) false []

/-- A read of eight bytes. -/
def readReq : QdmaSgReq :=
  { writeReq ⟨[⟨0x100000, 8, by decide⟩], by decide⟩ 8 (by decide) with write := false }

/-- The data is there, so the call returns its count and `fp_done` is never called. -/
theorem submissions_disagree_received :
    ¬ ∀ (page : Option ℕ → ℕ → BitVec 8) (lens : List ℕ) (x : Xfer) (id : ReqId)
      (req : QdmaSgReq) (es : List TrafficEv), Schedule x id es →
      x.completed.filter (·.id = id) = [] → ∀ (n : ℤ) (moved : DataMoved), 0 ≤ n →
      blockingSubmit page lens x id req es = some (n, moved) →
      Agrees (nonblockingSubmit page lens x id req es) id n moved := by
  intro hall
  have hrv : (blockingSubmit (fun _ _ => 0) [8] receivedStart 0 readReq []).map (·.1) = some 8 := by
    decide +kernel
  obtain ⟨⟨n, moved⟩, hret, heq⟩ := Option.map_eq_some_iff.mp hrv
  have hn : n = 8 := heq
  subst hn
  have h := hall (fun _ _ => 0) [8] receivedStart 0 readReq []
    ⟨by decide +kernel, fun e he => by cases he⟩ (by decide +kernel) 8 moved (by decide) hret
  obtain ⟨bytes, -, hcalls⟩ := h.1
  have hnone : (nonblockingSubmit (fun _ _ => 0) [8] receivedStart 0 readReq []).1 = [] := by
    decide +kernel
  rw [hnone] at hcalls
  cases hcalls

end Qdma

import Qdma.Credits
import Qdma.Restart

/-!
# What a pass does to the requests

The passes of the worker thread and of the writeback thread move requests from list
to list and take some of them off, with `qdma_sgt_req_done`.  `Serves x y ds` is all
that the rest of a pass leaves of it: `ds` are the calls of `qdma_sgt_req_done`, each
on a request that was on a list and is then on none, and every other request keeps its
place on some list, its status and its done flag.  A request that is on no list is not
touched at all.

Whatever else a pass does (descriptors, doorbells, received data) leaves the books
alone: `SameBooks`.
-/

namespace Qdma

/-! ## The books -/

/-- What the driver knows about its requests. -/
def Xfer.books (x : Xfer) :
    List ReqId × List ReqId × (ReqId → QdmaSgReq) × List Completion × List ReqId × List ReqId :=
  (x.descq.workList, x.descq.pendList, x.reqs, x.completed, x.submitted, x.returned)

/-- `y` differs from `x` in nothing that concerns the requests. -/
def SameBooks (x y : Xfer) : Prop := y.books = x.books

theorem SameBooks.refl (x : Xfer) : SameBooks x x := rfl

theorem SameBooks.trans {x y z : Xfer} (h₁ : SameBooks x y) (h₂ : SameBooks y z) :
    SameBooks x z := Eq.trans h₂ h₁

theorem SameBooks.workList {x y : Xfer} (h : SameBooks x y) :
    y.descq.workList = x.descq.workList := congrArg (·.1) h

theorem SameBooks.pendList {x y : Xfer} (h : SameBooks x y) :
    y.descq.pendList = x.descq.pendList := congrArg (·.2.1) h

theorem SameBooks.reqs {x y : Xfer} (h : SameBooks x y) : y.reqs = x.reqs := congrArg (·.2.2.1) h

theorem SameBooks.completed {x y : Xfer} (h : SameBooks x y) : y.completed = x.completed :=
  congrArg (·.2.2.2.1) h

theorem SameBooks.submitted {x y : Xfer} (h : SameBooks x y) : y.submitted = x.submitted :=
  congrArg (·.2.2.2.2.1) h

theorem SameBooks.returned {x y : Xfer} (h : SameBooks x y) : y.returned = x.returned :=
  congrArg (·.2.2.2.2.2) h

theorem sameBooks_writeDesc (x : Xfer) (slot : ℕ) (v : QdmaDesc) (pidx : ℕ) (posted : List Posting)
    (mmio : List (ℕ × BitVec 32)) :
    SameBooks x
      { x with
        descq := { x.descq.writeDesc slot v with pidx := pidx }
        posted := posted
        mmio := mmio } := by
  obtain ⟨desc, oops, heq, -⟩ := writeDesc_cases x.descq slot v
  rw [heq]
  rfl

theorem sameBooks_setFlag (x : Xfer) (slot bit : ℕ) :
    SameBooks x
      { x with descq := x.descq.writeDesc slot ((x.descq.slotAt slot).setFlag bit) } := by
  obtain ⟨desc, oops, heq, -⟩ := writeDesc_cases x.descq slot ((x.descq.slotAt slot).setFlag bit)
  rw [heq]
  rfl

theorem sameBooks_intrCoalAdvance (x : Xfer) : SameBooks x (intrCoalAdvance x) := by
  obtain ⟨coal, mmio, heq⟩ := intrCoalAdvance_eq x
  rw [heq]
  rfl

theorem sameBooks_wbCredit (x : Xfer) (cidx : ℕ) : SameBooks x (descqWbCredit x cidx).2 := by
  unfold descqWbCredit
  dsimp only
  split
  · exact SameBooks.refl x
  · rfl

/-! ## Received data -/

theorem sameBooks_setRxq (p : StC2hPass) (rxq : StRxQueue) : SameBooks p.x (p.setRxq rxq).x := rfl

theorem sameBooks_rxData (al : RxAllocs) (p : StC2hPass) (fl : FlDesc) (udd : Bool) :
    SameBooks p.x (descqStC2hRxData al p fl udd).x := by
  unfold descqStC2hRxData
  dsimp only
  split
  · exact sameBooks_setRxq _ _
  · exact SameBooks.refl _

theorem sameBooks_setDstAddr (x : Xfer) (fls : ℕ → FlDesc) (slot : ℕ) (addr : BitVec 64) :
    SameBooks x
      { x with descq := { x.descq with stRxFl := some fls }.setDstAddr slot addr } := by
  unfold QdmaDescq.setDstAddr
  obtain ⟨desc, oops, heq, -⟩ := writeDesc_cases { x.descq with stRxFl := some fls } slot
    { QdmaDescq.slotAt { x.descq with stRxFl := some fls } slot with dstAddr := addr }
  rw [heq]
  rfl

theorem sameBooks_stC2hPages (al : RxAllocs) :
    ∀ (flNr len : ℕ) (udd : Bool) (p : StC2hPass),
      SameBooks p.x (stC2hPages al flNr len udd p).x := by
  intro flNr
  induction flNr with
  | zero => intro len udd p; exact SameBooks.refl p.x
  | succ flNr ih =>
      intro len udd p
      unfold stC2hPages
      cases p.x.descq.stRxFl with
      | none => rfl
      | some fls =>
          dsimp only
          have hrx := sameBooks_rxData al p { fls p.pidx with len := min len pageSize } udd
          generalize descqStC2hRxData al p { fls p.pidx with len := min len pageSize } udd = r
            at hrx ⊢
          generalize (flRefillEntry (al.page r.pages) { fls p.pidx with len := min len pageSize }).2
            = fl
          exact (hrx.trans (sameBooks_setDstAddr r.x (Function.update fls p.pidx fl) p.pidx
            fl.dmaAddr)).trans (ih _ _ _)

theorem sameBooks_stC2hUdd {al : RxAllocs} {ring : WrbRing} {p p' : StC2hPass} {udd : Bool}
    (h : stC2hUdd al ring p = some (p', udd)) : SameBooks p.x p'.x := by
  unfold stC2hUdd at h
  dsimp only at h
  split at h
  · split at h
    · cases h
    · split at h
      · cases h
      · cases h
        exact sameBooks_setRxq _ _
  · cases h
    exact SameBooks.refl p.x

theorem sameBooks_wrbNext (x : Xfer) : SameBooks x { x with descq := wrbNext x.descq } := by
  unfold wrbNext
  split
  · rfl
  · rfl

theorem sameBooks_stC2hEntries (al : RxAllocs) :
    ∀ (budget : ℕ) (p : StC2hPass), SameBooks p.x (stC2hEntries al budget p).2.x := by
  intro budget
  induction budget with
  | zero => intro p; exact SameBooks.refl p.x
  | succ budget ih =>
      intro p
      cases hwrb : p.x.descq.descWrb with
      | none =>
          simp only [stC2hEntries, hwrb]
          rfl
      | some ring =>
          cases hudd : stC2hUdd al ring p with
          | none =>
              simp only [stC2hEntries, hwrb, hudd]
              exact SameBooks.refl p.x
          | some r =>
              obtain ⟨p', udd⟩ := r
              have hstep := sameBooks_stC2hUdd hudd
              simp only [stC2hEntries, hwrb, hudd]
              generalize ring.word p'.x.descq.descWrbCur = word
              generalize word / 2 ^ sC2hWbEntryLength % (mC2hWbEntryLength + 1) = len
              generalize (len + pageSize - 1) / pageSize = flNr
              split
              · exact hstep
              · have hpages := hstep.trans (sameBooks_stC2hPages al flNr len udd p')
                generalize stC2hPages al flNr len udd p' = p₂ at hpages ⊢
                exact (hpages.trans (sameBooks_wrbNext p₂.x)).trans (ih _)

/-! ## The relation -/

/-- All bytes of the request have been posted. -/
def Xfer.Covered (x : Xfer) (id : ReqId) : Prop := (x.reqs id).cb.offset = (x.reqs id).count

/-- `y` is `x` after the calls `ds` of `qdma_sgt_req_done`. -/
structure Serves (x y : Xfer) (ds : List Completion) : Prop where
  live : (y.liveIds ++ ds.map (·.id)).Perm x.liveIds
  completed : y.completed = x.completed ++ ds
  submitted : y.submitted = x.submitted
  returned : y.returned = x.returned
  kept : ∀ id ∉ ds.map (·.id), (y.reqs id).cb.done = (x.reqs id).cb.done ∧
    (y.reqs id).cb.status = (x.reqs id).cb.status
  off : ∀ id ∉ x.liveIds, y.reqs id = x.reqs id
  told : ∀ c ∈ ds, (y.reqs c.id).cb.done = true ∧ (y.reqs c.id).cb.status = c.status ∧
    (y.reqs c.id).cb.offset = c.bytesDone
  pended : ∀ id, (id ∈ x.descq.pendList → x.Covered id) → id ∈ y.descq.pendList → y.Covered id

namespace Serves

variable {x y z : Xfer} {ds ds' : List Completion}

theorem of_sameBooks (h : SameBooks x y) : Serves x y [] where
  live := by
    rw [List.map_nil, List.append_nil, Xfer.liveIds, Xfer.liveIds, h.workList, h.pendList]
  completed := by rw [h.completed, List.append_nil]
  submitted := h.submitted
  returned := h.returned
  kept id _ := by rw [h.reqs]; exact ⟨rfl, rfl⟩
  off id _ := by rw [h.reqs]
  told c hc := by cases hc
  pended id hx hy := by
    rw [h.pendList] at hy
    unfold Xfer.Covered
    rw [h.reqs]
    exact hx hy

theorem mem_live_iff (h : Serves x y ds) (id : ReqId) :
    id ∈ x.liveIds ↔ id ∈ y.liveIds ∨ id ∈ ds.map (·.id) := by
  rw [← h.live.mem_iff, List.mem_append]

theorem done (h : Serves x y ds) {id : ReqId} (hid : id ∈ ds.map (·.id)) :
    (y.reqs id).cb.done = true := by
  obtain ⟨c, hc, rfl⟩ := List.mem_map.mp hid
  exact (h.told c hc).1

/-- What is on the lists once stays there once. -/
theorem nodup_append (h : Serves x y ds) (hx : x.liveIds.Nodup) :
    (y.liveIds ++ ds.map (·.id)).Nodup := h.live.nodup_iff.mpr hx

theorem nodup (h : Serves x y ds) (hx : x.liveIds.Nodup) : y.liveIds.Nodup :=
  (List.nodup_append.mp (h.nodup_append hx)).1

theorem notMem_of_live (h : Serves x y ds) (hx : x.liveIds.Nodup) {id : ReqId}
    (hid : id ∈ y.liveIds) : id ∉ ds.map (·.id) :=
  fun hd => (List.nodup_append.mp (h.nodup_append hx)).2.2 id hid id hd rfl

theorem trans (hx : x.liveIds.Nodup) (h₁ : Serves x y ds) (h₂ : Serves y z ds') :
    Serves x z (ds ++ ds') where
  live := by
    rw [List.map_append]
    have hswap : (z.liveIds ++ (ds.map (·.id) ++ ds'.map (·.id))).Perm
        ((z.liveIds ++ ds'.map (·.id)) ++ ds.map (·.id)) := by
      rw [List.append_assoc]
      exact List.perm_append_comm.append_left _
    exact (hswap.trans (h₂.live.append_right _)).trans h₁.live
  completed := by rw [h₂.completed, h₁.completed, List.append_assoc]
  submitted := h₂.submitted.trans h₁.submitted
  returned := h₂.returned.trans h₁.returned
  kept id hid := by
    rw [List.map_append, List.mem_append, not_or] at hid
    obtain ⟨hd₁, hs₁⟩ := h₁.kept id hid.1
    obtain ⟨hd₂, hs₂⟩ := h₂.kept id hid.2
    exact ⟨hd₂.trans hd₁, hs₂.trans hs₁⟩
  off id hid := by
    have hy : id ∉ y.liveIds := fun hy => hid ((h₁.mem_live_iff id).mpr (Or.inl hy))
    rw [h₂.off id hy, h₁.off id hid]
  told c hc := by
    rcases List.mem_append.mp hc with hc | hc
    · -- a request completed in the first part is on no list in the second
      have hy : c.id ∉ y.liveIds := fun hy =>
        h₁.notMem_of_live hx hy (List.mem_map_of_mem hc)
      rw [h₂.off c.id hy]
      exact h₁.told c hc
    · exact h₂.told c hc
  pended id hid := h₂.pended id (h₁.pended id hid)

end Serves

/-! ## One request -/

theorem mem_liveIds_of_work {x : Xfer} {id : ReqId} (h : id ∈ x.descq.workList) :
    id ∈ x.liveIds := List.mem_append_right _ h

theorem nodup_pendList {x : Xfer} (hx : x.liveIds.Nodup) : x.descq.pendList.Nodup :=
  (List.nodup_append.mp hx).1

theorem mem_liveIds_of_pend {x : Xfer} {id : ReqId} (h : id ∈ x.descq.pendList) :
    id ∈ x.liveIds := List.mem_append_left _ h

theorem reqDone_reqs_of_ne {x : Xfer} {id i : ReqId} (error : ℤ) (hi : i ≠ id) :
    (qdmaSgtReqDone x id error).reqs i = x.reqs i := Function.update_of_ne hi _ _

/-- `qdma_sgt_req_done` on a request that is on a list. -/
theorem serves_reqDone {x : Xfer} {id : ReqId} (hx : x.liveIds.Nodup) (hid : id ∈ x.liveIds)
    (error : ℤ) : ∃ c : Completion, c.id = id ∧ Serves x (qdmaSgtReqDone x id error) [c] := by
  refine ⟨_, rfl, ?_, rfl, rfl, rfl, ?_, ?_, ?_, ?_⟩
  · change (x.descq.pendList.erase id ++ x.descq.workList.erase id ++ [id]).Perm x.liveIds
    rw [erase_append_erase hx]
    exact (List.perm_append_singleton id _).trans (List.perm_cons_erase hid).symm
  · intro i hi
    rw [List.map_cons, List.map_nil, List.mem_singleton] at hi
    rw [reqDone_reqs_of_ne error hi]
    exact ⟨rfl, rfl⟩
  · intro i hi
    exact reqDone_reqs_of_ne error fun heq => hi (heq ▸ hid)
  · intro c hc
    rw [List.mem_singleton] at hc
    subst hc
    simp only [qdmaSgtReqDone, Xfer.setCb, Xfer.listDel, Function.update_self, true_and]
  · intro i hcov hmem
    change i ∈ x.descq.pendList.erase id at hmem
    have hne : i ≠ id := by
      rintro rfl
      exact (nodup_pendList hx).not_mem_erase hmem
    unfold Xfer.Covered
    rw [reqDone_reqs_of_ne error hne]
    exact hcov (List.mem_of_mem_erase hmem)

/-- A request on a list gets a control block with the same status, done flag and
offset. -/
theorem serves_setCb {x : Xfer} {id : ReqId} (hid : id ∈ x.liveIds) (descNr : ℕ) :
    Serves x (x.setCb id { (x.reqs id).cb with descNr := descNr }) [] := by
  have hother : ∀ i ≠ id, (x.setCb id { (x.reqs id).cb with descNr := descNr }).reqs i = x.reqs i :=
    fun i hi => Function.update_of_ne hi _ _
  have hself : (x.setCb id { (x.reqs id).cb with descNr := descNr }).reqs id =
      { x.reqs id with cb := { (x.reqs id).cb with descNr := descNr } } := Function.update_self ..
  refine ⟨by rw [List.map_nil, List.append_nil]; rfl, (List.append_nil _).symm, rfl, rfl, ?_, ?_,
    ?_, ?_⟩
  · intro i _
    by_cases hi : i = id
    · subst hi
      rw [hself]
      exact ⟨rfl, rfl⟩
    · rw [hother i hi]
      exact ⟨rfl, rfl⟩
  · intro i hi
    exact hother i fun heq => hi (heq ▸ hid)
  · intro c hc
    cases hc
  · intro i hcov hmem
    unfold Xfer.Covered
    by_cases hi : i = id
    · subst hi
      rw [hself]
      exact hcov hmem
    · rw [hother i hi]
      exact hcov hmem

/-- Accounting for descriptors moves a request from `work_list` to `pend_list` at most,
and only when it is covered. -/
theorem serves_postAccount {x : Xfer} {id : ReqId} (hx : x.liveIds.Nodup)
    (hid : id ∈ x.descq.workList) (descCnt dataCnt : ℕ) :
    Serves x (postAccount x id descCnt dataCnt) [] := by
  have hpend : id ∉ x.descq.pendList := fun hp => (List.nodup_append.mp hx).2.2 id hp id hid rfl
  rw [postAccount_eq]
  dsimp only
  refine ⟨?_, (List.append_nil _).symm, rfl, rfl, ?_, ?_, ?_, ?_⟩
  · rw [List.map_nil, List.append_nil]
    dsimp only [Xfer.liveIds]
    split
    · rw [List.erase_of_not_mem hpend, List.append_assoc]
      exact (List.perm_cons_erase hid).symm.append_left _
    · exact List.Perm.refl _
  · intro i _
    dsimp only
    by_cases hi : i = id
    · subst hi
      rw [Function.update_self]
      exact ⟨rfl, rfl⟩
    · rw [Function.update_of_ne hi]
      exact ⟨rfl, rfl⟩
  · intro i hi
    have hne : i ≠ id := fun heq => hi (heq ▸ mem_liveIds_of_work hid)
    exact Function.update_of_ne hne _ _
  · intro c hc
    cases hc
  · intro i hcov hmem
    unfold Xfer.Covered
    dsimp only at hmem ⊢
    by_cases hi : i = id
    · subst hi
      rw [Function.update_self]
      by_contra hne
      rw [if_neg hne] at hmem
      exact hpend hmem
    · rw [Function.update_of_ne hi]
      refine hcov ?_
      split at hmem
      · rw [List.erase_of_not_mem hpend, List.mem_append, List.mem_singleton] at hmem
        exact hmem.resolve_right hi
      · exact hmem

/-! ## The worker thread -/

/-- Posting for one request: refused with nothing done to the books, or accounted for;
the other requests of `work_list` stay there. -/
structure PostsOne (x : Xfer) (id : ReqId) (r : ℤ × Xfer) : Prop where
  refused : r.1 < 0 → SameBooks x r.2
  serves : Serves x r.2 []
  others : ∀ i ≠ id, i ∈ x.descq.workList → i ∈ r.2.descq.workList

theorem PostsOne.of_sameBooks {x : Xfer} {r : ℤ × Xfer} (id : ReqId) (h : SameBooks x r.2) :
    PostsOne x id r where
  refused _ := h
  serves := Serves.of_sameBooks h
  others i _ hi := by rw [h.workList]; exact hi

theorem postsOne_account {x y z : Xfer} {id : ReqId} (hx : x.liveIds.Nodup)
    (hid : id ∈ x.descq.workList) (h : SameBooks x y) (descCnt dataCnt : ℕ)
    (hz : SameBooks (postAccount y id descCnt dataCnt) z) : PostsOne x id (0, z) where
  refused hneg := absurd hneg (lt_irrefl 0)
  serves := by
    have hy : y.liveIds.Nodup := (Serves.of_sameBooks h).nodup hx
    have hidy : id ∈ y.descq.workList := by rw [h.workList]; exact hid
    exact ((Serves.of_sameBooks h).trans hx (serves_postAccount hy hidy descCnt dataCnt)).trans hx
      (Serves.of_sameBooks hz)
  others i hi hmem := by
    rw [hz.workList, postAccount_eq]
    dsimp only
    rw [h.workList]
    split
    · exact (List.mem_erase_of_ne hi).mpr hmem
    · exact hmem

theorem postsOne_mmProc {x : Xfer} {id : ReqId} (hx : x.liveIds.Nodup)
    (hid : id ∈ x.descq.workList) : PostsOne x id (descqMmProcRequest x id) := by
  unfold descqMmProcRequest
  dsimp only
  split
  · exact .of_sameBooks id (SameBooks.refl x)
  · split
    · exact .of_sameBooks id (SameBooks.refl x)
    · rename_i sg off _
      obtain ⟨st, hst⟩ : ∃ st, st = postSgl xdmaDescBlenMax (mmPut id) sg off x.descq.avail
        { x := x, epAddr := (x.reqs id).epAddr, dataCnt := 0, descCnt := 0, descEnd := none } :=
        ⟨_, rfl⟩
      have hloop : SameBooks x st.x := by
        rw [hst]
        refine postSgl_keeps (P := fun st : MmLoop => SameBooks x st.x) _ _ ?_ _ _ _ _
          (SameBooks.refl x)
        intro st addr len h
        exact h.trans (sameBooks_writeDesc st.x _ _ _ _ _)
      rw [← hst]
      split
      · exact .of_sameBooks id hloop
      · rename_i descEnd _
        have hflags := (hloop.trans (sameBooks_setFlag st.x descEnd sDescFEop)).trans
          (sameBooks_setFlag _ x.descq.pidx sDescFSop)
        exact postsOne_account hx hid hflags st.descCnt st.dataCnt rfl

theorem postsOne_stH2cProc {x : Xfer} {id : ReqId} (hx : x.liveIds.Nodup)
    (hid : id ∈ x.descq.workList) : PostsOne x id (descqProcStH2cRequest x id) := by
  unfold descqProcStH2cRequest
  dsimp only
  split
  · exact .of_sameBooks id (SameBooks.refl x)
  · split
    · exact .of_sameBooks id (SameBooks.refl x)
    · refine postsOne_account hx hid ?_ _ _ (SameBooks.refl _)
      refine postSgl_keeps (P := fun st : StH2cLoop => SameBooks x st.x) _ _ ?_ _ _ _ _
        (SameBooks.refl x)
      intro st addr len h
      exact h.trans (sameBooks_writeDesc st.x _ _ _ _ _)

theorem postsOne_procSgtRequest {x : Xfer} {id : ReqId} (hx : x.liveIds.Nodup)
    (hid : id ∈ x.descq.workList) : PostsOne x id (qdmaDescqProcSgtRequest x id) := by
  unfold qdmaDescqProcSgtRequest
  split
  · exact postsOne_mmProc hx hid
  · split
    · exact postsOne_stH2cProc hx hid
    · exact .of_sameBooks id (SameBooks.refl x)

/-- An error in posting completes the request; nobody else's place on `work_list` is
touched. -/
theorem serves_wrkProcOne {x : Xfer} {id : ReqId} (hx : x.liveIds.Nodup)
    (hid : id ∈ x.descq.workList) :
    ∃ ds, Serves x (wrkProcOne x id) ds ∧
      ∀ i ≠ id, i ∈ x.descq.workList → i ∈ (wrkProcOne x id).descq.workList := by
  have hone := postsOne_procSgtRequest hx hid
  unfold wrkProcOne
  dsimp only
  split
  · rename_i hneg
    have hbooks := hone.refused hneg
    have hidy : id ∈ (qdmaDescqProcSgtRequest x id).2.liveIds := by
      refine mem_liveIds_of_work ?_
      rw [hbooks.workList]
      exact hid
    obtain ⟨c, -, hdone⟩ := serves_reqDone (hone.serves.nodup hx) hidy
      (qdmaDescqProcSgtRequest x id).1
    refine ⟨[c], hone.serves.trans hx hdone, ?_⟩
    intro i hi hmem
    exact (List.mem_erase_of_ne hi).mpr (hone.others i hi hmem)
  · exact ⟨[], hone.serves, hone.others⟩

/-- The loop runs over `work_list` as it was; what is left of it is still there. -/
theorem serves_wrkProcLoop :
    ∀ (ids : List ReqId) {x : Xfer}, x.liveIds.Nodup → ids.Nodup →
      (∀ id ∈ ids, id ∈ x.descq.workList) → ∃ ds, Serves x (wrkProcLoop ids x) ds := by
  intro ids
  induction ids with
  | nil => intro x _ _ _; exact ⟨[], Serves.of_sameBooks (SameBooks.refl x)⟩
  | cons id rest ih =>
      intro x hx hids hsub
      obtain ⟨hnew, hrest⟩ := List.nodup_cons.mp hids
      obtain ⟨ds, hone, hothers⟩ := serves_wrkProcOne hx (hsub id List.mem_cons_self)
      unfold wrkProcLoop
      dsimp only
      split
      · exact ⟨ds, hone⟩
      · obtain ⟨ds', hloop⟩ := ih (hone.nodup hx) hrest fun i hi =>
          hothers i (fun heq => hnew (heq ▸ hi)) (hsub i (List.mem_cons_of_mem _ hi))
        exact ⟨ds ++ ds', hone.trans hx hloop⟩

/-- **The worker thread.** -/
theorem serves_threadWrkProc {x : Xfer} (hx : x.liveIds.Nodup) :
    ∃ ds, Serves x (qdmaThreadWrkProc x) ds :=
  serves_wrkProcLoop x.descq.workList hx (List.nodup_append.mp hx).2.1 fun _ h => h

/-! ## The writeback thread -/

/-- A loop over pending requests goes on with the ones behind. -/
theorem Serves.rest_live {x y : Xfer} {ds : List Completion} {id : ReqId} {rest : List ReqId}
    (h : Serves x y ds) (hds : ∀ i ∈ ds.map (·.id), i = id) (hids : (id :: rest).Nodup)
    (hsub : ∀ i ∈ id :: rest, i ∈ x.liveIds) : ∀ i ∈ rest, i ∈ y.liveIds := by
  intro i hi
  have hlive := (h.mem_live_iff i).mp (hsub i (List.mem_cons_of_mem _ hi))
  refine hlive.resolve_right fun hd => ?_
  exact (List.nodup_cons.mp hids).1 (hds i hd ▸ hi)

theorem serves_reqUpdatePendLoop :
    ∀ (ids : List ReqId) {x : Xfer} (credit : ℕ), x.liveIds.Nodup → ids.Nodup →
      (∀ id ∈ ids, id ∈ x.liveIds) → ∃ ds, Serves x (reqUpdatePendLoop ids credit x).1 ds := by
  intro ids
  induction ids with
  | nil => intro x credit _ _ _; exact ⟨[], Serves.of_sameBooks (SameBooks.refl x)⟩
  | cons id rest ih =>
      intro x credit hx hids hsub
      have hrest := (List.nodup_cons.mp hids).2
      unfold reqUpdatePendLoop
      dsimp only
      by_cases hle : (x.reqs id).cb.descNr ≤ credit
      · rw [if_pos hle]
        obtain ⟨c, hc, hone⟩ := serves_reqDone hx (hsub id List.mem_cons_self) 0
        split
        · exact ⟨[c], hone⟩
        · have hlive := hone.rest_live (by simp [hc]) hids hsub
          obtain ⟨ds, hloop⟩ := ih _ (hone.nodup hx) hrest hlive
          exact ⟨[c] ++ ds, hone.trans hx hloop⟩
      · rw [if_neg hle, if_pos rfl]
        exact ⟨[], serves_setCb (hsub id List.mem_cons_self) _⟩

theorem serves_checkRxLoop :
    ∀ (ids : List ReqId) {x : Xfer} (dlen : ℕ), x.liveIds.Nodup → ids.Nodup →
      (∀ id ∈ ids, id ∈ x.liveIds) → ∃ ds, Serves x (checkRxLoop ids dlen x) ds := by
  intro ids
  induction ids with
  | nil => intro x dlen _ _ _; exact ⟨[], Serves.of_sameBooks (SameBooks.refl x)⟩
  | cons id rest ih =>
      intro x dlen hx hids hsub
      unfold checkRxLoop
      dsimp only
      split
      · exact ⟨[], Serves.of_sameBooks (SameBooks.refl x)⟩
      · obtain ⟨c, hc, hone⟩ := serves_reqDone hx (hsub id List.mem_cons_self) 0
        have hlive := hone.rest_live (by simp [hc]) hids hsub
        obtain ⟨ds, hloop⟩ := ih _ (hone.nodup hx) (List.nodup_cons.mp hids).2 hlive
        exact ⟨[c] ++ ds, hone.trans hx hloop⟩

theorem serves_reqUpdatePend {x : Xfer} (hx : x.liveIds.Nodup) (credit : ℕ) :
    ∃ ds, Serves x (reqUpdatePend x credit) ds := by
  obtain ⟨ds, h⟩ := serves_reqUpdatePendLoop x.descq.pendList (u32 (credit + x.descq.credit)) hx
    (nodup_pendList hx) fun _ => mem_liveIds_of_pend
  exact ⟨ds, h.live, h.completed, h.submitted, h.returned, h.kept, h.off, h.told, h.pended⟩

theorem serves_mmNH2cWb {x : Xfer} (hx : x.liveIds.Nodup) :
    ∃ ds, Serves x (descqMmNH2cWb x) ds := by
  unfold descqMmNH2cWb
  split
  · exact ⟨[], Serves.of_sameBooks (SameBooks.refl x)⟩
  · split
    · exact ⟨[], Serves.of_sameBooks rfl⟩
    · rename_i ring _
      split
      · exact ⟨[], Serves.of_sameBooks (SameBooks.refl x)⟩
      · have hcredit := Serves.of_sameBooks (sameBooks_wbCredit x ring.wbCidx)
        obtain ⟨ds, hpend⟩ := serves_reqUpdatePend (hcredit.nodup hx)
          (descqWbCredit x ring.wbCidx).1
        have h := hcredit.trans hx hpend
        refine ⟨[] ++ ds ++ [], Serves.trans hx (y := { reqUpdatePend (descqWbCredit x ring.wbCidx).2
          (descqWbCredit x ring.wbCidx).1 with mmio := _ }) ?_
          (Serves.of_sameBooks (sameBooks_intrCoalAdvance _))⟩
        exact ⟨h.live, h.completed, h.submitted, h.returned, h.kept, h.off, h.told, h.pended⟩

/-- A pass over completion entries leaves the books alone up to its last step. -/
theorem stC2hWb_cases (al : RxAllocs) (x : Xfer) :
    ∃ y, SameBooks x y ∧
      ((descqStC2hWb al x).2 = y ∨ (descqStC2hWb al x).2 = checkRxRequestCompleted y) := by
  unfold descqStC2hWb
  cases x.descq.descWrb with
  | none => exact ⟨{ x with descq := { x.descq with oops := true } }, rfl, Or.inl rfl⟩
  | some ring =>
      dsimp only
      have hentries := sameBooks_stC2hEntries al
        (stC2hBudget { x.descq with pidxWrb := ring.wbPidx })
        { x := { x with descq := { x.descq with pidxWrb := ring.wbPidx } }, pidx := x.descq.pidx,
          kmallocs := 0, pages := 0 }
      generalize stC2hEntries al (stC2hBudget { x.descq with pidxWrb := ring.wbPidx })
        { x := { x with descq := { x.descq with pidxWrb := ring.wbPidx } }, pidx := x.descq.pidx,
          kmallocs := 0, pages := 0 } = r at hentries ⊢
      obtain ⟨rv, p⟩ := r
      have hp : SameBooks x p.x := hentries
      cases rv with
      | some rv => exact ⟨_, hp, Or.inl rfl⟩
      | none =>
          dsimp only
          split
          · exact ⟨_, hp, Or.inl rfl⟩
          · refine ⟨_, ?_, Or.inr rfl⟩
            refine SameBooks.trans ?_ (sameBooks_intrCoalAdvance _)
            exact hp

theorem serves_checkRx {x : Xfer} (hx : x.liveIds.Nodup) :
    ∃ ds, Serves x (checkRxRequestCompleted x) ds :=
  serves_checkRxLoop x.descq.pendList x.descq.rxQueue.dlen hx (nodup_pendList hx)
    fun _ => mem_liveIds_of_pend

/-- **Servicing a queue.** -/
theorem serves_serviceWb {x : Xfer} (hx : x.liveIds.Nodup) (al : RxAllocs) :
    ∃ ds, Serves x (qdmaDescqServiceWb al x) ds := by
  unfold qdmaDescqServiceWb
  split
  · obtain ⟨y, hbooks, heq | heq⟩ := stC2hWb_cases al x
    · rw [heq]
      exact ⟨[], Serves.of_sameBooks hbooks⟩
    · rw [heq]
      have hy := Serves.of_sameBooks hbooks
      obtain ⟨ds, h⟩ := serves_checkRx (hy.nodup hx)
      exact ⟨[] ++ ds, hy.trans hx h⟩
  · exact serves_mmNH2cWb hx

end Qdma

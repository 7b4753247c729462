import Qdma.Leave
import Qdma.Lib.Balance

/-!
# The DMA mapping of a request

`qdma_sg_req_submit` maps the scatter list of a request that comes unmapped, before it looks
whether the queue is online, and unmaps it when its wait is over.  Two of its exits leave the
mapping behind: the queue is not online, or the request has a completion callback and the
call does not wait for it; nothing on the completion path unmaps.

* `MapState` is a queue with its callers and a log of `pci_map_sg` (a `take`) and
  `pci_unmap_sg` (a `give`).
* `MapsBalanced` is what the log should look like, at any time of a run.
* `maps_balanced_iff` says when it holds: no request whose call is over left through one of
  the two exits with a mapping of the driver's.
-/

namespace Qdma

open Lib

/-! ## Mapping and unmapping -/

/-- `pci_map_sg` is called and succeeds. -/
def pciMapSg (x : Xfer) (req : QdmaSgReq) : Bool :=
  !((req.write && x.descq.conf.c2h) || (!req.write && !x.descq.conf.c2h)) &&
    !x.descq.isStC2h && !req.dmaMapped && decide (req.sgt.nents ≠ 0)

/-- The test in front of `pci_unmap_sg`. -/
def pciUnmapSg (x : Xfer) (req : QdmaSgReq) : Bool :=
  !x.descq.isStC2h && !req.dmaMapped && decide (req.sgt.nents ≠ 0)

/-- The calls of one step. -/
def mapBookings (s : WaitState) : WaitEv → List (Booking ReqId)
  | .submit id req => if s.x.descq.enabled && pciMapSg s.x req then [.take id] else []
  | .ret id => if pciUnmapSg s.x (s.x.reqs id) then [.give id] else []
  | _ => []

/-- A submission that maps and returns without a wait: the queue is offline, or the request
has a completion callback. -/
def unwaited (s : WaitState) : WaitEv → List ReqId
  | .submit id req =>
      if s.x.descq.enabled && pciMapSg s.x req && (req.fpDone || !s.x.descq.online) then [id]
      else []
  | _ => []

/-- `left` is a record: the requests mapped by an unwaited submission. -/
structure MapState where
  w : WaitState
  log : List (Booking ReqId)
  left : List ReqId

def MapState.init (x : Xfer) : MapState where
  w := WaitState.init x
  log := []
  left := []

inductive MapEv where
  | call (e : WaitEv)
  /-- The queue is started or stopped. -/
  | online (b : Bool)

def mapStep (m : MapState) : MapEv → MapState
  | .call e =>
      { w := waitStep m.w e
        log := m.log ++ mapBookings m.w e
        left := m.left ++ unwaited m.w e }
  | .online b =>
      { m with
        w := { m.w with x := { m.w.x with descq := { m.w.x.descq with online := b } } } }

/-- One queue of any kind with its callers, going online and offline at any time. -/
def mapSys : System MapState MapEv where
  step := mapStep
  guard m
    | .call e => waitSys.guard m.w e
    | .online _ => True

instance decidableMapGuard (m : MapState) : ∀ e, Decidable (mapSys.guard m e) := by
  rintro ⟨⟩ <;> dsimp only [mapSys] <;> infer_instance

/-- The call is over: it was refused, has returned, or has not waited and the request is
completed. -/
def MapState.Over (m : MapState) (id : ReqId) : Prop :=
  m.w.caller id = .away ∨ m.w.caller id = .back ∨
    (m.w.caller id = .detached ∧ (m.w.x.reqs id).cb.done = true)

instance (m : MapState) (id : ReqId) : Decidable (m.Over id) :=
  inferInstanceAs (Decidable (_ ∨ _ ∨ _))

/-- No mapping is undone twice, each is undone when the call is over, and none under a
request that is on a list. -/
structure MapsBalanced (m : MapState) : Prop where
  covered : Covered m.log
  settled : ∀ id, m.Over id → given m.log id = taken m.log id
  unlinked : ∀ id, 0 < given m.log id → ¬ m.w.x.isLinked id

/-! ## Requests keep what they were submitted with -/

/-- Of a request, only the control block is written. -/
def OnlyCb (x y : Xfer) : Prop := ∀ i, ∃ cb, y.reqs i = { x.reqs i with cb := cb }

namespace OnlyCb

theorem refl (x : Xfer) : OnlyCb x x := fun _ => ⟨_, rfl⟩

theorem trans {x y z : Xfer} (h₁ : OnlyCb x y) (h₂ : OnlyCb y z) : OnlyCb x z := by
  intro i
  obtain ⟨cb, hy⟩ := h₁ i
  obtain ⟨cb', hz⟩ := h₂ i
  refine ⟨cb', ?_⟩
  rw [hz, hy]

theorem of_reqs {x y : Xfer} (h : y.reqs = x.reqs) : OnlyCb x y := by
  intro i
  refine ⟨(x.reqs i).cb, ?_⟩
  rw [h]

theorem setCb (x : Xfer) (id : ReqId) (cb : QdmaSgtReqCb) : OnlyCb x (x.setCb id cb) := by
  intro i
  by_cases hi : i = id
  · subst hi
    exact ⟨cb, Function.update_self ..⟩
  · exact ⟨(x.reqs i).cb, Function.update_of_ne hi _ _⟩

theorem reqDone (x : Xfer) (id : ReqId) (error : ℤ) : OnlyCb x (qdmaSgtReqDone x id error) := by
  have h₁ : OnlyCb x (x.listDel id) := of_reqs rfl
  have h₂ := h₁.trans (setCb (x.listDel id) id
    { (x.reqs id).cb with
      status := if (x.reqs id).fpDone && decide ((x.reqs id).cb.offset ≠ (x.reqs id).count)
        then -einval else error
      done := true })
  exact h₂.trans (of_reqs rfl)

theorem of_sameBooks {x y : Xfer} (h : SameBooks x y) : OnlyCb x y := of_reqs h.reqs

theorem postAccount (x : Xfer) (id : ReqId) (descCnt dataCnt : ℕ) :
    OnlyCb x (Qdma.postAccount x id descCnt dataCnt) := by
  rw [postAccount_eq]
  exact (setCb x id _).trans (of_reqs rfl)

theorem mmProc (x : Xfer) (id : ReqId) : OnlyCb x (descqMmProcRequest x id).2 := by
  unfold descqMmProcRequest
  dsimp only
  split
  · exact refl x
  · split
    · exact refl x
    · rename_i sg off _
      obtain ⟨st, hst⟩ : ∃ st, st = postSgl xdmaDescBlenMax (mmPut id) sg off x.descq.avail
        { x := x, epAddr := (x.reqs id).epAddr, dataCnt := 0, descCnt := 0, descEnd := none } :=
        ⟨_, rfl⟩
      have hloop : SameBooks x st.x := by
        rw [hst]
        refine postSgl_keeps (P := fun st : MmLoop => SameBooks x st.x) _ _ ?_ _ _ _ _
          (SameBooks.refl x)
        intro st addr len h
        exact h.trans (sameBooks_writeDesc st.x _ _ _ _ _)
      rw [← hst]
      split
      · exact of_sameBooks hloop
      · rename_i descEnd _
        have h₁ := hloop.trans (sameBooks_setFlag st.x descEnd sDescFEop)
        have h₂ := h₁.trans (sameBooks_setFlag _ x.descq.pidx sDescFSop)
        exact (of_sameBooks h₂).trans ((postAccount _ id st.descCnt st.dataCnt).trans (of_reqs rfl))

theorem stH2cProc (x : Xfer) (id : ReqId) : OnlyCb x (descqProcStH2cRequest x id).2 := by
  unfold descqProcStH2cRequest
  dsimp only
  split
  · exact refl x
  · split
    · exact refl x
    · refine trans (of_sameBooks ?_) (postAccount _ id _ _)
      refine postSgl_keeps (P := fun st : StH2cLoop => SameBooks x st.x) _ _ ?_ _ _ _ _
        (SameBooks.refl x)
      intro st addr len h
      exact h.trans (sameBooks_writeDesc st.x _ _ _ _ _)

theorem wrkProcOne (x : Xfer) (id : ReqId) : OnlyCb x (Qdma.wrkProcOne x id) := by
  have hproc : OnlyCb x (qdmaDescqProcSgtRequest x id).2 := by
    unfold qdmaDescqProcSgtRequest
    split
    · exact mmProc x id
    · split
      · exact stH2cProc x id
      · exact refl x
  unfold Qdma.wrkProcOne
  dsimp only
  split
  · exact hproc.trans (reqDone _ id _)
  · exact hproc

theorem wrkProcLoop : ∀ (ids : List ReqId) (x : Xfer), OnlyCb x (Qdma.wrkProcLoop ids x) := by
  intro ids
  induction ids with
  | nil => intro x; exact refl x
  | cons id rest ih =>
      intro x
      have hone := wrkProcOne x id
      unfold Qdma.wrkProcLoop
      dsimp only
      split
      · exact hone
      · exact hone.trans (ih _)

theorem reqUpdatePendLoop :
    ∀ (ids : List ReqId) (credit : ℕ) (x : Xfer),
      OnlyCb x (Qdma.reqUpdatePendLoop ids credit x).1 := by
  intro ids
  induction ids with
  | nil => intro credit x; exact refl x
  | cons id rest ih =>
      intro credit x
      unfold Qdma.reqUpdatePendLoop
      dsimp only
      by_cases hle : (x.reqs id).cb.descNr ≤ credit
      · rw [if_pos hle]
        split
        · exact reqDone x id 0
        · exact (reqDone x id 0).trans (ih _ _)
      · rw [if_neg hle, if_pos rfl]
        exact setCb x id _

theorem checkRxLoop :
    ∀ (ids : List ReqId) (dlen : ℕ) (x : Xfer), OnlyCb x (Qdma.checkRxLoop ids dlen x) := by
  intro ids
  induction ids with
  | nil => intro dlen x; exact refl x
  | cons id rest ih =>
      intro dlen x
      unfold Qdma.checkRxLoop
      dsimp only
      split
      · exact refl x
      · exact (reqDone x id 0).trans (ih _ _)

theorem mmNH2cWb (x : Xfer) : OnlyCb x (descqMmNH2cWb x) := by
  unfold descqMmNH2cWb
  split
  · exact refl x
  · split
    · exact of_reqs rfl
    · rename_i ring _
      split
      · exact refl x
      · have hcredit := of_sameBooks (sameBooks_wbCredit x ring.wbCidx)
        have hpend : OnlyCb x (reqUpdatePend (descqWbCredit x ring.wbCidx).2
            (descqWbCredit x ring.wbCidx).1) :=
          (hcredit.trans (reqUpdatePendLoop _ _ _)).trans (of_reqs rfl)
        refine trans ?_ (of_sameBooks (sameBooks_intrCoalAdvance _))
        exact hpend.trans (of_reqs rfl)

theorem serviceWb (al : RxAllocs) (x : Xfer) : OnlyCb x (qdmaDescqServiceWb al x) := by
  unfold qdmaDescqServiceWb
  split
  · obtain ⟨y, hbooks, heq | heq⟩ := stC2hWb_cases al x
    · rw [heq]
      exact of_sameBooks hbooks
    · rw [heq]
      exact (of_sameBooks hbooks).trans (checkRxLoop _ _ _)
  · exact mmNH2cWb x

end OnlyCb

theorem pciUnmapSg_congr {x y : Xfer} {req req' : QdmaSgReq}
    (hst : y.descq.isStC2h = x.descq.isStC2h) (hreq : ∃ cb, req' = { req with cb := cb }) :
    pciUnmapSg y req' = pciUnmapSg x req := by
  obtain ⟨cb, rfl⟩ := hreq
  unfold pciUnmapSg
  rw [hst]

/-- A pass changes nothing that the test in front of `pci_unmap_sg` looks at. -/
theorem waitStep_pass_unmap {s : WaitState} {e : WaitEv} (he : e.byCaller = none) (i : ReqId) :
    pciUnmapSg (waitStep s e).x ((waitStep s e).x.reqs i) = pciUnmapSg s.x (s.x.reqs i) := by
  cases e with
  | wrkProc =>
      exact pciUnmapSg_congr (drives_threadWrkProc s.x).setup.isStC2h
        (OnlyCb.wrkProcLoop s.x.descq.workList s.x i)
  | serviceWb al =>
      exact pciUnmapSg_congr (drives_serviceWb al s.x).setup.isStC2h (OnlyCb.serviceWb al s.x i)
  | hwWb cidx => exact pciUnmapSg_congr rfl ⟨_, rfl⟩
  | hwWrb pidx mem => exact pciUnmapSg_congr rfl ⟨_, rfl⟩
  | rxRead rxq => exact pciUnmapSg_congr rfl ⟨_, rfl⟩
  | submit id req => cases he
  | enqueue id => cases he
  | test id => cases he
  | remove id => cases he
  | ret id => cases he

/-! ## The lists, whatever the callers delete -/

/-- The lists and the callers fit together; how often the callers have deleted is left out. -/
def WaitState.Listed (s : WaitState) : Prop := ∃ r, WaitInv { s with removed := r }

theorem sameBooks_listDel {x : Xfer} {id : ReqId} (hid : id ∉ x.liveIds) :
    SameBooks x (x.listDel id) := by
  have hpend : id ∉ x.descq.pendList := fun hm => hid (List.mem_append_left _ hm)
  have hwork : id ∉ x.descq.workList := fun hm => hid (List.mem_append_right _ hm)
  simp only [SameBooks, Xfer.books, Xfer.listDel, List.erase_of_not_mem hpend,
    List.erase_of_not_mem hwork]

/-- No step looks at the record of deletions. -/
theorem waitStep_removed (s : WaitState) (r : List ReqId) (e : WaitEv) :
    ∃ r', waitStep { s with removed := r } e = { waitStep s e with removed := r' } := by
  cases e with
  | submit id req =>
      refine ⟨r, ?_⟩
      simp only [waitStep, submitPart]
      split_ifs
      · rfl
      · rfl
      · rfl
      · rfl
      · rfl
  | enqueue id =>
      refine ⟨r, ?_⟩
      simp only [waitStep, submitStC2hEnqueue]
      split_ifs
      · rfl
      · rfl
  | wrkProc => exact ⟨r, rfl⟩
  | serviceWb al => exact ⟨r, rfl⟩
  | hwWb cidx => exact ⟨r, rfl⟩
  | hwWrb pidx mem => exact ⟨r, rfl⟩
  | rxRead rxq => exact ⟨r, rfl⟩
  | test id => exact ⟨r, rfl⟩
  | remove id => exact ⟨r ++ [id], rfl⟩
  | ret id => exact ⟨r, rfl⟩

/-- **One step**, also one in which a caller deletes a request that is on no list any more. -/
theorem WaitState.Listed.step {s : WaitState} (h : s.Listed) {e : WaitEv} (hg : waitGuard s e) :
    (waitStep s e).Listed := by
  obtain ⟨r, hinv⟩ := h
  have hg' : waitGuard { s with removed := r } e := by
    cases e <;> exact hg
  obtain ⟨r', heq⟩ := waitStep_removed s r e
  by_cases hok : StillPending { s with removed := r } e
  · refine ⟨r', ?_⟩
    rw [← heq]
    exact hinv.step hg' hok
  · cases e with
    | remove id =>
        have hgone : id ∉ s.x.liveIds := fun hlive => hok (hinv.undone id hlive)
        have hsame := hinv.serves (Serves.of_sameBooks (sameBooks_listDel hgone))
        have hgone' : id ∉ (s.x.listDel id).liveIds := fun hlive =>
          hgone (((Serves.of_sameBooks (sameBooks_listDel hgone)).mem_live_iff id).mpr (Or.inl hlive))
        exact ⟨r, hsame.move (c := .leaving) hgone'⟩
    | submit id req => exact absurd trivial hok
    | enqueue id => exact absurd trivial hok
    | wrkProc => exact absurd trivial hok
    | serviceWb al => exact absurd trivial hok
    | hwWb cidx => exact absurd trivial hok
    | hwWrb pidx mem => exact absurd trivial hok
    | rxRead rxq => exact absurd trivial hok
    | test id => exact absurd trivial hok
    | ret id => exact absurd trivial hok

/-! ## The invariant -/

/-- The wait is not over, and when it is the list will be unmapped. -/
def WaitState.Owes (s : WaitState) (id : ReqId) : Prop :=
  (s.caller id = .waiting ∨ s.caller id = .expired ∨ s.caller id = .leaving) ∧
    pciUnmapSg s.x (s.x.reqs id) = true

instance (s : WaitState) (id : ReqId) : Decidable (s.Owes id) :=
  inferInstanceAs (Decidable (_ ∧ _))

structure MapInv (m : MapState) : Prop where
  listed : m.w.Listed
  covered : Covered m.log
  books : ∀ id, taken m.log id =
    given m.log id + m.left.count id + (if m.w.Owes id then 1 else 0)
  returned : ∀ id, 0 < given m.log id → m.w.caller id = .back
  counted : ∀ id, m.w.caller id = .counted → m.w.x.descq.isStC2h = true

/-- What is out is owed by a caller, or was left. -/
theorem MapInv.balanced_iff {m : MapState} (h : MapInv m) :
    MapsBalanced m ↔ ∀ id ∈ m.left, ¬ m.Over id := by
  constructor
  · intro hbal id hleft hover
    have hsettled := hbal.settled id hover
    have hbooks := h.books id
    have hpos : 0 < m.left.count id := List.count_pos_iff.mpr hleft
    omega
  · intro hleft
    refine ⟨h.covered, ?_, ?_⟩
    · intro id hover
      have hbooks := h.books id
      have hzero : m.left.count id = 0 := List.count_eq_zero.mpr fun hm => hleft id hm hover
      have hpaid : ¬ m.w.Owes id := by
        rintro ⟨hc, -⟩
        rcases hover with ha | ha | ⟨ha, -⟩ <;> rw [ha] at hc <;> simp at hc
      rw [hzero, if_neg hpaid] at hbooks
      exact hbooks.symm
    · intro id hgiven
      obtain ⟨r, hinv⟩ := h.listed
      have hok := hinv.callers id
      change CallerOk m.w.x id (m.w.caller id) at hok
      rw [h.returned id hgiven] at hok
      rw [isLinked_iff]
      exact hok

theorem MapInv.init {x : Xfer} (hlive : x.liveIds = []) (hsub : x.submitted = [])
    (hdone : x.completed = []) : MapInv (MapState.init x) where
  listed := ⟨[], WaitInv.init hlive hsub hdone⟩
  covered := covered_nil
  books id := by
    have hpaid : ¬ (MapState.init x).w.Owes id := by
      rintro ⟨hc | hc | hc, -⟩ <;> cases hc
    rw [if_neg hpaid]
    rfl
  returned id h := absurd h (Nat.lt_irrefl 0)
  counted id h := by cases h

/-! ## Steps -/

/-- A step that neither maps nor unmaps. -/
theorem MapInv.quiet {m : MapState} (h : MapInv m) {w : WaitState} (hlisted : w.Listed)
    (howes : ∀ i, w.Owes i ↔ m.w.Owes i)
    (hback : ∀ i, m.w.caller i = .back → w.caller i = .back)
    (hcounted : ∀ i, w.caller i = .counted → w.x.descq.isStC2h = true) :
    MapInv { m with w := w } where
  listed := hlisted
  covered := h.covered
  books i := by
    have hbooks := h.books i
    by_cases ho : m.w.Owes i
    · rw [if_pos ho] at hbooks
      rw [if_pos ((howes i).mpr ho)]
      exact hbooks
    · rw [if_neg ho] at hbooks
      rw [if_neg fun hw => ho ((howes i).mp hw)]
      exact hbooks
  returned i hi := hback i (h.returned i hi)
  counted := hcounted

/-- What a request owes depends on its caller and on the test in front of `pci_unmap_sg`. -/
theorem owes_congr {s s' : WaitState} {i : ReqId}
    (hcaller : s'.caller i = s.caller i)
    (hreq : pciUnmapSg s'.x (s'.x.reqs i) = pciUnmapSg s.x (s.x.reqs i)) :
    s'.Owes i ↔ s.Owes i := by
  unfold WaitState.Owes
  rw [hcaller, hreq]

theorem not_owes_of_stC2h {s : WaitState} (hst : s.x.descq.isStC2h = true) (id : ReqId) :
    ¬ s.Owes id := by
  rintro ⟨-, hunmap⟩
  simp [pciUnmapSg, hst] at hunmap

theorem isStC2h_waitStep (s : WaitState) (e : WaitEv) :
    (waitStep s e).x.descq.isStC2h = s.x.descq.isStC2h := by
  cases e with
  | submit id req =>
      simp only [waitStep]
      split
      · rcases submitPart_cases s id req with heq | heq | heq
        · rw [heq]
        · rw [heq]
          rfl
        · rw [heq]
          rfl
      · rfl
  | enqueue id =>
      simp only [waitStep, submitStC2hEnqueue]
      split
      · rfl
      · rfl
  | wrkProc => exact (drives_threadWrkProc s.x).setup.isStC2h
  | serviceWb al => exact (drives_serviceWb al s.x).setup.isStC2h
  | hwWb cidx => rfl
  | hwWrb pidx mem => rfl
  | rxRead rxq => rfl
  | test id => rfl
  | remove id => rfl
  | ret id => rfl

/-- The calls of one step are about one request. -/
theorem mapBookings_other (s : WaitState) {e : WaitEv} {id i : ReqId} (hby : e.byCaller = some id)
    (hi : id ≠ i) :
    taken (mapBookings s e) i = 0 ∧ given (mapBookings s e) i = 0 ∧
      (unwaited s e).count i = 0 := by
  cases e with
  | submit id' req =>
      cases hby
      have hcount : ([id] : List ReqId).count i = 0 := by
        rw [List.count_singleton, if_neg (by simpa using hi)]
      simp only [mapBookings, unwaited]
      refine ⟨?_, ?_, ?_⟩
      · split
        · rw [taken_take, if_neg hi]
        · rfl
      · split
        · exact given_take id i
        · rfl
      · split
        · exact hcount
        · rfl
  | ret id' =>
      cases hby
      simp only [mapBookings, unwaited]
      refine ⟨?_, ?_, rfl⟩
      · split
        · exact taken_give id i
        · rfl
      · split
        · rw [given_give, if_neg hi]
        · rfl
  | enqueue id' => exact ⟨rfl, rfl, rfl⟩
  | test id' => exact ⟨rfl, rfl, rfl⟩
  | remove id' => exact ⟨rfl, rfl, rfl⟩
  | wrkProc | serviceWb | hwWb | hwWrb | rxRead => cases hby

/-- **A step of the caller of `id`**: what is left to show is about `id`. -/
theorem MapInv.called {m : MapState} (h : MapInv m) {e : WaitEv} {id : ReqId}
    (hg : waitGuard m.w e) (hby : e.byCaller = some id)
    (hcovered : Covered (m.log ++ mapBookings m.w e))
    (hbooks : taken m.log id + taken (mapBookings m.w e) id =
      given m.log id + given (mapBookings m.w e) id +
        (m.left.count id + (unwaited m.w e).count id) + (if (waitStep m.w e).Owes id then 1 else 0))
    (hret : 0 < given m.log id + given (mapBookings m.w e) id →
      (waitStep m.w e).caller id = .back)
    (hcounted : (waitStep m.w e).caller id = .counted → m.w.x.descq.isStC2h = true) :
    MapInv (mapStep m (.call e)) where
  listed := h.listed.step hg
  covered := hcovered
  books i := by
    by_cases hi : id = i
    · subst hi
      change taken (m.log ++ _) id = given (m.log ++ _) id + (m.left ++ _).count id + _
      rw [taken_append, given_append, List.count_append]
      exact hbooks
    · obtain ⟨ht, hgv, hl⟩ := mapBookings_other m.w hby hi
      obtain ⟨hcaller, hreq⟩ := waitStep_other (s := m.w) hby (Ne.symm hi)
      have howes : (waitStep m.w e).Owes i ↔ m.w.Owes i :=
        owes_congr hcaller (pciUnmapSg_congr (isStC2h_waitStep m.w e) ⟨_, hreq⟩)
      have hold := h.books i
      change taken (m.log ++ _) i = given (m.log ++ _) i + (m.left ++ _).count i +
        if (waitStep m.w e).Owes i then 1 else 0
      rw [taken_append, given_append, List.count_append, ht, hgv, hl]
      simp only [howes]
      exact hold
  returned i hi := by
    by_cases heq : id = i
    · subst heq
      change 0 < given (m.log ++ _) id at hi
      rw [given_append] at hi
      exact hret hi
    · obtain ⟨-, hgv, -⟩ := mapBookings_other m.w hby heq
      obtain ⟨hcaller, -⟩ := waitStep_other (s := m.w) hby (Ne.symm heq)
      change 0 < given (m.log ++ _) i at hi
      rw [given_append, hgv] at hi
      exact hcaller.trans (h.returned i hi)
  counted i hi := by
    change (waitStep m.w e).x.descq.isStC2h = true
    rw [isStC2h_waitStep]
    by_cases heq : id = i
    · subst heq
      exact hcounted hi
    · obtain ⟨hcaller, -⟩ := waitStep_other (s := m.w) hby (Ne.symm heq)
      exact h.counted i (hcaller.symm.trans hi)

/-- A submission in the right direction to a queue that is not streaming C2H. -/
theorem submitPart_mapped {s : WaitState} {id : ReqId} {req : QdmaSgReq}
    (hdir : ((req.write && s.x.descq.conf.c2h) || (!req.write && !s.x.descq.conf.c2h)) = false)
    (hst : s.x.descq.isStC2h = false) :
    submitPart s id req =
      if (!req.dmaMapped && decide (req.sgt.nents = 0)) = true ∨ s.x.descq.online = false then s
      else
        { s with
          x := s.x.enqueue id req
          caller := Function.update s.caller id (.queued req) } := by
  have hinval : -einval < 0 := by decide
  have hio : -eio < 0 := by decide
  have hval : qdmaSgReqSubmit s.x id req =
      if (!req.dmaMapped && decide (req.sgt.nents = 0)) = true then (-eio, s.x)
      else if s.x.descq.online = false then (-einval, s.x)
      else (0, s.x.enqueue id req) := by
    unfold qdmaSgReqSubmit
    rw [hdir, if_neg Bool.false_ne_true]
    cases s.x.descq.online <;> rfl
  unfold submitPart
  rw [hdir, hst, if_neg Bool.false_ne_true, if_neg Bool.false_ne_true, hval]
  by_cases hmap : (!req.dmaMapped && decide (req.sgt.nents = 0)) = true
  · rw [if_pos hmap, if_pos (Or.inl hmap)]
    exact if_pos hio
  · rw [if_neg hmap]
    by_cases honline : s.x.descq.online = false
    · rw [if_pos honline, if_pos (Or.inr honline)]
      exact if_pos hinval
    · have hboth : ¬ ((!req.dmaMapped && decide (req.sgt.nents = 0)) = true ∨
          s.x.descq.online = false) := fun hor => hor.elim hmap honline
      rw [if_neg honline, if_neg hboth]
      exact if_neg (lt_irrefl (0 : ℤ))

/-- The caller of a request on a list owes the mapping if it waits. -/
theorem owes_enqueue (s : WaitState) (id : ReqId) (req : QdmaSgReq)
    (hst : s.x.descq.isStC2h = false) :
    WaitState.Owes
        { s with
          x := s.x.enqueue id req
          caller := Function.update s.caller id (.queued req) } id ↔
      req.fpDone = false ∧ req.dmaMapped = false ∧ req.sgt.nents ≠ 0 := by
  have hunmap : pciUnmapSg (s.x.enqueue id req) ((s.x.enqueue id req).reqs id) =
      pciUnmapSg s.x req := by
    refine pciUnmapSg_congr rfl ⟨QdmaSgtReqCb.zero, ?_⟩
    exact Function.update_self ..
  unfold WaitState.Owes
  dsimp only
  rw [hunmap, Function.update_self]
  unfold Caller.queued pciUnmapSg
  rw [hst]
  cases req.fpDone with
  | true => simp
  | false => simp

/-- What a submission maps, its caller owes or leaves. -/
theorem submit_books {s : WaitState} {id : ReqId} (haway : s.caller id = .away)
    (req : QdmaSgReq) :
    taken (mapBookings s (.submit id req)) id =
      (unwaited s (.submit id req)).count id +
        (if (waitStep s (.submit id req)).Owes id then 1 else 0) := by
  have hno : ¬ s.Owes id := by
    rintro ⟨hc, -⟩
    rw [haway] at hc
    simp at hc
  cases hen : s.x.descq.enabled with
  | false =>
      simp only [mapBookings, unwaited, waitStep, hen, Bool.false_and, Bool.false_eq_true, if_false,
        taken_nil, List.count_nil, if_neg hno]
  | true =>
      simp only [mapBookings, unwaited, waitStep, hen, Bool.true_and, if_true]
      cases hdir : (req.write && s.x.descq.conf.c2h) || (!req.write && !s.x.descq.conf.c2h) with
      | true =>
          have hsame : submitPart s id req = s := by
            unfold submitPart
            rw [if_pos hdir]
          simp only [pciMapSg, hdir, hsame, Bool.not_true, Bool.false_and, Bool.false_eq_true,
            if_false, taken_nil, List.count_nil, if_neg hno]
      | false =>
          cases hst : s.x.descq.isStC2h with
          | true =>
              have hno' : ¬ (submitPart s id req).Owes id := by
                refine not_owes_of_stC2h ?_ id
                have hkeep := isStC2h_waitStep s (.submit id req)
                simp only [waitStep, hen, if_true] at hkeep
                rw [hkeep, hst]
              simp only [pciMapSg, hdir, hst, Bool.not_true, Bool.and_false, Bool.false_and,
                Bool.false_eq_true, if_false, taken_nil, List.count_nil, if_neg hno']
          | false =>
              have howes := owes_enqueue s id req hst
              rw [submitPart_mapped hdir hst]
              simp only [pciMapSg, hdir, hst, Bool.not_false, Bool.true_and]
              cases hmapped : req.dmaMapped with
              | true =>
                  simp only [Bool.not_true, Bool.false_and, Bool.false_eq_true, if_false, false_or,
                    taken_nil, List.count_nil]
                  cases s.x.descq.online with
                  | false => simp only [if_true, if_neg hno]
                  | true =>
                      have hgone : ¬ WaitState.Owes _ id := fun ho =>
                        Bool.noConfusion (hmapped.symm.trans (howes.mp ho).2.1)
                      simp only [Bool.true_eq_false, if_false, if_neg hgone]
              | false =>
                  by_cases hn : req.sgt.nents = 0
                  · simp only [hn, ne_eq, not_true_eq_false, decide_false, Bool.and_false,
                      Bool.false_and, Bool.false_eq_true, if_false, decide_true, Bool.not_false,
                      Bool.true_and, true_or, if_true, taken_nil, List.count_nil, if_neg hno]
                  · simp only [hn, ne_eq, not_false_eq_true, decide_true, Bool.not_false,
                      Bool.true_and, if_true, decide_false, Bool.and_false, Bool.false_eq_true,
                      false_or, taken_take]
                    cases honline : s.x.descq.online with
                    | false =>
                        simp only [Bool.not_false, Bool.or_true, if_true, if_neg hno,
                          List.count_singleton_self]
                    | true =>
                        cases hfp : req.fpDone with
                        | true =>
                            have hgone : ¬ WaitState.Owes _ id := fun ho =>
                              Bool.noConfusion (hfp.symm.trans (howes.mp ho).1)
                            simp only [Bool.true_or, if_true, Bool.true_eq_false, if_false,
                              List.count_singleton_self, if_neg hgone]
                        | false =>
                            have ho := howes.mpr ⟨hfp, hmapped, hn⟩
                            simp only [Bool.not_true, Bool.or_self, Bool.false_eq_true, if_false,
                              Bool.true_eq_false, List.count_nil, if_pos ho]

theorem waitStep_pass_caller {s : WaitState} {e : WaitEv} (he : e.byCaller = none) :
    (waitStep s e).caller = s.caller := by
  cases e with
  | wrkProc | serviceWb | hwWb | hwWrb | rxRead => rfl
  | submit | enqueue | test | remove | ret => cases he

theorem mapBookings_pass {s : WaitState} {e : WaitEv} (he : e.byCaller = none) :
    mapBookings s e = [] ∧ unwaited s e = [] := by
  cases e with
  | wrkProc | serviceWb | hwWb | hwWrb | rxRead => exact ⟨rfl, rfl⟩
  | submit | enqueue | test | remove | ret => cases he

theorem MapInv.pass {m : MapState} (h : MapInv m) {e : WaitEv} (hg : waitGuard m.w e)
    (he : e.byCaller = none) : MapInv (mapStep m (.call e)) := by
  have hcaller := waitStep_pass_caller (s := m.w) he
  obtain ⟨hlog, hleft⟩ := mapBookings_pass (s := m.w) he
  have hquiet : MapInv { m with w := waitStep m.w e } := by
    refine h.quiet (h.listed.step hg) (fun i => ?_) (fun i hi => ?_) (fun i hi => ?_)
    · exact owes_congr (congrFun hcaller i) (waitStep_pass_unmap he i)
    · rw [hcaller]
      exact hi
    · rw [hcaller] at hi
      rw [isStC2h_waitStep]
      exact h.counted i hi
  simp only [mapStep, hlog, hleft, List.append_nil]
  exact hquiet

/-- Before the call nothing has been given back. -/
theorem MapInv.given_eq_zero {m : MapState} (h : MapInv m) {id : ReqId}
    (hc : m.w.caller id ≠ .back) : given m.log id = 0 :=
  Nat.eq_zero_of_not_pos fun hpos => hc (h.returned id hpos)

theorem MapInv.submit {m : MapState} (h : MapInv m) {id : ReqId} {req : QdmaSgReq}
    (haway : m.w.caller id = .away) : MapInv (mapStep m (.call (.submit id req))) := by
  have hgiven : given (mapBookings m.w (.submit id req)) id = 0 := by
    simp only [mapBookings]
    split
    · exact given_take id id
    · rfl
  have hzero : given m.log id = 0 := h.given_eq_zero (by rw [haway]; decide)
  have hno : ¬ m.w.Owes id := by
    rintro ⟨hc, -⟩
    rw [haway] at hc
    simp at hc
  refine h.called haway rfl ?_ ?_ ?_ ?_
  · simp only [mapBookings]
    split
    · exact h.covered.take id
    · rw [List.append_nil]
      exact h.covered
  · have hbooks := h.books id
    have hsubmit := submit_books haway req
    rw [if_neg hno] at hbooks
    omega
  · intro hpos
    rw [hgiven, hzero] at hpos
    exact absurd hpos (Nat.lt_irrefl 0)
  · intro hcounted
    simp only [waitStep] at hcounted
    cases hst : m.w.x.descq.isStC2h with
    | true => rfl
    | false =>
        rcases hen : m.w.x.descq.enabled with _ | _
        · rw [hen, if_neg Bool.false_ne_true, haway] at hcounted
          cases hcounted
        · rw [hen, if_pos rfl] at hcounted
          cases hdir : (req.write && m.w.x.descq.conf.c2h) ||
              (!req.write && !m.w.x.descq.conf.c2h) with
          | true =>
              unfold submitPart at hcounted
              rw [if_pos hdir, haway] at hcounted
              cases hcounted
          | false =>
              rw [submitPart_mapped hdir hst] at hcounted
              split at hcounted
              · rw [haway] at hcounted
                cases hcounted
              · dsimp only at hcounted
                rw [Function.update_self] at hcounted
                rcases queued_cases req with hq | hq
                · rw [hq] at hcounted
                  cases hcounted
                · rw [hq] at hcounted
                  cases hcounted

/-- A step of the caller of `id` that neither maps nor unmaps, before the return. -/
theorem MapInv.moved {m : MapState} (h : MapInv m) {e : WaitEv} {id : ReqId}
    (hg : waitGuard m.w e) (hby : e.byCaller = some id) (hlog : mapBookings m.w e = [])
    (hleft : unwaited m.w e = []) (howes : (waitStep m.w e).Owes id ↔ m.w.Owes id)
    (hback : m.w.caller id ≠ .back)
    (hcounted : (waitStep m.w e).caller id = .counted → m.w.x.descq.isStC2h = true) :
    MapInv (mapStep m (.call e)) := by
  refine h.called hg hby ?_ ?_ ?_ hcounted
  · rw [hlog, List.append_nil]
    exact h.covered
  · have hbooks := h.books id
    rw [hlog, hleft]
    simp only [howes]
    exact hbooks
  · intro hpos
    rw [hlog, h.given_eq_zero hback] at hpos
    exact absurd hpos (Nat.lt_irrefl 0)

/-- The caller goes on to another point of its wait. -/
theorem owes_move {s s' : WaitState} {id : ReqId}
    (hs : s.caller id = .waiting ∨ s.caller id = .expired ∨ s.caller id = .leaving)
    (hs' : s'.caller id = .waiting ∨ s'.caller id = .expired ∨ s'.caller id = .leaving)
    (hreq : pciUnmapSg s'.x (s'.x.reqs id) = pciUnmapSg s.x (s.x.reqs id)) :
    s'.Owes id ↔ s.Owes id := by
  unfold WaitState.Owes
  rw [hreq]
  exact ⟨fun h => ⟨hs, h.2⟩, fun h => ⟨hs', h.2⟩⟩

theorem MapInv.enqueue {m : MapState} (h : MapInv m) {id : ReqId}
    (hc : m.w.caller id = .counted) : MapInv (mapStep m (.call (.enqueue id))) := by
  have hst := h.counted id hc
  have hst' : (waitStep m.w (.enqueue id)).x.descq.isStC2h = true := by
    rw [isStC2h_waitStep]
    exact hst
  refine h.moved hc rfl rfl rfl ?_ (by rw [hc]; decide) fun _ => hst
  exact iff_of_false (not_owes_of_stC2h hst' id) (not_owes_of_stC2h hst id)

theorem MapInv.test {m : MapState} (h : MapInv m) {id : ReqId}
    (hc : m.w.caller id = .waiting) : MapInv (mapStep m (.call (.test id))) := by
  have hnext : (waitStep m.w (.test id)).caller id =
      if (m.w.x.reqs id).cb.done then .leaving else .expired := Function.update_self ..
  refine h.moved hc rfl rfl rfl (owes_move (Or.inl hc) (Or.inr ?_) rfl) (by rw [hc]; decide) ?_
  · rw [hnext]
    split
    · exact Or.inr rfl
    · exact Or.inl rfl
  · intro hcounted
    rw [hnext] at hcounted
    split at hcounted <;> cases hcounted

theorem MapInv.remove {m : MapState} (h : MapInv m) {id : ReqId}
    (hc : m.w.caller id = .expired) : MapInv (mapStep m (.call (.remove id))) := by
  have hnext : (waitStep m.w (.remove id)).caller id = .leaving := Function.update_self ..
  refine h.moved hc rfl rfl rfl
    (owes_move (Or.inr (Or.inl hc)) (Or.inr (Or.inr hnext)) rfl) (by rw [hc]; decide) ?_
  intro hcounted
  rw [hnext] at hcounted
  cases hcounted

/-- The return unmaps what is owed. -/
theorem MapInv.ret {m : MapState} (h : MapInv m) {id : ReqId}
    (hc : m.w.caller id = .leaving) : MapInv (mapStep m (.call (.ret id))) := by
  have hnext : (waitStep m.w (.ret id)).caller id = .back := Function.update_self ..
  have hpaid : ¬ (waitStep m.w (.ret id)).Owes id := by
    rintro ⟨hcaller, -⟩
    rw [hnext] at hcaller
    simp at hcaller
  have howes : m.w.Owes id ↔ pciUnmapSg m.w.x (m.w.x.reqs id) = true :=
    ⟨fun h => h.2, fun hu => ⟨Or.inr (Or.inr hc), hu⟩⟩
  have hbooks := h.books id
  simp only [howes] at hbooks
  refine h.called hc rfl ?_ ?_ (fun _ => hnext) ?_
  · simp only [mapBookings]
    split
    · rename_i hunmap
      rw [if_pos hunmap] at hbooks
      exact h.covered.give (by omega)
    · rw [List.append_nil]
      exact h.covered
  · rw [if_neg hpaid]
    simp only [mapBookings, unwaited, List.count_nil]
    split
    · rename_i hunmap
      rw [if_pos hunmap] at hbooks
      rw [taken_give, given_give, if_pos rfl]
      omega
    · rename_i hunmap
      rw [if_neg hunmap] at hbooks
      rw [taken_nil, given_nil]
      exact hbooks
  · intro hcounted
    rw [hnext] at hcounted
    cases hcounted

theorem MapInv.step {m : MapState} (h : MapInv m) {e : MapEv} (hg : mapSys.guard m e) :
    MapInv (mapSys.step m e) := by
  cases e with
  | online b =>
      obtain ⟨r, hinv⟩ := h.listed
      have hsame : Serves m.w.x { m.w.x with descq := { m.w.x.descq with online := b } } [] :=
        Serves.of_sameBooks rfl
      exact h.quiet ⟨r, hinv.serves hsame⟩ (fun i => Iff.rfl) (fun i hi => hi) h.counted
  | call e =>
      have hwait : waitGuard m.w e := hg
      cases e with
      | submit id req => exact h.submit hwait
      | enqueue id => exact h.enqueue hwait
      | test id => exact h.test hwait
      | remove id => exact h.remove hwait
      | ret id => exact h.ret hwait
      | wrkProc | serviceWb | hwWb | hwWrb | rxRead => exact h.pass hwait rfl

/-! ## Runs -/

/-- A submission that maps finds the queue online and waits. -/
def Waits (m : MapState) : MapEv → Prop
  | .call e => unwaited m.w e = []
  | .online _ => True

theorem left_eq_nil (m : MapState) (e : MapEv) (h : m.left = []) (hw : Waits m e) :
    (mapSys.step m e).left = [] := by
  cases e with
  | call e =>
      change m.left ++ unwaited m.w e = []
      rw [h, hw]
      rfl
  | online b => exact h

/-- **Mappings are balanced.**  In every run, the log is as it should be in the state reached
exactly where no request whose call is over was mapped by a submission to an offline queue or
by one that does not wait; if no step of the run is such a submission there is none. -/
theorem maps_balanced_iff {x : Xfer} (hlive : x.liveIds = []) (hsub : x.submitted = [])
    (hdone : x.completed = []) (es : List MapEv) (hrun : mapSys.Admits (MapState.init x) es) :
    (MapsBalanced (mapSys.exec (MapState.init x) es) ↔
      ∀ id ∈ (mapSys.exec (MapState.init x) es).left,
        ¬ (mapSys.exec (MapState.init x) es).Over id) ∧
    ((mapSys.restrict Waits).Admits (MapState.init x) es →
      (mapSys.exec (MapState.init x) es).left = []) := by
  have hinit := MapInv.init hlive hsub hdone
  have hend := mapSys.invariant (fun _ _ h hg => MapInv.step h hg) es hinit hrun
  refine ⟨hend.balanced_iff, fun hwaits => ?_⟩
  exact (mapSys.restrict Waits).invariant (I := fun m => m.left = [])
    (fun m e h hg => left_eq_nil m e h hg.2) es rfl hwaits

/-- One request is completed, another one given up. -/
def waitedRun : List MapEv := (completedRun ++ givenUpRun).map .call

theorem maps_balanced_waited :
    let m := MapState.init (Xfer.init openQueue (fun _ => onePlaceReq) false [])
    taken (mapSys.exec m waitedRun).log 0 = 1 ∧ taken (mapSys.exec m waitedRun).log 1 = 1 ∧
      MapsBalanced (mapSys.exec m waitedRun) := by
  have h := maps_balanced_iff (x := Xfer.init openQueue (fun _ => onePlaceReq) false []) rfl rfl rfl
    waitedRun (by decide +kernel)
  refine ⟨by decide +kernel, by decide +kernel, h.1.mpr fun id hid => ?_⟩
  have hnil : (mapSys.exec (MapState.init (Xfer.init openQueue (fun _ => onePlaceReq) false []))
      waitedRun).left = [] := by decide +kernel
  rw [hnil] at hid
  cases hid

/-- The queue goes offline before the request is submitted. -/
def offlineRun : List MapEv := [.online false, .call (.submit 0 onePlaceReq)]

theorem mapping_left_offline :
    ¬ ∀ (x : Xfer), x.liveIds = [] → x.submitted = [] → x.completed = [] →
      ∀ es, mapSys.Admits (MapState.init x) es →
        MapsBalanced (mapSys.exec (MapState.init x) es) := by
  intro hall
  have h := hall (Xfer.init openQueue (fun _ => onePlaceReq) false []) rfl rfl rfl offlineRun
    (by decide +kernel)
  have hsettled := h.settled 0 (by decide +kernel)
  revert hsettled
  decide +kernel

end Qdma

import Qdma.Serve

/-!
# A request leaves its list

A submission that waits is cut at its locks.  After the wait, ended by a wakeup, the
timeout or a signal, the caller tests `cb->done` without a lock and, where it is not
set, takes its request off its list with the lock held.  In between, the worker thread
and the writeback thread can run.

A `WaitState` has the queue with its requests and, for every request, where its caller
is.  `deletions` counts the `list_del`s of a request: the ones of `qdma_sgt_req_done`
and the ones of its caller.  As long as no request is completed between its caller's
test and its caller's `list_del`, every request leaves exactly once, and what the
caller was told does not change after it has returned.
-/

namespace Qdma

open Lib

/-! ## Callers -/

/-- Where the caller of a submission is. -/
inductive Caller where
  /-- Before the call, or after one that was refused. -/
  | away
  /-- On a streaming C2H queue: the received bytes have been counted, the request is
  not on `pend_list` yet. -/
  | counted
  /-- In `wait_event_interruptible`. -/
  | waiting
  /-- The wait is over and `cb->done` was not set. -/
  | expired
  /-- Nothing is left to do but to return. -/
  | leaving
  | back
  /-- Returned without a wait: the completion is reported to `fp_done`. -/
  | detached
  deriving DecidableEq

/-- A queue, its requests and their callers; `removed` has a request as often as its
caller has deleted it from a list. -/
structure WaitState where
  x : Xfer
  caller : ReqId → Caller
  removed : List ReqId

def WaitState.init (x : Xfer) : WaitState where
  x := x
  caller _ := .away
  removed := []

/-- How often the node of a request was deleted from a list. -/
def WaitState.deletions (s : WaitState) (id : ReqId) : ℕ :=
  (s.x.completed.map (·.id)).count id + s.removed.count id

inductive WaitEv where
  | submit (id : ReqId) (req : QdmaSgReq)
  /-- The second locked part of `qdma_sg_req_submit_st_c2h`. -/
  | enqueue (id : ReqId)
  | wrkProc
  | serviceWb (al : RxAllocs)
  | hwWb (cidx : ℕ)
  | hwWrb (pidx : ℕ) (mem : ℕ → BitVec 8)
  /-- A reader copies data out and leaves `rxq`. -/
  | rxRead (rxq : StRxQueue)
  /-- The wait ends and the caller tests `cb->done`. -/
  | test (id : ReqId)
  /-- `list_del` by the caller. -/
  | remove (id : ReqId)
  | ret (id : ReqId)

/-- Where a caller goes once its request is on a list. -/
def Caller.queued (req : QdmaSgReq) : Caller := if req.fpDone then .detached else .waiting

/-- `qdma_sg_req_submit` on a streaming C2H queue, up to the first unlock: with enough
data there it goes on to the copy. -/
def submitStC2hCount (s : WaitState) (id : ReqId) (req : QdmaSgReq) : WaitState :=
  let avail := s.x.descq.rxQueue.dlen
  let offset := if req.count ≤ avail then req.count else req.count - avail
  { s with
    x := { s.x with
      reqs := Function.update s.x.reqs id
        { req with cb := { QdmaSgtReqCb.zero with offset := offset } } }
    caller := Function.update s.caller id (if req.count ≤ avail then .leaving else .counted) }

/-- The rest of it: the request goes to `pend_list` of an online queue. -/
def submitStC2hEnqueue (s : WaitState) (id : ReqId) : WaitState :=
  if s.x.descq.online then
    { s with
      x := { s.x with
        descq := { s.x.descq with pendList := s.x.descq.pendList ++ [id] }
        submitted := s.x.submitted ++ [id] }
      caller := Function.update s.caller id (.queued (s.x.reqs id)) }
  else { s with caller := Function.update s.caller id .away }

/-- `qdma_sg_req_submit` up to its first unlock. -/
def submitPart (s : WaitState) (id : ReqId) (req : QdmaSgReq) : WaitState :=
  if (req.write && s.x.descq.conf.c2h) || (!req.write && !s.x.descq.conf.c2h) then s
  else if s.x.descq.isStC2h then submitStC2hCount s id req
  else
    let r := qdmaSgReqSubmit s.x id req
    if r.1 < 0 then s
    else { s with x := r.2, caller := Function.update s.caller id (.queued req) }

def waitStep (s : WaitState) : WaitEv → WaitState
  | .submit id req => if s.x.descq.enabled then submitPart s id req else s
  | .enqueue id => submitStC2hEnqueue s id
  | .wrkProc => { s with x := qdmaThreadWrkProc s.x }
  | .serviceWb al => { s with x := qdmaDescqServiceWb al s.x }
  | .hwWb cidx => { s with x := hwWriteback s.x cidx }
  | .hwWrb pidx mem => { s with x := hwCompletion s.x pidx mem }
  | .rxRead rxq => { s with x := { s.x with descq := { s.x.descq with rxQueue := rxq } } }
  | .test id =>
      { s with
        caller := Function.update s.caller id
          (if (s.x.reqs id).cb.done then .leaving else .expired) }
  | .remove id =>
      { x := s.x.listDel id
        caller := Function.update s.caller id .leaving
        removed := s.removed ++ [id] }
  | .ret id =>
      { s with
        x := { s.x with returned := s.x.returned ++ [id] }
        caller := Function.update s.caller id .back }

/-- A request is submitted once, and a caller goes through its call in order. -/
def waitGuard (s : WaitState) : WaitEv → Prop
  | .submit id _ => s.caller id = .away
  | .enqueue id => s.caller id = .counted
  | .test id => s.caller id = .waiting
  | .remove id => s.caller id = .expired
  | .ret id => s.caller id = .leaving
  | _ => True

/-- One queue of any kind with its callers. -/
def waitSys : System WaitState WaitEv where
  step := waitStep
  guard := waitGuard

instance (s : WaitState) (e : WaitEv) : Decidable (waitGuard s e) := by
  unfold waitGuard
  split <;> infer_instance

instance decidableWaitGuard (s : WaitState) (e : WaitEv) : Decidable (waitSys.guard s e) :=
  inferInstanceAs (Decidable (waitGuard s e))

/-- The two locked parts in a row are the submission of `Restart`. -/
theorem submitStC2h_eq (s : WaitState) (id : ReqId) (req : QdmaSgReq)
    (hcount : s.x.descq.rxQueue.dlen < req.count) (honline : s.x.descq.online = true) :
    (submitStC2hEnqueue (submitStC2hCount s id req) id).x = (qdmaSgReqSubmitStC2h s.x id req).2 := by
  have hle : ¬ req.count ≤ s.x.descq.rxQueue.dlen := Nat.not_le.mpr hcount
  unfold submitStC2hEnqueue submitStC2hCount qdmaSgReqSubmitStC2h
  simp only [honline, if_neg hle, if_true, Bool.not_true, Bool.false_eq_true, if_false]

/-! ## The property -/

/-- A request that is on a list has not been deleted, one that was and is not any more
was deleted once, and no caller has returned from under its request. -/
structure LeavesOnce (s : WaitState) : Prop where
  linked : ∀ id, s.x.isLinked id → s.deletions id = 0
  left : ∀ id ∈ s.x.submitted, ¬ s.x.isLinked id → s.deletions id = 1
  back : ∀ id, s.caller id = .back → ¬ s.x.isLinked id

/-- A caller that takes its request off its list finds it not completed. -/
def StillPending (s : WaitState) : WaitEv → Prop
  | .remove id => (s.x.reqs id).cb.done = false
  | _ => True

instance decidableStillPending (s : WaitState) : ∀ e, Decidable (StillPending s e) := by
  rintro ⟨⟩ <;> dsimp only [StillPending] <;> infer_instance

instance (s : WaitState) (e : WaitEv) :
    Decidable ((waitSys.restrict StillPending).guard s e) :=
  inferInstanceAs (Decidable (waitSys.guard s e ∧ StillPending s e))

/-! ## The invariant -/

/-- What the place of a caller says about its request. -/
def CallerOk (x : Xfer) (id : ReqId) : Caller → Prop
  | .away => id ∉ x.submitted
  | .counted => id ∉ x.submitted ∧ (x.reqs id).cb.done = false
  | .waiting | .expired => id ∈ x.submitted ∧ (id ∉ x.liveIds → (x.reqs id).cb.done = true)
  | .leaving | .back => id ∉ x.liveIds
  | .detached => id ∈ x.submitted

structure WaitInv (s : WaitState) : Prop where
  nodup : s.x.liveIds.Nodup
  submitted : ∀ id ∈ s.x.liveIds, id ∈ s.x.submitted
  undone : ∀ id ∈ s.x.liveIds, (s.x.reqs id).cb.done = false
  deletions : ∀ id, s.deletions id = if id ∈ s.x.submitted ∧ id ∉ s.x.liveIds then 1 else 0
  callers : ∀ id, CallerOk s.x id (s.caller id)

theorem isLinked_iff (x : Xfer) (id : ReqId) : x.isLinked id ↔ id ∈ x.liveIds := by
  unfold Xfer.isLinked Xfer.liveIds
  rw [List.mem_append, or_comm]

theorem WaitInv.leavesOnce {s : WaitState} (h : WaitInv s) : LeavesOnce s where
  linked id hid := by
    rw [isLinked_iff] at hid
    rw [h.deletions, if_neg fun hout => hout.2 hid]
  left id hsub hid := by
    rw [isLinked_iff] at hid
    rw [h.deletions, if_pos ⟨hsub, hid⟩]
  back id hid := by
    have hok := h.callers id
    rw [hid] at hok
    rw [isLinked_iff]
    exact hok

theorem WaitInv.init {x : Xfer} (hlive : x.liveIds = []) (hsub : x.submitted = [])
    (hdone : x.completed = []) : WaitInv (WaitState.init x) where
  nodup := by
    change x.liveIds.Nodup
    rw [hlive]
    exact List.nodup_nil
  submitted id hid := by
    change id ∈ x.liveIds at hid
    rw [hlive] at hid
    cases hid
  undone id hid := by
    change id ∈ x.liveIds at hid
    rw [hlive] at hid
    cases hid
  deletions id := by
    simp only [WaitState.deletions, WaitState.init, hdone, hsub, List.map_nil, List.count_nil,
      List.not_mem_nil, false_and, if_false]
  callers id := by
    change id ∉ x.submitted
    rw [hsub]
    exact List.not_mem_nil

/-! ## A pass -/

theorem CallerOk.serves {x y : Xfer} {ds : List Completion} {id : ReqId} {c : Caller}
    (h : CallerOk x id c) (hsub : id ∈ x.liveIds → id ∈ x.submitted) (hs : Serves x y ds) :
    CallerOk y id c := by
  have hgone : id ∉ x.liveIds → id ∉ y.liveIds := fun hx hy =>
    hx ((hs.mem_live_iff id).mpr (Or.inl hy))
  cases c with
  | away =>
      change id ∉ y.submitted
      rw [hs.submitted]
      exact h
  | counted =>
      have hnot : id ∉ ds.map (·.id) := fun hd =>
        h.1 (hsub ((hs.mem_live_iff id).mpr (Or.inr hd)))
      refine ⟨by rw [hs.submitted]; exact h.1, ?_⟩
      rw [(hs.kept id hnot).1]
      exact h.2
  | waiting | expired =>
      refine ⟨by rw [hs.submitted]; exact h.1, ?_⟩
      intro hy
      by_cases hd : id ∈ ds.map (·.id)
      · exact hs.done hd
      · -- neither completed now nor on a list: it was off before
        rw [(hs.kept id hd).1]
        refine h.2 fun hx => ?_
        exact ((hs.mem_live_iff id).mp hx).elim hy hd
  | leaving | back => exact hgone h
  | detached =>
      change id ∈ y.submitted
      rw [hs.submitted]
      exact h

/-- The requests a pass completes are the ones it takes off the lists, each once. -/
theorem WaitInv.serves {s : WaitState} (h : WaitInv s) {y : Xfer} {ds : List Completion}
    (hs : Serves s.x y ds) : WaitInv { s with x := y } where
  nodup := hs.nodup h.nodup
  submitted id hid := by
    have hx := (hs.mem_live_iff id).mpr (Or.inl hid)
    have hsub := h.submitted id hx
    rw [← hs.submitted] at hsub
    exact hsub
  undone id hid := by
    have hx := (hs.mem_live_iff id).mpr (Or.inl hid)
    exact (hs.kept id (hs.notMem_of_live h.nodup hid)).1.trans (h.undone id hx)
  deletions id := by
    have hcount := h.deletions id
    have hnodup := hs.nodup_append h.nodup
    simp only [WaitState.deletions] at hcount ⊢
    rw [hs.completed, List.map_append, List.count_append, hs.submitted]
    by_cases hd : id ∈ ds.map (·.id)
    · have hx : id ∈ s.x.liveIds := (hs.mem_live_iff id).mpr (Or.inr hd)
      have hy : id ∉ y.liveIds := fun hy => hs.notMem_of_live h.nodup hy hd
      have hone : (ds.map (·.id)).count id = 1 :=
        List.count_eq_one_of_mem (List.nodup_append.mp hnodup).2.1 hd
      rw [if_neg fun hout => hout.2 hx] at hcount
      rw [if_pos ⟨h.submitted id hx, hy⟩, hone]
      omega
    · have hzero : (ds.map (·.id)).count id = 0 := List.count_eq_zero.mpr hd
      have hiff : id ∈ s.x.liveIds ↔ id ∈ y.liveIds := by
        rw [hs.mem_live_iff id]
        exact or_iff_left hd
      rw [hzero, Nat.add_zero, hcount]
      simp only [hiff]
  callers id := (h.callers id).serves (h.submitted id) hs

/-! ## The steps of a caller -/

/-- A caller moves and nothing else happens. -/
theorem WaitInv.move {s : WaitState} (h : WaitInv s) {id : ReqId} {c : Caller}
    (hc : CallerOk s.x id c) : WaitInv { s with caller := Function.update s.caller id c } where
  nodup := h.nodup
  submitted := h.submitted
  undone := h.undone
  deletions := h.deletions
  callers i := by
    change CallerOk s.x i (Function.update s.caller id c i)
    by_cases hi : i = id
    · subst hi
      rw [Function.update_self]
      exact hc
    · rw [Function.update_of_ne hi]
      exact h.callers i

/-- A request that is on no list yet gets its control block. -/
theorem WaitInv.setReq {s : WaitState} (h : WaitInv s) {id : ReqId} {req : QdmaSgReq}
    (hid : id ∉ s.x.submitted) (hreq : req.cb.done = false) :
    WaitInv { s with x := { s.x with reqs := Function.update s.x.reqs id req } } where
  nodup := h.nodup
  submitted := h.submitted
  undone i hi := by
    have hne : i ≠ id := fun heq => hid (heq ▸ h.submitted i hi)
    change (Function.update s.x.reqs id req i).cb.done = false
    rw [Function.update_of_ne hne]
    exact h.undone i hi
  deletions := h.deletions
  callers i := by
    have hok := h.callers i
    change CallerOk s.x i (s.caller i) at hok
    change CallerOk { s.x with reqs := Function.update s.x.reqs id req } i (s.caller i)
    cases hcaller : s.caller i with
    | away => rw [hcaller] at hok; exact hok
    | counted =>
        rw [hcaller] at hok
        refine ⟨hok.1, ?_⟩
        change (Function.update s.x.reqs id req i).cb.done = false
        by_cases hi : i = id
        · subst hi
          rw [Function.update_self]
          exact hreq
        · rw [Function.update_of_ne hi]
          exact hok.2
    | waiting | expired =>
        rw [hcaller] at hok
        have hne : i ≠ id := fun heq => hid (heq ▸ hok.1)
        refine ⟨hok.1, fun hlive => ?_⟩
        change (Function.update s.x.reqs id req i).cb.done = true
        rw [Function.update_of_ne hne]
        exact hok.2 hlive
    | leaving | back => rw [hcaller] at hok; exact hok
    | detached => rw [hcaller] at hok; exact hok

/-- A request goes to the end of one of the lists. -/
theorem WaitInv.link {s : WaitState} (h : WaitInv s) {id : ReqId} {work pend : List ReqId}
    (hid : id ∉ s.x.submitted) (hundone : (s.x.reqs id).cb.done = false)
    (hlive : (pend ++ work).Perm (id :: s.x.liveIds)) {c : Caller}
    (hc : c = .waiting ∨ c = .detached) :
    WaitInv
      { s with
        x := { s.x with
          descq := { s.x.descq with workList := work, pendList := pend }
          submitted := s.x.submitted ++ [id] }
        caller := Function.update s.caller id c } := by
  have hfresh : id ∉ s.x.liveIds := fun hm => hid (h.submitted id hm)
  have hmem : ∀ i, i ∈ pend ++ work ↔ i = id ∨ i ∈ s.x.liveIds := fun i => by
    rw [hlive.mem_iff, List.mem_cons]
  refine ⟨?_, ?_, ?_, ?_, ?_⟩
  · exact hlive.nodup_iff.mpr (List.nodup_cons.mpr ⟨hfresh, h.nodup⟩)
  · intro i hi
    rcases (hmem i).mp hi with rfl | hi
    · exact List.mem_append_right _ (List.mem_singleton_self _)
    · exact List.mem_append_left _ (h.submitted i hi)
  · intro i hi
    rcases (hmem i).mp hi with rfl | hi
    · exact hundone
    · exact h.undone i hi
  · intro i
    have hcount := h.deletions i
    change s.deletions i = if i ∈ s.x.submitted ++ [id] ∧ i ∉ pend ++ work then 1 else 0
    rw [hcount]
    simp only [hmem, List.mem_append, List.mem_singleton]
    by_cases hi : i = id
    · subst hi
      rw [if_neg fun hout => hid hout.1, if_neg fun hout => hout.2 (Or.inl rfl)]
    · simp only [hi, or_false, false_or]
  · intro i
    by_cases hi : i = id
    · subst hi
      change CallerOk _ i (Function.update s.caller i c i)
      rw [Function.update_self]
      have hsub : i ∈ s.x.submitted ++ [i] := List.mem_append_right _ (List.mem_singleton_self _)
      rcases hc with rfl | rfl
      · exact ⟨hsub, fun hout => absurd ((hmem i).mpr (Or.inl rfl)) hout⟩
      · exact hsub
    · change CallerOk _ i (Function.update s.caller id c i)
      rw [Function.update_of_ne hi]
      have hok := h.callers i
      have hlist : i ∈ pend ++ work ↔ i ∈ s.x.liveIds := (hmem i).trans (or_iff_right hi)
      have hsub : i ∈ s.x.submitted ++ [id] ↔ i ∈ s.x.submitted := by
        rw [List.mem_append, List.mem_singleton]
        exact or_iff_left hi
      cases hcaller : s.caller i with
      | away =>
          rw [hcaller] at hok
          exact fun hm => hok (hsub.mp hm)
      | counted =>
          rw [hcaller] at hok
          exact ⟨fun hm => hok.1 (hsub.mp hm), hok.2⟩
      | waiting | expired =>
          rw [hcaller] at hok
          exact ⟨hsub.mpr hok.1, fun hout => hok.2 fun hm => hout (hlist.mpr hm)⟩
      | leaving | back =>
          rw [hcaller] at hok
          exact fun hm => hok (hlist.mp hm)
      | detached =>
          rw [hcaller] at hok
          exact hsub.mpr hok

/-- The caller takes its request off its list; it is still there. -/
theorem WaitInv.remove {s : WaitState} (h : WaitInv s) {id : ReqId} (hid : id ∈ s.x.liveIds) :
    WaitInv
      { x := s.x.listDel id
        caller := Function.update s.caller id .leaving
        removed := s.removed ++ [id] } := by
  have hlive : (s.x.listDel id).liveIds = s.x.liveIds.erase id :=
    erase_append_erase h.nodup id
  have hgone : id ∉ (s.x.listDel id).liveIds := by
    rw [hlive]
    exact fun hm => h.nodup.not_mem_erase hm
  have hmem : ∀ i ≠ id, (i ∈ (s.x.listDel id).liveIds ↔ i ∈ s.x.liveIds) := fun i hi => by
    rw [hlive, List.mem_erase_of_ne hi]
  refine ⟨?_, ?_, ?_, ?_, ?_⟩
  · rw [hlive]
    exact h.nodup.erase id
  · intro i hi
    rw [hlive] at hi
    exact h.submitted i (List.mem_of_mem_erase hi)
  · intro i hi
    rw [hlive] at hi
    exact h.undone i (List.mem_of_mem_erase hi)
  · intro i
    have hcount := h.deletions i
    change (s.x.completed.map (·.id)).count i + (s.removed ++ [id]).count i =
      if i ∈ s.x.submitted ∧ i ∉ (s.x.listDel id).liveIds then 1 else 0
    simp only [WaitState.deletions] at hcount
    rw [List.count_append]
    by_cases hi : i = id
    · subst hi
      rw [if_neg fun hout => hout.2 hid] at hcount
      rw [if_pos ⟨h.submitted i hid, hgone⟩, List.count_singleton_self]
      omega
    · rw [List.count_singleton, if_neg (by simpa using Ne.symm hi), Nat.add_zero, hcount]
      simp only [hmem i hi]
  · intro i
    change CallerOk (s.x.listDel id) i (Function.update s.caller id .leaving i)
    by_cases hi : i = id
    · subst hi
      rw [Function.update_self]
      exact hgone
    · rw [Function.update_of_ne hi]
      have hok := h.callers i
      cases hcaller : s.caller i with
      | away | counted => rw [hcaller] at hok; exact hok
      | waiting | expired =>
          rw [hcaller] at hok
          exact ⟨hok.1, fun hout => hok.2 fun hm => hout ((hmem i hi).mpr hm)⟩
      | leaving | back =>
          rw [hcaller] at hok
          exact fun hm => hok ((hmem i hi).mp hm)
      | detached => rw [hcaller] at hok; exact hok

theorem queued_cases (req : QdmaSgReq) :
    Caller.queued req = .waiting ∨ Caller.queued req = .detached := by
  unfold Caller.queued
  split
  · exact Or.inr rfl
  · exact Or.inl rfl

theorem qdmaSgReqSubmit_rv (x : Xfer) (id : ReqId) (req : QdmaSgReq) :
    (qdmaSgReqSubmit x id req).1 < 0 ∨ qdmaSgReqSubmit x id req = (0, x.enqueue id req) := by
  have hinval : -einval < 0 := by decide
  have hio : -eio < 0 := by decide
  unfold qdmaSgReqSubmit
  split_ifs with hdir hmap honline
  · exact Or.inl hinval
  · exact Or.inl hio
  · exact Or.inl hinval
  · exact Or.inr rfl

/-- A submission is refused, or the request gets its control block and goes on. -/
theorem submitPart_cases (s : WaitState) (id : ReqId) (req : QdmaSgReq) :
    submitPart s id req = s ∨ submitPart s id req = submitStC2hCount s id req ∨
      submitPart s id req =
        { s with
          x := s.x.enqueue id req
          caller := Function.update s.caller id (.queued req) } := by
  unfold submitPart
  split
  · exact Or.inl rfl
  · split
    · exact Or.inr (Or.inl rfl)
    · dsimp only
      rcases qdmaSgReqSubmit_rv s.x id req with hneg | heq
      · rw [if_pos hneg]
        exact Or.inl rfl
      · rw [heq]
        exact Or.inr (Or.inr (if_neg (lt_irrefl 0)))

theorem WaitInv.submit {s : WaitState} (h : WaitInv s) {id : ReqId} {req : QdmaSgReq}
    (haway : s.caller id = .away) : WaitInv (submitPart s id req) := by
  have hid : CallerOk s.x id .away := by
    rw [← haway]
    exact h.callers id
  rcases submitPart_cases s id req with heq | heq | heq
  · rw [heq]
    exact h
  · rw [heq]
    refine WaitInv.move (s := { s with x := _ }) (h.setReq hid rfl) ?_
    split
    · exact fun hm => hid (h.submitted id hm)
    · refine ⟨hid, ?_⟩
      change (Function.update s.x.reqs id _ id).cb.done = false
      rw [Function.update_self]
      rfl
  · rw [heq]
    refine (h.setReq hid rfl).link hid ?_ ?_ (queued_cases req)
    · change (Function.update s.x.reqs id _ id).cb.done = false
      rw [Function.update_self]
      rfl
    · change (s.x.descq.pendList ++ (s.x.descq.workList ++ [id])).Perm (id :: s.x.liveIds)
      rw [← List.append_assoc]
      exact List.perm_append_singleton id _

theorem WaitInv.enqueue {s : WaitState} (h : WaitInv s) {id : ReqId}
    (hcounted : s.caller id = .counted) : WaitInv (submitStC2hEnqueue s id) := by
  obtain ⟨hid, hundone⟩ : CallerOk s.x id .counted := by
    rw [← hcounted]
    exact h.callers id
  unfold submitStC2hEnqueue
  split
  · refine h.link hid hundone ?_ (queued_cases _)
    rw [List.append_assoc]
    exact List.perm_middle
  · exact h.move hid

/-! ## Runs -/

theorem serves_hwWriteback (x : Xfer) (cidx : ℕ) : Serves x (hwWriteback x cidx) [] :=
  Serves.of_sameBooks rfl

theorem serves_hwCompletion (x : Xfer) (pidx : ℕ) (mem : ℕ → BitVec 8) :
    Serves x (hwCompletion x pidx mem) [] :=
  Serves.of_sameBooks rfl

theorem serves_rxRead (x : Xfer) (rxq : StRxQueue) :
    Serves x { x with descq := { x.descq with rxQueue := rxq } } [] :=
  Serves.of_sameBooks rfl

/-- An event is a step of one caller or a pass over the requests. -/
def WaitEv.byCaller : WaitEv → Option ReqId
  | .submit id _ | .enqueue id | .test id | .remove id | .ret id => some id
  | _ => none

theorem waitStep_pass {s : WaitState} (h : WaitInv s) {e : WaitEv} (he : e.byCaller = none) :
    ∃ y ds, waitStep s e = { s with x := y } ∧ Serves s.x y ds := by
  cases e with
  | wrkProc =>
      obtain ⟨ds, hs⟩ := serves_threadWrkProc h.nodup
      exact ⟨_, ds, rfl, hs⟩
  | serviceWb al =>
      obtain ⟨ds, hs⟩ := serves_serviceWb h.nodup al
      exact ⟨_, ds, rfl, hs⟩
  | hwWb cidx => exact ⟨_, [], rfl, serves_hwWriteback s.x cidx⟩
  | hwWrb pidx mem => exact ⟨_, [], rfl, serves_hwCompletion s.x pidx mem⟩
  | rxRead rxq => exact ⟨_, [], rfl, serves_rxRead s.x rxq⟩
  | submit id req => cases he
  | enqueue id => cases he
  | test id => cases he
  | remove id => cases he
  | ret id => cases he

theorem WaitInv.step {s : WaitState} {e : WaitEv} (h : WaitInv s) (hg : waitGuard s e)
    (hok : StillPending s e) : WaitInv (waitStep s e) := by
  cases hby : e.byCaller with
  | none =>
      obtain ⟨y, ds, heq, hs⟩ := waitStep_pass h hby
      rw [heq]
      exact h.serves hs
  | some i =>
      cases e with
      | submit id req =>
          simp only [waitStep]
          split
          · exact h.submit hg
          · exact h
      | enqueue id => exact h.enqueue hg
      | test id =>
          obtain ⟨hsub, hgone⟩ : CallerOk s.x id .waiting := by
            have hcaller : s.caller id = .waiting := hg
            rw [← hcaller]
            exact h.callers id
          refine h.move ?_
          split
          · rename_i hdone
            intro hlive
            rw [h.undone id hlive] at hdone
            cases hdone
          · exact ⟨hsub, hgone⟩
      | remove id =>
          obtain ⟨hsub, hgone⟩ : CallerOk s.x id .expired := by
            have hcaller : s.caller id = .expired := hg
            rw [← hcaller]
            exact h.callers id
          have hundone : (s.x.reqs id).cb.done = false := hok
          refine h.remove (by_contra fun hout => ?_)
          rw [hgone hout] at hundone
          cases hundone
      | ret id =>
          have hleft : CallerOk s.x id .leaving := by
            have hcaller : s.caller id = .leaving := hg
            rw [← hcaller]
            exact h.callers id
          have hmoved := h.move (c := .back) hleft
          exact ⟨hmoved.nodup, hmoved.submitted, hmoved.undone, hmoved.deletions, hmoved.callers⟩
      | wrkProc => cases hby
      | serviceWb al => cases hby
      | hwWb cidx => cases hby
      | hwWrb pidx mem => cases hby
      | rxRead rxq => cases hby

/-- What the caller of a blocking submission was told. -/
def WaitState.told (s : WaitState) (id : ReqId) : Bool × ℤ :=
  ((s.x.reqs id).cb.done, (s.x.reqs id).cb.status)

/-- A caller that has returned takes no further step. -/
theorem byCaller_ne {s : WaitState} {e : WaitEv} {id i : ReqId} (hback : s.caller id = .back)
    (hg : waitGuard s e) (hby : e.byCaller = some i) : i ≠ id := by
  rintro rfl
  cases e with
  | submit i' req => cases hby; exact absurd (hback.symm.trans hg) (by decide)
  | enqueue i' => cases hby; exact absurd (hback.symm.trans hg) (by decide)
  | test i' => cases hby; exact absurd (hback.symm.trans hg) (by decide)
  | remove i' => cases hby; exact absurd (hback.symm.trans hg) (by decide)
  | ret i' => cases hby; exact absurd (hback.symm.trans hg) (by decide)
  | wrkProc | serviceWb | hwWb | hwWrb | rxRead => cases hby

/-- The step of another caller. -/
theorem waitStep_other {s : WaitState} {e : WaitEv} {id i : ReqId} (hby : e.byCaller = some i)
    (hne : id ≠ i) :
    (waitStep s e).caller id = s.caller id ∧ (waitStep s e).x.reqs id = s.x.reqs id := by
  cases e with
  | submit i' req =>
      cases hby
      simp only [waitStep]
      split
      · rcases submitPart_cases s i req with heq | heq | heq
        · rw [heq]
          exact ⟨rfl, rfl⟩
        · rw [heq]
          exact ⟨Function.update_of_ne hne _ _, Function.update_of_ne hne _ _⟩
        · rw [heq]
          exact ⟨Function.update_of_ne hne _ _, Function.update_of_ne hne _ _⟩
      · exact ⟨rfl, rfl⟩
  | enqueue i' =>
      cases hby
      simp only [waitStep, submitStC2hEnqueue]
      split
      · exact ⟨Function.update_of_ne hne _ _, rfl⟩
      · exact ⟨Function.update_of_ne hne _ _, rfl⟩
  | test i' => cases hby; exact ⟨Function.update_of_ne hne _ _, rfl⟩
  | remove i' => cases hby; exact ⟨Function.update_of_ne hne _ _, rfl⟩
  | ret i' => cases hby; exact ⟨Function.update_of_ne hne _ _, rfl⟩
  | wrkProc | serviceWb | hwWb | hwWrb | rxRead => cases hby

/-- After the return nothing changes what the caller was told. -/
theorem WaitInv.told_step {s : WaitState} {e : WaitEv} {id : ReqId} (h : WaitInv s)
    (hg : waitGuard s e) (hback : s.caller id = .back) :
    (waitStep s e).caller id = .back ∧ (waitStep s e).told id = s.told id := by
  cases hby : e.byCaller with
  | none =>
      obtain ⟨y, ds, heq, hs⟩ := waitStep_pass h hby
      have hgone : CallerOk s.x id .back := by
        rw [← hback]
        exact h.callers id
      have hnot : id ∉ ds.map (·.id) := fun hd => hgone ((hs.mem_live_iff id).mpr (Or.inr hd))
      obtain ⟨hdone, hstatus⟩ := hs.kept id hnot
      rw [heq]
      exact ⟨hback, Prod.ext hdone hstatus⟩
  | some i =>
      have hne := byCaller_ne hback hg hby
      obtain ⟨hcaller, hreq⟩ := waitStep_other (s := s) hby hne.symm
      refine ⟨hcaller.trans hback, ?_⟩
      unfold WaitState.told
      rw [hreq]

/-- **A request leaves its list once.**  On a queue of any kind, in every run in which
no request is completed between the test and the removal by its caller, every request
is deleted from its lists exactly once, and the status and the done flag that a caller
found are there for good. -/
theorem request_leaves_once (d : QdmaDescq) (hwork : d.workList = []) (hpend : d.pendList = [])
    (reqs : ReqId → QdmaSgReq) (intrCoalEn : Bool) (coals : List IntrCoalConf)
    (es fs : List WaitEv)
    (hrun : (waitSys.restrict StillPending).Admits
      (WaitState.init (Xfer.init d reqs intrCoalEn coals)) (es ++ fs)) :
    LeavesOnce (waitSys.exec (WaitState.init (Xfer.init d reqs intrCoalEn coals)) (es ++ fs)) ∧
    ∀ id,
      (waitSys.exec (WaitState.init (Xfer.init d reqs intrCoalEn coals)) es).caller id = .back →
      (waitSys.exec (WaitState.init (Xfer.init d reqs intrCoalEn coals)) (es ++ fs)).told id =
        (waitSys.exec (WaitState.init (Xfer.init d reqs intrCoalEn coals)) es).told id := by
  have hinit : WaitInv (WaitState.init (Xfer.init d reqs intrCoalEn coals)) := by
    refine WaitInv.init ?_ rfl rfl
    change d.pendList ++ d.workList = []
    rw [hwork, hpend]
    rfl
  generalize WaitState.init (Xfer.init d reqs intrCoalEn coals) = s at hinit hrun ⊢
  have hstep : ∀ s e, WaitInv s → (waitSys.restrict StillPending).guard s e →
      WaitInv (waitSys.step s e) := fun s e h hg => h.step hg.1 hg.2
  refine ⟨((waitSys.restrict StillPending).invariant hstep _ hinit hrun).leavesOnce, ?_⟩
  intro id hback
  obtain ⟨hbefore, hafter⟩ := ((waitSys.restrict StillPending).admits_append s es fs).mp hrun
  have hmid : WaitInv (waitSys.exec s es) :=
    (waitSys.restrict StillPending).invariant hstep es hinit hbefore
  have hsplit : waitSys.exec s (es ++ fs) = waitSys.exec (waitSys.exec s es) fs :=
    List.foldl_append
  have hafter' : (waitSys.restrict StillPending).Admits (waitSys.exec s es) fs := hafter
  rw [hsplit]
  generalize waitSys.exec s es = m at hmid hback hafter' ⊢
  have hkept := (waitSys.restrict StillPending).invariant
    (I := fun t => WaitInv t ∧ t.caller id = .back ∧ t.told id = m.told id)
    (fun t e ht hg => by
      obtain ⟨hinv, hcaller, htold⟩ := ht
      obtain ⟨hcaller', htold'⟩ := hinv.told_step hg.1 hcaller
      exact ⟨hinv.step hg.1 hg.2, hcaller', htold'.trans htold⟩)
    fs ⟨hmid, hback, rfl⟩ hafter'
  exact hkept.2.2

/-- The queue a caller can submit to. -/
def openQueue : QdmaDescq := { h2cQueue false with enabled := true }

/-- One request is completed and its caller returns; -/
def completedRun : List WaitEv :=
  [.submit 0 onePlaceReq, .wrkProc, .hwWb 1, .serviceWb noAllocs, .test 0, .ret 0]

/-- the caller of another gives up. -/
def givenUpRun : List WaitEv := [.submit 1 onePlaceReq, .wrkProc, .test 1, .remove 1, .ret 1]

theorem request_leaves_once_two :
    let s := WaitState.init (Xfer.init openQueue (fun _ => onePlaceReq) false [])
    (waitSys.exec s (completedRun ++ givenUpRun)).x.submitted = [0, 1] ∧
      (waitSys.exec s completedRun).told 0 = (true, 0) ∧
      LeavesOnce (waitSys.exec s (completedRun ++ givenUpRun)) ∧
      (waitSys.exec s (completedRun ++ givenUpRun)).told 0 = (waitSys.exec s completedRun).told 0 := by
  have h := request_leaves_once openQueue rfl rfl (fun _ => onePlaceReq) false [] completedRun
    givenUpRun (by decide +kernel)
  exact ⟨by decide +kernel, by decide +kernel, h.1, h.2 0 (by decide +kernel)⟩

/-- The caller finds its request not done; before it has the lock the request is
completed, and both delete its node. -/
def windowRun : List WaitEv :=
  [.submit 0 onePlaceReq, .wrkProc, .hwWb 1, .test 0, .serviceWb noAllocs, .remove 0]

theorem request_deleted_twice :
    ¬ ∀ (d : QdmaDescq) (reqs : ReqId → QdmaSgReq) (intrCoalEn : Bool)
      (coals : List IntrCoalConf) (es : List WaitEv), d.workList = [] → d.pendList = [] →
      waitSys.Admits (WaitState.init (Xfer.init d reqs intrCoalEn coals)) es →
      LeavesOnce (waitSys.exec (WaitState.init (Xfer.init d reqs intrCoalEn coals)) es) := by
  intro hall
  have h := hall openQueue (fun _ => onePlaceReq) false [] windowRun rfl rfl (by decide +kernel)
  have hone := h.left 0 (by decide +kernel) (by decide +kernel)
  have htwo : (waitSys.exec (WaitState.init (Xfer.init openQueue (fun _ => onePlaceReq) false []))
      windowRun).deletions 0 = 2 := by decide +kernel
  omega

end Qdma

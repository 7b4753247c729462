import Qdma.FlIndex
import Qdma.Leave

/-!
# The wakeup of a streaming reader

A reader of a streaming C2H queue looks at `rxq->dlen` in one critical section and puts
its request on `pend_list` in another.  `descq_st_c2h_wb` looks at `pend_list` only in a
pass that has consumed a completion entry.  The bytes that arrive between the two
sections are therefore never announced to the reader: its request stays at the head of
the list although the receive queue has what it needs.

* `Woken` is what `check_rx_request_completed` does to a list of waiting requests.
* `NotStranded` is the property, of every error-free pass.
* `AsksInTime` is when it holds: a request is put on the empty list while it still needs
  more than is there, or while an entry is there that the next pass will consume.
-/

namespace Qdma

open Lib

/-! ## The check -/

/-- What a waiting request was found to lack. -/
def Xfer.needs (x : Xfer) (id : ReqId) : ℕ := (x.reqs id).cb.offset

/-- The requests `ds` in front of `rest` are completed: together they need no more than
`dlen`, with the next one they would. -/
structure Woken (dlen : ℕ) (x y : Xfer) (ds rest : List ReqId) : Prop where
  fits : (ds.map x.needs).sum ≤ dlen
  short : ∀ id ∈ rest.head?, dlen < (ds.map x.needs).sum + x.needs id
  pendList : y.descq.pendList = rest
  workList : x.descq.workList = [] → y.descq.workList = []
  rxQueue : y.descq.rxQueue = x.descq.rxQueue
  kept : ∀ id ∉ ds, y.reqs id = x.reqs id
  done : ∀ id ∈ ds, (y.reqs id).cb.done = true
  asked : ∀ id, (y.reqs id).count = (x.reqs id).count ∧ (y.reqs id).sgt = (x.reqs id).sgt

theorem Woken.refl {x : Xfer} {dlen : ℕ} {rest : List ReqId} (hpend : x.descq.pendList = rest)
    (hshort : ∀ id ∈ rest.head?, dlen < x.needs id) : Woken dlen x x [] rest where
  fits := Nat.zero_le _
  short id hid := by
    rw [List.map_nil, List.sum_nil, Nat.zero_add]
    exact hshort id hid
  pendList := hpend
  workList h := h
  rxQueue := rfl
  kept _ _ := rfl
  done id hid := by cases hid
  asked _ := ⟨rfl, rfl⟩

/-- One more in front. -/
theorem Woken.cons {x y : Xfer} {dlen : ℕ} {id : ReqId} {ds rest : List ReqId}
    (hpend : x.descq.pendList = id :: (ds ++ rest)) (hnodup : (id :: ds).Nodup)
    (hid : id ∉ rest) (hle : x.needs id ≤ dlen)
    (h : Woken (dlen - x.needs id) (qdmaSgtReqDone x id 0) y ds rest) :
    Woken dlen x y (id :: ds) rest := by
  have hnot : id ∉ ds := (List.nodup_cons.mp hnodup).1
  have hreq : ∀ i ≠ id, (qdmaSgtReqDone x id 0).reqs i = x.reqs i :=
    fun i hi => reqDone_reqs_of_ne 0 hi
  have hneeds : ∀ i ≠ id, (qdmaSgtReqDone x id 0).needs i = x.needs i := by
    intro i hi
    unfold Xfer.needs
    rw [hreq i hi]
  have hmap : ds.map (qdmaSgtReqDone x id 0).needs = ds.map x.needs :=
    List.map_congr_left fun i hi => hneeds i fun heq => hnot (heq ▸ hi)
  have hfits := h.fits
  have hshort := h.short
  rw [hmap] at hfits hshort
  refine ⟨?_, ?_, h.pendList, ?_, h.rxQueue, ?_, ?_, ?_⟩
  · rw [List.map_cons, List.sum_cons]
    omega
  · intro i hi
    have hne : i ≠ id := fun heq => hid (heq ▸ List.mem_of_mem_head? hi)
    have hlt := hshort i hi
    rw [hneeds i hne] at hlt
    rw [List.map_cons, List.sum_cons]
    omega
  · intro hwork
    refine h.workList ?_
    change x.descq.workList.erase id = []
    rw [hwork]
    rfl
  · intro i hi
    rw [List.mem_cons, not_or] at hi
    rw [h.kept i hi.2, hreq i hi.1]
  · intro i hi
    rcases List.mem_cons.mp hi with rfl | hi
    · rw [h.kept i hnot]
      simp only [qdmaSgtReqDone, Xfer.setCb, Xfer.listDel, Function.update_self]
    · exact h.done i hi
  · intro i
    obtain ⟨hcount, hsgt⟩ := h.asked i
    by_cases hi : i = id
    · subst hi
      have hself : (qdmaSgtReqDone x i 0).reqs i = _ := Function.update_self ..
      rw [hcount, hsgt, hself]
      exact ⟨rfl, rfl⟩
    · rw [hcount, hsgt, hreq i hi]
      exact ⟨rfl, rfl⟩

/-- **The loop of `check_rx_request_completed`** completes requests from the front of the
list. -/
theorem woken_checkRxLoop :
    ∀ (ids : List ReqId) (dlen : ℕ) {x : Xfer}, x.descq.pendList = ids → ids.Nodup →
      ∃ ds rest, ids = ds ++ rest ∧ Woken dlen x (checkRxLoop ids dlen x) ds rest := by
  intro ids
  induction ids with
  | nil =>
      intro dlen x hpend _
      exact ⟨[], [], rfl, Woken.refl hpend fun id hid => by cases hid⟩
  | cons id ids ih =>
      intro dlen x hpend hnodup
      unfold checkRxLoop
      dsimp only
      split
      · rename_i hlt
        refine ⟨[], id :: ids, rfl, Woken.refl hpend ?_⟩
        intro i hi
        cases hi
        exact hlt
      · rename_i hge
        have hrest : (qdmaSgtReqDone x id 0).descq.pendList = ids := by
          change x.descq.pendList.erase id = ids
          rw [hpend, List.erase_cons_head]
        obtain ⟨ds, rest, rfl, hwoken⟩ :=
          ih (dlen - x.needs id) hrest (List.nodup_cons.mp hnodup).2
        obtain ⟨hid, hids⟩ := List.nodup_cons.mp hnodup
        rw [List.mem_append, not_or] at hid
        refine ⟨id :: ds, rest, rfl, hwoken.cons hpend ?_ hid.2 (Nat.le_of_not_lt hge)⟩
        exact List.nodup_cons.mpr ⟨hid.1, (List.nodup_append.mp hids).1⟩

theorem woken_checkRx {x : Xfer} (hnodup : x.descq.pendList.Nodup) :
    ∃ ds rest, x.descq.pendList = ds ++ rest ∧
      Woken x.descq.rxQueue.dlen x (checkRxRequestCompleted x) ds rest :=
  woken_checkRxLoop _ _ rfl hnodup

/-! ## Runs -/

/-- The completion entries that wait for the next pass. -/
def QdmaDescq.wrbWaiting (d : QdmaDescq) : ℕ := (d.descWrb.map d.unread).getD 0

/-- The hardware adds entries, and a reader takes bytes out of the receive queue. -/
def Receives (s : WaitState) : WaitEv → Prop
  | .hwWrb pidx _ =>
      pidx < s.x.descq.rngszWrb ∧
        s.x.descq.wrbWaiting ≤ Cyclic.gap s.x.descq.rngszWrb pidx s.x.descq.cidxWrb
  | .rxRead rxq => rxq.dlen ≤ s.x.descq.rxQueue.dlen
  | _ => True

/-- The callers of a queue that receives. -/
def rxWaitSys : System WaitState WaitEv := waitSys.restrict Receives

/-- Behind an error-free pass the first waiting request needs more than the receive queue
holds. -/
def NotStranded (s : WaitState) (e : WaitEv) (s' : WaitState) : Prop :=
  match e with
  | .serviceWb al =>
      (descqStC2hWb al s.x).1 = 0 →
        ∀ id ∈ s'.x.descq.pendList.head?, s'.x.descq.rxQueue.dlen < s'.x.needs id
  | _ => True

/-- The request needs more than is there, or the next pass has an entry to consume. -/
def Xfer.Announced (x : Xfer) (id : ReqId) : Prop :=
  x.descq.rxQueue.dlen < x.needs id ∨ 0 < x.descq.wrbWaiting

/-- A request goes to the empty list, and a pass will look at it when there is enough. -/
def AsksInTime (s : WaitState) : WaitEv → Prop
  | .enqueue id =>
      s.x.descq.online = true → s.x.descq.pendList = [] ∧ s.x.Announced id
  | _ => True

/-! ## The invariant -/

theorem RxReady.wrbWaiting {ring : WrbRing} {d : QdmaDescq} (h : RxReady ring d) :
    d.wrbWaiting = d.unread ring := by
  unfold QdmaDescq.wrbWaiting
  rw [h.aligned.wrb]
  rfl

structure WakeInv (s : WaitState) : Prop where
  ready : ∃ ring, RxReady ring s.x.descq
  st : s.x.descq.isStC2h = true
  workList : s.x.descq.workList = []
  one : s.x.descq.pendList.length ≤ 1
  announced : ∀ id ∈ s.x.descq.pendList, s.x.Announced id
  placed : ∀ id ∈ s.x.descq.pendList, s.caller id ≠ .away ∧ s.caller id ≠ .counted

theorem nodup_of_length_le_one {ids : List ReqId} (h : ids.length ≤ 1) : ids.Nodup := by
  cases ids with
  | nil => exact List.nodup_nil
  | cons id ids =>
      cases ids with
      | nil => exact List.nodup_singleton id
      | cons i ids =>
          simp only [List.length_cons] at h
          omega

/-! ### A pass -/

/-- With no entry to consume a pass only reads the hardware's index. -/
theorem stC2hWb_idle (al : RxAllocs) {ring : WrbRing} {x : Xfer} (hx : RxReady ring x.descq)
    (hnone : x.descq.unread ring = 0) :
    descqStC2hWb al x =
      (0, { x with descq := { x.descq with pidxWrb := ring.wbPidx } }) := by
  rw [descqStC2hWb_eq al hx, hnone]
  rfl

/-- A pass that fails leaves the entry it stopped at. -/
theorem WbRun.unread_pos {al : RxAllocs} {ring : WrbRing} {x : Xfer} {r : ℤ × Xfer} {n : ℕ}
    {rxs : List StRxData} {extra : List StC2hWrbUdd} (h : WbRun al ring x r n rxs extra)
    (hx : RxReady ring x.descq) (hfail : r.1 ≠ 0) : 0 < r.2.descq.unread ring := by
  obtain ⟨rv, hends, hrv⟩ := h.ends
  have hlt : n < x.descq.unread ring := by
    cases hends with
    | through hn =>
        rw [hrv] at hfail
        exact absurd rfl hfail
    | oom hn _ => exact hn
    | err hn _ _ => exact hn
  have hgap := h.gap_eq hx
  have hcidx : r.2.descq.cidxWrb < x.descq.rngszWrb := by
    rw [← h.same.rngszWrb]
    exact h.ready.aligned.cidx
  unfold QdmaDescq.unread at hlt ⊢
  rw [h.same.rngszWrb, Cyclic.gap_sub_gap hx.wbPidx hcidx hx.aligned.cidx (by omega), hgap]
  omega

/-- What a pass does to the waiting requests: it looks at none of them, or it has consumed
entries and completes the ones in front. -/
theorem WbRun.woken {al : RxAllocs} {ring : WrbRing} {x : Xfer} {r : ℤ × Xfer} {n : ℕ}
    {rxs : List StRxData} {extra : List StC2hWrbUdd} (h : WbRun al ring x r n rxs extra)
    (hnodup : x.descq.pendList.Nodup) :
    (SameBooks x r.2 ∧ (r.1 ≠ 0 ∨ x.descq.unread ring = 0)) ∨
      x.descq.unread ring ≠ 0 ∧ ∃ z ds rest, SameBooks x z ∧
        x.descq.pendList = ds ++ rest ∧ Woken r.2.descq.rxQueue.dlen z r.2 ds rest := by
  obtain ⟨z, hbooks, hrxq, heq⟩ := h.after
  by_cases hlook : r.1 = 0 ∧ x.descq.unread ring ≠ 0
  · rw [if_pos hlook] at heq
    have hpend : z.descq.pendList = x.descq.pendList := hbooks.pendList
    obtain ⟨ds, rest, hsplit, hwoken⟩ := woken_checkRx (x := z) (by rw [hpend]; exact hnodup)
    rw [← heq, hrxq] at hwoken
    rw [hpend] at hsplit
    exact Or.inr ⟨hlook.2, z, ds, rest, hbooks, hsplit, hwoken⟩
  · rw [if_neg hlook] at heq
    refine Or.inl ⟨by rw [heq]; exact hbooks, ?_⟩
    by_cases hrv : r.1 = 0
    · exact Or.inr (by_contra fun hne => hlook ⟨hrv, hne⟩)
    · exact Or.inl hrv

theorem WakeInv.serviceWb {s : WaitState} (h : WakeInv s) (al : RxAllocs) :
    WakeInv (waitStep s (.serviceWb al)) ∧
      NotStranded s (.serviceWb al) (waitStep s (.serviceWb al)) := by
  obtain ⟨ring, hx⟩ := h.ready
  obtain ⟨n, rxs, extra, hrun⟩ := stC2hWb_run al hx
  have hstep : waitStep s (.serviceWb al) = { s with x := (descqStC2hWb al s.x).2 } := by
    change { s with x := qdmaDescqServiceWb al s.x } = _
    unfold qdmaDescqServiceWb
    rw [if_pos h.st]
  have hst : (descqStC2hWb al s.x).2.descq.isStC2h = true := by
    unfold QdmaDescq.isStC2h
    rw [hrun.same.conf]
    exact h.st
  rw [hstep]
  simp only [NotStranded]
  have hidle := stC2hWb_idle al hx
  generalize descqStC2hWb al s.x = r at hrun hst hidle ⊢
  rcases hrun.woken (nodup_of_length_le_one h.one) with
    ⟨hbooks, hnolook⟩ | ⟨-, z, ds, rest, hbooks, hsplit, hwoken⟩
  · have hpend := hbooks.pendList
    have hneeds : ∀ id, r.2.needs id = s.x.needs id := by
      intro id
      unfold Xfer.needs
      rw [hbooks.reqs]
    refine ⟨⟨⟨ring, hrun.ready⟩, hst, hbooks.workList.trans h.workList, ?_, ?_, ?_⟩, ?_⟩
    · rw [hpend]
      exact h.one
    · intro id hid
      rw [hpend] at hid
      rcases hnolook with hfail | hnone
      · refine Or.inr ?_
        rw [hrun.ready.wrbWaiting]
        exact hrun.unread_pos hx hfail
      · rw [hidle hnone]
        exact h.announced id hid
    · rw [hpend]
      exact h.placed
    · intro hrv id hid
      rw [hpend] at hid
      rcases hnolook with hfail | hnone
      · exact absurd hrv hfail
      · -- no entry waits, so the request was short before
        rw [hneeds]
        rw [hidle hnone]
        refine (h.announced id (List.mem_of_mem_head? hid)).resolve_right ?_
        rw [hx.wrbWaiting, hnone]
        exact lt_irrefl 0
  · have hpend : s.x.descq.pendList = ds ++ rest := hsplit
    have hone : (ds ++ rest).length ≤ 1 := by
      rw [← hpend]
      exact h.one
    have hrest : ∀ id ∈ rest, id ∈ rest.head? ∧ ds = [] := by
      intro id hid
      cases rest with
      | nil => cases hid
      | cons i rest =>
          rw [List.length_append, List.length_cons] at hone
          have hds : ds = [] := List.length_eq_zero_iff.mp (by omega)
          have hnil : rest = [] := List.length_eq_zero_iff.mp (by omega)
          subst hnil
          rw [List.mem_singleton] at hid
          subst hid
          exact ⟨rfl, hds⟩
    have hshort : ∀ id ∈ rest, r.2.descq.rxQueue.dlen < r.2.needs id := by
      intro id hid
      obtain ⟨hhead, hds⟩ := hrest id hid
      subst hds
      have hlt := hwoken.short id hhead
      rw [List.map_nil, List.sum_nil, Nat.zero_add] at hlt
      have hkept : r.2.needs id = z.needs id := by
        unfold Xfer.needs
        rw [hwoken.kept id List.not_mem_nil]
      rw [hkept]
      exact hlt
    refine ⟨⟨⟨ring, hrun.ready⟩, hst, hwoken.workList (hbooks.workList.trans h.workList), ?_, ?_,
      ?_⟩, ?_⟩
    · change r.2.descq.pendList.length ≤ 1
      rw [hwoken.pendList]
      rw [List.length_append] at hone
      omega
    · intro id hid
      change id ∈ r.2.descq.pendList at hid
      rw [hwoken.pendList] at hid
      exact Or.inl (hshort id hid)
    · intro id hid
      change id ∈ r.2.descq.pendList at hid
      rw [hwoken.pendList] at hid
      exact h.placed id (by rw [hpend]; exact List.mem_append_right _ hid)
    · intro _ id hid
      rw [hwoken.pendList] at hid
      exact hshort id (List.mem_of_mem_head? hid)

/-! ### The other steps -/

/-- A step that leaves the queue and the waiting requests as they are, or takes some of
them off. -/
theorem WakeInv.frame {s s' : WaitState} (h : WakeInv s)
    (hready : ∃ ring, RxReady ring s'.x.descq) (hst : s'.x.descq.isStC2h = s.x.descq.isStC2h)
    (hwork : s'.x.descq.workList = s.x.descq.workList)
    (hpend : s'.x.descq.pendList.Sublist s.x.descq.pendList)
    (hannounced : ∀ id ∈ s.x.descq.pendList, s.x.Announced id → s'.x.Announced id)
    (hplaced : ∀ id ∈ s'.x.descq.pendList, s.caller id ≠ .away → s.caller id ≠ .counted →
      s'.caller id ≠ .away ∧ s'.caller id ≠ .counted) : WakeInv s' where
  ready := hready
  st := hst.trans h.st
  workList := hwork.trans h.workList
  one := hpend.length_le.trans h.one
  announced id hid := hannounced id (hpend.subset hid) (h.announced id (hpend.subset hid))
  placed id hid := by
    obtain ⟨haway, hcounted⟩ := h.placed id (hpend.subset hid)
    exact hplaced id hid haway hcounted

/-- The lists of requests and the index the hardware writes to the descriptor ring are
nothing to a pass. -/
theorem RxReady.relist {ring : WrbRing} {d : QdmaDescq} (h : RxReady ring d)
    {desc : Option DescRing} (hdesc : desc.isSome = true) (work pend : List ReqId) :
    RxReady ring { d with desc := desc, workList := work, pendList := pend } where
  aligned := ⟨h.aligned.wrb, h.aligned.cidx, h.aligned.rngsz, h.aligned.cur⟩
  desc := hdesc
  fl := h.fl
  slot := h.slot
  rngsz := h.rngsz
  fits := h.fits
  sizes := h.sizes
  wbPidx := h.wbPidx

/-- A caller moves on. -/
theorem WakeInv.move {s : WaitState} (h : WakeInv s) {id : ReqId} {c : Caller}
    (hc : id ∈ s.x.descq.pendList → c ≠ .away ∧ c ≠ .counted) :
    WakeInv { s with caller := Function.update s.caller id c } := by
  refine h.frame h.ready rfl rfl (List.Sublist.refl _) (fun _ _ ha => ha) ?_
  intro i hi haway hcounted
  change Function.update s.caller id c i ≠ _ ∧ Function.update s.caller id c i ≠ _
  by_cases heq : i = id
  · subst heq
    rw [Function.update_self]
    exact hc hi
  · rw [Function.update_of_ne heq]
    exact ⟨haway, hcounted⟩

/-- The bytes are counted; the request is on no list yet. -/
theorem WakeInv.submitPart {s : WaitState} (h : WakeInv s) {id : ReqId} {req : QdmaSgReq}
    (haway : s.caller id = .away) : WakeInv (Qdma.submitPart s id req) := by
  have hid : id ∉ s.x.descq.pendList := fun hm => (h.placed id hm).1 haway
  unfold Qdma.submitPart
  split
  · exact h
  · rw [if_pos h.st]
    have hset : WakeInv
        { s with
          x := { s.x with
            reqs := (submitStC2hCount s id req).x.reqs } } := by
      refine h.frame h.ready rfl rfl (List.Sublist.refl _) ?_ fun i _ ha hc => ⟨ha, hc⟩
      intro i hi hannounced
      have hne : i ≠ id := fun heq => hid (heq ▸ hi)
      rcases hannounced with hshort | hwait
      · refine Or.inl ?_
        unfold Xfer.needs at hshort ⊢
        rw [show (submitStC2hCount s id req).x.reqs i = s.x.reqs i from Function.update_of_ne hne _ _]
        exact hshort
      · exact Or.inr hwait
    exact hset.move fun hm => absurd hm hid

/-- A request that asks in time. -/
theorem WakeInv.enqueue {s : WaitState} (h : WakeInv s) {id : ReqId}
    (hcounted : s.caller id = .counted) (hok : AsksInTime s (.enqueue id)) :
    WakeInv (submitStC2hEnqueue s id) := by
  unfold submitStC2hEnqueue
  split
  · rename_i honline
    obtain ⟨hempty, hannounced⟩ := hok honline
    obtain ⟨ring, hx⟩ := h.ready
    refine ⟨⟨ring, hx.relist hx.desc s.x.descq.workList _⟩, h.st, h.workList, ?_, ?_, ?_⟩
    · change (s.x.descq.pendList ++ [id]).length ≤ 1
      rw [hempty]
      exact le_refl 1
    · intro i hi
      change i ∈ s.x.descq.pendList ++ [id] at hi
      rw [hempty, List.nil_append, List.mem_singleton] at hi
      subst hi
      exact hannounced
    · intro i hi
      change i ∈ s.x.descq.pendList ++ [id] at hi
      rw [hempty, List.nil_append, List.mem_singleton] at hi
      subst hi
      change Function.update s.caller i _ i ≠ _ ∧ Function.update s.caller i _ i ≠ _
      rw [Function.update_self]
      rcases queued_cases (s.x.reqs i) with heq | heq
      · rw [heq]
        exact ⟨by decide, by decide⟩
      · rw [heq]
        exact ⟨by decide, by decide⟩
  · exact h.move fun hm => absurd hcounted (h.placed id hm).2

/-- **One step** of a queue whose requests ask in time. -/
theorem WakeInv.step {s : WaitState} {e : WaitEv} (h : WakeInv s) (hg : rxWaitSys.guard s e)
    (hok : AsksInTime s e) : WakeInv (waitStep s e) := by
  obtain ⟨hcaller, hrx⟩ := hg
  obtain ⟨ring, hx⟩ := h.ready
  cases e with
  | serviceWb al => exact (h.serviceWb al).1
  | submit id req =>
      simp only [waitStep]
      split
      · exact h.submitPart hcaller
      · exact h
  | enqueue id => exact h.enqueue hcaller hok
  | wrkProc =>
      have hsame : qdmaThreadWrkProc s.x = s.x := by
        unfold qdmaThreadWrkProc
        rw [h.workList]
        rfl
      simp only [waitStep]
      rw [hsame]
      exact h
  | hwWb cidx =>
      have hdesc : (s.x.descq.desc.map fun r => { r with wbCidx := cidx }).isSome = true := by
        rw [Option.isSome_map]
        exact hx.desc
      exact h.frame ⟨ring, hx.relist hdesc s.x.descq.workList s.x.descq.pendList⟩ rfl rfl
        (List.Sublist.refl _) (fun _ _ ha => ha) fun i _ ha hc => ⟨ha, hc⟩
  | hwWrb pidx mem =>
      obtain ⟨hpidx, hmore⟩ := hrx
      have hready := hx.hwCompletion hpidx mem
      refine h.frame ⟨_, hready⟩ rfl rfl (List.Sublist.refl _) ?_ fun i _ ha hc => ⟨ha, hc⟩
      intro i _ hannounced
      rcases hannounced with hshort | hwait
      · exact Or.inl hshort
      · refine Or.inr ?_
        change 0 < (hwCompletion s.x pidx mem).descq.wrbWaiting
        rw [hready.wrbWaiting]
        exact hwait.trans_le hmore
  | rxRead rxq =>
      have hread : rxq.dlen ≤ s.x.descq.rxQueue.dlen := hrx
      refine h.frame ⟨ring, hx.rxRead rxq⟩ rfl rfl (List.Sublist.refl _) ?_
        fun i _ ha hc => ⟨ha, hc⟩
      intro i _ hannounced
      exact hannounced.imp (fun hshort => hread.trans_lt hshort) id
  | test id =>
      refine h.move fun _ => ?_
      split
      · exact ⟨by decide, by decide⟩
      · exact ⟨by decide, by decide⟩
  | remove id =>
      have hoff : WakeInv { s with x := s.x.listDel id, removed := s.removed ++ [id] } := by
        refine h.frame ⟨ring, hx.relist hx.desc _ _⟩ rfl ?_ List.erase_sublist (fun _ _ ha => ha)
          fun i _ ha hc => ⟨ha, hc⟩
        change s.x.descq.workList.erase id = _
        rw [h.workList]
        rfl
      exact hoff.move fun _ => ⟨by decide, by decide⟩
  | ret id =>
      have hback : WakeInv { s with x := { s.x with returned := s.x.returned ++ [id] } } :=
        h.frame h.ready rfl rfl (List.Sublist.refl _) (fun _ _ ha => ha)
          fun i _ ha hc => ⟨ha, hc⟩
      exact hback.move fun _ => ⟨by decide, by decide⟩

/-! ## Every run -/

theorem WakeInv.notStranded {s : WaitState} (h : WakeInv s) (e : WaitEv) :
    NotStranded s e (waitStep s e) := by
  cases e with
  | serviceWb al => exact (h.serviceWb al).2
  | submit | enqueue | wrkProc | hwWb | hwWrb | rxRead | test | remove | ret => trivial

theorem WakeInv.init {d : QdmaDescq} (hd : RxStarted d) (hwork : d.workList = [])
    (hpend : d.pendList = []) (reqs : ReqId → QdmaSgReq) (intrCoalEn : Bool)
    (coals : List IntrCoalConf) :
    WakeInv (WaitState.init (Xfer.init d reqs intrCoalEn coals)) := by
  obtain ⟨hready, -⟩ := hd.rxReady
  obtain ⟨-, -, -, -, -, -, hst, -⟩ := hd
  refine ⟨hready, hst, hwork, ?_, ?_, ?_⟩
  · change d.pendList.length ≤ 1
    rw [hpend]
    exact Nat.zero_le _
  · intro id hid
    change id ∈ d.pendList at hid
    rw [hpend] at hid
    cases hid
  · intro id hid
    change id ∈ d.pendList at hid
    rw [hpend] at hid
    cases hid

/-- A request that asks too late stays: the next pass has nothing to consume and does not
look at it. -/
theorem WakeInv.stranded {s : WaitState} (h : WakeInv s) {id : ReqId}
    (honline : s.x.descq.online = true) (hempty : s.x.descq.pendList = [])
    (hlate : ¬ s.x.Announced id) (al : RxAllocs) :
    ¬ rxWaitSys.EachStep NotStranded s [.enqueue id, .serviceWb al] := by
  rintro ⟨-, hpass, -⟩
  obtain ⟨ring, hx⟩ := h.ready
  unfold Xfer.Announced at hlate
  rw [not_or, Nat.not_lt, Nat.not_lt, hx.wrbWaiting] at hlate
  obtain ⟨henough, hnone⟩ := hlate
  have hq : submitStC2hEnqueue s id =
      { s with
        x := { s.x with
          descq := { s.x.descq with pendList := s.x.descq.pendList ++ [id] }
          submitted := s.x.submitted ++ [id] }
        caller := Function.update s.caller id (.queued (s.x.reqs id)) } := by
    unfold submitStC2hEnqueue
    rw [if_pos honline]
  change NotStranded (submitStC2hEnqueue s id) (.serviceWb al)
    (waitStep (submitStC2hEnqueue s id) (.serviceWb al)) at hpass
  rw [hq] at hpass
  simp only [NotStranded, waitStep, qdmaDescqServiceWb] at hpass
  have hready := hx.relist hx.desc s.x.descq.workList (s.x.descq.pendList ++ [id])
  have hidle := stC2hWb_idle al
    (x := { s.x with
      descq := { s.x.descq with pendList := s.x.descq.pendList ++ [id] }
      submitted := s.x.submitted ++ [id] }) hready (Nat.le_zero.mp hnone)
  have hst : QdmaDescq.isStC2h { s.x.descq with pendList := s.x.descq.pendList ++ [id] } = true :=
    h.st
  rw [if_pos hst, hidle] at hpass
  have hlt := hpass rfl id (by rw [hempty]; rfl)
  exact absurd hlt (Nat.not_lt.mpr henough)

/-- **No reader is stranded** in a run whose requests ask in time: behind every error-free
pass the request at the head of `pend_list` needs more than the receive queue holds.  And
only there: one that is put on the empty list later finds the next pass not looking. -/
theorem readers_not_stranded (d : QdmaDescq) (hd : RxStarted d) (hwork : d.workList = [])
    (hpend : d.pendList = []) (reqs : ReqId → QdmaSgReq) (intrCoalEn : Bool)
    (coals : List IntrCoalConf) (es : List WaitEv)
    (hrun : (rxWaitSys.restrict AsksInTime).Admits
      (WaitState.init (Xfer.init d reqs intrCoalEn coals)) es) :
    let s₀ := WaitState.init (Xfer.init d reqs intrCoalEn coals)
    let s := rxWaitSys.exec s₀ es
    rxWaitSys.EachStep NotStranded s₀ es ∧
      ∀ id, s.caller id = .counted → s.x.descq.online = true → s.x.descq.pendList = [] →
        ¬ AsksInTime s (.enqueue id) →
        ∀ al, ¬ rxWaitSys.EachStep NotStranded s [.enqueue id, .serviceWb al] := by
  intro s₀ s
  have hinit : WakeInv s₀ := WakeInv.init hd hwork hpend reqs intrCoalEn coals
  refine ⟨rxWaitSys.eachStep_restrict (fun t e ht hg hok => ⟨ht.notStranded e, ht.step hg hok⟩)
    es hinit hrun, ?_⟩
  intro id _ honline hempty hlate al
  have hend : WakeInv s :=
    (rxWaitSys.restrict AsksInTime).invariant (fun t e ht hg => ht.step hg.1 hg.2) es hinit hrun
  exact hend.stranded honline hempty (fun hann => hlate fun _ => ⟨hempty, hann⟩) al

/-! ### Two orders of the same events -/

/-- A streaming C2H queue that was opened and started. -/
def c2hOpenAlloc : ℤ × QdmaDescq :=
  descqAllocRings plentiful (qdmaDescqConfig 0 0 { ringedQueue with enabled := true }
    ⟨0, true, true, descSzRsv, 0⟩ false)

theorem rxStarted_c2hOpen : RxStarted c2hOpenAlloc.2 :=
  RxStarted.of_alloc rfl (by decide +kernel) (by decide +kernel)

theorem page_lt : 4096 < 2 ^ 32 := by decide

/-- A reader of one page. -/
def pageReadReq : QdmaSgReq :=
  { writeReq ⟨[⟨0x100000, 4096, page_lt⟩], Nat.one_lt_two_pow (Nat.succ_ne_zero 31)⟩ 4096 page_lt with
    write := false }

instance decidableReceives (s : WaitState) : ∀ e, Decidable (Receives s e) := by
  rintro ⟨⟩ <;> dsimp only [Receives] <;> infer_instance

instance (x : Xfer) (id : ReqId) : Decidable (x.Announced id) :=
  inferInstanceAs (Decidable (_ ∨ _))

instance decidableAsksInTime (s : WaitState) : ∀ e, Decidable (AsksInTime s e) := by
  rintro ⟨⟩ <;> dsimp only [AsksInTime] <;> infer_instance

instance decidableRxWaitGuard (s : WaitState) (e : WaitEv) : Decidable (rxWaitSys.guard s e) :=
  inferInstanceAs (Decidable (waitSys.guard s e ∧ Receives s e))

instance (s : WaitState) (e : WaitEv) : Decidable ((rxWaitSys.restrict AsksInTime).guard s e) :=
  inferInstanceAs (Decidable (rxWaitSys.guard s e ∧ AsksInTime s e))

/-- The packets arrive between the two sections of the reader, the pass comes behind. -/
def askedInTimeRun : List WaitEv :=
  [.submit 0 pageReadReq, .hwWrb 2 (twoEntries false), .enqueue 0, .serviceWb rxPlenty]

/-- The pass comes between the two sections. -/
def askedLateRun : List WaitEv :=
  [.submit 0 pageReadReq, .hwWrb 2 (twoEntries false), .serviceWb rxPlenty, .enqueue 0]

theorem readers_not_stranded_in_time :
    let s₀ := WaitState.init (Xfer.init c2hOpenAlloc.2 (fun _ => onePlaceReq) false [])
    (rxWaitSys.exec s₀ askedInTimeRun).x.completed = [⟨0, 0, 4096⟩] ∧
      rxWaitSys.EachStep NotStranded s₀ askedInTimeRun :=
  ⟨by decide +kernel,
    (readers_not_stranded c2hOpenAlloc.2 rxStarted_c2hOpen (by decide +kernel) (by decide +kernel)
      (fun _ => onePlaceReq) false [] askedInTimeRun (by decide +kernel)).1⟩

/-- 5001 bytes are there and nothing more arrives; the reader of 4096 stays on the list. -/
theorem reader_stranded :
    ¬ ∀ d : QdmaDescq, RxStarted d → d.workList = [] → d.pendList = [] →
      ∀ (reqs : ReqId → QdmaSgReq) (intrCoalEn : Bool) (coals : List IntrCoalConf)
        (es : List WaitEv),
        rxWaitSys.Admits (WaitState.init (Xfer.init d reqs intrCoalEn coals)) es →
        rxWaitSys.EachStep NotStranded (WaitState.init (Xfer.init d reqs intrCoalEn coals)) es := by
  intro hall
  have h := hall c2hOpenAlloc.2 rxStarted_c2hOpen (by decide +kernel) (by decide +kernel)
    (fun _ => onePlaceReq) false [] (askedLateRun ++ [.serviceWb rxPlenty]) (by decide +kernel)
  obtain ⟨-, hlast⟩ := (rxWaitSys.eachStep_append _ askedLateRun [.serviceWb rxPlenty]).mp h
  obtain ⟨hpass, -⟩ := hlast
  have hlt := hpass (by decide +kernel) 0 (by decide +kernel)
  exact absurd hlt (by decide +kernel)

end Qdma

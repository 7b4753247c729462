import Qdma.Accounting

/-!
# Matching credits with requests

The driver never learns which descriptor the hardware has consumed, only how
many.  It takes the pending requests in list order as long as the credits cover
them, so a completion is right only if the list order is the ring order.

`Ledger` is that correspondence: skipping the descriptors whose credits are spent,
the owners of the descriptors in the ring are the requests of `pend_list` and then
of `work_list`, each repeated as often as its `desc_nr` says.  What is not on a
list any more has no descriptor beyond the spent ones.

Three things break the correspondence, and `StepOk` excludes them step by step:
a request that times out while its descriptors are in the ring, a request that is
resumed inside a segment (it overshoots its count, so later requests overtake it
and it ends in an error), and a request whose segments do not sum up to its count.
-/

namespace Qdma

open Lib Lib.Extent Lib.Cyclic

/-! ## The state of one request -/

/-- A well-formed request of which the first pieces are posted. -/
structure ReqOk (blen : ℕ) (req : QdmaSgReq) : Prop where
  wf : req.WellFormed
  nents_lt : req.sgt.nents < 2 ^ 31
  sent : ∃ K ≤ (pieces blen req.sgt.sgl).length,
    req.cb.offset = total ((pieces blen req.sgt.sgl).take K) ∧ req.cb.descNr ≤ K

/-- The posting function finds the place of the offset, and it is the start of a
segment. -/
def QdmaSgReq.resumesAtSegment (req : QdmaSgReq) : Bool :=
  (sgtFindOffset req.sgt req.cb.offset).any fun found =>
    decide (found.2.2 = 0) && decide (found.1 < req.sgt.nents)

theorem mul_descsNeeded_le {blen : ℕ} (hb : 0 < blen) (sgl : List Scatterlist) :
    blen * descsNeeded blen sgl ≤ blen * sgl.length + sglTotal sgl := by
  induction sgl with
  | nil => simp [descsNeeded]
  | cons sg sgl ih =>
      have hone : blen * ((sg.dmaLen + blen - 1) / blen) ≤ sg.dmaLen + blen - 1 :=
        Nat.mul_div_le _ _
      simp only [descsNeeded, List.map_cons, List.sum_cons, List.length_cons, sglTotal_cons,
        Nat.mul_add] at *
      omega

theorem pageSize_le_blenOf (d : QdmaDescq) : pageSize ≤ blenOf d := by
  unfold blenOf
  split <;> decide

/-- A request never needs so many descriptors that a credit sum could wrap. -/
theorem descsNeeded_lt {d : QdmaDescq} {req : QdmaSgReq} (hwf : req.WellFormed)
    (hn : req.sgt.nents < 2 ^ 31) : descsNeeded (blenOf d) req.sgt.sgl < 2 ^ 31 + 2 ^ 21 := by
  have hb := blenOf_pos d
  have hpage : 2 ^ 12 ≤ blenOf d := pageSize_le_blenOf d
  have hmul := mul_descsNeeded_le hb req.sgt.sgl
  have hcount : sglTotal req.sgt.sgl < 2 ^ 32 := by
    rw [hwf]
    exact req.count_lt
  have hlen : req.sgt.sgl.length < 2 ^ 31 := hn
  by_contra hge
  have h₁ : blenOf d * (req.sgt.sgl.length + 2 ^ 21) ≤
      blenOf d * descsNeeded (blenOf d) req.sgt.sgl := Nat.mul_le_mul_left _ (by omega)
  have h₂ : 2 ^ 12 * 2 ^ 21 ≤ blenOf d * 2 ^ 21 := Nat.mul_le_mul_right _ hpage
  rw [Nat.mul_add] at h₁
  omega

theorem ReqOk.descNr_lt {d : QdmaDescq} {req : QdmaSgReq} (h : ReqOk (blenOf d) req) :
    req.cb.descNr < 2 ^ 31 + 2 ^ 21 := by
  obtain ⟨K, hK, -, hnr⟩ := h.sent
  rw [length_pieces (blenOf_pos d)] at hK
  have := descsNeeded_lt (d := d) h.wf h.nents_lt
  omega

/-- A request that resumes at a segment goes on with its next piece. -/
theorem ReqOk.postStart_eq {blen : ℕ} {req : QdmaSgReq} (hb : 0 < blen) (h : ReqOk blen req)
    (hres : req.cb.offset ≠ 0 → req.resumesAtSegment) :
    ∃ K sg, K ≤ (pieces blen req.sgt.sgl).length ∧ postStart req = some (sg, 0) ∧
      pieces blen sg = (pieces blen req.sgt.sgl).drop K ∧
      req.cb.offset = total ((pieces blen req.sgt.sgl).take K) ∧
      (req.cb.descNr ≤ K ∨ req.cb.offset = 0) := by
  by_cases hzero : req.cb.offset = 0
  · exact ⟨0, req.sgt.sgl, Nat.zero_le _, postStart_of_zero hzero, rfl, by simp [hzero],
      Or.inr hzero⟩
  · obtain ⟨K, hK, hoff, hnr⟩ := h.sent
    have hlt : sglTotal req.sgt.sgl < 2 ^ 32 := by
      rw [h.wf]
      exact req.count_lt
    have hseg := hres hzero
    unfold QdmaSgReq.resumesAtSegment at hseg
    cases hfind : sgtFindOffset req.sgt req.cb.offset with
    | none => simp [hfind] at hseg
    | some found =>
        obtain ⟨i, sg, sgOffset⟩ := found
        simp only [hfind, Option.any_some, Bool.and_eq_true, decide_eq_true_eq] at hseg
        obtain ⟨rfl, hi⟩ := hseg
        obtain ⟨hsg, hcases⟩ := sgtFindOffset_spec hlt (Nat.pos_of_ne_zero hzero) hfind
        have hsum : sglTotal (req.sgt.sgl.take i) = req.cb.offset := by
          rcases hcases with ⟨-, hsum⟩ | ⟨hpos, -⟩
          · exact hsum
          · omega
        have hKeq : K = (pieces blen (req.sgt.sgl.take i)).length :=
          eq_of_total_take_eq hb hK (by rw [← hoff, hsum])
        refine ⟨K, sg, hK, ?_, ?_, hoff, Or.inl hnr⟩
        · rw [postStart_of_some hzero hfind, if_neg (by omega)]
        · rw [hsg, hKeq, drop_pieces_edge]

/-! ## The ledger -/

/-- Taking a request off both lists takes it off their concatenation. -/
theorem erase_append_erase {l m : List ReqId} (h : (l ++ m).Nodup) (id : ReqId) :
    l.erase id ++ m.erase id = (l ++ m).erase id := by
  rw [List.erase_append]
  split
  · rename_i hl
    rw [List.erase_of_not_mem fun hm => (List.nodup_append.mp h).2.2 id hl id hm rfl]
  · rename_i hl
    rw [List.erase_of_not_mem hl]

/-- The requests on the queue's lists, in the order in which they complete. -/
def Xfer.liveIds (x : Xfer) : List ReqId := x.descq.pendList ++ x.descq.workList

/-- A request, as often as it has descriptors without a matching credit. -/
def Xfer.share (x : Xfer) (id : ReqId) : List ReqId := List.replicate (x.reqs id).cb.descNr id

/-- The correspondence of ring and lists, with `c` credits in hand. -/
structure LedgerAt (c : ℕ) (x : Xfer) : Prop where
  ring : RingInv x
  nodup : x.liveIds.Nodup
  live : ∀ id ∈ x.liveIds, id ∈ x.submitted
  reqs : ∀ id ∈ x.liveIds, ReqOk (blenOf x.descq) (x.reqs id)
  pending : ∀ id ∈ x.descq.pendList, (x.reqs id).cb.offset = (x.reqs id).count
  partly : ∀ id ∈ x.descq.workList, (x.reqs id).cb.offset ≠ 0 →
    (x.reqs id).cb.offset ≠ (x.reqs id).count
  new : ∀ id ∈ x.descq.workList, (x.reqs id).cb.offset = 0 → (x.reqs id).cb.descNr = 0
  waiting : ∀ id ∈ x.descq.workList.tail, (x.reqs id).cb.offset = 0
  owned : ∀ p ∈ x.posted, p.owner ∈ x.submitted
  finished : ∀ d ∈ x.completed, d.id ∈ x.submitted ∧ d.id ∉ x.liveIds
  credit_le : c ≤ x.retired
  owners : (x.posted.map (·.owner)).drop (x.retired - c) = x.liveIds.flatMap x.share

/-- The correspondence between two steps: what is in hand never exceeds what the
first request still needs. -/
structure Ledger (x : Xfer) : Prop extends LedgerAt x.descq.credit x where
  bounded : ∀ id ∈ x.liveIds.head?, x.descq.credit ≤ (x.reqs id).cb.descNr

namespace LedgerAt

variable {c : ℕ} {x y : Xfer} {id : ReqId}

/-- A request that is on no list has no descriptor beyond the ones whose credits
are spent. -/
theorem index_lt (h : LedgerAt c x) (hid : id ∉ x.liveIds) {k : ℕ} {p : Posting}
    (hk : x.posted[k]? = some p) (hp : p.owner = id) : k < x.retired - c := by
  by_contra hge
  have hmem : id ∈ (x.posted.map (·.owner)).drop (x.retired - c) := by
    refine List.mem_of_getElem? (i := k - (x.retired - c)) ?_
    rw [List.getElem?_drop, Nat.add_sub_cancel' (Nat.le_of_not_lt hge), List.getElem?_map, hk,
      ← hp]
    rfl
  rw [h.owners] at hmem
  obtain ⟨id', hlive, hshare⟩ := List.mem_flatMap.mp hmem
  obtain ⟨-, rfl⟩ := List.mem_replicate.mp hshare
  exact hid hlive

/-- The descriptors without a matching credit: those in flight and those whose
credits are in hand. -/
theorem sum_share (h : LedgerAt c x) :
    (x.liveIds.map fun id => (x.reqs id).cb.descNr).sum = x.inFlight + c := by
  have hlen := congrArg List.length h.owners
  simp only [List.length_drop, List.length_map, List.length_flatMap, Xfer.share,
    List.length_replicate] at hlen
  have := h.ring.posted_eq
  have := h.credit_le
  rw [← hlen]
  omega

/-- What changes neither the lists nor the requests keeps the correspondence. -/
theorem of_frame {c' : ℕ} (h : LedgerAt c x) (hring : RingInv y)
    (hwork : y.descq.workList = x.descq.workList) (hpend : y.descq.pendList = x.descq.pendList)
    (hconf : y.descq.conf = x.descq.conf) (hreqs : y.reqs = x.reqs) (hposted : y.posted = x.posted)
    (hsub : y.submitted = x.submitted) (hcomp : y.completed = x.completed)
    (hle : c' ≤ y.retired) (hspent : y.retired - c' = x.retired - c) : LedgerAt c' y := by
  have hlive : y.liveIds = x.liveIds := by
    unfold Xfer.liveIds
    rw [hwork, hpend]
  have hblen : blenOf y.descq = blenOf x.descq := by
    unfold blenOf
    rw [hconf]
  have hshare : y.share = x.share := by
    unfold Xfer.share
    rw [hreqs]
  constructor
  · exact hring
  · rw [hlive]; exact h.nodup
  · rw [hlive, hsub]; exact h.live
  · rw [hlive, hblen, hreqs]; exact h.reqs
  · rw [hpend, hreqs]; exact h.pending
  · rw [hwork, hreqs]; exact h.partly
  · rw [hwork, hreqs]; exact h.new
  · rw [hwork, hreqs]; exact h.waiting
  · rw [hposted, hsub]; exact h.owned
  · rw [hcomp, hsub, hlive]; exact h.finished
  · exact hle
  · rw [hposted, hspent, hlive, hshare]; exact h.owners

/-- **A request leaves its list**, with the `d` credits it was waiting for: either
it waits for none, or it is the first one. -/
theorem unlink {d : ℕ} (h : LedgerAt c x) (hs : SameRing x y) (hid : id ∈ x.submitted)
    (hwork : y.descq.workList = x.descq.workList.erase id)
    (hpend : y.descq.pendList = x.descq.pendList.erase id)
    (hreqs : ∀ i, i ≠ id → y.reqs i = x.reqs i)
    (hcomp : ∀ e ∈ y.completed, e ∈ x.completed ∨ e.id = id) (hd : d ≤ c)
    (hclaim : (x.liveIds.erase id).flatMap x.share = (x.liveIds.flatMap x.share).drop d) :
    LedgerAt (c - d) y := by
  have hlive : y.liveIds = x.liveIds.erase id := by
    unfold Xfer.liveIds
    rw [hwork, hpend]
    exact erase_append_erase h.nodup id
  have hnot : id ∉ y.liveIds := by
    rw [hlive]
    exact h.nodup.not_mem_erase
  have hne : ∀ i ∈ y.liveIds, i ≠ id := fun i hi heq => hnot (heq ▸ hi)
  have hsub : ∀ i ∈ y.liveIds, i ∈ x.liveIds := by
    rw [hlive]
    exact fun i hi => List.mem_of_mem_erase hi
  have hsubw : ∀ i ∈ y.descq.workList, i ∈ x.descq.workList ∧ i ≠ id := by
    intro i hi
    refine ⟨?_, hne i (List.mem_append_right _ hi)⟩
    rw [hwork] at hi
    exact List.mem_of_mem_erase hi
  have htail : ∀ i ∈ y.descq.workList.tail, i ∈ x.descq.workList.tail := by
    intro i hi
    rw [hwork] at hi
    cases hw : x.descq.workList with
    | nil => simp [hw] at hi
    | cons a rest =>
        rw [hw, List.erase_cons] at hi
        split at hi
        · exact List.mem_of_mem_tail hi
        · exact List.mem_of_mem_erase hi
  have hconf : y.descq.conf = x.descq.conf := by rw [hs]
  have hblen : blenOf y.descq = blenOf x.descq := by
    unfold blenOf
    rw [hconf]
  have hposted : y.posted = x.posted := by rw [hs]
  have hret : y.retired = x.retired := by rw [hs]
  have hsubm : y.submitted = x.submitted := by rw [hs]
  have hshare : y.liveIds.flatMap y.share = y.liveIds.flatMap x.share := by
    refine List.flatMap_congr fun i hi => ?_
    unfold Xfer.share
    rw [hreqs i (hne i hi)]
  constructor
  · exact h.ring.of_sameRing hs
  · rw [hlive]
    exact h.nodup.erase id
  · intro i hi
    rw [hsubm]
    exact h.live i (hsub i hi)
  · intro i hi
    rw [hblen, hreqs i (hne i hi)]
    exact h.reqs i (hsub i hi)
  · intro i hi
    rw [hreqs i (hne i (List.mem_append_left _ hi))]
    rw [hpend] at hi
    exact h.pending i (List.mem_of_mem_erase hi)
  · intro i hi
    obtain ⟨hi', hi''⟩ := hsubw i hi
    rw [hreqs i hi'']
    exact h.partly i hi'
  · intro i hi
    obtain ⟨hi', hi''⟩ := hsubw i hi
    rw [hreqs i hi'']
    exact h.new i hi'
  · intro i hi
    rw [hreqs i (hsubw i (List.mem_of_mem_tail hi)).2]
    exact h.waiting i (htail i hi)
  · rw [hposted, hsubm]
    exact h.owned
  · intro e he
    rw [hsubm]
    rcases hcomp e he with hold | hnew
    · exact ⟨(h.finished e hold).1, fun hmem => (h.finished e hold).2 (hsub _ hmem)⟩
    · rw [hnew]
      exact ⟨hid, hnot⟩
  · rw [hret]
    have := h.credit_le
    omega
  · have hspent : y.retired - (c - d) = (x.retired - c) + d := by
      have := h.credit_le
      rw [hret]
      omega
    rw [hposted, hspent, ← List.drop_drop, h.owners, ← hclaim, hshare, hlive]

/-- The shares of the other requests, when this one waits for no credit. -/
theorem flatMap_erase_share (hzero : (x.reqs id).cb.descNr = 0) (l : List ReqId) :
    (l.erase id).flatMap x.share = l.flatMap x.share := by
  induction l with
  | nil => rfl
  | cons a l ih =>
      rw [List.erase_cons]
      split
      · rename_i heq
        obtain rfl : a = id := by simpa using heq
        have hshare : x.share a = [] := by
          unfold Xfer.share
          rw [hzero, List.replicate_zero]
        rw [List.flatMap_cons, hshare, List.nil_append]
      · rw [List.flatMap_cons, List.flatMap_cons, ih]

/-- A request without descriptors in the ring leaves its list. -/
theorem listDel (h : LedgerAt c x) (hid : id ∈ x.liveIds) (hzero : (x.reqs id).cb.descNr = 0) :
    LedgerAt c (x.listDel id) :=
  h.unlink (d := 0) (sameRing_listDel x id) (h.live id hid) rfl rfl (fun _ _ => rfl)
    (fun _ he => Or.inl he) (Nat.zero_le _) (flatMap_erase_share hzero _)

theorem reqDone_reqs {error : ℤ} {i : ReqId} (hi : i ≠ id) :
    (qdmaSgtReqDone x id error).reqs i = x.reqs i := by
  simp only [qdmaSgtReqDone, Xfer.setCb, Xfer.listDel, Function.update_of_ne hi]

theorem mem_completed_reqDone {error : ℤ} {e : Completion}
    (he : e ∈ (qdmaSgtReqDone x id error).completed) : e ∈ x.completed ∨ e.id = id := by
  simp only [qdmaSgtReqDone, Xfer.setCb, Xfer.listDel, List.mem_append, List.mem_singleton] at he
  rcases he with hold | rfl
  · exact Or.inl hold
  · exact Or.inr rfl

/-- A request without descriptors in the ring fails. -/
theorem reqFailed (h : LedgerAt c x) (hid : id ∈ x.liveIds) (hzero : (x.reqs id).cb.descNr = 0)
    (error : ℤ) : LedgerAt c (qdmaSgtReqDone x id error) :=
  h.unlink (d := 0) (sameRing_reqDone x id error) (h.live id hid) rfl rfl
    (fun _ hi => reqDone_reqs hi) (fun _ he => mem_completed_reqDone he) (Nat.zero_le _)
    (flatMap_erase_share hzero _)

/-- The first pending request is completed with the credits it waits for. -/
theorem reqCompleted {rest : List ReqId} (h : LedgerAt c x) (hpend : x.descq.pendList = id :: rest)
    (hle : (x.reqs id).cb.descNr ≤ c) :
    LedgerAt (c - (x.reqs id).cb.descNr) (qdmaSgtReqDone x id 0) := by
  have hlive : x.liveIds = id :: (rest ++ x.descq.workList) := by
    unfold Xfer.liveIds
    rw [hpend, List.cons_append]
  refine h.unlink (sameRing_reqDone x id 0) (h.live id (by simp [hlive])) rfl rfl
    (fun _ hi => reqDone_reqs hi) (fun _ he => mem_completed_reqDone he) hle ?_
  rw [hlive, List.erase_cons_head, List.flatMap_cons]
  have hlen : (x.share id).length = (x.reqs id).cb.descNr := by simp [Xfer.share]
  rw [← hlen, List.drop_left]

/-- The first pending request takes all credits in hand and waits for more. -/
theorem reqCredited {rest : List ReqId} (h : LedgerAt c x) (hpend : x.descq.pendList = id :: rest)
    (hlt : c < (x.reqs id).cb.descNr) :
    LedgerAt 0 (x.setCb id { (x.reqs id).cb with descNr := (x.reqs id).cb.descNr - c }) := by
  have hlive : x.liveIds = id :: (rest ++ x.descq.workList) := by
    unfold Xfer.liveIds
    rw [hpend, List.cons_append]
  have hnot : id ∉ rest ++ x.descq.workList := by
    have := h.nodup
    rw [hlive] at this
    exact (List.nodup_cons.mp this).1
  have hnotw : id ∉ x.descq.workList := fun hmem => hnot (List.mem_append_right _ hmem)
  set y := x.setCb id { (x.reqs id).cb with descNr := (x.reqs id).cb.descNr - c } with hy
  have hreq : y.reqs id = { x.reqs id with
      cb := { (x.reqs id).cb with descNr := (x.reqs id).cb.descNr - c } } := by
    simp [hy, Xfer.setCb]
  have hother : ∀ i, i ≠ id → y.reqs i = x.reqs i := by
    intro i hi
    simp [hy, Xfer.setCb, Function.update_of_ne hi]
  have hwork : ∀ i ∈ x.descq.workList, y.reqs i = x.reqs i :=
    fun i hi => hother i (fun heq => hnotw (heq ▸ hi))
  constructor
  · exact h.ring.of_sameRing (sameRing_setCb _ _ _)
  · exact h.nodup
  · exact h.live
  · intro i hi
    by_cases heq : i = id
    · subst heq
      obtain ⟨hwf, hn, K, hK, hoff, hnr⟩ := h.reqs i hi
      rw [hreq]
      exact ⟨hwf, hn, K, hK, hoff, le_trans (Nat.sub_le _ _) hnr⟩
    · rw [hother i heq]
      exact h.reqs i hi
  · intro i hi
    by_cases heq : i = id
    · subst heq
      rw [hreq]
      exact h.pending i hi
    · rw [hother i heq]
      exact h.pending i hi
  · intro i hi
    rw [hwork i hi]
    exact h.partly i hi
  · intro i hi
    rw [hwork i hi]
    exact h.new i hi
  · intro i hi
    rw [hwork i (List.mem_of_mem_tail hi)]
    exact h.waiting i hi
  · exact h.owned
  · exact h.finished
  · exact Nat.zero_le _
  · have hrest : (rest ++ x.descq.workList).flatMap y.share =
        (rest ++ x.descq.workList).flatMap x.share := by
      refine List.flatMap_congr fun i hi => ?_
      unfold Xfer.share
      rw [hother i (fun heq => hnot (heq ▸ hi))]
    have hshare : y.share id = (x.share id).drop c := by
      simp [Xfer.share, hreq, List.drop_replicate]
    have hle : c ≤ (x.share id).length := by
      simp only [Xfer.share, List.length_replicate]
      omega
    have hret : y.retired = x.retired := rfl
    have hspent : x.retired - 0 = (x.retired - c) + c := by
      have := h.credit_le
      omega
    have hliveY : y.liveIds = id :: (rest ++ x.descq.workList) := hlive
    rw [hret, hspent, hliveY]
    change ((x.posted.map (·.owner)).drop (x.retired - c + c)) = _
    rw [← List.drop_drop, h.owners, hlive, List.flatMap_cons, List.flatMap_cons, hrest, hshare,
      List.drop_append_of_le_length hle]

end LedgerAt

/-- **The induction over the credit loop**: it completes the requests it can pay
for, in order, and stops with nothing in hand or with nothing pending. -/
theorem reqUpdatePendLoop_induct {P : ℕ → Xfer → Prop}
    (hdone : ∀ c x id rest, P c x → x.descq.pendList = id :: rest → (x.reqs id).cb.descNr ≤ c →
      P (c - (x.reqs id).cb.descNr) (qdmaSgtReqDone x id 0))
    (hcredit : ∀ c x id rest, P c x → x.descq.pendList = id :: rest → c < (x.reqs id).cb.descNr →
      P 0 (x.setCb id { (x.reqs id).cb with descNr := (x.reqs id).cb.descNr - c })) :
    ∀ (ids : List ReqId) {c : ℕ} {x : Xfer}, P c x → x.descq.pendList = ids →
      let r := reqUpdatePendLoop ids c x
      P r.2 r.1 ∧ (r.2 = 0 ∨ r.1.descq.pendList = []) := by
  intro ids
  induction ids with
  | nil =>
      intro c x h hpend
      exact ⟨h, Or.inr hpend⟩
  | cons id rest ih =>
      intro c x h hpend
      by_cases hle : (x.reqs id).cb.descNr ≤ c
      · have hone := hdone c x id rest h hpend hle
        have hrest : (qdmaSgtReqDone x id 0).descq.pendList = rest := by
          change x.descq.pendList.erase id = rest
          rw [hpend, List.erase_cons_head]
        simp only [reqUpdatePendLoop, if_pos hle]
        split
        · rename_i hzero
          exact ⟨hone, Or.inl hzero⟩
        · exact ih hone hrest
      · have hone := hcredit c x id rest h hpend (Nat.lt_of_not_le hle)
        simp only [reqUpdatePendLoop, if_neg hle, if_true]
        exact ⟨hone, Or.inl trivial⟩

/-- Only the first request of `work_list` can have descriptors in the ring. -/
theorem LedgerAt.sum_workList {c : ℕ} {x : Xfer} (h : LedgerAt c x) :
    (x.descq.workList.map fun id => (x.reqs id).cb.descNr).sum =
      (x.descq.workList.head?.map fun id => (x.reqs id).cb.descNr).getD 0 := by
  cases hw : x.descq.workList with
  | nil => rfl
  | cons id rest =>
      have hzero : (rest.map fun id => (x.reqs id).cb.descNr).sum = 0 := by
        refine List.sum_eq_zero fun n hn => ?_
        obtain ⟨i, hi, rfl⟩ := List.mem_map.mp hn
        exact h.new i (by rw [hw]; exact List.mem_cons_of_mem _ hi)
          (h.waiting i (by rw [hw]; exact hi))
      simp [hzero]

namespace Ledger

variable {x y : Xfer} {id : ReqId}

/-- Without requests nothing is in hand. -/
theorem credit_eq_zero (h : Ledger x) (hnil : x.liveIds = []) : x.descq.credit = 0 := by
  have := h.sum_share
  simp only [hnil, List.map_nil, List.sum_nil] at this
  omega

/-- What is in hand stays far below the wrap of the counter. -/
theorem credit_lt (h : Ledger x) : x.descq.credit < 2 ^ 31 + 2 ^ 21 := by
  cases hl : x.liveIds with
  | nil =>
      rw [h.credit_eq_zero hl]
      decide
  | cons id rest =>
      have hle := h.bounded id (by rw [hl]; rfl)
      exact lt_of_le_of_lt hle (h.reqs id (by rw [hl]; exact List.mem_cons_self)).descNr_lt

/-- A request that waits for no credit can leave its list. -/
theorem bounded_unlink (h : Ledger x) (hzero : (x.reqs id).cb.descNr = 0)
    (hwork : y.descq.workList = x.descq.workList.erase id)
    (hpend : y.descq.pendList = x.descq.pendList.erase id)
    (hcredit : y.descq.credit = x.descq.credit) (hreqs : ∀ i, i ≠ id → y.reqs i = x.reqs i) :
    ∀ i ∈ y.liveIds.head?, y.descq.credit ≤ (y.reqs i).cb.descNr := by
  have hlive : y.liveIds = x.liveIds.erase id := by
    unfold Xfer.liveIds
    rw [hwork, hpend]
    exact erase_append_erase h.nodup id
  intro i hi
  rw [hlive] at hi
  rw [hcredit]
  cases hl : x.liveIds with
  | nil => simp [hl] at hi
  | cons a l =>
      have hle := h.bounded a (by rw [hl]; rfl)
      by_cases heq : a = id
      · subst heq
        omega
      · rw [hl, List.erase_cons_tail (by simpa using heq)] at hi
        obtain rfl : a = i := by simpa using hi
        rw [hreqs a heq]
        exact hle

/-- A caller gives up on a request without descriptors in the ring. -/
theorem listDel (h : Ledger x) (hid : id ∈ x.liveIds) (hzero : (x.reqs id).cb.descNr = 0) :
    Ledger (x.listDel id) :=
  ⟨h.toLedgerAt.listDel hid hzero, h.bounded_unlink hzero rfl rfl rfl fun _ _ => rfl⟩

/-- A request without descriptors in the ring fails. -/
theorem reqFailed (h : Ledger x) (hid : id ∈ x.liveIds) (hzero : (x.reqs id).cb.descNr = 0)
    (error : ℤ) : Ledger (qdmaSgtReqDone x id error) :=
  ⟨h.toLedgerAt.reqFailed hid hzero error,
    h.bounded_unlink hzero rfl rfl rfl fun _ hi => LedgerAt.reqDone_reqs hi⟩

/-- After the credit loop, what is in hand is covered by the first request. -/
theorem of_loop {c : ℕ} (h : LedgerAt c x) (hend : c = 0 ∨ x.descq.pendList = [])
    (hc : x.descq.credit = c) : Ledger x := by
  subst hc
  refine ⟨h, ?_⟩
  intro id hid
  rcases hend with hzero | hnil
  · omega
  · have hsum := h.sum_share
    have hwork := h.sum_workList
    have hlive : x.liveIds = x.descq.workList := by
      unfold Xfer.liveIds
      rw [hnil, List.nil_append]
    rw [hlive] at hsum hid
    rw [hwork, Option.mem_def.mp hid] at hsum
    simp only [Option.map_some, Option.getD_some] at hsum
    omega

/-- **Every outcome of a writeback service**: nothing, a ring that is not there, or
the credits of a window matched together with those in hand. -/
theorem serviceWb_cases (h : Ledger x) :
    descqMmNH2cWb x = x ∨
    descqMmNH2cWb x = { x with descq := { x.descq with oops := true } } ∨
    ∃ cidx avail cr coals mmio x₁,
      x₁ = { x with
        descq := { x.descq with cidx := cidx, avail := avail }
        retired := x.retired + cr } ∧
      RingInv x₁ ∧
      descqMmNH2cWb x =
        { (reqUpdatePendLoop x.descq.pendList (cr + x.descq.credit) x₁).1 with
          descq :=
            { (reqUpdatePendLoop x.descq.pendList (cr + x.descq.credit) x₁).1.descq with
              credit := (reqUpdatePendLoop x.descq.pendList (cr + x.descq.credit) x₁).2 }
          intrCoalList := coals
          mmio := mmio } := by
  rcases descqMmNH2cWb_cases x with hr | ⟨-, hr⟩ | ⟨ring, coals, mmio, hsome, -, -, hr⟩
  · exact Or.inl hr
  · exact Or.inr (Or.inl hr)
  · have hmem : x.descq.desc.map (·.wbCidx) = some ring.wbCidx := by rw [hsome]; rfl
    obtain ⟨hlt, hwin⟩ := h.ring.window _ hmem
    have hcr := h.ring.wbCredit hlt hwin hmem
    rw [descqWbCredit_eq h.ring hlt] at hr hcr
    set cr := gap x.descq.conf.rngsz ring.wbCidx x.descq.cidx with hcrdef
    have hnowrap : u32 (cr + x.descq.credit) = cr + x.descq.credit := by
      have hgap : cr < rngSzDflt := by
        rw [← h.ring.rngsz_eq]
        exact gap_lt (Nat.lt_of_le_of_lt (Nat.zero_le _) h.ring.pidx_lt)
      have hsz : rngSzDflt = 256 := rfl
      have := h.credit_lt
      exact u32_of_lt (by omega)
    refine Or.inr (Or.inr ⟨ring.wbCidx, u32 (x.descq.avail + cr), cr, coals, mmio, _, rfl, hcr, ?_⟩)
    rw [hr]
    simp only [reqUpdatePend, hnowrap]

/-- The credits of a window come on top of what was in hand. -/
theorem retired_window (h : Ledger x) {cidx avail cr : ℕ}
    (hring : RingInv { x with
      descq := { x.descq with cidx := cidx, avail := avail }
      retired := x.retired + cr }) :
    LedgerAt (cr + x.descq.credit) { x with
      descq := { x.descq with cidx := cidx, avail := avail }
      retired := x.retired + cr } := by
  have hle := h.credit_le
  refine h.toLedgerAt.of_frame hring rfl rfl rfl rfl rfl rfl rfl ?_ ?_
  · change cr + x.descq.credit ≤ x.retired + cr
    omega
  · change x.retired + cr - (cr + x.descq.credit) = x.retired - x.descq.credit
    omega

/-- **A writeback** keeps the correspondence. -/
theorem serviceWb (h : Ledger x) : Ledger (descqMmNH2cWb x) := by
  have hring := h.ring.serviceWb
  rcases h.serviceWb_cases with hr | hr | ⟨cidx, avail, cr, coals, mmio, x₁, rfl, hx₁, hr⟩
  · rw [hr]
    exact h
  · rw [hr] at hring ⊢
    exact ⟨h.toLedgerAt.of_frame hring rfl rfl rfl rfl rfl rfl rfl h.credit_le rfl, h.bounded⟩
  · obtain ⟨hloop, hend⟩ := reqUpdatePendLoop_induct
      (fun _ _ _ _ hx => hx.reqCompleted) (fun _ _ _ _ hx => hx.reqCredited)
      x.descq.pendList (h.retired_window hx₁) rfl
    rw [hr] at hring ⊢
    refine of_loop ?_ hend rfl
    exact hloop.of_frame hring rfl rfl rfl rfl rfl rfl rfl hloop.credit_le rfl

end Ledger

/-! ## Posting -/

/-- A batch posted for the first request of `work_list`, going on where the last
batch ended. -/
structure Advances (x : Xfer) (id : ReqId) (K : ℕ) (y : Xfer) : Prop where
  K_le : K ≤ (pieces (blenOf x.descq) (x.reqs id).sgt.sgl).length
  offset_eq : (x.reqs id).cb.offset =
    total ((pieces (blenOf x.descq) (x.reqs id).sgt.sgl).take K)
  descNr_le : (x.reqs id).cb.descNr ≤ K
  avail_ne : x.descq.avail ≠ 0
  posts : Posts x id
    (((pieces (blenOf x.descq) (x.reqs id).sgt.sgl).drop K).take x.descq.avail) y

namespace Advances

variable {x y : Xfer} {id : ReqId} {K c : ℕ} {rest : List ReqId}

/-- The number of descriptors of the batch. -/
theorem length_batch (x : Xfer) (id : ReqId) (K : ℕ) :
    (((pieces (blenOf x.descq) (x.reqs id).sgt.sgl).drop K).take x.descq.avail).length =
      min x.descq.avail ((pieces (blenOf x.descq) (x.reqs id).sgt.sgl).length - K) := by
  simp

/-- The control block counts the batch, without a wrap. -/
theorem descNr_eq (h : Advances x id K y) (hok : ReqOk (blenOf x.descq) (x.reqs id)) :
    (y.reqs id).cb.descNr = (x.reqs id).cb.descNr +
      min x.descq.avail ((pieces (blenOf x.descq) (x.reqs id).sgt.sgl).length - K) := by
  have hlt := descsNeeded_lt (d := x.descq) hok.wf hok.nents_lt
  rw [← length_pieces (blenOf_pos _)] at hlt
  have := h.K_le
  have := h.descNr_le
  rw [h.posts.reqs_self]
  simp only [postedCb, QdmaSgtReqCb.account, length_batch]
  exact u32_of_lt (by omega)

/-- The first request of `work_list` is in the lists once. -/
theorem notMem_lists (hnodup : x.liveIds.Nodup) (hw : x.descq.workList = id :: rest) :
    id ∉ x.descq.pendList ∧ id ∉ rest := by
  unfold Xfer.liveIds at hnodup
  rw [hw] at hnodup
  obtain ⟨-, hwork, hapart⟩ := List.nodup_append.mp hnodup
  exact ⟨fun hp => hapart id hp id List.mem_cons_self rfl, (List.nodup_cons.mp hwork).1⟩

/-- Where the batch leaves the lists: the request is done and moves on, or the
ring is full. -/
theorem lists (h : Advances x id K y) (hok : ReqOk (blenOf x.descq) (x.reqs id))
    (hnodup : x.liveIds.Nodup) (hw : x.descq.workList = id :: rest)
    (hav : x.descq.avail < 2 ^ 32) :
    ((y.reqs id).cb.offset = (x.reqs id).count ∧ y.descq.workList = rest ∧
      y.descq.pendList = x.descq.pendList ++ [id]) ∨
    ((y.reqs id).cb.offset ≠ (x.reqs id).count ∧ (y.reqs id).cb.offset ≠ 0 ∧
      y.descq.avail = 0 ∧ y.descq.workList = id :: rest ∧
      y.descq.pendList = x.descq.pendList) := by
  have hb := blenOf_pos x.descq
  obtain ⟨hoff, hfull⟩ := postedCb_offset hb hok.wf h.offset_eq x.descq.avail
  have hnew : (y.reqs id).cb.offset =
      total ((pieces (blenOf x.descq) (x.reqs id).sgt.sgl).take (K + x.descq.avail)) := by
    rw [h.posts.reqs_self]
    exact hoff
  have hlists := h.posts.lists
  rw [hoff] at hlists
  have hnotp := (notMem_lists hnodup hw).1
  by_cases hall : (pieces (blenOf x.descq) (x.reqs id).sgt.sgl).length ≤ K + x.descq.avail
  · left
    rw [if_pos (hfull.mpr hall)] at hlists
    simp only [Prod.mk.injEq] at hlists
    refine ⟨by rw [hnew]; exact hfull.mpr hall, ?_, ?_⟩
    · rw [hlists.1, hw, List.erase_cons_head]
    · rw [hlists.2, List.erase_of_not_mem hnotp]
  · right
    have hpart := fun heq => hall (hfull.mp heq)
    rw [if_neg hpart] at hlists
    simp only [Prod.mk.injEq] at hlists
    refine ⟨by rw [hnew]; exact hpart, ?_, ?_, by rw [hlists.1, hw], hlists.2⟩
    · rw [hnew]
      have hpos := total_take_pieces_lt (show 0 < K + x.descq.avail by
        have := h.avail_ne
        omega) (Nat.le_of_lt (Nat.lt_of_not_le hall))
      omega
    · have havail : y.descq.avail = u32Sub x.descq.avail
          (((pieces (blenOf x.descq) (x.reqs id).sgt.sgl).drop K).take x.descq.avail).length := by
        rw [h.posts.frame]
      rw [havail, length_batch, u32Sub_of_le hav (Nat.min_le_left _ _)]
      omega

theorem liveIds_eq (h : Advances x id K y) (hok : ReqOk (blenOf x.descq) (x.reqs id))
    (hnodup : x.liveIds.Nodup) (hw : x.descq.workList = id :: rest)
    (hav : x.descq.avail < 2 ^ 32) : y.liveIds = x.liveIds := by
  unfold Xfer.liveIds
  rcases h.lists hok hnodup hw hav with ⟨-, hw', hp'⟩ | ⟨-, -, -, hw', hp'⟩
  · rw [hw', hp', hw, List.append_assoc, List.singleton_append]
  · rw [hw', hp', hw]

/-- The other requests of the lists are left alone. -/
theorem reqs_of_lists (h : Advances x id K y) (hnodup : x.liveIds.Nodup)
    (hw : x.descq.workList = id :: rest) :
    (∀ i ∈ x.descq.pendList, y.reqs i = x.reqs i) ∧ ∀ i ∈ rest, y.reqs i = x.reqs i := by
  obtain ⟨hpend, hrest⟩ := notMem_lists hnodup hw
  constructor
  · intro i hi
    exact h.posts.reqs_of_ne fun heq => hpend (heq ▸ hi)
  · intro i hi
    exact h.posts.reqs_of_ne fun heq => hrest (heq ▸ hi)

/-- The request is left that many pieces further on. -/
theorem reqOk (h : Advances x id K y) (hok : ReqOk (blenOf x.descq) (x.reqs id)) :
    ReqOk (blenOf x.descq) (y.reqs id) := by
  have hself := h.posts.reqs_self
  have hsgt : (y.reqs id).sgt = (x.reqs id).sgt := by rw [hself]
  have hcount : (y.reqs id).count = (x.reqs id).count := by rw [hself]
  have hle := h.K_le
  refine ⟨?_, ?_, K + min x.descq.avail
    ((pieces (blenOf x.descq) (x.reqs id).sgt.sgl).length - K), ?_, ?_, ?_⟩
  · unfold QdmaSgReq.WellFormed
    rw [hsgt, hcount]
    exact hok.wf
  · rw [hsgt]
    exact hok.nents_lt
  · rw [hsgt]
    omega
  · have hoff := (postedCb_offset (blenOf_pos x.descq) hok.wf h.offset_eq x.descq.avail).1
    have hmin : (pieces (blenOf x.descq) (x.reqs id).sgt.sgl).take (K + x.descq.avail) =
        (pieces (blenOf x.descq) (x.reqs id).sgt.sgl).take (K + min x.descq.avail
          ((pieces (blenOf x.descq) (x.reqs id).sgt.sgl).length - K)) := by
      rw [List.take_eq_take_iff]
      omega
    rw [hsgt, hself, ← hmin]
    exact hoff
  · have := h.descNr_le
    rw [h.descNr_eq hok]
    omega

/-- In ring order the batch stands last, and is all the request's. -/
theorem posted_owners (h : Advances x id K y) :
    y.posted.map (·.owner) = x.posted.map (·.owner) ++ List.replicate
      (min x.descq.avail ((pieces (blenOf x.descq) (x.reqs id).sgt.sgl).length - K)) id := by
  obtain ⟨ps, hps, hmap, howner⟩ := h.posts.posted_eq
  have hlen : ps.length =
      min x.descq.avail ((pieces (blenOf x.descq) (x.reqs id).sgt.sgl).length - K) := by
    have := congrArg List.length hmap
    rw [List.length_map, length_batch] at this
    exact this
  rw [hps, List.map_append]
  congr 1
  refine List.eq_replicate_iff.mpr ⟨by simpa using hlen, ?_⟩
  intro o ho
  obtain ⟨p, hp, rfl⟩ := List.mem_map.mp ho
  exact howner p hp

/-- What the requests claim grows by the batch, at the end: those behind the first
of `work_list` have posted nothing. -/
theorem claims_eq (h : Advances x id K y) (hl : LedgerAt c x)
    (hw : x.descq.workList = id :: rest) :
    x.liveIds.flatMap y.share = x.liveIds.flatMap x.share ++ List.replicate
      (min x.descq.avail ((pieces (blenOf x.descq) (x.reqs id).sgt.sgl).length - K)) id := by
  have hid : id ∈ x.liveIds := by
    unfold Xfer.liveIds
    rw [hw]
    simp
  obtain ⟨hpend, hrest⟩ := h.reqs_of_lists hl.nodup hw
  have hpendshare : x.descq.pendList.flatMap y.share = x.descq.pendList.flatMap x.share := by
    refine List.flatMap_congr fun i hi => ?_
    unfold Xfer.share
    rw [hpend i hi]
  have hrestshare : ∀ z : Xfer, (∀ i ∈ rest, z.reqs i = x.reqs i) → rest.flatMap z.share = [] := by
    intro z hz
    refine List.flatMap_eq_nil_iff.mpr fun i hi => ?_
    have htail : i ∈ x.descq.workList.tail := by
      rw [hw]
      exact hi
    unfold Xfer.share
    rw [hz i hi, hl.new i (List.mem_of_mem_tail htail) (hl.waiting i htail), List.replicate_zero]
  have hselfshare : y.share id = x.share id ++ List.replicate
      (min x.descq.avail ((pieces (blenOf x.descq) (x.reqs id).sgt.sgl).length - K)) id := by
    unfold Xfer.share
    rw [h.descNr_eq (hl.reqs id hid), List.replicate_add]
  unfold Xfer.liveIds
  rw [hw, List.flatMap_append, List.flatMap_append, List.flatMap_cons, List.flatMap_cons,
    hrestshare x (fun _ _ => rfl), hrestshare y hrest, hpendshare, hselfshare]
  simp

/-- The batch goes behind what is pending already. -/
theorem head_pendList (h : Advances x id K y) (hok : ReqOk (blenOf x.descq) (x.reqs id))
    (hnodup : x.liveIds.Nodup) (hw : x.descq.workList = id :: rest)
    (hav : x.descq.avail < 2 ^ 32) (hne : x.descq.pendList ≠ []) :
    y.descq.pendList.head? = x.descq.pendList.head? := by
  obtain ⟨a, l, hl⟩ := List.exists_cons_of_ne_nil hne
  rcases h.lists hok hnodup hw hav with ⟨-, -, hp⟩ | ⟨-, -, -, -, hp⟩
  · rw [hp, hl]
    rfl
  · rw [hp]

/-- **A batch keeps the correspondence**: its descriptors go to the end of the
ring order, and the request they belong to is the last one with any. -/
theorem ledgerAt (h : Advances x id K y) (hl : LedgerAt c x)
    (hw : x.descq.workList = id :: rest) : LedgerAt c y := by
  have hid : id ∈ x.liveIds := by
    unfold Xfer.liveIds
    rw [hw]
    simp
  have hok := hl.reqs id hid
  have hav : x.descq.avail < 2 ^ 32 := lt_trans hl.ring.avail_lt hl.ring.rngsz_lt
  have hlive := h.liveIds_eq hok hl.nodup hw hav
  have hcases := h.lists hok hl.nodup hw hav
  obtain ⟨hpendkept, hrestkept⟩ := h.reqs_of_lists hl.nodup hw
  have hother : ∀ i, i ≠ id → y.reqs i = x.reqs i := fun i hi => h.posts.reqs_of_ne hi
  have hblen : blenOf y.descq = blenOf x.descq := by
    have hconf : y.descq.conf = x.descq.conf := by rw [h.posts.frame]
    unfold blenOf
    rw [hconf]
  have hret : y.retired = x.retired := by rw [h.posts.frame]
  have hsubm : y.submitted = x.submitted := by rw [h.posts.frame]
  have hcomp : y.completed = x.completed := by rw [h.posts.frame]
  have hcount : (y.reqs id).count = (x.reqs id).count := by rw [h.posts.reqs_self]
  -- a request that is still to be worked on is the first one, partly posted, or one behind it
  have hworkmem : ∀ i ∈ y.descq.workList,
      i ∈ rest ∨ (i = id ∧ (y.reqs id).cb.offset ≠ (x.reqs id).count ∧
        (y.reqs id).cb.offset ≠ 0) := by
    intro i hi
    rcases hcases with ⟨-, hw', -⟩ | ⟨hpart, hne, -, hw', -⟩
    · rw [hw'] at hi
      exact Or.inl hi
    · rw [hw'] at hi
      rcases List.mem_cons.mp hi with heq | hmem
      · exact Or.inr ⟨heq, hpart, hne⟩
      · exact Or.inl hmem
  have hrestmem : ∀ i ∈ rest, i ∈ x.descq.workList := by
    intro i hi
    rw [hw]
    exact List.mem_cons_of_mem _ hi
  constructor
  · exact hl.ring.posts h.posts (by simp)
  · rw [hlive]
    exact hl.nodup
  · rw [hlive, hsubm]
    exact hl.live
  · intro i hi
    rw [hlive] at hi
    rw [hblen]
    by_cases heq : i = id
    · subst heq
      exact h.reqOk hok
    · rw [hother i heq]
      exact hl.reqs i hi
  · intro i hi
    rcases hcases with ⟨hoff, -, hp'⟩ | ⟨-, -, -, -, hp'⟩
    · rw [hp'] at hi
      by_cases heq : i = id
      · subst heq
        rw [hcount, hoff]
      · rw [hother i heq]
        have hmem : i ∈ x.descq.pendList := by
          simpa [heq] using hi
        exact hl.pending i hmem
    · rw [hp'] at hi
      rw [hpendkept i hi]
      exact hl.pending i hi
  · intro i hi
    rcases hworkmem i hi with hr | ⟨rfl, hpart, -⟩
    · rw [hrestkept i hr]
      exact hl.partly i (hrestmem i hr)
    · rw [hcount]
      exact fun _ => hpart
  · intro i hi
    rcases hworkmem i hi with hr | ⟨rfl, -, hne⟩
    · rw [hrestkept i hr]
      exact hl.new i (hrestmem i hr)
    · exact fun hzero => absurd hzero hne
  · intro i hi
    have hr : i ∈ rest := by
      rcases hcases with ⟨-, hw', -⟩ | ⟨-, -, -, hw', -⟩
      · rw [hw'] at hi
        exact List.mem_of_mem_tail hi
      · rw [hw'] at hi
        exact hi
    rw [hrestkept i hr]
    refine hl.waiting i ?_
    rw [hw]
    exact hr
  · intro p hp
    obtain ⟨ps, hps, -, howner⟩ := h.posts.posted_eq
    rw [hsubm]
    rw [hps] at hp
    rcases List.mem_append.mp hp with hold | hnew
    · exact hl.owned p hold
    · rw [howner p hnew]
      exact hl.live id hid
  · rw [hcomp, hsubm, hlive]
    exact hl.finished
  · rw [hret]
    exact hl.credit_le
  · -- the batch comes last on both sides
    have hspent : x.retired - c ≤ (x.posted.map (·.owner)).length := by
      have := hl.ring.posted_eq
      simp only [List.length_map]
      omega
    rw [hret, h.posted_owners, List.drop_append_of_le_length hspent, hl.owners, hlive,
      h.claims_eq hl hw]

end Advances

/-! ## A worker pass -/

/-- Every partly posted request is taken up at the start of a segment. -/
def Xfer.ResumesAtSegments (x : Xfer) : Prop :=
  ∀ id ∈ x.descq.workList, (x.reqs id).cb.offset ≠ 0 → (x.reqs id).resumesAtSegment

instance (x : Xfer) : Decidable x.ResumesAtSegments := List.decidableBAll _ _

namespace Ledger

variable {x : Xfer} {id : ReqId} {rest : List ReqId}

/-- **What the worker does with the first request**: nothing for want of room, an
error for one that has nothing to post, or a batch. -/
theorem wrkProcOne_cases (h : Ledger x) (hw : x.descq.workList = id :: rest)
    (hres : x.ResumesAtSegments) :
    (x.descq.avail = 0 ∧ wrkProcOne x id = x) ∨
    ((x.reqs id).cb.descNr = 0 ∧ (x.reqs id).count = 0 ∧
      ∃ error, wrkProcOne x id = qdmaSgtReqDone x id error) ∨
    ∃ K, Advances x id K (wrkProcOne x id) := by
  have hmem : id ∈ x.descq.workList := by
    rw [hw]
    exact List.mem_cons_self
  have hok := h.reqs id (List.mem_append_right _ hmem)
  have hb := blenOf_pos x.descq
  obtain ⟨K, sg, hK, hstart, hpieces, hoff, hnr⟩ := hok.postStart_eq hb (hres id hmem)
  have hnr' : (x.reqs id).cb.descNr ≤ K := by
    rcases hnr with hle | hzero
    · exact hle
    · rw [h.new id hmem hzero]
      exact Nat.zero_le _
  rcases proc_cases x id h.ring.kind with ⟨hav, hr⟩ | ⟨-, hnone, -⟩ |
    ⟨-, sg', off', hs, -, hnil, hr⟩ | ⟨hav, sg', off', hs, -, hrv, hr⟩
  · left
    refine ⟨hav, ?_⟩
    simp [wrkProcOne, hr]
  · rw [hstart] at hnone
    cases hnone
  · right; left
    rw [hstart] at hs
    simp only [Option.some.injEq, Prod.mk.injEq] at hs
    -- nothing is left to post, so nothing was posted
    have hall : (x.reqs id).cb.offset = (x.reqs id).count := by
      rw [← hs.1, hpieces, List.drop_eq_nil_iff] at hnil
      rw [hoff, List.take_of_length_le hnil, total_pieces hb]
      exact hok.wf
    have hzero : (x.reqs id).cb.offset = 0 := by
      by_contra hne
      exact h.partly id hmem hne hall
    refine ⟨h.new id hmem hzero, by omega, -eio, ?_⟩
    simp [wrkProcOne, hr, eio]
  · right; right
    rw [hstart] at hs
    simp only [Option.some.injEq, Prod.mk.injEq] at hs
    rw [← hs.1, hpieces] at hr
    have hone : wrkProcOne x id = (qdmaDescqProcSgtRequest x id).2 := by
      simp [wrkProcOne, hrv]
    rw [hone]
    exact ⟨K, hK, hoff, hnr', hav, hr⟩

/-- One request of a worker pass keeps the correspondence. -/
theorem wrkProcOne (h : Ledger x) (hw : x.descq.workList = id :: rest)
    (hres : x.ResumesAtSegments) : Ledger (wrkProcOne x id) := by
  have hid : id ∈ x.liveIds := by
    unfold Xfer.liveIds
    rw [hw]
    simp
  rcases h.wrkProcOne_cases hw hres with ⟨-, hr⟩ | ⟨hzero, -, error, hr⟩ | ⟨K, hadv⟩
  · rw [hr]
    exact h
  · rw [hr]
    exact h.reqFailed hid hzero error
  · have hok := h.reqs id hid
    have hav : x.descq.avail < 2 ^ 32 := lt_trans h.ring.avail_lt h.ring.rngsz_lt
    have hcredit : (Qdma.wrkProcOne x id).descq.credit = x.descq.credit := by
      rw [hadv.posts.frame]
    refine ⟨?_, ?_⟩
    · rw [hcredit]
      exact hadv.ledgerAt h.toLedgerAt hw
    · intro i hi
      rw [hadv.liveIds_eq hok h.nodup hw hav] at hi
      have hle := h.bounded i hi
      rw [hcredit]
      by_cases heq : i = id
      · subst heq
        rw [hadv.descNr_eq hok]
        omega
      · rw [hadv.posts.reqs_of_ne heq]
        exact hle

/-- After the first request either the ring is full or the pass goes on with the
second, which is a new one. -/
theorem wrkProcOne_next (h : Ledger x) (hw : x.descq.workList = id :: rest)
    (hres : x.ResumesAtSegments) :
    (Qdma.wrkProcOne x id).descq.avail = 0 ∨
    ((Qdma.wrkProcOne x id).descq.workList = rest ∧
      (Qdma.wrkProcOne x id).ResumesAtSegments) := by
  have hid : id ∈ x.liveIds := by
    unfold Xfer.liveIds
    rw [hw]
    simp
  have hnew : ∀ y : Xfer, y.descq.workList = rest → (∀ i, i ≠ id → y.reqs i = x.reqs i) →
      y.ResumesAtSegments := by
    intro y hy hreqs i hi hne
    rw [hy] at hi
    have hi' : i ≠ id := by
      rintro rfl
      have hn := h.nodup
      unfold Xfer.liveIds at hn
      rw [hw] at hn
      exact (List.nodup_cons.mp (List.nodup_append.mp hn).2.1).1 hi
    rw [hreqs i hi'] at hne
    exact absurd (h.waiting i (by rw [hw]; exact hi)) hne
  rcases h.wrkProcOne_cases hw hres with ⟨hav, hr⟩ | ⟨hzero, -, error, hr⟩ | ⟨K, hadv⟩
  · rw [hr]
    exact Or.inl hav
  · have hlist : (qdmaSgtReqDone x id error).descq.workList = rest := by
      change x.descq.workList.erase id = rest
      rw [hw, List.erase_cons_head]
    rw [hr]
    exact Or.inr ⟨hlist, hnew _ hlist fun _ hi => LedgerAt.reqDone_reqs hi⟩
  · have hav : x.descq.avail < 2 ^ 32 := lt_trans h.ring.avail_lt h.ring.rngsz_lt
    rcases hadv.lists (h.reqs id hid) h.nodup hw hav with ⟨-, hlist, -⟩ | ⟨-, -, hfull, -⟩
    · exact Or.inr ⟨hlist, hnew _ hlist fun _ hi => hadv.posts.reqs_of_ne hi⟩
    · exact Or.inl hfull

/-- **The induction over a worker pass**: what holds with the correspondence and is
kept by every request of the pass is kept by the pass. -/
theorem wrkProcLoop_induct {P : Xfer → Prop} (hP : ∀ x, P x → Ledger x)
    (hone : ∀ x id rest, P x → x.descq.workList = id :: rest → x.ResumesAtSegments →
      P (Qdma.wrkProcOne x id)) :
    ∀ (ids : List ReqId) {x : Xfer}, P x → x.descq.workList = ids → x.ResumesAtSegments →
      P (wrkProcLoop ids x) := by
  intro ids
  induction ids with
  | nil => intro x hx _ _; exact hx
  | cons id rest ih =>
      intro x hx hw hres
      have hstep := hone x id rest hx hw hres
      simp only [wrkProcLoop]
      split
      · exact hstep
      · rename_i hav
        rcases (hP x hx).wrkProcOne_next hw hres with hfull | ⟨hlist, hres'⟩
        · exact absurd hfull hav
        · exact ih hstep hlist hres'

end Ledger

/-! ## Runs -/

/-- A request as a new one is queued. -/
def Xfer.enqueue (x : Xfer) (id : ReqId) (req : QdmaSgReq) : Xfer :=
  { x with
    descq := { x.descq with workList := x.descq.workList ++ [id] }
    reqs := Function.update x.reqs id { req with cb := QdmaSgtReqCb.zero }
    submitted := x.submitted ++ [id] }

/-- A submission is refused or the request is queued. -/
theorem qdmaSgReqSubmit_cases (x : Xfer) (id : ReqId) (req : QdmaSgReq) :
    (qdmaSgReqSubmit x id req).2 = x ∨
    ((qdmaSgReqSubmit x id req).2 = x.enqueue id req ∧
      (req.dmaMapped = false → req.sgt.nents ≠ 0)) := by
  unfold qdmaSgReqSubmit
  split_ifs with hdir hmap honline
  · exact Or.inl rfl
  · exact Or.inl rfl
  · exact Or.inl rfl
  · refine Or.inr ⟨rfl, fun hm hn => hmap ?_⟩
    simp [hm, hn]

theorem Ledger.enqueue {x : Xfer} {id : ReqId} {req : QdmaSgReq} (h : Ledger x)
    (hnew : id ∉ x.submitted) (hwf : req.WellFormed) (hn : req.sgt.nents < 2 ^ 31) :
    Ledger (x.enqueue id req) := by
  have hnot : id ∉ x.liveIds := fun hmem => hnew (h.live id hmem)
  have hlive : (x.enqueue id req).liveIds = x.liveIds ++ [id] := by
    simp [Xfer.liveIds, Xfer.enqueue]
  have hself : (x.enqueue id req).reqs id = { req with cb := QdmaSgtReqCb.zero } := by
    simp [Xfer.enqueue]
  have hother : ∀ i, i ≠ id → (x.enqueue id req).reqs i = x.reqs i := by
    intro i hi
    simp [Xfer.enqueue, Function.update_of_ne hi]
  have hold : ∀ i ∈ x.liveIds, (x.enqueue id req).reqs i = x.reqs i :=
    fun i hi => hother i fun heq => hnot (heq ▸ hi)
  have hworkmem : ∀ i ∈ (x.enqueue id req).descq.workList, i ∈ x.descq.workList ∨ i = id := by
    intro i hi
    simpa [Xfer.enqueue] using hi
  refine ⟨⟨?_, ?_, ?_, ?_, ?_, ?_, ?_, ?_, ?_, ?_, h.credit_le, ?_⟩, ?_⟩
  · have hr := h.ring
    exact ⟨hr.kind, hr.rngsz_eq, hr.pidx_lt, hr.cidx_lt, hr.avail_add, hr.posted_eq, hr.pidx_eq,
      hr.cidx_eq, hr.window⟩
  · rw [hlive]
    exact List.Nodup.append h.nodup (List.nodup_singleton id) (by simpa using hnot)
  · intro i hi
    rw [hlive] at hi
    rcases List.mem_append.mp hi with hmem | hmem
    · exact List.mem_append_left _ (h.live i hmem)
    · exact List.mem_append_right _ hmem
  · intro i hi
    rw [hlive] at hi
    change ReqOk (blenOf x.descq) _
    rcases List.mem_append.mp hi with hmem | hmem
    · rw [hold i hmem]
      exact h.reqs i hmem
    · obtain rfl : i = id := by simpa using hmem
      rw [hself]
      exact ⟨hwf, hn, 0, Nat.zero_le _, by simp [QdmaSgtReqCb.zero], by simp [QdmaSgtReqCb.zero]⟩
  · intro i hi
    rw [hold i (List.mem_append_left _ hi)]
    exact h.pending i hi
  · intro i hi
    rcases hworkmem i hi with hmem | rfl
    · rw [hold i (List.mem_append_right _ hmem)]
      exact h.partly i hmem
    · rw [hself]
      intro hne
      exact absurd rfl hne
  · intro i hi
    rcases hworkmem i hi with hmem | rfl
    · rw [hold i (List.mem_append_right _ hmem)]
      exact h.new i hmem
    · rw [hself]
      exact fun _ => rfl
  · intro i hi
    by_cases heq : i = id
    · subst heq
      rw [hself]
      rfl
    · have hmem : i ∈ x.descq.workList.tail := by
        change i ∈ (x.descq.workList ++ [id]).tail at hi
        cases hw : x.descq.workList with
        | nil => simp [hw] at hi
        | cons a l => simpa [hw, heq] using hi
      rw [hother i heq]
      exact h.waiting i hmem
  · intro p hp
    exact List.mem_append_left _ (h.owned p hp)
  · intro e he
    obtain ⟨hs, hl⟩ := h.finished e he
    refine ⟨List.mem_append_left _ hs, ?_⟩
    rw [hlive]
    intro hmem
    rcases List.mem_append.mp hmem with hmem | hmem
    · exact hl hmem
    · obtain heq : e.id = id := by simpa using hmem
      exact hnew (heq ▸ hs)
  · have hshare : x.liveIds.flatMap (x.enqueue id req).share = x.liveIds.flatMap x.share := by
      refine List.flatMap_congr fun i hi => ?_
      unfold Xfer.share
      rw [hold i hi]
    have hzero : (x.enqueue id req).share id = [] := by
      simp [Xfer.share, hself, QdmaSgtReqCb.zero]
    rw [hlive, List.flatMap_append, hshare, List.flatMap_cons, hzero, List.flatMap_nil,
      List.append_nil, List.append_nil]
    exact h.owners
  · intro i hi
    rw [hlive] at hi
    change x.descq.credit ≤ _
    cases hl : x.liveIds with
    | nil =>
        rw [h.credit_eq_zero hl]
        exact Nat.zero_le _
    | cons a l =>
        rw [hl] at hi
        obtain rfl : a = i := by simpa using hi
        rw [hold a (by rw [hl]; exact List.mem_cons_self)]
        exact h.bounded a (by rw [hl]; rfl)

/-- The steps that keep ring order and list order together: requests are well
formed, partly posted ones are taken up between segments, and no caller gives up
on a request with descriptors in the ring. -/
def StepOk (x : Xfer) : Ev → Prop
  | .submit _ req => req.WellFormed ∧ req.sgt.nents < 2 ^ 31
  | .wrkProc => x.ResumesAtSegments
  | .timeout id => (x.reqs id).cb.descNr = 0
  | .serviceWb | .hwWb _ | .ret _ => True

instance (req : QdmaSgReq) : Decidable req.WellFormed :=
  inferInstanceAs (Decidable (_ = _))

instance decidableStepOk (x : Xfer) : ∀ e, Decidable (StepOk x e) := by
  rintro ⟨⟩ <;> dsimp only [StepOk] <;> infer_instance

instance (x : Xfer) (e : Ev) : Decidable ((xferSys.restrict StepOk).guard x e) :=
  inferInstanceAs (Decidable (xferGuard x e ∧ StepOk x e))

/-- **Every step that `StepOk` allows keeps the correspondence.** -/
theorem Ledger.step {x : Xfer} {e : Ev} (h : Ledger x) (hg : xferGuard x e) (hok : StepOk x e) :
    Ledger (xferStep x e) := by
  cases e with
  | submit id req =>
      rcases qdmaSgReqSubmit_cases x id req with hr | ⟨hr, -⟩
      · rw [xferStep, hr]
        exact h
      · rw [xferStep, hr]
        exact h.enqueue hg.1 hok.1 hok.2
  | wrkProc =>
      exact Ledger.wrkProcLoop_induct (fun _ hx => hx)
        (fun _ _ _ hx hw hres => Ledger.wrkProcOne hx hw hres) _ h rfl hok
  | serviceWb =>
      rw [xferStep, serviceWb_of_isMmOrH2c h.ring.kind]
      exact h.serviceWb
  | hwWb c =>
      have hring := h.ring.hwWriteback hg.1 hg.2
      exact ⟨h.toLedgerAt.of_frame hring rfl rfl rfl rfl rfl rfl rfl h.credit_le rfl, h.bounded⟩
  | timeout id =>
      refine h.listDel ?_ hok
      unfold Xfer.liveIds
      rcases hg.2.2 with hw | hp
      · exact List.mem_append_right _ hw
      · exact List.mem_append_left _ hp
  | ret id =>
      have hring := h.ring.of_frame (y := { x with returned := x.returned ++ [id] }) rfl rfl rfl
      exact ⟨h.toLedgerAt.of_frame hring rfl rfl rfl rfl rfl rfl rfl h.credit_le rfl, h.bounded⟩

/-- A configured queue over a cleared ring, with nothing queued. -/
structure FreshQueue (d : QdmaDescq) : Prop where
  kind : d.isMmOrH2c
  rngsz_eq : d.conf.rngsz = rngSzDflt
  avail_eq : d.avail = rngSzDflt - 1
  pidx_eq : d.pidx = 0
  cidx_eq : d.cidx = 0
  credit_eq : d.credit = 0
  workList_eq : d.workList = []
  pendList_eq : d.pendList = []
  wbCidx_eq : ∀ r, d.desc = some r → r.wbCidx = 0

theorem freshQueue_config (numVecs pftchEn : ℕ) (d : QdmaDescq) (qconf : QdmaQueueConf)
    (reconfig : Bool) (hkind : (qdmaDescqConfig numVecs pftchEn d qconf reconfig).isMmOrH2c)
    (hwork : d.workList = []) (hpend : d.pendList = [])
    (hring : ∀ r, d.desc = some r → r.wbCidx = 0) :
    FreshQueue (qdmaDescqConfig numVecs pftchEn d qconf reconfig) :=
  ⟨hkind, rfl, rfl, rfl, rfl, rfl, hwork, hpend, hring⟩

theorem FreshQueue.ringInv {d : QdmaDescq} (h : FreshQueue d) (reqs : ReqId → QdmaSgReq)
    (coalEn : Bool) (coals : List IntrCoalConf) : RingInv (Xfer.init d reqs coalEn coals) := by
  have hsize : 0 < rngSzDflt := by decide
  have hflight : (Xfer.init d reqs coalEn coals).inFlight = 0 := by
    change gap d.conf.rngsz d.pidx d.cidx = 0
    rw [h.pidx_eq, h.cidx_eq, gap_self]
  refine ⟨h.kind, h.rngsz_eq, ?_, ?_, ?_, ?_, ?_, ?_, ?_⟩
  · change d.pidx < d.conf.rngsz
    rw [h.pidx_eq, h.rngsz_eq]
    exact hsize
  · change d.cidx < d.conf.rngsz
    rw [h.cidx_eq, h.rngsz_eq]
    exact hsize
  · rw [hflight]
    change d.avail + 0 = d.conf.rngsz - 1
    rw [h.avail_eq, h.rngsz_eq]
    rfl
  · rw [hflight]
    rfl
  · change d.pidx = 0 % d.conf.rngsz
    rw [h.pidx_eq, Nat.zero_mod]
  · change d.cidx = 0 % d.conf.rngsz
    rw [h.cidx_eq, Nat.zero_mod]
  · intro c hc
    obtain ⟨r, hr, hrc⟩ := Option.map_eq_some_iff.mp hc
    obtain rfl : c = 0 := hrc.symm.trans (h.wbCidx_eq r hr)
    rw [hflight]
    change 0 < d.conf.rngsz ∧ gap d.conf.rngsz 0 d.cidx ≤ 0
    rw [h.cidx_eq, h.rngsz_eq, gap_self]
    exact ⟨hsize, le_rfl⟩

theorem FreshQueue.ledger {d : QdmaDescq} (h : FreshQueue d) (reqs : ReqId → QdmaSgReq)
    (coalEn : Bool) (coals : List IntrCoalConf) : Ledger (Xfer.init d reqs coalEn coals) := by
  have hlive : (Xfer.init d reqs coalEn coals).liveIds = [] := by
    change d.pendList ++ d.workList = []
    rw [h.pendList_eq, h.workList_eq, List.append_nil]
  have hnil : ∀ {α : Type} {a : α} {l : List α}, l = [] → a ∉ l := by
    rintro α a l rfl
    exact List.not_mem_nil
  refine ⟨⟨h.ringInv reqs coalEn coals, ?_, ?_, ?_, ?_, ?_, ?_, ?_, ?_, ?_, ?_, ?_⟩, ?_⟩
  · rw [hlive]
    exact List.nodup_nil
  · exact fun i hi => absurd hi (hnil hlive)
  · exact fun i hi => absurd hi (hnil hlive)
  · exact fun i hi => absurd hi (hnil h.pendList_eq)
  · exact fun i hi => absurd hi (hnil h.workList_eq)
  · exact fun i hi => absurd hi (hnil h.workList_eq)
  · exact fun i hi => absurd (List.mem_of_mem_tail hi) (hnil h.workList_eq)
  · exact fun p hp => absurd hp (hnil rfl)
  · exact fun e he => absurd he (hnil rfl)
  · exact le_of_eq h.credit_eq
  · rw [hlive]
    simp [Xfer.init]
  · intro i hi
    rw [hlive] at hi
    simp at hi

/-- Every descriptor posted for a request that was completed with status 0 has
been consumed. -/
def CompletionSound (x : Xfer) : Prop :=
  ∀ e ∈ x.completed, e.status = 0 → ∀ k p, x.posted[k]? = some p → p.owner = e.id →
    k < x.hwConsumed

/-- **Completion soundness.**  In every run whose steps keep ring order and list
order together (`StepOk`), a request that was completed with status 0 has no
descriptor the hardware has not passed. -/
theorem completion_sound (d : QdmaDescq) (hd : FreshQueue d) (reqs : ReqId → QdmaSgReq)
    (coalEn : Bool) (coals : List IntrCoalConf) (es : List Ev)
    (hrun : (xferSys.restrict StepOk).Admits (Xfer.init d reqs coalEn coals) es) :
    CompletionSound (xferSys.exec (Xfer.init d reqs coalEn coals) es) := by
  have h : Ledger (xferSys.exec (Xfer.init d reqs coalEn coals) es) :=
    (xferSys.restrict StepOk).invariant (fun _ _ hx hg => Ledger.step hx hg.1 hg.2) es
      (hd.ledger reqs coalEn coals) hrun
  intro e he _ k p hk hp
  have hspent := h.toLedgerAt.index_lt (h.finished e he).2 hk hp
  unfold Xfer.hwConsumed
  omega

/-- A memory-mapped H2C queue ready for its first request. -/
def h2cStart : Xfer := Xfer.init (h2cQueue false) (fun _ => onePlaceReq) false []

theorem freshQueue_h2cQueue (st : Bool) : FreshQueue (h2cQueue st) := by
  refine freshQueue_config 0 0 ringedQueue ⟨0, st, false, 0, 0⟩ false ?_ rfl rfl ?_
  · cases st <;> rfl
  · rintro r ⟨⟩
    rfl

theorem completion_sound_one_request :
    (xferSys.exec h2cStart [.submit 0 onePlaceReq, .wrkProc, .hwWb 1, .serviceWb]).completed =
        [⟨0, 0, 8192⟩] ∧
      CompletionSound
        (xferSys.exec h2cStart [.submit 0 onePlaceReq, .wrkProc, .hwWb 1, .serviceWb]) :=
  ⟨by decide +kernel,
    completion_sound (h2cQueue false) (freshQueue_h2cQueue false) (fun _ => onePlaceReq) false []
      [.submit 0 onePlaceReq, .wrkProc, .hwWb 1, .serviceWb] (by decide +kernel)⟩

/-- Two requests with a descriptor each; the caller of the first gives up, and the
hardware consumes the first descriptor. -/
def timeoutRun : List Ev :=
  [.submit 0 onePlaceReq, .wrkProc, .submit 1 onePlaceReq, .wrkProc, .timeout 0, .hwWb 1,
    .serviceWb]

/-- The credit of the request that was given up completes the other one. -/
theorem completes_unconsumed_after_timeout :
    xferSys.Admits h2cStart timeoutRun ∧ ¬ CompletionSound (xferSys.exec h2cStart timeoutRun) := by
  refine ⟨by decide +kernel, ?_⟩
  intro h
  have hdone : (⟨1, 0, 8192⟩ : Completion) ∈ (xferSys.exec h2cStart timeoutRun).completed := by
    decide +kernel
  have howner : (xferSys.exec h2cStart timeoutRun).posted[1]?.map (·.owner) = some 1 := by
    decide +kernel
  obtain ⟨p, hp, ho⟩ := Option.map_eq_some_iff.mp howner
  have hlt := h _ hdone rfl 1 p hp ho
  have hhw : (xferSys.exec h2cStart timeoutRun).hwConsumed = 1 := by decide +kernel
  omega

end Qdma

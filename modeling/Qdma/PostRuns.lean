import Qdma.PostSpec

/-!
# Posting a request in several calls

A request that needs more descriptors than the ring has free is posted by several
calls, with completions in between.  A *run* is therefore the sequence of free
descriptor counts (`avail`) under which the posting function is called until the
request leaves `work_list`.

Two things have to survive the splits, and for both of them the place where a
call resumes decides.

* **Device addresses** (memory-mapped queues).  Every call takes the device
  address from `req->ep_addr` again, so the addresses are contiguous exactly when
  one call posts everything (`dev_contiguous_iff_single_call`).
* **Host bytes.**  A call that resumes at the edge of a segment goes on where the
  last one stopped, and a call that resumes inside a segment posts that segment
  from its start (`postStart_resume`).  So every byte is posted once, in order,
  exactly when no call resumes inside a segment
  (`bytes_posted_once_iff_resumesAtEdges`).

The state between two calls is `Sent`: the first `K` pieces of the scatter list
are in the ring and the offset is their total length.
-/

namespace Qdma

open Lib Lib.Extent

/-! ## Runs -/

/-- The descriptors written for a request, in order. -/
def Xfer.postedFor (x : Xfer) (id : ReqId) : List Posting := x.posted.filter (·.owner = id)

/-- The host ranges of the descriptors written for a request. -/
def Xfer.hostsOf (x : Xfer) (id : ReqId) : List (Extent (BitVec 64)) :=
  (x.postedFor id).map fun p => p.desc.host x.descq.conf.c2h

/-- The queue with `a` free descriptors. -/
def Xfer.withAvail (x : Xfer) (a : ℕ) : Xfer :=
  { x with descq := { x.descq with avail := a } }

/-- One call of the posting function with `a` free descriptors, as long as the
request is still on `work_list`. -/
def procCall (id : ReqId) (x : Xfer) (a : ℕ) : Xfer :=
  if id ∈ x.descq.workList then (qdmaDescqProcSgtRequest (x.withAvail a) id).2 else x

def procCalls (id : ReqId) (x : Xfer) (avs : List ℕ) : Xfer := avs.foldl (procCall id) x

@[simp] theorem procCalls_nil (id : ReqId) (x : Xfer) : procCalls id x [] = x := rfl

@[simp] theorem procCalls_cons (id : ReqId) (x : Xfer) (a : ℕ) (avs : List ℕ) :
    procCalls id x (a :: avs) = procCalls id (procCall id x a) avs := rfl

/-- A request as `qdma_sg_req_submit` queues it: on `work_list` once, its control
block cleared, nothing posted for it yet. -/
structure Queued (x : Xfer) (id : ReqId) : Prop where
  nodup : x.descq.workList.Nodup
  mem : id ∈ x.descq.workList
  notPend : id ∉ x.descq.pendList
  cb : (x.reqs id).cb = QdmaSgtReqCb.zero
  fresh : x.postedFor id = []

variable {x y : Xfer} {id : ReqId} {req : QdmaSgReq} {a : ℕ} {avs : List ℕ}

theorem procCall_of_notMem (h : id ∉ x.descq.workList) : procCall id x a = x := if_neg h

/-- Once the request has left `work_list` the run is over. -/
theorem procCalls_of_notMem (h : id ∉ x.descq.workList) : procCalls id x avs = x := by
  induction avs with
  | nil => rfl
  | cons a avs ih => rw [procCalls_cons, procCall_of_notMem h, ih]

/-- The states in which the posting function reports an error: the offset has no
place in the scatter list, or a memory-mapped request has nothing to post. -/
def Stuck (x : Xfer) (id : ReqId) : Prop :=
  postStart (x.reqs id) = none ∨
    ∃ sg off, postStart (x.reqs id) = some (sg, off) ∧ x.descq.conf.st = false ∧
      pieces (blenOf x.descq) sg = []

/-- **What one call does**: nothing, for want of free descriptors or for an error,
or it posts the next pieces. -/
theorem procCall_cases (hq : x.descq.isMmOrH2c) (hmem : id ∈ x.descq.workList) (a : ℕ) :
    ((a = 0 ∨ Stuck x id) ∧ procCall id x a = x.withAvail a) ∨
    (a ≠ 0 ∧ ∃ sg off, postStart (x.reqs id) = some (sg, off) ∧
      (x.descq.conf.st = false → pieces (blenOf x.descq) sg ≠ []) ∧
      Posts (x.withAvail a) id ((pieces (blenOf x.descq) sg).take a) (procCall id x a)) := by
  have hcall : procCall id x a = (qdmaDescqProcSgtRequest (x.withAvail a) id).2 := if_pos hmem
  rcases proc_cases (x.withAvail a) id hq with
    ⟨h0, hr⟩ | ⟨-, hs, hr⟩ | ⟨-, sg, off, hs, hst, hnil, hr⟩ |
      ⟨h0, sg, off, hs, hne, -, hr⟩
  · exact Or.inl ⟨Or.inl h0, by rw [hcall, hr]⟩
  · exact Or.inl ⟨Or.inr (Or.inl hs), by rw [hcall, hr]⟩
  · exact Or.inl ⟨Or.inr (Or.inr ⟨sg, off, hs, hst, hnil⟩), by rw [hcall, hr]⟩
  · refine Or.inr ⟨h0, sg, off, hs, hne, ?_⟩
    rw [hcall]
    exact hr

/-! ## What later calls leave alone -/

/-- `y` comes after `x`: the configuration and the request are the same up to the
control block, and the postings of the request are still there. -/
structure Continues (id : ReqId) (x y : Xfer) : Prop where
  conf : y.descq.conf = x.descq.conf
  static : y.reqs id = { x.reqs id with cb := (y.reqs id).cb }
  posted : x.postedFor id <+: y.postedFor id

theorem Continues.refl (id : ReqId) (x : Xfer) : Continues id x x :=
  ⟨rfl, rfl, List.prefix_rfl⟩

theorem Continues.trans {z : Xfer} (h₁ : Continues id x y) (h₂ : Continues id y z) :
    Continues id x z := by
  refine ⟨h₂.conf.trans h₁.conf, ?_, h₁.posted.trans h₂.posted⟩
  rw [h₂.static, h₁.static]

/-- A successful call appends the host ranges of its pieces. -/
theorem Posts.hostsOf_eq {es : List (Extent (BitVec 64))} (h : Posts (x.withAvail a) id es y) :
    y.hostsOf id = x.hostsOf id ++ es ∧ Continues id x y := by
  obtain ⟨ps, hps, hmap, howner⟩ := h.posted_eq
  have hconf : y.descq.conf = x.descq.conf := by
    rw [h.frame]
    rfl
  have hfor : y.postedFor id = x.postedFor id ++ ps := by
    have hall : ps.filter (·.owner = id) = ps := by simpa using howner
    unfold Xfer.postedFor
    rw [hps, List.filter_append, hall]
    rfl
  refine ⟨?_, hconf, ?_, ?_⟩
  · simp only [Xfer.hostsOf, hfor, hconf, List.map_append]
    exact congrArg _ hmap
  · rw [h.reqs_self]
    rfl
  · rw [hfor]
    exact List.prefix_append _ _

theorem continues_procCall (id : ReqId) (hq : x.descq.isMmOrH2c) (a : ℕ) :
    Continues id x (procCall id x a) := by
  by_cases hmem : id ∈ x.descq.workList
  · rcases procCall_cases hq hmem a with ⟨-, hr⟩ | ⟨-, sg, off, -, -, hr⟩
    · rw [hr]
      exact ⟨rfl, rfl, List.prefix_rfl⟩
    · exact hr.hostsOf_eq.2
  · rw [procCall_of_notMem hmem]
    exact Continues.refl id x

theorem Continues.isMmOrH2c (h : Continues id x y) (hq : x.descq.isMmOrH2c) :
    y.descq.isMmOrH2c := by
  unfold QdmaDescq.isMmOrH2c QdmaDescq.isStC2h at *
  rw [h.conf]
  exact hq

theorem continues_procCalls (id : ReqId) (hq : x.descq.isMmOrH2c) (avs : List ℕ) :
    Continues id x (procCalls id x avs) := by
  induction avs generalizing x with
  | nil => exact Continues.refl id x
  | cons a avs ih =>
      have hone := continues_procCall id hq a
      exact hone.trans (ih (hone.isMmOrH2c hq))

/-- An error is for good: the request stays where it is. -/
theorem procCalls_of_stuck (hq : x.descq.isMmOrH2c) (hmem : id ∈ x.descq.workList)
    (hstuck : Stuck x id) (avs : List ℕ) :
    (procCalls id x avs).reqs = x.reqs ∧
      (procCalls id x avs).descq.workList = x.descq.workList ∧
      (procCalls id x avs).descq.pendList = x.descq.pendList ∧
      (procCalls id x avs).posted = x.posted := by
  induction avs generalizing x with
  | nil => exact ⟨rfl, rfl, rfl, rfl⟩
  | cons a avs ih =>
      have hcall : procCall id x a = x.withAvail a := by
        rcases procCall_cases hq hmem a with ⟨-, hr⟩ | ⟨-, sg, off, hs, hne, -⟩
        · exact hr
        · rcases hstuck with hnone | ⟨sg', off', hs', hst, hnil⟩
          · rw [hs] at hnone
            cases hnone
          · rw [hs] at hs'
            simp only [Option.some.injEq, Prod.mk.injEq] at hs'
            rw [hs'.1] at hne
            exact absurd hnil (hne hst)
      rw [procCalls_cons, hcall]
      exact ih (x := x.withAvail a) hq hmem hstuck

/-! ## Where a call resumes -/

section Edges

variable {blen : ℕ} {sgl : List Scatterlist} {K : ℕ}

/-- The number of descriptors a scatter list needs. -/
def descsNeeded (blen : ℕ) (sgl : List Scatterlist) : ℕ :=
  (sgl.map fun sg => (sg.dmaLen + blen - 1) / blen).sum

theorem length_pieces (hb : 0 < blen) (sgl : List Scatterlist) :
    (pieces blen sgl).length = descsNeeded blen sgl := by
  rw [pieces, length_cutAll hb, descsNeeded, List.map_map]
  rfl

/-- After `K` descriptors the walk stands between two segments (or at an end). -/
def IsEdge (blen : ℕ) (sgl : List Scatterlist) (K : ℕ) : Prop :=
  ∃ j ≤ sgl.length, descsNeeded blen (sgl.take j) = K

instance (blen : ℕ) (sgl : List Scatterlist) (K : ℕ) : Decidable (IsEdge blen sgl K) :=
  inferInstanceAs (Decidable (∃ j, j ≤ sgl.length ∧ descsNeeded blen (sgl.take j) = K))

theorem isEdge_zero (blen : ℕ) (sgl : List Scatterlist) : IsEdge blen sgl 0 :=
  ⟨0, Nat.zero_le _, rfl⟩

theorem pieces_len_pos {e : Extent (BitVec 64)} (he : e ∈ pieces blen sgl) : 0 < e.len :=
  (len_of_mem_cutAll he).1

/-- The bytes of the first `i` pieces tell `i`: no piece is empty. -/
theorem total_take_pieces_lt {i j : ℕ} (hij : i < j) (hj : j ≤ (pieces blen sgl).length) :
    total ((pieces blen sgl).take i) < total ((pieces blen sgl).take j) := by
  have hsplit : (pieces blen sgl).take j =
      (pieces blen sgl).take i ++ ((pieces blen sgl).drop i).take (j - i) := by
    rw [← List.take_add, Nat.add_sub_cancel' (Nat.le_of_lt hij)]
  have hpos : 0 < total (((pieces blen sgl).drop i).take (j - i)) := by
    refine total_pos_of_ne_nil ?_ ?_
    · intro e he
      exact pieces_len_pos (List.mem_of_mem_drop (List.mem_of_mem_take he))
    · intro hnil
      have hlen := congrArg List.length hnil
      simp only [List.length_take, List.length_drop, List.length_nil] at hlen
      omega
  rw [hsplit, total_append]
  omega

theorem take_pieces_edge (blen : ℕ) (sgl : List Scatterlist) (j : ℕ) :
    (pieces blen sgl).take (pieces blen (sgl.take j)).length = pieces blen (sgl.take j) := by
  have h := take_cutAll_of_edge blen (sgl.map Scatterlist.extent) j
  rwa [← List.map_take] at h

theorem drop_pieces_edge (blen : ℕ) (sgl : List Scatterlist) (j : ℕ) :
    (pieces blen sgl).drop (pieces blen (sgl.take j)).length = pieces blen (sgl.drop j) := by
  have h := drop_cutAll_of_edge blen (sgl.map Scatterlist.extent) j
  rwa [← List.map_take, ← List.map_drop] at h

theorem length_pieces_take_le (blen : ℕ) (sgl : List Scatterlist) (j : ℕ) :
    (pieces blen (sgl.take j)).length ≤ (pieces blen sgl).length := by
  rw [← take_pieces_edge blen sgl j]
  simp

theorem sglTotal_take_mono (sgl : List Scatterlist) {i j : ℕ} (hij : i ≤ j) :
    sglTotal (sgl.take i) ≤ sglTotal (sgl.take j) := by
  have h := sglTotal_take_add_drop (sgl.take j) i
  rw [List.take_take, Nat.min_eq_left hij] at h
  omega

/-- A prefix sum of the segments is reached after the pieces of these segments
and at no other point. -/
theorem eq_of_total_take_eq (hb : 0 < blen) {j : ℕ} (hK : K ≤ (pieces blen sgl).length)
    (h : total ((pieces blen sgl).take K) = sglTotal (sgl.take j)) :
    K = (pieces blen (sgl.take j)).length := by
  rw [← total_pieces hb, ← take_pieces_edge blen sgl j] at h
  have hle := length_pieces_take_le blen sgl j
  rcases Nat.lt_trichotomy K (pieces blen (sgl.take j)).length with hlt | heq | hgt
  · have := total_take_pieces_lt hlt hle
    omega
  · exact heq
  · have := total_take_pieces_lt hgt hK
    omega

/-- **Where a partly posted request is taken up.**  Between two segments the next
call goes on with the next piece.  Inside a segment it starts that segment
again. -/
theorem postStart_resume (hb : 0 < blen) (hwf : req.WellFormed)
    (hoff : req.cb.offset = total ((pieces blen req.sgt.sgl).take K))
    (hK : 0 < K) (hKn : K < (pieces blen req.sgt.sgl).length) :
    postStart req = none ∨
    (IsEdge blen req.sgt.sgl K ∧ ∃ sg off, postStart req = some (sg, off) ∧
      pieces blen sg = (pieces blen req.sgt.sgl).drop K) ∨
    (¬ IsEdge blen req.sgt.sgl K ∧ ∃ j seg rest off,
      req.sgt.sgl.drop j = seg :: rest ∧ postStart req = some (seg :: rest, off) ∧
      sglTotal (req.sgt.sgl.take j) < req.cb.offset ∧
      req.cb.offset < sglTotal (req.sgt.sgl.take j) + seg.dmaLen) := by
  have htot : sglTotal req.sgt.sgl < 2 ^ 32 := by
    rw [hwf]
    exact req.count_lt
  have hpos : 0 < req.cb.offset := by
    have := total_take_pieces_lt hK (Nat.le_of_lt hKn)
    omega
  have hne : req.cb.offset ≠ 0 := by omega
  cases hfind : sgtFindOffset req.sgt req.cb.offset with
  | none => exact Or.inl (postStart_of_none hne hfind)
  | some found =>
      obtain ⟨rv, sg, off⟩ := found
      obtain ⟨hsg, hcases⟩ := sgtFindOffset_spec htot hpos hfind
      have hstart := postStart_of_some hne hfind
      by_cases hrv : req.sgt.nents ≤ rv
      · rw [if_pos hrv] at hstart
        exact Or.inl hstart
      · rw [if_neg hrv] at hstart
        right
        have hrvlen : rv < req.sgt.sgl.length := by
          simpa [SgTable.nents] using hrv
        rcases hcases with ⟨rfl, hsum⟩ | ⟨-, -, hlo, hhi⟩
        · left
          have hKeq : K = (pieces blen (req.sgt.sgl.take rv)).length :=
            eq_of_total_take_eq hb (Nat.le_of_lt hKn) (by rw [← hoff, hsum])
          refine ⟨⟨rv, Nat.le_of_lt hrvlen, ?_⟩, sg, 0, hstart, ?_⟩
          · rw [← length_pieces hb, hKeq]
          · rw [hsg, hKeq, drop_pieces_edge]
        · right
          refine ⟨?_, rv, req.sgt.sgl.get ⟨rv, hrvlen⟩, req.sgt.sgl.drop (rv + 1), off, ?_, ?_,
            hlo, ?_⟩
          · -- the prefix sums jump over the offset, so no edge lies there
            rintro ⟨j, -, hj⟩
            rw [← length_pieces hb] at hj
            have hsum : req.cb.offset = sglTotal (req.sgt.sgl.take j) := by
              rw [hoff, ← hj, take_pieces_edge, total_pieces hb]
            rcases Nat.lt_or_ge rv j with hlt | hge
            · have := sglTotal_take_mono req.sgt.sgl (Nat.succ_le_of_lt hlt)
              simp only [Nat.succ_eq_add_one] at this
              omega
            · have := sglTotal_take_mono req.sgt.sgl hge
              omega
          · simp
          · rw [hstart, hsg]
            simp
          · have hnext : sglTotal (req.sgt.sgl.take (rv + 1)) =
                sglTotal (req.sgt.sgl.take rv) + (req.sgt.sgl.get ⟨rv, hrvlen⟩).dmaLen := by
              rw [List.take_succ_eq_append_getElem hrvlen, sglTotal_append]
              simp
            omega

/-- Posting the pieces from the `K`-th on moves the offset to the end of the last
of them, and it reaches the count with the last piece of all. -/
theorem postedCb_offset (hb : 0 < blen) (hwf : req.WellFormed)
    (hoff : req.cb.offset = total ((pieces blen req.sgt.sgl).take K)) (a : ℕ) :
    (postedCb req.cb (((pieces blen req.sgt.sgl).drop K).take a)).offset =
        total ((pieces blen req.sgt.sgl).take (K + a)) ∧
      (total ((pieces blen req.sgt.sgl).take (K + a)) = req.count ↔
        (pieces blen req.sgt.sgl).length ≤ K + a) := by
  have hcount : total (pieces blen req.sgt.sgl) = req.count := by
    rw [total_pieces hb]
    exact hwf
  have hsum : total ((pieces blen req.sgt.sgl).take (K + a)) =
      total ((pieces blen req.sgt.sgl).take K) +
        total (((pieces blen req.sgt.sgl).drop K).take a) := by
    rw [List.take_add, total_append]
  have hle : total ((pieces blen req.sgt.sgl).take (K + a)) ≤ req.count := by
    rw [← hcount]
    conv_rhs => rw [← List.take_append_drop (K + a) (pieces blen req.sgt.sgl)]
    rw [total_append]
    exact Nat.le_add_right _ _
  have hlt : req.count < 2 ^ 32 := req.count_lt
  refine ⟨?_, ?_, ?_⟩
  · have htail : total (((pieces blen req.sgt.sgl).drop K).take a) < 2 ^ 32 := by omega
    simp only [postedCb, QdmaSgtReqCb.account]
    rw [hoff, u32_of_lt htail, u32_of_lt (by omega), hsum]
  · intro heq
    by_contra hmore
    have := total_take_pieces_lt (Nat.lt_of_not_le hmore) le_rfl
    rw [List.take_length] at this
    omega
  · intro hall
    rw [List.take_of_length_le hall, hcount]

end Edges

/-! ## The state between two calls -/

/-- The first `K` pieces are posted, the offset is their total length, and there
is more to come. -/
structure Sent (blen : ℕ) (req : QdmaSgReq) (id : ReqId) (K : ℕ) (x : Xfer) : Prop where
  blen_eq : blenOf x.descq = blen
  kind : x.descq.isMmOrH2c
  nodup : x.descq.workList.Nodup
  mem : id ∈ x.descq.workList
  notPend : id ∉ x.descq.pendList
  static : x.reqs id = { req with cb := (x.reqs id).cb }
  hosts : x.hostsOf id = (pieces blen req.sgt.sgl).take K
  offset : (x.reqs id).cb.offset = total ((pieces blen req.sgt.sgl).take K)
  room : K = 0 ∨ K < (pieces blen req.sgt.sgl).length

theorem Queued.sent (hq : x.descq.isMmOrH2c) (h : Queued x id) :
    Sent (blenOf x.descq) (x.reqs id) id 0 x where
  blen_eq := rfl
  kind := hq
  nodup := h.nodup
  mem := h.mem
  notPend := h.notPend
  static := rfl
  hosts := by simp [Xfer.hostsOf, h.fresh]
  offset := by simp [h.cb, QdmaSgtReqCb.zero]
  room := Or.inl rfl

namespace Sent

variable {blen K : ℕ}

theorem sgt_eq (h : Sent blen req id K x) : (x.reqs id).sgt = req.sgt := by
  rw [h.static]

theorem count_eq (h : Sent blen req id K x) : (x.reqs id).count = req.count := by
  rw [h.static]

theorem blen_pos (h : Sent blen req id K x) : 0 < blen := by
  rw [← h.blen_eq]
  exact blenOf_pos _

theorem wellFormed (h : Sent blen req id K x) (hwf : req.WellFormed) :
    (x.reqs id).WellFormed := by
  unfold QdmaSgReq.WellFormed
  rw [h.sgt_eq, h.count_eq]
  exact hwf

theorem withAvail (h : Sent blen req id K x) (a : ℕ) : Sent blen req id K (x.withAvail a) :=
  ⟨h.blen_eq, h.kind, h.nodup, h.mem, h.notPend, h.static, h.hosts, h.offset, h.room⟩

/-- **A call that goes on with the next piece** either leaves the request partly
posted, further on, or posts the last piece and moves it to `pend_list`. -/
theorem forward (h : Sent blen req id K x) (hwf : req.WellFormed)
    (hposts : Posts (x.withAvail a) id (((pieces blen req.sgt.sgl).drop K).take a) y) :
    y.hostsOf id = (pieces blen req.sgt.sgl).take (K + a) ∧
    (y.reqs id).cb.offset = total ((pieces blen req.sgt.sgl).take (K + a)) ∧
    ((K + a < (pieces blen req.sgt.sgl).length ∧ Sent blen req id (K + a) y) ∨
      ((pieces blen req.sgt.sgl).length ≤ K + a ∧ id ∉ y.descq.workList ∧
        id ∈ y.descq.pendList)) := by
  obtain ⟨hhosts, hcont⟩ := hposts.hostsOf_eq
  have hwf' : ({ req with cb := (x.reqs id).cb } : QdmaSgReq).WellFormed := hwf
  obtain ⟨hoff, hfull⟩ := postedCb_offset h.blen_pos hwf' h.offset a
  have hnew : y.hostsOf id = (pieces blen req.sgt.sgl).take (K + a) := by
    rw [hhosts, h.hosts, List.take_add]
  have hoff' : (y.reqs id).cb.offset = total ((pieces blen req.sgt.sgl).take (K + a)) := by
    rw [hposts.reqs_self]
    exact hoff
  refine ⟨hnew, hoff', ?_⟩
  have hlists := hposts.lists
  have hcb : ((x.withAvail a).reqs id).cb = (x.reqs id).cb := rfl
  have hcnt : ((x.withAvail a).reqs id).count = req.count := h.count_eq
  rw [hcb, hcnt, hoff] at hlists
  by_cases hmore : K + a < (pieces blen req.sgt.sgl).length
  · left
    have hpart : total ((pieces blen req.sgt.sgl).take (K + a)) ≠ req.count :=
      fun heq => absurd (hfull.mp heq) (by simpa using hmore)
    rw [if_neg hpart] at hlists
    simp only [Prod.mk.injEq] at hlists
    refine ⟨hmore, ?_⟩
    exact
      { blen_eq := by rw [← h.blen_eq, blenOf, blenOf, hcont.conf]
        kind := hcont.isMmOrH2c h.kind
        nodup := by rw [hlists.1]; exact h.nodup
        mem := by rw [hlists.1]; exact h.mem
        notPend := by rw [hlists.2]; exact h.notPend
        static := by rw [hcont.static, h.static]
        hosts := hnew
        offset := hoff'
        room := Or.inr hmore }
  · right
    have hall : total ((pieces blen req.sgt.sgl).take (K + a)) = req.count :=
      hfull.mpr (by simpa using hmore)
    rw [if_pos hall] at hlists
    simp only [Prod.mk.injEq] at hlists
    refine ⟨by omega, ?_, ?_⟩
    · rw [hlists.1]
      exact h.nodup.not_mem_erase
    · rw [hlists.2]
      simp

end Sent

/-! ## Host bytes -/

/-- The bytes posted for the request are the bytes of its segments, in order, and
after every call the offset is the number of bytes posted so far. -/
def PostedInOrder (id : ReqId) (x : Xfer) (avs : List ℕ) : Prop :=
  bytesOf ((procCalls id x avs).hostsOf id) =
      bytesOf ((x.reqs id).sgt.sgl.map Scatterlist.extent) ∧
    ∀ k, ((procCalls id x (avs.take k)).reqs id).cb.offset =
      total ((procCalls id x (avs.take k)).hostsOf id)

/-- No call resumes inside a segment: as long as pieces are missing, a call that
finds free descriptors finds the walk between two segments.  `K` is the number of
descriptors posted so far. -/
def ResumesAtEdges (blen : ℕ) (sgl : List Scatterlist) : ℕ → List ℕ → Prop
  | _, [] => True
  | K, a :: avs =>
      if descsNeeded blen sgl ≤ K then True
      else if a = 0 then ResumesAtEdges blen sgl K avs
      else IsEdge blen sgl K ∧ ResumesAtEdges blen sgl (K + a) avs

instance decidableResumesAtEdges (blen : ℕ) (sgl : List Scatterlist) :
    ∀ (K : ℕ) (avs : List ℕ), Decidable (ResumesAtEdges blen sgl K avs)
  | _, [] => inferInstanceAs (Decidable True)
  | K, a :: avs =>
      have := decidableResumesAtEdges blen sgl K avs
      have := decidableResumesAtEdges blen sgl (K + a) avs
      inferInstanceAs (Decidable (if descsNeeded blen sgl ≤ K then True
        else if a = 0 then ResumesAtEdges blen sgl K avs
        else IsEdge blen sgl K ∧ ResumesAtEdges blen sgl (K + a) avs))

theorem resumesAtEdges_of_le {blen K : ℕ} {sgl : List Scatterlist} (h : descsNeeded blen sgl ≤ K) :
    ResumesAtEdges blen sgl K avs := by
  cases avs with
  | nil => trivial
  | cons a avs => simp [ResumesAtEdges, h]

theorem postedInOrder_cons (hq : x.descq.isMmOrH2c) :
    PostedInOrder id x (a :: avs) ↔
      (x.reqs id).cb.offset = total (x.hostsOf id) ∧ PostedInOrder id (procCall id x a) avs := by
  have hsgt : ((procCall id x a).reqs id).sgt = (x.reqs id).sgt := by
    rw [(continues_procCall id hq a).static]
  constructor
  · rintro ⟨hbytes, hoff⟩
    refine ⟨by simpa using hoff 0, ?_, fun k => by simpa using hoff (k + 1)⟩
    rw [hsgt]
    exact hbytes
  · rintro ⟨hzero, hbytes, hoff⟩
    rw [hsgt] at hbytes
    refine ⟨hbytes, ?_⟩
    intro k
    cases k with
    | zero => simpa using hzero
    | succ k => simpa using hoff k

/-- A 64-bit address plus fewer than `2 ^ 64` bytes is the address only for none
of them. -/
theorem eq_zero_of_add_eq_self {addr : BitVec 64} {n : ℕ} (hn : n < 2 ^ 64)
    (h : addr + (n : BitVec 64) = addr) : n = 0 := by
  have hzero : (n : BitVec 64) = 0 := by simpa using h
  have htoNat : n % 2 ^ 64 = 0 := by simpa using congrArg BitVec.toNat hzero
  rwa [Nat.mod_eq_of_lt hn] at htoNat

/-- The host ranges of a later state start with those of an earlier one. -/
theorem Continues.hostsOf_eq (h : Continues id x y) : ∃ es, y.hostsOf id = x.hostsOf id ++ es := by
  obtain ⟨more, hmore⟩ := h.posted
  refine ⟨more.map fun p => p.desc.host x.descq.conf.c2h, ?_⟩
  simp only [Xfer.hostsOf, ← hmore, List.map_append, h.conf]

/-- A call that starts a segment again posts its first byte where a later byte
belongs, and what is posted stays. -/
theorem bytes_ne_of_inside {blen K j : ℕ} {seg : Scatterlist} {rest : List Scatterlist}
    (h : Sent blen req id K x) (ha : a ≠ 0)
    (hdrop : req.sgt.sgl.drop j = seg :: rest)
    (hlo : sglTotal (req.sgt.sgl.take j) < (x.reqs id).cb.offset)
    (hhi : (x.reqs id).cb.offset < sglTotal (req.sgt.sgl.take j) + seg.dmaLen)
    (hposts : Posts (x.withAvail a) id ((pieces blen (seg :: rest)).take a) (procCall id x a)) :
    bytesOf ((procCalls id x (a :: avs)).hostsOf id) ≠
      bytesOf (req.sgt.sgl.map Scatterlist.extent) := by
  intro heq
  obtain ⟨δ, hδ⟩ : ∃ δ, (x.reqs id).cb.offset = sglTotal (req.sgt.sgl.take j) + δ :=
    Nat.exists_eq_add_of_le (Nat.le_of_lt hlo)
  -- the segments: `δ` bytes into `seg` comes the byte at `seg + δ`
  obtain ⟨tail₁, hexpect⟩ : ∃ tail, bytesOf (req.sgt.sgl.map Scatterlist.extent) =
      (bytesOf ((req.sgt.sgl.take j).map Scatterlist.extent) ++ bytes ⟨seg.dmaAddress, δ⟩) ++
        (seg.dmaAddress + (δ : BitVec 64)) :: tail := by
    have hsegs : req.sgt.sgl = req.sgt.sgl.take j ++ seg :: rest := by
      rw [← hdrop, List.take_append_drop]
    conv in req.sgt.sgl.map Scatterlist.extent => rw [hsegs]
    rw [List.map_append, List.map_cons, bytesOf_append, bytesOf_cons, Scatterlist.extent,
      bytes_split seg.dmaAddress (show δ < seg.dmaLen by omega)]
    exact ⟨_, by simp only [List.append_assoc, List.cons_append]; rfl⟩
  -- the postings: after the bytes posted so far comes the byte at `seg`
  obtain ⟨tail₂, hactual⟩ : ∃ tail, bytesOf ((procCalls id x (a :: avs)).hostsOf id) =
      bytesOf (x.hostsOf id) ++ seg.dmaAddress :: tail := by
    have hone := continues_procCall id h.kind a
    obtain ⟨es, hes⟩ := (continues_procCalls id (hone.isMmOrH2c h.kind) avs).hostsOf_eq
    obtain ⟨a, rfl⟩ := Nat.exists_eq_succ_of_ne_zero ha
    rw [pieces_cons, cut_pos h.blen_pos (show 0 < seg.dmaLen by omega), List.cons_append,
      Nat.succ_eq_add_one, List.take_succ_cons] at hposts
    have hpos : 0 < min seg.dmaLen blen := by
      have := h.blen_pos
      omega
    rw [procCalls_cons, hes, hposts.hostsOf_eq.1, List.append_assoc, bytesOf_append,
      List.cons_append]
    obtain ⟨tail, htail⟩ := bytesOf_head ⟨seg.dmaAddress, min seg.dmaLen blen⟩ _ hpos
    exact ⟨tail, by rw [htail]⟩
  rw [hactual, hexpect] at heq
  have hlens : (bytesOf (x.hostsOf id)).length =
      (bytesOf ((req.sgt.sgl.take j).map Scatterlist.extent) ++
        bytes ⟨seg.dmaAddress, δ⟩).length := by
    rw [length_bytesOf, List.length_append, length_bytesOf, length_bytes, h.hosts, ← h.offset,
      total_map_extent]
    omega
  have hbyte := (List.append_inj heq hlens).2
  simp only [List.cons.injEq] at hbyte
  have hδlt : δ < 2 ^ 64 := by
    have := seg.dmaLen_lt
    omega
  have := eq_zero_of_add_eq_self hδlt hbyte.1.symm
  omega

/-- What a call with free descriptors can do to a partly posted request: fail for
good, go on with the next piece, or start a segment again. -/
theorem Sent.call_cases {blen K : ℕ} (h : Sent blen req id K x) (hwf : req.WellFormed)
    (ha : a ≠ 0) :
    Stuck x id ∨
    (IsEdge blen req.sgt.sgl K ∧
      Posts (x.withAvail a) id (((pieces blen req.sgt.sgl).drop K).take a) (procCall id x a)) ∨
    (¬ IsEdge blen req.sgt.sgl K ∧ 0 < K ∧ ∃ j seg rest,
      req.sgt.sgl.drop j = seg :: rest ∧
      sglTotal (req.sgt.sgl.take j) < (x.reqs id).cb.offset ∧
      (x.reqs id).cb.offset < sglTotal (req.sgt.sgl.take j) + seg.dmaLen ∧
      Posts (x.withAvail a) id ((pieces blen (seg :: rest)).take a) (procCall id x a)) := by
  rcases procCall_cases h.kind h.mem a with ⟨hzero | hstuck, -⟩ | ⟨-, sg, off, hs, -, hposts⟩
  · exact absurd hzero ha
  · exact Or.inl hstuck
  rw [h.blen_eq] at hposts
  rcases Nat.eq_zero_or_pos K with rfl | hK
  · -- a new request: the walk starts at the first segment
    have hstart : postStart (x.reqs id) = some (req.sgt.sgl, 0) := by
      rw [postStart_of_zero (by simpa using h.offset), h.sgt_eq]
    rw [hs] at hstart
    simp only [Option.some.injEq, Prod.mk.injEq] at hstart
    rw [hstart.1] at hposts
    exact Or.inr (Or.inl ⟨isEdge_zero _ _, by simpa using hposts⟩)
  · have hKn : K < (pieces blen req.sgt.sgl).length := by
      rcases h.room with h0 | hlt
      · omega
      · exact hlt
    have hres := postStart_resume (K := K) h.blen_pos (h.wellFormed hwf)
      (by rw [h.offset, h.sgt_eq]) hK (by rw [h.sgt_eq]; exact hKn)
    rw [h.sgt_eq, hs] at hres
    rcases hres with hnone | ⟨hedge, sg', off', hsome, hpieces⟩ |
      ⟨hedge, j, seg, rest, off', hdrop, hsome, hlo, hhi⟩
    · cases hnone
    · simp only [Option.some.injEq, Prod.mk.injEq] at hsome
      rw [hsome.1, hpieces] at hposts
      exact Or.inr (Or.inl ⟨hedge, hposts⟩)
    · simp only [Option.some.injEq, Prod.mk.injEq] at hsome
      rw [hsome.1] at hposts
      exact Or.inr (Or.inr ⟨hedge, hK, j, seg, rest, hdrop, hlo, hhi, hposts⟩)

/-- Along a run that completes, from any state between two calls. -/
theorem Sent.postedInOrder_iff {blen : ℕ} (hwf : req.WellFormed) :
    ∀ (avs : List ℕ) {K : ℕ} {x : Xfer}, Sent blen req id K x →
      id ∈ (procCalls id x avs).descq.pendList →
      (PostedInOrder id x avs ↔ ResumesAtEdges blen req.sgt.sgl K avs) := by
  intro avs
  induction avs with
  | nil =>
      intro K x h hdone
      exact absurd hdone h.notPend
  | cons a avs ih =>
      intro K x h hdone
      have hsent : (x.reqs id).cb.offset = total (x.hostsOf id) := by
        rw [h.offset, h.hosts]
      have hlen := length_pieces h.blen_pos req.sgt.sgl
      by_cases ha : a = 0
      · have hcall : procCall id x a = x.withAvail a := by
          rcases procCall_cases h.kind h.mem a with ⟨-, hr⟩ | ⟨hne, -⟩
          · exact hr
          · exact absurd ha hne
        rw [procCalls_cons, hcall] at hdone
        rw [postedInOrder_cons h.kind, hcall, ih (h.withAvail a) hdone]
        simp only [hsent, true_and, ResumesAtEdges, ha, if_true]
        split
        · rename_i hle
          simpa using resumesAtEdges_of_le hle
        · exact Iff.rfl
      rcases h.call_cases hwf ha with hstuck | ⟨hedge, hposts⟩ |
        ⟨hedge, hK, j, seg, rest, hdrop, hlo, hhi, hposts⟩
      · have hsame := (procCalls_of_stuck h.kind h.mem hstuck (a :: avs)).2.2.1
        rw [hsame] at hdone
        exact absurd hdone h.notPend
      · obtain ⟨hhosts, hoff, hnext⟩ := h.forward hwf hposts
        rw [postedInOrder_cons h.kind]
        rcases hnext with ⟨hmore, hsent'⟩ | ⟨hfin, hnot, -⟩
        · rw [ih hsent' hdone]
          simp only [hsent, true_and, ResumesAtEdges, ha, if_false, hedge]
          rw [if_neg (by omega)]
        · -- the last piece is posted: the run is over and its bytes are all there
          have hgood : PostedInOrder id (procCall id x a) avs := by
            have hsgt : ((procCall id x a).reqs id).sgt = req.sgt := by
              rw [(continues_procCall id h.kind a).static, h.static]
            refine ⟨?_, fun k => ?_⟩
            · rw [procCalls_of_notMem hnot, hhosts, List.take_of_length_le hfin, pieces,
                bytesOf_cutAll h.blen_pos, hsgt]
            · rw [procCalls_of_notMem hnot, hhosts, hoff]
          have hcond : ResumesAtEdges blen req.sgt.sgl K (a :: avs) := by
            simp only [ResumesAtEdges, ha, if_false]
            split
            · trivial
            · exact ⟨hedge, resumesAtEdges_of_le (by omega)⟩
          exact iff_of_true ⟨hsent, hgood⟩ hcond
      · refine iff_of_false ?_ ?_
        · rintro ⟨hbytes, -⟩
          rw [h.sgt_eq] at hbytes
          exact bytes_ne_of_inside h ha hdrop hlo hhi hposts hbytes
        · have hKn : K < (pieces blen req.sgt.sgl).length := by
            rcases h.room with h0 | hlt
            · omega
            · exact hlt
          simp only [ResumesAtEdges, ha, if_false]
          rw [if_neg (by omega)]
          exact fun hcond => hedge hcond.1

/-- **Host bytes across splits.**  For a request whose segments sum up to its
count, in any run that moves it to `pend_list`: every byte of the buffer is
posted once and in order, with the offset in step after every call, exactly when
no call resumes inside a segment. -/
theorem bytes_posted_once_iff_resumesAtEdges (x : Xfer) (id : ReqId) (avs : List ℕ)
    (hq : x.descq.isMmOrH2c) (hqueued : Queued x id) (hwf : (x.reqs id).WellFormed)
    (hdone : id ∈ (procCalls id x avs).descq.pendList) :
    PostedInOrder id x avs ↔
      ResumesAtEdges (blenOf x.descq) (x.reqs id).sgt.sgl 0 avs :=
  Sent.postedInOrder_iff hwf avs (hqueued.sent hq) hdone

/-- A request to write `count` bytes to the start of the device's memory. -/
def writeReq (sgt : SgTable) (count : ℕ) (hcount : count < 2 ^ 32) : QdmaSgReq where
  cb := QdmaSgtReqCb.zero
  write := true
  dmaMapped := false
  epAddr := 0
  sgt := sgt
  count := count
  count_lt := hcount
  timeoutMs := 0
  fpDone := false

/-- Two pages at one place in memory. -/
def onePlaceReq : QdmaSgReq :=
  writeReq ⟨[⟨0x100000, 8192, by decide⟩], by decide⟩ 8192 (by decide)

/-- Two pages at two places in memory. -/
def twoPlacesReq : QdmaSgReq :=
  writeReq ⟨[⟨0x100000, 4096, by decide⟩, ⟨0x200000, 4096, by decide⟩], by decide⟩ 8192
    (by decide)

/-- A queue with a cleared descriptor ring, ready to be configured. -/
def ringedQueue : QdmaDescq :=
  { qdmaDescqInit 0 0 0 with
    online := true
    desc := some
      { bus := 0x1000, len := 0, slots := fun _ => QdmaDesc.zero, wbPidx := 0, wbCidx := 0 } }

/-- An H2C queue, streaming or not, that nothing was posted on yet. -/
def h2cQueue (st : Bool) : QdmaDescq := qdmaDescqConfig 0 0 ringedQueue ⟨0, st, false, 0, 0⟩ false

/-- The queue with one request waiting. -/
def h2cQueued (st : Bool) (req : QdmaSgReq) : Xfer :=
  Xfer.init { h2cQueue st with workList := [0] } (fun _ => req) false []

theorem queued_h2cQueued (st : Bool) (req : QdmaSgReq) (hcb : req.cb = QdmaSgtReqCb.zero) :
    Queued (h2cQueued st req) 0 where
  nodup := by simp [h2cQueued, Xfer.init]
  mem := by simp [h2cQueued, Xfer.init]
  notPend := by simp [h2cQueued, Xfer.init, h2cQueue, qdmaDescqConfig, ringedQueue, qdmaDescqInit]
  cb := hcb
  fresh := rfl

theorem bytes_posted_once_two_places :
    PostedInOrder 0 (h2cQueued true twoPlacesReq) [1, 1] :=
  (bytes_posted_once_iff_resumesAtEdges (h2cQueued true twoPlacesReq) 0 [1, 1] rfl
    (queued_h2cQueued _ _ rfl) rfl (by decide +kernel)).mpr (by decide)

/-- One page posted, then a second call with room for one more: the first page is
posted again and the second page never. -/
theorem bytes_posted_twice_one_place :
    Queued (h2cQueued true onePlaceReq) 0 ∧ onePlaceReq.WellFormed ∧
      0 ∈ (procCalls 0 (h2cQueued true onePlaceReq) [1, 1]).descq.pendList ∧
      ¬ PostedInOrder 0 (h2cQueued true onePlaceReq) [1, 1] := by
  have hqueued := queued_h2cQueued true onePlaceReq rfl
  have hwf : onePlaceReq.WellFormed := rfl
  have hkind : (h2cQueued true onePlaceReq).descq.isMmOrH2c := rfl
  have hdone : 0 ∈ (procCalls 0 (h2cQueued true onePlaceReq) [1, 1]).descq.pendList := by
    decide +kernel
  refine ⟨hqueued, hwf, hdone, ?_⟩
  rw [Sent.postedInOrder_iff hwf [1, 1] (hqueued.sent hkind) hdone]
  decide

/-! ## Device addresses -/

/-- Every descriptor posted for the request carries the device address
`ep_addr` plus the total length of the descriptors posted for it before. -/
def DevContiguous (id : ReqId) (x : Xfer) : Prop :=
  ∀ k p, (x.postedFor id)[k]? = some p →
    p.desc.dev x.descq.conf.c2h =
      (x.reqs id).epAddr + (total ((x.hostsOf id).take k) : BitVec 64)

/-- The loop of `descq_mm_proc_request` counts the device address up from where
it starts. -/
theorem dev_foldl_mmPut (id : ReqId) :
    ∀ (es : List (Extent (BitVec 64))) (st : MmLoop), (∀ e ∈ es, e.len < 2 ^ sDescFDv) →
      ∃ ps, (es.foldl (putPiece (mmPut id)) st).x.posted = st.x.posted ++ ps ∧
        ps.map (fun p => p.desc.host st.x.descq.conf.c2h) = es ∧
        ∀ k p, ps[k]? = some p →
          p.desc.dev st.x.descq.conf.c2h = st.epAddr + (total (es.take k) : BitVec 64) := by
  intro es
  induction es with
  | nil => intro st _; exact ⟨[], by simp, rfl, by simp⟩
  | cons e es ih =>
      intro st hlen
      obtain ⟨ps, hps, hmap, hdev⟩ :=
        ih (putPiece (mmPut id) st e) (fun f hf => hlen f (by simp [hf]))
      have hconf : (putPiece (mmPut id) st e).x.descq.conf = st.x.descq.conf := by
        simp [putPiece, mmPut]
      rw [hconf] at hmap hdev
      refine ⟨⟨id, st.x.descq.pidx, mmDesc st.x.descq.conf.c2h st.epAddr e.start e.len⟩ :: ps,
        ?_, ?_, ?_⟩
      · rw [List.foldl_cons, hps]
        simp [putPiece, mmPut]
      · rw [List.map_cons, hmap, mmDesc_host _ _ _ (hlen e (by simp))]
      · intro k p hk
        cases k with
        | zero =>
            simp only [List.getElem?_cons_zero, Option.some.injEq] at hk
            subst hk
            simp [mmDesc_dev]
        | succ k =>
            rw [hdev k p (by simpa using hk)]
            simp [putPiece, mmPut, add_assoc]

/-- A call of `descq_mm_proc_request` counts the device address up from
`ep_addr`, whatever was posted before. -/
theorem dev_procCall (hst : x.descq.conf.st = false) (hmem : id ∈ x.descq.workList) (a : ℕ) :
    ∃ ps, (procCall id x a).posted = x.posted ++ ps ∧
      ∀ k p, ps[k]? = some p → p.desc.dev x.descq.conf.c2h =
        (x.reqs id).epAddr +
          (total ((ps.map fun p => p.desc.host x.descq.conf.c2h).take k) : BitVec 64) := by
  have hcall : procCall id x a = (descqMmProcRequest (x.withAvail a) id).2 := by
    have hst' : (x.withAvail a).descq.conf.st = false := hst
    rw [procCall, if_pos hmem, qdmaDescqProcSgtRequest, hst']
    rfl
  rw [hcall]
  simp only [descqMmProcRequest]
  split
  · exact ⟨[], by simp [Xfer.withAvail], by simp⟩
  · split
    · exact ⟨[], by simp [Xfer.withAvail], by simp⟩
    · rename_i sg off _
      rw [postSgl_eq_foldl (mmPut id) (show 0 < xdmaDescBlenMax by decide)]
      obtain ⟨ps, hps, hmap, hdev⟩ := dev_foldl_mmPut id
        ((pieces xdmaDescBlenMax sg).take (x.withAvail a).descq.avail)
        { x := x.withAvail a, epAddr := ((x.withAvail a).reqs id).epAddr, dataCnt := 0
          descCnt := 0, descEnd := none }
        (fun e he => lt_of_le_of_lt (len_of_mem_cutAll (List.mem_of_mem_take he)).2 (by decide))
      refine ⟨ps, ?_, ?_⟩
      · split
        · exact hps
        · rw [postAccount_eq]
          exact hps
      · intro k p hk
        have := hdev k p hk
        rw [← hmap] at this
        exact this

/-- **A later call starts over.**  Whatever completes a partly posted request
posts a descriptor at `ep_addr` itself. -/
theorem restarts_at_epAddr (hst : x.descq.conf.st = false) (hmem : id ∈ x.descq.workList)
    (hne : (x.reqs id).cb.offset ≠ (x.reqs id).count) (avs : List ℕ)
    (hdone : ((procCalls id x avs).reqs id).cb.offset = (x.reqs id).count) :
    ∃ p rest, (procCalls id x avs).postedFor id = x.postedFor id ++ p :: rest ∧
      p.desc.dev x.descq.conf.c2h = (x.reqs id).epAddr := by
  have hq : x.descq.isMmOrH2c := by simp [QdmaDescq.isMmOrH2c, QdmaDescq.isStC2h, hst]
  induction avs generalizing x with
  | nil => exact absurd hdone hne
  | cons a avs ih =>
      rcases procCall_cases hq hmem a with ⟨-, hr⟩ | ⟨ha, sg, off, -, hpieces, hposts⟩
      · rw [procCalls_cons, hr] at hdone ⊢
        exact ih (x := x.withAvail a) hst hmem hne hdone hq
      · obtain ⟨ps, hps, hdev⟩ := dev_procCall hst hmem a
        obtain ⟨ps', hps', hmap, howner⟩ := hposts.posted_eq
        obtain rfl : ps' = ps := List.append_cancel_left (hps'.symm.trans hps)
        have hcons : ps' ≠ [] := by
          rintro rfl
          have := congrArg List.length hmap
          have hlen := List.length_pos_of_ne_nil (hpieces hst)
          simp only [List.map_nil, List.length_nil, List.length_take] at this
          omega
        obtain ⟨p, rest, rfl⟩ := List.exists_cons_of_ne_nil hcons
        have hcont := continues_procCalls id ((continues_procCall id hq a).isMmOrH2c hq) avs
        obtain ⟨more, hmore⟩ := hcont.posted
        have hfor : (procCall id x a).postedFor id = x.postedFor id ++ p :: rest := by
          have hall : (p :: rest).filter (·.owner = id) = p :: rest := by simpa using howner
          rw [Xfer.postedFor, hps, List.filter_append, hall]
          rfl
        refine ⟨p, rest ++ more, ?_, ?_⟩
        · rw [procCalls_cons, ← hmore, hfor]
          simp
        · simpa using hdev 0 p rfl

/-- One call that posts everything counts the addresses up from `ep_addr`. -/
theorem Sent.devContiguous_of_all {blen : ℕ} (h : Sent blen req id 0 x)
    (hst : x.descq.conf.st = false)
    (hposts : Posts (x.withAvail a) id ((pieces blen req.sgt.sgl).take a) (procCall id x a)) :
    DevContiguous id (procCall id x a) := by
  have hcont := continues_procCall id h.kind a
  have hnone : x.postedFor id = [] := by simpa [Xfer.hostsOf] using h.hosts
  obtain ⟨ps, hps, hdev⟩ := dev_procCall hst h.mem a
  obtain ⟨ps', hps', -, howner⟩ := hposts.posted_eq
  obtain rfl : ps' = ps := List.append_cancel_left (hps'.symm.trans hps)
  have hfor : (procCall id x a).postedFor id = ps' := by
    have hall : ps'.filter (·.owner = id) = ps' := by simpa using howner
    rw [Xfer.postedFor, hps, List.filter_append, hall, ← Xfer.postedFor, hnone]
    rfl
  intro k p hk
  rw [hfor] at hk
  rw [hcont.conf, Xfer.hostsOf, hfor, hcont.conf, hcont.static]
  exact hdev k p hk

/-- A second batch starts at `ep_addr` again, where the address should have
advanced by the bytes of the first. -/
theorem Sent.not_devContiguous_of_split {blen K : ℕ} (h : Sent blen req id K x)
    (hwf : req.WellFormed) (hst : x.descq.conf.st = false) (hK : 0 < K) (avs : List ℕ)
    (hdone : ((procCalls id x avs).reqs id).cb.offset = req.count) :
    ¬ DevContiguous id (procCalls id x avs) := by
  intro hdev
  have hKn : K < (pieces blen req.sgt.sgl).length := by
    rcases h.room with h0 | hlt
    · omega
    · exact hlt
  have hpos := total_take_pieces_lt hK (Nat.le_of_lt hKn)
  have hlt := total_take_pieces_lt hKn le_rfl
  rw [List.take_length, total_pieces h.blen_pos, hwf] at hlt
  have hpart : (x.reqs id).cb.offset ≠ (x.reqs id).count := by
    rw [h.offset, h.count_eq]
    omega
  obtain ⟨p, rest, hrest, hpdev⟩ := restarts_at_epAddr hst h.mem hpart avs
    (by rw [h.count_eq]; exact hdone)
  have hlen : (x.postedFor id).length = K := by
    have := congrArg List.length h.hosts
    simp only [Xfer.hostsOf, List.length_map, List.length_take] at this
    omega
  have hcont := continues_procCalls id h.kind avs
  obtain ⟨es, hes⟩ := hcont.hostsOf_eq
  have hp := hdev K p (by rw [hrest]; simp [← hlen])
  have htake : ((procCalls id x avs).hostsOf id).take K = (pieces blen req.sgt.sgl).take K := by
    rw [hes, h.hosts, List.take_append_of_le_length (by simp; omega), List.take_take, Nat.min_self]
  have hsame : ((procCalls id x avs).reqs id).epAddr = (x.reqs id).epAddr := by
    rw [hcont.static]
  rw [hcont.conf, hpdev, hsame, htake] at hp
  have hbound : total ((pieces blen req.sgt.sgl).take K) < 2 ^ 64 := by
    have := req.count_lt
    omega
  have hzero := eq_zero_of_add_eq_self hbound hp.symm
  omega

/-- Along a run that completes, from the moment the request is queued. -/
theorem Sent.devContiguous_iff (hwf : req.WellFormed) :
    ∀ (avs : List ℕ) {x : Xfer}, x.descq.conf.st = false → Sent xdmaDescBlenMax req id 0 x →
      ((procCalls id x avs).reqs id).cb.offset = req.count →
      (DevContiguous id (procCalls id x avs) ↔
        ∀ a, avs.find? (· ≠ 0) = some a → descsNeeded xdmaDescBlenMax req.sgt.sgl ≤ a) := by
  intro avs
  induction avs with
  | nil =>
      intro x _ h _
      have hnone : x.postedFor id = [] := by simpa [Xfer.hostsOf] using h.hosts
      refine iff_of_true ?_ (by simp)
      intro k p hk
      simp [hnone] at hk
  | cons a avs ih =>
      intro x hst h hdone
      have hlen := length_pieces h.blen_pos req.sgt.sgl
      by_cases ha : a = 0
      · have hcall : procCall id x a = x.withAvail a := by
          rcases procCall_cases h.kind h.mem a with ⟨-, hr⟩ | ⟨hne, -⟩
          · exact hr
          · exact absurd ha hne
        rw [procCalls_cons, hcall] at hdone ⊢
        rw [ih (x := x.withAvail a) hst (h.withAvail a) hdone]
        simp [ha]
      have hfind : (a :: avs).find? (· ≠ 0) = some a := by simp [ha]
      simp only [hfind, Option.some.injEq, forall_eq']
      rcases h.call_cases hwf ha with hstuck | ⟨-, hposts⟩ | ⟨-, hK, -⟩
      · -- an error on an empty request: nothing is posted, and nothing was needed
        obtain ⟨hreqs, -, -, hposted⟩ := procCalls_of_stuck h.kind h.mem hstuck (a :: avs)
        have hnone : x.postedFor id = [] := by simpa [Xfer.hostsOf] using h.hosts
        refine iff_of_true ?_ ?_
        · intro k p hk
          simp only [Xfer.postedFor, hposted] at hk
          rw [← Xfer.postedFor, hnone] at hk
          simp at hk
        · have hcount : req.count = 0 := by
            rw [← hdone, hreqs, h.offset]
            simp
          have hnil : pieces xdmaDescBlenMax req.sgt.sgl = [] := by
            by_contra hne
            have := total_pos_of_ne_nil (fun e he => pieces_len_pos he) hne
            rw [total_pieces h.blen_pos, hwf] at this
            omega
          rw [← hlen, hnil]
          simp
      · rw [List.drop_zero] at hposts
        rcases (h.forward hwf (by simpa using hposts)).2.2 with ⟨hmore, hsent⟩ | ⟨hfin, hnot, -⟩
        · have hst' : (procCall id x a).descq.conf.st = false := by
            rw [(continues_procCall id h.kind a).conf]
            exact hst
          refine iff_of_false ?_ (by omega)
          exact hsent.not_devContiguous_of_split hwf hst' (by omega) avs hdone
        · refine iff_of_true ?_ (by omega)
          rw [procCalls_cons, procCalls_of_notMem hnot]
          exact h.devContiguous_of_all hst hposts
      · omega

/-- **Device addresses across splits.**  For a memory-mapped request whose
segments sum up to its count, in any run that brings the offset to the count: the
device addresses are contiguous exactly when the first call that finds a free
descriptor finds as many as the request needs. -/
theorem dev_contiguous_iff_single_call (x : Xfer) (id : ReqId) (avs : List ℕ)
    (hst : x.descq.conf.st = false) (hqueued : Queued x id) (hwf : (x.reqs id).WellFormed)
    (hdone : ((procCalls id x avs).reqs id).cb.offset = (x.reqs id).count) :
    DevContiguous id (procCalls id x avs) ↔
      ∀ a, avs.find? (· ≠ 0) = some a →
        descsNeeded xdmaDescBlenMax (x.reqs id).sgt.sgl ≤ a := by
  have hq : x.descq.isMmOrH2c := by simp [QdmaDescq.isMmOrH2c, QdmaDescq.isStC2h, hst]
  have hblen : blenOf x.descq = xdmaDescBlenMax := by
    rw [blenOf, hst]
    rfl
  have hsent := hqueued.sent hq
  rw [hblen] at hsent
  exact Sent.devContiguous_iff hwf avs hst hsent hdone

theorem dev_contiguous_one_call :
    DevContiguous 0 (procCalls 0 (h2cQueued false twoPlacesReq) [0, 2]) :=
  (dev_contiguous_iff_single_call (h2cQueued false twoPlacesReq) 0 [0, 2] rfl
    (queued_h2cQueued _ _ rfl) rfl (by decide +kernel)).mpr (by decide)

/-- Two segments posted by two calls go to the same device address. -/
theorem dev_restarts_two_calls :
    Queued (h2cQueued false twoPlacesReq) 0 ∧ twoPlacesReq.WellFormed ∧
      ((procCalls 0 (h2cQueued false twoPlacesReq) [1, 1]).reqs 0).cb.offset =
        twoPlacesReq.count ∧
      ¬ DevContiguous 0 (procCalls 0 (h2cQueued false twoPlacesReq) [1, 1]) := by
  have hqueued := queued_h2cQueued false twoPlacesReq rfl
  have hwf : twoPlacesReq.WellFormed := rfl
  have hkind : (h2cQueued false twoPlacesReq).descq.isMmOrH2c := rfl
  have hdone : ((procCalls 0 (h2cQueued false twoPlacesReq) [1, 1]).reqs 0).cb.offset =
      twoPlacesReq.count := by
    decide +kernel
  refine ⟨hqueued, hwf, hdone, ?_⟩
  rw [Sent.devContiguous_iff hwf [1, 1] rfl (hqueued.sent hkind) hdone]
  decide

end Qdma

import Qdma.DmaOrder

/-!
# Requests that are posted in parts

A request of a memory-mapped queue that finds fewer free descriptors than it needs is posted
by several calls of `descq_mm_proc_request`, and every one of them begins at `req->ep_addr`
again.  So its bytes do not lie in a row on the card: each part lies over the one before.

* `inParts` says where a byte comes to lie, and `InOneCall` when all lie in a row; otherwise the
  first place is taken by a later byte (`exists_last_of_not_inOneCall`).
* `copy_in_parts`: **the descriptors of all calls together are one copy**, the buffer in its
  order and the card as `inParts` says, for any free descriptors the calls find.  No call
  resumes inside a segment when each is one descriptor, as those of the character device are
  (`resumesAtEdges_of_short`).
-/

namespace Qdma

open Lib Lib.Extent

/-! ## Where a byte comes to lie -/

/-- The place of byte `i` of a request, from `req->ep_addr` on, where the calls post `parts` of
its bytes. -/
def inParts : List ℕ → ℕ → ℕ
  | [], i => i
  | n :: parts, i => if i < n then i else inParts parts (i - n)

/-- The first call that finds a free descriptor posts `n` bytes or more. -/
def InOneCall (parts : List ℕ) (n : ℕ) : Prop := ∀ m, parts.find? (· ≠ 0) = some m → n ≤ m

instance (parts : List ℕ) (n : ℕ) : Decidable (InOneCall parts n) :=
  inferInstanceAs (Decidable (∀ m, m ∈ parts.find? (· ≠ 0) → n ≤ m))

/-- Of `n` bytes none behind byte `i` goes to its place. -/
def StaysInParts (parts : List ℕ) (n i : ℕ) : Prop :=
  ∀ j, i < j → j < n → inParts parts j ≠ inParts parts i

section InParts

variable {parts : List ℕ} {n i : ℕ}

theorem inParts_zero_cons (parts : List ℕ) (i : ℕ) : inParts (0 :: parts) i = inParts parts i := by
  rw [inParts, if_neg (Nat.not_lt_zero i), Nat.sub_zero]

theorem inParts_of_lt (parts : List ℕ) (h : i < n) : inParts (n :: parts) i = i := if_pos h

theorem inParts_add (n : ℕ) (parts : List ℕ) (i : ℕ) :
    inParts (n :: parts) (n + i) = inParts parts i := by
  rw [inParts, if_neg (Nat.not_lt.mpr (Nat.le_add_right n i)), Nat.add_sub_cancel_left]

theorem inParts_le (parts : List ℕ) : ∀ i, inParts parts i ≤ i := by
  induction parts with
  | nil => exact fun i => le_rfl
  | cons n parts ih =>
      intro i
      rw [inParts]
      split
      · exact le_rfl
      · exact (ih (i - n)).trans (Nat.sub_le i n)

/-- **In one call** all bytes lie in a row. -/
theorem inParts_of_inOneCall (h : InOneCall parts n) (hi : i < n) : inParts parts i = i := by
  induction parts with
  | nil => rfl
  | cons m parts ih =>
      rcases Nat.eq_zero_or_pos m with rfl | hm
      · rw [inParts_zero_cons]
        exact ih fun k hk => h k hk
      · have hfind : (m :: parts).find? (· ≠ 0) = some m :=
          List.find?_cons_of_pos (decide_eq_true hm.ne')
        exact inParts_of_lt parts (hi.trans_le (h m hfind))

theorem InOneCall.stays (h : InOneCall parts n) (hi : i < n) : StaysInParts parts n i := by
  intro j hij hj heq
  rw [inParts_of_inOneCall h hi, inParts_of_inOneCall h hj] at heq
  exact absurd heq hij.ne'

/-- **In several calls** a byte that is not the first one stays at the first place. -/
theorem exists_last_of_not_inOneCall (h : ¬ InOneCall parts n) :
    ∃ i, 0 < i ∧ i < n ∧ inParts parts i = 0 ∧ StaysInParts parts n i := by
  -- the second part begins at the first place again
  have hsecond : ∃ i, 0 < i ∧ i < n ∧ inParts parts i = 0 := by
    induction parts with
    | nil => exact absurd (fun m hm => absurd hm (Option.some_ne_none m).symm) h
    | cons m parts ih =>
        rcases Nat.eq_zero_or_pos m with rfl | hm
        · obtain ⟨i, hpos, hlt, hzero⟩ := ih fun hone => h fun k hk => hone k hk
          exact ⟨i, hpos, hlt, (inParts_zero_cons parts i).trans hzero⟩
        · have hlt : m < n := by
            by_contra hge
            have hfind : (m :: parts).find? (· ≠ 0) = some m :=
              List.find?_cons_of_pos (decide_eq_true hm.ne')
            refine h fun k hk => ?_
            rw [hfind] at hk
            exact (Nat.le_of_not_lt hge).trans (Option.some.inj hk).le
          refine ⟨m, hm, hlt, ?_⟩
          have hnext := inParts_add m parts 0
          exact hnext.trans (Nat.le_zero.mp (inParts_le parts 0))
  obtain ⟨i, hpos, hlt, hzero⟩ := hsecond
  let last := Nat.findGreatest (fun j => inParts parts j = 0) (n - 1)
  have hle : i ≤ last := Nat.le_findGreatest (by omega) hzero
  have hlast : inParts parts last = 0 :=
    Nat.findGreatest_spec (P := fun j => inParts parts j = 0) (show i ≤ n - 1 by omega) hzero
  have hbound : last ≤ n - 1 := Nat.findGreatest_le _
  refine ⟨last, by omega, by omega, hlast, fun j hj hjn heq => ?_⟩
  exact Nat.findGreatest_is_greatest hj (by omega) (heq.trans hlast)

end InParts

/-! ## What the calls post -/

/-- The numbers of bytes the calls post, when `K` pieces have been posted before. -/
def callParts (blen : ℕ) (sgl : List Scatterlist) : ℕ → List ℕ → List ℕ
  | _, [] => []
  | K, a :: avs => total (((pieces blen sgl).drop K).take a) :: callParts blen sgl (K + a) avs

/-- The addresses of `n` bytes on the card. -/
def cardInParts (epAddr : BitVec 64) (parts : List ℕ) (n : ℕ) : List (BitVec 64) :=
  (List.range n).map fun i => epAddr + (inParts parts i : BitVec 64)

/-- The request's buffer and as many bytes of the card, in parts. -/
def QdmaSgReq.copyInParts (c2h : Bool) (req : QdmaSgReq) (parts : List ℕ) : DmaCopy :=
  let dev := cardInParts req.epAddr parts (sglTotal req.sgt.sgl)
  have hlen : req.buffer.length = dev.length := by
    unfold dev cardInParts
    rw [List.length_map, List.length_range]
    exact (length_bytesOf _).trans (congrArg List.sum List.map_map)
  if c2h then ⟨dev, req.buffer, hlen.symm⟩ else ⟨req.buffer, dev, hlen⟩

/-- A call that posts pieces: its descriptors count up from `req->ep_addr`. -/
theorem Sent.call_in_one_part {blen K a : ℕ} {req : QdmaSgReq} {id : ReqId} {x : Xfer}
    {es : List (Extent (BitVec 64))} (h : Sent blen req id K x) (hst : x.descq.conf.st = false)
    (hposts : Posts (x.withAvail a) id es (procCall id x a)) (parts : List ℕ) :
    ∃ ps, (procCall id x a).postedFor id = x.postedFor id ++ ps ∧
      ps.map (fun p => p.desc.host x.descq.conf.c2h) = es ∧
      ps.flatMap (fun p =>
          (⟨p.desc.dev x.descq.conf.c2h, p.desc.len⟩ : Extent (BitVec 64)).bytes) =
        cardInParts req.epAddr (total es :: parts) (total es) := by
  obtain ⟨ps, hps, hdev⟩ := dev_procCall hst h.mem a
  obtain ⟨ps', hps', hhosts, howner⟩ := hposts.posted_eq
  obtain rfl : ps' = ps := List.append_cancel_left (hps'.symm.trans hps)
  have hhosts' : ps'.map (fun p => p.desc.host x.descq.conf.c2h) = es := hhosts
  have hep : (x.reqs id).epAddr = req.epAddr := by rw [h.static]
  have hcard := card_bytes_eq hdev
  rw [hhosts', hep] at hcard
  refine ⟨ps', ?_, hhosts', hcard.trans (List.map_congr_left fun i hi => ?_)⟩
  · have hall : ps'.filter (·.owner = id) = ps' := by simpa using howner
    rw [Xfer.postedFor, hps, List.filter_append, hall]
    rfl
  · rw [inParts_of_lt parts (List.mem_range.mp hi)]

/-- What follows the first part begins at `epAddr` again. -/
theorem cardInParts_cons_add (epAddr : BitVec 64) (n : ℕ) (parts : List ℕ) (k : ℕ) :
    cardInParts epAddr (n :: parts) (n + k) =
      cardInParts epAddr (n :: parts) n ++ cardInParts epAddr parts k := by
  unfold cardInParts
  rw [List.range_add, List.map_append, List.map_map]
  refine congrArg _ (List.map_congr_left fun i _ => ?_)
  dsimp only [Function.comp]
  rw [inParts_add]

/-- Between two calls: what is still posted is the rest of the pieces, in parts. -/
theorem Sent.rest_in_parts {blen : ℕ} {req : QdmaSgReq} {id : ReqId} (hwf : req.WellFormed) :
    ∀ (avs : List ℕ) {K : ℕ} {x : Xfer}, x.descq.conf.st = false → Sent blen req id K x →
      ResumesAtEdges blen req.sgt.sgl K avs → id ∈ (procCalls id x avs).descq.pendList →
      ∃ ps, (procCalls id x avs).postedFor id = x.postedFor id ++ ps ∧
        ps.map (fun p => p.desc.host x.descq.conf.c2h) = (pieces blen req.sgt.sgl).drop K ∧
        ps.flatMap (fun p =>
            (⟨p.desc.dev x.descq.conf.c2h, p.desc.len⟩ : Extent (BitVec 64)).bytes) =
          cardInParts req.epAddr (callParts blen req.sgt.sgl K avs)
            (total ((pieces blen req.sgt.sgl).drop K)) ∧
        total ((pieces blen req.sgt.sgl).drop K) ≤ (callParts blen req.sgt.sgl K avs).sum := by
  intro avs
  induction avs with
  | nil => exact fun _ h _ hdone => absurd hdone h.notPend
  | cons a avs ih =>
      intro K x hst h hedges hdone
      by_cases ha : a = 0
      · -- a call that finds no free descriptor
        have hcall : procCall id x a = x.withAvail a := by
          rcases procCall_cases h.kind h.mem a with ⟨-, hr⟩ | ⟨hne, -⟩
          · exact hr
          · exact absurd ha hne
        have hedges' : ResumesAtEdges blen req.sgt.sgl K avs := by
          unfold ResumesAtEdges at hedges
          split at hedges
          · next hle => exact resumesAtEdges_of_le hle
          · exact hedges
        rw [procCalls_cons, hcall] at hdone ⊢
        obtain ⟨ps, hps, hhosts, hcard, hsum⟩ :=
          ih (x := x.withAvail a) hst (h.withAvail a) hedges' hdone
        have hparts : callParts blen req.sgt.sgl K (a :: avs) =
            0 :: callParts blen req.sgt.sgl K avs := by
          rw [callParts, ha, List.take_zero, total_nil, Nat.add_zero]
        rw [hparts]
        refine ⟨ps, hps, hhosts, hcard.trans (List.map_congr_left fun i _ => ?_), ?_⟩
        · rw [inParts_zero_cons]
        · rwa [List.sum_cons, Nat.zero_add]
      rcases h.call_cases hwf ha with hstuck | ⟨-, hposts⟩ | ⟨hedge, hK, -⟩
      · have hsame := (procCalls_of_stuck h.kind h.mem hstuck (a :: avs)).2.2.1
        rw [hsame] at hdone
        exact absurd hdone h.notPend
      · -- a call that posts the next pieces
        obtain ⟨ps, hfor, hhosts, hbytes⟩ :=
          h.call_in_one_part hst hposts (callParts blen req.sgt.sgl (K + a) avs)
        rw [← callParts] at hbytes
        have hcont := continues_procCall id h.kind a
        rcases (h.forward hwf hposts).2.2 with ⟨hmore, hsent⟩ | ⟨hfin, hnot, -⟩
        · have hst' : (procCall id x a).descq.conf.st = false := by
            rw [hcont.conf]
            exact hst
          have hedges' : ResumesAtEdges blen req.sgt.sgl (K + a) avs := by
            have hlen := length_pieces h.blen_pos req.sgt.sgl
            unfold ResumesAtEdges at hedges
            rw [if_neg (by omega), if_neg ha] at hedges
            exact hedges.2
          obtain ⟨qs, hqs, hqhosts, hqcard, hsum⟩ := ih hst' hsent hedges' hdone
          rw [hcont.conf] at hqhosts hqcard
          have hsplit : (pieces blen req.sgt.sgl).drop K =
              ((pieces blen req.sgt.sgl).drop K).take a ++
                (pieces blen req.sgt.sgl).drop (K + a) := by
            rw [← List.drop_drop, List.take_append_drop]
          refine ⟨ps ++ qs, ?_, ?_, ?_, ?_⟩
          · rw [procCalls_cons, hqs, hfor, List.append_assoc]
          · rw [List.map_append, hhosts, hqhosts, ← hsplit]
          · rw [List.flatMap_append, hbytes, hqcard]
            conv_rhs => rw [hsplit, total_append]
            exact (cardInParts_cons_add ..).symm
          · rw [hsplit, total_append, callParts, List.sum_cons]
            exact Nat.add_le_add_left hsum _
        · have hall : ((pieces blen req.sgt.sgl).drop K).take a =
              (pieces blen req.sgt.sgl).drop K :=
            List.take_of_length_le (by rw [List.length_drop]; omega)
          have hsum : total ((pieces blen req.sgt.sgl).drop K) ≤
              (callParts blen req.sgt.sgl K (a :: avs)).sum := by
            rw [callParts, hall, List.sum_cons]
            exact Nat.le_add_right _ _
          rw [hall] at hhosts hbytes
          exact ⟨ps, by rw [procCalls_cons, procCalls_of_notMem hnot, hfor], hhosts, hbytes, hsum⟩
      · -- a call that would resume inside a segment
        have hlen := length_pieces h.blen_pos req.sgt.sgl
        have hroom := h.room
        unfold ResumesAtEdges at hedges
        rw [if_neg (by omega), if_neg ha] at hedges
        exact absurd hedges.1 hedge

/-- **The descriptors of all calls together are one copy**, when they have posted the request. -/
theorem copy_in_parts {x : Xfer} {id : ReqId} {avs : List ℕ} (hst : x.descq.conf.st = false)
    (hqueued : Queued x id) (hwf : (x.reqs id).WellFormed)
    (hedges : ResumesAtEdges xdmaDescBlenMax (x.reqs id).sgt.sgl 0 avs)
    (hdone : id ∈ (procCalls id x avs).descq.pendList) :
    Copy.join (((procCalls id x avs).postedFor id).map (·.desc.copy)) =
        (x.reqs id).copyInParts x.descq.conf.c2h
          (callParts xdmaDescBlenMax (x.reqs id).sgt.sgl 0 avs) ∧
      (x.reqs id).count ≤ (callParts xdmaDescBlenMax (x.reqs id).sgt.sgl 0 avs).sum := by
  have hq : x.descq.isMmOrH2c := by simp [QdmaDescq.isMmOrH2c, QdmaDescq.isStC2h, hst]
  have hblen : blenOf x.descq = xdmaDescBlenMax := by
    rw [blenOf, hst]
    rfl
  have hpos : 0 < xdmaDescBlenMax := by decide
  have hsent := hqueued.sent hq
  rw [hblen] at hsent
  obtain ⟨ps, hps, hhosts, hcard, hsum⟩ := hsent.rest_in_parts hwf avs hst hedges hdone
  rw [hps, hqueued.fresh, List.nil_append]
  rw [List.drop_zero] at hhosts hcard hsum
  rw [total_pieces hpos] at hcard hsum
  have hbuffer : ps.flatMap (fun p => (p.desc.host x.descq.conf.c2h).bytes) =
      (x.reqs id).buffer := by
    unfold QdmaSgReq.buffer
    rw [← bytesOf_cutAll hpos]
    change _ = bytesOf (pieces xdmaDescBlenMax (x.reqs id).sgt.sgl)
    rw [← hhosts, bytesOf, List.flatMap_map]
  refine ⟨?_, hwf ▸ hsum⟩
  unfold QdmaSgReq.copyInParts
  cases hc2h : x.descq.conf.c2h with
  | false =>
      rw [hc2h] at hbuffer hcard
      exact join_eq_of_sides hbuffer hcard
  | true =>
      rw [hc2h] at hbuffer hcard
      exact join_eq_of_sides hbuffer hcard

/-! ## Segments of one descriptor -/

section Short

variable {blen : ℕ} {sgl : List Scatterlist}

theorem descsNeeded_of_short (h : ∀ sg ∈ sgl, 0 < sg.dmaLen ∧ sg.dmaLen ≤ blen) :
    descsNeeded blen sgl = sgl.length := by
  induction sgl with
  | nil => rfl
  | cons sg sgl ih =>
      obtain ⟨hpos, hle⟩ := h sg List.mem_cons_self
      have hone : (sg.dmaLen + blen - 1) / blen = 1 :=
        Nat.div_eq_of_lt_le (by omega) (by omega)
      have hrest : descsNeeded blen (sg :: sgl) = (sg.dmaLen + blen - 1) / blen +
          descsNeeded blen sgl := rfl
      rw [hrest, hone, ih fun s hs => h s (List.mem_cons_of_mem sg hs), List.length_cons,
        Nat.add_comm]

/-- No call resumes inside a segment that is one descriptor. -/
theorem resumesAtEdges_of_short (h : ∀ sg ∈ sgl, 0 < sg.dmaLen ∧ sg.dmaLen ≤ blen)
    (avs : List ℕ) : ∀ K, ResumesAtEdges blen sgl K avs := by
  induction avs with
  | nil => exact fun _ => trivial
  | cons a avs ih =>
      intro K
      unfold ResumesAtEdges
      split
      · trivial
      · next hmore =>
          rw [descsNeeded_of_short h] at hmore
          split
          · exact ih K
          · refine ⟨⟨K, by omega, ?_⟩, ih (K + a)⟩
            rw [descsNeeded_of_short fun sg hsg => h sg (List.mem_of_mem_take hsg),
              List.length_take]
            omega

/-- What a call posts is bounded by the free descriptors it finds. -/
theorem le_of_mem_callParts {p R : ℕ} (h : ∀ sg ∈ sgl, sg.dmaLen ≤ p) :
    ∀ (avs : List ℕ) (K : ℕ), (∀ a ∈ avs, a ≤ R) → ∀ m ∈ callParts blen sgl K avs, m ≤ R * p := by
  have hpieces : ∀ e ∈ pieces blen sgl, e.len ≤ p := fun e he =>
    len_le_of_mem_cutAll (fun s hs => by
      obtain ⟨sg, hsg, rfl⟩ := List.mem_map.mp hs
      exact h sg hsg) he
  intro avs
  induction avs with
  | nil => exact fun _ _ m hm => absurd hm List.not_mem_nil
  | cons a avs ih =>
      intro K havs m hm
      rw [callParts, List.mem_cons] at hm
      rcases hm with rfl | hm
      · refine (total_le fun e he =>
          hpieces e (List.mem_of_mem_drop (List.mem_of_mem_take he))).trans ?_
        refine Nat.mul_le_mul_right p ((List.length_take_le a _).trans ?_)
        exact havs a List.mem_cons_self
      · exact ih (K + a) (fun k hk => havs k (List.mem_cons_of_mem a hk)) m hm

end Short

end Qdma

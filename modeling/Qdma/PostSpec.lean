import Qdma.Post

/-!
# What one posting call does

The functions of `Qdma.Post` in closed form, one specification each, so that
nothing above this module unfolds them.

* `sgtFindOffset_spec` — the segment found for an offset, by prefix sums.
* `sgt_find_offset_iff` — when `*sg_offset` is the place of the offset in that segment: the
  source stores the number of bytes left in it.
* `postSgl_eq_foldl` — the walk over the scatter list is a fold of the loop body
  over the first `desc_max` pieces of the list.
* `Puts` — the pieces put into the ring one after the other.
* `Posts` and `proc_cases` — every outcome of `qdma_descq_proc_sgt_request`:
  nothing to do, one of the two errors with nothing changed, or a batch of
  pieces posted and accounted for.

The intra-segment offset that `sgt_find_offset` returns does not appear in any of
them: the source clears `sg_offset` before it uses it, so a walk always starts at
the beginning of the segment it resumes in.
-/

namespace Qdma

open Lib Lib.Extent

/-! ## Scatter lists as extents -/

/-- The host range of a scatter-list entry. -/
def Scatterlist.extent (sg : Scatterlist) : Extent (BitVec 64) := ⟨sg.dmaAddress, sg.dmaLen⟩

/-- The pieces of at most `blen` bytes a scatter list is posted in. -/
def pieces (blen : ℕ) (sgl : List Scatterlist) : List (Extent (BitVec 64)) :=
  cutAll blen (sgl.map Scatterlist.extent)

@[simp] theorem total_map_extent (sgl : List Scatterlist) :
    total (sgl.map Scatterlist.extent) = sglTotal sgl := by
  simp [total, sglTotal, Scatterlist.extent, Function.comp_def]

@[simp] theorem sglTotal_nil : sglTotal [] = 0 := rfl

@[simp] theorem sglTotal_cons (sg : Scatterlist) (sgl : List Scatterlist) :
    sglTotal (sg :: sgl) = sg.dmaLen + sglTotal sgl := by
  simp [sglTotal]

@[simp] theorem sglTotal_append (sgl sgl' : List Scatterlist) :
    sglTotal (sgl ++ sgl') = sglTotal sgl + sglTotal sgl' := by
  simp [sglTotal]

@[simp] theorem pieces_nil (blen : ℕ) : pieces blen [] = [] := rfl

@[simp] theorem pieces_cons (blen : ℕ) (sg : Scatterlist) (sgl : List Scatterlist) :
    pieces blen (sg :: sgl) = cut blen sg.dmaAddress sg.dmaLen ++ pieces blen sgl := by
  simp [pieces, Scatterlist.extent]

theorem total_pieces {blen : ℕ} (hb : 0 < blen) (sgl : List Scatterlist) :
    total (pieces blen sgl) = sglTotal sgl := by
  rw [pieces, total_cutAll hb, total_map_extent]

theorem sglTotal_take_add_drop (sgl : List Scatterlist) (j : ℕ) :
    sglTotal (sgl.take j) + sglTotal (sgl.drop j) = sglTotal sgl := by
  rw [← sglTotal_append, List.take_append_drop]

/-! ## Finding an offset -/

/-- What `sgt_find_offset` reports for an offset beyond the bytes `len` already
passed: the segment after the one the offset ends, or the segment it falls
inside. -/
theorem sgtFindOffsetLoop_spec {offset : ℕ} :
    ∀ (rest : List Scatterlist) (len i : ℕ) {rv : ℕ} {sg : List Scatterlist} {off : ℕ},
      len + sglTotal rest < 2 ^ 32 →
      sgtFindOffsetLoop offset rest len i = some (rv, sg, off) →
      ∃ j, rv = i + j ∧ sg = rest.drop j ∧
        ((off = 0 ∧ len + sglTotal (rest.take j) = offset ∧ 0 < j) ∨
          (0 < off ∧ j < rest.length ∧ offset < len + sglTotal (rest.take (j + 1)) ∧
            (0 < j → len + sglTotal (rest.take j) < offset) ∧
            off = len + sglTotal (rest.take (j + 1)) - offset)) := by
  intro rest
  induction rest with
  | nil => intro len i rv sg off _ h; simp [sgtFindOffsetLoop] at h
  | cons s rest ih =>
      intro len i rv sg off hlt h
      rw [sglTotal_cons] at hlt
      simp only [sgtFindOffsetLoop] at h
      rw [u32_of_lt (by omega)] at h
      split at h
      · rename_i heq
        simp only [Option.some.injEq, Prod.mk.injEq] at h
        obtain ⟨rfl, rfl, rfl⟩ := h
        exact ⟨1, rfl, by simp, Or.inl ⟨rfl, by simp [heq], by omega⟩⟩
      · split at h
        · rename_i hne hover
          simp only [Option.some.injEq, Prod.mk.injEq] at h
          obtain ⟨rfl, rfl, rfl⟩ := h
          refine ⟨0, rfl, rfl, Or.inr ⟨by omega, by simp, by simp; omega, by simp, by simp⟩⟩
        · rename_i hne hunder
          obtain ⟨j, rfl, rfl, hj⟩ := ih (len + s.dmaLen) (i + 1) (by omega) h
          refine ⟨j + 1, by omega, by simp, ?_⟩
          rcases hj with ⟨h0, hsum, _⟩ | ⟨hpos, hj, hlt', hprev, hoff⟩
          · exact Or.inl ⟨h0, by simp; omega, by omega⟩
          · refine Or.inr ⟨hpos, by simpa using hj, by simp; omega, ?_, by simp; omega⟩
            intro _
            rcases Nat.eq_zero_or_pos j with rfl | hjpos
            · simp; omega
            · have := hprev hjpos
              simp; omega

/-- The loop finds a place for every offset the list reaches. -/
theorem sgtFindOffsetLoop_isSome (offset : ℕ) :
    ∀ (rest : List Scatterlist) (len i : ℕ),
      len + sglTotal rest < 2 ^ 32 → rest ≠ [] → offset ≤ len + sglTotal rest →
      (sgtFindOffsetLoop offset rest len i).isSome := by
  intro rest
  induction rest with
  | nil => intro len i _ h; exact absurd rfl h
  | cons s rest ih =>
      intro len i hlt _ hle
      rw [sglTotal_cons] at hlt hle
      simp only [sgtFindOffsetLoop]
      rw [u32_of_lt (by omega)]
      split
      · simp
      · split
        · simp
        · rename_i hne hunder
          refine ih _ _ (by omega) ?_ (by omega)
          rintro rfl
          simp at hle
          omega

/-- **`sgt_find_offset` by prefix sums.**  For a positive offset, the result is
either the segment that follows the offset's edge, with `*sg_offset = 0`, or the
segment the offset falls inside, with the number of bytes left in it. -/
theorem sgtFindOffset_spec {sgt : SgTable} {offset rv off : ℕ} {sg : List Scatterlist}
    (hlt : sglTotal sgt.sgl < 2 ^ 32) (hpos : 0 < offset)
    (h : sgtFindOffset sgt offset = some (rv, sg, off)) :
    sg = sgt.sgl.drop rv ∧
      ((off = 0 ∧ sglTotal (sgt.sgl.take rv) = offset) ∨
        (0 < off ∧ rv < sgt.nents ∧ sglTotal (sgt.sgl.take rv) < offset ∧
          offset < sglTotal (sgt.sgl.take (rv + 1)))) := by
  unfold sgtFindOffset at h
  split at h
  · obtain ⟨j, hrv, hsg, hcases⟩ := sgtFindOffsetLoop_spec sgt.sgl 0 0 (by omega) h
    obtain rfl : rv = j := by omega
    refine ⟨hsg, ?_⟩
    rcases hcases with ⟨h0, hsum, _⟩ | ⟨hoff, hj, hlt', hprev, _⟩
    · exact Or.inl ⟨h0, by omega⟩
    · refine Or.inr ⟨hoff, hj, ?_, by omega⟩
      rcases Nat.eq_zero_or_pos rv with rfl | hrvpos
      · simpa using hpos
      · have := hprev hrvpos
        omega
  · cases h

/-- A list of fewer than `2 ^ 31` entries has a place for every offset up to its
total. -/
theorem sgtFindOffset_isSome {sgt : SgTable} {offset : ℕ} (hlt : sglTotal sgt.sgl < 2 ^ 32)
    (hn : sgt.nents < 2 ^ 31) (hpos : 0 < offset) (hle : offset ≤ sglTotal sgt.sgl) :
    ∃ rv sg off, sgtFindOffset sgt offset = some (rv, sg, off) := by
  have hne : sgt.sgl ≠ [] := by
    rintro hnil
    rw [hnil] at hle
    simp at hle
    omega
  have hsome := sgtFindOffsetLoop_isSome offset sgt.sgl 0 0 (by omega) hne (by omega)
  obtain ⟨⟨rv, sg, off⟩, hr⟩ := Option.isSome_iff_exists.mp hsome
  exact ⟨rv, sg, off, by rw [sgtFindOffset, if_pos hn, hr]⟩

/-! ### The offset inside the segment -/

/-- The number of bytes before segment `i`. -/
def SgTable.before (sgt : SgTable) (i : ℕ) : ℕ := sglTotal (sgt.sgl.take i)

/-- What `sgt_find_offset` is for: the segment that byte `offset` is in and its place there, the
number of entries at the end of the list, and an error behind it. -/
structure FindsOffset (sgt : SgTable) (offset : ℕ) (r : Option (ℕ × List Scatterlist × ℕ)) :
    Prop where
  inside : offset < sglTotal sgt.sgl →
    ∃ i sg rest off, r = some (i, sg :: rest, off) ∧ sgt.sgl.drop i = sg :: rest ∧
      off < sg.dmaLen ∧ sgt.before i + off = offset
  atEnd : offset = sglTotal sgt.sgl → r.map Prod.fst = some sgt.nents
  behind : sglTotal sgt.sgl < offset → r = none

/-- The offset is behind the list, or the edge of a segment, or the middle of one: the function
returns the bytes left in the segment, and there the two are the same. -/
def OffsetFound (sgt : SgTable) (offset : ℕ) : Prop :=
  sglTotal sgt.sgl < offset ∨
    sgt.nents < 2 ^ 31 ∧
      ((∃ i ≤ sgt.nents, sgt.before i = offset) ∨
        ∃ i < sgt.nents, 2 * offset = sgt.before i + sgt.before (i + 1))

section Offset

variable {sgt : SgTable} {offset i j : ℕ}

theorem sgtFindOffsetLoop_le : ∀ (rest : List Scatterlist) (len i : ℕ)
    {r : ℕ × List Scatterlist × ℕ}, sgtFindOffsetLoop offset rest len i = some r →
      r.1 ≤ i + rest.length := by
  intro rest
  induction rest with
  | nil => intro len i r h; cases h
  | cons s rest ih =>
      intro len i r h
      rw [List.length_cons]
      unfold sgtFindOffsetLoop at h
      dsimp only at h
      split at h
      · rw [← Option.some.inj h]
        omega
      · split at h
        · rw [← Option.some.inj h]
          omega
        · have hle := ih _ _ h
          omega

theorem sgtFindOffsetLoop_none : ∀ (rest : List Scatterlist) (len i : ℕ),
    len + sglTotal rest < 2 ^ 32 → len + sglTotal rest < offset →
      sgtFindOffsetLoop offset rest len i = none := by
  intro rest
  induction rest with
  | nil => intro len i _ _; rfl
  | cons s rest ih =>
      intro len i hlt hbehind
      rw [sglTotal_cons] at hlt hbehind
      unfold sgtFindOffsetLoop
      dsimp only
      rw [u32_of_lt (by omega), if_neg (by omega), if_neg (by omega)]
      exact ih _ _ (by omega) (by omega)

theorem before_nents (sgt : SgTable) : sgt.before sgt.nents = sglTotal sgt.sgl := by
  unfold SgTable.before SgTable.nents
  rw [List.take_length]

theorem before_succ (h : i < sgt.sgl.length) :
    sgt.before (i + 1) = sgt.before i + sgt.sgl[i].dmaLen := by
  unfold SgTable.before
  rw [List.take_succ_eq_append_getElem h, sglTotal_append, sglTotal_cons, sglTotal_nil,
    Nat.add_zero]

theorem before_mono (h : i ≤ j) : sgt.before i ≤ sgt.before j := by
  unfold SgTable.before
  have htake : sgt.sgl.take i = (sgt.sgl.take j).take i := by
    rw [List.take_take, Nat.min_eq_left h]
  rw [htake, ← sglTotal_take_add_drop (sgt.sgl.take j) i]
  exact Nat.le_add_right _ _

theorem before_lt (hne : ∀ sg ∈ sgt.sgl, 0 < sg.dmaLen) (hi : i < sgt.nents) (h : i < j) :
    sgt.before i < sgt.before j := by
  have hpos := hne _ (List.getElem_mem hi)
  have hsucc := before_succ hi
  have hmono : sgt.before (i + 1) ≤ sgt.before j := before_mono h
  omega

/-- Behind the list nothing is found. -/
theorem sgtFindOffset_behind (hlt : sglTotal sgt.sgl < 2 ^ 32) (h : sglTotal sgt.sgl < offset) :
    sgtFindOffset sgt offset = none := by
  unfold sgtFindOffset
  split
  · exact sgtFindOffsetLoop_none _ _ _ (by omega) (by omega)
  · rfl

/-- The two exits of the loop: an edge, or the bytes left in a segment. -/
theorem sgtFindOffset_place (hlt : sglTotal sgt.sgl < 2 ^ 32) (hn : sgt.nents < 2 ^ 31)
    (hpos : 0 < offset) (hle : offset ≤ sglTotal sgt.sgl) :
    (∃ i ≤ sgt.nents, sgt.before i = offset ∧
        sgtFindOffset sgt offset = some (i, sgt.sgl.drop i, 0)) ∨
      ∃ i < sgt.nents, sgt.before i < offset ∧ offset < sgt.before (i + 1) ∧
        sgtFindOffset sgt offset =
          some (i, sgt.sgl.drop i, sgt.before (i + 1) - offset) := by
  obtain ⟨rv, sg, off, hfind⟩ := sgtFindOffset_isSome hlt hn hpos hle
  have hloop : sgtFindOffsetLoop offset sgt.sgl 0 0 = some (rv, sg, off) := by
    unfold sgtFindOffset at hfind
    rwa [if_pos hn] at hfind
  obtain ⟨i, hrv, rfl, hcases⟩ := sgtFindOffsetLoop_spec sgt.sgl 0 0 (by omega) hloop
  rw [Nat.zero_add] at hrv
  subst hrv
  obtain ⟨rfl, hsum, -⟩ | ⟨-, hi, hhigh, hprev, rfl⟩ := hcases
  · have hrange := sgtFindOffsetLoop_le _ _ _ hloop
    rw [Nat.zero_add] at hsum hrange
    exact Or.inl ⟨rv, hrange, hsum, hfind⟩
  · rw [Nat.zero_add] at hhigh hfind
    refine Or.inr ⟨rv, hi, ?_, hhigh, hfind⟩
    obtain rfl | hrv := Nat.eq_zero_or_pos rv
    · exact hpos
    · have hlow := hprev hrv
      rwa [Nat.zero_add] at hlow

/-- An offset that falls inside a segment is at no edge, and in the middle of no other one. -/
theorem offset_inside_unique (hi : i < sgt.nents) (hlow : sgt.before i < offset)
    (hhigh : offset < sgt.before (i + 1)) :
    (¬ ∃ k ≤ sgt.nents, sgt.before k = offset) ∧
      ((∃ k < sgt.nents, 2 * offset = sgt.before k + sgt.before (k + 1)) ↔
        2 * offset = sgt.before i + sgt.before (i + 1)) := by
  have hsame : ∀ k, sgt.before k ≤ offset → offset < sgt.before (k + 1) → k = i := by
    intro k hk hk'
    by_contra hne
    obtain hless | hmore := Nat.lt_or_gt_of_ne hne
    · have hmono : sgt.before (k + 1) ≤ sgt.before i := before_mono hless
      omega
    · have hmono : sgt.before (i + 1) ≤ sgt.before k := before_mono hmore
      omega
  constructor
  · rintro ⟨k, -, hk⟩
    obtain hless | hmore := Nat.lt_or_ge i k
    · have hmono : sgt.before (i + 1) ≤ sgt.before k := before_mono hless
      omega
    · have hmono : sgt.before k ≤ sgt.before i := before_mono hmore
      omega
  · constructor
    · rintro ⟨k, hk, heq⟩
      have hmono : sgt.before k ≤ sgt.before (k + 1) := before_mono (Nat.le_succ k)
      by_cases hflat : sgt.before k = sgt.before (k + 1)
      · -- an empty segment has no middle
        exfalso
        obtain hless | hmore := Nat.lt_or_ge i k
        · have hmono' : sgt.before (i + 1) ≤ sgt.before k := before_mono hless
          omega
        · have hmono' : sgt.before k ≤ sgt.before i := before_mono hmore
          omega
      · rw [hsame k (by omega) (by omega)] at heq
        exact heq
    · intro heq
      exact ⟨i, hi, heq⟩

/-- At an edge the next segment is right, with nothing skipped. -/
theorem findsOffset_edge (hne : ∀ sg ∈ sgt.sgl, 0 < sg.dmaLen) (hi : i ≤ sgt.nents)
    (hedge : sgt.before i = offset) : FindsOffset sgt offset (some (i, sgt.sgl.drop i, 0)) where
  inside hin := by
    have hlast := before_nents sgt
    have hi' : i < sgt.nents := by
      by_contra hc
      rw [Nat.le_antisymm hi (Nat.le_of_not_lt hc)] at hedge
      omega
    exact ⟨i, sgt.sgl[i], sgt.sgl.drop (i + 1), 0, by rw [List.drop_eq_getElem_cons hi'],
      List.drop_eq_getElem_cons hi', hne _ (List.getElem_mem hi'), hedge⟩
  atEnd hend := by
    rw [Option.map_some, Option.some.injEq]
    by_contra hc
    have hbelow := before_lt hne (Nat.lt_of_le_of_ne hi hc) (Nat.lt_of_le_of_ne hi hc)
    rw [before_nents] at hbelow
    omega
  behind h := by
    have hbelow : sgt.before i ≤ sgt.before sgt.nents := before_mono hi
    rw [before_nents] at hbelow
    omega

/-- Inside a segment the bytes left are right where they are as many as the bytes skipped. -/
theorem findsOffset_inside_iff (hi : i < sgt.nents) (hlow : sgt.before i < offset)
    (hhigh : offset < sgt.before (i + 1)) :
    FindsOffset sgt offset (some (i, sgt.sgl.drop i, sgt.before (i + 1) - offset)) ↔
      2 * offset = sgt.before i + sgt.before (i + 1) := by
  have hlast : sgt.before (i + 1) ≤ sglTotal sgt.sgl := by
    rw [← before_nents]
    exact before_mono hi
  have hsucc := before_succ hi
  constructor
  · intro h
    obtain ⟨k, sg, rest, off, hr, -, -, hsum⟩ := h.inside (by omega)
    rw [Option.some.injEq, Prod.mk.injEq, Prod.mk.injEq] at hr
    obtain ⟨rfl, -, rfl⟩ := hr
    omega
  · intro heq
    refine ⟨fun _ => ⟨i, sgt.sgl[i], sgt.sgl.drop (i + 1), _,
      by rw [List.drop_eq_getElem_cons hi], List.drop_eq_getElem_cons hi, ?_, ?_⟩,
      fun h => absurd h (by omega), fun h => absurd h (by omega)⟩
    · omega
    · omega

/-- **Finding an offset**: the byte found is the right one exactly at the edges and in the
middles of the segments, and for an offset behind them all. -/
theorem sgt_find_offset_iff (sgt : SgTable) (hlt : sglTotal sgt.sgl < 2 ^ 32)
    (hne : ∀ sg ∈ sgt.sgl, 0 < sg.dmaLen) (offset : ℕ) (hpos : 0 < offset) :
    FindsOffset sgt offset (sgtFindOffset sgt offset) ↔ OffsetFound sgt offset := by
  by_cases hbehind : sglTotal sgt.sgl < offset
  · rw [sgtFindOffset_behind hlt hbehind]
    exact ⟨fun _ => Or.inl hbehind, fun _ =>
      ⟨fun h => absurd h (by omega), fun h => absurd h (by omega), fun _ => rfl⟩⟩
  by_cases hn : sgt.nents < 2 ^ 31
  · obtain ⟨i, hi, hedge, hfind⟩ | ⟨i, hi, hlow, hhigh, hfind⟩ :=
      sgtFindOffset_place hlt hn hpos (Nat.le_of_not_lt hbehind)
    · rw [hfind]
      exact ⟨fun _ => Or.inr ⟨hn, Or.inl ⟨i, hi, hedge⟩⟩, fun _ => findsOffset_edge hne hi hedge⟩
    · obtain ⟨hno, hmiddle⟩ := offset_inside_unique hi hlow hhigh
      rw [hfind, findsOffset_inside_iff hi hlow hhigh]
      unfold OffsetFound
      rw [hmiddle]
      exact ⟨fun h => Or.inr ⟨hn, Or.inr h⟩, fun h => (h.resolve_left hbehind).2.resolve_left hno⟩
  · -- the number of entries is negative as an `int`, and the loop does not run
    have hnone : sgtFindOffset sgt offset = none := by
      unfold sgtFindOffset
      rw [if_neg hn]
    rw [hnone]
    constructor
    · intro h
      exfalso
      obtain hin | hend := Nat.lt_or_ge offset (sglTotal sgt.sgl)
      · obtain ⟨i, sg, rest, off, hr, -⟩ := h.inside hin
        cases hr
      · cases h.atEnd (by omega)
    · rintro (h | h)
      · exact absurd h hbehind
      · exact absurd h.1 hn

/-- Three segments, of 4, 6 and 2 bytes. -/
def threeSegs : SgTable where
  sgl := [⟨0x1000, 4, by decide⟩, ⟨0x2000, 6, by decide⟩, ⟨0x3000, 2, by decide⟩]
  nents_lt := by decide

theorem sgt_find_offset_edge : FindsOffset threeSegs 4 (sgtFindOffset threeSegs 4) :=
  (sgt_find_offset_iff threeSegs (by decide) (by decide) 4 (by decide)).mpr
    (Or.inr ⟨by decide, Or.inl ⟨1, by decide, by decide⟩⟩)

/-- Byte 5 is byte 1 of the second segment; the function returns 5, the bytes left there. -/
theorem sgt_offset_left :
    (sgtFindOffset threeSegs 5).map (fun r => (r.1, r.2.2)) = some (1, 5) ∧
      ¬ FindsOffset threeSegs 5 (sgtFindOffset threeSegs 5) := by
  refine ⟨by decide, fun h => ?_⟩
  have hfind : sgtFindOffset threeSegs 5 = some (1, threeSegs.sgl.drop 1, 5) := rfl
  obtain ⟨i, sg, rest, off, hr, -, -, hsum⟩ := h.inside (by decide)
  rw [hfind, Option.some.injEq, Prod.mk.injEq, Prod.mk.injEq] at hr
  obtain ⟨rfl, -, rfl⟩ := hr
  exact absurd hsum (by decide)

end Offset

theorem postStart_of_zero {req : QdmaSgReq} (h : req.cb.offset = 0) :
    postStart req = some (req.sgt.sgl, 0) := by
  rw [postStart, if_pos h]

theorem postStart_of_none {req : QdmaSgReq} (h : req.cb.offset ≠ 0)
    (hfind : sgtFindOffset req.sgt req.cb.offset = none) : postStart req = none := by
  rw [postStart, if_neg h, hfind]

theorem postStart_of_some {req : QdmaSgReq} {rv off : ℕ} {sg : List Scatterlist}
    (h : req.cb.offset ≠ 0) (hfind : sgtFindOffset req.sgt req.cb.offset = some (rv, sg, off)) :
    postStart req = if req.sgt.nents ≤ rv then none else some (sg, off) := by
  rw [postStart, if_neg h, hfind]

/-! ## The walk -/

section Walk

variable {σ : Type} {blen : ℕ} (put : σ → BitVec 64 → ℕ → σ)

/-- One loop iteration, on an extent. -/
def putPiece (st : σ) (e : Extent (BitVec 64)) : σ := put st e.start e.len

/-- Cutting a segment under a budget is a fold over its first pieces. -/
theorem postSeg_eq_foldl (hb : 0 < blen) :
    ∀ (budget tlen : ℕ) (addr : BitVec 64) (st : σ),
      postSeg blen put budget tlen addr st =
        (((cut blen addr tlen).take budget).foldl (putPiece put) st,
          budget - (cut blen addr tlen).length) := by
  intro budget
  induction budget with
  | zero => intro tlen addr st; simp [postSeg]
  | succ budget ih =>
      intro tlen addr st
      rcases Nat.eq_zero_or_pos tlen with rfl | hpos
      · simp [postSeg]
      · rw [postSeg, if_neg (by omega), ih, cut_pos hb hpos]
        simp [putPiece]

/-- **The walk is a fold** of the loop body over the first `budget` pieces of the
scatter list, whatever the intra-segment offset it was given. -/
theorem postSgl_eq_foldl (hb : 0 < blen) :
    ∀ (sgl : List Scatterlist) (sgOffset budget : ℕ) (st : σ),
      postSgl blen put sgl sgOffset budget st =
        ((pieces blen sgl).take budget).foldl (putPiece put) st := by
  intro sgl
  induction sgl with
  | nil => intro sgOffset budget st; simp [postSgl]
  | cons sg rest ih =>
      intro sgOffset budget st
      rcases Nat.eq_zero_or_pos budget with rfl | hpos
      · simp [postSgl]
      · have hoff : (if sgOffset ≠ 0 then 0 else sgOffset) = 0 := by
          split <;> omega
        rw [postSgl, if_neg (by omega)]
        simp only [hoff, Nat.sub_zero, Nat.cast_zero, add_zero]
        rw [postSeg_eq_foldl put hb, ih, pieces_cons, List.take_append, List.foldl_append]

end Walk

/-! ## Reading a descriptor back -/

/-- The host range a descriptor names: its destination on a C2H queue, its source
otherwise. -/
def QdmaDesc.host (c2h : Bool) (d : QdmaDesc) : Extent (BitVec 64) :=
  ⟨if c2h then d.dstAddr else d.srcAddr, d.len⟩

/-- The device-side address of a memory-mapped descriptor. -/
def QdmaDesc.dev (c2h : Bool) (d : QdmaDesc) : BitVec 64 :=
  if c2h then d.srcAddr else d.dstAddr

/-- Two descriptors that differ at most in their flags. -/
def QdmaDesc.Agrees (d e : QdmaDesc) : Prop :=
  d.srcAddr = e.srcAddr ∧ d.dstAddr = e.dstAddr ∧ d.len = e.len

theorem QdmaDesc.Agrees.refl (d : QdmaDesc) : d.Agrees d := ⟨rfl, rfl, rfl⟩

theorem QdmaDesc.Agrees.trans {d e f : QdmaDesc} (h₁ : d.Agrees e) (h₂ : e.Agrees f) :
    d.Agrees f :=
  ⟨h₁.1.trans h₂.1, h₁.2.1.trans h₂.2.1, h₁.2.2.trans h₂.2.2⟩

theorem QdmaDesc.Agrees.host_eq {d e : QdmaDesc} (h : d.Agrees e) (c2h : Bool) :
    d.host c2h = e.host c2h := by
  obtain ⟨hs, hd, hl⟩ := h
  simp [QdmaDesc.host, hs, hd, hl]

/-- Flag bits above the length field leave the length alone. -/
theorem toNat_or_mod {n : ℕ} (hn : n < 2 ^ sDescFDv) {f : BitVec 32}
    (hf : f.toNat % 2 ^ sDescFDv = 0) :
    (BitVec.ofNat 32 n ||| f).toNat % 2 ^ sDescFDv = n := by
  have hn32 : n % 2 ^ 32 = n := Nat.mod_eq_of_lt (by unfold sDescFDv at hn; omega)
  rw [BitVec.toNat_or, Nat.or_mod_two_pow, hf, Nat.or_zero, BitVec.toNat_ofNat, hn32,
    Nat.mod_eq_of_lt hn]

theorem mmDesc_host (c2h : Bool) (epAddr addr : BitVec 64) {len : ℕ}
    (hlen : len < 2 ^ sDescFDv) : (mmDesc c2h epAddr addr len).host c2h = ⟨addr, len⟩ := by
  have hl : (mmDesc c2h epAddr addr len).len = len := toNat_or_mod hlen (by decide)
  cases c2h <;> simp [QdmaDesc.host, hl] <;> simp [mmDesc]

theorem mmDesc_dev (c2h : Bool) (epAddr addr : BitVec 64) (len : ℕ) :
    (mmDesc c2h epAddr addr len).dev c2h = epAddr := by
  cases c2h <;> simp [QdmaDesc.dev, mmDesc]

theorem h2cDesc_host (old : QdmaDesc) (addr : BitVec 64) {len : ℕ}
    (hlen : len < 2 ^ sDescFDv) : (h2cDesc old addr len).host false = ⟨addr, len⟩ := by
  have hl : (h2cDesc old addr len).len = len := toNat_or_mod hlen (by decide)
  simp [QdmaDesc.host, hl]
  simp [h2cDesc]

theorem agrees_setFlag (d : QdmaDesc) {bit : ℕ} (hbit : (1#32 <<< bit).toNat % 2 ^ sDescFDv = 0) :
    (d.setFlag bit).Agrees d := by
  refine ⟨rfl, rfl, ?_⟩
  simp only [QdmaDesc.len, QdmaDesc.setFlag]
  rw [BitVec.toNat_or, Nat.or_mod_two_pow, hbit, Nat.or_zero]

/-! ## Putting pieces into the ring -/

/-- One descriptor is written at `pidx`, and `pidx` moves on. -/
def Xfer.putDesc (x : Xfer) (id : ReqId) (desc : QdmaDesc) (mmio : List (ℕ × BitVec 32)) : Xfer :=
  { x with
    descq := { x.descq.writeDesc x.descq.pidx desc with pidx := pidxNext x.descq }
    posted := x.posted ++ [⟨id, x.descq.pidx, desc⟩]
    mmio := mmio }

/-- The pieces `es` are put into the ring, in order, on behalf of `id`. -/
inductive Puts (id : ReqId) : Xfer → List (Extent (BitVec 64)) → Xfer → Prop where
  | nil (x : Xfer) : Puts id x [] x
  | cons {x x' : Xfer} {es : List (Extent (BitVec 64))} (desc : QdmaDesc)
      (mmio : List (ℕ × BitVec 32)) :
      Puts id (x.putDesc id desc mmio) es x' →
      Puts id x (desc.host x.descq.conf.c2h :: es) x'

@[simp] theorem writeDesc_conf (d : QdmaDescq) (slot : ℕ) (v : QdmaDesc) :
    (d.writeDesc slot v).conf = d.conf := by
  unfold QdmaDescq.writeDesc
  split <;> rfl

/-- A ring store changes the ring and nothing else. -/
theorem writeDesc_frame (d : QdmaDescq) (slot : ℕ) (v : QdmaDesc) :
    ∃ desc oops, d.writeDesc slot v = { d with desc := desc, oops := oops } := by
  unfold QdmaDescq.writeDesc
  split
  · exact ⟨d.desc, true, rfl⟩
  · rename_i r hr
    exact ⟨some { r with slots := Function.update r.slots slot v }, d.oops, rfl⟩

/-- The loop of `descq_mm_proc_request`. -/
theorem puts_foldl_mmPut (id : ReqId) :
    ∀ (es : List (Extent (BitVec 64))) (st : MmLoop),
      (∀ e ∈ es, e.len < 2 ^ sDescFDv) → st.dataCnt < 2 ^ 32 →
      let st' := es.foldl (putPiece (mmPut id)) st
      Puts id st.x es st'.x ∧ st'.descCnt = st.descCnt + es.length ∧
        st'.dataCnt = u32 (st.dataCnt + total es) ∧
        (st'.descEnd = none ↔ st.descEnd = none ∧ es = []) := by
  intro es
  induction es with
  | nil =>
      intro st _ hcnt
      exact ⟨Puts.nil _, rfl, by simp [u32_of_lt hcnt], by simp⟩
  | cons e es ih =>
      intro st hlen hcnt
      have he : e.len < 2 ^ sDescFDv := hlen e (by simp)
      obtain ⟨hputs, hdc, hdata, hend⟩ :=
        ih (putPiece (mmPut id) st e) (fun f hf => hlen f (by simp [hf])) (u32_lt _)
      refine ⟨?_, ?_, ?_, ?_⟩
      · have hhost := mmDesc_host st.x.descq.conf.c2h st.epAddr e.start he
        have hcons := Puts.cons (x := st.x) _ st.x.mmio hputs
        rwa [hhost] at hcons
      · rw [List.foldl_cons, hdc]
        simp [putPiece, mmPut]
        omega
      · rw [List.foldl_cons, hdata, total_cons]
        simp only [putPiece, mmPut, u32]
        rw [Nat.mod_add_mod, Nat.add_assoc]
      · rw [List.foldl_cons, hend]
        simp [putPiece, mmPut]

/-- The loop of `descq_proc_st_h2c_request`. -/
theorem puts_foldl_stH2cPut (id : ReqId) :
    ∀ (es : List (Extent (BitVec 64))) (st : StH2cLoop),
      st.x.descq.conf.c2h = false →
      (∀ e ∈ es, e.len < 2 ^ sDescFDv) → st.dataCnt < 2 ^ 32 →
      let st' := es.foldl (putPiece (stH2cPut id)) st
      Puts id st.x es st'.x ∧ st'.descCnt = st.descCnt + es.length ∧
        st'.dataCnt = u32 (st.dataCnt + total es) := by
  intro es
  induction es with
  | nil =>
      intro st _ _ hcnt
      exact ⟨Puts.nil _, rfl, by simp [u32_of_lt hcnt]⟩
  | cons e es ih =>
      intro st hc2h hlen hcnt
      have he : e.len < 2 ^ sDescFDv := hlen e (by simp)
      obtain ⟨hputs, hdc, hdata⟩ :=
        ih (putPiece (stH2cPut id) st e) (by simpa [putPiece, stH2cPut] using hc2h)
          (fun f hf => hlen f (by simp [hf])) (u32_lt _)
      refine ⟨?_, ?_, ?_⟩
      · have hhost := h2cDesc_host (st.x.descq.slotAt st.x.descq.pidx) e.start he
        have hcons := Puts.cons (x := st.x) _ _ hputs
        rwa [hc2h, hhost] at hcons
      · rw [List.foldl_cons, hdc]
        simp [putPiece, stH2cPut]
        omega
      · rw [List.foldl_cons, hdata, total_cons]
        simp only [putPiece, stH2cPut, u32]
        rw [Nat.mod_add_mod, Nat.add_assoc]

namespace Puts

variable {id : ReqId} {x x' : Xfer} {es : List (Extent (BitVec 64))}

/-- Putting pieces changes the ring, `pidx` and the record of postings, and rings
doorbells; nothing else. -/
theorem frame (h : Puts id x es x') :
    x' = { x with
      descq :=
        { x.descq with
          desc := x'.descq.desc
          oops := x'.descq.oops
          pidx := x'.descq.pidx }
      posted := x'.posted
      mmio := x'.mmio } := by
  induction h with
  | nil x => rfl
  | @cons x x' es desc mmio _ ih =>
      rw [ih]
      obtain ⟨d, o, hw⟩ := writeDesc_frame x.descq x.descq.pidx desc
      simp [Xfer.putDesc, hw]

/-- The record of postings grows by the pieces, all owned by `id`. -/
theorem posted_eq (h : Puts id x es x') :
    ∃ ps, x'.posted = x.posted ++ ps ∧
      ps.map (fun p => p.desc.host x.descq.conf.c2h) = es ∧ ∀ p ∈ ps, p.owner = id := by
  induction h with
  | nil x => exact ⟨[], by simp, rfl, by simp⟩
  | @cons x x' es desc mmio _ ih =>
      obtain ⟨ps, hps, hmap, howner⟩ := ih
      refine ⟨⟨id, x.descq.pidx, desc⟩ :: ps, ?_, ?_, ?_⟩
      · rw [hps]
        simp [Xfer.putDesc]
      · simpa [Xfer.putDesc] using hmap
      · simpa using howner

/-- `pidx` advances by the number of pieces, modulo the ring size. -/
theorem pidx_eq (h : Puts id x es x') (hr : x.descq.conf.rngsz < 2 ^ 32)
    (hp : x.descq.pidx < x.descq.conf.rngsz) :
    x'.descq.pidx = (x.descq.pidx + es.length) % x.descq.conf.rngsz := by
  induction h with
  | nil x => exact (Nat.mod_eq_of_lt hp).symm
  | @cons x x' es desc mmio _ ih =>
      have hnext : pidxNext x.descq = (x.descq.pidx + 1) % x.descq.conf.rngsz := by
        rw [← Cyclic.next_eq_mod hp, pidxNext, u32_of_lt (by omega)]
        rfl
      have hlt : pidxNext x.descq < x.descq.conf.rngsz := by
        rw [hnext]
        exact Nat.mod_lt _ (by omega)
      have hrest := ih (by simpa [Xfer.putDesc] using hr) (by simpa [Xfer.putDesc] using hlt)
      rw [hrest]
      simp only [Xfer.putDesc, writeDesc_conf, hnext, List.length_cons, Nat.mod_add_mod]
      congr 1
      omega

end Puts

/-! ## One call -/

/-- The bound on a descriptor's length: `XDMA_DESC_BLEN_MAX` for memory-mapped
queues, `PAGE_SIZE` for streaming ones. -/
def blenOf (d : QdmaDescq) : ℕ := if d.conf.st then pageSize else xdmaDescBlenMax

theorem blenOf_pos (d : QdmaDescq) : 0 < blenOf d := by
  unfold blenOf
  split <;> decide

/-- Two rings that differ at most in descriptor flags. -/
def RingAgrees : Option DescRing → Option DescRing → Prop
  | none, none => True
  | some r, some r' =>
      r'.bus = r.bus ∧ r'.len = r.len ∧ r'.wbPidx = r.wbPidx ∧ r'.wbCidx = r.wbCidx ∧
        ∀ slot, (r'.slots slot).Agrees (r.slots slot)
  | _, _ => False

theorem RingAgrees.refl (r : Option DescRing) : RingAgrees r r := by
  cases r with
  | none => trivial
  | some r => exact ⟨rfl, rfl, rfl, rfl, fun _ => QdmaDesc.Agrees.refl _⟩

theorem RingAgrees.trans {r s t : Option DescRing} (h₁ : RingAgrees r s) (h₂ : RingAgrees s t) :
    RingAgrees r t := by
  match r, s, t, h₁, h₂ with
  | none, none, none, _, _ => trivial
  | some r, some s, some t, ⟨a₁, b₁, c₁, d₁, e₁⟩, ⟨a₂, b₂, c₂, d₂, e₂⟩ =>
      exact ⟨a₂.trans a₁, b₂.trans b₁, c₂.trans c₁, d₂.trans d₁,
        fun slot => (e₂ slot).trans (e₁ slot)⟩

/-- Setting a flag in a slot keeps the ring up to flags. -/
theorem ringAgrees_setFlag (d : QdmaDescq) (slot bit : ℕ)
    (hbit : (1#32 <<< bit).toNat % 2 ^ sDescFDv = 0) :
    RingAgrees d.desc (d.writeDesc slot ((d.slotAt slot).setFlag bit)).desc := by
  unfold QdmaDescq.writeDesc QdmaDescq.slotAt
  cases hd : d.desc with
  | none => simp [RingAgrees]
  | some r =>
      refine ⟨rfl, rfl, rfl, rfl, fun s => ?_⟩
      by_cases hs : s = slot
      · subst hs
        simpa using agrees_setFlag (r.slots s) hbit
      · simpa [Function.update_of_ne hs] using QdmaDesc.Agrees.refl (r.slots s)

/-- A batch of pieces was posted for `id` and accounted for. -/
def Posts (x : Xfer) (id : ReqId) (es : List (Extent (BitVec 64))) (x' : Xfer) : Prop :=
  ∃ x₁ desc oops mmio, Puts id x es x₁ ∧ RingAgrees x₁.descq.desc desc ∧
    x' = { postAccount { x₁ with descq := { x₁.descq with desc := desc, oops := oops } } id
            es.length (u32 (total es)) with
          mmio := mmio }

/-- **Every outcome of `descq_mm_proc_request`.** -/
theorem descqMmProcRequest_cases (x : Xfer) (id : ReqId) :
    (x.descq.avail = 0 ∧ descqMmProcRequest x id = (0, x)) ∨
    (x.descq.avail ≠ 0 ∧ postStart (x.reqs id) = none ∧
      descqMmProcRequest x id = (-einval, x)) ∨
    (x.descq.avail ≠ 0 ∧ ∃ sg off, postStart (x.reqs id) = some (sg, off) ∧
      pieces xdmaDescBlenMax sg = [] ∧ descqMmProcRequest x id = (-eio, x)) ∨
    (x.descq.avail ≠ 0 ∧ ∃ sg off, postStart (x.reqs id) = some (sg, off) ∧
      pieces xdmaDescBlenMax sg ≠ [] ∧ (descqMmProcRequest x id).1 = 0 ∧
      Posts x id ((pieces xdmaDescBlenMax sg).take x.descq.avail)
        (descqMmProcRequest x id).2) := by
  by_cases hav : x.descq.avail = 0
  · exact Or.inl ⟨hav, by simp [descqMmProcRequest, hav]⟩
  right
  cases hstart : postStart (x.reqs id) with
  | none => exact Or.inl ⟨hav, rfl, by simp [descqMmProcRequest, hav, hstart]⟩
  | some start =>
      obtain ⟨sg, off⟩ := start
      right
      have hwalk := postSgl_eq_foldl (mmPut id) (show 0 < xdmaDescBlenMax by decide) sg off
        x.descq.avail
        { x := x, epAddr := (x.reqs id).epAddr, dataCnt := 0, descCnt := 0, descEnd := none }
      by_cases hnil : pieces xdmaDescBlenMax sg = []
      · left
        refine ⟨hav, sg, off, rfl, hnil, ?_⟩
        simp only [descqMmProcRequest, hav, if_false, hstart, hwalk, hnil, List.take_nil,
          List.foldl_nil]
      · right
        have hlen : ∀ e ∈ (pieces xdmaDescBlenMax sg).take x.descq.avail,
            e.len < 2 ^ sDescFDv := by
          intro e he
          have := (len_of_mem_cutAll (List.mem_of_mem_take he)).2
          exact lt_of_le_of_lt this (by decide)
        have hne : (pieces xdmaDescBlenMax sg).take x.descq.avail ≠ [] := by
          simp [hnil, hav]
        obtain ⟨hputs, hdc, hdata, hend⟩ := puts_foldl_mmPut id
          ((pieces xdmaDescBlenMax sg).take x.descq.avail)
          { x := x, epAddr := (x.reqs id).epAddr, dataCnt := 0, descCnt := 0, descEnd := none }
          hlen (Nat.two_pow_pos 32)
        rw [← hwalk] at hputs hdc hdata hend
        simp only [true_and, hne, iff_false] at hend
        obtain ⟨descEnd, hend⟩ := Option.ne_none_iff_exists'.mp hend
        generalize hst : postSgl xdmaDescBlenMax (mmPut id) sg off x.descq.avail
          { x := x, epAddr := (x.reqs id).epAddr, dataCnt := 0, descCnt := 0, descEnd := none }
          = st at hputs hdc hdata hend
        refine ⟨hav, sg, off, rfl, hnil, ?_, ?_⟩
        · simp only [descqMmProcRequest, hav, if_false, hstart, hst, hend]
        · -- the end and start flags are the only ring stores after the loop
          set d₁ := st.x.descq.writeDesc descEnd ((st.x.descq.slotAt descEnd).setFlag sDescFEop)
            with hd₁
          obtain ⟨desc₁, oops₁, hw₁⟩ := writeDesc_frame st.x.descq descEnd
            ((st.x.descq.slotAt descEnd).setFlag sDescFEop)
          obtain ⟨desc₂, oops₂, hw₂⟩ := writeDesc_frame d₁ x.descq.pidx
            ((d₁.slotAt x.descq.pidx).setFlag sDescFSop)
          have hagree := (ringAgrees_setFlag st.x.descq descEnd sDescFEop (by decide)).trans
            (ringAgrees_setFlag d₁ x.descq.pidx sDescFSop (by decide))
          rw [hw₂] at hagree
          refine ⟨st.x, desc₂, oops₂, (descqMmProcRequest x id).2.mmio, hputs, hagree, ?_⟩
          simp only [Nat.zero_add] at hdc hdata
          simp only [descqMmProcRequest, hav, if_false, hstart, hst, hend]
          rw [← hdc, ← hdata, ← hd₁, hw₂, hd₁, hw₁]

/-- **Every outcome of `descq_proc_st_h2c_request`.**  There is no second error:
a call that finds nothing to post still reports success. -/
theorem descqProcStH2cRequest_cases (x : Xfer) (id : ReqId) (hc2h : x.descq.conf.c2h = false) :
    (x.descq.avail = 0 ∧ descqProcStH2cRequest x id = (0, x)) ∨
    (x.descq.avail ≠ 0 ∧ postStart (x.reqs id) = none ∧
      descqProcStH2cRequest x id = (-einval, x)) ∨
    (x.descq.avail ≠ 0 ∧ ∃ sg off, postStart (x.reqs id) = some (sg, off) ∧
      (descqProcStH2cRequest x id).1 = 0 ∧
      Posts x id ((pieces pageSize sg).take x.descq.avail) (descqProcStH2cRequest x id).2) := by
  by_cases hav : x.descq.avail = 0
  · exact Or.inl ⟨hav, by simp [descqProcStH2cRequest, hav]⟩
  right
  cases hstart : postStart (x.reqs id) with
  | none => exact Or.inl ⟨hav, rfl, by simp [descqProcStH2cRequest, hav, hstart]⟩
  | some start =>
      obtain ⟨sg, off⟩ := start
      right
      have hwalk := postSgl_eq_foldl (stH2cPut id) (show 0 < pageSize by decide) sg off
        x.descq.avail { x := x, dataCnt := 0, descCnt := 0 }
      have hlen : ∀ e ∈ (pieces pageSize sg).take x.descq.avail, e.len < 2 ^ sDescFDv := by
        intro e he
        have := (len_of_mem_cutAll (List.mem_of_mem_take he)).2
        exact lt_of_le_of_lt this (by decide)
      obtain ⟨hputs, hdc, hdata⟩ := puts_foldl_stH2cPut id
        ((pieces pageSize sg).take x.descq.avail) { x := x, dataCnt := 0, descCnt := 0 }
        hc2h hlen (Nat.two_pow_pos 32)
      rw [← hwalk] at hputs hdc hdata
      simp only [Nat.zero_add] at hdc hdata
      generalize hst : postSgl pageSize (stH2cPut id) sg off x.descq.avail
        { x := x, dataCnt := 0, descCnt := 0 } = st at hputs hdc hdata
      refine ⟨hav, sg, off, rfl, ?_, ?_⟩
      · simp only [descqProcStH2cRequest, hav, if_false, hstart]
      · refine ⟨st.x, st.x.descq.desc, st.x.descq.oops, (descqProcStH2cRequest x id).2.mmio, hputs,
          RingAgrees.refl _, ?_⟩
        simp only [descqProcStH2cRequest, hav, if_false, hstart, hst, hdc, hdata]

/-- A queue the worker thread posts for: memory-mapped, or streaming H2C. -/
def QdmaDescq.isMmOrH2c (d : QdmaDescq) : Prop := d.isStC2h = false

/-- **Every outcome of `qdma_descq_proc_sgt_request`** on a memory-mapped or
streaming H2C queue. -/
theorem proc_cases (x : Xfer) (id : ReqId) (hq : x.descq.isMmOrH2c) :
    (x.descq.avail = 0 ∧ qdmaDescqProcSgtRequest x id = (0, x)) ∨
    (x.descq.avail ≠ 0 ∧ postStart (x.reqs id) = none ∧
      qdmaDescqProcSgtRequest x id = (-einval, x)) ∨
    (x.descq.avail ≠ 0 ∧ ∃ sg off, postStart (x.reqs id) = some (sg, off) ∧
      x.descq.conf.st = false ∧ pieces (blenOf x.descq) sg = [] ∧
      qdmaDescqProcSgtRequest x id = (-eio, x)) ∨
    (x.descq.avail ≠ 0 ∧ ∃ sg off, postStart (x.reqs id) = some (sg, off) ∧
      (x.descq.conf.st = false → pieces (blenOf x.descq) sg ≠ []) ∧
      (qdmaDescqProcSgtRequest x id).1 = 0 ∧
      Posts x id ((pieces (blenOf x.descq) sg).take x.descq.avail)
        (qdmaDescqProcSgtRequest x id).2) := by
  cases hst : x.descq.conf.st with
  | false =>
      have hf : qdmaDescqProcSgtRequest x id = descqMmProcRequest x id := by
        simp [qdmaDescqProcSgtRequest, hst]
      have hb : blenOf x.descq = xdmaDescBlenMax := by simp [blenOf, hst]
      rw [hf, hb]
      rcases descqMmProcRequest_cases x id with
        h | h | ⟨hav, sg, off, hs, hnil, hrest⟩ | ⟨hav, sg, off, hs, hne, hrest⟩
      · exact Or.inl h
      · exact Or.inr (Or.inl h)
      · exact Or.inr (Or.inr (Or.inl ⟨hav, sg, off, hs, rfl, hnil, hrest⟩))
      · exact Or.inr (Or.inr (Or.inr ⟨hav, sg, off, hs, fun _ => hne, hrest⟩))
  | true =>
      have hc2h : x.descq.conf.c2h = false := by
        simpa [QdmaDescq.isMmOrH2c, QdmaDescq.isStC2h, hst] using hq
      have hf : qdmaDescqProcSgtRequest x id = descqProcStH2cRequest x id := by
        simp [qdmaDescqProcSgtRequest, hst, hc2h]
      have hb : blenOf x.descq = pageSize := by simp [blenOf, hst]
      rw [hf, hb]
      rcases descqProcStH2cRequest_cases x id hc2h with h | h | ⟨hav, sg, off, hs, hrest⟩
      · exact Or.inl h
      · exact Or.inr (Or.inl h)
      · exact Or.inr (Or.inr (Or.inr ⟨hav, sg, off, hs, by simp, hrest⟩))

/-! ## What a successful call leaves -/

/-- The control block after `descCnt` descriptors and `dataCnt` bytes are
accounted for. -/
def QdmaSgtReqCb.account (cb : QdmaSgtReqCb) (descCnt dataCnt : ℕ) : QdmaSgtReqCb :=
  { cb with
    descNr := u32 (cb.descNr + descCnt)
    offset := u32 (cb.offset + dataCnt) }

/-- `postAccount` field by field. -/
theorem postAccount_eq (x : Xfer) (id : ReqId) (descCnt dataCnt : ℕ) :
    postAccount x id descCnt dataCnt =
      let cb := (x.reqs id).cb.account descCnt dataCnt
      { x with
        descq :=
          { x.descq with
            avail := u32Sub x.descq.avail descCnt
            workList :=
              if cb.offset = (x.reqs id).count then x.descq.workList.erase id
              else x.descq.workList
            pendList :=
              if cb.offset = (x.reqs id).count then x.descq.pendList.erase id ++ [id]
              else x.descq.pendList }
        reqs := Function.update x.reqs id { x.reqs id with cb := cb } } := by
  simp only [postAccount, QdmaSgtReqCb.account]
  by_cases hfin : u32 ((x.reqs id).cb.offset + dataCnt) = (x.reqs id).count
  · simp only [hfin, if_true, reqSubmitted, Xfer.listDel, Xfer.setCb]
  · simp only [hfin, if_false, Xfer.setCb]

/-- The control block after the pieces `es` are accounted for. -/
def postedCb (cb : QdmaSgtReqCb) (es : List (Extent (BitVec 64))) : QdmaSgtReqCb :=
  cb.account es.length (u32 (total es))

namespace Posts

variable {x x' : Xfer} {id : ReqId} {es : List (Extent (BitVec 64))}

/-- A successful call changes the ring, the counters, the request's control block
and the two lists; nothing else. -/
theorem frame (h : Posts x id es x') :
    x' = { x with
      descq :=
        { x.descq with
          desc := x'.descq.desc
          oops := x'.descq.oops
          pidx := x'.descq.pidx
          avail := u32Sub x.descq.avail es.length
          workList := x'.descq.workList
          pendList := x'.descq.pendList }
      reqs := Function.update x.reqs id { x.reqs id with cb := postedCb (x.reqs id).cb es }
      posted := x'.posted
      mmio := x'.mmio } := by
  obtain ⟨x₁, desc, oops, mmio, hputs, -, rfl⟩ := h
  rw [hputs.frame, postAccount_eq]
  rfl

/-- The lists move exactly when the offset has reached the count. -/
theorem lists (h : Posts x id es x') :
    (x'.descq.workList, x'.descq.pendList) =
      if (postedCb (x.reqs id).cb es).offset = (x.reqs id).count then
        (x.descq.workList.erase id, x.descq.pendList.erase id ++ [id])
      else (x.descq.workList, x.descq.pendList) := by
  obtain ⟨x₁, desc, oops, mmio, hputs, -, rfl⟩ := h
  rw [hputs.frame, postAccount_eq]
  by_cases hfin : (postedCb (x.reqs id).cb es).offset = (x.reqs id).count
  · rw [if_pos hfin]
    exact Prod.ext (if_pos hfin) (if_pos hfin)
  · rw [if_neg hfin]
    exact Prod.ext (if_neg hfin) (if_neg hfin)

/-- The record of postings grows by the pieces, all owned by `id`. -/
theorem posted_eq (h : Posts x id es x') :
    ∃ ps, x'.posted = x.posted ++ ps ∧
      ps.map (fun p => p.desc.host x.descq.conf.c2h) = es ∧ ∀ p ∈ ps, p.owner = id := by
  obtain ⟨x₁, desc, oops, mmio, hputs, -, rfl⟩ := h
  simpa only [postAccount_eq] using hputs.posted_eq

/-- `pidx` advances by the number of pieces, modulo the ring size. -/
theorem pidx_eq (h : Posts x id es x') (hr : x.descq.conf.rngsz < 2 ^ 32)
    (hp : x.descq.pidx < x.descq.conf.rngsz) :
    x'.descq.pidx = (x.descq.pidx + es.length) % x.descq.conf.rngsz := by
  obtain ⟨x₁, desc, oops, mmio, hputs, -, rfl⟩ := h
  simpa only [postAccount_eq] using hputs.pidx_eq hr hp

@[simp] theorem reqs_self (h : Posts x id es x') :
    x'.reqs id = { x.reqs id with cb := postedCb (x.reqs id).cb es } := by
  rw [h.frame]
  simp

theorem reqs_of_ne (h : Posts x id es x') {id' : ReqId} (hne : id' ≠ id) :
    x'.reqs id' = x.reqs id' := by
  rw [h.frame]
  simp [Function.update_of_ne hne]

end Posts

end Qdma

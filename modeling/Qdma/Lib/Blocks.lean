import Qdma.Lib.Cut
import Mathlib.Data.Finset.Card
import Mathlib.Order.Bounds.Basic
import Mathlib.Order.Interval.Finset.Nat

/-!
# Cutting an extent at block boundaries

The naturals are divided into blocks of `b`; `cutBlocks b start n` splits the extent of `n`
positions at `start` where a block ends, front to back.

* `length_cutBlocks` — the number of pieces in closed form;
* `cutBlocks_block` — piece `i` is what the extent has in the `i`-th block from its first;
* `isLeast_cutBlocks` — fewer blocks do not cover the extent.
-/

namespace Lib

namespace Extent

/-- The end of the first block, or of the extent. -/
def firstLen (b start n : ℕ) : ℕ := min (b - start % b) n

theorem firstLen_pos {b n : ℕ} (hb : 0 < b) (hn : 0 < n) (start : ℕ) : 0 < firstLen b start n := by
  have hlt := Nat.mod_lt start hb
  unfold firstLen
  omega

def cutBlocks (b start n : ℕ) : List (Extent ℕ) :=
  if _ : n = 0 ∨ b = 0 then []
  else
    ⟨start, firstLen b start n⟩ ::
      cutBlocks b (start + firstLen b start n) (n - firstLen b start n)
termination_by n
decreasing_by
  have hpos := firstLen_pos (b := b) (n := n) (by omega) (by omega) start
  omega

/-- The number of blocks that an extent touches. -/
def blocks (b start n : ℕ) : ℕ := (start % b + n + b - 1) / b

section Blocks

variable {b : ℕ} (hb : 0 < b)
include hb

/-- The start of the next block. -/
theorem next_block (start : ℕ) :
    (start + (b - start % b)) % b = 0 ∧ (start + (b - start % b)) / b = start / b + 1 := by
  have hlt := Nat.mod_lt start hb
  have hnext : start + (b - start % b) = (start / b + 1) * b := by
    have hdiv := Nat.div_add_mod' start b
    rw [Nat.add_mul]
    omega
  rw [hnext]
  exact ⟨Nat.mul_mod_left _ b, Nat.mul_div_cancel _ hb⟩

theorem cutBlocks_pos {n : ℕ} (hn : 0 < n) (start : ℕ) :
    cutBlocks b start n =
      ⟨start, firstLen b start n⟩ ::
        cutBlocks b (start + firstLen b start n) (n - firstLen b start n) := by
  rw [cutBlocks, dif_neg (by omega)]

omit hb in
theorem cutBlocks_zero (b start : ℕ) : cutBlocks b start 0 = [] := by
  rw [cutBlocks, dif_pos (Or.inl rfl)]

/-- An extent that ends in its first block. -/
theorem blocks_of_le {n start : ℕ} (hn : 0 < n) (h : n ≤ b - start % b) : blocks b start n = 1 := by
  have hlt := Nat.mod_lt start hb
  unfold blocks
  exact Nat.div_eq_of_lt_le (by omega) (by omega)

/-- One that goes on. -/
theorem blocks_of_lt {n start : ℕ} (h : b - start % b < n) :
    blocks b start n = blocks b (start + (b - start % b)) (n - (b - start % b)) + 1 := by
  have hlt := Nat.mod_lt start hb
  unfold blocks
  rw [(next_block hb start).1, ← Nat.add_div_right _ hb]
  congr 1
  omega

/-- The number of pieces. -/
theorem length_cutBlocks : ∀ {n : ℕ}, 0 < n → ∀ start : ℕ,
    (cutBlocks b start n).length = blocks b start n := by
  intro n
  induction n using Nat.strong_induction_on with
  | _ n ih =>
      intro hn start
      rw [cutBlocks_pos hb hn, List.length_cons]
      obtain hle | hlt := le_or_gt n (b - start % b)
      · have hfirst : firstLen b start n = n := Nat.min_eq_right hle
        rw [hfirst, Nat.sub_self, cutBlocks_zero, blocks_of_le hb hn hle]
        rfl
      · have hfirst : firstLen b start n = b - start % b := Nat.min_eq_left hlt.le
        have hpos := firstLen_pos hb hn start
        rw [hfirst] at hpos ⊢
        rw [ih _ (by omega) (by omega), ← blocks_of_lt hb hlt]

/-- Cutting loses and repeats nothing. -/
theorem bytesOf_cutBlocks : ∀ n start : ℕ,
    bytesOf (cutBlocks b start n) = (⟨start, n⟩ : Extent ℕ).bytes := by
  intro n
  induction n using Nat.strong_induction_on with
  | _ n ih =>
      intro start
      obtain rfl | hn := Nat.eq_zero_or_pos n
      · rw [cutBlocks_zero]
        rfl
      · have hpos := firstLen_pos hb hn start
        have hle : firstLen b start n ≤ n := Nat.min_le_right _ n
        have hrest : (⟨start + firstLen b start n, n - firstLen b start n⟩ : Extent ℕ).bytes =
            (⟨start + (firstLen b start n : ℕ), n - firstLen b start n⟩ : Extent ℕ).bytes := rfl
        rw [cutBlocks_pos hb hn, bytesOf_cons, ih _ (by omega), hrest]
        have happ := bytes_append start (firstLen b start n) (n - firstLen b start n)
        rw [Nat.add_sub_cancel' hle] at happ
        exact happ.symm

theorem total_cutBlocks (n start : ℕ) : total (cutBlocks b start n) = n := by
  rw [← length_bytesOf, bytesOf_cutBlocks hb, length_bytes]

/-- **Piece `i`** begins where the extent or its block begins, and ends where one of them
ends. -/
theorem getElem?_cutBlocks : ∀ (n start i : ℕ) {e : Extent ℕ},
    (cutBlocks b start n)[i]? = some e →
      e.start = max start ((start / b + i) * b) ∧
        e.start + e.len = min (start + n) ((start / b + i + 1) * b) ∧ 0 < e.len := by
  intro n
  induction n using Nat.strong_induction_on with
  | _ n ih =>
      intro start i e he
      obtain rfl | hn := Nat.eq_zero_or_pos n
      · rw [cutBlocks_zero] at he
        cases he
      · have hlt := Nat.mod_lt start hb
        have hdiv := Nat.div_add_mod' start b
        rw [cutBlocks_pos hb hn] at he
        cases i with
        | zero =>
            have hpos := firstLen_pos hb hn start
            rw [List.getElem?_cons_zero, Option.some.injEq] at he
            subst he
            unfold firstLen at hpos ⊢
            rw [Nat.add_zero, Nat.add_mul, Nat.one_mul]
            refine ⟨?_, ?_, hpos⟩
            · dsimp only
              omega
            · dsimp only
              omega
        | succ i =>
            rw [List.getElem?_cons_succ] at he
            obtain hle | hgt := le_or_gt n (b - start % b)
            · have hfirst : firstLen b start n = n := Nat.min_eq_right hle
              rw [hfirst, Nat.sub_self, cutBlocks_zero] at he
              cases he
            · -- the rest begins with the next block
              have hfirst : firstLen b start n = b - start % b := Nat.min_eq_left hgt.le
              rw [hfirst] at he
              obtain ⟨hs, hend, hpos⟩ := ih _ (by omega) _ _ he
              rw [(next_block hb start).2] at hs hend
              have hi : start / b + 1 + i = start / b + (i + 1) := by omega
              have hblock : (start / b + 1) * b ≤ (start / b + (i + 1)) * b :=
                Nat.mul_le_mul_right b (by omega)
              rw [Nat.add_mul, Nat.one_mul] at hblock
              rw [hi] at hs hend
              exact ⟨by omega, by omega, hpos⟩

/-- **Piece `i`** is the part of the extent that lies in one block. -/
theorem cutBlocks_block {n start i : ℕ} {e : Extent ℕ}
    (he : (cutBlocks b start n)[i]? = some e) (a : ℕ) :
    (start ≤ a ∧ a < start + n ∧ a / b = start / b + i) ↔ e.start ≤ a ∧ a < e.start + e.len := by
  obtain ⟨hs, hend, -⟩ := getElem?_cutBlocks hb n start i he
  rw [Nat.div_eq_iff hb, hend, hs, Nat.add_mul _ 1 b, Nat.one_mul, max_le_iff, lt_min_iff]
  omega

/-- The blocks that are touched are the ones from the first on. -/
theorem blocks_touched {n start a : ℕ} (ha : start ≤ a) (ha' : a < start + n) :
    start / b ≤ a / b ∧ a / b < start / b + blocks b start n := by
  refine ⟨Nat.div_le_div_right ha, ?_⟩
  have hlt := Nat.mod_lt start hb
  have hdiv := Nat.div_add_mod' start b
  have hend : a < (start / b + blocks b start n) * b := by
    have hceil : start % b + n ≤ blocks b start n * b := by
      have hmod := Nat.mod_lt (start % b + n + b - 1) hb
      have hq := Nat.div_add_mod' (start % b + n + b - 1) b
      unfold blocks
      omega
    rw [Nat.add_mul]
    omega
  exact (Nat.div_lt_iff_lt_mul hb).mpr hend

/-- **The least number of blocks** that cover an extent. -/
theorem isLeast_cutBlocks {n : ℕ} (hn : 0 < n) (start : ℕ) :
    IsLeast {m | ∃ S : Finset ℕ, S.card = m ∧ ∀ a, start ≤ a → a < start + n → a / b ∈ S}
      (cutBlocks b start n).length := by
  rw [length_cutBlocks hb hn]
  constructor
  · refine ⟨Finset.Ico (start / b) (start / b + blocks b start n), ?_, fun a ha ha' => ?_⟩
    · rw [Nat.card_Ico, Nat.add_sub_cancel_left]
    · exact Finset.mem_Ico.mpr (blocks_touched hb ha ha')
  · rintro m ⟨S, rfl, hS⟩
    -- the first position of each piece
    have hsub : Finset.Ico (start / b) (start / b + blocks b start n) ⊆ S := by
      intro q hq
      obtain ⟨hle, hlt⟩ := Finset.mem_Ico.mp hq
      have hi : q - start / b < (cutBlocks b start n).length := by
        rw [length_cutBlocks hb hn]
        omega
      have he := List.getElem?_eq_getElem hi
      obtain ⟨-, -, hpos⟩ := getElem?_cutBlocks hb n start _ he
      obtain ⟨ha, ha', hblock⟩ := (cutBlocks_block hb he _).mpr ⟨le_rfl, Nat.lt_add_of_pos_right hpos⟩
      have hmem := hS _ ha ha'
      rwa [hblock, Nat.add_sub_cancel' hle] at hmem
    have hcard := Finset.card_le_card hsub
    rwa [Nat.card_Ico, Nat.add_sub_cancel_left] at hcard

end Blocks

end Extent

end Lib

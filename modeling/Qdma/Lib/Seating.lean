import Mathlib.Data.List.Nodup
import Mathlib.Data.List.Count
import Mathlib.Data.List.Range
import Mathlib.Algebra.BigOperators.Group.List.Basic
import Mathlib.Algebra.GroupWithZero.Nat
import Mathlib.Logic.Function.Basic
import Mathlib.Tactic.Common

/-!
# Lists that hold each element at most once

A driver hangs its objects on lists by nodes embedded in the objects, so an object
is on at most one list of a kind at a time.  `Seated lists seat` says that the
lists, one for each `i`, hold exactly what the partial assignment `seat` says, each
element once.  The two operations are `Seated.enter`, for an element that sits
nowhere, and `Seated.leave`.
-/

namespace Lib

universe u v

variable {ι : Type u} {κ : Type v} [DecidableEq ι] [DecidableEq κ]

/-- The list at `i` holds the elements seated at `i`, each of them once. -/
def Seated (lists : ι → List κ) (seat : κ → Option ι) : Prop :=
  ∀ i k, (lists i).count k = if seat k = some i then 1 else 0

namespace Seated

variable {lists : ι → List κ} {seat : κ → Option ι}

/-- Nothing is seated on empty lists. -/
theorem empty (hlists : ∀ i, lists i = []) (hseat : ∀ k, seat k = none) : Seated lists seat := by
  intro i k
  rw [hlists i, hseat k, if_neg (by simp), List.count_nil]

theorem mem_iff (h : Seated lists seat) {i : ι} {k : κ} : k ∈ lists i ↔ seat k = some i := by
  rw [← List.count_pos_iff, h i k]
  split
  · simp [*]
  · simp [*]

theorem nodup (h : Seated lists seat) (i : ι) : (lists i).Nodup := by
  rw [List.nodup_iff_count_le_one]
  intro k
  rw [h i k]
  split <;> decide

/-- An element that sits nowhere is hung on the end of a list. -/
theorem enter (h : Seated lists seat) {k : κ} (hk : seat k = none) (i : ι) :
    Seated (Function.update lists i (lists i ++ [k])) (Function.update seat k (some i)) := by
  intro j m
  by_cases hm : m = k
  · subst hm
    have hnone := h j m
    rw [hk, if_neg (by simp)] at hnone
    rw [Function.update_self]
    by_cases hj : j = i
    · subst hj
      rw [Function.update_self, List.count_append, hnone, if_pos rfl]
      simp
    · rw [Function.update_of_ne hj, hnone, if_neg]
      exact fun he => hj (Option.some.inj he).symm
  · rw [Function.update_of_ne hm]
    by_cases hj : j = i
    · subst hj
      have hzero : List.count m [k] = 0 := List.count_eq_zero.mpr (by simp [hm])
      rw [Function.update_self, List.count_append, hzero, Nat.add_zero]
      exact h j m
    · rw [Function.update_of_ne hj]
      exact h j m

/-- An element is taken off, wherever it is. -/
theorem leave (h : Seated lists seat) (k : κ) :
    Seated (fun i => (lists i).erase k) (Function.update seat k none) := by
  intro i m
  by_cases hm : m = k
  · subst hm
    have hnone : ¬ (none : Option ι) = some i := by simp
    rw [Function.update_self, List.count_erase_self, h i m, if_neg hnone]
    split <;> rfl
  · rw [Function.update_of_ne hm, List.count_erase_of_ne hm]
    exact h i m

/-- Over any finite range of lists an element occurs once or not at all. -/
theorem sum_count {lists : ℕ → List κ} {seat : κ → Option ℕ} (h : Seated lists seat) (k : κ)
    (n : ℕ) :
    ((List.range n).map fun i => (lists i).count k).sum =
      if ∃ i < n, seat k = some i then 1 else 0 := by
  induction n with
  | zero => simp
  | succ n ih =>
      rw [List.range_succ, List.map_append, List.sum_append, ih]
      simp only [List.map_cons, List.map_nil, List.sum_cons, List.sum_nil, Nat.add_zero]
      rw [h n k]
      by_cases hn : seat k = some n
      · have hnot : ¬ ∃ i < n, seat k = some i := by
          rintro ⟨i, hi, hs⟩
          rw [hn] at hs
          exact absurd (Option.some.inj hs) (by omega)
        rw [if_pos hn, if_neg hnot, if_pos ⟨n, Nat.lt_succ_self n, hn⟩]
      · rw [if_neg hn, Nat.add_zero]
        refine if_congr ⟨?_, ?_⟩ rfl rfl
        · rintro ⟨i, hi, hs⟩
          exact ⟨i, Nat.lt_succ_of_lt hi, hs⟩
        · rintro ⟨i, hi, hs⟩
          refine ⟨i, ?_, hs⟩
          have hne : i ≠ n := fun he => hn (he ▸ hs)
          omega

/-- Looking through the first `n` lists finds what sits there. -/
theorem any_contains_iff {lists : ℕ → List κ} {seat : κ → Option ℕ} (h : Seated lists seat)
    (k : κ) (n : ℕ) :
    ((List.range n).any fun i => (lists i).contains k) = true ↔ ∃ i < n, seat k = some i := by
  rw [List.any_eq_true]
  constructor
  · rintro ⟨i, hi, hk⟩
    exact ⟨i, List.mem_range.mp hi, h.mem_iff.mp (List.contains_iff_mem.mp hk)⟩
  · rintro ⟨i, hi, hs⟩
    exact ⟨i, List.mem_range.mpr hi, List.contains_iff_mem.mpr (h.mem_iff.mpr hs)⟩

/-- What sits nowhere is not found. -/
theorem any_contains_eq_false {lists : ℕ → List κ} {seat : κ → Option ℕ} (h : Seated lists seat)
    {k : κ} (hk : seat k = none) (n : ℕ) :
    ((List.range n).any fun i => (lists i).contains k) = false := by
  rw [← Bool.not_eq_true, h.any_contains_iff]
  rintro ⟨i, -, hs⟩
  rw [hk] at hs
  cases hs

/-- A list of elements below `n` has at most `n` of them. -/
theorem length_le {lists : ι → List ℕ} {seat : ℕ → Option ι} (h : Seated lists seat) {n : ℕ}
    {i : ι} (hn : ∀ k, seat k = some i → k < n) : (lists i).length ≤ n := by
  have hsub : lists i ⊆ List.range n := by
    intro k hk
    exact List.mem_range.mpr (hn k (h.mem_iff.mp hk))
  have hle := (List.subperm_of_subset (h.nodup i) hsub).length_le
  rwa [List.length_range] at hle

end Seated

end Lib

import Mathlib.Data.Nat.Count
import Mathlib.Logic.Function.Basic

/-!
# Counting marked slots

An array of `n` slots, each marked or not, and the number of marks.  A counter that is
meant to hold this number is raised and lowered by one as single slots change;
`tally_update` is the equation it has to follow.
-/

namespace Lib

/-- The marked slots among the first `n`. -/
def tally (p : ℕ → Bool) (n : ℕ) : ℕ := Nat.count (fun i => p i = true) n

variable {p r : ℕ → Bool} {n i : ℕ}

@[simp] theorem tally_zero (p : ℕ → Bool) : tally p 0 = 0 := rfl

theorem tally_succ (p : ℕ → Bool) (n : ℕ) : tally p (n + 1) = tally p n + (p n).toNat := by
  unfold tally
  rw [Nat.count_succ]
  cases p n <;> rfl

theorem tally_le (p : ℕ → Bool) (n : ℕ) : tally p n ≤ n := Nat.count_le _

/-- The tally is a matter of the first `n` slots. -/
theorem tally_congr (h : ∀ i < n, p i = r i) : tally p n = tally r n := by
  induction n with
  | zero => rfl
  | succ n ih =>
      rw [tally_succ, tally_succ, ih fun i hi => h i (Nat.lt_succ_of_lt hi), h n (Nat.lt_succ_self n)]

theorem tally_eq_zero (h : ∀ i < n, p i = false) : tally p n = 0 := by
  induction n with
  | zero => rfl
  | succ n ih =>
      rw [tally_succ, ih fun i hi => h i (Nat.lt_succ_of_lt hi), h n (Nat.lt_succ_self n)]
      rfl

/-- The array is full exactly when every slot is marked. -/
theorem tally_eq_iff : tally p n = n ↔ ∀ i < n, p i = true := Nat.count_iff_forall

/-- **One slot changes.** -/
theorem tally_update (hi : i < n) (b : Bool) :
    tally (Function.update p i b) n + (p i).toNat = tally p n + b.toNat := by
  induction n with
  | zero => exact absurd hi (Nat.not_lt_zero i)
  | succ n ih =>
      rw [tally_succ, tally_succ]
      obtain hlt | rfl := Nat.lt_succ_iff_lt_or_eq.mp hi
      · have hrest := ih hlt
        rw [Function.update_of_ne (Nat.ne_of_gt hlt)]
        omega
      · have hrest : tally (Function.update p i b) i = tally p i :=
          tally_congr fun j hj => Function.update_of_ne (Nat.ne_of_lt hj) b p
        rw [hrest, Function.update_self]
        omega

/-- A slot changes that is marked before and not after. -/
theorem tally_unmark (hi : i < n) (h : p i = true) (hr : r = Function.update p i false) :
    tally r n + 1 = tally p n := by
  have hupd := tally_update (p := p) hi false
  rw [h] at hupd
  rw [hr]
  exact hupd

/-- A marked slot counts. -/
theorem tally_pos (hi : i < n) (h : p i = true) : 0 < tally p n := by
  have hone := tally_unmark hi h rfl
  omega

/-- So do two. -/
theorem one_lt_tally {k : ℕ} (hi : i < n) (hk : k < n) (hne : i ≠ k) (hp : p i = true)
    (hpk : p k = true) : 1 < tally p n := by
  have hone := tally_unmark hi hp rfl
  have hother : Function.update p i false k = true := by
    rw [Function.update_of_ne hne.symm]
    exact hpk
  have hpos := tally_pos hk hother
  omega

/-- Behind the last mark nothing counts. -/
theorem tally_add_of_false {k : ℕ} (h : ∀ j, i ≤ j → j < i + k → p j = false) :
    tally p (i + k) = tally p i := by
  induction k with
  | zero => rfl
  | succ k ih =>
      rw [← Nat.add_assoc, tally_succ, h (i + k) (Nat.le_add_right i k) (by omega),
        ih fun j hij hjk => h j hij (by omega)]
      rfl

end Lib

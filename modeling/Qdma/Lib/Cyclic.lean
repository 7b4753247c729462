import Mathlib.Data.Nat.Basic
import Mathlib.Logic.Function.Basic
import Mathlib.Tactic.Common

/-!
# Indexes into a ring of `n` slots

Positions in a ring are numbers below `n`.  Two operations are all a ring of
producer and consumer indexes needs:

* `next n i` — one slot further, wrapping at the end;
* `gap n a c` — how far `a` is ahead of `c`, that is `(a - c) mod n`.

The gap is stated as `(a + n - c) % n` so that it computes on natural numbers;
`gap_eq_ite` is the one-wrap form the arithmetic below works with.  `gap_add` and
`gap_sub_gap` are the two laws: a producer that advances by `k` widens the gap by
`k`, and a consumer that moves inside the window narrows it by its own gap.

`fill` rewrites one slot after the other, each from what is in it; up to a lap, each
write meets the slot as it was (`fill_at`), and the other slots stay (`fill_off`).
-/

namespace Lib.Cyclic

variable {n : ℕ}

/-- One slot further, wrapping at the end of the ring. -/
def next (n i : ℕ) : ℕ := if i + 1 = n then 0 else i + 1

/-- How far `a` is ahead of `c` in a ring of `n` slots: `(a - c) mod n`. -/
def gap (n a c : ℕ) : ℕ := (a + n - c) % n

theorem next_lt {i : ℕ} (hi : i < n) : next n i < n := by
  unfold next
  split <;> omega

theorem next_eq_mod {i : ℕ} (hi : i < n) : next n i = (i + 1) % n := by
  unfold next
  split
  · rename_i hwrap
    rw [hwrap, Nat.mod_self]
  · exact (Nat.mod_eq_of_lt (by omega)).symm

/-- Advancing by at most one lap crosses the end at most once. -/
theorem add_mod_eq_ite {p k : ℕ} (hp : p < n) (hk : k ≤ n) :
    (p + k) % n = if p + k < n then p + k else p + k - n := by
  split
  · rename_i hsmall
    exact Nat.mod_eq_of_lt hsmall
  · rename_i hlarge
    rw [Nat.mod_eq_sub_mod (by omega), Nat.mod_eq_of_lt (by omega)]

theorem gap_eq_ite {a c : ℕ} (ha : a < n) (hc : c < n) :
    gap n a c = if a < c then (n - c) + a else a - c := by
  unfold gap
  split
  · rw [Nat.mod_eq_of_lt (by omega)]
    omega
  · rw [show a + n - c = (a - c) + n by omega, Nat.add_mod_right,
      Nat.mod_eq_of_lt (by omega)]

theorem gap_lt {a c : ℕ} (hn : 0 < n) : gap n a c < n := Nat.mod_lt _ hn

@[simp] theorem gap_self (a : ℕ) : gap n a a = 0 := by
  unfold gap
  rw [Nat.add_sub_cancel_left, Nat.mod_self]

theorem gap_eq_zero_iff {a c : ℕ} (ha : a < n) (hc : c < n) :
    gap n a c = 0 ↔ a = c := by
  rw [gap_eq_ite ha hc]
  split <;> omega

/-- A producer that advances by `k` without lapping the consumer widens the gap
by exactly `k`. -/
theorem gap_add {p c k : ℕ} (hp : p < n) (hc : c < n) (hk : gap n p c + k < n) :
    gap n ((p + k) % n) c = gap n p c + k := by
  have hle : k ≤ n := by omega
  have hlt : (p + k) % n < n := Nat.mod_lt _ (by omega)
  rw [gap_eq_ite hlt hc]
  rw [gap_eq_ite hp hc] at hk ⊢
  rw [add_mod_eq_ite hp hle]
  split_ifs at hk ⊢ <;> omega

/-- A consumer that moves from `c` to `a` inside the window `c .. p` leaves the
rest of the window outstanding. -/
theorem gap_sub_gap {p a c : ℕ} (hp : p < n) (ha : a < n) (hc : c < n)
    (hwin : gap n a c ≤ gap n p c) :
    gap n p a = gap n p c - gap n a c := by
  rw [gap_eq_ite hp ha]
  rw [gap_eq_ite hp hc, gap_eq_ite ha hc] at *
  split_ifs at * <;> omega

/-- The position `gap` slots after the consumer is the producer again. -/
theorem add_gap_mod {a c : ℕ} (ha : a < n) (hc : c < n) :
    (c + gap n a c) % n = a := by
  have hle : gap n a c ≤ n := Nat.le_of_lt (gap_lt (by omega))
  rw [add_mod_eq_ite hc hle, gap_eq_ite ha hc]
  split_ifs <;> omega

/-- Two absolute positions less than a lap apart that fall on the same slot are
the same position. -/
theorem eq_of_mod_eq {i j : ℕ} (hle : i ≤ j) (hlap : j - i < n)
    (hmod : i % n = j % n) : i = j := by
  have hdvd : n ∣ j - i :=
    Nat.dvd_of_mod_eq_zero (Nat.sub_mod_eq_zero_of_mod_eq hmod.symm)
  have hzero : j - i = 0 := Nat.eq_zero_of_dvd_of_lt hdvd hlap
  omega

/-- The slots of less than a lap are different. -/
theorem add_mod_inj {p j k : ℕ} (hj : j < n) (hk : k < n) :
    (p + j) % n = (p + k) % n ↔ j = k := by
  constructor
  · intro hmod
    obtain hle | hle := Nat.le_total j k
    · have heq := eq_of_mod_eq (i := p + j) (j := p + k) (by omega) (by omega) hmod
      omega
    · have heq := eq_of_mod_eq (i := p + k) (j := p + j) (by omega) (by omega) hmod.symm
      omega
  · rintro rfl
    rfl

/-! ## Writing around the ring -/

section Fill

universe u

variable {α : Type u}

/-- The slots from `p` on are rewritten, one after the other. -/
def fill (n : ℕ) : (ℕ → α) → ℕ → List (α → α) → ℕ → α
  | f, _, [] => f
  | f, p, g :: gs => fill n (Function.update f p (g (f p))) (next n p) gs

/-- The slot after the first write and `k` more. -/
theorem next_add_mod {p : ℕ} (hp : p < n) (k : ℕ) : (next n p + k) % n = (p + (k + 1)) % n := by
  rw [next_eq_mod hp, Nat.mod_add_mod, Nat.add_assoc, Nat.add_comm 1 k]

/-- A slot that is not written. -/
theorem fill_off :
    ∀ (gs : List (α → α)) {f : ℕ → α} {p s : ℕ}, p < n →
      (∀ k < gs.length, s ≠ (p + k) % n) → fill n f p gs s = f s := by
  intro gs
  induction gs with
  | nil => intro f p s _ _; rfl
  | cons g gs ih =>
      intro f p s hp hs
      have hfirst : s ≠ p := by
        have h := hs 0 (Nat.succ_pos _)
        rwa [Nat.add_zero, Nat.mod_eq_of_lt hp] at h
      have hrest : ∀ k < gs.length, s ≠ (next n p + k) % n := by
        intro k hk
        rw [next_add_mod hp]
        exact hs (k + 1) (Nat.succ_lt_succ hk)
      rw [fill, ih (next_lt hp) hrest, Function.update_of_ne hfirst]

/-- A slot that is written, in less than a lap. -/
theorem fill_at :
    ∀ (gs : List (α → α)) {f : ℕ → α} {p k : ℕ} {g : α → α}, p < n → gs.length ≤ n →
      gs[k]? = some g → fill n f p gs ((p + k) % n) = g (f ((p + k) % n)) := by
  intro gs
  induction gs with
  | nil => intro f p k g _ _ hk; cases hk
  | cons g' gs ih =>
      intro f p k g hp hlen hk
      rw [List.length_cons] at hlen
      cases k with
      | zero =>
          cases hk
          have hrest : ∀ j < gs.length, p ≠ (next n p + j) % n := by
            intro j hj heq
            rw [next_add_mod hp] at heq
            have hmod : p % n = (p + (j + 1)) % n := by rwa [Nat.mod_eq_of_lt hp]
            exact absurd (eq_of_mod_eq (Nat.le_add_right _ _) (by omega) hmod) (by omega)
          rw [Nat.add_zero, Nat.mod_eq_of_lt hp, fill, fill_off gs (next_lt hp) hrest,
            Function.update_self]
      | succ k =>
          have hk' : gs[k]? = some g := by rwa [List.getElem?_cons_succ] at hk
          have hlt : k < gs.length := (List.getElem?_eq_some_iff.mp hk').1
          have hne : (p + (k + 1)) % n ≠ p := by
            intro heq
            have hmod : p % n = (p + (k + 1)) % n := by rw [heq, Nat.mod_eq_of_lt hp]
            exact absurd (eq_of_mod_eq (Nat.le_add_right _ _) (by omega) hmod) (by omega)
          rw [fill, ← next_add_mod hp, ih (next_lt hp) (by omega) hk', next_add_mod hp,
            Function.update_of_ne hne]

end Fill

end Lib.Cyclic

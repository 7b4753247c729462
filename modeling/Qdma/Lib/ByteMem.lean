import Mathlib.Algebra.Group.Nat.Defs
import Mathlib.Logic.Function.Basic
import Mathlib.Data.List.Basic
import Mathlib.Tactic.Common

/-!
# Bytes in memory

A message is laid out in memory: numbers of two and four bytes, the lowest byte first, and
texts that end at the first byte that is 0.

* `ByteMem.put16`, `ByteMem.put32` and `ByteMem.putBytes` write; `ByteMem.get16` and
  `ByteMem.get32` read the numbers back.
* `ByteMem.strIn` and `ByteMem.strnIn` read a text, as long as it ends before the bytes that
  may be read do.
* `ByteMem.TextAt` says that a text lies somewhere.

What a write leaves alone is stated byte by byte (`put32_apart` and its siblings), and what a
read depends on likewise (`get16_congr` and its siblings).
-/

namespace Lib

/-- A byte at every offset. -/
abbrev ByteMem := ℕ → BitVec 8

namespace ByteMem

variable (m : ByteMem)

def get16 (a : ℕ) : ℕ := (m a).toNat + 2 ^ 8 * (m (a + 1)).toNat

def get32 (a : ℕ) : ℕ := m.get16 a + 2 ^ 16 * m.get16 (a + 2)

def put8 (a : ℕ) (b : BitVec 8) : ByteMem := Function.update m a b

def put16 (a v : ℕ) : ByteMem :=
  (m.put8 a (BitVec.ofNat 8 v)).put8 (a + 1) (BitVec.ofNat 8 (v / 2 ^ 8))

def put32 (a v : ℕ) : ByteMem := (m.put16 a v).put16 (a + 2) (v / 2 ^ 16)

def putBytes (m : ByteMem) (a : ℕ) : List (BitVec 8) → ByteMem
  | [] => m
  | b :: l => putBytes (m.put8 a b) (a + 1) l

/-- The text from `a` on, when it ends within `k` bytes. -/
def strIn (m : ByteMem) : ℕ → ℕ → Option (List (BitVec 8))
  | 0, _ => none
  | k + 1, a => if m a = 0 then some [] else (strIn m k (a + 1)).map (m a :: ·)

/-- The `c` bytes that `strncpy` writes: the text from `a` on, cut to `c` bytes or filled up
with zeros.  No more than `k` bytes may be read. -/
def strnIn (m : ByteMem) : ℕ → ℕ → ℕ → Option (List (BitVec 8))
  | 0, _, _ => some []
  | _ + 1, 0, _ => none
  | c + 1, k + 1, a =>
      if m a = 0 then some (List.replicate (c + 1) 0) else (strnIn m c k (a + 1)).map (m a :: ·)

/-- The bytes of a text and its end. -/
def TextAt (m : ByteMem) (a : ℕ) : List (BitVec 8) → Prop
  | [] => m a = 0
  | b :: l => m a = b ∧ b ≠ 0 ∧ TextAt m (a + 1) l

/-- A text in `c` bytes. -/
def padded (c : ℕ) (l : List (BitVec 8)) : List (BitVec 8) := (l ++ List.replicate c 0).take c

variable {m}

/-! ### What a write leaves alone -/

theorem put8_ne {a i : ℕ} (b : BitVec 8) (h : i ≠ a) : m.put8 a b i = m i := by
  unfold put8
  rw [Function.update_of_ne h]

theorem put8_same (a : ℕ) (b : BitVec 8) : m.put8 a b a = b := by
  unfold put8
  rw [Function.update_self]

theorem put16_apart {a i : ℕ} (v : ℕ) (h : i < a ∨ a + 2 ≤ i) : m.put16 a v i = m i := by
  unfold put16
  rw [put8_ne _ (by omega), put8_ne _ (by omega)]

theorem put32_apart {a i : ℕ} (v : ℕ) (h : i < a ∨ a + 4 ≤ i) : m.put32 a v i = m i := by
  unfold put32
  rw [put16_apart _ (by omega), put16_apart _ (by omega)]

theorem putBytes_apart {a i : ℕ} (l : List (BitVec 8)) (h : i < a ∨ a + l.length ≤ i) :
    m.putBytes a l i = m i := by
  induction l generalizing m a with
  | nil => rfl
  | cons b l ih =>
      rw [List.length_cons] at h
      rw [putBytes, ih (by omega), put8_ne _ (by omega)]

/-! ### What a read depends on -/

theorem get16_congr {m' : ByteMem} {a : ℕ} (h : ∀ i, a ≤ i → i < a + 2 → m i = m' i) :
    m.get16 a = m'.get16 a := by
  unfold get16
  rw [h a (by omega) (by omega), h (a + 1) (by omega) (by omega)]

theorem get32_congr {m' : ByteMem} {a : ℕ} (h : ∀ i, a ≤ i → i < a + 4 → m i = m' i) :
    m.get32 a = m'.get32 a := by
  unfold get32
  rw [get16_congr fun i h₁ h₂ => h i h₁ (by omega),
    get16_congr fun i h₁ h₂ => h i (by omega) (by omega)]

theorem TextAt.congr {m' : ByteMem} {a : ℕ} {l : List (BitVec 8)} (ht : m.TextAt a l)
    (h : ∀ i, a ≤ i → i < a + l.length + 1 → m i = m' i) : m'.TextAt a l := by
  induction l generalizing a with
  | nil => exact (h a (Nat.le_refl _) (by omega)).symm.trans ht
  | cons b l ih =>
      obtain ⟨hb, hne, hrest⟩ := ht
      rw [List.length_cons] at h
      exact ⟨(h a (Nat.le_refl _) (by omega)).symm.trans hb, hne,
        ih hrest fun i h₁ h₂ => h i (by omega) (by omega)⟩

/-! ### What was written is read back -/

theorem get16_put16 (a v : ℕ) : (m.put16 a v).get16 a = v % 2 ^ 16 := by
  have hlow : m.put16 a v a = BitVec.ofNat 8 v := by
    unfold put16
    rw [put8_ne _ (by omega), put8_same]
  have hhigh : m.put16 a v (a + 1) = BitVec.ofNat 8 (v / 2 ^ 8) := put8_same _ _
  unfold get16
  rw [hlow, hhigh, BitVec.toNat_ofNat, BitVec.toNat_ofNat]
  omega

theorem get32_put32 (a v : ℕ) : (m.put32 a v).get32 a = v % 2 ^ 32 := by
  have hlow : (m.put32 a v).get16 a = (m.put16 a v).get16 a :=
    get16_congr fun i _ h => put16_apart _ (Or.inl (by omega))
  have hhigh : (m.put32 a v).get16 (a + 2) = v / 2 ^ 16 % 2 ^ 16 := get16_put16 _ _
  unfold get32
  rw [hlow, hhigh, get16_put16]
  omega

theorem textAt_putBytes (a : ℕ) {l : List (BitVec 8)} (hne : ∀ b ∈ l, b ≠ 0) :
    (m.putBytes a (l ++ [0])).TextAt a l := by
  induction l generalizing m a with
  | nil => exact put8_same a 0
  | cons b l ih =>
      refine ⟨?_, hne b (List.mem_cons_self ..), ih (a + 1) fun c hc => ?_⟩
      · rw [List.cons_append, putBytes, putBytes_apart _ (by omega), put8_same]
      · exact hne c (List.mem_cons_of_mem _ hc)

/-! ### Texts -/

theorem strIn_of_textAt {a k : ℕ} {l : List (BitVec 8)} (ht : m.TextAt a l) (hk : l.length < k) :
    m.strIn k a = some l := by
  induction l generalizing a k with
  | nil =>
      obtain ⟨k, rfl⟩ := Nat.exists_eq_add_one_of_ne_zero (by omega : k ≠ 0)
      exact if_pos ht
  | cons b l ih =>
      obtain ⟨hb, hne, hrest⟩ := ht
      rw [List.length_cons] at hk
      obtain ⟨k, rfl⟩ := Nat.exists_eq_add_one_of_ne_zero (by omega : k ≠ 0)
      rw [strIn, hb, if_neg hne, ih hrest (by omega)]
      rfl

theorem strnIn_of_textAt {a k : ℕ} {l : List (BitVec 8)} (c : ℕ) (ht : m.TextAt a l)
    (hk : l.length < k) : m.strnIn c k a = some (padded c l) := by
  induction c generalizing a k l with
  | zero => rfl
  | succ c ih =>
      obtain ⟨k, rfl⟩ := Nat.exists_eq_add_one_of_ne_zero (by omega : k ≠ 0)
      cases l with
      | nil =>
          have htake : (List.replicate (c + 1) (0 : BitVec 8)).take (c + 1) =
              List.replicate (c + 1) 0 := List.take_of_length_le (by simp)
          rw [strnIn, if_pos (show m a = 0 from ht), padded, List.nil_append, htake]
      | cons b l =>
          obtain ⟨hb, hne, hrest⟩ := ht
          rw [List.length_cons] at hk
          have hcut : (l ++ List.replicate (c + 1) (0 : BitVec 8)).take c =
              (l ++ List.replicate c 0).take c := by
            rw [List.replicate_succ', ← List.append_assoc, List.take_append_of_le_length]
            rw [List.length_append, List.length_replicate]
            omega
          rw [strnIn, hb, if_neg hne, ih hrest (by omega), padded, padded, List.cons_append,
            List.take_succ_cons, hcut]
          rfl

theorem strIn_isSome_iff {k a : ℕ} :
    (m.strIn k a).isSome = true ↔ ∃ i < k, m (a + i) = 0 := by
  induction k generalizing a with
  | zero => simp [strIn]
  | succ k ih =>
      rw [strIn]
      by_cases hzero : m a = 0
      · rw [if_pos hzero]
        exact ⟨fun _ => ⟨0, by omega, hzero⟩, fun _ => rfl⟩
      · rw [if_neg hzero, Option.isSome_map, ih]
        constructor
        · intro ⟨i, hi, h⟩
          exact ⟨i + 1, by omega, by rwa [← Nat.add_assoc, Nat.add_right_comm]⟩
        · intro ⟨i, hi, h⟩
          cases i with
          | zero => exact absurd h hzero
          | succ i => exact ⟨i, by omega, by rwa [Nat.add_right_comm, Nat.add_assoc]⟩

theorem strnIn_isSome_iff {c k a : ℕ} :
    (m.strnIn c k a).isSome = true ↔ c ≤ k ∨ ∃ i < k, m (a + i) = 0 := by
  induction c generalizing k a with
  | zero => simp [strnIn]
  | succ c ih =>
      cases k with
      | zero => simp [strnIn]
      | succ k =>
          rw [strnIn]
          by_cases hzero : m a = 0
          · rw [if_pos hzero]
            exact ⟨fun _ => Or.inr ⟨0, by omega, hzero⟩, fun _ => rfl⟩
          · rw [if_neg hzero, Option.isSome_map, ih, Nat.succ_le_succ_iff]
            refine or_congr_right ⟨?_, ?_⟩
            · intro ⟨i, hi, h⟩
              exact ⟨i + 1, by omega, by rwa [← Nat.add_assoc, Nat.add_right_comm]⟩
            · intro ⟨i, hi, h⟩
              cases i with
              | zero => exact absurd h hzero
              | succ i => exact ⟨i, by omega, by rwa [Nat.add_right_comm, Nat.add_assoc]⟩

end ByteMem

end Lib

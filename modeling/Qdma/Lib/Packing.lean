import Mathlib.Data.Nat.Bitwise
import Mathlib.Data.List.Pairwise
import Mathlib.Tactic.Common

/-!
# Words packed from fields

A device register is a word cut into fields.  A driver writes one by shifting each value to
the place of its field and joining the results with *or*; nothing cuts a value that is too
wide, so it spills into the fields above.

* `BitField` is a place in a word, `BitField.get` the value read there.
* `pack` is the word made of some values, each at its field.
* `Packed` says that the values fit and that the fields do not overlap.  Then every field
  reads what was put there (`Packed.get_eq`), and a field that nothing was put in reads 0
  (`get_pack_gap`).

Words are natural numbers; a register of `n` bits is the remainder modulo `2 ^ n`, which no
field inside the register can tell (`get_mod`).
-/

namespace Lib

/-- `width` bits from bit `shift` on. -/
structure BitField where
  shift : ℕ
  width : ℕ
  deriving DecidableEq

namespace BitField

variable (f g : BitField)

/-- The value shifted to its place, whatever its size. -/
def put (v : ℕ) : ℕ := v <<< f.shift

def get (w : ℕ) : ℕ := (w >>> f.shift) % 2 ^ f.width

/-- The two fields have no bit in common. -/
def Apart : Prop := f.shift + f.width ≤ g.shift ∨ g.shift + g.width ≤ f.shift

instance : Decidable (f.Apart g) := inferInstanceAs (Decidable (_ ∨ _))

variable {f g}

theorem Apart.symm (h : f.Apart g) : g.Apart f := Or.symm h

theorem testBit_get (w i : ℕ) :
    (f.get w).testBit i = (decide (i < f.width) && w.testBit (f.shift + i)) := by
  unfold get
  rw [Nat.testBit_mod_two_pow, Nat.testBit_shiftRight]

theorem get_zero : f.get 0 = 0 := by
  unfold get
  rw [Nat.zero_shiftRight, Nat.zero_mod]

theorem get_or (a b : ℕ) : f.get (a ||| b) = f.get a ||| f.get b := by
  apply Nat.eq_of_testBit_eq
  intro i
  rw [Nat.testBit_or, testBit_get, testBit_get, testBit_get, Nat.testBit_or,
    Bool.and_or_distrib_left]

/-- What lies above a register does not show in it. -/
theorem get_mod {n : ℕ} (h : f.shift + f.width ≤ n) (w : ℕ) : f.get (w % 2 ^ n) = f.get w := by
  apply Nat.eq_of_testBit_eq
  intro i
  rw [testBit_get, testBit_get, Nat.testBit_mod_two_pow]
  by_cases hi : i < f.width
  · have hin : f.shift + i < n := by omega
    simp [hin]
  · simp [hi]

theorem get_put (v : ℕ) : f.get (f.put v) = v % 2 ^ f.width := by
  unfold get put
  rw [Nat.shiftLeft_shiftRight]

theorem get_put_of_fits {v : ℕ} (hv : v < 2 ^ f.width) : f.get (f.put v) = v := by
  rw [get_put, Nat.mod_eq_of_lt hv]

theorem get_put_apart (h : f.Apart g) {v : ℕ} (hv : v < 2 ^ g.width) : f.get (g.put v) = 0 := by
  apply Nat.eq_of_testBit_eq
  intro i
  rw [testBit_get, Nat.zero_testBit]
  unfold put
  rw [Nat.testBit_shiftLeft]
  by_cases hi : i < f.width
  · rcases h with hle | hle
    · have hlow : ¬ f.shift + i ≥ g.shift := by omega
      simp [hlow]
    · -- the value ends below its field's end, and so below `f`
      have hzero : v.testBit (f.shift + i - g.shift) = false := by
        refine Nat.testBit_lt_two_pow (lt_of_lt_of_le hv ?_)
        exact Nat.pow_le_pow_right (by decide) (by omega)
      simp [hzero]
  · simp [hi]

end BitField

/-- The word with each value at its field. -/
def pack (l : List (BitField × ℕ)) : ℕ := l.foldr (fun p w => p.1.put p.2 ||| w) 0

theorem pack_nil : pack [] = 0 := rfl

theorem pack_cons (f : BitField) (v : ℕ) (l : List (BitField × ℕ)) :
    pack ((f, v) :: l) = f.put v ||| pack l := rfl

/-- A value that is too wide goes on in the field above. -/
theorem BitField.put_split (f : BitField) (k v : ℕ) :
    f.put v =
      f.put (v % 2 ^ f.width) |||
        (BitField.mk (f.shift + f.width) k).put (v / 2 ^ f.width) := by
  apply Nat.eq_of_testBit_eq
  intro i
  unfold BitField.put
  rw [Nat.testBit_or, Nat.testBit_shiftLeft, Nat.testBit_shiftLeft, Nat.testBit_shiftLeft,
    Nat.testBit_mod_two_pow, Nat.testBit_div_two_pow]
  dsimp only
  by_cases hlow : i < f.shift
  · have hno : ¬ i ≥ f.shift := by omega
    have hno' : ¬ i ≥ f.shift + f.width := by omega
    simp [hno, hno']
  · by_cases hmid : i < f.shift + f.width
    · have hin : i - f.shift < f.width := by omega
      have hno : ¬ i ≥ f.shift + f.width := by omega
      simp [hin, hno]
    · have hout : ¬ i - f.shift < f.width := by omega
      have hback : i - (f.shift + f.width) + f.width = i - f.shift := by omega
      have hge : i ≥ f.shift := by omega
      have hge' : i ≥ f.shift + f.width := by omega
      simp [hout, hback, hge, hge']

/-- The values fit into their fields, and these do not overlap. -/
structure Packed (l : List (BitField × ℕ)) : Prop where
  fits : ∀ p ∈ l, p.2 < 2 ^ p.1.width
  apart : l.Pairwise fun p q => p.1.Apart q.1

theorem get_pack_gap {f : BitField} {l : List (BitField × ℕ)}
    (hfits : ∀ p ∈ l, p.2 < 2 ^ p.1.width) (hgap : ∀ p ∈ l, f.Apart p.1) :
    f.get (pack l) = 0 := by
  induction l with
  | nil => exact BitField.get_zero
  | cons p l ih =>
      obtain ⟨g, v⟩ := p
      have hrest := ih (fun q hq => hfits q (List.mem_cons_of_mem _ hq))
        (fun q hq => hgap q (List.mem_cons_of_mem _ hq))
      have hhead : f.get (g.put v) = 0 :=
        BitField.get_put_apart (hgap (g, v) (List.mem_cons_self ..))
          (hfits (g, v) (List.mem_cons_self ..))
      rw [pack_cons, BitField.get_or, hhead, hrest, Nat.or_zero]

/-- Only the fields are looked at to see that they do not overlap. -/
theorem packed_of_layout {l : List (BitField × ℕ)} (hfits : ∀ p ∈ l, p.2 < 2 ^ p.1.width)
    (hlayout : (l.map Prod.fst).Pairwise BitField.Apart) : Packed l :=
  ⟨hfits, List.pairwise_map.mp hlayout⟩

namespace Packed

variable {l : List (BitField × ℕ)} {f : BitField} {v : ℕ}

/-- **A field reads what was put there.** -/
theorem get_eq (h : Packed l) (hmem : (f, v) ∈ l) : f.get (pack l) = v := by
  induction l with
  | nil => cases hmem
  | cons p l ih =>
      obtain ⟨g, u⟩ := p
      obtain ⟨hfits, hapart⟩ := h
      obtain ⟨hp, hl⟩ := List.pairwise_cons.mp hapart
      have hrest : ∀ q ∈ l, q.2 < 2 ^ q.1.width :=
        fun q hq => hfits q (List.mem_cons_of_mem _ hq)
      have hu : u < 2 ^ g.width := hfits (g, u) (List.mem_cons_self ..)
      rw [pack_cons, BitField.get_or]
      rcases List.mem_cons.mp hmem with heq | hmem
      · cases heq
        rw [BitField.get_put_of_fits hu, get_pack_gap hrest hp, Nat.or_zero]
      · have happ : f.Apart g := (hp (f, v) hmem).symm
        rw [BitField.get_put_apart happ hu, ih ⟨hrest, hl⟩ hmem, Nat.zero_or]

theorem get_gap (h : Packed l) (hgap : ∀ g ∈ l.map Prod.fst, f.Apart g) : f.get (pack l) = 0 :=
  get_pack_gap h.fits fun p hp => hgap p.1 (List.mem_map_of_mem hp)

end Packed

end Lib

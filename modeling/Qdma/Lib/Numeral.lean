import Mathlib.Data.List.TakeWhile
import Mathlib.Data.Nat.Digits.Defs
import Mathlib.Tactic.Common

/-!
# Numbers in a text

The C library reads a number from the start of a text: blanks, a sign, the digits of a base, and
then anything.  The base is given, or it is what the text says: 16 after `0x`, 8 after `0`, and
10 otherwise.

* `scan` finds the parts, and `strtoul` is what the library makes of them in words of `w` bits:
  too large a number becomes the largest there is, and a minus is taken modulo `2 ^ w`.
* `denoted` is the integer that the text denotes when all of it is a number.
* `Scan.Fits` is the condition under which the word is the number that is denoted.

A text of figures may be octal without looking it: `figures_mod_eq_iff` tells when it is what it
is in decimal.
-/

namespace Lib

/-- `isspace` in the C locale. -/
def isBlank (c : Char) : Bool := c == ' ' || (9 ≤ c.toNat && c.toNat ≤ 13)

/-- `isdigit`. -/
def isFigure (c : Char) : Bool := decide (48 ≤ c.toNat ∧ c.toNat ≤ 57)

/-- The value of a digit, the letters after the figures; 36 for what is no digit. -/
def digitOf (c : Char) : ℕ :=
  if 48 ≤ c.toNat ∧ c.toNat ≤ 57 then c.toNat - 48
  else if 97 ≤ c.toNat ∧ c.toNat ≤ 122 then c.toNat - 87
  else if 65 ≤ c.toNat ∧ c.toNat ≤ 90 then c.toNat - 55
  else 36

def isDigitIn (base : ℕ) (c : Char) : Bool := decide (digitOf c < base)

/-- The number that some digits write in a base. -/
def numberOf (base : ℕ) (cs : List Char) : ℕ := Nat.ofDigits base (cs.map digitOf).reverse

/-- The base of a number, and where its digits begin. -/
abbrev Radix := List Char → ℕ × List Char

/-- Base 0 of the library: the text says which. -/
def radixAny : Radix := fun cs =>
  match cs with
  | '0' :: x :: d :: rest =>
      if (x = 'x' ∨ x = 'X') ∧ isDigitIn 16 d = true then (16, d :: rest) else (8, cs)
  | '0' :: _ => (8, cs)
  | _ => (10, cs)

def radixTen : Radix := fun cs => (10, cs)

structure Scan where
  neg : Bool
  base : ℕ
  digits : List Char
  rest : List Char

def scan (radix : Radix) (s : List Char) : Scan :=
  let t := s.dropWhile isBlank
  let u := if t.head? = some '-' ∨ t.head? = some '+' then t.tail else t
  let r := radix u
  { neg := t.head? = some '-'
    base := r.1
    digits := r.2.takeWhile (isDigitIn r.1)
    rest := r.2.dropWhile (isDigitIn r.1) }

namespace Scan

def magnitude (n : Scan) : ℕ := numberOf n.base n.digits

/-- All of the text is a number. -/
def Whole (n : Scan) : Prop := n.digits ≠ [] ∧ n.rest = []

/-- A number below `2 ^ k`, with no minus unless it is 0. -/
def Fits (k : ℕ) (n : Scan) : Prop := (n.neg = true → n.magnitude = 0) ∧ n.magnitude < 2 ^ k

instance (n : Scan) : Decidable n.Whole := inferInstanceAs (Decidable (_ ∧ _))

instance (k : ℕ) (n : Scan) : Decidable (n.Fits k) := inferInstanceAs (Decidable (_ ∧ _))

end Scan

/-- `strtoul`, with the text that `endptr` is left at. -/
def strtoul (w : ℕ) (radix : Radix) (s : List Char) : ℕ × List Char :=
  let n := scan radix s
  if n.digits = [] then (0, s)
  else if 2 ^ w ≤ n.magnitude then (2 ^ w - 1, n.rest)
  else if n.neg then ((2 ^ w - n.magnitude) % 2 ^ w, n.rest)
  else (n.magnitude, n.rest)

/-- The integer that a text denotes. -/
def denoted (radix : Radix) (s : List Char) : Option ℤ :=
  let n := scan radix s
  if n.Whole then some (if n.neg then -(n.magnitude : ℤ) else n.magnitude) else none

/-- The number that a text denotes, when it is one of `k` bits. -/
def denotedBits (radix : Radix) (k : ℕ) (s : List Char) : Option ℕ :=
  match denoted radix s with
  | some i => if 0 ≤ i ∧ i < 2 ^ k then some i.toNat else none
  | none => none

/-! ### What is read and what is denoted -/

section Reading

variable {radix : Radix} {s : List Char} {k w : ℕ}

/-- The whole text was read: it is a number, or there is no text. -/
theorem whole_of_strtoul (h : (strtoul w radix s).2 = []) : s = [] ∨ (scan radix s).Whole := by
  by_cases hd : (scan radix s).digits = []
  · have hs : (strtoul w radix s).2 = s := by simp [strtoul, hd]
    exact Or.inl (hs.symm.trans h)
  · refine Or.inr ⟨hd, ?_⟩
    have hr : (strtoul w radix s).2 = (scan radix s).rest := by
      unfold strtoul
      rw [if_neg hd]
      split_ifs <;> rfl
    exact hr.symm.trans h

theorem strtoul_of_fits (hd : (scan radix s).digits ≠ []) (hk : k ≤ w)
    (h : (scan radix s).Fits k) : (strtoul w radix s).1 = (scan radix s).magnitude := by
  have hpow : 2 ^ k ≤ 2 ^ w := Nat.pow_le_pow_right (by omega) hk
  unfold strtoul
  rw [if_neg hd, if_neg (by have := h.2; omega)]
  split_ifs with hneg
  · rw [h.1 hneg, Nat.sub_zero, Nat.mod_self]
  · rfl

theorem denotedBits_of_whole (h : (scan radix s).Whole) :
    denotedBits radix k s =
      if (scan radix s).Fits k then some (scan radix s).magnitude else none := by
  have hden : denoted radix s = some (if (scan radix s).neg then
      -((scan radix s).magnitude : ℤ) else (scan radix s).magnitude) := if_pos h
  generalize (scan radix s) = n at hden ⊢
  rw [denotedBits, hden]
  have hcast : ((2 ^ k : ℕ) : ℤ) = 2 ^ k := by norm_cast
  cases hneg : n.neg with
  | true =>
    by_cases hz : n.magnitude = 0
    · have hfits : n.Fits k := ⟨fun _ => hz, by rw [hz]; exact Nat.two_pow_pos k⟩
      simp [hz, hfits]
    · have hbad : ¬ n.Fits k := fun hf => hz (hf.1 hneg)
      simp [hbad]
      omega
  | false =>
    have hfits : n.Fits k ↔ n.magnitude < 2 ^ k := by simp [Scan.Fits, hneg]
    by_cases hlt : n.magnitude < 2 ^ k
    · rw [if_pos (hfits.mpr hlt)]
      have : (n.magnitude : ℤ) < 2 ^ k := by omega
      simp [this]
    · rw [if_neg (fun hf => hlt (hfits.mp hf))]
      have : ¬ (n.magnitude : ℤ) < 2 ^ k := by omega
      simp [this]

theorem denotedBits_of_not_whole (h : ¬ (scan radix s).Whole) : denotedBits radix k s = none := by
  have hden : denoted radix s = none := if_neg h
  rw [denotedBits, hden]

end Reading

/-! ### Digits -/

theorem digitOf_lt {base : ℕ} {cs : List Char} (h : ∀ c ∈ cs, isDigitIn base c = true) :
    ∀ d ∈ (cs.map digitOf).reverse, d < base := by
  intro d hd
  obtain ⟨c, hc, rfl⟩ := List.mem_map.mp (List.mem_reverse.mp hd)
  exact of_decide_eq_true (h c hc)

theorem numberOf_lt {base : ℕ} {cs : List Char} (hb : 1 < base)
    (h : ∀ c ∈ cs, isDigitIn base c = true) : numberOf base cs < base ^ cs.length := by
  have hlt := Nat.ofDigits_lt_base_pow_length hb (digitOf_lt h)
  rwa [List.length_reverse, List.length_map] at hlt

theorem numberOf_le {p q : ℕ} (h : p ≤ q) (cs : List Char) : numberOf p cs ≤ numberOf q cs :=
  Nat.ofDigits_monotone _ h

theorem ofDigits_eq_iff {p q : ℕ} {L : List ℕ} (hp : 0 < p) (hpq : p < q)
    (h : ∀ d ∈ L, d < p) :
    Nat.ofDigits p L = Nat.ofDigits q L ↔ Nat.ofDigits q L < p := by
  cases L with
  | nil => simpa using hp
  | cons d L =>
    have hd : d < p := h d (List.mem_cons_self ..)
    have hle : Nat.ofDigits p L ≤ Nat.ofDigits q L := Nat.ofDigits_monotone L hpq.le
    rw [Nat.ofDigits_cons, Nat.ofDigits_cons]
    generalize Nat.ofDigits p L = o at hle ⊢
    generalize Nat.ofDigits q L = t at hle ⊢
    rcases Nat.eq_zero_or_pos t with rfl | ht
    · obtain rfl : o = 0 := by omega
      simpa using hd
    · have hot : p * o ≤ p * t := Nat.mul_le_mul_left p hle
      have hlt : p * t < q * t := Nat.mul_lt_mul_of_pos_right hpq ht
      have hq : q ≤ q * t := Nat.le_mul_of_pos_right q ht
      constructor <;> intro _ <;> omega

/-- Read in two bases, digits of the lower one write the same number only when there is no
more than one that counts. -/
theorem numberOf_eq_iff {p q : ℕ} {cs : List Char} (hp : 0 < p) (hpq : p < q)
    (h : ∀ c ∈ cs, isDigitIn p c = true) :
    numberOf p cs = numberOf q cs ↔ numberOf q cs < p :=
  ofDigits_eq_iff hp hpq (digitOf_lt h)

/-! ### Figures -/

/-- The base of a text of figures. -/
def figureBase (ds : List Char) : ℕ := if ds.head? = some '0' then 8 else 10

theorem isBlank_of_figure {c : Char} (h : isFigure c = true) : isBlank c = false := by
  have hc : 48 ≤ c.toNat ∧ c.toNat ≤ 57 := of_decide_eq_true h
  have hspace : c ≠ ' ' := by
    rintro rfl
    exact absurd hc.1 (by decide)
  have hctl : ¬ c.toNat ≤ 13 := by omega
  simp [isBlank, hspace, hctl]

theorem radixAny_figures {ds : List Char} (h : ∀ c ∈ ds, isFigure c = true) :
    radixAny ds = (figureBase ds, ds) := by
  have hx : isFigure 'x' ≠ true ∧ isFigure 'X' ≠ true := by decide
  unfold radixAny figureBase
  split
  · next x d rest =>
    have hfig : isFigure x = true := h x (by simp)
    have hno : ¬ ((x = 'x' ∨ x = 'X') ∧ isDigitIn 16 d = true) := by
      rintro ⟨rfl | rfl, -⟩
      · exact hx.1 hfig
      · exact hx.2 hfig
    rw [if_neg hno]
    rfl
  · rfl
  · next hcons =>
    have hhead : ds.head? ≠ some '0' := by
      intro hh
      obtain ⟨t, rfl⟩ := List.head?_eq_some_iff.mp hh
      exact hcons _ rfl
    rw [if_neg hhead]

/-- Figures are neither blank nor a sign: all of a text of figures is read as digits. -/
theorem scan_figures {ds : List Char} (h : ∀ c ∈ ds, isFigure c = true) :
    scan radixAny ds =
      { neg := false
        base := figureBase ds
        digits := ds.takeWhile (isDigitIn (figureBase ds))
        rest := ds.dropWhile (isDigitIn (figureBase ds)) } := by
  have hblank : ds.dropWhile isBlank = ds := by
    cases ds with
    | nil => rfl
    | cons c t => rw [List.dropWhile_cons, isBlank_of_figure (h c (List.mem_cons_self ..))]; rfl
  have hhead : ∀ c, isFigure c ≠ true → ds.head? ≠ some c := by
    intro c hc hh
    obtain ⟨t, rfl⟩ := List.head?_eq_some_iff.mp hh
    exact hc (h c (List.mem_cons_self ..))
  have hminus := hhead '-' (by decide)
  have hplus := hhead '+' (by decide)
  unfold scan
  dsimp only
  rw [hblank, if_neg (not_or.mpr ⟨hminus, hplus⟩), radixAny_figures h, decide_eq_false hminus]

/-- What `strtoul` reads when a text of figures is read to its end. -/
theorem strtoul_figures {w : ℕ} {ds : List Char} (h : ∀ c ∈ ds, isFigure c = true)
    (hend : (strtoul w radixAny ds).2 = []) (hw : 10 ^ ds.length < 2 ^ w) (hne : ds ≠ []) :
    (∀ c ∈ ds, isDigitIn (figureBase ds) c = true) ∧
      (strtoul w radixAny ds).1 = numberOf (figureBase ds) ds := by
  have hwhole := (whole_of_strtoul hend).resolve_left hne
  have hscan := scan_figures h
  have hdigits : ∀ c ∈ ds, isDigitIn (figureBase ds) c = true := by
    have hrest := hwhole.2
    rw [hscan] at hrest
    exact List.dropWhile_eq_nil_iff.mp hrest
  have hmag : (scan radixAny ds).magnitude = numberOf (figureBase ds) ds := by
    rw [hscan, Scan.magnitude, List.takeWhile_eq_self_iff.mpr hdigits]
  have hbase : 1 < figureBase ds ∧ figureBase ds ≤ 10 := by
    unfold figureBase
    split_ifs <;> decide
  have hlt : numberOf (figureBase ds) ds < 2 ^ w :=
    calc numberOf (figureBase ds) ds < figureBase ds ^ ds.length := numberOf_lt hbase.1 hdigits
      _ ≤ 10 ^ ds.length := Nat.pow_le_pow_left hbase.2 _
      _ < 2 ^ w := hw
  have hfits : (scan radixAny ds).Fits w :=
    ⟨fun hneg => by simp [hscan] at hneg, by rwa [hmag]⟩
  exact ⟨hdigits, (strtoul_of_fits hwhole.1 le_rfl hfits).trans hmag⟩

/-- Cut to `m`, figures are what they are in decimal when there are few enough of them, and no
leading zero makes them octal. -/
theorem figures_mod_eq_iff {m : ℕ} {ds : List Char}
    (h : ∀ c ∈ ds, isDigitIn (figureBase ds) c = true) (hm : 0 < m) :
    numberOf (figureBase ds) ds % m = numberOf 10 ds ↔
      numberOf 10 ds < m ∧ (ds.head? = some '0' → numberOf 10 ds < 8) := by
  by_cases hzero : ds.head? = some '0'
  · have hbase : figureBase ds = 8 := if_pos hzero
    rw [hbase] at h ⊢
    have hle := numberOf_le (p := 8) (q := 10) (by decide) ds
    have heq := numberOf_eq_iff (by decide) (by decide : 8 < 10) h
    constructor
    · intro hmod
      have hlt : numberOf 10 ds < m := hmod ▸ Nat.mod_lt _ hm
      rw [Nat.mod_eq_of_lt (hle.trans_lt hlt)] at hmod
      exact ⟨hlt, fun _ => heq.mp hmod⟩
    · rintro ⟨hlt, h8⟩
      rw [heq.mpr (h8 hzero), Nat.mod_eq_of_lt hlt]
  · have hbase : figureBase ds = 10 := if_neg hzero
    rw [hbase]
    exact ⟨fun hmod => ⟨hmod ▸ Nat.mod_lt _ hm, fun h0 => absurd h0 hzero⟩,
      fun hlt => Nat.mod_eq_of_lt hlt.1⟩

end Lib

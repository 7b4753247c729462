import Mathlib.Algebra.BigOperators.Group.List.Basic
import Mathlib.Data.Nat.Cast.Defs
import Mathlib.Tactic.Ring

/-!
# Cutting extents into bounded pieces

An extent is a start and a length; its bytes are the positions it covers, in
order.  `cut b` splits an extent into pieces of at most `b` bytes, front to back,
which is how a buffer is handed to an engine whose transfers are bounded.

The results the callers use are about lists of extents:

* `bytesOf_cutAll` — cutting loses, repeats and reorders nothing;
* `length_cut` — the number of pieces is `⌈len / b⌉`;
* `drop_cutAll_of_edge` — dropping exactly the pieces of the first `j` extents
  leaves the pieces of the others.

Positions live in any additive monoid with one, so wrapping addresses are
covered.
-/

namespace Lib

universe u

/-- A start and a length. -/
structure Extent (A : Type u) where
  start : A
  len : ℕ
  deriving DecidableEq

namespace Extent

variable {A : Type u} [AddCommMonoidWithOne A]

/-- The positions an extent covers, in order. -/
def bytes (e : Extent A) : List A := (List.range e.len).map fun i : ℕ => e.start + (i : A)

@[simp] theorem length_bytes (e : Extent A) : e.bytes.length = e.len := by
  simp [bytes]

theorem start_mem_bytes {e : Extent A} (h : 0 < e.len) : e.start ∈ e.bytes :=
  List.mem_map.mpr ⟨0, List.mem_range.mpr h, by simp⟩

theorem bytes_append (start : A) (m n : ℕ) :
    (⟨start, m + n⟩ : Extent A).bytes
      = (⟨start, m⟩ : Extent A).bytes ++ (⟨start + (m : A), n⟩ : Extent A).bytes := by
  simp only [bytes, List.range_add, List.map_append, List.map_map]
  congr 1
  refine List.map_congr_left fun i _ => ?_
  simp [Nat.cast_add, add_assoc]

/-- The byte `d` positions into an extent. -/
theorem bytes_split (start : A) {d n : ℕ} (h : d < n) :
    (⟨start, n⟩ : Extent A).bytes =
      (⟨start, d⟩ : Extent A).bytes ++ (start + (d : A)) ::
        (⟨start + (d : A) + 1, n - d - 1⟩ : Extent A).bytes := by
  have hlen : n = d + (1 + (n - d - 1)) := by omega
  conv_lhs => rw [hlen]
  rw [bytes_append, bytes_append]
  simp [bytes]

/-- The bytes of several extents, one after the other. -/
def bytesOf (es : List (Extent A)) : List A := es.flatMap bytes

omit [AddCommMonoidWithOne A] in
/-- The number of bytes of several extents. -/
def total (es : List (Extent A)) : ℕ := (es.map (·.len)).sum

@[simp] theorem bytesOf_nil : bytesOf ([] : List (Extent A)) = [] := rfl

@[simp] theorem bytesOf_cons (e : Extent A) (es : List (Extent A)) :
    bytesOf (e :: es) = e.bytes ++ bytesOf es := by
  simp [bytesOf]

@[simp] theorem bytesOf_append (es fs : List (Extent A)) :
    bytesOf (es ++ fs) = bytesOf es ++ bytesOf fs := by
  simp [bytesOf]

omit [AddCommMonoidWithOne A] in
@[simp] theorem total_nil : total ([] : List (Extent A)) = 0 := rfl

omit [AddCommMonoidWithOne A] in
@[simp] theorem total_cons (e : Extent A) (es : List (Extent A)) :
    total (e :: es) = e.len + total es := by
  simp [total]

omit [AddCommMonoidWithOne A] in
@[simp] theorem total_append (es fs : List (Extent A)) :
    total (es ++ fs) = total es + total fs := by
  simp [total]

omit [AddCommMonoidWithOne A] in
/-- So many bytes at most, in extents of a bounded length. -/
theorem total_le {p : ℕ} {es : List (Extent A)} (h : ∀ e ∈ es, e.len ≤ p) :
    total es ≤ es.length * p := by
  induction es with
  | nil => exact Nat.zero_le _
  | cons e es ih =>
      have hfirst := h e List.mem_cons_self
      have hrest := ih fun f hf => h f (List.mem_cons_of_mem e hf)
      rw [total_cons, List.length_cons, Nat.succ_mul]
      omega

@[simp] theorem length_bytesOf (es : List (Extent A)) : (bytesOf es).length = total es := by
  induction es with
  | nil => rfl
  | cons e es ih => simp [ih]

/-- The bytes start with the start of the first extent. -/
theorem bytesOf_head (e : Extent A) (es : List (Extent A)) (h : 0 < e.len) :
    ∃ tail, bytesOf (e :: es) = e.start :: tail := by
  have hsplit := bytes_split e.start h
  simp only [Nat.cast_zero, add_zero] at hsplit
  exact ⟨_, by rw [bytesOf_cons, hsplit]; simp [bytes]; rfl⟩

/-- Extents that follow one another cover one extent. -/
theorem bytesOf_consecutive :
    ∀ (es : List (Extent A)) (a : A),
      (∀ k e, es[k]? = some e → e.start = a + (total (es.take k) : A)) →
      bytesOf es = (⟨a, total es⟩ : Extent A).bytes := by
  intro es
  induction es with
  | nil => intro a _; rfl
  | cons e es ih =>
      intro a hstart
      have hfirst : e.start = a := by
        have h := hstart 0 e rfl
        rwa [List.take_zero, total_nil, Nat.cast_zero, add_zero] at h
      have hrest := ih (a + (e.len : A)) fun k f hf => by
        have h := hstart (k + 1) f hf
        rwa [List.take_succ_cons, total_cons, Nat.cast_add, ← add_assoc] at h
      rw [bytesOf_cons, hrest, total_cons, bytes_append, ← hfirst]

/-! ## Cutting one extent -/

/-- Split `n` bytes at `start` into pieces of at most `b`, front to back. -/
def cut (b : ℕ) (start : A) (n : ℕ) : List (Extent A) :=
  if _ : n = 0 ∨ b = 0 then []
  else ⟨start, min n b⟩ :: cut b (start + (min n b : ℕ)) (n - min n b)
termination_by n
decreasing_by omega

@[simp] theorem cut_zero (b : ℕ) (start : A) : cut b start 0 = [] := by
  rw [cut]
  simp

theorem cut_pos {b n : ℕ} (hb : 0 < b) (hn : 0 < n) (start : A) :
    cut b start n
      = ⟨start, min n b⟩ :: cut b (start + (min n b : ℕ)) (n - min n b) := by
  rw [cut, dif_neg (by omega)]

/-- Cutting keeps every byte, in order. -/
theorem bytesOf_cut {b : ℕ} (hb : 0 < b) :
    ∀ (n : ℕ) (start : A), bytesOf (cut b start n) = (⟨start, n⟩ : Extent A).bytes := by
  intro n
  induction n using Nat.strong_induction_on with
  | _ n ih =>
      intro start
      rcases Nat.eq_zero_or_pos n with rfl | hn
      · simp [bytes]
      · rw [cut_pos hb hn, bytesOf_cons, ih (n - min n b) (by omega), ← bytes_append,
          Nat.add_sub_cancel' (Nat.min_le_left n b)]

/-- Every piece is non-empty and within the bound. -/
theorem len_of_mem_cut {b : ℕ} :
    ∀ (n : ℕ) (start : A), ∀ e ∈ cut b start n, 0 < e.len ∧ e.len ≤ b := by
  intro n
  induction n using Nat.strong_induction_on with
  | _ n ih =>
      intro start e he
      by_cases hzero : n = 0 ∨ b = 0
      · rw [cut, dif_pos hzero] at he
        simp at he
      · rw [cut, dif_neg hzero, List.mem_cons] at he
        rcases he with rfl | he
        · exact ⟨by simp only; omega, Nat.min_le_right n b⟩
        · exact ih (n - min n b) (by omega) _ e he

/-- No piece is longer than what it was cut from. -/
theorem len_le_of_mem_cut {b : ℕ} :
    ∀ (n : ℕ) (start : A), ∀ e ∈ cut b start n, e.len ≤ n := by
  intro n
  induction n using Nat.strong_induction_on with
  | _ n ih =>
      intro start e he
      by_cases hzero : n = 0 ∨ b = 0
      · rw [cut, dif_pos hzero] at he
        simp at he
      · rw [cut, dif_neg hzero, List.mem_cons] at he
        rcases he with rfl | he
        · exact Nat.min_le_left n b
        · exact (ih (n - min n b) (by omega) _ e he).trans (Nat.sub_le _ _)

/-- The number of pieces is `⌈n / b⌉`. -/
theorem length_cut {b : ℕ} (hb : 0 < b) :
    ∀ (n : ℕ) (start : A), (cut b start n).length = (n + b - 1) / b := by
  intro n
  induction n using Nat.strong_induction_on with
  | _ n ih =>
      intro start
      rcases Nat.eq_zero_or_pos n with rfl | hn
      · rw [cut_zero, List.length_nil, Nat.zero_add, Nat.div_eq_of_lt (by omega)]
      · rw [cut_pos hb hn, List.length_cons, ih (n - min n b) (by omega)]
        rcases Nat.le_total n b with hle | hle
        · have hone : (n + b - 1) / b = 1 :=
            Nat.div_eq_of_lt_le (by omega) (by omega)
          rw [Nat.min_eq_left hle, Nat.sub_self, Nat.zero_add, Nat.div_eq_of_lt (by omega), hone]
        · rw [Nat.min_eq_right hle, show n + b - 1 = (n - b + b - 1) + b by omega,
            Nat.add_div_right _ hb]

/-! ## Cutting a list of extents -/

/-- The pieces of several extents, one after the other. -/
def cutAll (b : ℕ) (es : List (Extent A)) : List (Extent A) :=
  es.flatMap fun e => cut b e.start e.len

@[simp] theorem cutAll_nil (b : ℕ) : cutAll b ([] : List (Extent A)) = [] := rfl

@[simp] theorem cutAll_cons (b : ℕ) (e : Extent A) (es : List (Extent A)) :
    cutAll b (e :: es) = cut b e.start e.len ++ cutAll b es := by
  simp [cutAll]

@[simp] theorem cutAll_append (b : ℕ) (es fs : List (Extent A)) :
    cutAll b (es ++ fs) = cutAll b es ++ cutAll b fs := by
  simp [cutAll]

/-- Cutting a list of extents keeps every byte, in order. -/
theorem bytesOf_cutAll {b : ℕ} (hb : 0 < b) (es : List (Extent A)) :
    bytesOf (cutAll b es) = bytesOf es := by
  induction es with
  | nil => rfl
  | cons e es ih => rw [cutAll_cons, bytesOf_append, bytesOf_cut hb, ih, bytesOf_cons]

theorem total_cutAll {b : ℕ} (hb : 0 < b) (es : List (Extent A)) :
    total (cutAll b es) = total es := by
  rw [← length_bytesOf, bytesOf_cutAll hb, length_bytesOf]

/-- The number of pieces of several extents. -/
theorem length_cutAll {b : ℕ} (hb : 0 < b) (es : List (Extent A)) :
    (cutAll b es).length = (es.map fun e => (e.len + b - 1) / b).sum := by
  induction es with
  | nil => rfl
  | cons e es ih => simp [length_cut hb, ih]

theorem len_of_mem_cutAll {b : ℕ} {es : List (Extent A)} {e : Extent A}
    (he : e ∈ cutAll b es) : 0 < e.len ∧ e.len ≤ b := by
  obtain ⟨s, -, hs⟩ := List.mem_flatMap.mp he
  exact len_of_mem_cut _ _ e hs

theorem len_le_of_mem_cutAll {b p : ℕ} {es : List (Extent A)} (hes : ∀ e ∈ es, e.len ≤ p)
    {e : Extent A} (he : e ∈ cutAll b es) : e.len ≤ p := by
  obtain ⟨s, hs, hcut⟩ := List.mem_flatMap.mp he
  exact (len_le_of_mem_cut _ _ e hcut).trans (hes s hs)

/-- A prefix of the pieces that stops where an extent ends is the pieces of the
first extents. -/
theorem take_cutAll_of_edge (b : ℕ) (es : List (Extent A)) (j : ℕ) :
    (cutAll b es).take (cutAll b (es.take j)).length = cutAll b (es.take j) := by
  conv_lhs => rw [← List.take_append_drop j es, cutAll_append]
  simp

/-- Past the pieces of the first `j` extents come the pieces of the others. -/
theorem drop_cutAll_of_edge (b : ℕ) (es : List (Extent A)) (j : ℕ) :
    (cutAll b es).drop (cutAll b (es.take j)).length = cutAll b (es.drop j) := by
  conv_lhs => rw [← List.take_append_drop j es, cutAll_append]
  simp

omit [AddCommMonoidWithOne A] in
/-- Non-empty pieces: an empty prefix sum is an empty prefix. -/
theorem total_pos_of_ne_nil {es : List (Extent A)} (hpos : ∀ e ∈ es, 0 < e.len)
    (hne : es ≠ []) : 0 < total es := by
  obtain ⟨e, es, rfl⟩ := List.exists_cons_of_ne_nil hne
  have := hpos e (by simp)
  simp only [total_cons]
  omega

end Extent

end Lib

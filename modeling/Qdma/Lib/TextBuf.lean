import Mathlib.Data.Nat.Log
import Mathlib.Tactic.Common

/-!
# Writing text into a buffer of bounded size

A text is written piece by piece into a buffer of `limit` bytes.  A piece can be written
whole, with a terminating zero, whatever room there is (`full`); into the room that is left
(`bounded`); or as one character without a zero (`bare`).

The room of a bounded piece is an unsigned number: behind the end of the buffer there is no
bound any more.

* `Fits` — no byte was written outside, and there is room for the terminating zero;
* `fits_writes_iff`, `fits_writes_concat_iff` — a text fits if and only if its whole length
  does: a piece that is cut short fills the buffer, and what comes next does not fit.
-/

namespace Lib

/-- The text so far; `reach` is one past the last byte written. -/
structure TextBuf where
  text : List Char
  reach : ℕ
  deriving DecidableEq

inductive Piece where
  | full (s : List Char)
  | bounded (s : List Char)
  | bare (c : Char)

namespace Piece

def size : Piece → ℕ
  | full s => s.length
  | bounded s => s.length
  | bare _ => 1

/-- Written whole. -/
def Whole : Piece → Prop
  | full _ => True
  | bounded _ => False
  | bare _ => True

/-- The length of several pieces. -/
def total : List Piece → ℕ
  | [] => 0
  | p :: ps => p.size + total ps

@[simp] theorem total_nil : total [] = 0 := rfl

@[simp] theorem total_cons (p : Piece) (ps : List Piece) : total (p :: ps) = p.size + total ps :=
  rfl

@[simp] theorem total_append (ps qs : List Piece) : total (ps ++ qs) = total ps + total qs := by
  induction ps with
  | nil => exact (Nat.zero_add _).symm
  | cons p ps ih => rw [List.cons_append, total_cons, total_cons, ih, Nat.add_assoc]

end Piece

namespace TextBuf

def empty : TextBuf := ⟨[], 0⟩

/-- `s` and a terminating zero. -/
def append (b : TextBuf) (s : List Char) : TextBuf :=
  ⟨b.text ++ s, max b.reach (b.text.length + s.length + 1)⟩

def write (limit : ℕ) (b : TextBuf) : Piece → TextBuf
  | .full s => b.append s
  | .bounded s =>
      if b.text.length < limit then b.append (s.take (limit - b.text.length - 1))
      else if b.text.length = limit then b
      else b.append s
  | .bare c => ⟨b.text ++ [c], max b.reach (b.text.length + 1)⟩

def writes (limit : ℕ) (b : TextBuf) (ps : List Piece) : TextBuf := ps.foldl (write limit) b

/-- Nothing is outside, and there is a byte for the terminating zero. -/
structure Fits (limit : ℕ) (b : TextBuf) : Prop where
  reach : b.reach ≤ limit
  text : b.text.length < limit

@[simp] theorem writes_nil (limit : ℕ) (b : TextBuf) : b.writes limit [] = b := rfl

@[simp] theorem writes_cons (limit : ℕ) (b : TextBuf) (p : Piece) (ps : List Piece) :
    b.writes limit (p :: ps) = (b.write limit p).writes limit ps := rfl

theorem writes_append (limit : ℕ) (b : TextBuf) (ps qs : List Piece) :
    b.writes limit (ps ++ qs) = (b.writes limit ps).writes limit qs := List.foldl_append

section Write

variable {limit : ℕ} {b : TextBuf} {p : Piece}

@[simp] theorem length_append (b : TextBuf) (s : List Char) :
    (b.append s).text.length = b.text.length + s.length := List.length_append

theorem length_write_whole (h : p.Whole) :
    (b.write limit p).text.length = b.text.length + p.size := by
  cases p with
  | full s => exact length_append b s
  | bounded s => exact h.elim
  | bare c => exact List.length_append

/-- A piece is written whole, or the buffer is full. -/
theorem length_write (limit : ℕ) (b : TextBuf) (p : Piece) :
    (b.write limit p).text.length = b.text.length + p.size ∨
      limit ≤ (b.write limit p).text.length + 1 := by
  cases p with
  | full s => exact Or.inl (length_append b s)
  | bare c => exact Or.inl List.length_append
  | bounded s =>
      unfold write
      dsimp only
      split
      · rw [length_append, List.length_take]
        change _ = b.text.length + s.length ∨ _
        omega
      · split
        · exact Or.inr (by omega)
        · exact Or.inl (length_append b s)

theorem length_le_write (limit : ℕ) (b : TextBuf) (p : Piece) :
    b.text.length ≤ (b.write limit p).text.length ∧
      (b.write limit p).text.length ≤ b.text.length + p.size := by
  cases p with
  | full s =>
      have h : (b.write limit (.full s)).text.length = b.text.length + Piece.size (.full s) :=
        length_write_whole trivial
      omega
  | bare c =>
      have h : (b.write limit (.bare c)).text.length = b.text.length + Piece.size (.bare c) :=
        length_write_whole trivial
      omega
  | bounded s =>
      unfold write Piece.size
      dsimp only
      split
      · rw [length_append, List.length_take]
        omega
      · split
        · omega
        · rw [length_append]
          omega

theorem reach_write (limit : ℕ) (b : TextBuf) (p : Piece) :
    b.reach ≤ (b.write limit p).reach ∧
      (b.write limit p).reach ≤ max b.reach (b.text.length + p.size + 1) := by
  cases p with
  | full s => exact ⟨le_max_left _ _, le_rfl⟩
  | bare c =>
      unfold write Piece.size
      dsimp only
      omega
  | bounded s =>
      unfold write append Piece.size
      dsimp only
      split
      · dsimp only
        rw [List.length_take]
        omega
      · split
        · omega
        · dsimp only
          omega

end Write

section Writes

variable {limit : ℕ}

theorem length_writes_whole : ∀ {ps : List Piece}, (∀ p ∈ ps, p.Whole) → ∀ b : TextBuf,
    (b.writes limit ps).text.length = b.text.length + Piece.total ps := by
  intro ps
  induction ps with
  | nil => intro _ b; rfl
  | cons p ps ih =>
      intro h b
      rw [writes_cons, ih (fun q hq => h q (List.mem_cons_of_mem p hq)),
        length_write_whole (h p List.mem_cons_self), Piece.total_cons, Nat.add_assoc]

theorem length_le_writes (limit : ℕ) : ∀ (ps : List Piece) (b : TextBuf),
    b.text.length ≤ (b.writes limit ps).text.length ∧
      (b.writes limit ps).text.length ≤ b.text.length + Piece.total ps := by
  intro ps
  induction ps with
  | nil => intro b; exact ⟨le_rfl, le_rfl⟩
  | cons p ps ih =>
      intro b
      have hp := length_le_write limit b p
      have hrest := ih (b.write limit p)
      rw [writes_cons, Piece.total_cons]
      omega

/-- The pieces are written whole, or the buffer is full. -/
theorem length_writes (limit : ℕ) : ∀ (ps : List Piece) (b : TextBuf),
    (b.writes limit ps).text.length = b.text.length + Piece.total ps ∨
      limit ≤ (b.writes limit ps).text.length + 1 := by
  intro ps
  induction ps with
  | nil => intro b; exact Or.inl rfl
  | cons p ps ih =>
      intro b
      have hle := (length_le_writes limit ps (b.write limit p)).1
      rw [writes_cons, Piece.total_cons]
      obtain hp | hfull := length_write limit b p
      · obtain hrest | hfull := ih (b.write limit p)
        · exact Or.inl (by omega)
        · exact Or.inr hfull
      · exact Or.inr (by omega)

theorem reach_writes (limit : ℕ) : ∀ (ps : List Piece) (b : TextBuf),
    b.reach ≤ (b.writes limit ps).reach ∧
      (b.writes limit ps).reach ≤ max b.reach (b.text.length + Piece.total ps + 1) := by
  intro ps
  induction ps with
  | nil => intro b; exact ⟨le_rfl, le_max_left _ _⟩
  | cons p ps ih =>
      intro b
      have hp := reach_write limit b p
      have hlen := length_le_write limit b p
      have hrest := ih (b.write limit p)
      rw [writes_cons, Piece.total_cons]
      omega

/-- A text whose length fits. -/
theorem fits_of_total {ps : List Piece} {b : TextBuf} (hreach : b.reach ≤ limit)
    (hlen : b.text.length + Piece.total ps < limit) : Fits limit (b.writes limit ps) := by
  have hr := (reach_writes limit ps b).2
  have hl := (length_le_writes limit ps b).2
  exact ⟨by omega, by omega⟩

/-- **Whole pieces** fit if and only if their length does. -/
theorem fits_writes_iff {ps : List Piece} (h : ∀ p ∈ ps, p.Whole) (b : TextBuf) :
    Fits limit (b.writes limit ps) ↔
      b.reach ≤ limit ∧ b.text.length + Piece.total ps < limit := by
  refine ⟨fun hf => ⟨(reach_writes limit ps b).1.trans hf.reach, ?_⟩, fun hf =>
    fits_of_total hf.1 hf.2⟩
  rw [← length_writes_whole h b]
  exact hf.text

/-- **Any pieces**, the last of which is whole and not empty, fit if and only if their length
does. -/
theorem fits_writes_concat_iff (ps : List Piece) {p : Piece} (hp : p.Whole) (hpos : 0 < p.size)
    (b : TextBuf) :
    Fits limit (b.writes limit (ps ++ [p])) ↔
      b.reach ≤ limit ∧ b.text.length + Piece.total (ps ++ [p]) < limit := by
  refine ⟨fun hf => ⟨(reach_writes limit _ b).1.trans hf.reach, ?_⟩, fun hf =>
    fits_of_total hf.1 hf.2⟩
  have hlast : ((b.writes limit ps).write limit p).text.length =
      (b.writes limit ps).text.length + p.size := length_write_whole hp
  have htext := hf.text
  rw [writes_append, writes_cons, writes_nil, hlast] at htext
  -- a piece cut short would have left no room for the last one
  obtain hwhole | hfull := length_writes limit ps b
  · rw [Piece.total_append, Piece.total_cons, Piece.total_nil]
    omega
  · omega

end Writes

end TextBuf

/-- How many digits a number has. -/
theorem length_toDigits {b : ℕ} (hb : 1 < b) (n : ℕ) :
    (Nat.toDigits b n).length = Nat.log b n + 1 := by
  refine Nat.le_antisymm ?_ ?_
  · exact (Nat.length_toDigits_le_iff hb (Nat.succ_pos _)).mpr (Nat.lt_pow_succ_log_self hb n)
  · by_contra hlt
    have hpos : 0 < (Nat.toDigits b n).length := Nat.length_toDigits_pos
    have hlow : n < b ^ Nat.log b n :=
      (Nat.length_toDigits_le_iff hb (by omega)).mp (by omega)
    have hne : n ≠ 0 := by
      rintro rfl
      rw [Nat.log_zero_right] at hlt
      omega
    exact absurd (Nat.pow_log_le_self b hne) (by omega)

end Lib

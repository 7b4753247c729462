import Qdma.Lib.Balance

/-!
# One owner each

What is taken from outside and not given back is held somewhere in the program: in a slot
of a table, on a list.  `held b` counts the places that hold `b`.  `Owned log held` ties
the log of takings and givings to the places: everything that is out is held, in one
place, and nothing else is.

The rules follow the three things that can happen to a holding: it is taken, it is given
back, it moves.
-/

namespace Lib

universe u

variable {B : Type u} [DecidableEq B]

/-- Taken and not given back. -/
def Out (log : List (Booking B)) (b : B) : Prop := given log b < taken log b

instance (log : List (Booking B)) (b : B) : Decidable (Out log b) :=
  inferInstanceAs (Decidable (_ < _))

/-- Everything that is out is held, in one place. -/
structure Owned (log : List (Booking B)) (held : B → ℕ) : Prop where
  balance : ∀ b, taken log b = given log b + held b
  sole : ∀ b, held b ≤ 1

theorem owned_nil : Owned ([] : List (Booking B)) fun _ => 0 :=
  ⟨fun _ => rfl, fun _ => Nat.zero_le 1⟩

/-- Only what is not out can be taken. -/
theorem out_take {log : List (Booking B)} {a b : B} :
    Out (log ++ [.take a]) b → Out log b ∨ a = b := by
  unfold Out
  rw [given_append, taken_append, given_take, taken_take]
  split
  · rename_i heq
    exact fun _ => Or.inr heq
  · exact fun h => Or.inl (by omega)

/-- What is taken and given back at once is out just where it was before. -/
theorem out_take_give (log : List (Booking B)) (a b : B) :
    Out (log ++ [.take a] ++ [.give a]) b ↔ Out log b := by
  unfold Out
  rw [given_append, given_append, taken_append, taken_append, given_take, taken_take, given_give,
    taken_give]
  split <;> omega

namespace Owned

variable {log : List (Booking B)} {held held' : B → ℕ} (h : Owned log held)
include h

theorem out_iff (b : B) : Out log b ↔ held b = 1 := by
  have hbalance := h.balance b
  have hsole := h.sole b
  unfold Out
  omega

/-- A place for each thing that is out, and a thing that is out in each place. -/
theorem held_eq (b : B) : held b = if Out log b then 1 else 0 := by
  have hout := h.out_iff b
  have hsole := h.sole b
  split
  · rename_i ho
    exact hout.mp ho
  · rename_i ho
    have hne : held b ≠ 1 := fun h1 => ho (hout.mpr h1)
    omega

/-- What moves stays held. -/
theorem congr (heq : ∀ b, held' b = held b) : Owned log held' where
  balance b := by rw [heq b]; exact h.balance b
  sole b := by rw [heq b]; exact h.sole b

/-- **One more**, in a place of its own. -/
theorem take {a : B} (hout : ¬ Out log a)
    (heq : ∀ b, held' b = held b + if a = b then 1 else 0) : Owned (log ++ [.take a]) held' where
  balance b := by
    have hbalance := h.balance b
    rw [given_append, taken_append, given_take, taken_take, heq b]
    omega
  sole b := by
    have hsole := h.sole b
    rw [heq b]
    split
    · rename_i hab
      subst hab
      have hzero := h.held_eq a
      rw [if_neg hout] at hzero
      omega
    · omega

/-- **Some are given back**, and the places that held them hold them no more. -/
theorem gives {as : List B} (heq : ∀ b, held' b + as.count b = held b) :
    Owned (log ++ as.map .give) held' where
  balance b := by
    have hbalance := h.balance b
    have hb := heq b
    rw [given_append, taken_append, given_map_give, taken_map_give]
    omega
  sole b := by
    have hsole := h.sole b
    have hb := heq b
    omega

/-- What is taken and given back at once is held nowhere. -/
theorem take_give (a : B) : Owned (log ++ [.take a] ++ [.give a]) held where
  balance b := by
    have hbalance := h.balance b
    rw [given_append, given_append, taken_append, taken_append, given_take, taken_take, given_give,
      taken_give]
    split <;> omega
  sole := h.sole

end Owned

end Lib

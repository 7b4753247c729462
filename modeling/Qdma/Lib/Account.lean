import Mathlib.Data.List.Basic
import Mathlib.Tactic.Common

/-!
# What is taken is given back, once

The log of one account: things are taken and given back, at most one being out at a
time.  `Settled log out` says that the log is a sequence of matched pairs, each thing
given back as it was taken, followed by the taking of what is still out.
-/

namespace Lib

universe u

/-- An entry of the log. -/
inductive Booking (B : Type u) where
  | take (b : B)
  | give (b : B)
  deriving DecidableEq

variable {B : Type u}

/-- Matched pairs, then what is still out. -/
def Settled (log : List (Booking B)) (out : Option B) : Prop :=
  ∃ bs : List B, log = (bs.flatMap fun b => [Booking.take b, Booking.give b]) ++
    (out.map Booking.take).toList

namespace Settled

theorem nil : Settled ([] : List (Booking B)) none := ⟨[], rfl⟩

theorem take {log : List (Booking B)} (h : Settled log none) (b : B) :
    Settled (log ++ [.take b]) (some b) := by
  obtain ⟨bs, rfl⟩ := h
  exact ⟨bs, by simp⟩

theorem give {log : List (Booking B)} {b : B} (h : Settled log (some b)) :
    Settled (log ++ [.give b]) none := by
  obtain ⟨bs, rfl⟩ := h
  exact ⟨bs ++ [b], by simp⟩

end Settled

end Lib

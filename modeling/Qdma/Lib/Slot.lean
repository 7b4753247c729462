import Mathlib.Data.List.Basic
import Mathlib.Data.List.Range
import Mathlib.Logic.Function.Basic
import Mathlib.Tactic.Common

/-!
# A row of registers that holds one message

Two parties hand a message over in a row of registers and a bit.  The sender writes the words
while the bit is clear and then sets it; the receiver reads the words while it is set and then
clears it.  Neither does its words at once, and nothing but the bit keeps them apart.

* `Slot` has the registers and the bit, and a log of each side.
* `SendMove` and `ReadMove` are what a careful sender and a careful receiver do to it in one
  access.  `Slot.Kept` survives both: what was received is what was sent, whole, once each and
  in order, and no more than one message lags behind.
* `Slot.first i` are the words a party is through with; what the one side holds of them
  survives the moves of the other (`SendMove.of_full`, `ReadMove.writing`).
-/

namespace Lib

universe u

variable {W : Type u}

@[ext] structure Slot (W : Type u) where
  regs : ℕ → W
  full : Bool
  sent : List (List W)
  rcvd : List (List W)

namespace Slot

/-- The first `i` words. -/
def first (s : Slot W) (i : ℕ) : List W := (List.range i).map s.regs

def write (s : Slot W) (i : ℕ) (w : W) : Slot W := { s with regs := Function.update s.regs i w }

def post (s : Slot W) (m : List W) : Slot W := { s with full := true, sent := s.sent ++ [m] }

def take (s : Slot W) (m : List W) : Slot W := { s with full := false, rcvd := s.rcvd ++ [m] }

@[simp] theorem length_first (s : Slot W) (i : ℕ) : (s.first i).length = i := by
  unfold first
  rw [List.length_map, List.length_range]

theorem first_succ (s : Slot W) (i : ℕ) : s.first (i + 1) = s.first i ++ [s.regs i] := by
  unfold first
  rw [List.range_succ, List.map_append]
  rfl

/-- Only the words that are read matter. -/
theorem first_write (s : Slot W) (i : ℕ) (w : W) : (s.write i w).first i = s.first i := by
  unfold first write
  refine List.map_congr_left fun j hj => ?_
  exact Function.update_of_ne (Nat.ne_of_lt (List.mem_range.mp hj)) _ _

/-- Of messages with `n` words. -/
structure Kept (n : ℕ) (s : Slot W) : Prop where
  log : s.sent = s.rcvd ++ if s.full then [s.first n] else []

/-- The sender is through with `i` words of `m`. -/
structure Writing (n i : ℕ) (m : List W) (s : Slot W) : Prop where
  clear : s.full = false
  length : m.length = n
  le : i ≤ n
  words : s.first i = m.take i

/-- The receiver is through with `i` words. -/
structure Reading (n i : ℕ) (acc : List W) (s : Slot W) : Prop where
  set : s.full = true
  le : i ≤ n
  words : acc = s.first i

end Slot

/-- What a careful sender does in one access. -/
inductive SendMove (n : ℕ) (s : Slot W) : Slot W → Prop
  | same : SendMove n s s
  | write (i : ℕ) (w : W) (hclear : s.full = false) : SendMove n s (s.write i w)
  | post {m : List W} (h : s.Writing n n m) : SendMove n s (s.post m)

/-- What a careful receiver does in one access. -/
inductive ReadMove (n : ℕ) (s : Slot W) : Slot W → Prop
  | same : ReadMove n s s
  | take {acc : List W} (h : s.Reading n n acc) : ReadMove n s (s.take acc)

namespace Slot

variable {n i : ℕ} {m acc : List W} {s s' : Slot W}

theorem Kept.send (h : s.Kept n) (hm : SendMove n s s') : s'.Kept n := by
  cases hm with
  | same => exact h
  | write i w hclear =>
      have hlog := h.log
      rw [hclear] at hlog
      refine ⟨hlog.trans ?_⟩
      change _ = s.rcvd ++ if s.full = true then _ else []
      rw [hclear]
      rfl
  | post hw =>
      have hlog := h.log
      rw [hw.clear] at hlog
      have hall := hw.words
      rw [← hw.length, List.take_length, hw.length] at hall
      refine ⟨?_⟩
      change s.sent ++ [_] = s.rcvd ++ [s.first n]
      rw [hlog, hall]
      exact congrArg (· ++ [_]) (List.append_nil _)

theorem Kept.read (h : s.Kept n) (hm : ReadMove n s s') : s'.Kept n := by
  cases hm with
  | same => exact h
  | take hr =>
      have hlog := h.log
      rw [hr.set] at hlog
      refine ⟨?_⟩
      change s.sent = (s.rcvd ++ [_]) ++ []
      rw [hlog, hr.words, List.append_nil]
      rfl

/-- The message that is being read was sent. -/
theorem Kept.mem_sent (h : s.Kept n) (hr : s.Reading n n acc) : acc ∈ s.sent := by
  have hlog := h.log
  rw [hr.set] at hlog
  rw [hlog, hr.words]
  exact List.mem_append_right _ (List.mem_singleton_self _)

theorem Kept.clear_of_sent_nil (h : s.Kept n) (hnil : s.sent = []) : s.full = false := by
  have hlog := h.log
  rw [hnil] at hlog
  cases hfull : s.full with
  | false => rfl
  | true =>
      rw [hfull] at hlog
      exact absurd (congrArg List.length hlog) (by simp)

/-- **What is received is what was sent**, in order, and at most one message is on its way. -/
theorem Kept.delivered (h : s.Kept n) :
    s.rcvd <+: s.sent ∧ s.sent.length ≤ s.rcvd.length + 1 := by
  rw [h.log]
  refine ⟨List.prefix_append _ _, ?_⟩
  rw [List.length_append]
  split
  · exact le_refl _
  · exact Nat.le_succ _

theorem Writing.start (hclear : s.full = false) (hm : m.length = n) : s.Writing n 0 m :=
  ⟨hclear, hm, Nat.zero_le _, rfl⟩

/-- One more word. -/
theorem Writing.next (h : s.Writing n i m) (hi : i < n) {w : W} (hw : m[i]? = some w) :
    (s.write i w).Writing n (i + 1) m := by
  refine ⟨h.clear, h.length, hi, ?_⟩
  have hreg : (s.write i w).regs i = w := Function.update_self ..
  rw [first_succ, first_write, h.words, List.take_add_one, hw, hreg]
  rfl

theorem Reading.start (hset : s.full = true) : s.Reading n 0 [] := ⟨hset, Nat.zero_le _, rfl⟩

theorem Reading.next (h : s.Reading n i acc) (hi : i < n) :
    s.Reading n (i + 1) (acc ++ [s.regs i]) := by
  refine ⟨h.set, hi, ?_⟩
  rw [first_succ, ← h.words]

end Slot

section Moves

variable {n i : ℕ} {m acc : List W} {s s' : Slot W}

/-- A sender does nothing to a message that is being read. -/
theorem SendMove.of_full (hm : SendMove n s s') (hset : s.full = true) : s' = s := by
  cases hm with
  | same => rfl
  | write i w hclear => exact absurd (hset.symm.trans hclear) (by decide)
  | post hw => exact absurd (hset.symm.trans hw.clear) (by decide)

theorem SendMove.rcvd (hm : SendMove n s s') : s'.rcvd = s.rcvd := by
  cases hm with
  | same => rfl
  | write i w hclear => rfl
  | post hw => rfl

theorem ReadMove.sent (hm : ReadMove n s s') : s'.sent = s.sent := by
  cases hm with
  | same => rfl
  | take hr => rfl

theorem ReadMove.first (hm : ReadMove n s s') (i : ℕ) : s'.first i = s.first i := by
  cases hm with
  | same => rfl
  | take _ => rfl

theorem ReadMove.clear (hm : ReadMove n s s') (h : s.full = false) : s'.full = false := by
  cases hm with
  | same => exact h
  | take _ => rfl

theorem ReadMove.writing (hm : ReadMove n s s') (h : s.Writing n i m) : s'.Writing n i m :=
  ⟨hm.clear h.clear, h.length, h.le, (hm.first i).trans h.words⟩

end Moves

end Lib

import Mathlib.Data.List.Perm.Basic
import Mathlib.Logic.Function.Basic

/-!
# Setting up and taking down

Two things an undo is made of.  What was taken piece by piece is given back piece by piece,
from a record of it: nothing is left if the record holds what was taken, in any order
(`giveBack_of_perm`).  What was written to registers is written over: a register reads the
last value written to it (`readBack`).
-/

namespace Lib

universe u v

variable {α : Type u} {β : Type v} [DecidableEq α]

/-- The pieces `ks` are given back one by one. -/
def giveBack (held ks : List α) : List α := ks.foldl List.erase held

@[simp] theorem giveBack_nil (held : List α) : giveBack held [] = held := rfl

@[simp] theorem giveBack_cons (held ks : List α) (k : α) :
    giveBack held (k :: ks) = giveBack (held.erase k) ks := rfl

/-- **Everything is given back**, whatever the order. -/
theorem giveBack_of_perm :
    ∀ {ks held : List α}, held.Perm ks → giveBack held ks = [] := by
  intro ks
  induction ks with
  | nil => intro held h; exact h.eq_nil
  | cons k ks ih =>
      intro held h
      have hrest := h.erase k
      rw [List.erase_cons_head] at hrest
      exact ih hrest

/-- What a register file holds after some writes. -/
def readBack (writes : List (α × β)) (init : α → β) : α → β :=
  writes.foldl (fun regs w => Function.update regs w.1 w.2) init

theorem readBack_append (ws ws' : List (α × β)) (init : α → β) :
    readBack (ws ++ ws') init = readBack ws' (readBack ws init) := by
  unfold readBack
  rw [List.foldl_append]

/-- A register that is not written. -/
theorem readBack_of_notMem :
    ∀ {ws : List (α × β)} {init : α → β} {a : α}, (∀ w ∈ ws, w.1 ≠ a) →
      readBack ws init a = init a := by
  intro ws
  induction ws with
  | nil => intro init a _; rfl
  | cons w ws ih =>
      intro init a h
      have hne : a ≠ w.1 := (h w List.mem_cons_self).symm
      have hrest : readBack ws (Function.update init w.1 w.2) a =
          Function.update init w.1 w.2 a := ih fun w' hw' => h w' (List.mem_cons_of_mem _ hw')
      exact hrest.trans (Function.update_of_ne hne _ _)

/-- A register that the same value is written to by all. -/
theorem readBack_of_forall :
    ∀ {ws : List (α × β)} {init : α → β} {a : α} {b : β},
      (∀ w ∈ ws, w.1 = a → w.2 = b) → (∃ w ∈ ws, w.1 = a) ∨ init a = b →
        readBack ws init a = b := by
  intro ws
  induction ws with
  | nil =>
      rintro init a b - (⟨w, hw, -⟩ | h)
      · cases hw
      · exact h
  | cons w ws ih =>
      intro init a b hall h
      change readBack ws (Function.update init w.1 w.2) a = b
      refine ih (fun w' hw' => hall w' (List.mem_cons_of_mem _ hw')) ?_
      by_cases hw : w.1 = a
      · right
        rw [hw, Function.update_self]
        exact hall w List.mem_cons_self hw
      · obtain ⟨w', hmem, hw'⟩ | hinit := h
        · obtain rfl | hmem := List.mem_cons.mp hmem
          · exact absurd hw' hw
          · exact Or.inl ⟨w', hmem, hw'⟩
        · right
          rw [Function.update_of_ne (Ne.symm hw)]
          exact hinit

end Lib

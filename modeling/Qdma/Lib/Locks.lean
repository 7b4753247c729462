import Mathlib.Data.List.Basic
import Mathlib.Tactic.Common

/-!
# Lock operations along a path

A path through a program takes and releases locks.  `holds` runs the operations of a path
against the locks held at its start; it is undefined where a lock is released that is not
held, or taken by its own holder.

* `Balanced` paths start and end without locks.
* `Neutral A` paths leave what is held alone whenever that is outside of `A`, the locks
  the path uses.  They compose: one after the other (`Neutral.append`), one inside the
  critical section of a lock outside of `A` (`Neutral.critical`).

The locks are of any type.
-/

namespace Lib

/-- An operation on a lock. -/
inductive LockOp (L : Type*) where
  | acquire (l : L)
  | release (l : L)
  deriving DecidableEq

section Locks

variable {L : Type*} [DecidableEq L]

/-- The locks held after a path, the latest first. -/
def holds : List L → List (LockOp L) → Option (List L)
  | held, [] => some held
  | held, .acquire l :: ops => if l ∈ held then none else holds (l :: held) ops
  | held, .release l :: ops => if l ∈ held then holds (held.erase l) ops else none

/-- A path that starts and ends without locks. -/
def Balanced (ops : List (LockOp L)) : Prop := holds [] ops = some []

instance (ops : List (LockOp L)) : Decidable (Balanced ops) :=
  inferInstanceAs (Decidable (holds [] ops = some []))

/-- `lock` and at once `unlock`. -/
def critical (l : L) (ops : List (LockOp L)) : List (LockOp L) :=
  .acquire l :: (ops ++ [.release l])

theorem holds_append (held : List L) (ops ops' : List (LockOp L)) :
    holds held (ops ++ ops') = (holds held ops).bind fun held => holds held ops' := by
  induction ops generalizing held with
  | nil => rfl
  | cons op ops ih =>
      cases op with
      | acquire l =>
          simp only [List.cons_append, holds]
          split
          · rfl
          · exact ih _
      | release l =>
          simp only [List.cons_append, holds]
          split
          · exact ih _
          · rfl

/-- A path that uses only locks of `A` and gives back what it takes. -/
def Neutral (A : L → Prop) (ops : List (LockOp L)) : Prop :=
  ∀ held : List L, (∀ l ∈ held, ¬ A l) → holds held ops = some held

theorem Neutral.balanced {A : L → Prop} {ops : List (LockOp L)} (h : Neutral A ops) :
    Balanced ops := h [] (by simp)

theorem neutral_nil (A : L → Prop) : Neutral A ([] : List (LockOp L)) := fun _ _ => rfl

theorem Neutral.mono {A B : L → Prop} {ops : List (LockOp L)} (h : Neutral A ops)
    (hAB : ∀ l, A l → B l) : Neutral B ops :=
  fun held hheld => h held fun l hl hA => hheld l hl (hAB l hA)

theorem Neutral.append {A : L → Prop} {ops ops' : List (LockOp L)} (h : Neutral A ops)
    (h' : Neutral A ops') : Neutral A (ops ++ ops') := by
  intro held hheld
  rw [holds_append, h held hheld]
  exact h' held hheld

theorem Neutral.ite {A : L → Prop} {ops ops' : List (LockOp L)} {c : Prop} [Decidable c]
    (h : Neutral A ops) (h' : Neutral A ops') : Neutral A (if c then ops else ops') := by
  split
  · exact h
  · exact h'

theorem Neutral.flatMap {α : Type*} {A : L → Prop} {f : α → List (LockOp L)}
    (h : ∀ x, Neutral A (f x)) (xs : List α) : Neutral A (xs.flatMap f) := by
  induction xs with
  | nil => exact neutral_nil A
  | cons x xs ih =>
      rw [List.flatMap_cons]
      exact (h x).append ih

/-- A critical section around a path that does not use its lock. -/
theorem Neutral.critical {A B : L → Prop} {ops : List (LockOp L)} {l : L} (h : Neutral A ops)
    (hAB : ∀ x, A x → B x) (hB : B l) (hA : ¬ A l) : Neutral B (critical l ops) := by
  intro held hheld
  have hfree : l ∉ held := fun hmem => hheld l hmem hB
  have hinner : holds (l :: held) ops = some (l :: held) := by
    refine h (l :: held) fun x hx hax => ?_
    rcases List.mem_cons.mp hx with rfl | hx
    · exact hA hax
    · exact hheld x hx (hAB x hax)
  unfold Lib.critical
  simp only [holds, if_neg hfree]
  rw [holds_append, hinner]
  simp [holds]

/-- A critical section with nothing in it. -/
theorem neutral_pair {B : L → Prop} {l : L} (hB : B l) : Neutral B (Lib.critical l []) :=
  (neutral_nil fun _ => False).critical (fun _ hx => hx.elim) hB id

/-- What follows a path that ends without locks decides. -/
theorem Balanced.append_iff {ops ops' : List (LockOp L)} (h : Balanced ops) :
    Balanced (ops ++ ops') ↔ Balanced ops' := by
  unfold Balanced at h ⊢
  rw [holds_append, h]
  rfl

theorem not_balanced_release (l : L) : ¬ Balanced [LockOp.release l] := by simp [Balanced, holds]

theorem not_balanced_acquire (l : L) : ¬ Balanced [LockOp.acquire l] := by simp [Balanced, holds]

end Locks

end Lib

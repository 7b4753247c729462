import Mathlib.Data.Set.Insert
import Mathlib.Tactic.Common

/-!
# Going to sleep without missing a wakeup

A thread that serves several items may sleep when none of them has work.  Others give
the items work and then wake the thread, in two steps that anything can come between.
What makes this safe is an order: the thread first *announces* that it will sleep, then
looks at every item, and sleeps only if none has work; a wakeup takes the announcement
back.

`Watched` is the invariant behind it.  As long as the announcement stands, an item that
was looked at after it and has work again is the work of someone whose wakeup is still
to come.  What was not looked at after the announcement is not covered: a request that
the thread looked at *before* it can be missed.
-/

namespace Lib

variable {ι : Type*}

/-- What is known about a thread that is about to sleep, or asleep: whether its
announcement stands, the items it has looked at since, the items that have work, and
whether a wakeup is still to come. -/
structure Watch (ι : Type*) where
  announced : Prop
  looked : Set ι
  work : Set ι
  coming : Prop

/-- Work that has come up behind the thread's back is someone's who will wake it. -/
def Watched (w : Watch ι) : Prop := w.announced → ∀ i ∈ w.looked, i ∈ w.work → w.coming

namespace Watched

variable {w w' : Watch ι}

/-- Without an announcement there is nothing to miss. -/
theorem of_not_announced (h : ¬ w.announced) : Watched w := fun ha => absurd ha h

/-- Right after the announcement nothing was looked at. -/
theorem of_unlooked (h : w.looked = ∅) : Watched w := by
  intro _ i hi
  rw [h] at hi
  exact absurd hi (Set.notMem_empty i)

/-- **One more look**, at an item without work. -/
theorem look (h : Watched w) {i : ι} (hidle : i ∉ w.work) :
    Watched { w with looked := insert i w.looked } := by
  intro ha j hj hwork
  rcases Set.mem_insert_iff.mp hj with rfl | hj
  · exact absurd hwork hidle
  · exact h ha j hj hwork

/-- **What others may do**: an item that was looked at gets work only from someone whose
wakeup is still to come, and a wakeup that was to come still is. -/
theorem mono (h : Watched w) (hannounced : w'.announced → w.announced)
    (hlooked : w'.looked ⊆ w.looked) (hcoming : w.coming → w'.coming)
    (hwork : ∀ i ∈ w'.looked, i ∈ w'.work → i ∈ w.work ∨ w'.coming) : Watched w' := by
  intro ha i hi hwork'
  rcases hwork i hi hwork' with hold | hnew
  · exact hcoming (h (hannounced ha) i (hlooked hi) hold)
  · exact hnew

/-- **The sleeper misses nothing**: once it has looked at everything and nobody is to
wake it, no item has work. -/
theorem idle (h : Watched w) (hannounced : w.announced) (hnobody : ¬ w.coming) {i : ι}
    (hi : i ∈ w.looked) : i ∉ w.work :=
  fun hwork => hnobody (h hannounced i hi hwork)

end Watched

end Lib

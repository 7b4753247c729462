import Mathlib.Data.Int.ModEq
import Mathlib.Data.List.Nodup
import Mathlib.Tactic.Common

/-!
# Indexes handed out in order

The entries of a list are numbered as they are added at its end, each with the number after
that of the entry before it; what is kept of a number is an index, the number modulo `n`.
Entries leave from anywhere in the list.

* `Numbered n idx ser l` says that the indexes of `l` are those of the numbers `ser`, which
  grow along the list and span less than `n`.
* `Numbered.nodup`: then no index occurs twice.
* `Numbered.concat` is the one step that can go wrong: an entry is added whose index is not
  that of the first.
-/

namespace Lib

universe u

variable {α : Type u}

/-- The indexes of `l` come from numbers that grow along it and span less than `n`. -/
structure Numbered (n : ℕ) (idx ser : α → ℕ) (l : List α) : Prop where
  order : l.Pairwise fun a b => ser a < ser b
  index : ∀ a ∈ l, idx a = ser a % n
  span : ∀ a ∈ l, ∀ b ∈ l, ser b < ser a + n

namespace Numbered

variable {n : ℕ} {idx ser : α → ℕ} {l : List α}

theorem nil (n : ℕ) (idx ser : α → ℕ) : Numbered n idx ser [] where
  order := List.Pairwise.nil
  index _ h := absurd h List.not_mem_nil
  span _ h := absurd h List.not_mem_nil

/-- Entries may leave. -/
theorem sublist (h : Numbered n idx ser l) {l' : List α} (hsub : l'.Sublist l) :
    Numbered n idx ser l' where
  order := h.order.sublist hsub
  index a ha := h.index a (hsub.subset ha)
  span a ha b hb := h.span a (hsub.subset ha) b (hsub.subset hb)

/-- Numbers that span less than `n` have different indexes. -/
theorem index_ne {a b : α} (h : Numbered n idx ser l) (ha : a ∈ l) (hb : b ∈ l)
    (hlt : ser a < ser b) : idx a ≠ idx b := by
  rw [h.index a ha, h.index b hb]
  intro heq
  have hspan := h.span a ha b hb
  have hdvd : n ∣ ser b - ser a := (Nat.modEq_iff_dvd' hlt.le).mp heq
  exact absurd (Nat.le_of_dvd (by omega) hdvd) (by omega)

/-- **No index occurs twice.** -/
theorem nodup (h : Numbered n idx ser l) : (l.map idx).Nodup := by
  refine List.pairwise_map.mpr ?_
  exact h.order.imp_of_mem fun ha hb hlt => h.index_ne ha hb hlt

/-- The numbers lie between that of the first entry and that of the last. -/
theorem le_last (h : Numbered n idx ser l) {last : α} (hlast : l.getLast? = some last) :
    ∀ a ∈ l, ser a ≤ ser last := by
  intro a ha
  obtain ⟨init, rfl⟩ := List.getLast?_eq_some_iff.mp hlast
  obtain hinit | heq := List.mem_append.mp ha
  · exact ((List.pairwise_append.mp h.order).2.2 a hinit last List.mem_cons_self).le
  · rw [List.mem_singleton.mp heq]

theorem first_le (h : Numbered n idx ser l) {first : α} (hfirst : l.head? = some first) :
    ∀ a ∈ l, ser first ≤ ser a := by
  intro a ha
  cases l with
  | nil => cases ha
  | cons b rest =>
      cases hfirst
      obtain rfl | hrest := List.mem_cons.mp ha
      · exact le_rfl
      · exact ((List.pairwise_cons.mp h.order).1 a hrest).le

/-- **An entry is added**: it has the index after the last one's, and that is not the
first one's. -/
theorem concat (h : Numbered n idx ser l) {first last new : α} (hfirst : l.head? = some first)
    (hlast : l.getLast? = some last) (hnew : new ∉ l) (hidx : idx new = (idx last + 1) % n)
    (hne : idx new ≠ idx first) : ∃ ser', Numbered n idx ser' (l ++ [new]) := by
  classical
  have hmemFirst : first ∈ l := List.mem_of_head? hfirst
  have hmemLast : last ∈ l := List.mem_of_getLast? hlast
  have hnumber : idx new = (ser last + 1) % n := by
    rw [hidx, h.index last hmemLast, Nat.mod_add_mod]
  -- the only number in the list that could have the new index is the first
  have hspan : ser last + 1 < ser first + n := by
    refine lt_of_le_of_ne (h.span first hmemFirst last hmemLast) fun heq => hne ?_
    rw [hnumber, heq, Nat.add_mod_right, h.index first hmemFirst]
  refine ⟨Function.update ser new (ser last + 1), ?_⟩
  have hold : ∀ a ∈ l, Function.update ser new (ser last + 1) a = ser a := by
    intro a ha
    refine Function.update_of_ne ?_ _ _
    rintro rfl
    exact hnew ha
  have hself : Function.update ser new (ser last + 1) new = ser last + 1 :=
    Function.update_self _ _ _
  refine ⟨?_, ?_, ?_⟩
  · refine List.pairwise_append.mpr ⟨?_, List.pairwise_singleton _ _, ?_⟩
    · refine h.order.imp_of_mem fun ha hb hlt => ?_
      rw [hold _ ha, hold _ hb]
      exact hlt
    · intro a ha b hb
      rw [List.mem_singleton.mp hb, hself, hold a ha]
      exact Nat.lt_succ_of_le (h.le_last hlast a ha)
  · intro a ha
    obtain hin | heq := List.mem_append.mp ha
    · rw [hold a hin]
      exact h.index a hin
    · rw [List.mem_singleton.mp heq, hself]
      exact hnumber
  · intro a ha b hb
    have hbound : Function.update ser new (ser last + 1) b ≤ ser last + 1 := by
      obtain hin | heq := List.mem_append.mp hb
      · rw [hold b hin]
        exact (h.le_last hlast b hin).trans (Nat.le_succ _)
      · rw [List.mem_singleton.mp heq, hself]
    obtain hin | heq := List.mem_append.mp ha
    · rw [hold a hin]
      have hfirstLe := h.first_le hfirst a hin
      omega
    · rw [List.mem_singleton.mp heq, hself]
      have hpos : ser first ≤ ser last := h.first_le hfirst last hmemLast
      omega

theorem singleton (hn : 0 < n) (ser : α → ℕ) {a : α} (hidx : idx a = ser a % n) :
    Numbered n idx ser [a] where
  order := List.pairwise_singleton _ _
  index b hb := by
    rw [List.mem_singleton.mp hb]
    exact hidx
  span b hb c hc := by
    rw [List.mem_singleton.mp hb, List.mem_singleton.mp hc]
    omega

end Numbered

end Lib

import Mathlib.Data.Set.Insert
import Mathlib.Logic.Function.Basic
import Mathlib.Tactic.Common

/-!
# Objects and their keepers

Objects are made and destroyed by keepers, each of which goes through phases and knows what it
has.  Others come by an object in some other way, from a list or a field, and touch it without
asking its keeper.

`Custody has alive` says that the objects alive are those some keeper has, and that no two keepers
have the same one.  A keeper that makes an object takes it (`Custody.take`), one that destroys it
drops it (`Custody.drop`); in between it may change its phase (`Custody.same`).  What a touch finds
is then a question about the keepers' phases and no longer about memory.
-/

namespace Lib

universe u v

variable {D : Type u} {O : Type v}

/-- The objects alive are those that some keeper has, and each has one keeper. -/
structure Custody (has : D → Set O) (alive : Set O) : Prop where
  alive_iff : ∀ o, o ∈ alive ↔ ∃ d, o ∈ has d
  unique : ∀ {d e o}, o ∈ has d → o ∈ has e → d = e

namespace Custody

variable {has has' : D → Set O} {alive alive' : Set O} {d : D} {o : O}

theorem alive_of_has (h : Custody has alive) (ho : o ∈ has d) : o ∈ alive :=
  (h.alive_iff o).mpr ⟨d, ho⟩

/-- Nobody has what is not alive. -/
theorem not_has (h : Custody has alive) (ho : o ∉ alive) (d : D) : o ∉ has d :=
  fun hd => ho (h.alive_of_has hd)

theorem empty : Custody (fun _ : D => (∅ : Set O)) ∅ where
  alive_iff _ := ⟨fun h => absurd h (Set.notMem_empty _), fun ⟨_, h⟩ => h⟩
  unique h := absurd h (Set.notMem_empty _)

/-- A keeper changes its phase. -/
theorem same (h : Custody has alive) (hhas : ∀ e, has' e = has e) (halive : alive' = alive) :
    Custody has' alive' := by
  rw [show has' = has from funext hhas, halive]
  exact h

/-- **A new object** is made by a keeper. -/
theorem take (h : Custody has alive) (hnew : o ∉ alive) (hd : has' d = insert o (has d))
    (hother : ∀ e, e ≠ d → has' e = has e) (halive : alive' = insert o alive) :
    Custody has' alive' where
  alive_iff o' := by
    rw [halive]
    constructor
    · rintro (rfl | hold)
      · exact ⟨d, hd.symm ▸ Set.mem_insert _ _⟩
      · obtain ⟨e, he⟩ := (h.alive_iff o').mp hold
        rcases eq_or_ne e d with rfl | hne
        · exact ⟨e, hd.symm ▸ Set.mem_insert_of_mem _ he⟩
        · exact ⟨e, (hother e hne).symm ▸ he⟩
    · rintro ⟨e, he⟩
      rcases eq_or_ne e d with rfl | hne
      · rw [hd] at he
        exact he.imp id fun hold => h.alive_of_has hold
      · rw [hother e hne] at he
        exact Or.inr (h.alive_of_has he)
  unique := by
    -- what nobody had, only `d` has now
    have hwho : ∀ {e o'}, o' ∈ has' e → o' ∈ has e ∨ o' = o ∧ e = d := by
      intro e o' he
      rcases eq_or_ne e d with rfl | hne
      · rw [hd] at he
        exact he.elim (fun heq => Or.inr ⟨heq, rfl⟩) Or.inl
      · exact Or.inl (hother e hne ▸ he)
    intro e f o' he hf
    rcases hwho he with hold | ⟨rfl, rfl⟩
    · rcases hwho hf with hold' | ⟨rfl, rfl⟩
      · exact h.unique hold hold'
      · exact absurd hold (h.not_has hnew e)
    · rcases hwho hf with hold' | ⟨-, rfl⟩
      · exact absurd hold' (h.not_has hnew f)
      · rfl

/-- **An object is destroyed** by its keeper. -/
theorem drop (h : Custody has alive) (ho : o ∈ has d) (hd : has' d = has d \ {o})
    (hother : ∀ e, e ≠ d → has' e = has e) (halive : alive' = alive \ {o}) :
    Custody has' alive' where
  alive_iff o' := by
    rw [halive]
    constructor
    · rintro ⟨hold, hne⟩
      obtain ⟨e, he⟩ := (h.alive_iff o').mp hold
      rcases eq_or_ne e d with rfl | hed
      · exact ⟨e, hd.symm ▸ ⟨he, hne⟩⟩
      · exact ⟨e, (hother e hed).symm ▸ he⟩
    · rintro ⟨e, he⟩
      rcases eq_or_ne e d with rfl | hed
      · rw [hd] at he
        exact ⟨h.alive_of_has he.1, he.2⟩
      · rw [hother e hed] at he
        refine ⟨h.alive_of_has he, ?_⟩
        rintro rfl
        exact hed (h.unique he ho)
  unique := by
    have hless : ∀ {e o'}, o' ∈ has' e → o' ∈ has e := by
      intro e o' he
      rcases eq_or_ne e d with rfl | hne
      · rw [hd] at he
        exact he.1
      · exact hother e hne ▸ he
    intro e f o' he hf
    exact h.unique (hless he) (hless hf)

end Custody

end Lib

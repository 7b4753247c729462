import Mathlib.Data.List.Basic
import Mathlib.Tactic.Common

/-!
# Guarded runs and the invariants they keep

A program that is driven from outside (by system calls, by interrupts, by the
hardware it controls) is a step function on a state together with a *guard*:
the guard says which events can really occur in which state.  Everything proved
about such a program "in every reachable state" is a statement about guarded
runs.

* `System` packs the step function with the guard.
* `System.Admits s es` says that the run `es` from `s` respects the guard at
  every step, and `System.exec s es` is the state it ends in.
* `System.restrict` strengthens the guard.  A property that holds only of the
  runs that avoid some misuse is stated over the restricted system.
* `System.invariant` is the one induction: an invariant kept by every guarded
  step is kept by every guarded run.

The carrier types are arbitrary; nothing here is about a particular program.
-/

namespace Lib

universe u v w

/-- A step function on states `S`, driven by events `E`, with the guard that
says which events can occur where. -/
structure System (S : Type u) (E : Type v) where
  step : S → E → S
  guard : S → E → Prop

namespace System

variable {S : Type u} {E : Type v} (sys : System S E)

/-- The state a run ends in. -/
def exec (s : S) (es : List E) : S := es.foldl sys.step s

/-- The run respects the guard at every step. -/
def Admits : S → List E → Prop
  | _, [] => True
  | s, e :: es => sys.guard s e ∧ Admits (sys.step s e) es

@[simp] theorem exec_nil (s : S) : sys.exec s [] = s := rfl

@[simp] theorem exec_cons (s : S) (e : E) (es : List E) :
    sys.exec s (e :: es) = sys.exec (sys.step s e) es := rfl

@[simp] theorem admits_nil (s : S) : sys.Admits s [] := trivial

@[simp] theorem admits_cons (s : S) (e : E) (es : List E) :
    sys.Admits s (e :: es) ↔ sys.guard s e ∧ sys.Admits (sys.step s e) es := Iff.rfl

theorem exec_append (s : S) (es fs : List E) :
    sys.exec s (es ++ fs) = sys.exec (sys.exec s es) fs := List.foldl_append

/-- A run in two parts. -/
theorem admits_append (s : S) (es fs : List E) :
    sys.Admits s (es ++ fs) ↔ sys.Admits s es ∧ sys.Admits (sys.exec s es) fs := by
  induction es generalizing s with
  | nil => simp
  | cons e es ih => simp [ih, and_assoc]

/-- Where any event can occur at any time, every run is admitted. -/
theorem admits_free (hfree : ∀ s e, sys.guard s e) : ∀ (es : List E) (s : S), sys.Admits s es
  | [], _ => trivial
  | e :: es, s => ⟨hfree s e, admits_free hfree es (sys.step s e)⟩

instance decidableAdmits [∀ s e, Decidable (sys.guard s e)] :
    ∀ (s : S) (es : List E), Decidable (sys.Admits s es)
  | _, [] => inferInstanceAs (Decidable True)
  | s, e :: es =>
      have := decidableAdmits (sys.step s e) es
      inferInstanceAs (Decidable (sys.guard s e ∧ sys.Admits (sys.step s e) es))

/-- **The invariant rule.**  What holds at the start and is kept by every
guarded step holds at the end of every guarded run. -/
theorem invariant {I : S → Prop}
    (hstep : ∀ s e, I s → sys.guard s e → I (sys.step s e)) :
    ∀ (es : List E) {s : S}, I s → sys.Admits s es → I (sys.exec s es) := by
  intro es
  induction es with
  | nil => intro s hs _; exact hs
  | cons e es ih =>
      intro s hs hrun
      obtain ⟨hg, hrest⟩ := hrun
      exact ih (hstep s e hs hg) hrest

/-- The same rule where any event can occur at any time. -/
theorem invariant_free {I : S → Prop} (hstep : ∀ s e, I s → I (sys.step s e)) :
    ∀ (es : List E) {s : S}, I s → I (sys.exec s es) := by
  intro es
  induction es with
  | nil => intro s hs; exact hs
  | cons e es ih =>
      intro s hs
      exact ih (hstep s e hs)

/-- The same step function under a stronger guard. -/
def restrict (cond : S → E → Prop) : System S E where
  step := sys.step
  guard s e := sys.guard s e ∧ cond s e

@[simp] theorem restrict_step (cond : S → E → Prop) :
    (sys.restrict cond).step = sys.step := rfl

@[simp] theorem restrict_guard (cond : S → E → Prop) (s : S) (e : E) :
    (sys.restrict cond).guard s e ↔ sys.guard s e ∧ cond s e := Iff.rfl

/-- A run under the stronger guard is a run. -/
theorem admits_of_restrict {cond : S → E → Prop} :
    ∀ (es : List E) {s : S}, (sys.restrict cond).Admits s es → sys.Admits s es := by
  intro es
  induction es with
  | nil => exact fun _ => trivial
  | cons e es ih => exact fun h => ⟨h.1.1, ih h.2⟩

/-- Every step of a run has the property `P` of the state before it, the event and the
state after it. -/
def EachStep (P : S → E → S → Prop) : S → List E → Prop
  | _, [] => True
  | s, e :: es => P s e (sys.step s e) ∧ EachStep P (sys.step s e) es

instance decidableEachStep {P : S → E → S → Prop} [∀ s e t, Decidable (P s e t)] :
    ∀ (s : S) (es : List E), Decidable (sys.EachStep P s es)
  | _, [] => inferInstanceAs (Decidable True)
  | s, e :: es =>
      have := decidableEachStep (P := P) (sys.step s e) es
      inferInstanceAs (Decidable (P s e (sys.step s e) ∧ EachStep sys P (sys.step s e) es))

/-- The steps of a run in two parts. -/
theorem eachStep_append {P : S → E → S → Prop} (s : S) (es fs : List E) :
    sys.EachStep P s (es ++ fs) ↔ sys.EachStep P s es ∧ sys.EachStep P (sys.exec s es) fs := by
  induction es generalizing s with
  | nil => exact ⟨fun h => ⟨trivial, h⟩, fun h => h.2⟩
  | cons e es ih =>
      constructor
      · rintro ⟨hright, hlater⟩
        obtain ⟨hes, hfs⟩ := (ih _).mp hlater
        exact ⟨⟨hright, hes⟩, hfs⟩
      · rintro ⟨⟨hright, hes⟩, hfs⟩
        exact ⟨hright, (ih _).mpr ⟨hes, hfs⟩⟩

/-- **When all steps of a run are right**: if a step from a state of the invariant is right
just where it meets a condition, and right steps keep the invariant, then all steps of a
run are right just where all of them meet the condition. -/
theorem eachStep_iff_admits {I : S → Prop} {P : S → E → S → Prop} {cond : S → E → Prop}
    (hstep : ∀ s e, I s → sys.guard s e → (P s e (sys.step s e) ↔ cond s e))
    (hkeep : ∀ s e, I s → sys.guard s e → P s e (sys.step s e) → I (sys.step s e)) :
    ∀ (es : List E) {s : S}, I s → sys.Admits s es →
      (sys.EachStep P s es ↔ (sys.restrict cond).Admits s es) := by
  intro es
  induction es with
  | nil => intro s _ _; exact Iff.rfl
  | cons e es ih =>
      intro s hs hrun
      obtain ⟨hg, hrest⟩ := hrun
      constructor
      · rintro ⟨hright, hlater⟩
        exact ⟨⟨hg, (hstep s e hs hg).mp hright⟩,
          (ih (hkeep s e hs hg hright) hrest).mp hlater⟩
      · rintro ⟨⟨-, hcond⟩, hlater⟩
        have hright := (hstep s e hs hg).mpr hcond
        exact ⟨hright, (ih (hkeep s e hs hg hright) hrest).mpr hlater⟩

/-- One direction of it: steps that meet the condition are right and keep the invariant. -/
theorem eachStep_restrict {I : S → Prop} {P : S → E → S → Prop} {cond : S → E → Prop}
    (hstep : ∀ s e, I s → sys.guard s e → cond s e →
      P s e (sys.step s e) ∧ I (sys.step s e)) :
    ∀ (es : List E) {s : S}, I s → (sys.restrict cond).Admits s es → sys.EachStep P s es := by
  intro es
  induction es with
  | nil => intro s _ _; exact trivial
  | cons e es ih =>
      intro s hs hrun
      obtain ⟨⟨hg, hcond⟩, hrest⟩ := hrun
      obtain ⟨hright, hkeep⟩ := hstep s e hs hg hcond
      exact ⟨hright, ih hkeep hrest⟩

/-- **A mistake that may show one step later**: a step that breaks a condition is right itself
only where `Q` says so, and whatever comes next is wrong.  All steps of a run are right just
where all but the last meet the condition, and the last one does or has `Q`. -/
theorem eachStep_iff_admits_dropLast {G B : S → Prop} {P : S → E → S → Prop}
    {cond Q : S → E → Prop}
    (hright : ∀ s e, G s → (P s e (sys.step s e) ↔ cond s e ∨ Q s e))
    (hkeep : ∀ s e, G s → cond s e → G (sys.step s e))
    (hbreak : ∀ s e, G s → ¬ cond s e → B (sys.step s e))
    (hwrong : ∀ s e, B s → ¬ P s e (sys.step s e)) :
    ∀ (es : List E) {s : S}, G s → sys.Admits s es →
      (sys.EachStep P s es ↔ (sys.restrict cond).Admits s es.dropLast ∧
        ∀ e ∈ es.getLast?, cond (sys.exec s es.dropLast) e ∨ Q (sys.exec s es.dropLast) e) := by
  intro es
  induction es with
  | nil => exact fun _ _ => ⟨fun _ => ⟨trivial, fun _ he => nomatch he⟩, fun _ => trivial⟩
  | cons e es ih =>
      intro s hs hrun
      obtain ⟨hg, hrest⟩ := hrun
      cases es with
      | nil =>
          constructor
          · rintro ⟨h, -⟩
            refine ⟨trivial, ?_⟩
            rintro _ ⟨⟩
            exact (hright s e hs).mp h
          · rintro ⟨-, hlast⟩
            exact ⟨(hright s e hs).mpr (hlast e rfl), trivial⟩
      | cons e' es =>
          rw [List.getLast?_cons_cons]
          by_cases hcond : cond s e
          · have htail := ih (hkeep s e hs hcond) hrest
            constructor
            · rintro ⟨-, hlater⟩
              obtain ⟨hes, hlast⟩ := htail.mp hlater
              exact ⟨⟨⟨hg, hcond⟩, hes⟩, hlast⟩
            · rintro ⟨⟨-, hes⟩, hlast⟩
              exact ⟨(hright s e hs).mpr (Or.inl hcond), htail.mpr ⟨hes, hlast⟩⟩
          · refine ⟨fun h => absurd h.2.1 ?_, fun h => absurd h.1.1.2 hcond⟩
            exact hwrong _ e' (hbreak s e hs hcond)

end System

end Lib

import Qdma.Lib.Account
import Mathlib.Data.List.Infix
import Mathlib.Data.List.Perm.Basic
import Mathlib.Data.List.Count

/-!
# Taking and giving back

The log of many accounts at once.  Any number of things can be out at a time, and the same
thing can be taken again.

* `taken log b` and `given log b` count the entries for `b`.
* `Covered log` says that nothing is ever given back that is not out.
* `GivenBack log` says that moreover nothing is out in the end: each taking is matched by
  exactly one giving back after it.
-/

namespace Lib

universe u

variable {B : Type u} [DecidableEq B]

def taken (log : List (Booking B)) (b : B) : ℕ := log.count (.take b)

def given (log : List (Booking B)) (b : B) : ℕ := log.count (.give b)

@[simp] theorem taken_nil (b : B) : taken ([] : List (Booking B)) b = 0 := rfl

@[simp] theorem given_nil (b : B) : given ([] : List (Booking B)) b = 0 := rfl

@[simp] theorem taken_append (log log' : List (Booking B)) (b : B) :
    taken (log ++ log') b = taken log b + taken log' b := List.count_append

@[simp] theorem given_append (log log' : List (Booking B)) (b : B) :
    given (log ++ log') b = given log b + given log' b := List.count_append

theorem taken_take (a b : B) : taken [.take a] b = if a = b then 1 else 0 := by
  unfold taken
  rw [List.count_singleton]
  simp only [beq_iff_eq, Booking.take.injEq]

@[simp] theorem given_take (a b : B) : given [.take a] b = 0 := by
  unfold given
  rw [List.count_singleton]
  simp only [beq_iff_eq, reduceCtorEq, if_false]

@[simp] theorem taken_give (a b : B) : taken [.give a] b = 0 := by
  unfold taken
  rw [List.count_singleton]
  simp only [beq_iff_eq, reduceCtorEq, if_false]

theorem given_give (a b : B) : given [.give a] b = if a = b then 1 else 0 := by
  unfold given
  rw [List.count_singleton]
  simp only [beq_iff_eq, Booking.give.injEq]

/-- At no time more has been given back than taken. -/
def Covered (log : List (Booking B)) : Prop := ∀ p, p <+: log → ∀ b, given p b ≤ taken p b

theorem covered_nil : Covered ([] : List (Booking B)) := by
  intro p hp b
  rw [List.prefix_nil.mp hp]
  exact le_rfl

theorem Covered.le {log : List (Booking B)} (h : Covered log) (b : B) :
    given log b ≤ taken log b := h log (List.prefix_refl log) b

/-- One entry more. -/
theorem Covered.concat {log : List (Booking B)} (h : Covered log) {e : Booking B}
    (he : ∀ b, given (log ++ [e]) b ≤ taken (log ++ [e]) b) : Covered (log ++ [e]) := by
  intro p hp b
  rcases List.prefix_concat_iff.mp hp with rfl | hp
  · exact he b
  · exact h p hp b

theorem Covered.take {log : List (Booking B)} (h : Covered log) (a : B) :
    Covered (log ++ [.take a]) := by
  refine h.concat fun b => ?_
  have hle := h.le b
  rw [given_append, taken_append, given_take]
  omega

/-- What is given back is out. -/
theorem Covered.give {log : List (Booking B)} (h : Covered log) {a : B}
    (ha : given log a < taken log a) : Covered (log ++ [.give a]) := by
  refine h.concat fun b => ?_
  have hle := h.le b
  rw [given_append, taken_append, given_give, taken_give]
  split
  · rename_i heq
    subst heq
    omega
  · omega

theorem Covered.cons_take {log : List (Booking B)} (h : Covered log) (a : B) :
    Covered (.take a :: log) := by
  intro p hp b
  rcases List.prefix_cons_iff.mp hp with rfl | ⟨q, rfl, hq⟩
  · exact le_rfl
  · have hle := h q hq b
    change given ([.take a] ++ q) b ≤ taken ([.take a] ++ q) b
    rw [given_append, taken_append, given_take]
    omega

/-! ## Many at once -/

@[simp] theorem taken_map_take (as : List B) (b : B) : taken (as.map .take) b = as.count b :=
  List.count_map_of_injective as Booking.take (fun _ _ h => Booking.take.inj h) b

@[simp] theorem given_map_give (as : List B) (b : B) : given (as.map .give) b = as.count b :=
  List.count_map_of_injective as Booking.give (fun _ _ h => Booking.give.inj h) b

@[simp] theorem given_map_take (as : List B) (b : B) : given (as.map .take) b = 0 := by
  refine List.count_eq_zero.mpr fun hmem => ?_
  obtain ⟨a, -, ha⟩ := List.mem_map.mp hmem
  cases ha

@[simp] theorem taken_map_give (as : List B) (b : B) : taken (as.map .give) b = 0 := by
  refine List.count_eq_zero.mpr fun hmem => ?_
  obtain ⟨a, -, ha⟩ := List.mem_map.mp hmem
  cases ha

theorem Covered.takes {log : List (Booking B)} (h : Covered log) (as : List B) :
    Covered (as.map .take ++ log) := by
  induction as with
  | nil => exact h
  | cons a as ih => exact ih.cons_take a

/-- What is given back is out, each as often as it is given back. -/
theorem Covered.gives : ∀ (bs : List B) {log : List (Booking B)}, Covered log →
    (∀ b, given log b + bs.count b ≤ taken log b) → Covered (log ++ bs.map .give) := by
  intro bs
  induction bs with
  | nil =>
      intro log h _
      rw [List.map_nil, List.append_nil]
      exact h
  | cons a bs ih =>
      intro log h hout
      have hself := hout a
      rw [List.count_cons_self] at hself
      have hsplit : log ++ (a :: bs).map Booking.give = (log ++ [.give a]) ++ bs.map .give := by
        rw [List.map_cons, List.append_assoc]
        rfl
      rw [hsplit]
      refine ih (h.give (by omega)) fun b => ?_
      have hb := hout b
      rw [List.count_cons] at hb
      rw [given_append, taken_append, given_give, taken_give]
      simp only [beq_iff_eq] at hb
      omega

/-- Everything taken is given back, once, and after it was taken. -/
structure GivenBack (log : List (Booking B)) : Prop where
  covered : Covered log
  settled : ∀ b, given log b = taken log b

namespace GivenBack

variable {log : List (Booking B)} {as bs : List B}

theorem nil : GivenBack ([] : List (Booking B)) := ⟨covered_nil, fun _ => rfl⟩

/-- Around what is given back, things are taken first and given back last, in any order. -/
theorem wrap (h : GivenBack log) (hp : as.Perm bs) :
    GivenBack (as.map .take ++ log ++ bs.map .give) := by
  have hcount : ∀ b, bs.count b = as.count b := fun b => (hp.count_eq b).symm
  refine ⟨Covered.gives bs (h.covered.takes as) fun b => ?_, fun b => ?_⟩
  · have hb := h.settled b
    have hc := hcount b
    rw [given_append, taken_append, given_map_take, taken_map_take]
    omega
  · have hb := h.settled b
    have hc := hcount b
    rw [given_append, given_append, taken_append, taken_append, given_map_take, taken_map_take,
      given_map_give, taken_map_give]
    omega

/-- Things are taken, and then given back in any order. -/
theorem of_perm (hp : as.Perm bs) : GivenBack (as.map .take ++ bs.map .give) := by
  have hwrap := nil.wrap hp
  rw [List.append_nil] at hwrap
  exact hwrap

end GivenBack

/-- The part in the middle is settled too. -/
theorem settled_of_wrap {log : List (Booking B)} {as bs : List B} (hp : as.Perm bs)
    (h : ∀ b, given (as.map .take ++ log ++ bs.map .give) b =
      taken (as.map .take ++ log ++ bs.map .give) b) :
    ∀ b, given log b = taken log b := by
  intro b
  have hb := h b
  have hc := hp.count_eq b
  rw [given_append, given_append, taken_append, taken_append, given_map_take, taken_map_take,
    given_map_give, taken_map_give] at hb
  omega

/-- What is only taken stays out. -/
theorem eq_nil_of_settled {as : List B}
    (h : ∀ b, given (as.map Booking.take) b = taken (as.map Booking.take) b) : as = [] := by
  refine List.eq_nil_iff_forall_not_mem.mpr fun b hb => ?_
  have hzero := h b
  rw [given_map_take, taken_map_take] at hzero
  exact absurd hb (List.count_eq_zero.mp hzero.symm)

end Lib

import Mathlib.Data.List.Basic
import Mathlib.Logic.Function.Basic
import Mathlib.Tactic.Common

/-!
# Copies from one memory into another

A memory is a function from its addresses to values.  A `Copy` names, value by value,
where to read and where to write; running it stores the values one after the other, so
that of two writes to one address the later one stays.

Two laws are behind everything else.

* `runAll_eq_join`: several copies that are run one after the other are one copy, the
  one that reads and writes their lists in a row.  Between them the memory that is
  written changes and the one that is read does not.
* `map_run`: a copy that writes no address twice leaves there what it read.

They make a transfer that was cut into pieces, however it was cut, the transfer itself.
-/

namespace Lib

variable {A B V : Type*} [DecidableEq B]

/-- What stands first in a row of lists is some of them, whole, and part of the next. -/
theorem take_flatMap_eq {α β : Type*} (f : α → List β) :
    ∀ (l : List α) (n : ℕ), ∃ j part, (l.flatMap f).take n = (l.take j).flatMap f ++ part ∧
      (part = [] ∨ ∃ a rest, l[j]? = some a ∧ f a = part ++ rest) := by
  intro l
  induction l with
  | nil => exact fun n => ⟨0, [], List.take_nil, Or.inl rfl⟩
  | cons a l ih =>
      intro n
      rw [List.flatMap_cons]
      by_cases hn : n ≤ (f a).length
      · refine ⟨0, (f a).take n, List.take_append_of_le_length hn, Or.inr ⟨a, (f a).drop n, rfl, ?_⟩⟩
        exact (List.take_append_drop n (f a)).symm
      · obtain ⟨j, part, htake, hpart⟩ := ih (n - (f a).length)
        refine ⟨j + 1, part, ?_, hpart⟩
        rw [List.take_append, List.take_of_length_le (Nat.le_of_not_le hn), htake,
          List.take_succ_cons, List.flatMap_cons, List.append_assoc]

/-! ## Storing -/

/-- The memory after the values are stored at the addresses, one after the other. -/
def store : (B → V) → List B → List V → B → V
  | m, b :: bs, v :: vs => store (Function.update m b v) bs vs
  | m, _, _ => m

@[simp] theorem store_nil (m : B → V) (vs : List V) : store m [] vs = m := by
  unfold store
  rfl

@[simp] theorem store_cons (m : B → V) (b : B) (bs : List B) (v : V) (vs : List V) :
    store m (b :: bs) (v :: vs) = store (Function.update m b v) bs vs := rfl

/-- What is not written stays. -/
theorem store_of_notMem {b : B} :
    ∀ (bs : List B) (m : B → V) (vs : List V), b ∉ bs → store m bs vs b = m b := by
  intro bs
  induction bs with
  | nil => intro m vs _; rw [store_nil]
  | cons a bs ih =>
      intro m vs hb
      rw [List.mem_cons, not_or] at hb
      cases vs with
      | nil => rfl
      | cons v vs =>
          rw [store_cons, ih _ _ hb.2]
          exact Function.update_of_ne hb.1 _ _

theorem store_append :
    ∀ {as : List B} {vs : List V} (m : B → V) (bs : List B) (ws : List V),
      as.length = vs.length → store m (as ++ bs) (vs ++ ws) = store (store m as vs) bs ws := by
  intro as
  induction as with
  | nil =>
      intro vs m bs ws hlen
      rw [List.eq_nil_of_length_eq_zero hlen.symm, store_nil]
      rfl
  | cons a as ih =>
      intro vs m bs ws hlen
      cases vs with
      | nil => cases hlen
      | cons v vs => exact ih _ bs ws (Nat.succ.inj hlen)

/-- Values that are stored at different addresses can be read back. -/
theorem map_store :
    ∀ {bs : List B} {vs : List V} (m : B → V), bs.Nodup → bs.length = vs.length →
      bs.map (store m bs vs) = vs := by
  intro bs
  induction bs with
  | nil =>
      intro vs m _ hlen
      exact (List.eq_nil_of_length_eq_zero hlen.symm).symm
  | cons b bs ih =>
      intro vs m hnodup hlen
      obtain ⟨hb, hrest⟩ := List.nodup_cons.mp hnodup
      cases vs with
      | nil => cases hlen
      | cons v vs =>
          rw [List.map_cons, store_cons, store_of_notMem bs _ vs hb, Function.update_self,
            ih _ hrest (Nat.succ.inj hlen)]

/-- The last value that is stored at an address is there. -/
theorem store_map_last {α : Type*} {f : α → B} {g : α → V} (m : B → V) (as : List α) {a : α}
    {bs : List α} (hlast : ∀ b ∈ bs, f b ≠ f a) :
    store m ((as ++ a :: bs).map f) ((as ++ a :: bs).map g) (f a) = g a := by
  rw [List.map_append, List.map_append,
    store_append _ _ _ ((List.length_map f).trans (List.length_map g).symm), List.map_cons,
    List.map_cons, store_cons, store_of_notMem, Function.update_self]
  intro hmem
  obtain ⟨b, hb, heq⟩ := List.mem_map.mp hmem
  exact hlast b hb heq

/-- The same for numbered values. -/
theorem store_range_last {f : ℕ → B} {g : ℕ → V} (m : B → V) {n j : ℕ} (hj : j < n)
    (hlast : ∀ i, j < i → i < n → f i ≠ f j) :
    store m ((List.range n).map f) ((List.range n).map g) (f j) = g j := by
  have hsplit : List.range n =
      List.range j ++ j :: (List.range (n - j - 1)).map fun i => j + (i + 1) := by
    conv_lhs => rw [show n = j + (n - j - 1 + 1) by omega, List.range_add, List.range_succ_eq_map]
    rw [List.map_cons, List.map_map]
    rfl
  rw [hsplit]
  refine store_map_last m _ fun i hi => ?_
  obtain ⟨k, hk, rfl⟩ := List.mem_map.mp hi
  have hlt := List.mem_range.mp hk
  exact hlast _ (by omega) (by omega)

/-- What is stored at an address depends on nothing else that was in memory. -/
theorem store_congr {b : B} :
    ∀ (bs : List B) {m m' : B → V} (vs : List V),
      m b = m' b → store m bs vs b = store m' bs vs b := by
  intro bs
  induction bs with
  | nil => exact fun vs h => by rw [store_nil, store_nil, h]
  | cons a bs ih =>
      intro m m' vs h
      cases vs with
      | nil => exact h
      | cons v vs =>
          rw [store_cons, store_cons]
          refine ih vs ?_
          by_cases hba : b = a
          · rw [hba, Function.update_self, Function.update_self]
          · rw [Function.update_of_ne hba, Function.update_of_ne hba, h]

/-- A memory that is seen through other addresses. -/
theorem store_map_comp {A : Type*} [DecidableEq A] {e : A → B} {a : A} :
    ∀ {as : List A} (m : B → V) (vs : List V), (∀ i ∈ as, e i = e a → i = a) →
      store m (as.map e) vs (e a) = store (m ∘ e) as vs a := by
  intro as
  induction as with
  | nil => exact fun m vs _ => by rw [List.map_nil, store_nil, store_nil]; rfl
  | cons i as ih =>
      intro m vs hinj
      cases vs with
      | nil => rfl
      | cons v vs =>
          rw [List.map_cons, store_cons, store_cons,
            ih _ vs fun k hk => hinj k (List.mem_cons_of_mem i hk)]
          refine store_congr as vs ?_
          by_cases hia : e i = e a
          · have heq := hinj i List.mem_cons_self hia
            rw [heq, Function.comp_apply, Function.update_self, Function.update_self]
          · have hne : a ≠ i := fun heq => hia (congrArg e heq.symm)
            rw [Function.comp_apply, Function.update_of_ne (Ne.symm hia),
              Function.update_of_ne hne, Function.comp_apply]

/-! ## Copies -/

/-- Where to read and where to write. -/
@[ext] structure Copy (A B : Type*) where
  src : List A
  dst : List B
  length_eq : src.length = dst.length

namespace Copy

/-- The memory `m` after the copy, which reads `src`. -/
def run (c : Copy A B) (src : A → V) (m : B → V) : B → V := store m c.dst (c.src.map src)

/-- Several copies, one after the other. -/
def runAll (cs : List (Copy A B)) (src : A → V) (m : B → V) : B → V :=
  cs.foldl (fun m c => c.run src m) m

/-- The copy that does what several do in a row. -/
def join (cs : List (Copy A B)) : Copy A B where
  src := cs.flatMap (·.src)
  dst := cs.flatMap (·.dst)
  length_eq := by
    rw [List.length_flatMap, List.length_flatMap]
    exact congrArg List.sum (List.map_congr_left fun c _ => c.length_eq)

omit [DecidableEq B] in
theorem join_cons_src (c : Copy A B) (cs : List (Copy A B)) :
    (join (c :: cs)).src = c.src ++ (join cs).src := List.flatMap_cons

omit [DecidableEq B] in
theorem join_cons_dst (c : Copy A B) (cs : List (Copy A B)) :
    (join (c :: cs)).dst = c.dst ++ (join cs).dst := List.flatMap_cons

variable {src : A → V} {m : B → V}

omit [DecidableEq B] in
theorem length_map_src (c : Copy A B) (src : A → V) : c.dst.length = (c.src.map src).length := by
  rw [List.length_map, c.length_eq]

theorem run_of_notMem (c : Copy A B) {b : B} (hb : b ∉ c.dst) : c.run src m b = m b :=
  store_of_notMem _ _ _ hb

/-- **A copy arrives** where it writes no address twice. -/
theorem map_run (c : Copy A B) (hnodup : c.dst.Nodup) : c.dst.map (c.run src m) = c.src.map src :=
  map_store m hnodup (c.length_map_src src)

@[simp] theorem runAll_nil (src : A → V) (m : B → V) : runAll [] src m = m := rfl

@[simp] theorem runAll_cons (c : Copy A B) (cs : List (Copy A B)) (src : A → V) (m : B → V) :
    runAll (c :: cs) src m = runAll cs src (c.run src m) := rfl

@[simp] theorem runAll_append (cs ds : List (Copy A B)) (src : A → V) (m : B → V) :
    runAll (cs ++ ds) src m = runAll ds src (runAll cs src m) := List.foldl_append

/-- **Copies in a row are one copy.** -/
theorem runAll_eq_join (cs : List (Copy A B)) (m : B → V) :
    runAll cs src m = (join cs).run src m := by
  induction cs generalizing m with
  | nil => rfl
  | cons c cs ih =>
      rw [runAll_cons, ih]
      unfold run
      rw [join_cons_dst, join_cons_src, List.map_append,
        store_append _ _ _ (c.length_map_src src)]

theorem runAll_of_notMem {cs : List (Copy A B)} {b : B} (hb : ∀ c ∈ cs, b ∉ c.dst) :
    runAll cs src m b = m b := by
  rw [runAll_eq_join]
  refine run_of_notMem _ fun hmem => ?_
  obtain ⟨c, hc, hbc⟩ := List.mem_flatMap.mp hmem
  exact hb c hc hbc

/-- **A copy stays**, in however many pieces it was made, as long as the copies behind it
write elsewhere. -/
theorem map_runAll_join {cs bs ds : List (Copy A B)} (hnodup : (join bs).dst.Nodup)
    (hds : ∀ d ∈ ds, List.Disjoint d.dst (join bs).dst) :
    (join bs).dst.map (runAll (cs ++ (bs ++ ds)) src m) = (join bs).src.map src := by
  rw [runAll_append, runAll_append, runAll_eq_join bs,
    ← (join bs).map_run (m := runAll cs src m) hnodup]
  refine List.map_congr_left fun b hb => ?_
  exact runAll_of_notMem fun d hd hbd => hds d hd hbd hb

end Copy

end Lib

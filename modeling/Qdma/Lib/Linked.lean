import Mathlib.Data.List.Basic
import Mathlib.Data.List.Nodup
import Mathlib.Data.List.Perm.Subperm
import Mathlib.Data.List.Range
import Mathlib.Logic.Function.Basic

/-!
# Singly linked queues with a tail pointer

A queue kept as a chain of nodes: the head and the tail pointer, and in every node the
address of the next one.  The four operations are the ones every driver writes by hand:
take the head off, push to the head, add behind the tail, and walk the chain.

* `Linked next p as` says that following `next` from `p` visits the addresses `as` and
  ends at `NULL`.
* `Chain.Repr c as` is the representation invariant: the chain from the head is `as`,
  without repetition, and the tail pointer is its last address.
* Each operation has one lemma that carries `Repr` from before to after.

Addresses are numbers, a node allocated later has a larger one, and the values in the
nodes are of any type.
-/

namespace Lib

universe u

/-- Following `next` from `p` visits `as` and ends at `NULL`. -/
def Linked (next : ℕ → Option ℕ) : Option ℕ → List ℕ → Prop
  | p, [] => p = none
  | p, a :: as => p = some a ∧ Linked next (next a) as

namespace Linked

variable {next : ℕ → Option ℕ} {p : Option ℕ} {as : List ℕ}

/-- A store outside the chain does not change it. -/
theorem update {b : ℕ} (hb : b ∉ as) (q : Option ℕ) (h : Linked next p as) :
    Linked (Function.update next b q) p as := by
  induction as generalizing p with
  | nil => exact h
  | cons a as ih =>
      obtain ⟨hp, hrest⟩ := h
      rw [List.mem_cons, not_or] at hb
      refine ⟨hp, ?_⟩
      rw [Function.update_of_ne (Ne.symm hb.1)]
      exact ih hb.2 hrest

/-- A node linked behind the last one. -/
theorem snoc {b : ℕ} (hb : b ∉ as) (hnodup : as.Nodup) (h : Linked next p as) :
    ∀ {last : ℕ}, as.getLast? = some last →
      Linked (Function.update (Function.update next b none) last (some b)) p (as ++ [b]) := by
  induction as generalizing p with
  | nil => intro last hlast; cases hlast
  | cons a as ih =>
      intro last hlast
      obtain ⟨hp, hrest⟩ := h
      rw [List.mem_cons, not_or] at hb
      rw [List.nodup_cons] at hnodup
      refine ⟨hp, ?_⟩
      cases as with
      | nil =>
          have hlast : last = a := (Option.some.inj hlast).symm
          subst hlast
          rw [Function.update_self]
          refine ⟨rfl, ?_⟩
          change Function.update (Function.update next b none) last (some b) b = none
          rw [Function.update_of_ne hb.1, Function.update_self]
      | cons c cs =>
          have hlast' : (c :: cs).getLast? = some last := by
            rw [List.getLast?_cons_cons] at hlast
            exact hlast
          have hmem : last ∈ c :: cs := List.mem_of_getLast? hlast'
          have hne : a ≠ last := fun heq => hnodup.1 (heq ▸ hmem)
          rw [Function.update_of_ne hne, Function.update_of_ne (Ne.symm hb.1)]
          exact ih hb.2 hnodup.2 hrest hlast'

end Linked

/-- At most `fuel` addresses of the chain from `p`. -/
def walk (next : ℕ → Option ℕ) : ℕ → Option ℕ → List ℕ
  | 0, _ => []
  | _ + 1, none => []
  | fuel + 1, some a => a :: walk next fuel (next a)

theorem Linked.walk_eq {next : ℕ → Option ℕ} :
    ∀ {as : List ℕ} {fuel : ℕ} {p : Option ℕ}, Linked next p as → as.length ≤ fuel →
      walk next fuel p = as := by
  intro as
  induction as with
  | nil =>
      intro fuel p h _
      rw [show p = none from h]
      cases fuel <;> rfl
  | cons a as ih =>
      intro fuel p h hlen
      obtain ⟨hp, hrest⟩ := h
      cases fuel with
      | zero => exact absurd hlen (Nat.not_succ_le_zero _)
      | succ fuel =>
          rw [hp, walk, ih hrest (Nat.le_of_succ_le_succ hlen)]

/-- The values along a chain do not change when a node off it is written. -/
theorem map_update_of_notMem {α : Type u} {as : List ℕ} {a : ℕ} (ha : a ∉ as) (f : ℕ → α) (v : α) :
    as.map (Function.update f a v) = as.map f := by
  refine List.map_congr_left fun b hb => ?_
  have hne : b ≠ a := fun heq => ha (heq ▸ hb)
  exact Function.update_of_ne hne v f

/-- A queue of nodes with values in `α`.  Addresses below `fresh` have been
allocated. -/
structure Chain (α : Type u) where
  head : Option ℕ
  tail : Option ℕ
  next : ℕ → Option ℕ
  val : ℕ → α
  fresh : ℕ

namespace Chain

variable {α : Type u}

/-- The empty queue. -/
def empty (a : α) : Chain α where
  head := none
  tail := none
  next _ := none
  val _ := a
  fresh := 0

/-- The addresses on the queue. -/
def addrs (c : Chain α) : List ℕ := walk c.next c.fresh c.head

/-- The values on the queue. -/
def values (c : Chain α) : List α := c.addrs.map c.val

/-- Take the head off; its own `next` is cleared. -/
def dequeueHead (c : Chain α) : Option (ℕ × α) × Chain α :=
  match c.head with
  | none => (none, c)
  | some a =>
      (some (a, c.val a),
        { c with
          head := c.next a
          next := Function.update c.next a none
          tail := if (c.next a).isNone then none else c.tail })

/-- Push a node. -/
def enqueueHead (c : Chain α) (n : ℕ × α) : Chain α :=
  { c with
    next := Function.update c.next n.1 c.head
    val := Function.update c.val n.1 n.2
    head := some n.1
    tail := if c.tail.isNone then some n.1 else c.tail }

/-- Add a node behind the tail.  With a head and no tail pointer the source writes
through `NULL`; nothing is linked then. -/
def enqueueTail (c : Chain α) (n : ℕ × α) : Chain α :=
  let next := Function.update c.next n.1 none
  { c with
    val := Function.update c.val n.1 n.2
    next :=
      match c.head, c.tail with
      | some _, some t => Function.update next t (some n.1)
      | _, _ => next
    head := if c.head.isNone then some n.1 else c.head
    tail := some n.1 }

/-- `enqueueTail` in two stores: the node becomes the head, or `t` is linked to it, … -/
def linkHead (c : Chain α) (n : ℕ × α) : Chain α :=
  { c with
    val := Function.update c.val n.1 n.2
    next := Function.update c.next n.1 none
    head := some n.1 }

def linkBehind (c : Chain α) (t : Option ℕ) (n : ℕ × α) : Chain α :=
  let next := Function.update c.next n.1 none
  { c with
    val := Function.update c.val n.1 n.2
    next :=
      match t with
      | some t => Function.update next t (some n.1)
      | none => next }

/-- … and it becomes the tail. -/
def setTail (c : Chain α) (a : ℕ) : Chain α := { c with tail := some a }

theorem linkHead_setTail {c : Chain α} (h : c.head = none) (n : ℕ × α) :
    (c.linkHead n).setTail n.1 = c.enqueueTail n := by
  unfold enqueueTail linkHead setTail
  rw [h]
  rfl

theorem linkBehind_setTail {c : Chain α} {t : ℕ} (h : c.head ≠ none) (ht : c.tail = some t)
    (n : ℕ × α) : (c.linkBehind (some t) n).setTail n.1 = c.enqueueTail n := by
  obtain ⟨a, ha⟩ := Option.ne_none_iff_exists'.mp h
  unfold enqueueTail linkBehind setTail
  rw [ha, ht]
  rfl

/-- The address of a new node. -/
def alloc (c : Chain α) : ℕ × Chain α := (c.fresh, { c with fresh := c.fresh + 1 })

/-- **The representation invariant.** -/
structure Repr (c : Chain α) (as : List ℕ) : Prop where
  linked : Linked c.next c.head as
  tail : c.tail = as.getLast?
  nodup : as.Nodup
  lt : ∀ a ∈ as, a < c.fresh

/-- A node that is allocated and not on the queue. -/
structure Off (c : Chain α) (as : List ℕ) (a : ℕ) : Prop where
  notMem : a ∉ as
  lt : a < c.fresh

theorem repr_empty (a : α) : (empty a).Repr [] where
  linked := rfl
  tail := rfl
  nodup := List.nodup_nil
  lt b hb := by cases hb

namespace Repr

variable {c : Chain α} {as : List ℕ} (h : c.Repr as)
include h

theorem addrs : c.addrs = as := by
  refine h.linked.walk_eq ?_
  have hsub : as ⊆ List.range c.fresh := fun a ha => List.mem_range.mpr (h.lt a ha)
  have hle := (List.subperm_of_subset h.nodup hsub).length_le
  rwa [List.length_range] at hle

theorem head_none : c.head = none ↔ as = [] := by
  cases as with
  | nil => exact ⟨fun _ => rfl, fun _ => h.linked⟩
  | cons a as =>
      refine ⟨fun hnone => ?_, fun hc => by cases hc⟩
      rw [h.linked.1] at hnone
      cases hnone

theorem tail_none : c.tail = none ↔ as = [] := by
  rw [h.tail, List.getLast?_eq_none_iff]

theorem alloc : c.alloc.2.Repr as ∧ c.alloc.2.Off as c.alloc.1 := by
  refine ⟨⟨h.linked, h.tail, h.nodup, fun a ha => (h.lt a ha).trans (Nat.lt_succ_self _)⟩, ?_⟩
  exact ⟨fun hmem => absurd (h.lt _ hmem) (Nat.lt_irrefl _), Nat.lt_succ_self _⟩

theorem dequeueHead_nil (has : as = []) : c.dequeueHead = (none, c) := by
  unfold Chain.dequeueHead
  rw [h.head_none.mpr has]

end Repr

theorem Repr.dequeueHead_cons {c : Chain α} {a : ℕ} {as : List ℕ} (h : c.Repr (a :: as)) :
    c.dequeueHead.1 = some (a, c.val a) ∧ c.dequeueHead.2.Repr as ∧
      c.dequeueHead.2.Off as a ∧ c.dequeueHead.2.val = c.val ∧
      c.dequeueHead.2.fresh = c.fresh := by
  obtain ⟨hhead, hrest⟩ := h.linked
  have hnodup := List.nodup_cons.mp h.nodup
  have hlt := h.lt a (List.mem_cons_self ..)
  unfold Chain.dequeueHead
  rw [hhead]
  refine ⟨rfl, ⟨?_, ?_, hnodup.2, fun b hb => h.lt b (List.mem_cons_of_mem _ hb)⟩,
    ⟨hnodup.1, hlt⟩, rfl, rfl⟩
  · exact hrest.update hnodup.1 none
  · cases as with
    | nil =>
        dsimp only
        rw [show c.next a = none from hrest]
        rfl
    | cons b bs =>
        dsimp only
        rw [hrest.1, h.tail, List.getLast?_cons_cons]
        rfl

theorem Repr.enqueueHead {c : Chain α} {as : List ℕ} (h : c.Repr as) {a : ℕ} (ha : c.Off as a)
    (v : α) : (c.enqueueHead (a, v)).Repr (a :: as) := by
  unfold Chain.enqueueHead
  refine ⟨⟨rfl, ?_⟩, ?_, List.nodup_cons.mpr ⟨ha.notMem, h.nodup⟩, ?_⟩
  · dsimp only
    rw [Function.update_self]
    exact h.linked.update ha.notMem c.head
  · dsimp only
    cases as with
    | nil =>
        rw [h.tail_none.mpr rfl]
        rfl
    | cons b bs =>
        have hsome : c.tail.isNone = false := by
          rw [Option.isNone_eq_false_iff, Option.isSome_iff_ne_none]
          exact fun hn => List.cons_ne_nil _ _ (h.tail_none.mp hn)
        rw [hsome, List.getLast?_cons_cons, ← h.tail]
        rfl
  · intro b hb
    obtain rfl | hb := List.mem_cons.mp hb
    · exact ha.lt
    · exact h.lt b hb

theorem Repr.enqueueTail {c : Chain α} {as : List ℕ} (h : c.Repr as) {a : ℕ} (ha : c.Off as a)
    (v : α) : (c.enqueueTail (a, v)).Repr (as ++ [a]) := by
  unfold Chain.enqueueTail
  refine ⟨?_, ?_, ?_, ?_⟩
  · dsimp only
    cases as with
    | nil =>
        rw [h.head_none.mpr rfl]
        exact ⟨rfl, Function.update_self ..⟩
    | cons b bs =>
        have hhead := h.linked.1
        obtain ⟨t, ht⟩ : ∃ t, c.tail = some t := by
          rw [← Option.isSome_iff_exists, Option.isSome_iff_ne_none]
          exact fun hn => List.cons_ne_nil _ _ (h.tail_none.mp hn)
        have hlast : (b :: bs).getLast? = some t := h.tail.symm.trans ht
        have hlink := h.linked.snoc ha.notMem h.nodup hlast
        rw [hhead] at hlink ⊢
        rw [ht]
        exact hlink
  · simp
  · refine List.nodup_append.mpr ⟨h.nodup, List.nodup_singleton a, ?_⟩
    intro b hb d hd hbd
    rw [List.mem_singleton] at hd
    exact ha.notMem (hd ▸ hbd ▸ hb)
  · intro b hb
    obtain hb | hb := List.mem_append.mp hb
    · exact h.lt b hb
    · rw [List.mem_singleton] at hb
      rw [hb]
      exact ha.lt

/-- The values once a new node is added behind the tail. -/
theorem Repr.values_enqueueTail {c : Chain α} {as : List ℕ} (h : c.Repr as) {a : ℕ}
    (ha : c.Off as a) (v : α) : (c.enqueueTail (a, v)).values = as.map c.val ++ [v] := by
  unfold values
  rw [(h.enqueueTail ha v).addrs, List.map_append, List.map_singleton]
  have hval : (c.enqueueTail (a, v)).val = Function.update c.val a v := rfl
  rw [hval, map_update_of_notMem ha.notMem, Function.update_self]

end Chain

end Lib

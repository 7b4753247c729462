import Qdma.Lib.Sleeper
import Qdma.Lib.Trace
import Qdma.Leave

/-!
# The kernel threads

`thread.c` runs the worker threads and the writeback threads: one loop,
`xthread_main`, over the items of `thp->work_list`, with the thread's own
`fpending` and `fproc`.  `qdma_thread.c` gives the two kinds their functions and
links queues to them.

The loop is taken apart at the accesses that other parties can come between:
the test of `kthread_should_stop`, the announcement (`TASK_INTERRUPTIBLE`), the
lock, the look at each item under the item's own lock, `schedule`, and the
processing of each item.  The other parties are

* those who work on an item under its lock (`act`); some of what they do wakes the
  thread before the lock is dropped, some is followed by a wakeup later (`wakeup`);
* `qdma_thread_add_work`, which links an item (`link`) and then sets its pointer to
  the thread (`attach`), and `qdma_thread_remove_work`, which clears the pointer
  (`detach`) and then unlinks (`unlink`);
* the timer of a thread with a `timeout`;
* `kthread_stop`, which sets the flag (`stop`) and wakes the thread (`stopWake`).

A wakeup goes through the item's pointer to the thread.  Between `attach` and
`detach` the pointer is set; outside it is `NULL`, which one kind of caller tests
and the other follows.
-/

namespace Qdma

open Lib

/-! ## The loop -/

/-- Where a thread is in `xthread_main`. -/
inductive XthreadPc where
  /-- `while (!kthread_should_stop())`. -/
  | top
  /-- `__set_current_state(TASK_INTERRUPTIBLE)`. -/
  | mark
  /-- `lock_thread` before `xthread_work_pending`. -/
  | lock
  /-- In `xthread_work_pending`, with the items that are left to look at. -/
  | scan (rest : List ℕ)
  /-- In `xthread_reschedule`. -/
  | sched
  /-- `lock_thread` after it. -/
  | relock
  /-- In the loop over `fproc`, with the items that are left. -/
  | work (rest : List ℕ)
  | exit
  deriving DecidableEq

/-- A kind of thread: `fpending`, `fproc` (whose outcome may depend on allocations, the
`O`) and `timeout`, and what others do to its items.  `tells` is what makes the kind
safe: whoever gives an item work wakes the thread. -/
structure KthreadOps (σ A O : Type) where
  fpending : σ → Bool
  fproc : O → σ → σ
  timeout : ℕ
  act : σ → A → σ
  ok : σ → A → Prop
  wakesNow : σ → A → Bool
  wakesLater : σ → A → Bool
  /-- The pointer to the thread is followed without a test. -/
  strict : Bool
  tells : ∀ x a, ok x a → fpending (act x a) = true →
    fpending x = true ∨ wakesNow x a = true ∨ wakesLater x a = true

/-- A thread with its items. -/
structure Xthread (σ : Type) where
  pc : XthreadPc
  /-- The task is `TASK_INTERRUPTIBLE`. -/
  interruptible : Bool
  items : ℕ → σ
  workList : List ℕ
  /-- The item's pointer to the thread is set. -/
  thp : ℕ → Bool
  /-- The items whose work was put on their lists and whose wakeup is still to come. -/
  coming : List ℕ
  shouldStop : Bool
  /-- `kthread_stop` has set the flag and not yet woken the thread. -/
  stopping : Bool
  /-- The pointer to the thread was followed while it was `NULL`. -/
  oops : Bool

/-- `qdma_kthread_start`: a thread without items. -/
def Xthread.start {σ : Type} (items : ℕ → σ) : Xthread σ where
  pc := .top
  interruptible := false
  items := items
  workList := []
  thp _ := false
  coming := []
  shouldStop := false
  stopping := false
  oops := false

section Loop

variable {σ A O : Type} (ops : KthreadOps σ A O)

/-- One access of `xthread_main`. -/
def xthreadMain (o : O) (s : Xthread σ) : Xthread σ :=
  match s.pc with
  | .top => if s.shouldStop then { s with pc := .exit } else { s with pc := .mark }
  | .mark => { s with interruptible := true, pc := .lock }
  | .lock => { s with pc := .scan s.workList }
  | .scan [] => { s with pc := .sched }
  | .scan (i :: rest) =>
      if ops.fpending (s.items i) then { s with interruptible := false, pc := .work s.workList }
      else { s with pc := .scan rest }
  | .sched => { s with pc := .relock }
  | .relock => { s with interruptible := false, pc := .work s.workList }
  | .work [] => { s with pc := .top }
  | .work (i :: rest) =>
      { s with items := Function.update s.items i (ops.fproc o (s.items i)), pc := .work rest }
  | .exit => s

/-- `qdma_kthread_wakeup` through the item's pointer. -/
def Xthread.wakeVia (s : Xthread σ) (i : ℕ) : Xthread σ :=
  if s.thp i then { s with interruptible := false }
  else if ops.strict then { s with oops := true }
  else s

/-- `lock_thread` can be taken. -/
def Xthread.unlocked (s : Xthread σ) : Bool :=
  match s.pc with
  | .scan _ => false
  | .work _ => false
  | _ => true

inductive XthreadEv (A O : Type) where
  | turn (o : O)
  | act (i : ℕ) (a : A)
  | wakeup (i : ℕ)
  | link (i : ℕ)
  | attach (i : ℕ)
  | detach (i : ℕ)
  | unlink (i : ℕ)
  | timer
  | stop
  | stopWake

def xthreadStep (s : Xthread σ) : XthreadEv A O → Xthread σ
  | .turn o => xthreadMain ops o s
  | .act i a =>
      let s' :=
        { s with
          items := Function.update s.items i (ops.act (s.items i) a)
          coming := if ops.wakesLater (s.items i) a then s.coming ++ [i] else s.coming }
      if ops.wakesNow (s.items i) a then s'.wakeVia ops i else s'
  | .wakeup i => { s with coming := s.coming.erase i }.wakeVia ops i
  | .link i => { s with workList := s.workList ++ [i] }
  | .attach i => { s with thp := Function.update s.thp i true }
  | .detach i => { s with thp := Function.update s.thp i false }
  | .unlink i => { s with workList := s.workList.erase i }
  | .timer => { s with interruptible := false }
  | .stop => { s with shouldStop := true, stopping := true }
  | .stopWake => { s with interruptible := false, stopping := false }

/-- A thread in `schedule` runs again once something has made it runnable; whoever links
or unlinks takes the thread's lock. -/
def xthreadGuard (s : Xthread σ) : XthreadEv A O → Prop
  | .turn _ => s.pc = .sched → s.interruptible = false
  | .act i a => ops.ok (s.items i) a
  | .wakeup i => i ∈ s.coming
  | .link i => s.unlocked = true ∧ i ∉ s.workList
  | .attach i => i ∈ s.workList
  | .detach i => s.thp i = true
  | .unlink i => s.unlocked = true ∧ i ∈ s.workList ∧ s.thp i = false
  | .timer => ops.timeout ≠ 0 ∧ s.pc = .sched
  | .stop => s.shouldStop = false
  | .stopWake => s.stopping = true

/-- A thread and everyone who deals with it. -/
def xthreadSys : System (Xthread σ) (XthreadEv A O) where
  step := xthreadStep ops
  guard := xthreadGuard ops

/-! ## The property -/

/-- In `schedule`, until something wakes it. -/
def Xthread.asleep (s : Xthread σ) : Prop := s.pc = .sched ∧ s.interruptible = true

instance (s : Xthread σ) : Decidable s.asleep := inferInstanceAs (Decidable (_ ∧ _))

/-- The thread sleeps, nobody is on the way to wake it, and one of its items has
work. -/
def Xthread.Stranded (s : Xthread σ) : Prop :=
  s.asleep ∧ s.coming = [] ∧ ∃ i ∈ s.workList, ops.fpending (s.items i) = true

instance (s : Xthread σ) : Decidable (s.Stranded ops) :=
  inferInstanceAs (Decidable (_ ∧ _ ∧ ∃ i ∈ s.workList, _))

/-- No wakeup was lost, and none went through a `NULL` pointer. -/
def Xthread.Wakeful (s : Xthread σ) : Prop := s.oops = false ∧ ¬ s.Stranded ops

instance (s : Xthread σ) : Decidable (s.Wakeful ops) := inferInstanceAs (Decidable (_ ∧ _))

/-- A wakeup finds its pointer set, and an item that is linked to a thread asleep brings
no work with it. -/
def Reaches (s : Xthread σ) : XthreadEv A O → Prop
  | .act i a => ops.wakesNow (s.items i) a = true → s.thp i = true
  | .wakeup i => s.thp i = true
  | .link i => s.asleep → s.coming = [] → ops.fpending (s.items i) = false
  | _ => True

instance decidableXthreadGuard [∀ x a, Decidable (ops.ok x a)] (s : Xthread σ) :
    ∀ e, Decidable ((xthreadSys ops).guard s e) := by
  rintro ⟨⟩ <;> dsimp only [xthreadSys, xthreadGuard] <;> infer_instance

instance decidableReaches (s : Xthread σ) : ∀ e : XthreadEv A O, Decidable (Reaches ops s e) := by
  rintro ⟨⟩ <;> dsimp only [Reaches] <;> infer_instance

instance [∀ x a, Decidable (ops.ok x a)] (s : Xthread σ) (e : XthreadEv A O) :
    Decidable (((xthreadSys ops).restrict (Reaches ops)).guard s e) :=
  inferInstanceAs (Decidable ((xthreadSys ops).guard s e ∧ Reaches ops s e))

/-! ## The invariant -/

/-- The items looked at since the announcement. -/
def Xthread.looked (s : Xthread σ) : Set ℕ :=
  match s.pc with
  | .scan rest => {i | i ∈ s.workList ∧ i ∉ rest}
  | .sched => {i | i ∈ s.workList}
  | _ => ∅

/-- The thread as a sleeper. -/
def Xthread.watch (s : Xthread σ) : Watch ℕ where
  announced := s.interruptible = true
  looked := s.looked
  work := {i | ops.fpending (s.items i) = true}
  coming := s.coming ≠ []

/-- Nothing went through a `NULL` pointer, and the announcement is watched. -/
structure XthreadInv (s : Xthread σ) : Prop where
  sound : s.oops = false
  watched : Watched (s.watch ops)

variable {ops}

theorem XthreadInv.start (items : ℕ → σ) : XthreadInv ops (Xthread.start items) :=
  ⟨rfl, Watched.of_unlooked rfl⟩

theorem XthreadInv.wakeful {s : Xthread σ} (h : XthreadInv ops s) : s.Wakeful ops := by
  refine ⟨h.sound, ?_⟩
  rintro ⟨⟨hpc, hint⟩, hnobody, i, hi, hpend⟩
  have hlooked : i ∈ (s.watch ops).looked := by
    change i ∈ s.looked
    unfold Xthread.looked
    rw [hpc]
    exact hi
  exact h.watched.idle hint (not_not.mpr hnobody) hlooked hpend

/-- **The thread's own accesses.** -/
theorem XthreadInv.turn {s : Xthread σ} (h : XthreadInv ops s) (o : O) :
    XthreadInv ops (xthreadMain ops o s) := by
  obtain ⟨pc, interruptible, items, workList, thp, coming, shouldStop, stopping, oops⟩ := s
  have hsound : oops = false := h.sound
  have hwatched := h.watched
  unfold xthreadMain
  cases pc with
  | top =>
      dsimp only
      split
      · exact ⟨hsound, Watched.of_unlooked rfl⟩
      · exact ⟨hsound, Watched.of_unlooked rfl⟩
  | mark => exact ⟨hsound, Watched.of_unlooked rfl⟩
  | lock =>
      refine ⟨hsound, Watched.of_unlooked ?_⟩
      exact Set.eq_empty_of_forall_notMem fun i hi => hi.2 hi.1
  | scan rest =>
      cases rest with
      | nil =>
          -- everything on the list has been looked at
          refine ⟨hsound, hwatched.mono id ?_ id fun i _ hi => Or.inl hi⟩
          exact fun i hi => ⟨hi, List.not_mem_nil⟩
      | cons i rest =>
          dsimp only
          split
          · exact ⟨hsound, Watched.of_not_announced Bool.false_ne_true⟩
          · rename_i hidle
            refine ⟨hsound, (hwatched.look (i := i) hidle).mono id ?_ id fun j _ hj => Or.inl hj⟩
            rintro j ⟨hj, hrest⟩
            by_cases hji : j = i
            · exact Set.mem_insert_iff.mpr (Or.inl hji)
            · exact Set.mem_insert_of_mem _ ⟨hj, fun hmem => hrest (List.mem_of_ne_of_mem hji hmem)⟩
  | sched => exact ⟨hsound, Watched.of_unlooked rfl⟩
  | relock => exact ⟨hsound, Watched.of_not_announced Bool.false_ne_true⟩
  | work rest =>
      cases rest with
      | nil => exact ⟨hsound, Watched.of_unlooked rfl⟩
      | cons i rest => exact ⟨hsound, Watched.of_unlooked rfl⟩
  | exit => exact ⟨hsound, hwatched⟩

/-- A wakeup that finds its pointer set takes the announcement back. -/
theorem XthreadInv.wakeVia {s : Xthread σ} {i : ℕ} (hsound : s.oops = false)
    (hthp : s.thp i = true) : XthreadInv ops (s.wakeVia ops i) := by
  unfold Xthread.wakeVia
  rw [if_pos hthp]
  exact ⟨hsound, Watched.of_not_announced Bool.false_ne_true⟩

/-- **Everyone else.** -/
theorem XthreadInv.step {s : Xthread σ} {e : XthreadEv A O} (h : XthreadInv ops s)
    (hg : xthreadGuard ops s e) (hok : Reaches ops s e) : XthreadInv ops (xthreadStep ops s e) := by
  cases e with
  | turn o => exact h.turn o
  | act i a =>
      unfold xthreadStep
      dsimp only
      split
      · rename_i hnow
        exact XthreadInv.wakeVia h.sound (hok hnow)
      · rename_i hnow
        refine ⟨h.sound, h.watched.mono id (fun j hj => hj) ?_ ?_⟩
        · intro hcoming
          change (if ops.wakesLater (s.items i) a then s.coming ++ [i] else s.coming) ≠ []
          split
          · exact List.append_ne_nil_of_right_ne_nil _ (List.cons_ne_nil i [])
          · exact hcoming
        · intro j _ hj
          change ops.fpending (Function.update s.items i (ops.act (s.items i) a) j) = true at hj
          by_cases hji : j = i
          · subst hji
            rw [Function.update_self] at hj
            rcases ops.tells _ _ hg hj with hold | hwakes | hlater
            · exact Or.inl hold
            · exact absurd hwakes hnow
            · refine Or.inr ?_
              change (if ops.wakesLater (s.items j) a then s.coming ++ [j] else s.coming) ≠ []
              rw [if_pos hlater]
              exact List.append_ne_nil_of_right_ne_nil _ (List.cons_ne_nil j [])
          · rw [Function.update_of_ne hji] at hj
            exact Or.inl hj
  | wakeup i => exact XthreadInv.wakeVia (s := { s with coming := s.coming.erase i }) h.sound hok
  | link i =>
      obtain ⟨hfree, -⟩ := hg
      refine ⟨h.sound, ?_⟩
      cases hpc : s.pc with
      | sched =>
          -- the only place where the new item counts as looked at
          intro hint j hj hwork
          change j ∈ Xthread.looked { s with workList := s.workList ++ [i] } at hj
          unfold Xthread.looked at hj
          rw [hpc] at hj
          rcases List.mem_append.mp hj with hj | hj
          · refine h.watched hint j ?_ hwork
            change j ∈ s.looked
            unfold Xthread.looked
            rw [hpc]
            exact hj
          · rw [List.mem_singleton] at hj
            subst hj
            intro hnobody
            have hidle := hok ⟨hpc, hint⟩ hnobody
            exact Bool.false_ne_true (hidle.symm.trans hwork)
      | scan rest =>
          unfold Xthread.unlocked at hfree
          rw [hpc] at hfree
          cases hfree
      | top | mark | lock | relock | work _ | exit =>
          refine Watched.of_unlooked ?_
          change Xthread.looked { s with workList := s.workList ++ [i] } = ∅
          unfold Xthread.looked
          rw [hpc]
  | attach i => exact ⟨h.sound, h.watched⟩
  | detach i => exact ⟨h.sound, h.watched⟩
  | unlink i =>
      obtain ⟨hfree, -, -⟩ := hg
      refine ⟨h.sound, h.watched.mono id ?_ id fun j _ hj => Or.inl hj⟩
      change Xthread.looked { s with workList := s.workList.erase i } ⊆ s.looked
      unfold Xthread.looked
      cases hpc : s.pc with
      | sched => exact fun j hj => List.mem_of_mem_erase hj
      | scan rest =>
          unfold Xthread.unlocked at hfree
          rw [hpc] at hfree
          cases hfree
      | top | mark | lock | relock | work _ | exit => exact fun j hj => hj
  | timer => exact ⟨h.sound, Watched.of_not_announced Bool.false_ne_true⟩
  | stop => exact ⟨h.sound, h.watched⟩
  | stopWake => exact ⟨h.sound, Watched.of_not_announced Bool.false_ne_true⟩

/-- What a step does wrong if a wakeup does not reach the thread. -/
theorem reaches_of_wakeful {s : Xthread σ} {e : XthreadEv A O} (hstrict : ops.strict = true)
    (h : (xthreadStep ops s e).Wakeful ops) : Reaches ops s e := by
  have hfollow : ∀ {t : Xthread σ} {i : ℕ}, (t.wakeVia ops i).oops = false → t.thp i = true := by
    intro t i hsound
    by_contra hnull
    unfold Xthread.wakeVia at hsound
    rw [if_neg hnull, if_pos hstrict] at hsound
    cases hsound
  cases e with
  | act i a =>
      intro hnow
      have hsound := h.1
      unfold xthreadStep at hsound
      dsimp only at hsound
      rw [if_pos hnow] at hsound
      exact hfollow (t := { s with
        items := Function.update s.items i (ops.act (s.items i) a)
        coming := if ops.wakesLater (s.items i) a then s.coming ++ [i] else s.coming }) hsound
  | wakeup i => exact hfollow (t := { s with coming := s.coming.erase i }) h.1
  | link i =>
      intro hasleep hnobody
      rw [← Bool.not_eq_true]
      intro hpend
      exact h.2 ⟨hasleep, hnobody, i, List.mem_append_right _ (List.mem_singleton_self i), hpend⟩
  | turn _ | attach _ | detach _ | unlink _ | timer | stop | stopWake => exact trivial

/-- **No lost wakeup**: in a run whose wakeups reach the thread, it never sleeps on work of
an item of its list unless someone is on the way to wake it. -/
theorem xthread_wakeful (items : ℕ → σ) (es : List (XthreadEv A O))
    (hrun : ((xthreadSys ops).restrict (Reaches ops)).Admits (Xthread.start items) es) :
    (xthreadSys ops).EachStep (fun _ _ s' => s'.Wakeful ops) (Xthread.start items) es := by
  refine (xthreadSys ops).eachStep_restrict (I := XthreadInv ops) ?_ es
    (XthreadInv.start items) hrun
  intro s e hs hg hok
  have hnext : XthreadInv ops (xthreadStep ops s e) := hs.step hg hok
  exact ⟨hnext.wakeful, hnext⟩

/-- Where the pointer is followed without a test, the wakeups of a run reach the thread just
where nothing goes wrong. -/
theorem xthread_wakeful_iff (hstrict : ops.strict = true) (items : ℕ → σ)
    (es : List (XthreadEv A O)) (hrun : (xthreadSys ops).Admits (Xthread.start items) es) :
    (xthreadSys ops).EachStep (fun _ _ s' => s'.Wakeful ops) (Xthread.start items) es ↔
      ((xthreadSys ops).restrict (Reaches ops)).Admits (Xthread.start items) es := by
  refine (xthreadSys ops).eachStep_iff_admits (I := XthreadInv ops) ?_ ?_ es
    (XthreadInv.start items) hrun
  · intro s e hs hg
    exact ⟨reaches_of_wakeful hstrict, fun hok => XthreadInv.wakeful (hs.step hg hok)⟩
  · intro s e hs hg hright
    exact hs.step hg (reaches_of_wakeful hstrict hright)

end Loop

/-! ## A thread left alone -/

section Alone

variable {σ A O : Type} (ops : KthreadOps σ A O)

/-- What the thread does by itself: in `schedule` it waits to be made runnable, and from
`schedule_timeout` it returns when its time is over. -/
def xthreadTurn (o : O) (s : Xthread σ) : Xthread σ :=
  if s.asleep then if ops.timeout = 0 then s else { s with interruptible := false }
  else xthreadMain ops o s

/-- `n` turns. -/
def xthreadAfter : (ℕ → O) → ℕ → Xthread σ → Xthread σ
  | _, 0, s => s
  | os, n + 1, s => xthreadAfter (fun k => os (k + 1)) n (xthreadTurn ops (os 0) s)

variable {ops}

theorem xthreadTurn_of_ne {o : O} {s : Xthread σ} (h : s.pc ≠ .sched) :
    xthreadTurn ops o s = xthreadMain ops o s := if_neg fun hasleep => h hasleep.1

theorem turn_scan_nil {o : O} {s : Xthread σ} (hpc : s.pc = .scan []) :
    xthreadTurn ops o s = { s with pc := .sched } := by
  rw [xthreadTurn_of_ne (by rw [hpc]; exact XthreadPc.noConfusion)]
  unfold xthreadMain
  rw [hpc]

theorem turn_scan_cons {o : O} {s : Xthread σ} {i : ℕ} {rest : List ℕ}
    (hpc : s.pc = .scan (i :: rest)) : xthreadTurn ops o s =
      if ops.fpending (s.items i) then { s with interruptible := false, pc := .work s.workList }
      else { s with pc := .scan rest } := by
  rw [xthreadTurn_of_ne (by rw [hpc]; exact XthreadPc.noConfusion)]
  unfold xthreadMain
  rw [hpc]

theorem turn_work_nil {o : O} {s : Xthread σ} (hpc : s.pc = .work []) :
    xthreadTurn ops o s = { s with pc := .top } := by
  rw [xthreadTurn_of_ne (by rw [hpc]; exact XthreadPc.noConfusion)]
  unfold xthreadMain
  rw [hpc]

theorem turn_work_cons {o : O} {s : Xthread σ} {i : ℕ} {rest : List ℕ}
    (hpc : s.pc = .work (i :: rest)) : xthreadTurn ops o s =
      { s with items := Function.update s.items i (ops.fproc o (s.items i)), pc := .work rest } := by
  rw [xthreadTurn_of_ne (by rw [hpc]; exact XthreadPc.noConfusion)]
  unfold xthreadMain
  rw [hpc]

@[simp] theorem xthreadAfter_zero (os : ℕ → O) (s : Xthread σ) : xthreadAfter ops os 0 s = s := rfl

theorem xthreadAfter_succ (os : ℕ → O) (n : ℕ) (s : Xthread σ) : xthreadAfter ops os (n + 1) s =
    xthreadAfter ops (fun k => os (k + 1)) n (xthreadTurn ops (os 0) s) := rfl

theorem xthreadAfter_add (os : ℕ → O) (m n : ℕ) (s : Xthread σ) :
    xthreadAfter ops os (m + n) s = xthreadAfter ops (fun k => os (m + k)) n (xthreadAfter ops os m s) := by
  induction m generalizing os s with
  | zero => simp [xthreadAfter]
  | succ m ih =>
      rw [Nat.succ_add, xthreadAfter_succ, xthreadAfter_succ, ih]
      have hos : (fun k => os (m + k + 1)) = fun k => os (m + 1 + k) := by
        funext k
        rw [Nat.add_right_comm]
      rw [hos]

/-- **The look at the items**: the first with work sends the thread to work. -/
theorem scan_busy :
    ∀ (rest : List ℕ) {s : Xthread σ} (os : ℕ → O), s.pc = .scan rest →
      (∃ i ∈ rest, ops.fpending (s.items i) = true) →
      ∃ n ≤ rest.length,
        xthreadAfter ops os n s = { s with interruptible := false, pc := .work s.workList } := by
  intro rest
  induction rest with
  | nil =>
      rintro s os - ⟨i, hi, -⟩
      cases hi
  | cons i rest ih =>
      intro s os hpc hbusy
      have hturn := @turn_scan_cons _ _ _ ops (os 0) _ _ _ hpc
      cases hpend : ops.fpending (s.items i) with
      | true =>
          refine ⟨1, Nat.succ_le_succ (Nat.zero_le _), ?_⟩
          rw [xthreadAfter_succ, hturn, hpend]
          rfl
      | false =>
          rw [hpend] at hturn
          have hlater : ∃ j ∈ rest, ops.fpending (s.items j) = true := by
            obtain ⟨j, hj, hwork⟩ := hbusy
            rcases List.mem_cons.mp hj with rfl | hj
            · exact absurd (hpend.symm.trans hwork) Bool.false_ne_true
            · exact ⟨j, hj, hwork⟩
          obtain ⟨n, hn, hafter⟩ :=
            ih (s := { s with pc := .scan rest }) (fun k => os (k + 1)) rfl hlater
          refine ⟨n + 1, Nat.succ_le_succ hn, ?_⟩
          rw [xthreadAfter_succ, hturn]
          exact hafter

/-- Without work it goes to `schedule`. -/
theorem scan_idle :
    ∀ (rest : List ℕ) {s : Xthread σ} (os : ℕ → O), s.pc = .scan rest →
      (∀ i ∈ rest, ops.fpending (s.items i) = false) →
      xthreadAfter ops os (rest.length + 1) s = { s with pc := .sched } := by
  intro rest
  induction rest with
  | nil =>
      intro s os hpc _
      rw [List.length_nil, xthreadAfter_succ, turn_scan_nil hpc, xthreadAfter_zero]
  | cons i rest ih =>
      intro s os hpc hidle
      rw [List.length_cons, xthreadAfter_succ, turn_scan_cons hpc,
        if_neg (Bool.eq_false_iff.mp (hidle i List.mem_cons_self))]
      exact ih (s := { s with pc := .scan rest }) _ rfl fun j hj => hidle j (List.mem_cons_of_mem _ hj)

/-- **The loop over `fproc`** takes every item of the list once and no other. -/
theorem work_through :
    ∀ (rest : List ℕ) {s : Xthread σ} (os : ℕ → O), s.pc = .work rest → rest.Nodup →
      ∃ items, xthreadAfter ops os (rest.length + 1) s = { s with items := items, pc := .top } ∧
        (∀ i ∉ rest, items i = s.items i) ∧ ∀ i ∈ rest, ∃ o, items i = ops.fproc o (s.items i) := by
  intro rest
  induction rest with
  | nil =>
      intro s os hpc _
      refine ⟨s.items, ?_, fun _ _ => rfl, fun i hi => by cases hi⟩
      rw [List.length_nil, xthreadAfter_succ, turn_work_nil hpc, xthreadAfter_zero]
  | cons i rest ih =>
      intro s os hpc hnodup
      obtain ⟨hnot, hrest⟩ := List.nodup_cons.mp hnodup
      obtain ⟨items, hafter, hsame, hdone⟩ := ih
        (s := { s with
          items := Function.update s.items i (ops.fproc (os 0) (s.items i)), pc := .work rest })
        (fun k => os (k + 1)) rfl hrest
      refine ⟨items, ?_, ?_, ?_⟩
      · rw [List.length_cons, xthreadAfter_succ, turn_work_cons hpc]
        exact hafter
      · intro j hj
        rw [List.mem_cons, not_or] at hj
        rw [hsame j hj.2]
        exact Function.update_of_ne hj.1 _ _
      · intro j hj
        rcases List.mem_cons.mp hj with rfl | hj
        · refine ⟨os 0, ?_⟩
          rw [hsame j hnot]
          exact Function.update_self ..
        · obtain ⟨o, ho⟩ := hdone j hj
          have hne : j ≠ i := fun heq => hnot (heq ▸ hj)
          refine ⟨o, ho.trans ?_⟩
          congr 1
          exact Function.update_of_ne hne _ _

/-- From the top of the loop to the look at the items. -/
theorem top_to_scan {s : Xthread σ} (os : ℕ → O) (htop : s.pc = .top) (hgo : s.shouldStop = false) :
    xthreadAfter ops os 3 s = { s with interruptible := true, pc := .scan s.workList } := by
  obtain ⟨pc, interruptible, items, workList, thp, coming, shouldStop, stopping, oops⟩ := s
  subst htop hgo
  rfl

/-- **One turn of the loop**: a thread with work on its list serves every linked item once
and no other before it looks again; a thread without any goes to sleep and touches
nothing. -/
theorem xthread_round {s : Xthread σ} (os : ℕ → O) (htop : s.pc = .top)
    (hgo : s.shouldStop = false) (hnodup : s.workList.Nodup) :
    ((∀ i ∈ s.workList, ops.fpending (s.items i) = false) →
      (xthreadAfter ops os (s.workList.length + 4) s).asleep ∧
        (xthreadAfter ops os (s.workList.length + 4) s).items = s.items) ∧
    ((∃ i ∈ s.workList, ops.fpending (s.items i) = true) →
      ∃ n ≤ 2 * s.workList.length + 4, (xthreadAfter ops os n s).pc = .top ∧
        (∀ i ∉ s.workList, (xthreadAfter ops os n s).items i = s.items i) ∧
          ∀ i ∈ s.workList, ∃ o, (xthreadAfter ops os n s).items i = ops.fproc o (s.items i)) := by
  have hlook : xthreadAfter ops os 3 s = _ := top_to_scan os htop hgo
  constructor
  · intro hidle
    have hsleep := @scan_idle _ _ _ ops s.workList
      { s with interruptible := true, pc := .scan s.workList } (fun k => os (3 + k)) rfl hidle
    rw [show s.workList.length + 4 = 3 + (s.workList.length + 1) by omega, xthreadAfter_add, hlook,
      hsleep]
    exact ⟨⟨rfl, rfl⟩, rfl⟩
  · intro hbusy
    obtain ⟨m, hm, hfound⟩ := @scan_busy _ _ _ ops s.workList
      { s with interruptible := true, pc := .scan s.workList } (fun k => os (3 + k)) rfl hbusy
    obtain ⟨items, hworked, hsame, hdone⟩ := @work_through _ _ _ ops s.workList
      { s with interruptible := false, pc := .work s.workList }
      (fun k => os (3 + m + k)) rfl hnodup
    refine ⟨3 + m + (s.workList.length + 1), by omega, ?_⟩
    have hafter : xthreadAfter ops os (3 + m + (s.workList.length + 1)) s =
        { s with interruptible := false, items := items, pc := .top } := by
      rw [xthreadAfter_add os (3 + m), xthreadAfter_add os 3, hlook, hfound]
      exact hworked
    rw [hafter]
    exact ⟨rfl, hsame, hdone⟩

/-! ### Stopping it -/

/-- Left alone, the thread ends. -/
def XthreadExits (ops : KthreadOps σ A O) (os : ℕ → O) (s : Xthread σ) : Prop :=
  ∃ n, (xthreadAfter ops os n s).pc = .exit

theorem exits_of_after {os : ℕ → O} {s : Xthread σ} (n : ℕ)
    (h : XthreadExits ops (fun k => os (n + k)) (xthreadAfter ops os n s)) :
    XthreadExits ops os s := by
  obtain ⟨m, hm⟩ := h
  refine ⟨n + m, ?_⟩
  rw [xthreadAfter_add]
  exact hm

theorem exits_of_turn {os : ℕ → O} {s : Xthread σ}
    (h : XthreadExits ops (fun k => os (k + 1)) (xthreadTurn ops (os 0) s)) :
    XthreadExits ops os s := by
  obtain ⟨m, hm⟩ := h
  exact ⟨m + 1, hm⟩

theorem exits_top {s : Xthread σ} (htold : s.shouldStop = true) (os : ℕ → O) (hpc : s.pc = .top) :
    XthreadExits ops os s := by
  refine ⟨1, ?_⟩
  rw [xthreadAfter_succ, xthreadTurn_of_ne (by rw [hpc]; exact XthreadPc.noConfusion)]
  unfold xthreadMain
  rw [hpc, xthreadAfter_zero]
  exact congrArg Xthread.pc (if_pos htold)

theorem exits_work :
    ∀ (rest : List ℕ) {s : Xthread σ} (os : ℕ → O), s.shouldStop = true → s.pc = .work rest →
      XthreadExits ops os s := by
  intro rest
  induction rest with
  | nil =>
      intro s os htold hpc
      refine exits_of_turn ?_
      rw [turn_work_nil hpc]
      exact exits_top (s := { s with pc := .top }) htold _ rfl
  | cons i rest ih =>
      intro s os htold hpc
      refine exits_of_turn ?_
      rw [turn_work_cons hpc]
      exact ih (s := { s with
        items := Function.update s.items i (ops.fproc (os 0) (s.items i)), pc := .work rest })
        _ htold rfl

theorem exits_sched {s : Xthread σ} (os : ℕ → O) (htold : s.shouldStop = true)
    (hpc : s.pc = .sched) (hrun : s.interruptible = false) : XthreadExits ops os s := by
  obtain ⟨pc, interruptible, items, workList, thp, coming, shouldStop, stopping, oops⟩ := s
  subst hpc hrun
  refine exits_of_after 2 ?_
  exact exits_work workList _ htold rfl

/-- The timer takes the announcement back. -/
theorem exits_asleep {s : Xthread σ} (os : ℕ → O) (htimer : ops.timeout ≠ 0)
    (htold : s.shouldStop = true) (hpc : s.pc = .sched) (hsleep : s.interruptible = true) :
    XthreadExits ops os s := by
  refine exits_of_turn ?_
  unfold xthreadTurn
  rw [if_pos ⟨hpc, hsleep⟩, if_neg htimer]
  exact exits_sched _ htold hpc rfl

/-- In the look at the items, with the announcement taken back. -/
theorem exits_scan {s : Xthread σ} {rest : List ℕ} (os : ℕ → O) (htold : s.shouldStop = true)
    (hpc : s.pc = .scan rest) (hrun : s.interruptible = false) : XthreadExits ops os s := by
  by_cases hbusy : ∃ i ∈ rest, ops.fpending (s.items i) = true
  · obtain ⟨n, -, hafter⟩ := @scan_busy _ _ _ ops rest _ os hpc hbusy
    refine exits_of_after n ?_
    rw [hafter]
    exact exits_work _ _ htold rfl
  · have hidle : ∀ i ∈ rest, ops.fpending (s.items i) = false := by
      intro i hi
      rw [← Bool.not_eq_true]
      exact fun hpend => hbusy ⟨i, hi, hpend⟩
    refine exits_of_after (rest.length + 1) ?_
    rw [scan_idle rest os hpc hidle]
    exact exits_sched _ htold rfl hrun

/-- A thread on its way to sleep: it has passed the test of the flag, and there is nothing
to do. -/
structure Dozing (ops : KthreadOps σ A O) (s : Xthread σ) : Prop where
  place : s.pc = .mark ∨ s.interruptible = true ∧
    (s.pc = .lock ∨ (∃ rest, s.pc = .scan rest ∧ rest ⊆ s.workList) ∨ s.pc = .sched)
  idle : ∀ i ∈ s.workList, ops.fpending (s.items i) = false

theorem Dozing.turn {s : Xthread σ} (h : Dozing ops s) (htimer : ops.timeout = 0) (o : O) :
    Dozing ops (xthreadTurn ops o s) := by
  have hidle := h.idle
  rcases h.place with hpc | ⟨hint, hpc | ⟨rest, hpc, hsub⟩ | hpc⟩
  · rw [xthreadTurn_of_ne (by rw [hpc]; exact XthreadPc.noConfusion)]
    unfold xthreadMain
    rw [hpc]
    exact ⟨Or.inr ⟨rfl, Or.inl rfl⟩, hidle⟩
  · rw [xthreadTurn_of_ne (by rw [hpc]; exact XthreadPc.noConfusion)]
    unfold xthreadMain
    rw [hpc]
    exact ⟨Or.inr ⟨hint, Or.inr (Or.inl ⟨s.workList, rfl, List.Subset.refl _⟩)⟩, hidle⟩
  · cases rest with
    | nil =>
        rw [turn_scan_nil hpc]
        exact ⟨Or.inr ⟨hint, Or.inr (Or.inr rfl)⟩, hidle⟩
    | cons i rest =>
        rw [turn_scan_cons hpc, if_neg (Bool.eq_false_iff.mp (hidle i (hsub List.mem_cons_self)))]
        refine ⟨Or.inr ⟨hint, Or.inr (Or.inl ⟨rest, rfl, ?_⟩)⟩, hidle⟩
        exact fun j hj => hsub (List.mem_cons_of_mem i hj)
  · have hasleep : xthreadTurn ops o s = s := by
      unfold xthreadTurn
      rw [if_pos ⟨hpc, hint⟩, if_pos htimer]
    rw [hasleep]
    exact h

theorem Dozing.not_exits {s : Xthread σ} (h : Dozing ops s) (htimer : ops.timeout = 0) (os : ℕ → O) :
    ¬ XthreadExits ops os s := by
  have hdoze : ∀ (n : ℕ) (os : ℕ → O) {t : Xthread σ}, Dozing ops t →
      Dozing ops (xthreadAfter ops os n t) := by
    intro n
    induction n with
    | zero => exact fun _ _ ht => ht
    | succ n ih => exact fun os _ ht => ih _ (ht.turn htimer (os 0))
  rintro ⟨n, hexit⟩
  rcases (hdoze n os h).place with hpc | ⟨-, hpc | ⟨rest, hpc, -⟩ | hpc⟩
  all_goals exact XthreadPc.noConfusion (hpc.symm.trans hexit)

/-- **Stopping a thread.**  `kthread_stop` sets the flag and wakes the thread, which, left
alone, then ends, unless the wakeup came after the test of the flag and before the
announcement, no item has work and no timer runs: then it sleeps with the flag set. -/
theorem stop_heard_iff {s : Xthread σ} (os : ℕ → O) (htold : s.shouldStop = true) :
    XthreadExits ops os (xthreadStep ops s .stopWake) ↔
      ¬ (ops.timeout = 0 ∧ s.pc = .mark ∧ ∀ i ∈ s.workList, ops.fpending (s.items i) = false) := by
  obtain ⟨pc, interruptible, items, workList, thp, coming, shouldStop, stopping, oops⟩ := s
  dsimp only at htold ⊢
  constructor
  · rintro hexits ⟨htimer, hpc, hidle⟩
    subst hpc
    exact Dozing.not_exits ⟨Or.inl rfl, hidle⟩ htimer os hexits
  · intro hmissed
    unfold xthreadStep
    dsimp only
    cases pc with
    | top => exact exits_top htold os rfl
    | mark =>
        refine exits_of_after 2 ?_
        change XthreadExits ops _
          ⟨.scan workList, true, items, workList, thp, coming, shouldStop, false, oops⟩
        by_cases hbusy : ∃ i ∈ workList, ops.fpending (items i) = true
        · obtain ⟨n, -, hafter⟩ := @scan_busy _ _ _ ops workList
            ⟨.scan workList, true, items, workList, thp, coming, shouldStop, false, oops⟩
            (fun k => os (2 + k)) rfl hbusy
          refine exits_of_after n ?_
          rw [hafter]
          exact exits_work _ _ htold rfl
        · have hidle : ∀ i ∈ workList, ops.fpending (items i) = false := by
            intro i hi
            rw [← Bool.not_eq_true]
            exact fun hpend => hbusy ⟨i, hi, hpend⟩
          -- it falls asleep, and only a timer can help
          refine exits_of_after (workList.length + 1) ?_
          rw [scan_idle workList _ rfl hidle]
          exact exits_asleep _ (fun htimer => hmissed ⟨htimer, rfl, hidle⟩) htold rfl rfl
    | lock =>
        refine exits_of_turn ?_
        exact @exits_scan _ _ _ ops _ workList _ htold rfl rfl
    | scan rest => exact exits_scan os htold rfl rfl
    | sched => exact exits_sched os htold rfl rfl
    | relock =>
        refine exits_of_turn ?_
        exact exits_work workList _ htold rfl
    | work rest => exact exits_work rest os htold rfl
    | exit => exact ⟨0, rfl⟩

end Alone

end Qdma

import Qdma.Membership

/-!
# The worker thread of a queue

`qdma_thread_add_work` looks for the worker thread with the least work.  The loop compares
every thread with the first one: `v` is set when the first thread is seen and not again, so
that what is found is the *last* thread with less work than the first, unless an idle thread
ends the loop before.

* `Picked` is what the loop finds, whatever the loads are.
* `WorkerChoice` is what the choice is for, and `worker_choice_iff` says for which loads it
  is right.  Loads that come from additions alone never differ by more than one, and among
  those any thread with less work than the first has the least.
-/

namespace Qdma

/-! ## What the loop finds -/

/-- The thread found from thread `i` on, `idx` being the choice so far: an idle one, the last
one with less work than `v`, or still `idx`. -/
inductive Picked (cnt : ℕ → ℕ) (v i n idx : ℕ) : ℕ → Prop
  | idle {r : ℕ} (hi : i ≤ r) (hn : r < i + n) (hr : cnt r = 0) : Picked cnt v i n idx r
  | kept (hbusy : ∀ j, i ≤ j → j < i + n → cnt j ≠ 0) (hmore : ∀ j, i ≤ j → j < i + n → v ≤ cnt j) :
      Picked cnt v i n idx idx
  | last {r : ℕ} (hbusy : ∀ j, i ≤ j → j < i + n → cnt j ≠ 0) (hi : i ≤ r) (hn : r < i + n)
      (hr : cnt r < v) (hmore : ∀ j, r < j → j < i + n → v ≤ cnt j) : Picked cnt v i n idx r

/-- A busy thread that does not have less work than `v` is passed. -/
theorem Picked.pass {cnt : ℕ → ℕ} {v i n idx r : ℕ} (h : Picked cnt v (i + 1) n idx r)
    (hbusy : cnt i ≠ 0) (hmore : v ≤ cnt i) : Picked cnt v i (n + 1) idx r := by
  have hall : ∀ {P : ℕ → Prop}, P i → (∀ j, i + 1 ≤ j → j < i + 1 + n → P j) →
      ∀ j, i ≤ j → j < i + (n + 1) → P j := by
    intro P hP h j hj hn
    rcases Nat.eq_or_lt_of_le hj with rfl | hlt
    · exact hP
    · exact h j hlt (by omega)
  cases h with
  | idle hi hn hr => exact .idle (by omega) (by omega) hr
  | kept hb hm => exact .kept (hall hbusy hb) (hall hmore hm)
  | last hb hi hn hr hm =>
      exact .last (hall hbusy hb) (by omega) (by omega) hr fun j hj hjn => hm j hj (by omega)

/-- A busy thread with less work than `v` is the choice until another one is found. -/
theorem Picked.take {cnt : ℕ → ℕ} {v i n idx r : ℕ} (h : Picked cnt v (i + 1) n i r)
    (hbusy : cnt i ≠ 0) (hless : cnt i < v) : Picked cnt v i (n + 1) idx r := by
  have hall : (∀ j, i + 1 ≤ j → j < i + 1 + n → cnt j ≠ 0) →
      ∀ j, i ≤ j → j < i + (n + 1) → cnt j ≠ 0 := by
    intro h j hj hn
    rcases Nat.eq_or_lt_of_le hj with rfl | hlt
    · exact hbusy
    · exact h j hlt (by omega)
  cases h with
  | idle hi hn hr => exact .idle (by omega) (by omega) hr
  | kept hb hm =>
      exact .last (hall hb) le_rfl (by omega) hless fun j hj hjn => hm j hj (by omega)
  | last hb hi hn hr hm =>
      exact .last (hall hb) (by omega) (by omega) hr fun j hj hjn => hm j hj (by omega)

/-- The loop behind the first thread.  The induction is on the threads to go. -/
theorem picked_loop {threadCnt : ℕ} (cnt : ℕ → ℕ) (v : ℕ) :
    ∀ n i idx, idx < threadCnt → i + n ≤ threadCnt →
      Picked cnt v i n idx (pickWorkerLoop threadCnt cnt n i idx v) := by
  intro n
  induction n with
  | zero =>
      intro i idx _ _
      exact .kept (fun j hj hn => by omega) (fun j hj hn => by omega)
  | succ n ih =>
      intro i idx hidx hn
      unfold pickWorkerLoop
      rw [if_neg (Nat.ne_of_lt hidx)]
      split
      · rename_i hzero
        exact .idle le_rfl (by omega) hzero
      · rename_i hbusy
        split
        · rename_i hless
          exact (ih (i + 1) i (by omega) (by omega)).take hbusy hless
        · rename_i hmore
          exact (ih (i + 1) idx hidx (by omega)).pass hbusy (Nat.le_of_not_lt hmore)

/-- The work of thread `t`. -/
def XlnxDmaDev.load (dev : XlnxDmaDev) (t : ℕ) : ℕ := (dev.wrkThreads t).workCnt

theorem pickWorkerLoop_first {threadCnt n : ℕ} (cnt : ℕ → ℕ) (h : threadCnt = n + 1) :
    pickWorkerLoop threadCnt cnt threadCnt 0 threadCnt 0 =
      pickWorkerLoop threadCnt cnt n 1 0 (cnt 0) := by
  subst h
  rw [pickWorkerLoop, if_pos rfl]

/-- The first thread is compared with all others. -/
theorem picked_worker (dev : XlnxDmaDev) :
    Picked dev.load (dev.load 0) 1 (dev.threadCnt - 1) 0 (pickWorker dev) := by
  have hpos := dev.threadCnt_pos
  have hfirst : pickWorker dev = _ :=
    pickWorkerLoop_first dev.load (n := dev.threadCnt - 1) (by omega)
  rw [hfirst]
  exact picked_loop dev.load (dev.load 0) (dev.threadCnt - 1) 1 0 hpos (by omega)

/-! ## What the choice is for -/

/-- The loads of any two threads differ by at most one. -/
def XlnxDmaDev.Balanced (dev : XlnxDmaDev) : Prop :=
  ∀ t < dev.threadCnt, ∀ u < dev.threadCnt, dev.load t ≤ dev.load u + 1

def XlnxDmaDev.Idle (dev : XlnxDmaDev) : Prop := ∀ t < dev.threadCnt, dev.load t = 0

/-- Queues are added and none is taken away. -/
def addAll (dev : XlnxDmaDev) (qs : List ℕ) : XlnxDmaDev := qs.foldl qdmaThreadAddWork dev

/-- The thread chosen exists and has the least work; and where all threads were idle, any
number of additions that `work_cnt` can count leaves them balanced. -/
structure WorkerChoice (dev : XlnxDmaDev) : Prop where
  inRange : pickWorker dev < dev.threadCnt
  least : ∀ t < dev.threadCnt, dev.load (pickWorker dev) ≤ dev.load t
  balanced : dev.Idle → ∀ qs : List ℕ, qs.length < 2 ^ 32 → (addAll dev qs).Balanced

/-- Another thread than the first is idle, or the last one with less work than the first has
the least. -/
def LastLessIsLeast (dev : XlnxDmaDev) : Prop :=
  (∃ t < dev.threadCnt, 0 < t ∧ dev.load t = 0) ∨
    ∀ t < dev.threadCnt, dev.load t < dev.load 0 →
      (∀ u < dev.threadCnt, t < u → dev.load 0 ≤ dev.load u) →
      ∀ u < dev.threadCnt, dev.load t ≤ dev.load u

/-- The two ways of saying which thread is right. -/
theorem least_iff (dev : XlnxDmaDev) :
    (∀ t < dev.threadCnt, dev.load (pickWorker dev) ≤ dev.load t) ↔ LastLessIsLeast dev := by
  have hpos := dev.threadCnt_pos
  have hpicked := picked_worker dev
  generalize pickWorker dev = r at hpicked ⊢
  constructor
  · intro hleast
    cases hpicked with
    | idle hi hn hr => exact Or.inl ⟨r, by omega, by omega, hr⟩
    | kept hbusy hmore =>
        refine Or.inr fun t ht hless _ => ?_
        exact absurd hless (Nat.not_lt.mpr (hleast t ht))
    | last hbusy hi hn hr hmore =>
        refine Or.inr fun t ht hless hafter => ?_
        -- there is only one last thread
        obtain hlt | rfl | hgt := Nat.lt_trichotomy t r
        · exact absurd hr (Nat.not_lt.mpr (hafter r (by omega) hlt))
        · exact hleast
        · exact absurd hless (Nat.not_lt.mpr (hmore t hgt (by omega)))
  · intro hcond
    cases hpicked with
    | idle hi hn hr =>
        intro t _
        rw [hr]
        exact Nat.zero_le _
    | kept hbusy hmore =>
        intro t ht
        obtain rfl | hne := Nat.eq_zero_or_pos t
        · exact le_rfl
        · exact hmore t hne (by omega)
    | last hbusy hi hn hr hmore =>
        rcases hcond with ⟨t, ht, hne, hzero⟩ | hlast
        · exact absurd hzero (hbusy t hne (by omega))
        · exact hlast r (by omega) hr fun u hu hru => hmore u hru (by omega)

/-! ## Additions alone -/

/-- The loads are `k` or `k + 1`. -/
def TwoLevels (dev : XlnxDmaDev) (k : ℕ) : Prop :=
  ∀ t < dev.threadCnt, dev.load t = k ∨ dev.load t = k + 1

theorem TwoLevels.balanced {dev : XlnxDmaDev} {k : ℕ} (h : TwoLevels dev k) : dev.Balanced := by
  intro t ht u hu
  have ht' := h t ht
  have hu' := h u hu
  omega

/-- On two levels every thread with less work than the first has the least. -/
theorem TwoLevels.least {dev : XlnxDmaDev} {k : ℕ} (h : TwoLevels dev k) :
    ∀ t < dev.threadCnt, dev.load (pickWorker dev) ≤ dev.load t := by
  refine (least_iff dev).mpr (Or.inr fun t ht hless _ u hu => ?_)
  have h₀ := h 0 dev.threadCnt_pos
  have ht' := h t ht
  have hu' := h u hu
  omega

/-- An addition gives one thread one more. -/
theorem load_addWork (dev : XlnxDmaDev) (q t : ℕ) :
    (qdmaThreadAddWork dev q).threadCnt = dev.threadCnt ∧
      (qdmaThreadAddWork dev q).load t =
        if t = pickWorker dev then u32 (dev.load t + 1) else dev.load t := by
  have hload : ((Function.update dev.wrkThreads (pickWorker dev)
      ((dev.wrkThreads (pickWorker dev)).addTail q)) t).workCnt =
        if t = pickWorker dev then u32 (dev.load t + 1) else dev.load t := by
    by_cases ht : t = pickWorker dev
    · rw [if_pos ht, ht, Function.update_self]
      rfl
    · rw [if_neg ht, Function.update_of_ne ht]
      rfl
  unfold qdmaThreadAddWork
  dsimp only
  split
  · exact ⟨rfl, hload⟩
  · exact ⟨rfl, hload⟩

/-- **One addition** keeps two levels: the thread with the least work gets the queue. -/
theorem TwoLevels.addWork {dev : XlnxDmaDev} {k : ℕ} (h : TwoLevels dev k)
    (hroom : ∀ t < dev.threadCnt, dev.load t + 1 < 2 ^ 32) (q : ℕ) :
    ∃ k', TwoLevels (qdmaThreadAddWork dev q) k' := by
  have hr := pickWorker_lt dev
  have hleast := h.least
  have hcnt := (load_addWork dev q 0).1
  have hload : ∀ t < dev.threadCnt, (qdmaThreadAddWork dev q).load t =
      if t = pickWorker dev then dev.load t + 1 else dev.load t := by
    intro t ht
    rw [(load_addWork dev q t).2, u32_of_lt (hroom t ht)]
  rcases h (pickWorker dev) hr with hlow | hhigh
  · refine ⟨k, fun t ht => ?_⟩
    rw [hcnt] at ht
    rw [hload t ht]
    split
    · rename_i heq
      rw [heq]
      omega
    · exact h t ht
  · refine ⟨k + 1, fun t ht => ?_⟩
    rw [hcnt] at ht
    have ht' := h t ht
    have hle := hleast t ht
    rw [hload t ht]
    split
    · rename_i heq
      rw [heq]
      omega
    · omega

/-- **Any number of additions.**  `m` is the number of queues a thread has at most. -/
theorem TwoLevels.addAll (qs : List ℕ) :
    ∀ {dev : XlnxDmaDev} {k m : ℕ}, TwoLevels dev k → (∀ t < dev.threadCnt, dev.load t ≤ m) →
      m + qs.length < 2 ^ 32 → ∃ k', TwoLevels (Qdma.addAll dev qs) k' := by
  induction qs with
  | nil => intro dev k m h _ _; exact ⟨k, h⟩
  | cons q qs ih =>
      intro dev k m h hm hlen
      rw [List.length_cons] at hlen
      have hroom : ∀ t < dev.threadCnt, dev.load t + 1 < 2 ^ 32 := by
        intro t ht
        have hle := hm t ht
        omega
      obtain ⟨k', h'⟩ := h.addWork hroom q
      have hm' : ∀ t < (qdmaThreadAddWork dev q).threadCnt,
          (qdmaThreadAddWork dev q).load t ≤ m + 1 := by
        intro t ht
        rw [(load_addWork dev q 0).1] at ht
        have hle := hm t ht
        rw [(load_addWork dev q t).2, u32_of_lt (hroom t ht)]
        split <;> omega
      exact ih h' hm' (by omega)

/-- **The choice of a worker** is right exactly where another thread than the first is idle,
or the last thread with less work than the first has the least. -/
theorem worker_choice_iff (dev : XlnxDmaDev) : WorkerChoice dev ↔ LastLessIsLeast dev := by
  constructor
  · intro h
    exact (least_iff dev).mp h.least
  · intro hcond
    refine ⟨pickWorker_lt dev, (least_iff dev).mpr hcond, ?_⟩
    intro hidle qs hlen
    have hlevels : TwoLevels dev 0 := fun t ht => Or.inl (hidle t ht)
    obtain ⟨k, hk⟩ := TwoLevels.addAll qs hlevels (m := 0) (fun t ht => (hidle t ht).le) (by omega)
    exact hk.balanced

/-- A thread with `n` queues. -/
def QdmaKthread.withWork (n : ℕ) : QdmaKthread := { QdmaKthread.idle with workCnt := n }

/-- Three threads with 3, 1 and 2 queues. -/
def threeThreadDev : XlnxDmaDev :=
  { polledDev with
    threadCnt := 3
    threadCnt_pos := Nat.succ_pos 2
    wrkThreads := fun t => QdmaKthread.withWork ([3, 1, 2].getD t 0) }

/-- The third thread is chosen, and the second has less work. -/
theorem worker_choice_last : ¬ ∀ dev : XlnxDmaDev, WorkerChoice dev := by
  intro hall
  have hleast := (hall threeThreadDev).least 1 (by decide)
  revert hleast
  decide

end Qdma

import Qdma.LifeSpec
import Qdma.Lib.Seating

/-!
# Who serves a queue

`qdma_thread_add_work` hangs a started queue on the list of a worker thread and, in
polled mode, on that of a writeback thread, in interrupt mode on the list of its
vector.  `qdma_thread_remove_work` takes it off again; which of the two modes it is
in, it guesses from `wbthp`.

`FollowsOnline` says what is wanted of the lists between calls.  It is kept by every
run of calls that is *orderly* (`orderlyCall`): a queue is stopped only while it is
online, removed only while it is not, and when the device is cleaned up all enabled
queues are online.

The invariant is `Linked`.  It gives the lists by `Seated`, the seats being the
thread pointers of the queue and, for the interrupt lists, its vector.
-/

namespace Qdma

open Lib

/-! ## The property -/

/-- How often the queue occurs on the first `n` lists of a family. -/
def occurrences (lists : ℕ → List ℕ) (n q : ℕ) : ℕ :=
  ((List.range n).map fun i => (lists i).count q).sum

/-- A queue is linked once on each kind of list exactly while it is online, the
work counts are the lengths of the lists, and no list operation met a node in the
wrong state. -/
structure FollowsOnline (dev : XlnxDmaDev) : Prop where
  wrk : ∀ q < 2 * dev.qmax,
    occurrences (fun t => (dev.wrkThreads t).workList) dev.threadCnt q =
      if (dev.descq q).online then 1 else 0
  wb : ∀ q < 2 * dev.qmax,
    occurrences (fun t => (dev.wbThreads t).workList) dev.threadCnt q =
      if dev.numVecs = 0 ∧ (dev.descq q).online then 1 else 0
  intr : ∀ q < 2 * dev.qmax,
    occurrences dev.intrList dev.numVecs q =
      if dev.numVecs ≠ 0 ∧ (dev.descq q).online then 1 else 0
  wrkCnt : ∀ t < dev.threadCnt, (dev.wrkThreads t).workCnt = (dev.wrkThreads t).workList.length
  wbCnt : ∀ t < dev.threadCnt, (dev.wbThreads t).workCnt = (dev.wbThreads t).workList.length
  noFault : dev.listFault = false

/-- The calls are made in an order that suits the driver. -/
def orderlyCall (dev : XlnxDmaDev) : LifeEv → Prop
  | .add _ => True
  | .start _ _ => True
  | .stop id _ => (dev.descq id).enabled = true → (dev.descq id).online = true
  | .remove id _ => (dev.descq id).online = false
  | .cleanup _ _ =>
      ∀ q ∈ List.range (2 * dev.qmax), (dev.descq q).enabled = true → (dev.descq q).online = true

instance decidableOrderlyCall (dev : XlnxDmaDev) : ∀ e, Decidable (orderlyCall dev e) := by
  rintro ⟨⟩ <;> dsimp only [orderlyCall] <;> infer_instance

def orderlySys : System XlnxDmaDev LifeEv := lifeSys.restrict orderlyCall

instance (dev : XlnxDmaDev) (e : LifeEv) : Decidable (orderlySys.guard dev e) :=
  have := decidableOrderlyCall dev e
  inferInstanceAs (Decidable (_ ∧ _))

/-! ## The invariant -/

/-- The vector list a queue belongs on. -/
def XlnxDmaDev.intrSeat (dev : XlnxDmaDev) (q : ℕ) : Option ℕ :=
  if dev.numVecs ≠ 0 ∧ (dev.descq q).online = true then some (dev.descq q).intrId else none

/-- The thread pointers and the vector of a queue follow its online flag. -/
structure SeatOk (dev : XlnxDmaDev) (q : ℕ) (d : QdmaDescq) : Prop where
  inRange : d.online = true → q < 2 * dev.qmax ∧ d.enabled = true
  wrkOn : d.online = true → ∃ t < dev.threadCnt, d.wrkthp = some t
  wbOn : d.online = true → dev.numVecs = 0 → ∃ t < dev.threadCnt, d.wbthp = some t
  intrOn : d.online = true → dev.numVecs ≠ 0 → d.wbthp = none ∧ d.intrId < dev.numVecs
  off : d.online = false → d.wrkthp = none ∧ d.wbthp = none

/-- The lists hold what the queues' pointers say, and these follow the online
flag. -/
structure Linked (dev : XlnxDmaDev) : Prop where
  wrk : Seated (fun t => (dev.wrkThreads t).workList) fun q => (dev.descq q).wrkthp
  wb : Seated (fun t => (dev.wbThreads t).workList) fun q => (dev.descq q).wbthp
  intr : Seated dev.intrList dev.intrSeat
  wrkCnt : ∀ t, (dev.wrkThreads t).workCnt = (dev.wrkThreads t).workList.length
  wbCnt : ∀ t, (dev.wbThreads t).workCnt = (dev.wbThreads t).workList.length
  seat : ∀ q, SeatOk dev q (dev.descq q)
  noFault : dev.listFault = false

/-! ## Calls that leave the lists alone -/

section Kept

variable {dev dev' : XlnxDmaDev} {q : ℕ}

/-- The numbers of vectors, queues and threads are the same. -/
structure SameShape (dev dev' : XlnxDmaDev) : Prop where
  numVecs : dev'.numVecs = dev.numVecs
  qmax : dev'.qmax = dev.qmax
  threadCnt : dev'.threadCnt = dev.threadCnt

theorem SeatOk.of_sameShape {d : QdmaDescq} (h : SeatOk dev q d) (hs : SameShape dev dev') :
    SeatOk dev' q d where
  inRange := by rw [hs.qmax]; exact h.inRange
  wrkOn := by rw [hs.threadCnt]; exact h.wrkOn
  wbOn := by rw [hs.numVecs, hs.threadCnt]; exact h.wbOn
  intrOn := by rw [hs.numVecs]; exact h.intrOn
  off := h.off

/-- The lists and the threads are the same. -/
structure SameLists (dev dev' : XlnxDmaDev) : Prop extends SameShape dev dev' where
  wrkThreads : dev'.wrkThreads = dev.wrkThreads
  wbThreads : dev'.wbThreads = dev.wbThreads
  intrList : dev'.intrList = dev.intrList
  listFault : dev'.listFault = dev.listFault

theorem SameLists.trans {dev₁ dev₂ dev₃ : XlnxDmaDev} (h₁ : SameLists dev₁ dev₂)
    (h₂ : SameLists dev₂ dev₃) : SameLists dev₁ dev₃ where
  numVecs := h₂.numVecs.trans h₁.numVecs
  qmax := h₂.qmax.trans h₁.qmax
  threadCnt := h₂.threadCnt.trans h₁.threadCnt
  wrkThreads := h₂.wrkThreads.trans h₁.wrkThreads
  wbThreads := h₂.wbThreads.trans h₁.wbThreads
  intrList := h₂.intrList.trans h₁.intrList
  listFault := h₂.listFault.trans h₁.listFault

/-- What the invariant reads of a queue: the vector only while it is online. -/
structure SameSeat (d d' : QdmaDescq) : Prop where
  online : d'.online = d.online
  wrkthp : d'.wrkthp = d.wrkthp
  wbthp : d'.wbthp = d.wbthp
  enabled : d.online = true → d'.enabled = d.enabled
  intrId : d.online = true → d'.intrId = d.intrId

theorem SameSeat.refl (d : QdmaDescq) : SameSeat d d := ⟨rfl, rfl, rfl, fun _ => rfl, fun _ => rfl⟩

theorem SameSeat.seatOk {d d' : QdmaDescq} (hd : SameSeat d d') (h : SeatOk dev q d) :
    SeatOk dev q d' where
  inRange hon := by
    rw [hd.online] at hon
    rw [hd.enabled hon]
    exact h.inRange hon
  wrkOn hon := by
    rw [hd.online] at hon
    rw [hd.wrkthp]
    exact h.wrkOn hon
  wbOn hon := by
    rw [hd.online] at hon
    rw [hd.wbthp]
    exact h.wbOn hon
  intrOn hon := by
    rw [hd.online] at hon
    rw [hd.wbthp, hd.intrId hon]
    exact h.intrOn hon
  off hoff := by
    rw [hd.online] at hoff
    rw [hd.wrkthp, hd.wbthp]
    exact h.off hoff

/-- One queue rewritten in fields the invariant does not read. -/
theorem sameSeat_update (q : ℕ) {d : QdmaDescq} (h : SameSeat (dev.descq q) d) (p : ℕ) :
    SameSeat (dev.descq p) (Function.update dev.descq q d p) := by
  by_cases hp : p = q
  · subst hp
    rw [Function.update_self]
    exact h
  · rw [Function.update_of_ne hp]
    exact SameSeat.refl _

theorem intrSeat_congr (hn : dev'.numVecs = dev.numVecs)
    (hseat : ∀ p, SameSeat (dev.descq p) (dev'.descq p)) : dev'.intrSeat = dev.intrSeat := by
  funext p
  unfold XlnxDmaDev.intrSeat
  rw [hn, (hseat p).online]
  split
  · rename_i h
    rw [(hseat p).intrId h.2]
  · rfl

theorem Linked.of_same (h : Linked dev) (hlists : SameLists dev dev')
    (hseat : ∀ p, SameSeat (dev.descq p) (dev'.descq p)) : Linked dev' where
  wrk := by
    simp only [hlists.wrkThreads, (hseat _).wrkthp]
    exact h.wrk
  wb := by
    simp only [hlists.wbThreads, (hseat _).wbthp]
    exact h.wb
  intr := by
    rw [intrSeat_congr hlists.numVecs hseat, hlists.intrList]
    exact h.intr
  wrkCnt := by
    rw [hlists.wrkThreads]
    exact h.wrkCnt
  wbCnt := by
    rw [hlists.wbThreads]
    exact h.wbCnt
  seat p := ((hseat p).seatOk (h.seat p)).of_sameShape hlists.toSameShape
  noFault := hlists.listFault.trans h.noFault

end Kept

/-! ## Hanging a queue on its lists -/

theorem pickWorkerLoop_lt {threadCnt : ℕ} (cnt : ℕ → ℕ) :
    ∀ n i idx v, idx ≤ threadCnt → (idx = threadCnt → 0 < n) → i + n ≤ threadCnt →
      pickWorkerLoop threadCnt cnt n i idx v < threadCnt := by
  intro n
  induction n with
  | zero =>
      intro i idx v hle hpos _
      exact Nat.lt_of_le_of_ne hle fun he => absurd (hpos he) (by decide)
  | succ n ih =>
      intro i idx v hle _ hn
      have hi : i < threadCnt := by omega
      unfold pickWorkerLoop
      split
      · exact ih (i + 1) i _ hi.le (fun he => absurd he hi.ne) (by omega)
      · rename_i hidx
        split
        · exact hi
        · split
          · exact ih (i + 1) i v hi.le (fun he => absurd he hi.ne) (by omega)
          · exact ih (i + 1) idx v hle (fun he => absurd he hidx) (by omega)

/-- The thread chosen exists. -/
theorem pickWorker_lt (dev : XlnxDmaDev) : pickWorker dev < dev.threadCnt :=
  pickWorkerLoop_lt _ dev.threadCnt 0 dev.threadCnt 0 le_rfl (fun _ => dev.threadCnt_pos) (by omega)

/-- A field of a rewritten entry is a rewritten entry of the field. -/
theorem field_update {α β : Type} (field : α → β) (g : ℕ → α) (i : ℕ) (a : α) :
    (fun j => field (Function.update g i a j)) = Function.update (fun j => field (g j)) i (field a) := by
  funext j
  by_cases hj : j = i
  · subst hj
    rw [Function.update_self, Function.update_self]
  · rw [Function.update_of_ne hj, Function.update_of_ne hj]

section Threads

variable {dev dev' : XlnxDmaDev} {q : ℕ}

theorem intrSeat_update {d : QdmaDescq} (hn : dev'.numVecs = dev.numVecs)
    (hd : dev'.descq = Function.update dev.descq q d) :
    dev'.intrSeat = Function.update dev.intrSeat q
      (if dev.numVecs ≠ 0 ∧ d.online = true then some d.intrId else none) := by
  funext p
  unfold XlnxDmaDev.intrSeat
  rw [hn, hd]
  by_cases hp : p = q
  · subst hp
    rw [Function.update_self, Function.update_self]
  · rw [Function.update_of_ne hp, Function.update_of_ne hp]

theorem Linked.wrk_length (h : Linked dev) (t : ℕ) :
    (dev.wrkThreads t).workList.length ≤ 2 * dev.qmax := by
  refine h.wrk.length_le ?_
  intro p hp
  cases hon : (dev.descq p).online with
  | true => exact ((h.seat p).inRange hon).1
  | false =>
      rw [((h.seat p).off hon).1] at hp
      cases hp

theorem Linked.wb_length (h : Linked dev) (t : ℕ) :
    (dev.wbThreads t).workList.length ≤ 2 * dev.qmax := by
  refine h.wb.length_le ?_
  intro p hp
  cases hon : (dev.descq p).online with
  | true => exact ((h.seat p).inRange hon).1
  | false =>
      rw [((h.seat p).off hon).2] at hp
      cases hp

/-- One more on a thread's list keeps its count right. -/
theorem addTail_workCnt {thp : QdmaKthread} {n : ℕ} (hcnt : thp.workCnt = thp.workList.length)
    (hlen : thp.workList.length ≤ n) (hn : n + 1 < 2 ^ 32) (q : ℕ) :
    (thp.addTail q).workCnt = (thp.addTail q).workList.length := by
  unfold QdmaKthread.addTail
  rw [List.length_append, hcnt]
  exact u32_of_lt (by omega)

theorem addTail_update_workCnt {ths : ℕ → QdmaKthread} {n t : ℕ}
    (hcnt : ∀ t, (ths t).workCnt = (ths t).workList.length)
    (hlen : (ths t).workList.length ≤ n) (hn : n + 1 < 2 ^ 32) (q s : ℕ) :
    (Function.update ths t ((ths t).addTail q) s).workCnt =
      (Function.update ths t ((ths t).addTail q) s).workList.length := by
  by_cases hs : s = t
  · subst hs
    rw [Function.update_self]
    exact addTail_workCnt (hcnt s) hlen hn q
  · rw [Function.update_of_ne hs]
    exact hcnt s

theorem addTail_seated {ths : ℕ → QdmaKthread} {seat : ℕ → Option ℕ}
    (h : Seated (fun t => (ths t).workList) seat) (hq : seat q = none) (t : ℕ) :
    Seated (fun s => (Function.update ths t ((ths t).addTail q) s).workList)
      (Function.update seat q (some t)) := by
  rw [field_update]
  exact h.enter hq t

/-- A queue taken off its list keeps the count right: it was on it once. -/
theorem unlink_update_workCnt {ths : ℕ → QdmaKthread} {seat : ℕ → Option ℕ} {n t : ℕ}
    (hcnt : ∀ t, (ths t).workCnt = (ths t).workList.length)
    (hseat : Seated (fun t => (ths t).workList) seat) (hlen : (ths t).workList.length ≤ n)
    (hn : n < 2 ^ 32) (hq : seat q = some t) (s : ℕ) :
    (Function.update (fun i => (ths i).unlink q) t ((ths t).unlink q).decWork s).workCnt =
      (Function.update (fun i => (ths i).unlink q) t
        ((ths t).unlink q).decWork s).workList.length := by
  by_cases hs : s = t
  · subst hs
    have hmem : q ∈ (ths s).workList := hseat.mem_iff.mpr hq
    have hpos : 0 < (ths s).workList.length := List.length_pos_of_mem hmem
    rw [Function.update_self]
    change u32Sub (ths s).workCnt 1 = ((ths s).workList.erase q).length
    rw [hcnt s, List.length_erase_of_mem hmem, u32Sub_of_le (by omega) hpos]
  · have hnot : q ∉ (ths s).workList := by
      intro hmem
      have hat := hseat.mem_iff.mp hmem
      rw [hq] at hat
      exact hs (Option.some.inj hat).symm
    rw [Function.update_of_ne hs]
    change (ths s).workCnt = ((ths s).workList.erase q).length
    rw [List.erase_of_not_mem hnot]
    exact hcnt s

theorem unlink_update_workList (ths : ℕ → QdmaKthread) (q t : ℕ) :
    (fun s => (Function.update (fun i => (ths i).unlink q) t
      ((ths t).unlink q).decWork s).workList) = fun s => (ths s).workList.erase q := by
  funext s
  by_cases hs : s = t
  · subst hs
    rw [Function.update_self]
    rfl
  · rw [Function.update_of_ne hs]
    rfl

/-- One queue gets other seats. -/
theorem Linked.reseat (h : Linked dev) {d : QdmaDescq} (hs : SameShape dev dev')
    (hd : dev'.descq = Function.update dev.descq q d)
    (hwrk : Seated (fun t => (dev'.wrkThreads t).workList)
      (Function.update (fun p => (dev.descq p).wrkthp) q d.wrkthp))
    (hwb : Seated (fun t => (dev'.wbThreads t).workList)
      (Function.update (fun p => (dev.descq p).wbthp) q d.wbthp))
    (hintr : Seated dev'.intrList (Function.update dev.intrSeat q
      (if dev.numVecs ≠ 0 ∧ d.online = true then some d.intrId else none)))
    (hwrkCnt : ∀ t, (dev'.wrkThreads t).workCnt = (dev'.wrkThreads t).workList.length)
    (hwbCnt : ∀ t, (dev'.wbThreads t).workCnt = (dev'.wbThreads t).workList.length)
    (hseat : SeatOk dev q d) (hfault : dev'.listFault = false) : Linked dev' where
  wrk := by
    rw [hd, field_update]
    exact hwrk
  wb := by
    rw [hd, field_update]
    exact hwb
  intr := by
    rw [intrSeat_update hs.numVecs hd]
    exact hintr
  wrkCnt := hwrkCnt
  wbCnt := hwbCnt
  seat := by
    intro p
    rw [hd]
    by_cases hp : p = q
    · subst hp
      rw [Function.update_self]
      exact hseat.of_sameShape hs
    · rw [Function.update_of_ne hp]
      exact (h.seat p).of_sameShape hs
  noFault := hfault

/-- **Hanging a queue on its lists.**  It comes on line and is seated on a worker
and on a writeback thread or its vector. -/
theorem Linked.addWork (h : Linked dev) (hq : q < 2 * dev.qmax)
    (hen : (dev.descq q).enabled = true) (hoff : (dev.descq q).online = false)
    (hvec : dev.numVecs ≠ 0 → (dev.descq q).intrId < dev.numVecs) :
    Linked (qdmaThreadAddWork (dev.setDescq q { dev.descq q with online := true }) q) := by
  obtain ⟨hwrk, hwb⟩ := (h.seat q).off hoff
  have hqmax := dev.qmax_lt
  have hidx := pickWorker_lt dev
  have hintr : dev.intrSeat q = none := if_neg (by rw [hoff]; simp)
  have hnoWrk : dev.wrkLinked q = false := h.wrk.any_contains_eq_false hwrk dev.threadCnt
  have hnoWb : dev.wbLinked q = false := h.wb.any_contains_eq_false hwb dev.threadCnt
  have hnoIntr : dev.intrLinked q = false := h.intr.any_contains_eq_false hintr dev.numVecs
  have hwrkSeat := addTail_seated h.wrk hwrk (pickWorker dev)
  have hwrkCnt := addTail_update_workCnt h.wrkCnt (h.wrk_length (pickWorker dev)) (by omega) q
  by_cases hv : dev.numVecs = 0
  · -- polled mode: the writeback thread is the worker's mirror image
    have hwbSeat := addTail_seated h.wb hwb (dev.threadCnt - pickWorker dev - 1)
    have hwbCnt := addTail_update_workCnt h.wbCnt
      (h.wb_length (dev.threadCnt - pickWorker dev - 1)) (by omega) q
    unfold qdmaThreadAddWork
    dsimp only
    rw [if_neg (not_not.mpr (show (dev.setDescq q _).numVecs = 0 from hv))]
    simp only [XlnxDmaDev.setDescq, Function.update_self, Function.update_idem]
    refine h.reseat ⟨rfl, rfl, rfl⟩ rfl hwrkSeat hwbSeat ?_ hwrkCnt hwbCnt ?_ ?_
    · rw [if_neg (fun hc => hc.1 hv), ← hintr, Function.update_eq_self]
      exact h.intr
    · exact
        { inRange := fun _ => ⟨hq, hen⟩
          wrkOn := fun _ => ⟨_, hidx, rfl⟩
          wbOn := fun _ _ => ⟨_, by omega, rfl⟩
          intrOn := fun _ hne => absurd hv hne
          off := fun hc => Bool.noConfusion hc }
    · change (dev.listFault || dev.wrkLinked q || dev.wbLinked q) = false
      rw [h.noFault, hnoWrk, hnoWb]
      rfl
  · -- interrupt mode
    have hintrSeat := h.intr.enter hintr (dev.descq q).intrId
    unfold qdmaThreadAddWork
    dsimp only
    rw [if_pos (show (dev.setDescq q _).numVecs ≠ 0 from hv)]
    simp only [XlnxDmaDev.setDescq, Function.update_self, Function.update_idem]
    refine h.reseat ⟨rfl, rfl, rfl⟩ rfl hwrkSeat ?_ ?_ hwrkCnt h.wbCnt ?_ ?_
    · rw [← hwb, Function.update_eq_self]
      exact h.wb
    · rw [if_pos ⟨hv, rfl⟩]
      exact hintrSeat
    · exact
        { inRange := fun _ => ⟨hq, hen⟩
          wrkOn := fun _ => ⟨_, hidx, rfl⟩
          wbOn := fun _ hz => absurd hz hv
          intrOn := fun _ _ => ⟨rfl, hvec hv⟩
          off := fun hc => Bool.noConfusion hc }
    · change (dev.listFault || dev.wrkLinked q || dev.intrLinked q) = false
      rw [h.noFault, hnoWrk, hnoIntr]
      rfl

theorem unlink_seated {ths : ℕ → QdmaKthread} {seat : ℕ → Option ℕ}
    (h : Seated (fun t => (ths t).workList) seat) (q t : ℕ) :
    Seated (fun s => (Function.update (fun i => (ths i).unlink q) t
      ((ths t).unlink q).decWork s).workList) (Function.update seat q none) := by
  rw [unlink_update_workList]
  exact h.leave q

/-- **Taking a queue off its lists.** -/
theorem Linked.stop (h : Linked dev) (hq : q < 2 * dev.qmax)
    (hen : (dev.descq q).enabled = true) (hon : (dev.descq q).online = true) (f : ℕ → CmdFate) :
    Linked (qdmaQueueStop f dev q).2 := by
  have hqmax := dev.qmax_lt
  obtain ⟨t, ht, hwrk⟩ := (h.seat q).wrkOn hon
  have hwrkSeat := unlink_seated h.wrk q t
  have hwrkCnt := unlink_update_workCnt h.wrkCnt h.wrk (h.wrk_length t) (by omega) hwrk
  have hwrkIn : dev.wrkLinked q = true := (h.wrk.any_contains_iff q _).mpr ⟨t, ht, hwrk⟩
  have hseat : SeatOk dev q (stoppedDescq (dev.descq q)) :=
    { inRange := fun hc => Bool.noConfusion hc
      wrkOn := fun hc => Bool.noConfusion hc
      wbOn := fun hc => Bool.noConfusion hc
      intrOn := fun hc => Bool.noConfusion hc
      off := fun _ => ⟨rfl, rfl⟩ }
  have hnoSeat : ¬ (dev.numVecs ≠ 0 ∧ (stoppedDescq (dev.descq q)).online = true) :=
    fun hc => Bool.noConfusion hc.2
  rw [qdmaQueueStop_eq f hq hen]
  by_cases hv : dev.numVecs = 0
  · obtain ⟨s, hs, hwb⟩ := (h.seat q).wbOn hon hv
    have hwbIn : dev.wbLinked q = true := (h.wb.any_contains_iff q _).mpr ⟨s, hs, hwb⟩
    have hintr : dev.intrSeat q = none := if_neg fun hc => hc.1 hv
    rw [threadRemoveWork_def, hwrk, hwb]
    refine h.reseat ⟨rfl, rfl, rfl⟩ rfl hwrkSeat (unlink_seated h.wb q s) ?_ hwrkCnt
      (unlink_update_workCnt h.wbCnt h.wb (h.wb_length s) (by omega) hwb) hseat ?_
    · rw [if_neg hnoSeat, ← hintr, Function.update_eq_self]
      exact h.intr
    · change (dev.listFault || !dev.wrkLinked q || !dev.wbLinked q) = false
      rw [h.noFault, hwrkIn, hwbIn]
      rfl
  · obtain ⟨hwb, hid⟩ := (h.seat q).intrOn hon hv
    have hintr : dev.intrSeat q = some (dev.descq q).intrId := if_pos ⟨hv, hon⟩
    have hintrIn : dev.intrLinked q = true := (h.intr.any_contains_iff q _).mpr ⟨_, hid, hintr⟩
    rw [threadRemoveWork_def, hwrk, hwb]
    refine h.reseat ⟨rfl, rfl, rfl⟩ rfl hwrkSeat ?_ ?_ hwrkCnt h.wbCnt hseat ?_
    · have hnone : (stoppedDescq (dev.descq q)).wbthp = (dev.descq q).wbthp := hwb.symm
      rw [hnone, Function.update_eq_self]
      exact h.wb
    · rw [if_neg hnoSeat]
      exact h.intr.leave q
    · change (dev.listFault || !dev.wrkLinked q || !dev.intrLinked q) = false
      rw [h.noFault, hwrkIn, hintrIn]
      rfl

end Threads

/-! ## The calls -/

section Calls

variable {dev : XlnxDmaDev} {q : ℕ}

theorem Linked.add (h : Linked dev) (qconf : QdmaQueueConf) :
    Linked (qdmaQueueAdd dev qconf).2.2 := by
  have hrun := addRun dev qconf
  generalize (qdmaQueueAdd dev qconf).2.2 = dev' at hrun ⊢
  cases hrun with
  | fails _ _ => exact h.of_same ⟨⟨rfl, rfl, rfl⟩, rfl, rfl, rfl, rfl⟩ fun p => SameSeat.refl _
  | adds _ _ i hi hfree =>
      refine h.of_same ⟨⟨rfl, rfl, rfl⟩, rfl, rfl, rfl, rfl⟩ (sameSeat_update _ ?_)
      refine ⟨rfl, rfl, rfl, ?_, fun _ => rfl⟩
      intro hon
      exact ((h.seat _).inRange hon).2.symm

/-- While it is off line a queue can be rewritten freely, but for the flag and the
two thread pointers. -/
theorem sameSeat_of_off {d d' : QdmaDescq} (hoff : d.online = false) (hon : d'.online = d.online)
    (hwrk : d'.wrkthp = d.wrkthp) (hwb : d'.wbthp = d.wbthp) : SameSeat d d' where
  online := hon
  wrkthp := hwrk
  wbthp := hwb
  enabled h := by rw [hoff] at h; cases h
  intrId h := by rw [hoff] at h; cases h

theorem Linked.start (h : Linked dev) (env : StartEnv) (id : ℕ) :
    Linked (qdmaQueueStart env dev id).2 := by
  have hrun := startRun env dev id
  generalize (qdmaQueueStart env dev id).1 = rv at hrun
  generalize (qdmaQueueStart env dev id).2 = dev' at hrun ⊢
  cases hrun with
  | rejected _ _ => exact h
  | allocFails _ hs _ =>
      exact h.of_same ⟨⟨rfl, rfl, rfl⟩, rfl, rfl, rfl, rfl⟩
        (sameSeat_update _ (sameSeat_of_off hs.online rfl rfl rfl))
  | progFails _ d idx cnt vec hs hd _ _ =>
      obtain ⟨hon, -, hwrk, hwb⟩ := hd.flags
      exact h.of_same ⟨⟨rfl, rfl, rfl⟩, rfl, rfl, rfl, rfl⟩
        (sameSeat_update _ (sameSeat_of_off hs.online hon hwrk hwb))
  | starts d idx cnt vec mmio r hs hd hidx _ hr =>
      obtain ⟨hon, hen, hwrk, hwb⟩ := hd.flags
      have hdescq : r.descq id = initedDescq d idx := by
        rw [hr]
        exact Function.update_self _ _ _
      have hlinked : Linked r := by
        rw [hr]
        exact h.of_same ⟨⟨rfl, rfl, rfl⟩, rfl, rfl, rfl, rfl⟩
          (sameSeat_update _ (sameSeat_of_off hs.online hon hwrk hwb))
      refine hlinked.addWork ?_ ?_ ?_ ?_
      · rw [hr]
        exact hs.lt
      · rw [hdescq]
        exact hen.trans hs.enabled
      · rw [hdescq]
        exact hon.trans hs.online
      · rw [hdescq, hr]
        exact hidx

theorem Linked.remove (h : Linked dev) (f : ℕ → CmdFate) (hoff : (dev.descq q).online = false) :
    Linked (qdmaQueueRemove f dev q).2 := by
  by_cases hq : q < 2 * dev.qmax ∧ (dev.descq q).enabled = true
  · obtain ⟨hh, c, cnt, heq⟩ := qdmaQueueRemove_eq f hq.1 hq.2
    rw [heq]
    exact h.of_same ⟨⟨rfl, rfl, rfl⟩, rfl, rfl, rfl, rfl⟩
      (sameSeat_update _ (sameSeat_of_off hoff hoff.symm rfl rfl))
  · rw [qdmaQueueRemove_rejected f hq]
    exact h

/-- Releasing what the queues still hold, all of them off line. -/
theorem Linked.cleanupAll (f : ℕ → ℕ → CmdFate) :
    ∀ (qs : List ℕ) {dev : XlnxDmaDev}, Linked dev → (∀ q, (dev.descq q).online = false) →
      Linked (qs.foldl (fun dev q => qdmaDescqCleanup (f q) dev q) dev) := by
  intro qs
  induction qs with
  | nil => intro dev h _; exact h
  | cons q rest ih =>
      intro dev h hoff
      rw [List.foldl_cons]
      obtain ⟨cnt, heq⟩ := qdmaDescqCleanup_eq (f q) dev q
      have hoffQ : (cleanedDescq (dev.descq q)).online = false := by
        unfold cleanedDescq
        rw [hoff q, Bool.and_false]
      rw [heq]
      refine ih ?_ ?_
      · exact h.of_same ⟨⟨rfl, rfl, rfl⟩, rfl, rfl, rfl, rfl⟩
          (sameSeat_update _ (sameSeat_of_off (hoff q) (hoffQ.trans (hoff q).symm) rfl rfl))
      · intro p
        by_cases hp : p = q
        · subst hp
          dsimp only
          rw [Function.update_self]
          exact hoffQ
        · dsimp only
          rw [Function.update_of_ne hp]
          exact hoff p

theorem Linked.deviceCleanup (h : Linked dev) (fStop fClean : ℕ → ℕ → CmdFate)
    (hon : ∀ q ∈ List.range (2 * dev.qmax),
      (dev.descq q).enabled = true → (dev.descq q).online = true) :
    Linked (qdmaDeviceCleanup fStop fClean dev) := by
  unfold qdmaDeviceCleanup
  split
  · exact h
  · obtain ⟨hstop, hmax, hin, -⟩ := stopAll_rule (C := fun _ d => d.online = true) fStop
      (fun _ q hl hq hen hon => Linked.stop hl hq hen hon (fStop q)) (List.range (2 * dev.qmax)) h
      List.nodup_range (fun q hq => List.mem_range.mp hq) hon _ rfl
    have hall : ∀ q, ((stopAll fStop dev).descq q).online = false := by
      intro q
      by_cases hq : q < 2 * dev.qmax
      · have hafter : (stopAll fStop dev).descq q = afterStops (dev.descq q) :=
          hin q (List.mem_range.mpr hq)
        rw [hafter]
        unfold afterStops
        cases hen : (dev.descq q).enabled with
        | true => rfl
        | false =>
            rw [if_neg Bool.false_ne_true, ← Bool.not_eq_true]
            intro hc
            rw [((h.seat q).inRange hc).2] at hen
            cases hen
      · rw [← Bool.not_eq_true]
        intro hc
        have hlt := ((hstop.seat q).inRange hc).1
        rw [hmax] at hlt
        exact hq hlt
    have hclean := Linked.cleanupAll fClean (List.range (2 * (stopAll fStop dev).qmax))
      hstop hall
    exact hclean.of_same ⟨⟨rfl, rfl, rfl⟩, rfl, rfl, rfl, rfl⟩ fun p => SameSeat.refl _

/-- **One orderly call keeps the lists right.** -/
theorem Linked.step (h : Linked dev) (e : LifeEv) (hcall : orderlyCall dev e) :
    Linked (lifeStep dev e) := by
  cases e with
  | add qconf => exact h.add qconf
  | start id env => exact h.start env id
  | stop id f =>
      change Linked (qdmaQueueStop f dev id).2
      by_cases hq : id < 2 * dev.qmax ∧ (dev.descq id).enabled = true
      · exact h.stop hq.1 hq.2 (hcall hq.2) f
      · rw [qdmaQueueStop_rejected f hq]
        exact h
  | remove id f => exact h.remove f hcall
  | cleanup fStop fClean => exact h.deviceCleanup fStop fClean hcall

end Calls

/-! ## Whole runs -/

theorem DeviceInit.linked {dev : XlnxDmaDev} (h : DeviceInit dev) : Linked dev := by
  have hoff : ∀ q, (dev.descq q).online = false := fun q => by rw [h.descq q]; rfl
  have hwrk : ∀ q, (dev.descq q).wrkthp = none := fun q => by rw [h.descq q]; rfl
  have hwb : ∀ q, (dev.descq q).wbthp = none := fun q => by rw [h.descq q]; rfl
  refine ⟨?_, ?_, ?_, ?_, ?_, ?_, h.listFault⟩
  · exact Seated.empty (fun t => by rw [h.wrkThreads t]; rfl) hwrk
  · exact Seated.empty (fun t => by rw [h.wbThreads t]; rfl) hwb
  · exact Seated.empty h.intrList fun q => if_neg (by rw [hoff q]; simp)
  · intro t
    rw [h.wrkThreads t]
    rfl
  · intro t
    rw [h.wbThreads t]
    rfl
  · intro q
    exact
      { inRange := fun hc => by rw [hoff q] at hc; cases hc
        wrkOn := fun hc => by rw [hoff q] at hc; cases hc
        wbOn := fun hc => by rw [hoff q] at hc; cases hc
        intrOn := fun hc => by rw [hoff q] at hc; cases hc
        off := fun _ => ⟨hwrk q, hwb q⟩ }

/-- The invariant says what is wanted. -/
theorem Linked.followsOnline {dev : XlnxDmaDev} (h : Linked dev) : FollowsOnline dev where
  wrk q _ := by
    unfold occurrences
    rw [h.wrk.sum_count q]
    refine if_congr ⟨?_, (h.seat q).wrkOn⟩ rfl rfl
    rintro ⟨t, -, ht⟩
    by_contra hoff
    rw [((h.seat q).off (Bool.not_eq_true _ ▸ hoff)).1] at ht
    cases ht
  wb q _ := by
    unfold occurrences
    rw [h.wb.sum_count q]
    refine if_congr ⟨?_, fun hc => (h.seat q).wbOn hc.2 hc.1⟩ rfl rfl
    rintro ⟨t, -, ht⟩
    have hon : (dev.descq q).online = true := by
      by_contra hoff
      rw [((h.seat q).off (Bool.not_eq_true _ ▸ hoff)).2] at ht
      cases ht
    refine ⟨?_, hon⟩
    by_contra hv
    rw [((h.seat q).intrOn hon hv).1] at ht
    cases ht
  intr q _ := by
    unfold occurrences
    rw [h.intr.sum_count q]
    refine if_congr ⟨?_, ?_⟩ rfl rfl
    · rintro ⟨v, -, hv⟩
      by_contra hc
      unfold XlnxDmaDev.intrSeat at hv
      rw [if_neg hc] at hv
      cases hv
    · intro hc
      exact ⟨_, ((h.seat q).intrOn hc.2 hc.1).2, if_pos hc⟩
  wrkCnt t _ := h.wrkCnt t
  wbCnt t _ := h.wbCnt t
  noFault := h.noFault

/-- **The lists follow the online flag** through every orderly run of calls. -/
theorem membership_follows_online {dev : XlnxDmaDev} (hinit : DeviceInit dev) (es : List LifeEv)
    (hrun : orderlySys.Admits dev es) : FollowsOnline (orderlySys.exec dev es) :=
  (orderlySys.invariant (fun _ e h hg => Linked.step h e hg.2) es hinit.linked hrun).followsOnline

/-- A queue's whole life and the end of its device. -/
def orderlyLife : List LifeEv :=
  [.add mmH2cConf, .start 0 plainStart, .stop 0 fun _ => .completes, .start 0 plainStart,
    .cleanup (fun _ _ => .completes) fun _ _ => .completes]

theorem membership_orderly_life :
    DeviceInit polledDev ∧ orderlySys.Admits polledDev orderlyLife ∧
      FollowsOnline (orderlySys.exec polledDev orderlyLife) :=
  have hrun : orderlySys.Admits polledDev orderlyLife := by decide +kernel
  ⟨polledDev_init, hrun, membership_follows_online polledDev_init orderlyLife hrun⟩

/-- A queue that was added and never started: stopping it unlinks an `intr_list`
node that is on no list. -/
def stopsIdle : List LifeEv := [.add mmH2cConf, .stop 0 fun _ => .completes]

/-- A running queue that is removed: it is off line and still on two lists. -/
def removesRunning : List LifeEv :=
  [.add mmH2cConf, .start 0 plainStart, .remove 0 fun _ => .completes]

theorem membership_lost_at_stop_and_remove :
    DeviceInit polledDev ∧
      (lifeSys.Admits polledDev stopsIdle ∧ ¬ FollowsOnline (lifeSys.exec polledDev stopsIdle)) ∧
      (lifeSys.Admits polledDev removesRunning ∧
        ¬ FollowsOnline (lifeSys.exec polledDev removesRunning)) := by
  refine ⟨polledDev_init, ⟨by decide +kernel, ?_⟩, by decide +kernel, ?_⟩
  · intro h
    exact absurd h.noFault (by decide +kernel)
  · intro h
    exact absurd (h.wrk 0 (by decide +kernel)) (by decide +kernel)

end Qdma

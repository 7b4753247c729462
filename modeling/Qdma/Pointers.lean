import Qdma.Lib.Linked
import Qdma.Lib.Trace
import Qdma.RxSpec

/-!
# The receive queue with its pointers

`struct st_rx_queue` keeps the pages and the user-defined data on two singly linked
lists, each with a head and a tail pointer, and one counter for both.  `PtrQueue` is that
structure, and the helpers of `qdma_descq.c` are written over it pointer by pointer.

Everything about the bytes was proved on lists.  Here the two are put together:

* `OpsSim` is a simulation between two ways to keep the queue, and `read_sim` carries it
  through `qdma_descq_rxq_read`, whose code is the same over both;
* `Holds` relates a `PtrQueue` to the lists it represents, and every helper keeps it
  (`ptrSim`).

A run is any interleaving of completions, reads and calls that free or set up the queue.  The
comments ask for `rxq->lock` in all helpers, and `descq_st_c2h_wb` calls `udd_enqueue_tail`
without it, so that this call is taken access by access (`UddPc`).  The counter is reset when
the queue is set up, the list of user-defined data is not.
-/

namespace Qdma

open Lib

/-! ## Simulations of the read -/

section Sim

variable {σ ν μ σ' ν' μ' : Type}

/-- `R` relates two queues, `N q` two pages held off queue `q`. -/
structure OpsSim (o : RxqOps σ ν μ) (o' : RxqOps σ' ν' μ') (R : σ → σ' → Prop)
    (N : σ → ν → ν' → Prop) : Prop where
  size : ∀ {q q'}, R q q' → o.size q = o'.size q'
  rx : ∀ {q n n'}, N q n n' → o.rx n = o'.rx n'
  deqRx : ∀ {q q'}, R q q' →
    R (o.deqRx q).2 (o'.deqRx q').2 ∧
      (((o.deqRx q).1 = none ∧ (o'.deqRx q').1 = none) ∨
        ∃ n n', (o.deqRx q).1 = some n ∧ (o'.deqRx q').1 = some n' ∧ N (o.deqRx q).2 n n')
  enqRx : ∀ {q q' n n'}, R q q' → N q n n' → R (o.enqRxHead q n) (o'.enqRxHead q' n')
  /-- A page read up to a new offset. -/
  advance : ∀ {q n n'}, N q n n' → ∀ len,
    u32 ((o'.rx n').offset + min len (u32Sub (o'.rx n').len (o'.rx n').offset)) ≠ (o'.rx n').len →
    N q
      (o.setRx n { o'.rx n' with
        offset := u32 ((o'.rx n').offset + min len (u32Sub (o'.rx n').len (o'.rx n').offset)) })
      (o'.setRx n' { o'.rx n' with
        offset := u32 ((o'.rx n').offset + min len (u32Sub (o'.rx n').len (o'.rx n').offset)) })
  deqUdd : ∀ {q q'}, R q q' →
    R (o.deqUdd q).2 (o'.deqUdd q').2 ∧
      (∀ {n n'}, N q n n' → N (o.deqUdd q).2 n n') ∧
      (((o.deqUdd q).1 = none ∧ (o'.deqUdd q').1 = none) ∨
        ∃ u u', (o.deqUdd q).1 = some u ∧ (o'.deqUdd q').1 = some u' ∧ o.udd u = o'.udd u' ∧
          ∀ len, let k := min len (u32Sub (o'.udd u').uddLen (o'.udd u').offset)
            let v := { o'.udd u' with offset := ((o'.udd u').offset + k) % 2 ^ 8 }
            o.udd (o.setUdd u v) = v ∧ o'.udd (o'.setUdd u' v) = v ∧
              (v.offset ≠ v.uddLen →
                R (o.enqUddHead (o.deqUdd q).2 (o.setUdd u v))
                  (o'.enqUddHead (o'.deqUdd q').2 (o'.setUdd u' v)) ∧
                ∀ {n n'}, N q n n' → N (o.enqUddHead (o.deqUdd q).2 (o.setUdd u v)) n n'))

/-- Two reads in progress that have done the same. -/
structure CurSim (R : σ → σ' → Prop) (N : σ → ν → ν' → Prop) (c : RxCursor σ ν μ)
    (c' : RxCursor σ' ν' μ') : Prop where
  rxq : R c.rxq c'.rxq
  rx : (c.rx = none ∧ c'.rx = none) ∨ ∃ n n', c.rx = some n ∧ c'.rx = some n' ∧ N c.rxq n n'
  udd : c.udd.isSome = c'.udd.isSome
  out : c.out = c'.out
  copied : c.copied = c'.copied
  freed : c.freed = c'.freed
  oops : c.oops = c'.oops

variable {o : RxqOps σ ν μ} {o' : RxqOps σ' ν' μ'} {R : σ → σ' → Prop} {N : σ → ν → ν' → Prop}
  (page : Option ℕ → ℕ → BitVec 8) (hs : OpsSim o o' R N)
include hs

theorem copyUdd_sim {c : RxCursor σ ν μ} {c' : RxCursor σ' ν' μ'} (h : CurSim R N c c') {n : ν}
    {n' : ν'} (hn : N c.rxq n n') (hcur : c.rx = some n) (hcur' : c'.rx = some n') (len : ℕ) :
    (copyUdd o n len c).1 = (copyUdd o' n' len c').1 ∧
      CurSim R N (copyUdd o n len c).2 (copyUdd o' n' len c').2 ∧
      (copyUdd o n len c).2.rx = some n ∧ (copyUdd o' n' len c').2.rx = some n' ∧
      N (copyUdd o n len c).2.rxq n n' := by
  obtain ⟨hR, hframe, hnode⟩ := hs.deqUdd h.rxq
  unfold copyUdd
  cases hd : o.deqUdd c.rxq with
  | mk u r =>
  cases hd' : o'.deqUdd c'.rxq with
  | mk u' r' =>
  rw [hd, hd'] at hR hnode
  rw [hd] at hframe
  dsimp only at hR hnode hframe
  obtain ⟨rfl, rfl⟩ | ⟨v, v', rfl, rfl, hv, hback⟩ := hnode
  · dsimp only
    exact ⟨rfl, ⟨hR, Or.inr ⟨n, n', hcur, hcur', hframe hn⟩, rfl, h.out, h.copied, h.freed, h.oops⟩,
      hcur, hcur', hframe hn⟩
  · obtain ⟨hset, hset', hput⟩ := hback len
    dsimp only at hset hset' hput ⊢
    rw [hv, hs.rx hn, hset, hset']
    dsimp only
    split
    · refine ⟨rfl, ⟨hR, Or.inr ⟨n, n', hcur, hcur', hframe hn⟩, rfl, ?_, ?_, h.freed, h.oops⟩,
        hcur, hcur', hframe hn⟩
      · rw [h.out]
      · rw [h.copied]
    · rename_i hne
      obtain ⟨hR', hframe'⟩ := hput hne
      refine ⟨rfl, ⟨hR', Or.inr ⟨n, n', hcur, hcur', hframe' hn⟩, rfl, ?_, ?_, h.freed, h.oops⟩,
        hcur, hcur', hframe' hn⟩
      · dsimp only
        rw [h.out]
      · dsimp only
        rw [h.copied]

theorem copyData_sim {c : RxCursor σ ν μ} {c' : RxCursor σ' ν' μ'} (h : CurSim R N c c') {n : ν}
    {n' : ν'} (hn : N c.rxq n n') (len : ℕ) :
    (copyData o page n len c).1 = (copyData o' page n' len c').1 ∧
      CurSim R N (copyData o page n len c).2 (copyData o' page n' len c').2 := by
  have hrx := hs.rx hn
  unfold copyData
  dsimp only
  rw [hrx]
  split
  · obtain ⟨hR, hnode⟩ := hs.deqRx h.rxq
    refine ⟨rfl, ⟨hR, hnode, h.udd, ?_, ?_, ?_, h.oops⟩⟩
    · dsimp only
      rw [h.out]
    · dsimp only
      rw [h.copied]
    · dsimp only
      rw [h.freed]
  · rename_i hne
    refine ⟨rfl, ⟨h.rxq, Or.inr ⟨_, _, rfl, rfl, hs.advance hn len hne⟩, h.udd, ?_, ?_, h.freed,
      h.oops⟩⟩
    · dsimp only
      rw [h.out]
    · dsimp only
      rw [h.copied]

theorem readEntry_sim :
    ∀ (fuel len : ℕ) {c : RxCursor σ ν μ} {c' : RxCursor σ' ν' μ'}, CurSim R N c c' →
      CurSim R N (readEntry o page fuel len c) (readEntry o' page fuel len c') := by
  intro fuel
  induction fuel with
  | zero => intro len c c' h; exact h
  | succ fuel ih =>
      intro len c c' h
      by_cases hlen : len = 0
      · rw [readEntry, readEntry, if_pos hlen, if_pos hlen]
        exact h
      · obtain ⟨hcur, hcur'⟩ | ⟨n, n', hcur, hcur', hn⟩ := h.rx
        · simp only [readEntry, if_neg hlen, hcur, hcur', ← h.udd]
          split
          · exact ⟨h.rxq, Or.inl ⟨rfl, rfl⟩, h.udd, h.out, h.copied, h.freed, rfl⟩
          · exact h
        · simp only [readEntry, if_neg hlen, hcur, hcur', hs.rx hn, ← h.udd]
          by_cases hlead : ((o'.rx n').leads || c.udd.isSome) = true
          · simp only [if_pos hlead]
            obtain ⟨hlen', hudd, hrx, hrx', hn'⟩ := copyUdd_sim hs h hn hcur hcur' len
            obtain ⟨hlen'', hdata⟩ := copyData_sim page hs hudd hn' (copyUdd o n len c).1
            rw [← hlen', hlen'']
            exact ih _ hdata
          · simp only [if_neg hlead]
            obtain ⟨hlen'', hdata⟩ := copyData_sim page hs h hn len
            rw [hlen'']
            exact ih _ hdata

theorem readSgl_sim :
    ∀ (lens : List ℕ) {c : RxCursor σ ν μ} {c' : RxCursor σ' ν' μ'}, CurSim R N c c' →
      (readSgl o page lens c).1 = (readSgl o' page lens c').1 ∧
        CurSim R N (readSgl o page lens c).2 (readSgl o' page lens c').2 := by
  intro lens
  induction lens with
  | nil => intro c c' h; exact ⟨rfl, h⟩
  | cons len rest ih =>
      intro c c' h
      have hentry : CurSim R N (readEntry o page (len + o.size c.rxq + 1) len { c with out := [] })
          (readEntry o' page (len + o'.size c'.rxq + 1) len { c' with out := [] }) := by
        rw [hs.size h.rxq]
        exact readEntry_sim page hs _ _ ⟨h.rxq, h.rx, h.udd, rfl, h.copied, h.freed, h.oops⟩
      unfold readSgl
      dsimp only
      generalize readEntry o page (len + o.size c.rxq + 1) len { c with out := [] } = d at hentry ⊢
      generalize readEntry o' page (len + o'.size c'.rxq + 1) len { c' with out := [] } = d'
        at hentry ⊢
      have hstop : (d.oops || (d.rx.isNone && d.udd.isNone)) =
          (d'.oops || (d'.rx.isNone && d'.udd.isNone)) := by
        have hrx : d.rx.isNone = d'.rx.isNone := by
          obtain ⟨h₁, h₂⟩ | ⟨n, n', h₁, h₂, -⟩ := hentry.rx
          · rw [h₁, h₂]
            rfl
          · rw [h₁, h₂]
            rfl
        have hudd : d.udd.isNone = d'.udd.isNone := by
          rw [← Option.not_isSome, ← Option.not_isSome, hentry.udd]
        rw [hentry.oops, hrx, hudd]
      rw [hstop, hentry.out]
      split
      · exact ⟨rfl, hentry⟩
      · obtain ⟨hout, hrest⟩ := ih hentry
        exact ⟨by rw [hout], hrest⟩

omit hs in
/-- Two reads that did the same. -/
structure ReadSim (R : σ → σ' → Prop) (r : RxReadResult σ) (r' : RxReadResult σ') : Prop where
  rxq : R r.rxq r'.rxq
  out : r.out = r'.out
  copied : r.copied = r'.copied
  freed : r.freed = r'.freed
  oops : r.oops = r'.oops
  locked : r.locked = r'.locked

theorem putBack_sim {c : RxCursor σ ν μ} {c' : RxCursor σ' ν' μ'} (h : CurSim R N c c') :
    R (putBack o c) (putBack o' c') := by
  unfold putBack
  obtain ⟨hcur, hcur'⟩ | ⟨n, n', hcur, hcur', hn⟩ := h.rx
  · rw [hcur, hcur']
    exact h.rxq
  · rw [hcur, hcur']
    dsimp only
    rw [hs.rx hn]
    split
    · exact hs.enqRx h.rxq hn
    · exact h.rxq

/-- **The read over two ways to keep the queue.** -/
theorem read_sim (uddEn : Bool) (lens : List ℕ) {q : σ} {q' : σ'} (h : R q q') :
    ReadSim R (qdmaDescqRxqRead o page uddEn lens q) (qdmaDescqRxqRead o' page uddEn lens q') := by
  obtain ⟨hR, hnode⟩ := hs.deqRx h
  have hnone : (o.deqRx q).1.isNone = (o'.deqRx q').1.isNone := by
    obtain ⟨h₁, h₂⟩ | ⟨n, n', h₁, h₂, -⟩ := hnode
    · rw [h₁, h₂]
      rfl
    · rw [h₁, h₂]
      rfl
  obtain ⟨hRu, -, hudd⟩ := hs.deqUdd hR
  have hunone : (o.deqUdd (o.deqRx q).2).1.isNone = (o'.deqUdd (o'.deqRx q').2).1.isNone := by
    obtain ⟨h₁, h₂⟩ | ⟨u, u', h₁, h₂, -⟩ := hudd
    · rw [h₁, h₂]
      rfl
    · rw [h₁, h₂]
      rfl
  unfold qdmaDescqRxqRead
  dsimp only
  rw [← hnone]
  cases hfirst : ((o.deqRx q).1.isNone && uddEn) with
  | false =>
      simp only [Bool.false_eq_true, if_false, Bool.false_and]
      have hstart : CurSim R N
          { rxq := (o.deqRx q).2, rx := (o.deqRx q).1, udd := (none : Option μ), out := [],
            copied := 0, freed := [], oops := false }
          { rxq := (o'.deqRx q').2, rx := (o'.deqRx q').1, udd := (none : Option μ'), out := [],
            copied := 0, freed := [], oops := false } :=
        ⟨hR, hnode, rfl, rfl, rfl, rfl, rfl⟩
      obtain ⟨hout, hend⟩ := readSgl_sim page hs lens hstart
      rw [hend.oops]
      split
      · exact ⟨hend.rxq, hout, hend.copied, hend.freed, rfl, rfl⟩
      · exact ⟨putBack_sim hs hend, hout, hend.copied, hend.freed, rfl, rfl⟩
  | true =>
      have hempty : (o.deqRx q).1 = none ∧ (o'.deqRx q').1 = none := by
        obtain h₀ | ⟨n, n', h₁, -, -⟩ := hnode
        · exact h₀
        · rw [h₁] at hfirst
          cases hfirst
      simp only [if_true, Bool.true_and, ← hunone]
      cases hu : (o.deqUdd (o.deqRx q).2).1.isNone with
      | true =>
          simp only [if_true]
          exact ⟨hRu, rfl, rfl, rfl, rfl, rfl⟩
      | false =>
          simp only [Bool.false_eq_true, if_false]
          have hstart : CurSim R N
              { rxq := (o.deqUdd (o.deqRx q).2).2, rx := (o.deqRx q).1,
                udd := (o.deqUdd (o.deqRx q).2).1, out := [], copied := 0, freed := [],
                oops := false }
              { rxq := (o'.deqUdd (o'.deqRx q').2).2, rx := (o'.deqRx q').1,
                udd := (o'.deqUdd (o'.deqRx q').2).1, out := [], copied := 0, freed := [],
                oops := false } := by
            refine ⟨hRu, Or.inl hempty, ?_, rfl, rfl, rfl, rfl⟩
            dsimp only
            rw [← Option.not_isNone, ← Option.not_isNone, hunone]
          obtain ⟨hout, hend⟩ := readSgl_sim page hs lens hstart
          rw [hend.oops]
          split
          · exact ⟨hend.rxq, hout, hend.copied, hend.freed, rfl, rfl⟩
          · exact ⟨putBack_sim hs hend, hout, hend.copied, hend.freed, rfl, rfl⟩

end Sim

/-! ## The structure and its helpers -/

/-- `struct st_rx_queue`.  `wrapped` records that a subtraction from `dlen` went below
zero, which no function of the source notices. -/
structure PtrQueue where
  dlen : ℕ
  rx : Chain StRxData
  udd : Chain StC2hWrbUdd
  wrapped : Bool

/-- The queue of `kzalloc`. -/
def PtrQueue.empty : PtrQueue where
  dlen := 0
  rx := Chain.empty { pg := none, offset := 0, len := 0, uddRef := false }
  udd := Chain.empty { data := [], uddLen := 0, offset := 0 }
  wrapped := false

namespace PtrQueue

/-- `rxq_dequeue_head`. -/
def rxqDequeueHead (q : PtrQueue) : Option (ℕ × StRxData) × PtrQueue :=
  match q.rx.dequeueHead with
  | (none, _) => (none, q)
  | (some n, rx) =>
      (some n,
        { q with
          rx := rx
          dlen := u32Sub q.dlen (u32Sub n.2.len n.2.offset)
          wrapped := q.wrapped || decide (q.dlen < u32Sub n.2.len n.2.offset) })

/-- `rxq_enqueue_head`. -/
def rxqEnqueueHead (q : PtrQueue) (n : ℕ × StRxData) : PtrQueue :=
  { q with rx := q.rx.enqueueHead n, dlen := u32 (q.dlen + u32Sub n.2.len n.2.offset) }

/-- `rxq_enqueue_tail`. -/
def rxqEnqueueTail (q : PtrQueue) (n : ℕ × StRxData) : PtrQueue :=
  { q with rx := q.rx.enqueueTail n, dlen := u32 (q.dlen + u32Sub n.2.len n.2.offset) }

/-- `udd_dequeue_head`. -/
def uddDequeueHead (q : PtrQueue) : Option (ℕ × StC2hWrbUdd) × PtrQueue :=
  match q.udd.dequeueHead with
  | (none, _) => (none, q)
  | (some n, udd) =>
      (some n,
        { q with
          udd := udd
          dlen := u32Sub q.dlen (u32Sub n.2.uddLen n.2.offset)
          wrapped := q.wrapped || decide (q.dlen < u32Sub n.2.uddLen n.2.offset) })

/-- `udd_enqueue_head`. -/
def uddEnqueueHead (q : PtrQueue) (n : ℕ × StC2hWrbUdd) : PtrQueue :=
  { q with udd := q.udd.enqueueHead n, dlen := u32 (q.dlen + u32Sub n.2.uddLen n.2.offset) }

/-- `udd_enqueue_tail`. -/
def uddEnqueueTail (q : PtrQueue) (n : ℕ × StC2hWrbUdd) : PtrQueue :=
  { q with udd := q.udd.enqueueTail n, dlen := u32 (q.dlen + u32Sub n.2.uddLen n.2.offset) }

/-- The loop of `rxq_free_resource`, for at most `fuel` nodes. -/
def rxqFreeLoop : ℕ → PtrQueue → PtrQueue
  | 0, q => q
  | fuel + 1, q =>
      match q.rxqDequeueHead with
      | (none, q) => q
      | (some _, q) => rxqFreeLoop fuel q

/-- `rxq_free_resource`. -/
def rxqFreeResource (q : PtrQueue) : PtrQueue := rxqFreeLoop (q.rx.addrs.length + 1) q

/-- The lists the queue represents. -/
def lists (q : PtrQueue) : StRxQueue where
  dlen := q.dlen
  udd := q.udd.values
  rx := q.rx.values

end PtrQueue

/-- The helpers with their pointers. -/
def ptrOps : RxqOps PtrQueue (ℕ × StRxData) (ℕ × StC2hWrbUdd) where
  deqRx := PtrQueue.rxqDequeueHead
  enqRxHead := PtrQueue.rxqEnqueueHead
  deqUdd := PtrQueue.uddDequeueHead
  enqUddHead := PtrQueue.uddEnqueueHead
  rx n := n.2
  setRx n rx := (n.1, rx)
  udd n := n.2
  setUdd n udd := (n.1, udd)
  size q := q.rx.addrs.length

/-! ## The helpers keep the lists -/

/-- A queue with its pointers and the lists it stands for, correctly counted. -/
structure Holds (q : PtrQueue) (l : StRxQueue) : Prop where
  rx : q.rx.Repr q.rx.addrs
  udd : q.udd.Repr q.udd.addrs
  dlen : l.dlen = q.dlen
  rxVals : l.rx = q.rx.addrs.map q.rx.val
  uddVals : l.udd = q.udd.addrs.map q.udd.val
  counts : l.Counts
  wrapped : q.wrapped = false

/-- A page off the queue that fits back on it. -/
structure HeldRx (q : PtrQueue) (n : ℕ × StRxData) (n' : StRxData) : Prop where
  val : n.2 = n'
  off : q.rx.Off q.rx.addrs n.1
  ok : n'.Ok
  room : (n'.len - n'.offset) + q.dlen < 2 ^ 32

theorem holds_empty : Holds PtrQueue.empty StRxQueue.empty where
  rx := Chain.repr_empty _
  udd := Chain.repr_empty _
  dlen := rfl
  rxVals := rfl
  uddVals := rfl
  counts := counts_empty
  wrapped := rfl

namespace Holds

variable {q : PtrQueue} {l : StRxQueue} (h : Holds q l)
include h

theorem rx_nil (hl : l.rx = []) : q.rx.addrs = [] :=
  List.map_eq_nil_iff.mp (h.rxVals.symm.trans hl)

theorem udd_nil (hl : l.udd = []) : q.udd.addrs = [] :=
  List.map_eq_nil_iff.mp (h.uddVals.symm.trans hl)

theorem deqRx_nil (hl : l.rx = []) : q.rxqDequeueHead = (none, q) := by
  unfold PtrQueue.rxqDequeueHead
  rw [h.rx.dequeueHead_nil (h.rx_nil hl)]

theorem deqUdd_nil (hl : l.udd = []) : q.uddDequeueHead = (none, q) := by
  unfold PtrQueue.uddDequeueHead
  rw [h.udd.dequeueHead_nil (h.udd_nil hl)]

/-- `rxq_dequeue_head` on both sides. -/
theorem deqRx_cons {n : StRxData} {ns : List StRxData} (hl : l.rx = n :: ns) :
    ∃ a p, q.rxqDequeueHead = (some (a, n), p) ∧
      p.dlen = q.dlen - (n.len - n.offset) ∧
      Holds p { l with rx := ns, dlen := l.dlen - (n.len - n.offset) } ∧
      HeldRx p (a, n) n := by
  obtain ⟨hok, hle, -⟩ := h.counts.rxDequeueHead_eq hl
  have hlt := h.counts.lt
  have hvals := h.rxVals
  rw [hl] at hvals
  cases has : q.rx.addrs with
  | nil => rw [has] at hvals; cases hvals
  | cons a as =>
      have hrepr := h.rx
      rw [has, List.map_cons] at hvals
      obtain ⟨hn, hns⟩ := List.cons.inj hvals
      rw [has] at hrepr
      obtain ⟨hfst, hrest, hoff, hval, hfresh⟩ := hrepr.dequeueHead_cons
      have hdeq : q.rx.dequeueHead = (some (a, n), q.rx.dequeueHead.2) := by
        rw [hn, ← hfst]
      rw [h.dlen] at hle hlt
      have hsub : u32Sub q.dlen (u32Sub n.len n.offset) = q.dlen - (n.len - n.offset) := by
        rw [hok.left, u32Sub_of_le hlt hle]
      have hnowrap : decide (q.dlen < u32Sub n.len n.offset) = false := by
        rw [hok.left]
        exact decide_eq_false (by omega)
      refine ⟨a, { q with rx := q.rx.dequeueHead.2, dlen := q.dlen - (n.len - n.offset) }, ?_,
        rfl, ?_, ?_⟩
      · unfold PtrQueue.rxqDequeueHead
        rw [hdeq]
        simp only [hsub, hnowrap, Bool.or_false]
      · refine ⟨?_, h.udd, ?_, ?_, h.uddVals, ?_, h.wrapped⟩
        · rw [hrest.addrs]
          exact hrest
        · dsimp only
          rw [h.dlen]
        · dsimp only
          rw [hrest.addrs, hval]
          exact hns
        · refine h.counts.replace ?_ ?_
            (fun m hm => Or.inl (by rw [hl]; exact List.mem_cons_of_mem _ hm)) fun m hm => Or.inl hm
          · rw [hl, rxBytes_cons, h.dlen]
            omega
          · rw [h.dlen]
            omega
      · refine ⟨rfl, ?_, hok, ?_⟩
        · rw [hrest.addrs]
          exact hoff
        · dsimp only
          omega

/-- `udd_dequeue_head` on both sides; a page held off the queue stays off it. -/
theorem deqUdd_cons {n : StC2hWrbUdd} {ns : List StC2hWrbUdd} (hl : l.udd = n :: ns) :
    ∃ a p, q.uddDequeueHead = (some (a, n), p) ∧
      p.rx = q.rx ∧ p.dlen = q.dlen - (n.uddLen - n.offset) ∧ p.udd.Off p.udd.addrs a ∧
      Holds p { l with udd := ns, dlen := l.dlen - (n.uddLen - n.offset) } := by
  obtain ⟨hok, hle, -⟩ := h.counts.uddDequeueHead_eq hl
  have hlt := h.counts.lt
  have hvals := h.uddVals
  rw [hl] at hvals
  cases has : q.udd.addrs with
  | nil => rw [has] at hvals; cases hvals
  | cons a as =>
      have hrepr := h.udd
      rw [has, List.map_cons] at hvals
      obtain ⟨hn, hns⟩ := List.cons.inj hvals
      rw [has] at hrepr
      obtain ⟨hfst, hrest, hoff, hval, hfresh⟩ := hrepr.dequeueHead_cons
      have hdeq : q.udd.dequeueHead = (some (a, n), q.udd.dequeueHead.2) := by
        rw [hn, ← hfst]
      rw [h.dlen] at hle hlt
      have hsub : u32Sub q.dlen (u32Sub n.uddLen n.offset) = q.dlen - (n.uddLen - n.offset) := by
        rw [hok.left, u32Sub_of_le hlt hle]
      have hnowrap : decide (q.dlen < u32Sub n.uddLen n.offset) = false := by
        rw [hok.left]
        exact decide_eq_false (by omega)
      refine ⟨a, { q with udd := q.udd.dequeueHead.2, dlen := q.dlen - (n.uddLen - n.offset) }, ?_,
        rfl, rfl, ?_, ?_⟩
      · unfold PtrQueue.uddDequeueHead
        rw [hdeq]
        simp only [hsub, hnowrap, Bool.or_false]
      · rw [hrest.addrs]
        exact hoff
      · refine ⟨h.rx, ?_, ?_, h.rxVals, ?_, ?_, h.wrapped⟩
        · rw [hrest.addrs]
          exact hrest
        · dsimp only
          rw [h.dlen]
        · dsimp only
          rw [hrest.addrs, hval]
          exact hns
        · refine h.counts.replace ?_ ?_ (fun m hm => Or.inl hm)
            fun m hm => Or.inl (by rw [hl]; exact List.mem_cons_of_mem _ hm)
          · rw [hl, uddBytes_cons, h.dlen]
            omega
          · rw [h.dlen]
            omega

/-- `rxq_enqueue_head` on both sides. -/
theorem enqRx {n : ℕ × StRxData} {n' : StRxData} (hn : HeldRx q n n') :
    Holds (q.rxqEnqueueHead n) (Qdma.rxqEnqueueHead l n') := by
  obtain ⟨a, v⟩ := n
  obtain rfl : v = n' := hn.val
  have hroom := hn.room
  rw [← h.dlen] at hroom
  have hrepr := h.rx.enqueueHead hn.off v
  rw [StRxQueue.Counts.rxEnqueueHead_eq hn.ok hroom]
  have hadd : u32 (q.dlen + u32Sub v.len v.offset) = (v.len - v.offset) + l.dlen := by
    rw [hn.ok.left, ← h.dlen, Nat.add_comm, u32_of_lt hroom]
  unfold PtrQueue.rxqEnqueueHead
  refine ⟨?_, h.udd, hadd.symm, ?_, h.uddVals, ?_, h.wrapped⟩
  · dsimp only
    rw [hrepr.addrs]
    exact hrepr
  · dsimp only
    rw [hrepr.addrs, List.map_cons, h.rxVals]
    unfold Chain.enqueueHead
    dsimp only
    rw [Function.update_self, map_update_of_notMem hn.off.notMem]
  · refine h.counts.replace ?_ hroom ?_ fun m hm => Or.inl hm
    · rw [rxBytes_cons]
      omega
    · intro m hm
      obtain rfl | hm := List.mem_cons.mp hm
      · exact Or.inr hn.ok
      · exact Or.inl hm

/-- `udd_enqueue_head` on both sides. -/
theorem enqUdd {a : ℕ} {v : StC2hWrbUdd} (hok : v.Ok) (hoff : q.udd.Off q.udd.addrs a)
    (hroom : (v.uddLen - v.offset) + l.dlen < 2 ^ 32) :
    Holds (q.uddEnqueueHead (a, v)) (Qdma.uddEnqueueHead l v) := by
  have hrepr := h.udd.enqueueHead hoff v
  rw [StRxQueue.Counts.uddEnqueueHead_eq hok hroom]
  have hadd : u32 (q.dlen + u32Sub v.uddLen v.offset) = (v.uddLen - v.offset) + l.dlen := by
    rw [hok.left, ← h.dlen, Nat.add_comm, u32_of_lt hroom]
  unfold PtrQueue.uddEnqueueHead
  refine ⟨h.rx, ?_, hadd.symm, h.rxVals, ?_, ?_, h.wrapped⟩
  · dsimp only
    rw [hrepr.addrs]
    exact hrepr
  · dsimp only
    rw [hrepr.addrs, List.map_cons, h.uddVals]
    unfold Chain.enqueueHead
    dsimp only
    rw [Function.update_self, map_update_of_notMem hoff.notMem]
  · refine h.counts.replace ?_ hroom (fun m hm => Or.inl hm) ?_
    · rw [uddBytes_cons]
      omega
    · intro m hm
      obtain rfl | hm := List.mem_cons.mp hm
      · exact Or.inr hok
      · exact Or.inl hm

end Holds

/-- A page off the queue is still off it when only user-defined data was taken. -/
theorem HeldRx.of_rx_eq {q p : PtrQueue} {n : ℕ × StRxData} {n' : StRxData} (h : HeldRx q n n')
    (hrx : p.rx = q.rx) (hle : p.dlen ≤ q.dlen) : HeldRx p n n' := by
  have hroom := h.room
  refine ⟨h.val, ?_, h.ok, by omega⟩
  rw [hrx]
  exact h.off

/-- A page off the queue, read up to a later offset. -/
theorem HeldRx.advance {q : PtrQueue} {n : ℕ × StRxData} {n' : StRxData} (h : HeldRx q n n')
    (len : ℕ)
    (hne : u32 (n'.offset + min len (u32Sub n'.len n'.offset)) ≠ n'.len) :
    HeldRx q
      (n.1, { n' with offset := u32 (n'.offset + min len (u32Sub n'.len n'.offset)) })
      { n' with offset := u32 (n'.offset + min len (u32Sub n'.len n'.offset)) } := by
  have hoffset := h.ok.offset
  have hlen := h.ok.len
  have hroom := h.room
  have hmin : min len (n'.len - n'.offset) ≤ n'.len - n'.offset := Nat.min_le_right ..
  rw [h.ok.left] at hne ⊢
  rw [u32_of_lt (by omega)] at hne ⊢
  refine ⟨rfl, h.off, ⟨?_, hlen⟩, ?_⟩
  · dsimp only
    omega
  · dsimp only
    omega

/-- User-defined data read up to a later offset. -/
theorem StC2hWrbUdd.Ok.advance {u : StC2hWrbUdd} (h : u.Ok) (len : ℕ)
    (hne : (u.offset + min len (u32Sub u.uddLen u.offset)) % 2 ^ 8 ≠ u.uddLen) :
    ({ u with offset := (u.offset + min len (u32Sub u.uddLen u.offset)) % 2 ^ 8 } :
        StC2hWrbUdd).Ok ∧
      u.offset ≤ (u.offset + min len (u32Sub u.uddLen u.offset)) % 2 ^ 8 := by
  have hoffset := h.offset
  have hlen := h.len
  have hmin : min len (u.uddLen - u.offset) ≤ u.uddLen - u.offset := Nat.min_le_right ..
  rw [h.left] at hne ⊢
  rw [Nat.mod_eq_of_lt (show u.offset + min len (u.uddLen - u.offset) < 2 ^ 8 by omega)] at hne ⊢
  refine ⟨⟨?_, hlen⟩, by omega⟩
  dsimp only
  omega

theorem PtrQueue.uddEnqueueHead_rx (q : PtrQueue) (n : ℕ × StC2hWrbUdd) :
    (q.uddEnqueueHead n).rx = q.rx := by
  unfold PtrQueue.uddEnqueueHead
  generalize u32 (q.dlen + u32Sub n.2.uddLen n.2.offset) = d
  rfl

/-- User-defined data put back after part of it was read. -/
theorem Holds.uddBack {q p : PtrQueue} {l : StRxQueue} {u : StC2hWrbUdd} {us : List StC2hWrbUdd}
    {a k : ℕ} (hp : Holds p { l with udd := us, dlen := l.dlen - (u.uddLen - u.offset) })
    (h : Holds q l) (hv : ({ u with offset := k } : StC2hWrbUdd).Ok) (hu : u.Ok) (hk : u.offset ≤ k)
    (hrx : p.rx = q.rx) (hdlen : p.dlen = q.dlen - (u.uddLen - u.offset))
    (hle : u.uddLen - u.offset ≤ l.dlen) (hoff : p.udd.Off p.udd.addrs a) :
    Holds (p.uddEnqueueHead (a, { u with offset := k }))
        (uddEnqueueHead { l with udd := us, dlen := l.dlen - (u.uddLen - u.offset) }
          { u with offset := k }) ∧
      ∀ {n n'}, HeldRx q n n' → HeldRx (p.uddEnqueueHead (a, { u with offset := k })) n n' := by
  have hlt := h.counts.lt
  have hdl := h.dlen
  have hoffset := hu.offset
  -- what is put back is at most what was taken
  have hroom : (u.uddLen - k) + (l.dlen - (u.uddLen - u.offset)) ≤ l.dlen := by omega
  refine ⟨hp.enqUdd hv hoff (Nat.lt_of_le_of_lt hroom hlt), ?_⟩
  intro n n' hn
  have hdlen' : (p.uddEnqueueHead (a, { u with offset := k })).dlen =
      u32 (p.dlen + (u.uddLen - k)) := by
    have hleft := hv.left
    unfold PtrQueue.uddEnqueueHead
    simp only [hleft]
  have hlt' : p.dlen + (u.uddLen - k) < 2 ^ 32 := by omega
  rw [u32_of_lt hlt'] at hdlen'
  exact hn.of_rx_eq ((PtrQueue.uddEnqueueHead_rx p _).trans hrx) (by omega)

/-- **The helpers with their pointers do what the helpers on lists do.** -/
theorem ptrSim : OpsSim ptrOps listOps Holds HeldRx where
  size {q l} h := by
    change q.rx.addrs.length = l.rx.length
    rw [h.rxVals, List.length_map]
  rx h := h.val
  deqRx {q l} h := by
    change Holds q.rxqDequeueHead.2 (rxqDequeueHead l).2 ∧ _
    cases hl : l.rx with
    | nil =>
        have hq := h.deqRx_nil hl
        have hl' := rxqDequeueHead_nil hl
        refine ⟨?_, Or.inl ⟨?_, ?_⟩⟩
        · rw [hq, hl']
          exact h
        · exact congrArg Prod.fst hq
        · exact congrArg Prod.fst hl'
    | cons n ns =>
        obtain ⟨a, p, hq, -, hp, hheld⟩ := h.deqRx_cons hl
        obtain ⟨-, -, hl'⟩ := h.counts.rxDequeueHead_eq hl
        refine ⟨?_, Or.inr ⟨(a, n), n, ?_, ?_, ?_⟩⟩
        · rw [hq, hl']
          exact hp
        · exact congrArg Prod.fst hq
        · exact congrArg Prod.fst hl'
        · rw [show (ptrOps.deqRx q).2 = p from congrArg Prod.snd hq]
          exact hheld
  enqRx h hn := h.enqRx hn
  advance h len hne := h.advance len hne
  deqUdd {q l} h := by
    change Holds q.uddDequeueHead.2 (uddDequeueHead l).2 ∧ _
    cases hl : l.udd with
    | nil =>
        have hq := h.deqUdd_nil hl
        have hl' : uddDequeueHead l = (none, l) := by
          unfold uddDequeueHead
          rw [hl]
        refine ⟨?_, ?_, Or.inl ⟨?_, ?_⟩⟩
        · rw [hq, hl']
          exact h
        · intro n n' hn
          rw [show (ptrOps.deqUdd q).2 = q from congrArg Prod.snd hq]
          exact hn
        · exact congrArg Prod.fst hq
        · exact congrArg Prod.fst hl'
    | cons u us =>
        obtain ⟨a, p, hq, hrx, hdlen, hoff, hp⟩ := h.deqUdd_cons hl
        obtain ⟨hok, hle, hl'⟩ := h.counts.uddDequeueHead_eq hl
        have hq₂ : (ptrOps.deqUdd q).2 = p := congrArg Prod.snd hq
        have hl₂ : (listOps.deqUdd l).2 =
            { l with udd := us, dlen := l.dlen - (u.uddLen - u.offset) } := congrArg Prod.snd hl'
        refine ⟨?_, ?_, Or.inr ⟨(a, u), u, congrArg Prod.fst hq, congrArg Prod.fst hl', rfl, ?_⟩⟩
        · rw [hq, hl']
          exact hp
        · intro n n' hn
          rw [hq₂]
          exact hn.of_rx_eq hrx (by omega)
        · intro len
          refine ⟨rfl, rfl, fun hne => ?_⟩
          rw [hq₂, hl₂]
          simp only [ptrOps, listOps, id] at hne ⊢
          have hadv := hok.advance len
          generalize (u.offset + min len (u32Sub u.uddLen u.offset)) % 2 ^ 8 = k at hne hadv ⊢
          obtain ⟨hv, hk⟩ := hadv hne
          exact hp.uddBack h hv hok hk hrx hdlen hle hoff

/-! ## New nodes, and the queue given up -/

namespace PtrQueue

/-- `descq_st_c2h_rx_data` with its `kmalloc`, for one page. -/
def rxData (q : PtrQueue) (n : StRxData) : PtrQueue :=
  ({ q with rx := q.rx.alloc.2 } : PtrQueue).rxqEnqueueTail (q.rx.alloc.1, n)

/-- The user-defined data of a completion entry, allocated and queued. -/
def uddData (q : PtrQueue) (u : StC2hWrbUdd) : PtrQueue :=
  ({ q with udd := q.udd.alloc.2 } : PtrQueue).uddEnqueueTail (q.udd.alloc.1, u)

/-- The same when its bytes are not counted yet. -/
def uddLinked (q : PtrQueue) (u : StC2hWrbUdd) : PtrQueue :=
  { q with udd := q.udd.alloc.2.enqueueTail (q.udd.alloc.1, u) }

end PtrQueue

namespace Holds

variable {q : PtrQueue} {l : StRxQueue} (h : Holds q l)
include h

theorem rxData {n : StRxData} (hn : n.Ok) (hroom : (n.len - n.offset) + q.dlen < 2 ^ 32) :
    Holds (q.rxData n) { l with rx := l.rx ++ [n], dlen := (n.len - n.offset) + l.dlen } := by
  obtain ⟨halloc, hoff⟩ := h.rx.alloc
  have hrepr := halloc.enqueueTail hoff n
  have hadd : u32 (q.dlen + u32Sub n.len n.offset) = (n.len - n.offset) + l.dlen := by
    rw [hn.left, h.dlen, Nat.add_comm, u32_of_lt hroom]
  rw [← h.dlen] at hroom
  unfold PtrQueue.rxData PtrQueue.rxqEnqueueTail
  refine ⟨?_, h.udd, hadd.symm, ?_, h.uddVals, ?_, h.wrapped⟩
  · dsimp only
    rw [hrepr.addrs]
    exact hrepr
  · dsimp only
    rw [h.rxVals]
    exact (halloc.values_enqueueTail hoff n).symm
  · refine h.counts.replace ?_ hroom ?_ fun m hm => Or.inl hm
    · rw [rxBytes_append, rxBytes_cons, rxBytes_nil]
      omega
    · intro m hm
      obtain hm | hm := List.mem_append.mp hm
      · exact Or.inl hm
      · rw [List.mem_singleton.mp hm]
        exact Or.inr hn

theorem uddData {u : StC2hWrbUdd} (hu : u.Ok) (hroom : (u.uddLen - u.offset) + q.dlen < 2 ^ 32) :
    Holds (q.uddData u)
      { l with udd := l.udd ++ [u], dlen := (u.uddLen - u.offset) + l.dlen } := by
  obtain ⟨halloc, hoff⟩ := h.udd.alloc
  have hrepr := halloc.enqueueTail hoff u
  have hadd : u32 (q.dlen + u32Sub u.uddLen u.offset) = (u.uddLen - u.offset) + l.dlen := by
    rw [hu.left, h.dlen, Nat.add_comm, u32_of_lt hroom]
  rw [← h.dlen] at hroom
  unfold PtrQueue.uddData PtrQueue.uddEnqueueTail
  refine ⟨h.rx, ?_, hadd.symm, h.rxVals, ?_, ?_, h.wrapped⟩
  · dsimp only
    rw [hrepr.addrs]
    exact hrepr
  · dsimp only
    rw [h.uddVals]
    exact (halloc.values_enqueueTail hoff u).symm
  · refine h.counts.replace ?_ hroom (fun m hm => Or.inl hm) ?_
    · rw [uddBytes_append, uddBytes_cons, uddBytes_nil]
      omega
    · intro m hm
      obtain hm | hm := List.mem_append.mp hm
      · exact Or.inl hm
      · rw [List.mem_singleton.mp hm]
        exact Or.inr hu

omit h in
/-- The loop takes every page and leaves the user-defined data. -/
theorem rxqFreeLoop :
    ∀ (fuel : ℕ) {q : PtrQueue} {l : StRxQueue}, Holds q l → l.rx.length ≤ fuel →
      ∃ l', Holds (PtrQueue.rxqFreeLoop fuel q) l' ∧ l'.rx = [] ∧ l'.udd = l.udd := by
  intro fuel
  induction fuel with
  | zero =>
      intro q l h hlen
      exact ⟨l, h, List.length_eq_zero_iff.mp (Nat.le_zero.mp hlen), rfl⟩
  | succ fuel ih =>
      intro q l h hlen
      cases hl : l.rx with
      | nil =>
          refine ⟨l, ?_, hl, rfl⟩
          rw [PtrQueue.rxqFreeLoop, h.deqRx_nil hl]
          exact h
      | cons n ns =>
          obtain ⟨a, p, hq, -, hp, -⟩ := h.deqRx_cons hl
          rw [hl, List.length_cons] at hlen
          rw [PtrQueue.rxqFreeLoop, hq]
          obtain ⟨l', hl', hrx, hudd⟩ := ih hp (by dsimp only; omega)
          exact ⟨l', hl', hrx, hudd⟩

/-- Every page on the list holds at least one byte. -/
theorem rx_nil_of_dlen (hzero : q.dlen = 0) : l.rx = [] := by
  cases hl : l.rx with
  | nil => rfl
  | cons n ns =>
      have hok := (h.counts.rx n (by rw [hl]; exact List.mem_cons_self ..)).offset
      have hdlen := h.counts.dlen
      rw [h.dlen, hzero, hl, rxBytes_cons] at hdlen
      omega

theorem rxqFreeResource :
    ∃ l', Holds q.rxqFreeResource l' ∧ l'.rx = [] ∧ l'.udd = l.udd := by
  refine rxqFreeLoop _ h ?_
  rw [h.rxVals, List.length_map]
  exact Nat.le_succ _

end Holds

/-! ## Runs -/

/-- Where a call of `udd_enqueue_tail` is: `udd_head` was NULL or not, `udd_tail` was read, the
node `a` is linked, it is the tail, `dlen` was read. -/
inductive UddPc where
  | test
  | empty
  | nonempty
  | behind (t : Option ℕ)
  | linked (a : ℕ)
  | tailed
  | loaded (dlen : ℕ)

/-- The node is on the list and not counted. -/
def UddPc.Halfway : UddPc → Prop
  | .linked _ => True
  | .tailed => True
  | .loaded _ => True
  | _ => False

/-- A call of `udd_enqueue_tail` that is under way.  `descq_st_c2h_wb` does not take
`rxq->lock` for it. -/
structure UddEnqueue where
  udd : StC2hWrbUdd
  pc : UddPc

namespace UddEnqueue

/-- What the next access stores. -/
def store (e : UddEnqueue) (q : PtrQueue) : PtrQueue :=
  let a := q.udd.alloc.1
  let udd := q.udd.alloc.2
  match e.pc with
  | .empty => { q with udd := udd.linkHead (a, e.udd) }
  | .behind t => { q with udd := udd.linkBehind t (a, e.udd) }
  | .linked a => { q with udd := q.udd.setTail a }
  | .loaded dlen => { q with dlen := u32 (dlen + u32Sub e.udd.uddLen e.udd.offset) }
  | .test | .nonempty | .tailed => q

/-- Where the call is then, unless it is done. -/
def next (e : UddEnqueue) (q : PtrQueue) : Option UddPc :=
  match e.pc with
  | .test => some (if q.udd.head.isNone then .empty else .nonempty)
  | .nonempty => some (.behind q.udd.tail)
  | .empty | .behind _ => some (.linked q.udd.alloc.1)
  | .linked _ => some .tailed
  | .tailed => some (.loaded q.dlen)
  | .loaded _ => none

end UddEnqueue

/-- What `rxq->lock` is taken for: a read, or the pages of `qdma_descq_free_resource`. -/
inductive RxqJob where
  | read (lens : List ℕ)
  | free
  deriving DecidableEq

/-- `rxq->lock`: taken before, during and after the accesses it is taken for, or kept by a read
that returned. -/
inductive RxqLock where
  | free
  | taken (job : RxqJob)
  | busy (job : RxqJob)
  | done
  | kept
  deriving DecidableEq

/-- The receive queue of an ST C2H queue: whether its rings are allocated, `rxq->lock`, whether
the pages are still to be freed, `st_c2h_wrb_udd_en`, and the data on its way to the list. -/
structure RxqState where
  q : PtrQueue
  up : Bool
  lock : RxqLock
  freeing : Bool
  uddEn : Bool
  enq : Option UddEnqueue

def RxqState.init : RxqState where
  q := PtrQueue.empty
  up := false
  lock := .free
  freeing := false
  uddEn := false
  enq := none

/-- What happens to the queue.  A reader that timed out reads like any other. -/
inductive RxqEv where
  /-- `descq_st_c2h_wb` calls `udd_enqueue_tail` for a completion. -/
  | udd (u : StC2hWrbUdd)
  /-- The next access of that call. -/
  | uddStep
  /-- A page of a completion's payload, queued with the lock. -/
  | page (n : StRxData)
  /-- A reader takes the lock. -/
  | read (lens : List ℕ)
  /-- The lock is taken to free the pages. -/
  | free
  /-- What the lock was taken for begins or ends, or the lock is given back. -/
  | lockStep
  /-- `qdma_queue_stop`. -/
  | stop
  /-- `qdma_queue_start`; an allocation may fail. -/
  | start (ok uddEn : Bool)

namespace RxqState

variable (s : RxqState)

/-- The next access of `udd_enqueue_tail`. -/
def uddAccess (e : UddEnqueue) : RxqState :=
  { s with
    q := e.store s.q
    enq := (e.next s.q).map fun pc => { e with pc := pc } }

/-- The holder of the lock goes on.  The accesses of a read are put at its end: what they do
when something gets in between is left open. -/
def lockStep (page : Option ℕ → ℕ → BitVec 8) : RxqState :=
  match s.lock with
  | .taken job => { s with lock := .busy job }
  | .busy (.read lens) =>
      let r := qdmaDescqRxqRead ptrOps page s.uddEn lens s.q
      { s with q := r.rxq, lock := if r.locked then .kept else .done }
  | .busy .free => { s with q := s.q.rxqFreeResource, freeing := false, lock := .done }
  | .done => { s with lock := .free }
  | .free | .kept => s

/-- `qdma_descq_free_resource` looks at `dlen` without the lock. -/
def freeResource : RxqState := { s with up := false, freeing := decide (s.q.dlen ≠ 0) }

/-- The holder of the lock is at the queue. -/
def Busy : Prop :=
  match s.lock with
  | .busy _ => True
  | _ => False

/-- The holder of the lock has not been at the queue yet. -/
def Entering : Prop :=
  match s.lock with
  | .taken _ => True
  | _ => False

/-- A node is on the list and not counted. -/
def Halfway : Prop := ∃ e ∈ s.enq, e.pc.Halfway

end RxqState

/-- `descq->lock` keeps one pass over the completions and the starts apart; a stop does not
take it. -/
def rxqSystem (page : Option ℕ → ℕ → BitVec 8) : System RxqState RxqEv where
  step s
    | .udd u => { s with enq := some { udd := u, pc := .test } }
    | .uddStep => s.enq.elim s s.uddAccess
    | .page n => { s with q := s.q.rxData n }
    | .read lens => { s with lock := .taken (.read lens) }
    | .free => { s with lock := .taken .free }
    | .lockStep => s.lockStep page
    | .stop => s.freeResource
    | .start true uddEn => { s with q := { s.q with dlen := 0 }, up := true, uddEn := uddEn }
    | .start false uddEn => { s.freeResource with uddEn := uddEn }
  guard s
    | .udd u => s.up = true ∧ s.uddEn = true ∧ s.enq.isNone ∧ u.offset = 0 ∧ u.Ok
    | .uddStep => s.enq.isSome
    | .page n =>
        s.up = true ∧ s.lock = .free ∧ s.enq.isNone ∧ n.offset = 0 ∧ 0 < n.len ∧ n.len ≤ pageSize
    | .read _ => s.lock = .free
    | .free => s.freeing = true ∧ s.lock = .free
    | .lockStep => s.lock ≠ .free ∧ s.lock ≠ .kept
    | .stop => s.up = true
    | .start _ _ => s.up = false ∧ s.freeing = false ∧ s.enq.isNone

instance (u : StC2hWrbUdd) : Decidable u.Ok :=
  decidable_of_iff (u.offset < u.uddLen ∧ u.uddLen < 2 ^ 8)
    ⟨fun h => ⟨h.1, h.2⟩, fun h => ⟨h.offset, h.len⟩⟩

instance (page : Option ℕ → ℕ → BitVec 8) (s : RxqState) (e : RxqEv) :
    Decidable ((rxqSystem page).guard s e) := by
  dsimp only [rxqSystem]
  split <;> infer_instance

/-- What the queue promises whenever its lock is free. -/
structure PtrQueue.Represented (q : PtrQueue) : Prop where
  dlen : q.dlen = rxBytes q.rx.values + uddBytes q.udd.values
  rxEnds : q.rx.head = none ↔ q.rx.tail = none
  uddEnds : q.udd.head = none ↔ q.udd.tail = none
  rxLinked : Lib.Linked q.rx.next q.rx.head q.rx.addrs
  uddLinked : Lib.Linked q.udd.next q.udd.head q.udd.addrs
  rxTail : q.rx.tail = q.rx.addrs.getLast?
  uddTail : q.udd.tail = q.udd.addrs.getLast?
  nowrap : q.wrapped = false

theorem Holds.represented {q : PtrQueue} {l : StRxQueue} (h : Holds q l) : q.Represented where
  dlen := by
    have hdlen := h.counts.dlen
    rw [h.dlen, h.rxVals, h.uddVals] at hdlen
    exact hdlen
  rxEnds := h.rx.head_none.trans h.rx.tail_none.symm
  uddEnds := h.udd.head_none.trans h.udd.tail_none.symm
  rxLinked := h.rx.linked
  uddLinked := h.udd.linked
  rxTail := h.rx.tail
  uddTail := h.udd.tail
  nowrap := h.wrapped

/-- What the call has read still stands, and the bytes can be counted. -/
def UddEnqueue.Fits (q : PtrQueue) (e : UddEnqueue) : Prop :=
  match e.pc with
  | .empty => q.udd.head = none
  | .behind t => q.udd.head ≠ none ∧ t = q.udd.tail
  | .loaded dlen => e.udd.uddLen + dlen < 2 ^ 32
  | _ => True

/-- The accesses without the lock stay out of what is done with it, the queue holds less than
4 GiB, and no user-defined data is left when it is set up. -/
def RxqKept (s : RxqState) : RxqEv → Prop
  | .uddStep => ¬ s.Busy ∧ ∀ e ∈ s.enq, e.Fits s.q
  | .page n => n.len + s.q.dlen < 2 ^ 32
  | .lockStep => ¬ (s.Entering ∧ s.Halfway)
  | .stop => ¬ s.Busy
  | .start ok _ => ¬ s.Busy ∧ (ok = true → s.q.udd.head = none)
  | _ => True

instance (s : RxqState) : Decidable s.Busy := by
  unfold RxqState.Busy
  split <;> infer_instance

instance (s : RxqState) : Decidable s.Entering := by
  unfold RxqState.Entering
  split <;> infer_instance

instance (pc : UddPc) : Decidable pc.Halfway := by
  unfold UddPc.Halfway
  split <;> infer_instance

instance (s : RxqState) : Decidable s.Halfway :=
  inferInstanceAs (Decidable (∃ e ∈ s.enq, e.pc.Halfway))

instance (q : PtrQueue) (e : UddEnqueue) : Decidable (e.Fits q) := by
  unfold UddEnqueue.Fits
  split <;> infer_instance

instance (s : RxqState) (e : RxqEv) : Decidable (RxqKept s e) := by
  unfold RxqKept
  split <;> infer_instance

instance (page : Option ℕ → ℕ → BitVec 8) (s : RxqState) (e : RxqEv) :
    Decidable (((rxqSystem page).restrict RxqKept).guard s e) :=
  inferInstanceAs (Decidable ((rxqSystem page).guard s e ∧ RxqKept s e))

/-! ## A call of `udd_enqueue_tail` under way -/

/-- How far the call has got from the queue `q` it was made on. -/
def Partly (q q' : PtrQueue) : Option UddEnqueue → Prop
  | none => q' = q
  | some e =>
      e.udd.Ok ∧
        match e.pc with
        | .linked a =>
            a = q.udd.alloc.1 ∧ q'.udd.tail = q.udd.tail ∧
              { q' with udd := q'.udd.setTail a } = q.uddLinked e.udd
        | .tailed => q' = q.uddLinked e.udd
        | .loaded dlen => q' = q.uddLinked e.udd ∧ dlen = q.dlen
        | _ => q' = q

section Partly

variable {q q' : PtrQueue} {l : StRxQueue}

theorem Partly.whole {o : Option UddEnqueue} (h : Partly q q' o) (hno : ∀ e ∈ o, ¬ e.pc.Halfway) :
    q' = q := by
  cases o with
  | none => exact h
  | some e =>
      obtain ⟨u, pc⟩ := e
      have hpc := hno _ rfl
      cases pc with
      | linked a => exact absurd trivial hpc
      | tailed => exact absurd trivial hpc
      | loaded dlen => exact absurd trivial hpc
      | _ => exact h.2

/-- The bytes are counted last. -/
theorem Partly.dlen {o : Option UddEnqueue} (h : Partly q q' o) : q'.dlen = q.dlen := by
  cases o with
  | none => exact congrArg PtrQueue.dlen h
  | some e =>
      obtain ⟨u, pc⟩ := e
      obtain ⟨-, hpc⟩ := h
      have hlinked : (q.uddLinked u).dlen = q.dlen := rfl
      cases pc with
      | linked a => exact (congrArg PtrQueue.dlen hpc.2.2).trans hlinked
      | tailed => exact (congrArg PtrQueue.dlen hpc).trans hlinked
      | loaded dlen => exact (congrArg PtrQueue.dlen hpc.1).trans hlinked
      | _ => exact congrArg PtrQueue.dlen hpc

theorem Partly.ok {o : Option UddEnqueue} (h : Partly q q' o) : ∀ e ∈ o, e.udd.Ok := by
  rintro e he
  cases Option.mem_def.mp he
  exact h.1

/-- A call that has not linked its node can go on from any queue. -/
theorem partly_of_whole {o : Option UddEnqueue} (hok : ∀ e ∈ o, e.udd.Ok)
    (hno : ∀ e ∈ o, ¬ e.pc.Halfway) (q : PtrQueue) : Partly q q o := by
  cases o with
  | none => exact rfl
  | some e =>
      obtain ⟨u, pc⟩ := e
      have hpc := hno _ rfl
      refine ⟨hok _ rfl, ?_⟩
      cases pc with
      | linked a => exact absurd trivial hpc
      | tailed => exact absurd trivial hpc
      | loaded dlen => exact absurd trivial hpc
      | _ => exact rfl

theorem Holds.uddLinked_addrs (h : Holds q l) (u : StC2hWrbUdd) :
    (q.uddLinked u).udd.addrs = q.udd.addrs ++ [q.udd.alloc.1] := by
  obtain ⟨halloc, hoff⟩ := h.udd.alloc
  exact (halloc.enqueueTail hoff u).addrs

/-- The queue with the data on its list, where it is not counted, is not the sum. -/
theorem Holds.uddLinked_broken (h : Holds q l) {u : StC2hWrbUdd} (hu : u.Ok) :
    ¬ (q.uddLinked u).Represented := by
  intro hrep
  obtain ⟨halloc, hoff⟩ := h.udd.alloc
  have hold := h.represented.dlen
  have hnew : q.dlen = rxBytes q.rx.values + uddBytes (q.uddLinked u).udd.values := hrep.dlen
  have hvals : (q.uddLinked u).udd.values = q.udd.values ++ [u] := halloc.values_enqueueTail hoff u
  have hlt := hu.offset
  rw [hvals, uddBytes_append, uddBytes_cons, uddBytes_nil] at hnew
  omega

/-- **While the data is linked and not counted**, the queue is not what it promises to be. -/
theorem Holds.halfway_broken (h : Holds q l) {e : UddEnqueue} (hpart : Partly q q' (some e))
    (hhalf : e.pc.Halfway) : ¬ q'.Represented := by
  obtain ⟨u, pc⟩ := e
  obtain ⟨hu, hpc⟩ := hpart
  cases pc with
  | linked a =>
      obtain ⟨rfl, htail, hset⟩ := hpc
      intro hrep
      -- the tail is still the last node but one
      have haddrs : q'.udd.addrs = q.udd.addrs ++ [q.udd.alloc.1] :=
        (congrArg (fun p : PtrQueue => p.udd.addrs) hset).trans (h.uddLinked_addrs u)
      have hlast := hrep.uddTail
      rw [haddrs, htail, h.udd.tail, List.getLast?_concat] at hlast
      exact h.udd.alloc.2.notMem (List.mem_of_getLast? hlast)
  | tailed =>
      rw [show q' = q.uddLinked u from hpc]
      exact h.uddLinked_broken hu
  | loaded dlen =>
      rw [show q' = q.uddLinked u from hpc.1]
      exact h.uddLinked_broken hu
  | _ => exact hhalf.elim

end Partly

/-- The invariant of a run: the pointers stand for lists but for a call under way, a queue
without rings has no page once they are freed, and nothing is halfway at the queue. -/
def RxqInv (s : RxqState) : Prop :=
  ∃ q l, Holds q l ∧ Partly q s.q s.enq ∧ (s.up = false → s.freeing = false → l.rx = []) ∧
    (s.Busy → ¬ s.Halfway)

section Steps

variable {s : RxqState}

/-- **One access** takes the call on: the queue is left, or the data is added to it. -/
theorem uddAccess_partly {q : PtrQueue} {l : StRxQueue} (h : Holds q l) {e : UddEnqueue}
    (hpart : Partly q s.q (some e)) (hfits : e.Fits s.q) :
    ∃ q' l', Holds q' l' ∧ l'.rx = l.rx ∧ Partly q' (s.uddAccess e).q (s.uddAccess e).enq := by
  unfold RxqState.uddAccess
  obtain ⟨u, pc⟩ := e
  obtain ⟨hu, hpc⟩ := hpart
  cases pc with
  | test =>
      refine ⟨q, l, h, rfl, hu, ?_⟩
      dsimp only
      cases s.q.udd.head.isNone with
      | true => exact hpc
      | false => exact hpc
  | empty =>
      have hq : s.q = q := hpc
      refine ⟨q, l, h, rfl, hu, ?_, ?_, ?_⟩
      · rw [hq]
      · rw [← hq]
        rfl
      · have hlink := Chain.linkHead_setTail (c := s.q.udd.alloc.2) hfits (s.q.udd.alloc.1, u)
        unfold PtrQueue.uddLinked
        rw [← hq, ← hlink]
        rfl
  | nonempty => exact ⟨q, l, h, rfl, hu, hpc⟩
  | behind t =>
      have hq : s.q = q := hpc
      obtain ⟨hhead, rfl⟩ := hfits
      obtain ⟨t, ht⟩ : ∃ t, s.q.udd.tail = some t := by
        rw [hq] at hhead ⊢
        exact Option.ne_none_iff_exists'.mp fun hnone => hhead (h.represented.uddEnds.mpr hnone)
      refine ⟨q, l, h, rfl, hu, ?_, ?_, ?_⟩
      · rw [hq]
      · rw [← hq]
        rfl
      · have hlink := Chain.linkBehind_setTail (c := s.q.udd.alloc.2) hhead ht (s.q.udd.alloc.1, u)
        rw [← ht] at hlink
        unfold PtrQueue.uddLinked
        rw [← hq, ← hlink]
        rfl
  | linked a => exact ⟨q, l, h, rfl, hu, hpc.2.2⟩
  | tailed =>
      have hq : s.q = q.uddLinked u := hpc
      refine ⟨q, l, h, rfl, hu, hq, ?_⟩
      rw [hq]
      rfl
  | loaded dlen =>
      obtain ⟨hq, rfl⟩ := hpc
      have hfits : u.uddLen + q.dlen < 2 ^ 32 := hfits
      refine ⟨q.uddData u, _, h.uddData hu (by omega), rfl, ?_⟩
      rw [hq]
      rfl

theorem RxqState.not_halfway_iff (s : RxqState) : ¬ s.Halfway ↔ ∀ e ∈ s.enq, ¬ e.pc.Halfway := by
  unfold RxqState.Halfway
  push Not
  rfl

/-- Off the halfway, the queue itself stands for lists. -/
theorem RxqInv.whole (h : RxqInv s) (hno : ∀ e ∈ s.enq, ¬ e.pc.Halfway) :
    (∃ l, Holds s.q l ∧ (s.up = false → s.freeing = false → l.rx = [])) ∧
      ∀ e ∈ s.enq, e.udd.Ok := by
  obtain ⟨q, l, hl, hpart, hdown, -⟩ := h
  have hq := hpart.whole hno
  rw [← hq] at hl
  exact ⟨⟨l, hl, hdown⟩, hpart.ok⟩

theorem RxqInv.not_halfway_of_busy (h : RxqInv s) {job : RxqJob} (hlock : s.lock = .busy job) :
    ¬ s.Halfway := by
  obtain ⟨-, -, -, -, -, hbusy⟩ := h
  refine hbusy ?_
  unfold RxqState.Busy
  rw [hlock]
  trivial

/-- A state whose calls have not linked their node. -/
theorem RxqInv.of_whole {l : StRxQueue} (h : Holds s.q l) (hno : ∀ e ∈ s.enq, ¬ e.pc.Halfway)
    (hok : ∀ e ∈ s.enq, e.udd.Ok) (hdown : s.up = false → s.freeing = false → l.rx = []) :
    RxqInv s :=
  ⟨s.q, l, h, partly_of_whole hok hno s.q, hdown, fun _ => s.not_halfway_iff.mpr hno⟩

theorem not_halfway_of_isNone {o : Option UddEnqueue} (h : o.isNone = true) :
    ∀ e ∈ o, ¬ e.pc.Halfway := by
  rw [Option.isNone_iff_eq_none.mp h]
  exact fun e he => nomatch he

theorem RxqInv.uddStep (h : RxqInv s) {e : UddEnqueue} (he : s.enq = some e) (hbusy : ¬ s.Busy)
    (hfits : e.Fits s.q) : RxqInv (s.uddAccess e) := by
  obtain ⟨q, l, hl, hpart, hdown, -⟩ := h
  rw [he] at hpart
  obtain ⟨q', l', hl', hrx, hpart'⟩ := uddAccess_partly hl hpart hfits
  refine ⟨q', l', hl', hpart', fun hup hfree => ?_, fun hc => absurd hc hbusy⟩
  rw [hrx]
  exact hdown hup hfree

theorem RxqInv.page (h : RxqInv s) (hup : s.up = true) (henq : s.enq.isNone = true) {n : StRxData}
    (hzero : n.offset = 0) (hpos : 0 < n.len) (hroom : n.len + s.q.dlen < 2 ^ 32) :
    RxqInv { s with q := s.q.rxData n } := by
  have hno := not_halfway_of_isNone henq
  obtain ⟨⟨l, hl, -⟩, hok⟩ := h.whole hno
  have hn : n.Ok := ⟨by omega, by omega⟩
  have hroom' : (n.len - n.offset) + s.q.dlen < 2 ^ 32 := by omega
  have hnew := hl.rxData hn hroom'
  generalize s.q.rxData n = q at hnew ⊢
  exact .of_whole (s := { s with q := q }) hnew hno hok
    fun hc => absurd (hup.symm.trans hc) (by decide)

/-- The holder of the lock goes on. -/
theorem RxqInv.lockStep (page : Option ℕ → ℕ → BitVec 8) (h : RxqInv s)
    (henter : ¬ (s.Entering ∧ s.Halfway)) : RxqInv (s.lockStep page) := by
  unfold RxqState.lockStep RxqState.Entering at *
  cases hlock : s.lock with
  | free => exact h
  | kept => exact h
  | taken job =>
      rw [hlock] at henter
      have hno := s.not_halfway_iff.mp fun hhalf => henter ⟨trivial, hhalf⟩
      obtain ⟨⟨l, hl, hdown⟩, hok⟩ := h.whole hno
      exact .of_whole (s := { s with lock := .busy job }) hl hno hok hdown
  | done =>
      obtain ⟨q, l, hl, hpart, hdown, -⟩ := h
      exact ⟨q, l, hl, hpart, hdown, fun hc => hc.elim⟩
  | busy job =>
      have hno := s.not_halfway_iff.mp (h.not_halfway_of_busy hlock)
      obtain ⟨⟨l, hl, hdown⟩, hok⟩ := h.whole hno
      cases job with
      | read lens =>
          have hnew := (read_sim page ptrSim s.uddEn lens hl).rxq
          dsimp only
          generalize qdmaDescqRxqRead ptrOps page s.uddEn lens s.q = r at hnew ⊢
          refine .of_whole (s := { s with q := r.rxq, lock := if r.locked then .kept else .done })
            hnew hno hok fun hup hfree => ?_
          -- pages leave the queue at a read, they do not come
          have hpages := (pages_read page hl.counts.rx s.uddEn lens).1
          rw [hdown hup hfree, List.map_nil, List.append_eq_nil_iff] at hpages
          exact List.map_eq_nil_iff.mp hpages.2
      | free =>
          obtain ⟨l', hl', hrx, -⟩ := hl.rxqFreeResource
          dsimp only
          generalize s.q.rxqFreeResource = q at hl' ⊢
          exact .of_whole (s := { s with q := q, freeing := false, lock := .done }) hl' hno hok
            fun _ _ => hrx

/-- The rings are given up: the pages are freed later, unless there is nothing on the queue. -/
theorem RxqInv.freeResource (h : RxqInv s) (hbusy : ¬ s.Busy) : RxqInv s.freeResource := by
  obtain ⟨q, l, hl, hpart, -, -⟩ := h
  refine ⟨q, l, hl, hpart, fun _ hfree => ?_, fun hc => absurd hc hbusy⟩
  have hzero : s.q.dlen = 0 := by
    by_contra hne
    exact absurd hfree (by simp [RxqState.freeResource, hne])
  exact hl.rx_nil_of_dlen (hpart.dlen.symm.trans hzero)

theorem RxqInv.start (h : RxqInv s) (hdown : s.up = false) (hfree : s.freeing = false)
    (henq : s.enq.isNone = true) (hudd : s.q.udd.head = none) (uddEn : Bool) :
    RxqInv { s with q := { s.q with dlen := 0 }, up := true, uddEn := uddEn } := by
  have hno := not_halfway_of_isNone henq
  obtain ⟨⟨l, hl, hempty⟩, hok⟩ := h.whole hno
  have hrx := hempty hdown hfree
  have hnil : l.udd = [] := by
    rw [hl.uddVals, hl.udd.head_none.mp hudd, List.map_nil]
  have hold : Holds { s.q with dlen := 0 } { l with dlen := 0 } := by
    refine ⟨hl.rx, hl.udd, rfl, hl.rxVals, hl.uddVals, ?_, hl.wrapped⟩
    refine ⟨?_, by dsimp only; omega, hl.counts.rx, hl.counts.udd⟩
    dsimp only
    rw [hrx, hnil]
    rfl
  exact .of_whole (s := { s with q := { s.q with dlen := 0 }, up := true, uddEn := uddEn }) hold hno
    hok fun hc => by cases hc

end Steps

theorem rxqInv_step (page : Option ℕ → ℕ → BitVec 8) (s : RxqState) (e : RxqEv) (h : RxqInv s)
    (hg : ((rxqSystem page).restrict RxqKept).guard s e) :
    RxqInv (((rxqSystem page).restrict RxqKept).step s e) := by
  obtain ⟨hguard, hkept⟩ := hg
  match e, hguard, hkept with
  | .udd u, ⟨_, _, henq, _, hu⟩, _ =>
      obtain ⟨⟨l, hl, hdown⟩, -⟩ := h.whole (not_halfway_of_isNone henq)
      exact ⟨s.q, l, hl, ⟨hu, rfl⟩, hdown, fun _ ⟨e, he, hhalf⟩ => by
        cases Option.mem_def.mp he
        exact hhalf⟩
  | .uddStep, hguard, ⟨hbusy, hfits⟩ =>
      obtain ⟨e, he⟩ := Option.isSome_iff_exists.mp hguard
      change RxqInv (s.enq.elim s s.uddAccess)
      rw [he]
      exact h.uddStep he hbusy (hfits e he)
  | .page n, ⟨hup, _, henq, hzero, hpos, _⟩, hkept => exact h.page hup henq hzero hpos hkept
  | .read lens, _, _ =>
      obtain ⟨q, l, hl, hpart, hdown, -⟩ := h
      exact ⟨q, l, hl, hpart, hdown, fun hc => hc.elim⟩
  | .free, _, _ =>
      obtain ⟨q, l, hl, hpart, hdown, -⟩ := h
      exact ⟨q, l, hl, hpart, hdown, fun hc => hc.elim⟩
  | .lockStep, _, hkept => exact h.lockStep page hkept
  | .stop, _, hkept => exact h.freeResource hkept
  | .start true uddEn, ⟨hdown, hfree, henq⟩, ⟨_, hudd⟩ =>
      exact h.start hdown hfree henq (hudd rfl) uddEn
  | .start false uddEn, _, ⟨hbusy, _⟩ => exact h.freeResource hbusy

/-- The data of a completion is queued with nothing in between. -/
def uddWhole (u : StC2hWrbUdd) : List RxqEv := .udd u :: List.replicate 5 .uddStep

/-- A packet of ten bytes, six of them user-defined data. -/
def shortPacket : List RxqEv :=
  uddWhole { data := [0x10#8, 1#8, 2#8, 3#8, 4#8, 5#8], uddLen := 6, offset := 0 } ++
    [.page { pg := some 7, offset := 0, len := 4, uddRef := true }]

/-- The lock is taken, used and given back. -/
def lockedWhole (e : RxqEv) : List RxqEv := [e, .lockStep, .lockStep, .lockStep]

end Qdma

import Qdma.LifeSpec
import Qdma.Lib.Account

/-!
# Who holds which buffer

The coherent buffers of a queue are its descriptor ring and, on a streaming C2H queue,
its writeback ring.  `dma_free_coherent` is told the size of what it frees, and
`qdma_descq_free_resource` computes that size anew from the configuration of the
moment.  `Books` is a device together with the log of these calls, one account for each
ring of each queue.

`ResourcesKept` is what holds between calls: the flags, that `inited` means the rings,
and that every account is settled.  What makes the sizes agree is that
`qdma_descq_config` runs only on queues that are not enabled, and those have no rings.
-/

namespace Qdma

open Lib

/-! ## Sizes -/

/-- `get_desc_size`. -/
def getDescSize (d : QdmaDescq) : ℕ := if !d.conf.st then 32 else if d.conf.c2h then 8 else 16

/-- `get_desc_wb_size`: `struct qdma_desc_wb`. -/
def getDescWbSize (_ : QdmaDescq) : ℕ := 8

/-- `sizeof(struct qdma_c2h_wrb_wb)`. -/
def sizeofC2hWrbWb : ℕ := 8

/-- A buffer as `dma_alloc_coherent` and `dma_free_coherent` know it. -/
structure Coherent where
  size : ℕ
  bus : BitVec 64
  deriving DecidableEq

/-- The two rings of a queue. -/
inductive RingKind where
  | desc
  | wrb
  deriving DecidableEq

/-- The size `desc_ring_alloc` asks for, an `unsigned int`. -/
def allocLen (ringSz descSz wbSz : ℕ) : ℕ := u32 (ringSz * descSz + wbSz)

/-- The size `desc_ring_free` names, the `int` expression itself. -/
def freeLen (ringSz descSz wbSz : ℕ) : ℕ := ringSz * descSz + wbSz

/-! ## The calls to the allocator -/

/-- An entry of a queue's log. -/
abbrev DmaCall := RingKind × Booking Coherent

/-- The calls `qdma_descq_free_resource` makes. -/
def freeCalls (d : QdmaDescq) : List DmaCall :=
  (d.desc.map fun r =>
    (RingKind.desc, Booking.give
      { size := freeLen d.conf.rngsz (getDescSize d) (getDescWbSize d), bus := r.bus })).toList ++
  (d.descWrb.map fun r =>
    (RingKind.wrb, Booking.give
      { size := freeLen d.rngszWrb d.stC2hWrbEntryLen sizeofC2hWrbWb, bus := r.bus })).toList

/-- The calls `qdma_descq_alloc_resource` makes, those of its own `err_out`
included. -/
def allocCalls (al : RingAllocs) (d : QdmaDescq) : List DmaCall :=
  match al.desc with
  | none => freeCalls { d with desc := none }
  | some bus =>
      (RingKind.desc, Booking.take
        { size := allocLen d.conf.rngsz (getDescSize d) (getDescWbSize d), bus := bus }) ::
      if d.isStC2h then
        let d := { d with desc := descRingAlloc al.desc d.conf.rngsz }
        match flFill al d.conf.rngsz with
        | none => freeCalls { d with stRxFl := none }
        | some fls =>
            match al.wrb with
            | none => freeCalls { d with stRxFl := some fls, descWrb := none }
            | some a =>
                [(RingKind.wrb, Booking.take
                  { size := allocLen d.rngszWrb d.stC2hWrbEntryLen sizeofC2hWrbWb, bus := a.2 })]
      else []

/-- The calls `qdma_queue_start` makes: `err_out` frees what the allocation has left,
which after its failure is nothing. -/
def startCalls (env : StartEnv) (dev : XlnxDmaDev) (id : ℕ) : List DmaCall :=
  match dev.getDescqById id true with
  | none => []
  | some q =>
      let d := dev.descq q
      if !d.enabled || d.inited || d.online then []
      else
        allocCalls env.al d ++
          if (qdmaQueueStart env dev id).1 < 0 then freeCalls (descqAllocRings env.al d).2 else []

/-- The calls of `qdma_queue_stop` and of `qdma_queue_remove`: one release of the
queue. -/
def releaseCalls (dev : XlnxDmaDev) (id : ℕ) : List DmaCall :=
  match dev.getDescqById id true with
  | none => []
  | some q => freeCalls (dev.descq q)

/-- `qdma_queue_config`. -/
def qdmaQueueConfig (dev : XlnxDmaDev) (qid : ℕ) (qconf : QdmaQueueConf) : ℤ × XlnxDmaDev :=
  match dev.getDescqById qid false with
  | none => (-einval, dev)
  | some q =>
      if (dev.descq q).enabled then (-einval, dev)
      else
        let dev := dev.setDescq q { dev.descq q with enabled := true }
        let dev := dev.addQcnt qconf.c2h 1
        (0, dev.setDescq q (qdmaDescqConfig dev.numVecs dev.pftchEn (dev.descq q) qconf false))

/-! ## Books -/

structure Books where
  dev : XlnxDmaDev
  log : ℕ → RingKind → List (Booking Coherent)

/-- The entries of one account. -/
def entries (calls : List DmaCall) (k : RingKind) : List (Booking Coherent) :=
  calls.filterMap fun c => if c.1 = k then some c.2 else none

/-- The calls made for queue `q` go to its log. -/
def Books.post (b : Books) (dev : XlnxDmaDev) (q : ℕ) (calls : List DmaCall) : Books where
  dev := dev
  log := Function.update b.log q fun k => b.log q k ++ entries calls k

inductive BookEv where
  | add (qconf : QdmaQueueConf)
  | config (qid : ℕ) (qconf : QdmaQueueConf)
  | start (id : ℕ) (env : StartEnv)
  | stop (id : ℕ) (f : ℕ → CmdFate)
  | remove (id : ℕ) (f : ℕ → CmdFate)

def bookStep (b : Books) : BookEv → Books
  | .add qconf => { b with dev := (qdmaQueueAdd b.dev qconf).2.2 }
  | .config qid qconf => { b with dev := (qdmaQueueConfig b.dev qid qconf).2 }
  | .start id env => b.post (qdmaQueueStart env b.dev id).2 id (startCalls env b.dev id)
  | .stop id f => b.post (qdmaQueueStop f b.dev id).2 id (releaseCalls b.dev id)
  | .remove id f => b.post (qdmaQueueRemove f b.dev id).2 id (releaseCalls b.dev id)

/-- Any call, at any time. -/
def bookSys : System Books BookEv where
  step := bookStep
  guard _ _ := True

/-- Nothing has been allocated yet. -/
def Books.init (dev : XlnxDmaDev) : Books where
  dev := dev
  log _ _ := []

/-! ## The property -/

/-- The rings a started queue has. -/
structure QdmaDescq.Holds (d : QdmaDescq) : Prop where
  desc : d.desc.isSome = true
  fl : d.stRxFl.isSome = d.isStC2h
  wrb : d.descWrb.isSome = d.isStC2h

/-- A queue without any. -/
structure QdmaDescq.HoldsNone (d : QdmaDescq) : Prop where
  desc : d.desc = none
  fl : d.stRxFl = none
  wrb : d.descWrb = none

/-- The buffer behind a ring, as a release at this moment would name it. -/
def QdmaDescq.buffer (d : QdmaDescq) : RingKind → Option Coherent
  | .desc => d.desc.map fun r =>
      { size := freeLen d.conf.rngsz (getDescSize d) (getDescWbSize d), bus := r.bus }
  | .wrb => d.descWrb.map fun r =>
      { size := freeLen d.rngszWrb d.stC2hWrbEntryLen sizeofC2hWrbWb, bus := r.bus }

/-- The flags say what the queue holds, and its accounts say it too. -/
structure ResourcesKept (d : QdmaDescq) (log : RingKind → List (Booking Coherent)) : Prop where
  online : d.online = true → d.inited = true
  inited : d.inited = true → d.enabled = true
  holds : d.inited = true → d.Holds
  holdsNone : d.inited = false → d.HoldsNone
  settled : ∀ k, Settled (log k) (d.buffer k)

/-! ## Sizes agree -/

/-- The sizes a configured queue has. -/
structure Sized (d : QdmaDescq) : Prop where
  rngsz : d.conf.rngsz = rngSzDflt
  rngszWrb : d.rngszWrb = wrbRngSzDflt
  entryLen : d.stC2hWrbEntryLen ≤ 32

theorem getDescSize_le (d : QdmaDescq) : getDescSize d ≤ 32 := by
  unfold getDescSize
  split
  · exact le_rfl
  · split <;> decide

/-- A ring of the default size is far from overflowing an `unsigned int`. -/
theorem allocLen_eq_freeLen {ringSz descSz : ℕ} (hring : ringSz = 256) (hdesc : descSz ≤ 32) :
    allocLen ringSz descSz 8 = freeLen ringSz descSz 8 := by
  unfold allocLen freeLen
  apply u32_of_lt
  rw [hring]
  omega

theorem Sized.desc_len {d : QdmaDescq} (h : Sized d) :
    allocLen d.conf.rngsz (getDescSize d) (getDescWbSize d) =
      freeLen d.conf.rngsz (getDescSize d) (getDescWbSize d) :=
  allocLen_eq_freeLen h.rngsz (getDescSize_le d)

theorem Sized.wrb_len {d : QdmaDescq} (h : Sized d) :
    allocLen d.rngszWrb d.stC2hWrbEntryLen sizeofC2hWrbWb =
      freeLen d.rngszWrb d.stC2hWrbEntryLen sizeofC2hWrbWb :=
  allocLen_eq_freeLen h.rngszWrb h.entryLen

theorem stC2hWrbEntryLenOf_le (size : ℕ) : stC2hWrbEntryLenOf size ≤ 32 := by
  unfold stC2hWrbEntryLenOf
  split
  · decide
  · split <;> decide

theorem sized_addedDescq (dev : XlnxDmaDev) (d : QdmaDescq) (qconf : QdmaQueueConf) :
    Sized (addedDescq dev d qconf) where
  rngsz := rfl
  rngszWrb := rfl
  entryLen := stC2hWrbEntryLenOf_le _

/-! ## Releases and allocations on the books -/

@[simp] theorem entries_nil (k : RingKind) : entries [] k = [] := rfl

@[simp] theorem entries_append (as bs : List DmaCall) (k : RingKind) :
    entries (as ++ bs) k = entries as k ++ entries bs k := List.filterMap_append ..

@[simp] theorem entries_cons (a : DmaCall) (as : List DmaCall) (k : RingKind) :
    entries (a :: as) k = (if a.1 = k then [a.2] else []) ++ entries as k := by
  unfold entries
  rw [List.filterMap_cons]
  split <;> simp_all

/-- A release books what the queue holds. -/
theorem entries_freeCalls (d : QdmaDescq) (k : RingKind) :
    entries (freeCalls d) k = ((d.buffer k).map Booking.give).toList := by
  unfold freeCalls QdmaDescq.buffer
  cases k <;> cases d.desc <;> cases d.descWrb <;> rfl

/-- Whatever the queue holds, after a release its account is settled. -/
theorem settled_release {d : QdmaDescq} {k : RingKind} {log : List (Booking Coherent)}
    (h : Settled log (d.buffer k)) : Settled (log ++ entries (freeCalls d) k) none := by
  rw [entries_freeCalls]
  cases hb : d.buffer k with
  | none =>
      rw [hb] at h
      simpa using h
  | some b =>
      rw [hb] at h
      exact h.give

theorem QdmaDescq.HoldsNone.buffer {d : QdmaDescq} (h : d.HoldsNone) (k : RingKind) :
    d.buffer k = none := by
  unfold QdmaDescq.buffer
  cases k with
  | desc => rw [h.desc]; rfl
  | wrb => rw [h.wrb]; rfl

theorem holdsNone_freeResource (d : QdmaDescq) : (qdmaDescqFreeResource d).HoldsNone :=
  ⟨rfl, rfl, rfl⟩

/-- The ways an allocation can end, with the calls it has made by then. -/
inductive AllocBooks (d' : QdmaDescq) : List DmaCall → Prop
  | nothing (h : d'.HoldsNone) : AllocBooks d' []
  | descBack (b : Coherent) (h : d'.HoldsNone) :
      AllocBooks d' [(.desc, .take b), (.desc, .give b)]
  | plain (b : Coherent) (hdesc : d'.buffer .desc = some b) (hwrb : d'.buffer .wrb = none) :
      AllocBooks d' [(.desc, .take b)]
  | both (b w : Coherent) (hdesc : d'.buffer .desc = some b) (hwrb : d'.buffer .wrb = some w) :
      AllocBooks d' [(.desc, .take b), (.wrb, .take w)]

theorem freeCalls_of_none {d : QdmaDescq} (hdesc : d.desc = none) (hwrb : d.descWrb = none) :
    freeCalls d = [] := by
  unfold freeCalls
  rw [hdesc, hwrb]
  rfl

theorem allocBooks (al : RingAllocs) {d : QdmaDescq} (hnone : d.HoldsNone) (hsized : Sized d) :
    AllocBooks (descqAllocRings al d).2 (allocCalls al d) := by
  unfold allocCalls descqAllocRings
  cases hdesc : al.desc with
  | none =>
      dsimp only [descRingAlloc, Option.map_none]
      rw [freeCalls_of_none (d := { d with desc := none }) rfl hnone.wrb]
      exact AllocBooks.nothing (holdsNone_freeResource _)
  | some bus =>
      dsimp only [descRingAlloc, Option.map_some]
      rw [hsized.desc_len]
      cases hst : d.isStC2h with
      | false =>
          rw [if_neg Bool.false_ne_true, if_neg Bool.false_ne_true]
          refine AllocBooks.plain _ rfl ?_
          simp only [QdmaDescq.buffer, hnone.wrb, Option.map_none]
      | true =>
          rw [if_pos rfl, if_pos rfl]
          cases flFill al d.conf.rngsz with
          | none =>
              simp only [freeCalls, hnone.wrb, Option.map_none, Option.map_some]
              exact AllocBooks.descBack _ (holdsNone_freeResource _)
          | some fls =>
              cases hwrb : al.wrb with
              | none =>
                  simp only [freeCalls, Option.map_none, Option.map_some, wrbRingAlloc]
                  exact AllocBooks.descBack _ (holdsNone_freeResource _)
              | some a =>
                  simp only [wrbRingAlloc, Option.map_some]
                  rw [hsized.wrb_len]
                  exact AllocBooks.both _ _ rfl rfl

/-- What an allocation books is what it leaves. -/
theorem settled_alloc {d' : QdmaDescq} {calls : List DmaCall} (hb : AllocBooks d' calls)
    {log : RingKind → List (Booking Coherent)} (h : ∀ k, Settled (log k) none) (k : RingKind) :
    Settled (log k ++ entries calls k) (d'.buffer k) := by
  cases hb with
  | nothing hnone =>
      rw [hnone.buffer k]
      simpa using h k
  | descBack b hnone =>
      rw [hnone.buffer k]
      cases k with
      | desc => simpa using ((h .desc).take b).give
      | wrb => simpa using h .wrb
  | plain b hdesc hwrb =>
      cases k with
      | desc => simpa [hdesc] using (h .desc).take b
      | wrb => simpa [hwrb] using h .wrb
  | both b w hdesc hwrb =>
      cases k with
      | desc => simpa [hdesc] using (h .desc).take b
      | wrb => simpa [hwrb] using (h .wrb).take w

/-! ## The calls on the books -/

/-- The invariant of one queue. -/
structure Kept (d : QdmaDescq) (log : RingKind → List (Booking Coherent)) : Prop where
  kept : ResourcesKept d log
  sized : d.enabled = true → Sized d

/-- A queue that is not enabled holds nothing and is not running. -/
theorem Kept.of_disabled {d : QdmaDescq} {log : RingKind → List (Booking Coherent)}
    (h : Kept d log) (hen : d.enabled = false) :
    d.inited = false ∧ d.online = false ∧ d.HoldsNone := by
  have hin : d.inited = false := by
    by_contra hc
    rw [Bool.not_eq_false] at hc
    exact absurd (hen.symm.trans (h.kept.inited hc)) Bool.false_ne_true
  refine ⟨hin, ?_, h.kept.holdsNone hin⟩
  by_contra hc
  rw [Bool.not_eq_false] at hc
  exact absurd (hin.symm.trans (h.kept.online hc)) Bool.false_ne_true

/-- Configuring a queue that is not enabled. -/
theorem Kept.added {d : QdmaDescq} {log : RingKind → List (Booking Coherent)} (h : Kept d log)
    (hen : d.enabled = false) (dev : XlnxDmaDev) (qconf : QdmaQueueConf) :
    Kept (addedDescq dev d qconf) log := by
  obtain ⟨hin, hoff, hnone⟩ := h.of_disabled hen
  have hnone' : (addedDescq dev d qconf).HoldsNone := ⟨hnone.desc, hnone.fl, hnone.wrb⟩
  refine ⟨⟨?_, fun _ => rfl, ?_, fun _ => hnone', ?_⟩, fun _ => sized_addedDescq dev d qconf⟩
  · intro hc
    exact absurd (hoff.symm.trans hc) Bool.false_ne_true
  · intro hc
    exact absurd (hin.symm.trans hc) Bool.false_ne_true
  · intro k
    rw [hnone'.buffer k, ← hnone.buffer k]
    exact h.kept.settled k

/-- A queue that was released, with what was released on the books. -/
theorem Kept.released {d' : QdmaDescq} {log : RingKind → List (Booking Coherent)}
    {calls : List DmaCall} (hnone : d'.HoldsNone) (hin : d'.inited = false)
    (hoff : d'.online = false) (hsized : d'.enabled = true → Sized d')
    (hsettled : ∀ k, Settled (log k ++ entries calls k) none) :
    Kept d' fun k => log k ++ entries calls k := by
  refine ⟨⟨?_, ?_, ?_, fun _ => hnone, ?_⟩, hsized⟩
  · intro hc
    exact absurd (hoff.symm.trans hc) Bool.false_ne_true
  · intro hc
    exact absurd (hin.symm.trans hc) Bool.false_ne_true
  · intro hc
    exact absurd (hin.symm.trans hc) Bool.false_ne_true
  · intro k
    rw [hnone.buffer k]
    exact hsettled k

theorem Kept.stopped {d : QdmaDescq} {log : RingKind → List (Booking Coherent)} (h : Kept d log) :
    Kept (stoppedDescq d) fun k => log k ++ entries (freeCalls d) k := by
  refine Kept.released ⟨rfl, rfl, rfl⟩ rfl rfl ?_ fun k => settled_release (h.kept.settled k)
  intro hen
  have hs := h.sized hen
  exact ⟨hs.rngsz, hs.rngszWrb, hs.entryLen⟩

theorem Kept.removed {d : QdmaDescq} {log : RingKind → List (Booking Coherent)} (h : Kept d log) :
    Kept (removedDescq d) fun k => log k ++ entries (freeCalls d) k :=
  Kept.released ⟨rfl, rfl, rfl⟩ rfl rfl (fun hc => absurd hc Bool.false_ne_true)
    fun k => settled_release (h.kept.settled k)

/-- The outcomes of `qdma_queue_config`. -/
theorem qdmaQueueConfig_cases (dev : XlnxDmaDev) (qid : ℕ) (qconf : QdmaQueueConf) :
    (qdmaQueueConfig dev qid qconf).2 = dev ∨
      (dev.descq qid).enabled = false ∧ ∃ h c, (qdmaQueueConfig dev qid qconf).2 =
        { dev with
          h2cQcnt := h
          c2hQcnt := c
          descq := Function.update dev.descq qid (addedDescq dev (dev.descq qid) qconf) } := by
  unfold qdmaQueueConfig
  cases hget : dev.getDescqById qid false with
  | none => exact Or.inl rfl
  | some q =>
      obtain ⟨rfl, -, -⟩ := getDescqById_eq_some hget
      dsimp only
      cases hen : (dev.descq q).enabled with
      | true => exact Or.inl rfl
      | false =>
          obtain ⟨h, c, hcnt⟩ :=
            addQcnt_eq (dev.setDescq q { dev.descq q with enabled := true }) qconf.c2h 1
          refine Or.inr ⟨rfl, h, c, ?_⟩
          rw [if_neg Bool.false_ne_true, hcnt]
          simp only [XlnxDmaDev.setDescq, Function.update_self, Function.update_idem]
          rfl

/-- A start that succeeds leaves the rings of its allocation. -/
theorem start_ok_rings {env : StartEnv} {dev : XlnxDmaDev} {q : ℕ} (hs : Startable dev q)
    (hok : (qdmaQueueStart env dev q).1 = 0) :
    Allocated (dev.descq q) (descqAllocRings env.al (dev.descq q)).2 ∧
      ∃ idx w b, (qdmaQueueStart env dev q).2.descq = Function.update dev.descq q
        { initedDescq (descqAllocRings env.al (dev.descq q)).2 idx with
          online := true, wrkthp := w, wbthp := b } := by
  revert hok
  unfold qdmaQueueStart
  rw [getDescqById_of_enabled hs.lt hs.enabled]
  dsimp only
  rw [hs.enabled, hs.inited, hs.online, if_neg (by decide)]
  unfold qdmaDescqAllocResource
  obtain ⟨hneg, -⟩ | ⟨hzero, hd⟩ := descqAllocRings_cases env.al (dev.descq q)
  · simp only [hneg, if_true]
    intro hok
    exact absurd hok hneg.ne
  · simp only [hzero, lt_irrefl, if_false]
    generalize (descqAllocRings env.al (dev.descq q)).2 = d at hd ⊢
    obtain ⟨cnt, idx, hirq, -⟩ := descAllocIrq_eq (dev.setDescq q d) q
    split
    · intro hok
      rename_i hneg
      exact absurd hok hneg.ne
    · intro _
      refine ⟨hd, idx, ?_⟩
      obtain ⟨vec, mmio, hprog, -, -⟩ := progHw_eq env.setup
        ((descAllocIrq (dev.setDescq q d) q).setDescq q
          { (descAllocIrq (dev.setDescq q d) q).descq q with inited := true }) q
      rw [hprog, hirq]
      obtain ⟨w, b, hadd⟩ := threadAddWork_eq _ q
      refine ⟨w, b, ?_⟩
      rw [hadd]
      simp only [XlnxDmaDev.setDescq, Function.update_self, Function.update_idem]
      rfl

theorem holds_of_allocated {d d' : QdmaDescq} (h : Allocated d d') (hnone : d.HoldsNone) :
    d'.Holds := by
  cases h with
  | plain ring hst hzero =>
      refine ⟨rfl, ?_, ?_⟩
      · change d.stRxFl.isSome = d.isStC2h
        rw [hnone.fl, hst]
        rfl
      · change d.descWrb.isSome = d.isStC2h
        rw [hnone.wrb, hst]
        rfl
  | stC2h ring fls wrb hst hzero => exact ⟨rfl, hst.symm, hst.symm⟩

/-- Whether a start passes its checks, and what it calls then. -/
theorem startCalls_cases (env : StartEnv) (dev : XlnxDmaDev) (q : ℕ) :
    (startCalls env dev q = [] ∧ (qdmaQueueStart env dev q).2 = dev) ∨
      Startable dev q ∧ startCalls env dev q = allocCalls env.al (dev.descq q) ++
        if (qdmaQueueStart env dev q).1 < 0 then
          freeCalls (descqAllocRings env.al (dev.descq q)).2 else [] := by
  unfold startCalls
  cases hget : dev.getDescqById q true with
  | none =>
      refine Or.inl ⟨rfl, ?_⟩
      unfold qdmaQueueStart
      rw [hget]
  | some p =>
      obtain ⟨rfl, hlt, hen⟩ := getDescqById_eq_some hget
      dsimp only
      by_cases hbad :
          (!(dev.descq p).enabled || (dev.descq p).inited || (dev.descq p).online) = true
      · refine Or.inl ⟨if_pos hbad, ?_⟩
        unfold qdmaQueueStart
        rw [hget]
        dsimp only
        rw [if_pos hbad]
      · refine Or.inr ⟨?_, if_neg hbad⟩
        simp only [Bool.not_eq_true, Bool.or_eq_false_iff] at hbad
        exact ⟨hlt, hen rfl, hbad.1.2, hbad.2⟩

/-- A start that fails leaves the queue as if it had not been tried, but for what it
has given back. -/
theorem start_failed_descq {env : StartEnv} {dev : XlnxDmaDev} {q : ℕ}
    (hneg : (qdmaQueueStart env dev q).1 < 0) (hs : Startable dev q)
    (hnone : (dev.descq q).HoldsNone) :
    ∃ d', (qdmaQueueStart env dev q).2.descq = Function.update dev.descq q d' ∧ d'.HoldsNone ∧
      d'.inited = false ∧ d'.online = false ∧ (Sized (dev.descq q) → Sized d') := by
  have hrun := startRun env dev q
  generalize (qdmaQueueStart env dev q).1 = rv at hneg hrun
  generalize (qdmaQueueStart env dev q).2 = dev' at hrun ⊢
  cases hrun with
  | rejected rv hrv =>
      exact ⟨dev.descq q, (Function.update_eq_self q dev.descq).symm, hnone, hs.inited, hs.online,
        id⟩
  | allocFails rv hs hrv =>
      exact ⟨_, rfl, ⟨rfl, rfl, rfl⟩, rfl, hs.online,
        fun h => ⟨h.rngsz, h.rngszWrb, h.entryLen⟩⟩
  | progFails rv d idx cnt vec hs hd hneg hrv =>
      refine ⟨_, rfl, ⟨rfl, rfl, rfl⟩, rfl, hd.flags.1.trans hs.online, ?_⟩
      intro h
      cases hd with
      | plain ring hst hzero => exact ⟨h.rngsz, h.rngszWrb, h.entryLen⟩
      | stC2h ring fls wrb hst hzero => exact ⟨h.rngsz, h.rngszWrb, h.entryLen⟩
  | starts d idx cnt vec mmio r hs hd hidx hok hr => exact absurd hneg (lt_irrefl 0)

theorem start_result (env : StartEnv) (dev : XlnxDmaDev) (q : ℕ) :
    (qdmaQueueStart env dev q).1 < 0 ∨ (qdmaQueueStart env dev q).1 = 0 := by
  have hrun := startRun env dev q
  generalize (qdmaQueueStart env dev q).1 = rv at hrun ⊢
  generalize (qdmaQueueStart env dev q).2 = dev' at hrun
  cases hrun with
  | rejected rv hrv => exact Or.inl hrv
  | allocFails rv hs hrv => exact Or.inl hrv
  | progFails rv d idx cnt vec hs hd hneg hrv => exact Or.inl hrv
  | starts d idx cnt vec mmio r hs hd hidx hok hr => exact Or.inr rfl

/-- **A start on the books.** -/
theorem Kept.started {env : StartEnv} {dev : XlnxDmaDev} {q : ℕ}
    {log : RingKind → List (Booking Coherent)} (h : Kept (dev.descq q) log)
    (hs : Startable dev q)
    (hcalls : startCalls env dev q = allocCalls env.al (dev.descq q) ++
      if (qdmaQueueStart env dev q).1 < 0 then
        freeCalls (descqAllocRings env.al (dev.descq q)).2 else []) :
    Kept ((qdmaQueueStart env dev q).2.descq q)
      (fun k => log k ++ entries (startCalls env dev q) k) ∧
    ∀ p, p ≠ q → (qdmaQueueStart env dev q).2.descq p = dev.descq p := by
  have hnone := h.kept.holdsNone hs.inited
  have hsized := h.sized hs.enabled
  have hbuffers : ∀ k, Settled (log k ++ entries (allocCalls env.al (dev.descq q)) k)
      ((descqAllocRings env.al (dev.descq q)).2.buffer k) := by
    refine settled_alloc (allocBooks env.al hnone hsized) fun k => ?_
    rw [← hnone.buffer k]
    exact h.kept.settled k
  rw [hcalls]
  obtain hneg | hok := start_result env dev q
  · obtain ⟨d', heq, hnone', hin, hoff, hsized'⟩ := start_failed_descq hneg hs hnone
    rw [heq, Function.update_self, if_pos hneg]
    refine ⟨Kept.released hnone' hin hoff (fun _ => hsized' hsized) ?_,
      fun p hp => Function.update_of_ne hp _ _⟩
    intro k
    rw [entries_append, ← List.append_assoc]
    exact settled_release (hbuffers k)
  · obtain ⟨hd, idx, w, b, heq⟩ := start_ok_rings hs hok
    rw [heq, Function.update_self, if_neg (by rw [hok]; exact lt_irrefl 0), List.append_nil]
    have hholds := holds_of_allocated hd hnone
    refine ⟨⟨⟨fun _ => rfl, ?_, fun _ => ⟨hholds.desc, hholds.fl, hholds.wrb⟩, ?_, ?_⟩, ?_⟩,
      fun p hp => Function.update_of_ne hp _ _⟩
    · intro _
      exact hd.flags.2.1.trans hs.enabled
    · intro hc
      cases hc
    · intro k
      cases k with
      | desc => exact hbuffers .desc
      | wrb => exact hbuffers .wrb
    · intro _
      generalize (descqAllocRings env.al (dev.descq q)).2 = d at hd
      cases hd with
      | plain ring hst hzero => exact ⟨hsized.rngsz, hsized.rngszWrb, hsized.entryLen⟩
      | stC2h ring fls wrb hst hzero => exact ⟨hsized.rngsz, hsized.rngszWrb, hsized.entryLen⟩

/-! ## Runs -/

/-- The invariant of the books. -/
def Books.Inv (b : Books) : Prop := ∀ q, Kept (b.dev.descq q) (b.log q)

/-- What a call on queue `q` has to show. -/
theorem Books.Inv.post {b : Books} (h : b.Inv) {dev : XlnxDmaDev} {q : ℕ} {calls : List DmaCall}
    (hq : Kept (dev.descq q) fun k => b.log q k ++ entries calls k)
    (hsame : ∀ p, p ≠ q → dev.descq p = b.dev.descq p) : (b.post dev q calls).Inv := by
  intro p
  simp only [Books.post]
  by_cases hp : p = q
  · subst hp
    rw [Function.update_self]
    exact hq
  · rw [Function.update_of_ne hp, hsame p hp]
    exact h p

/-- A call that is rejected. -/
theorem Books.Inv.post_nil {b : Books} (h : b.Inv) (q : ℕ) : (b.post b.dev q []).Inv := by
  refine h.post ?_ fun p _ => rfl
  simpa using h q

/-- A queue that was added or configured. -/
theorem Books.Inv.added {b : Books} (h : b.Inv) {q : ℕ}
    (hfree : (b.dev.descq q).enabled = false) (qconf : QdmaQueueConf) {dev : XlnxDmaDev}
    (hdev : dev.descq = Function.update b.dev.descq q (addedDescq b.dev (b.dev.descq q) qconf)) :
    Books.Inv { b with dev := dev } := by
  intro p
  change Kept (dev.descq p) (b.log p)
  rw [hdev]
  by_cases hp : p = q
  · subst hp
    rw [Function.update_self]
    exact (h p).added hfree b.dev qconf
  · rw [Function.update_of_ne hp]
    exact h p

theorem releaseCalls_of_enabled {dev : XlnxDmaDev} {q : ℕ} (hq : q < 2 * dev.qmax)
    (hen : (dev.descq q).enabled = true) : releaseCalls dev q = freeCalls (dev.descq q) := by
  unfold releaseCalls
  rw [getDescqById_of_enabled hq hen]

theorem releaseCalls_rejected {dev : XlnxDmaDev} {q : ℕ}
    (h : ¬ (q < 2 * dev.qmax ∧ (dev.descq q).enabled = true)) : releaseCalls dev q = [] := by
  unfold releaseCalls
  cases hget : dev.getDescqById q true with
  | none => rfl
  | some id =>
      obtain ⟨-, hlt, hen⟩ := getDescqById_eq_some hget
      exact absurd ⟨hlt, hen rfl⟩ h

theorem Books.Inv.step {b : Books} (h : b.Inv) (e : BookEv) : (bookStep b e).Inv := by
  cases e with
  | add qconf =>
      have hrun := addRun b.dev qconf
      simp only [bookStep]
      generalize (qdmaQueueAdd b.dev qconf).2.2 = dev' at hrun ⊢
      cases hrun with
      | fails m c => exact h
      | adds m c i hi hfree => exact h.added hfree qconf rfl
  | config qid qconf =>
      simp only [bookStep]
      obtain hsame | ⟨hfree, m, c, heq⟩ := qdmaQueueConfig_cases b.dev qid qconf
      · rw [hsame]
        exact h
      · rw [heq]
        exact h.added hfree qconf rfl
  | start id env =>
      simp only [bookStep]
      obtain ⟨hnil, hsame⟩ | ⟨hs, hcalls⟩ := startCalls_cases env b.dev id
      · rw [hnil, hsame]
        exact h.post_nil id
      · obtain ⟨hkept, hothers⟩ := (h id).started hs hcalls
        exact h.post hkept hothers
  | stop id f =>
      simp only [bookStep]
      by_cases hq : id < 2 * b.dev.qmax ∧ (b.dev.descq id).enabled = true
      · rw [releaseCalls_of_enabled hq.1 hq.2]
        refine h.post ?_ fun p hp => qdmaQueueStop_descq_of_ne f hp
        rw [qdmaQueueStop_eq f hq.1 hq.2]
        dsimp only
        rw [Function.update_self]
        exact (h id).stopped
      · rw [releaseCalls_rejected hq, qdmaQueueStop_rejected f hq]
        exact h.post_nil id
  | remove id f =>
      simp only [bookStep]
      by_cases hq : id < 2 * b.dev.qmax ∧ (b.dev.descq id).enabled = true
      · obtain ⟨m, c, cnt, heq⟩ := qdmaQueueRemove_eq f hq.1 hq.2
        rw [releaseCalls_of_enabled hq.1 hq.2, heq]
        refine h.post ?_ fun p hp => Function.update_of_ne hp _ _
        dsimp only
        rw [Function.update_self]
        exact (h id).removed
      · rw [releaseCalls_rejected hq, qdmaQueueRemove_rejected f hq]
        exact h.post_nil id

theorem DeviceInit.booksInv {dev : XlnxDmaDev} (h : DeviceInit dev) : (Books.init dev).Inv := by
  intro q
  change Kept (dev.descq q) fun _ => []
  rw [h.descq q]
  have hnone : ∀ a b c, (qdmaDescqInit a b c).HoldsNone := fun _ _ _ => ⟨rfl, rfl, rfl⟩
  refine ⟨⟨?_, ?_, ?_, fun _ => hnone _ _ _, ?_⟩, ?_⟩
  · intro hc
    cases hc
  · intro hc
    cases hc
  · intro hc
    cases hc
  · intro k
    rw [(hnone _ _ _).buffer k]
    exact Settled.nil
  · intro hc
    cases hc

/-- **Flags, rings and accounts agree** in every state between calls. -/
theorem resources_kept {dev : XlnxDmaDev} (hinit : DeviceInit dev) (es : List BookEv) (q : ℕ) :
    ResourcesKept ((bookSys.exec (Books.init dev) es).dev.descq q)
      ((bookSys.exec (Books.init dev) es).log q) := by
  have hstep : ∀ b e, Books.Inv b → Books.Inv (bookSys.step b e) := fun _ e h => h.step e
  exact (bookSys.invariant_free hstep es hinit.booksInv q).kept

/-- The configuration of a streaming C2H queue, at any free index. -/
def stC2hConf : QdmaQueueConf := { mmH2cConf with st := true, c2h := true }

/-- A start that gets no writeback ring, a start, a stop and a removal. -/
def bookedLife : List BookEv :=
  [.add stC2hConf, .start 1 { plainStart with al := { plainStart.al with wrb := none } },
    .start 1 plainStart, .stop 1 fun _ => .completes, .remove 1 fun _ => .completes]

theorem resources_kept_booked_life :
    DeviceInit polledDev ∧
      ((bookSys.exec (Books.init polledDev) bookedLife).log 1 .desc).length = 4 ∧
      ResourcesKept ((bookSys.exec (Books.init polledDev) bookedLife).dev.descq 1)
        ((bookSys.exec (Books.init polledDev) bookedLife).log 1) :=
  ⟨polledDev_init, by decide +kernel, resources_kept polledDev_init bookedLife 1⟩

end Qdma

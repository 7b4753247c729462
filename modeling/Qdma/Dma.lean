import Qdma.Lib.Copy
import Qdma.Buffers

/-!
# What the descriptors do

A memory-mapped queue moves bytes between the host's memory and the card's: a
descriptor asks for `len` bytes from `src_addr` to `dst_addr`, and the engine carries
the descriptors of a ring out one by one, in ring order, reading each from its slot.

Here the engine runs beside everyone who drives the queue.  It knows the ring only by
its slots, which the driver writes while the engine is behind; it may stop anywhere and
go on later, and it writes back an index only up to where it is.

The first result is about the ring as a channel: whatever is posted arrives.  However
often the ring wraps, the engine carries out exactly the descriptors the driver has
posted, each once and in their order (`engine_carries_posted`).  What makes it so is the
accounting of `avail`: a slot is written again only after the index written back has
passed it.
-/

namespace Qdma

open Lib Lib.Extent Lib.Cyclic

/-! ## Memories and copies -/

/-- The memory of the host by DMA address, and the memory of the card. -/
structure DmaMem where
  host : BitVec 64 → BitVec 8
  card : BitVec 64 → BitVec 8

/-- Addresses to read and addresses to write. -/
abbrev DmaCopy := Copy (BitVec 64) (BitVec 64)

/-- What a memory-mapped descriptor asks for. -/
def QdmaDesc.copy (d : QdmaDesc) : DmaCopy where
  src := (⟨d.srcAddr, d.len⟩ : Extent (BitVec 64)).bytes
  dst := (⟨d.dstAddr, d.len⟩ : Extent (BitVec 64)).bytes
  length_eq := by rw [length_bytes, length_bytes]

/-- What a request asks for: its buffer and as many bytes of the card from `ep_addr`. -/
def QdmaSgReq.copy (c2h : Bool) (req : QdmaSgReq) : DmaCopy :=
  let dev : Extent (BitVec 64) := ⟨req.epAddr, sglTotal req.sgt.sgl⟩
  have hlen : req.buffer.length = dev.bytes.length := by
    rw [length_bytes]
    exact (length_bytesOf _).trans (congrArg List.sum List.map_map)
  if c2h then ⟨dev.bytes, req.buffer, hlen.symm⟩ else ⟨req.buffer, dev.bytes, hlen⟩

/-- One copy, card to host or host to card. -/
def DmaMem.carry (c2h : Bool) (c : DmaCopy) (m : DmaMem) : DmaMem :=
  if c2h then { m with host := c.run m.card m.host } else { m with card := c.run m.host m.card }

/-- Several, in order. -/
def DmaMem.carryAll (c2h : Bool) (cs : List DmaCopy) (m : DmaMem) : DmaMem :=
  cs.foldl (fun m c => m.carry c2h c) m

namespace DmaMem

variable {c2h : Bool} {m : DmaMem}

@[simp] theorem carryAll_nil (c2h : Bool) (m : DmaMem) : m.carryAll c2h [] = m := rfl

@[simp] theorem carryAll_cons (c2h : Bool) (c : DmaCopy) (cs : List DmaCopy) (m : DmaMem) :
    m.carryAll c2h (c :: cs) = (m.carry c2h c).carryAll c2h cs := rfl

@[simp] theorem carryAll_append (c2h : Bool) (cs ds : List DmaCopy) (m : DmaMem) :
    m.carryAll c2h (cs ++ ds) = (m.carryAll c2h cs).carryAll c2h ds := List.foldl_append

/-- One of the two memories is written, and the other is only read. -/
theorem carryAll_eq (c2h : Bool) (cs : List DmaCopy) (m : DmaMem) : m.carryAll c2h cs =
    if c2h then { m with host := Copy.runAll cs m.card m.host }
    else { m with card := Copy.runAll cs m.host m.card } := by
  induction cs generalizing m with
  | nil =>
      cases c2h with
      | false => rfl
      | true => rfl
  | cons c cs ih =>
      rw [carryAll_cons, ih]
      unfold carry
      cases c2h with
      | false => rfl
      | true => rfl

/-- **Descriptors in a row are one copy.** -/
theorem carryAll_join (c2h : Bool) (cs : List DmaCopy) (m : DmaMem) :
    m.carryAll c2h cs = m.carry c2h (Copy.join cs) := by
  rw [carryAll_eq, carry, Copy.runAll_eq_join, Copy.runAll_eq_join]

end DmaMem

/-- Flags have nothing to do with what is copied. -/
theorem QdmaDesc.Agrees.copy_eq {d e : QdmaDesc} (h : d.Agrees e) : d.copy = e.copy := by
  obtain ⟨hsrc, hdst, hlen⟩ := h
  refine Copy.ext ?_ ?_
  · change (⟨d.srcAddr, d.len⟩ : Extent (BitVec 64)).bytes = _
    rw [hsrc, hlen]
    rfl
  · change (⟨d.dstAddr, d.len⟩ : Extent (BitVec 64)).bytes = _
    rw [hdst, hlen]
    rfl

/-! ## The engine -/

/-- A queue, the memories, and the number of descriptors the engine has carried out. -/
structure DmaState where
  x : Xfer
  mem : DmaMem
  carried : ℕ

inductive DmaEv where
  /-- One of the driver's steps, or the engine writes its index back. -/
  | drv (e : Ev)
  /-- The engine reads the next slot and carries the descriptor out. -/
  | carry

def dmaStep (s : DmaState) : DmaEv → DmaState
  | .drv e => { s with x := xferStep s.x e }
  | .carry =>
      match s.x.descq.desc with
      | none => s
      | some ring =>
          { s with
            mem := s.mem.carry s.x.descq.conf.c2h
              (ring.slots (s.carried % s.x.descq.conf.rngsz)).copy
            carried := s.carried + 1 }

/-- The index that is written back is one the engine has reached. -/
def DmaState.Reached (s : DmaState) : Ev → Prop
  | .hwWb cidx => s.x.retired + gap s.x.descq.conf.rngsz cidx s.x.descq.cidx ≤ s.carried
  | _ => True

/-- Between two steps of the driver the doorbell stands at `pidx`, so the engine knows of
everything posted. -/
def dmaGuard (s : DmaState) : DmaEv → Prop
  | .drv e => xferGuard s.x e ∧ s.Reached e
  | .carry => s.carried < s.x.posted.length

/-- A queue with its drivers and its engine. -/
def dmaSys : System DmaState DmaEv where
  step := dmaStep
  guard := dmaGuard

instance decidableReached (s : DmaState) : ∀ e, Decidable (s.Reached e) := by
  rintro ⟨⟩ <;> dsimp only [DmaState.Reached] <;> infer_instance

instance decidableDmaGuard (s : DmaState) : ∀ e, Decidable (dmaSys.guard s e) := by
  rintro ⟨⟩ <;> dsimp only [dmaSys, dmaGuard] <;> infer_instance

/-- The engine is about to carry out its first descriptor. -/
def DmaState.init (x : Xfer) (mem : DmaMem) : DmaState := ⟨x, mem, 0⟩

/-! ## What the driver's steps do to the ring -/

/-- From `x` to `y` descriptors may be posted and retired; those the engine has not
passed keep their slots. -/
structure RingMoves (x y : Xfer) : Prop where
  conf : y.descq.conf = x.descq.conf
  allocated : y.descq.desc.isSome = x.descq.desc.isSome
  posted : x.posted <+: y.posted
  hwConsumed : y.hwConsumed = x.hwConsumed
  slots : SlotsOk x → SlotsOk y

namespace RingMoves

variable {x y z : Xfer}

theorem refl (x : Xfer) : RingMoves x x := ⟨rfl, rfl, List.prefix_rfl, rfl, fun h => h⟩

theorem trans (h₁ : RingMoves x y) (h₂ : RingMoves y z) : RingMoves x z :=
  ⟨h₂.conf.trans h₁.conf, h₂.allocated.trans h₁.allocated, h₁.posted.trans h₂.posted,
    h₂.hwConsumed.trans h₁.hwConsumed, fun h => h₂.slots (h₁.slots h)⟩

/-- The ring and its counters are the same. -/
theorem of_same (hconf : y.descq.conf = x.descq.conf) (hdesc : y.descq.desc = x.descq.desc)
    (hcidx : y.descq.cidx = x.descq.cidx) (hposted : y.posted = x.posted)
    (hretired : y.retired = x.retired) : RingMoves x y := by
  refine ⟨hconf, by rw [hdesc], hposted ▸ List.prefix_rfl, ?_, ?_⟩
  · unfold Xfer.hwConsumed
    rw [hconf, hdesc, hcidx, hretired]
  · intro h
    unfold SlotsOk
    rw [hconf, hdesc, hposted, hretired]
    exact h

theorem of_sameRing (h : SameRing x y) : RingMoves x y := by
  rw [h]
  exact of_same rfl rfl rfl rfl rfl

/-- **A batch** goes where nothing is waiting. -/
theorem posts {id : ReqId} {es : List (Extent (BitVec 64))} (hx : RingInv x)
    (h : Posts x id es y) (hlen : es.length ≤ x.descq.avail) : RingMoves x y := by
  have hconf : y.descq.conf = x.descq.conf := by rw [h.frame]
  have hcidx : y.descq.cidx = x.descq.cidx := by rw [h.frame]
  have hretired : y.retired = x.retired := by rw [h.frame]
  obtain ⟨ps, hps, -, -⟩ := h.posted_eq
  refine ⟨hconf, ?_, ⟨ps, hps.symm⟩, ?_, fun hs => h.slotsOk hs hx hlen⟩
  · rw [← Option.isSome_map (f := fun r : DescRing => r.wbCidx), h.wbCidx_eq, Option.isSome_map]
  · unfold Xfer.hwConsumed
    rw [hconf, hcidx, hretired, h.wbCidx_eq]

theorem wrkProcOne (hx : RingInv x) (id : ReqId) : RingMoves x (wrkProcOne x id) := by
  have hproc : RingMoves x (qdmaDescqProcSgtRequest x id).2 := by
    rcases proc_cases x id hx.kind with
      ⟨-, hr⟩ | ⟨-, -, hr⟩ | ⟨-, sg, off, -, -, -, hr⟩ | ⟨-, sg, off, -, -, -, hr⟩
    · rw [hr]
      exact refl x
    · rw [hr]
      exact refl x
    · rw [hr]
      exact refl x
    · refine posts hx hr ?_
      rw [List.length_take]
      exact Nat.min_le_left _ _
  unfold Qdma.wrkProcOne
  dsimp only
  split
  · exact hproc.trans (of_sameRing (sameRing_reqDone _ _ _))
  · exact hproc

theorem wrkProcLoop :
    ∀ (ids : List ReqId) {x : Xfer}, RingInv x → RingMoves x (wrkProcLoop ids x) := by
  intro ids
  induction ids with
  | nil => exact fun _ => refl _
  | cons id rest ih =>
      intro x hx
      unfold Qdma.wrkProcLoop
      dsimp only
      split
      · exact wrkProcOne hx id
      · exact (wrkProcOne hx id).trans (ih (hx.wrkProcOne id))

/-- **A writeback is serviced**: what the engine has passed is retired. -/
theorem serviceWb (hx : RingInv x) : RingMoves x (descqMmNH2cWb x) := by
  rcases descqMmNH2cWb_cases x with hr | ⟨hnone, hr⟩ | ⟨ring, coals, mmio, hsome, -, -, hr⟩
  · rw [hr]
    exact refl x
  · rw [hr]
    exact of_same rfl rfl rfl rfl rfl
  · have hring : x.descq.desc.map (·.wbCidx) = some ring.wbCidx := by rw [hsome]; rfl
    obtain ⟨hlt, -⟩ := hx.window _ hring
    have hcredit : RingMoves x (descqWbCredit x ring.wbCidx).2 := by
      rw [descqWbCredit_eq hx hlt]
      refine ⟨rfl, rfl, List.prefix_rfl, ?_, ?_⟩
      · unfold Xfer.hwConsumed
        dsimp only
        rw [hring, Option.getD_some, Option.getD_some, gap_self, Nat.add_zero]
      · intro hs r hr' k p hk hp
        exact hs r hr' k p (le_trans (Nat.le_add_right _ _) hk) hp
    have hloop := of_sameRing
      (sameRing_reqUpdatePend (descqWbCredit x ring.wbCidx).2 (descqWbCredit x ring.wbCidx).1)
    rw [hr]
    exact (hcredit.trans hloop).trans (of_same rfl rfl rfl rfl rfl)

/-- **Every step of the driver.** -/
theorem step {e : Ev} (hx : RingInv x) (hdrv : ∀ cidx, e ≠ .hwWb cidx) :
    RingMoves x (xferStep x e) := by
  cases e with
  | submit id req =>
      rcases qdmaSgReqSubmit_cases x id req with hr | ⟨hr, -⟩
      · rw [xferStep, hr]
        exact refl x
      · rw [xferStep, hr]
        exact of_same rfl rfl rfl rfl rfl
  | wrkProc => exact wrkProcLoop _ hx
  | serviceWb =>
      rw [xferStep, serviceWb_of_isMmOrH2c hx.kind]
      exact serviceWb hx
  | hwWb cidx => exact absurd rfl (hdrv cidx)
  | timeout id => exact of_sameRing (sameRing_listDel x id)
  | ret id => exact of_same rfl rfl rfl rfl rfl

end RingMoves

/-! ## The invariant -/

/-- The copies of the first `n` descriptors posted. -/
def Xfer.copies (x : Xfer) (n : ℕ) : List DmaCopy := (x.posted.take n).map (·.desc.copy)

/-- The engine is between what it has written back and what is posted, and the memory is
what the posted descriptors make of it up to there. -/
structure DmaInv (mem : DmaMem) (s : DmaState) : Prop where
  ring : RingInv s.x
  slots : SlotsOk s.x
  behind : s.x.hwConsumed ≤ s.carried
  ahead : s.carried ≤ s.x.posted.length
  mem_eq : s.mem = mem.carryAll s.x.descq.conf.c2h (s.x.copies s.carried)

namespace DmaInv

variable {mem : DmaMem} {s : DmaState}

theorem retired_le (h : DmaInv mem s) : s.x.retired ≤ s.carried :=
  le_trans (Nat.le_add_right _ _) h.behind

/-- More may be posted behind the engine's back. -/
theorem copies_of_prefix {x y : Xfer} {n : ℕ} (h : x.posted <+: y.posted)
    (hn : n ≤ x.posted.length) : y.copies n = x.copies n := by
  obtain ⟨ps, hps⟩ := h
  unfold Xfer.copies
  rw [← hps, List.take_append_of_le_length hn]

/-- A step of the driver that leaves what the engine has not passed. -/
theorem of_moves {y : Xfer} (h : DmaInv mem s) (hring : RingInv y) (hmoves : RingMoves s.x y) :
    DmaInv mem { s with x := y } := by
  refine ⟨hring, hmoves.slots h.slots, ?_, ?_, ?_⟩
  · rw [hmoves.hwConsumed]
    exact h.behind
  · exact h.ahead.trans hmoves.posted.length_le
  · change s.mem = mem.carryAll y.descq.conf.c2h (y.copies s.carried)
    rw [hmoves.conf, copies_of_prefix hmoves.posted h.ahead]
    exact h.mem_eq

/-- **The driver's side.** -/
theorem drv (h : DmaInv mem s) {e : Ev} (hg : xferGuard s.x e) (hreached : s.Reached e) :
    DmaInv mem (dmaStep s (.drv e)) := by
  have hring := h.ring.step hg
  cases e with
  | hwWb cidx =>
      refine ⟨hring, ?_, ?_, h.ahead, h.mem_eq⟩
      · intro r hr k p hk hp
        change s.x.descq.desc.map _ = some r at hr
        obtain ⟨r₀, hr₀, rfl⟩ := Option.map_eq_some_iff.mp hr
        exact h.slots r₀ hr₀ k p hk hp
      · change (hwWriteback s.x cidx).hwConsumed ≤ s.carried
        unfold Xfer.hwConsumed hwWriteback
        dsimp only
        cases hdesc : s.x.descq.desc with
        | none =>
            -- without a ring nothing is written back
            change s.x.retired + gap _ s.x.descq.cidx s.x.descq.cidx ≤ s.carried
            rw [gap_self]
            exact h.retired_le
        | some r => exact hreached
  | submit id req => exact h.of_moves hring (RingMoves.step h.ring fun _ => Ev.noConfusion)
  | wrkProc => exact h.of_moves hring (RingMoves.step h.ring fun _ => Ev.noConfusion)
  | serviceWb => exact h.of_moves hring (RingMoves.step h.ring fun _ => Ev.noConfusion)
  | timeout id => exact h.of_moves hring (RingMoves.step h.ring fun _ => Ev.noConfusion)
  | ret id => exact h.of_moves hring (RingMoves.step h.ring fun _ => Ev.noConfusion)

/-- **The engine's side**: the next slot holds the next descriptor posted. -/
theorem carry (h : DmaInv mem s) (hahead : s.carried < s.x.posted.length) :
    DmaInv mem (dmaStep s .carry) := by
  unfold dmaStep
  cases hdesc : s.x.descq.desc with
  | none => exact h
  | some ring =>
      refine ⟨h.ring, h.slots, le_trans h.behind (Nat.le_succ _), hahead, ?_⟩
      have hslot := h.slots ring hdesc s.carried s.x.posted[s.carried] h.retired_le
        (List.getElem?_eq_getElem hahead)
      have hnext : s.x.copies (s.carried + 1) =
          s.x.copies s.carried ++ [(s.x.posted[s.carried]).desc.copy] := by
        unfold Xfer.copies
        rw [List.take_succ_eq_append_getElem hahead, List.map_append]
        rfl
      dsimp only
      rw [hnext, DmaMem.carryAll_append, ← h.mem_eq, hslot.copy_eq]
      rfl

theorem step {e : DmaEv} (h : DmaInv mem s) (hg : dmaGuard s e) : DmaInv mem (dmaStep s e) := by
  cases e with
  | drv e => exact h.drv hg.1 hg.2
  | carry => exact h.carry hg

end DmaInv

theorem FreshQueue.dmaInv {d : QdmaDescq} (h : FreshQueue d) (reqs : ReqId → QdmaSgReq)
    (coalEn : Bool) (coals : List IntrCoalConf) (mem : DmaMem) :
    DmaInv mem (DmaState.init (Xfer.init d reqs coalEn coals) mem) := by
  have hheld := h.held reqs coalEn coals
  refine ⟨hheld.ledger.ring, hheld.slots, ?_, le_rfl, rfl⟩
  change 0 + gap d.conf.rngsz ((d.desc.map (·.wbCidx)).getD d.cidx) d.cidx ≤ 0
  rw [h.cidx_eq]
  cases hdesc : d.desc with
  | none =>
      change 0 + gap d.conf.rngsz 0 0 ≤ 0
      rw [gap_self]
  | some r =>
      change 0 + gap d.conf.rngsz r.wbCidx 0 ≤ 0
      rw [h.wbCidx_eq r hdesc, gap_self]

/-- **Every descriptor that is posted is carried out, once and in order.**  In every run
of the drivers and the engine, however often the ring wraps: the engine has passed what
is written back and nothing that is not posted, and the memories are what the
descriptors posted so far make of them, taken in order up to where the engine is. -/
theorem engine_carries_posted (d : QdmaDescq) (hd : FreshQueue d) (reqs : ReqId → QdmaSgReq)
    (coalEn : Bool) (coals : List IntrCoalConf) (mem : DmaMem) (es : List DmaEv)
    (hrun : dmaSys.Admits (DmaState.init (Xfer.init d reqs coalEn coals) mem) es) :
    let s := dmaSys.exec (DmaState.init (Xfer.init d reqs coalEn coals) mem) es
    s.x.hwConsumed ≤ s.carried ∧ s.carried ≤ s.x.posted.length ∧
      s.mem = mem.carryAll s.x.descq.conf.c2h (s.x.copies s.carried) := by
  have h := dmaSys.invariant (fun _ _ hs hg => DmaInv.step hs hg) es
    (hd.dmaInv reqs coalEn coals mem) hrun
  exact ⟨h.behind, h.ahead, h.mem_eq⟩

/-- A host whose bytes count up, and an empty card. -/
def countingMem : DmaMem := ⟨fun a => a.setWidth 8, fun _ => 0⟩

/-- A request is posted and carried out. -/
def carriedRun : List DmaEv :=
  [.drv (.submit 0 onePlaceReq), .drv .wrkProc, .carry, .drv (.hwWb 1), .drv .serviceWb]

theorem engine_carries_one :
    let s := dmaSys.exec (DmaState.init h2cStart countingMem) carriedRun
    s.x.posted.length = 1 ∧ s.mem = countingMem.carryAll false (s.x.copies 1) := by
  have h := engine_carries_posted (h2cQueue false) (freshQueue_h2cQueue false)
    (fun _ => onePlaceReq) false [] countingMem carriedRun (by decide +kernel)
  exact ⟨by decide +kernel, h.2.2⟩

end Qdma

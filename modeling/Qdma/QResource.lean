import Qdma.Intr
import Qdma.IntrCtxt

/-!
# Preparing the queue resources

The first queue added makes `qdma_device_prep_q_resource` set up what all queues share: the
range of hardware queues, the aggregation rings and their contexts.  The first of the three
steps sets `init_qrange`, and a call that finds it set returns 0 at once, whatever became of
the other two steps when they were tried.

* `PrepDev` is the device with what the three steps read and write.
* `Prepared` is what a call that returns 0 should leave behind; for the contexts that is what the
  hardware holds for each vector.
* `prep_right_iff` says for which sequences of calls it does.  A device that aggregates its
  interrupts is never prepared: the words of the contexts are cleared, and a failure on the way
  is forgotten.
-/

namespace Qdma

open Lib

/-! ## The three steps -/

/-- What becomes of the requests of one call: the answer to the message for the range, the
allocations for the rings, the commands and the answers to the messages for the contexts.
`stack` is what the array of context words holds before it is filled. -/
structure PrepFates where
  rangeRv : ℤ
  rangeFuncId : ℕ
  rangeFuncIdParent : ℕ
  rangeQbase : ℕ
  list : Bool
  ring : ℕ → Option (BitVec 64)
  fate : ℕ → ℕ → CmdFate
  reply : ℕ → MboxReply
  stack : List (BitVec 32)

/-- `struct xlnx_dma_dev` as far as it is prepared.  `ringBus` has the ring memory of the
entries of `intr_coal_list`, which is NULL where there are none. -/
structure PrepDev where
  dev : XlnxDmaDev
  vf : Bool
  initQrange : Bool
  qbase : ℕ
  funcIdParent : ℕ
  pollMode : Bool
  indirectIntrMode : Bool
  qsetsMax : ℕ
  vector : ℕ → ℕ
  ringBus : List (BitVec 64)

def qdmaRegTrqSelFmapBase : ℕ := 0x400
def qdmaRegTrqSelFmapStep : ℕ := 0x4

/-- `device_set_qrange`.  A virtual function learns from the answer where its queues are. -/
def deviceSetQrange (f : PrepFates) (s : PrepDev) : ℤ × PrepDev :=
  if s.vf then
    if f.rangeRv < 0 then (f.rangeRv, s)
    else
      let qbase := u16 f.rangeQbase
      (0,
        { s with
          dev := s.dev.grantRange f.rangeFuncId qbase
          funcIdParent := f.rangeFuncIdParent
          qbase := qbase
          initQrange := true })
  else
    (0,
      { s with
        dev := { s.dev with
          mmio := s.dev.mmio ++
            [(qdmaRegTrqSelFmapBase + s.dev.funcId * qdmaRegTrqSelFmapStep,
              BitVec.ofNat 32 (fmapWord s.qbase s.dev.qmax))] }
        initQrange := true })

/-- `XDEV_INTR_COAL_RING_SIZE`, that is `INTR_RING_SZ_4KB`. -/
def xdevIntrCoalRingSize : ℕ := 0

/-- The loop of `intr_ring_setup` at vector `i`, with `n` vectors to go; `none` is the jump to
`err_out`, which gives the rings back. -/
def intrRingLoop (f : PrepFates) (vector : ℕ → ℕ) (numEntries : ℕ) :
    ℕ → ℕ → Option (List (IntrCoalConf × BitVec 64))
  | 0, _ => some []
  | n + 1, i =>
      match f.ring i with
      | none => none
      | some bus =>
          (intrRingLoop f vector numEntries n (i + 1)).map fun rings =>
            ({ vecId := vector i % 2 ^ 16, intrRingSize := numEntries, color := true, pidx := 0, cidx := 0 },
              bus) :: rings

/-- No interrupt aggregation. -/
def PrepDev.noCoal (s : PrepDev) : PrepDev :=
  { s with
    dev := { s.dev with
      intrCoalEn := false
      intrCoalList := [] }
    ringBus := [] }

/-- `intr_ring_setup`.  The flag is set before the allocations and stays when they fail. -/
def PrepDev.intrRingSetup (s : PrepDev) (f : PrepFates) (ringSize : ℕ) : ℤ × PrepDev :=
  if s.pollMode || !s.indirectIntrMode then (0, s.noCoal)
  else if s.dev.numVecs ≠ 0 ∧ s.dev.numVecs < s.qsetsMax then
    let s := { s with dev := { s.dev with intrCoalEn := true } }
    if !f.list then (-enomem, s)
    else
      match intrRingLoop f s.vector (intrRingEntries ringSize) s.dev.numVecs 0 with
      | none => (-enomem, s)
      | some rings =>
          (0,
            { s with
              dev := { s.dev with intrCoalList := rings.map (·.1) }
              ringBus := rings.map (·.2) })
  else (0, s.noCoal)

/-- The message was carried out. -/
def MboxReply.Good (answer : MboxReply) : Prop :=
  0 ≤ answer.rv ∧ answer.ack = true ∧ answer.status = 0

instance (answer : MboxReply) : Decidable answer.Good :=
  inferInstanceAs (Decidable (_ ∧ _ ∧ _))

/-- `qdma_intr_context_setup`.  The messages of a virtual function reach no context: the physical
function refuses them. -/
def qdmaIntrContextSetup (f : PrepFates) (s : PrepDev) : ℤ × PrepDev :=
  let bus := fun i => s.ringBus.getD i 0
  if s.vf then
    ((qdmaIntrContextSetupVf f.reply s.dev s.funcIdParent bus f.stack).1, s)
  else
    let r := qdmaIntrContextSetupPf f.fate s.dev bus f.stack s.dev.ctxt
    (r.1, { s with dev := { s.dev with ctxt := r.2.2 } })

/-- `qdma_device_prep_q_resource`. -/
def qdmaDevicePrepQResource (f : PrepFates) (s : PrepDev) : ℤ × PrepDev :=
  if s.initQrange then (0, s)
  else
    let r := deviceSetQrange f s
    if r.1 < 0 then r
    else
      let r := r.2.intrRingSetup f xdevIntrCoalRingSize
      if r.1 ≠ 0 then r
      else if r.2.dev.intrCoalEn then qdmaIntrContextSetup f r.2
      else r

/-- Any number of calls. -/
def prepSys : System PrepDev PrepFates where
  step s f := (qdmaDevicePrepQResource f s).2
  guard _ _ := True

/-! ## The property -/

/-- The hardware holds the context of every vector. -/
def PrepDev.ContextsThere (s : PrepDev) (bus : ℕ → BitVec 64) : Prop :=
  ∀ i < s.dev.numVecs, IntrCtxt.decode (s.dev.ctxt i .coal) = IntrCtxt.intended i (bus i)

/-- The range is set, every queue has its hardware index, and with interrupt aggregation every
vector has its ring and its context. -/
structure Prepared (s : PrepDev) : Prop where
  range : s.initQrange = true
  qidxHw : ∀ c2h, ∀ i < s.dev.qmax, (s.dev.descq (s.dev.handle c2h i)).qidxHw = s.qbase + i
  list : s.dev.intrCoalEn = true → s.dev.intrCoalList ≠ []
  rings : s.dev.intrCoalEn = true →
    s.dev.intrCoalList.length = s.dev.numVecs ∧ s.ringBus.length = s.dev.numVecs
  contexts : s.dev.intrCoalEn = true → s.ContextsThere fun i => s.ringBus.getD i 0

/-- A call that returns 0 leaves the device prepared. -/
def PrepRight (s : PrepDev) (f : PrepFates) (s' : PrepDev) : Prop :=
  (qdmaDevicePrepQResource f s).1 = 0 → Prepared s'

/-- The device as `qdma_device_init` leaves it. -/
structure PrepInit (s : PrepDev) : Prop where
  range : s.initQrange = false
  base : s.qbase < 2 ^ 16
  own : s.vf = true → s.qbase = 0
  qidxHw : ∀ c2h, ∀ i < s.dev.qmax, (s.dev.descq (s.dev.handle c2h i)).qidxHw = s.qbase + i
  list : s.dev.intrCoalList = []

/-- Interrupts are aggregated. -/
def PrepDev.Aggregates (s : PrepDev) : Prop :=
  s.pollMode = false ∧ s.indirectIntrMode = true ∧ s.dev.numVecs ≠ 0 ∧ s.dev.numVecs < s.qsetsMax

/-- No command, or no message, for the contexts fails.  A message takes seven vectors. -/
def PrepFates.Programs (f : PrepFates) (s : PrepDev) : Prop :=
  if s.vf then ∀ i < s.dev.numVecs, i % mboxIntrCtxtVecMax = 0 → (f.reply i).Good
  else ∀ i < s.dev.numVecs, ∀ k < 3, f.fate i k = .completes

/-- The list and the rings are to be had, and no command, or no message, for the contexts fails. -/
def PrepFates.Grants (f : PrepFates) (s : PrepDev) : Prop :=
  f.list = true ∧ (∀ i < s.dev.numVecs, (f.ring i).isSome = true) ∧ f.Programs s

/-- By chance the hardware holds the contexts of the rings already, and they stay: the first
command of a physical function has no effect. -/
def PrepFates.Spares (f : PrepFates) (s : PrepDev) : Prop :=
  f.list = true ∧ (∀ i < s.dev.numVecs, (f.ring i).isSome = true) ∧
    s.ContextsThere (fun i => (f.ring i).getD 0) ∧
    (s.vf = false → (f.fate 0 0).applied = false)

/-- The call does not set the range of a device that aggregates its interrupts, unless it is
spared. -/
def NoAggregation (s : PrepDev) (f : PrepFates) : Prop :=
  s.initQrange = false → (s.vf = true → 0 ≤ f.rangeRv) → s.Aggregates → f.Spares s

/-! ## The contexts -/

/-- A write that is verified fails when one of its two commands times out. -/
theorem ctextProg_wr_coal (fate rdFate : CmdFate) {words : List (BitVec 32)}
    (hlen : words.length = 2) (ctxt : CtxtStore) :
    (fate = .completes ∧ rdFate = .completes ∧
        (hwIndirectCtextProg fate rdFate ctxt 0 .wr .coal words 2 true).rv = 0) ∨
      (¬ (fate = .completes ∧ rdFate = .completes) ∧
        (hwIndirectCtextProg fate rdFate ctxt 0 .wr .coal words 2 true).rv < 0) := by
  have hbusy : -ebusy < 0 := by decide
  have hargs : ¬ ((IndCtxtCmdOp.wr = .wr ∨ IndCtxtCmdOp.wr = .rd) ∧
      (2 = 0 ∨ qdmaRegIndCtxtRegCount < 2 ∨ words = [])) := by
    rintro ⟨-, h | h | h⟩
    · cases h
    · exact absurd h (by decide)
    · rw [h] at hlen
      cases hlen
  cases fate with
  | timesOut a =>
      refine Or.inr ⟨fun h => (nomatch h.1), ?_⟩
      unfold hwIndirectCtextProg
      rw [if_neg hargs]
      exact hbusy
  | completes =>
      cases rdFate with
      | timesOut a =>
          refine Or.inr ⟨fun h => (nomatch h.2), ?_⟩
          unfold hwIndirectCtextProg
          rw [if_neg hargs]
          exact hbusy
      | completes =>
          exact Or.inl ⟨rfl, rfl, ctextProg_wr_completes ctxt 0 .coal (by decide) (by decide) hlen⟩

/-- **A physical function** returns 0 when no command fails. -/
theorem pfIntrLoop_zero_iff (fate : ℕ → ℕ → CmdFate) {data : List (BitVec 32)} :
    ∀ (n i : ℕ) (ctxt : CtxtStore), 2 * (i + n) ≤ data.length →
      ((pfIntrLoop fate data n i ctxt).1 = 0 ↔
        ∀ j, i ≤ j → j < i + n → ∀ k < 3, fate j k = .completes) := by
  intro n
  induction n with
  | zero =>
      intro i ctxt _
      exact iff_of_true rfl fun j hj hn => by omega
  | succ n ih =>
      intro i ctxt hlen
      have hi : i < i + (n + 1) := by omega
      unfold pfIntrLoop
      dsimp only
      cases hclr : fate i 0 with
      | timesOut a =>
          have hbusy : (hwIndirectCtextProg (.timesOut a) .completes ctxt 0 .clr .coal [] 4 false).rv
              < 0 := show -ebusy < 0 by decide
          rw [if_pos hbusy]
          refine iff_of_false (ne_of_lt hbusy) fun h => ?_
          rw [h i le_rfl hi 0 (by decide)] at hclr
          cases hclr
      | completes =>
          have hdone : ¬ (hwIndirectCtextProg .completes .completes ctxt 0 .clr .coal [] 4 false).rv
              < 0 := show ¬ (0 : ℤ) < 0 by decide
          rw [if_neg hdone]
          generalize (hwIndirectCtextProg .completes .completes ctxt 0 .clr .coal [] 4 false).ctxt =
            ctxt₁
          have hlen : (vecWords data i).length = 2 := length_vecWords (by omega)
          rcases ctextProg_wr_coal (fate i 1) (fate i 2) hlen ctxt₁ with ⟨hw, hr, hrv⟩ | ⟨hno, hrv⟩
          · have hok : ¬ (hwIndirectCtextProg (fate i 1) (fate i 2) ctxt₁ 0 .wr .coal
                (vecWords data i) 2 true).rv < 0 := by
              rw [hrv]
              decide
            rw [if_neg hok]
            dsimp only
            rw [ih (i + 1) _ (by omega)]
            constructor
            · intro hrest j hj hn k hk
              rcases Nat.eq_or_lt_of_le hj with rfl | hlt
              · have hcases : k = 0 ∨ k = 1 ∨ k = 2 := by omega
                rcases hcases with rfl | rfl | rfl
                · exact hclr
                · exact hw
                · exact hr
              · exact hrest j hlt (by omega) k hk
            · exact fun h j hj hn => h j (by omega) (by omega)
          · rw [if_pos hrv]
            refine iff_of_false (ne_of_lt hrv) fun h => hno ⟨?_, ?_⟩
            · exact h i le_rfl hi 1 (by decide)
            · exact h i le_rfl hi 2 (by decide)

/-- **A virtual function** returns 0 when every message is carried out. -/
theorem vfIntrLoop_zero_iff (reply : ℕ → MboxReply) (dev : XlnxDmaDev) (parent : ℕ)
    (data : List (BitVec 32)) :
    ∀ (n i : ℕ), dev.numVecs - i < n → i < dev.numVecs → i % mboxIntrCtxtVecMax = 0 →
      ((vfIntrLoop reply dev parent data n i).1 = 0 ↔
        ∀ j, i ≤ j → j < dev.numVecs → j % mboxIntrCtxtVecMax = 0 → (reply j).Good) := by
  intro n
  induction n with
  | zero => intro i hn; exact absurd hn (Nat.not_lt_zero _)
  | succ n ih =>
      intro i hn hi hmod
      unfold vfIntrLoop
      dsimp only
      by_cases hgood : (reply i).Good
      · obtain ⟨hrv, hack, hstatus⟩ := hgood
        have hgood : (reply i).Good := ⟨hrv, hack, hstatus⟩
        rw [if_neg (Int.not_lt.mpr hrv), hack, if_neg (by decide), if_neg (fun h => h hstatus)]
        unfold mboxIntrCtxtVecMax at *
        by_cases hmore : i + min (dev.numVecs - i) 7 < dev.numVecs
        · have hcopy : min (dev.numVecs - i) 7 = 7 := by omega
          rw [if_pos hmore]
          rw [hcopy] at hmore ⊢
          dsimp only
          rw [ih (i + 7) (by omega) hmore (by omega)]
          constructor
          · intro hrest j hj hjn hjm
            rcases Nat.eq_or_lt_of_le hj with rfl | hlt
            · exact hgood
            · exact hrest j (by omega) hjn hjm
          · exact fun h j hj => h j (by omega)
        · rw [if_neg hmore]
          refine iff_of_true rfl fun j hj hjn hjm => ?_
          have hsame : j = i := by omega
          rw [hsame]
          exact hgood
      · refine iff_of_false ?_ fun h => hgood (h i le_rfl hi hmod)
        by_cases hrv : (reply i).rv < 0
        · rw [if_pos hrv]
          exact ne_of_lt hrv
        · rw [if_neg hrv]
          cases hack : (reply i).ack with
          | false => exact (show (-einval : ℤ) ≠ 0 by decide)
          | true =>
              have hstatus : (reply i).status ≠ 0 := fun hs => hgood ⟨Int.not_lt.mp hrv, hack, hs⟩
              rw [if_neg (by decide), if_pos hstatus]
              exact hstatus

/-! ### What the hardware holds -/

/-- The context at id 0 has no valid bit. -/
def Cleared (ctxt : CtxtStore) : Prop := (ctxt 0 .coal).getD 0 0 = 0

theorem Cleared.not_there {s : PrepDev} {bus : ℕ → BitVec 64} (h : Cleared s.dev.ctxt)
    (hvec : s.dev.numVecs ≠ 0) : ¬ s.ContextsThere bus := fun hthere => by
  have hvalid := congrArg IntrCtxt.valid (hthere 0 (Nat.pos_of_ne_zero hvec))
  unfold IntrCtxt.decode ctxtGet at hvalid
  dsimp only at hvalid
  rw [show (s.dev.ctxt 0 .coal).getD 0 0 = 0 from h] at hvalid
  cases hvalid

/-- A clear leaves the context cleared, unless it has no effect. -/
theorem cleared_clr {fate rdFate : CmdFate} {ctxt : CtxtStore}
    (h : fate.applied = true ∨ Cleared ctxt) :
    Cleared (hwIndirectCtextProg fate rdFate ctxt 0 .clr .coal [] 4 false).ctxt := by
  cases fate with
  | completes => exact congrArg (·.getD 0 0) (ctxt.set_self 0 .coal ctxtZero)
  | timesOut a =>
      cases a with
      | true => exact congrArg (·.getD 0 0) (ctxt.set_self 0 .coal ctxtZero)
      | false => exact h.resolve_left (by decide)

/-- So does a write of two words that are zero. -/
theorem cleared_wr {fate rdFate : CmdFate} {ctxt : CtxtStore} (h : Cleared ctxt) :
    Cleared (hwIndirectCtextProg fate rdFate ctxt 0 .wr .coal [0, 0] 2 true).ctxt := by
  have hset : Cleared (ctxt.command 0 .wr .coal ([0, 0].take 2)) := by
    unfold Cleared CtxtStore.command
    dsimp only
    rw [CtxtStore.set_self]
    rfl
  have hargs : ¬ ((IndCtxtCmdOp.wr = .wr ∨ IndCtxtCmdOp.wr = .rd) ∧
      (2 = 0 ∨ qdmaRegIndCtxtRegCount < 2 ∨ ([0, 0] : List (BitVec 32)) = [])) := by decide
  have hctxt : Cleared (if fate.applied then ctxt.command 0 .wr .coal ([0, 0].take 2) else ctxt) := by
    split
    · exact hset
    · exact h
  unfold hwIndirectCtextProg
  rw [if_neg hargs]
  dsimp only
  generalize (if fate.applied then ctxt.command 0 .wr .coal ([0, 0].take 2) else ctxt) = c
    at hctxt ⊢
  split
  · exact hctxt
  rw [if_neg (by decide), if_neg (by decide)]
  split
  · exact hctxt
  split
  · exact hctxt
  · exact hctxt

theorem vecWords_zero {cnt i : ℕ} (h : 2 * i + 2 ≤ cnt) :
    vecWords (List.replicate cnt (0 : BitVec 32)) i = [0, 0] := by
  unfold vecWords
  rw [List.drop_replicate, List.take_replicate, Nat.min_eq_left (by omega)]
  rfl

/-- Words that were cleared program nothing. -/
theorem pfIntrLoop_cleared (fate : ℕ → ℕ → CmdFate) (cnt : ℕ) :
    ∀ (n i : ℕ) {ctxt : CtxtStore}, 2 * (i + n) ≤ cnt → Cleared ctxt →
      Cleared (pfIntrLoop fate (List.replicate cnt 0) n i ctxt).2.2 := by
  intro n
  induction n with
  | zero => exact fun _ _ _ h => h
  | succ n ih =>
      intro i ctxt hcnt h
      have hclr : Cleared (hwIndirectCtextProg (fate i 0) .completes ctxt 0 .clr .coal [] 4 false).ctxt :=
        cleared_clr (Or.inr h)
      unfold pfIntrLoop
      dsimp only
      rw [vecWords_zero (by omega)]
      split
      · exact hclr
      split
      · exact cleared_wr hclr
      · exact ih (i + 1) (by omega) (cleared_wr hclr)

/-- The first clear decides: it takes effect and no context is programmed, or nothing is done. -/
theorem pfIntrLoop_ctxt (fate : ℕ → ℕ → CmdFate) {cnt n : ℕ} (ctxt : CtxtStore) (hcnt : 2 * n ≤ cnt)
    (hn : n ≠ 0) :
    ((fate 0 0).applied = true ∧ Cleared (pfIntrLoop fate (List.replicate cnt 0) n 0 ctxt).2.2) ∨
      ((fate 0 0).applied = false ∧
        (pfIntrLoop fate (List.replicate cnt 0) n 0 ctxt).2.2 = ctxt) := by
  obtain ⟨n, rfl⟩ := Nat.exists_eq_succ_of_ne_zero hn
  cases happlied : (fate 0 0).applied with
  | true =>
      have hclr : Cleared (hwIndirectCtextProg (fate 0 0) .completes ctxt 0 .clr .coal [] 4 false).ctxt :=
        cleared_clr (Or.inl happlied)
      refine Or.inl ⟨rfl, ?_⟩
      unfold pfIntrLoop
      dsimp only
      rw [vecWords_zero (by omega)]
      split
      · exact hclr
      split
      · exact cleared_wr hclr
      · exact pfIntrLoop_cleared fate cnt n 1 (by omega) (cleared_wr hclr)
  | false =>
      refine Or.inr ⟨rfl, ?_⟩
      cases hfate : fate 0 0 with
      | completes =>
          rw [hfate] at happlied
          cases happlied
      | timesOut a =>
          rw [hfate] at happlied
          have ha : a = false := happlied
          unfold pfIntrLoop
          rw [hfate, ha]
          dsimp only
          rw [if_pos (show (hwIndirectCtextProg (.timesOut false) .completes ctxt 0 .clr .coal [] 4
            false).rv < 0 from show -ebusy < 0 by decide)]
          rfl

/-! ## One call -/

theorem intrRingLoop_spec (f : PrepFates) (vector : ℕ → ℕ) (numEntries : ℕ) :
    ∀ n i, ((∀ j, i ≤ j → j < i + n → (f.ring j).isSome = true) ∧
        ∃ rings, intrRingLoop f vector numEntries n i = some rings ∧ rings.length = n ∧
          ∀ j < n, (rings.map (·.2)).getD j 0 = (f.ring (i + j)).getD 0) ∨
      (¬ (∀ j, i ≤ j → j < i + n → (f.ring j).isSome = true) ∧
        intrRingLoop f vector numEntries n i = none) := by
  intro n
  induction n with
  | zero =>
      intro i
      exact Or.inl ⟨fun j hj hn => by omega, [], rfl, rfl, fun j hj => absurd hj (Nat.not_lt_zero j)⟩
  | succ n ih =>
      intro i
      unfold intrRingLoop
      cases hring : f.ring i with
      | none =>
          refine Or.inr ⟨fun h => ?_, rfl⟩
          have hsome := h i le_rfl (by omega)
          rw [hring] at hsome
          cases hsome
      | some bus =>
          dsimp only
          rcases ih (i + 1) with ⟨hall, rings, heq, hlen, hbus⟩ | ⟨hnot, heq⟩
          · refine Or.inl ⟨fun j hj hn => ?_, _, by rw [heq]; rfl, by rw [List.length_cons, hlen],
              fun j hj => ?_⟩
            · rcases Nat.eq_or_lt_of_le hj with rfl | hlt
              · rw [hring]
                rfl
              · exact hall j hlt (by omega)
            · cases j with
              | zero =>
                  rw [Nat.add_zero, hring]
                  rfl
              | succ j =>
                  rw [← Nat.add_assoc, Nat.add_right_comm i j 1]
                  exact hbus j (Nat.lt_of_succ_lt_succ hj)
          · refine Or.inr ⟨fun h => hnot fun j hj hn => h j (by omega) (by omega), ?_⟩
            rw [heq]
            rfl

/-- The range is set; the rings and contexts are as before. -/
structure Ranged (s t : PrepDev) : Prop where
  range : t.initQrange = true
  qidxHw : ∀ c2h, ∀ i < t.dev.qmax, (t.dev.descq (t.dev.handle c2h i)).qidxHw = t.qbase + i
  same : t.vf = s.vf ∧ t.pollMode = s.pollMode ∧ t.indirectIntrMode = s.indirectIntrMode ∧
    t.qsetsMax = s.qsetsMax ∧ t.dev.numVecs = s.dev.numVecs ∧
    t.dev.intrCoalList = s.dev.intrCoalList ∧ t.dev.ctxt = s.dev.ctxt

/-- The range is set, or the device is as before. -/
theorem deviceSetQrange_spec {s : PrepDev} (h : PrepInit s) (f : PrepFates) :
    ((s.vf = true → 0 ≤ f.rangeRv) ∧ (deviceSetQrange f s).1 = 0 ∧
        Ranged s (deviceSetQrange f s).2) ∨
      (¬ (s.vf = true → 0 ≤ f.rangeRv) ∧ (deviceSetQrange f s).1 < 0 ∧
        (deviceSetQrange f s).2 = s) := by
  unfold deviceSetQrange
  by_cases hvf : s.vf = true
  · rw [if_pos hvf]
    by_cases hrv : f.rangeRv < 0
    · rw [if_pos hrv]
      exact Or.inr ⟨fun hc => Int.not_lt.mpr (hc hvf) hrv, hrv, rfl⟩
    · rw [if_neg hrv]
      refine Or.inl ⟨fun _ => Int.not_lt.mp hrv, rfl, rfl, ?_, rfl, rfl, rfl, rfl, rfl, rfl, rfl⟩
      intro c2h i hi
      have hi' : i < s.dev.qmax := hi
      have hq : s.dev.handle c2h i < 2 * s.dev.qmax := by
        unfold XlnxDmaDev.handle
        split <;> omega
      have hold := h.qidxHw c2h i hi
      rw [h.own hvf, Nat.zero_add] at hold
      have hmax := s.dev.qmax_lt
      have hbase : u16 f.rangeQbase < 2 ^ 16 := Nat.mod_lt _ (by decide)
      change (if s.dev.handle c2h i < 2 * s.dev.qmax then
        { s.dev.descq (s.dev.handle c2h i) with
          qidxHw := u32 ((s.dev.descq (s.dev.handle c2h i)).qidxHw + u16 f.rangeQbase) }
        else s.dev.descq (s.dev.handle c2h i)).qidxHw = u16 f.rangeQbase + i
      rw [if_pos hq, hold, u32_of_lt (by omega)]
      exact Nat.add_comm _ _
  · rw [if_neg hvf]
    refine Or.inl ⟨fun hc => absurd hc hvf, rfl, rfl, ?_, rfl, rfl, rfl, rfl, rfl, rfl, rfl⟩
    exact h.qidxHw

/-- With aggregation every vector gets its ring, or the list is as before and the flag is set;
without, there is neither. -/
theorem intrRingSetup_spec (f : PrepFates) (t : PrepDev) (ringSize : ℕ) :
    (¬ t.Aggregates ∧ t.intrRingSetup f ringSize = (0, t.noCoal)) ∨
    (t.Aggregates ∧ (f.list = true ∧ ∀ i < t.dev.numVecs, (f.ring i).isSome = true) ∧
      ∃ list bus, list.length = t.dev.numVecs ∧ bus.length = t.dev.numVecs ∧
        (∀ i < t.dev.numVecs, bus.getD i 0 = (f.ring i).getD 0) ∧
        t.intrRingSetup f ringSize =
          (0,
            { t with
              dev := { t.dev with
                intrCoalEn := true
                intrCoalList := list }
              ringBus := bus })) ∨
    (t.Aggregates ∧ ¬ (f.list = true ∧ ∀ i < t.dev.numVecs, (f.ring i).isSome = true) ∧
      t.intrRingSetup f ringSize = (-enomem, { t with dev := { t.dev with intrCoalEn := true } })) := by
  unfold PrepDev.intrRingSetup PrepDev.Aggregates
  by_cases hmode : (t.pollMode || !t.indirectIntrMode) = true
  · rw [if_pos hmode]
    refine Or.inl ⟨?_, rfl⟩
    rintro ⟨hpoll, hind, -⟩
    rw [hpoll, hind] at hmode
    cases hmode
  · rw [if_neg hmode]
    have hmodes : t.pollMode = false ∧ t.indirectIntrMode = true := by
      cases hp : t.pollMode <;> cases hi : t.indirectIntrMode <;> simp [hp, hi] at hmode ⊢
    by_cases hvec : t.dev.numVecs ≠ 0 ∧ t.dev.numVecs < t.qsetsMax
    · rw [if_pos hvec]
      have hagg := And.intro hmodes.1 (And.intro hmodes.2 hvec)
      cases hlist : f.list with
      | false => exact Or.inr (Or.inr ⟨hagg, fun h => absurd h.1 (by decide), rfl⟩)
      | true =>
          dsimp only
          rw [if_neg (by decide)]
          rcases intrRingLoop_spec f t.vector (intrRingEntries ringSize) t.dev.numVecs 0 with
            ⟨hall, rings, heq, hlen, hbus⟩ | ⟨hnot, heq⟩
          · refine Or.inr (Or.inl ⟨hagg, ⟨rfl, fun i hi => hall i (Nat.zero_le i) (by omega)⟩,
              rings.map (·.1), rings.map (·.2), ?_, ?_, fun i hi => ?_, ?_⟩)
            · rw [List.length_map, hlen]
            · rw [List.length_map, hlen]
            · rw [hbus i hi, Nat.zero_add]
            · rw [heq]
          · refine Or.inr (Or.inr ⟨hagg, fun h => hnot fun j _ hj => h.2 j (by omega), ?_⟩)
            rw [heq]
    · rw [if_neg hvec]
      exact Or.inl ⟨fun h => hvec h.2.2, rfl⟩

/-- The call returns 0 when nothing fails; the contexts are there after it when they were before
and nothing was done to them. -/
theorem qdmaIntrContextSetup_spec (f : PrepFates) {t : PrepDev} (hcoal : t.dev.intrCoalEn = true)
    (hvec : t.dev.numVecs ≠ 0) (bus : ℕ → BitVec 64) :
    ((qdmaIntrContextSetup f t).1 = 0 ↔ f.Programs t) ∧
      ((qdmaIntrContextSetup f t).2.ContextsThere bus ↔
        t.ContextsThere bus ∧ (t.vf = false → (f.fate 0 0).applied = false)) := by
  have hle := t.dev.numVecs_le
  have hmake := makeIntrContext_coal hcoal (fun i => t.ringBus.getD i 0) f.stack (xdevNumIrqMax * 2)
  have hzero : ¬ (0 : ℤ) < 0 := lt_irrefl 0
  have hno : ¬ (!true) = true := by decide
  unfold qdmaIntrContextSetup PrepFates.Programs
  dsimp only
  cases hvf : t.vf with
  | true =>
      rw [if_pos rfl, if_pos rfl]
      unfold qdmaIntrContextSetupVf
      dsimp only
      rw [hmake, hcoal, if_neg hno, if_neg hzero,
        vfIntrLoop_zero_iff f.reply t.dev t.funcIdParent (List.replicate (xdevNumIrqMax * 2) 0)
          (t.dev.numVecs + 1) 0 (by omega) (by omega) rfl]
      refine ⟨⟨fun h i hi hm => h i (Nat.zero_le i) hi hm, fun h j _ hj hm => h j hj hm⟩,
        fun h => ⟨h, fun hc => nomatch hc⟩, fun h => h.1⟩
  | false =>
      rw [if_neg (by decide), if_neg (by decide)]
      unfold qdmaIntrContextSetupPf
      dsimp only
      rw [hmake, hcoal, if_neg hno, if_neg hzero]
      have hroom : 2 * (0 + t.dev.numVecs) ≤
          (List.replicate (xdevNumIrqMax * 2) (0 : BitVec 32)).length := by
        rw [List.length_replicate]
        unfold xdevNumIrqMax
        omega
      constructor
      · rw [pfIntrLoop_zero_iff f.fate t.dev.numVecs 0 t.dev.ctxt hroom]
        exact ⟨fun h i hi k hk => h i (Nat.zero_le i) (by omega) k hk,
          fun h j _ hj k hk => h j (by omega) k hk⟩
      · rw [List.length_replicate, Nat.zero_add] at hroom
        rcases pfIntrLoop_ctxt f.fate t.dev.ctxt hroom hvec with ⟨happlied, hclr⟩ | ⟨hlost, hsame⟩
        · exact iff_of_false (Cleared.not_there hclr hvec) fun h => by
            rw [h.2 rfl] at happlied
            cases happlied
        · refine ⟨fun h => ⟨?_, fun _ => hlost⟩, fun h => ?_⟩
          · intro i hi
            have hi' := h i hi
            dsimp only at hi'
            rwa [hsame] at hi'
          · intro i hi
            dsimp only
            rw [hsame]
            exact h.1 i hi

theorem qdmaIntrContextSetup_eq (f : PrepFates) (t : PrepDev) :
    ∃ ctxt, (qdmaIntrContextSetup f t).2 = { t with dev := { t.dev with ctxt := ctxt } } := by
  unfold qdmaIntrContextSetup
  dsimp only
  split
  · exact ⟨t.dev.ctxt, rfl⟩
  · exact ⟨_, rfl⟩

/-- The range is set and what should go with it is missing. -/
def HalfPrepared (s : PrepDev) : Prop := s.initQrange = true ∧ ¬ Prepared s

/-- **One call** on a new device: it prepares the device or leaves it new, or the device is half
prepared, and the call returns 0 where nothing has failed. -/
theorem prep_spec {s : PrepDev} (h : PrepInit s) (f : PrepFates) :
    (NoAggregation s f ∧ Prepared (qdmaDevicePrepQResource f s).2) ∨
    (NoAggregation s f ∧ (qdmaDevicePrepQResource f s).1 ≠ 0 ∧
      (qdmaDevicePrepQResource f s).2 = s) ∨
    (¬ NoAggregation s f ∧ ((qdmaDevicePrepQResource f s).1 = 0 ↔ f.Grants s) ∧
      HalfPrepared (qdmaDevicePrepQResource f s).2) := by
  have hnomem : (-enomem : ℤ) ≠ 0 := by decide
  unfold qdmaDevicePrepQResource
  rw [if_neg (by rw [h.range]; decide)]
  dsimp only
  rcases deviceSetQrange_spec h f with ⟨hok, hrv, hranged⟩ | ⟨hbad, hrv, hsame⟩
  · rw [if_neg (by rw [hrv]; exact lt_irrefl 0)]
    generalize (deviceSetQrange f s).2 = t at hranged ⊢
    obtain ⟨hrange, hqidx, hvf, hpoll, hind, hqs, hvecs, hlist, hctxt⟩ := hranged
    have hagg : t.Aggregates ↔ s.Aggregates := by
      unfold PrepDev.Aggregates
      rw [hpoll, hind, hqs, hvecs]
    rcases intrRingSetup_spec f t xdevIntrCoalRingSize with
      ⟨hno, heq⟩ | ⟨hyes, hrings, list, bus, hlen, hbuslen, hbus, heq⟩ | ⟨hyes, hrings, heq⟩
    · -- no aggregation: nothing else to do
      rw [heq, if_neg (fun hc => hc rfl)]
      refine Or.inl ⟨fun _ _ hc => absurd (hagg.mpr hc) hno, ?_⟩
      exact ⟨hrange, hqidx, fun hc => (nomatch hc), fun hc => (nomatch hc), fun hc => (nomatch hc)⟩
    · rw [heq, if_neg (fun hc => hc rfl), if_pos rfl]
      have hvec : t.dev.numVecs ≠ 0 := hyes.2.2.1
      generalize hu : PrepDev.mk _ _ _ _ _ _ _ _ _ _ = u
      have hcoal : u.dev.intrCoalEn = true := by rw [← hu]
      have huvec : u.dev.numVecs ≠ 0 := by
        rw [← hu]
        exact hvec
      have huprogs : f.Programs u ↔ f.Programs s := by
        rw [← hu]
        unfold PrepFates.Programs
        rw [← hvf, ← hvecs]
      obtain ⟨hzero, hthere⟩ := qdmaIntrContextSetup_spec f hcoal huvec fun i => bus.getD i 0
      -- the contexts are those of the rings that were to be had
      have hspared : (u.ContextsThere (fun i => bus.getD i 0) ∧
          (u.vf = false → (f.fate 0 0).applied = false)) ↔ f.Spares s := by
        rw [← hu]
        unfold PrepFates.Spares PrepDev.ContextsThere
        rw [← hvf, ← hctxt, ← hvecs]
        refine ⟨fun hc => ⟨hrings.1, hrings.2, fun i hi => ?_, hc.2⟩, fun hc => ⟨fun i hi => ?_,
          hc.2.2.2⟩⟩
        · have hi' := hc.1 i hi
          dsimp only at hi' ⊢
          rwa [hbus i hi] at hi'
        · have hi' := hc.2.2.1 i hi
          dsimp only at hi' ⊢
          rwa [hbus i hi]
      rw [hspared] at hthere
      obtain ⟨ctxt, hafter⟩ := qdmaIntrContextSetup_eq f u
      have hranged : (qdmaIntrContextSetup f u).2.initQrange = true := by
        rw [hafter, ← hu]
        exact hrange
      have hbusAfter : (qdmaIntrContextSetup f u).2.ringBus = bus := by
        rw [hafter, ← hu]
      by_cases hsp : f.Spares s
      · refine Or.inl ⟨fun _ _ _ => hsp, hranged, ?_, fun _ => ?_, fun _ => ?_, fun _ => ?_⟩
        · rw [hafter, ← hu]
          exact hqidx
        · rw [hafter, ← hu]
          exact fun hnil => hvec (by rw [← hlen, show list = [] from hnil, List.length_nil])
        · rw [hafter, ← hu]
          exact ⟨hlen, hbuslen⟩
        · rw [hbusAfter]
          exact hthere.mpr hsp
      · refine Or.inr (Or.inr ⟨fun hc => hsp (hc h.range hok (hagg.mp hyes)), ?_, hranged,
          fun hp => hsp (hthere.mp ?_)⟩)
        · rw [hzero, huprogs]
          refine ⟨fun hall => ⟨hrings.1, ?_, hall⟩, fun hc => hc.2.2⟩
          rw [← hvecs]
          exact hrings.2
        · have hcontexts := hp.contexts
          rw [hbusAfter] at hcontexts
          refine hcontexts ?_
          rw [hafter]
          exact hcoal
    · rw [heq, if_pos hnomem]
      have hnot : ¬ (f.list = true ∧ ∀ i < s.dev.numVecs, (f.ring i).isSome = true) := by
        rw [← hvecs]
        exact hrings
      refine Or.inr (Or.inr ⟨fun hc => ?_, iff_of_false hnomem fun hc => hnot ⟨hc.1, hc.2.1⟩, hrange,
        fun hp => ?_⟩)
      · obtain ⟨hl, hr, -⟩ := hc h.range hok (hagg.mp hyes)
        exact hnot ⟨hl, hr⟩
      · exact hp.list rfl (hlist.trans h.list)
  · rw [if_pos hrv]
    exact Or.inr (Or.inl ⟨fun _ hc => absurd hc hbad, ne_of_lt hrv, hsame⟩)

/-- A call on a device whose range is set does nothing. -/
theorem prep_again {s : PrepDev} (h : s.initQrange = true) (f : PrepFates) :
    qdmaDevicePrepQResource f s = (0, s) := by
  unfold qdmaDevicePrepQResource
  rw [if_pos h]

/-! ## Any number of calls -/

/-- **Every call that returns 0 leaves the device prepared**, exactly where no call sets the range
of a device that aggregates its interrupts, but for the last one if it fails. -/
theorem prep_right_iff {s : PrepDev} (h : PrepInit s) (fs : List PrepFates) :
    prepSys.EachStep PrepRight s fs ↔
      (prepSys.restrict NoAggregation).Admits s fs.dropLast ∧
        ∀ f ∈ fs.getLast?, NoAggregation (prepSys.exec s fs.dropLast) f ∨
          ¬ f.Grants (prepSys.exec s fs.dropLast) := by
  have hagain : ∀ {s : PrepDev}, Prepared s → ∀ f, prepSys.step s f = s ∧ NoAggregation s f :=
    fun hready f => ⟨congrArg Prod.snd (prep_again hready.range f), fun hc =>
      nomatch hc.symm.trans hready.range⟩
  refine prepSys.eachStep_iff_admits_dropLast (G := fun s => PrepInit s ∨ Prepared s)
    (B := HalfPrepared) (Q := fun s f => ¬ f.Grants s) ?_ ?_ ?_ ?_ fs (Or.inl h)
    (prepSys.admits_free (fun _ _ => trivial) fs s)
  · rintro s f (hnew | hready)
    · unfold PrepRight
      rcases prep_spec hnew f with ⟨hcond, hp⟩ | ⟨hcond, hne, -⟩ | ⟨hcond, hzero, -, hno⟩
      · exact iff_of_true (fun _ => hp) (Or.inl hcond)
      · exact iff_of_true (fun hzero => absurd hzero hne) (Or.inl hcond)
      · rw [hzero]
        exact ⟨fun hright => Or.inr fun hc => hno (hright hc),
          fun hor hc => absurd hc (hor.resolve_left hcond)⟩
    · obtain ⟨hsame, hcond⟩ := hagain hready f
      rw [hsame]
      exact iff_of_true (fun _ => hready) (Or.inl hcond)
  · rintro s f (hnew | hready) hcond
    · rcases prep_spec hnew f with ⟨-, hp⟩ | ⟨-, -, hsame⟩ | ⟨hno, -, -⟩
      · exact Or.inr hp
      · refine Or.inl ?_
        change PrepInit (qdmaDevicePrepQResource f s).2
        rw [hsame]
        exact hnew
      · exact absurd hcond hno
    · rw [(hagain hready f).1]
      exact Or.inr hready
  · rintro s f (hnew | hready) hcond
    · rcases prep_spec hnew f with ⟨hyes, -⟩ | ⟨hyes, -, -⟩ | ⟨-, -, hhalf⟩
      · exact absurd hyes hcond
      · exact absurd hyes hcond
      · exact hhalf
    · exact absurd (hagain hready f).2 hcond
  · rintro s f ⟨hrange, hno⟩ hright
    have hagain := prep_again hrange f
    refine hno ?_
    have hp := hright (by rw [hagain])
    change Prepared (qdmaDevicePrepQResource f s).2 at hp
    rw [hagain] at hp
    exact hp

/-- A physical function with one vector for its two queues. -/
def oneVectorDev : PrepDev where
  dev :=
    { polledDev with
      numVecs := 1
      numVecs_le := Nat.le_add_left 1 7 }
  vf := false
  initQrange := false
  qbase := 0
  funcIdParent := 0
  pollMode := false
  indirectIntrMode := true
  qsetsMax := 2
  vector i := 32 + i
  ringBus := []

/-- A call that gets what it asks for. -/
def grantedPrep : PrepFates where
  rangeRv := 0
  rangeFuncId := 0
  rangeFuncIdParent := 0
  rangeQbase := 0
  list := true
  ring _ := some 0x1000#64
  fate _ _ := .completes
  reply _ := ⟨0, true, 0⟩
  stack := []

theorem oneVectorDev_init : PrepInit oneVectorDev where
  range := rfl
  base := by decide
  own h := nomatch h
  qidxHw c2h i hi := by
    have hzero : i = 0 := Nat.lt_one_iff.mp hi
    subst hzero
    cases c2h <;> rfl
  list := rfl

/-- The same one without interrupts. -/
def pollingDev : PrepDev := { oneVectorDev with pollMode := true }

theorem pollingDev_init : PrepInit pollingDev :=
  ⟨oneVectorDev_init.range, oneVectorDev_init.base, oneVectorDev_init.own,
    oneVectorDev_init.qidxHw, oneVectorDev_init.list⟩

theorem prep_right_granted :
    (qdmaDevicePrepQResource grantedPrep pollingDev).1 = 0 ∧
      prepSys.EachStep PrepRight pollingDev [grantedPrep, grantedPrep] := by
  have hpoll : ∀ s : PrepDev, s.pollMode = true → NoAggregation s grantedPrep := fun s hs _ _ hagg =>
    absurd (hs.symm.trans hagg.1) (by decide)
  refine ⟨by decide +kernel, (prep_right_iff pollingDev_init _).mpr ⟨⟨⟨trivial, hpoll _ rfl⟩,
    trivial⟩, ?_⟩⟩
  rintro _ ⟨⟩
  exact Or.inl (hpoll _ (by decide +kernel))

/-- The ring cannot be allocated, the first call fails; the second one returns 0. -/
theorem prep_half_done :
    ¬ ∀ s, PrepInit s → ∀ fs, prepSys.EachStep PrepRight s fs := by
  intro hall
  have h := hall oneVectorDev oneVectorDev_init [{ grantedPrep with ring := fun _ => none }, grantedPrep]
  have hprepared := h.2.1 (by decide +kernel)
  exact hprepared.list (by decide +kernel) (by decide +kernel)

end Qdma

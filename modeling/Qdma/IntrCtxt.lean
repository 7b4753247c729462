import Qdma.CtxtFields
import Qdma.MboxVf

/-!
# The contexts of the aggregation rings

With interrupt aggregation each vector has a ring, and the hardware is told of it by two
context words.  `make_intr_context` makes the words of all vectors; a physical function
writes them itself, a virtual one sends them to it in messages of up to seven vectors.

The test at the head of `make_intr_context` is the wrong way round: with aggregation on, the
only case in which it is called, it clears the words and is done.  `intr_contexts_right_iff`
says what is left.

* `pfIntrLoop` keeps a record of the words it writes, `vfIntrLoop` of the messages it sends.
* The ring addresses are an argument: `bus i` is `intr_coal_list[i].intr_ring_bus`.
-/

namespace Qdma

open Lib

/-! ## The words -/

def sIntCoalW0FValid : ℕ := 0
def sIntCoalW0VecId : ℕ := 1
def sIntCoalW0Baddr64 : ℕ := 9

/-- `bus_64` of `make_intr_context`. -/
def intrBus64 (bus : BitVec 64) : BitVec 64 := (pciDmaH bus <<< 12) ||| (pciDmaL bus >>> 9)

/-- The two words of a vector in the loop of `make_intr_context`. -/
def intrWords (i : ℕ) (bus : BitVec 64) : List (BitVec 32) :=
  let bus64 := intrBus64 bus
  [ctxtField 1 sIntCoalW0FValid ||| ctxtField i sIntCoalW0VecId |||
      (((bus64 &&& 0x7FFFFF#64).setWidth 32 &&& 0x7FFFFF#32) <<< sIntCoalW0Baddr64),
    (bus64 &&& 0x1FFFFFFF#64).setWidth 32 &&& 0x1FFFFFFF#32]

/-- `make_intr_context`: the result, and the caller's `cnt` words. -/
def makeIntrContext (dev : XlnxDmaDev) (bus : ℕ → BitVec 64) (data : List (BitVec 32)) (cnt : ℕ) :
    ℤ × List (BitVec 32) :=
  if dev.intrCoalEn then (0, List.replicate cnt 0)
  else if cnt < dev.numVecs * 2 then (-einval, data)
  else
    (0, ((List.range dev.numVecs).flatMap fun i => intrWords i (bus i)) ++
      List.replicate (cnt - dev.numVecs * 2) 0)

/-- The words of vector `i`. -/
def vecWords (data : List (BitVec 32)) (i : ℕ) : List (BitVec 32) := (data.drop (2 * i)).take 2

/-! ## The physical function -/

/-- The loop of `qdma_intr_context_setup`, with `n` vectors to go: the result, the words
written and the store.  Every context goes to queue 0. -/
def pfIntrLoop (fate : ℕ → ℕ → CmdFate) (data : List (BitVec 32)) :
    ℕ → ℕ → CtxtStore → ℤ × List (List (BitVec 32)) × CtxtStore
  | 0, _, ctxt => (0, [], ctxt)
  | n + 1, i, ctxt =>
      let clr := hwIndirectCtextProg (fate i 0) .completes ctxt 0 .clr .coal [] 4 false
      if clr.rv < 0 then (clr.rv, [], clr.ctxt)
      else
        let words := vecWords data i
        let wr := hwIndirectCtextProg (fate i 1) (fate i 2) clr.ctxt 0 .wr .coal words 2 true
        if wr.rv < 0 then (wr.rv, [words], wr.ctxt)
        else
          let r := pfIntrLoop fate data n (i + 1) wr.ctxt
          (r.1, words :: r.2.1, r.2.2)

/-- `qdma_intr_context_setup` of a physical function; `data` is what the stack holds. -/
def qdmaIntrContextSetupPf (fate : ℕ → ℕ → CmdFate) (dev : XlnxDmaDev) (bus : ℕ → BitVec 64)
    (data : List (BitVec 32)) (ctxt : CtxtStore) : ℤ × List (List (BitVec 32)) × CtxtStore :=
  if !dev.intrCoalEn then (0, [], ctxt)
  else
    let r := makeIntrContext dev bus data (xdevNumIrqMax * 2)
    if r.1 < 0 then (r.1, [], ctxt) else pfIntrLoop fate r.2 dev.numVecs 0 ctxt

/-! ## The virtual function -/

def mboxIntrCtxtVecMax : ℕ := 7

namespace MboxMsg

/-- `vec_cnt` of `struct mbox_msg_intr_ctxt`, in a word with `clear` and `vec_base`. -/
def vecCnt (m : MboxMsg) : ℕ := (m.raw 1).toNat / 2 ^ 24

/-- The words of the vectors the message is about. -/
def vecWords (m : MboxMsg) : List (BitVec 32) := m.words 2 (2 * m.vecCnt)

end MboxMsg

/-- The message for `copy` vectors from `i` on.  As many words are copied as there are
vectors. -/
def intrCtxtMsg (dev : XlnxDmaDev) (funcIdParent i copy : ℕ) (data : List (BitVec 32)) : MboxMsg where
  hdr :=
    { op := mboxOpIntrCtxt, sent := false, rcv := false, ack := false, wait := true,
      src := dev.funcId, dst := funcIdParent, status := 0 }
  raw k :=
    if k = 1 then BitVec.ofNat 32 (1 + 2 ^ 16 * i + 2 ^ 24 * copy)
    else if 2 ≤ k ∧ k < 2 + copy then data.getD (2 * i + (k - 2)) 0
    else 0

/-- What `qdma_mbox_send_msg` returns, with the header of the answer it leaves behind. -/
structure MboxReply where
  rv : ℤ
  ack : Bool
  status : ℤ

/-- The loop of the virtual function's `qdma_intr_context_setup` at vector `i`: the result
and the messages sent.  `n` bounds the turns left. -/
def vfIntrLoop (reply : ℕ → MboxReply) (dev : XlnxDmaDev) (funcIdParent : ℕ)
    (data : List (BitVec 32)) : ℕ → ℕ → ℤ × List MboxMsg
  | 0, _ => (0, [])
  | n + 1, i =>
      let copy := min (dev.numVecs - i) mboxIntrCtxtVecMax
      let m := intrCtxtMsg dev funcIdParent i copy data
      let answer := reply i
      if answer.rv < 0 then (answer.rv, [m])
      else if !answer.ack then (-einval, [m])
      else if answer.status ≠ 0 then (answer.status, [m])
      else if i + copy < dev.numVecs then
        let r := vfIntrLoop reply dev funcIdParent data n (i + copy)
        (r.1, m :: r.2)
      else (0, [m])

/-- `qdma_intr_context_setup` of a virtual function.  A turn that is not the last sends at
least one vector. -/
def qdmaIntrContextSetupVf (reply : ℕ → MboxReply) (dev : XlnxDmaDev) (funcIdParent : ℕ)
    (bus : ℕ → BitVec 64) (data : List (BitVec 32)) : ℤ × List MboxMsg :=
  if !dev.intrCoalEn then (0, [])
  else
    let r := makeIntrContext dev bus data (xdevNumIrqMax * 2)
    if r.1 < 0 then (r.1, []) else vfIntrLoop reply dev funcIdParent r.2 (dev.numVecs + 1) 0

/-! ## What the contexts are for -/

def intCoalW0FValid : BitField := ⟨sIntCoalW0FValid, 1⟩
def intCoalW0VecId : BitField := ⟨sIntCoalW0VecId, 6⟩
def intCoalW0Baddr64 : BitField := ⟨sIntCoalW0Baddr64, 23⟩
def intCoalW1Baddr64 : BitField := ⟨0, 29⟩

/-- The context of a vector as the hardware reads it. -/
structure IntrCtxt where
  valid : ℕ
  vecId : ℕ
  /-- The address of the ring in units of 4096 bytes. -/
  baddr : ℕ
  deriving DecidableEq

def IntrCtxt.decode (words : List (BitVec 32)) : IntrCtxt where
  valid := ctxtGet words 0 intCoalW0FValid
  vecId := ctxtGet words 0 intCoalW0VecId
  baddr := ctxtGet words 0 intCoalW0Baddr64 + 2 ^ 23 * ctxtGet words 1 intCoalW1Baddr64

/-- The context a vector should have. -/
def IntrCtxt.intended (i : ℕ) (bus : BitVec 64) : IntrCtxt where
  valid := 1
  vecId := i
  baddr := bus.toNat / 4096

/-- The words of every vector are made, describe its ring, and are written by a physical
function, or sent by a virtual one, once each; as long as commands and messages succeed. -/
structure IntrContextsRight (dev : XlnxDmaDev) (bus : ℕ → BitVec 64) (data : List (BitVec 32)) :
    Prop where
  made : (makeIntrContext dev bus data (xdevNumIrqMax * 2)).1 = 0
  words : ∀ i < dev.numVecs,
    IntrCtxt.decode (vecWords (makeIntrContext dev bus data (xdevNumIrqMax * 2)).2 i) =
      IntrCtxt.intended i (bus i)
  written : ∀ fate : ℕ → ℕ → CmdFate, (∀ i k, fate i k = .completes) → ∀ ctxt : CtxtStore,
    (qdmaIntrContextSetupPf fate dev bus data ctxt).1 = 0 ∧
      (qdmaIntrContextSetupPf fate dev bus data ctxt).2.1 =
        (List.range dev.numVecs).map
          (vecWords (makeIntrContext dev bus data (xdevNumIrqMax * 2)).2)
  sent : ∀ reply : ℕ → MboxReply, (∀ i, reply i = ⟨0, true, 0⟩) → ∀ funcIdParent : ℕ,
    (qdmaIntrContextSetupVf reply dev funcIdParent bus data).1 = 0 ∧
      (qdmaIntrContextSetupVf reply dev funcIdParent bus data).2.flatMap MboxMsg.vecWords =
        (makeIntrContext dev bus data (xdevNumIrqMax * 2)).2.take (2 * dev.numVecs)

/-! ## What is left of it -/

theorem makeIntrContext_coal {dev : XlnxDmaDev} (hcoal : dev.intrCoalEn = true)
    (bus : ℕ → BitVec 64) (data : List (BitVec 32)) (cnt : ℕ) :
    makeIntrContext dev bus data cnt = (0, List.replicate cnt 0) := by
  unfold makeIntrContext
  rw [hcoal]
  rfl

theorem length_vecWords {data : List (BitVec 32)} {i : ℕ} (h : 2 * i + 2 ≤ data.length) :
    (vecWords data i).length = 2 := by
  unfold vecWords
  rw [List.length_take, List.length_drop]
  omega

/-- **A physical function writes the words it has**, two for every vector. -/
theorem pfIntrLoop_written {fate : ℕ → ℕ → CmdFate} (hfate : ∀ i k, fate i k = .completes)
    {data : List (BitVec 32)} :
    ∀ (n i : ℕ) (ctxt : CtxtStore), 2 * (i + n) ≤ data.length →
      (pfIntrLoop fate data n i ctxt).1 = 0 ∧
        (pfIntrLoop fate data n i ctxt).2.1 = (List.range' i n).map (vecWords data) := by
  intro n
  induction n with
  | zero => intro i ctxt _; exact ⟨rfl, rfl⟩
  | succ n ih =>
      intro i ctxt hlen
      have hclr : ∀ ctxt' : CtxtStore, (hwIndirectCtextProg .completes .completes ctxt' 0 .clr .coal
          [] 4 false).rv = 0 := fun _ => rfl
      have hwr : ∀ ctxt' : CtxtStore, (hwIndirectCtextProg .completes .completes ctxt' 0 .wr .coal
          (vecWords data i) 2 true).rv = 0 :=
        fun ctxt' => ctextProg_wr_completes ctxt' 0 .coal (by decide) (by decide)
          (length_vecWords (by omega))
      unfold pfIntrLoop
      simp only [hfate, hclr, hwr, lt_irrefl, if_false]
      obtain ⟨hrv, hwritten⟩ := ih (i + 1) (hwIndirectCtextProg .completes .completes
        (hwIndirectCtextProg .completes .completes ctxt 0 .clr .coal [] 4 false).ctxt 0 .wr .coal
        (vecWords data i) 2 true).ctxt (by omega)
      exact ⟨hrv, by rw [hwritten, List.range'_succ, List.map_cons]⟩

/-- Words that were cleared have no valid bit. -/
theorem decode_cleared (cnt i : ℕ) :
    (IntrCtxt.decode (vecWords (List.replicate cnt 0) i)).valid = 0 := by
  have hzero : (vecWords (List.replicate cnt 0) i).getD 0 0 = 0 := by
    unfold vecWords
    rw [List.drop_replicate, List.take_replicate]
    cases min 2 (cnt - 2 * i) with
    | zero => rfl
    | succ n => rfl
  unfold IntrCtxt.decode ctxtGet
  dsimp only
  rw [hzero]
  rfl

/-- **The contexts of the aggregation rings** are right only where there are none. -/
theorem intr_contexts_right_iff {dev : XlnxDmaDev} (hcoal : dev.intrCoalEn = true)
    (bus : ℕ → BitVec 64) (data : List (BitVec 32)) :
    IntrContextsRight dev bus data ↔ dev.numVecs = 0 := by
  have hmake := makeIntrContext_coal hcoal bus data (xdevNumIrqMax * 2)
  constructor
  · intro h
    by_contra hne
    have hvalid := congrArg IntrCtxt.valid (h.words 0 (Nat.pos_of_ne_zero hne))
    rw [hmake, decode_cleared] at hvalid
    cases hvalid
  · intro hzero
    refine ⟨by rw [hmake], ?_, ?_, ?_⟩
    · intro i hi
      omega
    · intro fate hfate ctxt
      have hroom : 2 * (0 + dev.numVecs) ≤
          (List.replicate (xdevNumIrqMax * 2) (0 : BitVec 32)).length := by
        rw [hzero]
        exact Nat.zero_le _
      have hpf := pfIntrLoop_written hfate dev.numVecs 0 ctxt hroom
      unfold qdmaIntrContextSetupPf
      rw [hmake, hcoal]
      rw [List.range_eq_range']
      exact hpf
    · intro reply hreply funcIdParent
      -- one message is sent even then, for no vector
      have hempty : ∀ words, (intrCtxtMsg dev funcIdParent 0 0 words).vecWords = [] := by
        intro words
        have hcnt : (intrCtxtMsg dev funcIdParent 0 0 words).vecCnt = 0 := by
          show (BitVec.ofNat 32 (1 + 2 ^ 16 * 0 + 2 ^ 24 * 0)).toNat / 2 ^ 24 = 0
          decide
        unfold MboxMsg.vecWords
        rw [hcnt]
        rfl
      unfold qdmaIntrContextSetupVf
      rw [hmake, hcoal]
      simp only [Bool.not_true, Bool.false_eq_true, lt_irrefl, if_false, hzero, vfIntrLoop, hreply,
        ne_eq, not_true_eq_false, Nat.zero_min, Nat.sub_self, Nat.add_zero, Nat.mul_zero,
        List.take_zero, List.flatMap_cons, List.flatMap_nil, hempty, List.append_nil]
      exact ⟨trivial, trivial⟩

/-- A device without vectors has nothing to describe. -/
def bareCoalDev : XlnxDmaDev :=
  { polledDev with
    intrCoalEn := true }

theorem intr_contexts_right_bare : IntrContextsRight bareCoalDev (fun _ => 0x1000#64) [] :=
  (intr_contexts_right_iff rfl (fun _ => 0x1000#64) []).mpr rfl

/-- One vector, and its context is not valid. -/
theorem intr_contexts_cleared :
    ¬ ∀ dev : XlnxDmaDev, dev.intrCoalEn = true → dev.numVecs ≤ xdevNumIrqMax →
      ∀ (bus : ℕ → BitVec 64) (data : List (BitVec 32)), (∀ i, (bus i).toNat % 4096 = 0) →
        IntrContextsRight dev bus data := by
  intro h
  have hright := h { bareCoalDev with numVecs := 1, numVecs_le := by decide } rfl (by decide)
    (fun _ => 0x1000#64) [] (fun _ => rfl)
  have hvalid := congrArg IntrCtxt.valid (hright.words 0 Nat.zero_lt_one)
  revert hvalid
  decide

end Qdma

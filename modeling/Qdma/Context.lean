import Qdma.Rx

/-!
# Queue contexts

The hardware keeps, for each queue id and selector, a *context* of four words.
The driver reaches it through one command register: `hw_indirect_ctext_prog`
issues a command, polls until the busy bit falls, and can read a write back to
compare.  `qdma_context.c` builds the words of a queue from its `qdma_descq` and
clears and programs them in a fixed order.  This is the code of the physical
function.

A command can time out, and then the driver does not know whether it took effect.
`CmdFate` says which of the three happened; a function that issues several
commands takes a sequence of fates, one for each command in the order of the
source text.

The last part says what the commands leave alone (`contextClear_frame`,
`contextSetup_frame`), what a clear that took effect leaves behind, and what a
setup that succeeded does.
-/

namespace Qdma

/-! ## Selectors, commands and the store -/

/-- `enum ind_ctxt_cmd_sel`. -/
inductive IndCtxtCmdSel where
  | swC2h | swH2c | hwC2h | hwH2c | crC2h | crH2c | wrb | pftch | coal
  deriving DecidableEq

/-- `enum ind_ctxt_cmd_op`, less the invalidation, which the driver never issues. -/
inductive IndCtxtCmdOp where
  | clr | wr | rd
  deriving DecidableEq

def qdmaRegIndCtxtRegCount : ℕ := 4

/-- The four words of every context, by hardware queue id and selector. -/
abbrev CtxtStore := ℕ → IndCtxtCmdSel → List (BitVec 32)

def CtxtStore.set (ctxt : CtxtStore) (qidHw : ℕ) (sel : IndCtxtCmdSel)
    (words : List (BitVec 32)) : CtxtStore :=
  Function.update ctxt qidHw (Function.update (ctxt qidHw) sel words)

@[simp] theorem CtxtStore.set_self (ctxt : CtxtStore) (qidHw : ℕ) (sel : IndCtxtCmdSel)
    (words : List (BitVec 32)) : ctxt.set qidHw sel words qidHw sel = words := by
  unfold CtxtStore.set
  rw [Function.update_self, Function.update_self]

theorem CtxtStore.set_of_ne (ctxt : CtxtStore) {qidHw q : ℕ} {sel s : IndCtxtCmdSel}
    (words : List (BitVec 32)) (h : q = qidHw → s ≠ sel) :
    ctxt.set qidHw sel words q s = ctxt q s := by
  unfold CtxtStore.set
  by_cases hq : q = qidHw
  · subst hq
    rw [Function.update_self, Function.update_of_ne (h rfl)]
  · rw [Function.update_of_ne hq]

/-- The words a cleared context holds. -/
def ctxtZero : List (BitVec 32) := List.replicate qdmaRegIndCtxtRegCount 0

/-- What became of a command. -/
inductive CmdFate where
  | completes
  | timesOut (applied : Bool)
  deriving DecidableEq

/-- The command took effect. -/
def CmdFate.applied : CmdFate → Bool
  | .completes => true
  | .timesOut applied => applied

/-- The data registers of a write: the caller's words, then zeros. -/
def ctxtData (data : List (BitVec 32)) : List (BitVec 32) :=
  (data ++ ctxtZero).take qdmaRegIndCtxtRegCount

theorem ctxtData_take {data : List (BitVec 32)} {cnt : ℕ} (hlen : data.length = cnt)
    (hle : cnt ≤ qdmaRegIndCtxtRegCount) : (ctxtData (data.take cnt)).take cnt = data := by
  unfold ctxtData
  rw [List.take_take, Nat.min_eq_left hle, List.take_of_length_le (le_of_eq hlen),
    List.take_left' hlen]

theorem ctxtData_length (data : List (BitVec 32)) :
    (ctxtData data).length = qdmaRegIndCtxtRegCount := by
  simp [ctxtData, ctxtZero]

/-- The effect of a command on the store. -/
def CtxtStore.command (ctxt : CtxtStore) (qidHw : ℕ) (op : IndCtxtCmdOp) (sel : IndCtxtCmdSel)
    (data : List (BitVec 32)) : CtxtStore :=
  match op with
  | .clr => ctxt.set qidHw sel ctxtZero
  | .wr => ctxt.set qidHw sel (ctxtData data)
  | .rd => ctxt

/-- What `hw_indirect_ctext_prog` returns, leaves in the caller's buffer, and
leaves in the store. -/
structure CtxtRes where
  rv : ℤ
  data : List (BitVec 32)
  ctxt : CtxtStore

/-- `hw_indirect_ctext_prog`.  A null `data` is the empty list; `rdFate` is the
fate of the read that verifies a write. -/
def hwIndirectCtextProg (fate rdFate : CmdFate) (ctxt : CtxtStore) (qidHw : ℕ) (op : IndCtxtCmdOp)
    (sel : IndCtxtCmdSel) (data : List (BitVec 32)) (cnt : ℕ) (verify : Bool) : CtxtRes :=
  if (op = .wr ∨ op = .rd) ∧ (cnt = 0 ∨ qdmaRegIndCtxtRegCount < cnt ∨ data = []) then
    ⟨-einval, data, ctxt⟩
  else
    let ctxt := if fate.applied then ctxt.command qidHw op sel (data.take cnt) else ctxt
    if fate ≠ .completes then ⟨-ebusy, data, ctxt⟩
    else if op = .rd then ⟨0, (ctxt qidHw sel).take cnt, ctxt⟩
    else if !verify then ⟨0, data, ctxt⟩
    else if rdFate ≠ .completes then ⟨-ebusy, data, ctxt⟩
    else if data.take cnt ≠ (ctxt qidHw sel).take cnt then ⟨-einval, data, ctxt⟩
    else ⟨0, data, ctxt⟩

/-! ## The words of a queue -/

def sDescCtxtW1FQen : ℕ := 0
def sDescCtxtW1FFcrdEn : ℕ := 1
def sDescCtxtW1FWbiChk : ℕ := 2
def sDescCtxtW1FWbAccEn : ℕ := 3
def sDescCtxtW1FuncId : ℕ := 4
def sDescCtxtW1DscSz : ℕ := 16
def sDescCtxtW1FMmChn : ℕ := 19
def sDescCtxtW1FWbkEn : ℕ := 20
def sDescCtxtW1FIrqEn : ℕ := 21

/-- An `unsigned int` shifted into its place. -/
def ctxtField (n shift : ℕ) : BitVec 32 := BitVec.ofNat 32 n <<< shift

/-- `PCI_DMA_H`. -/
def pciDmaH (addr : BitVec 64) : BitVec 64 := (addr >>> 16) >>> 16

/-- `PCI_DMA_L`. -/
def pciDmaL (addr : BitVec 64) : BitVec 64 := addr &&& 0xffffffff#64

def QdmaDescq.descBus (d : QdmaDescq) : BitVec 64 := (d.desc.map (·.bus)).getD 0

def QdmaDescq.descWrbBus (d : QdmaDescq) : BitVec 64 := (d.descWrb.map (·.bus)).getD 0

/-- Word 1 of `make_sw_context`. -/
def swContextW1 (funcId : ℕ) (d : QdmaDescq) : BitVec 32 :=
  ctxtField 1 sDescCtxtW1FQen ||| ctxtField 1 sDescCtxtW1FWbAccEn |||
    ctxtField 1 sDescCtxtW1FWbiChk ||| ctxtField funcId sDescCtxtW1FuncId |||
    ctxtField 1 sDescCtxtW1FWbkEn ||| ctxtField d.irqEn sDescCtxtW1FIrqEn |||
    (if !d.conf.st then
      ctxtField descSz32B sDescCtxtW1DscSz ||| ctxtField d.channel sDescCtxtW1FMmChn
    else if d.conf.c2h then
      ctxtField 1 sDescCtxtW1FFcrdEn ||| ctxtField descSz8B sDescCtxtW1DscSz
    else ctxtField descSz16B sDescCtxtW1DscSz)

/-- `make_sw_context`; word 0 holds `pidx = 0` and `irq_ack = 0`. -/
def makeSwContext (funcId : ℕ) (d : QdmaDescq) : List (BitVec 32) :=
  [0, swContextW1 funcId d, (pciDmaL d.descBus).setWidth 32, (pciDmaH d.descBus).setWidth 32]

def sPftchW0FncId : ℕ := 5
def mPftchW0FncId : ℕ := 0xFF
def sPftchW0FEnPftch : ℕ := 27
def sPftchW1FValid : ℕ := 13

/-- `make_prefetch_context`. -/
def makePrefetchContext (funcId : ℕ) (d : QdmaDescq) : List (BitVec 32) :=
  [ctxtField (funcId &&& mPftchW0FncId) sPftchW0FncId ||| ctxtField d.prefetchEn sPftchW0FEnPftch,
    ctxtField 1 sPftchW1FValid]

def sWrbCtxtW0FEnStatDesc : ℕ := 0
def sWrbCtxtW0FEnInt : ℕ := 1
def sWrbCtxtW0TrigMode : ℕ := 2
def sWrbCtxtW0FncId : ℕ := 5
def mWrbCtxtW0FncId : ℕ := 0xFF
def sWrbCtxtW0FColor : ℕ := 23
def sWrbCtxtW0Baddr64 : ℕ := 28
def lWrbCtxtW0Baddr64 : ℕ := 4
def sWrbCtxtW2DescSize : ℕ := 22
def sWrbCtxtW3FValid : ℕ := 24

/-- `bus_64` of `make_wrb_context`: the ring address in units of 64 bytes. -/
def wrbBus64 (bus : BitVec 64) : BitVec 64 := (pciDmaH bus <<< 26) ||| (pciDmaL bus >>> 6)

/-- `make_wrb_context`. -/
def makeWrbContext (funcId : ℕ) (d : QdmaDescq) : List (BitVec 32) :=
  let bus64 := wrbBus64 d.descWrbBus
  [ctxtField d.wrbStatDescEn sWrbCtxtW0FEnStatDesc ||| ctxtField d.irqEn sWrbCtxtW0FEnInt |||
      ctxtField d.wrbTrigMode sWrbCtxtW0TrigMode |||
      ctxtField (funcId &&& mWrbCtxtW0FncId) sWrbCtxtW0FncId ||| ctxtField 1 sWrbCtxtW0FColor |||
      (((bus64 &&& 0xF#64).setWidth 32 &&& 0xF#32) <<< sWrbCtxtW0Baddr64),
    ((bus64 >>> lWrbCtxtW0Baddr64) &&& 0xFFFFFFFF#64).setWidth 32,
    (((bus64 >>> (lWrbCtxtW0Baddr64 + 32)) &&& 0x3FFFFF#64).setWidth 32 &&& 0x3FFFFF#32) |||
      ctxtField d.stC2hWrbDescSize sWrbCtxtW2DescSize,
    ctxtField 1 sWrbCtxtW3FValid]

/-! ## Clearing and programming -/

def swSel (c2h : Bool) : IndCtxtCmdSel := if c2h then .swC2h else .swH2c
def hwSel (c2h : Bool) : IndCtxtCmdSel := if c2h then .hwC2h else .hwH2c
def crSel (c2h : Bool) : IndCtxtCmdSel := if c2h then .crC2h else .crH2c

/-- `if (rv < 0) return rv;` after a command. -/
def ctxtThen (r : CtxtRes) (next : CtxtStore → ℤ × CtxtStore) : ℤ × CtxtStore :=
  if r.rv < 0 then (r.rv, r.ctxt) else next r.ctxt

/-- `qdma_descq_context_clear`.  The prefetch context of a streaming C2H queue is
written with zeros instead of cleared. -/
def qdmaDescqContextClear (f : ℕ → CmdFate) (ctxt : CtxtStore) (qidHw : ℕ) (st c2h : Bool) :
    ℤ × CtxtStore :=
  ctxtThen (hwIndirectCtextProg (f 0) .completes ctxt qidHw .clr (swSel c2h) [] 0 false) fun ctxt =>
  ctxtThen (hwIndirectCtextProg (f 1) .completes ctxt qidHw .clr (hwSel c2h) [] 0 false) fun ctxt =>
  ctxtThen (hwIndirectCtextProg (f 2) .completes ctxt qidHw .clr (crSel c2h) [] 0 false) fun ctxt =>
  if st && c2h then
    ctxtThen (hwIndirectCtextProg (f 3) (f 4) ctxt qidHw .wr .pftch ctxtZero 4 true) fun ctxt =>
    ctxtThen (hwIndirectCtextProg (f 5) .completes ctxt qidHw .clr .wrb [] 0 false) fun ctxt =>
    (0, ctxt)
  else (0, ctxt)

/-- The fates of the commands of a setup: of the clear it starts with, of the
clear made again by `qdma_descq_context_program`, and of the writes. -/
structure SetupFates where
  clear : ℕ → CmdFate
  clearAgain : ℕ → CmdFate
  write : ℕ → CmdFate

/-- `struct hw_descq_context`, the parts the driver writes. -/
structure HwDescqContext where
  sw : List (BitVec 32)
  prefetch : List (BitVec 32)
  wrb : List (BitVec 32)

/-- `qdma_descq_context_program`. -/
def qdmaDescqContextProgram (clear write : ℕ → CmdFate) (ctxt : CtxtStore) (qidHw : ℕ)
    (st c2h : Bool) (context : HwDescqContext) : ℤ × CtxtStore :=
  let r := qdmaDescqContextClear clear ctxt qidHw st c2h
  if r.1 < 0 then r
  else
    ctxtThen (hwIndirectCtextProg (write 0) (write 1) r.2 qidHw .wr (swSel c2h) context.sw 4 true)
      fun ctxt =>
    if !st || !c2h then (0, ctxt)
    else
      ctxtThen (hwIndirectCtextProg (write 2) (write 3) ctxt qidHw .wr .pftch context.prefetch 2 true)
        fun ctxt =>
      ctxtThen (hwIndirectCtextProg (write 4) (write 5) ctxt qidHw .wr .wrb context.wrb 4 true)
        fun ctxt => (0, ctxt)

/-- The words `qdma_descq_context_setup` programs. -/
def QdmaDescq.hwContext (funcId : ℕ) (d : QdmaDescq) : HwDescqContext where
  sw := makeSwContext funcId d
  prefetch := if d.isStC2h then makePrefetchContext funcId d else []
  wrb := if d.isStC2h then makeWrbContext funcId d else []

/-- `hw_prog_qid2vec`: the new value of a queue's vector map register. -/
def hwProgQid2vec (v : BitVec 32) (c2h : Bool) (intrId : ℕ) (intrCoalEn : Bool) : BitVec 32 :=
  let shift := if c2h then 0 else 9
  let coalShift := if c2h then 8 else 18
  let v := (v &&& ~~~ctxtField 0xFF shift) ||| ctxtField intrId shift
  if intrCoalEn then v ||| ctxtField 1 coalShift else v

/-- The context commands of `qdma_descq_context_setup`; the vector map
(`hw_prog_qid2vec`) is a register of its own. -/
def qdmaDescqContextSetup (f : SetupFates) (ctxt : CtxtStore) (funcId : ℕ) (d : QdmaDescq) :
    ℤ × CtxtStore :=
  let r := qdmaDescqContextClear f.clear ctxt d.qidxHw d.conf.st d.conf.c2h
  if r.1 < 0 then r
  else
    qdmaDescqContextProgram f.clearAgain f.write r.2 d.qidxHw d.conf.st d.conf.c2h
      (d.hwContext funcId)

/-! ## One command -/

theorem command_of_ne (ctxt : CtxtStore) {qidHw q : ℕ} {sel s : IndCtxtCmdSel}
    (op : IndCtxtCmdOp) (data : List (BitVec 32)) (h : q = qidHw → s ≠ sel) :
    ctxt.command qidHw op sel data q s = ctxt q s := by
  cases op with
  | clr => exact ctxt.set_of_ne _ h
  | wr => exact ctxt.set_of_ne _ h
  | rd => rfl

/-- A command has its effect on the store or none. -/
theorem ctextProg_ctxt (fate rdFate : CmdFate) (ctxt : CtxtStore) (qidHw : ℕ) (op : IndCtxtCmdOp)
    (sel : IndCtxtCmdSel) (data : List (BitVec 32)) (cnt : ℕ) (verify : Bool) :
    (hwIndirectCtextProg fate rdFate ctxt qidHw op sel data cnt verify).ctxt = ctxt ∨
      fate.applied = true ∧
        (hwIndirectCtextProg fate rdFate ctxt qidHw op sel data cnt verify).ctxt =
          ctxt.command qidHw op sel (data.take cnt) := by
  unfold hwIndirectCtextProg
  split
  · exact Or.inl rfl
  · dsimp only
    cases happ : fate.applied with
    | false =>
        left
        simp only [Bool.false_eq_true, if_false]
        split_ifs <;> rfl
    | true =>
        right
        simp only [if_true]
        split_ifs <;> exact ⟨trivial, rfl⟩

/-- A command leaves every other context alone. -/
theorem ctextProg_of_ne (fate rdFate : CmdFate) (ctxt : CtxtStore) {qidHw q : ℕ}
    (op : IndCtxtCmdOp) {sel s : IndCtxtCmdSel} (data : List (BitVec 32)) (cnt : ℕ)
    (verify : Bool) (h : q = qidHw → s ≠ sel) :
    (hwIndirectCtextProg fate rdFate ctxt qidHw op sel data cnt verify).ctxt q s = ctxt q s := by
  obtain hsame | ⟨-, heff⟩ := ctextProg_ctxt fate rdFate ctxt qidHw op sel data cnt verify
  · rw [hsame]
  · rw [heff, command_of_ne ctxt op _ h]

/-- Without effect a command changes nothing at all. -/
theorem ctextProg_of_not_applied {fate : CmdFate} (rdFate : CmdFate) (ctxt : CtxtStore) (qidHw : ℕ)
    (op : IndCtxtCmdOp) (sel : IndCtxtCmdSel) (data : List (BitVec 32)) (cnt : ℕ) (verify : Bool)
    (h : fate.applied = false) :
    (hwIndirectCtextProg fate rdFate ctxt qidHw op sel data cnt verify).ctxt = ctxt := by
  obtain hsame | ⟨happ, -⟩ := ctextProg_ctxt fate rdFate ctxt qidHw op sel data cnt verify
  · exact hsame
  · rw [h] at happ
    cases happ

/-- A clear that took effect, whether or not the driver saw it complete. -/
theorem ctextProg_clr {fate : CmdFate} (rdFate : CmdFate) (ctxt : CtxtStore) (qidHw : ℕ)
    (sel : IndCtxtCmdSel) (h : fate.applied = true) :
    (hwIndirectCtextProg fate rdFate ctxt qidHw .clr sel [] 0 false).ctxt =
      ctxt.set qidHw sel ctxtZero := by
  unfold hwIndirectCtextProg
  rw [h, if_neg (by simp)]
  simp only [if_true]
  split_ifs <;> rfl

/-- A write that the driver saw succeed. -/
theorem ctextProg_wr {fate rdFate : CmdFate} {ctxt : CtxtStore} {qidHw : ℕ} {sel : IndCtxtCmdSel}
    {data : List (BitVec 32)} {cnt : ℕ} {verify : Bool}
    (h : ¬ (hwIndirectCtextProg fate rdFate ctxt qidHw .wr sel data cnt verify).rv < 0) :
    (hwIndirectCtextProg fate rdFate ctxt qidHw .wr sel data cnt verify).ctxt =
      ctxt.set qidHw sel (ctxtData (data.take cnt)) := by
  unfold hwIndirectCtextProg at h ⊢
  by_cases hargs : cnt = 0 ∨ qdmaRegIndCtxtRegCount < cnt ∨ data = []
  · rw [if_pos ⟨Or.inl rfl, hargs⟩] at h
    exact absurd (show -einval < 0 by decide) h
  · rw [if_neg (fun hc => hargs hc.2)] at h ⊢
    cases fate with
    | timesOut applied =>
        rw [if_pos (by simp)] at h
        exact absurd (show -ebusy < 0 by decide) h
    | completes =>
        rw [show CmdFate.completes.applied = true from rfl]
        simp only [if_true]
        split_ifs <;> rfl

/-! ## Sequences of commands -/

/-- Words that the first command puts in place and the rest keep are there at the
end, also when the sequence is cut short. -/
theorem ctxtThen_keeps {q : ℕ} {s : IndCtxtCmdSel} {words : List (BitVec 32)} {r : CtxtRes}
    {next : CtxtStore → ℤ × CtxtStore} (hr : r.ctxt q s = words)
    (hnext : ∀ ctxt : CtxtStore, ctxt q s = words → (next ctxt).2 q s = words) :
    (ctxtThen r next).2 q s = words := by
  unfold ctxtThen
  split
  · exact hr
  · exact hnext _ hr

/-- A sequence that succeeds has made its first step. -/
theorem ctxtThen_ok {r : CtxtRes} {next : CtxtStore → ℤ × CtxtStore}
    (h : ¬ (ctxtThen r next).1 < 0) : ¬ r.rv < 0 ∧ ctxtThen r next = next r.ctxt := by
  unfold ctxtThen at h ⊢
  by_cases hr : r.rv < 0
  · rw [if_pos hr] at h
    exact absurd hr h
  · exact ⟨hr, if_neg hr⟩

/-- The contexts a queue of this kind owns. -/
def OwnSel (st c2h : Bool) (s : IndCtxtCmdSel) : Prop :=
  s = swSel c2h ∨ s = hwSel c2h ∨ s = crSel c2h ∨
    ((st && c2h) = true ∧ (s = .pftch ∨ s = .wrb))

/-- Clearing a queue's contexts leaves every other context alone. -/
theorem contextClear_frame (f : ℕ → CmdFate) (ctxt : CtxtStore) {qidHw q : ℕ} {st c2h : Bool}
    {s : IndCtxtCmdSel} (h : q = qidHw → ¬ OwnSel st c2h s) :
    (qdmaDescqContextClear f ctxt qidHw st c2h).2 q s = ctxt q s := by
  have hne : ∀ sel, OwnSel st c2h sel → q = qidHw → s ≠ sel := by
    intro sel hown hq hs
    exact h hq (hs ▸ hown)
  have hsw := hne (swSel c2h) (Or.inl rfl)
  have hhw := hne (hwSel c2h) (Or.inr (Or.inl rfl))
  have hcr := hne (crSel c2h) (Or.inr (Or.inr (Or.inl rfl)))
  unfold qdmaDescqContextClear
  refine ctxtThen_keeps (ctextProg_of_ne _ _ _ _ _ _ _ hsw) ?_
  intro c₁ h₁
  refine ctxtThen_keeps ((ctextProg_of_ne _ _ _ _ _ _ _ hhw).trans h₁) ?_
  intro c₂ h₂
  refine ctxtThen_keeps ((ctextProg_of_ne _ _ _ _ _ _ _ hcr).trans h₂) ?_
  intro c₃ h₃
  split
  · rename_i hst
    have hpf := hne .pftch (Or.inr (Or.inr (Or.inr ⟨hst, Or.inl rfl⟩)))
    have hwrb := hne .wrb (Or.inr (Or.inr (Or.inr ⟨hst, Or.inr rfl⟩)))
    refine ctxtThen_keeps ((ctextProg_of_ne _ _ _ _ _ _ _ hpf).trans h₃) ?_
    intro c₄ h₄
    exact ctxtThen_keeps ((ctextProg_of_ne _ _ _ _ _ _ _ hwrb).trans h₄) fun _ h₅ => h₅
  · exact h₃

theorem swSel_ne_hwSel (c2h c2h' : Bool) : swSel c2h ≠ hwSel c2h' := by
  cases c2h <;> cases c2h' <;> decide

theorem swSel_ne_crSel (c2h c2h' : Bool) : swSel c2h ≠ crSel c2h' := by
  cases c2h <;> cases c2h' <;> decide

theorem swSel_ne_pftch (c2h : Bool) : swSel c2h ≠ .pftch := by cases c2h <;> decide

theorem swSel_ne_wrb (c2h : Bool) : swSel c2h ≠ .wrb := by cases c2h <;> decide

/-- The commands of a clear after the first do not touch the SW context. -/
theorem contextClear_sw (f : ℕ → CmdFate) (ctxt : CtxtStore) (qidHw : ℕ) (st c2h : Bool) :
    (qdmaDescqContextClear f ctxt qidHw st c2h).2 qidHw (swSel c2h) =
      if (f 0).applied then ctxtZero else ctxt qidHw (swSel c2h) := by
  have hfirst : (hwIndirectCtextProg (f 0) .completes ctxt qidHw .clr (swSel c2h) [] 0 false).ctxt
      qidHw (swSel c2h) = if (f 0).applied then ctxtZero else ctxt qidHw (swSel c2h) := by
    cases hf : (f 0).applied with
    | false => rw [ctextProg_of_not_applied _ _ _ _ _ _ _ _ hf]; rfl
    | true => rw [ctextProg_clr _ _ _ _ hf, CtxtStore.set_self]; rfl
  unfold qdmaDescqContextClear
  refine ctxtThen_keeps hfirst ?_
  intro c₁ h₁
  refine ctxtThen_keeps
    ((ctextProg_of_ne _ _ _ _ _ _ _ fun _ => swSel_ne_hwSel c2h c2h).trans h₁) ?_
  intro c₂ h₂
  refine ctxtThen_keeps
    ((ctextProg_of_ne _ _ _ _ _ _ _ fun _ => swSel_ne_crSel c2h c2h).trans h₂) ?_
  intro c₃ h₃
  split
  · refine ctxtThen_keeps
      ((ctextProg_of_ne _ _ _ _ _ _ _ fun _ => swSel_ne_pftch c2h).trans h₃) ?_
    intro c₄ h₄
    exact ctxtThen_keeps
      ((ctextProg_of_ne _ _ _ _ _ _ _ fun _ => swSel_ne_wrb c2h).trans h₄) fun _ h₅ => h₅
  · exact h₃

/-- Programming a queue's contexts leaves every other context alone. -/
theorem contextProgram_frame (clear write : ℕ → CmdFate) (ctxt : CtxtStore) {qidHw q : ℕ}
    {st c2h : Bool} (context : HwDescqContext) {s : IndCtxtCmdSel}
    (h : q = qidHw → ¬ OwnSel st c2h s) :
    (qdmaDescqContextProgram clear write ctxt qidHw st c2h context).2 q s = ctxt q s := by
  have hne : ∀ sel, OwnSel st c2h sel → q = qidHw → s ≠ sel := by
    intro sel hown hq hs
    exact h hq (hs ▸ hown)
  have hclear := contextClear_frame clear ctxt h
  unfold qdmaDescqContextProgram
  dsimp only
  split
  · exact hclear
  · refine ctxtThen_keeps
      ((ctextProg_of_ne _ _ _ _ _ _ _ (hne (swSel c2h) (Or.inl rfl))).trans hclear) ?_
    intro c₁ h₁
    split
    · exact h₁
    · rename_i hst
      have hst : (st && c2h) = true := by
        cases st <;> cases c2h <;> simp_all
      have hpf := hne .pftch (Or.inr (Or.inr (Or.inr ⟨hst, Or.inl rfl⟩)))
      have hwrb := hne .wrb (Or.inr (Or.inr (Or.inr ⟨hst, Or.inr rfl⟩)))
      refine ctxtThen_keeps ((ctextProg_of_ne _ _ _ _ _ _ _ hpf).trans h₁) ?_
      intro c₂ h₂
      exact ctxtThen_keeps ((ctextProg_of_ne _ _ _ _ _ _ _ hwrb).trans h₂) fun _ h₃ => h₃

/-- A setup leaves the contexts of other queues alone. -/
theorem contextSetup_frame (f : SetupFates) (ctxt : CtxtStore) (funcId : ℕ) (d : QdmaDescq)
    {q : ℕ} {s : IndCtxtCmdSel} (h : q = d.qidxHw → ¬ OwnSel d.conf.st d.conf.c2h s) :
    (qdmaDescqContextSetup f ctxt funcId d).2 q s = ctxt q s := by
  have hclear := contextClear_frame f.clear ctxt h
  unfold qdmaDescqContextSetup
  dsimp only
  split
  · exact hclear
  · exact (contextProgram_frame _ _ _ _ h).trans hclear

/-- If the write of the SW context has no effect, a programming leaves it as it
was or zero. -/
theorem contextProgram_sw_of_not_applied (clear write : ℕ → CmdFate) (ctxt : CtxtStore)
    (qidHw : ℕ) (st c2h : Bool) (context : HwDescqContext) (h : (write 0).applied = false) :
    (qdmaDescqContextProgram clear write ctxt qidHw st c2h context).2 qidHw (swSel c2h) =
      if (clear 0).applied then ctxtZero else ctxt qidHw (swSel c2h) := by
  have hclear := contextClear_sw clear ctxt qidHw st c2h
  unfold qdmaDescqContextProgram
  dsimp only
  split
  · exact hclear
  · refine ctxtThen_keeps ?_ ?_
    · rw [ctextProg_of_not_applied _ _ _ _ _ _ _ _ h]
      exact hclear
    · intro c₁ h₁
      split
      · exact h₁
      · refine ctxtThen_keeps
          ((ctextProg_of_ne _ _ _ _ _ _ _ fun _ => swSel_ne_pftch c2h).trans h₁) ?_
        intro c₂ h₂
        exact ctxtThen_keeps
          ((ctextProg_of_ne _ _ _ _ _ _ _ fun _ => swSel_ne_wrb c2h).trans h₂) fun _ h₃ => h₃

/-- The same for a whole setup. -/
theorem contextSetup_sw_of_not_applied (f : SetupFates) (ctxt : CtxtStore) (funcId : ℕ)
    (d : QdmaDescq) (h : (f.write 0).applied = false) :
    (qdmaDescqContextSetup f ctxt funcId d).2 d.qidxHw (swSel d.conf.c2h) = ctxtZero ∨
      (qdmaDescqContextSetup f ctxt funcId d).2 d.qidxHw (swSel d.conf.c2h) =
        ctxt d.qidxHw (swSel d.conf.c2h) := by
  have hclear := contextClear_sw f.clear ctxt d.qidxHw d.conf.st d.conf.c2h
  unfold qdmaDescqContextSetup
  dsimp only
  split
  · rw [hclear]
    split
    · exact Or.inl rfl
    · exact Or.inr rfl
  · rw [contextProgram_sw_of_not_applied _ _ _ _ _ _ _ h, hclear]
    split_ifs <;> simp

/-- **What a programming that succeeded leaves behind.** -/
theorem contextProgram_ok {clear write : ℕ → CmdFate} {ctxt : CtxtStore} {qidHw : ℕ}
    {st c2h : Bool} {context : HwDescqContext}
    (h : ¬ (qdmaDescqContextProgram clear write ctxt qidHw st c2h context).1 < 0) :
    (qdmaDescqContextProgram clear write ctxt qidHw st c2h context).2 qidHw (swSel c2h) =
        ctxtData (context.sw.take 4) ∧
      ((st && c2h) = true →
        (qdmaDescqContextProgram clear write ctxt qidHw st c2h context).2 qidHw .pftch =
            ctxtData (context.prefetch.take 2) ∧
          (qdmaDescqContextProgram clear write ctxt qidHw st c2h context).2 qidHw .wrb =
            ctxtData (context.wrb.take 4)) := by
  unfold qdmaDescqContextProgram at h ⊢
  dsimp only at h ⊢
  split at h
  · rename_i hneg
    exact absurd hneg h
  · rename_i hnn
    rw [if_neg hnn]
    obtain ⟨hsw, heq⟩ := ctxtThen_ok h
    rw [heq] at h ⊢
    rw [ctextProg_wr hsw] at h ⊢
    split at h
    · rename_i hst
      rw [if_pos hst]
      refine ⟨CtxtStore.set_self _ _ _ _, ?_⟩
      cases st <;> cases c2h <;> simp_all
    · rename_i hst
      rw [if_neg hst]
      obtain ⟨hpf, heq⟩ := ctxtThen_ok h
      rw [heq] at h ⊢
      rw [ctextProg_wr hpf] at h ⊢
      obtain ⟨hwrb, heq⟩ := ctxtThen_ok h
      rw [heq, ctextProg_wr hwrb]
      dsimp only
      refine ⟨?_, fun _ => ⟨?_, CtxtStore.set_self _ _ _ _⟩⟩
      · rw [CtxtStore.set_of_ne _ _ fun _ => swSel_ne_wrb c2h,
          CtxtStore.set_of_ne _ _ fun _ => swSel_ne_pftch c2h, CtxtStore.set_self]
      · rw [CtxtStore.set_of_ne _ _ fun _ => by decide, CtxtStore.set_self]

/-- A clear that the driver saw succeed. -/
theorem ctextProg_clr_ok {fate rdFate : CmdFate} {ctxt : CtxtStore} {qidHw : ℕ}
    {sel : IndCtxtCmdSel}
    (h : ¬ (hwIndirectCtextProg fate rdFate ctxt qidHw .clr sel [] 0 false).rv < 0) :
    (hwIndirectCtextProg fate rdFate ctxt qidHw .clr sel [] 0 false).ctxt =
      ctxt.set qidHw sel ctxtZero := by
  cases fate with
  | completes => rfl
  | timesOut applied => exact absurd (show -ebusy < 0 by decide) h

theorem hwSel_ne_crSel (c2h c2h' : Bool) : hwSel c2h ≠ crSel c2h' := by
  cases c2h <;> cases c2h' <;> decide

theorem hwSel_ne_pftch (c2h : Bool) : hwSel c2h ≠ .pftch := by cases c2h <;> decide

theorem hwSel_ne_wrb (c2h : Bool) : hwSel c2h ≠ .wrb := by cases c2h <;> decide

theorem crSel_ne_pftch (c2h : Bool) : crSel c2h ≠ .pftch := by cases c2h <;> decide

theorem crSel_ne_wrb (c2h : Bool) : crSel c2h ≠ .wrb := by cases c2h <;> decide

/-- The HW and credit contexts are zero after a clear that succeeded. -/
theorem contextClear_ok {f : ℕ → CmdFate} {ctxt : CtxtStore} {qidHw : ℕ} {st c2h : Bool}
    (h : ¬ (qdmaDescqContextClear f ctxt qidHw st c2h).1 < 0) :
    (qdmaDescqContextClear f ctxt qidHw st c2h).2 qidHw (hwSel c2h) = ctxtZero ∧
      (qdmaDescqContextClear f ctxt qidHw st c2h).2 qidHw (crSel c2h) = ctxtZero := by
  unfold qdmaDescqContextClear at h ⊢
  obtain ⟨hsw, heq⟩ := ctxtThen_ok h
  rw [heq] at h ⊢
  obtain ⟨hhw, heq⟩ := ctxtThen_ok h
  rw [heq] at h ⊢
  obtain ⟨hcr, heq⟩ := ctxtThen_ok h
  rw [heq, ctextProg_clr_ok hcr, ctextProg_clr_ok hhw]
  have hzero : ∀ s, s = hwSel c2h ∨ s = crSel c2h →
      (((hwIndirectCtextProg (f 0) .completes ctxt qidHw .clr (swSel c2h) [] 0 false).ctxt.set
        qidHw (hwSel c2h) ctxtZero).set qidHw (crSel c2h) ctxtZero) qidHw s = ctxtZero := by
    rintro s (rfl | rfl)
    · rw [CtxtStore.set_of_ne _ _ fun _ => hwSel_ne_crSel c2h c2h, CtxtStore.set_self]
    · rw [CtxtStore.set_self]
  split
  · refine ⟨ctxtThen_keeps ?_ fun c₁ h₁ => ctxtThen_keeps ?_ fun _ h₂ => h₂,
      ctxtThen_keeps ?_ fun c₁ h₁ => ctxtThen_keeps ?_ fun _ h₂ => h₂⟩
    · exact (ctextProg_of_ne _ _ _ _ _ _ _ fun _ => hwSel_ne_pftch c2h).trans
        (hzero _ (Or.inl rfl))
    · exact (ctextProg_of_ne _ _ _ _ _ _ _ fun _ => hwSel_ne_wrb c2h).trans h₁
    · exact (ctextProg_of_ne _ _ _ _ _ _ _ fun _ => crSel_ne_pftch c2h).trans
        (hzero _ (Or.inr rfl))
    · exact (ctextProg_of_ne _ _ _ _ _ _ _ fun _ => crSel_ne_wrb c2h).trans h₁
  · exact ⟨hzero _ (Or.inl rfl), hzero _ (Or.inr rfl)⟩

/-- They stay zero when the queue is programmed. -/
theorem contextProgram_ok_zero {clear write : ℕ → CmdFate} {ctxt : CtxtStore} {qidHw : ℕ}
    {st c2h : Bool} {context : HwDescqContext}
    (h : ¬ (qdmaDescqContextProgram clear write ctxt qidHw st c2h context).1 < 0) :
    (qdmaDescqContextProgram clear write ctxt qidHw st c2h context).2 qidHw (hwSel c2h) =
        ctxtZero ∧
      (qdmaDescqContextProgram clear write ctxt qidHw st c2h context).2 qidHw (crSel c2h) =
        ctxtZero := by
  have hkeep : ∀ s, s ≠ swSel c2h → s ≠ .pftch → s ≠ .wrb →
      (qdmaDescqContextClear clear ctxt qidHw st c2h).2 qidHw s = ctxtZero →
      (qdmaDescqContextProgram clear write ctxt qidHw st c2h context).2 qidHw s = ctxtZero := by
    intro s hsw hpf hwrb hs
    unfold qdmaDescqContextProgram
    dsimp only
    split
    · exact hs
    · refine ctxtThen_keeps ((ctextProg_of_ne _ _ _ _ _ _ _ fun _ => hsw).trans hs) ?_
      intro c₁ h₁
      split
      · exact h₁
      · refine ctxtThen_keeps ((ctextProg_of_ne _ _ _ _ _ _ _ fun _ => hpf).trans h₁) ?_
        intro c₂ h₂
        exact ctxtThen_keeps ((ctextProg_of_ne _ _ _ _ _ _ _ fun _ => hwrb).trans h₂)
          fun _ h₃ => h₃
  have hclear : ¬ (qdmaDescqContextClear clear ctxt qidHw st c2h).1 < 0 := by
    intro hneg
    unfold qdmaDescqContextProgram at h
    dsimp only at h
    rw [if_pos hneg] at h
    exact h hneg
  obtain ⟨hhw, hcr⟩ := contextClear_ok hclear
  exact ⟨hkeep _ (Ne.symm (swSel_ne_hwSel c2h c2h)) (hwSel_ne_pftch c2h) (hwSel_ne_wrb c2h) hhw,
    hkeep _ (Ne.symm (swSel_ne_crSel c2h c2h)) (crSel_ne_pftch c2h) (crSel_ne_wrb c2h) hcr⟩

/-- A setup that succeeded ends with a programming that succeeded. -/
theorem contextSetup_ok {f : SetupFates} {ctxt : CtxtStore} {funcId : ℕ} {d : QdmaDescq}
    (h : ¬ (qdmaDescqContextSetup f ctxt funcId d).1 < 0) :
    (qdmaDescqContextSetup f ctxt funcId d).2 d.qidxHw (swSel d.conf.c2h) =
        makeSwContext funcId d ∧
      (d.isStC2h = true →
        (qdmaDescqContextSetup f ctxt funcId d).2 d.qidxHw .wrb = makeWrbContext funcId d) := by
  unfold qdmaDescqContextSetup at h ⊢
  dsimp only at h ⊢
  split at h
  · rename_i hneg
    exact absurd hneg h
  · rename_i hnn
    rw [if_neg hnn]
    obtain ⟨hsw, hst⟩ := contextProgram_ok h
    refine ⟨hsw, ?_⟩
    intro hc2h
    obtain ⟨-, hwrb⟩ := hst hc2h
    have hmade : (d.hwContext funcId).wrb = makeWrbContext funcId d := if_pos hc2h
    rw [hwrb, hmade]
    rfl

/-! ## Commands that complete -/

/-- No command of a setup times out. -/
structure SetupFates.Completes (f : SetupFates) : Prop where
  clear : ∀ i, f.clear i = .completes
  clearAgain : ∀ i, f.clearAgain i = .completes
  write : ∀ i, f.write i = .completes

theorem ctextProg_clr_completes (rdFate : CmdFate) (ctxt : CtxtStore) (qidHw : ℕ)
    (sel : IndCtxtCmdSel) :
    (hwIndirectCtextProg .completes rdFate ctxt qidHw .clr sel [] 0 false).rv = 0 := rfl

theorem ctextProg_wr_completes (ctxt : CtxtStore) (qidHw : ℕ) (sel : IndCtxtCmdSel)
    {data : List (BitVec 32)} {cnt : ℕ} (hcnt : cnt ≠ 0) (hle : cnt ≤ qdmaRegIndCtxtRegCount)
    (hlen : data.length = cnt) :
    (hwIndirectCtextProg .completes .completes ctxt qidHw .wr sel data cnt true).rv = 0 := by
  have hne : data ≠ [] := by
    rintro rfl
    exact hcnt hlen.symm
  have hread : (ctxtData (data.take cnt)).take cnt = data.take cnt := by
    rw [ctxtData_take hlen hle, List.take_of_length_le (le_of_eq hlen)]
  unfold hwIndirectCtextProg
  rw [if_neg (fun hc => by
    obtain hz | hlt | hnil := hc.2
    · exact hcnt hz
    · exact absurd hlt (Nat.not_lt.mpr hle)
    · exact hne hnil)]
  have hstore : (ctxt.command qidHw .wr sel (data.take cnt) qidHw sel).take cnt = data.take cnt := by
    rw [show ctxt.command qidHw .wr sel (data.take cnt) =
      ctxt.set qidHw sel (ctxtData (data.take cnt)) from rfl, CtxtStore.set_self, hread]
  simp [CmdFate.applied, hstore]

theorem ctxtThen_zero {r : CtxtRes} {next : CtxtStore → ℤ × CtxtStore} (hr : r.rv = 0)
    (hnext : (next r.ctxt).1 = 0) : (ctxtThen r next).1 = 0 := by
  unfold ctxtThen
  rw [if_neg (by omega)]
  exact hnext

theorem contextClear_completes {f : ℕ → CmdFate} (hf : ∀ i, f i = .completes) (ctxt : CtxtStore)
    (qidHw : ℕ) (st c2h : Bool) : (qdmaDescqContextClear f ctxt qidHw st c2h).1 = 0 := by
  unfold qdmaDescqContextClear
  simp only [hf]
  refine ctxtThen_zero (ctextProg_clr_completes _ _ _ _) ?_
  refine ctxtThen_zero (ctextProg_clr_completes _ _ _ _) ?_
  refine ctxtThen_zero (ctextProg_clr_completes _ _ _ _) ?_
  split
  · refine ctxtThen_zero (ctextProg_wr_completes _ _ _ (by decide) (by decide) rfl) ?_
    exact ctxtThen_zero (ctextProg_clr_completes _ _ _ _) rfl
  · rfl

/-- The words of a queue of this kind, each context complete. -/
structure HwDescqContext.Fits (context : HwDescqContext) (st c2h : Bool) : Prop where
  sw : context.sw.length = 4
  prefetch : (st && c2h) = true → context.prefetch.length = 2
  wrb : (st && c2h) = true → context.wrb.length = 4

theorem contextProgram_completes {clear write : ℕ → CmdFate} (hclear : ∀ i, clear i = .completes)
    (hwrite : ∀ i, write i = .completes) (ctxt : CtxtStore) (qidHw : ℕ) {st c2h : Bool}
    {context : HwDescqContext} (hfits : context.Fits st c2h) :
    (qdmaDescqContextProgram clear write ctxt qidHw st c2h context).1 = 0 := by
  unfold qdmaDescqContextProgram
  dsimp only
  rw [contextClear_completes hclear, if_neg (lt_irrefl 0)]
  simp only [hwrite]
  refine ctxtThen_zero (ctextProg_wr_completes _ _ _ (by decide) (by decide) hfits.sw) ?_
  split
  · rfl
  · rename_i hst
    have hst : (st && c2h) = true := by
      cases st <;> cases c2h <;> simp_all
    refine ctxtThen_zero
      (ctextProg_wr_completes _ _ _ (by decide) (by decide) (hfits.prefetch hst)) ?_
    exact ctxtThen_zero (ctextProg_wr_completes _ _ _ (by decide) (by decide) (hfits.wrb hst)) rfl

theorem hwContext_fits (funcId : ℕ) (d : QdmaDescq) :
    (d.hwContext funcId).Fits d.conf.st d.conf.c2h where
  sw := rfl
  prefetch hst := by
    unfold QdmaDescq.hwContext
    dsimp only
    rw [if_pos (show d.isStC2h = true from hst)]
    rfl
  wrb hst := by
    unfold QdmaDescq.hwContext
    dsimp only
    rw [if_pos (show d.isStC2h = true from hst)]
    rfl

/-- A setup whose commands all complete succeeds: what is read back is what was
written. -/
theorem contextSetup_completes {f : SetupFates} (hf : f.Completes) (ctxt : CtxtStore) (funcId : ℕ)
    (d : QdmaDescq) : (qdmaDescqContextSetup f ctxt funcId d).1 = 0 := by
  unfold qdmaDescqContextSetup
  dsimp only
  rw [contextClear_completes hf.clear, if_neg (lt_irrefl 0)]
  exact contextProgram_completes hf.clearAgain hf.write _ _ (hwContext_fits funcId d)

/-! ## Reading the words -/

/-- `QEN`: the queue is enabled. -/
def ctxtQen (words : List (BitVec 32)) : Bool := (words.getD 1 0).getLsbD sDescCtxtW1FQen

/-- The ring address an SW context holds. -/
def ctxtDescBus (words : List (BitVec 32)) : BitVec 64 := words.getD 3 0 ++ words.getD 2 0

/-- The ring address a writeback context holds, in units of 64 bytes. -/
def ctxtWrbBus64 (words : List (BitVec 32)) : BitVec 58 :=
  (words.getD 2 0).setWidth 22 ++ words.getD 1 0 ++ (words.getD 0 0 >>> sWrbCtxtW0Baddr64).setWidth 4

@[simp] theorem ctxtQen_zero : ctxtQen ctxtZero = false := rfl

/-- The bits of a mask of `k` ones. -/
theorem getLsbD_mask (w k i : ℕ) :
    (BitVec.ofNat w (2 ^ k - 1)).getLsbD i = (decide (i < w) && decide (i < k)) := by
  rw [BitVec.getLsbD_ofNat, Nat.testBit_two_pow_sub_one]

/-- The two halves of an address put together again. -/
theorem pciDmaH_append_pciDmaL (bus : BitVec 64) :
    (pciDmaH bus).setWidth 32 ++ (pciDmaL bus).setWidth 32 = bus := by
  apply BitVec.eq_of_getLsbD_eq
  intro i hi
  have hmask := getLsbD_mask 64 32 i
  simp only [pciDmaH, pciDmaL, BitVec.getLsbD_append, BitVec.getLsbD_setWidth,
    BitVec.getLsbD_and, BitVec.getLsbD_ushiftRight]
  by_cases h : i < 32
  · have hone : (0xffffffff#64).getLsbD i = true := by simpa [hi, h] using hmask
    simp [h, hone]
  · have hback : 16 + (16 + (i - 32)) = i := by omega
    simp [h, hback, show i - 32 < 32 by omega]

theorem ctxtDescBus_makeSwContext (funcId : ℕ) (d : QdmaDescq) :
    ctxtDescBus (makeSwContext funcId d) = d.descBus := pciDmaH_append_pciDmaL d.descBus

theorem wrbBus64_eq (bus : BitVec 64) : wrbBus64 bus = bus >>> 6 := by
  apply BitVec.eq_of_getLsbD_eq
  intro i hi
  have hmask := getLsbD_mask 64 32 (6 + i)
  simp only [wrbBus64, pciDmaH, pciDmaL, BitVec.getLsbD_or, BitVec.getLsbD_shiftLeft,
    BitVec.getLsbD_and, BitVec.getLsbD_ushiftRight]
  by_cases h : i < 26
  · have hone : (0xffffffff#64).getLsbD (6 + i) = true := by
      simpa [show 6 + i < 64 by omega, show 6 + i < 32 by omega] using hmask
    simp [h, hone]
  · have hzero : (0xffffffff#64).getLsbD (6 + i) = false := by
      simpa [show ¬ 6 + i < 32 by omega] using hmask
    have hback : 16 + (16 + (i - 26)) = 6 + i := by omega
    simp [h, hi, hzero, hback]

/-- A field of `k` bits does not reach beyond its place. -/
theorem ctxtField_high {n k shift i : ℕ} (hn : n < 2 ^ k) (hi : k + shift ≤ i) :
    (ctxtField n shift).getLsbD i = false := by
  have hbit : n.testBit (i - shift) = false :=
    Nat.testBit_lt_two_pow (lt_of_lt_of_le hn (Nat.pow_le_pow_right (by decide) (by omega)))
  rw [ctxtField, BitVec.getLsbD_shiftLeft, BitVec.getLsbD_ofNat, hbit]
  simp

theorem ctxtField_low {n shift i : ℕ} (hi : i < shift) : (ctxtField n shift).getLsbD i = false := by
  rw [ctxtField, BitVec.getLsbD_shiftLeft]
  simp [hi]

/-- The values `qdma_descq_config` gives the flags of a writeback context fit
their fields. -/
structure QdmaDescq.FlagsFit (d : QdmaDescq) : Prop where
  irqEn : d.irqEn < 2 ^ 1
  wrbStatDescEn : d.wrbStatDescEn < 2 ^ 1
  wrbTrigMode : d.wrbTrigMode < 2 ^ 3

theorem wrbContext_w0 (funcId : ℕ) {d : QdmaDescq} (h : d.FlagsFit) {i : ℕ} (hi : i < 4) :
    ((makeWrbContext funcId d).getD 0 0 >>> sWrbCtxtW0Baddr64).getLsbD i =
      (wrbBus64 d.descWrbBus).getLsbD i := by
  have hstat : (ctxtField d.wrbStatDescEn sWrbCtxtW0FEnStatDesc).getLsbD (28 + i) = false :=
    ctxtField_high h.wrbStatDescEn (by unfold sWrbCtxtW0FEnStatDesc; omega)
  have hint : (ctxtField d.irqEn sWrbCtxtW0FEnInt).getLsbD (28 + i) = false :=
    ctxtField_high h.irqEn (by unfold sWrbCtxtW0FEnInt; omega)
  have htrig : (ctxtField d.wrbTrigMode sWrbCtxtW0TrigMode).getLsbD (28 + i) = false :=
    ctxtField_high h.wrbTrigMode (by unfold sWrbCtxtW0TrigMode; omega)
  have hfnc : (ctxtField (funcId &&& mWrbCtxtW0FncId) sWrbCtxtW0FncId).getLsbD (28 + i) = false :=
    ctxtField_high (k := 8) (lt_of_le_of_lt Nat.and_le_right (by decide))
      (by unfold sWrbCtxtW0FncId; omega)
  have hcolor : (ctxtField 1 sWrbCtxtW0FColor).getLsbD (28 + i) = false :=
    ctxtField_high (k := 1) (by decide) (by unfold sWrbCtxtW0FColor; omega)
  have h64 : (0xF#64).getLsbD i = true := by
    simpa [hi, show i < 64 by omega] using getLsbD_mask 64 4 i
  have h32 : (0xF#32).getLsbD i = true := by
    simpa [hi, show i < 32 by omega] using getLsbD_mask 32 4 i
  simp only [makeWrbContext, List.getD_cons_zero, BitVec.getLsbD_ushiftRight, BitVec.getLsbD_or,
    show sWrbCtxtW0Baddr64 = 28 from rfl, hstat, hint, htrig, hfnc, hcolor, Bool.false_or,
    BitVec.getLsbD_shiftLeft, BitVec.getLsbD_and, BitVec.getLsbD_setWidth]
  simp [h64, h32, show 28 + i < 32 by omega, show i < 32 by omega]

theorem wrbContext_w1 (funcId : ℕ) (d : QdmaDescq) {i : ℕ} (hi : i < 32) :
    ((makeWrbContext funcId d).getD 1 0).getLsbD i = (wrbBus64 d.descWrbBus).getLsbD (4 + i) := by
  have hone : (0xFFFFFFFF#64).getLsbD i = true := by
    simpa [hi, show i < 64 by omega] using getLsbD_mask 64 32 i
  simp only [makeWrbContext, List.getD_cons_succ, List.getD_cons_zero, BitVec.getLsbD_setWidth,
    BitVec.getLsbD_and, BitVec.getLsbD_ushiftRight, hi, hone, decide_true, Bool.true_and,
    Bool.and_true]
  rfl

theorem wrbContext_w2 (funcId : ℕ) (d : QdmaDescq) {i : ℕ} (hi : i < 22) :
    ((makeWrbContext funcId d).getD 2 0).getLsbD i = (wrbBus64 d.descWrbBus).getLsbD (36 + i) := by
  have h64 : (0x3FFFFF#64).getLsbD i = true := by
    simpa [hi, show i < 64 by omega] using getLsbD_mask 64 22 i
  have h32 : (0x3FFFFF#32).getLsbD i = true := by
    simpa [hi, show i < 32 by omega] using getLsbD_mask 32 22 i
  have hsize : (ctxtField d.stC2hWrbDescSize sWrbCtxtW2DescSize).getLsbD i = false :=
    ctxtField_low hi
  simp only [makeWrbContext, List.getD_cons_succ, List.getD_cons_zero, BitVec.getLsbD_or,
    BitVec.getLsbD_setWidth, BitVec.getLsbD_and, BitVec.getLsbD_ushiftRight, h64, h32, hsize,
    show i < 32 by omega, decide_true, Bool.true_and, Bool.and_true, Bool.or_false]
  rfl

/-- The address split over three words of the writeback context comes back
whole. -/
theorem ctxtWrbBus64_makeWrbContext (funcId : ℕ) {d : QdmaDescq} (h : d.FlagsFit) :
    ctxtWrbBus64 (makeWrbContext funcId d) = (d.descWrbBus >>> 6).setWidth 58 := by
  rw [← wrbBus64_eq]
  apply BitVec.eq_of_getLsbD_eq
  intro i hi
  rw [ctxtWrbBus64, BitVec.getLsbD_append, BitVec.getLsbD_setWidth, BitVec.getLsbD_append,
    BitVec.getLsbD_setWidth, BitVec.getLsbD_setWidth]
  by_cases h4 : i < 4
  · simp only [h4, hi, if_true, decide_true, Bool.true_and]
    exact wrbContext_w0 funcId h h4
  · by_cases h36 : i - 4 < 32
    · simp only [h4, h36, hi, if_true, if_false, decide_true, Bool.true_and]
      rw [wrbContext_w1 funcId d h36, show 4 + (i - 4) = i by omega]
    · have h22 : i - 4 - 32 < 22 := by omega
      simp only [h4, h36, h22, hi, if_false, decide_true, Bool.true_and]
      rw [wrbContext_w2 funcId d h22, show 36 + (i - 4 - 32) = i by omega]

end Qdma

import Mathlib.Data.List.ModifyLast
import Qdma.Lib.Slot
import Qdma.MboxCall

/-!
# The mailbox, register by register

`Mbox.lean` starts from the messages the physical function has received and `MboxCall.lean` from
two lists of mail.  Below them are the registers: sixteen words each way for every virtual
function, a status bit that says whether a message lies there, and a command that sets it or
clears it.  The physical function sees one virtual function at a time, the one in
`MBOX_FN_TARGET`.

Each side works on the registers under its own `mbox_lock`, and the lock of one means nothing to
the other.  So every access of `mbox_send` and `mbox_read` is a step here, the wait for the
outgoing mailbox too (`hw_monitor_reg`), and the steps of all the functions come in any order.

* `mboxSendRegs` and `mboxReadRegs` are one access of the two functions.
* `pfStep` and `vfStep` put them into `qdma_mbox_proc` and `qdma_mbox_send_msg`.  Of the hardware
  they have the bit, and the source it names in the status: a function that has a message there.
* `mailbox_refines` says that it comes to what the other two modules take for granted: no message
  is lost on the way, torn, doubled or overtaken, and what the physical function does in a call is
  what `qdmaMboxProc` makes of the messages it has read.

A device that is gone, and reads as ones everywhere, is not modelled.
-/

namespace Qdma

open Lib

/-! ## The words of a message -/

def mboxMsgRegMax : ℕ := 16

/-- The word of `struct mbox_msg_hdr`. -/
def MboxMsgHdr.word (h : MboxMsgHdr) : BitVec 32 :=
  BitVec.ofNat 32
    (h.op % 2 ^ 4 + 2 ^ 4 * h.sent.toNat + 2 ^ 5 * h.rcv.toNat + 2 ^ 6 * h.ack.toNat +
      2 ^ 7 * h.wait.toNat + 2 ^ 8 * (h.src % 2 ^ 8) + 2 ^ 16 * (h.dst % 2 ^ 8) +
      2 ^ 24 * (h.status % 2 ^ 8).toNat)

/-- What a word says as a `struct mbox_msg_hdr`; `status` is a `char`. -/
def MboxMsgHdr.ofWord (w : BitVec 32) : MboxMsgHdr where
  op := w.toNat % 2 ^ 4
  sent := w.getLsbD 4
  rcv := w.getLsbD 5
  ack := w.getLsbD 6
  wait := w.getLsbD 7
  src := w.toNat / 2 ^ 8 % 2 ^ 8
  dst := w.toNat / 2 ^ 16 % 2 ^ 8
  status := (BitVec.ofNat 8 (w.toNat / 2 ^ 24)).toInt

/-- `m->raw`. -/
def MboxMsg.regs (m : MboxMsg) : List (BitVec 32) :=
  m.hdr.word :: (List.range (mboxMsgRegMax - 1)).map fun i => m.raw (i + 1)

/-- The message with these words. -/
def MboxMsg.ofRegs (words : List (BitVec 32)) : MboxMsg where
  hdr := MboxMsgHdr.ofWord (words.getD 0 0)
  raw i := words.getD i 0

/-- What `mbox_send` writes. -/
def MboxMsg.outRegs (m : MboxMsg) : List (BitVec 32) :=
  { m with hdr := { m.hdr with sent := false } : MboxMsg }.regs

/-- The values of a header fit the fields. -/
structure MboxMsgHdr.Fits (h : MboxMsgHdr) : Prop where
  op : h.op < 2 ^ 4
  src : h.src < 2 ^ 8
  dst : h.dst < 2 ^ 8
  status : -2 ^ 7 ≤ h.status ∧ h.status < 2 ^ 7

theorem MboxMsgHdr.word_toNat (h : MboxMsgHdr) :
    h.word.toNat =
      h.op % 2 ^ 4 + 2 ^ 4 * h.sent.toNat + 2 ^ 5 * h.rcv.toNat + 2 ^ 6 * h.ack.toNat +
        2 ^ 7 * h.wait.toNat + 2 ^ 8 * (h.src % 2 ^ 8) + 2 ^ 16 * (h.dst % 2 ^ 8) +
        2 ^ 24 * (h.status % 2 ^ 8).toNat := by
  have hsent := Bool.toNat_le h.sent
  have hrcv := Bool.toNat_le h.rcv
  have hack := Bool.toNat_le h.ack
  have hwait := Bool.toNat_le h.wait
  unfold word
  rw [BitVec.toNat_ofNat]
  exact Nat.mod_eq_of_lt (by omega)

/-- The flags in the header of what was written are those that are read. -/
theorem MboxMsgHdr.word_bits (h : MboxMsgHdr) :
    (ofWord h.word).sent = h.sent ∧ (ofWord h.word).rcv = h.rcv ∧ (ofWord h.word).ack = h.ack ∧
      (ofWord h.word).wait = h.wait := by
  have hsent := Bool.toNat_le h.sent
  have hrcv := Bool.toNat_le h.rcv
  have hack := Bool.toNat_le h.ack
  have hwait := Bool.toNat_le h.wait
  have hbit : ∀ (k : ℕ) (b : Bool), h.word.toNat / 2 ^ k % 2 = b.toNat →
      h.word.toNat.testBit k = b := by
    intro k b hb
    rw [Nat.testBit_eq_decide_div_mod_eq, hb]
    cases b <;> rfl
  have hword := h.word_toNat
  exact ⟨hbit 4 _ (by omega), hbit 5 _ (by omega), hbit 6 _ (by omega), hbit 7 _ (by omega)⟩

theorem MboxMsgHdr.word_ack (h : MboxMsgHdr) : (ofWord h.word).ack = h.ack := h.word_bits.2.2.1

/-- **A header that is read** is the one that was written just where its values fit the fields. -/
theorem MboxMsgHdr.ofWord_word_iff (h : MboxMsgHdr) : ofWord h.word = h ↔ h.Fits := by
  have hword := h.word_toNat
  have hsent := Bool.toNat_le h.sent
  have hrcv := Bool.toNat_le h.rcv
  have hack := Bool.toNat_le h.ack
  have hwait := Bool.toNat_le h.wait
  have hop : (ofWord h.word).op = h.op % 2 ^ 4 := by
    show h.word.toNat % 2 ^ 4 = _
    omega
  have hsrc : (ofWord h.word).src = h.src % 2 ^ 8 := by
    show h.word.toNat / 2 ^ 8 % 2 ^ 8 = _
    omega
  have hdst : (ofWord h.word).dst = h.dst % 2 ^ 8 := by
    show h.word.toNat / 2 ^ 16 % 2 ^ 8 = _
    omega
  have hstatus : (ofWord h.word).status = (BitVec.ofNat 8 (h.status % 2 ^ 8).toNat).toInt := by
    show (BitVec.ofNat 8 (h.word.toNat / 2 ^ 24)).toInt = _
    congr 2
    omega
  rw [BitVec.toInt_eq_toNat_bmod, BitVec.toNat_ofNat] at hstatus
  constructor
  · intro heq
    rw [heq] at hop hsrc hdst hstatus
    refine ⟨by omega, by omega, by omega, ?_⟩
    rw [Int.bmod_def] at hstatus
    split at hstatus <;> constructor <;> omega
  · rintro ⟨hop', hsrc', hdst', hlo, hhi⟩
    obtain ⟨hs, hr, ha, hw⟩ := h.word_bits
    have hst : (ofWord h.word).status = h.status := by
      rw [hstatus, Int.bmod_def]
      split <;> omega
    rw [Nat.mod_eq_of_lt hop'] at hop
    rw [Nat.mod_eq_of_lt hsrc'] at hsrc
    rw [Nat.mod_eq_of_lt hdst'] at hdst
    calc ofWord h.word
        = ⟨(ofWord h.word).op, (ofWord h.word).sent, (ofWord h.word).rcv, (ofWord h.word).ack,
            (ofWord h.word).wait, (ofWord h.word).src, (ofWord h.word).dst,
            (ofWord h.word).status⟩ := rfl
      _ = h := by rw [hop, hs, hr, ha, hw, hsrc, hdst, hst]

/-- **A message that is read** has the words of the one that was sent, and its header just where
that fits the fields; `sent` is not told. -/
theorem MboxMsg.read_back_iff (m : MboxMsg) :
    ((ofRegs m.outRegs).hdr = { m.hdr with sent := false } ↔ m.hdr.Fits) ∧
      ∀ i, 0 < i → i < mboxMsgRegMax → (ofRegs m.outRegs).raw i = m.raw i := by
  constructor
  · refine (MboxMsgHdr.ofWord_word_iff { m.hdr with sent := false }).trans ?_
    exact ⟨fun h => ⟨h.op, h.src, h.dst, h.status⟩, fun h => ⟨h.op, h.src, h.dst, h.status⟩⟩
  · intro i hpos hi
    obtain ⟨k, rfl⟩ := Nat.exists_eq_succ_of_ne_zero hpos.ne'
    have hk : k < mboxMsgRegMax - 1 := Nat.lt_sub_of_add_lt hi
    show (_ :: (List.range (mboxMsgRegMax - 1)).map fun i => m.raw (i + 1)).getD (k + 1) 0 = _
    rw [List.getD_cons_succ, List.getD_eq_getElem?_getD, List.getElem?_map,
      List.getElem?_range hk]
    rfl

theorem length_regs (m : MboxMsg) : m.regs.length = mboxMsgRegMax := by
  unfold MboxMsg.regs
  rw [List.length_cons, List.length_map, List.length_range]
  rfl

theorem length_outRegs (m : MboxMsg) : m.outRegs.length = mboxMsgRegMax := length_regs _

theorem ack_ofRegs_outRegs (m : MboxMsg) : (MboxMsg.ofRegs m.outRegs).hdr.ack = m.hdr.ack :=
  MboxMsgHdr.word_ack _

/-! ## Accesses -/

/-- A mailbox of sixteen registers. -/
abbrev MboxSlot := Slot (BitVec 32)

/-- `hw_monitor_reg` reads the status once more than this. -/
def mboxPolls : ℕ := 5000 * 1000 / 100

/-- Where a function is in `mbox_send`. -/
inductive SendPc where
  /-- The physical function is to write `MBOX_FN_TARGET`. -/
  | target
  /-- In `hw_monitor_reg`, with `count` more reads after this one. -/
  | poll (count : ℕ)
  /-- The last look before the words. -/
  | check
  | reg (i : ℕ)
  | cmd
  deriving DecidableEq

/-- Where a function is in `mbox_read`, once it has seen the message. -/
inductive ReadPc where
  | target
  | reg (words : List (BitVec 32))
  | cmd (words : List (BitVec 32))
  deriving DecidableEq

/-- One access of `mbox_send` to the mailbox.  It goes on, or returns whether it has sent. -/
def mboxSendRegs (words : List (BitVec 32)) (out : MboxSlot) : SendPc → MboxSlot × (SendPc ⊕ Bool)
  | .target => (out, .inl (.poll mboxPolls))
  | .poll 0 => (out, if out.full then .inr false else .inl .check)
  | .poll (count + 1) => (out, .inl (if out.full then .poll count else .check))
  | .check => (out, if out.full then .inr false else .inl (.reg 0))
  | .reg i =>
      (out.write i (words.getD i 0), .inl (if i + 1 < mboxMsgRegMax then .reg (i + 1) else .cmd))
  | .cmd => (out.post words, .inr true)

/-- A call of `mbox_send` as it is recorded: its message, what each look at the bit has shown, the
accesses it has made, and what it has returned. -/
structure SendCall where
  m : MboxMsg
  looks : List Bool
  steps : ℕ
  ret : Option Bool

def SendCall.start (m : MboxMsg) : SendCall := { m := m, looks := [], steps := 0, ret := none }

/-- Whether the access is a look at the bit. -/
def SendPc.looks : SendPc → Bool
  | .poll _ | .check => true
  | .target | .reg _ | .cmd => false

/-- One access more. -/
def SendCall.next (out : MboxSlot) (pc : SendPc) (c : SendCall) : SendCall where
  m := c.m
  looks := if pc.looks then c.looks ++ [out.full] else c.looks
  steps := c.steps + 1
  ret :=
    match (mboxSendRegs c.m.outRegs out pc).2 with
    | .inl _ => none
    | .inr sent => some sent

/-- One access of `mbox_read` to the mailbox.  It goes on, or returns the words. -/
def mboxReadRegs (inn : MboxSlot) : ReadPc → MboxSlot × (ReadPc ⊕ List (BitVec 32))
  | .target => (inn, .inl (.reg []))
  | .reg words =>
      let words := words ++ [inn.regs words.length]
      (inn, .inl (if words.length < mboxMsgRegMax then .reg words else .cmd words))
  | .cmd words => (inn.take words, .inr words)

/-! ## The functions -/

/-- Eight bits, in the status, in `MBOX_FN_TARGET` and in a header. -/
abbrev FuncId := Fin 256

/-- Where the physical function is.  In `send` the message is in hand and the answer is `m`; the
message is kept for the record. -/
inductive PfPc where
  | idle
  | status (status : ℤ)
  | read (status : ℤ) (src : FuncId) (pc : ReadPc)
  | send (status : ℤ) (m : MboxMsg) (hand : MboxIn) (pc : SendPc)

/-- Where the holder of a virtual function's `mbox_lock` is.  In `send` the message is that of a
call, or the answer `qdma_mbox_proc` gives with this `status`. -/
inductive VfPc where
  /-- In `qdma_mbox_timer_init`. -/
  | initRead
  | initAck
  | free
  | status (status : ℤ)
  | read (status : ℤ) (pc : ReadPc)
  | send (m : MboxMsg) (proc : Option ℤ) (pc : SendPc)

/-- A virtual function.  `back` is the `status` of a `qdma_mbox_proc` that has dropped the lock to
wake a caller. -/
structure VfSide where
  pc : VfPc
  back : Option ℤ
  funcId : ℕ
  funcIdParent : ℕ

/-- All of it.  The last four are records: of `mbox_send` in each virtual function's calls of
`qdma_mbox_send_msg` and in the physical function's answers, with the one in hand at the end, and
of what the physical function has read, in the calls of `qdma_mbox_proc` that are over and in the
one under way. -/
structure MboxRegs where
  up : FuncId → MboxSlot
  down : FuncId → MboxSlot
  target : FuncId
  pfPc : PfPc
  vf : FuncId → VfSide
  pf : PfState
  asked : FuncId → List SendCall
  answers : List SendCall
  calls : List (List MboxIn)
  cur : List MboxIn

/-- The drivers are being loaded. -/
def MboxRegs.init (pf : PfState) : MboxRegs where
  up _ := { regs := fun _ => 0, full := false, sent := [], rcvd := [] }
  down _ := { regs := fun _ => 0, full := false, sent := [], rcvd := [] }
  target := 0
  pfPc := .idle
  vf _ := { pc := .initRead, back := none, funcId := 0, funcIdParent := 0 }
  pf := pf
  asked _ := []
  answers := []
  calls := []
  cur := []

/-- The virtual functions of the runs that show that hypotheses can be met. -/
def firstVf : FuncId := 2
def secondVf : FuncId := 3

/-! ### The virtual functions -/

def mboxOpReset : ℕ := 3

/-- `qdma_mbox_proc` of a virtual function, once it has read a message. -/
def vfGot (a : VfSide) (status : ℤ) (words : List (BitVec 32)) : VfSide :=
  let m := MboxMsg.ofRegs words
  if m.hdr.ack then
    let a := if a.funcId = 0 then { a with funcId := m.hdr.dst, funcIdParent := m.hdr.src } else a
    if m.hdr.wait then { a with pc := .free, back := some status }
    else { a with pc := .status status }
  else
    let status := if m.hdr.op = mboxOpReset then status else -mboxStatusEinval
    let hdr := { m.hdr with dst := m.hdr.src, src := a.funcId, ack := true, status := status }
    { a with pc := .send { m with hdr := hdr } (some status) (.poll mboxPolls) }

/-- After `mbox_send`: a call drops the lock, `qdma_mbox_proc` goes on. -/
def vfSent (a : VfSide) (sent offline : Bool) : Option ℤ → VfSide
  | none => { a with pc := .free }
  | some status => { a with pc := if sent && !offline then .status status else .free }

/-- One access of a virtual function to its two mailboxes. -/
def vfAccess (up down : MboxSlot) (a : VfSide) (offline : Bool) : MboxSlot × MboxSlot × VfSide :=
  match a.pc with
  | .initRead => (up, down, { a with pc := if down.full then .free else .initAck })
  -- the command is given whether or not something has come meanwhile
  | .initAck => (up, { down with full := false }, { a with pc := .free })
  | .free => (up, down, a)
  | .status status =>
      (up, down, { a with pc := if down.full then .read status (.reg []) else .free })
  | .read status pc =>
      let r := mboxReadRegs down pc
      (up, r.1, match r.2 with
        | .inl pc => { a with pc := .read status pc }
        | .inr words => vfGot a status words)
  | .send m proc pc =>
      let r := mboxSendRegs m.outRegs up pc
      (r.1, down, match r.2 with
        | .inl pc => { a with pc := .send m proc pc }
        | .inr sent => vfSent a sent offline proc)

/-- The record of the calls after an access. -/
def VfPc.recorded (up : MboxSlot) (asked : List SendCall) : VfPc → List SendCall
  | .send _ none pc => asked.modifyLast (SendCall.next up pc)
  | _ => asked

def vfStep (s : MboxRegs) (v : FuncId) (offline : Bool) : MboxRegs :=
  let r := vfAccess (s.up v) (s.down v) (s.vf v) offline
  { s with
    up := Function.update s.up v r.1
    down := Function.update s.down v r.2.1
    vf := Function.update s.vf v r.2.2
    asked := Function.update s.asked v ((s.vf v).pc.recorded (s.up v) (s.asked v)) }

/-- A call of `qdma_mbox_send_msg` gets the lock. -/
def vfSend (s : MboxRegs) (v : FuncId) (m : MboxMsg) (wait : Bool) : MboxRegs :=
  let pc := .send (outgoing m wait) none (.poll mboxPolls)
  { s with
    vf := Function.update s.vf v { s.vf v with pc := pc }
    asked := Function.update s.asked v (s.asked v ++ [.start (outgoing m wait)]) }

/-- `qdma_mbox_proc` of a virtual function gets the lock, at its start or after a wakeup. -/
def vfProc (s : MboxRegs) (v : FuncId) : MboxRegs :=
  let a := s.vf v
  let pc := .status (a.back.getD mboxStatusGood)
  { s with vf := Function.update s.vf v { a with pc := pc, back := none } }

/-! ### The physical function -/

/-- `qdma_mbox_proc` of the physical function, once it has read a message from `src`. -/
def pfGot (s : MboxRegs) (status : ℤ) (src : FuncId) (words : List (BitVec 32))
    (fates : MsgFates) : MboxRegs :=
  let x : MboxIn :=
    { src := src, m := MboxMsg.ofRegs words, fates := fates, sent := false, offline := false }
  let m := mboxRead x.src x.m
  if m.hdr.ack then { s with pfPc := .status status, cur := s.cur ++ [x] }
  else
    let h := qdmaMboxHandle fates s.pf m
    let status := nextStatus status h.rv
    let m := respond h.s h.m status
    { s with
      pf := h.s
      pfPc := .send status m x .target
      answers := s.answers ++ [.start m] }

/-- After `mbox_send`. -/
def pfSent (s : MboxRegs) (status : ℤ) (hand : MboxIn) (sent offline : Bool) : MboxRegs :=
  let cur := s.cur ++ [{ hand with sent := sent, offline := offline }]
  if sent && !offline then { s with pfPc := .status status, cur := cur }
  else { s with pfPc := .idle, calls := s.calls ++ [cur], cur := [] }

/-- The target of an answer. -/
def MboxMsg.target (m : MboxMsg) : FuncId := Fin.ofNat 256 m.hdr.dst

/-- One access of the physical function.  `pick` is the source in the status, where a message is
there. -/
def pfStep (s : MboxRegs) (pick : Option FuncId) (fates : MsgFates) (offline : Bool) : MboxRegs :=
  match s.pfPc with
  | .idle => s
  | .status status =>
      match pick with
      | none => { s with pfPc := .idle, calls := s.calls ++ [s.cur], cur := [] }
      | some src => { s with pfPc := .read status src .target }
  | .read status src pc =>
      let target := if pc = .target then src else s.target
      let r := mboxReadRegs (s.up target) pc
      let s := { s with target := target, up := Function.update s.up target r.1 }
      match r.2 with
      | .inl pc => { s with pfPc := .read status src pc }
      | .inr words => pfGot s status src words fates
  | .send status m hand pc =>
      let target := if pc = .target then m.target else s.target
      let r := mboxSendRegs m.outRegs (s.down target) pc
      let s :=
        { s with
          target := target
          down := Function.update s.down target r.1
          answers := s.answers.modifyLast (SendCall.next (s.down target) pc) }
      match r.2 with
      | .inl pc => { s with pfPc := .send status m hand pc }
      | .inr sent => pfSent s status hand sent offline

/-! ### Runs -/

inductive MboxRegsEv where
  | vfSend (v : FuncId) (m : MboxMsg) (wait : Bool)
  | vfProc (v : FuncId)
  | vfStep (v : FuncId) (offline : Bool)
  | pfProc
  | pfStep (pick : Option FuncId) (fates : MsgFates) (offline : Bool)

def mboxRegsStep (s : MboxRegs) : MboxRegsEv → MboxRegs
  | .vfSend v m wait => vfSend s v m wait
  | .vfProc v => vfProc s v
  | .vfStep v offline => vfStep s v offline
  | .pfProc => { s with pfPc := .status mboxStatusGood }
  | .pfStep pick fates offline => pfStep s pick fates offline

/-- What the status of the physical function can show. -/
def MboxRegs.Shows (s : MboxRegs) : Option FuncId → Prop
  | some src => (s.up src).full = true
  | none => ∀ v, (s.up v).full = false

/-- The locks, and the status where it is read. -/
def mboxRegsGuard (s : MboxRegs) : MboxRegsEv → Prop
  | .vfSend v _ _ => (s.vf v).pc = .free
  | .vfProc v => (s.vf v).pc = .free
  | .vfStep _ _ => True
  | .pfProc => s.pfPc = .idle
  | .pfStep pick _ _ =>
      match s.pfPc with
      | .status _ => s.Shows pick
      | _ => True

instance (pc : VfPc) : Decidable (pc = .free) :=
  match pc with
  | .free => isTrue rfl
  | .initRead | .initAck | .status _ | .read _ _ | .send _ _ _ => isFalse VfPc.noConfusion

instance (pc : PfPc) : Decidable (pc = .idle) :=
  match pc with
  | .idle => isTrue rfl
  | .status _ | .read _ _ _ | .send _ _ _ _ => isFalse PfPc.noConfusion

instance (s : MboxRegs) (pick : Option FuncId) : Decidable (s.Shows pick) := by
  unfold MboxRegs.Shows
  split <;> infer_instance

instance (s : MboxRegs) (e : MboxRegsEv) : Decidable (mboxRegsGuard s e) := by
  unfold mboxRegsGuard
  split <;> (try split) <;> infer_instance

def mboxRegsSys : System MboxRegs MboxRegsEv where
  step := mboxRegsStep
  guard := mboxRegsGuard

instance (s : MboxRegs) (e : MboxRegsEv) : Decidable (mboxRegsSys.guard s e) :=
  inferInstanceAs (Decidable (mboxRegsGuard s e))

/-! ## Single accesses -/

/-- What a function in `mbox_send` may rely on. -/
def SendOk (words : List (BitVec 32)) (out : MboxSlot) : SendPc → Prop
  | .target | .poll _ => True
  | .check => out.full = false
  | .reg i => i < mboxMsgRegMax ∧ out.Writing mboxMsgRegMax i words
  | .cmd => out.Writing mboxMsgRegMax mboxMsgRegMax words

/-- What a function in `mbox_read` may rely on. -/
def ReadOk (inn : MboxSlot) : ReadPc → Prop
  | .target => inn.full = true
  | .reg words => words.length < mboxMsgRegMax ∧ inn.Reading mboxMsgRegMax words.length words
  | .cmd words => inn.Reading mboxMsgRegMax mboxMsgRegMax words

/-- All that an access of `mbox_send` can do. -/
inductive SendStep (words : List (BitVec 32)) (out : MboxSlot) :
    MboxSlot × (SendPc ⊕ Bool) → Prop
  | on {out' : MboxSlot} {pc : SendPc} (hmove : SendMove mboxMsgRegMax out out')
      (hsent : out'.sent = out.sent) (hok : SendOk words out' pc) (hpc : pc ≠ .target) :
      SendStep words out (out', .inl pc)
  | sent (hw : out.Writing mboxMsgRegMax mboxMsgRegMax words) :
      SendStep words out (out.post words, .inr true)
  | busy (hfull : out.full = true) : SendStep words out (out, .inr false)

/-- All that an access of `mbox_read` can do. -/
inductive ReadStep (inn : MboxSlot) : MboxSlot × (ReadPc ⊕ List (BitVec 32)) → Prop
  | on {pc : ReadPc} (hok : ReadOk inn pc) (hpc : pc ≠ .target) : ReadStep inn (inn, .inl pc)
  | got {words : List (BitVec 32)} (hr : inn.Reading mboxMsgRegMax mboxMsgRegMax words) :
      ReadStep inn (inn.take words, .inr words)

section Access

variable {words : List (BitVec 32)} {out out' inn inn' : MboxSlot}

/-- A look at the bit. -/
theorem sendStep_look (next other : SendPc) (hnext : out.full = false → SendOk words out next)
    (hother : SendOk words out other) (hne : next ≠ .target) (hne' : other ≠ .target) :
    SendStep words out (out, .inl (if out.full then other else next)) := by
  cases hfull : out.full with
  | true => exact .on .same rfl hother hne'
  | false => exact .on .same rfl (hnext hfull) hne

theorem sendStep_last (next : SendPc) (hnext : out.full = false → SendOk words out next)
    (hne : next ≠ .target) :
    SendStep words out (out, if out.full then .inr false else .inl next) := by
  cases hfull : out.full with
  | true => exact .busy hfull
  | false => exact .on .same rfl (hnext hfull) hne

theorem mboxSendRegs_step {pc : SendPc} (hlen : words.length = mboxMsgRegMax)
    (h : SendOk words out pc) : SendStep words out (mboxSendRegs words out pc) := by
  cases pc with
  | target => exact .on .same rfl trivial SendPc.noConfusion
  | poll count =>
      cases count with
      | zero => exact sendStep_last _ (fun hclear => hclear) SendPc.noConfusion
      | succ count =>
          exact sendStep_look _ _ (fun hclear => hclear) trivial SendPc.noConfusion
            SendPc.noConfusion
  | check =>
      exact sendStep_last _ (fun hclear => ⟨by decide, Slot.Writing.start hclear hlen⟩)
        SendPc.noConfusion
  | reg i =>
      obtain ⟨hi, hw⟩ := h
      have hword : words[i]? = some (words.getD i 0) := by
        rw [List.getD_eq_getElem?_getD, List.getElem?_eq_getElem (hlen.symm ▸ hi)]
        rfl
      have hnext := hw.next hi hword
      refine .on (.write i _ hw.clear) rfl ?_ ?_
      · -- the last register, or another one
        split
        case isTrue hlt => exact ⟨hlt, hnext⟩
        case isFalse hge =>
          have hall : i + 1 = mboxMsgRegMax := Nat.le_antisymm hi (not_lt.mp hge)
          rw [hall] at hnext
          exact hnext
      · split
        · exact SendPc.noConfusion
        · exact SendPc.noConfusion
  | cmd => exact .sent h

theorem mboxReadRegs_step {pc : ReadPc} (h : ReadOk inn pc) :
    ReadStep inn (mboxReadRegs inn pc) := by
  cases pc with
  | target => exact .on ⟨by decide, Slot.Reading.start h⟩ ReadPc.noConfusion
  | reg words =>
      obtain ⟨hlt, hr⟩ := h
      have hnext := hr.next hlt
      have hlen : (words ++ [inn.regs words.length]).length = words.length + 1 :=
        List.length_append
      refine .on ?_ ?_
      · split
        case isTrue hlt' => exact ⟨hlt', hlen ▸ hnext⟩
        case isFalse hge =>
          have hall : words.length + 1 = mboxMsgRegMax :=
            Nat.le_antisymm hlt (hlen ▸ not_lt.mp hge)
          rw [hall] at hnext
          exact hnext
      · split
        · exact ReadPc.noConfusion
        · exact ReadPc.noConfusion
  | cmd words => exact .got h

theorem SendStep.move {r : MboxSlot × (SendPc ⊕ Bool)} (h : SendStep words out r) :
    SendMove mboxMsgRegMax out r.1 := by
  cases h with
  | on hmove hsent hok hpc => exact hmove
  | sent hw => exact .post hw
  | busy hfull => exact .same

theorem ReadStep.move {r : MboxSlot × (ReadPc ⊕ List (BitVec 32))} (h : ReadStep inn r) :
    ReadMove mboxMsgRegMax inn r.1 := by
  cases h with
  | on hok hpc => exact .same
  | got hr => exact .take hr

/-- The other side takes a message at most. -/
theorem SendOk.read {pc : SendPc} (h : SendOk words out pc)
    (hm : ReadMove mboxMsgRegMax out out') : SendOk words out' pc := by
  cases pc with
  | target => trivial
  | poll count => trivial
  | check => exact hm.clear h
  | reg i => exact ⟨h.1, hm.writing h.2⟩
  | cmd => exact hm.writing h

/-- The other side does nothing to a message that lies there. -/
theorem ReadOk.send {pc : ReadPc} (h : ReadOk inn pc)
    (hm : SendMove mboxMsgRegMax inn inn') : ReadOk inn' pc := by
  have hset : inn.full = true := by
    cases pc with
    | target => exact h
    | reg words => exact h.2.set
    | cmd words => exact h.set
  rw [hm.of_full hset]
  exact h

end Access

/-! ## The invariant -/

/-- What the holder of a virtual function's lock may rely on. -/
def VfOk (up down : MboxSlot) : VfPc → Prop
  | .initRead | .initAck => up.sent = []
  | .free | .status _ => True
  | .read _ pc => ReadOk down pc
  | .send m proc pc => proc = none ∧ pc ≠ .target ∧ SendOk m.outRegs up pc

/-- What the physical function may rely on. -/
def PfOk (up down : FuncId → MboxSlot) (target : FuncId) : PfPc → Prop
  | .idle | .status _ => True
  | .read _ src pc => (pc ≠ .target → target = src) ∧ ReadOk (up src) pc
  | .send _ m _ pc =>
      (pc ≠ .target → target = m.target) ∧ SendOk m.outRegs (down m.target) pc ∧ m.hdr.ack = true

/-- The answers to `v` that are in hand. -/
def PfPc.owes (v : FuncId) : PfPc → ℕ
  | .send _ m _ _ => if m.target = v then 1 else 0
  | _ => 0

/-- Every answer is to a message that was read, and says that it is one. -/
structure RegsInv (s : MboxRegs) : Prop where
  up : ∀ v, (s.up v).Kept mboxMsgRegMax
  down : ∀ v, (s.down v).Kept mboxMsgRegMax
  vf : ∀ v, VfOk (s.up v) (s.down v) (s.vf v).pc
  pf : PfOk s.up s.down s.target s.pfPc
  paid : ∀ v, (s.down v).sent.length + s.pfPc.owes v ≤ (s.up v).rcvd.length
  acks : ∀ v, ∀ words ∈ (s.down v).sent, (MboxMsg.ofRegs words).hdr.ack = true

theorem RegsInv.init (pf : PfState) : RegsInv (MboxRegs.init pf) where
  up _ := ⟨rfl⟩
  down _ := ⟨rfl⟩
  vf _ := rfl
  pf := trivial
  paid _ := le_refl 0
  acks _ _ hw := absurd hw List.not_mem_nil

/-- A function that has sent nothing has no message. -/
theorem RegsInv.quiet {s : MboxRegs} (h : RegsInv s) {v : FuncId} (hnil : (s.up v).sent = []) :
    (s.down v).full = false := by
  have hrcvd : (s.up v).rcvd = [] := by
    obtain ⟨hpre, -⟩ := (h.up v).delivered
    rw [hnil] at hpre
    exact List.prefix_nil.mp hpre
  have hpaid := h.paid v
  rw [hrcvd] at hpaid
  have hsent : (s.down v).sent = [] :=
    List.eq_nil_of_length_eq_zero (Nat.eq_zero_of_le_zero (le_trans (Nat.le_add_right _ _) hpaid))
  exact (h.down v).clear_of_sent_nil hsent

theorem RegsInv.isAck {s : MboxRegs} (h : RegsInv s) {v : FuncId} {words : List (BitVec 32)}
    (hr : (s.down v).Reading mboxMsgRegMax mboxMsgRegMax words) :
    (MboxMsg.ofRegs words).hdr.ack = true :=
  h.acks v words ((h.down v).mem_sent hr)

theorem VfOk.pf {up up' down down' : MboxSlot} {pc : VfPc} (h : VfOk up down pc)
    (hup : ReadMove mboxMsgRegMax up up') (hdown : SendMove mboxMsgRegMax down down') :
    VfOk up' down' pc := by
  cases pc with
  | initRead => exact hup.sent.trans h
  | initAck => exact hup.sent.trans h
  | free => trivial
  | status status => trivial
  | read status pc => exact ReadOk.send h hdown
  | send m proc pc => exact ⟨h.1, h.2.1, SendOk.read h.2.2 hup⟩

theorem PfOk.vf {up up' down down' : FuncId → MboxSlot} {target : FuncId} {pc : PfPc}
    (h : PfOk up down target pc) (hup : ∀ v, SendMove mboxMsgRegMax (up v) (up' v))
    (hdown : ∀ v, ReadMove mboxMsgRegMax (down v) (down' v)) : PfOk up' down' target pc := by
  cases pc with
  | idle => trivial
  | status status => trivial
  | read status src pc => exact ⟨h.1, ReadOk.send h.2 (hup src)⟩
  | send status m hand pc => exact ⟨h.1, SendOk.read h.2.1 (hdown _), h.2.2⟩

/-! ## A virtual function moves -/

/-- What a virtual function leaves alone. -/
structure VfMoved (s s' : MboxRegs) : Prop where
  up : ∀ v, SendMove mboxMsgRegMax (s.up v) (s'.up v)
  down : ∀ v, ReadMove mboxMsgRegMax (s.down v) (s'.down v)
  vf : ∀ v, VfOk (s'.up v) (s'.down v) (s'.vf v).pc
  target : s'.target = s.target
  pfPc : s'.pfPc = s.pfPc
  pf : s'.pf = s.pf
  answers : s'.answers = s.answers
  calls : s'.calls = s.calls
  cur : s'.cur = s.cur

theorem RegsInv.vfMoved {s s' : MboxRegs} (h : RegsInv s) (hm : VfMoved s s') : RegsInv s' where
  up v := (h.up v).send (hm.up v)
  down v := (h.down v).read (hm.down v)
  vf := hm.vf
  pf := by
    rw [hm.target, hm.pfPc]
    exact h.pf.vf hm.up hm.down
  paid v := by
    rw [hm.pfPc, (hm.down v).sent, (hm.up v).rcvd]
    exact h.paid v
  acks v := by
    rw [(hm.down v).sent]
    exact h.acks v

/-- A relation that holds where nothing happens, and at the one place where something does. -/
theorem rel_update {α β : Type} [DecidableEq α] {R : β → β → Prop} (hrefl : ∀ b, R b b)
    {f : α → β} {a : α} {b : β} (h : R (f a) b) (u : α) : R (f u) (Function.update f a b u) := by
  rcases eq_or_ne u a with rfl | hne
  · rw [Function.update_self]
    exact h
  · rw [Function.update_of_ne hne]
    exact hrefl _

/-- One function moves, and the others find what they left. -/
theorem VfMoved.at {s s' : MboxRegs} (h : RegsInv s) {v : FuncId} {up down : MboxSlot} {a : VfSide}
    (hup : SendMove mboxMsgRegMax (s.up v) up) (hdown : ReadMove mboxMsgRegMax (s.down v) down)
    (hok : VfOk up down a.pc)
    (hs : s' = { s with
      up := Function.update s.up v up
      down := Function.update s.down v down
      vf := Function.update s.vf v a
      asked := s'.asked }) : VfMoved s s' := by
  rw [hs]
  refine ⟨rel_update (fun _ => .same) hup, rel_update (fun _ => .same) hdown, ?_, rfl, rfl, rfl,
    rfl, rfl, rfl⟩
  intro u
  rcases eq_or_ne u v with rfl | hne
  · change VfOk (Function.update s.up u up u) (Function.update s.down u down u)
      (Function.update s.vf u a u).pc
    rw [Function.update_self, Function.update_self, Function.update_self]
    exact hok
  · change VfOk (Function.update s.up v up u) (Function.update s.down v down u)
      (Function.update s.vf v a u).pc
    rw [Function.update_of_ne hne, Function.update_of_ne hne, Function.update_of_ne hne]
    exact h.vf u

theorem vfGot_pc {a : VfSide} (status : ℤ) {words : List (BitVec 32)}
    (hack : (MboxMsg.ofRegs words).hdr.ack = true) :
    (vfGot a status words).pc = .free ∨ (vfGot a status words).pc = .status status := by
  unfold vfGot
  rw [if_pos hack]
  dsimp only
  split
  · exact Or.inl rfl
  · exact Or.inr rfl

/-- One access of a virtual function is a careful one. -/
theorem vfAccess_moves {up down : MboxSlot} {a : VfSide} (offline : Bool)
    (hok : VfOk up down a.pc) (hquiet : up.sent = [] → down.full = false)
    (hack : ∀ words, down.Reading mboxMsgRegMax mboxMsgRegMax words →
      (MboxMsg.ofRegs words).hdr.ack = true) :
    SendMove mboxMsgRegMax up (vfAccess up down a offline).1 ∧
      ReadMove mboxMsgRegMax down (vfAccess up down a offline).2.1 ∧
      VfOk (vfAccess up down a offline).1 (vfAccess up down a offline).2.1
        (vfAccess up down a offline).2.2.pc := by
  unfold vfAccess
  cases hpc : a.pc with
  | initRead =>
      rw [hpc] at hok
      refine ⟨.same, .same, ?_⟩
      change VfOk up down (if down.full = true then .free else .initAck)
      split
      · trivial
      · exact hok
  | initAck =>
      rw [hpc] at hok
      -- nothing has come: the function has not sent anything yet
      have hsame : { down with full := false } = down := by rw [← hquiet hok]
      refine ⟨.same, ?_, trivial⟩
      change ReadMove mboxMsgRegMax down { down with full := false }
      rw [hsame]
      exact .same
  | free =>
      refine ⟨.same, .same, ?_⟩
      change VfOk up down a.pc
      rw [hpc]
      trivial
  | status status =>
      refine ⟨.same, .same, ?_⟩
      change VfOk up down (if down.full = true then .read status (.reg []) else .free)
      split
      case isTrue hset => exact ⟨by decide, Slot.Reading.start hset⟩
      case isFalse => trivial
  | read status pc =>
      rw [hpc] at hok
      have hstep := mboxReadRegs_step hok
      dsimp only
      generalize mboxReadRegs down pc = r at hstep
      refine ⟨.same, hstep.move, ?_⟩
      cases hstep with
      | on hok' hpc' => exact hok'
      | got hr =>
          rcases vfGot_pc (a := a) status (hack _ hr) with hfree | hstatus
          · exact hfree ▸ trivial
          · exact hstatus ▸ trivial
  | send m proc pc =>
      rw [hpc] at hok
      obtain ⟨hproc, -, hsend⟩ := hok
      have hstep := mboxSendRegs_step (length_outRegs m) hsend
      dsimp only
      generalize mboxSendRegs m.outRegs up pc = r at hstep
      refine ⟨hstep.move, .same, ?_⟩
      cases hstep with
      | on hmove hsent hok' hpc' => exact ⟨hproc, hpc', hok'⟩
      | sent hw =>
          rw [hproc]
          trivial
      | busy hfull =>
          rw [hproc]
          trivial

theorem vfStep_moved {s : MboxRegs} (h : RegsInv s) (v : FuncId) (offline : Bool) :
    VfMoved s (vfStep s v offline) := by
  obtain ⟨hup, hdown, hok⟩ :=
    vfAccess_moves (a := s.vf v) offline (h.vf v) h.quiet (fun _ hr => h.isAck hr)
  exact VfMoved.at h hup hdown hok rfl

/-- A function takes its lock. -/
theorem vfMoved_lock {s s' : MboxRegs} (h : RegsInv s) {v : FuncId} {a : VfSide}
    (hok : VfOk (s.up v) (s.down v) a.pc)
    (hs : s' = { s with vf := Function.update s.vf v a, asked := s'.asked }) : VfMoved s s' := by
  refine VfMoved.at (a := a) h .same .same hok ?_
  rw [Function.update_eq_self, Function.update_eq_self]
  exact hs

theorem vfSend_moved {s : MboxRegs} (h : RegsInv s) (v : FuncId) (m : MboxMsg) (wait : Bool) :
    VfMoved s (vfSend s v m wait) :=
  vfMoved_lock h (a := { s.vf v with pc := .send (outgoing m wait) none (.poll mboxPolls) })
    ⟨rfl, SendPc.noConfusion, trivial⟩ rfl

theorem vfProc_moved {s : MboxRegs} (h : RegsInv s) (v : FuncId) : VfMoved s (vfProc s v) :=
  vfMoved_lock h
    (a := { s.vf v with pc := .status ((s.vf v).back.getD mboxStatusGood), back := none })
    trivial rfl

/-! ## The physical function moves -/

/-- All that an access of the physical function can do, but for the record of its answers. -/
inductive PfStep (s : MboxRegs) (pick : Option FuncId) (fates : MsgFates) (offline : Bool) :
    MboxRegs → Prop
  | idle (hpc : s.pfPc = .idle) : PfStep s pick fates offline s
  | ended {status : ℤ} (hpc : s.pfPc = .status status) :
      PfStep s pick fates offline
        { s with pfPc := .idle, calls := s.calls ++ [s.cur], cur := [] }
  | pick {status : ℤ} {src : FuncId} (hpc : s.pfPc = .status status)
      (hset : (s.up src).full = true) :
      PfStep s pick fates offline { s with pfPc := .read status src .target }
  | read {status : ℤ} {src : FuncId} {pc pc' : ReadPc} (hpc : s.pfPc = .read status src pc)
      (hok : ReadOk (s.up src) pc') (hpc' : pc' ≠ .target) :
      PfStep s pick fates offline { s with target := src, pfPc := .read status src pc' }
  | got {status : ℤ} {src : FuncId} {pc : ReadPc} {words : List (BitVec 32)}
      (hpc : s.pfPc = .read status src pc)
      (hr : (s.up src).Reading mboxMsgRegMax mboxMsgRegMax words) :
      PfStep s pick fates offline
        (pfGot { s with target := src, up := Function.update s.up src ((s.up src).take words) }
          status src words fates)
  | send {status : ℤ} {m : MboxMsg} {hand : MboxIn} {pc pc' : SendPc} {out : MboxSlot}
      (hpc : s.pfPc = .send status m hand pc)
      (hmove : SendMove mboxMsgRegMax (s.down m.target) out)
      (hsent : out.sent = (s.down m.target).sent) (hok : SendOk m.outRegs out pc')
      (hpc' : pc' ≠ .target) (answers : List SendCall) :
      PfStep s pick fates offline
        { s with
          target := m.target
          down := Function.update s.down m.target out
          pfPc := .send status m hand pc'
          answers := answers }
  | sent {status : ℤ} {m : MboxMsg} {hand : MboxIn} {pc : SendPc}
      (hpc : s.pfPc = .send status m hand pc)
      (hw : (s.down m.target).Writing mboxMsgRegMax mboxMsgRegMax m.outRegs)
      (answers : List SendCall) :
      PfStep s pick fates offline
        (pfSent
          { s with
            target := m.target
            down := Function.update s.down m.target ((s.down m.target).post m.outRegs)
            answers := answers }
          status hand true offline)
  | busy {status : ℤ} {m : MboxMsg} {hand : MboxIn} {pc : SendPc}
      (hpc : s.pfPc = .send status m hand pc) (answers : List SendCall) :
      PfStep s pick fates offline
        (pfSent { s with target := m.target, answers := answers } status hand false offline)

theorem pfStep_step {s : MboxRegs} {pick : Option FuncId} {fates : MsgFates} {offline : Bool}
    (h : PfOk s.up s.down s.target s.pfPc)
    (hg : mboxRegsGuard s (.pfStep pick fates offline)) :
    PfStep s pick fates offline (pfStep s pick fates offline) := by
  cases hpc : s.pfPc with
  | idle =>
      have hs : pfStep s pick fates offline = s := by
        unfold pfStep
        rw [hpc]
      rw [hs]
      exact .idle hpc
  | status status =>
      unfold mboxRegsGuard at hg
      rw [hpc] at hg
      unfold pfStep
      rw [hpc]
      cases pick with
      | none => exact .ended hpc
      | some src => exact .pick hpc hg
  | read status src pc =>
      rw [hpc] at h
      obtain ⟨htarget, hok⟩ := h
      have hsrc : (if pc = .target then src else s.target) = src := by
        split
        case isTrue => rfl
        case isFalse hne => exact htarget hne
      unfold pfStep
      rw [hpc]
      dsimp only
      rw [hsrc]
      have hstep := mboxReadRegs_step hok
      generalize mboxReadRegs (s.up src) pc = r at hstep
      cases hstep with
      | on hok' hpc' =>
          dsimp only
          rw [Function.update_eq_self]
          exact .read hpc hok' hpc'
      | got hr => exact .got hpc hr
  | send status m hand pc =>
      rw [hpc] at h
      obtain ⟨htarget, hok, hack⟩ := h
      have hdst : (if pc = .target then m.target else s.target) = m.target := by
        split
        case isTrue => rfl
        case isFalse hne => exact htarget hne
      unfold pfStep
      rw [hpc]
      dsimp only
      rw [hdst]
      have hstep := mboxSendRegs_step (length_outRegs m) hok
      generalize mboxSendRegs m.outRegs (s.down m.target) pc = r at hstep
      cases hstep with
      | on hmove hsent hok' hpc' => exact .send hpc hmove hsent hok' hpc' _
      | sent hw => exact .sent hpc hw _
      | busy hfull =>
          dsimp only
          rw [Function.update_eq_self]
          exact .busy hpc _

section Pf

variable {s s' : MboxRegs}

theorem RegsInv.pfMoved (h : RegsInv s)
    (hup : ∀ v, ReadMove mboxMsgRegMax (s.up v) (s'.up v))
    (hdown : ∀ v, SendMove mboxMsgRegMax (s.down v) (s'.down v)) (hvf : s'.vf = s.vf)
    (hpf : PfOk s'.up s'.down s'.target s'.pfPc)
    (hpaid : ∀ v, (s'.down v).sent.length + s'.pfPc.owes v ≤ (s'.up v).rcvd.length)
    (hacks : ∀ v, ∀ words ∈ (s'.down v).sent, (MboxMsg.ofRegs words).hdr.ack = true) :
    RegsInv s' where
  up v := (h.up v).read (hup v)
  down v := (h.down v).send (hdown v)
  vf v := by
    rw [hvf]
    exact (h.vf v).pf (hup v) (hdown v)
  pf := hpf
  paid := hpaid
  acks := hacks

/-- Nothing happens to the mailboxes. -/
theorem RegsInv.pfPc (h : RegsInv s) {target : FuncId} {pf : PfState} {pc : PfPc}
    {answers : List SendCall} {calls : List (List MboxIn)} {cur : List MboxIn}
    (hpf : PfOk s.up s.down target pc) (howes : ∀ v, pc.owes v ≤ s.pfPc.owes v) :
    RegsInv
      { s with
        target := target
        pf := pf
        pfPc := pc
        answers := answers
        calls := calls
        cur := cur } :=
  h.pfMoved (fun _ => .same) (fun _ => .same) rfl hpf
    (fun v => le_trans (Nat.add_le_add_left (howes v) _) (h.paid v)) h.acks

/-- An answer goes where the message came from. -/
theorem target_respond {fates : MsgFates} {pf pf' : PfState} {m : MboxMsg} {src : FuncId}
    {status : ℤ} :
    (respond pf' (qdmaMboxHandle fates pf (mboxRead src m)).m status).target = src := by
  have hdst : (respond pf' (qdmaMboxHandle fates pf (mboxRead src m)).m status).hdr.dst = src := by
    change (qdmaMboxHandle fates pf (mboxRead src m)).m.hdr.src = src
    rw [(handle_msg fates pf (mboxRead src m)).1]
    rfl
  unfold MboxMsg.target
  rw [hdst]
  exact Fin.ofNat_val_eq_self src

/-- A message is read, and the answer to it is owed. -/
theorem RegsInv.got (h : RegsInv s) {status : ℤ} {src : FuncId} {pc : ReadPc}
    {words : List (BitVec 32)} {fates : MsgFates} (hpc : s.pfPc = .read status src pc)
    (hr : (s.up src).Reading mboxMsgRegMax mboxMsgRegMax words) :
    RegsInv
      (pfGot { s with target := src, up := Function.update s.up src ((s.up src).take words) }
        status src words fates) := by
  have hup : ∀ v, ReadMove mboxMsgRegMax (s.up v)
      (Function.update s.up src ((s.up src).take words) v) :=
    rel_update (fun _ => .same) (.take hr)
  have hpaid : ∀ v, (s.down v).sent.length + (if src = v then 1 else 0) ≤
      (Function.update s.up src ((s.up src).take words) v).rcvd.length := by
    intro v
    have hold := le_trans (Nat.le_add_right _ _) (h.paid v)
    rcases eq_or_ne v src with rfl | hne
    · rw [if_pos rfl, Function.update_self]
      change _ ≤ ((s.up v).rcvd ++ [words]).length
      rw [List.length_append]
      exact Nat.add_le_add_right hold 1
    · rw [if_neg hne.symm, Function.update_of_ne hne]
      exact hold
  unfold pfGot
  dsimp only
  split
  · exact h.pfMoved hup (fun _ => .same) rfl trivial
      (fun v => le_trans (Nat.add_le_add_left (Nat.zero_le _) _) (hpaid v)) h.acks
  · refine h.pfMoved hup (fun _ => .same) rfl ⟨fun hne => absurd rfl hne, trivial, rfl⟩ ?_ h.acks
    intro v
    refine le_trans (Nat.add_le_add_left (le_of_eq ?_) _) (hpaid v)
    change (if _ = v then 1 else 0) = if src = v then 1 else 0
    rw [target_respond]

/-- An answer goes out. -/
theorem RegsInv.sent (h : RegsInv s) {status : ℤ} {m : MboxMsg} {hand : MboxIn} {pc : SendPc}
    {offline : Bool} {answers : List SendCall} (hpc : s.pfPc = .send status m hand pc)
    (hw : (s.down m.target).Writing mboxMsgRegMax mboxMsgRegMax m.outRegs) :
    RegsInv
      (pfSent
        { s with
          target := m.target
          down := Function.update s.down m.target ((s.down m.target).post m.outRegs)
          answers := answers }
        status hand true offline) := by
  have hpf := h.pf
  rw [hpc] at hpf
  obtain ⟨-, -, hack⟩ := hpf
  have hdown : ∀ v, SendMove mboxMsgRegMax (s.down v)
      (Function.update s.down m.target ((s.down m.target).post m.outRegs) v) :=
    rel_update (fun _ => .same) (.post hw)
  have hpaid : ∀ v,
      (Function.update s.down m.target ((s.down m.target).post m.outRegs) v).sent.length + 0 ≤
        (s.up v).rcvd.length := by
    intro v
    have hold := h.paid v
    rw [hpc] at hold
    rcases eq_or_ne v m.target with rfl | hne
    · rw [Function.update_self]
      change ((s.down m.target).sent ++ [m.outRegs]).length + 0 ≤ _
      rw [List.length_append, Nat.add_zero]
      have howes : (PfPc.send status m hand pc).owes m.target = 1 := if_pos rfl
      rw [howes] at hold
      exact hold
    · rw [Function.update_of_ne hne]
      exact le_trans (Nat.add_le_add_left (Nat.zero_le _) _) hold
  have hacks : ∀ v, ∀ words ∈
      (Function.update s.down m.target ((s.down m.target).post m.outRegs) v).sent,
      (MboxMsg.ofRegs words).hdr.ack = true := by
    intro v words hmem
    rcases eq_or_ne v m.target with rfl | hne
    · rw [Function.update_self] at hmem
      rcases List.mem_append.mp hmem with hold | hnew
      · exact h.acks _ words hold
      · rw [List.mem_singleton.mp hnew, ack_ofRegs_outRegs]
        exact hack
    · rw [Function.update_of_ne hne] at hmem
      exact h.acks v words hmem
  unfold pfSent
  split
  · exact h.pfMoved (fun _ => .same) hdown rfl trivial hpaid hacks
  · exact h.pfMoved (fun _ => .same) hdown rfl trivial hpaid hacks

theorem RegsInv.pfStep (h : RegsInv s) {pick : Option FuncId} {fates : MsgFates} {offline : Bool}
    (hs : PfStep s pick fates offline s') : RegsInv s' := by
  cases hs with
  | idle hpc => exact h
  | ended hpc => exact h.pfPc trivial (fun _ => Nat.zero_le _)
  | pick hpc hset =>
      exact h.pfPc ⟨fun hne => absurd rfl hne, hset⟩ (fun _ => Nat.zero_le _)
  | read hpc hok hpc' => exact h.pfPc ⟨fun _ => rfl, hok⟩ (fun _ => Nat.zero_le _)
  | got hpc hr => exact h.got hpc hr
  | @send status m hand pc pc' out hpc hmove hsent hok hpc' answers =>
      have hpf := h.pf
      rw [hpc] at hpf
      obtain ⟨-, -, hack⟩ := hpf
      have hself : Function.update s.down m.target out m.target = out := Function.update_self ..
      have hok' : SendOk m.outRegs (Function.update s.down m.target out m.target) pc' := by
        rw [hself]
        exact hok
      have hsame : ∀ v, (Function.update s.down m.target out v).sent = (s.down v).sent := by
        intro v
        rcases eq_or_ne v m.target with rfl | hne
        · rw [hself, hsent]
        · rw [Function.update_of_ne hne]
      refine h.pfMoved (fun _ => .same) (rel_update (fun _ => .same) hmove) rfl
        ⟨fun _ => rfl, hok', hack⟩ ?_ ?_
      · intro v
        change (Function.update s.down m.target out v).sent.length + _ ≤ _
        rw [hsame]
        have hold := h.paid v
        rw [hpc] at hold
        exact hold
      · intro v
        change ∀ words ∈ (Function.update s.down m.target out v).sent, _
        rw [hsame]
        exact h.acks v
  | sent hpc hw answers => exact h.sent hpc hw
  | busy hpc answers =>
      unfold pfSent
      exact h.pfPc trivial (fun _ => Nat.zero_le _)

end Pf

theorem RegsInv.step {s : MboxRegs} (e : MboxRegsEv) (h : RegsInv s) (hg : mboxRegsGuard s e) :
    RegsInv (mboxRegsStep s e) := by
  cases e with
  | vfSend v m wait => exact h.vfMoved (vfSend_moved h v m wait)
  | vfProc v => exact h.vfMoved (vfProc_moved h v)
  | vfStep v offline => exact h.vfMoved (vfStep_moved h v offline)
  | pfProc => exact h.pfPc trivial (fun _ => Nat.zero_le _)
  | pfStep pick fates offline => exact h.pfStep (pfStep_step h.pf hg)

/-- In every reachable state. -/
theorem regsInv_of_admits {pf : PfState} {es : List MboxRegsEv}
    (hrun : mboxRegsSys.Admits (MboxRegs.init pf) es) :
    RegsInv (mboxRegsSys.exec (MboxRegs.init pf) es) :=
  mboxRegsSys.invariant (fun _ e h hg => RegsInv.step e h hg) es (RegsInv.init pf) hrun

end Qdma

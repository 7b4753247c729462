import Qdma.Context

/-!
# The registers behind the contexts

`Qdma.Context` says what a context command does to the store.  The driver reaches the
store through nine registers: four words of data, four of mask, and a command word that
packs the queue id, the operation and the selector.  One window of data serves every
context, and a command is over when the busy bit of the command word falls.

* `IndRegs` are the registers with the store behind them, `IndRegs.execute` what the
  hardware makes of a command word.
* `hwIndirectCtextProgRegs` is `hw_indirect_ctext_prog` word by word.  It is written for
  any hardware (`CmdHw`); `mapCmd` is hardware that keeps the store and may leave the
  busy bit set.
* `ctextProgRegs_clr` and `ctextProgRegs_wr` connect it with `hwIndirectCtextProg`, and
  the three functions of `qdma_context.c` follow command by command.

The result is the round trip: what was programmed is what is read, and nothing else has
changed.
-/

namespace Qdma

/-! ## Command words -/

def IndCtxtCmdOp.code : IndCtxtCmdOp → ℕ
  | .clr => 0
  | .wr => 1
  | .rd => 2

def IndCtxtCmdSel.code : IndCtxtCmdSel → ℕ
  | .swC2h => 0
  | .swH2c => 1
  | .hwC2h => 2
  | .hwH2c => 3
  | .crC2h => 4
  | .crH2c => 5
  | .wrb => 6
  | .pftch => 7
  | .coal => 8

/-- The selector of a code, if there is one. -/
def IndCtxtCmdSel.ofCode : ℕ → Option IndCtxtCmdSel
  | 0 => some .swC2h
  | 1 => some .swH2c
  | 2 => some .hwC2h
  | 3 => some .hwH2c
  | 4 => some .crC2h
  | 5 => some .crH2c
  | 6 => some .wrb
  | 7 => some .pftch
  | 8 => some .coal
  | _ => none

def indCtxtCmdQidShift : ℕ := 7
def indCtxtCmdQidMask : ℕ := 0x7FF
def indCtxtCmdOpShift : ℕ := 5
def indCtxtCmdOpMask : ℕ := 0x3
def indCtxtCmdSelShift : ℕ := 1
def indCtxtCmdSelMask : ℕ := 0xF

/-- The word written to `QDMA_REG_IND_CTXT_CMD`. -/
def indCtxtCmd (qidHw : ℕ) (op : IndCtxtCmdOp) (sel : IndCtxtCmdSel) : ℕ :=
  u32 (qidHw <<< indCtxtCmdQidShift ||| op.code <<< indCtxtCmdOpShift |||
    sel.code <<< indCtxtCmdSelShift)

/-- The fields of a command word, as the hardware reads them. -/
structure IndCtxtCmd where
  qidHw : ℕ
  op : ℕ
  sel : ℕ

def IndCtxtCmd.decode (v : ℕ) : IndCtxtCmd where
  qidHw := v >>> indCtxtCmdQidShift &&& indCtxtCmdQidMask
  op := v >>> indCtxtCmdOpShift &&& indCtxtCmdOpMask
  sel := v >>> indCtxtCmdSelShift &&& indCtxtCmdSelMask

theorem IndCtxtCmdOp.code_lt (op : IndCtxtCmdOp) : op.code < 4 := by cases op <;> decide

theorem IndCtxtCmdSel.code_lt (sel : IndCtxtCmdSel) : sel.code < 16 := by cases sel <;> decide

@[simp] theorem IndCtxtCmdSel.ofCode_code (sel : IndCtxtCmdSel) : ofCode sel.code = some sel := by
  cases sel <;> rfl

/-- The queue id the hardware sees: the command word has eleven bits for it. -/
def hwQid (qidHw : ℕ) : ℕ := qidHw % 2048

theorem hwQid_of_lt {qidHw : ℕ} (h : qidHw < 2048) : hwQid qidHw = qidHw := Nat.mod_eq_of_lt h

/-- The three fields do not overlap. -/
theorem indCtxtCmd_eq (qidHw : ℕ) (op : IndCtxtCmdOp) (sel : IndCtxtCmdSel) :
    indCtxtCmd qidHw op sel = u32 (128 * qidHw + (32 * op.code + 2 * sel.code)) := by
  have hop := op.code_lt
  have hsel := sel.code_lt
  have hlow : op.code <<< indCtxtCmdOpShift ||| sel.code <<< indCtxtCmdSelShift =
      32 * op.code + 2 * sel.code := by
    rw [Nat.shiftLeft_eq, Nat.shiftLeft_eq, Nat.mul_comm op.code, Nat.mul_comm sel.code]
    exact (Nat.two_pow_add_eq_or_of_lt (i := 5) (by unfold indCtxtCmdSelShift; omega) op.code).symm
  unfold indCtxtCmd
  rw [Nat.or_assoc, hlow, Nat.shiftLeft_eq, Nat.mul_comm qidHw]
  have hall := Nat.two_pow_add_eq_or_of_lt (i := 7) (b := 32 * op.code + 2 * sel.code)
    (by omega) qidHw
  rw [show 2 ^ indCtxtCmdQidShift = 2 ^ 7 from rfl, ← hall]

/-- A command word holds what was packed into it, of the queue id the low bits. -/
theorem decode_indCtxtCmd (qidHw : ℕ) (op : IndCtxtCmdOp) (sel : IndCtxtCmdSel) :
    IndCtxtCmd.decode (indCtxtCmd qidHw op sel) =
      { qidHw := hwQid qidHw, op := op.code, sel := sel.code } := by
  have hop := op.code_lt
  have hsel := sel.code_lt
  rw [indCtxtCmd_eq]
  unfold IndCtxtCmd.decode indCtxtCmdQidShift indCtxtCmdQidMask indCtxtCmdOpShift
    indCtxtCmdOpMask indCtxtCmdSelShift indCtxtCmdSelMask u32 hwQid
  rw [Nat.shiftRight_eq_div_pow, Nat.shiftRight_eq_div_pow, Nat.shiftRight_eq_div_pow,
    show (0x7FF : ℕ) = 2 ^ 11 - 1 from rfl, show (0x3 : ℕ) = 2 ^ 2 - 1 from rfl,
    show (0xF : ℕ) = 2 ^ 4 - 1 from rfl, Nat.and_two_pow_sub_one_eq_mod,
    Nat.and_two_pow_sub_one_eq_mod, Nat.and_two_pow_sub_one_eq_mod]
  have hqid : (128 * qidHw + (32 * op.code + 2 * sel.code)) % 2 ^ 32 / 2 ^ 7 % 2 ^ 11 =
      qidHw % 2048 := by omega
  have hopc : (128 * qidHw + (32 * op.code + 2 * sel.code)) % 2 ^ 32 / 2 ^ 5 % 2 ^ 2 =
      op.code := by omega
  have hselc : (128 * qidHw + (32 * op.code + 2 * sel.code)) % 2 ^ 32 / 2 ^ 1 % 2 ^ 4 =
      sel.code := by omega
  rw [hqid, hopc, hselc]

/-! ## The hardware -/

/-- The registers of the indirect interface and the store they give access to. -/
structure IndRegs where
  data : ℕ → BitVec 32
  mask : ℕ → BitVec 32
  ctxt : CtxtStore

/-- The words a write leaves: the data where the mask is set. -/
def IndRegs.merge (r : IndRegs) (words : List (BitVec 32)) : List (BitVec 32) :=
  (List.range qdmaRegIndCtxtRegCount).map fun i =>
    (words.getD i 0 &&& ~~~r.mask i) ||| (r.data i &&& r.mask i)

/-- A command word is carried out. -/
def IndRegs.execute (r : IndRegs) (v : ℕ) : IndRegs :=
  let cmd := IndCtxtCmd.decode v
  match IndCtxtCmdSel.ofCode cmd.sel with
  | none => r
  | some sel =>
      if cmd.op = IndCtxtCmdOp.clr.code then
        { r with ctxt := r.ctxt.set cmd.qidHw sel ctxtZero }
      else if cmd.op = IndCtxtCmdOp.wr.code then
        { r with ctxt := r.ctxt.set cmd.qidHw sel (r.merge (r.ctxt cmd.qidHw sel)) }
      else if cmd.op = IndCtxtCmdOp.rd.code then
        { r with data := fun i =>
            if i < qdmaRegIndCtxtRegCount then (r.ctxt cmd.qidHw sel).getD i 0 else r.data i }
      else r

/-- What some hardware does with one command: the effect of the command word, and whether
the busy bit falls while it is polled. -/
structure CmdHw where
  effect : IndRegs → ℕ → IndRegs
  falls : Bool

/-- Hardware that keeps the store; a command that is not seen to complete may have taken
effect or not. -/
def mapCmd (fate : CmdFate) : CmdHw where
  effect r v := if fate.applied then r.execute v else r
  falls := decide (fate = .completes)

/-! ## The driver -/

/-- The four mask words, all ones. -/
def IndRegs.openMask (r : IndRegs) : IndRegs :=
  { r with mask := fun i => if i < qdmaRegIndCtxtRegCount then 0xFFFFFFFF#32 else r.mask i }

/-- `cnt` words of the caller's and zeros behind them. -/
def IndRegs.loadData (r : IndRegs) (data : List (BitVec 32)) (cnt : ℕ) : IndRegs :=
  { r with data := fun i =>
      if i < cnt then data.getD i 0 else if i < qdmaRegIndCtxtRegCount then 0 else r.data i }

/-- The first `cnt` words of the data window. -/
def IndRegs.readData (r : IndRegs) (cnt : ℕ) : List (BitVec 32) := (List.range cnt).map r.data

/-- `hw_indirect_ctext_prog`: the value, the caller's buffer and the registers. -/
def hwIndirectCtextProgRegs (hw hwRd : CmdHw) (r : IndRegs) (qidHw : ℕ) (op : IndCtxtCmdOp)
    (sel : IndCtxtCmdSel) (data : List (BitVec 32)) (cnt : ℕ) (verify : Bool) :
    ℤ × List (BitVec 32) × IndRegs :=
  if (op = .wr ∨ op = .rd) ∧ (cnt = 0 ∨ qdmaRegIndCtxtRegCount < cnt ∨ data = []) then
    (-einval, data, r)
  else
    let r := if op = .wr ∨ op = .rd then r.openMask else r
    let r := if op = .wr then r.loadData data cnt else r
    let r := hw.effect r (indCtxtCmd qidHw op sel)
    if !hw.falls then (-ebusy, data, r)
    else if op = .rd then (0, r.readData cnt, r)
    else if !verify then (0, data, r)
    else
      let r := hwRd.effect r (indCtxtCmd qidHw .rd sel)
      if !hwRd.falls then (-ebusy, data, r)
      else if data.take cnt ≠ r.readData cnt then (-einval, data, r)
      else (0, data, r)

/-- `if (rv < 0) return rv;` after a command. -/
def regsThen (x : ℤ × List (BitVec 32) × IndRegs) (next : IndRegs → ℤ × IndRegs) : ℤ × IndRegs :=
  if x.1 < 0 then (x.1, x.2.2) else next x.2.2

/-- `qdma_descq_context_clear`. -/
def descqContextClearRegs (f : ℕ → CmdHw) (r : IndRegs) (qidHw : ℕ) (st c2h : Bool) : ℤ × IndRegs :=
  regsThen (hwIndirectCtextProgRegs (f 0) (f 0) r qidHw .clr (swSel c2h) [] 0 false) fun r =>
  regsThen (hwIndirectCtextProgRegs (f 1) (f 1) r qidHw .clr (hwSel c2h) [] 0 false) fun r =>
  regsThen (hwIndirectCtextProgRegs (f 2) (f 2) r qidHw .clr (crSel c2h) [] 0 false) fun r =>
  if st && c2h then
    regsThen (hwIndirectCtextProgRegs (f 3) (f 4) r qidHw .wr .pftch ctxtZero 4 true) fun r =>
    regsThen (hwIndirectCtextProgRegs (f 5) (f 5) r qidHw .clr .wrb [] 0 false) fun r => (0, r)
  else (0, r)

/-- `qdma_descq_context_program`. -/
def descqContextProgramRegs (clear write : ℕ → CmdHw) (r : IndRegs) (qidHw : ℕ) (st c2h : Bool)
    (context : HwDescqContext) : ℤ × IndRegs :=
  let x := descqContextClearRegs clear r qidHw st c2h
  if x.1 < 0 then x
  else
    regsThen (hwIndirectCtextProgRegs (write 0) (write 1) x.2 qidHw .wr (swSel c2h) context.sw 4 true)
      fun r =>
    if !st || !c2h then (0, r)
    else
      regsThen (hwIndirectCtextProgRegs (write 2) (write 3) r qidHw .wr .pftch context.prefetch 2 true)
        fun r =>
      regsThen (hwIndirectCtextProgRegs (write 4) (write 5) r qidHw .wr .wrb context.wrb 4 true)
        fun r => (0, r)

/-- `struct hw_descq_context`, with the parts that are only read. -/
structure HwDescqContextRd extends HwDescqContext where
  hw : List (BitVec 32)
  cr : List (BitVec 32)

/-- `memset(context, 0, …)`. -/
def HwDescqContextRd.zero : HwDescqContextRd where
  sw := List.replicate 4 0
  prefetch := List.replicate 2 0
  wrb := List.replicate 4 0
  hw := List.replicate 2 0
  cr := List.replicate 1 0

/-- `qdma_descq_context_read`. -/
def descqContextReadRegs (f : ℕ → CmdHw) (r : IndRegs) (qidHw : ℕ) (st c2h : Bool) :
    ℤ × HwDescqContextRd × IndRegs :=
  let c := HwDescqContextRd.zero
  let x := hwIndirectCtextProgRegs (f 0) (f 0) r qidHw .rd (swSel c2h) c.sw 4 false
  let c := { c with sw := x.2.1 }
  if x.1 < 0 then (x.1, c, x.2.2)
  else
    let x := hwIndirectCtextProgRegs (f 1) (f 1) x.2.2 qidHw .rd (hwSel c2h) c.hw 2 false
    let c := { c with hw := x.2.1 }
    if x.1 < 0 then (x.1, c, x.2.2)
    else
      let x := hwIndirectCtextProgRegs (f 2) (f 2) x.2.2 qidHw .rd (crSel c2h) c.cr 1 false
      let c := { c with cr := x.2.1 }
      if x.1 < 0 then (x.1, c, x.2.2)
      else if st && c2h then
        let x := hwIndirectCtextProgRegs (f 3) (f 3) x.2.2 qidHw .rd .wrb c.wrb 4 false
        let c := { c with wrb := x.2.1 }
        if x.1 < 0 then (x.1, c, x.2.2)
        else
          let x := hwIndirectCtextProgRegs (f 4) (f 4) x.2.2 qidHw .rd .pftch c.prefetch 2 false
          let c := { c with prefetch := x.2.1 }
          if x.1 < 0 then (x.1, c, x.2.2) else (0, c, x.2.2)
      else (0, c, x.2.2)

/-! ## One command -/

section Command

variable (r : IndRegs) (qidHw : ℕ) (sel : IndCtxtCmdSel)

theorem execute_clr :
    r.execute (indCtxtCmd qidHw .clr sel) =
      { r with ctxt := r.ctxt.set (hwQid qidHw) sel ctxtZero } := by
  unfold IndRegs.execute
  rw [decode_indCtxtCmd]
  dsimp only
  rw [IndCtxtCmdSel.ofCode_code]
  rfl

theorem execute_wr :
    r.execute (indCtxtCmd qidHw .wr sel) =
      { r with ctxt := r.ctxt.set (hwQid qidHw) sel (r.merge (r.ctxt (hwQid qidHw) sel)) } := by
  unfold IndRegs.execute
  rw [decode_indCtxtCmd]
  dsimp only
  rw [IndCtxtCmdSel.ofCode_code]
  rfl

theorem execute_rd :
    r.execute (indCtxtCmd qidHw .rd sel) =
      { r with data := fun i =>
          if i < qdmaRegIndCtxtRegCount then (r.ctxt (hwQid qidHw) sel).getD i 0 else r.data i } := by
  unfold IndRegs.execute
  rw [decode_indCtxtCmd]
  dsimp only
  rw [IndCtxtCmdSel.ofCode_code]
  rfl

/-- Under an open mask the words are replaced by the data. -/
theorem merge_loadData (data : List (BitVec 32)) {cnt : ℕ} (hlen : data.length = cnt)
    (words : List (BitVec 32)) :
    (r.openMask.loadData data cnt).merge words = ctxtData (data.take cnt) := by
  have hones : ∀ x y : BitVec 32, (x &&& ~~~0xFFFFFFFF#32) ||| (y &&& 0xFFFFFFFF#32) = y := by
    intro x y
    rw [show ~~~0xFFFFFFFF#32 = 0#32 from by decide, BitVec.and_zero, BitVec.zero_or,
      show 0xFFFFFFFF#32 = BitVec.allOnes 32 from by decide, BitVec.and_allOnes]
  unfold IndRegs.merge ctxtData
  rw [List.take_of_length_le (le_of_eq hlen)]
  refine List.ext_getElem ?_ fun i hi hi' => ?_
  · simp [ctxtZero]
  · rw [List.length_map, List.length_range] at hi
    rw [List.getElem_map, List.getElem_range, List.getElem_take]
    unfold IndRegs.loadData IndRegs.openMask
    dsimp only
    rw [if_pos hi, hones, List.getElem_append]
    by_cases hc : i < cnt
    · have hlt : i < data.length := by omega
      rw [if_pos hc, dif_pos hlt, List.getD_eq_getElem?_getD, List.getElem?_eq_getElem hlt,
        Option.getD_some]
    · rw [if_neg hc, if_pos hi, dif_neg (by omega)]
      simp [ctxtZero]

/-- The words read back from a store that has four of them. -/
theorem readData_execute_rd {cnt : ℕ} (hle : cnt ≤ qdmaRegIndCtxtRegCount)
    (hwords : (r.ctxt (hwQid qidHw) sel).length = qdmaRegIndCtxtRegCount) :
    (r.execute (indCtxtCmd qidHw .rd sel)).readData cnt = (r.ctxt (hwQid qidHw) sel).take cnt := by
  rw [execute_rd r qidHw]
  unfold IndRegs.readData
  refine List.ext_getElem ?_ fun i hi hi' => ?_
  · simp [hwords, hle]
  · rw [List.length_map, List.length_range] at hi
    rw [List.getElem_map, List.getElem_range, List.getElem_take]
    dsimp only
    have hlt : i < (r.ctxt (hwQid qidHw) sel).length := by omega
    rw [if_pos (by omega), List.getD_eq_getElem?_getD, List.getElem?_eq_getElem hlt,
      Option.getD_some]

/-- A clear at the registers is a clear of the store. -/
theorem ctextProgRegs_clr (fate rdFate : CmdFate) (hwRd : CmdHw) :
    (hwIndirectCtextProgRegs (mapCmd fate) hwRd r qidHw .clr sel [] 0 false).1 =
        (hwIndirectCtextProg fate rdFate r.ctxt (hwQid qidHw) .clr sel [] 0 false).rv ∧
      (hwIndirectCtextProgRegs (mapCmd fate) hwRd r qidHw .clr sel [] 0 false).2.2.ctxt =
        (hwIndirectCtextProg fate rdFate r.ctxt (hwQid qidHw) .clr sel [] 0 false).ctxt := by
  unfold hwIndirectCtextProgRegs hwIndirectCtextProg mapCmd
  simp only [reduceCtorEq, or_self, false_and, if_false, execute_clr r qidHw]
  cases fate with
  | completes => exact ⟨rfl, rfl⟩
  | timesOut applied => cases applied <;> exact ⟨rfl, rfl⟩

/-- A verified write at the registers is a verified write of the store. -/
theorem ctextProgRegs_wr (fate rdFate : CmdFate) {data : List (BitVec 32)} {cnt : ℕ}
    (hlen : data.length = cnt) (hcnt : cnt ≠ 0) (hle : cnt ≤ qdmaRegIndCtxtRegCount) :
    (hwIndirectCtextProgRegs (mapCmd fate) (mapCmd rdFate) r qidHw .wr sel data cnt true).1 =
        (hwIndirectCtextProg fate rdFate r.ctxt (hwQid qidHw) .wr sel data cnt true).rv ∧
      (hwIndirectCtextProgRegs (mapCmd fate) (mapCmd rdFate) r qidHw .wr sel data cnt
          true).2.2.ctxt =
        (hwIndirectCtextProg fate rdFate r.ctxt (hwQid qidHw) .wr sel data cnt true).ctxt := by
  have hargs : ¬ ((IndCtxtCmdOp.wr = .wr ∨ IndCtxtCmdOp.wr = .rd) ∧
      (cnt = 0 ∨ qdmaRegIndCtxtRegCount < cnt ∨ data = [])) := by
    rintro ⟨-, hz | hlt | rfl⟩
    · exact hcnt hz
    · exact absurd hlt (Nat.not_lt.mpr hle)
    · exact hcnt hlen.symm
  have hctxt : ((r.openMask.loadData data cnt).execute (indCtxtCmd qidHw .wr sel)).ctxt =
      r.ctxt.command (hwQid qidHw) .wr sel (data.take cnt) := by
    rw [execute_wr _ qidHw, merge_loadData r data hlen]
    rfl
  have hfour : (((r.openMask.loadData data cnt).execute (indCtxtCmd qidHw .wr sel)).ctxt
      (hwQid qidHw) sel).length = qdmaRegIndCtxtRegCount := by
    rw [hctxt]
    unfold CtxtStore.command
    dsimp only
    rw [CtxtStore.set_self, ctxtData_length]
  unfold hwIndirectCtextProgRegs hwIndirectCtextProg
  rw [if_neg hargs, if_neg hargs]
  simp only [true_or, if_true, mapCmd]
  cases fate with
  | timesOut applied =>
      cases applied with
      | false => exact ⟨rfl, rfl⟩
      | true => exact ⟨rfl, hctxt⟩
  | completes =>
      simp only [CmdFate.applied, if_true, decide_true, Bool.not_true, Bool.false_eq_true, if_false,
        reduceCtorEq, ne_eq, not_true_eq_false]
      cases rdFate with
      | timesOut applied =>
          cases applied with
          | false => exact ⟨rfl, hctxt⟩
          | true =>
              refine ⟨rfl, ?_⟩
              rw [← hctxt, execute_rd _ qidHw]
              rfl
      | completes =>
          simp only [↓reduceIte, decide_true, Bool.not_true, Bool.false_eq_true,
            not_true_eq_false]
          rw [readData_execute_rd _ qidHw sel hle hfour, hctxt]
          have hrd : ((((r.openMask.loadData data cnt).execute (indCtxtCmd qidHw .wr sel)).execute
              (indCtxtCmd qidHw .rd sel))).ctxt = r.ctxt.command (hwQid qidHw) .wr sel (data.take cnt) := by
            rw [execute_rd _ qidHw, ← hctxt]
          split
          · exact ⟨rfl, hrd⟩
          · exact ⟨rfl, hrd⟩

/-- A read at the registers returns the words of the store and changes none. -/
theorem ctextProgRegs_rd (fate : CmdFate) (hwRd : CmdHw) {data : List (BitVec 32)} {cnt : ℕ}
    (hdata : data ≠ []) (hcnt : cnt ≠ 0) (hle : cnt ≤ qdmaRegIndCtxtRegCount) (verify : Bool) :
    (hwIndirectCtextProgRegs (mapCmd fate) hwRd r qidHw .rd sel data cnt verify).2.2.ctxt =
        r.ctxt ∧
      (¬ (hwIndirectCtextProgRegs (mapCmd fate) hwRd r qidHw .rd sel data cnt verify).1 < 0 →
        (r.ctxt (hwQid qidHw) sel).length = qdmaRegIndCtxtRegCount →
        (hwIndirectCtextProgRegs (mapCmd fate) hwRd r qidHw .rd sel data cnt verify).2.1 =
          (r.ctxt (hwQid qidHw) sel).take cnt) := by
  have hargs : ¬ ((IndCtxtCmdOp.rd = .wr ∨ IndCtxtCmdOp.rd = .rd) ∧
      (cnt = 0 ∨ qdmaRegIndCtxtRegCount < cnt ∨ data = [])) := by
    rintro ⟨-, hz | hlt | hnil⟩
    · exact hcnt hz
    · exact absurd hlt (Nat.not_lt.mpr hle)
    · exact hdata hnil
  have hctxt : (r.openMask.execute (indCtxtCmd qidHw .rd sel)).ctxt = r.ctxt := by
    rw [execute_rd r.openMask qidHw sel]
    rfl
  unfold hwIndirectCtextProgRegs
  rw [if_neg hargs]
  simp only [or_true, reduceCtorEq, if_true, if_false, mapCmd]
  cases fate with
  | timesOut applied =>
      have hbusy : -ebusy < 0 := by decide
      refine ⟨?_, fun hc => absurd hbusy hc⟩
      cases applied with
      | false => rfl
      | true => exact hctxt
  | completes =>
      simp only [CmdFate.applied, if_true, decide_true, Bool.not_true, Bool.false_eq_true, if_false]
      refine ⟨hctxt, fun _ hfour => ?_⟩
      exact readData_execute_rd r.openMask qidHw sel hle hfour

end Command

/-! ## The sequences -/

/-- The registers do to the store what the store's own model does. -/
structure Refines (x : ℤ × IndRegs) (y : ℤ × CtxtStore) : Prop where
  rv : x.1 = y.1
  ctxt : x.2.ctxt = y.2

theorem regsThen_refines {x : ℤ × List (BitVec 32) × IndRegs} {y : CtxtRes}
    (hx : x.1 = y.rv ∧ x.2.2.ctxt = y.ctxt) {next : IndRegs → ℤ × IndRegs}
    {next' : CtxtStore → ℤ × CtxtStore} (hnext : ∀ r, Refines (next r) (next' r.ctxt)) :
    Refines (regsThen x next) (ctxtThen y next') := by
  unfold regsThen ctxtThen
  rw [hx.1]
  split
  · exact ⟨rfl, hx.2⟩
  · rw [← hx.2]
    exact hnext _

theorem contextClear_refines (f : ℕ → CmdFate) (r : IndRegs) (qidHw : ℕ)
    (st c2h : Bool) :
    Refines (descqContextClearRegs (fun i => mapCmd (f i)) r qidHw st c2h)
      (qdmaDescqContextClear f r.ctxt (hwQid qidHw) st c2h) := by
  unfold descqContextClearRegs qdmaDescqContextClear
  refine regsThen_refines (ctextProgRegs_clr r qidHw _ _ _ _) fun r => ?_
  refine regsThen_refines (ctextProgRegs_clr r qidHw _ _ _ _) fun r => ?_
  refine regsThen_refines (ctextProgRegs_clr r qidHw _ _ _ _) fun r => ?_
  split
  · refine regsThen_refines (ctextProgRegs_wr r qidHw _ _ _ rfl (by decide) (by decide)) fun r => ?_
    exact regsThen_refines (ctextProgRegs_clr r qidHw _ _ _ _) fun r => ⟨rfl, rfl⟩
  · exact ⟨rfl, rfl⟩

theorem contextProgram_refines (clear write : ℕ → CmdFate) (r : IndRegs) (qidHw : ℕ)
    {st c2h : Bool} {context : HwDescqContext} (hfits : context.Fits st c2h) :
    Refines
      (descqContextProgramRegs (fun i => mapCmd (clear i)) (fun i => mapCmd (write i)) r qidHw st c2h
        context)
      (qdmaDescqContextProgram clear write r.ctxt (hwQid qidHw) st c2h context) := by
  have hclear := contextClear_refines clear r qidHw st c2h
  unfold descqContextProgramRegs qdmaDescqContextProgram
  dsimp only
  rw [hclear.rv, ← hclear.ctxt]
  split
  · exact hclear
  · refine regsThen_refines
      (ctextProgRegs_wr _ qidHw _ _ _ hfits.sw (by decide) (by decide)) fun r => ?_
    split
    · exact ⟨rfl, rfl⟩
    · rename_i hst
      have hst : (st && c2h) = true := by
        cases st <;> cases c2h <;> simp_all
      refine regsThen_refines
        (ctextProgRegs_wr r qidHw _ _ _ (hfits.prefetch hst) (by decide) (by decide)) fun r => ?_
      exact regsThen_refines
        (ctextProgRegs_wr r qidHw _ _ _ (hfits.wrb hst) (by decide) (by decide)) fun r => ⟨rfl, rfl⟩

/-! ## The round trip -/

/-- A read that succeeds returns the words of the store. -/
theorem contextRead_ok (f : ℕ → CmdFate) (r : IndRegs) (qidHw : ℕ) {st c2h : Bool}
    (hwords : ∀ s, OwnSel st c2h s → (r.ctxt (hwQid qidHw) s).length = qdmaRegIndCtxtRegCount)
    (hok : (descqContextReadRegs (fun i => mapCmd (f i)) r qidHw st c2h).1 = 0) :
    (descqContextReadRegs (fun i => mapCmd (f i)) r qidHw st c2h).2.1 =
      { sw := (r.ctxt (hwQid qidHw) (swSel c2h)).take 4
        hw := (r.ctxt (hwQid qidHw) (hwSel c2h)).take 2
        cr := (r.ctxt (hwQid qidHw) (crSel c2h)).take 1
        wrb := if st && c2h then (r.ctxt (hwQid qidHw) .wrb).take 4 else List.replicate 4 0
        prefetch := if st && c2h then (r.ctxt (hwQid qidHw) .pftch).take 2 else List.replicate 2 0 } := by
  -- what one of the reads leaves, whatever the registers before it
  have hread : ∀ (r' : IndRegs) (i : ℕ) (sel : IndCtxtCmdSel) (data : List (BitVec 32)) (cnt : ℕ),
      r'.ctxt = r.ctxt → OwnSel st c2h sel → data ≠ [] → cnt ≠ 0 → cnt ≤ qdmaRegIndCtxtRegCount →
      (hwIndirectCtextProgRegs (mapCmd (f i)) (mapCmd (f i)) r' qidHw .rd sel data cnt
          false).2.2.ctxt = r.ctxt ∧
        (¬ (hwIndirectCtextProgRegs (mapCmd (f i)) (mapCmd (f i)) r' qidHw .rd sel data cnt
            false).1 < 0 →
          (hwIndirectCtextProgRegs (mapCmd (f i)) (mapCmd (f i)) r' qidHw .rd sel data cnt
            false).2.1 = (r.ctxt (hwQid qidHw) sel).take cnt) := by
    intro r' i sel data cnt hr hown hdata hcnt hle
    obtain ⟨hctxt, hval⟩ :=
      ctextProgRegs_rd r' qidHw sel (f i) (mapCmd (f i)) hdata hcnt hle false
    rw [hr] at hctxt hval
    exact ⟨hctxt, fun hneg => hval hneg (hwords sel hown)⟩
  have hsw := hread r 0 (swSel c2h) HwDescqContextRd.zero.sw 4 rfl (Or.inl rfl) (by decide)
    (by decide) (by decide)
  unfold descqContextReadRegs at hok ⊢
  dsimp only at hok ⊢
  generalize hwIndirectCtextProgRegs (mapCmd (f 0)) (mapCmd (f 0)) r qidHw .rd (swSel c2h)
    HwDescqContextRd.zero.sw 4 false = x₀ at hsw hok ⊢
  split at hok
  · rename_i hneg
    exact absurd hok (ne_of_lt hneg)
  rename_i h₀
  have hhw := hread x₀.2.2 1 (hwSel c2h) HwDescqContextRd.zero.hw 2 hsw.1 (Or.inr (Or.inl rfl))
    (by decide) (by decide) (by decide)
  rw [if_neg h₀]
  generalize hwIndirectCtextProgRegs (mapCmd (f 1)) (mapCmd (f 1)) x₀.2.2 qidHw .rd (hwSel c2h)
    HwDescqContextRd.zero.hw 2 false = x₁ at hhw hok ⊢
  split at hok
  · rename_i hneg
    exact absurd hok (ne_of_lt hneg)
  rename_i h₁
  have hcr := hread x₁.2.2 2 (crSel c2h) HwDescqContextRd.zero.cr 1 hhw.1
    (Or.inr (Or.inr (Or.inl rfl))) (by decide) (by decide) (by decide)
  rw [if_neg h₁]
  generalize hwIndirectCtextProgRegs (mapCmd (f 2)) (mapCmd (f 2)) x₁.2.2 qidHw .rd (crSel c2h)
    HwDescqContextRd.zero.cr 1 false = x₂ at hcr hok ⊢
  split at hok
  · rename_i hneg
    exact absurd hok (ne_of_lt hneg)
  rename_i h₂
  rw [if_neg h₂]
  by_cases hst : (st && c2h) = true
  · have hwrb := hread x₂.2.2 3 .wrb HwDescqContextRd.zero.wrb 4 hcr.1
      (Or.inr (Or.inr (Or.inr ⟨hst, Or.inr rfl⟩))) (by decide) (by decide) (by decide)
    simp only [if_pos hst] at hok ⊢
    generalize hwIndirectCtextProgRegs (mapCmd (f 3)) (mapCmd (f 3)) x₂.2.2 qidHw .rd .wrb
      HwDescqContextRd.zero.wrb 4 false = x₃ at hwrb hok ⊢
    split at hok
    · rename_i hneg
      exact absurd hok (ne_of_lt hneg)
    rename_i h₃
    have hpf := hread x₃.2.2 4 .pftch HwDescqContextRd.zero.prefetch 2 hwrb.1
      (Or.inr (Or.inr (Or.inr ⟨hst, Or.inl rfl⟩))) (by decide) (by decide) (by decide)
    rw [if_neg h₃]
    generalize hwIndirectCtextProgRegs (mapCmd (f 4)) (mapCmd (f 4)) x₃.2.2 qidHw .rd .pftch
      HwDescqContextRd.zero.prefetch 2 false = x₄ at hpf hok ⊢
    split at hok
    · rename_i hneg
      exact absurd hok (ne_of_lt hneg)
    rename_i h₄
    rw [if_neg h₄, ← hsw.2 h₀, ← hhw.2 h₁, ← hcr.2 h₂, ← hwrb.2 h₃, ← hpf.2 h₄]
  · simp only [if_neg hst]
    rw [← hsw.2 h₀, ← hhw.2 h₁, ← hcr.2 h₂]
    rfl

/-- What is read after `context` was programmed. -/
structure ReadsBack (context : HwDescqContext) (st c2h : Bool) (got : HwDescqContextRd) : Prop where
  sw : got.sw = context.sw
  hw : got.hw = [0, 0]
  cr : got.cr = [0]
  stC2h : (st && c2h) = true → got.wrb = context.wrb ∧ got.prefetch = context.prefetch
  other : (st && c2h) = false → got.wrb = [0, 0, 0, 0] ∧ got.prefetch = [0, 0]

theorem contextProgram_reads_back (clear write read : ℕ → CmdFate) (r : IndRegs) (qidHw : ℕ)
    {st c2h : Bool} {context : HwDescqContext} (hfits : context.Fits st c2h)
    {p : ℤ × IndRegs}
    (hp : p = descqContextProgramRegs (fun i => mapCmd (clear i)) (fun i => mapCmd (write i)) r
      qidHw st c2h context)
    (hprog : p.1 = 0)
    (hread : (descqContextReadRegs (fun i => mapCmd (read i)) p.2 qidHw st c2h).1 = 0) :
    ReadsBack context st c2h
      (descqContextReadRegs (fun i => mapCmd (read i)) p.2 qidHw st c2h).2.1 := by
  obtain ⟨hrv, hctxt⟩ := contextProgram_refines clear write r qidHw hfits
  rw [← hp] at hrv hctxt
  have hok : ¬ (qdmaDescqContextProgram clear write r.ctxt (hwQid qidHw) st c2h context).1 < 0 := by
    rw [← hrv, hprog]
    exact lt_irrefl 0
  obtain ⟨hsw, hst⟩ := contextProgram_ok hok
  obtain ⟨hhw, hcr⟩ := contextProgram_ok_zero hok
  rw [← hctxt] at hsw hst hhw hcr
  have hwords : ∀ s, OwnSel st c2h s → (p.2.ctxt (hwQid qidHw) s).length = qdmaRegIndCtxtRegCount := by
    rintro s (rfl | rfl | rfl | ⟨hown, rfl | rfl⟩)
    · rw [hsw, ctxtData_length]
    · rw [hhw]
      rfl
    · rw [hcr]
      rfl
    · rw [(hst hown).1, ctxtData_length]
    · rw [(hst hown).2, ctxtData_length]
  rw [contextRead_ok read p.2 qidHw hwords hread]
  refine ⟨?_, ?_, ?_, fun hown => ⟨?_, ?_⟩, fun hown => ⟨?_, ?_⟩⟩
  · dsimp only
    rw [hsw, ctxtData_take hfits.sw (by decide)]
  · dsimp only
    rw [hhw]
    rfl
  · dsimp only
    rw [hcr]
    rfl
  · dsimp only
    rw [if_pos hown, (hst hown).2, ctxtData_take (hfits.wrb hown) (by decide)]
  · dsimp only
    rw [if_pos hown, (hst hown).1, ctxtData_take (hfits.prefetch hown) (by decide)]
  · dsimp only
    rw [hown]
    rfl
  · dsimp only
    rw [hown]
    rfl

/-! ## Verification -/

/-- The words read back after a write are the words written, on any hardware. -/
def ReadBack (hw hwRd : CmdHw) (r : IndRegs) (qidHw : ℕ) (sel : IndCtxtCmdSel)
    (data : List (BitVec 32)) (cnt : ℕ) : Prop :=
  (hwRd.effect (hw.effect (r.openMask.loadData data cnt) (indCtxtCmd qidHw .wr sel))
    (indCtxtCmd qidHw .rd sel)).readData cnt = data.take cnt

theorem ctextProgRegs_verified {hw hwRd : CmdHw} {r : IndRegs} {qidHw : ℕ} {sel : IndCtxtCmdSel}
    {data : List (BitVec 32)} {cnt : ℕ}
    (h : ¬ (hwIndirectCtextProgRegs hw hwRd r qidHw .wr sel data cnt true).1 < 0) :
    ReadBack hw hwRd r qidHw sel data cnt := by
  have hinval : -einval < 0 := by decide
  have hbusy : -ebusy < 0 := by decide
  unfold hwIndirectCtextProgRegs at h
  split at h
  · exact absurd hinval h
  · simp only [true_or, if_true, Bool.not_true, Bool.false_eq_true, if_false, reduceCtorEq] at h
    split at h
    · exact absurd hbusy h
    · split at h
      · exact absurd hbusy h
      · split at h
        · exact absurd hinval h
        · rename_i hsame
          exact (not_not.mp hsame).symm

theorem regsThen_ok {x : ℤ × List (BitVec 32) × IndRegs} {next : IndRegs → ℤ × IndRegs}
    (h : ¬ (regsThen x next).1 < 0) : ¬ x.1 < 0 ∧ regsThen x next = next x.2.2 := by
  unfold regsThen at h ⊢
  by_cases hx : x.1 < 0
  · rw [if_pos hx] at h
    exact absurd hx h
  · exact ⟨hx, if_neg hx⟩

/-- The registers after the first three commands of a clear. -/
def clearedRegs (f : ℕ → CmdHw) (r : IndRegs) (qidHw : ℕ) (c2h : Bool) : IndRegs :=
  let r := (hwIndirectCtextProgRegs (f 0) (f 0) r qidHw .clr (swSel c2h) [] 0 false).2.2
  let r := (hwIndirectCtextProgRegs (f 1) (f 1) r qidHw .clr (hwSel c2h) [] 0 false).2.2
  (hwIndirectCtextProgRegs (f 2) (f 2) r qidHw .clr (crSel c2h) [] 0 false).2.2

/-- The registers after a write. -/
def wroteRegs (hw hwRd : CmdHw) (r : IndRegs) (qidHw : ℕ) (sel : IndCtxtCmdSel)
    (data : List (BitVec 32)) (cnt : ℕ) : IndRegs :=
  (hwIndirectCtextProgRegs hw hwRd r qidHw .wr sel data cnt true).2.2

/-- Every verified write of a programming read back what it wrote: the zeros of its
clear, then the words of the context. -/
structure ProgramVerified (clear write : ℕ → CmdHw) (r : IndRegs) (qidHw : ℕ) (st c2h : Bool)
    (context : HwDescqContext) : Prop where
  zero : (st && c2h) = true →
    ReadBack (clear 3) (clear 4) (clearedRegs clear r qidHw c2h) qidHw .pftch ctxtZero 4
  sw : ReadBack (write 0) (write 1) (descqContextClearRegs clear r qidHw st c2h).2 qidHw
    (swSel c2h) context.sw 4
  prefetch : (st && c2h) = true →
    ReadBack (write 2) (write 3)
      (wroteRegs (write 0) (write 1) (descqContextClearRegs clear r qidHw st c2h).2 qidHw
        (swSel c2h) context.sw 4)
      qidHw .pftch context.prefetch 2
  wrb : (st && c2h) = true →
    ReadBack (write 4) (write 5)
      (wroteRegs (write 2) (write 3)
        (wroteRegs (write 0) (write 1) (descqContextClearRegs clear r qidHw st c2h).2 qidHw
          (swSel c2h) context.sw 4)
        qidHw .pftch context.prefetch 2)
      qidHw .wrb context.wrb 4

theorem contextClear_verified {f : ℕ → CmdHw} {r : IndRegs} {qidHw : ℕ} {st c2h : Bool}
    (h : ¬ (descqContextClearRegs f r qidHw st c2h).1 < 0) (hst : (st && c2h) = true) :
    ReadBack (f 3) (f 4) (clearedRegs f r qidHw c2h) qidHw .pftch ctxtZero 4 := by
  unfold descqContextClearRegs at h
  obtain ⟨-, heq⟩ := regsThen_ok h
  rw [heq] at h
  obtain ⟨-, heq⟩ := regsThen_ok h
  rw [heq] at h
  obtain ⟨-, heq⟩ := regsThen_ok h
  rw [heq, if_pos hst] at h
  obtain ⟨hpf, -⟩ := regsThen_ok h
  exact ctextProgRegs_verified hpf

/-- A write that reads back differently fails the call, whatever the hardware does. -/
theorem contextProgram_verified {clear write : ℕ → CmdHw} {r : IndRegs} {qidHw : ℕ} {st c2h : Bool}
    {context : HwDescqContext}
    (h : ¬ (descqContextProgramRegs clear write r qidHw st c2h context).1 < 0) :
    ProgramVerified clear write r qidHw st c2h context := by
  unfold descqContextProgramRegs at h
  dsimp only at h
  split at h
  · rename_i hneg
    exact absurd hneg h
  · rename_i hclear
    obtain ⟨hsw, heq⟩ := regsThen_ok h
    rw [heq] at h
    have hrest : (st && c2h) = true → _ := fun hst => by
      rw [if_neg (by cases st <;> cases c2h <;> simp_all)] at h
      obtain ⟨hpf, heq⟩ := regsThen_ok h
      rw [heq] at h
      obtain ⟨hwrb, -⟩ := regsThen_ok h
      exact And.intro (ctextProgRegs_verified hpf) (ctextProgRegs_verified hwrb)
    exact ⟨contextClear_verified hclear, ctextProgRegs_verified hsw, fun hst => (hrest hst).1,
      fun hst => (hrest hst).2⟩

/-- **Program and read.**  What was programmed is what is read; no other context has
changed, however the call ends; and on any hardware a verified write that reads back
differently fails the call. -/
theorem context_round_trip {qidHw : ℕ} (hq : qidHw < 2048) (st c2h : Bool)
    {context : HwDescqContext}
    (hcontext : context.sw.length = 4 ∧ context.prefetch.length = 2 ∧ context.wrb.length = 4)
    (r : IndRegs) (clear write read : ℕ → CmdFate) (hwClear hwWrite : ℕ → CmdHw)
    {p : ℤ × IndRegs}
    (hp : p = descqContextProgramRegs (fun i => mapCmd (clear i)) (fun i => mapCmd (write i)) r
      qidHw st c2h context) :
    (p.1 = 0 → (descqContextReadRegs (fun i => mapCmd (read i)) p.2 qidHw st c2h).1 = 0 →
        ReadsBack context st c2h
          (descqContextReadRegs (fun i => mapCmd (read i)) p.2 qidHw st c2h).2.1) ∧
      (∀ q s, (q = qidHw → ¬ OwnSel st c2h s) → p.2.ctxt q s = r.ctxt q s) ∧
      (¬ ProgramVerified hwClear hwWrite r qidHw st c2h context →
        (descqContextProgramRegs hwClear hwWrite r qidHw st c2h context).1 < 0) := by
  obtain ⟨hsw, hpf, hwrb⟩ := hcontext
  have hfits : context.Fits st c2h := ⟨hsw, fun _ => hpf, fun _ => hwrb⟩
  refine ⟨contextProgram_reads_back clear write read r qidHw hfits hp, fun q s hown => ?_,
    fun hnot => ?_⟩
  · have hctxt := (contextProgram_refines clear write r qidHw hfits).ctxt
    rw [← hp, hwQid_of_lt hq] at hctxt
    rw [hctxt]
    exact contextProgram_frame clear write r.ctxt context hown
  · by_contra hok
    exact hnot (contextProgram_verified hok)

/-- The contexts of a streaming C2H queue, on hardware that answers every command. -/
def sampleContext : HwDescqContext where
  sw := [1, 2, 3, 4]
  prefetch := [5, 6]
  wrb := [7, 8, 9, 10]

/-- Registers and contexts with something in them. -/
def sampleRegs : IndRegs where
  data i := BitVec.ofNat 32 (100 + i)
  mask _ := 0
  ctxt q _ := List.replicate 4 (BitVec.ofNat 32 q)

theorem context_round_trip_stC2h :
    (descqContextProgramRegs (fun _ => mapCmd .completes) (fun _ => mapCmd .completes) sampleRegs
        2047 true true sampleContext).1 = 0 ∧
      ReadsBack sampleContext true true
        (descqContextReadRegs (fun _ => mapCmd .completes)
          (descqContextProgramRegs (fun _ => mapCmd .completes) (fun _ => mapCmd .completes)
            sampleRegs 2047 true true sampleContext).2 2047 true true).2.1 := by
  have hprog : (descqContextProgramRegs (fun _ => mapCmd .completes) (fun _ => mapCmd .completes)
      sampleRegs 2047 true true sampleContext).1 = 0 := by decide +kernel
  refine ⟨hprog, ?_⟩
  exact (context_round_trip (by decide) true true ⟨rfl, rfl, rfl⟩ sampleRegs (fun _ => .completes)
    (fun _ => .completes) (fun _ => .completes) (fun _ => mapCmd .completes)
    (fun _ => mapCmd .completes) rfl).1 hprog (by decide +kernel)

end Qdma

import Qdma.CtxtFields

/-!
# The values behind the doorbells

`descq_pidx_update`, `descq_wrb_cidx_update` and `intr_cidx_update` join an index with flags
in one word.  The first two shift every flag to its place.  The third joins the index with
`S_INTR_CIDX_UPD_DIR_SEL`, which is the *number* of the direction bit: for a C2H queue bit 4
of the index is set and the direction bit is not.

`DoorbellsRight` is what the three are for; `doorbells_right_iff` says for which queues it
holds.  The registers they write are all different, in both builds (`doorbellReg_inj`).
-/

namespace Qdma

open Lib

/-! ## The places -/

def wrbPidxUpdPidx : BitField := ⟨0, 16⟩
def wrbPidxUpdEnInt : BitField := ⟨16, 1⟩

def wrbCidxUpdSwCidx : BitField := ⟨0, 16⟩
def wrbCidxUpdCnterIdx : BitField := ⟨16, 4⟩
def wrbCidxUpdTimerIdx : BitField := ⟨20, 4⟩
def wrbCidxUpdTrigMode : BitField := ⟨24, 3⟩
def wrbCidxUpdEnStatDesc : BitField := ⟨27, 1⟩
def wrbCidxUpdEnInt : BitField := ⟨28, 1⟩

def intrCidxUpdSwCidx : BitField := ⟨0, 16⟩
def intrCidxUpdDirSel : BitField := ⟨16, 1⟩

/-- The doorbell registers of a queue. -/
inductive DoorbellKind where
  | intCidx
  | h2cPidx
  | c2hPidx
  | wrbCidx
  deriving DecidableEq

/-- The first register of a kind, on a physical function or a virtual one. -/
def doorbellBase (vf : Bool) : DoorbellKind → ℕ
  | .intCidx => if vf then 0x3000 else qdmaRegIntCidxBase
  | .h2cPidx => if vf then 0x3004 else qdmaRegH2cPidxBase
  | .c2hPidx => if vf then 0x3008 else qdmaRegC2hPidxBase
  | .wrbCidx => if vf then 0x300C else qdmaRegWrbCidxBase

def doorbellReg (vf : Bool) (kind : DoorbellKind) (qidx : ℕ) : ℕ :=
  doorbellBase vf kind + qidx * qdmaRegPidxStep

/-- The register `descq_pidx_update` chooses. -/
def pidxKind (c2h : Bool) : DoorbellKind := if c2h then .c2hPidx else .h2cPidx

/-! ## What they are for -/

/-- The flags of a queue fit the fields of its doorbells, and its index is one of the 2048
there are. -/
structure BellsFit (d : QdmaDescq) : Prop where
  irqEn : d.irqEn < 2 ^ 1
  wrbStatDescEn : d.wrbStatDescEn < 2 ^ 1
  wrbTrigMode : d.wrbTrigMode < 2 ^ 3
  wrbTimerIdx : d.wrbTimerIdx < 2 ^ 4
  qidx : d.conf.qidx < 2048

/-- The values written for `idx` read what they were made of, and each register is the
queue's own. -/
structure DoorbellsRight (d : QdmaDescq) (idx : ℕ) : Prop where
  pidx : wrbPidxUpdPidx.get (descqPidxUpdate d idx).2.toNat = idx ∧
    wrbPidxUpdEnInt.get (descqPidxUpdate d idx).2.toNat = d.irqEn
  wrbCidx : wrbCidxUpdSwCidx.get (descqWrbCidxUpdate d idx).2.toNat = idx ∧
    wrbCidxUpdEnInt.get (descqWrbCidxUpdate d idx).2.toNat = d.irqEn ∧
    wrbCidxUpdEnStatDesc.get (descqWrbCidxUpdate d idx).2.toNat = d.wrbStatDescEn ∧
    wrbCidxUpdTrigMode.get (descqWrbCidxUpdate d idx).2.toNat = d.wrbTrigMode ∧
    wrbCidxUpdTimerIdx.get (descqWrbCidxUpdate d idx).2.toNat = d.wrbTimerIdx ∧
    wrbCidxUpdCnterIdx.get (descqWrbCidxUpdate d idx).2.toNat = 0
  intrCidx : intrCidxUpdSwCidx.get (intrCidxUpdate d idx).2.toNat = idx ∧
    intrCidxUpdDirSel.get (intrCidxUpdate d idx).2.toNat = if d.conf.c2h then 1 else 0
  registers : (descqPidxUpdate d idx).1 = doorbellReg false (pidxKind d.conf.c2h) d.conf.qidx ∧
    (descqWrbCidxUpdate d idx).1 = doorbellReg false .wrbCidx d.conf.qidx ∧
    (intrCidxUpdate d idx).1 = doorbellReg false .intCidx d.conf.qidx
  apart : ∀ vf kind kind' qidx', qidx' < 2048 →
    doorbellReg vf kind d.conf.qidx = doorbellReg vf kind' qidx' →
      kind = kind' ∧ d.conf.qidx = qidx'

/-! ## The registers -/

/-- The registers of a queue lie next to each other, one word each. -/
def DoorbellKind.slot : DoorbellKind → ℕ
  | .intCidx => 0
  | .h2cPidx => 1
  | .c2hPidx => 2
  | .wrbCidx => 3

theorem DoorbellKind.slot_lt (kind : DoorbellKind) : kind.slot < 4 := by cases kind <;> decide

theorem DoorbellKind.slot_inj {kind kind' : DoorbellKind} (h : kind.slot = kind'.slot) :
    kind = kind' := by
  cases kind <;> cases kind' <;> first | rfl | cases h

theorem doorbellReg_eq (vf : Bool) (kind : DoorbellKind) (qidx : ℕ) :
    doorbellReg vf kind qidx = doorbellBase vf .intCidx + (4 * kind.slot + 16 * qidx) := by
  have hstep : qdmaRegPidxStep = 16 := rfl
  have hbase : doorbellBase vf kind = doorbellBase vf .intCidx + 4 * kind.slot := by
    cases vf <;> cases kind <;> rfl
  unfold doorbellReg
  rw [hbase, hstep]
  omega

/-- **No two doorbells share a register.** -/
theorem doorbellReg_inj {vf : Bool} {kind kind' : DoorbellKind} {qidx qidx' : ℕ}
    (h : doorbellReg vf kind qidx = doorbellReg vf kind' qidx') :
    kind = kind' ∧ qidx = qidx' := by
  have hlt := kind.slot_lt
  have hlt' := kind'.slot_lt
  rw [doorbellReg_eq, doorbellReg_eq] at h
  constructor
  · apply DoorbellKind.slot_inj
    omega
  · omega

/-! ## The values -/

theorem ctxtField_noShift (n : ℕ) : ctxtField n 0 = BitVec.ofNat 32 n := BitVec.shiftLeft_zero _

theorem pidxUpdate_word {d : QdmaDescq} (hfit : BellsFit d) {idx : ℕ} (hidx : idx < 2 ^ 16) :
    CtxtWord [(descqPidxUpdate d idx).2] 0 [wrbPidxUpdPidx, wrbPidxUpdEnInt]
      [(wrbPidxUpdPidx, idx), (wrbPidxUpdEnInt, d.irqEn)] := by
  refine CtxtWord.of_fits ?_ rfl (by decide) ?_
  · rw [ctxtPack_cons, ctxtPack_cons, ctxtPack_nil, BitVec.or_zero]
    change _ = ctxtField idx 0 ||| _
    rw [ctxtField_noShift]
    rfl
  · simp only [List.forall_mem_cons, List.not_mem_nil, false_imp_iff, implies_true, and_true]
    exact ⟨hidx, hfit.irqEn⟩

theorem wrbCidxUpdate_word {d : QdmaDescq} (hfit : BellsFit d) {idx : ℕ} (hidx : idx < 2 ^ 16) :
    CtxtWord [(descqWrbCidxUpdate d idx).2] 0
      [wrbCidxUpdSwCidx, wrbCidxUpdEnInt, wrbCidxUpdEnStatDesc, wrbCidxUpdTrigMode,
        wrbCidxUpdTimerIdx]
      [(wrbCidxUpdSwCidx, idx), (wrbCidxUpdEnInt, d.irqEn),
        (wrbCidxUpdEnStatDesc, d.wrbStatDescEn), (wrbCidxUpdTrigMode, d.wrbTrigMode),
        (wrbCidxUpdTimerIdx, d.wrbTimerIdx)] := by
  refine CtxtWord.of_fits ?_ rfl (by decide) ?_
  · simp only [ctxtPack_cons, ctxtPack_nil, BitVec.or_zero, List.getD_cons_zero,
      descqWrbCidxUpdate, BitVec.or_assoc]
    change _ = ctxtField idx 0 ||| _
    rw [ctxtField_noShift]
    rfl
  · simp only [List.forall_mem_cons, List.not_mem_nil, false_imp_iff, implies_true, and_true]
    exact ⟨hidx, hfit.irqEn, hfit.wrbStatDescEn, hfit.wrbTrigMode, hfit.wrbTimerIdx⟩

theorem intrCidxUpdate_toNat (d : QdmaDescq) {idx : ℕ} (hidx : idx < 2 ^ 16) :
    (intrCidxUpdate d idx).2.toNat = idx ||| if d.conf.c2h then 16 else 0 := by
  have hlt : idx < 2 ^ 32 := hidx.trans (by decide)
  unfold intrCidxUpdate
  dsimp only
  rw [BitVec.toNat_or, BitVec.toNat_ofNat, Nat.mod_eq_of_lt hlt]
  cases d.conf.c2h <;> rfl

/-- The direction bit is never set: the index and bit 4 lie below it. -/
theorem intrCidxUpdate_dirSel (d : QdmaDescq) {idx : ℕ} (hidx : idx < 2 ^ 16) :
    intrCidxUpdDirSel.get (intrCidxUpdate d idx).2.toNat = 0 := by
  have hlt : (idx ||| if d.conf.c2h then 16 else 0) < 2 ^ 16 := by
    apply Nat.or_lt_two_pow hidx
    split <;> decide
  rw [intrCidxUpdate_toNat d hidx]
  unfold BitField.get intrCidxUpdDirSel
  dsimp only
  rw [Nat.shiftRight_eq_div_pow, Nat.div_eq_of_lt hlt, Nat.zero_mod]

/-- **The doorbells of a queue** read right exactly if it is an H2C queue. -/
theorem doorbells_right_iff {d : QdmaDescq} (hfit : BellsFit d) {idx : ℕ} (hidx : idx < 65536) :
    DoorbellsRight d idx ↔ d.conf.c2h = false := by
  have hidx' : idx < 2 ^ 16 := hidx
  have hp := pidxUpdate_word hfit hidx'
  have hw := wrbCidxUpdate_word hfit hidx'
  have hdir := intrCidxUpdate_dirSel d hidx'
  constructor
  · intro h
    cases hc : d.conf.c2h with
    | false => rfl
    | true =>
        have hset := h.intrCidx.2
        rw [hdir, hc] at hset
        cases hset
  · intro hc
    refine ⟨⟨hp.get 0 rfl (by decide), hp.get 1 rfl (by decide)⟩, ⟨hw.get 0 rfl (by decide),
      hw.get 1 rfl (by decide), hw.get 2 rfl (by decide), hw.get 3 rfl (by decide),
      hw.get 4 rfl (by decide), hw.gap (by decide) (by decide)⟩, ⟨?_, ?_⟩, ⟨?_, rfl, rfl⟩, ?_⟩
    · have hnone : (if false = true then 16 else 0) = 0 := rfl
      rw [intrCidxUpdate_toNat d hidx', hc, hnone, Nat.or_zero]
      exact BitField.get_put_of_fits (f := intrCidxUpdSwCidx) hidx'
    · rw [hdir, hc]
      rfl
    · unfold descqPidxUpdate pidxKind doorbellReg
      rw [hc]
      rfl
    · intro vf kind kind' qidx' _ heq
      exact doorbellReg_inj heq

/-- An H2C queue with interrupts, at the last index of its ring. -/
theorem doorbells_right_h2c :
    DoorbellsRight { qdmaDescqInit 0 7 7 with irqEn := 1, wrbStatDescEn := 1 } 255 :=
  (doorbells_right_iff ⟨by decide, by decide, by decide, by decide, by decide⟩ (by decide)).mpr rfl

/-- A C2H queue at index 1 rings the interrupt doorbell with 17 and the direction of H2C. -/
theorem doorbells_wrong_c2h :
    ¬ ∀ (d : QdmaDescq) (idx : ℕ), BellsFit d → idx < 65536 → DoorbellsRight d idx := by
  intro hall
  have hfit : BellsFit (qdmaDescqConfig 8 0 (qdmaDescqInit 0 0 0) ⟨0, true, true, 0, 0⟩ false) :=
    ⟨by decide, by decide, by decide, by decide, by decide⟩
  have h := (hall _ 1 hfit (by decide)).intrCidx.1
  have hne : intrCidxUpdSwCidx.get (intrCidxUpdate
      (qdmaDescqConfig 8 0 (qdmaDescqInit 0 0 0) ⟨0, true, true, 0, 0⟩ false) 1).2.toNat ≠ 1 := by
    decide +kernel
  exact hne h

end Qdma

import Qdma.CtxtFields

/-!
# The scripts that decode a context

`decode_sw_ctxt.sh`, `decode_preftch_ctxt.sh` and `decode_wrb_ctxt.sh` cut the words of a
context into its fields with shifts and masks of their own.  They should read what
`make_sw_context`, `make_prefetch_context` and `make_wrb_context` put there, and what the
hardware holds beside it.

* `SwScript`, `PftchScript` and `WrbScript` are what the scripts compute, in the numbers of the
  shell, which has 64 bits and no need of them: the widest value has 42.
* `CtxtHeld` is what the hardware writes; `heldSwContext` and its siblings are the words with
  both.
* `ScriptsRight` says that every field comes back.  Four do not always: each is cut too short
  or taken from the wrong place (`decode_scripts_iff`).
-/

namespace Qdma

open Lib

/-! ## The scripts -/

/-- `let "v = ($w >> s) & m"`. -/
def shBits (w s m : ℕ) : ℕ := (w >>> s) &&& m

/-- The values `decode_sw_ctxt.sh` prints; the ring address is printed in two words. -/
@[ext] structure SwScript where
  dscBase : ℕ × ℕ
  rsv : ℕ
  errWbSent : ℕ
  err : ℕ
  irqNoLast : ℕ
  irqPnd : ℕ
  rsv0 : ℕ
  irqEn : ℕ
  wbkEn : ℕ
  mmChn : ℕ
  byp : ℕ
  dscSz : ℕ
  rngSz : ℕ
  fncId : ℕ
  wbiAccEn : ℕ
  wbiChk : ℕ
  fcrdEn : ℕ
  qen : ℕ
  rsvLow : ℕ
  irqAck : ℕ
  pidx : ℕ
  deriving DecidableEq

/-- `decode_sw_ctxt.sh`. -/
def decodeSwCtxt (w3 w2 w1 w0 : ℕ) : SwScript where
  dscBase := (w3, w2)
  rsv := shBits w1 29 0x7F
  errWbSent := shBits w1 28 0x1
  err := shBits w1 26 0x3
  irqNoLast := shBits w1 25 0x1
  irqPnd := shBits w1 24 0x1
  rsv0 := shBits w1 22 0x3
  irqEn := shBits w1 21 0x1
  wbkEn := shBits w1 20 0x1
  mmChn := shBits w1 19 0x1
  byp := shBits w1 18 0x1
  dscSz := shBits w1 16 0x3
  rngSz := shBits w1 12 0xF
  fncId := shBits w1 4 0xFF
  wbiAccEn := shBits w1 3 0x1
  wbiChk := shBits w1 2 0x1
  fcrdEn := shBits w1 1 0x1
  qen := shBits w1 0 0x1
  rsvLow := shBits w0 17 0x7FFF
  irqAck := shBits w0 16 0x1
  pidx := shBits w0 0 0xFF

/-- The values `decode_preftch_ctxt.sh` prints. -/
@[ext] structure PftchScript where
  valid : ℕ
  swCrdt : ℕ
  qIsInPftch : ℕ
  enPftch : ℕ
  portId : ℕ
  fncId : ℕ
  bufSizeIdx : ℕ
  bypass : ℕ
  deriving DecidableEq

/-- `decode_preftch_ctxt.sh`. -/
def decodePreftchCtxt (w1 w0 : ℕ) : PftchScript where
  valid := shBits w1 13 0x1
  swCrdt := (shBits w1 0 0x1FFF <<< 3) ||| shBits w0 29 0x7
  qIsInPftch := shBits w0 28 0x1
  enPftch := shBits w0 27 0x1
  portId := shBits w0 13 0x7
  fncId := shBits w0 5 0xFF
  bufSizeIdx := shBits w0 1 0xF
  bypass := shBits w0 0 0x1

/-- The values `decode_wrb_ctxt.sh` prints; `baddr64` and the address made of it are printed in
two words each. -/
@[ext] structure WrbScript where
  valid : ℕ
  cidx : ℕ
  pidx : ℕ
  descSize : ℕ
  baddr64 : ℕ × ℕ
  base : ℕ × ℕ
  rngSz : ℕ
  color : ℕ
  intSt : ℕ
  timerIdx : ℕ
  counterIdx : ℕ
  fncId : ℕ
  trigMode : ℕ
  enInt : ℕ
  enStatDesc : ℕ
  deriving DecidableEq

/-- `v2` and `v1` of `decode_wrb_ctxt.sh`. -/
def wrbBaddr64 (w2 w1 w0 : ℕ) : ℕ × ℕ :=
  (((w2 &&& 0x3FFFFF) <<< 4) ||| (w1 >>> 28), (w1 <<< 4) ||| shBits w0 28 0xF)

/-- `v = $v2 << 6 | ($v1 & 0x3F) >> 26` and `v1 = $v1 << 6`. -/
def wrbBase (b : ℕ × ℕ) : ℕ × ℕ := ((b.1 <<< 6) ||| ((b.2 &&& 0x3F) >>> 26), b.2 <<< 6)

/-- `decode_wrb_ctxt.sh`. -/
def decodeWrbCtxt (w3 w2 w1 w0 : ℕ) : WrbScript where
  valid := shBits w3 24 0x1
  cidx := shBits w3 8 0xFFFF
  pidx := (shBits w3 0 0xFF <<< 8) ||| shBits w2 24 0xFF
  descSize := shBits w2 28 0x3
  baddr64 := wrbBaddr64 w2 w1 w0
  base := wrbBase (wrbBaddr64 w2 w1 w0)
  rngSz := shBits w0 24 0xF
  color := shBits w0 23 0x1
  intSt := shBits w0 21 0x3
  timerIdx := shBits w0 17 0xF
  counterIdx := shBits w0 13 0xF
  fncId := shBits w0 5 0xF
  trigMode := shBits w0 2 0x7
  enInt := shBits w0 1 0x1
  enStatDesc := shBits w0 0 0x1

/-! ## What the hardware holds -/

/-- The fields the hardware writes. -/
structure CtxtHeld where
  pidx : Fin (2 ^ 16)
  irqAck : Fin 2
  irqPnd : Fin 2
  irqNoLast : Fin 2
  qInPftch : Fin 2
  swCrdt : Fin (2 ^ 16)
  wrbPidx : Fin (2 ^ 16)
  wrbCidx : Fin (2 ^ 16)

def descCtxtW0Pidx : BitField := ⟨0, 16⟩
def descCtxtW0IrqAck : BitField := ⟨16, 1⟩

def swHeld0 (h : CtxtHeld) : List (BitField × ℕ) :=
  [(descCtxtW0Pidx, h.pidx), (descCtxtW0IrqAck, h.irqAck)]

def swHeld1 (h : CtxtHeld) : List (BitField × ℕ) :=
  [(descCtxtW1FIrqPnd, h.irqPnd), (descCtxtW1FIrqNoLast, h.irqNoLast)]

def pftchHeld0 (h : CtxtHeld) : List (BitField × ℕ) :=
  [(pftchW0FQInPftch, h.qInPftch), (pftchW0SwCrdtL, h.swCrdt % 2 ^ 3)]

def pftchHeld1 (h : CtxtHeld) : List (BitField × ℕ) := [(pftchW1SwCrdtH, h.swCrdt / 2 ^ 3)]

def wrbHeld2 (h : CtxtHeld) : List (BitField × ℕ) := [(wrbCtxtW2PidxL, h.wrbPidx % 2 ^ 8)]

def wrbHeld3 (h : CtxtHeld) : List (BitField × ℕ) :=
  [(wrbCtxtW3PidxH, h.wrbPidx / 2 ^ 8), (wrbCtxtW3Cidx, h.wrbCidx)]

/-- The words the driver made, with the fields of the hardware beside its own. -/
def heldWords (words : List (BitVec 32)) (fields : List (List (BitField × ℕ))) :
    List (BitVec 32) := List.zipWith (fun w l => w ||| ctxtPack l) words fields

def heldSwContext (funcId : ℕ) (d : QdmaDescq) (h : CtxtHeld) : List (BitVec 32) :=
  heldWords (makeSwContext funcId d) [swHeld0 h, swHeld1 h, [], []]

def heldPrefetchContext (funcId : ℕ) (d : QdmaDescq) (h : CtxtHeld) : List (BitVec 32) :=
  heldWords (makePrefetchContext funcId d) [pftchHeld0 h, pftchHeld1 h]

def heldWrbContext (funcId : ℕ) (d : QdmaDescq) (h : CtxtHeld) : List (BitVec 32) :=
  heldWords (makeWrbContext funcId d) [[], [], wrbHeld2 h, wrbHeld3 h]

/-- The words on the command line of a script. -/
def ctxtArg (words : List (BitVec 32)) (i : ℕ) : ℕ := (words.getD i 0).toNat

/-! ## What was encoded -/

/-- An address in two words of 32 bits. -/
def addrWords (a : ℕ) : ℕ × ℕ := (a / 2 ^ 32, a % 2 ^ 32)

def SwScript.encoded (funcId : ℕ) (d : QdmaDescq) (h : CtxtHeld) : SwScript where
  dscBase := addrWords d.descBus.toNat
  rsv := 0
  errWbSent := 0
  err := 0
  irqNoLast := h.irqNoLast
  irqPnd := h.irqPnd
  rsv0 := 0
  irqEn := d.irqEn
  wbkEn := 1
  mmChn := if d.conf.st then 0 else d.channel
  byp := 0
  dscSz := swDscSz d
  rngSz := 0
  fncId := funcId
  wbiAccEn := 1
  wbiChk := 1
  fcrdEn := if d.isStC2h then 1 else 0
  qen := 1
  rsvLow := 0
  irqAck := h.irqAck
  pidx := h.pidx

def PftchScript.encoded (funcId : ℕ) (d : QdmaDescq) (h : CtxtHeld) : PftchScript where
  valid := 1
  swCrdt := h.swCrdt
  qIsInPftch := h.qInPftch
  enPftch := d.prefetchEn
  portId := 0
  fncId := funcId
  bufSizeIdx := 0
  bypass := 0

/-- The ring address is encoded in units of 64 bytes. -/
def WrbScript.encoded (funcId : ℕ) (d : QdmaDescq) (h : CtxtHeld) : WrbScript where
  valid := 1
  cidx := h.wrbCidx
  pidx := h.wrbPidx
  descSize := d.stC2hWrbDescSize
  baddr64 := addrWords (d.descWrbBus.toNat / 64)
  base := addrWords (d.descWrbBus.toNat / 64 * 64)
  rngSz := 0
  color := 1
  intSt := 0
  timerIdx := 0
  counterIdx := 0
  fncId := funcId
  trigMode := d.wrbTrigMode
  enInt := d.irqEn
  enStatDesc := d.wrbStatDescEn

/-- Each script prints what the words of its context hold. -/
structure ScriptsRight (funcId : ℕ) (d : QdmaDescq) (h : CtxtHeld) : Prop where
  sw : decodeSwCtxt (ctxtArg (heldSwContext funcId d h) 3) (ctxtArg (heldSwContext funcId d h) 2)
    (ctxtArg (heldSwContext funcId d h) 1) (ctxtArg (heldSwContext funcId d h) 0) =
      SwScript.encoded funcId d h
  prefetch : d.isStC2h = true →
    decodePreftchCtxt (ctxtArg (heldPrefetchContext funcId d h) 1)
      (ctxtArg (heldPrefetchContext funcId d h) 0) = PftchScript.encoded funcId d h
  wrb : d.isStC2h = true →
    decodeWrbCtxt (ctxtArg (heldWrbContext funcId d h) 3) (ctxtArg (heldWrbContext funcId d h) 2)
      (ctxtArg (heldWrbContext funcId d h) 1) (ctxtArg (heldWrbContext funcId d h) 0) =
        WrbScript.encoded funcId d h

/-- The producer index of the SW context fits the 8 bits the script takes.  For a writeback
context, too, the function fits 4 bits, the bits of the producer index that are taken for the
entry size happen to be it, and the ring lies where the bits lost of its address are 0. -/
structure ScriptsReach (funcId : ℕ) (d : QdmaDescq) (h : CtxtHeld) : Prop where
  pidx : h.pidx.val < 2 ^ 8
  fncId : d.isStC2h = true → funcId < 2 ^ 4
  descSize : d.isStC2h = true → h.wrbPidx.val / 16 % 4 = d.stC2hWrbDescSize
  base : d.isStC2h = true → d.descWrbBus.toNat / 2 ^ 32 % 2 ^ 10 = 0

/-! ## Words with the fields of the hardware -/

theorem ctxtPack_append (l l' : List (BitField × ℕ)) :
    ctxtPack (l ++ l') = ctxtPack l ||| ctxtPack l' := by
  induction l with
  | nil =>
      rw [ctxtPack_nil, BitVec.zero_or]
      rfl
  | cons p l ih =>
      obtain ⟨f, v⟩ := p
      rw [List.cons_append, ctxtPack_cons, ctxtPack_cons, ih, BitVec.or_assoc]

theorem ctxtPack_append_zero (l : List (BitField × ℕ)) (f : BitField) :
    ctxtPack (l ++ [(f, 0)]) = ctxtPack l := by
  have hzero : ctxtField 0 f.shift = 0#32 := ctxtField_zero _
  rw [ctxtPack_append, ctxtPack_cons, ctxtPack_nil, hzero, BitVec.or_zero, BitVec.or_zero]

theorem heldWords_getD {words : List (BitVec 32)} {fields : List (List (BitField × ℕ))} {i : ℕ}
    {l : List (BitField × ℕ)} (hi : i < words.length) (hl : fields[i]? = some l) :
    (heldWords words fields).getD i 0 = words.getD i 0 ||| ctxtPack l := by
  unfold heldWords
  rw [List.getD_eq_getElem?_getD, List.getElem?_zipWith, hl, List.getElem?_eq_getElem hi,
    List.getD_eq_getElem?_getD, List.getElem?_eq_getElem hi]
  rfl

/-- A word of the driver with a field of the hardware in each of its gaps. -/
theorem CtxtWord.held {words : List (BitVec 32)} {fields : List (List (BitField × ℕ))} {i : ℕ}
    {layout : List BitField} {l l' : List (BitField × ℕ)} (hi : i < words.length)
    (hword : words.getD i 0 = ctxtPack l) (hl : fields[i]? = some l')
    (hlayout : (l ++ l').map Prod.fst = layout) (hapart : layout.Pairwise BitField.Apart)
    (hfits : ∀ p ∈ l, p.2 < 2 ^ p.1.width) (hfits' : ∀ p ∈ l', p.2 < 2 ^ p.1.width) :
    CtxtWord (heldWords words fields) i layout (l ++ l') := by
  refine CtxtWord.of_fits ?_ hlayout hapart fun p hp => ?_
  · rw [heldWords_getD hi hl, hword, ctxtPack_append]
  · obtain hp | hp := List.mem_append.mp hp
    · exact hfits p hp
    · exact hfits' p hp

theorem shBits_get (f : BitField) (w : ℕ) : shBits w f.shift (2 ^ f.width - 1) = f.get w :=
  and_mask _ _

/-- More bits than a word has are no more than those it has. -/
theorem shBits_top {w : ℕ} (hw : w < 2 ^ 32) : shBits w 29 0x7F = (BitField.mk 29 3).get w := by
  have hmask : shBits w 29 0x7F = (w >>> 29) % 2 ^ 7 := and_mask _ 7
  have hlt : w >>> 29 < 2 ^ 3 := by
    rw [Nat.shiftRight_eq_div_pow]
    omega
  rw [hmask, BitField.get, Nat.mod_eq_of_lt hlt, Nat.mod_eq_of_lt (by omega)]

/-! ## The SW context -/

section Sw

variable {funcId : ℕ} {d : QdmaDescq} (h : CtxtHeld)

theorem swHeld0_fits : ∀ p ∈ swHeld0 h, p.2 < 2 ^ p.1.width := by
  unfold swHeld0
  simp only [List.forall_mem_cons, List.not_mem_nil, false_imp_iff, implies_true, and_true]
  exact ⟨h.pidx.isLt, h.irqAck.isLt⟩

theorem swHeld1_fits : ∀ p ∈ swHeld1 h, p.2 < 2 ^ p.1.width := by
  unfold swHeld1
  simp only [List.forall_mem_cons, List.not_mem_nil, false_imp_iff, implies_true, and_true]
  exact ⟨h.irqPnd.isLt, h.irqNoLast.isLt⟩

theorem heldSw_w0 : CtxtWord (heldSwContext funcId d h) 0 [descCtxtW0Pidx, descCtxtW0IrqAck]
    ([] ++ swHeld0 h) :=
  CtxtWord.held (by decide : 0 < 4) rfl rfl rfl (by decide) (List.forall_mem_nil _)
    (swHeld0_fits h)

theorem heldSw_w1 (hfunc : funcId < 2 ^ 8) (hirq : d.irqEn < 2) (hchn : d.channel < 2) :
    CtxtWord (heldSwContext funcId d h) 1
      (swW1Layout ++ [descCtxtW1FIrqPnd, descCtxtW1FIrqNoLast])
      (swW1Fields funcId d ++ swHeld1 h) := by
  have hw := sw_w1 hfunc hirq hchn
  exact CtxtWord.held (by decide : 1 < 4) hw.word rfl rfl (by decide) hw.packed.fits
    (swHeld1_fits h)

theorem pciDmaH_toNat (bus : BitVec 64) :
    ((pciDmaH bus).setWidth 32).toNat = bus.toNat / 2 ^ 32 := by
  have hlt := bus.isLt
  unfold pciDmaH
  rw [BitVec.toNat_setWidth, BitVec.toNat_ushiftRight, BitVec.toNat_ushiftRight,
    Nat.shiftRight_eq_div_pow, Nat.shiftRight_eq_div_pow]
  omega

theorem low32_toNat (b : BitVec 64) :
    ((b &&& 0xffffffff#64).setWidth 32).toNat = b.toNat % 2 ^ 32 := by
  have hmask : b.toNat &&& (2 ^ 32 - 1) = b.toNat % 2 ^ 32 := and_mask _ 32
  have hones : (0xffffffff#64).toNat = 2 ^ 32 - 1 := rfl
  rw [BitVec.toNat_setWidth, BitVec.toNat_and, hones, hmask, Nat.mod_mod]

theorem pciDmaL_toNat (bus : BitVec 64) :
    ((pciDmaL bus).setWidth 32).toNat = bus.toNat % 2 ^ 32 := low32_toNat bus

theorem heldSw_base :
    (ctxtArg (heldSwContext funcId d h) 3, ctxtArg (heldSwContext funcId d h) 2) =
      addrWords d.descBus.toNat := by
  have hhigh : (heldSwContext funcId d h).getD 3 0 =
      (makeSwContext funcId d).getD 3 0 ||| ctxtPack [] :=
    heldWords_getD (by decide : 3 < 4) rfl
  have hlow : (heldSwContext funcId d h).getD 2 0 =
      (makeSwContext funcId d).getD 2 0 ||| ctxtPack [] :=
    heldWords_getD (by decide : 2 < 4) rfl
  unfold ctxtArg addrWords
  rw [hhigh, hlow, ctxtPack_nil, BitVec.or_zero, BitVec.or_zero, ← pciDmaH_toNat, ← pciDmaL_toNat]
  rfl

/-- The script reads every field of an SW context but the upper byte of the producer index. -/
theorem decodeSwCtxt_iff (hfunc : funcId < 2 ^ 8) (hirq : d.irqEn < 2) (hchn : d.channel < 2) :
    decodeSwCtxt (ctxtArg (heldSwContext funcId d h) 3) (ctxtArg (heldSwContext funcId d h) 2)
        (ctxtArg (heldSwContext funcId d h) 1) (ctxtArg (heldSwContext funcId d h) 0) =
      SwScript.encoded funcId d h ↔ h.pidx.val < 2 ^ 8 := by
  have h₀ : CtxtWord (heldSwContext funcId d h) 0 _ _ := heldSw_w0 h
  have h₁ := heldSw_w1 h hfunc hirq hchn
  have hlt : ctxtArg (heldSwContext funcId d h) 1 < 2 ^ 32 := BitVec.isLt _
  have hword : ctxtArg (heldSwContext funcId d h) 0 % 2 ^ 16 = h.pidx := h₀.get 0 rfl (by decide)
  have hpidx : shBits (ctxtArg (heldSwContext funcId d h) 0) 0 0xFF = h.pidx.val % 2 ^ 8 := by
    have hcut : shBits (ctxtArg (heldSwContext funcId d h) 0) 0 0xFF =
        ctxtArg (heldSwContext funcId d h) 0 % 2 ^ 8 := and_mask _ 8
    rw [hcut, ← hword]
    omega
  constructor
  · intro heq
    have hsame : h.pidx.val % 2 ^ 8 = h.pidx := hpidx.symm.trans (congrArg SwScript.pidx heq)
    rw [← hsame]
    exact Nat.mod_lt _ (by decide)
  · intro hfits
    ext1
    · exact heldSw_base h
    · exact (shBits_top hlt).trans (h₁.gap (by decide) (by decide))
    · exact (shBits_get ⟨28, 1⟩ _).trans (h₁.gap (by decide) (by decide))
    · exact (shBits_get ⟨26, 2⟩ _).trans (h₁.gap (by decide) (by decide))
    · exact (shBits_get descCtxtW1FIrqNoLast _).trans (h₁.get 10 rfl (by decide))
    · exact (shBits_get descCtxtW1FIrqPnd _).trans (h₁.get 9 rfl (by decide))
    · exact (shBits_get ⟨22, 2⟩ _).trans (h₁.gap (by decide) (by decide))
    · exact (shBits_get descCtxtW1FIrqEn _).trans (h₁.get 5 rfl (by decide))
    · exact (shBits_get descCtxtW1FWbkEn _).trans (h₁.get 4 rfl (by decide))
    · exact (shBits_get descCtxtW1FMmChn _).trans (h₁.get 8 rfl (by decide))
    · exact (shBits_get descCtxtW1FByp _).trans (h₁.gap (by decide) (by decide))
    · exact (shBits_get descCtxtW1DscSz _).trans (h₁.get 7 rfl (by decide))
    · exact (shBits_get descCtxtW1RngSz _).trans (h₁.gap (by decide) (by decide))
    · exact (shBits_get descCtxtW1FuncId _).trans (h₁.get 3 rfl (by decide))
    · exact (shBits_get descCtxtW1FWbAccEn _).trans (h₁.get 1 rfl (by decide))
    · exact (shBits_get descCtxtW1FWbiChk _).trans (h₁.get 2 rfl (by decide))
    · exact (shBits_get descCtxtW1FFcrdEn _).trans (h₁.get 6 rfl (by decide))
    · exact (shBits_get descCtxtW1FQen _).trans (h₁.get 0 rfl (by decide))
    · exact (shBits_get ⟨17, 15⟩ _).trans (h₀.gap (by decide) (by decide))
    · exact (shBits_get descCtxtW0IrqAck _).trans (h₀.get 1 rfl (by decide))
    · exact hpidx.trans (Nat.mod_eq_of_lt hfits)

end Sw

/-! ## The prefetch context -/

section Prefetch

variable {funcId : ℕ} {d : QdmaDescq} (h : CtxtHeld)

/-- Two fields put together again. -/
theorem shiftLeft_or {a b k : ℕ} (hb : b < 2 ^ k) : (a <<< k) ||| b = a * 2 ^ k + b := by
  rw [← Nat.shiftLeft_add_eq_or_of_lt hb, Nat.shiftLeft_eq]

theorem pftchHeld0_fits : ∀ p ∈ pftchHeld0 h, p.2 < 2 ^ p.1.width := by
  unfold pftchHeld0
  simp only [List.forall_mem_cons, List.not_mem_nil, false_imp_iff, implies_true, and_true]
  exact ⟨h.qInPftch.isLt, Nat.mod_lt _ (by decide)⟩

theorem pftchHeld1_fits : ∀ p ∈ pftchHeld1 h, p.2 < 2 ^ p.1.width := by
  have hlt := h.swCrdt.isLt
  unfold pftchHeld1
  simp only [List.forall_mem_cons, List.not_mem_nil, false_imp_iff, implies_true, and_true]
  change h.swCrdt.val / 2 ^ 3 < 2 ^ 13
  omega

theorem heldPftch_w0 (hpf : d.prefetchEn < 2) :
    CtxtWord (heldPrefetchContext funcId d h) 0
      [pftchW0FncId, pftchW0FEnPftch, pftchW0FQInPftch, pftchW0SwCrdtL]
      ([(pftchW0FncId, funcId % 2 ^ 8), (pftchW0FEnPftch, d.prefetchEn)] ++ pftchHeld0 h) := by
  refine CtxtWord.held (by decide : 0 < 2) ?_ rfl rfl (by decide) ?_ (pftchHeld0_fits h)
  · rw [ctxtPack_cons, ctxtPack_cons, ctxtPack_nil, BitVec.or_zero, ← and_mask]
    rfl
  · simp only [List.forall_mem_cons, List.not_mem_nil, false_imp_iff, implies_true, and_true]
    exact ⟨Nat.mod_lt _ (by decide), hpf⟩

theorem heldPftch_w1 : CtxtWord (heldPrefetchContext funcId d h) 1 [pftchW1FValid, pftchW1SwCrdtH]
    ([(pftchW1FValid, 1)] ++ pftchHeld1 h) :=
  CtxtWord.held (by decide : 1 < 2) rfl rfl rfl (by decide) (by decide) (pftchHeld1_fits h)

/-- The script reads every field of a prefetch context. -/
theorem decodePreftchCtxt_right (hfunc : funcId < 2 ^ 8) (hpf : d.prefetchEn < 2) :
    decodePreftchCtxt (ctxtArg (heldPrefetchContext funcId d h) 1)
      (ctxtArg (heldPrefetchContext funcId d h) 0) = PftchScript.encoded funcId d h := by
  have h₀ : CtxtWord (heldPrefetchContext funcId d h) 0 _ _ := heldPftch_w0 h hpf
  have h₁ : CtxtWord (heldPrefetchContext funcId d h) 1 _ _ := heldPftch_w1 h
  have hlow : shBits (ctxtArg (heldPrefetchContext funcId d h) 0) 29 0x7 = h.swCrdt % 2 ^ 3 :=
    (shBits_get pftchW0SwCrdtL _).trans (h₀.get 3 rfl (by decide))
  have hhigh : shBits (ctxtArg (heldPrefetchContext funcId d h) 1) 0 0x1FFF = h.swCrdt / 2 ^ 3 :=
    (shBits_get pftchW1SwCrdtH _).trans (h₁.get 1 rfl (by decide))
  have hcrdt : (shBits (ctxtArg (heldPrefetchContext funcId d h) 1) 0 0x1FFF <<< 3) |||
      shBits (ctxtArg (heldPrefetchContext funcId d h) 0) 29 0x7 = h.swCrdt := by
    rw [hlow, hhigh, shiftLeft_or (Nat.mod_lt _ (by decide))]
    omega
  ext1
  · exact (shBits_get pftchW1FValid _).trans (h₁.get 0 rfl (by decide))
  · exact hcrdt
  · exact (shBits_get pftchW0FQInPftch _).trans (h₀.get 2 rfl (by decide))
  · exact (shBits_get pftchW0FEnPftch _).trans (h₀.get 1 rfl (by decide))
  · exact (shBits_get pftchW0PortId _).trans (h₀.gap (by decide) (by decide))
  · exact ((shBits_get pftchW0FncId _).trans (h₀.get 0 rfl (by decide))).trans
      (Nat.mod_eq_of_lt hfunc)
  · exact (shBits_get pftchW0BufSizeIdx _).trans (h₀.gap (by decide) (by decide))
  · exact (shBits_get pftchW0FBypass _).trans (h₀.gap (by decide) (by decide))

end Prefetch

/-! ## The writeback context -/

section Wrb

variable (funcId : ℕ) {d : QdmaDescq} (h : CtxtHeld)

theorem wrbHeld2_fits : ∀ p ∈ wrbHeld2 h, p.2 < 2 ^ p.1.width := by
  unfold wrbHeld2
  simp only [List.forall_mem_cons, List.not_mem_nil, false_imp_iff, implies_true, and_true]
  exact Nat.mod_lt _ (by decide)

theorem wrbHeld3_fits : ∀ p ∈ wrbHeld3 h, p.2 < 2 ^ p.1.width := by
  have hlt := h.wrbPidx.isLt
  unfold wrbHeld3
  simp only [List.forall_mem_cons, List.not_mem_nil, false_imp_iff, implies_true, and_true]
  refine ⟨?_, h.wrbCidx.isLt⟩
  change h.wrbPidx.val / 2 ^ 8 < 2 ^ 8
  omega

theorem heldWrb_w0 (hflags : d.FlagsFit) :
    CtxtWord (heldWrbContext funcId d h) 0 wrbW0Layout (wrbW0Fields funcId d) := by
  have hw := wrb_w0 funcId hflags
  have hheld : (heldWrbContext funcId d h).getD 0 0 =
      (makeWrbContext funcId d).getD 0 0 ||| ctxtPack [] :=
    heldWords_getD (by decide : 0 < 4) rfl
  rw [ctxtPack_nil, BitVec.or_zero] at hheld
  exact ⟨hheld.trans hw.word, hw.layout, hw.packed⟩

/-- The address in units of 64 bytes, the part of it in word 2. -/
def wrbBaddrHigh (d : QdmaDescq) : ℕ :=
  (wrbBus64 d.descWrbBus >>> (lWrbCtxtW0Baddr64 + 32)).toNat % 2 ^ 22

theorem wrbBus64_toNat (bus : BitVec 64) : (wrbBus64 bus).toNat = bus.toNat / 64 := by
  rw [wrbBus64_eq, BitVec.toNat_ushiftRight, Nat.shiftRight_eq_div_pow]

theorem wrbBaddrHigh_eq (d : QdmaDescq) : wrbBaddrHigh d = d.descWrbBus.toNat / 64 / 2 ^ 36 := by
  have hlt := d.descWrbBus.isLt
  have hshift : lWrbCtxtW0Baddr64 + 32 = 36 := rfl
  unfold wrbBaddrHigh
  rw [BitVec.toNat_ushiftRight, wrbBus64_toNat, Nat.shiftRight_eq_div_pow, hshift]
  exact Nat.mod_eq_of_lt (by omega)

/-- Word 1 is 32 bits of the address. -/
theorem heldWrb_w1 (d : QdmaDescq) (h : CtxtHeld) :
    ctxtArg (heldWrbContext funcId d h) 1 = d.descWrbBus.toNat / 64 / 16 % 2 ^ 32 := by
  have hheld : (heldWrbContext funcId d h).getD 1 0 =
      (makeWrbContext funcId d).getD 1 0 ||| ctxtPack [] :=
    heldWords_getD (by decide : 1 < 4) rfl
  have hword : (makeWrbContext funcId d).getD 1 0 =
      ((wrbBus64 d.descWrbBus >>> lWrbCtxtW0Baddr64) &&& 0xffffffff#64).setWidth 32 := rfl
  unfold ctxtArg
  rw [hheld, ctxtPack_nil, BitVec.or_zero, hword, low32_toNat, BitVec.toNat_ushiftRight,
    wrbBus64_toNat, Nat.shiftRight_eq_div_pow]
  rfl

theorem heldWrb_w2 (hsize : d.stC2hWrbDescSize < 3) :
    CtxtWord (heldWrbContext funcId d h) 2 wrbW2Layout
      ([(wrbCtxtW2Baddr64, wrbBaddrHigh d), (wrbCtxtW2DescSize, d.stC2hWrbDescSize)] ++
        wrbHeld2 h) := by
  have hw := (wrb_w2 funcId (show d.stC2hWrbDescSize < 2 ^ 8 by omega)).word
  refine CtxtWord.held (by decide : 2 < 4) ?_ rfl rfl (by decide) ?_ (wrbHeld2_fits h)
  · rw [hw]
    unfold wrbW2Fields
    rw [Nat.mod_eq_of_lt (show d.stC2hWrbDescSize < 4 by omega),
      Nat.div_eq_of_lt (show d.stC2hWrbDescSize < 4 by omega)]
    exact ctxtPack_append_zero
      [(wrbCtxtW2Baddr64, wrbBaddrHigh d), (wrbCtxtW2DescSize, d.stC2hWrbDescSize)] wrbCtxtW2PidxL
  · simp only [List.forall_mem_cons, List.not_mem_nil, false_imp_iff, implies_true, and_true]
    refine ⟨Nat.mod_lt _ (by decide), ?_⟩
    change d.stC2hWrbDescSize < 2 ^ 2
    omega

theorem heldWrb_w3 : CtxtWord (heldWrbContext funcId d h) 3
    [wrbCtxtW3FValid, wrbCtxtW3PidxH, wrbCtxtW3Cidx] ([(wrbCtxtW3FValid, 1)] ++ wrbHeld3 h) :=
  CtxtWord.held (by decide : 3 < 4) rfl rfl rfl (by decide) (by decide) (wrbHeld3_fits h)

/-- The address as the script puts it together: the lower word is not cut to 32 bits. -/
theorem wrbBaddr64_held (hflags : d.FlagsFit) (hsize : d.stC2hWrbDescSize < 3) :
    wrbBaddr64 (ctxtArg (heldWrbContext funcId d h) 2) (ctxtArg (heldWrbContext funcId d h) 1)
        (ctxtArg (heldWrbContext funcId d h) 0) =
      (d.descWrbBus.toNat / 64 / 2 ^ 32, d.descWrbBus.toNat / 64 % 2 ^ 36) := by
  have hlow : shBits (ctxtArg (heldWrbContext funcId d h) 0) 28 0xF =
      d.descWrbBus.toNat / 64 % 2 ^ 4 := by
    rw [← wrbBus64_toNat]
    exact (shBits_get wrbCtxtW0Baddr64 _).trans ((heldWrb_w0 funcId h hflags).get 5 rfl (by decide))
  have hhigh : ctxtArg (heldWrbContext funcId d h) 2 &&& 0x3FFFFF =
      d.descWrbBus.toNat / 64 / 2 ^ 36 := by
    rw [← wrbBaddrHigh_eq]
    exact (and_mask _ 22).trans ((heldWrb_w2 funcId h hsize).get 0 rfl (by decide))
  have hmid := heldWrb_w1 funcId d h
  have htop : ctxtArg (heldWrbContext funcId d h) 1 >>> 28 =
      d.descWrbBus.toNat / 64 / 2 ^ 32 % 2 ^ 4 := by
    rw [hmid, Nat.shiftRight_eq_div_pow]
    omega
  unfold wrbBaddr64
  rw [hlow, hhigh, htop, hmid, shiftLeft_or (Nat.mod_lt _ (by decide)),
    shiftLeft_or (Nat.mod_lt _ (by decide))]
  refine Prod.ext ?_ ?_ <;> dsimp only <;> omega

theorem wrbBase_pair (a b : ℕ) : wrbBase (a, b) = (a * 64, b * 64) := by
  have hlost : (b &&& 0x3F) >>> 26 = 0 := by
    have hcut : b &&& 0x3F = b % 2 ^ 6 := and_mask _ 6
    have hlt : b % 2 ^ 6 < 2 ^ 6 := Nat.mod_lt _ (by decide)
    rw [hcut, Nat.shiftRight_eq_div_pow]
    exact Nat.div_eq_of_lt (by omega)
  unfold wrbBase
  rw [hlost, Nat.or_zero, Nat.shiftLeft_eq, Nat.shiftLeft_eq]

/-- The ten bits of the address from bit 32 on are not where they belong. -/
theorem wrbBase_iff (bus : ℕ) :
    wrbBase (bus / 64 / 2 ^ 32, bus / 64 % 2 ^ 36) = addrWords (bus / 64 * 64) ↔
      bus / 2 ^ 32 % 2 ^ 10 = 0 := by
  rw [wrbBase_pair, addrWords, Prod.mk.injEq]
  constructor
  · intro ⟨_, hlow⟩
    omega
  · intro hzero
    constructor <;> omega

theorem wrbBaddr64_iff {bus : ℕ} (hzero : bus / 2 ^ 32 % 2 ^ 10 = 0) :
    (bus / 64 / 2 ^ 32, bus / 64 % 2 ^ 36) = addrWords (bus / 64) := by
  refine Prod.ext rfl ?_
  change bus / 64 % 2 ^ 36 = bus / 64 % 2 ^ 32
  omega

/-- The producer index as the script puts it together from two words. -/
theorem wrbPidx_held (hsize : d.stC2hWrbDescSize < 3) :
    (shBits (ctxtArg (heldWrbContext funcId d h) 3) 0 0xFF <<< 8) |||
      shBits (ctxtArg (heldWrbContext funcId d h) 2) 24 0xFF = h.wrbPidx := by
  have h₂ := heldWrb_w2 funcId h hsize
  have h₃ : CtxtWord (heldWrbContext funcId d h) 3 _ _ := heldWrb_w3 funcId h
  have hlow : shBits (ctxtArg (heldWrbContext funcId d h) 2) 24 0xFF = h.wrbPidx % 2 ^ 8 :=
    (shBits_get wrbCtxtW2PidxL _).trans (h₂.get 2 rfl (by decide))
  have hhigh : shBits (ctxtArg (heldWrbContext funcId d h) 3) 0 0xFF = h.wrbPidx / 2 ^ 8 :=
    (shBits_get wrbCtxtW3PidxH _).trans (h₃.get 1 rfl (by decide))
  rw [hlow, hhigh, shiftLeft_or (Nat.mod_lt _ (by decide))]
  omega

/-- The bits that the script takes for the entry size are two bits of the producer index. -/
theorem wrbDescSize_held (hsize : d.stC2hWrbDescSize < 3) :
    shBits (ctxtArg (heldWrbContext funcId d h) 2) 28 0x3 = h.wrbPidx.val / 16 % 4 := by
  have hin : (ctxtArg (heldWrbContext funcId d h) 2 >>> 24) % 2 ^ 8 = h.wrbPidx % 2 ^ 8 :=
    (heldWrb_w2 funcId h hsize).get 2 rfl (by decide)
  have hcut : shBits (ctxtArg (heldWrbContext funcId d h) 2) 28 0x3 =
      (ctxtArg (heldWrbContext funcId d h) 2 >>> 28) % 2 ^ 2 := and_mask _ 2
  rw [Nat.shiftRight_eq_div_pow] at hin hcut
  omega

/-- Of the eight bits of the function the script takes four. -/
theorem wrbFncId_held (hflags : d.FlagsFit) :
    shBits (ctxtArg (heldWrbContext funcId d h) 0) 5 0xF = funcId % 2 ^ 4 := by
  have hin : (ctxtArg (heldWrbContext funcId d h) 0 >>> 5) % 2 ^ 8 = funcId % 2 ^ 8 :=
    (heldWrb_w0 funcId h hflags).get 3 rfl (by decide)
  have hcut : shBits (ctxtArg (heldWrbContext funcId d h) 0) 5 0xF =
      (ctxtArg (heldWrbContext funcId d h) 0 >>> 5) % 2 ^ 4 := and_mask _ 4
  rw [hcut]
  omega

/-- The script reads every field of a writeback context but three. -/
theorem decodeWrbCtxt_iff (hflags : d.FlagsFit) (hsize : d.stC2hWrbDescSize < 3) :
    decodeWrbCtxt (ctxtArg (heldWrbContext funcId d h) 3) (ctxtArg (heldWrbContext funcId d h) 2)
        (ctxtArg (heldWrbContext funcId d h) 1) (ctxtArg (heldWrbContext funcId d h) 0) =
      WrbScript.encoded funcId d h ↔
        funcId < 2 ^ 4 ∧ h.wrbPidx.val / 16 % 4 = d.stC2hWrbDescSize ∧
          d.descWrbBus.toNat / 2 ^ 32 % 2 ^ 10 = 0 := by
  have h₀ := heldWrb_w0 funcId h hflags
  have h₃ : CtxtWord (heldWrbContext funcId d h) 3 _ _ := heldWrb_w3 funcId h
  have hpidx := wrbPidx_held funcId h hsize
  have hdesc := wrbDescSize_held funcId h hsize
  have hfnc := wrbFncId_held funcId h hflags
  have hbaddr := wrbBaddr64_held funcId h hflags hsize
  constructor
  · intro heq
    have hfunc' : funcId % 2 ^ 4 = funcId := hfnc.symm.trans (congrArg WrbScript.fncId heq)
    have hbase := congrArg WrbScript.base heq
    refine ⟨?_, hdesc.symm.trans (congrArg WrbScript.descSize heq), ?_⟩
    · rw [← hfunc']
      exact Nat.mod_lt _ (by decide)
    · rw [← wrbBase_iff, ← hbaddr]
      exact hbase
  · intro ⟨hfunc', hsize', hzero⟩
    have hbase := (wrbBase_iff _).mpr hzero
    rw [← hbaddr] at hbase
    ext1
    · exact (shBits_get wrbCtxtW3FValid _).trans (h₃.get 0 rfl (by decide))
    · exact (shBits_get wrbCtxtW3Cidx _).trans (h₃.get 2 rfl (by decide))
    · exact hpidx
    · exact hdesc.trans hsize'
    · exact hbaddr.trans (wrbBaddr64_iff hzero)
    · exact hbase
    · exact (shBits_get ⟨24, 4⟩ _).trans (h₀.gap (by decide) (by decide))
    · exact (shBits_get wrbCtxtW0FColor _).trans (h₀.get 4 rfl (by decide))
    · exact (shBits_get ⟨21, 2⟩ _).trans (h₀.gap (by decide) (by decide))
    · exact (shBits_get ⟨17, 4⟩ _).trans (h₀.gap (by decide) (by decide))
    · exact (shBits_get ⟨13, 4⟩ _).trans (h₀.gap (by decide) (by decide))
    · exact hfnc.trans (Nat.mod_eq_of_lt hfunc')
    · exact (shBits_get wrbCtxtW0TrigMode _).trans (h₀.get 2 rfl (by decide))
    · exact (shBits_get wrbCtxtW0FEnInt _).trans (h₀.get 1 rfl (by decide))
    · exact (shBits_get wrbCtxtW0FEnStatDesc _).trans (h₀.get 0 rfl (by decide))

end Wrb

/-- **The three scripts** print what the contexts of a queue hold exactly when the producer
index fits 8 bits and, for a streaming C2H queue, the function fits 4, two bits of the writeback
producer index are the entry size, and the ten bits of the ring address from bit 32 on are 0. -/
theorem decode_scripts_iff {funcId : ℕ} (hfunc : funcId < 2 ^ 8) (h : CtxtHeld) {d : QdmaDescq}
    (hflags : d.FlagsFit) (hpf : d.prefetchEn < 2) (hchn : d.channel < 2)
    (hsize : d.stC2hWrbDescSize < 3) : ScriptsRight funcId d h ↔ ScriptsReach funcId d h := by
  have hsw := decodeSwCtxt_iff h hfunc hflags.irqEn hchn
  have hwrb := decodeWrbCtxt_iff funcId h hflags hsize
  constructor
  · intro hright
    exact ⟨hsw.mp hright.sw, fun hst => (hwrb.mp (hright.wrb hst)).1,
      fun hst => (hwrb.mp (hright.wrb hst)).2.1, fun hst => (hwrb.mp (hright.wrb hst)).2.2⟩
  · intro hreach
    exact ⟨hsw.mpr hreach.pidx, fun _ => decodePreftchCtxt_right h hfunc hpf,
      fun hst => hwrb.mpr ⟨hreach.fncId hst, hreach.descSize hst, hreach.base hst⟩⟩

def heldAtStart : CtxtHeld := ⟨0, 0, 0, 0, 1, 5, 0, 0⟩

theorem decode_scripts_at_start :
    ScriptsRight 3 (qdmaDescqConfig 8 1 (qdmaDescqInit 0 0 0) ⟨0, true, true, 0, 0⟩ false)
      heldAtStart :=
  (decode_scripts_iff (by decide) heldAtStart (flagsFit_config _ _ _ _ _) (by decide) (by decide)
    (by decide)).mpr ⟨by decide, fun _ => by decide, fun _ => by decide +kernel,
      fun _ => by decide +kernel⟩

/-- A streaming C2H queue with 16-byte entries: before the first entry the script says that
they have 8 bytes. -/
theorem decode_scripts_desc_size :
    ¬ ∀ (funcId : ℕ) (d : QdmaDescq) (h : CtxtHeld), funcId < 2 ^ 8 → d.FlagsFit →
      d.prefetchEn < 2 → d.channel < 2 → d.stC2hWrbDescSize < 3 → ScriptsRight funcId d h := by
  intro hall
  have hright := hall 3 (qdmaDescqConfig 8 1 (qdmaDescqInit 0 0 0) ⟨0, true, true, 1, 0⟩ false)
    heldAtStart (by decide) (flagsFit_config _ _ _ _ _) (by decide) (by decide) (by decide)
  have hreach := (decodeWrbCtxt_iff 3 heldAtStart (flagsFit_config _ _ _ _ _) (by decide)).mp
    (hright.wrb (by decide))
  exact absurd hreach.2.1 (by decide)

end Qdma

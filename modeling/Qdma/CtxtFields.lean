import Mathlib.Tactic.IntervalCases
import Qdma.Lib.Packing
import Qdma.Resources

/-!
# The fields of the queue contexts

`make_sw_context`, `make_prefetch_context` and `make_wrb_context` shift values into the
words of a context.  Most `V_` macros do not cut a value to the width of its field, so
whether a field reads what was meant depends on the values of its neighbours.

* Each word is the `pack` of a list of fields (`swContextW1_eq` and its siblings).
* `SwCtxt`, `PftchCtxt` and `WrbCtxt` are the contexts as the hardware reads them, every
  field and every gap between them.
* `FieldsRight` says that the contexts of a queue read what its configuration means.  Two
  values can get in the way: the entry size of the writeback ring, a byte from user space,
  and the prefetch switch, a module parameter (`context_fields_right_iff`).
* The two ring addresses come back whole whatever the configuration (`ring_addresses_kept`).
-/

namespace Qdma

open Lib

/-! ## The places -/

def descCtxtW1FQen : BitField := ⟨sDescCtxtW1FQen, 1⟩
def descCtxtW1FFcrdEn : BitField := ⟨sDescCtxtW1FFcrdEn, 1⟩
def descCtxtW1FWbiChk : BitField := ⟨sDescCtxtW1FWbiChk, 1⟩
def descCtxtW1FWbAccEn : BitField := ⟨sDescCtxtW1FWbAccEn, 1⟩
def descCtxtW1FuncId : BitField := ⟨sDescCtxtW1FuncId, 8⟩
def descCtxtW1RngSz : BitField := ⟨12, 4⟩
def descCtxtW1DscSz : BitField := ⟨sDescCtxtW1DscSz, 2⟩
def descCtxtW1FByp : BitField := ⟨18, 1⟩
def descCtxtW1FMmChn : BitField := ⟨sDescCtxtW1FMmChn, 1⟩
def descCtxtW1FWbkEn : BitField := ⟨sDescCtxtW1FWbkEn, 1⟩
def descCtxtW1FIrqEn : BitField := ⟨sDescCtxtW1FIrqEn, 1⟩
def descCtxtW1FIrqPnd : BitField := ⟨24, 1⟩
def descCtxtW1FIrqNoLast : BitField := ⟨25, 1⟩
def descCtxtW1Err : BitField := ⟨26, 5⟩

/-- The bits of word 1 no macro names. -/
def descCtxtW1Rsvd : List BitField := [⟨22, 2⟩, ⟨31, 1⟩]

def pftchW0FBypass : BitField := ⟨0, 1⟩
def pftchW0BufSizeIdx : BitField := ⟨1, 4⟩
def pftchW0FncId : BitField := ⟨sPftchW0FncId, 8⟩
def pftchW0PortId : BitField := ⟨13, 3⟩
def pftchW0FEnPftch : BitField := ⟨sPftchW0FEnPftch, 1⟩
def pftchW0FQInPftch : BitField := ⟨28, 1⟩
def pftchW0SwCrdtL : BitField := ⟨29, 3⟩
def pftchW1SwCrdtH : BitField := ⟨0, 13⟩
def pftchW1FValid : BitField := ⟨sPftchW1FValid, 1⟩
def pftchW0Rsvd : BitField := ⟨16, 11⟩
def pftchW1Rsvd : BitField := ⟨14, 18⟩

def wrbCtxtW0FEnStatDesc : BitField := ⟨sWrbCtxtW0FEnStatDesc, 1⟩
def wrbCtxtW0FEnInt : BitField := ⟨sWrbCtxtW0FEnInt, 1⟩
def wrbCtxtW0TrigMode : BitField := ⟨sWrbCtxtW0TrigMode, 3⟩
def wrbCtxtW0FncId : BitField := ⟨sWrbCtxtW0FncId, 8⟩
def wrbCtxtW0CounterIdx : BitField := ⟨13, 4⟩
def wrbCtxtW0TimerIdx : BitField := ⟨17, 4⟩
def wrbCtxtW0IntSt : BitField := ⟨21, 2⟩
def wrbCtxtW0FColor : BitField := ⟨sWrbCtxtW0FColor, 1⟩
def wrbCtxtW0RngSz : BitField := ⟨24, 4⟩
def wrbCtxtW0Baddr64 : BitField := ⟨sWrbCtxtW0Baddr64, 4⟩
def wrbCtxtW2Baddr64 : BitField := ⟨0, 22⟩
def wrbCtxtW2DescSize : BitField := ⟨sWrbCtxtW2DescSize, 2⟩
def wrbCtxtW2PidxL : BitField := ⟨24, 8⟩
def wrbCtxtW3PidxH : BitField := ⟨0, 8⟩
def wrbCtxtW3Cidx : BitField := ⟨8, 16⟩
def wrbCtxtW3FValid : BitField := ⟨sWrbCtxtW3FValid, 1⟩
def wrbCtxtW3Rsvd : BitField := ⟨25, 7⟩

/-- A field of word `i` of a context. -/
def ctxtGet (words : List (BitVec 32)) (i : ℕ) (f : BitField) : ℕ := f.get (words.getD i 0).toNat

/-! ## The contexts as the hardware reads them -/

/-- `enum ctxt_desc_sz_sel`, as a number of bytes. -/
def ctxtDescSzBytes (sel : ℕ) : Option ℕ :=
  if sel = descSz8B then some 8 else if sel = descSz16B then some 16
  else if sel = descSz32B then some 32 else none

/-- The SW context.  Word 0 holds `pidx` and `irq_ack`. -/
@[ext] structure SwCtxt where
  pidx : ℕ
  qen : ℕ
  fcrdEn : ℕ
  wbiChk : ℕ
  wbAccEn : ℕ
  funcId : ℕ
  rngSz : ℕ
  dscSz : Option ℕ
  byp : ℕ
  mmChn : ℕ
  wbkEn : ℕ
  irqEn : ℕ
  irqPnd : ℕ
  irqNoLast : ℕ
  err : ℕ
  rsvd : List ℕ
  deriving DecidableEq

def SwCtxt.decode (words : List (BitVec 32)) : SwCtxt where
  pidx := (words.getD 0 0).toNat
  qen := ctxtGet words 1 descCtxtW1FQen
  fcrdEn := ctxtGet words 1 descCtxtW1FFcrdEn
  wbiChk := ctxtGet words 1 descCtxtW1FWbiChk
  wbAccEn := ctxtGet words 1 descCtxtW1FWbAccEn
  funcId := ctxtGet words 1 descCtxtW1FuncId
  rngSz := ctxtGet words 1 descCtxtW1RngSz
  dscSz := ctxtDescSzBytes (ctxtGet words 1 descCtxtW1DscSz)
  byp := ctxtGet words 1 descCtxtW1FByp
  mmChn := ctxtGet words 1 descCtxtW1FMmChn
  wbkEn := ctxtGet words 1 descCtxtW1FWbkEn
  irqEn := ctxtGet words 1 descCtxtW1FIrqEn
  irqPnd := ctxtGet words 1 descCtxtW1FIrqPnd
  irqNoLast := ctxtGet words 1 descCtxtW1FIrqNoLast
  err := ctxtGet words 1 descCtxtW1Err
  rsvd := descCtxtW1Rsvd.map (ctxtGet words 1)

@[ext] structure PftchCtxt where
  bypass : ℕ
  bufSizeIdx : ℕ
  fncId : ℕ
  portId : ℕ
  enPftch : ℕ
  qInPftch : ℕ
  swCrdt : ℕ
  valid : ℕ
  rsvd : List ℕ
  deriving DecidableEq

def PftchCtxt.decode (words : List (BitVec 32)) : PftchCtxt where
  bypass := ctxtGet words 0 pftchW0FBypass
  bufSizeIdx := ctxtGet words 0 pftchW0BufSizeIdx
  fncId := ctxtGet words 0 pftchW0FncId
  portId := ctxtGet words 0 pftchW0PortId
  enPftch := ctxtGet words 0 pftchW0FEnPftch
  qInPftch := ctxtGet words 0 pftchW0FQInPftch
  swCrdt := ctxtGet words 0 pftchW0SwCrdtL + 2 ^ 3 * ctxtGet words 1 pftchW1SwCrdtH
  valid := ctxtGet words 1 pftchW1FValid
  rsvd := [ctxtGet words 0 pftchW0Rsvd, ctxtGet words 1 pftchW1Rsvd]

/-- The writeback context, less the ring address. -/
@[ext] structure WrbCtxt where
  enStatDesc : ℕ
  enInt : ℕ
  trigMode : ℕ
  fncId : ℕ
  counterIdx : ℕ
  timerIdx : ℕ
  intSt : ℕ
  color : ℕ
  rngSz : ℕ
  descSize : Option ℕ
  pidx : ℕ
  cidx : ℕ
  valid : ℕ
  rsvd : ℕ
  deriving DecidableEq

def WrbCtxt.decode (words : List (BitVec 32)) : WrbCtxt where
  enStatDesc := ctxtGet words 0 wrbCtxtW0FEnStatDesc
  enInt := ctxtGet words 0 wrbCtxtW0FEnInt
  trigMode := ctxtGet words 0 wrbCtxtW0TrigMode
  fncId := ctxtGet words 0 wrbCtxtW0FncId
  counterIdx := ctxtGet words 0 wrbCtxtW0CounterIdx
  timerIdx := ctxtGet words 0 wrbCtxtW0TimerIdx
  intSt := ctxtGet words 0 wrbCtxtW0IntSt
  color := ctxtGet words 0 wrbCtxtW0FColor
  rngSz := ctxtGet words 0 wrbCtxtW0RngSz
  descSize := ctxtDescSzBytes (ctxtGet words 2 wrbCtxtW2DescSize)
  pidx := ctxtGet words 2 wrbCtxtW2PidxL + 2 ^ 8 * ctxtGet words 3 wrbCtxtW3PidxH
  cidx := ctxtGet words 3 wrbCtxtW3Cidx
  valid := ctxtGet words 3 wrbCtxtW3FValid
  rsvd := ctxtGet words 3 wrbCtxtW3Rsvd

/-! ## What the configuration means -/

/-- The SW context of a queue of function `funcId`, with interrupts if there are vectors. -/
def SwCtxt.intended (funcId numVecs : ℕ) (d : QdmaDescq) : SwCtxt where
  pidx := 0
  qen := 1
  fcrdEn := if d.isStC2h then 1 else 0
  wbiChk := 1
  wbAccEn := 1
  funcId := funcId
  rngSz := 0
  dscSz := some (getDescSize d)
  byp := 0
  mmChn := 0
  wbkEn := 1
  irqEn := if numVecs = 0 then 0 else 1
  irqPnd := 0
  irqNoLast := 0
  err := 0
  rsvd := [0, 0]

def PftchCtxt.intended (funcId pftchEn : ℕ) : PftchCtxt where
  bypass := 0
  bufSizeIdx := 0
  fncId := funcId
  portId := 0
  enPftch := if pftchEn = 0 then 0 else 1
  qInPftch := 0
  swCrdt := 0
  valid := 1
  rsvd := [0, 0]

/-- The entry size is the one software steps through the ring with. -/
def WrbCtxt.intended (funcId numVecs : ℕ) (d : QdmaDescq) : WrbCtxt where
  enStatDesc := 1
  enInt := if numVecs = 0 then 0 else 1
  trigMode := trigModeAny
  fncId := funcId
  counterIdx := 0
  timerIdx := 0
  intSt := 0
  color := 1
  rngSz := 0
  descSize := some d.stC2hWrbEntryLen
  pidx := 0
  cidx := 0
  valid := 1
  rsvd := 0

/-- The contexts made for the queue read what its configuration means. -/
structure FieldsRight (funcId numVecs pftchEn : ℕ) (d : QdmaDescq) : Prop where
  sw : SwCtxt.decode (makeSwContext funcId d) = SwCtxt.intended funcId numVecs d
  prefetch : d.isStC2h = true →
    PftchCtxt.decode (makePrefetchContext funcId d) = PftchCtxt.intended funcId pftchEn
  wrb : d.isStC2h = true →
    WrbCtxt.decode (makeWrbContext funcId d) = WrbCtxt.intended funcId numVecs d

/-! ## Words as fields -/

theorem ctxtField_eq (n shift : ℕ) : ctxtField n shift = BitVec.ofNat 32 (n <<< shift) := by
  apply BitVec.eq_of_toNat_eq
  rw [ctxtField, BitVec.toNat_shiftLeft, BitVec.toNat_ofNat, BitVec.toNat_ofNat,
    Nat.shiftLeft_eq, Nat.shiftLeft_eq, Nat.mod_mul_mod]

/-- A word of a context, made of its fields. -/
def ctxtPack (l : List (BitField × ℕ)) : BitVec 32 := BitVec.ofNat 32 (pack l)

theorem ctxtPack_nil : ctxtPack [] = 0#32 := rfl

theorem ctxtPack_cons (f : BitField) (v : ℕ) (l : List (BitField × ℕ)) :
    ctxtPack ((f, v) :: l) = ctxtField v f.shift ||| ctxtPack l := by
  rw [ctxtField_eq]
  exact BitVec.ofNat_or

theorem ctxtField_zero (shift : ℕ) : ctxtField 0 shift = 0 := by
  rw [ctxtField_eq, Nat.zero_shiftLeft]
  rfl

/-- The bits above a word are lost, so a field inside it does not see them. -/
theorem get_ctxtPack {f : BitField} (hf : f.shift + f.width ≤ 32) (l : List (BitField × ℕ)) :
    f.get (ctxtPack l).toNat = f.get (pack l) := by
  rw [ctxtPack, BitVec.toNat_ofNat, BitField.get_mod hf]

/-- Word `i` of a context holds values that fit the fields of `layout`. -/
structure CtxtWord (words : List (BitVec 32)) (i : ℕ) (layout : List BitField)
    (l : List (BitField × ℕ)) : Prop where
  word : words.getD i 0 = ctxtPack l
  layout : l.map Prod.fst = layout
  packed : Packed l

namespace CtxtWord

variable {words : List (BitVec 32)} {i : ℕ} {layout : List BitField} {l : List (BitField × ℕ)}
variable {f : BitField} {v : ℕ}

theorem of_fits (hword : words.getD i 0 = ctxtPack l) (hlayout : l.map Prod.fst = layout)
    (hapart : layout.Pairwise BitField.Apart) (hfits : ∀ p ∈ l, p.2 < 2 ^ p.1.width) :
    CtxtWord words i layout l :=
  ⟨hword, hlayout, packed_of_layout hfits (hlayout ▸ hapart)⟩

theorem get (h : CtxtWord words i layout l) (k : ℕ) (hk : l[k]? = some (f, v))
    (hf : f.shift + f.width ≤ 32) : ctxtGet words i f = v := by
  rw [ctxtGet, h.word, get_ctxtPack hf, h.packed.get_eq (List.mem_of_getElem? hk)]

theorem gap (h : CtxtWord words i layout l) (hf : f.shift + f.width ≤ 32)
    (hgap : ∀ g ∈ layout, f.Apart g) : ctxtGet words i f = 0 := by
  rw [ctxtGet, h.word, get_ctxtPack hf, h.packed.get_gap (h.layout ▸ hgap)]

end CtxtWord

/-! ## The SW context -/

/-- `DSC_SZ` as `make_sw_context` selects it. -/
def swDscSz (d : QdmaDescq) : ℕ :=
  if !d.conf.st then descSz32B else if d.conf.c2h then descSz8B else descSz16B

def swW1Layout : List BitField :=
  [descCtxtW1FQen, descCtxtW1FWbAccEn, descCtxtW1FWbiChk, descCtxtW1FuncId, descCtxtW1FWbkEn,
    descCtxtW1FIrqEn, descCtxtW1FFcrdEn, descCtxtW1DscSz, descCtxtW1FMmChn]

/-- The fields of word 1 of `make_sw_context`. -/
def swW1Fields (funcId : ℕ) (d : QdmaDescq) : List (BitField × ℕ) :=
  [(descCtxtW1FQen, 1), (descCtxtW1FWbAccEn, 1), (descCtxtW1FWbiChk, 1),
    (descCtxtW1FuncId, funcId), (descCtxtW1FWbkEn, 1), (descCtxtW1FIrqEn, d.irqEn),
    (descCtxtW1FFcrdEn, if d.isStC2h then 1 else 0), (descCtxtW1DscSz, swDscSz d),
    (descCtxtW1FMmChn, if d.conf.st then 0 else d.channel)]

theorem swContextW1_eq (funcId : ℕ) (d : QdmaDescq) :
    swContextW1 funcId d = ctxtPack (swW1Fields funcId d) := by
  unfold swContextW1 swW1Fields QdmaDescq.isStC2h swDscSz
  simp only [ctxtPack_cons, ctxtPack_nil, BitVec.or_assoc, descCtxtW1FQen,
    descCtxtW1FWbAccEn, descCtxtW1FWbiChk, descCtxtW1FuncId, descCtxtW1FWbkEn, descCtxtW1FIrqEn,
    descCtxtW1DscSz, descCtxtW1FMmChn, descCtxtW1FFcrdEn]
  cases d.conf.st <;> cases d.conf.c2h <;> simp [ctxtField_zero]

theorem swDscSz_lt (d : QdmaDescq) : swDscSz d < 4 := by
  unfold swDscSz descSz32B descSz16B descSz8B
  split
  · decide
  · split <;> decide

theorem sw_w1 {funcId : ℕ} {d : QdmaDescq} (hfunc : funcId < 2 ^ 8) (hirq : d.irqEn < 2)
    (hchn : d.channel < 2) :
    CtxtWord (makeSwContext funcId d) 1 swW1Layout (swW1Fields funcId d) := by
  have hfcrd : (if d.isStC2h then 1 else 0) < 2 := by split <;> decide
  have hmm : (if d.conf.st then 0 else d.channel) < 2 := by
    split
    · decide
    · exact hchn
  refine CtxtWord.of_fits (swContextW1_eq funcId d) rfl (by decide) ?_
  unfold swW1Fields
  simp only [List.forall_mem_cons, List.not_mem_nil, false_imp_iff, implies_true, and_true]
  exact ⟨by decide, by decide, by decide, hfunc, by decide, hirq, hfcrd, swDscSz_lt d, hmm⟩

theorem ctxtDescSzBytes_sw (d : QdmaDescq) :
    ctxtDescSzBytes (swDscSz d) = some (getDescSize d) := by
  unfold swDscSz getDescSize
  cases d.conf.st <;> cases d.conf.c2h <;> rfl

theorem sw_right {funcId numVecs : ℕ} {d : QdmaDescq} (hfunc : funcId < 2 ^ 8)
    (hirq : d.irqEn = if numVecs = 0 then 0 else 1) (hchn : d.channel = 0) :
    SwCtxt.decode (makeSwContext funcId d) = SwCtxt.intended funcId numVecs d := by
  have hlt : d.irqEn < 2 := by
    rw [hirq]
    split <;> decide
  have h := sw_w1 (d := d) hfunc hlt (by omega)
  have hdsc : ctxtGet (makeSwContext funcId d) 1 descCtxtW1DscSz = swDscSz d :=
    h.get 7 rfl (by decide)
  have hmm : ctxtGet (makeSwContext funcId d) 1 descCtxtW1FMmChn = 0 := by
    rw [h.get 8 rfl (by decide), hchn]
    exact ite_self 0
  have hirqEn : ctxtGet (makeSwContext funcId d) 1 descCtxtW1FIrqEn = d.irqEn :=
    h.get 5 rfl (by decide)
  ext1
  · rfl
  · exact h.get 0 rfl (by decide)
  · exact h.get 6 rfl (by decide)
  · exact h.get 2 rfl (by decide)
  · exact h.get 1 rfl (by decide)
  · exact h.get 3 rfl (by decide)
  · exact h.gap (by decide) (by decide)
  · rw [SwCtxt.decode, hdsc, ctxtDescSzBytes_sw]
    rfl
  · exact h.gap (by decide) (by decide)
  · exact hmm
  · exact h.get 4 rfl (by decide)
  · exact hirqEn.trans hirq
  · exact h.gap (by decide) (by decide)
  · exact h.gap (by decide) (by decide)
  · exact h.gap (by decide) (by decide)
  · exact congrArg₂ (fun a b => [a, b]) (h.gap (by decide) (by decide))
      (h.gap (by decide) (by decide))

/-! ## The prefetch context -/

/-- What of the prefetch switch lies beyond the word. -/
def pftchW0Beyond : BitField := ⟨32, 3⟩

def pftchW0Layout : List BitField :=
  [pftchW0FncId, pftchW0FEnPftch, pftchW0FQInPftch, pftchW0SwCrdtL, pftchW0Beyond]

/-- The fields of word 0 of `make_prefetch_context`: the switch is not cut to its bit. -/
def pftchW0Fields (funcId prefetchEn : ℕ) : List (BitField × ℕ) :=
  [(pftchW0FncId, funcId % 2 ^ 8), (pftchW0FEnPftch, prefetchEn % 2),
    (pftchW0FQInPftch, prefetchEn / 2 % 2), (pftchW0SwCrdtL, prefetchEn / 4 % 8),
    (pftchW0Beyond, prefetchEn / 32)]

theorem and_mask (n k : ℕ) : n &&& (2 ^ k - 1) = n % 2 ^ k := Nat.and_two_pow_sub_one_eq_mod n k

theorem pack_prefetch (funcId prefetchEn : ℕ) :
    pack (pftchW0Fields funcId prefetchEn) =
      pack [(pftchW0FncId, funcId % 2 ^ 8), (pftchW0FEnPftch, prefetchEn)] := by
  have h₁ := BitField.put_split pftchW0FEnPftch 1 prefetchEn
  have h₂ := BitField.put_split pftchW0FQInPftch 3 (prefetchEn / 2)
  have h₃ := BitField.put_split pftchW0SwCrdtL 3 (prefetchEn / 2 / 2)
  unfold pftchW0Fields
  simp only [pack_cons]
  change pftchW0FEnPftch.put prefetchEn =
    pftchW0FEnPftch.put (prefetchEn % 2) ||| pftchW0FQInPftch.put (prefetchEn / 2) at h₁
  change pftchW0FQInPftch.put (prefetchEn / 2) =
    pftchW0FQInPftch.put (prefetchEn / 2 % 2) ||| pftchW0SwCrdtL.put (prefetchEn / 2 / 2) at h₂
  change pftchW0SwCrdtL.put (prefetchEn / 2 / 2) =
    pftchW0SwCrdtL.put (prefetchEn / 2 / 2 % 8) ||| pftchW0Beyond.put (prefetchEn / 2 / 2 / 8) at h₃
  rw [h₁, h₂, h₃, Nat.div_div_eq_div_mul, Nat.div_div_eq_div_mul]
  simp only [Nat.or_assoc]

theorem pftch_w0 (funcId : ℕ) {d : QdmaDescq} (hp : d.prefetchEn < 2 ^ 8) :
    CtxtWord (makePrefetchContext funcId d) 0 pftchW0Layout
      (pftchW0Fields funcId d.prefetchEn) := by
  refine CtxtWord.of_fits ?_ rfl (by decide) ?_
  · rw [ctxtPack, pack_prefetch, ← ctxtPack, ctxtPack_cons, ctxtPack_cons, ctxtPack_nil]
    change _ = ctxtField (funcId % 2 ^ 8) sPftchW0FncId |||
      (ctxtField d.prefetchEn sPftchW0FEnPftch ||| 0#32)
    rw [BitVec.or_zero, ← and_mask]
    rfl
  · unfold pftchW0Fields
    simp only [List.forall_mem_cons, List.not_mem_nil, false_imp_iff, implies_true, and_true]
    refine ⟨Nat.mod_lt _ (by decide), Nat.mod_lt _ (by decide), Nat.mod_lt _ (by decide),
      Nat.mod_lt _ (by decide), ?_⟩
    change d.prefetchEn / 32 < 2 ^ 3
    omega

theorem pftch_w1 (funcId : ℕ) (d : QdmaDescq) :
    CtxtWord (makePrefetchContext funcId d) 1 [pftchW1FValid] [(pftchW1FValid, 1)] :=
  CtxtWord.of_fits rfl rfl (by decide) (by decide)

/-- The contexts read the prefetch switch right if it is 0, or 1 up to what is lost. -/
theorem prefetch_right_iff {funcId : ℕ} {d : QdmaDescq} (hfunc : funcId < 2 ^ 8)
    (hp : d.prefetchEn < 2 ^ 8) :
    PftchCtxt.decode (makePrefetchContext funcId d) = PftchCtxt.intended funcId d.prefetchEn ↔
      d.prefetchEn = 0 ∨ d.prefetchEn % 32 = 1 := by
  have h := pftch_w0 funcId hp
  have h₁ := pftch_w1 funcId d
  have hen : ctxtGet (makePrefetchContext funcId d) 0 pftchW0FEnPftch = d.prefetchEn % 2 :=
    h.get 1 rfl (by decide)
  have hin : ctxtGet (makePrefetchContext funcId d) 0 pftchW0FQInPftch = d.prefetchEn / 2 % 2 :=
    h.get 2 rfl (by decide)
  have hcrdt : ctxtGet (makePrefetchContext funcId d) 0 pftchW0SwCrdtL +
      2 ^ 3 * ctxtGet (makePrefetchContext funcId d) 1 pftchW1SwCrdtH = d.prefetchEn / 4 % 8 := by
    rw [h.get 3 rfl (by decide), h₁.gap (by decide) (by decide)]
    omega
  have hfnc : ctxtGet (makePrefetchContext funcId d) 0 pftchW0FncId = funcId := by
    rw [h.get 0 rfl (by decide), Nat.mod_eq_of_lt hfunc]
  have hiff : (d.prefetchEn % 2 = (if d.prefetchEn = 0 then 0 else 1) ∧
      d.prefetchEn / 2 % 2 = 0 ∧ d.prefetchEn / 4 % 8 = 0) ↔
      d.prefetchEn = 0 ∨ d.prefetchEn % 32 = 1 := by
    split <;> omega
  rw [← hiff]
  constructor
  · intro heq
    have hEn : ctxtGet (makePrefetchContext funcId d) 0 pftchW0FEnPftch = _ :=
      congrArg PftchCtxt.enPftch heq
    have hIn : ctxtGet (makePrefetchContext funcId d) 0 pftchW0FQInPftch = _ :=
      congrArg PftchCtxt.qInPftch heq
    have hCrdt : ctxtGet (makePrefetchContext funcId d) 0 pftchW0SwCrdtL +
        2 ^ 3 * ctxtGet (makePrefetchContext funcId d) 1 pftchW1SwCrdtH = _ :=
      congrArg PftchCtxt.swCrdt heq
    exact ⟨hen.symm.trans hEn, hin.symm.trans hIn, hcrdt.symm.trans hCrdt⟩
  · rintro ⟨hEn, hIn, hCrdt⟩
    ext1
    · exact h.gap (by decide) (by decide)
    · exact h.gap (by decide) (by decide)
    · exact hfnc
    · exact h.gap (by decide) (by decide)
    · exact hen.trans hEn
    · exact hin.trans hIn
    · exact hcrdt.trans hCrdt
    · exact h₁.get 0 rfl (by decide)
    · exact congrArg₂ (fun a b => [a, b]) (h.gap (by decide) (by decide))
        (h₁.gap (by decide) (by decide))

/-! ## The writeback context -/

/-- The lowest `k` bits of an address, cut twice and moved to a place in a register. -/
theorem ctxtField_mask (b : BitVec 64) (k shift : ℕ) :
    ctxtField (b.toNat % 2 ^ k) shift =
      ((b &&& BitVec.ofNat 64 (2 ^ k - 1)).setWidth 32 &&& BitVec.ofNat 32 (2 ^ k - 1)) <<<
        shift := by
  rw [ctxtField]
  congr 1
  apply BitVec.eq_of_getLsbD_eq
  intro i hi
  rw [BitVec.getLsbD_and, BitVec.getLsbD_setWidth, BitVec.getLsbD_and, getLsbD_mask, getLsbD_mask,
    BitVec.getLsbD_ofNat, Nat.testBit_mod_two_pow, BitVec.testBit_toNat]
  by_cases hik : i < k
  · simp [hi, hik, show i < 64 by omega]
  · simp [hik]

def wrbW0Layout : List BitField :=
  [wrbCtxtW0FEnStatDesc, wrbCtxtW0FEnInt, wrbCtxtW0TrigMode, wrbCtxtW0FncId, wrbCtxtW0FColor,
    wrbCtxtW0Baddr64]

/-- The fields of word 0 of `make_wrb_context`. -/
def wrbW0Fields (funcId : ℕ) (d : QdmaDescq) : List (BitField × ℕ) :=
  [(wrbCtxtW0FEnStatDesc, d.wrbStatDescEn), (wrbCtxtW0FEnInt, d.irqEn),
    (wrbCtxtW0TrigMode, d.wrbTrigMode), (wrbCtxtW0FncId, funcId % 2 ^ 8), (wrbCtxtW0FColor, 1),
    (wrbCtxtW0Baddr64, (wrbBus64 d.descWrbBus).toNat % 2 ^ 4)]

theorem wrb_w0 (funcId : ℕ) {d : QdmaDescq} (hflags : d.FlagsFit) :
    CtxtWord (makeWrbContext funcId d) 0 wrbW0Layout (wrbW0Fields funcId d) := by
  refine CtxtWord.of_fits ?_ rfl (by decide) ?_
  · unfold makeWrbContext wrbW0Fields
    simp only [ctxtPack_cons, ctxtPack_nil, BitVec.or_zero, List.getD_cons_zero, BitVec.or_assoc]
    rw [ctxtField_mask, ← and_mask]
    rfl
  · unfold wrbW0Fields
    simp only [List.forall_mem_cons, List.not_mem_nil, false_imp_iff, implies_true, and_true]
    exact ⟨hflags.wrbStatDescEn, hflags.irqEn, hflags.wrbTrigMode, Nat.mod_lt _ (by decide),
      by decide, Nat.mod_lt _ (by decide)⟩

def wrbW2Layout : List BitField := [wrbCtxtW2Baddr64, wrbCtxtW2DescSize, wrbCtxtW2PidxL]

/-- The fields of word 2: the entry size is not cut to its two bits. -/
def wrbW2Fields (d : QdmaDescq) : List (BitField × ℕ) :=
  [(wrbCtxtW2Baddr64, (wrbBus64 d.descWrbBus >>> (lWrbCtxtW0Baddr64 + 32)).toNat % 2 ^ 22),
    (wrbCtxtW2DescSize, d.stC2hWrbDescSize % 4), (wrbCtxtW2PidxL, d.stC2hWrbDescSize / 4)]

theorem wrb_w2 (funcId : ℕ) {d : QdmaDescq} (hsize : d.stC2hWrbDescSize < 2 ^ 8) :
    CtxtWord (makeWrbContext funcId d) 2 wrbW2Layout (wrbW2Fields d) := by
  refine CtxtWord.of_fits ?_ rfl (by decide) ?_
  · have hsplit : pack [(wrbCtxtW2DescSize, d.stC2hWrbDescSize % 4),
        (wrbCtxtW2PidxL, d.stC2hWrbDescSize / 4)] =
        pack [(wrbCtxtW2DescSize, d.stC2hWrbDescSize)] := by
      have h := BitField.put_split wrbCtxtW2DescSize 8 d.stC2hWrbDescSize
      simp only [pack_cons, pack_nil, Nat.or_zero]
      exact h.symm
    unfold wrbW2Fields
    rw [ctxtPack_cons, ctxtPack, hsplit, ← ctxtPack, ctxtPack_cons, ctxtPack_nil, BitVec.or_zero]
    unfold makeWrbContext
    simp only [List.getD_cons_succ, List.getD_cons_zero]
    have hshift : wrbCtxtW2Baddr64.shift = 0 := rfl
    rw [ctxtField_mask, hshift, BitVec.shiftLeft_zero]
    rfl
  · unfold wrbW2Fields
    simp only [List.forall_mem_cons, List.not_mem_nil, false_imp_iff, implies_true, and_true]
    refine ⟨Nat.mod_lt _ (by decide), Nat.mod_lt _ (by decide), ?_⟩
    change d.stC2hWrbDescSize / 4 < 2 ^ 8
    omega

theorem wrb_w3 (funcId : ℕ) (d : QdmaDescq) :
    CtxtWord (makeWrbContext funcId d) 3 [wrbCtxtW3FValid] [(wrbCtxtW3FValid, 1)] :=
  CtxtWord.of_fits rfl rfl (by decide) (by decide)

/-- A selector is stepped with right if it is one of the three sizes. -/
theorem wrb_right_iff {funcId numVecs : ℕ} {d : QdmaDescq} (hfunc : funcId < 2 ^ 8)
    (hflags : d.FlagsFit) (hirq : d.irqEn = if numVecs = 0 then 0 else 1)
    (hstat : d.wrbStatDescEn = 1) (htrig : d.wrbTrigMode = trigModeAny)
    (hsize : d.stC2hWrbDescSize < 2 ^ 8)
    (hlen : d.stC2hWrbEntryLen = stC2hWrbEntryLenOf d.stC2hWrbDescSize) :
    WrbCtxt.decode (makeWrbContext funcId d) = WrbCtxt.intended funcId numVecs d ↔
      d.stC2hWrbDescSize < descSzRsv := by
  have h₀ := wrb_w0 funcId hflags
  have h₂ := wrb_w2 funcId hsize
  have h₃ := wrb_w3 funcId d
  have hdesc : ctxtGet (makeWrbContext funcId d) 2 wrbCtxtW2DescSize = d.stC2hWrbDescSize % 4 :=
    h₂.get 1 rfl (by decide)
  have hpidx : ctxtGet (makeWrbContext funcId d) 2 wrbCtxtW2PidxL +
      2 ^ 8 * ctxtGet (makeWrbContext funcId d) 3 wrbCtxtW3PidxH = d.stC2hWrbDescSize / 4 := by
    rw [h₂.get 2 rfl (by decide), h₃.gap (by decide) (by decide)]
    omega
  have hfnc : ctxtGet (makeWrbContext funcId d) 0 wrbCtxtW0FncId = funcId := by
    rw [h₀.get 3 rfl (by decide), Nat.mod_eq_of_lt hfunc]
  have hrsv : descSzRsv = 3 := rfl
  constructor
  · intro heq
    have hPidx : ctxtGet (makeWrbContext funcId d) 2 wrbCtxtW2PidxL +
        2 ^ 8 * ctxtGet (makeWrbContext funcId d) 3 wrbCtxtW3PidxH = 0 := congrArg WrbCtxt.pidx heq
    have hDesc : ctxtDescSzBytes (ctxtGet (makeWrbContext funcId d) 2 wrbCtxtW2DescSize) =
        some d.stC2hWrbEntryLen := congrArg WrbCtxt.descSize heq
    rw [hpidx] at hPidx
    have hlt : d.stC2hWrbDescSize < 4 := by omega
    rw [hdesc, Nat.mod_eq_of_lt hlt] at hDesc
    by_contra hno
    have hthree : d.stC2hWrbDescSize = 3 := by omega
    rw [hthree] at hDesc
    cases hDesc
  · intro hlt
    have hzero : d.stC2hWrbDescSize / 4 = 0 := by omega
    have hmod : d.stC2hWrbDescSize % 4 = d.stC2hWrbDescSize := Nat.mod_eq_of_lt (by omega)
    have hbytes : ctxtDescSzBytes d.stC2hWrbDescSize = some d.stC2hWrbEntryLen := by
      rw [hlen]
      generalize d.stC2hWrbDescSize = size at hlt
      rw [hrsv] at hlt
      interval_cases size <;> rfl
    ext1
    · exact (h₀.get 0 rfl (by decide)).trans hstat
    · exact (h₀.get 1 rfl (by decide)).trans hirq
    · exact (h₀.get 2 rfl (by decide)).trans htrig
    · exact hfnc
    · exact h₀.gap (by decide) (by decide)
    · exact h₀.gap (by decide) (by decide)
    · exact h₀.gap (by decide) (by decide)
    · exact h₀.get 4 rfl (by decide)
    · exact h₀.gap (by decide) (by decide)
    · rw [WrbCtxt.decode, hdesc, hmod, hbytes]
      rfl
    · exact hpidx.trans hzero
    · exact h₃.gap (by decide) (by decide)
    · exact h₃.get 0 rfl (by decide)
    · exact h₃.gap (by decide) (by decide)

/-! ## Every configuration -/

theorem flagsFit_config (numVecs pftchEn : ℕ) (d : QdmaDescq) (qconf : QdmaQueueConf)
    (reconfig : Bool) : (qdmaDescqConfig numVecs pftchEn d qconf reconfig).FlagsFit where
  irqEn := by
    change (if numVecs = 0 then 0 else 1) < 2 ^ 1
    split <;> decide
  wrbStatDescEn := by
    change 1 < 2 ^ 1
    decide
  wrbTrigMode := by
    change trigModeAny < 2 ^ 3
    decide

/-- **The fields of a configured queue's contexts** are right exactly if the queue is not a
streaming C2H queue or its two unchecked values stay inside their fields: the entry size is
one of the three there are, and the prefetch switch is 0 or leaves 1 modulo 32.  The values
are bytes; `qdma_descq_init` sets `channel` to 0 and nothing changes it. -/
theorem context_fields_right_iff {funcId pftchEn : ℕ} (hfunc : funcId < 2 ^ 8)
    (hpftch : pftchEn < 2 ^ 8) (numVecs : ℕ) {d : QdmaDescq} (hchn : d.channel = 0)
    {qconf : QdmaQueueConf} (hsize : qconf.stC2hWrbDescSize < 2 ^ 8) :
    FieldsRight funcId numVecs pftchEn (qdmaDescqConfig numVecs pftchEn d qconf false) ↔
      (qconf.st = true → qconf.c2h = true →
        qconf.stC2hWrbDescSize < descSzRsv ∧ (pftchEn = 0 ∨ pftchEn % 32 = 1)) := by
  have hirq : (qdmaDescqConfig numVecs pftchEn d qconf false).irqEn = if numVecs = 0 then 0 else 1 :=
    rfl
  have hsw := sw_right hfunc hirq hchn
  have hst : (qdmaDescqConfig numVecs pftchEn d qconf false).isStC2h = (qconf.st && qconf.c2h) :=
    rfl
  have hpf := prefetch_right_iff (d := qdmaDescqConfig numVecs pftchEn d qconf false) hfunc hpftch
  have hsel : qconf.st = true → qconf.c2h = true →
      (qdmaDescqConfig numVecs pftchEn d qconf false).stC2hWrbDescSize =
        qconf.stC2hWrbDescSize := by
    intro h₁ h₂
    change (if (qconf.c2h && qconf.st) = true then _ else _) = _
    rw [h₁, h₂]
    rfl
  have hwrb : qconf.st = true → qconf.c2h = true →
      (WrbCtxt.decode (makeWrbContext funcId (qdmaDescqConfig numVecs pftchEn d qconf false)) =
          WrbCtxt.intended funcId numVecs (qdmaDescqConfig numVecs pftchEn d qconf false) ↔
        qconf.stC2hWrbDescSize < descSzRsv) := by
    intro h₁ h₂
    rw [← hsel h₁ h₂]
    refine wrb_right_iff hfunc (flagsFit_config _ _ _ _ _) rfl rfl rfl ?_ rfl
    rw [hsel h₁ h₂]
    exact hsize
  constructor
  · intro h h₁ h₂
    have hboth : (qdmaDescqConfig numVecs pftchEn d qconf false).isStC2h = true := by
      rw [hst, h₁, h₂]
      rfl
    exact ⟨(hwrb h₁ h₂).mp (h.wrb hboth), hpf.mp (h.prefetch hboth)⟩
  · intro h
    refine ⟨hsw, ?_, ?_⟩
    · intro hboth
      rw [hst, Bool.and_eq_true] at hboth
      exact hpf.mpr (h hboth.1 hboth.2).2
    · intro hboth
      rw [hst, Bool.and_eq_true] at hboth
      exact (hwrb hboth.1 hboth.2).mpr (h hboth.1 hboth.2).1

/-- A streaming C2H queue with 16-byte entries and the prefetch engine on. -/
theorem context_fields_right_prefetched :
    FieldsRight 3 8 1 (qdmaDescqConfig 8 1 (qdmaDescqInit 0 0 0) ⟨0, true, true, descSz16B, 0⟩ false) :=
  (context_fields_right_iff (by decide) (by decide) 8 rfl (by decide)).mpr
    fun _ _ => ⟨by decide, Or.inr rfl⟩

/-- A byte beyond the selectors is stepped with as 8 bytes and spills into the producer
index; a switch of 2 turns the prefetch engine off and says that the queue is in it. -/
theorem context_fields_spill :
    ¬ ∀ (funcId numVecs pftchEn : ℕ) (d : QdmaDescq) (qconf : QdmaQueueConf), funcId < 2 ^ 8 →
      pftchEn < 2 ^ 8 → qconf.stC2hWrbDescSize < 2 ^ 8 → d.channel = 0 →
      FieldsRight funcId numVecs pftchEn (qdmaDescqConfig numVecs pftchEn d qconf false) := by
  intro hall
  have h := hall 0 0 2 (qdmaDescqInit 0 0 0) ⟨0, true, true, 5, 0⟩ (by decide) (by decide)
    (by decide) rfl
  have hpidx := congrArg WrbCtxt.pidx (h.wrb rfl)
  have hne : (WrbCtxt.decode (makeWrbContext 0
      (qdmaDescqConfig 0 2 (qdmaDescqInit 0 0 0) ⟨0, true, true, 5, 0⟩ false))).pidx ≠ 0 := by
    decide +kernel
  exact hne hpidx

/-! ## The ring addresses -/

theorem shiftLeft_wrbBus64 {bus : BitVec 64} (halign : bus.toNat % 64 = 0) :
    ((bus >>> 6).setWidth 58).setWidth 64 <<< 6 = bus := by
  have hlt := bus.isLt
  apply BitVec.eq_of_toNat_eq
  rw [BitVec.toNat_shiftLeft, BitVec.toNat_setWidth, BitVec.toNat_setWidth,
    BitVec.toNat_ushiftRight, Nat.shiftRight_eq_div_pow, Nat.shiftLeft_eq]
  omega

/-- **The two ring addresses of a configured queue** come back from its contexts, and
different addresses give different words. -/
theorem ring_addresses_kept (funcId numVecs pftchEn : ℕ) (d : QdmaDescq) (qconf : QdmaQueueConf)
    (halign : d.descWrbBus.toNat % 64 = 0) :
    let q := qdmaDescqConfig numVecs pftchEn d qconf false
    ctxtDescBus (makeSwContext funcId q) = d.descBus ∧
      (ctxtWrbBus64 (makeWrbContext funcId q)).setWidth 64 <<< 6 = d.descWrbBus ∧
      ∀ (funcId' numVecs' pftchEn' : ℕ) (d' : QdmaDescq) (qconf' : QdmaQueueConf),
        d'.descWrbBus.toNat % 64 = 0 →
        let q' := qdmaDescqConfig numVecs' pftchEn' d' qconf' false
        (d.descBus ≠ d'.descBus →
          (makeSwContext funcId q).drop 2 ≠ (makeSwContext funcId' q').drop 2) ∧
        (d.descWrbBus ≠ d'.descWrbBus →
          (makeWrbContext funcId q).take 3 ≠ (makeWrbContext funcId' q').take 3) := by
  have hwrb : ∀ (f n p : ℕ) (e : QdmaDescq) (conf : QdmaQueueConf), e.descWrbBus.toNat % 64 = 0 →
      (ctxtWrbBus64 (makeWrbContext f (qdmaDescqConfig n p e conf false))).setWidth 64 <<< 6 =
        e.descWrbBus := by
    intro f n p e conf he
    rw [ctxtWrbBus64_makeWrbContext f (flagsFit_config n p e conf false)]
    exact shiftLeft_wrbBus64 he
  have hsw : ∀ (f n p : ℕ) (e : QdmaDescq) (conf : QdmaQueueConf),
      ctxtDescBus (makeSwContext f (qdmaDescqConfig n p e conf false)) = e.descBus :=
    fun f n p e conf => ctxtDescBus_makeSwContext f (qdmaDescqConfig n p e conf false)
  refine ⟨hsw .., hwrb _ _ _ _ _ halign, ?_⟩
  intro funcId' numVecs' pftchEn' d' qconf' halign'
  constructor
  · intro hne heq
    apply hne
    rw [← hsw funcId numVecs pftchEn d qconf, ← hsw funcId' numVecs' pftchEn' d' qconf']
    obtain ⟨hlow, hhigh⟩ := List.cons.inj heq
    unfold ctxtDescBus
    exact congrArg₂ (· ++ ·) (List.cons.inj hhigh).1 hlow
  · intro hne heq
    apply hne
    rw [← hwrb funcId numVecs pftchEn d qconf halign,
      ← hwrb funcId' numVecs' pftchEn' d' qconf' halign']
    obtain ⟨h₀, hrest⟩ := List.cons.inj heq
    obtain ⟨h₁, hrest⟩ := List.cons.inj hrest
    obtain ⟨h₂, -⟩ := List.cons.inj hrest
    have hbase : ctxtWrbBus64 (makeWrbContext funcId
        (qdmaDescqConfig numVecs pftchEn d qconf false)) =
        ctxtWrbBus64 (makeWrbContext funcId'
          (qdmaDescqConfig numVecs' pftchEn' d' qconf' false)) := by
      simp only [ctxtWrbBus64, makeWrbContext, List.getD_cons_zero, List.getD_cons_succ] at *
      rw [h₀, h₁, h₂]
    rw [hbase]

/-- A queue with its writeback ring at the top of the address space. -/
def highRingQueue : QdmaDescq :=
  { qdmaDescqInit 0 0 0 with
    descWrb := some
      { va := 0, bus := 0xFFFFFFFFFFFFFFC0, len := 0, mem := fun _ => 0, wbPidx := 0, wbCidx := 0 } }

theorem ring_addresses_kept_high :
    (ctxtWrbBus64 (makeWrbContext 0 (qdmaDescqConfig 0 0 highRingQueue
      ⟨0, true, true, descSz8B, 0⟩ false))).setWidth 64 <<< 6 = 0xFFFFFFFFFFFFFFC0#64 :=
  (ring_addresses_kept 0 0 0 highRingQueue ⟨0, true, true, descSz8B, 0⟩ (by decide)).2.1

end Qdma

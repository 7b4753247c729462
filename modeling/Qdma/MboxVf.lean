import Qdma.Isolation
import Qdma.VecMap

/-!
# The mailbox of a virtual function

The virtual function's build of `qdma_context.c` computes the same words as the physical
function's, but sends them instead of writing them: `qdma_descq_context_setup` packs the
queue id, the kind of queue and the contexts into one message.

* `descqContextSetupMsg` is that message, and `descqContextSetupMsg_context` and its
  neighbours say that the receiver reads what was packed.
* `contextProgram_same` compares two programmings of one queue.

The result says when programming a queue through the mailbox leaves the hardware as
programming it directly does: the contexts always agree, the vector map does not.
-/

namespace Qdma

open Lib

/-! ## Packing -/

/-- The word of `struct mbox_msg_qctxt` before the context, with `intr_en`,
`intr_coal_en` and `intr_id` left zero. -/
def qctxtWord (clear verify c2h st : Bool) (qid : ℕ) : BitVec 32 :=
  BitVec.ofNat 32
    (clear.toNat + 2 * verify.toNat + 4 * c2h.toNat + 8 * st.toNat + 2 ^ 16 * (qid % 2 ^ 16))

/-- The context of the virtual function's `qdma_descq_context_setup`: `memset`, then what
the queue needs. -/
def QdmaDescq.msgContext (funcId : ℕ) (d : QdmaDescq) : HwDescqContextRd :=
  { HwDescqContextRd.zero with
    sw := makeSwContext funcId d
    prefetch := if d.isStC2h then makePrefetchContext funcId d else HwDescqContextRd.zero.prefetch
    wrb := if d.isStC2h then makeWrbContext funcId d else HwDescqContextRd.zero.wrb }

/-- The message of the virtual function's `qdma_descq_context_setup`, as
`qdma_mbox_send_msg` sends it. -/
def descqContextSetupMsg (funcId funcIdParent : ℕ) (d : QdmaDescq) : MboxMsg where
  hdr :=
    { op := mboxOpQctxtWrt, sent := false, rcv := false, ack := false, wait := true, src := funcId,
      dst := funcIdParent, status := 0 }
  raw i :=
    if i = 1 then qctxtWord true true d.conf.c2h d.conf.st d.qidxHw
    else if 2 ≤ i then (MboxMsg.contextWords (d.msgContext funcId)).getD (i - 2) 0 else 0

theorem qctxtWord_toNat (clear verify c2h st : Bool) (qid : ℕ) :
    (qctxtWord clear verify c2h st qid).toNat =
      clear.toNat + 2 * verify.toNat + 4 * c2h.toNat + 8 * st.toNat + 2 ^ 16 * (qid % 2 ^ 16) := by
  have hclear := Bool.toNat_le clear
  have hverify := Bool.toNat_le verify
  have hc2h := Bool.toNat_le c2h
  have hst := Bool.toNat_le st
  unfold qctxtWord
  rw [BitVec.toNat_ofNat]
  exact Nat.mod_eq_of_lt (by omega)

section Unpack

variable (funcId funcIdParent : ℕ) (d : QdmaDescq)

theorem descqContextSetupMsg_qid :
    (descqContextSetupMsg funcId funcIdParent d).qid = d.qidxHw % 2 ^ 16 := by
  have hc2h := Bool.toNat_le d.conf.c2h
  have hst := Bool.toNat_le d.conf.st
  have hword : ((descqContextSetupMsg funcId funcIdParent d).raw 1).toNat = _ :=
    qctxtWord_toNat true true d.conf.c2h d.conf.st d.qidxHw
  unfold MboxMsg.qid
  rw [hword, Bool.toNat_true]
  omega

theorem descqContextSetupMsg_c2h :
    (descqContextSetupMsg funcId funcIdParent d).c2h = d.conf.c2h := by
  have hst := Bool.toNat_le d.conf.st
  have hbit : (qctxtWord true true d.conf.c2h d.conf.st d.qidxHw).getLsbD 2 = d.conf.c2h := by
    rw [BitVec.getLsbD, qctxtWord_toNat, Nat.testBit_eq_decide_div_mod_eq]
    cases d.conf.c2h with
    | false =>
        simp only [Bool.toNat_true, Bool.toNat_false, decide_eq_false_iff_not]
        omega
    | true =>
        simp only [Bool.toNat_true, decide_eq_true_eq]
        omega
  exact hbit

theorem descqContextSetupMsg_st :
    (descqContextSetupMsg funcId funcIdParent d).st = d.conf.st := by
  have hc2h := Bool.toNat_le d.conf.c2h
  have hbit : (qctxtWord true true d.conf.c2h d.conf.st d.qidxHw).getLsbD 3 = d.conf.st := by
    rw [BitVec.getLsbD, qctxtWord_toNat, Nat.testBit_eq_decide_div_mod_eq]
    cases d.conf.st with
    | false =>
        simp only [Bool.toNat_true, Bool.toNat_false, decide_eq_false_iff_not]
        omega
    | true =>
        simp only [Bool.toNat_true, decide_eq_true_eq]
        omega
  exact hbit

/-- The receiver finds the words where the sender put them. -/
theorem descqContextSetupMsg_context :
    (descqContextSetupMsg funcId funcIdParent d).context = d.msgContext funcId := by
  have hunpack : ∀ c : HwDescqContextRd, c.sw.length = 4 → c.prefetch.length = 2 →
      c.wrb.length = 4 → c.hw.length = 2 → c.cr.length = 1 →
      ∀ m : MboxMsg, (∀ i, m.raw (2 + i) = (MboxMsg.contextWords c).getD i 0) → m.context = c := by
    rintro ⟨⟨sw, pf, wrb⟩, hw, cr⟩ hsw hpf hwrb hhw hcr m hraw
    match sw, pf, wrb, hw, cr, hsw, hpf, hwrb, hhw, hcr with
    | [a₀, a₁, a₂, a₃], [b₀, b₁], [c₀, c₁, c₂, c₃], [d₀, d₁], [e₀], _, _, _, _, _ =>
      simp only [MboxMsg.context, MboxMsg.words, List.range_succ, List.range_zero, List.nil_append,
        List.cons_append, List.map_cons, List.map_nil]
      have h : ∀ i, m.raw (2 + i) =
          [a₀, a₁, a₂, a₃, b₀, b₁, c₀, c₁, c₂, c₃, d₀, d₁, e₀].getD i 0 := hraw
      rw [show m.raw (2 + 0) = _ from h 0, show m.raw (2 + 1) = _ from h 1,
        show m.raw (2 + 2) = _ from h 2, show m.raw (2 + 3) = _ from h 3,
        show m.raw (6 + 0) = _ from h 4, show m.raw (6 + 1) = _ from h 5,
        show m.raw (8 + 0) = _ from h 6, show m.raw (8 + 1) = _ from h 7,
        show m.raw (8 + 2) = _ from h 8, show m.raw (8 + 3) = _ from h 9,
        show m.raw (12 + 0) = _ from h 10, show m.raw (12 + 1) = _ from h 11,
        show m.raw (14 + 0) = _ from h 12]
      rfl
  refine hunpack _ rfl ?_ ?_ rfl rfl _ fun i => ?_
  · unfold QdmaDescq.msgContext
    dsimp only
    split
    · rfl
    · rfl
  · unfold QdmaDescq.msgContext
    dsimp only
    split
    · rfl
    · rfl
  · unfold descqContextSetupMsg
    dsimp only
    rw [if_neg (by omega), if_pos (by omega), Nat.add_sub_cancel_left]

end Unpack

/-! ## Two programmings of one queue -/

/-- Two programmings that succeed, of one queue with the same words, from stores that
agree outside of its contexts. -/
theorem contextProgram_same {clear clear' write write' : ℕ → CmdFate} {ctxt ctxt' : CtxtStore}
    {qidHw : ℕ} {st c2h : Bool} {context context' : HwDescqContext}
    (hother : ∀ q sel, (q = qidHw → ¬ OwnSel st c2h sel) → ctxt q sel = ctxt' q sel)
    (hsw : context.sw = context'.sw)
    (hst : (st && c2h) = true →
      context.prefetch = context'.prefetch ∧ context.wrb = context'.wrb)
    (hok : ¬ (qdmaDescqContextProgram clear write ctxt qidHw st c2h context).1 < 0)
    (hok' : ¬ (qdmaDescqContextProgram clear' write' ctxt' qidHw st c2h context').1 < 0) :
    (qdmaDescqContextProgram clear write ctxt qidHw st c2h context).2 =
      (qdmaDescqContextProgram clear' write' ctxt' qidHw st c2h context').2 := by
  obtain ⟨hsw₁, hst₁⟩ := contextProgram_ok hok
  obtain ⟨hsw₂, hst₂⟩ := contextProgram_ok hok'
  obtain ⟨hhw₁, hcr₁⟩ := contextProgram_ok_zero hok
  obtain ⟨hhw₂, hcr₂⟩ := contextProgram_ok_zero hok'
  funext q sel
  by_cases hown : q = qidHw ∧ OwnSel st c2h sel
  · obtain ⟨rfl, rfl | rfl | rfl | ⟨hstc2h, rfl | rfl⟩⟩ := hown
    · rw [hsw₁, hsw₂, hsw]
    · rw [hhw₁, hhw₂]
    · rw [hcr₁, hcr₂]
    · rw [(hst₁ hstc2h).1, (hst₂ hstc2h).1, (hst hstc2h).1]
    · rw [(hst₁ hstc2h).2, (hst₂ hstc2h).2, (hst hstc2h).2]
  · have hnot : q = qidHw → ¬ OwnSel st c2h sel := fun hq hsel => hown ⟨hq, hsel⟩
    rw [contextProgram_frame clear write ctxt context hnot,
      contextProgram_frame clear' write' ctxt' context' hnot]
    exact hother q sel hnot

/-- The physical function's `qdma_descq_context_setup`: the vector map, a clear, and the
programming, which clears again. -/
def qdmaDescqContextSetupRegs (f : SetupFates) (s : PfState) (funcId : ℕ) (intrCoalEn : Bool)
    (d : QdmaDescq) : ℤ × PfState :=
  let vec := hwProgQid2vec (s.qid2vec d.qidxHw) d.conf.c2h d.intrId intrCoalEn
  let s :=
    if d.irqEn = 0 then s else { s with qid2vec := Function.update s.qid2vec d.qidxHw vec }
  let x := descqContextClearRegs (fun i => mapCmd (f.clear i)) s.regs d.qidxHw d.conf.st d.conf.c2h
  if x.1 < 0 then (x.1, { s with regs := x.2 })
  else
    let x := descqContextProgramRegs (fun i => mapCmd (f.clearAgain i)) (fun i => mapCmd (f.write i))
      x.2 d.qidxHw d.conf.st d.conf.c2h (d.hwContext funcId)
    (x.1, { s with regs := x.2 })

/-- The same commands on the store, for a clear and a programming in a row. -/
structure Programs (f : SetupFates) (ctxt : CtxtStore) (qidHw : ℕ) (st c2h : Bool)
    (context : HwDescqContext) (ctxt' : CtxtStore) : Prop where
  ok : ¬ (qdmaDescqContextProgram f.clearAgain f.write
    (qdmaDescqContextClear f.clear ctxt qidHw st c2h).2 qidHw st c2h context).1 < 0
  ctxt : ctxt' = (qdmaDescqContextProgram f.clearAgain f.write
    (qdmaDescqContextClear f.clear ctxt qidHw st c2h).2 qidHw st c2h context).2

theorem Programs.same {f f' : SetupFates} {ctxt ctxt₁ ctxt₂ : CtxtStore} {qidHw : ℕ}
    {st c2h : Bool} {context context' : HwDescqContext}
    (h : Programs f ctxt qidHw st c2h context ctxt₁)
    (h' : Programs f' ctxt qidHw st c2h context' ctxt₂)
    (hsw : context.sw = context'.sw)
    (hst : (st && c2h) = true →
      context.prefetch = context'.prefetch ∧ context.wrb = context'.wrb) : ctxt₁ = ctxt₂ := by
  rw [h.ctxt, h'.ctxt]
  refine contextProgram_same (fun q sel hnot => ?_) hsw hst h.ok h'.ok
  rw [contextClear_frame f.clear ctxt hnot, contextClear_frame f'.clear ctxt hnot]

/-- A clear and a programming through the registers, where both succeed. -/
theorem programs_of_regs (f : SetupFates) (r : IndRegs) (qidHw : ℕ) {st c2h : Bool}
    {context : HwDescqContext} (hfits : context.Fits st c2h)
    (hok : ¬ (descqContextProgramRegs (fun i => mapCmd (f.clearAgain i))
      (fun i => mapCmd (f.write i))
      (descqContextClearRegs (fun i => mapCmd (f.clear i)) r qidHw st c2h).2 qidHw st c2h
      context).1 < 0) :
    Programs f r.ctxt (hwQid qidHw) st c2h context
      (descqContextProgramRegs (fun i => mapCmd (f.clearAgain i)) (fun i => mapCmd (f.write i))
        (descqContextClearRegs (fun i => mapCmd (f.clear i)) r qidHw st c2h).2 qidHw st c2h
        context).2.ctxt := by
  have hclear := contextClear_refines f.clear r qidHw st c2h
  have hprog := contextProgram_refines f.clearAgain f.write
    (descqContextClearRegs (fun i => mapCmd (f.clear i)) r qidHw st c2h).2 qidHw hfits
  rw [hclear.ctxt] at hprog
  rw [hprog.rv] at hok
  exact ⟨hok, hprog.ctxt⟩

/-! ## Through the mailbox and directly -/

/-- The fates of a setup made for a message. -/
def MsgFates.setup (f : MsgFates) : SetupFates where
  clear := f.clear
  clearAgain := f.clearAgain
  write := f.write

theorem handled_done_iff {rv : ℤ} {m : MboxMsg} {s : PfState} :
    (MboxHandled.mk (some rv) (some rv) m s).done = true ↔ 0 ≤ rv := by simp [MboxHandled.done]

/-- The physical function carries out a setup message. -/
theorem handle_setup_ok {f : MsgFates} {s : PfState} {funcId funcIdParent : ℕ} {d : QdmaDescq}
    (hdone : (qdmaMboxHandle f s
      (mboxRead funcId (descqContextSetupMsg funcId funcIdParent d))).done = true) :
    Programs f.setup s.regs.ctxt (hwQid d.qidxHw) d.conf.st d.conf.c2h
        (d.msgContext funcId).toHwDescqContext
        (qdmaMboxHandle f s
          (mboxRead funcId (descqContextSetupMsg funcId funcIdParent d))).s.regs.ctxt ∧
      (qdmaMboxHandle f s
        (mboxRead funcId (descqContextSetupMsg funcId funcIdParent d))).s.qid2vec = s.qid2vec := by
  have hqid : (mboxRead funcId (descqContextSetupMsg funcId funcIdParent d)).qid = _ :=
    descqContextSetupMsg_qid funcId funcIdParent d
  have hc2h : (mboxRead funcId (descqContextSetupMsg funcId funcIdParent d)).c2h = _ :=
    descqContextSetupMsg_c2h funcId funcIdParent d
  have hst : (mboxRead funcId (descqContextSetupMsg funcId funcIdParent d)).st = _ :=
    descqContextSetupMsg_st funcId funcIdParent d
  have hcontext : (mboxRead funcId (descqContextSetupMsg funcId funcIdParent d)).context = _ :=
    descqContextSetupMsg_context funcId funcIdParent d
  have hop : (mboxRead funcId (descqContextSetupMsg funcId funcIdParent d)).hdr.op =
      mboxOpQctxtWrt := rfl
  have hfits := (mboxRead funcId (descqContextSetupMsg funcId funcIdParent d)).context_fits
    d.conf.st d.conf.c2h
  rw [hcontext] at hfits
  have hkey : hwQid (d.qidxHw % 2 ^ 16) = hwQid d.qidxHw := by
    unfold hwQid
    omega
  unfold qdmaMboxHandle at hdone ⊢
  rw [hop, hqid, hc2h, hst, hcontext] at hdone ⊢
  simp only [show ¬ mboxOpQctxtWrt = mboxOpHello by decide,
    show ¬ mboxOpQctxtWrt = mboxOpBye by decide, show ¬ mboxOpQctxtWrt = mboxOpFmap by decide,
    show ¬ mboxOpQctxtWrt = mboxOpIntrCtxt by decide,
    show ¬ mboxOpQctxtWrt = mboxOpQctxtClr by decide,
    show ¬ mboxOpQctxtWrt = mboxOpQctxtRd by decide, if_false, if_true] at hdone ⊢
  split at hdone
  · rename_i hneg
    exact absurd hneg (not_lt.mpr (handled_done_iff.mp hdone))
  · rename_i hclear
    rw [if_neg hclear]
    refine ⟨?_, rfl⟩
    rw [← hkey]
    exact programs_of_regs f.setup s.regs _ hfits (not_lt.mpr (handled_done_iff.mp hdone))

/-- The physical function programs a queue itself. -/
theorem setupRegs_ok {f : SetupFates} {s : PfState} {funcId : ℕ} {intrCoalEn : Bool} {d : QdmaDescq}
    (hok : ¬ (qdmaDescqContextSetupRegs f s funcId intrCoalEn d).1 < 0) :
    Programs f s.regs.ctxt (hwQid d.qidxHw) d.conf.st d.conf.c2h (d.hwContext funcId)
        (qdmaDescqContextSetupRegs f s funcId intrCoalEn d).2.regs.ctxt ∧
      (qdmaDescqContextSetupRegs f s funcId intrCoalEn d).2.qid2vec =
        if d.irqEn = 0 then s.qid2vec
        else Function.update s.qid2vec d.qidxHw
          (hwProgQid2vec (s.qid2vec d.qidxHw) d.conf.c2h d.intrId intrCoalEn) := by
  -- the vector map is written first and the registers do not depend on it
  have hregs : ∀ vec : ℕ → BitVec 32,
      (if d.irqEn = 0 then s else { s with qid2vec := vec }).regs = s.regs := fun vec => by
    split
    · rfl
    · rfl
  have hmap : ∀ vec : ℕ → BitVec 32,
      (if d.irqEn = 0 then s else { s with qid2vec := vec }).qid2vec =
        if d.irqEn = 0 then s.qid2vec else vec := fun vec => by
    split
    · rfl
    · rfl
  unfold qdmaDescqContextSetupRegs at hok ⊢
  dsimp only at hok ⊢
  rw [hregs] at hok ⊢
  split at hok
  · rename_i hneg
    exact absurd hneg hok
  · rename_i hclear
    rw [if_neg hclear]
    exact ⟨programs_of_regs f s.regs d.qidxHw (hwContext_fits funcId d) hok, hmap _⟩

/-- The hardware state a setup is for. -/
structure SameHw (s s' : PfState) : Prop where
  ctxt : s.regs.ctxt = s'.regs.ctxt
  qid2vec : s.qid2vec = s'.qid2vec

/-- **When the mailbox replaces the registers**: a setup through the mailbox and a direct
one, both successful, leave the same contexts, and the same vector map exactly when the
queue has no interrupt or its register holds the vector and the coalesce bit already. -/
theorem mailbox_setup_same (s : PfState) (funcId funcIdParent : ℕ) (intrCoalEn : Bool)
    (d : QdmaDescq) (f : MsgFates) (g : SetupFates)
    (hvf : (qdmaMboxHandle f s
      (mboxRead funcId (descqContextSetupMsg funcId funcIdParent d))).done = true)
    (hpf : ¬ (qdmaDescqContextSetupRegs g s funcId intrCoalEn d).1 < 0) :
    SameHw
        (qdmaMboxHandle f s (mboxRead funcId (descqContextSetupMsg funcId funcIdParent d))).s
        (qdmaDescqContextSetupRegs g s funcId intrCoalEn d).2 ↔
      d.irqEn = 0 ∨ VecThere (s.qid2vec d.qidxHw) d.conf.c2h d.intrId intrCoalEn := by
  obtain ⟨hprog₁, hvec₁⟩ := handle_setup_ok hvf
  obtain ⟨hprog₂, hvec₂⟩ := setupRegs_ok hpf
  have hctxt := hprog₁.same hprog₂ rfl fun hst => by
    have hc2h : d.isStC2h = true := hst
    unfold QdmaDescq.msgContext QdmaDescq.hwContext
    dsimp only
    rw [hc2h]
    exact ⟨rfl, rfl⟩
  have hsame : SameHw
      (qdmaMboxHandle f s (mboxRead funcId (descqContextSetupMsg funcId funcIdParent d))).s
      (qdmaDescqContextSetupRegs g s funcId intrCoalEn d).2 ↔
        s.qid2vec = (qdmaDescqContextSetupRegs g s funcId intrCoalEn d).2.qid2vec := by
    rw [← hvec₁]
    exact ⟨fun h => h.qid2vec, fun h => ⟨hctxt, h⟩⟩
  rw [hsame, hvec₂, ← hwProgQid2vec_same_iff]
  by_cases hirq : d.irqEn = 0
  · simp [hirq]
  · rw [if_neg hirq]
    simp only [hirq, false_or]
    constructor
    · intro heq
      have hat := congrFun heq d.qidxHw
      rw [Function.update_self] at hat
      exact hat.symm
    · intro heq
      rw [heq, Function.update_eq_self]

/-- A memory mapped queue with the interrupt of vector 3. -/
def irqDescq : QdmaDescq := { qdmaDescqInit 64 0 0 with irqEn := 1, intrId := 3 }

theorem mailbox_setup_same_polled :
    SameHw
      (qdmaMboxHandle (plainIn 2 (bareMsg 0)).fates pfIdle
        (mboxRead 2 (descqContextSetupMsg 2 0 (qdmaDescqInit 64 0 0)))).s
      (qdmaDescqContextSetupRegs (plainIn 2 (bareMsg 0)).fates.setup pfIdle 2 false
        (qdmaDescqInit 64 0 0)).2 :=
  (mailbox_setup_same pfIdle 2 0 false (qdmaDescqInit 64 0 0) _ _ (by decide +kernel)
    (by decide +kernel)).mpr (Or.inl rfl)

/-- The message has no place where the physical function would look for the vector. -/
theorem mailbox_setup_loses_vector :
    ¬ ∀ (s : PfState) (funcId funcIdParent : ℕ) (intrCoalEn : Bool) (d : QdmaDescq) (f : MsgFates)
      (g : SetupFates),
      (qdmaMboxHandle f s
        (mboxRead funcId (descqContextSetupMsg funcId funcIdParent d))).done = true →
      ¬ (qdmaDescqContextSetupRegs g s funcId intrCoalEn d).1 < 0 →
      SameHw
        (qdmaMboxHandle f s (mboxRead funcId (descqContextSetupMsg funcId funcIdParent d))).s
        (qdmaDescqContextSetupRegs g s funcId intrCoalEn d).2 := by
  intro hall
  have hsame := hall pfIdle 2 0 false irqDescq (plainIn 2 (bareMsg 0)).fates
    (plainIn 2 (bareMsg 0)).fates.setup (by decide +kernel) (by decide +kernel)
  have hvec := congrFun hsame.qid2vec 64
  revert hvec
  decide +kernel

end Qdma

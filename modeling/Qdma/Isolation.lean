import Qdma.Mbox

/-!
# What one function can do to the others

The physical function acts on behalf of whoever sent a message.  The sender is taken from
the hardware and cannot be forged, and the function map gives every function a range of
queues of its own; `hw_set_fmap` calls this splitting the queues across all functions.  But
the handler compares neither a requested range with the ranges of others nor the queue of
a context request with the range of its sender.

* `Isolated f s s'` says what a message from `f` may change,
* `RangesApart` that no queue is in two ranges,
* `StaysOwn` what a message would have to be checked for.

In every history whose messages stay with their sender's own queues, each message is
isolated and the ranges stay apart.
-/

namespace Qdma

open Lib

/-! ## One turn of the loop -/

/-- The state after one message. -/
def mboxStep (s : PfState) (x : MboxIn) : PfState :=
  if (mboxRead x.src x.m).hdr.ack then s else (qdmaMboxHandle x.fates s (mboxRead x.src x.m)).s

/-- The messages an invocation reads until it ends. -/
def mboxTaken : List MboxIn → List MboxIn
  | [] => []
  | x :: rest =>
      if (mboxRead x.src x.m).hdr.ack then x :: mboxTaken rest
      else if !x.sent then [x]
      else if x.offline then [x]
      else x :: mboxTaken rest

/-- The physical function, message by message; any message can arrive at any time. -/
def mboxSys : System PfState MboxIn where
  step := mboxStep
  guard _ _ := True

/-- An invocation is a run over the messages it reads; `status` plays no part in it. -/
theorem qdmaMboxLoop_state :
    ∀ (xs : List MboxIn) (status : ℤ) (s : PfState),
      (qdmaMboxLoop status s xs).2 = mboxSys.exec s (mboxTaken xs) := by
  intro xs
  induction xs with
  | nil =>
      intro status s
      rfl
  | cons x rest ih =>
      intro status s
      unfold qdmaMboxLoop mboxTaken
      dsimp only
      by_cases hack : (mboxRead x.src x.m).hdr.ack = true
      · have hstep : mboxSys.step s x = s := if_pos hack
        rw [if_pos hack, if_pos hack, System.exec_cons, hstep]
        exact ih status s
      · have hstep : mboxSys.step s x = (qdmaMboxHandle x.fates s (mboxRead x.src x.m)).s :=
          if_neg hack
        rw [if_neg hack, if_neg hack]
        by_cases hsent : (!x.sent) = true
        · rw [if_pos hsent, if_pos hsent, System.exec_cons, hstep]
          rfl
        · rw [if_neg hsent, if_neg hsent]
          by_cases hoff : x.offline = true
          · rw [if_pos hoff, if_pos hoff, System.exec_cons, hstep]
            rfl
          · rw [if_neg hoff, if_neg hoff, System.exec_cons, hstep]
            exact ih _ _

/-- The state after any number of invocations. -/
def qdmaMboxProcsState (s : PfState) (batches : List (List MboxIn)) : PfState :=
  batches.foldl (fun s xs => (qdmaMboxProc s xs).2) s

theorem qdmaMboxProcsState_eq (s : PfState) (batches : List (List MboxIn)) :
    qdmaMboxProcsState s batches = mboxSys.exec s (batches.flatMap mboxTaken) := by
  unfold qdmaMboxProcsState
  induction batches generalizing s with
  | nil => rfl
  | cons xs rest ih =>
      rw [List.foldl_cons, ih, List.flatMap_cons]
      unfold qdmaMboxProc System.exec
      rw [List.foldl_append, qdmaMboxLoop_state]
      rfl

/-! ## The property -/

/-- An entry of the table after a message from `f`: another one is as it was, and a free
one may have become `f`'s. -/
def EntryOf (f : ℕ) (vf vf' : QdmaVfInfo) : Prop :=
  vf' = vf ∨ vf.funcId = f ∨ (vf.funcId = qdmaFuncIdInvalid ∧ vf'.funcId = f)

/-- What a message from `f` may change. -/
structure Isolated (f : ℕ) (s s' : PfState) : Prop where
  fmap : ∀ g, g ≠ f → s'.fmap g = s.fmap g
  vfInfo : List.Forall₂ (EntryOf f) s.vfInfo s'.vfInfo
  ctxt : ∀ q sel, ¬ InFmap (s.fmap f) q → s'.regs.ctxt q sel = s.regs.ctxt q sel
  qid2vec : s'.qid2vec = s.qid2vec

/-- No queue is in two ranges. -/
def RangesApart (fmap : ℕ → ℕ) : Prop := ∀ f g, f ≠ g → ∀ q, InFmap (fmap f) q → ¬ InFmap (fmap g) q

/-- The range a function map request asks for. -/
def askedFmap (src : ℕ) (m : MboxMsg) : ℕ :=
  let m := if m.qbase = 0 then m.setQbase (defaultQbase src) else m
  fmapWord m.qbase m.qmax

/-- The message stays with its sender's queues: a range it asks for has no queue of
another function's, and a context it clears or writes is in the sender's range. -/
def StaysOwn (s : PfState) (x : MboxIn) : Prop :=
  x.m.hdr.ack = true ∨
    ((x.m.hdr.op = mboxOpFmap → ∀ g, g ≠ x.src → ∀ q, InFmap (askedFmap x.src x.m) q →
        ¬ InFmap (s.fmap g) q) ∧
      (x.m.hdr.op = mboxOpQctxtClr ∨ x.m.hdr.op = mboxOpQctxtWrt →
        InFmap (s.fmap x.src) (hwQid x.m.qid)))

/-! ## The table -/

theorem entryOf_refl (f : ℕ) (vfs : List QdmaVfInfo) : List.Forall₂ (EntryOf f) vfs vfs :=
  List.forall₂_same.mpr fun _ _ => Or.inl rfl

theorem xdevSriovVfOnline_entries (f : ℕ) (vfs : List QdmaVfInfo) :
    List.Forall₂ (EntryOf f) vfs (xdevSriovVfOnline f vfs).2 := by
  induction vfs with
  | nil => exact .nil
  | cons vf rest ih =>
      unfold xdevSriovVfOnline
      split
      · rename_i hfree
        exact .cons (Or.inr (Or.inr ⟨hfree, rfl⟩)) (entryOf_refl f rest)
      · exact .cons (Or.inl rfl) ih

theorem xdevSriovVfOffline_entries (f : ℕ) (vfs : List QdmaVfInfo) :
    List.Forall₂ (EntryOf f) vfs (xdevSriovVfOffline f vfs) := by
  unfold xdevSriovVfOffline
  rw [List.forall₂_map_right_iff, List.forall₂_same]
  intro vf _
  by_cases hf : vf.funcId = f
  · exact Or.inr (Or.inl hf)
  · exact Or.inl (if_neg hf)

theorem xdevSriovVfFmap_entries (f qbase qmax : ℕ) (vfs : List QdmaVfInfo) :
    List.Forall₂ (EntryOf f) vfs (xdevSriovVfFmap f qbase qmax vfs).2 := by
  induction vfs with
  | nil => exact .nil
  | cons vf rest ih =>
      unfold xdevSriovVfFmap
      split
      · rename_i hf
        exact .cons (Or.inr (Or.inl hf)) (entryOf_refl f rest)
      · exact .cons (Or.inl rfl) ih

/-! ## The contexts -/

theorem contextClearRegs_other (f : ℕ → CmdFate) (r : IndRegs) {qidHw q : ℕ} (st c2h : Bool)
    (sel : IndCtxtCmdSel) (hq : q ≠ hwQid qidHw) :
    (descqContextClearRegs (fun i => mapCmd (f i)) r qidHw st c2h).2.ctxt q sel = r.ctxt q sel := by
  rw [(contextClear_refines f r qidHw st c2h).ctxt]
  exact contextClear_frame f r.ctxt fun heq => absurd heq hq

theorem contextProgramRegs_other (clear write : ℕ → CmdFate) (r : IndRegs) {qidHw q : ℕ}
    {st c2h : Bool} {context : HwDescqContext} (hfits : context.Fits st c2h)
    (sel : IndCtxtCmdSel) (hq : q ≠ hwQid qidHw) :
    (descqContextProgramRegs (fun i => mapCmd (clear i)) (fun i => mapCmd (write i)) r qidHw st c2h
      context).2.ctxt q sel = r.ctxt q sel := by
  rw [(contextProgram_refines clear write r qidHw hfits).ctxt]
  exact contextProgram_frame clear write r.ctxt context fun heq => absurd heq hq

/-- Reading leaves the store alone, however it ends. -/
theorem contextReadRegs_ctxt (f : ℕ → CmdFate) (r : IndRegs) (qidHw : ℕ) (st c2h : Bool) :
    (descqContextReadRegs (fun i => mapCmd (f i)) r qidHw st c2h).2.2.ctxt = r.ctxt := by
  have hrd : ∀ (r' : IndRegs) (i : ℕ) (sel : IndCtxtCmdSel) (data : List (BitVec 32)) (cnt : ℕ),
      r'.ctxt = r.ctxt → data ≠ [] → cnt ≠ 0 → cnt ≤ qdmaRegIndCtxtRegCount →
      (hwIndirectCtextProgRegs (mapCmd (f i)) (mapCmd (f i)) r' qidHw .rd sel data cnt
          false).2.2.ctxt = r.ctxt := by
    intro r' i sel data cnt hr hdata hcnt hle
    rw [← hr]
    exact (ctextProgRegs_rd r' qidHw sel (f i) (mapCmd (f i)) hdata hcnt hle false).1
  have hsw := hrd r 0 (swSel c2h) HwDescqContextRd.zero.sw 4 rfl (by decide) (by decide) (by decide)
  unfold descqContextReadRegs
  dsimp only
  generalize hwIndirectCtextProgRegs (mapCmd (f 0)) (mapCmd (f 0)) r qidHw .rd (swSel c2h)
    HwDescqContextRd.zero.sw 4 false = x₀ at hsw ⊢
  split
  · exact hsw
  have hhw := hrd x₀.2.2 1 (hwSel c2h) HwDescqContextRd.zero.hw 2 hsw (by decide) (by decide)
    (by decide)
  generalize hwIndirectCtextProgRegs (mapCmd (f 1)) (mapCmd (f 1)) x₀.2.2 qidHw .rd (hwSel c2h)
    HwDescqContextRd.zero.hw 2 false = x₁ at hhw ⊢
  split
  · exact hhw
  have hcr := hrd x₁.2.2 2 (crSel c2h) HwDescqContextRd.zero.cr 1 hhw (by decide) (by decide)
    (by decide)
  generalize hwIndirectCtextProgRegs (mapCmd (f 2)) (mapCmd (f 2)) x₁.2.2 qidHw .rd (crSel c2h)
    HwDescqContextRd.zero.cr 1 false = x₂ at hcr ⊢
  split
  · exact hcr
  split
  · have hwrb := hrd x₂.2.2 3 .wrb HwDescqContextRd.zero.wrb 4 hcr (by decide) (by decide)
      (by decide)
    generalize hwIndirectCtextProgRegs (mapCmd (f 3)) (mapCmd (f 3)) x₂.2.2 qidHw .rd .wrb
      HwDescqContextRd.zero.wrb 4 false = x₃ at hwrb ⊢
    split
    · exact hwrb
    have hpf := hrd x₃.2.2 4 .pftch HwDescqContextRd.zero.prefetch 2 hwrb (by decide) (by decide)
      (by decide)
    generalize hwIndirectCtextProgRegs (mapCmd (f 4)) (mapCmd (f 4)) x₃.2.2 qidHw .rd .pftch
      HwDescqContextRd.zero.prefetch 2 false = x₄ at hpf ⊢
    split
    · exact hpf
    · exact hpf
  · exact hcr

/-- A context taken from a message has the sizes of `struct hw_descq_context`. -/
theorem MboxMsg.context_fits (m : MboxMsg) (st c2h : Bool) :
    m.context.toHwDescqContext.Fits st c2h :=
  ⟨by simp [MboxMsg.context, MboxMsg.words], fun _ => by simp [MboxMsg.context, MboxMsg.words],
    fun _ => by simp [MboxMsg.context, MboxMsg.words]⟩

/-! ## One message -/

/-- Everything but the contexts of one queue, the function map of the sender and the
table is left alone; this is what each operation does to the three. -/
theorem handle_isolated (fates : MsgFates) (s : PfState) (m : MboxMsg)
    (hown : m.hdr.op = mboxOpQctxtClr ∨ m.hdr.op = mboxOpQctxtWrt →
      InFmap (s.fmap m.hdr.src) (hwQid m.qid)) :
    Isolated m.hdr.src s (qdmaMboxHandle fates s m).s := by
  have hfmap : ∀ (v g : ℕ), g ≠ m.hdr.src → Function.update s.fmap m.hdr.src v g = s.fmap g :=
    fun v g hg => Function.update_of_ne hg v s.fmap
  unfold qdmaMboxHandle
  split
  · exact ⟨fun _ _ => rfl, xdevSriovVfOnline_entries _ _, fun _ _ _ => rfl, rfl⟩
  split
  · exact ⟨hfmap _, xdevSriovVfOffline_entries _ _, fun _ _ _ => rfl, rfl⟩
  split
  · dsimp only
    split
    · exact ⟨hfmap _, xdevSriovVfFmap_entries _ _ _ _, fun _ _ _ => rfl, rfl⟩
    · exact ⟨hfmap _, xdevSriovVfFmap_entries _ _ _ _, fun _ _ _ => rfl, rfl⟩
  split
  · exact ⟨fun _ _ => rfl, entryOf_refl _ _, fun _ _ _ => rfl, rfl⟩
  split
  · rename_i hop
    refine ⟨fun _ _ => rfl, entryOf_refl _ _, fun q sel hq => ?_, rfl⟩
    refine contextClearRegs_other fates.clear s.regs m.st m.c2h sel ?_
    rintro rfl
    exact hq (hown (Or.inl hop))
  split
  · refine ⟨fun _ _ => rfl, entryOf_refl _ _, fun q sel _ => ?_, rfl⟩
    dsimp only
    rw [contextReadRegs_ctxt]
  split
  · rename_i hop
    have hne : ∀ q, ¬ InFmap (s.fmap m.hdr.src) q → q ≠ hwQid m.qid := by
      rintro q hq rfl
      exact hq (hown (Or.inr hop))
    dsimp only
    split
    · refine ⟨fun _ _ => rfl, entryOf_refl _ _, fun q sel hq => ?_, rfl⟩
      exact contextClearRegs_other fates.clear s.regs m.st m.c2h sel (hne q hq)
    · refine ⟨fun _ _ => rfl, entryOf_refl _ _, fun q sel hq => ?_, rfl⟩
      exact (contextProgramRegs_other fates.clearAgain fates.write _
        (m.context_fits m.st m.c2h) sel (hne q hq)).trans
          (contextClearRegs_other fates.clear s.regs m.st m.c2h sel (hne q hq))
  · exact ⟨fun _ _ => rfl, entryOf_refl _ _, fun _ _ _ => rfl, rfl⟩

/-- The function map after a message: as it was, or the sender's register is cleared or
holds what was asked for. -/
theorem handle_fmap (fates : MsgFates) (s : PfState) (m : MboxMsg) :
    (qdmaMboxHandle fates s m).s.fmap = s.fmap ∨
      (qdmaMboxHandle fates s m).s.fmap = Function.update s.fmap m.hdr.src (fmapWord 0 0) ∨
      (m.hdr.op = mboxOpFmap ∧ (qdmaMboxHandle fates s m).s.fmap =
        Function.update s.fmap m.hdr.src (askedFmap m.hdr.src m)) := by
  unfold qdmaMboxHandle
  split
  · exact Or.inl rfl
  split
  · exact Or.inr (Or.inl rfl)
  split
  · rename_i hop
    refine Or.inr (Or.inr ⟨hop, ?_⟩)
    unfold askedFmap
    dsimp only
    split
    · rfl
    · rfl
  split
  · exact Or.inl rfl
  split
  · exact Or.inl rfl
  split
  · exact Or.inl rfl
  split
  · dsimp only
    split
    · exact Or.inl rfl
    · exact Or.inl rfl
  · exact Or.inl rfl

theorem not_inFmap_zero (q : ℕ) : ¬ InFmap (fmapWord 0 0) q := by
  have hz : fmapQbase (fmapWord 0 0) = 0 ∧ fmapQmax (fmapWord 0 0) = 0 := by decide
  rintro ⟨-, hlt⟩
  rw [hz.1, hz.2] at hlt
  exact Nat.not_lt_zero q hlt

/-- One register changes to a range that meets no other. -/
theorem RangesApart.update {fmap : ℕ → ℕ} (h : RangesApart fmap) {f v : ℕ}
    (hv : ∀ g, g ≠ f → ∀ q, InFmap v q → ¬ InFmap (fmap g) q) :
    RangesApart (Function.update fmap f v) := by
  intro a b hab q ha hb
  by_cases haf : a = f
  · subst haf
    have hba : b ≠ a := fun heq => hab heq.symm
    rw [Function.update_self] at ha
    rw [Function.update_of_ne hba] at hb
    exact hv b hba q ha hb
  · rw [Function.update_of_ne haf] at ha
    by_cases hbf : b = f
    · subst hbf
      rw [Function.update_self] at hb
      exact hv a haf q hb ha
    · rw [Function.update_of_ne hbf] at hb
      exact h a b hab q ha hb

theorem askedFmap_read (src : ℕ) (m : MboxMsg) :
    askedFmap src (mboxRead src m) = askedFmap src m := by
  have hqbase : (mboxRead src m).qbase = m.qbase := rfl
  unfold askedFmap
  dsimp only
  rw [hqbase]
  split
  · rfl
  · rfl

theorem mboxStep_apart {s : PfState} {x : MboxIn} (h : RangesApart s.fmap) (hx : StaysOwn s x) :
    RangesApart (mboxStep s x).fmap := by
  unfold mboxStep
  split
  · exact h
  · rename_i hack
    obtain hx | ⟨hx, -⟩ := hx
    · exact absurd hx hack
    rcases handle_fmap x.fates s (mboxRead x.src x.m) with heq | heq | ⟨hop, heq⟩
    · rw [heq]
      exact h
    · rw [heq]
      exact h.update fun _ _ q hq => absurd hq (not_inFmap_zero q)
    · rw [heq]
      exact h.update ((askedFmap_read x.src x.m).symm ▸ hx hop)

theorem mboxStep_isolated {s : PfState} {x : MboxIn} (hx : StaysOwn s x) :
    Isolated x.src s (mboxStep s x) := by
  unfold mboxStep
  split
  · exact ⟨fun _ _ => rfl, entryOf_refl _ _, fun _ _ _ => rfl, rfl⟩
  · rename_i hack
    obtain hx | ⟨-, hx⟩ := hx
    · exact absurd hx hack
    exact handle_isolated x.fates s (mboxRead x.src x.m) hx

/-! ## Histories -/

/-- **When a function is confined to its own queues**: in every history whose messages
stay with their senders' queues, every message is isolated and no queue is ever in two
ranges. -/
theorem functions_isolated {s : PfState} (hs : RangesApart s.fmap) (batches : List (List MboxIn))
    (hown : (mboxSys.restrict StaysOwn).Admits s (batches.flatMap mboxTaken)) :
    RangesApart (qdmaMboxProcsState s batches).fmap ∧
      ∀ es x fs, batches.flatMap mboxTaken = es ++ x :: fs →
        RangesApart (mboxSys.exec s es).fmap ∧
          Isolated x.src (mboxSys.exec s es) (mboxSys.exec s (es ++ [x])) := by
  have hrun : ∀ es, (mboxSys.restrict StaysOwn).Admits s es → RangesApart (mboxSys.exec s es).fmap :=
    fun es => (mboxSys.restrict StaysOwn).invariant (I := fun s => RangesApart s.fmap)
      (fun _ _ h hg => mboxStep_apart h hg.2) es hs
  refine ⟨?_, fun es x fs heq => ?_⟩
  · rw [qdmaMboxProcsState_eq]
    exact hrun _ hown
  · rw [heq, System.admits_append, System.admits_cons] at hown
    obtain ⟨hbefore, hx, -⟩ := hown
    refine ⟨hrun es hbefore, ?_⟩
    have hlast : mboxSys.exec s (es ++ [x]) = mboxStep (mboxSys.exec s es) x := by
      unfold System.exec
      rw [List.foldl_append]
      rfl
    rw [hlast]
    exact mboxStep_isolated hx.2

/-- A request with a first word. -/
def wordMsg (op : ℕ) (w : BitVec 32) : MboxMsg :=
  { bareMsg op with raw := fun i => if i = 1 then w else if i = 2 then 8 else 0 }

theorem pfIdle_fmap_of_ne {f : ℕ} (hf : f ≠ 0) (q : ℕ) : ¬ InFmap (pfIdle.fmap f) q := by
  have hz : pfIdle.fmap f = 0 := by simp [pfIdle, hf]
  rw [hz]
  exact not_inFmap_zero q

theorem pfIdle_apart : RangesApart pfIdle.fmap := by
  intro f g hfg q hf hg
  by_cases hzero : f = 0
  · subst hzero
    exact pfIdle_fmap_of_ne hfg.symm q hg
  · exact pfIdle_fmap_of_ne hzero q hf

/-- Function 2 comes online, is given its queues and clears the first of them. -/
theorem functions_isolated_own_queue :
    RangesApart pfIdle.fmap ∧
      Isolated 2
        (mboxSys.exec pfIdle [plainIn 2 (bareMsg mboxOpHello), plainIn 2 (wordMsg mboxOpFmap 0)])
        (mboxSys.exec pfIdle ([plainIn 2 (bareMsg mboxOpHello), plainIn 2 (wordMsg mboxOpFmap 0)] ++
          [plainIn 2 (wordMsg mboxOpQctxtClr 0x400000#32)])) := by
  have hasked : fmapQbase (askedFmap 2 (wordMsg mboxOpFmap 0)) = 64 := by decide +kernel
  have hpf : fmapQbase (pfIdle.fmap 0) = 0 ∧ fmapQmax (pfIdle.fmap 0) = 32 := by decide
  have hfree : ∀ g, g ≠ 2 → ∀ q, InFmap (askedFmap 2 (wordMsg mboxOpFmap 0)) q →
      ¬ InFmap (pfIdle.fmap g) q := by
    rintro g - q ⟨hge, -⟩ ⟨hle, hlt⟩
    by_cases hg : g = 0
    · subst hg
      omega
    · exact pfIdle_fmap_of_ne hg q ⟨hle, hlt⟩
  refine ⟨pfIdle_apart, ?_⟩
  refine ((functions_isolated pfIdle_apart [[plainIn 2 (bareMsg mboxOpHello),
    plainIn 2 (wordMsg mboxOpFmap 0), plainIn 2 (wordMsg mboxOpQctxtClr 0x400000#32)]]
      ?_).2 [_, _] _ [] rfl).2
  refine ⟨⟨trivial, Or.inr ⟨fun hop => absurd hop (by decide), fun hop => absurd hop (by decide)⟩⟩,
    ⟨trivial, Or.inr ⟨fun _ => hfree, fun hop => absurd hop (by decide)⟩⟩,
    ⟨trivial, Or.inr ⟨fun hop => absurd hop (by decide), fun _ => ?_⟩⟩, trivial⟩
  decide +kernel

/-- Function 2 has no queues and clears a context of the physical function's. -/
theorem context_of_another_cleared :
    ¬ ∀ (s : PfState), RangesApart s.fmap → ∀ batches : List (List MboxIn),
      RangesApart (qdmaMboxProcsState s batches).fmap ∧
        ∀ es x fs, batches.flatMap mboxTaken = es ++ x :: fs →
          RangesApart (mboxSys.exec s es).fmap ∧
            Isolated x.src (mboxSys.exec s es) (mboxSys.exec s (es ++ [x])) := by
  intro hall
  have hiso := ((hall pfIdle pfIdle_apart [[plainIn 2 (wordMsg mboxOpQctxtClr 0x10000#32)]]).2
    [] _ [] rfl).2
  have hkept := hiso.ctxt 1 (swSel false) (by decide)
  revert hkept
  decide +kernel

end Qdma

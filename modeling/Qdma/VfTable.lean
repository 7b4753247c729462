import Qdma.Mbox

/-!
# The table of virtual functions

The physical function keeps a slot for each of its `vf_count` virtual functions.  HELLO puts
the sender into the first free slot, BYE clears every slot that has it, FMAP writes the
queues of the first slot that has it.

HELLO does not look whether the sender is there already: a virtual function that crashed and
is loaded again says HELLO a second time and has two slots.  `vf_table_right_iff` says that
this is all that goes wrong: `JoinsOnce`.

* `vfSys` is the system of the messages, with `joined` as a ghost: whether the last HELLO or
  BYE of a function was a HELLO that found the function or a free slot.
* `VfTableRight` is what a message should do to the table.
-/

namespace Qdma

open Lib

/-! ## The system -/

/-- The functions in the table, slot by slot. -/
def funcIds (vfs : List QdmaVfInfo) : List ℕ := vfs.map (·.funcId)

/-- The function has a slot. -/
def Present (vfs : List QdmaVfInfo) (f : ℕ) : Prop := f ∈ funcIds vfs

/-- A slot is free. -/
def HasFree (vfs : List QdmaVfInfo) : Prop := qdmaFuncIdInvalid ∈ funcIds vfs

instance (vfs : List QdmaVfInfo) (f : ℕ) : Decidable (Present vfs f) :=
  inferInstanceAs (Decidable (f ∈ funcIds vfs))

instance (vfs : List QdmaVfInfo) : Decidable (HasFree vfs) :=
  inferInstanceAs (Decidable (qdmaFuncIdInvalid ∈ funcIds vfs))

/-- A message as `mbox_read` gives it, and the fates of the commands it causes. -/
structure VfMsg where
  fates : MsgFates
  m : MboxMsg

structure VfState where
  pf : PfState
  joined : ℕ → Bool

/-- What a message makes of the last HELLO or BYE of its sender. -/
def joinedAfter (s : VfState) (m : MboxMsg) : ℕ → Bool :=
  if m.hdr.op = mboxOpHello then
    Function.update s.joined m.hdr.src
      (decide (Present s.pf.vfInfo m.hdr.src ∨ HasFree s.pf.vfInfo))
  else if m.hdr.op = mboxOpBye then Function.update s.joined m.hdr.src false
  else s.joined

/-- Messages of any of the `QDMA_PF_MAX + QDMA_VF_MAX` functions, in any order. -/
def vfSys : System VfState VfMsg where
  step s e :=
    { pf := (qdmaMboxHandle e.fates s.pf e.m).s
      joined := joinedAfter s e.m }
  guard _ e := e.m.hdr.src < qdmaFuncIdInvalid

/-- The state after `xdev_sriov_enable`: the slots are free, what else is in them is left
from earlier. -/
def VfEnabled (s : VfState) : Prop :=
  (∀ vf ∈ s.pf.vfInfo, vf.funcId = qdmaFuncIdInvalid) ∧ ∀ f, s.joined f = false

/-! ## What the table is for -/

/-- A message that leaves every function in at most one slot, and in one just where it
should be; an FMAP changes the sender's slot only; and a new function is refused only where
`vf_count` different functions are there. -/
structure VfTableRight (s : VfState) (e : VfMsg) (s' : VfState) : Prop where
  single : ∀ f < qdmaFuncIdInvalid, (funcIds s'.pf.vfInfo).count f ≤ 1
  present : ∀ f < qdmaFuncIdInvalid, Present s'.pf.vfInfo f ↔ s'.joined f = true
  fmap : e.m.hdr.op = mboxOpFmap → funcIds s'.pf.vfInfo = funcIds s.pf.vfInfo ∧
    ∀ (i : ℕ) (vf : QdmaVfInfo), s.pf.vfInfo[i]? = some vf → vf.funcId ≠ e.m.hdr.src →
      s'.pf.vfInfo[i]? = some vf
  refused : e.m.hdr.op = mboxOpHello → ¬ Present s.pf.vfInfo e.m.hdr.src →
    ¬ Present s'.pf.vfInfo e.m.hdr.src →
      (funcIds s'.pf.vfInfo).Nodup ∧ ∀ f ∈ funcIds s'.pf.vfInfo, f < qdmaFuncIdInvalid

/-- No function that is in the table says HELLO while there is a free slot. -/
def JoinsOnce (s : VfState) (e : VfMsg) : Prop :=
  e.m.hdr.op = mboxOpHello → HasFree s.pf.vfInfo → ¬ Present s.pf.vfInfo e.m.hdr.src

/-! ## The functions of the table -/

/-- Without a free slot HELLO does nothing. -/
theorem online_of_full (f : ℕ) :
    ∀ {vfs : List QdmaVfInfo}, ¬ HasFree vfs → (xdevSriovVfOnline f vfs).2 = vfs := by
  intro vfs
  induction vfs with
  | nil => intro _; rfl
  | cons vf rest ih =>
      intro hfull
      have hne : vf.funcId ≠ qdmaFuncIdInvalid := fun heq => hfull (by
        rw [HasFree, funcIds, List.map_cons, heq]
        exact List.mem_cons_self)
      have hrest : ¬ HasFree rest := fun hfree => hfull (List.mem_cons_of_mem _ hfree)
      unfold xdevSriovVfOnline
      rw [if_neg hne, ih hrest]

/-- With a free slot it puts the function there. -/
theorem funcIds_online (f : ℕ) :
    ∀ {vfs : List QdmaVfInfo}, HasFree vfs → ∃ before after,
      funcIds vfs = before ++ qdmaFuncIdInvalid :: after ∧
        funcIds (xdevSriovVfOnline f vfs).2 = before ++ f :: after := by
  intro vfs
  induction vfs with
  | nil => intro hfree; cases hfree
  | cons vf rest ih =>
      intro hfree
      unfold xdevSriovVfOnline
      by_cases heq : vf.funcId = qdmaFuncIdInvalid
      · rw [if_pos heq]
        refine ⟨[], funcIds rest, ?_, rfl⟩
        rw [← heq]
        rfl
      · rw [if_neg heq]
        have hrest : HasFree rest := (List.mem_cons.mp hfree).resolve_left (Ne.symm heq)
        obtain ⟨before, after, hold, hnew⟩ := ih hrest
        refine ⟨vf.funcId :: before, after, ?_, ?_⟩
        · exact congrArg (vf.funcId :: ·) hold
        · exact congrArg (vf.funcId :: ·) hnew

theorem funcIds_offline (f : ℕ) (vfs : List QdmaVfInfo) :
    funcIds (xdevSriovVfOffline f vfs) =
      (funcIds vfs).map fun g => if g = f then qdmaFuncIdInvalid else g := by
  unfold xdevSriovVfOffline funcIds
  rw [List.map_map, List.map_map]
  refine List.map_congr_left fun vf _ => ?_
  dsimp only [Function.comp]
  split
  · rfl
  · rfl

theorem funcIds_fmap (f qbase qmax : ℕ) :
    ∀ vfs : List QdmaVfInfo, funcIds (xdevSriovVfFmap f qbase qmax vfs).2 = funcIds vfs := by
  intro vfs
  induction vfs with
  | nil => rfl
  | cons vf rest ih =>
      unfold xdevSriovVfFmap
      split
      · rfl
      · exact congrArg (vf.funcId :: ·) ih

theorem fmap_other (f qbase qmax : ℕ) :
    ∀ (vfs : List QdmaVfInfo) (i : ℕ) (vf : QdmaVfInfo), vfs[i]? = some vf → vf.funcId ≠ f →
      (xdevSriovVfFmap f qbase qmax vfs).2[i]? = some vf := by
  intro vfs
  induction vfs with
  | nil => intro i vf hvf; cases hvf
  | cons first rest ih =>
      intro i vf hvf hne
      unfold xdevSriovVfFmap
      cases i with
      | zero =>
          cases hvf
          rw [if_neg hne]
          rfl
      | succ i =>
          split
          · exact hvf
          · exact ih i vf hvf hne

/-- What a message does to the table. -/
inductive TableStep (m : MboxMsg) (vfs : List QdmaVfInfo) : List QdmaVfInfo → Prop
  | hello (h : m.hdr.op = mboxOpHello) : TableStep m vfs (xdevSriovVfOnline m.hdr.src vfs).2
  | bye (h : m.hdr.op = mboxOpBye) : TableStep m vfs (xdevSriovVfOffline m.hdr.src vfs)
  | fmap (h : m.hdr.op = mboxOpFmap) (qbase qmax : ℕ) :
      TableStep m vfs (xdevSriovVfFmap m.hdr.src qbase qmax vfs).2
  | other (hh : m.hdr.op ≠ mboxOpHello) (hb : m.hdr.op ≠ mboxOpBye)
      (hf : m.hdr.op ≠ mboxOpFmap) : TableStep m vfs vfs

theorem tableStep_handle (f : MsgFates) (s : PfState) (m : MboxMsg) :
    TableStep m s.vfInfo (qdmaMboxHandle f s m).s.vfInfo := by
  unfold qdmaMboxHandle
  by_cases hh : m.hdr.op = mboxOpHello
  · rw [if_pos hh]
    exact .hello hh
  rw [if_neg hh]
  by_cases hb : m.hdr.op = mboxOpBye
  · rw [if_pos hb]
    exact .bye hb
  rw [if_neg hb]
  by_cases hf : m.hdr.op = mboxOpFmap
  · rw [if_pos hf]
    have hsrc : (if m.qbase = 0 then m.setQbase (defaultQbase m.hdr.src) else m).hdr.src =
        m.hdr.src := by
      split
      · rfl
      · rfl
    dsimp only
    rw [hsrc]
    exact .fmap hf _ _
  rw [if_neg hf]
  have hother : TableStep m s.vfInfo s.vfInfo := .other hh hb hf
  split
  · exact hother
  · split
    · exact hother
    · split
      · exact hother
      · split
        · dsimp only
          split
          · exact hother
          · exact hother
        · exact hother

/-! ## One message -/

/-- No function has two slots, and those that have one are those that joined. -/
structure VfInv (s : VfState) : Prop where
  single : ∀ f < qdmaFuncIdInvalid, (funcIds s.pf.vfInfo).count f ≤ 1
  present : ∀ f < qdmaFuncIdInvalid, Present s.pf.vfInfo f ↔ s.joined f = true
  known : ∀ f ∈ funcIds s.pf.vfInfo, f ≤ qdmaFuncIdInvalid

/-- A full table has a slot for each of `vf_count` functions. -/
theorem VfInv.full {s : VfState} (h : VfInv s) (hfull : ¬ HasFree s.pf.vfInfo) :
    (funcIds s.pf.vfInfo).Nodup ∧ ∀ f ∈ funcIds s.pf.vfInfo, f < qdmaFuncIdInvalid := by
  have hlt : ∀ f ∈ funcIds s.pf.vfInfo, f < qdmaFuncIdInvalid := by
    intro f hf
    refine lt_of_le_of_ne (h.known f hf) ?_
    rintro rfl
    exact hfull hf
  refine ⟨List.nodup_iff_count_le_one.mpr fun f => ?_, hlt⟩
  by_cases hf : f ∈ funcIds s.pf.vfInfo
  · exact h.single f (hlt f hf)
  · rw [List.count_eq_zero_of_not_mem hf]
    exact Nat.zero_le 1

theorem count_replaced {f g : ℕ} (hg : g ≠ qdmaFuncIdInvalid) (before after : List ℕ) :
    (before ++ f :: after).count g =
      (before ++ qdmaFuncIdInvalid :: after).count g + if f = g then 1 else 0 := by
  have hinv : ¬ qdmaFuncIdInvalid = g := Ne.symm hg
  simp only [List.count_append, List.count_cons, beq_iff_eq, hinv, if_false]
  omega

theorem count_cleared {f g : ℕ} (hg : g ≠ qdmaFuncIdInvalid) :
    ∀ l : List ℕ, (l.map fun x => if x = f then qdmaFuncIdInvalid else x).count g =
      if g = f then 0 else l.count g := by
  have hinv : ¬ qdmaFuncIdInvalid = g := Ne.symm hg
  intro l
  induction l with
  | nil => simp
  | cons x rest ih =>
      rw [List.map_cons, List.count_cons, ih, List.count_cons]
      by_cases hx : x = f
      · rw [if_pos hx]
        by_cases hgf : g = f
        · simp [hgf, hgf ▸ hinv]
        · have hxg : ¬ x = g := fun heq => hgf (heq.symm.trans hx)
          simp [hgf, hinv, hxg]
      · rw [if_neg hx]
        by_cases hgf : g = f
        · have hxg : ¬ x = g := fun heq => hx (heq.trans hgf)
          simp [hgf, hgf ▸ hxg]
        · simp [hgf]

theorem joinedAfter_of_ne {s : VfState} {m : MboxMsg} {f : ℕ} (hf : f ≠ m.hdr.src) :
    joinedAfter s m f = s.joined f := by
  unfold joinedAfter
  split
  · exact Function.update_of_ne hf _ _
  · split
    · exact Function.update_of_ne hf _ _
    · rfl

/-- HELLO with a free slot. -/
theorem VfInv.helloFree {s s' : VfState} (h : VfInv s) {m : MboxMsg}
    (hsrc : m.hdr.src < qdmaFuncIdInvalid) (hop : m.hdr.op = mboxOpHello)
    (hfree : HasFree s.pf.vfInfo)
    (htable : s'.pf.vfInfo = (xdevSriovVfOnline m.hdr.src s.pf.vfInfo).2)
    (hjoined : s'.joined = joinedAfter s m) :
    ((∀ f < qdmaFuncIdInvalid, (funcIds s'.pf.vfInfo).count f ≤ 1) ↔
        ¬ Present s.pf.vfInfo m.hdr.src) ∧
      (∀ f < qdmaFuncIdInvalid, Present s'.pf.vfInfo f ↔ s'.joined f = true) ∧
      (∀ f ∈ funcIds s'.pf.vfInfo, f ≤ qdmaFuncIdInvalid) ∧ Present s'.pf.vfInfo m.hdr.src := by
  obtain ⟨before, after, hold, hnew⟩ := funcIds_online m.hdr.src hfree
  have hcount : ∀ f < qdmaFuncIdInvalid, (funcIds s'.pf.vfInfo).count f =
      (funcIds s.pf.vfInfo).count f + if m.hdr.src = f then 1 else 0 := by
    intro f hf
    rw [htable, hnew, hold]
    exact count_replaced hf.ne before after
  have hmem : ∀ f < qdmaFuncIdInvalid,
      Present s'.pf.vfInfo f ↔ Present s.pf.vfInfo f ∨ m.hdr.src = f := by
    intro f hf
    unfold Present
    rw [← List.count_pos_iff, hcount f hf, ← List.count_pos_iff]
    split
    · rename_i heq
      exact ⟨fun _ => Or.inr heq, fun _ => Nat.succ_pos _⟩
    · rename_i hne
      exact ⟨Or.inl, fun hor => hor.resolve_right hne⟩
  refine ⟨⟨fun hsingle hpresent => ?_, fun hnot f hf => ?_⟩, fun f hf => ?_, fun f hf => ?_,
    (hmem _ hsrc).mpr (Or.inr rfl)⟩
  · have hle := hsingle _ hsrc
    rw [hcount _ hsrc, if_pos rfl] at hle
    have hpos := List.count_pos_iff.mpr hpresent
    omega
  · rw [hcount f hf]
    split
    · rename_i heq
      rw [← heq, List.count_eq_zero_of_not_mem hnot]
    · exact h.single f hf
  · rw [hmem f hf, hjoined]
    by_cases heq : m.hdr.src = f
    · subst heq
      unfold joinedAfter
      rw [if_pos hop, Function.update_self]
      exact ⟨fun _ => decide_eq_true (Or.inr hfree), fun _ => Or.inr rfl⟩
    · rw [joinedAfter_of_ne (Ne.symm heq), ← h.present f hf]
      exact ⟨fun hor => hor.resolve_right heq, Or.inl⟩
  · rw [htable, hnew] at hf
    have hknown := h.known f
    rw [hold] at hknown
    obtain hb | hrest := List.mem_append.mp hf
    · exact hknown (List.mem_append_left _ hb)
    · obtain rfl | ha := List.mem_cons.mp hrest
      · exact hsrc.le
      · exact hknown (List.mem_append_right _ (List.mem_cons_of_mem _ ha))

/-- HELLO without a free slot: the table stays. -/
theorem VfInv.helloFull {s s' : VfState} (h : VfInv s) {m : MboxMsg}
    (hop : m.hdr.op = mboxOpHello) (hfull : ¬ HasFree s.pf.vfInfo)
    (htable : s'.pf.vfInfo = (xdevSriovVfOnline m.hdr.src s.pf.vfInfo).2)
    (hjoined : s'.joined = joinedAfter s m) : VfInv s' := by
  rw [online_of_full m.hdr.src hfull] at htable
  refine ⟨?_, fun f hf => ?_, ?_⟩
  · rw [htable]
    exact h.single
  · rw [htable, hjoined]
    by_cases heq : f = m.hdr.src
    · subst heq
      unfold joinedAfter
      rw [if_pos hop, Function.update_self, decide_eq_true_eq]
      exact ⟨Or.inl, fun hor => hor.resolve_right hfull⟩
    · rw [joinedAfter_of_ne heq]
      exact h.present f hf
  · rw [htable]
    exact h.known

theorem VfInv.bye {s s' : VfState} (h : VfInv s) {m : MboxMsg} (hop : m.hdr.op = mboxOpBye)
    (htable : s'.pf.vfInfo = xdevSriovVfOffline m.hdr.src s.pf.vfInfo)
    (hjoined : s'.joined = joinedAfter s m) : VfInv s' := by
  have hcount : ∀ f < qdmaFuncIdInvalid, (funcIds s'.pf.vfInfo).count f =
      if f = m.hdr.src then 0 else (funcIds s.pf.vfInfo).count f := by
    intro f hf
    rw [htable, funcIds_offline]
    exact count_cleared hf.ne _
  have hnot : m.hdr.op ≠ mboxOpHello := by rw [hop]; decide
  refine ⟨fun f hf => ?_, fun f hf => ?_, fun f hf => ?_⟩
  · rw [hcount f hf]
    split
    · exact Nat.zero_le 1
    · exact h.single f hf
  · unfold Present
    rw [← List.count_pos_iff, hcount f hf, hjoined]
    by_cases heq : f = m.hdr.src
    · subst heq
      unfold joinedAfter
      rw [if_pos rfl, if_neg hnot, if_pos hop, Function.update_self]
      exact ⟨fun hpos => absurd hpos (lt_irrefl 0), fun hfalse => absurd hfalse Bool.false_ne_true⟩
    · rw [if_neg heq, joinedAfter_of_ne heq, List.count_pos_iff]
      exact h.present f hf
  · rw [htable, funcIds_offline] at hf
    obtain ⟨g, hg, rfl⟩ := List.mem_map.mp hf
    split
    · exact le_rfl
    · exact h.known g hg

/-- A message after which the table has the same functions. -/
theorem VfInv.sameFuncs {s s' : VfState} (h : VfInv s) {m : MboxMsg}
    (hh : m.hdr.op ≠ mboxOpHello) (hb : m.hdr.op ≠ mboxOpBye)
    (hsame : funcIds s'.pf.vfInfo = funcIds s.pf.vfInfo) (hjoined : s'.joined = joinedAfter s m) :
    VfInv s' := by
  have hstays : s'.joined = s.joined := by
    rw [hjoined]
    unfold joinedAfter
    rw [if_neg hh, if_neg hb]
  refine ⟨?_, fun f hf => ?_, ?_⟩
  · rw [hsame]
    exact h.single
  · unfold Present
    rw [hsame, hstays]
    exact h.present f hf
  · rw [hsame]
    exact h.known

/-- **One message** is right just where it meets the condition, and then keeps the
invariant.  The cases are those of the `switch`. -/
theorem VfInv.step {s : VfState} (h : VfInv s) (e : VfMsg) (hg : vfSys.guard s e) :
    (VfTableRight s e (vfSys.step s e) ↔ JoinsOnce s e) ∧
      (VfTableRight s e (vfSys.step s e) → VfInv (vfSys.step s e)) := by
  have hsrc : e.m.hdr.src < qdmaFuncIdInvalid := hg
  have hstep := tableStep_handle e.fates s.pf e.m
  obtain ⟨s', hs'⟩ : ∃ s', s' = vfSys.step s e := ⟨_, rfl⟩
  have htable : (qdmaMboxHandle e.fates s.pf e.m).s.vfInfo = s'.pf.vfInfo := by rw [hs']; rfl
  have hjoined : s'.joined = joinedAfter s e.m := by rw [hs']; rfl
  rw [← hs']
  generalize hvfs : (qdmaMboxHandle e.fates s.pf e.m).s.vfInfo = vfs at hstep htable
  cases hstep with
  | hello hop =>
      have hnot : e.m.hdr.op ≠ mboxOpFmap := by rw [hop]; decide
      by_cases hfree : HasFree s.pf.vfInfo
      · obtain ⟨hsingle, hpresent, hknown, hjoins⟩ :=
          h.helloFree hsrc hop hfree htable.symm hjoined
        refine ⟨⟨fun hright _ _ => hsingle.mp hright.single, fun hcond => ?_⟩,
          fun hright => ⟨hright.single, hpresent, hknown⟩⟩
        exact ⟨hsingle.mpr (hcond hop hfree), hpresent, fun hf => absurd hf hnot,
          fun _ _ hgone => absurd hjoins hgone⟩
      · have hinv := h.helloFull hop hfree htable.symm hjoined
        refine ⟨⟨fun _ _ hfree' => absurd hfree' hfree, fun _ => ?_⟩, fun _ => hinv⟩
        refine ⟨hinv.single, hinv.present, fun hf => absurd hf hnot, fun _ _ _ => ?_⟩
        rw [← htable, online_of_full e.m.hdr.src hfree]
        exact h.full hfree
  | bye hop =>
      have hinv := h.bye hop htable.symm hjoined
      have hhello : e.m.hdr.op ≠ mboxOpHello := by rw [hop]; decide
      have hfmap : e.m.hdr.op ≠ mboxOpFmap := by rw [hop]; decide
      exact ⟨⟨fun _ hh => absurd hh hhello, fun _ => ⟨hinv.single, hinv.present,
        fun hf => absurd hf hfmap, fun hh => absurd hh hhello⟩⟩, fun _ => hinv⟩
  | fmap hop qbase qmax =>
      have hhello : e.m.hdr.op ≠ mboxOpHello := by rw [hop]; decide
      have hbye : e.m.hdr.op ≠ mboxOpBye := by rw [hop]; decide
      have hsame : funcIds s'.pf.vfInfo = funcIds s.pf.vfInfo := by
        rw [← htable, funcIds_fmap]
      have hinv := h.sameFuncs hhello hbye hsame hjoined
      refine ⟨⟨fun _ hh => absurd hh hhello, fun _ => ⟨hinv.single, hinv.present,
        fun _ => ⟨hsame, fun i vf hvf hne => ?_⟩, fun hh => absurd hh hhello⟩⟩, fun _ => hinv⟩
      rw [← htable]
      exact fmap_other _ _ _ _ i vf hvf hne
  | other hh hb hf =>
      have hinv := h.sameFuncs hh hb (by rw [← htable]) hjoined
      exact ⟨⟨fun _ hop => absurd hop hh, fun _ => ⟨hinv.single, hinv.present,
        fun hop => absurd hop hf, fun hop => absurd hop hh⟩⟩, fun _ => hinv⟩

/-! ## Runs -/

theorem vfInv_enabled {s : VfState} (h : VfEnabled s) : VfInv s := by
  have hfree : ∀ f ∈ funcIds s.pf.vfInfo, f = qdmaFuncIdInvalid := by
    intro f hf
    obtain ⟨vf, hvf, rfl⟩ := List.mem_map.mp hf
    exact h.1 vf hvf
  have hnone : ∀ f < qdmaFuncIdInvalid, f ∉ funcIds s.pf.vfInfo := by
    intro f hf hmem
    exact absurd (hfree f hmem) hf.ne
  refine ⟨fun f hf => ?_, fun f hf => ?_, fun f hf => (hfree f hf).le⟩
  · rw [List.count_eq_zero_of_not_mem (hnone f hf)]
    exact Nat.zero_le 1
  · rw [h.2 f]
    exact ⟨fun hmem => absurd hmem (hnone f hf), fun hfalse => absurd hfalse Bool.false_ne_true⟩

/-- **The table of virtual functions** is right in a run just where no function that is in it
says HELLO while there is a free slot. -/
theorem vf_table_right_iff {s : VfState} (hstart : VfEnabled s) (es : List VfMsg)
    (hrun : vfSys.Admits s es) :
    vfSys.EachStep VfTableRight s es ↔ (vfSys.restrict JoinsOnce).Admits s es :=
  vfSys.eachStep_iff_admits (fun _ e h hg => (VfInv.step h e hg).1)
    (fun _ e h hg => (VfInv.step h e hg).2) es (vfInv_enabled hstart) hrun

/-- A message without contents from function `src`. -/
def vfMsg (op src : ℕ) : VfMsg where
  fates := (plainIn src (bareMsg op)).fates
  m := mboxRead src (bareMsg op)

/-- Room for two virtual functions, and none there. -/
def vfIdle : VfState := { pf := pfIdle, joined := fun _ => false }

theorem vfEnabled_vfIdle : VfEnabled vfIdle := by
  refine ⟨fun vf hvf => ?_, fun _ => rfl⟩
  rw [List.eq_of_mem_replicate hvf]

/-- A function comes, goes and comes back, and another one comes. -/
theorem vf_table_right_back :
    vfSys.EachStep VfTableRight vfIdle
      [vfMsg mboxOpHello 2, vfMsg mboxOpBye 2, vfMsg mboxOpHello 2, vfMsg mboxOpHello 3,
        vfMsg mboxOpFmap 3] := by
  have hguard : ∀ op src : ℕ, src < qdmaFuncIdInvalid → ∀ s : VfState,
      vfSys.guard s (vfMsg op src) := fun _ _ h _ => h
  refine (vf_table_right_iff vfEnabled_vfIdle [vfMsg mboxOpHello 2, vfMsg mboxOpBye 2,
    vfMsg mboxOpHello 2, vfMsg mboxOpHello 3, vfMsg mboxOpFmap 3]
    ⟨hguard _ _ (by decide) _, hguard _ _ (by decide) _, hguard _ _ (by decide) _,
      hguard _ _ (by decide) _, hguard _ _ (by decide) _, trivial⟩).mpr ?_
  exact ⟨⟨hguard _ _ (by decide) _, fun _ _ => by decide⟩,
    ⟨hguard _ _ (by decide) _, fun hop => absurd hop (by decide)⟩,
    ⟨hguard _ _ (by decide) _, fun _ _ => by decide⟩,
    ⟨hguard _ _ (by decide) _, fun _ _ => by decide⟩,
    ⟨hguard _ _ (by decide) _, fun hop => absurd hop (by decide)⟩, trivial⟩

/-- Function 2 says HELLO twice and has both slots. -/
theorem vf_table_hello_again :
    ¬ ∀ (s : VfState), VfEnabled s → ∀ es : List VfMsg, vfSys.Admits s es →
      vfSys.EachStep VfTableRight s es := by
  intro hall
  have hguard : ∀ s : VfState, vfSys.guard s (vfMsg mboxOpHello 2) := by
    intro s
    show 2 < qdmaFuncIdInvalid
    decide
  have heach := hall vfIdle vfEnabled_vfIdle [vfMsg mboxOpHello 2, vfMsg mboxOpHello 2]
    ⟨hguard _, hguard _, trivial⟩
  have hsingle := heach.2.1.single 2 (by decide)
  revert hsingle
  decide

end Qdma

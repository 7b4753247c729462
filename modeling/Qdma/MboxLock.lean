import Qdma.MboxRefine

/-!
# Two functions that wait for each other

In `mbox_send` a function waits for the other side to take its last message, and it holds its
`mbox_lock` while it does.  The other side takes messages in `qdma_mbox_proc`, under its own
`mbox_lock`.  So a virtual function that waits to send cannot take the answer the physical
function waits to send, nor the other way round.

* `answer_wait_ends`: as long as the virtual function is not waiting itself, a few accesses of its
  own end the wait of the physical function; and it is waiting only with three of its requests
  unanswered and a fourth in hand.
* `lock_lasts`: then neither wait ends until one of the two has looked as often as
  `hw_monitor_reg` lets it, whatever all the others do.
-/

namespace Qdma

open Lib

/-- The function that an answer waits for, and the looks after the next. -/
def PfPc.polls : PfPc → Option (FuncId × ℕ)
  | .send _ m _ (.poll count) => some (m.target, count)
  | _ => none

def VfPc.polls : VfPc → Option ℕ
  | .send _ _ (.poll count) => some count
  | _ => none

/-- The physical function waits to answer `v`. -/
def PfWaits (s : MboxRegs) (v : FuncId) (count : ℕ) : Prop :=
  s.pfPc.polls = some (v, count) ∧ (s.down v).full = true

/-- Virtual function `v` waits to send. -/
def VfWaits (s : MboxRegs) (v : FuncId) (count : ℕ) : Prop :=
  (s.vf v).pc.polls = some count ∧ (s.up v).full = true

instance (s : MboxRegs) (v : FuncId) (count : ℕ) : Decidable (PfWaits s v count) :=
  inferInstanceAs (Decidable (_ ∧ _))

instance (s : MboxRegs) (v : FuncId) (count : ℕ) : Decidable (VfWaits s v count) :=
  inferInstanceAs (Decidable (_ ∧ _))

theorem PfPc.of_polls {pc : PfPc} {v : FuncId} {count : ℕ} (h : pc.polls = some (v, count)) :
    ∃ status m hand, pc = .send status m hand (.poll count) ∧ m.target = v := by
  unfold polls at h
  split at h
  case h_1 status m hand n =>
    obtain ⟨hv, hn⟩ := Prod.mk.inj (Option.some.inj h)
    exact ⟨status, m, hand, hn ▸ rfl, hv⟩
  case h_2 => exact absurd h (Option.some_ne_none _).symm

theorem VfPc.of_polls {pc : VfPc} {count : ℕ} (h : pc.polls = some count) :
    ∃ m proc, pc = .send m proc (.poll count) := by
  unfold polls at h
  split at h
  case h_1 m proc n => exact ⟨m, proc, Option.some.inj h ▸ rfl⟩
  case h_2 => exact absurd h (Option.some_ne_none _).symm

/-! ## The wait of the physical function -/

/-- In `mbox_send`. -/
def VfPc.Sending : VfPc → Prop
  | .send _ _ _ => True
  | _ => False

/-- How many events of its own bring a virtual function to take a message. -/
def VfPc.togo : VfPc → ℕ
  | .initRead | .initAck => 0
  | .read _ (.cmd _) => 1
  | .read _ (.reg words) => 1 + (mboxMsgRegMax - words.length)
  | .read _ .target | .status _ => 18
  | .free => 19
  | .send _ _ .cmd => 20
  | .send _ _ (.reg i) => 20 + (mboxMsgRegMax - i)
  | .send _ _ .check => 37
  | .send _ _ (.poll _) | .send _ _ .target => 38

theorem VfPc.togo_le (pc : VfPc) : pc.togo ≤ 38 := by
  cases pc with
  | initRead => exact Nat.zero_le _
  | initAck => exact Nat.zero_le _
  | free => exact (by decide : 19 ≤ 38)
  | status status => exact (by decide : 18 ≤ 38)
  | read status pc =>
      cases pc with
      | target => exact (by decide : 18 ≤ 38)
      | reg words =>
          change 1 + (mboxMsgRegMax - words.length) ≤ 38
          have hle : mboxMsgRegMax - words.length ≤ 16 := Nat.sub_le _ _
          omega
      | cmd words => exact (by decide : 1 ≤ 38)
  | send m proc pc =>
      cases pc with
      | target => exact le_refl _
      | poll count => exact le_refl _
      | check => exact (by decide : 37 ≤ 38)
      | reg i =>
          change 20 + (mboxMsgRegMax - i) ≤ 38
          have hle : mboxMsgRegMax - i ≤ 16 := Nat.sub_le _ _
          omega
      | cmd => exact (by decide : 20 ≤ 38)

/-- One access more towards the message, unless the mailbox to send to is busy. -/
theorem vfAccess_nearer {up down : MboxSlot} {a : VfSide} (hok : VfOk up down a.pc)
    (hquiet : up.sent = [] → down.full = false) (hset : down.full = true)
    (hclear : a.pc.Sending → up.full = false) (hfree : a.pc ≠ .free) :
    (vfAccess up down a false).2.1.full = false ∨
      (vfAccess up down a false).2.1.full = true ∧
        ((vfAccess up down a false).2.2.pc.Sending →
          (vfAccess up down a false).1.full = false) ∧
        (vfAccess up down a false).2.2.pc.togo < a.pc.togo := by
  unfold vfAccess
  cases hpc : a.pc with
  | initRead =>
      rw [hpc] at hok
      exact absurd (hset.symm.trans (hquiet hok)) Bool.noConfusion
  | initAck =>
      rw [hpc] at hok
      exact absurd (hset.symm.trans (hquiet hok)) Bool.noConfusion
  | free => exact absurd hpc hfree
  | status status =>
      refine Or.inr ⟨hset, ?_, ?_⟩
      · change VfPc.Sending (if down.full = true then .read status (.reg []) else .free) → _
        rw [if_pos hset]
        exact False.elim
      · change VfPc.togo (if down.full = true then .read status (.reg []) else .free) < _
        rw [if_pos hset]
        exact (by decide : 17 < 18)
  | read status pc =>
      rw [hpc] at hok
      cases pc with
      | target => exact Or.inr ⟨hset, False.elim, (by decide : 17 < 18)⟩
      | reg words =>
          obtain ⟨hlt, -⟩ := hok
          refine Or.inr ⟨hset, False.elim, ?_⟩
          have hlen : (words ++ [down.regs words.length]).length = words.length + 1 :=
            List.length_append
          change VfPc.togo (.read status (if _ then _ else _)) < 1 + (mboxMsgRegMax - words.length)
          rw [hlen]
          split
          · change 1 + (mboxMsgRegMax - (words ++ [down.regs words.length]).length) < _
            rw [hlen]
            omega
          · change 1 < _
            omega
      | cmd words => exact Or.inl rfl
  | send m proc pc =>
      rw [hpc] at hok hclear
      obtain ⟨hproc, htarget, hsend⟩ := hok
      have hup := hclear trivial
      cases pc with
      | target => exact absurd rfl htarget
      | poll count =>
          refine Or.inr ⟨hset, fun _ => ?_, ?_⟩
          · cases count with
            | zero => exact hup
            | succ count => exact hup
          · cases count with
            | zero =>
                unfold mboxSendRegs
                dsimp only
                rw [hup]
                exact (by decide : 37 < 38)
            | succ count =>
                unfold mboxSendRegs
                dsimp only
                rw [hup]
                exact (by decide : 37 < 38)
      | check =>
          refine Or.inr ⟨hset, fun _ => hup, ?_⟩
          unfold mboxSendRegs
          dsimp only
          rw [hup]
          exact (by decide : 36 < 37)
      | reg i =>
          obtain ⟨hlt, -⟩ := hsend
          refine Or.inr ⟨hset, fun _ => hup, ?_⟩
          change VfPc.togo (.send m proc (if _ then _ else _)) < 20 + (mboxMsgRegMax - i)
          split
          · change 20 + (mboxMsgRegMax - (i + 1)) < _
            omega
          · change 20 < _
            omega
      | cmd =>
          refine Or.inr ⟨hset, ?_, ?_⟩
          · rw [hproc]
            exact False.elim
          · rw [hproc]
            exact (by decide : 19 < 20)

/-- What a virtual function does next to take a message. -/
def vfNext (s : MboxRegs) (v : FuncId) : MboxRegsEv :=
  if (s.vf v).pc = .free then .vfProc v else .vfStep v false

theorem vfNext_nearer {s : MboxRegs} (h : RegsInv s) {v : FuncId} (hset : (s.down v).full = true)
    (hclear : (s.vf v).pc.Sending → (s.up v).full = false) :
    mboxRegsGuard s (vfNext s v) ∧ (mboxRegsStep s (vfNext s v)).pfPc = s.pfPc ∧
      (((mboxRegsStep s (vfNext s v)).down v).full = false ∨
        ((mboxRegsStep s (vfNext s v)).down v).full = true ∧
          (((mboxRegsStep s (vfNext s v)).vf v).pc.Sending →
            ((mboxRegsStep s (vfNext s v)).up v).full = false) ∧
          ((mboxRegsStep s (vfNext s v)).vf v).pc.togo < (s.vf v).pc.togo) := by
  unfold vfNext
  by_cases hfree : (s.vf v).pc = .free
  · rw [if_pos hfree]
    refine ⟨hfree, rfl, Or.inr ⟨hset, ?_, ?_⟩⟩
    · change (Function.update s.vf v _ v).pc.Sending → _
      rw [Function.update_self]
      exact False.elim
    · change (Function.update s.vf v _ v).pc.togo < _
      rw [Function.update_self, hfree]
      exact (by decide : 18 < 19)
  · rw [if_neg hfree]
    refine ⟨trivial, rfl, ?_⟩
    have hnear := vfAccess_nearer (h.vf v) h.quiet hset hclear hfree
    change (Function.update s.down v _ v).full = false ∨
      (Function.update s.down v _ v).full = true ∧
        ((Function.update s.vf v _ v).pc.Sending → (Function.update s.up v _ v).full = false) ∧
        (Function.update s.vf v _ v).pc.togo < _
    rw [Function.update_self, Function.update_self, Function.update_self]
    exact hnear

/-- A virtual function that is not held up takes its message. -/
theorem vf_takes (v : FuncId) :
    ∀ (n : ℕ) {s : MboxRegs}, RegsInv s → (s.down v).full = true →
      ((s.vf v).pc.Sending → (s.up v).full = false) → (s.vf v).pc.togo < n →
      ∃ fs : List MboxRegsEv, (∀ e ∈ fs, e = .vfProc v ∨ e = .vfStep v false) ∧ fs.length ≤ n ∧
        mboxRegsSys.Admits s fs ∧ ((mboxRegsSys.exec s fs).down v).full = false ∧
        (mboxRegsSys.exec s fs).pfPc = s.pfPc := by
  intro n
  induction n with
  | zero => exact fun _ _ _ hn => absurd hn (Nat.not_lt_zero _)
  | succ n ih =>
      intro s h hset hclear hn
      obtain ⟨hg, hpc, hnear⟩ := vfNext_nearer h hset hclear
      have hown : vfNext s v = .vfProc v ∨ vfNext s v = .vfStep v false := by
        unfold vfNext
        split
        · exact Or.inl rfl
        · exact Or.inr rfl
      rcases hnear with hdone | ⟨hset', hclear', hless⟩
      · refine ⟨[vfNext s v], ?_, Nat.succ_le_succ (Nat.zero_le n), ⟨hg, trivial⟩, hdone, hpc⟩
        intro e he
        rw [List.mem_singleton.mp he]
        exact hown
      · obtain ⟨fs, hfs, hlen, hadm, hdone, hpc'⟩ :=
          ih (h.step _ hg) hset' hclear' (lt_of_lt_of_le hless (Nat.le_of_lt_succ hn))
        refine ⟨vfNext s v :: fs, ?_, Nat.succ_le_succ hlen, ⟨hg, hadm⟩, hdone, hpc'.trans hpc⟩
        intro e he
        rcases List.mem_cons.mp he with rfl | hmem
        · exact hown
        · exact hfs e hmem

/-- A slot with a message in it is one ahead. -/
theorem full_sent {s : MboxSlot} (h : s.Kept mboxMsgRegMax) (hfull : s.full = true) :
    s.sent.length = s.rcvd.length + 1 := by
  have hlog := h.log
  rw [hfull] at hlog
  rw [hlog]
  exact List.length_append

/-- **The physical function's wait to answer can be ended**: if the virtual function does not
wait itself, it takes the message in the way with at most 39 events of its own.  It does wait
only with three requests unanswered and a fourth in hand. -/
theorem answer_wait_ends (pf : PfState) (es : List MboxRegsEv) (v : FuncId) (count : ℕ)
    (hrun : mboxRegsSys.Admits (MboxRegs.init pf) es)
    (hwait : PfWaits (mboxRegsSys.exec (MboxRegs.init pf) es) v count) :
    let s := mboxRegsSys.exec (MboxRegs.init pf) es
    ((∃ n, VfWaits s v n) ∧ (s.down v).rcvd.length + 3 ≤ (s.up v).sent.length) ∨
      ∃ fs : List MboxRegsEv, (∀ e ∈ fs, e = .vfProc v ∨ e = .vfStep v false) ∧ fs.length ≤ 39 ∧
        mboxRegsSys.Admits s fs ∧ ((mboxRegsSys.exec s fs).down v).full = false ∧
        (mboxRegsSys.exec s fs).pfPc = s.pfPc := by
  intro s
  have h : RegsInv s := regsInv_of_admits hrun
  obtain ⟨hpolls, hdown⟩ := hwait
  by_cases hvf : ∃ n, VfWaits s v n
  · refine Or.inl ⟨hvf, ?_⟩
    obtain ⟨n, -, hup⟩ := hvf
    obtain ⟨status, m, hand, hpc, htarget⟩ := PfPc.of_polls hpolls
    have howes : s.pfPc.owes v = 1 := by
      rw [show s.pfPc = _ from hpc]
      exact if_pos htarget
    -- one request lies there, one is being answered, one answer lies there
    have hpaid := h.paid v
    have hsent := full_sent (h.up v) hup
    have hanswered := full_sent (h.down v) hdown
    rw [howes] at hpaid
    omega
  · refine Or.inr (vf_takes v 39 h hdown ?_ (Nat.lt_succ_of_le (VfPc.togo_le _)))
    intro hsending
    cases hpc : (s.vf v).pc with
    | send m proc pc =>
        have hok := h.vf v
        rw [hpc] at hok
        obtain ⟨-, htarget, hsend⟩ := hok
        cases pc with
        | target => exact absurd rfl htarget
        | poll n =>
            cases hfull : (s.up v).full with
            | false => rfl
            | true => exact absurd ⟨n, congrArg VfPc.polls hpc, hfull⟩ hvf
        | check => exact hsend
        | reg i => exact hsend.2.clear
        | cmd => exact hsend.clear
    | initRead => exact absurd hsending (hpc ▸ False.elim)
    | initAck => exact absurd hsending (hpc ▸ False.elim)
    | free => exact absurd hsending (hpc ▸ False.elim)
    | status status => exact absurd hsending (hpc ▸ False.elim)
    | read status pc => exact absurd hsending (hpc ▸ False.elim)

/-- A function sends four hellos one after the other while the physical function answers the
first and wants to answer the second. -/
def fourHellosRun : List MboxRegsEv :=
  let own (n : ℕ) := List.replicate n (MboxRegsEv.vfStep firstVf false)
  let say := .vfSend firstVf (bareMsg mboxOpHello) false :: own 19
  let serve (n : ℕ) :=
    List.replicate n (MboxRegsEv.pfStep (some firstVf) (plainIn firstVf (bareMsg 0)).fates false)
  own 2 ++ say ++ [.pfProc] ++ serve 39 ++ say ++ serve 20 ++ say ++
    [.vfSend firstVf (bareMsg mboxOpHello) false]

/-- Before the last two. -/
theorem answer_wait_ends_two :
    let s := mboxRegsSys.exec (MboxRegs.init pfIdle) (fourHellosRun.take 102)
    mboxRegsSys.Admits (MboxRegs.init pfIdle) (fourHellosRun.take 102) ∧
      PfWaits s 2 mboxPolls ∧ (s.up 2).sent.length = 2 ∧
      ∃ fs : List MboxRegsEv, fs.length ≤ 39 ∧ mboxRegsSys.Admits s fs ∧
        ((mboxRegsSys.exec s fs).down 2).full = false := by
  have hrun : mboxRegsSys.Admits (MboxRegs.init pfIdle) (fourHellosRun.take 102) := by
    decide +kernel
  have hwait : PfWaits (mboxRegsSys.exec (MboxRegs.init pfIdle) (fourHellosRun.take 102)) 2
      mboxPolls := by decide +kernel
  have hsent : ((mboxRegsSys.exec (MboxRegs.init pfIdle) (fourHellosRun.take 102)).up 2).sent.length
      = 2 := by decide +kernel
  refine ⟨hrun, hwait, hsent, ?_⟩
  rcases answer_wait_ends pfIdle _ 2 mboxPolls hrun hwait with ⟨-, hmany⟩ | hends
  · rw [hsent] at hmany
    omega
  · obtain ⟨fs, -, hlen, hadm, hdone, -⟩ := hends
    exact ⟨fs, hlen, hadm, hdone⟩

/-! ## Both wait -/

/-- An access of the physical function. -/
def MboxRegsEv.isPf : MboxRegsEv → Bool
  | .pfStep _ _ _ => true
  | _ => false

/-- An access of virtual function `v`. -/
def MboxRegsEv.isVf (v : FuncId) : MboxRegsEv → Bool
  | .vfStep u _ => u = v
  | _ => false

/-- `v` and the physical function wait for each other. -/
structure Locked (s : MboxRegs) (v : FuncId) (p q : ℕ) : Prop where
  pf : PfWaits s v p
  vf : VfWaits s v q

section Locked

variable {s : MboxRegs} {v : FuncId} {p q : ℕ}

/-- What others do leaves it alone. -/
theorem Locked.other (h : Locked s v p q) {s' : MboxRegs} (hpc : s'.pfPc = s.pfPc)
    (hvf : s'.vf v = s.vf v) (hup : s'.up v = s.up v) (hdown : s'.down v = s.down v) :
    Locked s' v p q where
  pf := by
    unfold PfWaits
    rw [hpc, hdown]
    exact h.pf
  vf := by
    unfold VfWaits
    rw [hvf, hup]
    exact h.vf

/-- A look of the virtual function. -/
theorem Locked.vfLook (h : Locked s v p (q + 1)) (offline : Bool) :
    Locked (vfStep s v offline) v p q ∧ (vfStep s v offline).up v = s.up v ∧
      (vfStep s v offline).down v = s.down v := by
  obtain ⟨hpolls, hup⟩ := h.vf
  obtain ⟨m, proc, hpc⟩ := VfPc.of_polls hpolls
  have haccess : vfAccess (s.up v) (s.down v) (s.vf v) offline =
      (s.up v, s.down v, { s.vf v with pc := .send m proc (.poll q) }) := by
    unfold vfAccess
    rw [hpc]
    unfold mboxSendRegs
    dsimp only
    rw [if_pos hup]
  have hs : vfStep s v offline =
      { s with
        vf := Function.update s.vf v { s.vf v with pc := .send m proc (.poll q) }
        asked := (vfStep s v offline).asked } := by
    unfold vfStep
    rw [haccess]
    dsimp only
    rw [Function.update_eq_self, Function.update_eq_self]
  rw [hs]
  refine ⟨⟨h.pf, ?_, hup⟩, rfl, rfl⟩
  change (Function.update s.vf v _ v).pc.polls = _
  rw [Function.update_self]
  rfl

/-- A look of the physical function. -/
theorem Locked.pfLook (h : Locked s v (p + 1) q) (hinv : RegsInv s) (pick : Option FuncId)
    (fates : MsgFates) (offline : Bool) :
    Locked (pfStep s pick fates offline) v p q ∧ (pfStep s pick fates offline).up = s.up ∧
      (pfStep s pick fates offline).down = s.down := by
  obtain ⟨hpolls, hdown⟩ := h.pf
  obtain ⟨status, m, hand, hpc, rfl⟩ := PfPc.of_polls hpolls
  have htarget : s.target = m.target := by
    have hpf := hinv.pf
    rw [hpc] at hpf
    exact hpf.1 SendPc.noConfusion
  have hs : pfStep s pick fates offline =
      { s with
        pfPc := .send status m hand (.poll p)
        answers := (pfStep s pick fates offline).answers } := by
    unfold pfStep
    rw [hpc]
    dsimp only
    rw [if_neg SendPc.noConfusion, htarget]
    unfold mboxSendRegs
    dsimp only
    rw [if_pos hdown, Function.update_eq_self, ← htarget]
  rw [hs]
  exact ⟨⟨⟨rfl, hdown⟩, h.vf⟩, rfl, rfl⟩

/-- One event. -/
theorem Locked.step {e : MboxRegsEv} (hinv : RegsInv s) (hg : mboxRegsGuard s e)
    (h : Locked s v (p + e.isPf.toNat) (q + (e.isVf v).toNat)) :
    Locked (mboxRegsStep s e) v p q ∧ (mboxRegsStep s e).up v = s.up v ∧
      (mboxRegsStep s e).down v = s.down v := by
  obtain ⟨m, proc, hvf⟩ := VfPc.of_polls h.vf.1
  obtain ⟨status, m', hand, hpf, -⟩ := PfPc.of_polls h.pf.1
  cases e with
  | vfSend u m wait =>
      have hne : v ≠ u := by
        rintro rfl
        exact VfPc.noConfusion (hvf.symm.trans hg)
      exact ⟨h.other rfl (Function.update_of_ne hne _ _) rfl rfl, rfl, rfl⟩
  | vfProc u =>
      have hne : v ≠ u := by
        rintro rfl
        exact VfPc.noConfusion (hvf.symm.trans hg)
      exact ⟨h.other rfl (Function.update_of_ne hne _ _) rfl rfl, rfl, rfl⟩
  | vfStep u offline =>
      rcases eq_or_ne u v with rfl | hne
      · have hone : (MboxRegsEv.isVf u (.vfStep u offline)).toNat = 1 :=
          congrArg Bool.toNat (decide_eq_true rfl)
        rw [hone] at h
        exact h.vfLook offline
      · have hzero : (MboxRegsEv.isVf v (.vfStep u offline)).toNat = 0 :=
          congrArg Bool.toNat (decide_eq_false hne)
        rw [hzero] at h
        have hup : (vfStep s u offline).up v = s.up v := Function.update_of_ne hne.symm _ _
        have hdown : (vfStep s u offline).down v = s.down v := Function.update_of_ne hne.symm _ _
        exact ⟨h.other rfl (Function.update_of_ne hne.symm _ _) hup hdown, hup, hdown⟩
  | pfProc => exact PfPc.noConfusion (hpf.symm.trans hg)
  | pfStep pick fates offline =>
      obtain ⟨hlocked, hup, hdown⟩ := h.pfLook hinv pick fates offline
      exact ⟨hlocked, congrFun hup v, congrFun hdown v⟩

end Locked

/-- **Two waits that hold each other up**: once both sides wait, they do as long as neither of
them has made its last look, and no message passes between them. -/
theorem lock_lasts (pf : PfState) (es fs : List MboxRegsEv) (v : FuncId) (p q : ℕ)
    (hrun : mboxRegsSys.Admits (MboxRegs.init pf) (es ++ fs))
    (hlocked : Locked (mboxRegsSys.exec (MboxRegs.init pf) es) v
      (p + fs.countP MboxRegsEv.isPf) (q + fs.countP (MboxRegsEv.isVf v))) :
    Locked (mboxRegsSys.exec (MboxRegs.init pf) (es ++ fs)) v p q ∧
      (mboxRegsSys.exec (MboxRegs.init pf) (es ++ fs)).up v =
        (mboxRegsSys.exec (MboxRegs.init pf) es).up v ∧
      (mboxRegsSys.exec (MboxRegs.init pf) (es ++ fs)).down v =
        (mboxRegsSys.exec (MboxRegs.init pf) es).down v := by
  obtain ⟨hes, hfs⟩ := (mboxRegsSys.admits_append _ _ _).mp hrun
  have hinv := regsInv_of_admits hes
  clear hrun
  rw [mboxRegsSys.exec_append]
  generalize mboxRegsSys.exec (MboxRegs.init pf) es = s at hfs hinv hlocked
  induction fs generalizing s p q with
  | nil => exact ⟨hlocked, rfl, rfl⟩
  | cons e fs ih =>
      obtain ⟨hg, hrest⟩ := hfs
      have hcount : ∀ f : MboxRegsEv → Bool,
          (e :: fs).countP f = fs.countP f + (f e).toNat := by
        intro f
        rw [List.countP_cons]
        cases f e with
        | true => rfl
        | false => rfl
      rw [hcount, hcount, ← Nat.add_assoc, ← Nat.add_assoc] at hlocked
      obtain ⟨hnext, hup, hdown⟩ := hlocked.step hinv hg
      obtain ⟨hlast, hup', hdown'⟩ := ih p q _ hrest (hinv.step e hg) hnext
      exact ⟨hlast, hup'.trans hup, hdown'.trans hdown⟩

theorem lock_lasts_four :
    let fs := [.vfStep 2 false, .pfStep none (plainIn 0 (bareMsg 0)).fates false, .vfStep 3 false]
    let s := mboxRegsSys.exec (MboxRegs.init pfIdle) fourHellosRun
    mboxRegsSys.Admits (MboxRegs.init pfIdle) (fourHellosRun ++ fs) ∧
      Locked s 2 mboxPolls mboxPolls ∧ (s.up 2).sent.length = 3 ∧
      Locked (mboxRegsSys.exec (MboxRegs.init pfIdle) (fourHellosRun ++ fs)) 2 49999 49999 := by
  intro fs s
  have hrun : mboxRegsSys.Admits (MboxRegs.init pfIdle) (fourHellosRun ++ fs) := by
    decide +kernel
  have hlocked : Locked s 2 mboxPolls mboxPolls := ⟨by decide +kernel, by decide +kernel⟩
  refine ⟨hrun, hlocked, by decide +kernel, ?_⟩
  exact (lock_lasts pfIdle fourHellosRun fs 2 49999 49999 hrun hlocked).1

end Qdma

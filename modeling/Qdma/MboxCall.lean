import Qdma.Isolation

/-!
# Mailbox calls of a virtual function

`qdma_mbox_send_msg` on a virtual function sends a request with the mailbox lock held,
clears the one slot for answers, `m_req`, lets go of the lock and waits.  The virtual
function's `qdma_mbox_proc` copies every answer that somebody may wait for into the slot.
When the wait is over the call takes whatever answer is in the slot, if its operation is
the one it asked for.

Any number of calls run at once.  A message in flight carries the call it belongs to, and
so does the slot; nothing reads it.  Messages are delivered and answered in any order, an
answer can get lost, and a wait can end at any time.

`AnswersOwn` says that a call that succeeds has the answer to its own request.  It holds
as long as a request is sent only when no other call waits for an answer to the same
operation and no earlier request for it, given up by its caller, can still be answered.
-/

namespace Qdma

open Lib

def etime : ℤ := 62

/-- `memset(&xdev->m_req, 0, ...)`. -/
def MboxMsg.zero : MboxMsg where
  hdr :=
    { op := 0, sent := false, rcv := false, ack := false, wait := false, src := 0, dst := 0,
      status := 0 }
  raw _ := 0

/-- A message and the call it belongs to: the one that sent it, or whose request it
answers. -/
structure Mail where
  call : ℕ
  m : MboxMsg

/-- A call of `qdma_mbox_send_msg`. -/
inductive MboxCall where
  | idle
  /-- `m` was sent, and the lock is not held. -/
  | waiting (m : MboxMsg)
  /-- The value returned, what is then in `m`, and the call whose answer that is. -/
  | returned (rv : ℤ) (m : MboxMsg) (answerTo : Option ℕ)
  /-- A message nobody waits for. -/
  | posted

/-- The virtual function with its calls, the physical function, and what is in flight
between them. -/
structure VfMbox where
  mReq : Mail
  call : ℕ → MboxCall
  asked : ℕ → MboxMsg
  toPf : List Mail
  toVf : List Mail
  pf : PfState

/-- Before the first call. -/
def VfMbox.init (pf : PfState) : VfMbox where
  mReq := ⟨0, MboxMsg.zero⟩
  call _ := .idle
  asked _ := MboxMsg.zero
  toPf := []
  toVf := []
  pf := pf

/-! ## The steps -/

/-- The message as it goes out. -/
def outgoing (m : MboxMsg) (wait : Bool) : MboxMsg :=
  { m with
    hdr := { m.hdr with ack := if wait then false else m.hdr.ack, wait := wait, sent := false } }

/-- `qdma_mbox_send_msg` up to the wait.  `ok` says that the outgoing mailbox was free. -/
def mboxSend (s : VfMbox) (c : ℕ) (m : MboxMsg) (wait ok : Bool) : VfMbox :=
  let m := outgoing m wait
  if !ok then { s with call := Function.update s.call c (.returned (-eagain) m none) }
  else if wait then
    { s with
      mReq := ⟨0, MboxMsg.zero⟩
      call := Function.update s.call c (.waiting m)
      asked := Function.update s.asked c m
      toPf := s.toPf ++ [⟨c, m⟩] }
  else
    { s with
      call := Function.update s.call c .posted
      toPf := s.toPf ++ [⟨c, m⟩] }

/-- `qdma_mbox_send_msg` after the wait. -/
def mboxWaitOver (s : VfMbox) (c : ℕ) : VfMbox :=
  match s.call c with
  | .waiting m =>
      { s with
        call := Function.update s.call c
          (if s.mReq.m.hdr.op = m.hdr.op ∧ s.mReq.m.hdr.ack = true then
            .returned s.mReq.m.hdr.status s.mReq.m (some s.mReq.call)
          else .returned (-etime) m none) }
  | _ => s

/-- The physical function reads message `k`, carries it out and answers.  `status` is
what earlier messages of the same pass left; `sent` says that the answer goes out. -/
def pfAnswer (s : VfMbox) (k src : ℕ) (fates : MsgFates) (status : ℤ) (sent : Bool) : VfMbox :=
  match s.toPf[k]? with
  | none => s
  | some mail =>
      let m := mboxRead src mail.m
      let s := { s with toPf := s.toPf.eraseIdx k }
      if m.hdr.ack then s
      else
        let h := qdmaMboxHandle fates s.pf m
        { s with
          pf := h.s
          toVf :=
            if sent then
              s.toVf ++ [⟨mail.call, respond h.s h.m (nextStatus status h.rv)⟩]
            else s.toVf }

/-- The virtual function's `qdma_mbox_proc` reads answer `k`. -/
def vfReceive (s : VfMbox) (k : ℕ) : VfMbox :=
  match s.toVf[k]? with
  | none => s
  | some mail =>
      let s := { s with toVf := s.toVf.eraseIdx k }
      if mail.m.hdr.ack && mail.m.hdr.wait then { s with mReq := mail } else s

inductive MboxCallEv where
  | send (c : ℕ) (m : MboxMsg) (wait ok : Bool)
  | waitOver (c : ℕ)
  | answer (k src : ℕ) (fates : MsgFates) (status : ℤ) (sent : Bool)
  | receive (k : ℕ)

def mboxCallStep (s : VfMbox) : MboxCallEv → VfMbox
  | .send c m wait ok => mboxSend s c m wait ok
  | .waitOver c => mboxWaitOver s c
  | .answer k src fates status sent => pfAnswer s k src fates status sent
  | .receive k => vfReceive s k

/-- A call is made once and its wait ends once. -/
def mboxCallGuard (s : VfMbox) : MboxCallEv → Prop
  | .send c _ _ _ => s.call c = .idle
  | .waitOver c => ∃ m, s.call c = .waiting m
  | _ => True

def mboxCallSys : System VfMbox MboxCallEv where
  step := mboxCallStep
  guard := mboxCallGuard

/-! ## The property -/

/-- `r` is what the physical function makes of request `m`. -/
def IsAnswer (m r : MboxMsg) : Prop :=
  ∃ src fates pf status, r = respond (qdmaMboxHandle fates pf (mboxRead src m)).s
    (qdmaMboxHandle fates pf (mboxRead src m)).m status

/-- A call that waited and returned a value `≥ 0` has the answer to its own request. -/
def AnswersOwn (s : VfMbox) : Prop :=
  ∀ c rv m answerTo, s.call c = .returned rv m answerTo → 0 ≤ rv →
    answerTo = some c ∧ IsAnswer (s.asked c) m ∧ m.hdr.op = (s.asked c).hdr.op ∧
      (m.hdr.op ≠ mboxOpFmap → m.qid = (s.asked c).qid)

/-- A request with operation `op` for which somebody may wait. -/
def Mail.For (mail : Mail) (op : ℕ) : Prop := mail.m.hdr.wait = true ∧ mail.m.hdr.op = op

/-- Nobody waits for an answer to this operation, and none is on its way. -/
structure VfMbox.Quiet (s : VfMbox) (op : ℕ) : Prop where
  call : ∀ c m, s.call c = .waiting m → m.hdr.op ≠ op
  toPf : ∀ mail ∈ s.toPf, ¬ mail.For op
  toVf : ∀ mail ∈ s.toVf, ¬ mail.For op

/-- A request that is waited for is sent when its operation is quiet. -/
def SendsAlone (s : VfMbox) : MboxCallEv → Prop
  | .send _ m wait ok => wait = true → ok = true → s.Quiet m.hdr.op
  | _ => True

/-! ## Answers -/

/-- Carrying out a request does not change its header, and its second word only for
`MBOX_OP_FMAP`. -/
theorem handle_msg (fates : MsgFates) (s : PfState) (m : MboxMsg) :
    (qdmaMboxHandle fates s m).m.hdr = m.hdr ∧
      (m.hdr.op ≠ mboxOpFmap → (qdmaMboxHandle fates s m).m.raw 1 = m.raw 1) := by
  unfold qdmaMboxHandle
  by_cases h₁ : m.hdr.op = mboxOpHello
  · rw [if_pos h₁]
    exact ⟨rfl, fun _ => rfl⟩
  rw [if_neg h₁]
  by_cases h₂ : m.hdr.op = mboxOpBye
  · rw [if_pos h₂]
    exact ⟨rfl, fun _ => rfl⟩
  rw [if_neg h₂]
  by_cases h₃ : m.hdr.op = mboxOpFmap
  · rw [if_pos h₃]
    refine ⟨?_, fun hne => absurd h₃ hne⟩
    dsimp only
    split
    · rfl
    · rfl
  rw [if_neg h₃]
  by_cases h₄ : m.hdr.op = mboxOpIntrCtxt
  · rw [if_pos h₄]
    exact ⟨rfl, fun _ => rfl⟩
  rw [if_neg h₄]
  by_cases h₅ : m.hdr.op = mboxOpQctxtClr
  · rw [if_pos h₅]
    exact ⟨rfl, fun _ => rfl⟩
  rw [if_neg h₅]
  by_cases h₆ : m.hdr.op = mboxOpQctxtRd
  · rw [if_pos h₆]
    exact ⟨rfl, fun _ => rfl⟩
  rw [if_neg h₆]
  by_cases h₇ : m.hdr.op = mboxOpQctxtWrt
  · rw [if_pos h₇]
    dsimp only
    split
    · exact ⟨rfl, fun _ => rfl⟩
    · exact ⟨rfl, fun _ => rfl⟩
  rw [if_neg h₇]
  exact ⟨rfl, fun _ => rfl⟩

theorem IsAnswer.same {m r : MboxMsg} (h : IsAnswer m r) :
    r.hdr.op = m.hdr.op ∧ r.hdr.wait = m.hdr.wait ∧ (r.hdr.op ≠ mboxOpFmap → r.qid = m.qid) := by
  obtain ⟨src, fates, pf, status, rfl⟩ := h
  obtain ⟨hhdr, hraw⟩ := handle_msg fates pf (mboxRead src m)
  generalize qdmaMboxHandle fates pf (mboxRead src m) = h at hhdr hraw ⊢
  have hop : h.m.hdr.op = m.hdr.op := by
    rw [hhdr]
    rfl
  have hwait : h.m.hdr.wait = m.hdr.wait := by
    rw [hhdr]
    rfl
  refine ⟨hop, hwait, ?_⟩
  intro hne
  have hword : h.m.raw 1 = m.raw 1 := hraw (fun heq => hne (hop.trans heq))
  unfold MboxMsg.qid respond
  rw [hword]

/-! ## The invariant -/

/-- The mail of a call is about its request. -/
structure MailInv (s : VfMbox) : Prop where
  asked : ∀ c m, s.call c = .waiting m → s.asked c = m
  toPf : ∀ mail ∈ s.toPf, mail.m.hdr.wait = true →
    s.call mail.call ≠ .idle ∧ mail.m = s.asked mail.call
  toVf : ∀ mail ∈ s.toVf, mail.m.hdr.wait = true →
    s.call mail.call ≠ .idle ∧ IsAnswer (s.asked mail.call) mail.m
  slot : s.mReq.m.hdr.ack = true →
    s.call s.mReq.call ≠ .idle ∧ IsAnswer (s.asked s.mReq.call) s.mReq.m
  ownPf : ∀ c m, s.call c = .waiting m → ∀ mail ∈ s.toPf, mail.For m.hdr.op → mail.call = c
  ownVf : ∀ c m, s.call c = .waiting m → ∀ mail ∈ s.toVf, mail.For m.hdr.op → mail.call = c
  ownSlot : ∀ c m, s.call c = .waiting m → s.mReq.m.hdr.ack = true →
    s.mReq.m.hdr.op = m.hdr.op → s.mReq.call = c
  answers : AnswersOwn s

theorem MailInv.init (pf : PfState) : MailInv (VfMbox.init pf) where
  asked _ _ h := by cases h
  toPf _ h := by cases h
  toVf _ h := by cases h
  slot h := by cases h
  ownPf _ _ h := by cases h
  ownVf _ _ h := by cases h
  ownSlot _ _ h := by cases h
  answers _ _ _ _ h := by cases h

/-- The place of one call changes, not to a wait. -/
theorem MailInv.setCall {s : VfMbox} (h : MailInv s) {c : ℕ} {v : MboxCall}
    (hidle : v ≠ .idle) (hwait : ∀ m, v ≠ .waiting m)
    (hanswer : ∀ rv m answerTo, v = .returned rv m answerTo → 0 ≤ rv →
      answerTo = some c ∧ IsAnswer (s.asked c) m) :
    MailInv { s with call := Function.update s.call c v } := by
  have hused : ∀ i, s.call i ≠ .idle → Function.update s.call c v i ≠ .idle := by
    intro i hi
    by_cases hic : i = c
    · subst hic
      rw [Function.update_self]
      exact hidle
    · rw [Function.update_of_ne hic]
      exact hi
  have hwaiting : ∀ i m, Function.update s.call c v i = .waiting m → s.call i = .waiting m := by
    intro i m hi
    by_cases hic : i = c
    · subst hic
      rw [Function.update_self] at hi
      exact absurd hi (hwait m)
    · rw [Function.update_of_ne hic] at hi
      exact hi
  refine ⟨?_, ?_, ?_, ?_, ?_, ?_, ?_, ?_⟩
  · exact fun i m hi => h.asked i m (hwaiting i m hi)
  · exact fun mail hm hw => ⟨hused _ (h.toPf mail hm hw).1, (h.toPf mail hm hw).2⟩
  · exact fun mail hm hw => ⟨hused _ (h.toVf mail hm hw).1, (h.toVf mail hm hw).2⟩
  · exact fun hack => ⟨hused _ (h.slot hack).1, (h.slot hack).2⟩
  · exact fun i m hi => h.ownPf i m (hwaiting i m hi)
  · exact fun i m hi => h.ownVf i m (hwaiting i m hi)
  · exact fun i m hi => h.ownSlot i m (hwaiting i m hi)
  · intro i rv m answerTo hi hrv
    change Function.update s.call c v i = .returned rv m answerTo at hi
    by_cases hic : i = c
    · subst hic
      rw [Function.update_self] at hi
      obtain ⟨hself, hans⟩ := hanswer rv m answerTo hi hrv
      exact ⟨hself, hans, hans.same.1, hans.same.2.2⟩
    · rw [Function.update_of_ne hic] at hi
      exact h.answers i rv m answerTo hi hrv

/-! ## The steps keep it -/

theorem MailInv.post {s : VfMbox} (h : MailInv s) {mail : Mail} (hwait : mail.m.hdr.wait = false) :
    MailInv { s with toPf := s.toPf ++ [mail] } := by
  have hmem : ∀ mail' ∈ s.toPf ++ [mail], mail'.m.hdr.wait = true → mail' ∈ s.toPf := by
    intro mail' hm hw
    rcases List.mem_append.mp hm with hm | hm
    · exact hm
    · rw [List.mem_singleton] at hm
      subst hm
      rw [hwait] at hw
      cases hw
  exact ⟨h.asked, fun mail' hm hw => h.toPf mail' (hmem mail' hm hw) hw, h.toVf, h.slot,
    fun c m hc mail' hm hfor => h.ownPf c m hc mail' (hmem mail' hm hfor.1) hfor, h.ownVf, h.ownSlot,
    h.answers⟩

/-- A request that is waited for, on a quiet operation. -/
theorem MailInv.ask {s : VfMbox} (h : MailInv s) {c : ℕ} (hidle : s.call c = .idle) {m : MboxMsg}
    (hquiet : s.Quiet m.hdr.op) :
    MailInv
      { s with
        mReq := ⟨0, MboxMsg.zero⟩
        call := Function.update s.call c (.waiting m)
        asked := Function.update s.asked c m
        toPf := s.toPf ++ [⟨c, m⟩] } := by
  have hother : ∀ i, s.call i ≠ .idle → i ≠ c := by
    rintro i hi rfl
    exact hi hidle
  have hused : ∀ i, s.call i ≠ .idle → Function.update s.call c (.waiting m) i ≠ .idle := by
    intro i hi
    rw [Function.update_of_ne (hother i hi)]
    exact hi
  have hasked : ∀ i, s.call i ≠ .idle → Function.update s.asked c m i = s.asked i := fun i hi =>
    Function.update_of_ne (hother i hi) _ _
  -- a call that waits is the new one or one that waited for another operation
  have hwaiting : ∀ i m', Function.update s.call c (.waiting m) i = .waiting m' →
      i = c ∧ m' = m ∨ i ≠ c ∧ s.call i = .waiting m' ∧ m'.hdr.op ≠ m.hdr.op := by
    intro i m' hi
    by_cases hic : i = c
    · subst hic
      rw [Function.update_self] at hi
      cases hi
      exact Or.inl ⟨rfl, rfl⟩
    · rw [Function.update_of_ne hic] at hi
      exact Or.inr ⟨hic, hi, hquiet.call i m' hi⟩
  refine ⟨?_, ?_, ?_, ?_, ?_, ?_, ?_, ?_⟩
  · intro i m' hi
    change Function.update s.asked c m i = m'
    rcases hwaiting i m' hi with ⟨rfl, rfl⟩ | ⟨hic, hi', -⟩
    · exact Function.update_self ..
    · rw [Function.update_of_ne hic]
      exact h.asked i m' hi'
  · intro mail hm hw
    rcases List.mem_append.mp hm with hm | hm
    · obtain ⟨hne, heq⟩ := h.toPf mail hm hw
      exact ⟨hused _ hne, heq.trans (hasked _ hne).symm⟩
    · rw [List.mem_singleton] at hm
      subst hm
      refine ⟨?_, ?_⟩
      · change Function.update s.call c (.waiting m) c ≠ .idle
        rw [Function.update_self]
        exact MboxCall.noConfusion
      · change m = Function.update s.asked c m c
        rw [Function.update_self]
  · intro mail hm hw
    obtain ⟨hne, hans⟩ := h.toVf mail hm hw
    refine ⟨hused _ hne, ?_⟩
    change IsAnswer (Function.update s.asked c m mail.call) mail.m
    rw [hasked _ hne]
    exact hans
  · intro hack
    cases hack
  · intro i m' hi mail hm hfor
    rcases hwaiting i m' hi with ⟨rfl, rfl⟩ | ⟨-, hi', hop⟩
    · rcases List.mem_append.mp hm with hm | hm
      · exact absurd hfor (hquiet.toPf mail hm)
      · rw [List.mem_singleton] at hm
        rw [hm]
    · rcases List.mem_append.mp hm with hm | hm
      · exact h.ownPf i m' hi' mail hm hfor
      · rw [List.mem_singleton] at hm
        subst hm
        exact absurd hfor.2.symm hop
  · intro i m' hi mail hm hfor
    rcases hwaiting i m' hi with ⟨rfl, rfl⟩ | ⟨-, hi', -⟩
    · exact absurd hfor (hquiet.toVf mail hm)
    · exact h.ownVf i m' hi' mail hm hfor
  · intro i m' _ hack
    cases hack
  · intro i rv m' answerTo hi hrv
    change Function.update s.call c (.waiting m) i = .returned rv m' answerTo at hi
    have hic : i ≠ c := by
      rintro rfl
      rw [Function.update_self] at hi
      cases hi
    rw [Function.update_of_ne hic] at hi
    change answerTo = some i ∧ IsAnswer (Function.update s.asked c m i) m' ∧
      m'.hdr.op = (Function.update s.asked c m i).hdr.op ∧
      (m'.hdr.op ≠ mboxOpFmap → m'.qid = (Function.update s.asked c m i).qid)
    rw [Function.update_of_ne hic]
    exact h.answers i rv m' answerTo hi hrv

theorem MailInv.send {s : VfMbox} (h : MailInv s) {c : ℕ} (hidle : s.call c = .idle) {m : MboxMsg}
    {wait ok : Bool} (hquiet : wait = true → ok = true → s.Quiet m.hdr.op) :
    MailInv (mboxSend s c m wait ok) := by
  have hagain : ¬ 0 ≤ -eagain := by decide
  unfold mboxSend
  cases ok with
  | false =>
      refine h.setCall (by exact MboxCall.noConfusion) (fun _ => by exact MboxCall.noConfusion) ?_
      intro rv m' answerTo heq hrv
      cases heq
      exact absurd hrv hagain
  | true =>
      cases wait with
      | true => exact h.ask hidle (m := outgoing m true) (hquiet rfl rfl)
      | false =>
          have hwait : (outgoing m false).hdr.wait = false := rfl
          refine (h.setCall (v := .posted) (by exact MboxCall.noConfusion)
            (fun _ => by exact MboxCall.noConfusion) ?_).post hwait
          intro rv m' answerTo heq
          cases heq

theorem MailInv.waitOver {s : VfMbox} (h : MailInv s) (c : ℕ) : MailInv (mboxWaitOver s c) := by
  have htime : ¬ 0 ≤ -etime := by decide
  unfold mboxWaitOver
  cases hc : s.call c with
  | idle => exact h
  | posted => exact h
  | returned rv m answerTo => exact h
  | waiting m =>
      dsimp only
      by_cases hmatch : s.mReq.m.hdr.op = m.hdr.op ∧ s.mReq.m.hdr.ack = true
      · rw [if_pos hmatch]
        refine h.setCall (by exact MboxCall.noConfusion) (fun _ => by exact MboxCall.noConfusion) ?_
        intro rv m' answerTo heq _
        cases heq
        have hown := h.ownSlot c m hc hmatch.2 hmatch.1
        refine ⟨by rw [hown], ?_⟩
        rw [← hown]
        exact (h.slot hmatch.2).2
      · rw [if_neg hmatch]
        refine h.setCall (by exact MboxCall.noConfusion) (fun _ => by exact MboxCall.noConfusion) ?_
        intro rv m' answerTo heq hrv
        cases heq
        exact absurd hrv htime

/-- An answer goes from one direction to the other. -/
theorem MailInv.answer {s : VfMbox} (h : MailInv s) (k src : ℕ) (fates : MsgFates) (status : ℤ)
    (sent : Bool) : MailInv (pfAnswer s k src fates status sent) := by
  unfold pfAnswer
  cases hk : s.toPf[k]? with
  | none => exact h
  | some mail =>
      have hmem : mail ∈ s.toPf := List.mem_of_getElem? hk
      have hsub : ∀ mail' ∈ s.toPf.eraseIdx k, mail' ∈ s.toPf := fun mail' hm =>
        List.mem_of_mem_eraseIdx hm
      have hread : MailInv { s with toPf := s.toPf.eraseIdx k } :=
        ⟨h.asked, fun mail' hm => h.toPf mail' (hsub mail' hm), h.toVf, h.slot,
          fun c m hc mail' hm => h.ownPf c m hc mail' (hsub mail' hm), h.ownVf, h.ownSlot, h.answers⟩
      dsimp only
      split
      · exact hread
      · cases sent with
        | false =>
            exact ⟨hread.asked, hread.toPf, hread.toVf, hread.slot, hread.ownPf, hread.ownVf,
              hread.ownSlot, hread.answers⟩
        | true =>
            rw [if_pos rfl]
            have hans : IsAnswer mail.m (respond (qdmaMboxHandle fates s.pf (mboxRead src mail.m)).s
                (qdmaMboxHandle fates s.pf (mboxRead src mail.m)).m
                (nextStatus status (qdmaMboxHandle fates s.pf (mboxRead src mail.m)).rv)) :=
              ⟨src, fates, s.pf, _, rfl⟩
            generalize respond (qdmaMboxHandle fates s.pf (mboxRead src mail.m)).s
              (qdmaMboxHandle fates s.pf (mboxRead src mail.m)).m
              (nextStatus status (qdmaMboxHandle fates s.pf (mboxRead src mail.m)).rv) = r at hans ⊢
            refine ⟨hread.asked, hread.toPf, ?_, hread.slot, hread.ownPf, ?_, hread.ownSlot,
              hread.answers⟩
            · intro mail' hm hw
              rcases List.mem_append.mp hm with hm | hm
              · exact h.toVf mail' hm hw
              · rw [List.mem_singleton] at hm
                subst hm
                obtain ⟨hne, heq⟩ := h.toPf mail hmem (hans.same.2.1 ▸ hw)
                refine ⟨hne, ?_⟩
                change IsAnswer (s.asked mail.call) r
                rw [← heq]
                exact hans
            · intro c m hc mail' hm hfor
              rcases List.mem_append.mp hm with hm | hm
              · exact h.ownVf c m hc mail' hm hfor
              · rw [List.mem_singleton] at hm
                subst hm
                refine h.ownPf c m hc mail hmem ⟨hans.same.2.1 ▸ hfor.1, ?_⟩
                rw [← hans.same.1]
                exact hfor.2

theorem MailInv.receive {s : VfMbox} (h : MailInv s) (k : ℕ) : MailInv (vfReceive s k) := by
  unfold vfReceive
  cases hk : s.toVf[k]? with
  | none => exact h
  | some mail =>
      have hmem : mail ∈ s.toVf := List.mem_of_getElem? hk
      have hsub : ∀ mail' ∈ s.toVf.eraseIdx k, mail' ∈ s.toVf := fun mail' hm =>
        List.mem_of_mem_eraseIdx hm
      have hread : MailInv { s with toVf := s.toVf.eraseIdx k } :=
        ⟨h.asked, h.toPf, fun mail' hm => h.toVf mail' (hsub mail' hm), h.slot, h.ownPf,
          fun c m hc mail' hm => h.ownVf c m hc mail' (hsub mail' hm), h.ownSlot, h.answers⟩
      dsimp only
      split
      · rename_i hboth
        obtain ⟨-, hwait⟩ := Bool.and_eq_true_iff.mp hboth
        exact ⟨hread.asked, hread.toPf, hread.toVf, fun _ => h.toVf mail hmem hwait, hread.ownPf,
          hread.ownVf, fun c m hc _ hop => h.ownVf c m hc mail hmem ⟨hwait, hop⟩, hread.answers⟩
      · exact hread

theorem MailInv.step {s : VfMbox} {e : MboxCallEv} (h : MailInv s) (hg : mboxCallGuard s e)
    (hok : SendsAlone s e) : MailInv (mboxCallStep s e) := by
  cases e with
  | send c m wait ok => exact h.send hg hok
  | waitOver c => exact h.waitOver c
  | answer k src fates status sent => exact h.answer k src fates status sent
  | receive k => exact h.receive k

/-- **A call gets the answer to its own request**, in every run in which a request that
is waited for is sent only while its operation is quiet: any number of calls, any order
of delivery, any waits given up. -/
theorem mailbox_answers_own (pf : PfState) (es : List MboxCallEv)
    (hrun : (mboxCallSys.restrict SendsAlone).Admits (VfMbox.init pf) es) :
    AnswersOwn (mboxCallSys.exec (VfMbox.init pf) es) :=
  ((mboxCallSys.restrict SendsAlone).invariant (fun _ _ h hg => MailInv.step h hg.1 hg.2) es
    (MailInv.init pf) hrun).answers

/-- How a call ended. -/
def MboxCall.result : MboxCall → Option (ℤ × Option ℕ)
  | .returned rv _ answerTo => some (rv, answerTo)
  | _ => none

/-- The physical function answers the first message it has. -/
def answerFirst : MboxCallEv :=
  .answer 0 2
    { clear := fun _ => .completes, clearAgain := fun _ => .completes,
      write := fun _ => .completes, read := fun _ => .completes }
    mboxStatusGood true

/-- Two calls for two operations at once; the second answer arrives first. -/
def twoCallsRun : List MboxCallEv :=
  [.send 0 (bareMsg mboxOpFmap) true true, .send 1 (wordMsg mboxOpQctxtClr 0x400000#32) true true,
    answerFirst, answerFirst, .receive 1, .waitOver 1]

theorem mailbox_answers_own_two_calls :
    ((mboxCallSys.exec (VfMbox.init pfIdle) twoCallsRun).call 1).result = some (0, some 1) ∧
      AnswersOwn (mboxCallSys.exec (VfMbox.init pfIdle) twoCallsRun) := by
  refine ⟨by decide +kernel, mailbox_answers_own pfIdle twoCallsRun ?_⟩
  refine ⟨⟨rfl, fun _ _ => ⟨fun c m h => ?_, fun _ h => ?_, fun _ h => ?_⟩⟩,
    ⟨rfl, fun _ _ => ⟨fun c m h => ?_, fun mail h => ?_, fun _ h => ?_⟩⟩,
    ⟨trivial, trivial⟩, ⟨trivial, trivial⟩, ⟨trivial, trivial⟩, ⟨⟨_, rfl⟩, trivial⟩, trivial⟩
  · cases h
  · cases h
  · cases h
  · -- only the first call waits, for another operation
    by_cases hc : c = 0
    · subst hc
      cases h
      decide
    · change Function.update (fun _ => MboxCall.idle) 0 _ c = .waiting m at h
      rw [Function.update_of_ne hc] at h
      cases h
  · rcases List.mem_singleton.mp h
    exact fun hfor => absurd hfor.2 (by decide)
  · cases h

/-- Two calls for one operation on two queues: the answer to the first arrives when the
second has cleared the slot. -/
def sameOpRun : List MboxCallEv :=
  [.send 0 (wordMsg mboxOpQctxtClr 0x400000#32) true true, answerFirst,
    .send 1 (wordMsg mboxOpQctxtClr 0x410000#32) true true, .receive 0, .waitOver 1]

theorem answer_taken_by_another :
    ¬ ∀ (pf : PfState) (es : List MboxCallEv), mboxCallSys.Admits (VfMbox.init pf) es →
      AnswersOwn (mboxCallSys.exec (VfMbox.init pf) es) := by
  intro hall
  have hown := hall pfIdle sameOpRun ⟨rfl, trivial, rfl, trivial, ⟨_, rfl⟩, trivial⟩
  have hres : ((mboxCallSys.exec (VfMbox.init pfIdle) sameOpRun).call 1).result =
      some (0, some 0) := by decide +kernel
  cases hcall : (mboxCallSys.exec (VfMbox.init pfIdle) sameOpRun).call 1 with
  | idle => rw [hcall] at hres; cases hres
  | waiting m => rw [hcall] at hres; cases hres
  | posted => rw [hcall] at hres; cases hres
  | returned rv m answerTo =>
      rw [hcall] at hres
      cases hres
      exact absurd (hown 1 0 m (some 0) hcall le_rfl).1 (by decide)

end Qdma

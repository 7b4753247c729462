import Qdma.MboxRegs

/-!
# What the registers come to

`qdmaMboxProc` takes a list of messages and works on each in turn, as if nobody else were there.
In the registers the reading of a message is eighteen accesses and the sending of an answer
twenty or more, and the virtual functions go on meanwhile.

The record in `MboxRegs` keeps what was read, call by call.  `PfRecord` says that the physical
function is always where `qdmaMboxLoop` would be after these messages.

It also keeps each call of `mbox_send`, with all that its looks at the bit have shown.
`SendCall.Right` says what such a call may come to: it is busy just where every look of
`hw_monitor_reg` has found the last message still there, and it returns.  What a virtual function
has sent are the messages of its calls that were not busy (`Asked`), and the answers of the
physical function went out or not as its calls returned (`Answered`).  `mailbox_refines` puts all
this together with what `RegsInv` knows of the mailboxes.
-/

namespace Qdma

open Lib

/-! ## The loop, one message at a time -/

/-- What becomes of a request in the log. -/
def MboxIn.entry (status : ℤ) (s : PfState) (x : MboxIn) : MboxLog :=
  let h := qdmaMboxHandle x.fates s (mboxRead x.src x.m)
  { done := h.done, resp := if x.sent then some (respond h.s h.m (nextStatus status h.rv)) else none }

theorem qdmaMboxLoop_ack {status : ℤ} {s : PfState} {x : MboxIn} (rest : List MboxIn)
    (hack : x.m.hdr.ack = true) :
    qdmaMboxLoop status s (x :: rest) = qdmaMboxLoop status s rest := by
  conv_lhs => unfold qdmaMboxLoop
  exact if_pos hack

theorem qdmaMboxLoop_request {status : ℤ} {s : PfState} {x : MboxIn} (rest : List MboxIn)
    (hack : ¬ x.m.hdr.ack = true) :
    qdmaMboxLoop status s (x :: rest) =
      let h := qdmaMboxHandle x.fates s (mboxRead x.src x.m)
      if x.sent && !x.offline then
        let r := qdmaMboxLoop (nextStatus status h.rv) h.s rest
        (x.entry status s :: r.1, r.2)
      else ([x.entry status s], h.s) := by
  conv_lhs => unfold qdmaMboxLoop
  have hask : ¬ (mboxRead x.src x.m).hdr.ack = true := hack
  unfold MboxIn.entry
  dsimp only
  rw [if_neg hask]
  cases hsent : x.sent with
  | false => rfl
  | true =>
      cases hoff : x.offline with
      | false => rfl
      | true => rfl

/-- The loop of a call has come through the messages `xs`. -/
def LoopedThrough (s₀ : PfState) (xs : List MboxIn) (status : ℤ) (s : PfState)
    (log : List MboxLog) : Prop :=
  ∀ rest, qdmaMboxLoop mboxStatusGood s₀ (xs ++ rest) =
    (log ++ (qdmaMboxLoop status s rest).1, (qdmaMboxLoop status s rest).2)

namespace LoopedThrough

variable {s₀ s : PfState} {xs : List MboxIn} {status : ℤ} {log : List MboxLog} {x : MboxIn}

theorem start (s : PfState) : LoopedThrough s [] mboxStatusGood s [] := fun _ => rfl

/-- The loop ends here. -/
theorem ended (h : LoopedThrough s₀ xs status s log) : qdmaMboxProc s₀ xs = (log, s) := by
  have hend := h []
  rw [List.append_nil] at hend
  refine hend.trans ?_
  change (log ++ [], s) = (log, s)
  rw [List.append_nil]

theorem ack (h : LoopedThrough s₀ xs status s log) (hack : x.m.hdr.ack = true) :
    LoopedThrough s₀ (xs ++ [x]) status s log := by
  intro rest
  rw [List.append_assoc, h]
  change (log ++ (qdmaMboxLoop status s (x :: rest)).1, (qdmaMboxLoop status s (x :: rest)).2) = _
  rw [qdmaMboxLoop_ack rest hack]

/-- The answer went out, and the loop goes on. -/
theorem answered (h : LoopedThrough s₀ xs status s log) (hack : ¬ x.m.hdr.ack = true)
    (hon : (x.sent && !x.offline) = true) :
    LoopedThrough s₀ (xs ++ [x])
      (nextStatus status (qdmaMboxHandle x.fates s (mboxRead x.src x.m)).rv)
      (qdmaMboxHandle x.fates s (mboxRead x.src x.m)).s (log ++ [x.entry status s]) := by
  intro rest
  rw [List.append_assoc, h]
  change (log ++ (qdmaMboxLoop status s (x :: rest)).1, (qdmaMboxLoop status s (x :: rest)).2) = _
  rw [qdmaMboxLoop_request rest hack]
  dsimp only
  rw [if_pos hon, List.append_assoc]
  rfl

/-- The loop ends after this message. -/
theorem last (h : LoopedThrough s₀ xs status s log) (hack : ¬ x.m.hdr.ack = true)
    (hoff : ¬ (x.sent && !x.offline) = true) :
    qdmaMboxProc s₀ (xs ++ [x]) =
      (log ++ [x.entry status s], (qdmaMboxHandle x.fates s (mboxRead x.src x.m)).s) := by
  refine (h [x]).trans ?_
  rw [qdmaMboxLoop_request [] hack]
  dsimp only
  rw [if_neg hoff]

end LoopedThrough

/-! ## Calls -/

/-- The physical function after some calls of `qdma_mbox_proc`. -/
def pfAfter : PfState → List (List MboxIn) → PfState
  | s, [] => s
  | s, xs :: rest => pfAfter (qdmaMboxProc s xs).2 rest

theorem pfAfter_concat (calls : List (List MboxIn)) (xs : List MboxIn) (s : PfState) :
    pfAfter s (calls ++ [xs]) = (qdmaMboxProc (pfAfter s calls) xs).2 := by
  induction calls generalizing s with
  | nil => rfl
  | cons ys calls ih => exact ih _

theorem qdmaMboxProcs_concat (calls : List (List MboxIn)) (xs : List MboxIn) (s : PfState) :
    qdmaMboxProcs s (calls ++ [xs]) =
      qdmaMboxProcs s calls ++ [(qdmaMboxProc (pfAfter s calls) xs).1] := by
  induction calls generalizing s with
  | nil => rfl
  | cons ys calls ih => exact congrArg _ (ih _)

/-- What was read from `v`. -/
def requestsOf (v : FuncId) (xs : List MboxIn) : List MboxMsg :=
  (xs.filter fun x => x.src = v.val).map fun x => x.m

/-- The answers to `v` in a log. -/
def answersTo (v : FuncId) (log : List MboxLog) : List MboxMsg :=
  (log.filterMap fun e => e.resp).filter fun m => m.target = v

theorem requestsOf_append (v : FuncId) (xs ys : List MboxIn) :
    requestsOf v (xs ++ ys) = requestsOf v xs ++ requestsOf v ys := by
  unfold requestsOf
  rw [List.filter_append, List.map_append]

theorem answersTo_append (v : FuncId) (log log' : List MboxLog) :
    answersTo v (log ++ log') = answersTo v log ++ answersTo v log' := by
  unfold answersTo
  rw [List.filterMap_append, List.filter_append]

/-- How a message is handled does not show in what was read. -/
theorem requestsOf_hand (v : FuncId) (x : MboxIn) (sent offline : Bool) :
    requestsOf v [{ x with sent := sent, offline := offline }] = requestsOf v [x] := by
  unfold requestsOf
  rw [List.filter_cons, List.filter_cons]
  split
  · rfl
  · rfl

theorem requestsOf_self {v : FuncId} {x : MboxIn} (h : x.src = v) : requestsOf v [x] = [x.m] := by
  have hkeep : ([x].filter fun x => x.src = v.val) = [x] :=
    List.filter_cons_of_pos (decide_eq_true h)
  unfold requestsOf
  rw [hkeep]
  rfl

theorem requestsOf_other {v : FuncId} {x : MboxIn} (h : x.src ≠ v) : requestsOf v [x] = [] := by
  have hdrop : ([x].filter fun x => x.src = v.val) = [] :=
    List.filter_cons_of_neg (by simp [h])
  unfold requestsOf
  rw [hdrop]
  rfl

/-! ## The physical function's record -/

/-- A request that is being answered with `m`. -/
structure InHand (s : PfState) (status : ℤ) (x : MboxIn) (s' : PfState) (status' : ℤ)
    (m : MboxMsg) : Prop where
  ask : ¬ x.m.hdr.ack = true
  pf : s' = (qdmaMboxHandle x.fates s (mboxRead x.src x.m)).s
  status : status' = nextStatus status (qdmaMboxHandle x.fates s (mboxRead x.src x.m)).rv
  m : m = respond s' (qdmaMboxHandle x.fates s (mboxRead x.src x.m)).m status'

/-- Where the physical function is in the loop, after `calls` calls and the messages `cur`. -/
def PfPc.InLoop (s₀ : PfState) (cur : List MboxIn) (s : PfState) (log : List MboxLog) :
    PfPc → Prop
  | .idle => cur = [] ∧ log = [] ∧ s = s₀
  | .status st | .read st _ _ => LoopedThrough s₀ cur st s log
  | .send st m x _ => ∃ st' s', LoopedThrough s₀ cur st' s' log ∧ InHand s' st' x s st m

/-- The request that is being answered. -/
def PfPc.hand : PfPc → List MboxIn
  | .send _ _ hand _ => [hand]
  | _ => []

/-- What the record says of the physical function and of both logs of the mailboxes. -/
structure PfRecord (pf : PfState) (s : MboxRegs) (log : List MboxLog) : Prop where
  loop : s.pfPc.InLoop (pfAfter pf s.calls) s.cur s.pf log
  reads : ∀ v, requestsOf v (s.calls.flatten ++ s.cur ++ s.pfPc.hand) =
    (s.up v).rcvd.map MboxMsg.ofRegs
  answers : ∀ v, (answersTo v ((qdmaMboxProcs pf s.calls).flatten ++ log)).map MboxMsg.outRegs =
    (s.down v).sent

theorem PfRecord.init (pf : PfState) : PfRecord pf (MboxRegs.init pf) [] where
  loop := ⟨rfl, rfl, rfl⟩
  reads _ := rfl
  answers _ := rfl

section Step

variable {pf : PfState} {s s' : MboxRegs} {log log' : List MboxLog}

/-- Nothing is read and nothing is answered. -/
theorem PfRecord.same (h : PfRecord pf s log) (hcalls : s'.calls = s.calls) (hcur : s'.cur = s.cur)
    (hhand : s'.pfPc.hand = s.pfPc.hand)
    (hloop : s'.pfPc.InLoop (pfAfter pf s.calls) s.cur s'.pf log)
    (hup : ∀ v, (s'.up v).rcvd = (s.up v).rcvd) (hdown : ∀ v, (s'.down v).sent = (s.down v).sent) :
    PfRecord pf s' log where
  loop := by
    rw [hcalls, hcur]
    exact hloop
  reads v := by
    rw [hcalls, hcur, hhand, hup]
    exact h.reads v
  answers v := by
    rw [hcalls, hdown]
    exact h.answers v

/-- A call is over. -/
theorem PfRecord.ended {pf' : PfState} {xs : List MboxIn} {target : FuncId}
    {down : FuncId → MboxSlot} {answers : List SendCall}
    (hproc : qdmaMboxProc (pfAfter pf s.calls) xs = (log, pf'))
    (hreads : ∀ v, requestsOf v (s.calls.flatten ++ xs) = (s.up v).rcvd.map MboxMsg.ofRegs)
    (hanswers : ∀ v, (answersTo v ((qdmaMboxProcs pf s.calls).flatten ++ log)).map MboxMsg.outRegs =
      (down v).sent) :
    PfRecord pf
      { s with
        target := target
        down := down
        pf := pf'
        pfPc := .idle
        answers := answers
        calls := s.calls ++ [xs]
        cur := [] } [] where
  loop := by
    refine ⟨rfl, rfl, ?_⟩
    change pf' = pfAfter pf (s.calls ++ [xs])
    rw [pfAfter_concat, hproc]
  reads v := by
    change requestsOf v ((s.calls ++ [xs]).flatten ++ [] ++ []) = _
    rw [List.flatten_append, List.flatten_singleton, List.append_nil, List.append_nil]
    exact hreads v
  answers v := by
    change (answersTo v ((qdmaMboxProcs pf (s.calls ++ [xs])).flatten ++ [])).map _ = _
    rw [qdmaMboxProcs_concat, hproc, List.flatten_append, List.flatten_singleton, List.append_nil]
    exact hanswers v

/-- A message more has been read. -/
theorem reads_concat {src : FuncId} {words : List (BitVec 32)} {x : MboxIn} {xs : List MboxIn}
    {up : FuncId → MboxSlot} (hsrc : x.src = src.val) (hm : x.m = MboxMsg.ofRegs words)
    (h : ∀ v, requestsOf v xs = (up v).rcvd.map MboxMsg.ofRegs) (v : FuncId) :
    requestsOf v (xs ++ [x]) =
      (Function.update up src ((up src).take words) v).rcvd.map MboxMsg.ofRegs := by
  rw [requestsOf_append, h v]
  rcases eq_or_ne v src with rfl | hne
  · rw [requestsOf_self hsrc, hm, Function.update_self]
    change _ = ((up v).rcvd ++ [words]).map MboxMsg.ofRegs
    rw [List.map_append]
    rfl
  · have hother : x.src ≠ v.val := fun heq => hne (Fin.ext (heq.symm.trans hsrc))
    rw [requestsOf_other hother, List.append_nil, Function.update_of_ne hne]

/-- An answer more has been sent. -/
theorem answers_concat {m : MboxMsg} {done : Bool} {down : FuncId → MboxSlot}
    (h : ∀ v, (answersTo v log).map MboxMsg.outRegs = (down v).sent) (v : FuncId) :
    (answersTo v (log ++ [{ done := done, resp := some m }])).map MboxMsg.outRegs =
      (Function.update down m.target ((down m.target).post m.outRegs) v).sent := by
  rw [answersTo_append, List.map_append, h v]
  rcases eq_or_ne v m.target with rfl | hne
  · rw [Function.update_self]
    have hself : answersTo m.target [{ done := done, resp := some m }] = [m] :=
      List.filter_cons_of_pos (decide_eq_true rfl)
    rw [hself]
    rfl
  · have hother : answersTo v [{ done := done, resp := some m }] = [] :=
      List.filter_cons_of_neg (by simp [hne.symm])
    rw [hother, Function.update_of_ne hne]
    exact List.append_nil _

/-- An answer that was not sent is in the log, and nowhere else. -/
theorem answers_lost {done : Bool} (v : FuncId) :
    answersTo v (log ++ [{ done := done, resp := none }]) = answersTo v log := by
  rw [answersTo_append]
  exact List.append_nil _

/-- A message is read. -/
theorem PfRecord.got (h : PfRecord pf s log) {status : ℤ} {src : FuncId} {pc : ReadPc}
    {words : List (BitVec 32)} {fates : MsgFates} (hpc : s.pfPc = .read status src pc) :
    PfRecord pf
      (pfGot { s with target := src, up := Function.update s.up src ((s.up src).take words) }
        status src words fates) log := by
  have hloop := h.loop
  rw [hpc] at hloop
  have hreads : ∀ v, requestsOf v (s.calls.flatten ++ s.cur) =
      (s.up v).rcvd.map MboxMsg.ofRegs := by
    intro v
    have hv := h.reads v
    rw [hpc] at hv
    exact (congrArg (requestsOf v) (List.append_nil _)).symm.trans hv
  let x : MboxIn :=
    { src := src, m := MboxMsg.ofRegs words, fates := fates, sent := false, offline := false }
  have hnew := reads_concat (x := x) rfl rfl hreads
  unfold pfGot
  dsimp only
  split
  case isTrue hack =>
    refine ⟨LoopedThrough.ack hloop hack, fun v => ?_, h.answers⟩
    change requestsOf v (s.calls.flatten ++ (s.cur ++ [x]) ++ []) = _
    rw [List.append_nil, ← List.append_assoc]
    exact hnew v
  case isFalse hack =>
    exact ⟨⟨status, s.pf, hloop, hack, rfl, rfl, rfl⟩, hnew, h.answers⟩

/-- `mbox_send` has returned. -/
theorem PfRecord.sent (h : PfRecord pf s log) {status : ℤ} {m : MboxMsg} {hand : MboxIn}
    {pc : SendPc} {offline : Bool} (down : FuncId → MboxSlot) (answers : List SendCall)
    (sent : Bool) (hpc : s.pfPc = .send status m hand pc)
    (hdown : down = if sent then Function.update s.down m.target ((s.down m.target).post m.outRegs)
      else s.down) :
    ∃ log', PfRecord pf
      (pfSent { s with target := m.target, down := down, answers := answers } status hand sent
        offline) log' := by
  have hloop := h.loop
  rw [hpc] at hloop
  obtain ⟨status', s', hthrough, hin⟩ := hloop
  let x : MboxIn := { hand with sent := sent, offline := offline }
  have hread : ∀ v, requestsOf v (s.calls.flatten ++ (s.cur ++ [x])) =
      (s.up v).rcvd.map MboxMsg.ofRegs := by
    intro v
    have hv := h.reads v
    rw [hpc] at hv
    rw [← hv, ← List.append_assoc, requestsOf_append, requestsOf_append _ _ (PfPc.hand _)]
    exact congrArg _ (requestsOf_hand v hand sent offline)
  have hentry : x.entry status' s' =
      { done := (qdmaMboxHandle hand.fates s' (mboxRead hand.src hand.m)).done
        resp := if sent then some m else none } := by
    rw [hin.m, hin.pf, hin.status]
    rfl
  have hanswers : ∀ v, (answersTo v ((qdmaMboxProcs pf s.calls).flatten ++
      (log ++ [x.entry status' s']))).map MboxMsg.outRegs = (down v).sent := by
    intro v
    rw [← List.append_assoc, hentry, hdown]
    cases sent with
    | true => exact answers_concat h.answers v
    | false =>
        refine (congrArg _ (answers_lost v)).trans ?_
        exact h.answers v
  unfold pfSent
  split
  case isTrue hon =>
    refine ⟨log ++ [x.entry status' s'], ?_, fun v => ?_, hanswers⟩
    · have hnext := hthrough.answered (x := x) hin.ask hon
      change LoopedThrough _ (s.cur ++ [x]) status s.pf _
      rw [hin.pf, hin.status]
      exact hnext
    · change requestsOf v (s.calls.flatten ++ (s.cur ++ [x]) ++ []) = _
      rw [List.append_nil]
      exact hread v
  case isFalse hoff =>
    refine ⟨[], ?_⟩
    have hproc := hthrough.last (x := x) hin.ask hoff
    have hpf : s.pf = (qdmaMboxHandle x.fates s' (mboxRead x.src x.m)).s := hin.pf
    rw [← hpf] at hproc
    exact PfRecord.ended hproc hread hanswers

theorem PfRecord.step {pick : Option FuncId} {fates : MsgFates} {offline : Bool}
    (h : PfRecord pf s log) (hs : PfStep s pick fates offline s') :
    ∃ log', PfRecord pf s' log' := by
  have hloop := h.loop
  cases hs with
  | idle hpc => exact ⟨log, h⟩
  | ended hpc =>
      rw [hpc] at hloop
      refine ⟨[], PfRecord.ended (LoopedThrough.ended hloop) (fun v => ?_) h.answers⟩
      have hv := h.reads v
      rw [hpc] at hv
      exact (congrArg (requestsOf v) (List.append_nil _)).symm.trans hv
  | pick hpc hset =>
      rw [hpc] at hloop
      refine ⟨log, h.same rfl rfl ?_ hloop (fun _ => rfl) (fun _ => rfl)⟩
      rw [hpc]
      rfl
  | read hpc hok hpc' =>
      rw [hpc] at hloop
      refine ⟨log, h.same rfl rfl ?_ hloop (fun _ => rfl) (fun _ => rfl)⟩
      rw [hpc]
      rfl
  | got hpc hr => exact ⟨log, h.got hpc⟩
  | @send status m hand pc pc' out hpc hmove hsent hok hpc' answers =>
      rw [hpc] at hloop
      refine ⟨log, h.same rfl rfl ?_ hloop (fun _ => rfl) (fun v => ?_)⟩
      · rw [hpc]
        rfl
      · change (Function.update s.down m.target out v).sent = _
        rcases eq_or_ne v m.target with rfl | hne
        · rw [Function.update_self, hsent]
        · rw [Function.update_of_ne hne]
  | sent hpc hw answers => exact h.sent _ answers true hpc rfl
  | busy hpc answers => exact h.sent s.down answers false hpc rfl

/-- What a virtual function does is not in the record. -/
theorem PfRecord.vfMoved (h : PfRecord pf s log) (hm : VfMoved s s') : PfRecord pf s' log := by
  refine h.same hm.calls hm.cur ?_ ?_ (fun v => (hm.up v).rcvd) (fun v => (hm.down v).sent)
  · rw [hm.pfPc]
  · rw [hm.pfPc, hm.pf]
    exact h.loop

end Step

/-! ## Calls of `mbox_send` -/

/-- What a call may come to: it is busy just where all its looks have shown a message, and it does
not go on for ever. -/
structure SendCall.Right (c : SendCall) : Prop where
  busy : c.ret = some false ↔ c.looks = List.replicate (mboxPolls + 1) true
  returns : mboxPolls + 20 ≤ c.steps → c.ret ≠ none

/-- The call has returned. -/
def SendCall.Over (c : SendCall) : Prop := c.Right ∧ c.ret ≠ none

/-- What was sent in these calls. -/
def sentIn (calls : List SendCall) : List (List (BitVec 32)) :=
  (calls.filter fun c => c.ret = some true).map fun c => c.m.outRegs

/-- Whether each of them has sent. -/
def haveSent (calls : List SendCall) : List Bool := calls.map fun c => c.ret = some true

/-- How many accesses there may be still. -/
def SendPc.left : SendPc → ℕ
  | .target => mboxPolls + 20
  | .poll count => count + 19
  | .check => 18
  | .reg i => mboxMsgRegMax - i + 1
  | .cmd => 1

theorem SendPc.left_pos (pc : SendPc) : 0 < pc.left := by
  cases pc with
  | target => exact Nat.succ_pos _
  | poll count => exact Nat.succ_pos _
  | check => exact Nat.succ_pos _
  | reg i => exact Nat.succ_pos _
  | cmd => exact Nat.succ_pos _

/-- The looks that lead here. -/
def SendPc.Seen (looks : List Bool) : SendPc → Prop
  | .target => looks = []
  | .poll count => ∃ seen, looks = List.replicate seen true ∧ seen + count = mboxPolls
  | .check | .reg _ | .cmd => false ∈ looks

/-- The call with `m` is at `pc`. -/
structure SendCall.At (m : MboxMsg) (pc : SendPc) (c : SendCall) : Prop where
  m : c.m = m
  ret : c.ret = none
  seen : pc.Seen c.looks
  steps : c.steps + pc.left ≤ mboxPolls + 20

theorem not_all_full {looks : List Bool} {n : ℕ} (h : false ∈ looks) :
    looks ≠ List.replicate n true := by
  rintro rfl
  exact Bool.noConfusion (List.eq_of_mem_replicate h)

namespace SendCall

variable {m : MboxMsg} {pc : SendPc} {c : SendCall} {out : MboxSlot}

theorem Right.of_ret {sent : Bool} (hret : c.ret = some sent)
    (hlooks : sent = false ↔ c.looks = List.replicate (mboxPolls + 1) true) : c.Right where
  busy := by
    rw [hret, Option.some.injEq]
    exact hlooks
  returns _ := by
    rw [hret]
    exact Option.some_ne_none _

theorem at_target (m : MboxMsg) : At m .target (start m) :=
  ⟨rfl, rfl, rfl, le_of_eq (Nat.zero_add _)⟩

/-- A virtual function has no target to set. -/
theorem at_poll (m : MboxMsg) : At m (.poll mboxPolls) (start m) := by
  refine ⟨rfl, rfl, ⟨0, rfl, Nat.zero_add _⟩, ?_⟩
  change 0 + (mboxPolls + 19) ≤ mboxPolls + 20
  omega

theorem At.right (h : At m pc c) : c.Right where
  busy := by
    rw [h.ret]
    refine ⟨fun hret => absurd hret.symm (Option.some_ne_none _), fun hall => ?_⟩
    have hseen := h.seen
    cases pc with
    | target =>
        rw [show c.looks = [] from hseen] at hall
        exact absurd hall (by simp)
    | poll count =>
        obtain ⟨seen, hlooks, hcount⟩ := hseen
        have hlen := congrArg List.length (hlooks.symm.trans hall)
        rw [List.length_replicate, List.length_replicate] at hlen
        omega
    | check => exact absurd hall (not_all_full hseen)
    | reg i => exact absurd hall (not_all_full hseen)
    | cmd => exact absurd hall (not_all_full hseen)
  returns hsteps := by
    have hleft := h.steps
    have hpos := pc.left_pos
    omega

/-- A look at the bit. -/
theorem next_looks (hlook : pc.looks = true) : (c.next out pc).looks = c.looks ++ [out.full] :=
  if_pos hlook

/-- Another access. -/
theorem next_looks_same (hlook : pc.looks = false) : (c.next out pc).looks = c.looks :=
  if_neg (Bool.eq_false_iff.mp hlook)

/-- The call goes on. -/
theorem At.goes (h : At m pc c) {pc' : SendPc}
    (hr : (mboxSendRegs m.outRegs out pc).2 = .inl pc') (hseen : pc'.Seen (c.next out pc).looks)
    (hleft : pc'.left < pc.left) : At m pc' (c.next out pc) where
  m := h.m
  ret := by
    unfold next
    dsimp only
    rw [h.m, hr]
  seen := hseen
  steps := by
    have hsteps := h.steps
    change c.steps + 1 + pc'.left ≤ _
    omega

theorem At.returned (h : At m pc c) {sent : Bool}
    (hr : (mboxSendRegs m.outRegs out pc).2 = .inr sent) : (c.next out pc).ret = some sent := by
  unfold next
  dsimp only
  rw [h.m, hr]

/-- One access: the call goes on, or it has returned and is right. -/
theorem At.next (h : At m pc c) (hok : SendOk m.outRegs out pc) :
    (∃ pc', (mboxSendRegs m.outRegs out pc).2 = .inl pc' ∧ At m pc' (c.next out pc)) ∨
      ∃ sent, (mboxSendRegs m.outRegs out pc).2 = .inr sent ∧
        (c.next out pc).ret = some sent ∧ (c.next out pc).Right := by
  have hseen := h.seen
  cases pc with
  | target =>
      refine Or.inl ⟨_, rfl, h.goes rfl ?_ (Nat.lt_succ_self _)⟩
      rw [next_looks_same rfl]
      exact ⟨0, hseen, Nat.zero_add _⟩
  | poll count =>
      obtain ⟨seen, hlooks, hcount⟩ := hseen
      have hlook : (c.next out (.poll count)).looks = List.replicate seen true ++ [out.full] := by
        rw [next_looks rfl, hlooks]
      cases hfull : out.full with
      | false =>
          have hr : (mboxSendRegs m.outRegs out (.poll count)).2 = .inl .check := by
            cases count with
            | zero => exact if_neg (Bool.eq_false_iff.mp hfull)
            | succ count => exact congrArg Sum.inl (if_neg (Bool.eq_false_iff.mp hfull))
          refine Or.inl ⟨_, hr, h.goes hr ?_ (Nat.lt_add_left _ (by decide))⟩
          rw [hlook, hfull]
          exact List.mem_append_right _ (List.mem_singleton_self _)
      | true =>
          rw [hfull, ← List.replicate_succ'] at hlook
          cases count with
          | zero =>
              have hr : (mboxSendRegs m.outRegs out (.poll 0)).2 = .inr false := if_pos hfull
              have hret := h.returned hr
              refine Or.inr ⟨_, hr, hret, .of_ret hret ⟨fun _ => ?_, fun _ => rfl⟩⟩
              rw [hlook, ← hcount]
          | succ count =>
              have hr : (mboxSendRegs m.outRegs out (.poll (count + 1))).2 = .inl (.poll count) :=
                congrArg Sum.inl (if_pos hfull)
              refine Or.inl ⟨_, hr, h.goes hr ⟨seen + 1, hlook, by omega⟩ ?_⟩
              exact Nat.add_lt_add_right (Nat.lt_succ_self _) _
  | check =>
      -- nobody but this call can have filled the mailbox meanwhile
      have hclear : out.full = false := hok
      have hr : (mboxSendRegs m.outRegs out .check).2 = .inl (.reg 0) :=
        if_neg (Bool.eq_false_iff.mp hclear)
      refine Or.inl ⟨_, hr, h.goes hr ?_ (by decide)⟩
      rw [next_looks rfl]
      exact List.mem_append_left _ hseen
  | reg i =>
      obtain ⟨hi, -⟩ := hok
      refine Or.inl ⟨_, rfl, h.goes rfl ?_ ?_⟩
      · rw [next_looks_same rfl]
        split
        · exact hseen
        · exact hseen
      · change (if i + 1 < mboxMsgRegMax then SendPc.reg (i + 1) else .cmd).left <
          mboxMsgRegMax - i + 1
        split
        · change mboxMsgRegMax - (i + 1) + 1 < _
          omega
        · change 1 < _
          omega
  | cmd =>
      have hret : (c.next out .cmd).ret = some true := h.returned rfl
      refine Or.inr ⟨_, rfl, hret, .of_ret hret ⟨Bool.noConfusion, fun hall => ?_⟩⟩
      rw [next_looks_same rfl] at hall
      exact absurd hall (not_all_full hseen)

end SendCall

/-- The calls of `mbox_send` have returned but for the one in hand, and `b` is what those that have
returned come to. -/
def CallsKept {β : Type} (view : List SendCall → β) (b : β) (calls : List SendCall) :
    Option (MboxMsg × SendPc) → Prop
  | none => (∀ c ∈ calls, c.Over) ∧ b = view calls
  | some (m, pc) => ∃ past c, calls = past ++ [c] ∧ c.At m pc ∧ (∀ c ∈ past, c.Over) ∧ b = view past

section Calls

variable {β : Type} {view : List SendCall → β} {b : β} {calls : List SendCall}
  {hand : Option (MboxMsg × SendPc)}

theorem CallsKept.right (h : CallsKept view b calls hand) : ∀ c ∈ calls, c.Right := by
  intro c hc
  cases hand with
  | none => exact (h.1 c hc).1
  | some at' =>
      obtain ⟨past, c', rfl, hat, hpast, -⟩ := h
      rcases List.mem_append.mp hc with hold | hnew
      · exact (hpast c hold).1
      · rw [List.mem_singleton.mp hnew]
        exact hat.right

/-- A call begins. -/
theorem CallsKept.begin (h : CallsKept view b calls none) {m : MboxMsg} {pc : SendPc}
    (hat : (SendCall.start m).At m pc) :
    CallsKept view b (calls ++ [.start m]) (some (m, pc)) :=
  ⟨calls, _, rfl, hat, h.1, h.2⟩

/-- One access of the call in hand. -/
theorem CallsKept.next {m : MboxMsg} {pc : SendPc} {out : MboxSlot}
    (h : CallsKept view b calls (some (m, pc))) (hok : SendOk m.outRegs out pc) :
    (∃ pc', (mboxSendRegs m.outRegs out pc).2 = .inl pc' ∧
      CallsKept view b (calls.modifyLast (SendCall.next out pc)) (some (m, pc'))) ∨
      ∃ sent past c, (mboxSendRegs m.outRegs out pc).2 = .inr sent ∧ b = view past ∧ c.m = m ∧
        c.ret = some sent ∧ calls.modifyLast (SendCall.next out pc) = past ++ [c] ∧
        ∀ c ∈ calls.modifyLast (SendCall.next out pc), c.Over := by
  obtain ⟨past, c, rfl, hat, hpast, hb⟩ := h
  rw [List.modifyLast_concat]
  rcases hat.next hok with ⟨pc', hr, hat'⟩ | ⟨sent, hr, hret, hright⟩
  · exact Or.inl ⟨pc', hr, past, _, rfl, hat', hpast, hb⟩
  · refine Or.inr ⟨sent, past, c.next out pc, hr, hb, hat.m, hret, rfl, fun c' hc' => ?_⟩
    rcases List.mem_append.mp hc' with hold | hnew
    · exact hpast c' hold
    · rw [List.mem_singleton.mp hnew]
      exact ⟨hright, hret ▸ Option.some_ne_none _⟩

end Calls

/-! ## The calls of a virtual function -/

/-- The call of `mbox_send` it is in. -/
def VfPc.call : VfPc → Option (MboxMsg × SendPc)
  | .send m _ pc => some (m, pc)
  | _ => none

/-- What the calls of a virtual function want to send. -/
def callsOf (v : FuncId) (es : List MboxRegsEv) : List MboxMsg :=
  es.filterMap fun
    | .vfSend u m wait => if u = v then some (outgoing m wait) else none
    | _ => none

/-- The messages of the calls that have sent theirs are what is sent. -/
def VfPc.Asked (up : MboxSlot) (asked : List SendCall) (pc : VfPc) : Prop :=
  CallsKept sentIn up.sent asked pc.call

theorem sentIn_concat (calls : List SendCall) (c : SendCall) :
    sentIn (calls ++ [c]) = sentIn calls ++ if c.ret = some true then [c.m.outRegs] else [] := by
  unfold sentIn
  rw [List.filter_append, List.map_append]
  congr 1
  split
  case isTrue hret =>
    rw [List.filter_cons_of_pos (by simp [hret])]
    rfl
  case isFalse hret =>
    rw [List.filter_cons_of_neg (by simp [hret])]
    rfl

/-- The call in hand has sent nothing. -/
theorem CallsKept.sentIn {sent : List (List (BitVec 32))} {calls : List SendCall}
    {hand : Option (MboxMsg × SendPc)} (h : CallsKept sentIn sent calls hand) :
    sent = Qdma.sentIn calls := by
  cases hand with
  | none => exact h.2
  | some at' =>
      obtain ⟨past, c, rfl, hat, -, hsent⟩ := h
      rw [sentIn_concat, hat.ret, if_neg (Option.some_ne_none _).symm, List.append_nil]
      exact hsent

theorem vfAccess_asked {up down : MboxSlot} {a : VfSide} {asked : List SendCall} (offline : Bool)
    (hok : VfOk up down a.pc)
    (hack : ∀ words, down.Reading mboxMsgRegMax mboxMsgRegMax words →
      (MboxMsg.ofRegs words).hdr.ack = true)
    (h : a.pc.Asked up asked) :
    (vfAccess up down a offline).2.2.pc.Asked (vfAccess up down a offline).1
      (a.pc.recorded up asked) := by
  unfold vfAccess
  cases hpc : a.pc with
  | initRead =>
      rw [hpc] at h
      change VfPc.Asked up asked (if down.full = true then .free else .initAck)
      split
      · exact h
      · exact h
  | initAck =>
      rw [hpc] at h
      exact h
  | free =>
      rw [hpc] at h
      change VfPc.Asked up asked a.pc
      rw [hpc]
      exact h
  | status status =>
      rw [hpc] at h
      change VfPc.Asked up asked (if down.full = true then .read status (.reg []) else .free)
      split
      · exact h
      · exact h
  | read status pc =>
      rw [hpc] at hok h
      have hstep := mboxReadRegs_step hok
      dsimp only
      generalize mboxReadRegs down pc = r at hstep
      cases hstep with
      | on hok' hpc' => exact h
      | got hr =>
          unfold VfPc.Asked
          rcases vfGot_pc (a := a) status (hack _ hr) with hfree | hstatus
          · exact hfree ▸ h
          · exact hstatus ▸ h
  | send m proc pc =>
      rw [hpc] at hok h
      obtain ⟨rfl, -, hsend⟩ := hok
      have hnext := CallsKept.next h hsend
      have hstep := mboxSendRegs_step (length_outRegs m) hsend
      dsimp only
      change VfPc.Asked _ (asked.modifyLast _) _
      generalize mboxSendRegs m.outRegs up pc = r at hstep hnext
      cases hstep with
      | @on out pc' hmove hsent hok' hpc' =>
          rcases hnext with ⟨pc'', hr, hkept⟩ | ⟨sent, past, c, hr, -⟩
          · cases hr
            change CallsKept Qdma.sentIn out.sent _ _
            rw [hsent]
            exact hkept
          · cases hr
      | sent hw =>
          rcases hnext with ⟨pc'', hr, -⟩ | ⟨sent, past, c, hr, hsent, hm, hret, hcalls, hpast⟩
          · cases hr
          · cases hr
            refine ⟨hpast, ?_⟩
            change up.sent ++ [m.outRegs] = _
            rw [hcalls, sentIn_concat, hret, if_pos rfl, hm, hsent]
      | busy hfull =>
          rcases hnext with ⟨pc'', hr, -⟩ | ⟨sent, past, c, hr, hsent, hm, hret, hcalls, hpast⟩
          · cases hr
          · cases hr
            refine ⟨hpast, ?_⟩
            change up.sent = _
            rw [hcalls, sentIn_concat, hret, if_neg (by decide), List.append_nil, hsent]

/-- What a call wants to send does not change while it does. -/
theorem map_m_recorded (up : MboxSlot) (asked : List SendCall) (pc : VfPc) :
    (pc.recorded up asked).map SendCall.m = asked.map SendCall.m := by
  unfold VfPc.recorded
  split
  · rcases List.eq_nil_or_concat asked with rfl | ⟨past, c, rfl⟩
    · rfl
    · rw [List.concat_eq_append, List.modifyLast_concat, List.map_append, List.map_append]
      rfl
  · rfl

/-- What the physical function leaves alone. -/
theorem PfStep.frame {s s' : MboxRegs} {pick : Option FuncId} {fates : MsgFates} {offline : Bool}
    (hs : PfStep s pick fates offline s') :
    (∀ v, (s'.up v).sent = (s.up v).sent) ∧ s'.vf = s.vf ∧ s'.asked = s.asked := by
  cases hs with
  | idle hpc => exact ⟨fun _ => rfl, rfl, rfl⟩
  | ended hpc => exact ⟨fun _ => rfl, rfl, rfl⟩
  | pick hpc hset => exact ⟨fun _ => rfl, rfl, rfl⟩
  | read hpc hok hpc' => exact ⟨fun _ => rfl, rfl, rfl⟩
  | @got status src pc words hpc hr =>
      have hup : ∀ v, (Function.update s.up src ((s.up src).take words) v).sent = (s.up v).sent :=
        rel_update (R := fun a b : MboxSlot => b.sent = a.sent) (fun _ => rfl) rfl
      unfold pfGot
      dsimp only
      split
      · exact ⟨hup, rfl, rfl⟩
      · exact ⟨hup, rfl, rfl⟩
  | send hpc hmove hsent hok hpc' => exact ⟨fun _ => rfl, rfl, rfl⟩
  | sent hpc hw =>
      unfold pfSent
      split
      · exact ⟨fun _ => rfl, rfl, rfl⟩
      · exact ⟨fun _ => rfl, rfl, rfl⟩
  | busy hpc => exact ⟨fun _ => rfl, rfl, rfl⟩

/-! ## The answers of the physical function -/

/-- The call of `mbox_send` it is in. -/
def PfPc.call : PfPc → Option (MboxMsg × SendPc)
  | .send _ m _ pc => some (m, pc)
  | _ => none

/-- Whether the answer was sent, of each request. -/
def answered (xs : List MboxIn) : List Bool :=
  (xs.filter fun x => ¬ x.m.hdr.ack = true).map fun x => x.sent

theorem answered_ack {x : MboxIn} (xs : List MboxIn) (hack : x.m.hdr.ack = true) :
    answered (xs ++ [x]) = answered xs := by
  unfold answered
  rw [List.filter_append, List.filter_cons_of_neg (by simp [hack])]
  exact congrArg _ (List.append_nil _)

theorem answered_request {x : MboxIn} (xs : List MboxIn) (hack : ¬ x.m.hdr.ack = true) :
    answered (xs ++ [x]) = answered xs ++ [x.sent] := by
  unfold answered
  rw [List.filter_append, List.map_append, List.filter_cons_of_pos (by simp [hack])]
  rfl

/-- The record of what was read says of each answer what its call of `mbox_send` has returned. -/
def PfAnswered (s : MboxRegs) : Prop :=
  CallsKept haveSent (answered (s.calls.flatten ++ s.cur)) s.answers s.pfPc.call

/-- A request is done with when the call with its answer returns. -/
theorem pfSent_answered {s : MboxRegs} {status : ℤ} {hand : MboxIn} {sent offline : Bool}
    {past : List SendCall} {c : SendCall} (hack : ¬ hand.m.hdr.ack = true)
    (hpast : ∀ c ∈ s.answers, c.Over) (hanswers : s.answers = past ++ [c])
    (hret : c.ret = some sent) (hb : answered (s.calls.flatten ++ s.cur) = haveSent past) :
    PfAnswered (pfSent s status hand sent offline) := by
  let x : MboxIn := { hand with sent := sent, offline := offline }
  have hnext : answered (s.calls.flatten ++ (s.cur ++ [x])) = haveSent s.answers := by
    rw [← List.append_assoc, answered_request (x := x) _ hack, hb, hanswers]
    unfold haveSent
    rw [List.map_append, List.map_singleton, hret]
    cases sent with
    | true => rfl
    | false => rfl
  unfold pfSent
  split
  case isTrue => exact ⟨hpast, hnext⟩
  case isFalse =>
    refine ⟨hpast, ?_⟩
    change answered ((s.calls ++ [s.cur ++ [x]]).flatten ++ []) = _
    rw [List.append_nil, List.flatten_append, List.flatten_singleton]
    exact hnext

theorem pfStep_answered {s : MboxRegs} {pick : Option FuncId} {fates : MsgFates} {offline : Bool}
    (hok : PfOk s.up s.down s.target s.pfPc)
    (hask : ∀ x ∈ s.pfPc.hand, ¬ x.m.hdr.ack = true) (h : PfAnswered s) :
    PfAnswered (pfStep s pick fates offline) := by
  unfold pfStep
  unfold PfAnswered at h
  cases hpc : s.pfPc with
  | idle =>
      rw [hpc] at h
      unfold PfAnswered
      rw [hpc]
      exact h
  | status status =>
      rw [hpc] at h
      dsimp only
      cases pick with
      | none =>
          refine ⟨h.1, ?_⟩
          change answered ((s.calls ++ [s.cur]).flatten ++ []) = _
          rw [List.append_nil, List.flatten_append, List.flatten_singleton]
          exact h.2
      | some src => exact h
  | read status src pc =>
      rw [hpc] at h
      dsimp only
      split
      case h_1 => exact h
      case h_2 words hwords =>
          unfold pfGot
          dsimp only
          split
          case isTrue hack =>
            refine ⟨h.1, ?_⟩
            change answered (s.calls.flatten ++ (s.cur ++ [_])) = _
            rw [← List.append_assoc, answered_ack _ hack]
            exact h.2
          case isFalse hack => exact CallsKept.begin h (SendCall.at_target _)
  | send status m hand pc =>
      rw [hpc] at h hok hask
      obtain ⟨htarget, hsend, -⟩ := hok
      have hdst : (if pc = .target then m.target else s.target) = m.target := by
        split
        case isTrue => rfl
        case isFalse hne => exact htarget hne
      dsimp only
      rw [hdst]
      rcases CallsKept.next h hsend with
        ⟨pc', hr, hkept⟩ | ⟨sent, past, c, hr, hb, -, hret, hcalls, hpast⟩
      · rw [hr]
        exact hkept
      · rw [hr]
        exact pfSent_answered (hask hand (List.mem_singleton_self _)) hpast hcalls hret hb

/-- A request that is being answered asks for an answer. -/
theorem PfRecord.asks {pf : PfState} {s : MboxRegs} {log : List MboxLog} (h : PfRecord pf s log) :
    ∀ x ∈ s.pfPc.hand, ¬ x.m.hdr.ack = true := by
  intro x hx
  have hloop := h.loop
  cases hpc : s.pfPc with
  | send status m hand pc =>
      rw [hpc] at hloop hx
      obtain ⟨status', s', -, hin⟩ := hloop
      rw [List.mem_singleton.mp hx]
      exact hin.ask
  | idle => exact absurd (hpc ▸ hx) List.not_mem_nil
  | status status => exact absurd (hpc ▸ hx) List.not_mem_nil
  | read status src pc => exact absurd (hpc ▸ hx) List.not_mem_nil

/-! ## Runs -/

/-- Everything that is known of a reachable state. -/
structure MboxInv (pf : PfState) (s : MboxRegs) : Prop where
  regs : RegsInv s
  record : ∃ log, PfRecord pf s log
  asked : ∀ v, (s.vf v).pc.Asked (s.up v) (s.asked v)
  answers : PfAnswered s

theorem MboxInv.init (pf : PfState) : MboxInv pf (MboxRegs.init pf) where
  regs := RegsInv.init pf
  record := ⟨[], PfRecord.init pf⟩
  asked _ := ⟨fun _ hc => absurd hc List.not_mem_nil, rfl⟩
  answers := ⟨fun _ hc => absurd hc List.not_mem_nil, rfl⟩

/-- A function that takes its lock has it from nobody. -/
theorem asked_lock {s : MboxRegs} (h : ∀ u, (s.vf u).pc.Asked (s.up u) (s.asked u))
    {v : FuncId} {a : VfSide} {asked : List SendCall} (hv : a.pc.Asked (s.up v) asked)
    (u : FuncId) :
    (Function.update s.vf v a u).pc.Asked (s.up u) (Function.update s.asked v asked u) := by
  rcases eq_or_ne u v with rfl | hne
  · rw [Function.update_self, Function.update_self]
    exact hv
  · rw [Function.update_of_ne hne, Function.update_of_ne hne]
    exact h u

/-- What a virtual function does is not in the record of the answers. -/
theorem PfAnswered.vfMoved {s s' : MboxRegs} (h : PfAnswered s) (hm : VfMoved s s') :
    PfAnswered s' := by
  unfold PfAnswered
  rw [hm.calls, hm.cur, hm.answers, hm.pfPc]
  exact h

theorem MboxInv.step {pf : PfState} {s : MboxRegs} (e : MboxRegsEv) (h : MboxInv pf s)
    (hg : mboxRegsGuard s e) : MboxInv pf (mboxRegsStep s e) := by
  obtain ⟨log, hrecord⟩ := h.record
  cases e with
  | vfSend v m wait =>
      have hm := vfSend_moved h.regs v m wait
      refine ⟨h.regs.vfMoved hm, ⟨log, hrecord.vfMoved hm⟩, ?_, h.answers.vfMoved hm⟩
      have hv := h.asked v
      have hfree : (s.vf v).pc = .free := hg
      rw [hfree] at hv
      exact asked_lock h.asked
        (a := { s.vf v with pc := .send (outgoing m wait) none (.poll mboxPolls) })
        (CallsKept.begin hv (SendCall.at_poll _))
  | vfProc v =>
      have hm := vfProc_moved h.regs v
      refine ⟨h.regs.vfMoved hm, ⟨log, hrecord.vfMoved hm⟩, ?_, h.answers.vfMoved hm⟩
      have hv := h.asked v
      have hfree : (s.vf v).pc = .free := hg
      rw [hfree] at hv
      have hlock := @asked_lock s h.asked v
        { s.vf v with pc := .status ((s.vf v).back.getD mboxStatusGood), back := none }
        (s.asked v) hv
      rw [Function.update_eq_self] at hlock
      exact hlock
  | vfStep v offline =>
      have hm := vfStep_moved h.regs v offline
      refine ⟨h.regs.vfMoved hm, ⟨log, hrecord.vfMoved hm⟩, fun u => ?_, h.answers.vfMoved hm⟩
      change (Function.update s.vf v _ u).pc.Asked (Function.update s.up v _ u)
        (Function.update s.asked v _ u)
      rcases eq_or_ne u v with rfl | hne
      · rw [Function.update_self, Function.update_self, Function.update_self]
        exact vfAccess_asked offline (h.regs.vf u) (fun _ hr => h.regs.isAck hr) (h.asked u)
      · rw [Function.update_of_ne hne, Function.update_of_ne hne, Function.update_of_ne hne]
        exact h.asked u
  | pfProc =>
      have hidle : s.pfPc = .idle := hg
      have hanswers := h.answers
      unfold PfAnswered at hanswers
      rw [hidle] at hanswers
      refine ⟨h.regs.step .pfProc hg, ⟨[], ?_⟩, h.asked, hanswers⟩
      have hloop := hrecord.loop
      rw [hidle] at hloop
      obtain ⟨hcur, hlog, hpf⟩ := hloop
      refine (hlog ▸ hrecord).same rfl rfl ?_ ?_ (fun _ => rfl) (fun _ => rfl)
      · rw [hidle]
        rfl
      · change LoopedThrough (pfAfter pf s.calls) s.cur mboxStatusGood s.pf []
        rw [hcur, hpf]
        exact LoopedThrough.start _
  | pfStep pick fates offline =>
      have hs := pfStep_step h.regs.pf hg
      obtain ⟨hsent, hvf, hasked⟩ := hs.frame
      refine ⟨h.regs.pfStep hs, hrecord.step hs, fun v => ?_,
        pfStep_answered h.regs.pf hrecord.asks h.answers⟩
      change ((pfStep s pick fates offline).vf v).pc.Asked
        ((pfStep s pick fates offline).up v) ((pfStep s pick fates offline).asked v)
      unfold VfPc.Asked
      rw [hvf, hasked, hsent v]
      exact h.asked v

/-- The record of the calls is that of the calls made. -/
theorem asked_step {s : MboxRegs} {e : MboxRegsEv} (h : RegsInv s) (hg : mboxRegsGuard s e)
    (v : FuncId) :
    ((mboxRegsStep s e).asked v).map SendCall.m = (s.asked v).map SendCall.m ++ callsOf v [e] := by
  cases e with
  | vfSend u m wait =>
      change (Function.update s.asked u _ v).map SendCall.m = _
      rcases eq_or_ne u v with rfl | hne
      · have hcall : callsOf u [.vfSend u m wait] = [outgoing m wait] :=
          congrArg (fun o : Option MboxMsg => o.toList) (if_pos rfl)
        rw [Function.update_self, List.map_append, hcall]
        rfl
      · have hcall : callsOf v [.vfSend u m wait] = [] :=
          congrArg (fun o : Option MboxMsg => o.toList) (if_neg hne)
        rw [Function.update_of_ne hne.symm, hcall, List.append_nil]
  | vfProc u => exact (List.append_nil _).symm
  | vfStep u offline =>
      refine Eq.trans ?_ (List.append_nil _).symm
      change (Function.update s.asked u _ v).map SendCall.m = _
      rcases eq_or_ne v u with rfl | hne
      · rw [Function.update_self, map_m_recorded]
      · rw [Function.update_of_ne hne]
  | pfProc => exact (List.append_nil _).symm
  | pfStep pick fates offline =>
      refine Eq.trans ?_ (List.append_nil _).symm
      change ((pfStep s pick fates offline).asked v).map SendCall.m = _
      rw [(pfStep_step h.pf hg).frame.2.2]

theorem asked_run (v : FuncId) (es : List MboxRegsEv) {s : MboxRegs} (h : RegsInv s)
    (hrun : mboxRegsSys.Admits s es) :
    ((mboxRegsSys.exec s es).asked v).map SendCall.m =
      (s.asked v).map SendCall.m ++ callsOf v es := by
  induction es generalizing s with
  | nil => exact (List.append_nil _).symm
  | cons e es ih =>
      obtain ⟨hg, hrest⟩ := hrun
      have hcalls : callsOf v (e :: es) = callsOf v [e] ++ callsOf v es :=
        List.filterMap_append (l := [e])
      rw [hcalls, ← List.append_assoc, ← asked_step h hg v]
      exact ih (h.step e hg) hrest

/-- **The mailbox delivers**: whatever order the registers are accessed in, each virtual function
has sent the messages of its calls that were not busy, and a call is busy just where each of its
looks has shown the last message still there; each side receives what the other has sent, word for
word and in order, with one message at most on its way; and between two calls of its
`qdma_mbox_proc` the physical function is where `qdmaMboxProc` puts it after the messages received,
with the answers sent that it gives, but for those whose calls were busy. -/
theorem mailbox_refines (pf : PfState) (es : List MboxRegsEv)
    (hrun : mboxRegsSys.Admits (MboxRegs.init pf) es) :
    let s := mboxRegsSys.exec (MboxRegs.init pf) es
    (∀ v, (s.asked v).map SendCall.m = callsOf v es ∧ (∀ c ∈ s.asked v, c.Right) ∧
        ((s.vf v).pc = .free → ∀ c ∈ s.asked v, c.ret ≠ none) ∧
        (s.up v).sent = sentIn (s.asked v)) ∧
      (∀ v, (s.up v).rcvd <+: (s.up v).sent ∧ (s.up v).sent.length ≤ (s.up v).rcvd.length + 1) ∧
      (∀ v, (s.down v).rcvd <+: (s.down v).sent ∧
        (s.down v).sent.length ≤ (s.down v).rcvd.length + 1) ∧
      (∀ c ∈ s.answers, c.Right) ∧
      (s.pfPc = .idle →
        s.pf = pfAfter pf s.calls ∧
        (∀ v, requestsOf v s.calls.flatten = (s.up v).rcvd.map MboxMsg.ofRegs) ∧
        (∀ v, (answersTo v (qdmaMboxProcs pf s.calls).flatten).map MboxMsg.outRegs =
          (s.down v).sent) ∧
        (∀ c ∈ s.answers, c.ret ≠ none) ∧ answered s.calls.flatten = haveSent s.answers) := by
  intro s
  have h : MboxInv pf s :=
    mboxRegsSys.invariant (fun _ e h hg => MboxInv.step e h hg) es (MboxInv.init pf) hrun
  obtain ⟨log, hrecord⟩ := h.record
  refine ⟨fun v => ?_, fun v => (h.regs.up v).delivered, fun v => (h.regs.down v).delivered,
    h.answers.right, ?_⟩
  · have hv := h.asked v
    refine ⟨asked_run v es (RegsInv.init pf) hrun, hv.right, fun hfree => ?_, hv.sentIn⟩
    rw [hfree] at hv
    exact fun c hc => (hv.1 c hc).2
  · intro hidle
    have hloop := hrecord.loop
    have hanswered : PfAnswered s := h.answers
    unfold PfAnswered at hanswered
    rw [hidle] at hloop hanswered
    obtain ⟨hcur, hlog, hpf⟩ := hloop
    obtain ⟨hpast, htold⟩ := hanswered
    refine ⟨hpf, fun v => ?_, fun v => ?_, fun c hc => (hpast c hc).2, ?_⟩
    · have hreads := hrecord.reads v
      rw [hidle, hcur] at hreads
      refine Eq.trans (congrArg (requestsOf v) ?_) hreads
      rw [List.append_nil]
      exact (List.append_nil _).symm
    · have hanswers := hrecord.answers v
      rw [hlog, List.append_nil] at hanswers
      exact hanswers
    · rw [hcur, List.append_nil] at htold
      exact htold

/-- Two functions say hello, access by access, the physical function answers the second first,
and both read their answers. -/
def twoHellosRun : List MboxRegsEv :=
  let both (e : FuncId → MboxRegsEv) (n : ℕ) := (List.replicate n [e firstVf, e secondVf]).flatten
  let serve (src : FuncId) :=
    List.replicate 39 (MboxRegsEv.pfStep (some src) (plainIn src (bareMsg 0)).fates false)
  both (.vfStep · false) 2 ++ both (.vfSend · (bareMsg mboxOpHello) false) 1 ++
    both (.vfStep · false) 19 ++ [.pfProc] ++ serve secondVf ++ serve firstVf ++ both .vfProc 1 ++
    both (.vfStep · false) 18 ++ [.pfStep none (plainIn 0 (bareMsg 0)).fates false]

theorem mailbox_refines_two :
    let s := mboxRegsSys.exec (MboxRegs.init pfIdle) twoHellosRun
    mboxRegsSys.Admits (MboxRegs.init pfIdle) twoHellosRun ∧
      s.pf = pfAfter pfIdle s.calls ∧
      (s.up 2).sent = sentIn (s.asked 2) ∧ (s.asked 2).map SendCall.ret = [some true] ∧
      (s.down 2).rcvd.length = 1 ∧ (s.down 3).rcvd.length = 1 := by
  have hrun : mboxRegsSys.Admits (MboxRegs.init pfIdle) twoHellosRun := by decide +kernel
  have hidle : (mboxRegsSys.exec (MboxRegs.init pfIdle) twoHellosRun).pfPc = .idle := by
    decide +kernel
  obtain ⟨hsent, -, -, -, hproc⟩ := mailbox_refines pfIdle twoHellosRun hrun
  refine ⟨hrun, (hproc hidle).1, (hsent 2).2.2.2, by decide +kernel, by decide +kernel, ?_⟩
  decide +kernel

end Qdma

import Qdma.Indirect
import Qdma.Lib.Trace

/-!
# The mailbox of the physical function

A virtual function has no access to the context registers; it sends its requests through
a mailbox to the physical function, whose `qdma_mbox_proc` carries them out and answers.
A message is sixteen words, the first of which is a header; what the others mean depends
on the operation in it.

This file is the physical function's side of `qdma_mbox.c` with the table of virtual
functions of `qdma_sriov.c` and the function map of `qdma_regs.c`:

* `qdmaMboxHandle` is the `switch` for one message,
* `qdmaMboxProc` the loop over what the hardware has received, with the `status` variable
  that lives outside of it.

The results: when a response tells the truth about its own request, and when a function
stays within the queues it was given.
-/

namespace Qdma

open Lib

/-! ## Messages -/

/-- `struct mbox_msg_hdr`. -/
structure MboxMsgHdr where
  op : ℕ
  sent : Bool
  rcv : Bool
  ack : Bool
  wait : Bool
  src : ℕ
  dst : ℕ
  status : ℤ

/-- `struct mbox_msg`: the header and the words behind it, of which there are fifteen. -/
structure MboxMsg where
  hdr : MboxMsgHdr
  raw : ℕ → BitVec 32

def mboxOpHello : ℕ := 1
def mboxOpBye : ℕ := 2
def mboxOpFmap : ℕ := 4
def mboxOpIntrCtxt : ℕ := 5
def mboxOpQctxtWrt : ℕ := 6
def mboxOpQctxtRd : ℕ := 7
def mboxOpQctxtClr : ℕ := 8

def mboxStatusGood : ℤ := 0
def mboxStatusErr : ℤ := 1
def mboxStatusEinval : ℤ := 2

namespace MboxMsg

/-! `struct mbox_msg_fmap` -/

def qbase (m : MboxMsg) : ℕ := (m.raw 1).toNat
def qmax (m : MboxMsg) : ℕ := (m.raw 2).toNat

def setQbase (m : MboxMsg) (qbase : ℕ) : MboxMsg :=
  { m with raw := Function.update m.raw 1 (BitVec.ofNat 32 qbase) }

/-! `struct mbox_msg_qctxt`: flags, `intr_id` and `qid` share a word, the context
follows. -/

def c2h (m : MboxMsg) : Bool := (m.raw 1).getLsbD 2
def st (m : MboxMsg) : Bool := (m.raw 1).getLsbD 3
def qid (m : MboxMsg) : ℕ := (m.raw 1).toNat / 2 ^ 16

def words (m : MboxMsg) (start cnt : ℕ) : List (BitVec 32) :=
  (List.range cnt).map fun i => m.raw (start + i)

def context (m : MboxMsg) : HwDescqContextRd where
  sw := m.words 2 4
  prefetch := m.words 6 2
  wrb := m.words 8 4
  hw := m.words 12 2
  cr := m.words 14 1

/-- The thirteen words of a context. -/
def contextWords (context : HwDescqContextRd) : List (BitVec 32) :=
  context.sw ++ context.prefetch ++ context.wrb ++ context.hw ++ context.cr

def setContext (m : MboxMsg) (context : HwDescqContextRd) : MboxMsg :=
  { m with raw := fun i =>
      if 2 ≤ i ∧ i < 15 then (contextWords context).getD (i - 2) 0 else m.raw i }

end MboxMsg

/-! ## The table of virtual functions -/

/-- `struct qdma_vf_info`. -/
structure QdmaVfInfo where
  funcId : ℕ
  qbase : ℕ
  qmax : ℕ
  deriving DecidableEq

def qdmaPfMax : ℕ := 2
def qdmaVfMax : ℕ := 252
def qdmaQPerPfMax : ℕ := 32
def qdmaQPerVfMax : ℕ := 8
def qdmaFuncIdInvalid : ℕ := qdmaPfMax + qdmaVfMax

/-- `xdev_sriov_vf_online`: the first free entry is taken; without one nothing
happens. -/
def xdevSriovVfOnline (funcId : ℕ) : List QdmaVfInfo → ℤ × List QdmaVfInfo
  | [] => (-einval, [])
  | vf :: rest =>
      if vf.funcId = qdmaFuncIdInvalid then (0, { vf with funcId := funcId } :: rest)
      else ((xdevSriovVfOnline funcId rest).1, vf :: (xdevSriovVfOnline funcId rest).2)

/-- `xdev_sriov_vf_offline`. -/
def xdevSriovVfOffline (funcId : ℕ) (vfs : List QdmaVfInfo) : List QdmaVfInfo :=
  vfs.map fun vf =>
    if vf.funcId = funcId then { funcId := qdmaFuncIdInvalid, qbase := 0, qmax := 0 } else vf

/-- `xdev_sriov_vf_fmap`; the two counts are `unsigned short`. -/
def xdevSriovVfFmap (funcId qbase qmax : ℕ) : List QdmaVfInfo → ℤ × List QdmaVfInfo
  | [] => (-einval, [])
  | vf :: rest =>
      if vf.funcId = funcId then
        (0, { vf with qbase := qbase % 2 ^ 16, qmax := qmax % 2 ^ 16 } :: rest)
      else
        ((xdevSriovVfFmap funcId qbase qmax rest).1,
          vf :: (xdevSriovVfFmap funcId qbase qmax rest).2)

/-! ## The function map -/

def selFmapQidBaseMask : ℕ := 0x7FF
def selFmapQidMaxShift : ℕ := 11
def selFmapQidMaxMask : ℕ := 0xFFF

/-- The word `hw_set_fmap` writes.  Neither count is checked against its field. -/
def fmapWord (qbase qmax : ℕ) : ℕ := u32 (qbase ||| qmax <<< selFmapQidMaxShift)

def fmapQbase (v : ℕ) : ℕ := v &&& selFmapQidBaseMask
def fmapQmax (v : ℕ) : ℕ := v >>> selFmapQidMaxShift &&& selFmapQidMaxMask

/-- The queues a function map register gives to its function. -/
def InFmap (v q : ℕ) : Prop := fmapQbase v ≤ q ∧ q < fmapQbase v + fmapQmax v

instance (v q : ℕ) : Decidable (InFmap v q) :=
  inferInstanceAs (Decidable (fmapQbase v ≤ q ∧ q < fmapQbase v + fmapQmax v))

/-! ## Handling a message -/

/-- What the physical function's handler reads and writes. -/
structure PfState where
  regs : IndRegs
  fmap : ℕ → ℕ
  qid2vec : ℕ → BitVec 32
  vfInfo : List QdmaVfInfo
  funcId : ℕ

/-- `hw_set_fmap`. -/
def hwSetFmap (s : PfState) (funcId qbase qmax : ℕ) : PfState :=
  { s with fmap := Function.update s.fmap funcId (fmapWord qbase qmax) }

/-- What becomes of the commands a message makes the handler issue. -/
structure MsgFates where
  clear : ℕ → CmdFate
  clearAgain : ℕ → CmdFate
  write : ℕ → CmdFate
  read : ℕ → CmdFate

/-- The first queue of a function that did not ask for one. -/
def defaultQbase (src : ℕ) : ℕ :=
  ((qdmaQPerPfMax * qdmaPfMax : ℕ) + ((src : ℤ) - qdmaPfMax) * qdmaQPerVfMax : ℤ).toNat

/-- What the `switch` of `qdma_mbox_proc` leaves: `rv`, or nothing where the operation is
unknown, the message and the state.  `ret` is what the functions that carry the request out have
returned; a HELLO and an FMAP drop it and leave 0 in `rv`. -/
structure MboxHandled where
  rv : Option ℤ
  ret : Option ℤ
  m : MboxMsg
  s : PfState

/-- The `switch` of the physical function's `qdma_mbox_proc`. -/
def qdmaMboxHandle (f : MsgFates) (s : PfState) (m : MboxMsg) : MboxHandled :=
  if m.hdr.op = mboxOpHello then
    let x := xdevSriovVfOnline m.hdr.src s.vfInfo
    ⟨some 0, some x.1, m, { s with vfInfo := x.2 }⟩
  else if m.hdr.op = mboxOpBye then
    let s := hwSetFmap s m.hdr.src 0 0
    ⟨some 0, some 0, m, { s with vfInfo := xdevSriovVfOffline m.hdr.src s.vfInfo }⟩
  else if m.hdr.op = mboxOpFmap then
    let m := if m.qbase = 0 then m.setQbase (defaultQbase m.hdr.src) else m
    let s := hwSetFmap s m.hdr.src m.qbase m.qmax
    let x := xdevSriovVfFmap m.hdr.src m.qbase m.qmax s.vfInfo
    ⟨some 0, some x.1, m, { s with vfInfo := x.2 }⟩
  else if m.hdr.op = mboxOpIntrCtxt then ⟨some (-einval), some (-einval), m, s⟩
  else if m.hdr.op = mboxOpQctxtClr then
    let x := descqContextClearRegs (fun i => mapCmd (f.clear i)) s.regs m.qid m.st m.c2h
    ⟨some x.1, some x.1, m, { s with regs := x.2 }⟩
  else if m.hdr.op = mboxOpQctxtRd then
    let x := descqContextReadRegs (fun i => mapCmd (f.read i)) s.regs m.qid m.st m.c2h
    ⟨some x.1, some x.1, m.setContext x.2.1, { s with regs := x.2.2 }⟩
  else if m.hdr.op = mboxOpQctxtWrt then
    let x := descqContextClearRegs (fun i => mapCmd (f.clear i)) s.regs m.qid m.st m.c2h
    if x.1 < 0 then ⟨some x.1, some x.1, m, { s with regs := x.2 }⟩
    else
      let x := descqContextProgramRegs (fun i => mapCmd (f.clearAgain i))
        (fun i => mapCmd (f.write i)) x.2 m.qid m.st m.c2h m.context.toHwDescqContext
      ⟨some x.1, some x.1, m, { s with regs := x.2 }⟩
  else ⟨none, none, m, s⟩

/-- `mbox_read`: the claimed source is replaced by the one the hardware reports. -/
def mboxRead (src : ℕ) (m : MboxMsg) : MboxMsg := { m with hdr := { m.hdr with src := src } }

/-- A message in the hardware's queue: where it really comes from, and what happens while
it is handled.  `sent` says that the response could be sent, `offline` that the device
was then found offline. -/
structure MboxIn where
  src : ℕ
  m : MboxMsg
  fates : MsgFates
  sent : Bool
  offline : Bool

/-- The outcome of one message: whether it was carried out, and the response, if one was
sent. -/
structure MboxLog where
  done : Bool
  resp : Option MboxMsg

/-- The request was carried out. -/
def MboxHandled.done (h : MboxHandled) : Bool := h.ret.any fun ret => decide (0 ≤ ret)

/-- The `status` of the loop is set because of the request. -/
def MboxHandled.reported (h : MboxHandled) : Bool := h.rv.all fun rv => decide (rv < 0)

/-- The `status` of the loop after a message. -/
def nextStatus (status : ℤ) (rv : Option ℤ) : ℤ :=
  match rv with
  | none => -mboxStatusEinval
  | some rv => if rv < 0 ∧ status = 0 then -mboxStatusErr else status

/-- The response to a handled message. -/
def respond (s : PfState) (m : MboxMsg) (status : ℤ) : MboxMsg :=
  { m with hdr := { m.hdr with dst := m.hdr.src, src := s.funcId, ack := true, status := status } }

/-- The loop of `qdma_mbox_proc`. -/
def qdmaMboxLoop : ℤ → PfState → List MboxIn → List MboxLog × PfState
  | _, s, [] => ([], s)
  | status, s, x :: rest =>
      let m := mboxRead x.src x.m
      if m.hdr.ack then qdmaMboxLoop status s rest
      else
        let h := qdmaMboxHandle x.fates s m
        let status := nextStatus status h.rv
        if !x.sent then ([{ done := h.done, resp := none }], h.s)
        else
          let entry : MboxLog := { done := h.done, resp := some (respond h.s h.m status) }
          if x.offline then ([entry], h.s)
          else
            let r := qdmaMboxLoop status h.s rest
            (entry :: r.1, r.2)

/-- The physical function's `qdma_mbox_proc`. -/
def qdmaMboxProc (s : PfState) (xs : List MboxIn) : List MboxLog × PfState :=
  qdmaMboxLoop mboxStatusGood s xs

/-! ## Responses -/

/-- The logs of any number of invocations. -/
def qdmaMboxProcs : PfState → List (List MboxIn) → List (List MboxLog)
  | _, [] => []
  | s, xs :: rest =>
      let r := qdmaMboxProc s xs
      r.1 :: qdmaMboxProcs r.2 rest

/-- Each response reports its own request's outcome. -/
def Truthful (log : List MboxLog) : Prop :=
  ∀ e ∈ log, ∀ m, e.resp = some m → (m.hdr.status = mboxStatusGood ↔ e.done = true)

/-- The outcome of a request: it was carried out, it failed and `status` says so, or it failed and
what the function returned was dropped. -/
inductive MboxOutcome
  | done
  | failed
  | dropped
  deriving DecidableEq

def MboxHandled.outcome (h : MboxHandled) : MboxOutcome :=
  if h.reported then .failed else if h.done then .done else .dropped

/-- The outcomes of the requests an invocation answers. -/
def outcomes : PfState → List MboxIn → List MboxOutcome
  | _, [] => []
  | s, x :: rest =>
      let m := mboxRead x.src x.m
      if m.hdr.ack then outcomes s rest
      else
        let h := qdmaMboxHandle x.fates s m
        if !x.sent then [] else if x.offline then [h.outcome] else h.outcome :: outcomes h.s rest

/-- No request is carried out after one that failed, and none fails unreported before.  `early`
is that one has failed already. -/
structure FailuresLast (early : Prop) (os : List MboxOutcome) : Prop where
  done : ∀ before after, os = before ++ .done :: after → ¬ (early ∨ .failed ∈ before)
  dropped : ∀ before after, os = before ++ .dropped :: after → early ∨ .failed ∈ before

def AllFailuresLast : PfState → List (List MboxIn) → Prop
  | _, [] => True
  | s, xs :: rest =>
      FailuresLast False (outcomes s xs) ∧ AllFailuresLast (qdmaMboxProc s xs).2 rest

theorem truthful_cons {e : MboxLog} {log : List MboxLog} :
    Truthful (e :: log) ↔
      (∀ m, e.resp = some m → (m.hdr.status = mboxStatusGood ↔ e.done = true)) ∧ Truthful log := by
  unfold Truthful
  rw [List.forall_mem_cons]

theorem failuresLast_nil (early : Prop) : FailuresLast early [] where
  done before after h := absurd h (List.append_ne_nil_of_right_ne_nil before
    (List.cons_ne_nil _ after)).symm
  dropped before after h := absurd h (List.append_ne_nil_of_right_ne_nil before
    (List.cons_ne_nil _ after)).symm

theorem failuresLast_cons {early : Prop} {o : MboxOutcome} {os : List MboxOutcome} :
    FailuresLast early (o :: os) ↔
      (o = .done → ¬ early) ∧ (o = .dropped → early) ∧ FailuresLast (early ∨ o = .failed) os := by
  have hmem : ∀ before : List MboxOutcome,
      (early ∨ .failed ∈ o :: before) ↔ ((early ∨ o = .failed) ∨ .failed ∈ before) := fun before => by
    rw [List.mem_cons, eq_comm, or_assoc]
  constructor
  · rintro ⟨hdone, hdropped⟩
    refine ⟨?_, ?_, fun before after h => ?_, fun before after h => ?_⟩
    · rintro rfl hearly
      exact hdone [] os rfl (Or.inl hearly)
    · rintro rfl
      exact (hdropped [] os rfl).resolve_right List.not_mem_nil
    · rw [← hmem]
      exact hdone (o :: before) after (congrArg (o :: ·) h)
    · rw [← hmem]
      exact hdropped (o :: before) after (congrArg (o :: ·) h)
  · rintro ⟨hdone, hdropped, hrest⟩
    refine ⟨fun before after h => ?_, fun before after h => ?_⟩
    · cases before with
      | nil =>
          cases h
          exact fun hearly => hdone rfl (hearly.resolve_right List.not_mem_nil)
      | cons b before =>
          cases h
          rw [hmem]
          exact hrest.done before after rfl
    · cases before with
      | nil =>
          cases h
          exact Or.inl (hdropped rfl)
      | cons b before =>
          cases h
          rw [hmem]
          exact hrest.dropped before after rfl

/-- The variable `rv` is what the functions returned, or 0 where that is dropped. -/
theorem handle_rv (f : MsgFates) (s : PfState) (m : MboxMsg) :
    (qdmaMboxHandle f s m).rv = (qdmaMboxHandle f s m).ret ∨ (qdmaMboxHandle f s m).rv = some 0 := by
  unfold qdmaMboxHandle
  split
  · exact Or.inr rfl
  split
  · exact Or.inr rfl
  split
  · exact Or.inr rfl
  split
  · exact Or.inl rfl
  split
  · exact Or.inl rfl
  split
  · exact Or.inl rfl
  split
  · dsimp only
    split
    · exact Or.inl rfl
    · exact Or.inl rfl
  · exact Or.inl rfl

/-- A request whose failure is reported was not carried out. -/
theorem handle_reported {f : MsgFates} {s : PfState} {m : MboxMsg}
    (h : (qdmaMboxHandle f s m).reported = true) : (qdmaMboxHandle f s m).done = false := by
  unfold MboxHandled.reported at h
  unfold MboxHandled.done
  rcases handle_rv f s m with heq | hzero
  · rw [heq] at h
    cases hret : (qdmaMboxHandle f s m).ret with
    | none => rfl
    | some ret =>
        rw [hret, Option.all_some, decide_eq_true_eq] at h
        rw [Option.any_some, decide_eq_false (not_le.mpr h)]
  · rw [hzero] at h
    cases h

/-- `status` keeps the first failure. -/
theorem nextStatus_eq_good (h : MboxHandled) (status : ℤ) :
    nextStatus status h.rv = mboxStatusGood ↔ h.reported = false ∧ status = mboxStatusGood := by
  unfold nextStatus MboxHandled.reported mboxStatusGood
  cases h.rv with
  | none =>
      have hne : ¬ -mboxStatusEinval = 0 := by decide
      simp [hne]
  | some rv =>
      have hne : ¬ -mboxStatusErr = 0 := by decide
      by_cases hneg : rv < 0
      · by_cases hz : status = 0
        · simp [hneg, hz, hne]
        · simp [hz, hneg]
      · simp [hneg]

theorem outcome_failed_iff (h : MboxHandled) : h.outcome = .failed ↔ h.reported = true := by
  unfold MboxHandled.outcome
  cases h.reported <;> cases h.done <;> decide

/-- When the response to a request is right: `status` must be clear before a request that is
carried out, and must not be before one whose failure is dropped. -/
theorem response_right_iff {f : MsgFates} {s : PfState} {m : MboxMsg} {status : ℤ} :
    (nextStatus status (qdmaMboxHandle f s m).rv = mboxStatusGood ↔
        (qdmaMboxHandle f s m).done = true) ↔
      ((qdmaMboxHandle f s m).outcome = .done → ¬ status ≠ mboxStatusGood) ∧
        ((qdmaMboxHandle f s m).outcome = .dropped → status ≠ mboxStatusGood) := by
  rw [nextStatus_eq_good]
  unfold MboxHandled.outcome
  cases hrep : (qdmaMboxHandle f s m).reported with
  | true => simp [handle_reported hrep]
  | false =>
      cases (qdmaMboxHandle f s m).done with
      | true => simp
      | false => simp

/-- One invocation from any `status`: the responses tell the truth when `status` changes where it
has to. -/
theorem truthful_loop :
    ∀ (xs : List MboxIn) (status : ℤ) (s : PfState),
      Truthful (qdmaMboxLoop status s xs).1 ↔
        FailuresLast (status ≠ mboxStatusGood) (outcomes s xs) := by
  intro xs
  induction xs with
  | nil =>
      intro status s
      exact ⟨fun _ => failuresLast_nil _, fun _ e he => absurd he List.not_mem_nil⟩
  | cons x rest ih =>
      intro status s
      unfold qdmaMboxLoop outcomes
      dsimp only
      by_cases hack : (mboxRead x.src x.m).hdr.ack = true
      · rw [if_pos hack, if_pos hack]
        exact ih status s
      · rw [if_neg hack, if_neg hack]
        have hright := @response_right_iff x.fates s (mboxRead x.src x.m) status
        have hgood := nextStatus_eq_good (qdmaMboxHandle x.fates s (mboxRead x.src x.m)) status
        have hfailed := outcome_failed_iff (qdmaMboxHandle x.fates s (mboxRead x.src x.m))
        generalize qdmaMboxHandle x.fates s (mboxRead x.src x.m) = h at hright hgood hfailed ⊢
        generalize nextStatus status h.rv = status' at hright hgood ⊢
        have hentry : (∀ m, some (respond h.s h.m status') = some m →
            (m.hdr.status = mboxStatusGood ↔ h.done = true)) ↔
              (h.outcome = .done → ¬ status ≠ mboxStatusGood) ∧
                (h.outcome = .dropped → status ≠ mboxStatusGood) := by
          rw [← hright]
          exact ⟨fun hall => hall _ rfl, by rintro himp m ⟨⟩; exact himp⟩
        cases x.sent with
        | false =>
            simp only [Bool.not_false, if_true]
            exact ⟨fun _ => failuresLast_nil _, by rintro _ e he m hm; cases he with
              | head => cases hm
              | tail _ he => cases he⟩
        | true =>
            simp only [Bool.not_true, Bool.false_eq_true, if_false]
            have hstatus : (status' ≠ mboxStatusGood) =
                (status ≠ mboxStatusGood ∨ h.outcome = .failed) := by
              rw [hfailed, Ne, hgood, not_and_or, Bool.not_eq_false, or_comm]
            cases x.offline with
            | true =>
                simp only [if_true]
                rw [truthful_cons, failuresLast_cons]
                exact ⟨fun ht => ⟨(hentry.mp ht.1).1, (hentry.mp ht.1).2, failuresLast_nil _⟩,
                  fun ho => ⟨hentry.mpr ⟨ho.1, ho.2.1⟩, fun e he => absurd he List.not_mem_nil⟩⟩
            | false =>
                simp only [Bool.false_eq_true, if_false]
                rw [truthful_cons, failuresLast_cons, ih status' h.s, hstatus, hentry, and_assoc]

/-- **When a response reports its own request's outcome**: in every run of invocations,
exactly when in none of them a request is carried out after one that failed, or a HELLO finds no
free entry or an FMAP no entry of its own before one has failed. -/
theorem responses_truthful (s : PfState) (batches : List (List MboxIn)) :
    (∀ log ∈ qdmaMboxProcs s batches, Truthful log) ↔ AllFailuresLast s batches := by
  induction batches generalizing s with
  | nil => simp [qdmaMboxProcs, AllFailuresLast]
  | cons xs rest ih =>
      unfold qdmaMboxProcs AllFailuresLast
      dsimp only
      rw [List.forall_mem_cons, ih]
      refine and_congr_left fun _ => ?_
      unfold qdmaMboxProc
      rw [truthful_loop, ne_eq, eq_self, not_true]

/-- A request without contents. -/
def bareMsg (op : ℕ) : MboxMsg where
  hdr :=
    { op := op, sent := false, rcv := false, ack := false, wait := true, src := 0, dst := 0,
      status := 0 }
  raw _ := 0

/-- A message that is answered, with every command completing. -/
def plainIn (src : ℕ) (m : MboxMsg) : MboxIn where
  src := src
  m := m
  fates :=
    { clear := fun _ => .completes, clearAgain := fun _ => .completes,
      write := fun _ => .completes, read := fun _ => .completes }
  sent := true
  offline := false

/-- The physical function with its own queues and room for two virtual functions. -/
def pfIdle : PfState where
  regs := sampleRegs
  fmap := Function.update (fun _ => 0) 0 (fmapWord 0 qdmaQPerPfMax)
  qid2vec _ := 0
  vfInfo := List.replicate 2 { funcId := qdmaFuncIdInvalid, qbase := 0, qmax := 0 }
  funcId := 0

/-- Function 2 sends an operation that does not exist, function 3 then says hello; the
answer to the second is that of the first. -/
theorem hello_after_unknown_op :
    ¬ ∀ (s : PfState) (batches : List (List MboxIn)),
      ∀ log ∈ qdmaMboxProcs s batches, Truthful log := by
  intro hall
  have hlog := hall pfIdle [[plainIn 2 (bareMsg 15), plainIn 3 (bareMsg mboxOpHello)]] _
    (List.mem_cons_self ..)
  have hmem : ∃ e ∈ (qdmaMboxProc pfIdle
      [plainIn 2 (bareMsg 15), plainIn 3 (bareMsg mboxOpHello)]).1,
      ∃ m, e.resp = some m ∧ e.done = true ∧ m.hdr.status = -mboxStatusEinval :=
    ⟨_, List.mem_cons_of_mem _ (List.mem_cons_self ..), _, rfl, rfl, rfl⟩
  obtain ⟨e, he, m, hresp, hdone, hstatus⟩ := hmem
  have hgood := (hlog e he m hresp).mpr hdone
  rw [hstatus] at hgood
  exact absurd hgood (by decide)

end Qdma

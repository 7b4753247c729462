import Qdma.CmdParse

/-!
# Command lines as they are documented

A command line names what it wants by words, and gives numbers by words too.  Here a command is
a `CmdLine`, before any number is read.

* `CmdLine.words` spells a command out.  `CmdLine.eval` is the `struct xcmd_info` it comes to,
  when its numbers are read as some `Readers` do; `cReaders` are those of the source.
* `parseCmd_words` says that the words of a command are parsed to what it comes to.
* `exists_words_of_ok` says that nothing is accepted but the words of a command.

`parse_safe_iff` adds which lines are parsed without a read past their end, and without a branch
on a variable that has no value.
-/

namespace Qdma

open Lib

/-! ## Commands -/

/-- A parameter of a queue command. -/
inductive Qparm where
  | idx (n : Word)
  | mode (st : Bool)
  | dir (c2h : Bool)
  | cdev (n : Word)
  | bufsz (n : Word)
  | ringsz (n : Word)
  | desc (x y : Word)
  | wrb (x y : Word)
  | wrbsz (n : Word)
  deriving DecidableEq

/-- `[bar <N>] <addr>`. -/
structure RegAddr where
  bar : Option Word
  addr : Word

inductive QOp where
  | add | start | stop | del | dump
  deriving DecidableEq

/-- What is asked of one device. -/
inductive Req where
  | info
  | regDump
  | regRead (a : RegAddr)
  | regWrite (a : RegAddr) (val : Word)
  | qList
  | q (op : QOp) (ps : List Qparm)

/-- `qdma<N>` or `qdmavf<N>`, short enough. -/
structure IfName where
  vf : Bool
  digits : Word
  figures : digits.all isFigure = true
  short : digits.length < if vf then 4 else 6

inductive CmdLine where
  | devList
  | dev (n : IfName) (r : Req)

/-! ## Their words -/

def Qparm.words : Qparm → List Word
  | .idx n => [kwIdx, n]
  | .mode st => [kwMode, if st then kwSt else kwMm]
  | .dir c2h => [kwDir, if c2h then kwC2h else kwH2c]
  | .cdev n => [kwCdev, n]
  | .bufsz n => [kwBufsz, n]
  | .ringsz n => [kwRingsz, n]
  | .desc x y => [kwDesc, x, y]
  | .wrb x y => [kwWrb, x, y]
  | .wrbsz n => [kwWrbsz, n]

def RegAddr.words (a : RegAddr) : List Word :=
  match a.bar with
  | some b => [kwBar, b, a.addr]
  | none => [a.addr]

def QOp.word : QOp → Word
  | .add => kwAdd
  | .start => kwStart
  | .stop => kwStop
  | .del => kwDel
  | .dump => kwDump

def Req.words : Req → List Word
  | .info => []
  | .regDump => [kwReg, kwDump]
  | .regRead a => kwReg :: kwRead :: a.words
  | .regWrite a val => kwReg :: kwWrite :: (a.words ++ [val])
  | .qList => [kwQ, kwList]
  | .q op ps => kwQ :: op.word :: ps.flatMap Qparm.words

def IfName.word (n : IfName) : Word := kwQdma ++ ((if n.vf then ['v', 'f'] else []) ++ n.digits)

def CmdLine.words : CmdLine → List Word
  | .devList => [kwDev, kwList]
  | .dev n r => n.word :: r.words

/-! ## What they come to -/

/-- How numbers are read: those of 32 bits, the one of `cdev`, that of the device, and that of
`wrbsz`, given what was there before. -/
structure Readers where
  int : Word → Option ℕ
  switch : Word → Option Bool
  dev : Word → Option ℕ
  byte : Word → ℕ → Option ℕ

def cReaders : Readers :=
  { int := fun s => (argReadInt s).toOption
    switch := fun s =>
      (argReadInt s).toOption.bind fun v => if v ≠ 0 ∧ v ≠ 1 then none else some (v ≠ 0)
    dev := fun s => (argReadInt s).toOption.map (· % 2 ^ 8)
    byte := fun s old => some (sscanfHhu s old) }

variable (rd : Readers)

def Qparm.apply (r : QparmRead) : Qparm → Option QparmRead
  | .idx n => (rd.int n).map fun v => r.mark .idx { r.qparm with idx := v }
  | .mode st => some (r.mark .mode
      { r.qparm with flags := r.qparm.flags ||| if st then xnlFQmodeSt else xnlFQmodeMm })
  | .dir c2h => some (r.mark .dir
      { r.qparm with flags := r.qparm.flags ||| if c2h then xnlFQdirC2h else xnlFQdirH2c })
  | .cdev n => (rd.switch n).map fun on => r.mark .cdev
      (if on then { r.qparm with flags := r.qparm.flags ||| xnlFCdev } else r.qparm)
  | .bufsz n => (rd.int n).map fun v => r.mark .bufsz { r.qparm with bufsz := v }
  | .ringsz n => (rd.int n).map fun v => r.mark .rngsz { r.qparm with ringsz := v }
  | .desc x y => (rd.int x).bind fun v1 => (rd.int y).map fun v2 =>
      r.mark .desc { r.qparm with rangeStart := v1, rangeEnd := v2 }
  | .wrb x y => (rd.int x).bind fun v1 => (rd.int y).map fun v2 =>
      r.mark .wrb { r.qparm with rangeStart := v1, rangeEnd := v2 }
  | .wrbsz n => (rd.byte n r.qparm.entrySize).map fun v =>
      r.mark .wrbsz { r.qparm with entrySize := v }

def RegAddr.eval (a : RegAddr) : Option XcmdReg :=
  match a.bar with
  | some b => (rd.int b).bind fun bar => (rd.int a.addr).map fun reg =>
      { XcmdReg.zero with bar := bar, reg := reg, sflags := 0 ||| xcmdRegFBarSet ||| xcmdRegFRegSet }
  | none => (rd.int a.addr).map fun reg =>
      { XcmdReg.zero with reg := reg, sflags := 0 ||| xcmdRegFRegSet }

def QOp.cmd : QOp → XnlCmd
  | .add => .qAdd
  | .start => .qStart
  | .stop => .qStop
  | .del => .qDel
  | .dump => .qDump

def QOp.required : QOp → BitVec 32
  | .add => 0
  | _ => QparmType.idx.bit

/-- Before any parameter. -/
def qparmStart : QparmRead :=
  { qparm := { XcmdQParm.zero with idx := xnlQidxInvalid }, fArgSet := 0 }

/-- The parameters of a queue command, checked. -/
def qparmEval (op : QOp) (ps : List Qparm) : Option XcmdQParm :=
  (ps.foldlM (Qparm.apply rd) qparmStart).bind fun r => (qparmCheck r op.required).toOption

/-- What is made of a queue command once its parameters are there. -/
def QOp.finish (op : QOp) (x : XcmdInfo) : Option XcmdInfo :=
  (dumpKind (if op = .add then defaultEntrySize x else x)).toOption

def Req.fill (x : XcmdInfo) : Req → Option XcmdInfo
  | .info => some { x with op := .devInfo }
  | .regDump => some { x with reg := .zero, op := .regDump }
  | .regRead a => (a.eval rd).map fun reg => { x with reg := reg, op := .regRd }
  | .regWrite a val => (a.eval rd).bind fun reg => (rd.int val).map fun v =>
      { x with reg := { reg with val := v, sflags := reg.sflags ||| xcmdRegFValSet }, op := .regWrt }
  | .qList => some { x with op := .qList }
  | .q op ps => if ps = [] then none else
      (qparmEval rd op ps).bind fun q => op.finish { x with op := op.cmd, qparm := q }

def CmdLine.eval : CmdLine → Option XcmdInfo
  | .devList => some { XcmdInfo.zero with op := .devList }
  | .dev n r => (rd.dev n.digits).bind fun d =>
      r.fill rd { XcmdInfo.zero with vf := n.vf, ifIdx := d }

/-! ## The words of a command are parsed to what it comes to -/

theorem argReadInt_kwBar : argReadInt kwBar = .err (-einval) := by decide +kernel

theorem nextArgReadInt_cons (w : Word) (args : List Word) :
    (nextArgReadInt (w :: args)).toOption = (cReaders.int w).map (·, args) := by
  rw [nextArgReadInt, getNextArg, Parsed.ok_bind, Parsed.toOption_bind]
  change (cReaders.int w).bind _ = _
  cases cReaders.int w <;> rfl

/-- A number that is read and put away. -/
theorem nextArgReadInt_bind {α : Type} (w : Word) (args : List Word) (f : ℕ → α) :
    (nextArgReadInt (w :: args) >>= fun s => Parsed.ok (f s.1, s.2)).toOption =
      ((cReaders.int w).map f).map (·, args) := by
  rw [Parsed.toOption_bind, nextArgReadInt_cons]
  cases cReaders.int w <;> rfl

/-- A range that is read and put away. -/
theorem readRange_bind {α : Type} (x y : Word) (args : List Word) (f : ℕ → ℕ → α) :
    (readRange x (y :: args) >>= fun s => Parsed.ok (f s.1 s.2.1, s.2.2)).toOption =
      ((cReaders.int x).bind fun v1 => (cReaders.int y).map fun v2 => f v1 v2).map (·, args) := by
  have hoff : ¬ rangeEndOff < rangeStartOff := by decide
  rw [readRange, Parsed.toOption_bind, Parsed.toOption_bind]
  change ((cReaders.int x).bind _).bind _ = _
  cases cReaders.int x with
  | none => rfl
  | some v1 =>
    rw [Option.bind_some, getNextArg, Parsed.ok_bind, Parsed.toOption_bind]
    change ((cReaders.int y).bind _).bind _ = ((cReaders.int y).map _).map _
    cases cReaders.int y with
    | none => rfl
    | some v2 => simp [hoff]

/-- One turn of the loop takes a parameter. -/
theorem qparmStep_words (p : Qparm) (r : QparmRead) (args : List Word) :
    (qparmStep (r, p.words ++ args)).toOption = (p.apply cReaders r).map (·, args) := by
  cases p with
  | idx n =>
    exact nextArgReadInt_bind n args fun v => r.mark .idx { r.qparm with idx := v }
  | bufsz n =>
    exact nextArgReadInt_bind n args fun v => r.mark .bufsz { r.qparm with bufsz := v }
  | ringsz n =>
    exact nextArgReadInt_bind n args fun v => r.mark .rngsz { r.qparm with ringsz := v }
  | mode st => cases st <;> rfl
  | dir c2h => cases c2h <;> rfl
  | cdev n =>
    change (nextArgReadInt (n :: args) >>= _).toOption = _
    rw [Parsed.toOption_bind, nextArgReadInt_cons, Qparm.apply]
    change ((argReadInt n).toOption.map _).bind _ = (((argReadInt n).toOption.bind _).map _).map _
    cases (argReadInt n).toOption with
    | none => rfl
    | some v =>
      by_cases hv : v ≠ 0 ∧ v ≠ 1
      · simp [hv]
      · by_cases h0 : v = 0
        · simp [h0]
        · have h1 : v = 1 := by omega
          simp [h1]
  | desc x y =>
    exact readRange_bind x y args fun v1 v2 =>
      r.mark .desc { r.qparm with rangeStart := v1, rangeEnd := v2 }
  | wrb x y =>
    exact readRange_bind x y args fun v1 v2 =>
      r.mark .wrb { r.qparm with rangeStart := v1, rangeEnd := v2 }
  | wrbsz n => rfl

theorem qparmLoop_nil (n : ℕ) (r : QparmRead) : qparmLoop n (r, []) = .ok (r, []) := by
  induction n with
  | zero => rfl
  | succ n ih =>
    rw [qparmLoop]
    exact ih

/-- The loop takes the parameters, as many as there are. -/
theorem qparmLoop_words (ps : List Qparm) (n : ℕ) (hn : ps.length ≤ n) (r : QparmRead) :
    (qparmLoop n (r, ps.flatMap Qparm.words)).toOption =
      (ps.foldlM (Qparm.apply cReaders) r).map (·, []) := by
  induction ps generalizing n r with
  | nil => rw [List.flatMap_nil, qparmLoop_nil]; rfl
  | cons p ps ih =>
    obtain ⟨n, rfl⟩ : ∃ m, n = m + 1 := ⟨n - 1, by simp at hn; omega⟩
    rw [List.flatMap_cons, qparmLoop, Parsed.toOption_bind, qparmStep_words, List.foldlM_cons]
    change _ = ((p.apply cReaders r).bind _).map _
    cases p.apply cReaders r with
    | none => rfl
    | some r' => exact ih n (Nat.le_of_succ_le_succ hn) r'

theorem Qparm.two_le_words (p : Qparm) : 2 ≤ p.words.length := by
  cases p <;> simp [Qparm.words]

theorem length_le_flatMap_words (ps : List Qparm) :
    ps.length ≤ (ps.flatMap Qparm.words).length := by
  induction ps with
  | nil => exact le_rfl
  | cons p ps ih =>
    have hp := p.two_le_words
    rw [List.flatMap_cons, List.length_append, List.length_cons]
    omega

theorem readQparm_words (op : QOp) (ps : List Qparm) :
    (readQparm (ps.flatMap Qparm.words) .zero op.required).toOption = qparmEval cReaders op ps := by
  have hloop := qparmLoop_words ps _ (length_le_flatMap_words ps) qparmStart
  rw [readQparm, Parsed.toOption_bind]
  change ((qparmLoop _ (qparmStart, _)).toOption).bind _ = _
  rw [hloop, qparmEval]
  cases ps.foldlM (Qparm.apply cReaders) qparmStart <;> rfl

theorem readQCmd_words (op : QOp) {ps : List Qparm} (hps : ps ≠ []) {x : XcmdInfo}
    (hx : x.qparm = .zero) :
    (readQCmd op.cmd op.required (ps.flatMap Qparm.words) x).toOption =
      (qparmEval cReaders op ps).map fun q => { x with op := op.cmd, qparm := q } := by
  obtain ⟨p, ps, rfl⟩ := List.exists_cons_of_ne_nil hps
  obtain ⟨w, args, hargs⟩ : ∃ w args, (p :: ps).flatMap Qparm.words = w :: args := by
    refine List.exists_cons_of_ne_nil fun h => ?_
    have hlen := length_le_flatMap_words (p :: ps)
    simp [h] at hlen
  have hread := readQparm_words op (p :: ps)
  rw [← hread, hargs, readQCmd, getNextArg, Parsed.ok_bind, Parsed.toOption_bind, hx]
  cases (readQparm (w :: args) .zero op.required).toOption <;> rfl

theorem parseQCmd_words (op : QOp) {ps : List Qparm} (hps : ps ≠ []) {x : XcmdInfo}
    (hx : x.qparm = .zero) :
    (parseQCmd (op.word :: ps.flatMap Qparm.words) x).toOption =
      ((qparmEval cReaders op ps).bind fun q =>
        op.finish { x with op := op.cmd, qparm := q }).map (·, []) := by
  have hread := readQCmd_words op hps hx
  generalize ps.flatMap Qparm.words = args at hread ⊢
  have hfin : ∀ (y : Parsed XcmdInfo), y.toOption = (qparmEval cReaders op ps).map
        (fun q => if op = .add then defaultEntrySize { x with op := op.cmd, qparm := q }
          else { x with op := op.cmd, qparm := q }) →
      (y >>= fun x => dumpKind x >>= fun x => Parsed.ok (x, ([] : List Word))).toOption =
        ((qparmEval cReaders op ps).bind fun q =>
          op.finish { x with op := op.cmd, qparm := q }).map (·, []) := by
    intro y hy
    rw [Parsed.toOption_bind, hy]
    cases qparmEval cReaders op ps with
    | none => rfl
    | some q =>
      change (dumpKind _ >>= _).toOption = (QOp.finish _ _).map _
      rw [Parsed.toOption_bind, QOp.finish]
      cases (dumpKind _).toOption <;> rfl
  cases op with
  | add =>
    -- `add` alone has something to do behind `read_qparm`
    change (readQCmd .qAdd 0 args x).toOption = _ at hread
    refine hfin (readQCmd .qAdd 0 args x >>= fun x => .ok (defaultEntrySize x)) ?_
    rw [Parsed.toOption_bind, hread]
    cases qparmEval cReaders .add ps <;> rfl
  | start | stop | del | dump => exact hfin _ hread

theorem readRegAddr_words (a : RegAddr) {rest : List Word} (hrest : rest.length ≤ 1) :
    (readRegAddr (a.words ++ rest) .zero).toOption = (a.eval cReaders).map (·, rest) := by
  obtain ⟨bar, addr⟩ := a
  cases bar with
  | some b =>
    change (nextArgReadInt (b :: addr :: rest) >>= _).toOption = ((cReaders.int b).bind _).map _
    rw [Parsed.toOption_bind, nextArgReadInt_cons]
    cases cReaders.int b with
    | none => rfl
    | some bar =>
      change (argReadInt addr >>= _).toOption = ((cReaders.int addr).map _).map _
      rw [Parsed.toOption_bind]
      change (cReaders.int addr).bind _ = _
      cases cReaders.int addr <;> rfl
  | none =>
    change (readRegAddr (addr :: rest) .zero).toOption = ((cReaders.int addr).map _).map _
    rw [readRegAddr, getNextArg, Parsed.ok_bind]
    dsimp only
    by_cases hbar : addr = kwBar
    · -- the keyword is no number, and there are not enough words for it to be a keyword
      have hnone : cReaders.int kwBar = none := by
        change (argReadInt kwBar).toOption = none
        rw [argReadInt_kwBar]
        rfl
      rw [if_pos hbar, hbar, hnone, Parsed.toOption_bind]
      cases rest with
      | nil => rfl
      | cons b rest =>
        obtain rfl : rest = [] := List.eq_nil_of_length_eq_zero (by simpa using hrest)
        rw [nextArgReadInt_cons]
        cases cReaders.int b <;> rfl
    · rw [if_neg hbar, Parsed.toOption_bind]
      change (cReaders.int addr).bind _ = _
      cases cReaders.int addr <;> rfl

theorem parseRegCmd_read (a : RegAddr) (x : XcmdInfo) :
    (parseRegCmd (kwRead :: a.words) x).toOption =
      ((Req.regRead a).fill cReaders x).map (·, []) := by
  have haddr := readRegAddr_words a (show ([] : List Word).length ≤ 1 by simp)
  rw [List.append_nil] at haddr
  change (readRegAddr a.words .zero >>= _).toOption = _
  rw [Parsed.toOption_bind, haddr, Req.fill]
  cases a.eval cReaders <;> rfl

theorem parseRegCmd_write (a : RegAddr) (val : Word) (x : XcmdInfo) :
    (parseRegCmd (kwWrite :: (a.words ++ [val])) x).toOption =
      ((Req.regWrite a val).fill cReaders x).map (·, []) := by
  change (readRegAddr (a.words ++ [val]) .zero >>= _).toOption = _
  rw [Parsed.toOption_bind, readRegAddr_words a (by simp), Req.fill]
  cases a.eval cReaders with
  | none => rfl
  | some reg =>
    change (nextArgReadInt [val] >>= _).toOption = ((cReaders.int val).map _).map _
    rw [Parsed.toOption_bind, nextArgReadInt_cons]
    cases cReaders.int val <;> rfl

/-! ### The name of the device -/

theorem not_figure_v : isFigure 'v' = false := by decide

theorem IfName.length_lt (n : IfName) : n.word.length < 10 := by
  have hshort := n.short
  rw [IfName.word]
  cases hvf : n.vf <;> simp [hvf, kwQdma] at hshort ⊢ <;> omega

/-- Figures behind `qdma` are not taken for the name of a VF. -/
theorem IfName.is_vf (n : IfName) :
    (n.word[4]? == some 'v' && n.word[5]? == some 'f') = n.vf := by
  obtain ⟨vf, digits, figures, -⟩ := n
  cases vf with
  | true => rfl
  | false =>
    cases digits with
    | nil => rfl
    | cons c cs =>
      have hc : isFigure c = true := List.all_eq_true.mp figures c (List.mem_cons_self ..)
      have hv : c ≠ 'v' := by
        rintro rfl
        rw [not_figure_v] at hc
        exact Bool.false_ne_true hc
      simp [IfName.word, kwQdma, hv]

theorem IfName.drop_word (n : IfName) : n.word.drop (if n.vf then 6 else 4) = n.digits := by
  rw [IfName.word]
  cases n.vf <;> rfl

theorem parseIfname_word (n : IfName) (x : XcmdInfo) :
    (parseIfname n.word x).toOption =
      (cReaders.dev n.digits).map fun d => { x with vf := n.vf, ifIdx := d } := by
  have htake : n.word.take 4 = kwQdma := rfl
  rw [parseIfname, if_neg (by have := n.length_lt; omega), if_neg (not_not_intro htake)]
  dsimp only
  rw [n.is_vf, n.drop_word, if_pos n.figures, Parsed.toOption_bind]
  change (argReadInt n.digits).toOption.bind _ = ((argReadInt n.digits).toOption.map _).map _
  cases (argReadInt n.digits).toOption <;> rfl

/-! ### The whole line -/

theorem parseArgs_words (n : IfName) (r : Req) :
    (parseArgs n.word r.words).toOption = ((CmdLine.dev n r).eval cReaders).map (·, []) := by
  have hdev : n.word ≠ kwDev := fun h => by simp [IfName.word, kwQdma, kwDev] at h
  rw [parseArgs, if_neg hdev, Parsed.toOption_bind, parseIfname_word, CmdLine.eval]
  cases cReaders.dev n.digits with
  | none => rfl
  | some d =>
    change Parsed.toOption _ = Option.map _ (r.fill cReaders _)
    cases r with
    | info | regDump | qList => rfl
    | regRead a => exact parseRegCmd_read a _
    | regWrite a val => exact parseRegCmd_write a val _
    | q op ps =>
      rw [Req.fill]
      split_ifs with hps
      · rw [hps]
        cases op <;> rfl
      · exact parseQCmd_words op hps rfl

theorem parseCmd_words (prog : Word) (c : CmdLine) :
    (parseCmd (prog :: c.words)).toOption = c.eval cReaders := by
  cases c with
  | devList => rfl
  | dev n r =>
    have hhelp : ¬ (r.words = [] ∧ n.word ∈ kwsHelp) := fun h => by
      simp [IfName.word, kwQdma, kwsHelp] at h
    have hversion : ¬ (r.words = [] ∧ n.word ∈ kwsVersion) := fun h => by
      simp [IfName.word, kwQdma, kwsVersion] at h
    rw [CmdLine.words, parseCmd, if_neg hhelp, if_neg hversion, Parsed.toOption_bind,
      parseArgs_words]
    cases (CmdLine.dev n r).eval cReaders <;> rfl

/-! ## Nothing else is accepted -/

theorem getNextArg_ok {args rest : List Word} {w : Word} (h : getNextArg args = .ok (w, rest)) :
    args = w :: rest := by
  cases args with
  | nil => exact nomatch h
  | cons w' args => cases h; rfl

theorem nextArgReadInt_ok {args rest : List Word} {v : ℕ}
    (h : nextArgReadInt args = .ok (v, rest)) : ∃ n, args = n :: rest := by
  obtain ⟨⟨n, args'⟩, hnext, h⟩ := Parsed.bind_eq_ok.mp h
  obtain ⟨v', -, h⟩ := Parsed.bind_eq_ok.mp h
  cases h
  exact ⟨n, getNextArg_ok hnext⟩

theorem readRange_ok {x : Word} {args rest : List Word} {v1 v2 : ℕ}
    (h : readRange x args = .ok (v1, v2, rest)) : ∃ y, args = y :: rest := by
  obtain ⟨v1', -, h⟩ := Parsed.bind_eq_ok.mp h
  obtain ⟨⟨y, args'⟩, hnext, h⟩ := Parsed.bind_eq_ok.mp h
  obtain ⟨v2', -, h⟩ := Parsed.bind_eq_ok.mp h
  split_ifs at h
  cases h
  exact ⟨y, getNextArg_ok hnext⟩

/-- A number that was read and put away stood in front. -/
theorem nextArgReadInt_bind_ok {α : Type} {args : List Word} {f : ℕ → α} {s : α × List Word}
    (h : (nextArgReadInt args >>= fun s => Parsed.ok (f s.1, s.2)) = .ok s) :
    ∃ n, args = n :: s.2 := by
  obtain ⟨⟨v, rest⟩, hread, hs⟩ := Parsed.bind_eq_ok.mp h
  cases hs
  exact nextArgReadInt_ok hread

/-- So did the two of a range. -/
theorem readRange_bind_ok {α : Type} {args : List Word} {f : ℕ → ℕ → α} {s : α × List Word}
    (h : (getNextArg args >>= fun w => readRange w.1 w.2 >>= fun s =>
      Parsed.ok (f s.1 s.2.1, s.2.2)) = .ok s) : ∃ x y, args = x :: y :: s.2 := by
  obtain ⟨⟨x, rest⟩, hnext, h1⟩ := Parsed.bind_eq_ok.mp h
  obtain ⟨⟨v1, v2, rest'⟩, hread, h2⟩ := Parsed.bind_eq_ok.mp h1
  obtain ⟨y, hy⟩ := readRange_ok hread
  have hrest : rest = y :: rest' := hy
  cases h2
  exact ⟨x, y, by rw [getNextArg_ok hnext, hrest]⟩

/-- A turn of the loop that succeeds has taken the words of a parameter. -/
theorem qparmStep_ok {r : QparmRead} {w : Word} {args : List Word} {s : QparmRead × List Word}
    (h : qparmStep (r, w :: args) = .ok s) : ∃ p : Qparm, w :: args = p.words ++ s.2 := by
  rw [qparmStep] at h
  dsimp only at h
  split_ifs at h with hw hw hw hw hw hw hw hw hw
  · obtain ⟨n, hn⟩ := nextArgReadInt_bind_ok
      (f := fun v => r.mark .idx { r.qparm with idx := v }) h
    exact ⟨.idx n, by rw [hw, hn]; rfl⟩
  · obtain ⟨⟨m, rest⟩, hread, h1⟩ := Parsed.bind_eq_ok.mp h
    have hm := getNextArg_ok hread
    dsimp only at h1
    split_ifs at h1 with hmm hst
    · cases h1
      exact ⟨.mode false, by rw [hw, hm, hmm]; rfl⟩
    · cases h1
      exact ⟨.mode true, by rw [hw, hm, hst]; rfl⟩
  · obtain ⟨⟨m, rest⟩, hread, h1⟩ := Parsed.bind_eq_ok.mp h
    have hm := getNextArg_ok hread
    dsimp only at h1
    split_ifs at h1 with hh2c hc2h
    · cases h1
      exact ⟨.dir false, by rw [hw, hm, hh2c]; rfl⟩
    · cases h1
      exact ⟨.dir true, by rw [hw, hm, hc2h]; rfl⟩
  · -- the number picks the branch, but the words are the same
    obtain ⟨⟨v, rest⟩, hread, h1⟩ := Parsed.bind_eq_ok.mp h
    obtain ⟨n, hn⟩ := nextArgReadInt_ok hread
    dsimp only at h1
    split_ifs at h1 <;> cases h1 <;> exact ⟨.cdev n, by rw [hw, hn]; rfl⟩
  · obtain ⟨n, hn⟩ := nextArgReadInt_bind_ok
      (f := fun v => r.mark .bufsz { r.qparm with bufsz := v }) h
    exact ⟨.bufsz n, by rw [hw, hn]; rfl⟩
  · obtain ⟨n, hn⟩ := nextArgReadInt_bind_ok
      (f := fun v => r.mark .rngsz { r.qparm with ringsz := v }) h
    exact ⟨.ringsz n, by rw [hw, hn]; rfl⟩
  · obtain ⟨x, y, hxy⟩ := readRange_bind_ok
      (f := fun v1 v2 => r.mark .desc { r.qparm with rangeStart := v1, rangeEnd := v2 }) h
    exact ⟨.desc x y, by rw [hw, hxy]; rfl⟩
  · obtain ⟨x, y, hxy⟩ := readRange_bind_ok
      (f := fun v1 v2 => r.mark .wrb { r.qparm with rangeStart := v1, rangeEnd := v2 }) h
    exact ⟨.wrb x y, by rw [hw, hxy]; rfl⟩
  · obtain ⟨⟨n, rest⟩, hread, h1⟩ := Parsed.bind_eq_ok.mp h
    have hn := getNextArg_ok hread
    cases h1
    exact ⟨.wrbsz n, by rw [hw, hn]; rfl⟩

/-- The loop takes parameters, and all of the words.  Induction on the turns: each takes two
words at least, so that there are turns enough for those that are left. -/
theorem qparmLoop_ok {n : ℕ} {r : QparmRead} {args : List Word} {s : QparmRead × List Word}
    (hn : args.length ≤ n) (h : qparmLoop n (r, args) = .ok s) :
    ∃ ps : List Qparm, args = ps.flatMap Qparm.words := by
  induction n generalizing r args with
  | zero => exact ⟨[], List.eq_nil_of_length_eq_zero (by omega)⟩
  | succ n ih =>
    cases args with
    | nil => exact ⟨[], rfl⟩
    | cons w args =>
      obtain ⟨⟨r', rest⟩, hstep, h⟩ := Parsed.bind_eq_ok.mp h
      obtain ⟨p, hp⟩ := qparmStep_ok hstep
      have hlen := congrArg List.length hp
      have htwo := p.two_le_words
      simp only [List.length_cons, List.length_append] at hlen hn
      obtain ⟨ps, rfl⟩ := ih (by omega) h
      exact ⟨p :: ps, hp⟩

theorem readQCmd_ok {op : XnlCmd} {required : BitVec 32} {args : List Word} {x x' : XcmdInfo}
    (h : readQCmd op required args x = .ok x') :
    ∃ ps : List Qparm, args = ps.flatMap Qparm.words := by
  obtain ⟨-, -, h⟩ := Parsed.bind_eq_ok.mp h
  obtain ⟨q, hread, -⟩ := Parsed.bind_eq_ok.mp h
  obtain ⟨s, hloop, -⟩ := Parsed.bind_eq_ok.mp hread
  exact qparmLoop_ok le_rfl hloop

theorem readQOp_ok {w : Word} {args : List Word} {x x' : XcmdInfo}
    (h : readQOp w args x = .ok x') :
    ∃ (op : QOp) (ps : List Qparm), w = op.word ∧ args = ps.flatMap Qparm.words := by
  rw [readQOp] at h
  split_ifs at h with hw hw hw hw hw
  · obtain ⟨y, h, -⟩ := Parsed.bind_eq_ok.mp h
    obtain ⟨ps, hps⟩ := readQCmd_ok h
    exact ⟨.add, ps, hw, hps⟩
  · obtain ⟨ps, hps⟩ := readQCmd_ok h
    exact ⟨.start, ps, hw, hps⟩
  · obtain ⟨ps, hps⟩ := readQCmd_ok h
    exact ⟨.stop, ps, hw, hps⟩
  · obtain ⟨ps, hps⟩ := readQCmd_ok h
    exact ⟨.del, ps, hw, hps⟩
  · obtain ⟨ps, hps⟩ := readQCmd_ok h
    exact ⟨.dump, ps, hw, hps⟩

theorem readRegAddr_ok {args rest : List Word} {reg reg' : XcmdReg}
    (h : readRegAddr args reg = .ok (reg', rest)) : ∃ a : RegAddr, args = a.words ++ rest := by
  obtain ⟨⟨w, args0⟩, hnext, h0⟩ := Parsed.bind_eq_ok.mp h
  rw [getNextArg_ok hnext]
  dsimp only at h0
  split_ifs at h0 with hbar
  · obtain ⟨⟨bar, args1⟩, hread, h1⟩ := Parsed.bind_eq_ok.mp h0
    obtain ⟨b, hb⟩ := nextArgReadInt_ok hread
    obtain ⟨⟨a, args2⟩, ha, h2⟩ := Parsed.bind_eq_ok.mp h1
    obtain ⟨v, -, h3⟩ := Parsed.bind_eq_ok.mp h2
    cases h3
    have hargs1 : args1 = a :: args2 := getNextArg_ok ha
    exact ⟨{ bar := some b, addr := a }, by rw [hbar, hb, hargs1]; rfl⟩
  · obtain ⟨v, -, h1⟩ := Parsed.bind_eq_ok.mp h0
    cases h1
    exact ⟨{ bar := none, addr := w }, rfl⟩

theorem parseRegCmd_ok {args : List Word} {x x' : XcmdInfo}
    (h : parseRegCmd args x = .ok (x', [])) : ∃ r : Req, kwReg :: args = r.words := by
  cases args with
  | nil => exact nomatch h
  | cons w args =>
    rw [parseRegCmd] at h
    split_ifs at h with hw hw hw
    · cases h
      exact ⟨.regDump, by rw [hw]; rfl⟩
    · obtain ⟨⟨reg, rest⟩, hread, h⟩ := Parsed.bind_eq_ok.mp h
      cases h
      obtain ⟨a, ha⟩ := readRegAddr_ok hread
      exact ⟨.regRead a, by rw [hw, ha, List.append_nil]; rfl⟩
    · obtain ⟨⟨reg, rest⟩, hread, h⟩ := Parsed.bind_eq_ok.mp h
      obtain ⟨a, ha⟩ := readRegAddr_ok hread
      obtain ⟨⟨val, rest'⟩, hval, h⟩ := Parsed.bind_eq_ok.mp h
      cases h
      obtain ⟨v, hv⟩ := nextArgReadInt_ok hval
      exact ⟨.regWrite a v, by rw [hw, ha, hv]; rfl⟩
    · cases h

theorem parseQCmd_ok {args : List Word} {x x' : XcmdInfo}
    (h : parseQCmd args x = .ok (x', [])) : ∃ r : Req, kwQ :: args = r.words := by
  cases args with
  | nil => exact nomatch h
  | cons w args =>
    rw [parseQCmd] at h
    split_ifs at h with hw
    · cases h
      exact ⟨.qList, by rw [hw]; rfl⟩
    · obtain ⟨y, hread, -⟩ := Parsed.bind_eq_ok.mp h
      obtain ⟨op, ps, hop, hps⟩ := readQOp_ok hread
      exact ⟨.q op ps, by rw [hop, hps]; rfl⟩

theorem eq_vf_cons {t : Word} (h : (t[0]? == some 'v' && t[1]? == some 'f') = true) :
    t = ['v', 'f'] ++ t.drop 2 := by
  match t with
  | [] => exact absurd h Bool.false_ne_true
  | [c] => simp at h
  | c :: d :: digits =>
    obtain ⟨hc, hd⟩ : c = 'v' ∧ d = 'f' := by simpa using h
    rw [hc, hd]
    rfl

theorem parseIfname_ok {name : Word} {x x' : XcmdInfo} (h : parseIfname name x = .ok x') :
    ∃ n : IfName, name = n.word := by
  rw [parseIfname] at h
  split_ifs at h with hlong hqdma
  obtain ⟨t, rfl⟩ : ∃ t, name = kwQdma ++ t :=
    ⟨name.drop 4, by rw [← not_not.mp hqdma, List.take_append_drop]⟩
  have hlen : t.length < 6 := by
    rw [List.length_append] at hlong
    simp [kwQdma] at hlong
    omega
  have h4 : (kwQdma ++ t)[4]? = t[0]? := rfl
  have h5 : (kwQdma ++ t)[5]? = t[1]? := rfl
  rw [h4, h5] at h
  dsimp only at h
  split_ifs at h with hvf hfig hfig
  · have ht := eq_vf_cons hvf
    have hshort : (t.drop 2).length < 4 := by
      rw [List.length_drop]
      omega
    exact ⟨{ vf := true, digits := t.drop 2, figures := hfig, short := hshort },
      congrArg (kwQdma ++ ·) ht⟩
  · exact ⟨{ vf := false, digits := t, figures := hfig, short := hlen }, rfl⟩

theorem parseArgs_ok {w : Word} {args : List Word} {x : XcmdInfo}
    (h : parseArgs w args = .ok (x, [])) : ∃ c : CmdLine, w :: args = c.words := by
  rw [parseArgs] at h
  split_ifs at h with hdev
  · cases args with
    | nil => exact nomatch h
    | cons o args =>
      rw [parseDevCmd] at h
      split_ifs at h with hlist
      · cases h
        exact ⟨.devList, by rw [hdev, hlist]; rfl⟩
      · cases h
  · obtain ⟨y, hname, hargs⟩ := Parsed.bind_eq_ok.mp h
    obtain ⟨n, hn⟩ := parseIfname_ok hname
    rw [hn]
    cases args with
    | nil => exact ⟨.dev n .info, rfl⟩
    | cons o args =>
      dsimp only at hargs
      split_ifs at hargs with hreg hq
      · obtain ⟨r, hr⟩ := parseRegCmd_ok hargs
        exact ⟨.dev n r, by rw [hreg, hr]; rfl⟩
      · obtain ⟨r, hr⟩ := parseQCmd_ok hargs
        exact ⟨.dev n r, by rw [hq, hr]; rfl⟩

theorem exists_words_of_ok {argv : List Word} {x : XcmdInfo} (h : parseCmd argv = .ok x) :
    ∃ c : CmdLine, argv.tail = c.words := by
  cases argv with
  | nil => exact nomatch h
  | cons prog argv =>
    cases argv with
    | nil => exact nomatch h
    | cons w args =>
      rw [parseCmd] at h
      split_ifs at h
      obtain ⟨⟨y, rest⟩, hargs, h⟩ := Parsed.bind_eq_ok.mp h
      dsimp only at h
      split_ifs at h with hrest
      obtain rfl : rest = [] := not_not.mp hrest
      exact parseArgs_ok hargs

/-! ## Safety -/

theorem argReadInt_cases (s : Word) :
    (∃ v, argReadInt s = .ok v) ∨ argReadInt s = .err (-einval) := by
  rw [argReadInt]
  split_ifs
  · exact Or.inr rfl
  · exact Or.inl ⟨_, rfl⟩

theorem argReadInt_orderly (s : Word) : (argReadInt s).Orderly := by
  obtain ⟨v, hv⟩ | herr := argReadInt_cases s
  · rw [hv]
    trivial
  · rw [herr]
    exact Parsed.orderly_einval

theorem getNextArg_orderly (args : List Word) : (getNextArg args).Orderly := by
  cases args <;> simp [getNextArg]

theorem nextArgReadInt_orderly (args : List Word) : (nextArgReadInt args).Orderly :=
  (getNextArg_orderly args).bind fun _ _ => (argReadInt_orderly _).bind fun _ _ => trivial

theorem readRange_orderly (w : Word) (args : List Word) : (readRange w args).Orderly := by
  refine (argReadInt_orderly w).bind fun _ _ => (getNextArg_orderly args).bind fun _ _ =>
    (argReadInt_orderly _).bind fun _ _ => ?_
  split_ifs <;> simp

theorem parseIfname_cases (name : Word) (x : XcmdInfo) :
    (∃ x', parseIfname name x = .ok x') ∨ parseIfname name x = .err (-einval) := by
  rw [parseIfname]
  dsimp only
  generalize name.drop _ = digits
  split_ifs
  · exact Or.inr rfl
  · exact Or.inr rfl
  · obtain ⟨v, hv⟩ | herr := argReadInt_cases digits
    · rw [hv]
      exact Or.inl ⟨_, rfl⟩
    · rw [herr]
      exact Or.inr rfl
  · exact Or.inr rfl

theorem readRegAddr_orderly (args : List Word) (reg : XcmdReg) :
    (readRegAddr args reg).Orderly := by
  refine (getNextArg_orderly args).bind fun s _ => ?_
  dsimp only
  split_ifs
  · exact (nextArgReadInt_orderly _).bind fun _ _ => (getNextArg_orderly _).bind fun _ _ =>
      (argReadInt_orderly _).bind fun _ _ => trivial
  · exact (argReadInt_orderly _).bind fun _ _ => trivial

theorem qparmStep_orderly (s : QparmRead × List Word) : (qparmStep s).Orderly := by
  obtain ⟨r, args⟩ := s
  cases args with
  | nil => trivial
  | cons w args =>
    rw [qparmStep]
    dsimp only
    split_ifs with hidx hmode hdir hcdev hbufsz hringsz hdesc hwrb hwrbsz
    · exact (nextArgReadInt_orderly args).bind fun _ _ => trivial
    · refine (getNextArg_orderly args).bind fun _ _ => ?_
      split_ifs <;> simp
    · refine (getNextArg_orderly args).bind fun _ _ => ?_
      split_ifs <;> simp
    · refine (nextArgReadInt_orderly args).bind fun _ _ => ?_
      split_ifs <;> simp
    · exact (nextArgReadInt_orderly args).bind fun _ _ => trivial
    · exact (nextArgReadInt_orderly args).bind fun _ _ => trivial
    · exact (getNextArg_orderly args).bind fun _ _ =>
        (readRange_orderly _ _).bind fun _ _ => trivial
    · exact (getNextArg_orderly args).bind fun _ _ =>
        (readRange_orderly _ _).bind fun _ _ => trivial
    · exact (getNextArg_orderly args).bind fun _ _ => trivial
    · exact Parsed.orderly_einval

theorem qparmLoop_orderly (n : ℕ) (s : QparmRead × List Word) : (qparmLoop n s).Orderly := by
  induction n generalizing s with
  | zero => trivial
  | succ n ih => exact (qparmStep_orderly s).bind fun s' _ => ih s'

theorem pairCheck_orderly (t : QparmType) (k k' : BitVec 32) (r : QparmRead) :
    (pairCheck t k k' r).Orderly := by
  rw [pairCheck]
  dsimp only
  split_ifs <;> simp

theorem qparmCheck_orderly (r : QparmRead) (required : BitVec 32) :
    (qparmCheck r required).Orderly := by
  rw [qparmCheck]
  split_ifs
  · exact Parsed.orderly_einval
  · exact (pairCheck_orderly _ _ _ r).bind fun _ _ =>
      (pairCheck_orderly _ _ _ _).bind fun _ _ => trivial

theorem readQCmd_orderly (op : XnlCmd) (required : BitVec 32) (args : List Word)
    (x : XcmdInfo) : (readQCmd op required args x).Orderly := by
  have hread : (readQparm args x.qparm required).Orderly :=
    (qparmLoop_orderly _ _).bind fun _ _ => qparmCheck_orderly _ _
  exact (getNextArg_orderly args).bind fun _ _ => hread.bind fun _ _ => trivial

theorem dumpKind_orderly (x : XcmdInfo) : (dumpKind x).Orderly := by
  rw [dumpKind]
  dsimp only
  split_ifs <;> simp

/-- The words behind `q` that say what to do with a queue. -/
def kwsQOp : List Word := [kwAdd, kwStart, kwStop, kwDel, kwDump]

theorem readQOp_orderly_iff (w : Word) (args : List Word) (x : XcmdInfo) :
    (readQOp w args x).Orderly ↔ w ∈ kwsQOp := by
  constructor
  · -- no other word leaves `rv` with a value
    intro h
    by_contra hw
    simp only [kwsQOp, List.mem_cons, List.not_mem_nil, or_false, not_or] at hw
    rw [readQOp, if_neg hw.1, if_neg hw.2.1, if_neg hw.2.2.1, if_neg hw.2.2.2.1,
      if_neg hw.2.2.2.2] at h
    exact h
  · intro hw
    rw [readQOp]
    split_ifs with hadd hstart hstop hdel hdump
    · exact (readQCmd_orderly _ _ _ _).bind fun _ _ => trivial
    · exact readQCmd_orderly _ _ _ _
    · exact readQCmd_orderly _ _ _ _
    · exact readQCmd_orderly _ _ _ _
    · exact readQCmd_orderly _ _ _ _
    · simp [kwsQOp, hadd, hstart, hstop, hdel, hdump] at hw

theorem parseQCmd_orderly_iff (w : Word) (args : List Word) (x : XcmdInfo) :
    (parseQCmd (w :: args) x).Orderly ↔ w = kwList ∨ w ∈ kwsQOp := by
  rw [parseQCmd]
  split_ifs with hlist
  · simp [hlist]
  · rw [or_iff_right hlist, ← readQOp_orderly_iff w args x]
    constructor
    · intro h
      cases hread : readQOp w args x with
      | ok y => trivial
      | err rv | exit n => rw [hread] at h; exact h
      | outside | unset => rw [hread] at h; exact h
    · exact fun h => h.bind fun y _ => (dumpKind_orderly y).bind fun _ _ => trivial

theorem parseRegCmd_orderly (w : Word) (args : List Word) (x : XcmdInfo) :
    (parseRegCmd (w :: args) x).Orderly := by
  rw [parseRegCmd]
  split_ifs
  · trivial
  · exact (readRegAddr_orderly _ _).bind fun _ _ => trivial
  · exact (readRegAddr_orderly _ _).bind fun _ _ =>
      (nextArgReadInt_orderly _).bind fun _ _ => trivial
  · trivial

/-- What stands for a device. -/
def NamesDevice (w : Word) : Prop := ∃ x, parseIfname w .zero = .ok x

/-- The word that says what to do is missing, or it is one that no queue command has. -/
def LacksOperation : List Word → Prop
  | [_, w] => w = kwDev
  | [_, w, o] => NamesDevice w ∧ (o = kwReg ∨ o = kwQ)
  | _ :: w :: o :: c :: _ => NamesDevice w ∧ o = kwQ ∧ ¬ (c = kwList ∨ c ∈ kwsQOp)
  | _ => False

/-- What the parser should do with a line. -/
structure ParsesSafely (argv : List Word) : Prop where
  orderly : (parseCmd argv).Orderly
  documented : ∀ x, parseCmd argv = .ok x → ∃ c : CmdLine, argv.tail = c.words

theorem not_namesDevice_kwDev : ¬ NamesDevice kwDev := by
  rintro ⟨x, hx⟩
  obtain ⟨n, hn⟩ := parseIfname_ok hx
  simp [IfName.word, kwQdma, kwDev] at hn

/-- Behind the name of a device, what is left decides. -/
theorem parseArgs_orderly_iff (w : Word) (args : List Word) :
    (parseArgs w args).Orderly ↔ ¬ LacksOperation ([] :: w :: args) := by
  by_cases hdev : w = kwDev
  · subst hdev
    have hno := not_namesDevice_kwDev
    match args with
    | [] => exact iff_of_false id (not_not_intro rfl)
    | [o] =>
      refine iff_of_true ?_ fun h => hno h.1
      rw [parseArgs, if_pos rfl, parseDevCmd]
      split_ifs <;> simp
    | o :: c :: rest =>
      refine iff_of_true ?_ fun h => hno h.1
      rw [parseArgs, if_pos rfl, parseDevCmd]
      split_ifs <;> simp
  · rw [parseArgs, if_neg hdev]
    obtain ⟨x, hname⟩ | hname := parseIfname_cases w .zero
    · have hyes : NamesDevice w := ⟨x, hname⟩
      rw [hname, Parsed.ok_bind]
      match args with
      | [] => exact iff_of_true trivial hdev
      | [o] =>
        dsimp only
        split_ifs with hreg hq
        · exact iff_of_false id (not_not_intro ⟨hyes, Or.inl hreg⟩)
        · exact iff_of_false id (not_not_intro ⟨hyes, Or.inr hq⟩)
        · exact iff_of_true Parsed.orderly_einval fun h => h.2.elim hreg hq
      | o :: c :: rest =>
        dsimp only
        split_ifs with hreg hq
        · have hoq : o ≠ kwQ := by rw [hreg]; decide
          exact iff_of_true (parseRegCmd_orderly _ _ _) fun h => hoq h.2.1
        · rw [parseQCmd_orderly_iff]
          exact ⟨fun hc hl => hl.2.2 hc, fun hl => by
            by_contra hc
            exact hl ⟨hyes, hq, hc⟩⟩
        · exact iff_of_true Parsed.orderly_einval fun h => hq h.2.1
    · have hno : ¬ NamesDevice w := fun ⟨x, hx⟩ => by
        rw [hname] at hx
        cases hx
      rw [hname, Parsed.err_bind]
      refine iff_of_true Parsed.orderly_einval ?_
      match args with
      | [] => exact hdev
      | [o] => exact fun h => hno h.1
      | o :: c :: rest => exact fun h => hno h.1

/-- No word that asks for the usage or the version is `dev`. -/
theorem ne_kwDev_of_mem {w : Word} (h : w ∈ kwsHelp ∨ w ∈ kwsVersion) : w ≠ kwDev := by
  rintro rfl
  revert h
  decide

theorem parse_safe_iff {argv : List Word} (h : argv ≠ []) :
    ParsesSafely argv ↔ ¬ LacksOperation argv := by
  have hdoc : ParsesSafely argv ↔ (parseCmd argv).Orderly :=
    ⟨fun hs => hs.orderly, fun ho => ⟨ho, fun _ hx => exists_words_of_ok hx⟩⟩
  rw [hdoc]
  match argv with
  | [prog] => exact iff_of_true trivial id
  | prog :: w :: args =>
    have hlacks : LacksOperation (prog :: w :: args) ↔ LacksOperation ([] :: w :: args) := by
      match args with
      | [] | [_] | _ :: _ :: _ => exact Iff.rfl
    rw [hlacks, ← parseArgs_orderly_iff, parseCmd]
    split_ifs with hhelp hversion
    · rw [hhelp.1]
      exact iff_of_true trivial ((parseArgs_orderly_iff w []).mpr (ne_kwDev_of_mem (Or.inl hhelp.2)))
    · rw [hversion.1]
      exact iff_of_true trivial
        ((parseArgs_orderly_iff w []).mpr (ne_kwDev_of_mem (Or.inr hversion.2)))
    · constructor
      · intro ho
        cases hargs : parseArgs w args with
        | ok y => trivial
        | err rv | exit n | outside | unset => rw [hargs] at ho; exact ho
      · intro ho
        refine ho.bind fun y _ => ?_
        dsimp only
        split_ifs <;> simp

/-- `dmactl dev list`. -/
theorem parse_safe_dev_list : ParsesSafely [['d'], kwDev, kwList] ↔
    ¬ LacksOperation [['d'], kwDev, kwList] :=
  parse_safe_iff (List.cons_ne_nil _ _)

/-- `dmactl qdma0 q up` branches on `rv`, and `dmactl dev` reads `argv[2]`. -/
theorem parse_unsafe :
    ¬ (∀ argv : List Word, argv ≠ [] → ParsesSafely argv) ∧
      parseCmd [['d'], kwQdma ++ ['0'], kwQ, ['u', 'p']] = .unset ∧
        parseCmd [['d'], kwDev] = .outside := by
  have hq : parseCmd [['d'], kwQdma ++ ['0'], kwQ, ['u', 'p']] = .unset := by decide +kernel
  refine ⟨fun h => ?_, hq, rfl⟩
  have hsafe := (h [['d'], kwQdma ++ ['0'], kwQ, ['u', 'p']] (List.cons_ne_nil _ _)).orderly
  rw [hq] at hsafe
  exact hsafe

end Qdma

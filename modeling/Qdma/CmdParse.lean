import Qdma.Lib.Numeral
import Qdma.NlQueue

/-!
# The command line

`parse_cmd` of the control tool reads `argv` from left to right.  Where the source has an index
`i`, there is the list of the words from `argv[i]` on; a read of `argv[i]` from the empty list
is a read of `argv[argc]`.

* `Parsed` is what may become of a parse.  `outside` and `unset` are what should not: a read
  past the last argument, and a branch on a variable that was given no value.
* `parseCmd` with `parseIfname`, `parseDevCmd`, `parseRegCmd`, `parseQCmd` and `readQparm`
  follow the source.  The turns of the loop in `read_qparm` are counted (`qparmLoop`).

The messages are left out.
-/

namespace Qdma

open Lib

abbrev Word := List Char

/-! ## Outcomes -/

inductive Parsed (α : Type) where
  | ok (a : α)
  | err (rv : ℤ)
  | exit (status : ℕ)
  | outside
  | unset
  deriving DecidableEq

namespace Parsed

variable {α β : Type}

protected def bind : Parsed α → (α → Parsed β) → Parsed β
  | ok a, f => f a
  | err rv, _ => err rv
  | exit n, _ => exit n
  | outside, _ => outside
  | unset, _ => unset

instance : Monad Parsed where
  pure := ok
  bind := Parsed.bind

@[simp] theorem ok_bind (a : α) (f : α → Parsed β) : (ok a >>= f) = f a := rfl

@[simp] theorem err_bind (rv : ℤ) (f : α → Parsed β) : (err rv >>= f) = err rv := rfl

theorem bind_eq_ok {x : Parsed α} {f : α → Parsed β} {b : β} :
    (x >>= f) = ok b ↔ ∃ a, x = ok a ∧ f a = ok b := by
  cases x with
  | ok a => exact ⟨fun h => ⟨a, rfl, h⟩, fun ⟨_, ha, h⟩ => ok.inj ha ▸ h⟩
  | err | exit | outside | unset => exact ⟨nofun, nofun⟩

/-- The value, when there is one. -/
def toOption : Parsed α → Option α
  | ok a => some a
  | _ => none

@[simp] theorem toOption_ok (a : α) : (ok a).toOption = some a := rfl

@[simp] theorem toOption_err (rv : ℤ) : (err rv : Parsed α).toOption = none := rfl

theorem toOption_eq_some {x : Parsed α} {a : α} : x.toOption = some a ↔ x = ok a := by
  cases x <;> simp [toOption]

theorem toOption_bind (x : Parsed α) (f : α → Parsed β) :
    (x >>= f).toOption = x.toOption.bind fun a => (f a).toOption := by
  cases x <;> rfl

/-- The program goes on with a value, returns a negative one, or exits. -/
def Orderly : Parsed α → Prop
  | ok _ => True
  | err rv => rv < 0
  | exit _ => True
  | outside => False
  | unset => False

@[simp] theorem orderly_ok (a : α) : (ok a).Orderly := trivial

@[simp] theorem orderly_einval : (err (-einval) : Parsed α).Orderly := by
  change -einval < 0
  decide

theorem Orderly.bind {x : Parsed α} {f : α → Parsed β} (hx : x.Orderly)
    (hf : ∀ a, x = ok a → (f a).Orderly) : (x >>= f).Orderly := by
  cases x with
  | ok a => exact hf a rfl
  | err | exit => exact hx
  | outside | unset => exact hx.elim

end Parsed

/-! ## Commands -/

inductive XnlCmd where
  | devList | devInfo | regDump | regRd | regWrt
  | qList | qAdd | qStart | qStop | qDel | qDump | qDesc | qWrb
  deriving DecidableEq

structure XcmdReg where
  sflags : BitVec 32
  bar : ℕ
  reg : ℕ
  val : ℕ
  deriving DecidableEq

structure XcmdQParm where
  sflags : BitVec 32
  flags : BitVec 32
  ringsz : ℕ
  bufsz : ℕ
  idx : ℕ
  rangeStart : ℕ
  rangeEnd : ℕ
  entrySize : ℕ
  deriving DecidableEq

/-- `struct xcmd_info`, as far as it is filled here.  The members of the union have fields of
their own: no more than one of them is written. -/
structure XcmdInfo where
  vf : Bool
  op : XnlCmd
  ifIdx : ℕ
  reg : XcmdReg
  qparm : XcmdQParm
  deriving DecidableEq

def XcmdReg.zero : XcmdReg := { sflags := 0, bar := 0, reg := 0, val := 0 }

def XcmdQParm.zero : XcmdQParm :=
  { sflags := 0, flags := 0, ringsz := 0, bufsz := 0, idx := 0, rangeStart := 0, rangeEnd := 0
    entrySize := 0 }

/-- After `memset`. -/
def XcmdInfo.zero : XcmdInfo :=
  { vf := false, op := .devList, ifIdx := 0, reg := .zero, qparm := .zero }

def xcmdRegFBarSet : BitVec 32 := 0x1
def xcmdRegFRegSet : BitVec 32 := 0x2
def xcmdRegFValSet : BitVec 32 := 0x4

def xnlFQdirC2hSt : BitVec 32 := xnlFQdirC2h ||| xnlFQmodeSt
def xnlFCdev : BitVec 32 := 0x10

/-- The parameters of a queue command, `QPARM_IDX` and so on. -/
inductive QparmType where
  | idx | mode | dir | rngsz | bufsz | cdev | desc | wrb | wrbsz
  deriving DecidableEq

def qparmMax : ℕ := 9

/-- `1 << QPARM_IDX` and so on. -/
def QparmType.bit (t : QparmType) : BitVec 32 := (1 : BitVec 32) <<< t.ctorIdx

/-! ## Words -/

def kwDev : Word := ['d', 'e', 'v']
def kwList : Word := ['l', 'i', 's', 't']
def kwReg : Word := ['r', 'e', 'g']
def kwQ : Word := ['q']
def kwDump : Word := ['d', 'u', 'm', 'p']
def kwRead : Word := ['r', 'e', 'a', 'd']
def kwWrite : Word := ['w', 'r', 'i', 't', 'e']
def kwBar : Word := ['b', 'a', 'r']
def kwAdd : Word := ['a', 'd', 'd']
def kwStart : Word := ['s', 't', 'a', 'r', 't']
def kwStop : Word := ['s', 't', 'o', 'p']
def kwDel : Word := ['d', 'e', 'l']
def kwIdx : Word := ['i', 'd', 'x']
def kwMode : Word := ['m', 'o', 'd', 'e']
def kwMm : Word := ['m', 'm']
def kwSt : Word := ['s', 't']
def kwDir : Word := ['d', 'i', 'r']
def kwH2c : Word := ['h', '2', 'c']
def kwC2h : Word := ['c', '2', 'h']
def kwCdev : Word := ['c', 'd', 'e', 'v']
def kwBufsz : Word := ['b', 'u', 'f', 's', 'z']
def kwRingsz : Word := ['r', 'i', 'n', 'g', 's', 'z']
def kwDesc : Word := ['d', 'e', 's', 'c']
def kwWrb : Word := ['w', 'r', 'b']
def kwWrbsz : Word := ['w', 'r', 'b', 's', 'z']
def kwQdma : Word := ['q', 'd', 'm', 'a']

/-- What asks for the usage. -/
def kwsHelp : List Word :=
  [['?'], ['-', 'h'], ['h', 'e', 'l', 'p'], ['-', '-', 'h', 'e', 'l', 'p']]

/-- What asks for the version. -/
def kwsVersion : List Word := [['-', 'v'], ['-', '-', 'v', 'e', 'r', 's', 'i', 'o', 'n']]

/-! ## Numbers -/

/-- `arg_read_int`. -/
def argReadInt (s : Word) : Parsed ℕ :=
  let r := strtoul 64 radixAny s
  if r.2 ≠ [] then .err (-einval) else .ok (u32 r.1)

/-- `sscanf(s, "%hhu", …)`: what was there is kept when there is no digit. -/
def sscanfHhu (s : Word) (old : ℕ) : ℕ :=
  if (scan radixTen s).digits = [] then old else (strtoul 64 radixTen s).1 % 2 ^ 8

/-- `parse_ifname`. -/
def parseIfname (name : Word) (xcmd : XcmdInfo) : Parsed XcmdInfo :=
  if 10 ≤ name.length then .err (-einval)
  else if name.take 4 ≠ kwQdma then .err (-einval)
  else
    let vf := name[4]? == some 'v' && name[5]? == some 'f'
    let pos := if vf then 6 else 4
    if (name.drop pos).all isFigure then do
      let v ← argReadInt (name.drop pos)
      .ok { xcmd with vf := vf, ifIdx := v % 2 ^ 8 }
    else .err (-einval)

/-! ## Parameters -/

/-- `get_next_arg`. -/
def getNextArg : List Word → Parsed (Word × List Word)
  | [] => .err (-einval)
  | w :: args => .ok (w, args)

/-- `next_arg_read_int`. -/
def nextArgReadInt (args : List Word) : Parsed (ℕ × List Word) := do
  let (w, args) ← getNextArg args
  let v ← argReadInt w
  .ok (v, args)

/-- What `reg read` and `reg write` do first: `[bar <N>] <addr>`. -/
def readRegAddr (args : List Word) (regcmd : XcmdReg) : Parsed (XcmdReg × List Word) := do
  let (w, args) ← getNextArg args
  if w = kwBar then
    let (bar, args) ← nextArgReadInt args
    let (w, args) ← getNextArg args
    let reg ← argReadInt w
    .ok ({ regcmd with
      bar := bar
      reg := reg
      sflags := regcmd.sflags ||| xcmdRegFBarSet ||| xcmdRegFRegSet }, args)
  else
    let reg ← argReadInt w
    .ok ({ regcmd with reg := reg, sflags := regcmd.sflags ||| xcmdRegFRegSet }, args)

/-- `parse_reg_cmd`. -/
def parseRegCmd (args : List Word) (xcmd : XcmdInfo) : Parsed (XcmdInfo × List Word) :=
  match args with
  | [] => .outside
  | w :: args =>
      if w = kwDump then .ok ({ xcmd with reg := .zero, op := .regDump }, args)
      else if w = kwRead then do
        let (reg, args) ← readRegAddr args .zero
        .ok ({ xcmd with reg := reg, op := .regRd }, args)
      else if w = kwWrite then do
        let (reg, args) ← readRegAddr args .zero
        let (val, args) ← nextArgReadInt args
        .ok ({ xcmd with
          reg := { reg with val := val, sflags := reg.sflags ||| xcmdRegFValSet }
          op := .regWrt }, args)
      else .ok ({ xcmd with reg := .zero }, w :: args)

/-- `offsetof(struct xcmd_q_parm, range_start)`, and that of the field behind it. -/
def rangeStartOff : ℕ := 20
def rangeEndOff : ℕ := 24

/-- `read_range`, into the two fields.  Its last test is `v2 < v1`: it compares the pointers. -/
def readRange (w : Word) (args : List Word) : Parsed (ℕ × ℕ × List Word) := do
  let v1 ← argReadInt w
  let (w, args) ← getNextArg args
  let v2 ← argReadInt w
  if rangeEndOff < rangeStartOff then .err (-einval) else .ok (v1, v2, args)

/-- The variables of `read_qparm`. -/
structure QparmRead where
  qparm : XcmdQParm
  fArgSet : BitVec 32
  deriving DecidableEq

/-- `f_arg_set |= …`. -/
def QparmRead.mark (r : QparmRead) (t : QparmType) (qparm : XcmdQParm) : QparmRead :=
  { qparm := qparm, fArgSet := r.fArgSet ||| t.bit }

/-- Once around the loop of `read_qparm`, for as long as there are words. -/
def qparmStep (s : QparmRead × List Word) : Parsed (QparmRead × List Word) :=
  let r := s.1
  let q := s.1.qparm
  match s.2 with
  | [] => .ok s
  | w :: args =>
      if w = kwIdx then do
        let (v, args) ← nextArgReadInt args
        .ok (r.mark .idx { q with idx := v }, args)
      else if w = kwMode then do
        let (w, args) ← getNextArg args
        if w = kwMm then .ok (r.mark .mode { q with flags := q.flags ||| xnlFQmodeMm }, args)
        else if w = kwSt then .ok (r.mark .mode { q with flags := q.flags ||| xnlFQmodeSt }, args)
        else .err (-einval)
      else if w = kwDir then do
        let (w, args) ← getNextArg args
        if w = kwH2c then .ok (r.mark .dir { q with flags := q.flags ||| xnlFQdirH2c }, args)
        else if w = kwC2h then .ok (r.mark .dir { q with flags := q.flags ||| xnlFQdirC2h }, args)
        else .err (-einval)
      else if w = kwCdev then do
        let (v, args) ← nextArgReadInt args
        if v ≠ 0 ∧ v ≠ 1 then .err (-einval)
        else if v ≠ 0 then .ok (r.mark .cdev { q with flags := q.flags ||| xnlFCdev }, args)
        else .ok (r.mark .cdev q, args)
      else if w = kwBufsz then do
        let (v, args) ← nextArgReadInt args
        .ok (r.mark .bufsz { q with bufsz := v }, args)
      else if w = kwRingsz then do
        let (v, args) ← nextArgReadInt args
        .ok (r.mark .rngsz { q with ringsz := v }, args)
      else if w = kwDesc then do
        let (w, args) ← getNextArg args
        let (v1, v2, args) ← readRange w args
        .ok (r.mark .desc { q with rangeStart := v1, rangeEnd := v2 }, args)
      else if w = kwWrb then do
        let (w, args) ← getNextArg args
        let (v1, v2, args) ← readRange w args
        .ok (r.mark .wrb { q with rangeStart := v1, rangeEnd := v2 }, args)
      else if w = kwWrbsz then do
        let (w, args) ← getNextArg args
        .ok (r.mark .wrbsz { q with entrySize := sscanfHhu w q.entrySize }, args)
      else .err (-einval)

def qparmLoop : ℕ → QparmRead × List Word → Parsed (QparmRead × List Word)
  | 0, s => .ok s
  | n + 1, s => qparmStep s >>= qparmLoop n

/-- The flags `k` and `k'` exclude each other, and `k` is the default. -/
def pairCheck (t : QparmType) (k k' : BitVec 32) (r : QparmRead) : Parsed QparmRead :=
  let mask := k ||| k'
  if hasFlag r.fArgSet t.bit then
    if r.qparm.flags &&& mask = mask then .err (-einval) else .ok r
  else .ok (r.mark t { r.qparm with flags := r.qparm.flags ||| k })

/-- What `read_qparm` does behind its loop, beginning with the parameters that are required. -/
def qparmCheck (r : QparmRead) (required : BitVec 32) : Parsed XcmdQParm :=
  if r.fArgSet &&& required ≠ required ∧ (List.range qparmMax).any (required.getLsbD ·) then
    .err (-einval)
  else do
    let r ← pairCheck .mode xnlFQmodeMm xnlFQmodeSt r
    let r ← pairCheck .dir xnlFQdirH2c xnlFQdirC2h r
    .ok { r.qparm with sflags := r.fArgSet }

/-- `read_qparm`.  Every turn of the loop takes a word, so there are no more turns than words. -/
def readQparm (args : List Word) (qparm : XcmdQParm) (required : BitVec 32) :
    Parsed XcmdQParm := do
  let s ← qparmLoop args.length
    ({ qparm := { qparm with idx := xnlQidxInvalid }, fArgSet := 0 }, args)
  qparmCheck s.1 required

/-! ## The commands -/

/-- A branch of `parse_q_cmd`, up to its `read_qparm`. -/
def readQCmd (op : XnlCmd) (required : BitVec 32) (args : List Word) (xcmd : XcmdInfo) :
    Parsed XcmdInfo := do
  let _ ← getNextArg args
  let q ← readQparm args xcmd.qparm required
  .ok { xcmd with op := op, qparm := q }

/-- What `add` does behind `read_qparm`.  The comparison of the source is made before the `&`,
so that the flags are taken with its result, 1. -/
def defaultEntrySize (xcmd : XcmdInfo) : XcmdInfo :=
  let q := xcmd.qparm
  let same : BitVec 32 := if xnlFQdirC2hSt = xnlFQdirC2hSt then 1 else 0
  if q.flags &&& same ≠ 0 then
    if hasFlag q.sflags QparmType.wrbsz.bit then xcmd
    else { xcmd with
      qparm := { q with entrySize := 3, sflags := q.sflags ||| QparmType.wrbsz.bit } }
  else xcmd

/-- What `parse_q_cmd` does last: a dump with a range is another command. -/
def dumpKind (xcmd : XcmdInfo) : Parsed XcmdInfo :=
  if xcmd.op = .qDump then
    let mask := QparmType.desc.bit ||| QparmType.wrb.bit
    if xcmd.qparm.sflags &&& mask = mask then .err (-einval)
    else if hasFlag xcmd.qparm.sflags QparmType.desc.bit then .ok { xcmd with op := .qDesc }
    else if hasFlag xcmd.qparm.sflags QparmType.wrb.bit then .ok { xcmd with op := .qWrb }
    else .ok xcmd
  else .ok xcmd

/-- The branches of `parse_q_cmd` but for `list`.  None gives `rv` a value for another word. -/
def readQOp (w : Word) (args : List Word) (xcmd : XcmdInfo) : Parsed XcmdInfo :=
  let idx := QparmType.idx.bit
  if w = kwAdd then do
    let x ← readQCmd .qAdd 0 args xcmd
    .ok (defaultEntrySize x)
  else if w = kwStart then readQCmd .qStart idx args xcmd
  else if w = kwStop then readQCmd .qStop idx args xcmd
  else if w = kwDel then readQCmd .qDel idx args xcmd
  else if w = kwDump then readQCmd .qDump idx args xcmd
  else .unset

/-- `parse_q_cmd`. -/
def parseQCmd (args : List Word) (xcmd : XcmdInfo) : Parsed (XcmdInfo × List Word) :=
  match args with
  | [] => .outside
  | w :: args =>
      if w = kwList then .ok ({ xcmd with op := .qList }, args)
      else do
        let x ← readQOp w args xcmd
        let x ← dumpKind x
        .ok (x, [])

/-- `parse_dev_cmd`. -/
def parseDevCmd (args : List Word) (xcmd : XcmdInfo) : Parsed (XcmdInfo × List Word) :=
  match args with
  | [] => .outside
  | w :: args =>
      if w = kwList then .ok ({ xcmd with op := .devList }, args) else .ok (xcmd, w :: args)

/-- `parse_cmd` from `argv[1]` on, when it is a command. -/
def parseArgs (w : Word) (args : List Word) : Parsed (XcmdInfo × List Word) :=
  if w = kwDev then parseDevCmd args .zero
  else do
    let xcmd ← parseIfname w .zero
    match args with
    | [] => .ok ({ xcmd with op := .devInfo }, [])
    | o :: args =>
        if o = kwReg then parseRegCmd args xcmd
        else if o = kwQ then parseQCmd args xcmd
        else .err (-einval)

/-- `parse_cmd`. -/
def parseCmd (argv : List Word) : Parsed XcmdInfo :=
  match argv with
  | [] => .outside
  | [_] => .exit 1
  | _ :: w :: args =>
      if args = [] ∧ w ∈ kwsHelp then .exit 0
      else if args = [] ∧ w ∈ kwsVersion then .exit 0
      else do
        let (xcmd, args) ← parseArgs w args
        if args ≠ [] then .err (-einval) else .ok xcmd

end Qdma

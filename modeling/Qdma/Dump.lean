import Qdma.Rx
import Qdma.Resources
import Qdma.Lib.TextBuf

/-!
# The dump commands

`qdma_queue_list`, `qdma_queue_dump`, `qdma_queue_dump_desc` and `qdma_queue_dump_wrb` write
what they find into the caller's buffer.  They should only read.

* `dumpCall` is the four commands: what is shown, part by part, the buffer it is written into,
  and the device afterwards.
* `DumpReads` is what a dump should be.  The dump of the descriptors dereferences the free
  list, which only a streaming C2H queue has.  The dump of the writeback ring walks the ring
  with `wrb_next`, which moves the consumer, and does not move the pointer it reads from.
  `dump_reads_iff` says when a dump is what it should be all the same.
-/

namespace Qdma

open Lib

/-! ## What is shown -/

/-- `n` bytes of a number, the low ones first. -/
def leBytes (n v : ℕ) : List (BitVec 8) := (List.range n).map fun k => BitVec.ofNat 8 (v >>> (8 * k))

/-- A descriptor as it is in memory, by the kind of the queue. -/
def QdmaDescq.descBytes (d : QdmaDescq) (e : QdmaDesc) : List (BitVec 8) :=
  if !d.conf.st then
    leBytes 8 e.srcAddr.toNat ++ leBytes 4 e.flagLen.toNat ++ leBytes 4 e.rsvd0.toNat ++
      leBytes 8 e.dstAddr.toNat ++ leBytes 8 e.rsvd1.toNat
  else if d.conf.c2h then leBytes 8 e.dstAddr.toNat
  else leBytes 8 e.srcAddr.toNat ++ leBytes 4 e.flagLen.toNat ++ leBytes 4 e.rsvd0.toNat

/-- The bytes of entry `pos` of the writeback ring. -/
def WrbRing.entryBytes (ring : WrbRing) (len pos : ℕ) : List (BitVec 8) :=
  (List.range len).map (ring.byte (ring.va + pos * len))

/-- A line of a ring: the number printed, the entry the pointer is at, and its bytes. -/
structure RingLine where
  num : ℕ
  pos : ℕ
  bytes : List (BitVec 8)
  deriving DecidableEq

/-- A part of a dump, with what it shows. -/
inductive DumpPart where
  | tooBig (idx qmax : ℕ)
  | stateInvalid (idx : ℕ)
  | counts (h2c c2h : ℕ)
  | state (d : QdmaDescq)
  | threads (d : QdmaDescq)
  | wrbRing (d : QdmaDescq)
  | ring (va : ℕ) (l : RingLine)
  | fl (e : FlDesc)
  | newline
  | wb (label : List Char) (va : ℕ) (sep : List Char) (bytes : List (BitVec 8))
  | ctxt (text : List Char)
  | nul

/-- A line of a descriptor or writeback ring. -/
def DumpPart.line? : DumpPart → Option RingLine
  | .ring _ l => some l
  | _ => none

/-! ## The text of a part -/

/-- The names and addresses that are printed. -/
structure DumpEnv where
  vf : Bool
  devIdx : ℕ
  devName : List Char
  wrkName : ℕ → List Char
  wbName : ℕ → List Char
  descqVa : ℕ → ℕ
  descVa : BitVec 64 → ℕ
  pageStruct : ℕ → ℕ
  pageVa : ℕ → ℕ
  pageMem : ℕ → ℕ → BitVec 8

def lit (s : String) : List Char := s.toList

/-- `%u` and `%d`. -/
def fmtDec (n : ℕ) : List Char := Nat.toDigits 10 n

/-- `%x`. -/
def fmtHex (n : ℕ) : List Char := Nat.toDigits 16 n

/-- `n` hexadecimal digits. -/
def hexPad (n v : ℕ) : List Char :=
  (List.range n).map fun k => Nat.digitChar (v >>> (4 * (n - 1 - k)) % 16)

/-- `0x%p`. -/
def fmtPtr (va : ℕ) : List Char := lit "0x" ++ hexPad 16 va

/-- The row `hex_dump_to_buffer` makes, with 16 bytes in a row and groups of four. -/
def hexRow (bytes : List (BitVec 8)) : List Char :=
  let row := bytes.take 16
  let group := if row.length % 4 = 0 then 4 else 1
  (List.range (row.length / group)).flatMap fun j =>
    (if j = 0 then [] else [' ']) ++
      ((row.drop (j * group)).take group).reverse.flatMap fun b => hexPad 2 b.toNat

/-- `conf.name`, which is empty until `qdma_descq_config` prints it and sets the ring size. -/
def DumpEnv.queueName (env : DumpEnv) (conf : QdmaQueueConf) : List Char :=
  if conf.rngsz = 0 then []
  else
    lit (if env.vf then "qdmavf" else "qdma") ++ fmtDec env.devIdx ++ lit "-" ++
      lit (if conf.st then "ST" else "MM") ++ lit "-" ++ lit (if conf.c2h then "C2H" else "H2C") ++
        lit "-" ++ fmtDec conf.qidx

/-- The word for the state of a queue, with its end of line. -/
def stateWord (d : QdmaDescq) : List Piece :=
  if d.online then [.full (lit "online"), .bare '\n']
  else if d.inited then [.full (lit "up"), .bare '\n']
  else if d.enabled then [.full (lit "cfg'ed"), .bare '\n']
  else [.full (lit "un-initialized\n")]

/-- The text of a part. -/
def DumpEnv.pieces (env : DumpEnv) : DumpPart → List Piece
  | .tooBig idx qmax =>
      [.full (env.devName ++ lit ", q idx too big 0x" ++ fmtHex idx ++ lit " > 0x" ++ fmtHex qmax ++
        lit ".\n")]
  | .stateInvalid idx =>
      [.full (env.devName ++ lit ", idx 0x" ++ fmtHex idx ++ lit ", q " ++ fmtPtr (env.descqVa idx) ++
        lit " state invalid.\n")]
  | .counts h2c c2h => [.full (lit "H2C Q: " ++ fmtDec h2c ++ lit ", C2H Q: " ++ fmtDec c2h ++ lit ".\n")]
  | .state d =>
      .full (lit "ID 0x" ++ fmtHex d.conf.qidx ++ lit ",0x" ++ fmtHex d.qidxHw ++ lit " " ++
        env.queueName d.conf ++ lit ": ") :: stateWord d
  | .threads d =>
      [.full (lit "\tthp " ++ (d.wrkthp.map env.wrkName).getD (lit "?") ++ lit ", " ++
        (d.wbthp.map env.wbName).getD (lit "?") ++ lit ", desc " ++
          fmtPtr ((d.desc.map fun r => env.descVa r.bus).getD 0) ++ lit "/0x" ++
            fmtHex ((d.desc.map fun r => r.bus.toNat).getD 0) ++ lit ", " ++ fmtDec d.conf.rngsz ++
              lit "\n")]
  | .wrbRing d =>
      [.full (lit "\twrb desc " ++ fmtPtr ((d.descWrb.map (·.va)).getD 0) ++ lit "/0x" ++
        fmtHex ((d.descWrb.map fun r => r.bus.toNat).getD 0) ++ lit ", " ++ fmtDec d.rngszWrb ++
          lit ", rxq 0x" ++ fmtHex d.rxQueue.dlen)]
  | .ring va l =>
      [.full (fmtDec l.num ++ lit ": " ++ fmtPtr va ++ lit " "), .bounded (hexRow l.bytes)]
  | .fl e =>
      [.full (lit " fl pg " ++ fmtPtr ((e.pg.map env.pageStruct).getD 0) ++ lit ", 0x" ++
        fmtHex e.dmaAddr.toNat ++ lit ".\n")]
  | .newline => [.bare '\n']
  | .wb label va sep bytes =>
      [.full (label ++ fmtPtr va ++ sep), .bounded (hexRow bytes), .bare '\n']
  | .ctxt text => [.full text]
  | .nul => [.full []]

/-- The text of several parts. -/
def DumpEnv.text (env : DumpEnv) (parts : List DumpPart) : List Piece := parts.flatMap env.pieces

/-- `len` behind several parts. -/
def DumpEnv.len (env : DumpEnv) (buflen : ℕ) (parts : List DumpPart) : ℕ :=
  (TextBuf.empty.writes buflen (env.text parts)).text.length

/-! ## The commands -/

/-- What is shown when `qdma_device_get_descq_by_id` finds nothing. -/
def XlnxDmaDev.notFound (dev : XlnxDmaDev) (id : ℕ) : DumpPart :=
  if dev.qmax ≤ id ∧ dev.qmax ≤ id - dev.qmax then .tooBig (id - dev.qmax) dev.qmax
  else .stateInvalid (if dev.qmax ≤ id then id - dev.qmax else id)

/-- The written-back structure behind a ring. -/
def wbBytes (pidx cidx : ℕ) : List (BitVec 8) := leBytes 2 pidx ++ leBytes 2 cidx ++ leBytes 4 0

def DumpEnv.descWb (env : DumpEnv) (d : QdmaDescq) (ring : DescRing) (label sep : List Char) :
    DumpPart :=
  .wb label (env.descVa ring.bus + d.conf.rngsz * getDescSize d) sep (wbBytes ring.wbPidx ring.wbCidx)

def WrbRing.descWrbWb (ring : WrbRing) (d : QdmaDescq) (label sep : List Char) : DumpPart :=
  .wb label (ring.va + d.rngszWrb * d.stC2hWrbEntryLen) sep (wbBytes ring.wbPidx ring.wbCidx)

/-- `qdma_descq_dump`. -/
def qdmaDescqDump (env : DumpEnv) (d : QdmaDescq) (detail : Bool) : List DumpPart :=
  let shown :=
    if !d.enabled then []
    else
      let queue := if d.isStC2h then [.threads d, .wrbRing d] else [.threads d]
      if !detail then queue
      else
        queue ++ (d.desc.map fun r => env.descWb d r (lit "\n\tWB: ") (lit ", ")).toList ++
          (d.descWrb.map fun r => r.descWrbWb d (lit "\tWRB WB: ") (lit ", ")).toList
  .state d :: shown ++ [.nul]

/-- The loop of `qdma_descq_dump_desc`, from line `i` with `n` entries to the end of the ring;
`p` is the entry its pointer is at, `k` the one of `fl`. -/
def dumpDescLoop (env : DumpEnv) (d : QdmaDescq) (ring : DescRing) (stop : ℤ) :
    ℕ → ℕ → ℕ → ℕ → List DumpPart
  | 0, _, _, _ => []
  | n + 1, i, p, k =>
      if (i : ℤ) < stop then
        .ring (env.descVa ring.bus + p * getDescSize d)
            { num := i, pos := p, bytes := d.descBytes (ring.slots p) } ::
          (match d.stRxFl with
            | some fls => .fl (fls k)
            | none => .newline) ::
          dumpDescLoop env d ring stop n (i + 1) (p + 1) (k + 1)
      else []

/-- `qdma_descq_dump_desc`: behind the loop the first page of the free list is shown, whether
there is a free list or not. -/
def qdmaDescqDumpDesc (env : DumpEnv) (d : QdmaDescq) (start stop : BitVec 32) :
    List DumpPart × Bool :=
  match d.desc with
  | none => ([], false)
  | some ring =>
      let lines :=
        dumpDescLoop env d ring stop.toInt (d.conf.rngsz - start.toNat) start.toNat start.toNat 0
      let wb := env.descWb d ring (lit "WB: ") (lit " ")
      match d.stRxFl.bind fun fls => (fls 0).pg with
      | none => (lines ++ [wb], true)
      | some page =>
          (lines ++ [wb] ++
            [.wb (lit "data 0: ") (env.pageVa page) (lit " ")
              ((List.range 128).map (env.pageMem page))], false)

/-- The loop of `qdma_descq_dump_wrb`: `wrb` is the entry its pointer is at. -/
def dumpWrbLoop (ring : WrbRing) (stop : ℤ) (wrb : ℕ) :
    ℕ → ℕ → QdmaDescq → List DumpPart × QdmaDescq
  | 0, _, d => ([], d)
  | n + 1, i, d =>
      if (i : ℤ) < stop then
        let r := dumpWrbLoop ring stop wrb n (i + 1) (wrbNext d)
        (.ring (ring.va + wrb * d.stC2hWrbEntryLen)
            { num := i, pos := wrb, bytes := ring.entryBytes d.stC2hWrbEntryLen wrb } ::
          .newline :: r.1, r.2)
      else ([], d)

/-- `qdma_descq_dump_wrb`. -/
def qdmaDescqDumpWrb (d : QdmaDescq) (start stop : BitVec 32) : List DumpPart × QdmaDescq :=
  match d.descWrb with
  | none => ([], d)
  | some ring =>
      let r :=
        dumpWrbLoop ring stop.toInt start.toNat (d.rngszWrb - start.toNat) start.toNat d
      (r.1 ++ [ring.descWrbWb r.2 (lit "WB: ") (lit " ")], r.2)

/-- What `qdma_queue_list` shows of a queue. -/
def listed (env : DumpEnv) (dev : XlnxDmaDev) (q : ℕ) : List DumpPart :=
  if (dev.descq q).enabled then qdmaDescqDump env (dev.descq q) false else []

/-- The loops of `qdma_queue_list`, which stop when the buffer is full. -/
def listLoop (env : DumpEnv) (buflen : ℕ) (dev : XlnxDmaDev) : List ℕ → List DumpPart → List DumpPart
  | [], parts => parts
  | q :: qs, parts =>
      if buflen ≤ env.len buflen (parts ++ listed env dev q) then parts ++ listed env dev q
      else listLoop env buflen dev qs (parts ++ listed env dev q)

/-- `qdma_queue_list` up to the label `c2h_queues`. -/
def listH2c (env : DumpEnv) (buflen : ℕ) (dev : XlnxDmaDev) : List DumpPart :=
  let parts := if buflen = 0 then [] else [.counts dev.h2cQcnt dev.c2hQcnt]
  if dev.h2cQcnt = 0 then parts else listLoop env buflen dev (List.range dev.qmax) parts

/-- `qdma_queue_list` up to the label `done`. -/
def listC2h (env : DumpEnv) (buflen : ℕ) (dev : XlnxDmaDev) : List DumpPart :=
  let parts := listH2c env buflen dev
  if dev.h2cQcnt ≠ 0 ∧ buflen ≤ env.len buflen parts then parts
  else if dev.c2hQcnt = 0 then parts
  else listLoop env buflen dev (List.range' dev.qmax dev.qmax) parts

def qdmaQueueList (env : DumpEnv) (buflen : ℕ) (dev : XlnxDmaDev) : List DumpPart :=
  if buflen = 0 then listC2h env buflen dev else listC2h env buflen dev ++ [.nul]

/-- A dump command; with `qdma_queue_dump` what the read of the contexts returns, and the text
made of it. -/
inductive DumpCmd where
  | list
  | dump (id : ℕ) (rv : ℤ) (ctxt : List Char)
  | desc (id : ℕ) (start stop : BitVec 32)
  | wrb (id : ℕ) (start stop : BitVec 32)

/-- What a command has shown, and the device; `oops` says that a pointer was followed that is
`NULL`. -/
structure DumpResult where
  dev : XlnxDmaDev
  parts : List DumpPart
  oops : Bool

def dumpCall (env : DumpEnv) (buflen : ℕ) (dev : XlnxDmaDev) : DumpCmd → DumpResult
  | .list => { dev := dev, parts := qdmaQueueList env buflen dev, oops := false }
  | .dump id rv ctxt =>
      match dev.getDescqById id false with
      | none => { dev := dev, parts := [dev.notFound id, .nul], oops := false }
      | some q =>
          if buflen = 0 then { dev := dev, parts := [], oops := false }
          else
            let parts := qdmaDescqDump env (dev.descq q) true ++ [.ctxt ctxt]
            { dev := dev, parts := if rv < 0 then parts else parts ++ [.nul], oops := false }
  | .desc id start stop =>
      match dev.getDescqById id true with
      | none => { dev := dev, parts := [dev.notFound id, .nul], oops := false }
      | some q =>
          if !(dev.descq q).inited then { dev := dev, parts := [.state (dev.descq q)], oops := false }
          else
            let r := qdmaDescqDumpDesc env (dev.descq q) start stop
            { dev := dev, parts := .state (dev.descq q) :: r.1, oops := r.2 }
  | .wrb id start stop =>
      match dev.getDescqById id true with
      | none => { dev := dev, parts := [dev.notFound id, .nul], oops := false }
      | some q =>
          if !(dev.descq q).inited then { dev := dev, parts := [.state (dev.descq q)], oops := false }
          else
            let r := qdmaDescqDumpWrb (dev.descq q) start stop
            { dev := dev.setDescq q r.2, parts := .state (dev.descq q) :: r.1, oops := false }

/-! ## What a dump should be -/

def QdmaDescq.descLine (d : QdmaDescq) (ring : DescRing) (i : ℕ) : RingLine where
  num := i
  pos := i
  bytes := d.descBytes (ring.slots i)

def QdmaDescq.wrbLine (d : QdmaDescq) (ring : WrbRing) (i : ℕ) : RingLine where
  num := i
  pos := i
  bytes := ring.entryBytes d.stC2hWrbEntryLen i

/-- From `start` up to `stop` and the size of the ring. -/
def dumpRange (start stop : BitVec 32) (rngsz : ℕ) : List ℕ :=
  List.range' start.toNat (min stop.toNat rngsz - start.toNat)

/-- The queue whose ring a command shows, where it has one. -/
def XlnxDmaDev.initedQueue (dev : XlnxDmaDev) (id : ℕ) : Option QdmaDescq :=
  (dev.getDescqById id true).bind fun q =>
    if (dev.descq q).inited then some (dev.descq q) else none

/-- The lines a command should show. -/
def DumpCmd.lines (dev : XlnxDmaDev) : DumpCmd → List RingLine
  | .list => []
  | .dump _ _ _ => []
  | .desc id start stop =>
      match dev.initedQueue id with
      | none => []
      | some d =>
          match d.desc with
          | none => []
          | some ring => (dumpRange start stop d.conf.rngsz).map (d.descLine ring)
  | .wrb id start stop =>
      match dev.initedQueue id with
      | none => []
      | some d =>
          match d.descWrb with
          | none => []
          | some ring => (dumpRange start stop d.rngszWrb).map (d.wrbLine ring)

/-- The command changes nothing, returns, and shows entry `i` in line `i`. -/
structure DumpReads (dev : XlnxDmaDev) (cmd : DumpCmd) (r : DumpResult) : Prop where
  unchanged : r.dev = dev
  returns : r.oops = false
  lines : r.parts.filterMap DumpPart.line? = cmd.lines dev

/-- The descriptors are those of a queue with a free list that has its first page, and the
range does not end past what an `int` can count; of the writeback ring nothing is shown. -/
def DumpSafe (dev : XlnxDmaDev) : DumpCmd → Prop
  | .list => True
  | .dump _ _ _ => True
  | .desc id start stop =>
      ∀ d, dev.initedQueue id = some d → d.desc.isSome = true →
        (d.stRxFl.bind fun fls => (fls 0).pg).isSome = true ∧
          (d.conf.rngsz ≤ start.toNat ∨ stop.toNat < 2 ^ 31)
  | .wrb id start stop =>
      ∀ d, dev.initedQueue id = some d → d.descWrb.isSome = true →
        d.rngszWrb ≤ start.toNat ∨ stop.toNat ≤ start.toNat

/-! ## Parts without lines -/

section Lines

variable {env : DumpEnv} {buflen : ℕ} {dev : XlnxDmaDev}

theorem qdmaDescqDump_lines (d : QdmaDescq) (detail : Bool) :
    (qdmaDescqDump env d detail).filterMap DumpPart.line? = [] := by
  unfold qdmaDescqDump
  cases d.enabled <;> cases d.isStC2h <;> cases detail <;> cases d.desc <;> cases d.descWrb <;> rfl

theorem listLoop_lines : ∀ (qs : List ℕ) (parts : List DumpPart),
    (listLoop env buflen dev qs parts).filterMap DumpPart.line? =
      parts.filterMap DumpPart.line? := by
  intro qs
  induction qs with
  | nil => intro parts; rfl
  | cons q qs ih =>
      intro parts
      have hparts : (parts ++ listed env dev q).filterMap DumpPart.line? =
          parts.filterMap DumpPart.line? := by
        rw [List.filterMap_append]
        unfold listed
        split
        · rw [qdmaDescqDump_lines, List.append_nil]
        · exact List.append_nil _
      unfold listLoop
      split
      · exact hparts
      · exact (ih _).trans hparts

theorem qdmaQueueList_lines : (qdmaQueueList env buflen dev).filterMap DumpPart.line? = [] := by
  have hcounts : (if buflen = 0 then [] else
      [DumpPart.counts dev.h2cQcnt dev.c2hQcnt]).filterMap DumpPart.line? = [] := by
    split
    · rfl
    · rfl
  have hh2c : (listH2c env buflen dev).filterMap DumpPart.line? = [] := by
    unfold listH2c
    dsimp only
    split
    · exact hcounts
    · rw [listLoop_lines]
      exact hcounts
  have hc2h : (listC2h env buflen dev).filterMap DumpPart.line? = [] := by
    unfold listC2h
    dsimp only
    split
    · exact hh2c
    · split
      · exact hh2c
      · rw [listLoop_lines]
        exact hh2c
  unfold qdmaQueueList
  split
  · exact hc2h
  · rw [List.filterMap_append, hc2h]
    rfl

theorem notFound_lines (dev : XlnxDmaDev) (id : ℕ) :
    [dev.notFound id, .nul].filterMap DumpPart.line? = [] := by
  unfold XlnxDmaDev.notFound
  split
  · rfl
  · rfl

/-! ## The loops over the rings -/

/-- An `unsigned int` that is passed for an `int`. -/
theorem toNat_toInt (stop : BitVec 32) :
    stop.toInt.toNat = if stop.toNat < 2 ^ 31 then stop.toNat else 0 := by
  have hlt := stop.isLt
  rw [BitVec.toInt_eq_toNat_cond]
  split
  · rw [if_pos (by omega)]
    omega
  · rw [if_neg (by omega)]
    omega

/-- **The descriptors**: the pointer moves with the line. -/
theorem dumpDescLoop_lines (d : QdmaDescq) (ring : DescRing) (stop : ℤ) : ∀ n i k : ℕ,
    (dumpDescLoop env d ring stop n i i k).filterMap DumpPart.line? =
      (List.range' i (min stop.toNat (i + n) - i)).map (d.descLine ring) := by
  intro n
  induction n with
  | zero =>
      intro i k
      rw [Nat.add_zero, Nat.sub_eq_zero_of_le (Nat.min_le_right _ i)]
      rfl
  | succ n ih =>
      intro i k
      unfold dumpDescLoop
      by_cases hlt : (i : ℤ) < stop
      · have hnext : min stop.toNat (i + (n + 1)) - i =
            (min stop.toNat (i + 1 + n) - (i + 1)) + 1 := by omega
        rw [if_pos hlt, hnext, List.range'_succ, List.map_cons, ← ih (i + 1) (k + 1)]
        cases d.stRxFl with
        | none => rfl
        | some fls => rfl
      · have hend : min stop.toNat (i + (n + 1)) - i = 0 := by omega
        rw [if_neg hlt, hend]
        rfl

theorem wrbNext_entryLen (d : QdmaDescq) : (wrbNext d).stC2hWrbEntryLen = d.stC2hWrbEntryLen := by
  unfold wrbNext
  split
  · rfl
  · rfl

/-- The lines of the writeback ring, and how often the consumer moves. -/
theorem dumpWrbLoop_eq (ring : WrbRing) (stop : ℤ) (wrb : ℕ) : ∀ (n i : ℕ) (d : QdmaDescq),
    (dumpWrbLoop ring stop wrb n i d).2 = wrbNext^[min stop.toNat (i + n) - i] d ∧
      (dumpWrbLoop ring stop wrb n i d).1.filterMap DumpPart.line? =
        (List.range' i (min stop.toNat (i + n) - i)).map fun j =>
          { d.wrbLine ring wrb with num := j } := by
  intro n
  induction n with
  | zero =>
      intro i d
      rw [Nat.add_zero, Nat.sub_eq_zero_of_le (Nat.min_le_right _ i)]
      exact ⟨rfl, rfl⟩
  | succ n ih =>
      intro i d
      unfold dumpWrbLoop
      by_cases hlt : (i : ℤ) < stop
      · have hnext : min stop.toNat (i + (n + 1)) - i =
            (min stop.toNat (i + 1 + n) - (i + 1)) + 1 := by omega
        obtain ⟨hdev, hlines⟩ := ih (i + 1) (wrbNext d)
        rw [if_pos hlt, hnext, List.range'_succ, List.map_cons]
        refine ⟨hdev, ?_⟩
        have hsame : (fun j => { (wrbNext d).wrbLine ring wrb with num := j }) =
            fun j => { d.wrbLine ring wrb with num := j } := by
          unfold QdmaDescq.wrbLine
          rw [wrbNext_entryLen]
        rw [hsame] at hlines
        exact congrArg (List.cons _) hlines
      · have hend : min stop.toNat (i + (n + 1)) - i = 0 := by omega
        rw [if_neg hlt, hend]
        exact ⟨rfl, rfl⟩

end Lines

/-! ## The commands on the rings -/

section Rings

variable {env : DumpEnv} {d : QdmaDescq} {start stop : BitVec 32}

theorem dumpRange_length (start stop : BitVec 32) (rngsz : ℕ) :
    (dumpRange start stop rngsz).length = min stop.toNat rngsz - start.toNat :=
  List.length_range'

/-- The entries an `int` counts to are those up to `stop`. -/
theorem dumpRange_toInt {rngsz : ℕ} (hsize : rngsz < 2 ^ 31) :
    List.range' start.toNat
        (min stop.toInt.toNat (start.toNat + (rngsz - start.toNat)) - start.toNat) =
      dumpRange start stop rngsz ↔ rngsz ≤ start.toNat ∨ stop.toNat < 2 ^ 31 := by
  rw [toNat_toInt]
  constructor
  · intro h
    have hlen := congrArg List.length h
    rw [List.length_range', dumpRange_length] at hlen
    by_contra hbad
    obtain ⟨hroom, hend⟩ := not_or.mp hbad
    rw [if_neg hend] at hlen
    omega
  · intro h
    unfold dumpRange
    congr 1
    obtain hout | hend := h
    · omega
    · rw [if_pos hend]
      omega

theorem descLine_injective (d : QdmaDescq) (ring : DescRing) :
    Function.Injective (d.descLine ring) := fun _ _ h => congrArg RingLine.num h

/-- **The dump of the descriptors.** -/
theorem dumpDesc_iff {ring : DescRing} (hring : d.desc = some ring) (hsize : d.conf.rngsz < 2 ^ 31) :
    ((qdmaDescqDumpDesc env d start stop).2 = false ∧
        (qdmaDescqDumpDesc env d start stop).1.filterMap DumpPart.line? =
          (dumpRange start stop d.conf.rngsz).map (d.descLine ring)) ↔
      (d.stRxFl.bind fun fls => (fls 0).pg).isSome = true ∧
        (d.conf.rngsz ≤ start.toNat ∨ stop.toNat < 2 ^ 31) := by
  have hlines : (dumpDescLoop env d ring stop.toInt (d.conf.rngsz - start.toNat) start.toNat
      start.toNat 0).filterMap DumpPart.line? = _ := dumpDescLoop_lines ..
  unfold qdmaDescqDumpDesc
  rw [hring]
  dsimp only
  cases d.stRxFl.bind fun fls => (fls 0).pg with
  | none => exact ⟨fun h => (nomatch h.1), fun h => (nomatch h.1)⟩
  | some page =>
      dsimp only
      rw [List.filterMap_append, List.filterMap_append, hlines]
      unfold DumpEnv.descWb
      rw [← dumpRange_toInt hsize]
      simp only [List.filterMap_cons, DumpPart.line?, List.filterMap_nil, List.append_nil,
        true_and, Option.isSome_some]
      exact List.map_inj_right fun _ _ h => descLine_injective d ring h

/-- The consumer does not stay where it is. -/
theorem wrbNext_ne (h : d.rngszWrb = wrbRngSzDflt) : wrbNext d ≠ d := by
  intro heq
  have hsize : wrbRngSzDflt = 256 := rfl
  have hcidx := congrArg QdmaDescq.cidxWrb heq
  unfold wrbNext u32 at hcidx
  rw [h, hsize] at hcidx
  split at hcidx
  · dsimp only at hcidx
    omega
  · dsimp only at hcidx
    omega

/-- **The dump of the writeback ring** is right where it has no line. -/
theorem dumpWrb_iff {ring : WrbRing} (hring : d.descWrb = some ring)
    (hsize : d.rngszWrb = wrbRngSzDflt) :
    ((qdmaDescqDumpWrb d start stop).2 = d ∧
        (qdmaDescqDumpWrb d start stop).1.filterMap DumpPart.line? =
          (dumpRange start stop d.rngszWrb).map (d.wrbLine ring)) ↔
      d.rngszWrb ≤ start.toNat ∨ stop.toNat ≤ start.toNat := by
  obtain ⟨hdev, hlines⟩ := dumpWrbLoop_eq ring stop.toInt start.toNat
    (d.rngszWrb - start.toNat) start.toNat d
  have hend : stop.toInt.toNat ≤ stop.toNat := by
    rw [toNat_toInt]
    split
    · exact le_rfl
    · exact Nat.zero_le _
  unfold qdmaDescqDumpWrb WrbRing.descWrbWb
  rw [hring]
  dsimp only
  rw [List.filterMap_append, hlines, hdev]
  unfold dumpRange
  obtain ⟨m, hm⟩ : ∃ m, m =
      min stop.toInt.toNat (start.toNat + (d.rngszWrb - start.toNat)) - start.toNat := ⟨_, rfl⟩
  obtain ⟨m', hm'⟩ : ∃ m', m' = min stop.toNat d.rngszWrb - start.toNat := ⟨_, rfl⟩
  rw [← hm, ← hm']
  change (wrbNext^[m] d = d ∧ (List.range' start.toNat m).map
      (fun j => { d.wrbLine ring start.toNat with num := j }) ++ [] =
    (List.range' start.toNat m').map (d.wrbLine ring)) ↔ _
  rw [List.append_nil]
  constructor
  · rintro ⟨hsame, heq⟩
    by_contra hbad
    have hlen := congrArg List.length heq
    rw [List.length_map, List.length_map, List.length_range', List.length_range'] at hlen
    obtain rfl | hmany := (by omega : m = 1 ∨ 2 ≤ m)
    · exact wrbNext_ne hsize hsame
    · -- the second line shows the first entry once more
      have hsecond := congrArg (fun ls => (ls[1]?).map RingLine.pos) heq
      simp only [List.getElem?_map, List.getElem?_range' (show 1 < m by omega),
        List.getElem?_range' (show 1 < m' by omega), Option.map_some] at hsecond
      have hpos := Option.some.inj hsecond
      unfold QdmaDescq.wrbLine at hpos
      dsimp only at hpos
      omega
  · intro hnone
    have hzero : m = 0 := by omega
    have hzero' : m' = 0 := by omega
    rw [hzero, hzero']
    exact ⟨rfl, rfl⟩

end Rings

/-! ## When a dump only reads -/

section Reads

variable {env : DumpEnv} {buflen : ℕ} {dev : XlnxDmaDev} {id q : ℕ} {start stop : BitVec 32}

theorem initedQueue_some {d : QdmaDescq} (h : dev.initedQueue id = some d) :
    ∃ q, dev.getDescqById id true = some q ∧ dev.descq q = d ∧ d.inited = true := by
  unfold XlnxDmaDev.initedQueue at h
  obtain ⟨q, hget, hq⟩ := Option.bind_eq_some_iff.mp h
  refine ⟨q, hget, ?_⟩
  split at hq
  case isTrue hin =>
    have hd := Option.some.inj hq
    rw [← hd]
    exact ⟨rfl, hin⟩
  case isFalse => cases hq

/-- A command on a ring, where there is no started queue. -/
theorem initedQueue_none (h : dev.initedQueue id = none) :
    dev.getDescqById id true = none ∨
      ∃ q, dev.getDescqById id true = some q ∧ (dev.descq q).inited = false := by
  unfold XlnxDmaDev.initedQueue at h
  cases hget : dev.getDescqById id true with
  | none => exact Or.inl rfl
  | some q =>
      refine Or.inr ⟨q, rfl, ?_⟩
      rw [hget, Option.bind_some] at h
      split at h
      case isTrue => cases h
      case isFalse hin => exact Bool.not_eq_true _ ▸ hin

theorem dumpCall_desc (h : dev.getDescqById id true = some q) (hin : (dev.descq q).inited = true) :
    dumpCall env buflen dev (.desc id start stop) =
      { dev := dev
        parts := .state (dev.descq q) :: (qdmaDescqDumpDesc env (dev.descq q) start stop).1
        oops := (qdmaDescqDumpDesc env (dev.descq q) start stop).2 } := by
  simp only [dumpCall, h, hin, Bool.not_true, Bool.false_eq_true, if_false]

theorem dumpCall_wrb (h : dev.getDescqById id true = some q) (hin : (dev.descq q).inited = true) :
    dumpCall env buflen dev (.wrb id start stop) =
      { dev := dev.setDescq q (qdmaDescqDumpWrb (dev.descq q) start stop).2
        parts := .state (dev.descq q) :: (qdmaDescqDumpWrb (dev.descq q) start stop).1
        oops := false } := by
  simp only [dumpCall, h, hin, Bool.not_true, Bool.false_eq_true, if_false]

/-- A dump that shows no line, of a command that should show none. -/
theorem dumpReads_quiet {cmd : DumpCmd} {parts : List DumpPart} (hcmd : cmd.lines dev = [])
    (hparts : parts.filterMap DumpPart.line? = []) :
    DumpReads dev cmd { dev := dev, parts := parts, oops := false } :=
  ⟨rfl, rfl, hparts.trans hcmd.symm⟩

theorem setDescq_eq_self {d : QdmaDescq} : dev.setDescq q d = dev ↔ d = dev.descq q := by
  constructor
  · intro h
    have hq : Function.update dev.descq q d q = dev.descq q :=
      congrArg (fun dev => dev.descq q) h
    rwa [Function.update_self] at hq
  · rintro rfl
    change { dev with descq := Function.update dev.descq q (dev.descq q) } = dev
    rw [Function.update_eq_self]

theorem enabled_of_get (h : dev.getDescqById id true = some q) : (dev.descq q).enabled = true := by
  obtain ⟨rfl, -, hen⟩ := getDescqById_eq_some h
  exact hen rfl

theorem Sized.small {d : QdmaDescq} (h : Sized d) : d.conf.rngsz < 2 ^ 31 := by
  rw [h.rngsz]
  decide

theorem dumpDescCall_iff (hsized : ∀ q, (dev.descq q).enabled = true → Sized (dev.descq q)) :
    DumpReads dev (.desc id start stop) (dumpCall env buflen dev (.desc id start stop)) ↔
      DumpSafe dev (.desc id start stop) := by
  cases hqueue : dev.initedQueue id with
  | none =>
      have hlines : (DumpCmd.desc id start stop).lines dev = [] := by
        simp only [DumpCmd.lines, hqueue]
      have hsafe : DumpSafe dev (.desc id start stop) := fun d hd => by
        rw [hqueue] at hd
        cases hd
      refine ⟨fun _ => hsafe, fun _ => ?_⟩
      obtain hget | ⟨q, hget, hin⟩ := initedQueue_none hqueue
      · simp only [dumpCall, hget]
        exact dumpReads_quiet hlines (notFound_lines dev id)
      · simp only [dumpCall, hget, hin, Bool.not_false, if_true]
        exact dumpReads_quiet hlines rfl
  | some d =>
      obtain ⟨q, hget, rfl, hin⟩ := initedQueue_some hqueue
      have hsize : (dev.descq q).conf.rngsz < 2 ^ 31 := (hsized q (enabled_of_get hget)).small
      rw [dumpCall_desc hget hin]
      cases hdesc : (dev.descq q).desc with
      | none =>
          have hlines : (DumpCmd.desc id start stop).lines dev = [] := by
            simp only [DumpCmd.lines, hqueue, hdesc]
          have hsafe : DumpSafe dev (.desc id start stop) := fun d hd hsome => by
            rw [hqueue, Option.some.injEq] at hd
            rw [← hd, hdesc] at hsome
            cases hsome
          refine ⟨fun _ => hsafe, fun _ => ?_⟩
          simp only [qdmaDescqDumpDesc, hdesc]
          exact dumpReads_quiet hlines rfl
      | some ring =>
          have hlines : (DumpCmd.desc id start stop).lines dev =
              (dumpRange start stop (dev.descq q).conf.rngsz).map
                ((dev.descq q).descLine ring) := by
            simp only [DumpCmd.lines, hqueue, hdesc]
          have hsafe : DumpSafe dev (.desc id start stop) ↔
              ((dev.descq q).stRxFl.bind fun fls => (fls 0).pg).isSome = true ∧
                ((dev.descq q).conf.rngsz ≤ start.toNat ∨ stop.toNat < 2 ^ 31) := by
            refine ⟨fun h => h _ hqueue (by rw [hdesc]; rfl), fun h d hd _ => ?_⟩
            rw [hqueue, Option.some.injEq] at hd
            rwa [← hd]
          rw [hsafe, ← dumpDesc_iff hdesc hsize]
          exact ⟨fun h => ⟨h.returns, h.lines.trans hlines⟩,
            fun h => ⟨rfl, h.1, h.2.trans hlines.symm⟩⟩

theorem dumpWrbCall_iff (hsized : ∀ q, (dev.descq q).enabled = true → Sized (dev.descq q)) :
    DumpReads dev (.wrb id start stop) (dumpCall env buflen dev (.wrb id start stop)) ↔
      DumpSafe dev (.wrb id start stop) := by
  cases hqueue : dev.initedQueue id with
  | none =>
      have hlines : (DumpCmd.wrb id start stop).lines dev = [] := by
        simp only [DumpCmd.lines, hqueue]
      have hsafe : DumpSafe dev (.wrb id start stop) := fun d hd => by
        rw [hqueue] at hd
        cases hd
      refine ⟨fun _ => hsafe, fun _ => ?_⟩
      obtain hget | ⟨q, hget, hin⟩ := initedQueue_none hqueue
      · simp only [dumpCall, hget]
        exact dumpReads_quiet hlines (notFound_lines dev id)
      · simp only [dumpCall, hget, hin, Bool.not_false, if_true]
        exact dumpReads_quiet hlines rfl
  | some d =>
      obtain ⟨q, hget, rfl, hin⟩ := initedQueue_some hqueue
      have hsize : (dev.descq q).rngszWrb = wrbRngSzDflt :=
        (hsized q (enabled_of_get hget)).rngszWrb
      rw [dumpCall_wrb hget hin]
      cases hwrb : (dev.descq q).descWrb with
      | none =>
          have hlines : (DumpCmd.wrb id start stop).lines dev = [] := by
            simp only [DumpCmd.lines, hqueue, hwrb]
          have hsafe : DumpSafe dev (.wrb id start stop) := fun d hd hsome => by
            rw [hqueue, Option.some.injEq] at hd
            rw [← hd, hwrb] at hsome
            cases hsome
          refine ⟨fun _ => hsafe, fun _ => ?_⟩
          simp only [qdmaDescqDumpWrb, hwrb]
          rw [setDescq_eq_self.mpr rfl]
          exact dumpReads_quiet hlines rfl
      | some ring =>
          have hlines : (DumpCmd.wrb id start stop).lines dev =
              (dumpRange start stop (dev.descq q).rngszWrb).map ((dev.descq q).wrbLine ring) := by
            simp only [DumpCmd.lines, hqueue, hwrb]
          have hsafe : DumpSafe dev (.wrb id start stop) ↔
              (dev.descq q).rngszWrb ≤ start.toNat ∨ stop.toNat ≤ start.toNat := by
            refine ⟨fun h => h _ hqueue (by rw [hwrb]; rfl), fun h d hd _ => ?_⟩
            rw [hqueue, Option.some.injEq] at hd
            rwa [← hd]
          rw [hsafe, ← dumpWrb_iff hwrb hsize]
          exact ⟨fun h => ⟨setDescq_eq_self.mp h.unchanged, h.lines.trans hlines⟩,
            fun h => ⟨setDescq_eq_self.mpr h.1, rfl, h.2.trans hlines.symm⟩⟩

/-- The sizes are those of the configuration, through a whole life of the queues. -/
theorem sized_of_life (hinit : DeviceInit dev) (es : List BookEv) (q : ℕ)
    (hen : ((bookSys.exec (Books.init dev) es).dev.descq q).enabled = true) :
    Sized ((bookSys.exec (Books.init dev) es).dev.descq q) := by
  have hstep : ∀ b e, Books.Inv b → Books.Inv (bookSys.step b e) := fun _ e h => h.step e
  exact (bookSys.invariant_free hstep es hinit.booksInv q).sized hen

/-- **Reading**: the list and the dump of a queue only read; the other two do where `DumpSafe`
says so. -/
theorem dump_reads_iff (env : DumpEnv) (buflen : ℕ) (dev : XlnxDmaDev)
    (hsized : ∀ q, (dev.descq q).enabled = true → Sized (dev.descq q)) (cmd : DumpCmd) :
    DumpReads dev cmd (dumpCall env buflen dev cmd) ↔ DumpSafe dev cmd := by
  cases cmd with
  | list =>
      exact ⟨fun _ => trivial, fun _ => dumpReads_quiet rfl qdmaQueueList_lines⟩
  | dump id rv ctxt =>
      refine ⟨fun _ => trivial, fun _ => ?_⟩
      unfold dumpCall
      dsimp only
      cases dev.getDescqById id false with
      | none => exact dumpReads_quiet rfl (notFound_lines dev id)
      | some q =>
          dsimp only
          split
          · exact dumpReads_quiet rfl rfl
          · refine dumpReads_quiet rfl ?_
            split
            · rw [List.filterMap_append, qdmaDescqDump_lines]
              rfl
            · rw [List.filterMap_append, List.filterMap_append, qdmaDescqDump_lines]
              rfl
  | desc id start stop => exact dumpDescCall_iff hsized
  | wrb id start stop => exact dumpWrbCall_iff hsized

/-- A streaming C2H queue and a memory-mapped H2C queue, both started. -/
def startedLife : List BookEv :=
  [.add stC2hConf, .start 1 plainStart, .add mmH2cConf, .start 0 plainStart]

def startedDev : XlnxDmaDev := (bookSys.exec (Books.init polledDev) startedLife).dev

def blankEnv : DumpEnv where
  vf := false
  devIdx := 0
  devName := []
  wrkName _ := []
  wbName _ := []
  descqVa _ := 0
  descVa _ := 0
  pageStruct _ := 0
  pageVa _ := 0
  pageMem _ _ := 0

theorem dump_reads_started :
    (∀ q, (startedDev.descq q).enabled = true → Sized (startedDev.descq q)) ∧
      ((dumpCall blankEnv 1024 startedDev (.desc 1 0 2)).parts.filterMap DumpPart.line?).length = 2 ∧
      DumpReads startedDev (.desc 1 0 2) (dumpCall blankEnv 1024 startedDev (.desc 1 0 2)) := by
  have hsized : ∀ q, (startedDev.descq q).enabled = true → Sized (startedDev.descq q) := by
    unfold startedDev
    exact sized_of_life polledDev_init startedLife
  refine ⟨hsized, by decide +kernel, (dump_reads_iff blankEnv 1024 startedDev hsized _).mpr ?_⟩
  intro d hd _
  obtain ⟨q, hget, rfl, -⟩ := initedQueue_some hd
  obtain ⟨rfl, -, -⟩ := getDescqById_eq_some hget
  exact ⟨by decide +kernel, Or.inr (by decide)⟩

/-- Two lines of the writeback ring move the consumer by two entries, and both show the first;
the descriptors of a memory-mapped queue are shown up to a `NULL` pointer. -/
theorem dump_moves :
    (startedDev.descq 1).cidxWrb = 0 ∧
      ((dumpCall blankEnv 1024 startedDev (.wrb 1 0 2)).dev.descq 1).cidxWrb = 2 ∧
      ((dumpCall blankEnv 1024 startedDev (.wrb 1 0 2)).parts.filterMap DumpPart.line?).map
          (fun l => (l.num, l.pos)) = [(0, 0), (1, 0)] ∧
      (dumpCall blankEnv 1024 startedDev (.desc 0 0 1)).oops = true ∧
      ¬ ∀ cmd, DumpReads startedDev cmd (dumpCall blankEnv 1024 startedDev cmd) := by
  refine ⟨by decide +kernel, by decide +kernel, by decide +kernel, by decide +kernel, fun h => ?_⟩
  have hoops : (dumpCall blankEnv 1024 startedDev (.desc 0 0 1)).oops = true := by decide +kernel
  exact absurd (hoops.symm.trans (h _).returns) (by decide)

end Reads

end Qdma

import Mathlib.Algebra.BigOperators.Group.Finset.Basic
import Qdma.Dump

/-!
# How long a dump is

The list of the queues and the two dumps of the rings are printed with `sprintf`, which knows
nothing of the buffer.  `qdma_queue_list` looks at the length after each queue, when it is
written; the other two look at it only for the bytes of a row.

* `listLen`, `descLen`, `wrbLen` — the length of the whole text, a sum over the queues or over
  the range, in terms of what is in the queues.
* `dump_fits_iff` — nothing is written behind the end of the buffer if and only if the whole
  text and its terminating zero have room there.
-/

namespace Qdma

open Lib Lib.TextBuf

/-! ## The length of a part -/

/-- The digits of `%u` and of `%x`. -/
def decLen (n : ℕ) : ℕ := Nat.log 10 n + 1

def hexLen (n : ℕ) : ℕ := Nat.log 16 n + 1

/-- The row made of `len` bytes. -/
def hexRowLen (len : ℕ) : ℕ :=
  let group := if min len 16 % 4 = 0 then 4 else 1
  min len 16 / group * (2 * group) + (min len 16 / group - 1)

def DumpEnv.nameLen (env : DumpEnv) (conf : QdmaQueueConf) : ℕ :=
  if conf.rngsz = 0 then 0
  else (if env.vf then 6 else 4) + decLen env.devIdx + decLen conf.qidx + 8

def stateWordLen (d : QdmaDescq) : ℕ :=
  if d.online then 7 else if d.inited then 3 else if d.enabled then 7 else 15

def DumpEnv.stateLen (env : DumpEnv) (d : QdmaDescq) : ℕ :=
  11 + hexLen d.conf.qidx + hexLen d.qidxHw + env.nameLen d.conf + stateWordLen d

def DumpEnv.threadsLen (env : DumpEnv) (d : QdmaDescq) : ℕ :=
  38 + ((d.wrkthp.map env.wrkName).getD ['?']).length +
    ((d.wbthp.map env.wbName).getD ['?']).length +
      hexLen ((d.desc.map fun r => r.bus.toNat).getD 0) + decLen d.conf.rngsz

def wrbRingLen (d : QdmaDescq) : ℕ :=
  41 + hexLen ((d.descWrb.map fun r => r.bus.toNat).getD 0) + decLen d.rngszWrb +
    hexLen d.rxQueue.dlen

def DumpEnv.notFoundLen (env : DumpEnv) (dev : XlnxDmaDev) (id : ℕ) : ℕ :=
  if dev.qmax ≤ id ∧ dev.qmax ≤ id - dev.qmax then
    25 + env.devName.length + hexLen (id - dev.qmax) + hexLen dev.qmax
  else 46 + env.devName.length + hexLen (if dev.qmax ≤ id then id - dev.qmax else id)

/-! ## The length of a text -/

/-- A queue in the list. -/
def DumpEnv.listedLen (env : DumpEnv) (d : QdmaDescq) : ℕ :=
  if d.enabled then
    env.stateLen d + env.threadsLen d + (if d.isStC2h then wrbRingLen d else 0)
  else 0

/-- `qdma_queue_list`. -/
def DumpEnv.listLen (env : DumpEnv) (dev : XlnxDmaDev) : ℕ :=
  18 + decLen dev.h2cQcnt + decLen dev.c2hQcnt +
    (if dev.h2cQcnt = 0 then 0
      else ((List.range dev.qmax).map fun q => env.listedLen (dev.descq q)).sum) +
    (if dev.c2hQcnt = 0 then 0
      else ((List.range' dev.qmax dev.qmax).map fun q => env.listedLen (dev.descq q)).sum)

/-- How many entries are shown: `stop` is passed for an `int`. -/
def shownCnt (start stop : BitVec 32) (rngsz : ℕ) : ℕ :=
  min stop.toInt.toNat rngsz - start.toNat

/-- Line `i` of the descriptors, with entry `k` of the free list. -/
def descLineLen (d : QdmaDescq) (i k : ℕ) : ℕ :=
  decLen i + 21 + hexRowLen (getDescSize d) +
    match d.stRxFl with
      | some fls => 31 + hexLen (fls k).dmaAddr.toNat
      | none => 1

def wrbLineLen (d : QdmaDescq) (i : ℕ) : ℕ := decLen i + 22 + hexRowLen d.stC2hWrbEntryLen

/-- `qdma_queue_dump_desc`. -/
def DumpEnv.descLen (env : DumpEnv) (dev : XlnxDmaDev) (id : ℕ) (start stop : BitVec 32) : ℕ :=
  match dev.getDescqById id true with
  | none => env.notFoundLen dev id
  | some q =>
      let d := dev.descq q
      env.stateLen d +
        if d.inited = true ∧ d.desc.isSome = true then
          ∑ j ∈ Finset.range (shownCnt start stop d.conf.rngsz), descLineLen d (start.toNat + j) j +
            41 + (if (d.stRxFl.bind fun fls => (fls 0).pg).isSome then 63 else 0)
        else 0

/-- `qdma_queue_dump_wrb`. -/
def DumpEnv.wrbLen (env : DumpEnv) (dev : XlnxDmaDev) (id : ℕ) (start stop : BitVec 32) : ℕ :=
  match dev.getDescqById id true with
  | none => env.notFoundLen dev id
  | some q =>
      let d := dev.descq q
      env.stateLen d +
        if d.inited = true ∧ d.descWrb.isSome = true then
          ∑ j ∈ Finset.range (shownCnt start stop d.rngszWrb), wrbLineLen d (start.toNat + j) + 41
        else 0

/-- The text a command leaves in its buffer. -/
def dumpText (env : DumpEnv) (buflen : ℕ) (dev : XlnxDmaDev) (cmd : DumpCmd) : TextBuf :=
  TextBuf.empty.writes buflen (env.text (dumpCall env buflen dev cmd).parts)

/-! ## Numbers and rows -/

@[simp] theorem length_fmtDec (n : ℕ) : (fmtDec n).length = decLen n :=
  length_toDigits (by decide) n

@[simp] theorem length_fmtHex (n : ℕ) : (fmtHex n).length = hexLen n :=
  length_toDigits (by decide) n

@[simp] theorem length_hexPad (n v : ℕ) : (hexPad n v).length = n := by
  unfold hexPad
  rw [List.length_map, List.length_range]

@[simp] theorem length_fmtPtr (va : ℕ) : (fmtPtr va).length = 18 := by
  unfold fmtPtr
  rw [List.length_append, length_hexPad]
  rfl

/-- One group of a row. -/
theorem length_hexGroup (bytes : List (BitVec 8)) :
    (bytes.flatMap fun b => hexPad 2 b.toNat).length = 2 * bytes.length := by
  induction bytes with
  | nil => rfl
  | cons b bytes ih =>
      rw [List.flatMap_cons, List.length_append, ih, length_hexPad, List.length_cons]
      omega

/-- The first `n` groups of a row, with a blank between them. -/
theorem length_hexGroups (row : List (BitVec 8)) (group : ℕ) : ∀ n : ℕ, n * group ≤ row.length →
    ((List.range n).flatMap fun j => (if j = 0 then [] else [' ']) ++
      ((row.drop (j * group)).take group).reverse.flatMap fun b => hexPad 2 b.toNat).length =
        n * (2 * group) + (n - 1) := by
  intro n
  induction n with
  | zero =>
      intro _
      rw [Nat.zero_mul]
      rfl
  | succ n ih =>
      intro hroom
      rw [Nat.succ_mul] at hroom
      have hblank : (if n = 0 then [] else [' ']).length = n + 1 - 1 - (n - 1) := by
        split
        · subst n; rfl
        · rw [List.length_singleton]
          omega
      rw [List.range_succ, List.flatMap_append, List.length_append, ih (by omega),
        List.flatMap_singleton, List.length_append, hblank, length_hexGroup, List.length_reverse,
        List.length_take, List.length_drop, Nat.succ_mul n (2 * group)]
      omega

@[simp] theorem length_hexRow (bytes : List (BitVec 8)) :
    (hexRow bytes).length = hexRowLen bytes.length := by
  have hrow : (bytes.take 16).length = min bytes.length 16 := by
    rw [List.length_take, Nat.min_comm]
  unfold hexRow hexRowLen
  dsimp only
  rw [length_hexGroups _ _ _ (Nat.div_mul_le_self _ _), hrow]

theorem length_leBytes (n v : ℕ) : (leBytes n v).length = n := by
  unfold leBytes
  rw [List.length_map, List.length_range]

theorem length_descBytes (d : QdmaDescq) (e : QdmaDesc) :
    (d.descBytes e).length = getDescSize d := by
  unfold QdmaDescq.descBytes getDescSize
  cases d.conf.st <;> cases d.conf.c2h <;>
    simp only [Bool.not_true, Bool.not_false, Bool.false_eq_true, if_true, if_false,
      List.length_append, length_leBytes]

theorem length_entryBytes (ring : WrbRing) (len pos : ℕ) :
    (ring.entryBytes len pos).length = len := by
  unfold WrbRing.entryBytes
  rw [List.length_map, List.length_range]

theorem length_wbBytes (pidx cidx : ℕ) : (wbBytes pidx cidx).length = 8 := by
  unfold wbBytes
  rw [List.length_append, List.length_append, length_leBytes, length_leBytes, length_leBytes]

/-! ## The parts -/

section Parts

variable {env : DumpEnv}

@[simp] theorem text_nil : env.text [] = [] := rfl

@[simp] theorem text_cons (p : DumpPart) (ps : List DumpPart) :
    env.text (p :: ps) = env.pieces p ++ env.text ps := List.flatMap_cons

@[simp] theorem text_append (ps qs : List DumpPart) :
    env.text (ps ++ qs) = env.text ps ++ env.text qs := List.flatMap_append

/-- The length of several parts. -/
def DumpEnv.total (env : DumpEnv) (parts : List DumpPart) : ℕ := Piece.total (env.text parts)

@[simp] theorem length_queueName (conf : QdmaQueueConf) :
    (env.queueName conf).length = env.nameLen conf := by
  unfold DumpEnv.queueName DumpEnv.nameLen
  split
  · rfl
  cases env.vf <;> cases conf.st <;> cases conf.c2h <;> simp [lit] <;> omega

theorem total_stateWord (d : QdmaDescq) : Piece.total (stateWord d) = stateWordLen d := by
  unfold stateWord stateWordLen
  cases d.online <;> cases d.inited <;> cases d.enabled <;> rfl

theorem total_state (d : QdmaDescq) : Piece.total (env.pieces (.state d)) = env.stateLen d := by
  unfold DumpEnv.pieces DumpEnv.stateLen
  rw [Piece.total_cons, total_stateWord]
  simp [Piece.size, lit]
  omega

theorem total_threads (d : QdmaDescq) :
    Piece.total (env.pieces (.threads d)) = env.threadsLen d := by
  unfold DumpEnv.pieces DumpEnv.threadsLen
  simp [Piece.size, lit]
  omega

theorem total_wrbRing (d : QdmaDescq) : Piece.total (env.pieces (.wrbRing d)) = wrbRingLen d := by
  unfold DumpEnv.pieces wrbRingLen
  simp [Piece.size, lit]
  omega

theorem total_counts (h2c c2h : ℕ) :
    Piece.total (env.pieces (.counts h2c c2h)) = 18 + decLen h2c + decLen c2h := by
  unfold DumpEnv.pieces
  simp [Piece.size, lit]
  omega

theorem total_notFound (dev : XlnxDmaDev) (id : ℕ) :
    Piece.total (env.pieces (dev.notFound id)) = env.notFoundLen dev id := by
  unfold XlnxDmaDev.notFound DumpEnv.notFoundLen
  split
  · simp [DumpEnv.pieces, Piece.size, lit]
    omega
  · simp [DumpEnv.pieces, Piece.size, lit]
    omega

theorem total_ring (va : ℕ) (l : RingLine) :
    Piece.total (env.pieces (.ring va l)) = decLen l.num + 21 + hexRowLen l.bytes.length := by
  unfold DumpEnv.pieces
  simp [Piece.size, lit]

theorem total_fl (e : FlDesc) :
    Piece.total (env.pieces (.fl e)) = 31 + hexLen e.dmaAddr.toNat := by
  unfold DumpEnv.pieces
  simp [Piece.size, lit]
  omega

theorem total_wb (label : List Char) (va : ℕ) (sep : List Char) (bytes : List (BitVec 8)) :
    Piece.total (env.pieces (.wb label va sep bytes)) =
      label.length + 18 + sep.length + hexRowLen bytes.length + 1 := by
  unfold DumpEnv.pieces
  simp [Piece.size]
  omega

@[simp] theorem total_nil : env.total [] = 0 := rfl

@[simp] theorem total_cons (p : DumpPart) (ps : List DumpPart) :
    env.total (p :: ps) = Piece.total (env.pieces p) + env.total ps := by
  unfold DumpEnv.total
  rw [text_cons, Piece.total_append]

@[simp] theorem total_append (ps qs : List DumpPart) :
    env.total (ps ++ qs) = env.total ps + env.total qs := by
  unfold DumpEnv.total
  rw [text_append, Piece.total_append]

/-- A part without a row of bytes is written whole. -/
def DumpPart.Plain : DumpPart → Prop
  | .ring _ _ => False
  | .wb _ _ _ _ => False
  | _ => True

theorem whole_text {parts : List DumpPart} (h : ∀ p ∈ parts, p.Plain) :
    ∀ s ∈ env.text parts, s.Whole := by
  intro s hs
  obtain ⟨p, hp, hs⟩ := List.mem_flatMap.mp hs
  have hplain := h p hp
  cases p with
  | ring va l => exact hplain.elim
  | wb label va sep bytes => exact hplain.elim
  | state d =>
      obtain rfl | hs := List.mem_cons.mp hs
      · trivial
      · unfold stateWord at hs
        -- the word and its end of line, or both at once
        split_ifs at hs
        all_goals
          simp only [List.mem_cons, List.not_mem_nil, or_false] at hs
          obtain rfl | rfl := hs
          all_goals trivial
  | _ =>
      rw [List.mem_singleton.mp hs]
      trivial

theorem plain_notFound (dev : XlnxDmaDev) (id : ℕ) :
    ∀ p ∈ [dev.notFound id, .nul], p.Plain := by
  unfold XlnxDmaDev.notFound
  split
  · simp [DumpPart.Plain]
  · simp [DumpPart.Plain]

theorem plain_state (d : QdmaDescq) : ∀ p ∈ [DumpPart.state d], p.Plain := by
  simp [DumpPart.Plain]

/-- **Plain parts** fit if and only if their length does. -/
theorem fits_plain_iff {buflen : ℕ} {parts : List DumpPart} (h : ∀ p ∈ parts, p.Plain) :
    Fits buflen (TextBuf.empty.writes buflen (env.text parts)) ↔ env.total parts < buflen := by
  rw [fits_writes_iff (whole_text h)]
  change 0 ≤ buflen ∧ 0 + env.total parts < buflen ↔ _
  omega

/-- **Parts behind which a row is written** fit if and only if their length does. -/
theorem fits_row_iff {buflen : ℕ} (parts : List DumpPart) (label : List Char) (va : ℕ)
    (sep : List Char) (bytes : List (BitVec 8)) :
    Fits buflen (TextBuf.empty.writes buflen (env.text (parts ++ [.wb label va sep bytes]))) ↔
      env.total (parts ++ [.wb label va sep bytes]) < buflen := by
  have hend : env.text (parts ++ [.wb label va sep bytes]) =
      env.text parts ++ [.full (label ++ fmtPtr va ++ sep), .bounded (hexRow bytes)] ++
        [.bare '\n'] := by
    rw [text_append, List.append_assoc]
    rfl
  have hlast : Piece.Whole (.bare '\n') := trivial
  unfold DumpEnv.total
  rw [hend, fits_writes_concat_iff _ hlast Nat.one_pos]
  change 0 ≤ buflen ∧ 0 + _ < buflen ↔ _
  omega

end Parts

/-! ## The rings -/

section Rings

variable {env : DumpEnv} {buflen : ℕ} {dev : XlnxDmaDev} {id q : ℕ} {start stop : BitVec 32}

theorem shown_succ {e i n : ℕ} (h : i < e) :
    min e (i + (n + 1)) - i = (min e (i + 1 + n) - (i + 1)) + 1 := by omega

theorem total_dumpDescLoop (d : QdmaDescq) (ring : DescRing) (stop : ℤ) : ∀ n i p k : ℕ,
    env.total (dumpDescLoop env d ring stop n i p k) =
      ∑ j ∈ Finset.range (min stop.toNat (i + n) - i), descLineLen d (i + j) (k + j) := by
  intro n
  induction n with
  | zero =>
      intro i p k
      rw [Nat.add_zero, Nat.sub_eq_zero_of_le (Nat.min_le_right _ i)]
      rfl
  | succ n ih =>
      intro i p k
      unfold dumpDescLoop
      by_cases hlt : (i : ℤ) < stop
      · have hfirst : ∀ f : DumpPart,
            (f = match d.stRxFl with | some fls => .fl (fls k) | none => .newline) →
            decLen i + 21 + hexRowLen (d.descBytes (ring.slots p)).length +
              Piece.total (env.pieces f) = descLineLen d i k := by
          intro f hf
          unfold descLineLen
          rw [length_descBytes, hf]
          cases d.stRxFl with
          | none => rfl
          | some fls =>
              dsimp only
              rw [total_fl]
        have hrest : ∀ j, descLineLen d (i + 1 + j) (k + 1 + j) =
            descLineLen d (i + (j + 1)) (k + (j + 1)) := by
          intro j
          rw [Nat.add_right_comm i, Nat.add_right_comm k]
          rfl
        rw [if_pos hlt, shown_succ (by omega), Finset.sum_range_succ', total_cons, total_cons,
          total_ring, ih (i + 1) (p + 1) (k + 1), Nat.add_zero i, Nat.add_zero k,
          Finset.sum_congr rfl fun j _ => hrest j, ← Nat.add_assoc, Nat.add_comm]
        exact congrArg (Nat.add _) (hfirst _ rfl)
      · have hend : min stop.toNat (i + (n + 1)) - i = 0 := by omega
        rw [if_neg hlt, hend]
        rfl

theorem total_dumpWrbLoop (ring : WrbRing) (stop : ℤ) (wrb : ℕ) : ∀ (n i : ℕ) (d : QdmaDescq),
    env.total (dumpWrbLoop ring stop wrb n i d).1 =
      ∑ j ∈ Finset.range (min stop.toNat (i + n) - i), wrbLineLen d (i + j) := by
  intro n
  induction n with
  | zero =>
      intro i d
      rw [Nat.add_zero, Nat.sub_eq_zero_of_le (Nat.min_le_right _ i)]
      rfl
  | succ n ih =>
      intro i d
      unfold dumpWrbLoop
      by_cases hlt : (i : ℤ) < stop
      · have hrest : ∀ j, wrbLineLen (wrbNext d) (i + 1 + j) = wrbLineLen d (i + (j + 1)) := by
          intro j
          unfold wrbLineLen
          rw [wrbNext_entryLen, Nat.add_right_comm i]
          rfl
        have hfirst : decLen i + 21 + hexRowLen (ring.entryBytes d.stC2hWrbEntryLen wrb).length +
            Piece.total (env.pieces .newline) = wrbLineLen d i := by
          unfold wrbLineLen
          rw [length_entryBytes]
          change _ + 1 = _
          omega
        rw [if_pos hlt, shown_succ (by omega), Finset.sum_range_succ', total_cons, total_cons,
          total_ring, ih (i + 1) (wrbNext d), Nat.add_zero i,
          Finset.sum_congr rfl fun j _ => hrest j, ← Nat.add_assoc, Nat.add_comm]
        exact congrArg (Nat.add _) hfirst
      · have hend : min stop.toNat (i + (n + 1)) - i = 0 := by omega
        rw [if_neg hlt, hend]
        rfl

/-- The entries of a ring that are shown. -/
theorem shownCnt_eq (start stop : BitVec 32) (rngsz : ℕ) :
    min stop.toInt.toNat (start.toNat + (rngsz - start.toNat)) - start.toNat =
      shownCnt start stop rngsz := by
  unfold shownCnt
  omega

theorem total_descWb (d : QdmaDescq) (ring : DescRing) :
    Piece.total (env.pieces (env.descWb d ring (lit "WB: ") (lit " "))) = 41 := by
  unfold DumpEnv.descWb
  rw [total_wb, length_wbBytes]
  rfl

theorem total_descWrbWb (d : QdmaDescq) (ring : WrbRing) :
    Piece.total (env.pieces (ring.descWrbWb d (lit "WB: ") (lit " "))) = 41 := by
  unfold WrbRing.descWrbWb
  rw [total_wb, length_wbBytes]
  rfl

/-- The descriptors, behind the line of the state. -/
theorem desc_rows_fit {d : QdmaDescq} {ring : DescRing} (hdesc : d.desc = some ring) :
    Fits buflen (TextBuf.empty.writes buflen
        (env.text (.state d :: (qdmaDescqDumpDesc env d start stop).1))) ↔
      env.stateLen d +
        (∑ j ∈ Finset.range (shownCnt start stop d.conf.rngsz), descLineLen d (start.toNat + j) j +
          41 + (if (d.stRxFl.bind fun fls => (fls 0).pg).isSome then 63 else 0)) < buflen := by
  have hloop : env.total (dumpDescLoop env d ring stop.toInt (d.conf.rngsz - start.toNat)
      start.toNat start.toNat 0) =
        ∑ j ∈ Finset.range (shownCnt start stop d.conf.rngsz),
          descLineLen d (start.toNat + j) j := by
    rw [total_dumpDescLoop, shownCnt_eq]
    exact Finset.sum_congr rfl fun j _ => by rw [Nat.zero_add]
  unfold qdmaDescqDumpDesc
  rw [hdesc]
  dsimp only
  cases d.stRxFl.bind fun fls => (fls 0).pg with
  | none =>
      dsimp only
      rw [← List.cons_append]
      unfold DumpEnv.descWb
      rw [fits_row_iff]
      change env.total (_ ++ [env.descWb d ring (lit "WB: ") (lit " ")]) < buflen ↔ _
      rw [List.cons_append, total_cons, total_state, total_append, hloop, total_cons, total_descWb,
        total_nil]
      rfl
  | some page =>
      dsimp only
      rw [← List.cons_append, fits_row_iff, List.cons_append, total_cons, total_state, total_append,
        total_append, hloop, total_cons, total_descWb, total_nil, total_cons, total_wb,
        List.length_map, List.length_range, total_nil]
      rfl

theorem desc_fits_iff (env : DumpEnv) (buflen : ℕ) (dev : XlnxDmaDev) (id : ℕ)
    (start stop : BitVec 32) :
    Fits buflen (dumpText env buflen dev (.desc id start stop)) ↔
      env.descLen dev id start stop < buflen := by
  unfold dumpText DumpEnv.descLen
  cases hget : dev.getDescqById id true with
  | none =>
      simp only [dumpCall, hget]
      rw [fits_plain_iff (plain_notFound dev id), total_cons, total_notFound]
      rfl
  | some q =>
      dsimp only
      by_cases hring : (dev.descq q).inited = true ∧ (dev.descq q).desc.isSome = true
      · obtain ⟨ring, hdesc⟩ := Option.isSome_iff_exists.mp hring.2
        rw [if_pos hring, dumpCall_desc hget hring.1]
        exact desc_rows_fit hdesc
      · have hparts : (dumpCall env buflen dev (.desc id start stop)).parts =
            [.state (dev.descq q)] := by
          cases hin : (dev.descq q).inited with
          | false => simp only [dumpCall, hget, hin, Bool.not_false, if_true]
          | true =>
              rw [dumpCall_desc hget hin]
              cases hdesc : (dev.descq q).desc with
              | none => simp only [qdmaDescqDumpDesc, hdesc]
              | some ring => exact absurd ⟨hin, by rw [hdesc]; rfl⟩ hring
        rw [if_neg hring, hparts, fits_plain_iff (plain_state _), total_cons, total_state]
        rfl

/-- The writeback ring, behind the line of the state. -/
theorem wrb_rows_fit {d : QdmaDescq} {ring : WrbRing} (hwrb : d.descWrb = some ring) :
    Fits buflen (TextBuf.empty.writes buflen
        (env.text (.state d :: (qdmaDescqDumpWrb d start stop).1))) ↔
      env.stateLen d +
        (∑ j ∈ Finset.range (shownCnt start stop d.rngszWrb), wrbLineLen d (start.toNat + j) + 41) <
          buflen := by
  have hloop : env.total (dumpWrbLoop ring stop.toInt start.toNat (d.rngszWrb - start.toNat)
      start.toNat d).1 =
        ∑ j ∈ Finset.range (shownCnt start stop d.rngszWrb), wrbLineLen d (start.toNat + j) := by
    rw [total_dumpWrbLoop, shownCnt_eq]
  unfold qdmaDescqDumpWrb
  rw [hwrb]
  dsimp only
  generalize hd : (dumpWrbLoop ring stop.toInt start.toNat (d.rngszWrb - start.toNat)
    start.toNat d).2 = d'
  rw [← List.cons_append]
  unfold WrbRing.descWrbWb
  rw [fits_row_iff]
  change env.total (_ ++ [ring.descWrbWb d' (lit "WB: ") (lit " ")]) < buflen ↔ _
  rw [List.cons_append, total_cons, total_state, total_append, hloop, total_cons, total_descWrbWb,
    total_nil]

theorem wrb_fits_iff (env : DumpEnv) (buflen : ℕ) (dev : XlnxDmaDev) (id : ℕ)
    (start stop : BitVec 32) :
    Fits buflen (dumpText env buflen dev (.wrb id start stop)) ↔
      env.wrbLen dev id start stop < buflen := by
  unfold dumpText DumpEnv.wrbLen
  cases hget : dev.getDescqById id true with
  | none =>
      simp only [dumpCall, hget]
      rw [fits_plain_iff (plain_notFound dev id), total_cons, total_notFound]
      rfl
  | some q =>
      dsimp only
      by_cases hring : (dev.descq q).inited = true ∧ (dev.descq q).descWrb.isSome = true
      · obtain ⟨ring, hwrb⟩ := Option.isSome_iff_exists.mp hring.2
        rw [if_pos hring, dumpCall_wrb hget hring.1]
        exact wrb_rows_fit hwrb
      · have hparts : (dumpCall env buflen dev (.wrb id start stop)).parts =
            [.state (dev.descq q)] := by
          cases hin : (dev.descq q).inited with
          | false => simp only [dumpCall, hget, hin, Bool.not_false, if_true]
          | true =>
              rw [dumpCall_wrb hget hin]
              cases hwrb : (dev.descq q).descWrb with
              | none => simp only [qdmaDescqDumpWrb, hwrb]
              | some ring => exact absurd ⟨hin, by rw [hwrb]; rfl⟩ hring
        rw [if_neg hring, hparts, fits_plain_iff (plain_state _), total_cons, total_state]
        rfl

end Rings

/-! ## The list -/

section Queues

variable {env : DumpEnv} {buflen : ℕ} {dev : XlnxDmaDev}

theorem plain_listed (q : ℕ) : ∀ p ∈ listed env dev q, p.Plain := by
  unfold listed qdmaDescqDump
  cases (dev.descq q).enabled <;> cases (dev.descq q).isStC2h <;> simp [DumpPart.Plain]

theorem plain_append_listed (q : ℕ) {parts : List DumpPart} (h : ∀ p ∈ parts, p.Plain) :
    ∀ p ∈ parts ++ listed env dev q, p.Plain := by
  intro p hp
  obtain hp | hp := List.mem_append.mp hp
  · exact h p hp
  · exact plain_listed q p hp

theorem total_listed (q : ℕ) : env.total (listed env dev q) = env.listedLen (dev.descq q) := by
  unfold listed qdmaDescqDump DumpEnv.listedLen
  have hnul : Piece.total (env.pieces .nul) = 0 := rfl
  cases (dev.descq q).enabled <;> cases (dev.descq q).isStC2h <;>
    simp [total_state, total_threads, total_wrbRing, hnul]
  omega

/-- The length of plain parts is what `len` counts. -/
theorem len_plain {parts : List DumpPart} (h : ∀ p ∈ parts, p.Plain) :
    env.len buflen parts = env.total parts := by
  unfold DumpEnv.len
  rw [length_writes_whole (whole_text h)]
  exact Nat.zero_add _

theorem plain_listLoop : ∀ (qs : List ℕ) (parts : List DumpPart), (∀ p ∈ parts, p.Plain) →
    ∀ p ∈ listLoop env buflen dev qs parts, p.Plain := by
  intro qs
  induction qs with
  | nil => intro parts h; exact h
  | cons q qs ih =>
      intro parts h
      have hnext : ∀ p ∈ parts ++ listed env dev q, p.Plain := plain_append_listed q h
      unfold listLoop
      split
      · exact hnext
      · exact ih _ hnext

/-- The loop stops early only where the text does not fit any more. -/
theorem total_listLoop : ∀ (qs : List ℕ) (parts : List DumpPart), (∀ p ∈ parts, p.Plain) →
    env.total (listLoop env buflen dev qs parts) =
        env.total parts + (qs.map fun q => env.listedLen (dev.descq q)).sum ∨
      buflen ≤ env.total (listLoop env buflen dev qs parts) ∧
        buflen ≤ env.total parts + (qs.map fun q => env.listedLen (dev.descq q)).sum := by
  intro qs
  induction qs with
  | nil => intro parts _; exact Or.inl rfl
  | cons q qs ih =>
      intro parts h
      have hnext : ∀ p ∈ parts ++ listed env dev q, p.Plain := plain_append_listed q h
      have hlen : env.total (parts ++ listed env dev q) =
          env.total parts + env.listedLen (dev.descq q) := by
        rw [total_append, total_listed]
      unfold listLoop
      rw [len_plain hnext, List.map_cons, List.sum_cons]
      by_cases hfull : buflen ≤ env.total (parts ++ listed env dev q)
      · rw [if_pos hfull]
        exact Or.inr ⟨hfull, by omega⟩
      · rw [if_neg hfull]
        have hrest := ih _ hnext
        omega

/-- One direction of the list: nothing where no queue is counted, or the loop. -/
theorem total_listHalf (cnt : ℕ) (qs : List ℕ) {parts : List DumpPart} (h : ∀ p ∈ parts, p.Plain)
    {r : List DumpPart} (hr : r = if cnt = 0 then parts else listLoop env buflen dev qs parts)
    {s : ℕ} (hs : s = if cnt = 0 then 0
      else (qs.map fun q => env.listedLen (dev.descq q)).sum) :
    (∀ p ∈ r, p.Plain) ∧
      (env.total r = env.total parts + s ∨
        buflen ≤ env.total r ∧ buflen ≤ env.total parts + s) := by
  by_cases hcnt : cnt = 0
  · rw [if_pos hcnt] at hr hs
    subst hr hs
    exact ⟨h, Or.inl rfl⟩
  · rw [if_neg hcnt] at hr hs
    subst hr hs
    exact ⟨plain_listLoop qs parts h, total_listLoop qs parts h⟩

/-- Behind plain parts the terminating zero is written. -/
theorem fits_nul_iff {parts : List DumpPart} (h : ∀ p ∈ parts, p.Plain) :
    Fits buflen (TextBuf.empty.writes buflen (env.text (parts ++ [.nul]))) ↔
      env.total parts < buflen := by
  rw [fits_plain_iff, total_append]
  · rfl
  · intro p hp
    obtain hp | hp := List.mem_append.mp hp
    · exact h p hp
    · rw [List.mem_singleton.mp hp]
      trivial

theorem list_fits_iff (env : DumpEnv) (buflen : ℕ) (dev : XlnxDmaDev) :
    Fits buflen (dumpText env buflen dev .list) ↔ env.listLen dev < buflen := by
  obtain rfl | hbuf := Nat.eq_zero_or_pos buflen
  · exact ⟨fun h => absurd h.text (Nat.not_lt_zero _), fun h => absurd h (Nat.not_lt_zero _)⟩
  have hcounts : ∀ p ∈ [DumpPart.counts dev.h2cQcnt dev.c2hQcnt], p.Plain := by
    simp [DumpPart.Plain]
  have hstart : env.total [DumpPart.counts dev.h2cQcnt dev.c2hQcnt] =
      18 + decLen dev.h2cQcnt + decLen dev.c2hQcnt := by
    rw [total_cons, total_counts]
    rfl
  have hh2c : listH2c env buflen dev =
      if dev.h2cQcnt = 0 then [DumpPart.counts dev.h2cQcnt dev.c2hQcnt]
      else listLoop env buflen dev (List.range dev.qmax)
        [DumpPart.counts dev.h2cQcnt dev.c2hQcnt] := by
    unfold listH2c
    rw [if_neg hbuf.ne']
  obtain ⟨hplain, htotal⟩ := total_listHalf dev.h2cQcnt (List.range dev.qmax) hcounts hh2c rfl
  have hdone : qdmaQueueList env buflen dev = listC2h env buflen dev ++ [.nul] := by
    unfold qdmaQueueList
    rw [if_neg hbuf.ne']
  change Fits buflen (TextBuf.empty.writes buflen (env.text (qdmaQueueList env buflen dev))) ↔ _
  unfold DumpEnv.listLen
  rw [hdone]
  by_cases hcut : dev.h2cQcnt ≠ 0 ∧ buflen ≤ env.len buflen (listH2c env buflen dev)
  · have hc2h : listC2h env buflen dev = listH2c env buflen dev := by
      unfold listC2h
      exact if_pos hcut
    rw [hc2h, fits_nul_iff hplain]
    rw [len_plain hplain] at hcut
    omega
  · have hc2h : listC2h env buflen dev =
        if dev.c2hQcnt = 0 then listH2c env buflen dev
        else listLoop env buflen dev (List.range' dev.qmax dev.qmax) (listH2c env buflen dev) := by
      unfold listC2h
      exact if_neg hcut
    obtain ⟨hplain', htotal'⟩ :=
      total_listHalf dev.c2hQcnt (List.range' dev.qmax dev.qmax) hplain hc2h rfl
    rw [fits_nul_iff hplain']
    omega

end Queues

/-! ## When a dump fits -/

/-- **The text of a dump** stays inside its buffer, for any queues and any range, if and only if
the buffer is longer than the whole text. -/
theorem dump_fits_iff (env : DumpEnv) (buflen : ℕ) (dev : XlnxDmaDev) :
    (Fits buflen (dumpText env buflen dev .list) ↔ env.listLen dev < buflen) ∧
      (∀ id start stop, Fits buflen (dumpText env buflen dev (.desc id start stop)) ↔
        env.descLen dev id start stop < buflen) ∧
      ∀ id start stop, Fits buflen (dumpText env buflen dev (.wrb id start stop)) ↔
        env.wrbLen dev id start stop < buflen :=
  ⟨list_fits_iff env buflen dev, desc_fits_iff env buflen dev, wrb_fits_iff env buflen dev⟩

/-- `XNL_RESP_BUFLEN_MAX`, the size of every buffer these commands get. -/
def xnlRespBuflenMax : ℕ := 1024

theorem wideDev_qmax_lt : 8 < 2 ^ 16 := by decide

/-- Eight queues in each direction. -/
def wideDev : XlnxDmaDev :=
  { polledDev with
    qmax := 8
    qmax_lt := wideDev_qmax_lt
    descq q := qdmaDescqInit 0 (if q < 8 then q else q - 8) (if q < 8 then q else q - 8) }

/-- Each of them is configured, none is started. -/
def wideLife : List BookEv :=
  List.replicate 8 (.add mmH2cConf) ++ List.replicate 8 (.add stC2hConf)

theorem dump_overflows :
    ¬ Fits xnlRespBuflenMax (dumpText blankEnv xnlRespBuflenMax
        (bookSys.exec (Books.init wideDev) wideLife).dev .list) ∧
      ¬ Fits xnlRespBuflenMax (dumpText blankEnv xnlRespBuflenMax startedDev (.desc 1 0 256)) ∧
      ¬ Fits xnlRespBuflenMax (dumpText blankEnv xnlRespBuflenMax startedDev (.wrb 1 0 256)) := by
  rw [list_fits_iff, desc_fits_iff, wrb_fits_iff]
  exact ⟨by decide +kernel, by decide +kernel, by decide +kernel⟩

end Qdma

import Qdma.CmdLine

/-!
# Accepted queue commands

The parameters of a queue command come in any order, and any number of times.  What is left of
them in `struct xcmd_q_parm` is followed here along the line.

* `QparmSeen` is what holds after some of the parameters: the bits of `f_arg_set` tell which
  there were, the flags tell the modes and directions, and the range is the last one given.
* `pairCheck_ok` leaves exactly one of two flags.
* `QWellFormed` is what an accepted command should be.

`read_range` compares two pointers, so that a range may be backwards.
`q_command_well_formed_iff` says that this is the only thing that may be wrong.
-/

namespace Qdma

open Lib

/-! ## Flags -/

def OneBit (k : BitVec 32) : Prop := ∃ n < 32, k = BitVec.twoPow 32 n

theorem hasFlag_or (f g k : BitVec 32) : hasFlag (f ||| g) k = (hasFlag f k || hasFlag g k) := by
  rw [hasFlag, BitVec.and_or_distrib_right]
  simp only [hasFlag, ne_eq]
  by_cases hf : f &&& k = 0#32 <;> simp [hf]

@[simp] theorem hasFlag_zero (k : BitVec 32) : hasFlag 0#32 k = false := by
  simp [hasFlag]

theorem OneBit.hasFlag_iff {k : BitVec 32} (hk : OneBit k) (f : BitVec 32) :
    hasFlag f k = true ↔ f &&& k = k := by
  obtain ⟨n, hn, rfl⟩ := hk
  have hne : BitVec.twoPow 32 n ≠ 0#32 := by
    intro h
    have := congrArg (·.getLsbD n) h
    simp [hn] at this
  simp only [hasFlag, BitVec.and_twoPow]
  by_cases hf : f.getLsbD n
  · simp [hf, hne]
  · simp [hf, hne.symm]

/-- Both flags of a pair, in the words of the source. -/
theorem and_pair_eq_iff {k k' : BitVec 32} (hk : OneBit k) (hk' : OneBit k') (f : BitVec 32) :
    f &&& (k ||| k') = k ||| k' ↔ hasFlag f k = true ∧ hasFlag f k' = true := by
  rw [hk.hasFlag_iff, hk'.hasFlag_iff]
  constructor
  · intro h
    have hleft : (k ||| k') &&& k = k := by
      ext i
      simpa using Or.inl
    have hright : (k ||| k') &&& k' = k' := by
      ext i
      simpa using Or.inr
    constructor
    · calc f &&& k = f &&& (k ||| k') &&& k := by rw [BitVec.and_assoc, hleft]
        _ = k := by rw [h, hleft]
    · calc f &&& k' = f &&& (k ||| k') &&& k' := by rw [BitVec.and_assoc, hright]
        _ = k' := by rw [h, hright]
  · rintro ⟨h, h'⟩
    rw [BitVec.and_or_distrib_left, h, h']

theorem QparmType.bit_oneBit (t : QparmType) : OneBit t.bit := by
  cases t
  · exact ⟨0, by decide, rfl⟩
  · exact ⟨1, by decide, rfl⟩
  · exact ⟨2, by decide, rfl⟩
  · exact ⟨3, by decide, rfl⟩
  · exact ⟨4, by decide, rfl⟩
  · exact ⟨5, by decide, rfl⟩
  · exact ⟨6, by decide, rfl⟩
  · exact ⟨7, by decide, rfl⟩
  · exact ⟨8, by decide, rfl⟩

theorem QparmType.hasFlag_bit (t t' : QparmType) : hasFlag t.bit t'.bit = decide (t = t') := by
  cases t <;> cases t' <;> rfl

/-! ## What is seen along the line -/

def Qparm.type : Qparm → QparmType
  | .idx _ => .idx
  | .mode _ => .mode
  | .dir _ => .dir
  | .cdev _ => .cdev
  | .bufsz _ => .bufsz
  | .ringsz _ => .rngsz
  | .desc _ _ => .desc
  | .wrb _ _ => .wrb
  | .wrbsz _ => .wrbsz

def Qparm.range : Qparm → Option (Word × Word)
  | .desc x y => some (x, y)
  | .wrb x y => some (x, y)
  | _ => none

/-- The last range on the line. -/
def lastRange (ps : List Qparm) : Option (Word × Word) := (ps.filterMap Qparm.range).getLast?

theorem lastRange_append (ps : List Qparm) (p : Qparm) :
    lastRange (ps ++ [p]) = p.range.or (lastRange ps) := by
  rw [lastRange, List.filterMap_append, List.getLast?_append]
  cases p <;> rfl

/-- After the parameters `ps`. -/
structure QparmSeen (ps : List Qparm) (r : QparmRead) : Prop where
  set : ∀ t, hasFlag r.fArgSet t.bit = true ↔ ∃ p ∈ ps, p.type = t
  mm : hasFlag r.qparm.flags xnlFQmodeMm = true ↔ Qparm.mode false ∈ ps
  st : hasFlag r.qparm.flags xnlFQmodeSt = true ↔ Qparm.mode true ∈ ps
  h2c : hasFlag r.qparm.flags xnlFQdirH2c = true ↔ Qparm.dir false ∈ ps
  c2h : hasFlag r.qparm.flags xnlFQdirC2h = true ↔ Qparm.dir true ∈ ps
  range : ∀ x y, lastRange ps = some (x, y) →
    cReaders.int x = some r.qparm.rangeStart ∧ cReaders.int y = some r.qparm.rangeEnd

theorem qparmSeen_nil : QparmSeen [] qparmStart := by
  have hzero : ∀ k, hasFlag qparmStart.qparm.flags k = false := fun k => hasFlag_zero k
  refine ⟨fun t => ?_, ?_, ?_, ?_, ?_, fun x y h => nomatch h⟩
  · have : hasFlag qparmStart.fArgSet t.bit = false := hasFlag_zero _
    simp [this]
  all_goals simp [hzero]

/-- The flags that a parameter adds. -/
def Qparm.AddsFlags (p : Qparm) (f : BitVec 32) : Prop :=
  (hasFlag f xnlFQmodeMm = true ↔ p = .mode false) ∧
    (hasFlag f xnlFQmodeSt = true ↔ p = .mode true) ∧
      (hasFlag f xnlFQdirH2c = true ↔ p = .dir false) ∧
        (hasFlag f xnlFQdirC2h = true ↔ p = .dir true)

instance (p : Qparm) (f : BitVec 32) : Decidable (p.AddsFlags f) :=
  inferInstanceAs (Decidable (_ ∧ _))

theorem Qparm.addsFlags_zero {p : Qparm} (hmode : ∀ b, p ≠ .mode b) (hdir : ∀ b, p ≠ .dir b) :
    p.AddsFlags 0 := by
  simp [Qparm.AddsFlags, hmode, hdir]

theorem Qparm.apply_flags {rd : Readers} {p : Qparm} {r r' : QparmRead}
    (h : p.apply rd r = some r') :
    ∃ f, r'.qparm.flags = r.qparm.flags ||| f ∧ p.AddsFlags f := by
  have hzero : r.qparm.flags = r.qparm.flags ||| 0 := BitVec.or_zero.symm
  cases p with
  | mode st =>
    cases h
    exact ⟨_, rfl, by cases st <;> decide⟩
  | dir c2h =>
    cases h
    exact ⟨_, rfl, by cases c2h <;> decide⟩
  | idx n | bufsz n | ringsz n | wrbsz n =>
    obtain ⟨v, -, rfl⟩ := Option.map_eq_some_iff.mp h
    exact ⟨0, hzero, Qparm.addsFlags_zero nofun nofun⟩
  | cdev n =>
    obtain ⟨on, -, rfl⟩ := Option.map_eq_some_iff.mp h
    cases on with
    | false => exact ⟨0, hzero, Qparm.addsFlags_zero nofun nofun⟩
    | true =>
      have hcdev : hasFlag xnlFCdev xnlFQmodeMm = false ∧ hasFlag xnlFCdev xnlFQmodeSt = false ∧
        hasFlag xnlFCdev xnlFQdirH2c = false ∧ hasFlag xnlFCdev xnlFQdirC2h = false := by decide
      refine ⟨xnlFCdev, rfl, ?_⟩
      simp [Qparm.AddsFlags, hcdev]
  | desc x y | wrb x y =>
    obtain ⟨v1, -, h1⟩ := Option.bind_eq_some_iff.mp h
    obtain ⟨v2, -, rfl⟩ := Option.map_eq_some_iff.mp h1
    exact ⟨0, hzero, Qparm.addsFlags_zero nofun nofun⟩

theorem Qparm.apply_fArgSet {rd : Readers} {p : Qparm} {r r' : QparmRead}
    (h : p.apply rd r = some r') : r'.fArgSet = r.fArgSet ||| p.type.bit := by
  cases p with
  | mode st | dir c2h => cases h; rfl
  | idx n | cdev n | bufsz n | ringsz n | wrbsz n =>
    obtain ⟨v, -, rfl⟩ := Option.map_eq_some_iff.mp h
    rfl
  | desc x y | wrb x y =>
    obtain ⟨v1, -, h1⟩ := Option.bind_eq_some_iff.mp h
    obtain ⟨v2, -, rfl⟩ := Option.map_eq_some_iff.mp h1
    rfl

theorem Qparm.apply_range {rd : Readers} {p : Qparm} {r r' : QparmRead}
    (h : p.apply rd r = some r') :
    (∀ x y, p.range = some (x, y) →
      rd.int x = some r'.qparm.rangeStart ∧ rd.int y = some r'.qparm.rangeEnd) ∧
    (p.range = none → r'.qparm.rangeStart = r.qparm.rangeStart ∧
      r'.qparm.rangeEnd = r.qparm.rangeEnd) := by
  cases p with
  | mode st | dir c2h => cases h; exact ⟨nofun, fun _ => ⟨rfl, rfl⟩⟩
  | idx n | bufsz n | ringsz n | wrbsz n =>
    obtain ⟨v, -, rfl⟩ := Option.map_eq_some_iff.mp h
    exact ⟨nofun, fun _ => ⟨rfl, rfl⟩⟩
  | cdev n =>
    obtain ⟨on, -, rfl⟩ := Option.map_eq_some_iff.mp h
    cases on <;> exact ⟨nofun, fun _ => ⟨rfl, rfl⟩⟩
  | desc a b | wrb a b =>
    obtain ⟨v1, ha, h1⟩ := Option.bind_eq_some_iff.mp h
    obtain ⟨v2, hb, rfl⟩ := Option.map_eq_some_iff.mp h1
    refine ⟨fun x y hxy => ?_, nofun⟩
    obtain ⟨rfl, rfl⟩ := Prod.mk.inj (Option.some.inj hxy)
    exact ⟨ha, hb⟩

theorem hasFlag_or_iff_mem {f g k : BitVec 32} {p q : Qparm} {ps : List Qparm}
    (hf : hasFlag f k = true ↔ q ∈ ps) (hg : hasFlag g k = true ↔ p = q) :
    hasFlag (f ||| g) k = true ↔ q ∈ ps ++ [p] := by
  rw [hasFlag_or, Bool.or_eq_true, hf, hg, List.mem_append, List.mem_singleton, eq_comm]

theorem QparmSeen.apply {ps : List Qparm} {p : Qparm} {r r' : QparmRead} (h : QparmSeen ps r)
    (hp : p.apply cReaders r = some r') : QparmSeen (ps ++ [p]) r' := by
  obtain ⟨f, hflags, hmm, hst, hh2c, hc2h⟩ := Qparm.apply_flags hp
  have hrange := Qparm.apply_range hp
  refine ⟨fun t => ?_, ?_, ?_, ?_, ?_, fun x y hxy => ?_⟩
  · rw [Qparm.apply_fArgSet hp, hasFlag_or, QparmType.hasFlag_bit, Bool.or_eq_true, h.set]
    simp [or_and_right, exists_or]
  · exact hflags ▸ hasFlag_or_iff_mem h.mm hmm
  · exact hflags ▸ hasFlag_or_iff_mem h.st hst
  · exact hflags ▸ hasFlag_or_iff_mem h.h2c hh2c
  · exact hflags ▸ hasFlag_or_iff_mem h.c2h hc2h
  · rw [lastRange_append] at hxy
    cases hpr : p.range with
    | some xy =>
      rw [hpr] at hxy
      exact hrange.1 x y (hpr.trans hxy)
    | none =>
      rw [hpr] at hxy
      obtain ⟨hs, he⟩ := hrange.2 hpr
      rw [hs, he]
      exact h.range x y hxy

theorem qparmSeen_of_foldlM {ps : List Qparm} {r : QparmRead}
    (h : ps.foldlM (Qparm.apply cReaders) qparmStart = some r) : QparmSeen ps r := by
  induction ps using List.reverseRecOn generalizing r with
  | nil =>
    obtain rfl : qparmStart = r := Option.some.inj h
    exact qparmSeen_nil
  | append_singleton ps p ih =>
    rw [List.foldlM_append] at h
    obtain ⟨r0, h0, hp⟩ := Option.bind_eq_some_iff.mp h
    refine (ih h0).apply ?_
    simpa using hp

/-! ## What the checks leave -/

/-- Of two flags exactly one is left, and nothing else is touched. -/
structure PairLeft (t : QparmType) (k k' : BitVec 32) (r r' : QparmRead) : Prop where
  one : hasFlag r'.qparm.flags k ≠ hasFlag r'.qparm.flags k'
  flags : ∀ j, hasFlag k j = false → hasFlag r'.qparm.flags j = hasFlag r.qparm.flags j
  marks : ∀ t', t' ≠ t → hasFlag r'.fArgSet t'.bit = hasFlag r.fArgSet t'.bit
  range : r'.qparm.rangeStart = r.qparm.rangeStart ∧ r'.qparm.rangeEnd = r.qparm.rangeEnd

theorem pairCheck_ok {t : QparmType} {k k' : BitVec 32} {r r' : QparmRead}
    (h : pairCheck t k k' r = .ok r') (hk : OneBit k) (hk' : OneBit k') (hkk : hasFlag k k' = false)
    (hset : hasFlag r.fArgSet t.bit = true ↔
      hasFlag r.qparm.flags k = true ∨ hasFlag r.qparm.flags k' = true) :
    PairLeft t k k' r r' := by
  rw [pairCheck] at h
  dsimp only at h
  split_ifs at h with hgiven hboth
  · cases h
    rw [and_pair_eq_iff hk hk'] at hboth
    have hone := hset.mp hgiven
    refine ⟨fun heq => ?_, fun _ _ => rfl, fun _ _ => rfl, rfl, rfl⟩
    rw [heq] at hone hboth
    exact hboth ⟨hone.elim id id, hone.elim id id⟩
  · -- neither was given, so the default is the only one
    cases h
    obtain ⟨-, hk'0⟩ := not_or.mp (mt hset.mpr hgiven)
    have hself : hasFlag k k = true := (hk.hasFlag_iff k).mpr BitVec.and_self
    have hflags : ∀ j, hasFlag (r.qparm.flags ||| k) j =
      (hasFlag r.qparm.flags j || hasFlag k j) := fun j => hasFlag_or _ _ _
    refine ⟨?_, fun j hj => ?_, fun t' ht => ?_, rfl, rfl⟩
    · change hasFlag (r.qparm.flags ||| k) k ≠ hasFlag (r.qparm.flags ||| k) k'
      rw [hflags, hflags, hself, hkk, Bool.eq_false_of_not_eq_true hk'0]
      simp
    · change hasFlag (r.qparm.flags ||| k) j = _
      rw [hflags, hj, Bool.or_false]
    · change hasFlag (r.fArgSet ||| t.bit) t'.bit = _
      rw [hasFlag_or, QparmType.hasFlag_bit, decide_eq_false (Ne.symm ht), Bool.or_false]

/-- What the checks leave of the parameters `ps`. -/
structure QparmChecked (op : QOp) (ps : List Qparm) (q : XcmdQParm) : Prop where
  mode : hasFlag q.flags xnlFQmodeMm ≠ hasFlag q.flags xnlFQmodeSt
  dir : hasFlag q.flags xnlFQdirH2c ≠ hasFlag q.flags xnlFQdirC2h
  idx : op ≠ .add → ∃ n, Qparm.idx n ∈ ps
  given : ∀ t, t ≠ .mode → t ≠ .dir → (hasFlag q.sflags t.bit = true ↔ ∃ p ∈ ps, p.type = t)
  range : ∀ x y, lastRange ps = some (x, y) →
    cReaders.int x = some q.rangeStart ∧ cReaders.int y = some q.rangeEnd

theorem exists_mode_iff (ps : List Qparm) :
    (∃ p ∈ ps, p.type = .mode) ↔ Qparm.mode false ∈ ps ∨ Qparm.mode true ∈ ps := by
  constructor
  · rintro ⟨p, hp, ht⟩
    cases p with
    | mode st => cases st <;> simp [hp]
    | idx | dir | cdev | bufsz | ringsz | desc | wrb | wrbsz => cases ht
  · rintro (h | h) <;> exact ⟨_, h, rfl⟩

theorem exists_dir_iff (ps : List Qparm) :
    (∃ p ∈ ps, p.type = .dir) ↔ Qparm.dir false ∈ ps ∨ Qparm.dir true ∈ ps := by
  constructor
  · rintro ⟨p, hp, ht⟩
    cases p with
    | dir c2h => cases c2h <;> simp [hp]
    | idx | mode | cdev | bufsz | ringsz | desc | wrb | wrbsz => cases ht
  · rintro (h | h) <;> exact ⟨_, h, rfl⟩

theorem exists_idx {ps : List Qparm} (h : ∃ p ∈ ps, p.type = .idx) : ∃ n, Qparm.idx n ∈ ps := by
  obtain ⟨p, hp, ht⟩ := h
  cases p with
  | idx n => exact ⟨n, hp⟩
  | mode | dir | cdev | bufsz | ringsz | desc | wrb | wrbsz => cases ht

/-- Only `add` goes without an index. -/
theorem required_of_ok {r : QparmRead} {op : QOp} {q : XcmdQParm}
    (h : qparmCheck r op.required = .ok q) (hop : op ≠ .add) :
    hasFlag r.fArgSet QparmType.idx.bit = true := by
  have hreq : op.required = QparmType.idx.bit := by
    cases op with
    | add => exact absurd rfl hop
    | start | stop | del | dump => rfl
  have hany : (List.range qparmMax).any (QparmType.idx.bit.getLsbD ·) = true := by decide
  by_contra hno
  rw [QparmType.idx.bit_oneBit.hasFlag_iff] at hno
  rw [hreq, qparmCheck, if_pos ⟨hno, hany⟩] at h
  cases h

theorem qparmCheck_ok {ps : List Qparm} {r : QparmRead} {op : QOp} {q : XcmdQParm}
    (hr : QparmSeen ps r) (h : qparmCheck r op.required = .ok q) : QparmChecked op ps q := by
  have hreq := required_of_ok h
  rw [qparmCheck] at h
  split_ifs at h
  obtain ⟨r1, hmode, h1⟩ := Parsed.bind_eq_ok.mp h
  obtain ⟨r2, hdir, h2⟩ := Parsed.bind_eq_ok.mp h1
  cases h2
  have hm := pairCheck_ok hmode ⟨1, by decide, rfl⟩ ⟨0, by decide, rfl⟩ (by decide)
    (by rw [hr.set, hr.mm, hr.st, exists_mode_iff])
  have hset1 : hasFlag r1.fArgSet QparmType.dir.bit = true ↔
      hasFlag r1.qparm.flags xnlFQdirH2c = true ∨ hasFlag r1.qparm.flags xnlFQdirC2h = true := by
    rw [hm.marks _ (by decide), hm.flags _ (by decide), hm.flags _ (by decide), hr.set, hr.h2c,
      hr.c2h, exists_dir_iff]
  -- the first check leaves the marks and the flags of the directions alone
  have hd := pairCheck_ok hdir ⟨2, by decide, rfl⟩ ⟨3, by decide, rfl⟩ (by decide) hset1
  refine ⟨?_, hd.one, fun hop => ?_, fun t hmt hdt => ?_, fun x y hxy => ?_⟩
  · change hasFlag r2.qparm.flags xnlFQmodeMm ≠ hasFlag r2.qparm.flags xnlFQmodeSt
    rw [hd.flags _ (by decide), hd.flags _ (by decide)]
    exact hm.one
  · exact exists_idx ((hr.set _).mp (hreq hop))
  · change hasFlag r2.fArgSet t.bit = true ↔ _
    rw [hd.marks t hdt, hm.marks t hmt, hr.set]
  · change cReaders.int x = some r2.qparm.rangeStart ∧ cReaders.int y = some r2.qparm.rangeEnd
    rw [hd.range.1, hd.range.2, hm.range.1, hm.range.2]
    exact hr.range x y hxy

/-! ## Accepted commands -/

/-- The queue commands but for `list`. -/
def qCmds : List XnlCmd := [.qAdd, .qStart, .qStop, .qDel, .qDump, .qDesc, .qWrb]

/-- What an accepted queue command with the parameters `ps` should be. -/
structure QWellFormed (ps : List Qparm) (x : XcmdInfo) : Prop where
  mode : hasFlag x.qparm.flags xnlFQmodeMm ≠ hasFlag x.qparm.flags xnlFQmodeSt
  dir : hasFlag x.qparm.flags xnlFQdirH2c ≠ hasFlag x.qparm.flags xnlFQdirC2h
  idx : x.op ≠ .qAdd → ∃ n, Qparm.idx n ∈ ps
  range : x.op = .qDesc ∨ x.op = .qWrb → x.qparm.rangeStart ≤ x.qparm.rangeEnd
  kinds : x.op = .qDesc ∨ x.op = .qWrb →
    ¬ ((∃ p ∈ ps, p.type = .desc) ∧ ∃ p ∈ ps, p.type = .wrb)
  entrySize : x.op = .qAdd → hasFlag x.qparm.flags xnlFQmodeSt = true →
    hasFlag x.qparm.flags xnlFQdirC2h = true →
      hasFlag x.qparm.sflags QparmType.wrbsz.bit = true

/-- The last range of a dump is not backwards. -/
def RangeOrdered (op : QOp) (ps : List Qparm) : Prop :=
  op = .dump → ∀ x y, lastRange ps = some (x, y) →
    ∀ v w, argReadInt x = .ok v → argReadInt y = .ok w → v ≤ w

theorem lastRange_isSome {ps : List Qparm} :
    (∃ x y, lastRange ps = some (x, y)) ↔ ∃ p ∈ ps, p.type = .desc ∨ p.type = .wrb := by
  have hp : ∀ p : Qparm, p.range ≠ none ↔ p.type = .desc ∨ p.type = .wrb := by
    intro p
    cases p <;> simp [Qparm.range, Qparm.type]
  constructor
  · rintro ⟨x, y, hxy⟩
    obtain ⟨p, hmem, hrange⟩ := List.mem_filterMap.mp (List.mem_of_getLast? hxy)
    exact ⟨p, hmem, (hp p).mp (by rw [hrange]; exact Option.some_ne_none _)⟩
  · rintro ⟨p, hmem, htype⟩
    obtain ⟨xy, hxy⟩ := Option.ne_none_iff_exists'.mp ((hp p).mpr htype)
    have hne : ps.filterMap Qparm.range ≠ [] := by
      intro hnil
      have hin := List.mem_filterMap.mpr ⟨p, hmem, hxy⟩
      rw [hnil] at hin
      exact List.not_mem_nil hin
    exact ⟨_, _, List.getLast?_eq_some_getLast hne⟩

/-- What `dumpKind` makes of a dump. -/
theorem dumpKind_dump {x x' : XcmdInfo} (hx : x.op = .qDump) (h : dumpKind x = .ok x') :
    x'.qparm = x.qparm ∧ x'.op ≠ .qAdd ∧
      ¬ (hasFlag x.qparm.sflags QparmType.desc.bit = true ∧
        hasFlag x.qparm.sflags QparmType.wrb.bit = true) ∧
      (x'.op = .qDesc ∨ x'.op = .qWrb ↔ hasFlag x.qparm.sflags QparmType.desc.bit = true ∨
        hasFlag x.qparm.sflags QparmType.wrb.bit = true) := by
  rw [dumpKind, if_pos hx] at h
  dsimp only at h
  split_ifs at h with hboth hdesc hwrb
  all_goals rw [and_pair_eq_iff QparmType.desc.bit_oneBit QparmType.wrb.bit_oneBit] at hboth
  · cases h
    exact ⟨rfl, by simp, hboth, iff_of_true (Or.inl rfl) (Or.inl hdesc)⟩
  · cases h
    exact ⟨rfl, by simp, hboth, iff_of_true (Or.inr rfl) (Or.inr hwrb)⟩
  · cases h
    refine ⟨rfl, by rw [hx]; decide, hboth, iff_of_false ?_ (not_or.mpr ⟨hdesc, hwrb⟩)⟩
    rw [hx]
    decide

theorem dumpKind_other {x : XcmdInfo} (hx : x.op ≠ .qDump) : dumpKind x = .ok x := by
  rw [dumpKind, if_neg hx]

theorem defaultEntrySize_flags (x : XcmdInfo) :
    (defaultEntrySize x).op = x.op ∧ (defaultEntrySize x).qparm.flags = x.qparm.flags ∧
      (hasFlag x.qparm.flags xnlFQmodeSt = true →
        hasFlag (defaultEntrySize x).qparm.sflags QparmType.wrbsz.bit = true) := by
  rw [defaultEntrySize, if_pos rfl]
  have hself : hasFlag QparmType.wrbsz.bit QparmType.wrbsz.bit = true := by decide
  split_ifs with hst hset
  · exact ⟨rfl, rfl, fun _ => hset⟩
  · refine ⟨rfl, rfl, fun _ => ?_⟩
    change hasFlag (x.qparm.sflags ||| QparmType.wrbsz.bit) _ = true
    rw [hasFlag_or, hself, Bool.or_true]
  · exact ⟨rfl, rfl, fun h => absurd (of_decide_eq_true h) hst⟩

/-- The parameters, checked, make a command that is as it should be but for the order of its
range. -/
theorem finish_well_formed_iff {op : QOp} {ps : List Qparm} {x x' : XcmdInfo}
    (hop : x.op = op.cmd) (hq : QparmChecked op ps x.qparm) (h : op.finish x = some x') :
    QWellFormed ps x' ↔ RangeOrdered op ps := by
  have h' := Parsed.toOption_eq_some.mp h
  by_cases hdump : op = .dump
  · -- a dump has a range exactly when it has become another command
    subst hdump
    rw [if_neg (by decide)] at h'
    obtain ⟨hqp, hadd, hkinds, hrange⟩ := dumpKind_dump hop h'
    rw [hq.given _ (by decide) (by decide), hq.given _ (by decide) (by decide)] at hkinds hrange
    have hlast : (∃ a b, lastRange ps = some (a, b)) ↔ x'.op = .qDesc ∨ x'.op = .qWrb := by
      rw [lastRange_isSome, hrange]
      simp only [and_or_left, exists_or]
    constructor
    · intro hwf _ a b hab v w hv hw
      obtain ⟨hs, he⟩ := hq.range a b hab
      have hle := hwf.range (hlast.mp ⟨a, b, hab⟩)
      rw [hqp] at hle
      have hv' : x.qparm.rangeStart = v :=
        Option.some.inj (hs.symm.trans (Parsed.toOption_eq_some.mpr hv))
      have hw' : x.qparm.rangeEnd = w :=
        Option.some.inj (he.symm.trans (Parsed.toOption_eq_some.mpr hw))
      rwa [hv', hw'] at hle
    · intro hord
      refine ⟨hqp ▸ hq.mode, hqp ▸ hq.dir, fun _ => hq.idx (by decide), fun hr => ?_,
        fun _ => hkinds, fun h => absurd h hadd⟩
      obtain ⟨a, b, hab⟩ := hlast.mpr hr
      obtain ⟨hs, he⟩ := hq.range a b hab
      rw [hqp]
      exact hord rfl a b hab _ _ (Parsed.toOption_eq_some.mp hs) (Parsed.toOption_eq_some.mp he)
  · refine iff_of_true ?_ fun h => absurd h hdump
    obtain ⟨hrop, hrflags, hrsize⟩ := defaultEntrySize_flags x
    have hy : ∀ y, y = (if op = .add then defaultEntrySize x else x) →
        y.op = op.cmd ∧ y.qparm.flags = x.qparm.flags ∧ (op = .add →
          hasFlag x.qparm.flags xnlFQmodeSt = true →
            hasFlag y.qparm.sflags QparmType.wrbsz.bit = true) := by
      rintro y rfl
      split_ifs with hadd
      · exact ⟨hrop.trans hop, hrflags, fun _ => hrsize⟩
      · exact ⟨hop, rfl, fun h => absurd h hadd⟩
    obtain ⟨hyop, hyflags, hysize⟩ := hy _ rfl
    have hne : op.cmd ≠ .qDump ∧ ¬ (op.cmd = .qDesc ∨ op.cmd = .qWrb) ∧
        (op.cmd = .qAdd → op = .add) ∧ (op.cmd ≠ .qAdd → op ≠ .add) := by
      cases op <;> simp [QOp.cmd] at hdump ⊢
    rw [dumpKind_other (by rw [hyop]; exact hne.1)] at h'
    obtain rfl := Parsed.ok.inj h'
    refine ⟨hyflags ▸ hq.mode, hyflags ▸ hq.dir, fun h => hq.idx (hne.2.2.2 (hyop ▸ h)),
      fun h => absurd (hyop ▸ h) hne.2.1, fun h => absurd (hyop ▸ h) hne.2.1, fun h hst _ => ?_⟩
    exact hysize (hne.2.2.1 (hyop ▸ h)) (hyflags ▸ hst)

/-- What the words of a queue command with parameters are parsed to. -/
theorem q_eval_well_formed_iff {n : IfName} {op : QOp} {ps : List Qparm} {x : XcmdInfo}
    (h : (CmdLine.dev n (.q op ps)).eval cReaders = some x) :
    QWellFormed ps x ↔ RangeOrdered op ps := by
  obtain ⟨d, -, h1⟩ := Option.bind_eq_some_iff.mp h
  rw [Req.fill] at h1
  split_ifs at h1
  obtain ⟨q, hq, hfin⟩ := Option.bind_eq_some_iff.mp h1
  obtain ⟨r, hloop, hcheck⟩ := Option.bind_eq_some_iff.mp hq
  exact finish_well_formed_iff rfl
    (qparmCheck_ok (qparmSeen_of_foldlM hloop) (Parsed.toOption_eq_some.mp hcheck)) hfin

theorem exists_q_of_eval {c : CmdLine} {x : XcmdInfo} (h : c.eval cReaders = some x)
    (hx : x.op ∈ qCmds) : ∃ n op ps, c = .dev n (.q op ps) := by
  cases c with
  | devList =>
    cases h
    exact absurd hx (by decide)
  | dev n r =>
    obtain ⟨d, -, h1⟩ := Option.bind_eq_some_iff.mp h
    cases r with
    | q op ps => exact ⟨n, op, ps, rfl⟩
    | info | regDump | qList =>
      obtain rfl := Option.some.inj h1
      simp [qCmds] at hx
    | regRead a =>
      obtain ⟨reg, -, rfl⟩ := Option.map_eq_some_iff.mp h1
      simp [qCmds] at hx
    | regWrite a val =>
      obtain ⟨reg, -, h2⟩ := Option.bind_eq_some_iff.mp h1
      obtain ⟨v, -, rfl⟩ := Option.map_eq_some_iff.mp h2
      simp [qCmds] at hx

theorem eval_of_parseCmd {argv : List Word} {x : XcmdInfo} {c : CmdLine}
    (h : parseCmd argv = .ok x) (hc : argv.tail = c.words) : c.eval cReaders = some x := by
  cases argv with
  | nil => exact nomatch h
  | cons prog args =>
    change args = c.words at hc
    rw [← parseCmd_words prog c, ← hc, h]
    rfl

theorem q_command_well_formed_iff {argv : List Word} {x : XcmdInfo} (h : parseCmd argv = .ok x)
    (hx : x.op ∈ qCmds) :
    (∃ n op ps, argv.tail = (CmdLine.dev n (.q op ps)).words) ∧
      ∀ n op ps, argv.tail = (CmdLine.dev n (.q op ps)).words →
        (QWellFormed ps x ↔ RangeOrdered op ps) := by
  refine ⟨?_, fun n op ps hc => q_eval_well_formed_iff (eval_of_parseCmd h hc)⟩
  obtain ⟨c, hc⟩ := exists_words_of_ok h
  obtain ⟨n, op, ps, rfl⟩ := exists_q_of_eval (eval_of_parseCmd h hc) hx
  exact ⟨n, op, ps, hc⟩

/-- `dmactl qdma0 q dump idx 0 desc x y`. -/
def dumpLine (x y : Word) : List Word :=
  [['d'], kwQdma ++ ['0'], kwQ, kwDump, kwIdx, ['0'], kwDesc, x, y]

/-- What the line comes to. -/
def dumpLineInfo (x y : ℕ) : XcmdInfo :=
  { XcmdInfo.zero with
    op := .qDesc
    qparm := { XcmdQParm.zero with sflags := 0x47, flags := 0x6, rangeStart := x, rangeEnd := y } }

/-- Entries 2 to 5 are asked for. -/
theorem q_command_forwards : (∃ n op ps, (dumpLine ['2'] ['5']).tail =
      (CmdLine.dev n (.q op ps)).words) ∧
    ∀ n op ps, (dumpLine ['2'] ['5']).tail = (CmdLine.dev n (.q op ps)).words →
      (QWellFormed ps (dumpLineInfo 2 5) ↔ RangeOrdered op ps) :=
  q_command_well_formed_iff (by decide +kernel) (by decide)

/-- Entries 5 to 2 are asked for, and the command is accepted. -/
theorem q_command_backwards : ¬ (∀ argv x, parseCmd argv = .ok x → x.op ∈ qCmds →
    ∀ n op ps, argv.tail = (CmdLine.dev n (.q op ps)).words → QWellFormed ps x) := by
  intro h
  have hparse : parseCmd (dumpLine ['5'] ['2']) = .ok (dumpLineInfo 5 2) := by decide +kernel
  have hwf := h _ _ hparse (by decide)
    { vf := false, digits := ['0'], figures := by decide, short := by decide } .dump
    [.idx ['0'], .desc ['5'] ['2']] rfl
  exact absurd (hwf.range (Or.inl rfl)) (by decide)

end Qdma

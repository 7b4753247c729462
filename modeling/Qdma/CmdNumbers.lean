import Qdma.CmdQueue

/-!
# Numbers on the command line

A number is read by `strtoul` into 32 bits, by the same and then into 8 bits for a device, or by
`sscanf` for `wrbsz`.  None of them looks at what does not fit.

* `plainReaders` read a number as it is written, or not at all: the number of a device in
  decimal, that of `wrbsz` in decimal, and the others as C does.  `cdev` is a switch and no
  number; it is read as before.
* `SameWhen` compares the two readings piece by piece.
* `CmdLine.NumbersFit` says which words make no difference.

`numbers_mean_iff` says that an accepted line comes to what is written exactly when its numbers
fit.
-/

namespace Qdma

open Lib

/-! ## Two readings -/

def plainReaders : Readers :=
  { int := denotedBits radixAny 32
    switch := cReaders.switch
    dev := fun ds =>
      if ds ≠ [] ∧ numberOf 10 ds < 2 ^ 8 then some (numberOf 10 ds) else none
    byte := fun s _ => denotedBits radixTen 8 s }

/-- A number of 32 bits: not empty, not negative, and small enough. -/
def FitsInt (s : Word) : Prop := s ≠ [] ∧ (scan radixAny s).Fits 32

/-- The number of a device: not empty, small enough, and not changed by a leading zero. -/
def FitsDev (ds : Word) : Prop :=
  ds ≠ [] ∧ numberOf 10 ds < 2 ^ 8 ∧ (ds.head? = some '0' → numberOf 10 ds < 8)

/-- The number of `wrbsz`: decimal to its end, not negative, and small enough. -/
def FitsByte (s : Word) : Prop := (scan radixTen s).Whole ∧ (scan radixTen s).Fits 8

def Qparm.NumbersFit : Qparm → Prop
  | .idx n => FitsInt n
  | .mode _ => True
  | .dir _ => True
  | .cdev _ => True
  | .bufsz n => FitsInt n
  | .ringsz n => FitsInt n
  | .desc x y => FitsInt x ∧ FitsInt y
  | .wrb x y => FitsInt x ∧ FitsInt y
  | .wrbsz n => FitsByte n

def RegAddr.NumbersFit (a : RegAddr) : Prop := (∀ b, a.bar = some b → FitsInt b) ∧ FitsInt a.addr

def Req.NumbersFit : Req → Prop
  | .info => True
  | .regDump => True
  | .regRead a => a.NumbersFit
  | .regWrite a val => a.NumbersFit ∧ FitsInt val
  | .qList => True
  | .q _ ps => ∀ p ∈ ps, p.NumbersFit

def CmdLine.NumbersFit : CmdLine → Prop
  | .devList => True
  | .dev n r => FitsDev n.digits ∧ r.NumbersFit

/-! ## Comparing readings -/

/-- Where `o` has a value, `o'` has the same one when `P` holds, and none otherwise. -/
def SameWhen {α : Type} (P : Prop) (o o' : Option α) : Prop :=
  ∀ a, o = some a → (P → o' = some a) ∧ (¬ P → o' = none)

namespace SameWhen

variable {α β : Type} {P Q : Prop} {o o' : Option α}

theorem rfl' : SameWhen True o o := fun _ h => ⟨fun _ => h, fun hn => absurd trivial hn⟩

theorem congr (h : SameWhen P o o') (hPQ : P ↔ Q) : SameWhen Q o o' := fun a ha =>
  ⟨fun hq => (h a ha).1 (hPQ.mpr hq), fun hq => (h a ha).2 (mt hPQ.mp hq)⟩

theorem map (h : SameWhen P o o') (f : α → β) : SameWhen P (o.map f) (o'.map f) := by
  intro b hb
  obtain ⟨a, ha, rfl⟩ := Option.map_eq_some_iff.mp hb
  obtain ⟨hsame, hnone⟩ := h a ha
  exact ⟨fun hp => by rw [hsame hp, Option.map_some], fun hp => by rw [hnone hp, Option.map_none]⟩

theorem bind (h : SameWhen P o o') {f f' : α → Option β}
    (hf : ∀ a, SameWhen Q (f a) (f' a)) : SameWhen (P ∧ Q) (o.bind f) (o'.bind f') := by
  intro b hb
  obtain ⟨a, ha, hfa⟩ := Option.bind_eq_some_iff.mp hb
  obtain ⟨hsame, hnone⟩ := h a ha
  obtain ⟨hsame', hnone'⟩ := hf a b hfa
  constructor
  · rintro ⟨hp, hq⟩
    rw [hsame hp, Option.bind_some, hsame' hq]
  · intro hpq
    by_cases hp : P
    · rw [hsame hp, Option.bind_some, hnone' fun hq => hpq ⟨hp, hq⟩]
    · rw [hnone hp, Option.bind_none]

theorem eq_some_iff (h : SameWhen P o o') {a : α} (ha : o = some a) : o' = some a ↔ P := by
  refine ⟨fun h' => ?_, (h a ha).1⟩
  by_contra hp
  rw [(h a ha).2 hp] at h'
  cases h'

end SameWhen

/-! ## One number -/

theorem argReadInt_toOption {s : Word} {v : ℕ} (h : (argReadInt s).toOption = some v) :
    (strtoul 64 radixAny s).2 = [] ∧ v = u32 (strtoul 64 radixAny s).1 := by
  rw [argReadInt] at h
  split_ifs at h with hrest
  · rw [Parsed.toOption_err] at h
    cases h
  · exact ⟨not_not.mp hrest, (Option.some.inj h).symm⟩

theorem int_sameWhen (s : Word) : SameWhen (FitsInt s) (cReaders.int s) (plainReaders.int s) := by
  intro v hv
  obtain ⟨hrest, rfl⟩ := argReadInt_toOption hv
  change (FitsInt s → denotedBits radixAny 32 s = _) ∧ (_ → denotedBits radixAny 32 s = _)
  obtain rfl | hwhole := whole_of_strtoul hrest
  · -- the empty text is accepted, as 0
    have hnot : ¬ (scan radixAny []).Whole := fun h => h.1 rfl
    exact ⟨fun h => absurd rfl h.1, fun _ => denotedBits_of_not_whole hnot⟩
  · have hne : s ≠ [] := by
      rintro rfl
      exact hwhole.1 rfl
    rw [denotedBits_of_whole hwhole]
    refine ⟨fun h => ?_, fun h => if_neg fun hf => h ⟨hne, hf⟩⟩
    rw [if_pos h.2, strtoul_of_fits hwhole.1 (by decide) h.2, u32, Nat.mod_eq_of_lt h.2.2]

theorem byte_sameWhen (s : Word) (old : ℕ) :
    SameWhen (FitsByte s) (cReaders.byte s old) (plainReaders.byte s old) := by
  intro v hv
  obtain rfl : sscanfHhu s old = v := Option.some.inj hv
  change (FitsByte s → denotedBits radixTen 8 s = _) ∧ (_ → denotedBits radixTen 8 s = _)
  by_cases hwhole : (scan radixTen s).Whole
  · rw [denotedBits_of_whole hwhole]
    refine ⟨fun h => ?_, fun h => if_neg fun hf => h ⟨hwhole, hf⟩⟩
    rw [if_pos h.2, sscanfHhu, if_neg hwhole.1, strtoul_of_fits hwhole.1 (by decide) h.2,
      Nat.mod_eq_of_lt h.2.2]
  · exact ⟨fun h => absurd h.1 hwhole, fun _ => denotedBits_of_not_whole hwhole⟩

/-! ## The number of a device -/

theorem dev_eq_some_iff {n : IfName} {d : ℕ} (h : cReaders.dev n.digits = some d) :
    plainReaders.dev n.digits = some d ↔ FitsDev n.digits := by
  obtain ⟨v, hv, rfl⟩ := Option.map_eq_some_iff.mp h
  obtain ⟨hend, rfl⟩ := argReadInt_toOption hv
  change (if n.digits ≠ [] ∧ numberOf 10 n.digits < 2 ^ 8 then _ else _) = _ ↔ _
  by_cases hne : n.digits = []
  · simp [FitsDev, hne]
  · have hlen : n.digits.length < 6 := by
      have hshort := n.short
      split_ifs at hshort <;> omega
    have hten : 10 ^ n.digits.length < 2 ^ 32 :=
      calc 10 ^ n.digits.length ≤ 10 ^ 5 := Nat.pow_le_pow_right (by decide) (by omega)
        _ < 2 ^ 32 := by decide
    obtain ⟨hdigits, hread⟩ := strtoul_figures (List.all_eq_true.mp n.figures) hend
      (hten.trans (by decide)) hne
    have hcut : u32 (strtoul 64 radixAny n.digits).1 % 2 ^ 8 =
        numberOf (figureBase n.digits) n.digits % 2 ^ 8 := by
      rw [u32, hread]
      exact Nat.mod_mod_of_dvd _ (by decide)
    have hfits : FitsDev n.digits ↔
        numberOf (figureBase n.digits) n.digits % 2 ^ 8 = numberOf 10 n.digits := by
      rw [figures_mod_eq_iff hdigits (by decide), FitsDev]
      exact and_iff_right hne
    rw [hcut, hfits]
    by_cases hlt : numberOf 10 n.digits < 2 ^ 8
    · rw [if_pos ⟨hne, hlt⟩, Option.some_inj, eq_comm]
    · rw [if_neg fun h => hlt h.2]
      exact iff_of_false (Option.some_ne_none _).symm fun h => hlt (h ▸ Nat.mod_lt _ (by decide))

/-! ## A whole line -/

theorem Qparm.apply_sameWhen (p : Qparm) (r : QparmRead) :
    SameWhen p.NumbersFit (p.apply cReaders r) (p.apply plainReaders r) := by
  cases p with
  | mode st | dir c2h | cdev n => exact SameWhen.rfl'
  | idx n | bufsz n | ringsz n => exact (int_sameWhen n).map _
  | desc x y | wrb x y => exact (int_sameWhen x).bind fun _ => (int_sameWhen y).map _
  | wrbsz n =>
    exact (byte_sameWhen n r.qparm.entrySize).map fun v =>
      r.mark .wrbsz { r.qparm with entrySize := v }

theorem foldlM_sameWhen (ps : List Qparm) (r : QparmRead) :
    SameWhen (∀ p ∈ ps, p.NumbersFit) (ps.foldlM (Qparm.apply cReaders) r)
      (ps.foldlM (Qparm.apply plainReaders) r) := by
  induction ps generalizing r with
  | nil => exact SameWhen.rfl'.congr (by simp)
  | cons p ps ih =>
    refine SameWhen.congr ?_ List.forall_mem_cons.symm
    exact (p.apply_sameWhen r).bind ih

theorem RegAddr.eval_sameWhen (a : RegAddr) :
    SameWhen a.NumbersFit (a.eval cReaders) (a.eval plainReaders) := by
  obtain ⟨bar, addr⟩ := a
  cases bar with
  | some b =>
    refine SameWhen.congr (P := FitsInt b ∧ FitsInt addr) ?_ (by simp [RegAddr.NumbersFit])
    exact (int_sameWhen b).bind fun _ => (int_sameWhen addr).map _
  | none =>
    refine SameWhen.congr (P := FitsInt addr) ?_ (by simp [RegAddr.NumbersFit])
    exact (int_sameWhen addr).map _

theorem Req.fill_sameWhen (r : Req) (x : XcmdInfo) :
    SameWhen r.NumbersFit (r.fill cReaders x) (r.fill plainReaders x) := by
  cases r with
  | info | regDump | qList => exact SameWhen.rfl'
  | regRead a => exact a.eval_sameWhen.map _
  | regWrite a val => exact a.eval_sameWhen.bind fun _ => (int_sameWhen val).map _
  | q op ps =>
    rw [Req.fill, Req.fill]
    split_ifs with hps
    · intro y h
      cases h
    · refine SameWhen.congr (P := ((∀ p ∈ ps, p.NumbersFit) ∧ True) ∧ True) ?_
        (by simp [Req.NumbersFit])
      exact ((foldlM_sameWhen ps qparmStart).bind fun _ => SameWhen.rfl').bind
        fun _ => SameWhen.rfl'

theorem dumpKind_ifIdx {x x' : XcmdInfo} (h : dumpKind x = .ok x') : x'.ifIdx = x.ifIdx := by
  rw [dumpKind] at h
  dsimp only at h
  split_ifs at h <;> cases h <;> rfl

theorem defaultEntrySize_ifIdx (x : XcmdInfo) : (defaultEntrySize x).ifIdx = x.ifIdx := by
  rw [defaultEntrySize]
  split_ifs <;> rfl

/-- What is asked of a device leaves its number as it is. -/
theorem Req.fill_ifIdx {rd : Readers} {r : Req} {x x' : XcmdInfo} (h : r.fill rd x = some x') :
    x'.ifIdx = x.ifIdx := by
  cases r with
  | info | regDump | qList => cases h; rfl
  | regRead a =>
    obtain ⟨reg, -, rfl⟩ := Option.map_eq_some_iff.mp h
    rfl
  | regWrite a val =>
    obtain ⟨reg, -, h1⟩ := Option.bind_eq_some_iff.mp h
    obtain ⟨v, -, rfl⟩ := Option.map_eq_some_iff.mp h1
    rfl
  | q op ps =>
    rw [Req.fill] at h
    split_ifs at h
    obtain ⟨q, -, hfin⟩ := Option.bind_eq_some_iff.mp h
    rw [dumpKind_ifIdx (Parsed.toOption_eq_some.mp hfin)]
    split_ifs
    · exact defaultEntrySize_ifIdx _
    · rfl

theorem CmdLine.eval_plain_iff {c : CmdLine} {x : XcmdInfo} (h : c.eval cReaders = some x) :
    c.eval plainReaders = some x ↔ c.NumbersFit := by
  cases c with
  | devList => exact iff_of_true h trivial
  | dev n r =>
    obtain ⟨d, hd, hfill⟩ := Option.bind_eq_some_iff.mp h
    have hdev := dev_eq_some_iff hd
    have hreq := (r.fill_sameWhen _).eq_some_iff hfill
    rw [CmdLine.eval, CmdLine.NumbersFit, ← hdev, ← hreq]
    constructor
    · intro hplain
      obtain ⟨d', hd', hfill'⟩ := Option.bind_eq_some_iff.mp hplain
      -- another number of the device would be seen in the outcome
      have hsame : d' = d := (Req.fill_ifIdx hfill').symm.trans (Req.fill_ifIdx hfill)
      rw [hsame] at hd' hfill'
      exact ⟨hd', hfill'⟩
    · rintro ⟨hd', hfill'⟩
      rw [hd', Option.bind_some, hfill']

theorem numbers_mean_iff {argv : List Word} {x : XcmdInfo} (h : parseCmd argv = .ok x) :
    (∃ c : CmdLine, argv.tail = c.words) ∧
      ∀ c : CmdLine, argv.tail = c.words → (c.eval plainReaders = some x ↔ c.NumbersFit) :=
  ⟨exists_words_of_ok h, fun _ hc => CmdLine.eval_plain_iff (eval_of_parseCmd h hc)⟩

/-- `dmactl qdma<ds> reg read <t>`. -/
def readLine (ds t : Word) : List Word := [['d'], kwQdma ++ ds, kwReg, kwRead, t]

def readLineInfo (dev reg : ℕ) : XcmdInfo :=
  { XcmdInfo.zero with
    op := .regRd
    ifIdx := dev
    reg := { XcmdReg.zero with sflags := 0x2, reg := reg } }

/-- `dmactl qdma12 reg read 0x1c`. -/
theorem numbers_mean_read :
    (∃ c : CmdLine, (readLine ['1', '2'] ['0', 'x', '1', 'c']).tail = c.words) ∧
      ∀ c : CmdLine, (readLine ['1', '2'] ['0', 'x', '1', 'c']).tail = c.words →
        (c.eval plainReaders = some (readLineInfo 12 28) ↔ c.NumbersFit) :=
  numbers_mean_iff (by decide +kernel)

/-- `dmactl qdma300 reg read -4` reads register 0xfffffffc of device 44, and
`dmactl qdma010 reg read ''` register 0 of device 8. -/
theorem numbers_cut : ¬ (∀ argv x, parseCmd argv = .ok x →
      ∀ c : CmdLine, argv.tail = c.words → c.eval plainReaders = some x) ∧
    parseCmd (readLine ['3', '0', '0'] ['-', '4']) = .ok (readLineInfo 44 0xfffffffc) ∧
      parseCmd (readLine ['0', '1', '0'] []) = .ok (readLineInfo 8 0) := by
  have hparse : parseCmd (readLine ['3', '0', '0'] ['-', '4']) =
    .ok (readLineInfo 44 0xfffffffc) := by decide +kernel
  refine ⟨fun h => ?_, hparse, by decide +kernel⟩
  have hmeans := h _ _ hparse (.dev
    { vf := false, digits := ['3', '0', '0'], figures := by decide, short := by decide }
    (.regRead { bar := none, addr := ['-', '4'] })) rfl
  have hdev : plainReaders.dev ['3', '0', '0'] = none := by decide +kernel
  rw [CmdLine.eval, hdev] at hmeans
  cases hmeans

end Qdma

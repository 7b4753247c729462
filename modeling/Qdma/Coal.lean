import Qdma.Intr
import Qdma.WbSpec

/-!
# The indexes of the aggregation rings

Each vector with aggregation has an entry in `intr_coal_list` with the indexes and the
expected colour of its ring.  Three functions move them: `irq_top` the producer index of the
vector that fired, and both writeback handlers, through the base pointer of the list, the
indexes of vector 0, whatever vector the queue is bound to.

Both handlers wrap an index that is *at* the size of the ring, one step after it has left
the range; and the loop of `irq_top` can end there, too.  `KeepsIndexes` is when none of
this happens, and `coal_indexes_right_iff` says that it is the only way for the indexes to
stay right.

* `coalSys` is the system of the three functions; a queue comes with each call of a handler,
  in any state.
* `IndexesRight` is what a step should be.
-/

namespace Qdma

open Lib

/-! ## The system -/

inductive CoalEv where
  | write (v qid : ℕ)
  | irqTop (irq : ℕ)
  | mmNH2cWb (x : Xfer)
  | stC2hWb (al : RxAllocs) (x : Xfer)

/-- The queue a writeback handler is called for. -/
def CoalEv.queue : CoalEv → Option Xfer
  | .mmNH2cWb x => some x
  | .stC2hWb _ x => some x
  | _ => none

/-- The queue with the rings of its device. -/
def Xfer.onDev (x : Xfer) (dev : XlnxDmaDev) : Xfer :=
  { x with
    intrCoalEn := dev.intrCoalEn
    intrCoalList := dev.intrCoalList }

def IntrState.setCoals (s : IntrState) (coals : List IntrCoalConf) : IntrState :=
  { s with
    dev := { s.dev with intrCoalList := coals } }

/-- `descq_st_c2h_wb` is called for a queue that has its rings; see `intrSys` for the
others. -/
def coalSys : System IntrState CoalEv where
  step s
    | .write v qid => hwWrite s v qid
    | .irqTop irq => (Qdma.irqTop s irq).2
    | .mmNH2cWb x => s.setCoals (descqMmNH2cWb (x.onDev s.dev)).intrCoalList
    | .stC2hWb al x => s.setCoals (descqStC2hWb al (x.onDev s.dev)).2.intrCoalList
  guard s
    | .write v _ => v < s.msix.length
    | .irqTop _ => s.locked = false
    | .mmNH2cWb _ => True
    | .stC2hWb _ x => x.descq.isStC2h = true ∧ x.descq.RingsUp

/-! ## What the indexes are for -/

/-- The indexes of every vector are in its ring. -/
def InRange (s : IntrState) : Prop :=
  ∀ coal ∈ s.dev.intrCoalList, coal.cidx < coal.intrRingSize ∧ coal.pidx < coal.intrRingSize

/-- A step that leaves the indexes in range, flips a colour exactly when it takes `cidx` from
the last entry to the first, and for a queue touches only the entry of its vector. -/
structure IndexesRight (s : IntrState) (e : CoalEv) (s' : IntrState) : Prop where
  inRange : InRange s'
  flips : ∀ (v : ℕ) (coal coal' : IntrCoalConf), s.dev.intrCoalList[v]? = some coal →
    s'.dev.intrCoalList[v]? = some coal' →
      (coal'.color ≠ coal.color ↔ coal.cidx = coal.intrRingSize - 1 ∧ coal'.cidx = 0)
  own : ∀ x, e.queue = some x → ∀ v, v ≠ x.descq.intrId →
    s'.dev.intrCoalList[v]? = s.dev.intrCoalList[v]?

/-- The entries of a pass are all consumed, with `k` allocations made before. -/
def EntriesGood (al : RxAllocs) (ring : WrbRing) : ℕ → QdmaDescq → ℕ → Prop
  | 0, _, _ => True
  | n + 1, d, k =>
      entryFails al d ring k d.descWrbCur = false ∧
        EntriesGood al ring n (wrbNext d)
          (k + d.uddKmallocs + pagesOf (ring.entryLen d.descWrbCur))

/-- The handler finds completions and gets to its end. -/
def CoalEv.Completes : CoalEv → Prop
  | .mmNH2cWb x =>
      x.descq.pidx ≠ x.descq.cidx ∧ ∃ ring, x.descq.desc = some ring ∧ ring.wbCidx ≠ x.descq.cidx
  | .stC2hWb al x =>
      ∃ ring, x.descq.descWrb = some ring ∧
        stC2hBudget { x.descq with pidxWrb := ring.wbPidx } ≠ 0 ∧
          EntriesGood al ring (stC2hBudget { x.descq with pidxWrb := ring.wbPidx }) x.descq 0
  | _ => False

/-- The steps that keep the indexes right: an interrupt does not find the whole ring filled
from its first entry on, and a handler that completes is one of vector 0, whose indexes
have not reached the last entry. -/
def KeepsIndexes (s : IntrState) : CoalEv → Prop
  | .write _ _ => True
  | .irqTop irq =>
      ∀ (i : ℕ) (coal : IntrCoalConf), s.msix.findIdx? (· = irq) = some i →
        s.dev.intrCoalList[i]? = some coal → irq = coal.vecId → coal.pidx = 0 →
          ∃ j < coal.intrRingSize, (s.ring i j).coalColor ≠ coal.color ∨
            s.dev.getDescqById (s.ring i j).qid false = none
  | .mmNH2cWb x =>
      (CoalEv.mmNH2cWb x).Completes → ∀ coal, s.dev.intrCoalList[0]? = some coal →
        x.descq.intrId = 0 ∧ coal.cidx + 1 < coal.intrRingSize ∧
          coal.pidx + 1 < coal.intrRingSize
  | .stC2hWb al x =>
      (CoalEv.stC2hWb al x).Completes → ∀ coal, s.dev.intrCoalList[0]? = some coal →
        x.descq.intrId = 0 ∧ coal.cidx + 1 < coal.intrRingSize ∧
          coal.pidx + 1 < coal.intrRingSize

/-! ## What the handlers do to the rings -/

/-- A queue that stands at the same completion entry. -/
structure SameEntry (d d' : QdmaDescq) : Prop where
  cidxWrb : d'.cidxWrb = d.cidxWrb
  rngszWrb : d'.rngszWrb = d.rngszWrb
  cur : d'.descWrbCur = d.descWrbCur
  entryLen : d'.stC2hWrbEntryLen = d.stC2hWrbEntryLen
  uddEn : d'.stC2hWrbUddEn = d.stC2hWrbUddEn
  descWrb : d'.descWrb = d.descWrb

namespace SameEntry

variable {d d' d'' : QdmaDescq}

theorem refl (d : QdmaDescq) : SameEntry d d := ⟨rfl, rfl, rfl, rfl, rfl, rfl⟩

theorem trans (h : SameEntry d d') (h' : SameEntry d' d'') : SameEntry d d'' where
  cidxWrb := h'.cidxWrb.trans h.cidxWrb
  rngszWrb := h'.rngszWrb.trans h.rngszWrb
  cur := h'.cur.trans h.cur
  entryLen := h'.entryLen.trans h.entryLen
  uddEn := h'.uddEn.trans h.uddEn
  descWrb := h'.descWrb.trans h.descWrb

theorem wrbNext (h : SameEntry d d') : SameEntry (wrbNext d) (wrbNext d') := by
  unfold Qdma.wrbNext
  rw [h.cidxWrb, h.rngszWrb, h.cur, h.entryLen, h.descWrb]
  split
  · exact ⟨rfl, rfl, rfl, rfl, h.uddEn, rfl⟩
  · exact ⟨rfl, rfl, rfl, rfl, h.uddEn, rfl⟩

theorem uddKmallocs (h : SameEntry d d') : d'.uddKmallocs = d.uddKmallocs := by
  unfold QdmaDescq.uddKmallocs
  rw [h.uddEn]

theorem entriesGood {al : RxAllocs} {ring : WrbRing} :
    ∀ (n : ℕ) {d d' : QdmaDescq} (k : ℕ), SameEntry d d' →
      (EntriesGood al ring n d' k ↔ EntriesGood al ring n d k) := by
  intro n
  induction n with
  | zero => intro d d' k _; exact Iff.rfl
  | succ n ih =>
      intro d d' k h
      unfold EntriesGood entryFails
      rw [h.cur, h.uddEn, h.uddKmallocs, ih _ h.wrbNext]

end SameEntry

/-- What a part of a pass leaves alone, with the allocations it makes. -/
structure Hands (p p' : StC2hPass) (m : ℕ) : Prop where
  entry : SameEntry p.x.descq p'.x.descq
  rings : p'.x.descq.desc.isSome = true ∧ p'.x.descq.stRxFl.isSome = true
  coals : p'.x.intrCoalEn = p.x.intrCoalEn ∧ p'.x.intrCoalList = p.x.intrCoalList
  kmallocs : p'.kmallocs = p.kmallocs + m

theorem Hands.trans {p p' p'' : StC2hPass} {m m' : ℕ} (h : Hands p p' m) (h' : Hands p' p'' m') :
    Hands p p'' (m + m') where
  entry := h.entry.trans h'.entry
  rings := h'.rings
  coals := ⟨h'.coals.1.trans h.coals.1, h'.coals.2.trans h.coals.2⟩
  kmallocs := by rw [h'.kmallocs, h.kmallocs, Nat.add_assoc]

theorem hands_page (al : RxAllocs) {p : StC2hPass} (hdesc : p.x.descq.desc.isSome = true)
    (fls : ℕ → FlDesc) (len : ℕ) (udd : Bool) : Hands p (stC2hPage al fls len udd p) 1 := by
  obtain ⟨ring, hring⟩ := Option.isSome_iff_exists.mp hdesc
  rw [stC2hPage_eq al fls len udd p hring]
  generalize rxPut (al.kmalloc p.kmallocs) p.x.descq.rxQueue (rxNode (fls p.pidx) len udd) = rxq
  exact ⟨⟨rfl, rfl, rfl, rfl, rfl, rfl⟩, ⟨rfl, rfl⟩, ⟨rfl, rfl⟩, rfl⟩

theorem hands_pages (al : RxAllocs) :
    ∀ (n len : ℕ) (udd : Bool) {p : StC2hPass}, p.x.descq.desc.isSome = true →
      p.x.descq.stRxFl.isSome = true → Hands p (stC2hPages al n len udd p) n := by
  intro n
  induction n with
  | zero =>
      intro len udd p hdesc hfl
      exact ⟨SameEntry.refl _, ⟨hdesc, hfl⟩, ⟨rfl, rfl⟩, rfl⟩
  | succ n ih =>
      intro len udd p hdesc hfl
      obtain ⟨fls, hfls⟩ := Option.isSome_iff_exists.mp hfl
      have hpage := hands_page al hdesc fls len udd
      rw [stC2hPages_succ hfls, Nat.add_comm n 1]
      exact hpage.trans (ih (len - min len pageSize) false hpage.rings.1 hpage.rings.2)

theorem hands_setRxq {p : StC2hPass} (hdesc : p.x.descq.desc.isSome = true)
    (hfl : p.x.descq.stRxFl.isSome = true) (rxq : StRxQueue) (m : ℕ) :
    Hands p ({ p with kmallocs := p.kmallocs + m }.setRxq rxq) m :=
  ⟨⟨rfl, rfl, rfl, rfl, rfl, rfl⟩, ⟨hdesc, hfl⟩, ⟨rfl, rfl⟩, rfl⟩

theorem hands_withUdd (ring : WrbRing) {p : StC2hPass} (hdesc : p.x.descq.desc.isSome = true)
    (hfl : p.x.descq.stRxFl.isSome = true) : Hands p (withUdd ring p) p.x.descq.uddKmallocs := by
  unfold withUdd QdmaDescq.uddKmallocs
  cases p.x.descq.stC2hWrbUddEn with
  | true => exact hands_setRxq hdesc hfl _ 2
  | false => exact ⟨SameEntry.refl _, ⟨hdesc, hfl⟩, ⟨rfl, rfl⟩, rfl⟩

/-- An entry that is consumed. -/
theorem hands_entry (al : RxAllocs) (ring : WrbRing) {p : StC2hPass}
    (hdesc : p.x.descq.desc.isSome = true) (hfl : p.x.descq.stRxFl.isSome = true) :
    ∃ q, Hands p q (p.x.descq.uddKmallocs + pagesOf (ring.entryLen p.x.descq.descWrbCur)) ∧
      entryDone al ring p = q.next := by
  have hudd := hands_withUdd ring hdesc hfl
  exact ⟨_, hudd.trans (hands_pages al _ _ _ hudd.rings.1 hudd.rings.2), rfl⟩

/-- **A pass gets to its end** just where its entries are all consumed, and it leaves the
rings alone.  The induction is on the budget. -/
theorem stC2hEntries_good (al : RxAllocs) {ring : WrbRing} :
    ∀ (budget : ℕ) {p : StC2hPass}, p.x.descq.descWrb = some ring →
      p.x.descq.desc.isSome = true → p.x.descq.stRxFl.isSome = true →
      ((stC2hEntries al budget p).1 = none ↔
        EntriesGood al ring budget p.x.descq p.kmallocs) ∧
        (stC2hEntries al budget p).2.x.intrCoalEn = p.x.intrCoalEn ∧
          (stC2hEntries al budget p).2.x.intrCoalList = p.x.intrCoalList := by
  intro budget
  induction budget with
  | zero => intro p _ _ _; exact ⟨⟨fun _ => trivial, fun _ => rfl⟩, rfl, rfl⟩
  | succ budget ih =>
      intro p hring hdesc hfl
      obtain ⟨q, hq, hdone⟩ := hands_entry al ring hdesc hfl
      have hcoals := (hands_withUdd ring hdesc hfl).coals
      obtain ⟨hwrb, hdesc', hfl', -⟩ := wrbNext_frame q.x.descq
      have hrest := ih (p := q.next) (hwrb.trans (hq.entry.descWrb.trans hring))
        ((congrArg Option.isSome hdesc').trans hq.rings.1)
        ((congrArg Option.isSome hfl').trans hq.rings.2)
      have hsame : SameEntry (wrbNext p.x.descq) q.next.x.descq := hq.entry.wrbNext
      have hcnt : q.next.kmallocs =
          p.kmallocs + p.x.descq.uddKmallocs + pagesOf (ring.entryLen p.x.descq.descWrbCur) := by
        rw [Nat.add_assoc]
        exact hq.kmallocs
      rw [hsame.entriesGood, hcnt] at hrest
      rw [stC2hEntries_succ al hring, EntriesGood, entryFails, uddFails_eq, hdone]
      have hkept : q.next.x.intrCoalEn = p.x.intrCoalEn ∧
          q.next.x.intrCoalList = p.x.intrCoalList := hq.coals
      generalize q.next = q' at hrest hkept
      generalize withUdd ring p = w at hcoals
      cases (p.x.descq.stC2hWrbUddEn &&
          (!al.kmalloc p.kmallocs || !al.kmalloc (p.kmallocs + 1))) with
      | true =>
          rw [if_pos rfl, Bool.true_or]
          exact ⟨⟨nofun, fun h => absurd h.1 nofun⟩, rfl, rfl⟩
      | false =>
          rw [if_neg Bool.false_ne_true, Bool.false_or]
          cases ring.entryErr p.x.descq.descWrbCur with
          | true =>
              rw [if_pos rfl]
              exact ⟨⟨nofun, fun h => absurd h.1 nofun⟩, hcoals⟩
          | false =>
              rw [if_neg Bool.false_ne_true]
              exact ⟨⟨fun h => ⟨rfl, hrest.1.mp h⟩, fun h => hrest.1.mpr h.2⟩,
                hrest.2.1.trans hkept.1, hrest.2.2.trans hkept.2⟩

/-- `descq_mm_n_h2c_wb` moves the indexes of the first vector where it completes. -/
theorem coals_mmNH2cWb (x : Xfer) :
    ((CoalEv.mmNH2cWb x).Completes → (descqMmNH2cWb x).intrCoalList =
        if x.intrCoalEn then coalAdvance x.intrCoalList else x.intrCoalList) ∧
      (¬ (CoalEv.mmNH2cWb x).Completes → (descqMmNH2cWb x).intrCoalList = x.intrCoalList) := by
  unfold descqMmNH2cWb
  by_cases hempty : x.descq.pidx = x.descq.cidx
  · rw [if_pos hempty]
    exact ⟨fun h => absurd hempty h.1, fun _ => rfl⟩
  · rw [if_neg hempty]
    cases hring : x.descq.desc with
    | none => exact ⟨fun ⟨_, ring, h, _⟩ => absurd (hring.symm.trans h) nofun, fun _ => rfl⟩
    | some ring =>
        dsimp only
        by_cases hold : ring.wbCidx = x.descq.cidx
        · rw [if_pos hold]
          refine ⟨fun ⟨_, ring', h, hnew⟩ => ?_, fun _ => rfl⟩
          rw [hring] at h
          cases h
          exact absurd hold hnew
        · rw [if_neg hold, intrCoalAdvance_coals]
          have hpend : SameRing (descqWbCredit x ring.wbCidx).2 (reqUpdatePend
              (descqWbCredit x ring.wbCidx).2 (descqWbCredit x ring.wbCidx).1) :=
            sameRing_reqUpdatePend _ _
          have hcredit : (descqWbCredit x ring.wbCidx).2.intrCoalEn = x.intrCoalEn ∧
              (descqWbCredit x ring.wbCidx).2.intrCoalList = x.intrCoalList := by
            unfold descqWbCredit
            dsimp only
            rw [if_neg hold]
            exact ⟨rfl, rfl⟩
          generalize reqUpdatePend (descqWbCredit x ring.wbCidx).2
            (descqWbCredit x ring.wbCidx).1 = y at hpend
          rw [hpend]
          dsimp only
          rw [hcredit.1, hcredit.2]
          exact ⟨fun _ => rfl, fun h => absurd ⟨hempty, ring, hring, hold⟩ h⟩

/-- So does `descq_st_c2h_wb`. -/
theorem coals_stC2hWb (al : RxAllocs) {x : Xfer} (hst : x.descq.isStC2h = true)
    (hup : x.descq.RingsUp) :
    ((CoalEv.stC2hWb al x).Completes → (descqStC2hWb al x).2.intrCoalList =
        if x.intrCoalEn then coalAdvance x.intrCoalList else x.intrCoalList) ∧
      (¬ (CoalEv.stC2hWb al x).Completes →
        (descqStC2hWb al x).2.intrCoalList = x.intrCoalList) := by
  obtain ⟨ring, hring⟩ := Option.isSome_iff_exists.mp (hup.wrb hst)
  have hloop := stC2hEntries_good al (stC2hBudget { x.descq with pidxWrb := ring.wbPidx })
    (p := passStart ring x) hring hup.desc (hup.fl hst)
  have hgood : EntriesGood al ring (stC2hBudget { x.descq with pidxWrb := ring.wbPidx })
      (passStart ring x).x.descq (passStart ring x).kmallocs ↔
      EntriesGood al ring (stC2hBudget { x.descq with pidxWrb := ring.wbPidx }) x.descq 0 :=
    SameEntry.entriesGood _ 0 ⟨rfl, rfl, rfl, rfl, rfl, rfl⟩
  rw [descqStC2hWb_ring al hring]
  rw [hgood] at hloop
  obtain ⟨hnone, hcoals⟩ := hloop
  have hkept : (passStart ring x).x.intrCoalEn = x.intrCoalEn ∧
      (passStart ring x).x.intrCoalList = x.intrCoalList := ⟨rfl, rfl⟩
  rw [hkept.1, hkept.2] at hcoals
  have hcompletes : (CoalEv.stC2hWb al x).Completes ↔
      stC2hBudget { x.descq with pidxWrb := ring.wbPidx } ≠ 0 ∧
        EntriesGood al ring (stC2hBudget { x.descq with pidxWrb := ring.wbPidx }) x.descq 0 := by
    constructor
    · rintro ⟨ring', hring', hnew⟩
      rw [hring] at hring'
      cases hring'
      exact hnew
    · exact fun hnew => ⟨ring, hring, hnew⟩
  rw [hcompletes, ← hnone]
  generalize stC2hEntries al (stC2hBudget { x.descq with pidxWrb := ring.wbPidx })
    (passStart ring x) = r at hcoals
  generalize stC2hBudget { x.descq with pidxWrb := ring.wbPidx } = budget
  obtain ⟨rv, p⟩ := r
  cases rv with
  | some rv => exact ⟨fun h => absurd h.2 nofun, fun _ => hcoals.2⟩
  | none =>
      dsimp only
      by_cases hzero : budget = 0
      · rw [if_pos hzero]
        exact ⟨fun h => absurd hzero h.1, fun _ => hcoals.2⟩
      · rw [if_neg hzero]
        refine ⟨fun _ => ?_, fun h => absurd ⟨hzero, rfl⟩ h⟩
        generalize (if p.pidx = 0 then p.x.descq.conf.rngsz - 1 else p.pidx - 1) = last
        generalize hy : ({ p.x with
          descq := { p.x.descq with pidx := p.pidx }
          mmio := p.x.mmio ++ [descqPidxUpdate { p.x.descq with pidx := p.pidx } last,
            descqWrbCidxUpdate { p.x.descq with pidx := p.pidx } p.x.descq.cidxWrb] } : Xfer) = y
        have hcoal : y.intrCoalEn = p.x.intrCoalEn ∧ y.intrCoalList = p.x.intrCoalList := by
          rw [← hy]
          exact ⟨rfl, rfl⟩
        have hchk := sameRing_checkRxLoop (intrCoalAdvance y).descq.pendList
          (intrCoalAdvance y).descq.rxQueue.dlen (intrCoalAdvance y)
        unfold checkRxRequestCompleted
        rw [hchk]
        dsimp only
        rw [intrCoalAdvance_coals, hcoal.1, hcoal.2, hcoals.1, hcoals.2]

/-- Where the loop of `irq_top` ends: it has gone all `n` turns just where every entry has
the colour and a queue. -/
theorem irqLoop_counter (ring : ℕ → QdmaIntrRing) (color : Bool) (lookup : ℕ → Option ℕ) :
    ∀ n c : ℕ, (irqLoop ring color lookup n c).counter ≤ c + n ∧
      ((irqLoop ring color lookup n c).found = true ∧
          (irqLoop ring color lookup n c).counter = c + n ↔
        ∀ j < n, (ring (c + j)).coalColor = color ∧ lookup (ring (c + j)).qid ≠ none) := by
  intro n
  induction n with
  | zero =>
      intro c
      exact ⟨le_rfl, fun _ j hj => absurd hj (Nat.not_lt_zero j), fun _ => ⟨rfl, rfl⟩⟩
  | succ n ih =>
      intro c
      obtain ⟨hle, hiff⟩ := ih (c + 1)
      have hshift : ∀ j, c + 1 + j = c + (j + 1) := fun j => by omega
      unfold irqLoop
      by_cases hcolor : (ring c).coalColor = color
      · rw [if_neg (not_not.mpr hcolor)]
        cases hqid : lookup (ring c).qid with
        | none =>
            refine ⟨Nat.le_add_right c _, fun h => absurd h.1 Bool.false_ne_true, fun h => ?_⟩
            exact absurd hqid (h 0 (Nat.succ_pos n)).2
        | some q =>
            dsimp only
            rw [← hshift n, hiff]
            refine ⟨hle, fun h j hj => ?_, fun h j hj => ?_⟩
            · cases j with
              | zero =>
                  rw [Nat.add_zero, hqid]
                  exact ⟨hcolor, Option.some_ne_none q⟩
              | succ j =>
                  rw [← hshift j]
                  exact h j (Nat.lt_of_succ_lt_succ hj)
            · rw [hshift j]
              exact h (j + 1) (Nat.succ_lt_succ hj)
      · rw [if_pos hcolor]
        refine ⟨Nat.le_add_right c _, fun h => ?_, fun h => ?_⟩
        · exact absurd h.2 (by dsimp only; omega)
        · exact absurd (h 0 (Nat.succ_pos n)).1 hcolor

/-! ## One step -/

/-- The rings in a run: aggregation is on, and there is room for more than one entry. -/
structure CoalInv (s : IntrState) : Prop where
  coalEn : s.dev.intrCoalEn = true
  inRange : InRange s
  size : ∀ coal ∈ s.dev.intrCoalList, 1 < coal.intrRingSize ∧ coal.intrRingSize < 2 ^ 32

section Steps

variable {s : IntrState}

/-- A step that keeps each `cidx` and each colour. -/
theorem CoalInv.flips (h : CoalInv s) {s' : IntrState}
    (hkept : ∀ (v : ℕ) (coal coal' : IntrCoalConf), s.dev.intrCoalList[v]? = some coal →
      s'.dev.intrCoalList[v]? = some coal' → coal'.color = coal.color ∧ coal'.cidx = coal.cidx) :
    ∀ (v : ℕ) (coal coal' : IntrCoalConf), s.dev.intrCoalList[v]? = some coal →
      s'.dev.intrCoalList[v]? = some coal' →
        (coal'.color ≠ coal.color ↔ coal.cidx = coal.intrRingSize - 1 ∧ coal'.cidx = 0) := by
  intro v coal coal' hv hv'
  obtain ⟨hcolor, hcidx⟩ := hkept v coal coal' hv hv'
  have hsize := (h.size coal (List.mem_of_getElem? hv)).1
  constructor
  · intro hne
    exact absurd hcolor hne
  · rintro ⟨hlast, hzero⟩
    omega

/-- A step that leaves the rings alone is right. -/
theorem CoalInv.same (h : CoalInv s) {e : CoalEv} {s' : IntrState}
    (hsame : s'.dev.intrCoalList = s.dev.intrCoalList) : IndexesRight s e s' where
  inRange := by
    unfold InRange
    rw [hsame]
    exact h.inRange
  flips := by
    refine h.flips fun v coal coal' hv hv' => ?_
    rw [hsame, hv] at hv'
    cases hv'
    exact ⟨rfl, rfl⟩
  own _ _ v _ := by rw [hsame]

/-- An interrupt moves the producer index of the vector it belongs to. -/
theorem irqTop_moves (hcoalEn : s.dev.intrCoalEn = true) {irq i : ℕ} {coal : IntrCoalConf}
    (hvec : s.msix.findIdx? (· = irq) = some i) (hcoal : s.dev.intrCoalList[i]? = some coal)
    (hid : irq = coal.vecId) {r : IrqLoop}
    (hr : r = irqLoop (s.ring i) coal.color (s.dev.getDescqById · false)
      (u32Sub coal.intrRingSize coal.pidx - coal.pidx) coal.pidx) :
    (irqTop s irq).2.dev.intrCoalList =
      if r.found then s.dev.intrCoalList.set i { coal with pidx := r.counter }
      else s.dev.intrCoalList := by
  unfold irqTop
  rw [hvec]
  dsimp only
  rw [if_pos hcoalEn, hcoal]
  dsimp only
  rw [if_pos hid, ← hr]
  cases r.found with
  | true => rfl
  | false => rfl

/-- An interrupt that belongs to no vector moves nothing. -/
theorem irqTop_keeps {irq : ℕ}
    (hno : ¬ ∃ (i : ℕ) (coal : IntrCoalConf), s.msix.findIdx? (· = irq) = some i ∧
      s.dev.intrCoalList[i]? = some coal ∧ irq = coal.vecId) :
    (irqTop s irq).2.dev.intrCoalList = s.dev.intrCoalList := by
  unfold irqTop
  cases hvec : s.msix.findIdx? (· = irq) with
  | none => rfl
  | some i =>
      dsimp only
      split
      · cases hcoal : s.dev.intrCoalList[i]? with
        | none => rfl
        | some coal =>
            dsimp only
            rw [if_neg fun hid => hno ⟨i, coal, hvec, hcoal, hid⟩]
      · rfl

/-- One vector's producer index is moved: right just where it stays in the ring. -/
theorem CoalInv.setPidx (h : CoalInv s) (irq : ℕ) {s' : IntrState} {i n : ℕ}
    {coal : IntrCoalConf} (hcoal : s.dev.intrCoalList[i]? = some coal)
    (hset : s'.dev.intrCoalList = s.dev.intrCoalList.set i { coal with pidx := n }) :
    IndexesRight s (.irqTop irq) s' ↔ n < coal.intrRingSize := by
  have hlt : i < s.dev.intrCoalList.length := (List.getElem?_eq_some_iff.mp hcoal).1
  constructor
  · intro hright
    have hmem : { coal with pidx := n } ∈ s'.dev.intrCoalList := by
      rw [hset]
      exact List.mem_set hlt _
    exact (hright.inRange _ hmem).2
  · intro hn
    refine ⟨fun c hc => ?_, ?_, fun x hx => absurd hx nofun⟩
    · rw [hset] at hc
      obtain hold | hnew := List.mem_or_eq_of_mem_set hc
      · exact h.inRange c hold
      · rw [hnew]
        exact ⟨(h.inRange coal (List.mem_of_getElem? hcoal)).1, hn⟩
    · refine h.flips fun v c c' hv hv' => ?_
      rw [hset] at hv'
      by_cases hi : i = v
      · subst hi
        rw [hcoal] at hv
        rw [List.getElem?_set_self hlt] at hv'
        cases hv
        cases hv'
        exact ⟨rfl, rfl⟩
      · rw [List.getElem?_set_ne hi, hv] at hv'
        cases hv'
        exact ⟨rfl, rfl⟩

/-- An interrupt leaves the index out of range just where the loop gets to the end of the
ring, which it can only from the first entry on. -/
theorem CoalInv.irqTop (h : CoalInv s) (irq : ℕ) :
    IndexesRight s (.irqTop irq) (irqTop s irq).2 ↔ KeepsIndexes s (.irqTop irq) := by
  by_cases hvec : ∃ (i : ℕ) (coal : IntrCoalConf), s.msix.findIdx? (· = irq) = some i ∧
      s.dev.intrCoalList[i]? = some coal ∧ irq = coal.vecId
  · obtain ⟨i, coal, hvec, hcoal, hid⟩ := hvec
    have hmem := List.mem_of_getElem? hcoal
    have hpidx := (h.inRange coal hmem).2
    have hturns : u32Sub coal.intrRingSize coal.pidx - coal.pidx =
        coal.intrRingSize - coal.pidx - coal.pidx := by
      rw [u32Sub_of_le (h.size coal hmem).2 hpidx.le]
    have hkeeps : KeepsIndexes s (.irqTop irq) ↔ (coal.pidx = 0 →
        ¬ ∀ j < coal.intrRingSize, (s.ring i j).coalColor = coal.color ∧
          s.dev.getDescqById (s.ring i j).qid false ≠ none) := by
      constructor
      · intro hk hzero hall
        obtain ⟨j, hj, hbad⟩ := hk i coal hvec hcoal hid hzero
        exact hbad.elim (fun hne => hne (hall j hj).1) (hall j hj).2
      · intro hk i' coal' hvec' hcoal' _ hzero
        rw [hvec] at hvec'
        cases hvec'
        rw [hcoal] at hcoal'
        cases hcoal'
        by_contra hgood
        refine hk hzero fun j hj => ⟨?_, ?_⟩
        · by_contra hcolor
          exact hgood ⟨j, hj, Or.inl hcolor⟩
        · intro hqid
          exact hgood ⟨j, hj, Or.inr hqid⟩
    obtain ⟨hle, hend⟩ := irqLoop_counter (s.ring i) coal.color (s.dev.getDescqById · false)
      (u32Sub coal.intrRingSize coal.pidx - coal.pidx) coal.pidx
    have hmoves := irqTop_moves h.coalEn hvec hcoal hid rfl
    generalize irqLoop (s.ring i) coal.color (s.dev.getDescqById · false)
      (u32Sub coal.intrRingSize coal.pidx - coal.pidx) coal.pidx = r at hle hend hmoves
    rw [hturns] at hle hend
    rw [hkeeps]
    -- from the first entry on the turns are those of the whole ring
    have hfull : coal.pidx = 0 → (r.found = true ∧ r.counter = coal.intrRingSize ↔
        ∀ j < coal.intrRingSize, (s.ring i j).coalColor = coal.color ∧
          s.dev.getDescqById (s.ring i j).qid false ≠ none) := by
      intro hzero
      rw [hzero] at hend
      simpa only [Nat.sub_zero, Nat.zero_add] using hend
    cases hfound : r.found with
    | false =>
        rw [hfound] at hmoves hfull
        refine ⟨fun _ hzero hall => ?_, fun _ => h.same hmoves⟩
        exact absurd ((hfull hzero).mpr hall).1 Bool.false_ne_true
    | true =>
        rw [hfound] at hmoves hfull
        rw [h.setPidx irq hcoal hmoves]
        constructor
        · intro hlt hzero hall
          exact absurd ((hfull hzero).mpr hall).2 hlt.ne
        · intro hk
          by_cases hzero : coal.pidx = 0
          · refine lt_of_le_of_ne (by omega) fun heq => ?_
            exact hk hzero ((hfull hzero).mp ⟨rfl, heq⟩)
          · omega
  · refine ⟨fun _ i coal hi hcoal hid => ?_, fun _ => h.same (irqTop_keeps hvec)⟩
    exact absurd ⟨i, coal, hi, hcoal, hid⟩ hvec

/-- A handler that completes is right just where it is for vector 0 and the indexes of
that vector have not reached the last entry. -/
theorem CoalInv.advance (h : CoalInv s) {e : CoalEv} {x : Xfer} (hqueue : e.queue = some x)
    {s' : IntrState} (hadvance : s'.dev.intrCoalList = coalAdvance s.dev.intrCoalList) :
    IndexesRight s e s' ↔ ∀ coal, s.dev.intrCoalList[0]? = some coal →
      x.descq.intrId = 0 ∧ coal.cidx + 1 < coal.intrRingSize ∧
        coal.pidx + 1 < coal.intrRingSize := by
  cases hcoals : s.dev.intrCoalList with
  | nil =>
      rw [hcoals] at hadvance
      exact ⟨fun _ coal hcoal => absurd hcoal nofun, fun _ => h.same (hadvance.trans hcoals.symm)⟩
  | cons coal rest =>
      have hmem : coal ∈ s.dev.intrCoalList := by
        rw [hcoals]
        exact List.mem_cons_self
      obtain ⟨hcidx, hpidx⟩ := h.inRange coal hmem
      obtain ⟨hone, hsize⟩ := h.size coal hmem
      -- an index in range is counted up, even to the size of the ring
      have hcounted : coalAdvance s.dev.intrCoalList =
          { coal with cidx := coal.cidx + 1, pidx := coal.pidx + 1 } :: rest := by
        have hu32 : ∀ n, n < coal.intrRingSize → u32 (n + 1) = n + 1 :=
          fun n hn => u32_of_lt (by omega)
        rw [hcoals, coalAdvance, if_neg (Nat.not_le_of_lt hcidx), hu32 _ hcidx, hu32 _ hpidx]
      rw [hcounted] at hadvance
      constructor
      · intro hright coal' hcoal'
        cases hcoal'
        refine ⟨?_, hright.inRange { coal with cidx := coal.cidx + 1, pidx := coal.pidx + 1 } ?_⟩
        · by_contra hvec
          have hfirst := hright.own x hqueue 0 (Ne.symm hvec)
          rw [hadvance, hcoals] at hfirst
          have hcidx' : coal.cidx + 1 = coal.cidx :=
            congrArg IntrCoalConf.cidx (Option.some.inj hfirst)
          omega
        · rw [hadvance]
          exact List.mem_cons_self
      · intro hroom
        obtain ⟨hvec, hcidx', hpidx'⟩ := hroom coal rfl
        refine ⟨fun c hc => ?_, fun v c c' hv hv' => ?_, fun y hy v hv => ?_⟩
        · rw [hadvance, List.mem_cons] at hc
          obtain hnew | hold := hc
          · rw [hnew]
            exact ⟨hcidx', hpidx'⟩
          · refine h.inRange c ?_
            rw [hcoals]
            exact List.mem_cons_of_mem _ hold
        · rw [hcoals] at hv
          rw [hadvance] at hv'
          cases v with
          | zero =>
              cases hv
              cases hv'
              refine ⟨fun hne => absurd rfl hne, fun hwrap => ?_⟩
              exact absurd hwrap.2 (Nat.succ_ne_zero _)
          | succ v =>
              rw [List.getElem?_cons_succ] at hv hv'
              rw [hv] at hv'
              cases hv'
              refine ⟨fun hne => absurd rfl hne, fun hwrap => ?_⟩
              have hsize' := (h.size c (by
                rw [hcoals]
                exact List.mem_cons_of_mem _ (List.mem_of_getElem? hv))).1
              omega
        · rw [hqueue] at hy
          cases hy
          rw [hvec] at hv
          obtain ⟨k, rfl⟩ := Nat.exists_eq_succ_of_ne_zero hv
          rw [hadvance, hcoals]
          rfl

/-- **One step** is right just where it meets the condition. -/
theorem CoalInv.step (h : CoalInv s) (e : CoalEv) (hg : coalSys.guard s e) :
    IndexesRight s e (coalSys.step s e) ↔ KeepsIndexes s e := by
  cases e with
  | write v qid => exact ⟨fun _ => trivial, fun _ => h.same rfl⟩
  | irqTop irq => exact h.irqTop irq
  | mmNH2cWb x =>
      obtain ⟨hmoves, hkeeps⟩ := coals_mmNH2cWb (x.onDev s.dev)
      by_cases hdone : (CoalEv.mmNH2cWb x).Completes
      · have hcoals := (hmoves hdone).trans (if_pos h.coalEn)
        refine (h.advance rfl hcoals).trans ?_
        exact ⟨fun hroom _ => hroom, fun hroom => hroom hdone⟩
      · exact ⟨fun _ hdone' => absurd hdone' hdone, fun _ => h.same (hkeeps hdone)⟩
  | stC2hWb al x =>
      obtain ⟨hst, hup⟩ := hg
      obtain ⟨hmoves, hkeeps⟩ := coals_stC2hWb al (x := x.onDev s.dev) hst hup
      by_cases hdone : (CoalEv.stC2hWb al x).Completes
      · have hcoals := (hmoves hdone).trans (if_pos h.coalEn)
        refine (h.advance rfl hcoals).trans ?_
        exact ⟨fun hroom _ => hroom, fun hroom => hroom hdone⟩
      · exact ⟨fun _ hdone' => absurd hdone' hdone, fun _ => h.same (hkeeps hdone)⟩

theorem irqTop_coalEn (s : IntrState) (irq : ℕ) :
    (irqTop s irq).2.dev.intrCoalEn = s.dev.intrCoalEn := by
  unfold irqTop
  cases s.msix.findIdx? (· = irq) with
  | none => rfl
  | some i =>
      dsimp only
      split
      · cases s.dev.intrCoalList[i]? with
        | none => rfl
        | some coal =>
            dsimp only
            generalize irqLoop (s.ring i) coal.color (s.dev.getDescqById · false)
              (u32Sub coal.intrRingSize coal.pidx - coal.pidx) coal.pidx = r
            split
            · cases r.found with
              | true => rfl
              | false => rfl
            · rfl
      · rfl

/-- No step makes a ring of another size. -/
theorem sizes_step (hcoalEn : s.dev.intrCoalEn = true) (e : CoalEv) (hg : coalSys.guard s e) :
    ∀ c ∈ (coalSys.step s e).dev.intrCoalList,
      ∃ c₀ ∈ s.dev.intrCoalList, c.intrRingSize = c₀.intrRingSize := by
  have hsame : ∀ l, l = s.dev.intrCoalList → ∀ c ∈ l,
      ∃ c₀ ∈ s.dev.intrCoalList, c.intrRingSize = c₀.intrRingSize := by
    rintro l rfl c hc
    exact ⟨c, hc, rfl⟩
  have hadvance : ∀ l, l = coalAdvance s.dev.intrCoalList → ∀ c ∈ l,
      ∃ c₀ ∈ s.dev.intrCoalList, c.intrRingSize = c₀.intrRingSize := by
    rintro l rfl c hc
    cases hcoals : s.dev.intrCoalList with
    | nil =>
        rw [hcoals] at hc
        cases hc
    | cons coal rest =>
        rw [hcoals, coalAdvance, List.mem_cons] at hc
        obtain hhead | hrest := hc
        · refine ⟨coal, List.mem_cons_self, ?_⟩
          rw [hhead]
          split
          · rfl
          · rfl
        · exact ⟨c, List.mem_cons_of_mem _ hrest, rfl⟩
  cases e with
  | write v qid => exact hsame _ rfl
  | irqTop irq =>
      by_cases hvec : ∃ (i : ℕ) (coal : IntrCoalConf), s.msix.findIdx? (· = irq) = some i ∧
          s.dev.intrCoalList[i]? = some coal ∧ irq = coal.vecId
      · obtain ⟨i, coal, hvec, hcoal, hid⟩ := hvec
        have hmoves := irqTop_moves hcoalEn hvec hcoal hid rfl
        intro c hc
        change c ∈ (irqTop s irq).2.dev.intrCoalList at hc
        rw [hmoves] at hc
        split at hc
        · obtain hold | hnew := List.mem_or_eq_of_mem_set hc
          · exact ⟨c, hold, rfl⟩
          · exact ⟨coal, List.mem_of_getElem? hcoal, by rw [hnew]⟩
        · exact ⟨c, hc, rfl⟩
      · exact hsame _ (irqTop_keeps hvec)
  | mmNH2cWb x =>
      obtain ⟨hmoves, hkeeps⟩ := coals_mmNH2cWb (x.onDev s.dev)
      by_cases hdone : (CoalEv.mmNH2cWb x).Completes
      · exact hadvance _ ((hmoves hdone).trans (if_pos hcoalEn))
      · exact hsame _ (hkeeps hdone)
  | stC2hWb al x =>
      obtain ⟨hst, hup⟩ := hg
      obtain ⟨hmoves, hkeeps⟩ := coals_stC2hWb al (x := x.onDev s.dev) hst hup
      by_cases hdone : (CoalEv.stC2hWb al x).Completes
      · exact hadvance _ ((hmoves hdone).trans (if_pos hcoalEn))
      · exact hsame _ (hkeeps hdone)

theorem coalEn_step (s : IntrState) (e : CoalEv) :
    (coalSys.step s e).dev.intrCoalEn = s.dev.intrCoalEn := by
  cases e with
  | irqTop irq => exact irqTop_coalEn s irq
  | write v qid => rfl
  | mmNH2cWb x => rfl
  | stC2hWb al x => rfl

/-- A right step keeps the invariant. -/
theorem CoalInv.kept (h : CoalInv s) (e : CoalEv) (hg : coalSys.guard s e)
    (hright : IndexesRight s e (coalSys.step s e)) : CoalInv (coalSys.step s e) where
  coalEn := (coalEn_step s e).trans h.coalEn
  inRange := hright.inRange
  size c hc := by
    obtain ⟨c₀, hc₀, hsize⟩ := sizes_step h.coalEn e hg c hc
    rw [hsize]
    exact h.size c₀ hc₀

end Steps

/-! ## Runs -/

/-- The rings as they are set up. -/
theorem coalInv_setup (dev : XlnxDmaDev) (msix : List ℕ) (ringSize : ℕ)
    (behind : ℕ → ℕ → QdmaIntrRing) : CoalInv (intrRingSetup dev msix ringSize behind) := by
  have hentries : 512 ≤ intrRingEntries ringSize ∧ intrRingEntries ringSize < 2 ^ 32 := by
    unfold intrRingEntries
    split
    · omega
    · omega
  refine ⟨rfl, fun coal hcoal => ?_, fun coal hcoal => ?_⟩
  · obtain ⟨vector, -, rfl⟩ := List.mem_map.mp hcoal
    exact ⟨by dsimp only; omega, by dsimp only; omega⟩
  · obtain ⟨vector, -, rfl⟩ := List.mem_map.mp hcoal
    exact ⟨by dsimp only; omega, hentries.2⟩

/-- **The indexes of the aggregation rings** are right in a run just where each of its steps
meets the condition. -/
theorem coal_indexes_right_iff (dev : XlnxDmaDev) (msix : List ℕ) (ringSize : ℕ)
    (behind : ℕ → ℕ → QdmaIntrRing) (es : List CoalEv)
    (hrun : coalSys.Admits (intrRingSetup dev msix ringSize behind) es) :
    (InRange (intrRingSetup dev msix ringSize behind) ∧
        coalSys.EachStep IndexesRight (intrRingSetup dev msix ringSize behind) es) ↔
      (coalSys.restrict KeepsIndexes).Admits (intrRingSetup dev msix ringSize behind) es := by
  have hsetup := coalInv_setup dev msix ringSize behind
  rw [← coalSys.eachStep_iff_admits (fun s e h hg => CoalInv.step h e hg)
    (fun s e h hg hright => CoalInv.kept h e hg hright) es hsetup hrun]
  exact ⟨fun h => h.2, fun h => ⟨hsetup.inRange, h⟩⟩

/-- A memory-mapped queue of vector `vec` with one descriptor completed. -/
def completedOn (vec : ℕ) : Xfer :=
  Xfer.init
    { h2cQueue false with
      intrId := vec
      pidx := 1
      desc := some
        { bus := 0x1000, len := 0, slots := fun _ => QdmaDesc.zero, wbPidx := 1, wbCidx := 1 } }
    (fun _ => onePlaceReq) true []

/-- Two vectors whose rings were just set up. -/
def twoVectors : IntrState :=
  intrRingSetup coalDev [33, 34] 0 fun _ _ => { qid := 7, coalColor := true }

theorem coal_indexes_right_first :
    InRange twoVectors ∧
      coalSys.EachStep IndexesRight twoVectors
        [.write 0 1, .irqTop 33, .mmNH2cWb (completedOn 0)] := by
  refine (coal_indexes_right_iff coalDev [33, 34] 0 (fun _ _ => { qid := 7, coalColor := true })
    [.write 0 1, .irqTop 33, .mmNH2cWb (completedOn 0)]
    ⟨Nat.zero_lt_two, rfl, trivial, trivial⟩).mpr ?_
  refine ⟨⟨Nat.zero_lt_two, trivial⟩, ⟨rfl, ?_⟩, ⟨trivial, ?_⟩, trivial⟩
  · intro i coal hi hcoal _ _
    have hfirst : i = 0 := (Option.some.inj hi).symm
    subst hfirst
    exact ⟨1, by cases hcoal; decide, Or.inl (by cases hcoal; decide)⟩
  · intro _ coal hcoal
    cases hcoal
    exact ⟨rfl, by decide, by decide⟩

/-- A queue of the second vector is serviced, and the indexes of the first move. -/
theorem coal_index_of_first_vector :
    ¬ ∀ (dev : XlnxDmaDev) (msix : List ℕ) (ringSize : ℕ) (behind : ℕ → ℕ → QdmaIntrRing)
      (es : List CoalEv), coalSys.Admits (intrRingSetup dev msix ringSize behind) es →
        InRange (intrRingSetup dev msix ringSize behind) ∧
          coalSys.EachStep IndexesRight (intrRingSetup dev msix ringSize behind) es := by
  intro hall
  obtain ⟨-, hright, -⟩ := hall coalDev [33, 34] 0 (fun _ _ => { qid := 7, coalColor := true })
    [.mmNH2cWb (completedOn 1)] ⟨trivial, trivial⟩
  have hinv : CoalInv twoVectors := coalInv_setup _ _ _ _
  obtain ⟨hvec, -⟩ := (hinv.step (.mmNH2cWb (completedOn 1)) trivial).mp hright
    ⟨by decide, _, rfl, by decide⟩ _ rfl
  cases hvec

end Qdma

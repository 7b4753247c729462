import Qdma.RxSpec
import Qdma.Serve

/-!
# A whole pass over the completion entries

`descq_st_c2h_wb` from its call to its return.  The loop consumes some entries and stops
at the budget or at an entry that fails; only when it is through does the local producer
index become the queue's, are the doorbells rung and the waiting readers looked at.

`RxReady` is a queue such a pass can work on, and `WbRun` everything a pass does to it.
-/

namespace Qdma

open Lib

/-! ## What the end of a pass leaves alone -/

theorem sameRing_checkRxLoop :
    ∀ (ids : List ReqId) (dlen : ℕ) (x : Xfer), SameRing x (checkRxLoop ids dlen x) := by
  intro ids
  induction ids with
  | nil => intro dlen x; exact SameRing.refl x
  | cons id rest ih =>
      intro dlen x
      unfold checkRxLoop
      dsimp only
      split
      · exact SameRing.refl x
      · exact (sameRing_reqDone x id 0).trans (ih _ _)

/-! ## A queue with its rings -/

/-- A streaming C2H queue between two passes. -/
structure RxReady (ring : WrbRing) (d : QdmaDescq) : Prop where
  aligned : Aligned ring d
  desc : d.desc.isSome = true
  fl : d.stRxFl.isSome = true
  slot : d.pidx < d.conf.rngsz
  rngsz : d.conf.rngsz < 2 ^ 32
  fits : d.EntryFits
  sizes : d.rngszWrb = d.conf.rngsz
  wbPidx : ring.wbPidx < d.rngszWrb

/-- The number of entries the hardware has written and the queue has not consumed. -/
def QdmaDescq.unread (d : QdmaDescq) (ring : WrbRing) : ℕ :=
  Cyclic.gap d.rngszWrb ring.wbPidx d.cidxWrb

/-- The budget of a pass is what is unread where the two ring sizes are the same. -/
theorem stC2hBudget_eq {ring : WrbRing} {d : QdmaDescq} (hc : d.cidxWrb < d.rngszWrb)
    (hp : ring.wbPidx < d.rngszWrb) (heq : d.rngszWrb = d.conf.rngsz)
    (hsz : d.conf.rngsz < 2 ^ 32) :
    stC2hBudget { d with pidxWrb := ring.wbPidx } = d.unread ring := by
  unfold stC2hBudget QdmaDescq.unread
  dsimp only
  rw [Cyclic.gap_eq_ite hp hc]
  by_cases hlt : d.cidxWrb < ring.wbPidx
  · rw [if_pos hlt, if_neg (by omega)]
  · rw [if_neg hlt]
    by_cases hgt : ring.wbPidx < d.cidxWrb
    · have hsub : u32Sub d.conf.rngsz d.cidxWrb = d.rngszWrb - d.cidxWrb := by
        rw [← heq]
        exact u32Sub_of_le (by omega) hc.le
      rw [if_pos hgt, if_pos hgt, hsub, Nat.add_comm]
      exact u32_of_lt (by omega)
    · rw [if_neg hgt, if_neg hgt]
      omega

theorem RxReady.budget {ring : WrbRing} {d : QdmaDescq} (h : RxReady ring d) :
    stC2hBudget { d with pidxWrb := ring.wbPidx } = d.unread ring :=
  stC2hBudget_eq h.aligned.cidx h.wbPidx h.sizes h.rngsz

theorem RxReady.unread_lt {ring : WrbRing} {d : QdmaDescq} (h : RxReady ring d) :
    d.unread ring < d.rngszWrb :=
  Cyclic.gap_lt ((Nat.zero_le _).trans_lt h.aligned.cidx)

/-- A streaming C2H queue that was configured and whose rings were just allocated. -/
def RxStarted (d : QdmaDescq) : Prop :=
  ∃ (numVecs pftchEn : ℕ) (d₀ : QdmaDescq) (qconf : QdmaQueueConf) (reconfig : Bool)
    (al : RingAllocs), d.isStC2h = true ∧
      descqAllocRings al (qdmaDescqConfig numVecs pftchEn d₀ qconf reconfig) = (0, d)

/-- An allocation that went through starts a queue. -/
theorem RxStarted.of_alloc {numVecs pftchEn : ℕ} {d₀ : QdmaDescq} {qconf : QdmaQueueConf}
    {reconfig : Bool} {al : RingAllocs} {r : ℤ × QdmaDescq}
    (hr : descqAllocRings al (qdmaDescqConfig numVecs pftchEn d₀ qconf reconfig) = r)
    (hrv : r.1 = 0) (hst : r.2.isStC2h = true) : RxStarted r.2 :=
  ⟨numVecs, pftchEn, d₀, qconf, reconfig, al, hst, hr.trans (Prod.ext hrv rfl)⟩

/-- The entry sizes of `qdma_descq_config`. -/
theorem entryFits_config (size : ℕ) :
    3 ≤ stC2hWrbEntryLenOf size ∧ stC2hWrbEntryLenOf size ≤ 256 := by
  unfold stC2hWrbEntryLenOf
  split
  · decide
  · split
    · decide
    · decide

theorem RxStarted.rxReady {d : QdmaDescq} (h : RxStarted d) :
    (∃ ring, RxReady ring d) ∧ d.pidx = 0 := by
  obtain ⟨numVecs, pftchEn, d₀, qconf, reconfig, al, hst, halloc⟩ := h
  have hcases := descqAllocRings_cases al (qdmaDescqConfig numVecs pftchEn d₀ qconf reconfig)
  rw [halloc] at hcases
  obtain ⟨hneg, -⟩ | ⟨-, hd⟩ := hcases
  · exact absurd hneg (lt_irrefl _)
  · change Allocated _ d at hd
    cases hd with
    | plain ring hno _ =>
        change (qdmaDescqConfig numVecs pftchEn d₀ qconf reconfig).isStC2h = true at hst
        rw [hno] at hst
        cases hst
    | stC2h ring fls wrb _ hzero =>
        refine ⟨⟨wrb, ⟨⟨rfl, ?_, ?_, ?_⟩, rfl, rfl, ?_, ?_, ?_, rfl, ?_⟩⟩, rfl⟩
        · change 0 < wrbRngSzDflt
          decide
        · change wrbRngSzDflt < 2 ^ 32
          decide
        · change wrb.va = wrb.va + 0 * _
          rw [Nat.zero_mul, Nat.add_zero]
        · change 0 < rngSzDflt
          decide
        · change rngSzDflt < 2 ^ 32
          decide
        · exact entryFits_config _
        · rw [hzero]
          change 0 < wrbRngSzDflt
          decide

/-- Nothing of a queue's setup, nor what a pass does not touch, is different. -/
structure SameRx (d d' : QdmaDescq) : Prop where
  conf : d'.conf = d.conf
  rngszWrb : d'.rngszWrb = d.rngszWrb
  entryLen : d'.stC2hWrbEntryLen = d.stC2hWrbEntryLen
  uddEn : d'.stC2hWrbUddEn = d.stC2hWrbUddEn
  descWrb : d'.descWrb = d.descWrb

/-- A pass: `n` entries are consumed, `rxs` and the user-defined data of the entries are
queued, `extra` is the user-defined data of an entry that failed. -/
structure WbRun (al : RxAllocs) (ring : WrbRing) (x : Xfer) (r : ℤ × Xfer) (n : ℕ)
    (rxs : List StRxData) (extra : List StC2hWrbUdd) : Prop where
  ready : RxReady ring r.2.descq
  same : SameRx x.descq r.2.descq
  cidxWrb : r.2.descq.cidxWrb = (x.descq.cidxWrb + n) % x.descq.rngszWrb
  rxq : Grows x.descq.rxQueue r.2.descq.rxQueue rxs
    ((x.descq.entries ring n).flatMap (uddsAt x.descq ring) ++ extra)
  fine : ∀ i < n, entryFails al x.descq ring
    (kmallocsIn x.descq ring (x.descq.entries ring i))
    (x.descq.entryAt ring (x.descq.cidxWrb + i)) = false
  ends : ∃ rv, LoopEnd al x.descq ring (x.descq.unread ring)
    (kmallocsIn x.descq ring (x.descq.entries ring n)) n rv extra ∧ r.1 = rv.getD 0
  shapes : (rxs.map StRxData.shape).Sublist
    ((x.descq.entries ring n).flatMap (shapesAt x.descq ring))
  pidx : r.2.descq.pidx =
    if r.1 = 0 then (x.descq.pidx + pagesIn ring (x.descq.entries ring n)) % x.descq.conf.rngsz
    else x.descq.pidx
  after : ∃ z, SameBooks x z ∧ z.descq.rxQueue = r.2.descq.rxQueue ∧
    r.2 = if r.1 = 0 ∧ x.descq.unread ring ≠ 0 then checkRxRequestCompleted z else z

/-- The pass as the loop finds it. -/
def passStart (ring : WrbRing) (x : Xfer) : StC2hPass where
  x := { x with descq := { x.descq with pidxWrb := ring.wbPidx } }
  pidx := x.descq.pidx
  kmallocs := 0
  pages := 0

/-- The hardware's index is read before the loop and not in it. -/
theorem LoopEnd.ofStart {al : RxAllocs} {ring : WrbRing} {x : Xfer} {budget k n : ℕ}
    {rv : Option ℤ} {extra : List StC2hWrbUdd}
    (h : LoopEnd al (passStart ring x).x.descq ring budget k n rv extra) :
    LoopEnd al x.descq ring budget k n rv extra := by
  cases h with
  | through hn => exact .through hn
  | oom hn h => exact .oom hn h
  | err hn hal h => exact .err hn hal h

theorem LoopEnd.rv_ne_zero {al : RxAllocs} {d : QdmaDescq} {ring : WrbRing} {budget k n : ℕ}
    {rv : ℤ} {extra : List StC2hWrbUdd} (h : LoopEnd al d ring budget k n (some rv) extra) :
    rv ≠ 0 := by
  have hmem : -enomem ≠ 0 := by decide
  have hio : -eio ≠ 0 := by decide
  cases h with
  | oom hn h => exact hmem
  | err hn hal h => exact hio

/-- What of the loop's result the end of the pass keeps. -/
structure KeepsRx (d d' : QdmaDescq) : Prop where
  same : SameRx d d'
  cidxWrb : d'.cidxWrb = d.cidxWrb
  cur : d'.descWrbCur = d.descWrbCur
  rxQueue : d'.rxQueue = d.rxQueue
  desc : d'.desc = d.desc
  fl : d'.stRxFl = d.stRxFl

theorem keepsRx_checkRx (x : Xfer) : KeepsRx x.descq (checkRxRequestCompleted x).descq := by
  have h := sameRing_checkRxLoop x.descq.pendList x.descq.rxQueue.dlen x
  unfold checkRxRequestCompleted
  rw [h]
  exact ⟨⟨rfl, rfl, rfl, rfl, rfl⟩, rfl, rfl, rfl, rfl, rfl⟩

theorem pidx_checkRx (x : Xfer) : (checkRxRequestCompleted x).descq.pidx = x.descq.pidx := by
  have h := sameRing_checkRxLoop x.descq.pendList x.descq.rxQueue.dlen x
  unfold checkRxRequestCompleted
  rw [h]

theorem KeepsRx.aligned {ring : WrbRing} {d d' : QdmaDescq} (h : KeepsRx d d')
    (ha : Aligned ring d) : Aligned ring d' where
  wrb := h.same.descWrb.trans ha.wrb
  cidx := by rw [h.cidxWrb, h.same.rngszWrb]; exact ha.cidx
  rngsz := by rw [h.same.rngszWrb]; exact ha.rngsz
  cur := by rw [h.cur, h.cidxWrb, h.same.entryLen]; exact ha.cur

/-- A pass, once the loop is known: the rest of it is the same for every way it ends. -/
theorem LoopRun.wbRun {al : RxAllocs} {ring : WrbRing} {x : Xfer} {p' : StC2hPass}
    {rv : Option ℤ} {n : ℕ} {rxs : List StRxData} {extra : List StC2hWrbUdd}
    (hx : RxReady ring x.descq)
    (h : LoopRun al ring (x.descq.unread ring) (passStart ring x) p' rv n rxs extra)
    {y : Xfer} (hkeep : KeepsRx p'.x.descq y.descq)
    (hpidx : y.descq.pidx = if rv.getD 0 = 0 then p'.pidx else x.descq.pidx)
    (hafter : ∃ z, SameBooks x z ∧ z.descq.rxQueue = y.descq.rxQueue ∧
      y = if rv.getD 0 = 0 ∧ x.descq.unread ring ≠ 0 then checkRxRequestCompleted z else z) :
    WbRun al ring x (rv.getD 0, y) n rxs extra := by
  obtain ⟨m, hpassed⟩ := h.passed
  have htakes : SameRx x.descq p'.x.descq := by
    rw [hpassed.takes]
    exact ⟨rfl, rfl, rfl, rfl, rfl⟩
  have hsame : SameRx x.descq y.descq :=
    ⟨hkeep.same.conf.trans htakes.conf, hkeep.same.rngszWrb.trans htakes.rngszWrb,
      hkeep.same.entryLen.trans htakes.entryLen, hkeep.same.uddEn.trans htakes.uddEn,
      hkeep.same.descWrb.trans htakes.descWrb⟩
  have hslot : p'.pidx < x.descq.conf.rngsz := by
    rw [← htakes.conf]
    exact hpassed.ready.slot
  refine ⟨⟨?_, ?_, ?_, ?_, ?_, ?_, ?_, ?_⟩, hsame, ?_, ?_, ?_, ?_, h.shapes, ?_, hafter⟩
  · exact hkeep.aligned hpassed.aligned
  · rw [hkeep.desc]
    exact hpassed.ready.desc
  · rw [hkeep.fl]
    exact hpassed.ready.fl
  · change y.descq.pidx < y.descq.conf.rngsz
    rw [hsame.conf, hpidx]
    split
    · exact hslot
    · exact hx.slot
  · rw [hsame.conf]
    exact hx.rngsz
  · unfold QdmaDescq.EntryFits
    rw [hsame.entryLen]
    exact hx.fits
  · rw [hsame.rngszWrb, hsame.conf]
    exact hx.sizes
  · rw [hsame.rngszWrb]
    exact hx.wbPidx
  · change y.descq.cidxWrb = _
    rw [hkeep.cidxWrb]
    exact hpassed.cidxWrb
  · change Grows x.descq.rxQueue y.descq.rxQueue _ _
    rw [hkeep.rxQueue]
    exact hpassed.rxq
  · intro i hi
    have hfine := h.fine i hi
    have hzero : (passStart ring x).kmallocs = 0 := rfl
    rw [hzero, Nat.zero_add] at hfine
    exact hfine
  · have hends := h.ends
    have hzero : (passStart ring x).kmallocs = 0 := rfl
    rw [hzero, Nat.zero_add] at hends
    exact ⟨rv, hends.ofStart, rfl⟩
  · change y.descq.pidx = _
    rw [hpidx, hpassed.pidx]
    rfl

/-- The call, with the ring and the start named. -/
theorem descqStC2hWb_ring (al : RxAllocs) {ring : WrbRing} {x : Xfer}
    (hring : x.descq.descWrb = some ring) :
    descqStC2hWb al x =
      match stC2hEntries al (stC2hBudget { x.descq with pidxWrb := ring.wbPidx })
          (passStart ring x) with
      | (some rv, p) => (rv, p.x)
      | (none, p) =>
          if stC2hBudget { x.descq with pidxWrb := ring.wbPidx } = 0 then (0, p.x)
          else
            let d := { p.x.descq with pidx := p.pidx }
            let last := if d.pidx = 0 then d.conf.rngsz - 1 else d.pidx - 1
            (0, checkRxRequestCompleted (intrCoalAdvance
              { p.x with
                descq := d
                mmio := p.x.mmio ++
                  [descqPidxUpdate d last, descqWrbCidxUpdate d d.cidxWrb] })) := by
  unfold descqStC2hWb
  rw [hring]
  rfl

/-- The call, with the budget named, too. -/
theorem descqStC2hWb_eq (al : RxAllocs) {ring : WrbRing} {x : Xfer} (hx : RxReady ring x.descq) :
    descqStC2hWb al x =
      match stC2hEntries al (x.descq.unread ring) (passStart ring x) with
      | (some rv, p) => (rv, p.x)
      | (none, p) =>
          if x.descq.unread ring = 0 then (0, p.x)
          else
            let d := { p.x.descq with pidx := p.pidx }
            let last := if d.pidx = 0 then d.conf.rngsz - 1 else d.pidx - 1
            (0, checkRxRequestCompleted (intrCoalAdvance
              { p.x with
                descq := d
                mmio := p.x.mmio ++
                  [descqPidxUpdate d last, descqWrbCidxUpdate d d.cidxWrb] })) := by
  rw [← hx.budget]
  exact descqStC2hWb_ring al hx.aligned.wrb

/-- **One call of `descq_st_c2h_wb`.** -/
theorem stC2hWb_run (al : RxAllocs) {ring : WrbRing} {x : Xfer} (hx : RxReady ring x.descq) :
    ∃ n rxs extra, WbRun al ring x (descqStC2hWb al x) n rxs extra := by
  have hstart : Aligned ring (passStart ring x).x.descq :=
    ⟨hx.aligned.wrb, hx.aligned.cidx, hx.aligned.rngsz, hx.aligned.cur⟩
  obtain ⟨n, rxs, extra, hrun⟩ := loop_run al (x.descq.unread ring) hstart
    ⟨hx.desc, hx.fl, hx.slot, hx.rngsz⟩ hx.fits
  have hbooks := sameBooks_stC2hEntries al (x.descq.unread ring) (passStart ring x)
  rw [descqStC2hWb_eq al hx]
  generalize stC2hEntries al (x.descq.unread ring) (passStart ring x) = r at hrun hbooks ⊢
  obtain ⟨rv, p⟩ := r
  have hsame : SameBooks x p.x := hbooks
  have hkeep : KeepsRx p.x.descq p.x.descq := ⟨⟨rfl, rfl, rfl, rfl, rfl⟩, rfl, rfl, rfl, rfl, rfl⟩
  obtain ⟨m, hpassed⟩ := hrun.passed
  have hpidx : p.x.descq.pidx = x.descq.pidx := by
    have htakes : Takes (passStart ring x).x p.x := hpassed.takes
    rw [htakes]
    rfl
  refine ⟨n, rxs, extra, ?_⟩
  cases rv with
  | some rv =>
      have hne := hrun.ends.rv_ne_zero
      refine hrun.wbRun hx hkeep ?_ ⟨p.x, hsame, rfl, ?_⟩
      · rw [Option.getD_some, if_neg hne]
        exact hpidx
      · rw [Option.getD_some, if_neg fun h => hne h.1]
  | none =>
      dsimp only
      by_cases hzero : x.descq.unread ring = 0
      · rw [if_pos hzero]
        refine hrun.wbRun hx hkeep ?_ ⟨p.x, hsame, rfl, ?_⟩
        · -- nothing was consumed, so the local index has not moved
          have hn : n = 0 := by
            cases hrun.ends with
            | through hn => omega
          subst hn
          rw [hpidx, Option.getD_none, if_pos rfl]
          have hlocal : p.pidx = (x.descq.pidx + 0) % x.descq.conf.rngsz := hpassed.pidx
          rw [hlocal, Nat.add_zero, Nat.mod_eq_of_lt hx.slot]
        · rw [if_neg fun h => h.2 hzero]
      · rw [if_neg hzero]
        generalize (if p.pidx = 0 then p.x.descq.conf.rngsz - 1 else p.pidx - 1) = last
        obtain ⟨coal, mmio, hcoal⟩ := intrCoalAdvance_eq
          { p.x with
            descq := { p.x.descq with pidx := p.pidx }
            mmio := p.x.mmio ++ [descqPidxUpdate { p.x.descq with pidx := p.pidx } last,
              descqWrbCidxUpdate { p.x.descq with pidx := p.pidx } p.x.descq.cidxWrb] }
        rw [hcoal]
        generalize hz : ({ p.x with
          descq := { p.x.descq with pidx := p.pidx }
          intrCoalList := coal
          mmio := mmio } : Xfer) = z
        have hzd : z.descq = { p.x.descq with pidx := p.pidx } := by rw [← hz]
        have hzb : SameBooks x z := by
          rw [← hz]
          exact hsame
        have hchk := keepsRx_checkRx z
        have hkz : KeepsRx p.x.descq z.descq := by
          rw [hzd]
          exact ⟨⟨rfl, rfl, rfl, rfl, rfl⟩, rfl, rfl, rfl, rfl, rfl⟩
        refine hrun.wbRun hx ?_ ?_ ⟨z, hzb, ?_, ?_⟩
        · exact ⟨⟨hchk.same.conf.trans hkz.same.conf, hchk.same.rngszWrb.trans hkz.same.rngszWrb,
            hchk.same.entryLen.trans hkz.same.entryLen, hchk.same.uddEn.trans hkz.same.uddEn,
            hchk.same.descWrb.trans hkz.same.descWrb⟩, hchk.cidxWrb.trans hkz.cidxWrb,
            hchk.cur.trans hkz.cur, hchk.rxQueue.trans hkz.rxQueue, hchk.desc.trans hkz.desc,
            hchk.fl.trans hkz.fl⟩
        · rw [pidx_checkRx, hzd, Option.getD_none, if_pos rfl]
        · rw [hchk.rxQueue]
        · rw [Option.getD_none, if_pos ⟨rfl, hzero⟩]

end Qdma

import Qdma.Lib.Trace
import Qdma.WbSpec

/-!
# The free list and the completions

Every completion entry takes as many buffers from the free list as its packet has pages.
The queue's producer index should therefore be, at any time, the number of pages of the
entries consumed so far.

`wrb_next` moves the consumer index of the completions with every entry; the producer
index is a local variable of `descq_st_c2h_wb` until the loop is through.  Three returns
in the loop lose it.  A further one of the queue's entries is then looked at again: its
user-defined data may be queued already.

An `FlRun` is the queue with three records that nothing reads: the entries consumed, and
everything that was queued.  `FlFollows` holds as long as a pass that stops early has
consumed whole rings of pages, and has not queued anything for the entry it stopped at.
-/

namespace Qdma

open Lib

/-! ## Runs -/

/-- What a completion entry says: the length of the packet, its user-defined data and
its pages. -/
structure EntrySeen where
  len : ℕ
  udds : List StC2hWrbUdd
  shapes : List (ℕ × Bool)

def seenAt (d : QdmaDescq) (ring : WrbRing) (cur : ℕ) : EntrySeen where
  len := ring.entryLen cur
  udds := uddsAt d ring cur
  shapes := shapesAt d ring cur

/-- The first `n` entries the queue has not consumed. -/
def QdmaDescq.seen (d : QdmaDescq) (n : ℕ) : List EntrySeen :=
  (d.descWrb.map fun ring => (d.entries ring n).map (seenAt d ring)).getD []

structure FlRun where
  x : Xfer
  consumed : List EntrySeen
  rxs : List StRxData
  udds : List StC2hWrbUdd

def FlRun.init (x : Xfer) : FlRun where
  x := x
  consumed := []
  rxs := []
  udds := []

inductive FlEv where
  | serviceWb (al : RxAllocs)
  | hwWrb (pidx : ℕ) (mem : ℕ → BitVec 8)
  /-- A reader copies data out and leaves `rxq`. -/
  | rxRead (rxq : StRxQueue)

/-- A pass, with the records: the consumer index says how many entries it has passed,
the ends of the two lists what it has queued. -/
def flService (s : FlRun) (al : RxAllocs) : FlRun :=
  let d := s.x.descq
  let y := (descqStC2hWb al s.x).2
  { x := y
    consumed := s.consumed ++ d.seen (Cyclic.gap d.rngszWrb y.descq.cidxWrb d.cidxWrb)
    rxs := s.rxs ++ y.descq.rxQueue.rx.drop d.rxQueue.rx.length
    udds := s.udds ++ y.descq.rxQueue.udd.drop d.rxQueue.udd.length }

def flStep (s : FlRun) : FlEv → FlRun
  | .serviceWb al => flService s al
  | .hwWrb pidx mem => { s with x := hwCompletion s.x pidx mem }
  | .rxRead rxq => { s with x := { s.x with descq := { s.x.descq with rxQueue := rxq } } }

/-- The hardware's index is one of the ring. -/
def flGuard (s : FlRun) : FlEv → Prop
  | .hwWrb pidx _ => pidx < s.x.descq.rngszWrb
  | _ => True

def flSys : System FlRun FlEv where
  step := flStep
  guard := flGuard

instance decidableFlGuard (s : FlRun) : ∀ e, Decidable (flSys.guard s e) := by
  rintro ⟨⟩ <;> dsimp only [flSys, flGuard] <;> infer_instance

/-! ## The property -/

/-- The producer index counts the pages of the entries consumed, and no entry was handed
over twice: what was queued is, in order, from different entries, the one the queue
stands at included. -/
structure FlFollows (s : FlRun) : Prop where
  pidx : s.x.descq.pidx =
    (s.consumed.map fun e => pagesOf e.len).sum % s.x.descq.conf.rngsz
  data : (s.rxs.map StRxData.shape).Sublist (s.consumed.flatMap (·.shapes))
  udd : s.udds.Sublist ((s.consumed ++ s.x.descq.seen 1).flatMap (·.udds))

/-- The first entry that fails in a pass comes after whole rings of pages, and none of
its user-defined data is queued: it is off, or there was no memory for it. -/
def FailsClean (s : FlRun) : FlEv → Prop
  | .serviceWb al =>
      let d := s.x.descq
      ∀ ring, d.descWrb = some ring → ∀ n < d.unread ring,
        (∀ i < n, entryFails al d ring (kmallocsIn d ring (d.entries ring i))
          (d.entryAt ring (d.cidxWrb + i)) = false) →
        entryFails al d ring (kmallocsIn d ring (d.entries ring n))
          (d.entryAt ring (d.cidxWrb + n)) = true →
        pagesIn ring (d.entries ring n) % d.conf.rngsz = 0 ∧
          (d.stC2hWrbUddEn = true →
            (al.kmalloc (kmallocsIn d ring (d.entries ring n)) &&
              al.kmalloc (kmallocsIn d ring (d.entries ring n) + 1)) = false)
  | _ => True

/-! ## The invariant -/

structure FlInv (s : FlRun) : Prop where
  ready : ∃ ring, RxReady ring s.x.descq
  pidx : s.x.descq.pidx =
    (s.consumed.map fun e => pagesOf e.len).sum % s.x.descq.conf.rngsz
  data : (s.rxs.map StRxData.shape).Sublist (s.consumed.flatMap (·.shapes))
  udd : s.udds = s.consumed.flatMap (·.udds)

theorem FlInv.follows {s : FlRun} (h : FlInv s) : FlFollows s where
  pidx := h.pidx
  data := h.data
  udd := by
    rw [h.udd, List.flatMap_append]
    exact List.sublist_append_left _ _

/-- The entries of a pass, as the records have them. -/
theorem RxReady.seen_eq {ring : WrbRing} {d : QdmaDescq} (h : RxReady ring d) (n : ℕ) :
    d.seen n = (d.entries ring n).map (seenAt d ring) := by
  unfold QdmaDescq.seen
  rw [h.aligned.wrb]
  rfl

theorem sum_pages_seen (d : QdmaDescq) (ring : WrbRing) (es : List ℕ) :
    (((es.map (seenAt d ring)).map fun e => pagesOf e.len)).sum = pagesIn ring es := by
  rw [List.map_map]
  rfl

theorem flatMap_udds_seen (d : QdmaDescq) (ring : WrbRing) (es : List ℕ) :
    (es.map (seenAt d ring)).flatMap (·.udds) = es.flatMap (uddsAt d ring) := by
  rw [List.flatMap_map]
  rfl

theorem flatMap_shapes_seen (d : QdmaDescq) (ring : WrbRing) (es : List ℕ) :
    (es.map (seenAt d ring)).flatMap (·.shapes) = es.flatMap (shapesAt d ring) := by
  rw [List.flatMap_map]
  rfl

/-- How many entries a pass has consumed can be read off the consumer index. -/
theorem WbRun.gap_eq {al : RxAllocs} {ring : WrbRing} {x : Xfer} {r : ℤ × Xfer} {n : ℕ}
    {rxs : List StRxData} {extra : List StC2hWrbUdd} (h : WbRun al ring x r n rxs extra)
    (hx : RxReady ring x.descq) :
    Cyclic.gap x.descq.rngszWrb r.2.descq.cidxWrb x.descq.cidxWrb = n := by
  have hle : n ≤ x.descq.unread ring := by
    obtain ⟨rv, hends, -⟩ := h.ends
    cases hends with
    | through hn => exact hn.le
    | oom hn _ => exact hn.le
    | err hn _ _ => exact hn.le
  have hlt := hx.unread_lt
  rw [h.cidxWrb, Cyclic.gap_add hx.aligned.cidx hx.aligned.cidx]
  · rw [Cyclic.gap_self, Nat.zero_add]
  · rw [Cyclic.gap_self]
    omega

/-- A clean pass moves the producer index by the pages of its entries and queues nothing
beyond them. -/
theorem WbRun.clean {al : RxAllocs} {ring : WrbRing} {s : FlRun} {n : ℕ} {rxs : List StRxData}
    {extra : List StC2hWrbUdd} (h : WbRun al ring s.x (descqStC2hWb al s.x) n rxs extra)
    (hx : RxReady ring s.x.descq) (hok : FailsClean s (.serviceWb al)) :
    (descqStC2hWb al s.x).2.descq.pidx =
        (s.x.descq.pidx + pagesIn ring (s.x.descq.entries ring n)) % s.x.descq.conf.rngsz ∧
      extra = [] := by
  obtain ⟨rv, hends, hrv⟩ := h.ends
  have hpidx := h.pidx
  have hnomem : -enomem ≠ 0 := by decide
  have hio : -eio ≠ 0 := by decide
  have hstuck : ∀ k, k ≠ 0 → pagesIn ring (s.x.descq.entries ring n) % s.x.descq.conf.rngsz = 0 →
      (if k = (0 : ℤ) then
        (s.x.descq.pidx + pagesIn ring (s.x.descq.entries ring n)) % s.x.descq.conf.rngsz
      else s.x.descq.pidx) =
        (s.x.descq.pidx + pagesIn ring (s.x.descq.entries ring n)) % s.x.descq.conf.rngsz := by
    intro k hk hzero
    rw [if_neg hk, Nat.add_mod, hzero, Nat.add_zero, Nat.mod_mod, Nat.mod_eq_of_lt hx.slot]
  have hok' := hok ring hx.aligned.wrb n
  cases hends with
  | through hn =>
      rw [hrv, Option.getD_none, if_pos rfl] at hpidx
      exact ⟨hpidx, rfl⟩
  | oom hn hal =>
      have hfails : entryFails al s.x.descq ring
          (kmallocsIn s.x.descq ring (s.x.descq.entries ring n))
          (s.x.descq.entryAt ring (s.x.descq.cidxWrb + n)) = true := by
        unfold entryFails
        rw [hal, Bool.true_or]
      obtain ⟨hzero, -⟩ := hok' hn h.fine hfails
      refine ⟨?_, rfl⟩
      rw [hpidx]
      exact hstuck _ (by rw [hrv]; exact hnomem) hzero
  | err hn hal herr =>
      have hfails : entryFails al s.x.descq ring
          (kmallocsIn s.x.descq ring (s.x.descq.entries ring n))
          (s.x.descq.entryAt ring (s.x.descq.cidxWrb + n)) = true := by
        unfold entryFails
        rw [herr, Bool.or_true]
      obtain ⟨hzero, hudd⟩ := hok' hn h.fine hfails
      refine ⟨?_, ?_⟩
      · rw [hpidx]
        exact hstuck _ (by rw [hrv]; exact hio) hzero
      · -- with user-defined data on the allocations would have failed first
        unfold uddsAt
        cases hen : s.x.descq.stC2hWrbUddEn with
        | false => rfl
        | true =>
            have hno := hudd hen
            rw [hen, Bool.true_and] at hal
            rw [← Bool.not_and, hno] at hal
            cases hal

theorem FlInv.serviceWb {s : FlRun} (h : FlInv s) {al : RxAllocs}
    (hok : FailsClean s (.serviceWb al)) : FlInv (flService s al) := by
  obtain ⟨ring, hx⟩ := h.ready
  obtain ⟨n, rxs, extra, hrun⟩ := stC2hWb_run al hx
  obtain ⟨hpidx, hextra⟩ := hrun.clean hx hok
  have hseen : s.x.descq.seen (Cyclic.gap s.x.descq.rngszWrb
      (descqStC2hWb al s.x).2.descq.cidxWrb s.x.descq.cidxWrb) =
      (s.x.descq.entries ring n).map (seenAt s.x.descq ring) := by
    rw [hrun.gap_eq hx, hx.seen_eq]
  have hrx : (descqStC2hWb al s.x).2.descq.rxQueue.rx.drop s.x.descq.rxQueue.rx.length = rxs := by
    rw [hrun.rxq.rx, List.drop_left]
  have hudd : (descqStC2hWb al s.x).2.descq.rxQueue.udd.drop s.x.descq.rxQueue.udd.length =
      (s.x.descq.entries ring n).flatMap (uddsAt s.x.descq ring) := by
    rw [hrun.rxq.udd, List.drop_left, hextra, List.append_nil]
  unfold flService
  refine ⟨⟨ring, hrun.ready⟩, ?_, ?_, ?_⟩
  · dsimp only
    rw [hseen, List.map_append, List.sum_append, sum_pages_seen, hpidx, hrun.same.conf, h.pidx,
      Nat.mod_add_mod]
  · dsimp only
    rw [hseen, hrx, List.map_append, List.flatMap_append, flatMap_shapes_seen]
    exact h.data.append hrun.shapes
  · dsimp only
    rw [hseen, hudd, List.flatMap_append, flatMap_udds_seen, h.udd]

theorem RxReady.hwCompletion {ring : WrbRing} {x : Xfer} (h : RxReady ring x.descq) {pidx : ℕ}
    (hpidx : pidx < x.descq.rngszWrb) (mem : ℕ → BitVec 8) :
    RxReady { ring with wbPidx := pidx, mem := mem } (hwCompletion x pidx mem).descq where
  aligned :=
    { wrb := by
        change x.descq.descWrb.map _ = _
        rw [h.aligned.wrb]
        rfl
      cidx := h.aligned.cidx
      rngsz := h.aligned.rngsz
      cur := h.aligned.cur }
  desc := h.desc
  fl := h.fl
  slot := h.slot
  rngsz := h.rngsz
  fits := h.fits
  sizes := h.sizes
  wbPidx := hpidx

theorem RxReady.rxRead {ring : WrbRing} {d : QdmaDescq} (h : RxReady ring d) (rxq : StRxQueue) :
    RxReady ring { d with rxQueue := rxq } where
  aligned := ⟨h.aligned.wrb, h.aligned.cidx, h.aligned.rngsz, h.aligned.cur⟩
  desc := h.desc
  fl := h.fl
  slot := h.slot
  rngsz := h.rngsz
  fits := h.fits
  sizes := h.sizes
  wbPidx := h.wbPidx

theorem FlInv.step {s : FlRun} {e : FlEv} (h : FlInv s) (hg : flGuard s e) (hok : FailsClean s e) :
    FlInv (flStep s e) := by
  cases e with
  | serviceWb al => exact h.serviceWb hok
  | hwWrb pidx mem =>
      obtain ⟨ring, hx⟩ := h.ready
      exact ⟨⟨_, hx.hwCompletion hg mem⟩, h.pidx, h.data, h.udd⟩
  | rxRead rxq =>
      obtain ⟨ring, hx⟩ := h.ready
      exact ⟨⟨ring, hx.rxRead rxq⟩, h.pidx, h.data, h.udd⟩

/-- **The free-list index follows the completions** in every run whose passes are clean,
with any completion entries, any allocations that fail and any reads in between. -/
theorem free_list_follows (x : Xfer) (hx : RxStarted x.descq) (es : List FlEv)
    (hrun : (flSys.restrict FailsClean).Admits (FlRun.init x) es) :
    FlFollows (flSys.exec (FlRun.init x) es) := by
  obtain ⟨hready, hpidx⟩ := hx.rxReady
  have hinit : FlInv (FlRun.init x) := by
    refine ⟨hready, ?_, List.Sublist.refl _, rfl⟩
    change x.descq.pidx = 0 % x.descq.conf.rngsz
    rw [hpidx, Nat.zero_mod]
  exact ((flSys.restrict FailsClean).invariant (fun _ _ h hg => FlInv.step h hg.1 hg.2) es hinit
    hrun).follows

/-! ### Two runs -/

/-- The allocations of a start that finds memory for everything. -/
def plentiful : RingAllocs where
  desc := some 0x1000
  fl := true
  page i := some (i, some (BitVec.ofNat 64 (0x100000 + pageSize * i)))
  wrb := some (0x2000, 0x2000)

/-- The start of a streaming C2H queue without user-defined data. -/
def c2hAlloc : ℤ × QdmaDescq :=
  descqAllocRings plentiful (qdmaDescqConfig 0 0 ringedQueue ⟨0, true, true, descSzRsv, 0⟩ false)

def c2hStart : Xfer := Xfer.init c2hAlloc.2 (fun _ => onePlaceReq) false []

theorem Xfer.init_descq (d : QdmaDescq) (reqs : ReqId → QdmaSgReq) (intrCoalEn : Bool)
    (intrCoalList : List IntrCoalConf) :
    (Xfer.init d reqs intrCoalEn intrCoalList).descq = d := rfl

theorem rxStarted_c2hStart : RxStarted c2hStart.descq := by
  have hd : c2hStart.descq = c2hAlloc.2 := Xfer.init_descq _ _ _ _
  rw [hd]
  exact RxStarted.of_alloc (r := c2hAlloc) rfl (by decide +kernel) (by decide +kernel)

/-- A pass in which every allocation succeeds. -/
def rxPlenty : RxAllocs where
  kmalloc _ := true
  page i := some (1000 + i, some (BitVec.ofNat 64 (0x10000000 + pageSize * i)))

/-- Two completion entries: 5000 bytes, and one byte; the second one with the error bit
if `err`. -/
def twoEntries (err : Bool) (i : ℕ) : BitVec 8 :=
  if i = 0 then 0x80 else if i = 1 then 0x38 else if i = 2 then 0x01
  else if i = 8 then (if err then 0x14 else 0x10) else 0

instance decidableFailsClean (s : FlRun) : ∀ e, Decidable (FailsClean s e)
  | .serviceWb al =>
      match h : s.x.descq.descWrb with
      | none => .isTrue fun ring hring => by rw [h] at hring; cases hring
      | some r =>
          decidable_of_iff
            (∀ n < s.x.descq.unread r,
              (∀ i < n, entryFails al s.x.descq r
                (kmallocsIn s.x.descq r (s.x.descq.entries r i))
                (s.x.descq.entryAt r (s.x.descq.cidxWrb + i)) = false) →
              entryFails al s.x.descq r (kmallocsIn s.x.descq r (s.x.descq.entries r n))
                (s.x.descq.entryAt r (s.x.descq.cidxWrb + n)) = true →
              pagesIn r (s.x.descq.entries r n) % s.x.descq.conf.rngsz = 0 ∧
                (s.x.descq.stC2hWrbUddEn = true →
                  (al.kmalloc (kmallocsIn s.x.descq r (s.x.descq.entries r n)) &&
                    al.kmalloc (kmallocsIn s.x.descq r (s.x.descq.entries r n) + 1)) = false))
            ⟨fun hr ring hring => by
              rw [h] at hring
              cases hring
              exact hr, fun hall => hall r h⟩
  | .hwWrb _ _ => inferInstanceAs (Decidable True)
  | .rxRead _ => inferInstanceAs (Decidable True)

instance decidableFlClean (s : FlRun) : ∀ e, Decidable ((flSys.restrict FailsClean).guard s e) :=
  fun e => inferInstanceAs (Decidable (flSys.guard s e ∧ FailsClean s e))

/-- The first entry is consumed before the second one arrives, which fails. -/
def entriesApart : List FlEv :=
  [.hwWrb 1 (twoEntries true), .serviceWb rxPlenty, .hwWrb 2 (twoEntries true),
    .serviceWb rxPlenty]

theorem free_list_follows_entries_apart :
    FlFollows (flSys.exec (FlRun.init c2hStart) entriesApart) :=
  free_list_follows c2hStart rxStarted_c2hStart entriesApart (by decide +kernel)

/-- Both entries in one pass: the first is consumed and its two pages are handed over,
but the producer index stays where it was. -/
theorem free_list_left_behind :
    ¬ ∀ x : Xfer, RxStarted x.descq → ∀ es : List FlEv, flSys.Admits (FlRun.init x) es →
      FlFollows (flSys.exec (FlRun.init x) es) := by
  intro hall
  have h := hall c2hStart rxStarted_c2hStart [.hwWrb 2 (twoEntries true), .serviceWb rxPlenty]
    (by decide +kernel)
  have hpidx : ¬ (flSys.exec (FlRun.init c2hStart)
      [.hwWrb 2 (twoEntries true), .serviceWb rxPlenty]).x.descq.pidx =
      ((flSys.exec (FlRun.init c2hStart)
        [.hwWrb 2 (twoEntries true), .serviceWb rxPlenty]).consumed.map
          fun e => pagesOf e.len).sum %
      (flSys.exec (FlRun.init c2hStart)
        [.hwWrb 2 (twoEntries true), .serviceWb rxPlenty]).x.descq.conf.rngsz := by
    decide +kernel
  exact hpidx h.pidx

end Qdma

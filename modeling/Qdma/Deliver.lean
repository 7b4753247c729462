import Qdma.FlIndex

/-!
# What a pass over the completion entries delivers

`Qdma.WbSpec` says how far a pass gets when allocations fail and entries are bad.  Here
nothing fails, and the question is which pages go where: the pages of the free list are
handed over in ring order, each packet in as many as it needs, and the slots they leave are
filled again.

* `packetPages` is how a packet lies in its pages.
* `RxSide` is what handing over pages changes, and `RxSide.page` one page; a pass is a fold
  of it over the pages of its packets (`carries_entries`).
* `rxSide_foldl` is what the fold comes to, as long as it does not lap itself.
* `pass_delivers` puts the two together.
-/

namespace Qdma

open Lib

/-! ## Packets in pages -/

/-- The pages of a packet of `len` bytes: the bytes in each, and which of them names the
user-defined data. -/
def packetPages (len : ℕ) (udd : Bool) : List (ℕ × Bool) :=
  (List.range (pagesOf len)).map fun j => (min (len - j * pageSize) pageSize, udd && decide (j = 0))

theorem pagePieces_eq :
    ∀ (n len : ℕ) (udd : Bool), pagePieces n len udd =
      (List.range n).map fun j => (min (len - j * pageSize) pageSize, udd && decide (j = 0)) := by
  intro n
  induction n with
  | zero => intro len udd; rfl
  | succ n ih =>
      intro len udd
      rw [pagePieces, ih, List.range_succ_eq_map, List.map_cons, List.map_map]
      congr 1
      · rw [Nat.zero_mul, Nat.sub_zero, decide_eq_true rfl, Bool.and_true]
      · refine List.map_congr_left fun j _ => ?_
        have hrest : len - min len pageSize - j * pageSize = len - (j + 1) * pageSize := by
          rw [Nat.add_mul, Nat.one_mul]
          omega
        dsimp only [Function.comp]
        rw [hrest, Nat.succ_eq_add_one, decide_eq_false (Nat.succ_ne_zero j), Bool.and_false]
        rfl

/-- The pages of a packet hold its bytes. -/
theorem sum_packetPages (udd : Bool) (len : ℕ) :
    ((packetPages len udd).map Prod.fst).sum = len := by
  have hsum : ∀ (n len : ℕ) (udd : Bool), pagesOf len = n →
      ((pagePieces n len udd).map Prod.fst).sum = len := by
    intro n
    induction n with
    | zero => intro len udd hn; exact (pagesOf_eq_zero hn).symm
    | succ n ih =>
        intro len udd hn
        obtain ⟨-, hrest⟩ := pagesOf_succ hn
        rw [pagePieces, List.map_cons, List.sum_cons, ih _ _ hrest]
        omega
  unfold packetPages
  rw [← pagePieces_eq]
  exact hsum _ len udd rfl

/-! ## Handing over pages -/

/-- The rings of descriptors and of free pages, the receive queue's pages, and the two
counters of a pass. -/
structure RxSide where
  slots : ℕ → QdmaDesc
  fls : ℕ → FlDesc
  rx : List StRxData
  pidx : ℕ
  pages : ℕ

section Pass

variable (n : ℕ) (pg : ℕ → ℕ) (addr : ℕ → BitVec 64)

/-- One page is handed over, with `s` bytes in it, and its slot filled again with the next
page that was allocated. -/
def RxSide.page (d : RxSide) (s : ℕ × Bool) : RxSide where
  slots := Function.update d.slots d.pidx { d.slots d.pidx with dstAddr := addr d.pages }
  fls := Function.update d.fls d.pidx
    { pg := some (pg d.pages), dmaAddr := addr d.pages, len := s.1 }
  rx := d.rx ++ [{ pg := (d.fls d.pidx).pg, offset := 0, len := s.1, uddRef := s.2 }]
  pidx := Cyclic.next n d.pidx
  pages := d.pages + 1

/-- What handing over the pages `ss` comes to. -/
structure RxSide.Filled (d : RxSide) (ss : List (ℕ × Bool)) (d' : RxSide) : Prop where
  pidx : d'.pidx = (d.pidx + ss.length) % n
  pages : d'.pages = d.pages + ss.length
  rx : d'.rx = d.rx ++ ss.mapIdx fun k s =>
    { pg := (d.fls ((d.pidx + k) % n)).pg, offset := 0, len := s.1, uddRef := s.2 }
  refilled : ∀ k s, ss[k]? = some s →
    d'.fls ((d.pidx + k) % n) =
        { pg := some (pg (d.pages + k)), dmaAddr := addr (d.pages + k), len := s.1 } ∧
      d'.slots ((d.pidx + k) % n) =
        { d.slots ((d.pidx + k) % n) with dstAddr := addr (d.pages + k) }
  others : ∀ slot, (∀ k < ss.length, slot ≠ (d.pidx + k) % n) →
    d'.fls slot = d.fls slot ∧ d'.slots slot = d.slots slot

variable {n pg addr}

/-- **The fold over the pages**, in less than a lap.  The induction adds pages at the end, so
that a page is taken from the slot as the pass found it. -/
theorem rxSide_foldl (ss : List (ℕ × Bool)) {d : RxSide} (hp : d.pidx < n)
    (hlen : ss.length ≤ n) : d.Filled n pg addr ss (ss.foldl (RxSide.page n pg addr) d) := by
  induction ss using List.reverseRecOn with
  | nil =>
      refine ⟨(Nat.mod_eq_of_lt hp).symm, rfl, (List.append_nil _).symm, ?_, fun _ _ => ⟨rfl, rfl⟩⟩
      intro k s hk
      cases hk
  | append_singleton ss s ih =>
      rw [List.length_append, List.length_singleton] at hlen
      have h := ih (by omega)
      rw [List.foldl_append, List.foldl_cons, List.foldl_nil]
      generalize ss.foldl (RxSide.page n pg addr) d = d' at h ⊢
      -- the slot of the new page is not one of those before it
      have hfresh : ∀ k < ss.length, (d.pidx + ss.length) % n ≠ (d.pidx + k) % n := by
        intro k hk heq
        have hsame := (Cyclic.add_mod_inj (by omega) (by omega)).mp heq
        omega
      obtain ⟨hfl, hslot⟩ := h.others _ hfresh
      have hlt : d'.pidx < n := by
        rw [h.pidx]
        exact Nat.mod_lt _ (Nat.zero_lt_of_lt hp)
      refine ⟨?_, ?_, ?_, fun k t hk => ?_, fun slot hs => ?_⟩
      · change Cyclic.next n d'.pidx = _
        rw [Cyclic.next_eq_mod hlt, h.pidx, Nat.mod_add_mod, List.length_append,
          List.length_singleton, Nat.add_assoc]
      · change d'.pages + 1 = _
        rw [h.pages, List.length_append, List.length_singleton, Nat.add_assoc]
      · change d'.rx ++ [_] = _
        rw [h.rx, List.mapIdx_concat, h.pidx, hfl, List.append_assoc]
      · by_cases hlast : k = ss.length
        · subst hlast
          rw [List.getElem?_concat_length] at hk
          cases hk
          rw [← h.pidx, ← h.pages]
          constructor
          · exact Function.update_self _ _ _
          · refine (Function.update_self _ _ _).trans ?_
            rw [h.pidx, hslot]
        · have hk' : ss[k]? = some t := by
            have hlt' := (List.getElem?_eq_some_iff.mp hk).1
            rw [List.length_append, List.length_singleton] at hlt'
            rwa [List.getElem?_append_left (by omega)] at hk
          have hkl := (List.getElem?_eq_some_iff.mp hk').1
          have hne : (d.pidx + k) % n ≠ d'.pidx := by
            rw [h.pidx]
            exact (hfresh k hkl).symm
          obtain ⟨hfl', hslot'⟩ := h.refilled k t hk'
          exact ⟨(Function.update_of_ne hne _ _).trans hfl',
            (Function.update_of_ne hne _ _).trans hslot'⟩
      · rw [List.length_append, List.length_singleton] at hs
        have hne : slot ≠ d'.pidx := by
          rw [h.pidx]
          exact hs _ (Nat.lt_succ_self _)
        obtain ⟨hfl', hslot'⟩ := h.others slot fun k hk => hs k (by omega)
        exact ⟨(Function.update_of_ne hne _ _).trans hfl',
          (Function.update_of_ne hne _ _).trans hslot'⟩

end Pass

/-! ## The pass -/

/-- The rings of a pass are these; what is beside the slots in the descriptor buffer is that
of `ring`. -/
structure Carries (ring : DescRing) (p : StC2hPass) (d : RxSide) : Prop where
  desc : p.x.descq.desc = some { ring with slots := d.slots }
  fl : p.x.descq.stRxFl = some d.fls
  rx : p.x.descq.rxQueue.rx = d.rx
  pidx : p.pidx = d.pidx
  pages : p.pages = d.pages

section Loop

variable {al : RxAllocs} {pg : ℕ → ℕ} {addr : ℕ → BitVec 64}

/-- A page that could be allocated and mapped. -/
theorem refilled_of_page (hpage : ∀ i, al.page i = some (pg i, some (addr i))) (fl : FlDesc)
    (len i : ℕ) :
    refilled al fl len i = { pg := some (pg i), dmaAddr := addr i, len := min len pageSize } := by
  unfold refilled flRefillEntry
  rw [hpage]
  dsimp only
  split
  · rfl
  · rfl

/-- One page. -/
theorem carries_page (hkm : ∀ i, al.kmalloc i = true)
    (hpage : ∀ i, al.page i = some (pg i, some (addr i))) {ring : DescRing} {p : StC2hPass}
    {d : RxSide} (h : Carries ring p d) (hp : p.pidx < p.x.descq.conf.rngsz)
    (hsz : p.x.descq.conf.rngsz < 2 ^ 32) (len : ℕ) (udd : Bool) :
    Carries ring (stC2hPage al d.fls len udd p)
      (d.page p.x.descq.conf.rngsz pg addr (min len pageSize, udd)) := by
  have hnext : nextSlot p.x.descq.conf.rngsz p.pidx = Cyclic.next p.x.descq.conf.rngsz p.pidx := by
    rw [nextSlot_eq hp hsz, Cyclic.next_eq_mod hp]
  rw [stC2hPage_eq al d.fls len udd p h.desc, hkm, refilled_of_page hpage, hnext]
  refine ⟨?_, ?_, ?_, ?_, ?_⟩
  · change some (DescRing.setDst _ p.pidx (addr p.pages)) = _
    rw [h.pidx, h.pages]
    rfl
  · change some (Function.update d.fls p.pidx _) = _
    rw [h.pidx, h.pages]
    rfl
  · change p.x.descq.rxQueue.rx ++ [rxNode (d.fls p.pidx) len udd] = _
    rw [h.rx, h.pidx]
    rfl
  · change Cyclic.next _ p.pidx = _
    rw [h.pidx]
    rfl
  · change p.pages + 1 = _
    rw [h.pages]
    rfl

/-- The pages of an entry. -/
theorem carries_pages (hkm : ∀ i, al.kmalloc i = true)
    (hpage : ∀ i, al.page i = some (pg i, some (addr i))) {ring : DescRing} :
    ∀ (n len : ℕ) (udd : Bool) {p : StC2hPass} {d : RxSide}, pagesOf len = n → PassReady p →
      Carries ring p d → Carries ring (stC2hPages al n len udd p)
        ((pagePieces n len udd).foldl (RxSide.page p.x.descq.conf.rngsz pg addr) d) := by
  intro n
  induction n with
  | zero => intro len udd p d _ _ h; exact h
  | succ n ih =>
      intro len udd p d hn hready h
      obtain ⟨hlen, hrest⟩ := pagesOf_succ hn
      have hpage' := handed_page al d.fls hlen udd hready
      have hone := carries_page hkm hpage h hready.slot hready.rngsz len udd
      have hlater := ih (len - min len pageSize) false hrest hpage'.ready hone
      rw [hpage'.takes.conf] at hlater
      rw [stC2hPages_succ h.fl, pagePieces, List.foldl_cons]
      exact hlater

/-- A receive queue with the same pages. -/
theorem carries_setRxq {ring : DescRing} {p : StC2hPass} {d : RxSide} (h : Carries ring p d)
    {rxq : StRxQueue} (hrx : rxq.rx = p.x.descq.rxQueue.rx) (m : ℕ) :
    Carries ring ({ p with kmallocs := p.kmallocs + m }.setRxq rxq) d :=
  ⟨h.desc, h.fl, hrx.trans h.rx, h.pidx, h.pages⟩

theorem carries_withUdd (wrb : WrbRing) {ring : DescRing} {p : StC2hPass} {d : RxSide}
    (h : Carries ring p d) : Carries ring (withUdd wrb p) d := by
  unfold withUdd
  cases p.x.descq.stC2hWrbUddEn with
  | false => exact h
  | true => exact carries_setRxq h (by rw [uddEnqueueTail_mk]) 2

/-- What a new receive queue leaves alone. -/
theorem setRxq_frame {wrb : WrbRing} {p : StC2hPass} (ha : Aligned wrb p.x.descq)
    (hready : PassReady p) (rxq : StRxQueue) (m : ℕ) :
    Takes p.x ({ p with kmallocs := p.kmallocs + m }.setRxq rxq).x ∧
      Aligned wrb ({ p with kmallocs := p.kmallocs + m }.setRxq rxq).x.descq ∧
        PassReady ({ p with kmallocs := p.kmallocs + m }.setRxq rxq) ∧
          ({ p with kmallocs := p.kmallocs + m }.setRxq rxq).x.descq.cidxWrb =
            p.x.descq.cidxWrb :=
  ⟨rfl, ⟨ha.wrb, ha.cidx, ha.rngsz, ha.cur⟩,
    ⟨hready.desc, hready.fl, hready.slot, hready.rngsz⟩, rfl⟩

/-- The user-defined data leaves the rings and the place in them alone. -/
theorem withUdd_frame (wrb : WrbRing) {p : StC2hPass} (ha : Aligned wrb p.x.descq)
    (hready : PassReady p) :
    Takes p.x (withUdd wrb p).x ∧ Aligned wrb (withUdd wrb p).x.descq ∧
      PassReady (withUdd wrb p) ∧
        (withUdd wrb p).x.descq.cidxWrb = p.x.descq.cidxWrb := by
  unfold withUdd
  cases p.x.descq.stC2hWrbUddEn with
  | false => exact ⟨Takes.refl _, ha, hready, rfl⟩
  | true => exact setRxq_frame ha hready _ 2

theorem carries_next {ring : DescRing} {p : StC2hPass} {d : RxSide} (h : Carries ring p d) :
    Carries ring p.next d := by
  obtain ⟨-, hdesc, hfl, hrxq⟩ := wrbNext_frame p.x.descq
  unfold StC2hPass.next
  generalize wrbNext p.x.descq = e at hdesc hfl hrxq ⊢
  constructor
  · exact hdesc.trans h.desc
  · exact hfl.trans h.fl
  · exact (congrArg StRxQueue.rx hrxq).trans h.rx
  · exact h.pidx
  · exact h.pages

/-- What the loop leaves after `k` entries with the pages `ss`. -/
structure LoopCarries (wrb : WrbRing) (ring : DescRing) (pg : ℕ → ℕ) (addr : ℕ → BitVec 64)
    (p p' : StC2hPass) (d : RxSide) (k : ℕ) (ss : List (ℕ × Bool)) : Prop where
  takes : Takes p.x p'.x
  aligned : Aligned wrb p'.x.descq
  cidxWrb : p'.x.descq.cidxWrb = (p.x.descq.cidxWrb + k) % p.x.descq.rngszWrb
  ready : PassReady p'
  holds : Carries ring p' (ss.foldl (RxSide.page p.x.descq.conf.rngsz pg addr) d)

/-- One entry. -/
theorem carries_entry (hkm : ∀ i, al.kmalloc i = true)
    (hpage : ∀ i, al.page i = some (pg i, some (addr i))) {wrb : WrbRing} {ring : DescRing}
    {p : StC2hPass} {d : RxSide} (ha : Aligned wrb p.x.descq) (hready : PassReady p)
    (h : Carries ring p d) :
    LoopCarries wrb ring pg addr p (entryDone al wrb p) d 1
      (shapesAt p.x.descq wrb p.x.descq.descWrbCur) := by
  obtain ⟨htakes, ha', hready', hcidx⟩ := withUdd_frame wrb ha hready
  have hudd := carries_withUdd wrb h
  obtain ⟨rxs, hhanded, -⟩ := handed_pages al
    (pagesOf (wrb.entryLen p.x.descq.descWrbCur)) (wrb.entryLen p.x.descq.descWrbCur)
    p.x.descq.stC2hWrbUddEn rfl hready'
  have hpages := carries_pages hkm hpage (pagesOf (wrb.entryLen p.x.descq.descWrbCur))
    (wrb.entryLen p.x.descq.descWrbCur) p.x.descq.stC2hWrbUddEn rfl hready' hudd
  rw [htakes.conf] at hpages
  unfold entryDone shapesAt
  generalize withUdd wrb p = p₁ at htakes ha' hready' hcidx hhanded hpages ⊢
  generalize stC2hPages al (pagesOf (wrb.entryLen p.x.descq.descWrbCur))
    (wrb.entryLen p.x.descq.descWrbCur) p.x.descq.stC2hWrbUddEn p₁ = p₂ at hhanded hpages ⊢
  have hpassed := hhanded.passed ha'
  have hnext := passed_next hpassed.aligned hpassed.ready
  have htakes₂ := htakes.trans hpassed.takes
  have hholds := carries_next hpages
  generalize p₂.next = p₃ at hnext hholds ⊢
  constructor
  · exact htakes₂.trans hnext.takes
  · exact hnext.aligned
  · rw [hnext.cidxWrb, hpassed.takes.wrb.1, htakes.wrb.1, hhanded.cidxWrb, hcidx]
  · exact hnext.ready
  · exact hholds

/-- The pages of the packets in the entries `es`, in their order. -/
def packetsIn (wrb : WrbRing) (udd : Bool) (es : List ℕ) : List (ℕ × Bool) :=
  es.flatMap fun cur => packetPages (wrb.entryLen cur) udd

theorem packetsIn_cons (wrb : WrbRing) (udd : Bool) (cur : ℕ) (es : List ℕ) :
    packetsIn wrb udd (cur :: es) = packetPages (wrb.entryLen cur) udd ++ packetsIn wrb udd es :=
  rfl

theorem length_packetsIn (wrb : WrbRing) (udd : Bool) (es : List ℕ) :
    (packetsIn wrb udd es).length = pagesIn wrb es := by
  unfold packetsIn pagesIn
  rw [List.length_flatMap]
  congr 1
  refine List.map_congr_left fun cur _ => ?_
  unfold packetPages
  rw [List.length_map, List.length_range]

/-- **The loop**, when nothing is in its way.  The induction is on the budget. -/
theorem carries_entries (hkm : ∀ i, al.kmalloc i = true)
    (hpage : ∀ i, al.page i = some (pg i, some (addr i))) {wrb : WrbRing} {ring : DescRing} :
    ∀ (budget : ℕ) {p : StC2hPass} {d : RxSide}, Aligned wrb p.x.descq → PassReady p →
      Carries ring p d →
      (∀ i < budget, wrb.entryErr (p.x.descq.entryAt wrb (p.x.descq.cidxWrb + i)) = false) →
      (stC2hEntries al budget p).1 = none ∧
        LoopCarries wrb ring pg addr p (stC2hEntries al budget p).2 d budget
          (packetsIn wrb p.x.descq.stC2hWrbUddEn (p.x.descq.entries wrb budget)) := by
  intro budget
  induction budget with
  | zero =>
      intro p d ha hready h _
      refine ⟨rfl, Takes.refl p.x, ha, ?_, hready, h⟩
      exact (Nat.mod_eq_of_lt ha.cidx).symm
  | succ budget ih =>
      intro p d ha hready h hclean
      have hudd : uddFails al p = false := by
        rw [uddFails_eq, hkm, hkm]
        exact Bool.and_false _
      have herr : wrb.entryErr p.x.descq.descWrbCur = false := by
        rw [ha.curAt]
        exact hclean 0 (Nat.succ_pos budget)
      rw [stC2hEntries_succ al ha.wrb, hudd, herr, if_neg Bool.false_ne_true,
        if_neg Bool.false_ne_true]
      have hone := carries_entry hkm hpage ha hready h
      generalize entryDone al wrb p = p₁ at hone ⊢
      obtain ⟨hsz, hlen, hen, -⟩ := hone.takes.wrb
      have hbehind : Behind wrb p.x.descq p₁.x.descq := ⟨hsz, hlen, hen, hone.cidxWrb⟩
      obtain ⟨hnone, hrest⟩ := ih hone.aligned hone.ready hone.holds fun i hi => by
        rw [hbehind.entryAt]
        exact hclean (i + 1) (Nat.succ_lt_succ hi)
      generalize stC2hEntries al budget p₁ = r at hnone hrest ⊢
      refine ⟨hnone, ?_⟩
      constructor
      · exact hone.takes.trans hrest.takes
      · exact hrest.aligned
      · rw [hrest.cidxWrb, hone.cidxWrb, hsz, Nat.mod_add_mod, Nat.add_assoc,
          Nat.add_comm 1 budget]
      · exact hrest.ready
      · have hall := hrest.holds
        rw [hone.takes.conf, ← List.foldl_append, hen] at hall
        have hfirst : shapesAt p.x.descq wrb p.x.descq.descWrbCur =
            packetPages (wrb.entryLen (p.x.descq.entryAt wrb p.x.descq.cidxWrb))
              p.x.descq.stC2hWrbUddEn := by
          unfold shapesAt packetPages
          rw [pagePieces_eq, ha.curAt]
        rw [hbehind.entries, packetsIn_cons, ← hfirst]
        exact hall

end Loop

/-! ## The whole call -/

/-- A streaming C2H queue whose hardware has completed packets: at least one, all of them
without error, and in fewer pages than the free list has. -/
structure Arrived (wrb : WrbRing) (d : QdmaDescq) : Prop where
  descWrb : d.descWrb = some wrb
  pidx : d.pidx < d.conf.rngsz
  cidx : d.cidxWrb < d.rngszWrb
  sizes : d.rngszWrb = d.conf.rngsz
  rngsz : d.conf.rngsz < 2 ^ 32
  cur : d.descWrbCur = wrb.va + d.cidxWrb * d.stC2hWrbEntryLen
  wbPidx : wrb.wbPidx < d.rngszWrb
  unread : wrb.wbPidx ≠ d.cidxWrb
  clean : ∀ cur ∈ d.entries wrb (d.unread wrb), wrb.entryErr cur = false
  pages : pagesIn wrb (d.entries wrb (d.unread wrb)) ≤ d.conf.rngsz - 1

/-- What a pass that delivers the pages `ss` leaves: the receive queue and the two rings are
`side`. -/
structure Delivers (wrb : WrbRing) (ring : DescRing) (ss : List (ℕ × Bool)) (x : Xfer)
    (r : ℤ × Xfer) (side : RxSide) : Prop where
  rv : r.1 = 0
  desc : r.2.descq.desc = some { ring with slots := side.slots }
  fl : r.2.descq.stRxFl = some side.fls
  rx : r.2.descq.rxQueue.rx = side.rx
  cidxWrb : r.2.descq.cidxWrb = wrb.wbPidx
  pidxWrb : r.2.descq.pidxWrb = wrb.wbPidx
  cur : r.2.descq.descWrbCur = wrb.va + wrb.wbPidx * x.descq.stC2hWrbEntryLen
  pidx : r.2.descq.pidx = (x.descq.pidx + ss.length) % x.descq.conf.rngsz
  doorbell : ∃ rest, r.2.mmio = x.mmio ++
    descqPidxUpdate x.descq
      ((r.2.descq.pidx + x.descq.conf.rngsz - 1) % x.descq.conf.rngsz) :: rest

/-- The aggregation ring's registers are written after the queue's. -/
theorem intrCoalAdvance_mmio (x : Xfer) :
    ∃ coal rest,
      intrCoalAdvance x = { x with intrCoalList := coal, mmio := x.mmio ++ rest } := by
  unfold intrCoalAdvance
  split
  · split
    · exact ⟨x.intrCoalList, [], by rw [List.append_nil]⟩
    · exact ⟨_, _, rfl⟩
  · exact ⟨x.intrCoalList, [], by rw [List.append_nil]⟩

/-- The slot before the local index, as the source writes it. -/
theorem last_eq {n i : ℕ} (hi : i < n) :
    (if i = 0 then n - 1 else i - 1) = (i + n - 1) % n := by
  split
  · rename_i hzero
    rw [hzero, Nat.zero_add, Nat.mod_eq_of_lt (by omega)]
  · have hwrap : i + n - 1 = i - 1 + n := by omega
    rw [hwrap, Nat.add_mod_right, Nat.mod_eq_of_lt (by omega)]

/-- What completing the requests at the end of a pass keeps. -/
theorem checkRx_mmio (x : Xfer) : (checkRxRequestCompleted x).mmio = x.mmio ∧
    (checkRxRequestCompleted x).descq.pidxWrb = x.descq.pidxWrb := by
  have h := sameRing_checkRxLoop x.descq.pendList x.descq.rxQueue.dlen x
  unfold checkRxRequestCompleted
  rw [h]
  exact ⟨rfl, rfl⟩

/-- The receive side of a queue with its rings. -/
def QdmaDescq.rxSide (d : QdmaDescq) (ring : DescRing) (fls : ℕ → FlDesc) : RxSide where
  slots := ring.slots
  fls := fls
  rx := d.rxQueue.rx
  pidx := d.pidx
  pages := 0

/-- The pages of the packets that have arrived. -/
def QdmaDescq.arrived (d : QdmaDescq) (wrb : WrbRing) : List (ℕ × Bool) :=
  packetsIn wrb d.stC2hWrbUddEn (d.entries wrb (d.unread wrb))

/-- The end of the pass, for a queue that the loop left as `p`. -/
theorem delivers_end {wrb : WrbRing} {ring : DescRing} {ss : List (ℕ × Bool)} {x : Xfer}
    {p : StC2hPass} {side : RxSide} (htakes : Takes (passStart wrb x).x p.x)
    (hcidx : p.x.descq.cidxWrb = wrb.wbPidx) (ha : Aligned wrb p.x.descq)
    (hholds : Carries ring p side)
    (hpidx : side.pidx = (x.descq.pidx + ss.length) % x.descq.conf.rngsz) {more : ℕ × BitVec 32} {last : ℕ}
    (hlast : last = (p.pidx + x.descq.conf.rngsz - 1) % x.descq.conf.rngsz) :
    Delivers wrb ring ss x
      (0, checkRxRequestCompleted (intrCoalAdvance
        { p.x with
          descq := { p.x.descq with pidx := p.pidx }
          mmio := p.x.mmio ++ [descqPidxUpdate { p.x.descq with pidx := p.pidx } last, more] }))
      side := by
  have hlen : p.x.descq.stC2hWrbEntryLen = x.descq.stC2hWrbEntryLen := htakes.wrb.2.1
  have hbell : descqPidxUpdate { p.x.descq with pidx := p.pidx } last =
      descqPidxUpdate x.descq last := by
    rw [htakes]
    rfl
  have hhw : p.x.descq.pidxWrb = wrb.wbPidx := by
    rw [htakes]
    rfl
  have hmmio : p.x.mmio = x.mmio := by
    rw [htakes]
    rfl
  have hcur := ha.cur
  rw [hcidx, hlen] at hcur
  rw [hbell, hmmio]
  obtain ⟨coal, rest, hcoal⟩ := intrCoalAdvance_mmio
    { p.x with
      descq := { p.x.descq with pidx := p.pidx }
      mmio := x.mmio ++ [descqPidxUpdate x.descq last, more] }
  rw [hcoal]
  generalize hz : ({ p.x with
    descq := { p.x.descq with pidx := p.pidx }
    intrCoalList := coal
    mmio := x.mmio ++ [descqPidxUpdate x.descq last, more] ++ rest } : Xfer) = z
  have hzd : z.descq = { p.x.descq with pidx := p.pidx } := by rw [← hz]
  have hzm : z.mmio = x.mmio ++ [descqPidxUpdate x.descq last, more] ++ rest := by rw [← hz]
  have hkeep := keepsRx_checkRx z
  have hidx := pidx_checkRx z
  obtain ⟨hchk, hchkhw⟩ := checkRx_mmio z
  generalize checkRxRequestCompleted z = y at hkeep hidx hchk hchkhw ⊢
  have hslot : y.descq.pidx = side.pidx := by
    rw [hidx, hzd]
    exact hholds.pidx
  constructor
  · rfl
  · change y.descq.desc = _
    rw [hkeep.desc, hzd]
    exact hholds.desc
  · change y.descq.stRxFl = _
    rw [hkeep.fl, hzd]
    exact hholds.fl
  · change y.descq.rxQueue.rx = _
    rw [hkeep.rxQueue, hzd]
    exact hholds.rx
  · change y.descq.cidxWrb = _
    rw [hkeep.cidxWrb, hzd]
    exact hcidx
  · change y.descq.pidxWrb = _
    rw [hchkhw, hzd]
    exact hhw
  · change y.descq.descWrbCur = _
    rw [hkeep.cur, hzd]
    exact hcur
  · exact hslot.trans hpidx
  · refine ⟨more :: rest, ?_⟩
    change y.mmio = _ ++ descqPidxUpdate _ ((y.descq.pidx + _ - 1) % _) :: _
    rw [hchk, hzm, hslot, ← hholds.pidx, ← hlast, List.append_assoc]
    rfl

/-- **A pass delivers the packets that have arrived**, one page after the other. -/
theorem pass_delivers (al : RxAllocs) {pg : ℕ → ℕ} {addr : ℕ → BitVec 64}
    (hkm : ∀ i, al.kmalloc i = true) (hpage : ∀ i, al.page i = some (pg i, some (addr i)))
    {x : Xfer} {wrb : WrbRing} {ring : DescRing} {fls : ℕ → FlDesc}
    (hx : Arrived wrb x.descq) (hdesc : x.descq.desc = some ring)
    (hfl : x.descq.stRxFl = some fls) :
    ∃ side : RxSide,
      (x.descq.rxSide ring fls).Filled x.descq.conf.rngsz pg addr (x.descq.arrived wrb) side ∧
        Delivers wrb ring (x.descq.arrived wrb) x (descqStC2hWb al x) side ∧
          ∀ cur ∈ x.descq.entries wrb (x.descq.unread wrb),
            ((packetPages (wrb.entryLen cur) x.descq.stC2hWrbUddEn).map Prod.fst).sum =
              wrb.entryLen cur := by
  have hbudget := stC2hBudget_eq hx.cidx hx.wbPidx hx.sizes hx.rngsz
  have hunread : x.descq.unread wrb ≠ 0 := by
    intro hzero
    exact hx.unread ((Cyclic.gap_eq_zero_iff hx.wbPidx hx.cidx).mp hzero)
  have hrngsz : x.descq.rngszWrb < 2 ^ 32 := by
    rw [hx.sizes]
    exact hx.rngsz
  have hstart : Aligned wrb (passStart wrb x).x.descq := ⟨hx.descWrb, hx.cidx, hrngsz, hx.cur⟩
  have hready : PassReady (passStart wrb x) :=
    ⟨by rw [show (passStart wrb x).x.descq.desc = some ring from hdesc]; rfl,
      by rw [show (passStart wrb x).x.descq.stRxFl = some fls from hfl]; rfl, hx.pidx, hx.rngsz⟩
  have hholds : Carries ring (passStart wrb x) (x.descq.rxSide ring fls) :=
    ⟨hdesc, hfl, rfl, rfl, rfl⟩
  have hclean : ∀ i < x.descq.unread wrb,
      wrb.entryErr (x.descq.entryAt wrb (x.descq.cidxWrb + i)) = false := by
    intro i hi
    exact hx.clean _ (List.mem_map_of_mem (List.mem_range.mpr hi))
  obtain ⟨hnone, hloop⟩ :=
    carries_entries hkm hpage (x.descq.unread wrb) hstart hready hholds hclean
  have hlen : (x.descq.arrived wrb).length ≤ x.descq.conf.rngsz := by
    have hpages := hx.pages
    unfold QdmaDescq.arrived
    rw [length_packetsIn]
    omega
  have hfilled : (x.descq.rxSide ring fls).Filled x.descq.conf.rngsz pg addr
      (x.descq.arrived wrb) _ := rxSide_foldl (x.descq.arrived wrb) hx.pidx hlen
  refine ⟨_, hfilled, ?_, fun cur _ => sum_packetPages _ _⟩
  rw [descqStC2hWb_ring al hx.descWrb, hbudget]
  generalize stC2hEntries al (x.descq.unread wrb) (passStart wrb x) = r at hnone hloop ⊢
  obtain ⟨rv, p⟩ := r
  cases hnone
  have hcidx : p.x.descq.cidxWrb = wrb.wbPidx :=
    hloop.cidxWrb.trans (Cyclic.add_gap_mod hx.wbPidx hx.cidx)
  have hconf : p.x.descq.conf = x.descq.conf := hloop.takes.conf
  dsimp only
  rw [if_neg hunread]
  refine delivers_end hloop.takes hcidx hloop.aligned hloop.holds hfilled.pidx ?_
  change (if p.pidx = 0 then p.x.descq.conf.rngsz - 1 else p.pidx - 1) = _
  rw [hconf]
  refine last_eq ?_
  rw [← hconf]
  exact hloop.ready.slot

/-! ## A pass around the end of both rings -/

/-- Two completion entries in a ring of four, at its end and at its start: 5000 bytes, and one
byte. -/
def wrappedWrb : WrbRing where
  va := 0x4000
  bus := 0
  len := 40
  mem i := if i = 24 then 0x80 else if i = 25 then 0x38 else if i = 26 then 0x01
    else if i = 0 then 0x10 else 0
  wbPidx := 1
  wbCidx := 0

def wrappedRing : DescRing where
  bus := 0
  len := 72
  slots _ := QdmaDesc.zero
  wbPidx := 0
  wbCidx := 0

def wrappedFl (i : ℕ) : FlDesc where
  pg := some (100 + i)
  dmaAddr := BitVec.ofNat 64 (pageSize * i)
  len := pageSize

/-- The queue at the last slot of both. -/
def wrappedQueue : QdmaDescq :=
  { qdmaDescqInit 0 0 0 with
    conf := { qidx := 0, st := true, c2h := true, stC2hWrbDescSize := 0, rngsz := 4 }
    pidx := 3
    desc := some wrappedRing
    stRxFl := some wrappedFl
    rngszWrb := 4
    cidxWrb := 3
    stC2hWrbUddEn := true
    stC2hWrbEntryLen := 8
    descWrb := some wrappedWrb
    descWrbCur := 0x4018 }

theorem arrived_wrappedQueue : Arrived wrappedWrb wrappedQueue where
  descWrb := rfl
  pidx := by decide
  cidx := by decide
  sizes := rfl
  rngsz := by decide
  cur := by decide
  wbPidx := by decide
  unread := by decide
  clean := by decide +kernel
  pages := by decide +kernel

/-- The pass over the two of them, with the three pages it hands over. -/
theorem pass_delivers_wrapped :
    (wrappedQueue.arrived wrappedWrb = [(4096, true), (904, false), (1, true)]) ∧
      ∃ side : RxSide,
        (wrappedQueue.rxSide wrappedRing wrappedFl).Filled 4 (1000 + ·)
            (fun i => BitVec.ofNat 64 (0x10000000 + pageSize * i))
            (wrappedQueue.arrived wrappedWrb) side ∧
          Delivers wrappedWrb wrappedRing (wrappedQueue.arrived wrappedWrb)
            (Xfer.init wrappedQueue (fun _ => onePlaceReq) false [])
            (descqStC2hWb rxPlenty (Xfer.init wrappedQueue (fun _ => onePlaceReq) false []))
            side := by
  refine ⟨by decide +kernel, ?_⟩
  have hpage : ∀ i, rxPlenty.page i =
      some (1000 + i, some (BitVec.ofNat 64 (0x10000000 + pageSize * i))) := fun _ => rfl
  obtain ⟨side, hfilled, hdelivers, -⟩ := pass_delivers rxPlenty (fun _ => rfl) hpage
    (x := Xfer.init wrappedQueue (fun _ => onePlaceReq) false []) arrived_wrappedQueue rfl rfl
  exact ⟨side, hfilled, hdelivers⟩

end Qdma

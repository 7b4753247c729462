import Qdma.ReadSpec
import Qdma.Traffic

/-!
# What a pass over the completion entries does

`descq_st_c2h_wb` in pieces.  An entry at `desc_wrb_cur` is its length, its error bit
and its user-defined data; handing it over queues the user-defined data and then one
node a page.

* `Takes` is what a pass leaves of the queue: everything but the receive side is the
  same.
* `Grows` is what it does to the receive queue: nodes are added at the ends of the two
  lists and nothing else happens.
* `PassRun` is the loop as a whole, with the number of entries it consumed.
-/

namespace Qdma

/-! ## Completion entries -/

/-- The length of the packet. -/
def WrbRing.entryLen (ring : WrbRing) (cur : ℕ) : ℕ :=
  (ring.word cur / 2 ^ sC2hWbEntryLength) % (mC2hWbEntryLength + 1)

/-- The descriptor-error bit. -/
def WrbRing.entryErr (ring : WrbRing) (cur : ℕ) : Bool :=
  decide ((ring.word cur / 2 ^ sC2hWbEntryFDescErr) % 2 = 1)

/-- The number of pages a packet takes: its length divided by `PAGE_SIZE`, rounded
up. -/
def pagesOf (len : ℕ) : ℕ := (len + pageSize - 1) / pageSize

theorem pagesOf_eq_zero {len : ℕ} (h : pagesOf len = 0) : len = 0 := by
  have hsize : pageSize = 4096 := rfl
  unfold pagesOf at h
  rw [hsize] at h
  omega

theorem pagesOf_succ {len n : ℕ} (h : pagesOf len = n + 1) :
    0 < len ∧ pagesOf (len - min len pageSize) = n := by
  have hsize : pageSize = 4096 := rfl
  unfold pagesOf at h ⊢
  rw [hsize] at h ⊢
  omega

/-- A page as it is queued: how many bytes are in it, and whether a packet with
user-defined data starts in it. -/
def pagePieces : ℕ → ℕ → Bool → List (ℕ × Bool)
  | 0, _, _ => []
  | n + 1, len, udd => (min len pageSize, udd) :: pagePieces n (len - min len pageSize) false

def StRxData.shape (rx : StRxData) : ℕ × Bool := (rx.len, rx.uddRef)

/-! ## The receive queue -/

theorem u32_add_u32 (a b : ℕ) : u32 (u32 a + b) = u32 (a + b) := by
  unfold u32
  exact Nat.mod_add_mod a (2 ^ 32) b

theorem u32_u32 (a : ℕ) : u32 (u32 a) = u32 a := u32_of_lt (u32_lt a)

/-! The fields behind the two operations.  The equations with the whole record keep the
checker from comparing counters. -/

theorem rxqEnqueueTail_mk (q : StRxQueue) (n : StRxData) :
    rxqEnqueueTail q n =
      { dlen := u32 (q.dlen + u32Sub n.len n.offset), udd := q.udd, rx := q.rx ++ [n] } := rfl

theorem uddEnqueueTail_mk (q : StRxQueue) (n : StC2hWrbUdd) :
    uddEnqueueTail q n =
      { dlen := u32 (q.dlen + u32Sub n.uddLen n.offset), udd := q.udd ++ [n], rx := q.rx } := rfl

/-- Nodes with bytes to give, added at the ends. -/
structure Grows (q q' : StRxQueue) (rxs : List StRxData) (udds : List StC2hWrbUdd) : Prop where
  rx : q'.rx = q.rx ++ rxs
  udd : q'.udd = q.udd ++ udds
  dlen : u32 q'.dlen = u32 (q.dlen + (rxBytes rxs + uddBytes udds))
  lt : q.dlen < 2 ^ 32 → q'.dlen < 2 ^ 32
  rxOk : ∀ n ∈ rxs, n.Ok ∧ n.offset = 0
  uddOk : ∀ n ∈ udds, n.Ok ∧ n.offset = 0

namespace Grows

theorem refl (q : StRxQueue) : Grows q q [] [] :=
  ⟨by simp, by simp, by simp, id, by simp, by simp⟩

theorem trans {q q' q'' : StRxQueue} {rxs rxs' : List StRxData} {udds udds' : List StC2hWrbUdd}
    (h : Grows q q' rxs udds) (h' : Grows q' q'' rxs' udds') :
    Grows q q'' (rxs ++ rxs') (udds ++ udds') where
  rx := by rw [h'.rx, h.rx, List.append_assoc]
  udd := by rw [h'.udd, h.udd, List.append_assoc]
  dlen := by
    rw [h'.dlen, ← u32_add_u32, h.dlen, u32_add_u32, rxBytes_append, uddBytes_append]
    congr 1
    omega
  lt hq := h'.lt (h.lt hq)
  rxOk n hn := (List.mem_append.mp hn).elim (h.rxOk n) (h'.rxOk n)
  uddOk n hn := (List.mem_append.mp hn).elim (h.uddOk n) (h'.uddOk n)

theorem rxTail (q : StRxQueue) {n : StRxData} (hn : n.Ok) (h0 : n.offset = 0) :
    Grows q (rxqEnqueueTail q n) [n] [] := by
  rw [rxqEnqueueTail_mk, hn.left]
  refine ⟨rfl, (List.append_nil _).symm, ?_, fun _ => u32_lt _, ?_, fun m hm => by cases hm⟩
  · rw [rxBytes_cons, rxBytes_nil, uddBytes_nil, u32_u32]
    congr 1
  · intro m hm
    rw [List.mem_singleton] at hm
    rw [hm]
    exact ⟨hn, h0⟩

theorem uddTail (q : StRxQueue) {n : StC2hWrbUdd} (hn : n.Ok) (h0 : n.offset = 0) :
    Grows q (uddEnqueueTail q n) [] [n] := by
  rw [uddEnqueueTail_mk, hn.left]
  refine ⟨(List.append_nil _).symm, rfl, ?_, fun _ => u32_lt _, (fun m hm => by cases hm), ?_⟩
  · rw [uddBytes_cons, uddBytes_nil, rxBytes_nil, u32_u32]
    congr 1
    omega
  · intro m hm
    rw [List.mem_singleton] at hm
    rw [hm]
    exact ⟨hn, h0⟩

/-- As long as fewer than `2 ^ 32` bytes are queued the count stays right. -/
theorem counts {q q' : StRxQueue} {rxs : List StRxData} {udds : List StC2hWrbUdd}
    (h : Grows q q' rxs udds) (hq : q.Counts)
    (hroom : q.dlen + (rxBytes rxs + uddBytes udds) < 2 ^ 32) :
    q'.Counts ∧ q'.dlen = q.dlen + (rxBytes rxs + uddBytes udds) := by
  have hdlen : q'.dlen = q.dlen + (rxBytes rxs + uddBytes udds) := by
    have h' := h.dlen
    rw [u32_of_lt (h.lt hq.lt), u32_of_lt hroom] at h'
    exact h'
  refine ⟨⟨?_, h.lt hq.lt, ?_, ?_⟩, hdlen⟩
  · rw [hdlen, h.rx, h.udd, rxBytes_append, uddBytes_append, hq.dlen]
    omega
  · intro n hn
    rw [h.rx] at hn
    exact (List.mem_append.mp hn).elim (hq.rx n) fun hn => (h.rxOk n hn).1
  · intro n hn
    rw [h.udd] at hn
    exact (List.mem_append.mp hn).elim (hq.udd n) fun hn => (h.uddOk n hn).1

end Grows

/-! ## One page -/

/-- The slot behind `slot`. -/
def nextSlot (rngsz slot : ℕ) : ℕ := if rngsz ≤ u32 (slot + 1) then 0 else u32 (slot + 1)

theorem nextSlot_eq {rngsz slot : ℕ} (hlt : slot < rngsz) (hsz : rngsz < 2 ^ 32) :
    nextSlot rngsz slot = (slot + 1) % rngsz := by
  have hu32 : u32 (slot + 1) = slot + 1 := u32_of_lt (by omega)
  unfold nextSlot
  rw [hu32]
  split
  · have heq : slot + 1 = rngsz := by omega
    rw [heq, Nat.mod_self]
  · exact (Nat.mod_eq_of_lt (by omega)).symm

theorem flRefillEntry_len (page : Option (ℕ × Option (BitVec 64))) (fl : FlDesc) :
    (flRefillEntry page fl).2.len = fl.len := by
  unfold flRefillEntry
  dsimp only
  split <;> split <;> rfl

/-- One iteration of `while (fl_nr)`. -/
def stC2hPage (al : RxAllocs) (fls : ℕ → FlDesc) (len : ℕ) (udd : Bool) (p : StC2hPass) :
    StC2hPass :=
  let r := descqStC2hRxData al p { fls p.pidx with len := min len pageSize } udd
  let fl := (flRefillEntry (al.page r.pages) { fls p.pidx with len := min len pageSize }).2
  { r with
    x :=
      { r.x with
        descq :=
          { r.x.descq with stRxFl := some (Function.update fls p.pidx fl) }.setDstAddr
            p.pidx fl.dmaAddr }
    pidx := nextSlot r.x.descq.conf.rngsz p.pidx
    pages := r.pages + 1 }

theorem setDstAddr_conf (d : QdmaDescq) (slot : ℕ) (addr : BitVec 64) :
    (d.setDstAddr slot addr).conf = d.conf := by
  unfold QdmaDescq.setDstAddr
  obtain ⟨desc, oops, heq, -⟩ := writeDesc_cases d slot { d.slotAt slot with dstAddr := addr }
  rw [heq]

theorem stC2hPages_succ {al : RxAllocs} {fls : ℕ → FlDesc} {p : StC2hPass}
    (h : p.x.descq.stRxFl = some fls) (flNr len : ℕ) (udd : Bool) :
    stC2hPages al (flNr + 1) len udd p =
      stC2hPages al flNr (len - min len pageSize) false (stC2hPage al fls len udd p) := by
  rw [stC2hPages, h]
  dsimp only
  rw [flRefillEntry_len, setDstAddr_conf]
  rfl

/-- `y` differs from `x` at most in the receive side of its queue. -/
def Takes (x y : Xfer) : Prop :=
  y = { x with
    descq :=
      { x.descq with
        desc := y.descq.desc
        rxQueue := y.descq.rxQueue
        cidxWrb := y.descq.cidxWrb
        stRxFl := y.descq.stRxFl
        descWrbCur := y.descq.descWrbCur
        oops := y.descq.oops } }

theorem Takes.refl (x : Xfer) : Takes x x := rfl

theorem Takes.trans {x y z : Xfer} (h₁ : Takes x y) (h₂ : Takes y z) : Takes x z := by
  unfold Takes at *
  rw [h₂, h₁]

/-- The queue after a page: handed over if the node could be allocated. -/
def rxPut (ok : Bool) (q : StRxQueue) (n : StRxData) : StRxQueue :=
  if ok then rxqEnqueueTail q n else q

/-- The node made for a page. -/
def rxNode (fl : FlDesc) (len : ℕ) (udd : Bool) : StRxData where
  pg := fl.pg
  offset := 0
  len := min len pageSize
  uddRef := udd

/-- The slot after its page was handed over. -/
def refilled (al : RxAllocs) (fl : FlDesc) (len page : ℕ) : FlDesc :=
  (flRefillEntry (al.page page) { fl with len := min len pageSize }).2

/-- The descriptor ring with a new address in one slot. -/
def DescRing.setDst (ring : DescRing) (slot : ℕ) (addr : BitVec 64) : DescRing :=
  { ring with slots := Function.update ring.slots slot { ring.slots slot with dstAddr := addr } }

theorem setDstAddr_eq {d : QdmaDescq} (ring : DescRing) (slot : ℕ) (addr : BitVec 64)
    (h : d.desc = some ring) :
    d.setDstAddr slot addr = { d with desc := some (ring.setDst slot addr) } := by
  unfold QdmaDescq.setDstAddr QdmaDescq.writeDesc QdmaDescq.slotAt DescRing.setDst
  simp only [h]

theorem descqStC2hRxData_eq (al : RxAllocs) (p : StC2hPass) (fl : FlDesc) (len : ℕ) (udd : Bool) :
    descqStC2hRxData al p { fl with len := min len pageSize } udd =
      { p with
        x :=
          { p.x with
            descq :=
              { p.x.descq with
                rxQueue := rxPut (al.kmalloc p.kmallocs) p.x.descq.rxQueue (rxNode fl len udd) } }
        kmallocs := p.kmallocs + 1 } := by
  unfold descqStC2hRxData
  cases hok : al.kmalloc p.kmallocs with
  | true => simp only [if_true, StC2hPass.setRxq, rxNode, rxPut]
  | false => simp only [Bool.false_eq_true, if_false, rxPut]

/-- **One page**, on a queue with its ring. -/
theorem stC2hPage_eq (al : RxAllocs) (fls : ℕ → FlDesc) (len : ℕ) (udd : Bool) (p : StC2hPass)
    {ring : DescRing} (hring : p.x.descq.desc = some ring) :
    stC2hPage al fls len udd p =
      { x :=
          { p.x with
            descq :=
              { p.x.descq with
                desc :=
                  some (ring.setDst p.pidx (refilled al (fls p.pidx) len p.pages).dmaAddr)
                rxQueue :=
                  rxPut (al.kmalloc p.kmallocs) p.x.descq.rxQueue
                    (rxNode (fls p.pidx) len udd)
                stRxFl :=
                  some (Function.update fls p.pidx (refilled al (fls p.pidx) len p.pages)) } }
        pidx := nextSlot p.x.descq.conf.rngsz p.pidx
        kmallocs := p.kmallocs + 1
        pages := p.pages + 1 } := by
  simp only [stC2hPage, descqStC2hRxData_eq, refilled, hring, setDstAddr_eq ring]

/-! ## The pages of an entry -/

/-- The rings a pass works on. -/
structure PassReady (p : StC2hPass) : Prop where
  desc : p.x.descq.desc.isSome = true
  fl : p.x.descq.stRxFl.isSome = true
  slot : p.pidx < p.x.descq.conf.rngsz
  rngsz : p.x.descq.conf.rngsz < 2 ^ 32

/-- What handing over `n` pages does. -/
structure Handed (p p' : StC2hPass) (n : ℕ) (rxs : List StRxData) : Prop where
  takes : Takes p.x p'.x
  cidxWrb : p'.x.descq.cidxWrb = p.x.descq.cidxWrb
  cur : p'.x.descq.descWrbCur = p.x.descq.descWrbCur
  ready : PassReady p'
  oops : p'.x.descq.oops = p.x.descq.oops
  pidx : p'.pidx = (p.pidx + n) % p.x.descq.conf.rngsz
  kmallocs : p'.kmallocs = p.kmallocs + n
  rxq : Grows p.x.descq.rxQueue p'.x.descq.rxQueue rxs []

theorem Takes.conf {x y : Xfer} (h : Takes x y) : y.descq.conf = x.descq.conf := by rw [h]

theorem Handed.refl {p : StC2hPass} (h : PassReady p) : Handed p p 0 [] where
  takes := Takes.refl p.x
  cidxWrb := rfl
  cur := rfl
  ready := h
  oops := rfl
  pidx := (Nat.mod_eq_of_lt h.slot).symm
  kmallocs := rfl
  rxq := Grows.refl _

theorem Handed.trans {p p' p'' : StC2hPass} {n n' : ℕ} {rxs rxs' : List StRxData}
    (h : Handed p p' n rxs) (h' : Handed p' p'' n' rxs') :
    Handed p p'' (n + n') (rxs ++ rxs') where
  takes := h.takes.trans h'.takes
  cidxWrb := h'.cidxWrb.trans h.cidxWrb
  cur := h'.cur.trans h.cur
  ready := h'.ready
  oops := h'.oops.trans h.oops
  pidx := by
    rw [h'.pidx, h.pidx, h.takes.conf, Nat.mod_add_mod, Nat.add_assoc]
  kmallocs := by rw [h'.kmallocs, h.kmallocs, Nat.add_assoc]
  rxq := h.rxq.trans h'.rxq

theorem rxNode_ok (fl : FlDesc) {len : ℕ} (hlen : 0 < len) (udd : Bool) : (rxNode fl len udd).Ok where
  offset := by
    have hsize : pageSize = 4096 := rfl
    change 0 < min len pageSize
    omega
  len := by
    have hsize : pageSize = 4096 := rfl
    change min len pageSize < 2 ^ 32
    omega

theorem grows_rxPut (ok : Bool) (q : StRxQueue) (fl : FlDesc) {len : ℕ} (hlen : 0 < len)
    (udd : Bool) :
    Grows q (rxPut ok q (rxNode fl len udd)) (if ok then [rxNode fl len udd] else []) [] := by
  cases ok with
  | true => exact Grows.rxTail q (rxNode_ok fl hlen udd) rfl
  | false => exact Grows.refl q

theorem handed_page (al : RxAllocs) (fls : ℕ → FlDesc) {len : ℕ} (hlen : 0 < len) (udd : Bool)
    {p : StC2hPass} (h : PassReady p) :
    Handed p (stC2hPage al fls len udd p) 1
      (if al.kmalloc p.kmallocs then [rxNode (fls p.pidx) len udd] else []) := by
  obtain ⟨ring, hring⟩ := Option.isSome_iff_exists.mp h.desc
  have hpos : 0 < p.x.descq.conf.rngsz := (Nat.zero_le _).trans_lt h.slot
  have hslot := nextSlot_eq h.slot h.rngsz
  rw [stC2hPage_eq al fls len udd p hring]
  refine ⟨rfl, rfl, rfl, ⟨rfl, rfl, ?_, h.rngsz⟩, rfl, hslot, rfl, ?_⟩
  · dsimp only
    rw [hslot]
    exact Nat.mod_lt _ hpos
  · exact grows_rxPut _ _ _ hlen udd

/-- **The pages of an entry**: one node a page, less those that could not be
allocated. -/
theorem handed_pages (al : RxAllocs) :
    ∀ (n len : ℕ) (udd : Bool) {p : StC2hPass}, pagesOf len = n → PassReady p →
      ∃ rxs, Handed p (stC2hPages al n len udd p) n rxs ∧
        (rxs.map StRxData.shape).Sublist (pagePieces n len udd) ∧
        ((∀ i, al.kmalloc i = true) → rxs.map StRxData.shape = pagePieces n len udd) := by
  intro n
  induction n with
  | zero =>
      intro len udd p _ h
      exact ⟨[], Handed.refl h, List.Sublist.refl _, fun _ => rfl⟩
  | succ n ih =>
      intro len udd p hn h
      obtain ⟨hlen, hrest⟩ := pagesOf_succ hn
      obtain ⟨fls, hfls⟩ := Option.isSome_iff_exists.mp h.fl
      have hpage := handed_page al fls hlen udd h
      obtain ⟨rxs, hhanded, hsub, hall⟩ := ih (len - min len pageSize) false hrest hpage.ready
      rw [stC2hPages_succ hfls, Nat.add_comm n 1]
      refine ⟨_, hpage.trans hhanded, ?_, ?_⟩
      · rw [Nat.add_comm 1 n, List.map_append]
        cases hok : al.kmalloc p.kmallocs with
        | true => exact hsub.cons_cons _
        | false => exact hsub.cons _
      · intro hal
        rw [hal p.kmallocs, Nat.add_comm 1 n, List.map_append, hall hal]
        rfl

/-! ## One entry -/

/-- The allocations for the user-defined data of an entry fail. -/
def uddFails (al : RxAllocs) (p : StC2hPass) : Bool :=
  p.x.descq.stC2hWrbUddEn && (!al.kmalloc p.kmallocs || !al.kmalloc (p.kmallocs + 1))

/-- The pass when the user-defined data of the entry is queued. -/
def withUdd (ring : WrbRing) (p : StC2hPass) : StC2hPass :=
  if p.x.descq.stC2hWrbUddEn then
    { p with kmallocs := p.kmallocs + 2 }.setRxq
      (uddEnqueueTail p.x.descq.rxQueue
        (ring.udd p.x.descq.descWrbCur p.x.descq.stC2hWrbEntryLen))
  else p

theorem stC2hUdd_eq (al : RxAllocs) (ring : WrbRing) (p : StC2hPass) :
    stC2hUdd al ring p =
      if uddFails al p then none else some (withUdd ring p, p.x.descq.stC2hWrbUddEn) := by
  unfold stC2hUdd uddFails withUdd
  cases hen : p.x.descq.stC2hWrbUddEn with
  | false => simp [hen]
  | true =>
      cases h₁ : al.kmalloc p.kmallocs with
      | false => simp [hen]
      | true => cases h₂ : al.kmalloc (p.kmallocs + 1) <;> simp [hen]

/-- `wrb_next` in a pass. -/
def StC2hPass.next (p : StC2hPass) : StC2hPass :=
  { p with x := { p.x with descq := wrbNext p.x.descq } }

/-- `wrb_next` moves the index and the pointer, nothing else. -/
theorem wrbNext_frame (d : QdmaDescq) :
    (wrbNext d).descWrb = d.descWrb ∧ (wrbNext d).desc = d.desc ∧
      (wrbNext d).stRxFl = d.stRxFl ∧ (wrbNext d).rxQueue = d.rxQueue := by
  unfold wrbNext
  split
  · exact ⟨rfl, rfl, rfl, rfl⟩
  · exact ⟨rfl, rfl, rfl, rfl⟩

/-- The pass when an entry is consumed. -/
def entryDone (al : RxAllocs) (ring : WrbRing) (p : StC2hPass) : StC2hPass :=
  (stC2hPages al (pagesOf (ring.entryLen p.x.descq.descWrbCur))
    (ring.entryLen p.x.descq.descWrbCur) p.x.descq.stC2hWrbUddEn (withUdd ring p)).next

theorem setRxq_cur (p : StC2hPass) (rxq : StRxQueue) :
    (p.setRxq rxq).x.descq.descWrbCur = p.x.descq.descWrbCur := rfl

theorem withUdd_cur (ring : WrbRing) (p : StC2hPass) :
    (withUdd ring p).x.descq.descWrbCur = p.x.descq.descWrbCur := by
  unfold withUdd
  split
  · exact setRxq_cur { p with kmallocs := p.kmallocs + 2 } _
  · rfl

theorem stC2hEntries_succ (al : RxAllocs) {ring : WrbRing} {p : StC2hPass}
    (hring : p.x.descq.descWrb = some ring) (budget : ℕ) :
    stC2hEntries al (budget + 1) p =
      if uddFails al p then (some (-enomem), p)
      else if ring.entryErr p.x.descq.descWrbCur then (some (-eio), withUdd ring p)
      else stC2hEntries al budget (entryDone al ring p) := by
  simp only [stC2hEntries, hring, stC2hUdd_eq]
  cases hudd : uddFails al p with
  | true => simp only [if_true]
  | false =>
      simp only [Bool.false_eq_true, if_false, WrbRing.entryErr, decide_eq_true_eq, entryDone,
        StC2hPass.next, WrbRing.entryLen, pagesOf, withUdd_cur]

/-- The pointer into the completion ring and the index agree. -/
structure Aligned (ring : WrbRing) (d : QdmaDescq) : Prop where
  wrb : d.descWrb = some ring
  cidx : d.cidxWrb < d.rngszWrb
  rngsz : d.rngszWrb < 2 ^ 32
  cur : d.descWrbCur = ring.va + d.cidxWrb * d.stC2hWrbEntryLen

/-- The address of entry `i`, counted around the ring. -/
def QdmaDescq.entryAt (d : QdmaDescq) (ring : WrbRing) (i : ℕ) : ℕ :=
  ring.va + (i % d.rngszWrb) * d.stC2hWrbEntryLen

/-- The `n` entries from the queue's index on. -/
def QdmaDescq.entries (d : QdmaDescq) (ring : WrbRing) (n : ℕ) : List ℕ :=
  (List.range n).map fun i => d.entryAt ring (d.cidxWrb + i)

theorem Aligned.curAt {ring : WrbRing} {d : QdmaDescq} (h : Aligned ring d) :
    d.descWrbCur = d.entryAt ring d.cidxWrb := by
  unfold QdmaDescq.entryAt
  rw [Nat.mod_eq_of_lt h.cidx]
  exact h.cur

theorem Aligned.wrbNext_eq {ring : WrbRing} {d : QdmaDescq} (h : Aligned ring d) :
    wrbNext d =
      { d with
        cidxWrb := (d.cidxWrb + 1) % d.rngszWrb
        descWrbCur := ring.va + ((d.cidxWrb + 1) % d.rngszWrb) * d.stC2hWrbEntryLen } := by
  have hcidx := h.cidx
  have hlt := h.rngsz
  have hu32 : u32 (d.cidxWrb + 1) = d.cidxWrb + 1 := u32_of_lt (by omega)
  unfold wrbNext
  rw [hu32]
  split
  · rename_i heq
    rw [heq, Nat.mod_self, Nat.zero_mul, Nat.add_zero, h.wrb]
    rfl
  · rename_i hne
    rw [Nat.mod_eq_of_lt (by omega), Nat.add_mul, Nat.one_mul, ← Nat.add_assoc, ← h.cur]

/-- What consuming `k` entries with `n` pages does, with `m` allocations of nodes. -/
structure Passed (ring : WrbRing) (p p' : StC2hPass) (k n m : ℕ) (rxs : List StRxData)
    (udds : List StC2hWrbUdd) : Prop where
  takes : Takes p.x p'.x
  aligned : Aligned ring p'.x.descq
  cidxWrb : p'.x.descq.cidxWrb = (p.x.descq.cidxWrb + k) % p.x.descq.rngszWrb
  ready : PassReady p'
  oops : p'.x.descq.oops = p.x.descq.oops
  pidx : p'.pidx = (p.pidx + n) % p.x.descq.conf.rngsz
  kmallocs : p'.kmallocs = p.kmallocs + m
  rxq : Grows p.x.descq.rxQueue p'.x.descq.rxQueue rxs udds

theorem Takes.wrb {x y : Xfer} (h : Takes x y) :
    y.descq.rngszWrb = x.descq.rngszWrb ∧ y.descq.stC2hWrbEntryLen = x.descq.stC2hWrbEntryLen ∧
      y.descq.stC2hWrbUddEn = x.descq.stC2hWrbUddEn ∧ y.descq.descWrb = x.descq.descWrb := by
  rw [h]
  exact ⟨rfl, rfl, rfl, rfl⟩

theorem Passed.refl {ring : WrbRing} {p : StC2hPass} (ha : Aligned ring p.x.descq)
    (h : PassReady p) : Passed ring p p 0 0 0 [] [] where
  takes := Takes.refl p.x
  aligned := ha
  cidxWrb := (Nat.mod_eq_of_lt ha.cidx).symm
  ready := h
  oops := rfl
  pidx := (Nat.mod_eq_of_lt h.slot).symm
  kmallocs := rfl
  rxq := Grows.refl _

theorem Passed.trans {ring : WrbRing} {p p' p'' : StC2hPass} {k k' n n' m m' : ℕ}
    {rxs rxs' : List StRxData} {udds udds' : List StC2hWrbUdd}
    (h : Passed ring p p' k n m rxs udds) (h' : Passed ring p' p'' k' n' m' rxs' udds') :
    Passed ring p p'' (k + k') (n + n') (m + m') (rxs ++ rxs') (udds ++ udds') where
  takes := h.takes.trans h'.takes
  aligned := h'.aligned
  cidxWrb := by rw [h'.cidxWrb, h.cidxWrb, h.takes.wrb.1, Nat.mod_add_mod, Nat.add_assoc]
  ready := h'.ready
  oops := h'.oops.trans h.oops
  pidx := by rw [h'.pidx, h.pidx, h.takes.conf, Nat.mod_add_mod, Nat.add_assoc]
  kmallocs := by rw [h'.kmallocs, h.kmallocs, Nat.add_assoc]
  rxq := h.rxq.trans h'.rxq

theorem Passed.cast {ring : WrbRing} {p p' : StC2hPass} {k k' n n' m m' : ℕ}
    {rxs rxs' : List StRxData} {udds udds' : List StC2hWrbUdd}
    (h : Passed ring p p' k n m rxs udds) (hk : k = k') (hn : n = n') (hm : m = m')
    (hrxs : rxs = rxs') (hudds : udds = udds') : Passed ring p p' k' n' m' rxs' udds' := by
  subst hk hn hm hrxs hudds
  exact h

/-- The user-defined data of the entry at `cur`, if it is enabled. -/
def uddsAt (d : QdmaDescq) (ring : WrbRing) (cur : ℕ) : List StC2hWrbUdd :=
  if d.stC2hWrbUddEn then [ring.udd cur d.stC2hWrbEntryLen] else []

/-- The entry size leaves room for user-defined data; `qdma_descq_config` allows 8, 16
and 32 bytes. -/
def QdmaDescq.EntryFits (d : QdmaDescq) : Prop :=
  3 ≤ d.stC2hWrbEntryLen ∧ d.stC2hWrbEntryLen ≤ 256

theorem udd_ok (ring : WrbRing) (cur : ℕ) {entryLen : ℕ} (h : 3 ≤ entryLen ∧ entryLen ≤ 256) :
    (ring.udd cur entryLen).Ok ∧ (ring.udd cur entryLen).offset = 0 ∧
      (ring.udd cur entryLen).data.length = (ring.udd cur entryLen).uddLen := by
  have hlen : (entryLen + 256 - lC2hWbEntryDmaInfo + 1) % 256 = entryLen - 2 := by
    have hinfo : lC2hWbEntryDmaInfo = 3 := rfl
    rw [hinfo]
    omega
  unfold WrbRing.udd
  dsimp only
  rw [hlen]
  refine ⟨⟨?_, ?_⟩, rfl, ?_⟩
  · dsimp only
    omega
  · dsimp only
    omega
  · simp only [List.length_cons, List.length_map, List.length_range]
    omega

/-- The number of allocations made for the user-defined data of an entry. -/
def QdmaDescq.uddKmallocs (d : QdmaDescq) : ℕ := if d.stC2hWrbUddEn then 2 else 0

theorem passed_setRxq {ring : WrbRing} {p : StC2hPass} (ha : Aligned ring p.x.descq)
    (h : PassReady p) {rxq : StRxQueue} {rxs : List StRxData} {udds : List StC2hWrbUdd}
    (hrxq : Grows p.x.descq.rxQueue rxq rxs udds) (m : ℕ) :
    Passed ring p ({ p with kmallocs := p.kmallocs + m }.setRxq rxq) 0 0 m rxs udds where
  takes := rfl
  aligned := ⟨ha.wrb, ha.cidx, ha.rngsz, ha.cur⟩
  cidxWrb := (Nat.mod_eq_of_lt ha.cidx).symm
  ready := ⟨h.desc, h.fl, h.slot, h.rngsz⟩
  oops := rfl
  pidx := (Nat.mod_eq_of_lt h.slot).symm
  kmallocs := rfl
  rxq := hrxq

theorem passed_withUdd {ring : WrbRing} {p : StC2hPass} (ha : Aligned ring p.x.descq)
    (h : PassReady p) (hfit : p.x.descq.EntryFits) :
    Passed ring p (withUdd ring p) 0 0 p.x.descq.uddKmallocs []
      (uddsAt p.x.descq ring p.x.descq.descWrbCur) := by
  unfold withUdd uddsAt QdmaDescq.uddKmallocs
  by_cases hen : p.x.descq.stC2hWrbUddEn = true
  · obtain ⟨hok, h0, -⟩ := udd_ok ring p.x.descq.descWrbCur hfit
    rw [if_pos hen, if_pos hen, if_pos hen]
    exact passed_setRxq ha h (Grows.uddTail p.x.descq.rxQueue hok h0) 2
  · rw [if_neg hen, if_neg hen, if_neg hen]
    exact Passed.refl ha h

theorem passed_next {ring : WrbRing} {p : StC2hPass} (ha : Aligned ring p.x.descq)
    (h : PassReady p) :
    Passed ring p p.next 1 0 0 [] [] := by
  have hpos : 0 < p.x.descq.rngszWrb := (Nat.zero_le _).trans_lt ha.cidx
  unfold StC2hPass.next
  rw [ha.wrbNext_eq]
  refine ⟨rfl, ⟨ha.wrb, Nat.mod_lt _ hpos, ha.rngsz, rfl⟩, rfl, ⟨h.desc, h.fl, h.slot, h.rngsz⟩,
    rfl, (Nat.mod_eq_of_lt h.slot).symm, rfl, Grows.refl _⟩

theorem Handed.passed {ring : WrbRing} {p p' : StC2hPass} {n : ℕ} {rxs : List StRxData}
    (h : Handed p p' n rxs) (ha : Aligned ring p.x.descq) : Passed ring p p' 0 n n rxs [] := by
  obtain ⟨hsz, hlen, -, hwrb⟩ := h.takes.wrb
  refine ⟨h.takes, ⟨hwrb.trans ha.wrb, ?_, ?_, ?_⟩, ?_, h.ready, h.oops, h.pidx, h.kmallocs, h.rxq⟩
  · rw [h.cidxWrb, hsz]
    exact ha.cidx
  · rw [hsz]
    exact ha.rngsz
  · rw [h.cur, h.cidxWrb, hlen]
    exact ha.cur
  · rw [h.cidxWrb]
    exact (Nat.mod_eq_of_lt ha.cidx).symm

/-- The shapes of the pages of the entry at `cur`. -/
def shapesAt (d : QdmaDescq) (ring : WrbRing) (cur : ℕ) : List (ℕ × Bool) :=
  pagePieces (pagesOf (ring.entryLen cur)) (ring.entryLen cur) d.stC2hWrbUddEn

/-- **One entry.** -/
theorem passed_entry (al : RxAllocs) {ring : WrbRing} {p : StC2hPass}
    (ha : Aligned ring p.x.descq) (h : PassReady p) (hfit : p.x.descq.EntryFits) :
    ∃ rxs, Passed ring p (entryDone al ring p) 1 (pagesOf (ring.entryLen p.x.descq.descWrbCur))
        (p.x.descq.uddKmallocs + pagesOf (ring.entryLen p.x.descq.descWrbCur)) rxs
        (uddsAt p.x.descq ring p.x.descq.descWrbCur) ∧
      (rxs.map StRxData.shape).Sublist (shapesAt p.x.descq ring p.x.descq.descWrbCur) ∧
      ((∀ i, al.kmalloc i = true) →
        rxs.map StRxData.shape = shapesAt p.x.descq ring p.x.descq.descWrbCur) := by
  have hudd := passed_withUdd ha h hfit
  obtain ⟨rxs, hhanded, hsub, hall⟩ := handed_pages al
    (pagesOf (ring.entryLen p.x.descq.descWrbCur)) (ring.entryLen p.x.descq.descWrbCur)
    p.x.descq.stC2hWrbUddEn rfl hudd.ready
  have hpages := hudd.trans (hhanded.passed hudd.aligned)
  have hnext := hpages.trans (passed_next hpages.aligned hpages.ready)
  refine ⟨rxs, hnext.cast (by omega) (by omega) (by omega) ?_ ?_, hsub, hall⟩
  · rw [List.nil_append, List.append_nil]
  · rw [List.append_nil, List.append_nil]

/-! ## The loop -/

/-- The pages of some entries together. -/
def pagesIn (ring : WrbRing) (es : List ℕ) : ℕ := (es.map fun cur => pagesOf (ring.entryLen cur)).sum

/-- The allocations made for them. -/
def kmallocsIn (d : QdmaDescq) (ring : WrbRing) (es : List ℕ) : ℕ :=
  (es.map fun cur => d.uddKmallocs + pagesOf (ring.entryLen cur)).sum

/-- The entry at `cur` is not consumed, after `k` allocations: its user-defined data
finds no memory, or its error bit is set. -/
def entryFails (al : RxAllocs) (d : QdmaDescq) (ring : WrbRing) (k cur : ℕ) : Bool :=
  (d.stC2hWrbUddEn && (!al.kmalloc k || !al.kmalloc (k + 1))) || ring.entryErr cur

/-- Why the loop stopped after `n` entries: it is through, or the next entry failed.
`extra` is the user-defined data queued for the entry that failed. -/
inductive LoopEnd (al : RxAllocs) (d : QdmaDescq) (ring : WrbRing) (budget k n : ℕ) :
    Option ℤ → List StC2hWrbUdd → Prop
  | through (hn : n = budget) : LoopEnd al d ring budget k n none []
  | oom (hn : n < budget)
      (h : (d.stC2hWrbUddEn && (!al.kmalloc k || !al.kmalloc (k + 1))) = true) :
      LoopEnd al d ring budget k n (some (-enomem)) []
  | err (hn : n < budget)
      (hal : (d.stC2hWrbUddEn && (!al.kmalloc k || !al.kmalloc (k + 1))) = false)
      (h : ring.entryErr (d.entryAt ring (d.cidxWrb + n)) = true) :
      LoopEnd al d ring budget k n (some (-eio))
        (uddsAt d ring (d.entryAt ring (d.cidxWrb + n)))

/-- What the loop did: `n` entries were consumed. -/
structure LoopRun (al : RxAllocs) (ring : WrbRing) (budget : ℕ) (p p' : StC2hPass)
    (rv : Option ℤ) (n : ℕ) (rxs : List StRxData) (extra : List StC2hWrbUdd) : Prop where
  passed : ∃ m, Passed ring p p' n (pagesIn ring (p.x.descq.entries ring n)) m rxs
    ((p.x.descq.entries ring n).flatMap (uddsAt p.x.descq ring) ++ extra)
  fine : ∀ i < n, entryFails al p.x.descq ring
    (p.kmallocs + kmallocsIn p.x.descq ring (p.x.descq.entries ring i))
    (p.x.descq.entryAt ring (p.x.descq.cidxWrb + i)) = false
  ends : LoopEnd al p.x.descq ring budget
    (p.kmallocs + kmallocsIn p.x.descq ring (p.x.descq.entries ring n)) n rv extra
  shapes : (rxs.map StRxData.shape).Sublist
    ((p.x.descq.entries ring n).flatMap (shapesAt p.x.descq ring))
  all : (∀ i, al.kmalloc i = true) → rxs.map StRxData.shape =
    (p.x.descq.entries ring n).flatMap (shapesAt p.x.descq ring)

theorem uddFails_eq (al : RxAllocs) (p : StC2hPass) :
    uddFails al p =
      (p.x.descq.stC2hWrbUddEn && (!al.kmalloc p.kmallocs || !al.kmalloc (p.kmallocs + 1))) := rfl

/-- The entries before the pass and after its first entry. -/
structure Behind (ring : WrbRing) (d d' : QdmaDescq) : Prop where
  rngszWrb : d'.rngszWrb = d.rngszWrb
  entryLen : d'.stC2hWrbEntryLen = d.stC2hWrbEntryLen
  uddEn : d'.stC2hWrbUddEn = d.stC2hWrbUddEn
  cidxWrb : d'.cidxWrb = (d.cidxWrb + 1) % d.rngszWrb

namespace Behind

variable {ring : WrbRing} {d d' : QdmaDescq} (h : Behind ring d d')
include h

theorem entryAt (i : ℕ) :
    d'.entryAt ring (d'.cidxWrb + i) = d.entryAt ring (d.cidxWrb + (i + 1)) := by
  unfold QdmaDescq.entryAt
  rw [h.rngszWrb, h.entryLen, h.cidxWrb, Nat.mod_add_mod, Nat.add_assoc, Nat.add_comm 1 i]

theorem entries (n : ℕ) :
    d.entries ring (n + 1) = d.entryAt ring d.cidxWrb :: d'.entries ring n := by
  unfold QdmaDescq.entries
  rw [List.range_succ_eq_map, List.map_cons, List.map_map, Nat.add_zero]
  congr 1
  refine List.map_congr_left fun i _ => ?_
  exact (h.entryAt i).symm

theorem uddKmallocs : d'.uddKmallocs = d.uddKmallocs := by
  unfold QdmaDescq.uddKmallocs
  rw [h.uddEn]

theorem uddsAt (cur : ℕ) : Qdma.uddsAt d' ring cur = Qdma.uddsAt d ring cur := by
  unfold Qdma.uddsAt
  rw [h.uddEn, h.entryLen]

theorem shapesAt (cur : ℕ) : Qdma.shapesAt d' ring cur = Qdma.shapesAt d ring cur := by
  unfold Qdma.shapesAt
  rw [h.uddEn]

theorem pagesIn (n : ℕ) : Qdma.pagesIn ring (d.entries ring (n + 1)) =
    pagesOf (ring.entryLen (d.entryAt ring d.cidxWrb)) + Qdma.pagesIn ring (d'.entries ring n) := by
  rw [h.entries, Qdma.pagesIn, List.map_cons, List.sum_cons, Qdma.pagesIn]

theorem kmallocsIn (n : ℕ) : Qdma.kmallocsIn d ring (d.entries ring (n + 1)) =
    d.uddKmallocs + pagesOf (ring.entryLen (d.entryAt ring d.cidxWrb)) +
      Qdma.kmallocsIn d' ring (d'.entries ring n) := by
  rw [h.entries, Qdma.kmallocsIn, List.map_cons, List.sum_cons, Qdma.kmallocsIn, h.uddKmallocs]

theorem entryFails (al : RxAllocs) (k cur : ℕ) :
    Qdma.entryFails al d' ring k cur = Qdma.entryFails al d ring k cur := by
  unfold Qdma.entryFails
  rw [h.uddEn]

/-- The loop behind the first entry ends as the loop does. -/
theorem loopEnd {al : RxAllocs} {budget k n : ℕ} {rv : Option ℤ} {extra : List StC2hWrbUdd}
    (hend : LoopEnd al d' ring budget k n rv extra) :
    LoopEnd al d ring (budget + 1) k (n + 1) rv extra := by
  cases hend with
  | through hn => exact LoopEnd.through (congrArg (· + 1) hn)
  | oom hn hal =>
      rw [h.uddEn] at hal
      exact LoopEnd.oom (Nat.succ_lt_succ hn) hal
  | err hn hal herr =>
      rw [h.uddEn] at hal
      rw [h.entryAt] at herr
      rw [h.entryAt, h.uddsAt]
      exact LoopEnd.err (Nat.succ_lt_succ hn) hal herr

end Behind

/-- A loop that stops before its first entry. -/
theorem LoopRun.atStart {al : RxAllocs} {ring : WrbRing} {budget : ℕ} {p p' : StC2hPass}
    {rv : Option ℤ} {m : ℕ} {extra : List StC2hWrbUdd}
    (hpassed : Passed ring p p' 0 0 m [] extra)
    (hend : LoopEnd al p.x.descq ring budget p.kmallocs 0 rv extra) :
    LoopRun al ring budget p p' rv 0 [] extra where
  passed := ⟨m, hpassed⟩
  fine i hi := absurd hi (Nat.not_lt_zero i)
  ends := hend
  shapes := List.Sublist.refl _
  all _ := rfl

/-- **The loop.**  The induction is on the budget. -/
theorem loop_run (al : RxAllocs) {ring : WrbRing} :
    ∀ (budget : ℕ) {p : StC2hPass}, Aligned ring p.x.descq → PassReady p → p.x.descq.EntryFits →
      ∃ n rxs extra, LoopRun al ring budget p (stC2hEntries al budget p).2
        (stC2hEntries al budget p).1 n rxs extra := by
  intro budget
  induction budget with
  | zero =>
      intro p ha h _
      exact ⟨0, [], [], LoopRun.atStart (Passed.refl ha h) (LoopEnd.through rfl)⟩
  | succ budget ih =>
      intro p ha h hfit
      rw [stC2hEntries_succ al ha.wrb, uddFails_eq]
      cases hudd : (p.x.descq.stC2hWrbUddEn &&
          (!al.kmalloc p.kmallocs || !al.kmalloc (p.kmallocs + 1))) with
      | true =>
          exact ⟨0, [], [], LoopRun.atStart (Passed.refl ha h)
            (LoopEnd.oom (Nat.succ_pos budget) hudd)⟩
      | false =>
          simp only [Bool.false_eq_true, if_false]
          cases herr : ring.entryErr p.x.descq.descWrbCur with
          | true =>
              have hcur := ha.curAt
              refine ⟨0, [], _, LoopRun.atStart (passed_withUdd ha h hfit) ?_⟩
              rw [hcur] at herr ⊢
              exact LoopEnd.err (Nat.succ_pos budget) hudd herr
          | false =>
              simp only [Bool.false_eq_true, if_false]
              obtain ⟨rxs₀, hentry, hsub₀, hall₀⟩ := passed_entry al ha h hfit
              obtain ⟨hsz, hlen, hen, -⟩ := hentry.takes.wrb
              have hbehind : Behind ring p.x.descq (entryDone al ring p).x.descq :=
                ⟨hsz, hlen, hen, hentry.cidxWrb⟩
              have hfit' : (entryDone al ring p).x.descq.EntryFits := by
                unfold QdmaDescq.EntryFits
                rw [hlen]
                exact hfit
              obtain ⟨n, rxs, extra, hrun⟩ := ih hentry.aligned hentry.ready hfit'
              generalize entryDone al ring p = p₁ at hentry hbehind hrun ⊢
              obtain ⟨m, hrest⟩ := hrun.passed
              have hkm := hentry.kmallocs
              rw [ha.curAt] at hentry hsub₀ hall₀ herr hkm
              have hudds : uddsAt p.x.descq ring (p.x.descq.entryAt ring p.x.descq.cidxWrb) ++
                  ((p₁.x.descq.entries ring n).flatMap (uddsAt p₁.x.descq ring) ++ extra) =
                  (p.x.descq.entries ring (n + 1)).flatMap (uddsAt p.x.descq ring) ++ extra := by
                rw [hbehind.entries, List.flatMap_cons, List.append_assoc,
                  List.flatMap_congr fun cur _ => hbehind.uddsAt cur]
              have hpassed := (hentry.trans hrest).cast (Nat.add_comm 1 n)
                (hbehind.pagesIn n).symm rfl rfl hudds
              refine ⟨n + 1, rxs₀ ++ rxs, extra, ⟨⟨_, hpassed⟩, ?_, ?_, ?_, ?_⟩⟩
              · intro i hi
                cases i with
                | zero =>
                    have hnone : kmallocsIn p.x.descq ring (p.x.descq.entries ring 0) = 0 := rfl
                    unfold entryFails
                    simp only [hnone, Nat.add_zero, herr, Bool.or_false]
                    exact hudd
                | succ i =>
                    have hfine := hrun.fine i (Nat.lt_of_succ_lt_succ hi)
                    rw [hbehind.entryFails, hbehind.entryAt, hkm, Nat.add_assoc] at hfine
                    rw [hbehind.kmallocsIn]
                    exact hfine
              · have hend := hbehind.loopEnd hrun.ends
                rw [hkm, Nat.add_assoc] at hend
                rw [hbehind.kmallocsIn]
                exact hend
              · rw [List.map_append, hbehind.entries, List.flatMap_cons]
                refine hsub₀.append ?_
                have hsub := hrun.shapes
                rwa [List.flatMap_congr fun cur _ => hbehind.shapesAt cur] at hsub
              · intro hal
                have hrest := hrun.all hal
                rw [List.flatMap_congr fun cur _ => hbehind.shapesAt cur] at hrest
                rw [List.map_append, hbehind.entries, List.flatMap_cons, hall₀ hal, hrest]

end Qdma

import Qdma.RxSpec
import Qdma.Stream

/-!
# The receive queue as a byte stream

The receive queue of a streaming C2H queue between the completion handler and its
readers.  A run is any sequence of

* `dma` — the hardware writes a page it was given;
* `entry` — `descq_st_c2h_wb` hands over the user-defined data and the pages of one
  completion entry;
* `read` — `qdma_descq_rxq_read` with any scatter list.

`expected` is what the hardware sent, packet by packet, and `copied` is what the
readers got.  Without user-defined data `copied` is always a prefix of `expected`
(`rxq_is_fifo`).  With user-defined data it is, as long as no reader stops inside it and
every packet has a payload (`udd_before_payload`).
-/

namespace Qdma

open Lib

/-! ## Completion entries on the queue -/

/-- The node made for a page. -/
def flNode (fl : FlDesc) (udd : Bool) : StRxData where
  pg := fl.pg
  offset := 0
  len := fl.len
  uddRef := udd

/-- The nodes made for the pages of an entry; the first one carries the reference to
its user-defined data. -/
def rxNodes : List FlDesc → Bool → List StRxData
  | [], _ => []
  | fl :: fls, udd => flNode fl udd :: rxNodes fls false

/-- The pages of an entry handed to `descq_st_c2h_rx_data` one by one. -/
def rxPages (q : StRxQueue) (fls : List FlDesc) (udd : Bool) : StRxQueue :=
  (rxNodes fls udd).foldl rxqEnqueueTail q

/-- What the body of the loop of `descq_st_c2h_wb` does to the queue for one entry. -/
def rxEntry (q : StRxQueue) (udd : Option StC2hWrbUdd) (fls : List FlDesc) : StRxQueue :=
  match udd with
  | none => rxPages q fls false
  | some u => rxPages (uddEnqueueTail q u) fls true

/-- The pages of an entry have bytes in them. -/
def FlsOk (fls : List FlDesc) : Prop := ∀ fl ∈ fls, 0 < fl.len ∧ fl.len < 2 ^ 32

theorem foldl_grows :
    ∀ {rxs : List StRxData}, (∀ n ∈ rxs, n.Ok ∧ n.offset = 0) → ∀ q : StRxQueue,
      Grows q (rxs.foldl rxqEnqueueTail q) rxs [] := by
  intro rxs
  induction rxs with
  | nil => intro _ q; exact Grows.refl q
  | cons n rxs ih =>
      intro h q
      obtain ⟨hok, h0⟩ := h n (List.mem_cons_self ..)
      have hrest := ih (fun m hm => h m (List.mem_cons_of_mem _ hm)) (rxqEnqueueTail q n)
      rw [List.foldl_cons]
      exact (Grows.rxTail q hok h0).trans hrest

theorem rxNodes_ok :
    ∀ {fls : List FlDesc}, FlsOk fls → ∀ (udd : Bool), ∀ n ∈ rxNodes fls udd, n.Ok ∧ n.offset = 0 := by
  intro fls
  induction fls with
  | nil => intro _ udd n hn; cases hn
  | cons fl fls ih =>
      intro h udd n hn
      obtain rfl | hn := List.mem_cons.mp hn
      · obtain ⟨hpos, hlt⟩ := h fl (List.mem_cons_self ..)
        exact ⟨⟨hpos, hlt⟩, rfl⟩
      · exact ih (fun f hf => h f (List.mem_cons_of_mem _ hf)) false n hn

theorem rxPages_grows {fls : List FlDesc} (h : FlsOk fls) (q : StRxQueue) (udd : Bool) :
    Grows q (rxPages q fls udd) (rxNodes fls udd) [] :=
  foldl_grows (rxNodes_ok h udd) q

theorem rxEntry_grows (udd : Option StC2hWrbUdd) {fls : List FlDesc} (hfls : FlsOk fls)
    (hudd : ∀ u, udd = some u → u.Ok ∧ u.offset = 0) (q : StRxQueue) :
    Grows q (rxEntry q udd fls) (rxNodes fls udd.isSome) udd.toList := by
  cases udd with
  | none => exact rxPages_grows hfls q false
  | some u =>
      obtain ⟨hok, h0⟩ := hudd u rfl
      exact (Grows.uddTail q hok h0).trans (rxPages_grows hfls (uddEnqueueTail q u) true)

/-- Queues that grew by the same nodes are the same. -/
theorem Grows.unique {q q₁ q₂ : StRxQueue} {rxs : List StRxData} {udds : List StC2hWrbUdd}
    (h₁ : Grows q q₁ rxs udds) (h₂ : Grows q q₂ rxs udds) (hq : q.dlen < 2 ^ 32) : q₁ = q₂ := by
  have hdlen : q₁.dlen = q₂.dlen := by
    have heq := h₁.dlen.trans h₂.dlen.symm
    rwa [u32_of_lt (h₁.lt hq), u32_of_lt (h₂.lt hq)] at heq
  have hrx : q₁.rx = q₂.rx := h₁.rx.trans h₂.rx.symm
  have hudd : q₁.udd = q₂.udd := h₁.udd.trans h₂.udd.symm
  cases q₁
  cases q₂
  congr 1

theorem rxNodes_of_pieces :
    ∀ (n len : ℕ) (udd : Bool) {rxs : List StRxData}, (∀ m ∈ rxs, m.offset = 0) →
      rxs.map StRxData.shape = pagePieces n len udd →
      rxs = rxNodes (rxs.map fun m => { pg := m.pg, dmaAddr := 0, len := m.len }) udd := by
  intro n
  induction n with
  | zero =>
      intro len udd rxs _ hshape
      rw [List.map_eq_nil_iff.mp hshape]
      rfl
  | succ n ih =>
      intro len udd rxs h0 hshape
      cases rxs with
      | nil => cases hshape
      | cons m ms =>
          rw [List.map_cons, pagePieces] at hshape
          obtain ⟨hm, hms⟩ := List.cons.inj hshape
          have hudd : m.uddRef = udd := congrArg Prod.snd hm
          have hoff : m.offset = 0 := h0 m (List.mem_cons_self ..)
          rw [List.map_cons, rxNodes,
            ← ih _ false (fun k hk => h0 k (List.mem_cons_of_mem _ hk)) hms]
          congr 1
          cases m
          simp only at hudd hoff
          rw [hudd, hoff]
          rfl

/-- **An entry of the completion ring is an `rxEntry`**, when its allocations succeed:
one page for every `PAGE_SIZE` bytes of its length. -/
theorem entryDone_rxEntry {al : RxAllocs} (hal : ∀ i, al.kmalloc i = true) {ring : WrbRing}
    {p : StC2hPass} (ha : Aligned ring p.x.descq) (h : PassReady p) (hfit : p.x.descq.EntryFits)
    (hlt : p.x.descq.rxQueue.dlen < 2 ^ 32) :
    ∃ fls, (entryDone al ring p).x.descq.rxQueue =
        rxEntry p.x.descq.rxQueue (uddsAt p.x.descq ring p.x.descq.descWrbCur).head? fls ∧
      FlsOk fls ∧
      fls.map (·.len) = (shapesAt p.x.descq ring p.x.descq.descWrbCur).map (·.1) := by
  obtain ⟨rxs, hpassed, -, hall⟩ := passed_entry al ha h hfit
  have hshape := hall hal
  have hgrows := hpassed.rxq
  have hnodes := rxNodes_of_pieces _ _ _ (fun m hm => (hgrows.rxOk m hm).2) hshape
  obtain ⟨fls, hfls⟩ : ∃ fls : List FlDesc,
      fls = rxs.map fun m => { pg := m.pg, dmaAddr := 0, len := m.len } := ⟨_, rfl⟩
  rw [← hfls] at hnodes
  have hok : FlsOk fls := by
    intro fl hfl
    rw [hfls] at hfl
    obtain ⟨m, hm, rfl⟩ := List.mem_map.mp hfl
    obtain ⟨hmok, -⟩ := hgrows.rxOk m hm
    exact ⟨(Nat.zero_le _).trans_lt hmok.offset, hmok.len⟩
  have hhead : (uddsAt p.x.descq ring p.x.descq.descWrbCur).head?.isSome =
        p.x.descq.stC2hWrbUddEn ∧
      (uddsAt p.x.descq ring p.x.descq.descWrbCur).head?.toList =
        uddsAt p.x.descq ring p.x.descq.descWrbCur := by
    unfold uddsAt
    cases p.x.descq.stC2hWrbUddEn <;> exact ⟨rfl, rfl⟩
  have hentry := rxEntry_grows (uddsAt p.x.descq ring p.x.descq.descWrbCur).head? hok
    (by
      intro u hu
      refine hgrows.uddOk u ?_
      rw [← hhead.2, hu]
      exact List.mem_singleton.mpr rfl) p.x.descq.rxQueue
  rw [hhead.1, hhead.2, ← hnodes] at hentry
  refine ⟨fls, hgrows.unique hentry hlt, hok, ?_⟩
  rw [← hshape, hfls, List.map_map, List.map_map]
  rfl

/-! ## Runs -/

/-- The queue between the hardware and the readers. -/
structure Fifo where
  mem : Option ℕ → ℕ → BitVec 8
  rxq : StRxQueue
  expected : List (BitVec 8)
  copied : List (BitVec 8)
  oops : Bool

/-- Nothing received yet. -/
def Fifo.init (mem : Option ℕ → ℕ → BitVec 8) : Fifo where
  mem := mem
  rxq := StRxQueue.empty
  expected := []
  copied := []
  oops := false

inductive FifoEv where
  | dma (pg : Option ℕ) (data : ℕ → BitVec 8)
  | entry (udd : Option StC2hWrbUdd) (fls : List FlDesc)
  | read (lens : List ℕ)

/-- The bytes of one packet: its user-defined data and then its payload. -/
def packetBytes (mem : Option ℕ → ℕ → BitVec 8) (udd : Option StC2hWrbUdd) (fls : List FlDesc) :
    List (BitVec 8) :=
  (udd.map (·.data)).getD [] ++ fls.flatMap fun fl => (List.range fl.len).map (mem fl.pg)

/-- A read in state `s`. -/
def Fifo.readResult (uddEn : Bool) (s : Fifo) (lens : List ℕ) : RxReadResult StRxQueue :=
  qdmaDescqRxqRead listOps s.mem uddEn lens s.rxq

def fifoStep (uddEn : Bool) (s : Fifo) : FifoEv → Fifo
  | .dma pg data => { s with mem := Function.update s.mem pg data }
  | .entry udd fls =>
      { s with
        rxq := rxEntry s.rxq udd fls
        expected := s.expected ++ packetBytes s.mem udd fls }
  | .read lens =>
      let r := s.readResult uddEn lens
      { s with
        rxq := r.rxq
        copied := s.copied ++ r.out.flatten
        oops := s.oops || r.oops }

/-- The user-defined data of an entry: there exactly if it is enabled, and not read
yet. -/
structure UddOk (uddEn : Bool) (udd : Option StC2hWrbUdd) : Prop where
  enabled : udd.isSome = uddEn
  ok : ∀ u, udd = some u → u.Ok ∧ u.offset = 0 ∧ u.data.length = u.uddLen

/-- The hardware does not write to a page it has handed over, and fewer than `2 ^ 32`
bytes are queued. -/
def fifoGuard (uddEn : Bool) (s : Fifo) : FifoEv → Prop
  | .dma pg _ => pg ∉ s.rxq.rx.map (·.pg)
  | .entry udd fls =>
      UddOk uddEn udd ∧ FlsOk fls ∧
        s.rxq.dlen + (packetBytes s.mem udd fls).length < 2 ^ 32
  | .read _ => True

def fifoSys (uddEn : Bool) : System Fifo FifoEv where
  step := fifoStep uddEn
  guard := fifoGuard uddEn

/-- What the readers got and what is on the queue is what was sent. -/
structure FifoInv (s : Fifo) : Prop where
  good : s.rxq.Good
  split : s.copied ++ s.rxq.stream s.mem = s.expected
  oops : s.oops = false

theorem fifoInv_init (mem : Option ℕ → ℕ → BitVec 8) : FifoInv (Fifo.init mem) where
  good := ⟨counts_empty, Or.inl rfl⟩
  split := rfl
  oops := rfl

/-! ### The hardware writes a page -/

theorem stream_update {mem : Option ℕ → ℕ → BitVec 8} {pg : Option ℕ} (data : ℕ → BitVec 8) :
    ∀ {ns : List StRxData}, pg ∉ ns.map (·.pg) → ∀ us : List StC2hWrbUdd,
      stream (Function.update mem pg data) ns us = stream mem ns us := by
  intro ns
  induction ns with
  | nil => intro _ us; rfl
  | cons n ns ih =>
      intro h us
      rw [List.map_cons, List.mem_cons, not_or] at h
      have hbytes : n.bytes (Function.update mem pg data) = n.bytes mem := by
        unfold StRxData.bytes dataOut
        rw [Function.update_of_ne (Ne.symm h.1)]
      cases hlead : n.leads with
      | true =>
          cases us with
          | nil => rw [stream_leadNil _ hlead, stream_leadNil _ hlead, hbytes, ih h.2]
          | cons u us => rw [stream_lead _ hlead, stream_lead _ hlead, hbytes, ih h.2]
      | false => rw [stream_noLead _ hlead, stream_noLead _ hlead, hbytes, ih h.2]

/-! ### An entry is queued -/

theorem rxNodes_bytes (mem : Option ℕ → ℕ → BitVec 8) :
    ∀ (fls : List FlDesc) (udd : Bool), (rxNodes fls udd).flatMap (StRxData.bytes mem) =
      fls.flatMap fun fl => (List.range fl.len).map (mem fl.pg) := by
  intro fls
  induction fls with
  | nil => intro udd; rfl
  | cons fl fls ih =>
      intro udd
      rw [rxNodes, List.flatMap_cons, List.flatMap_cons, ih false]
      congr 1
      simp [StRxData.bytes, dataOut, flNode]

theorem rxBytes_nodes (mem : Option ℕ → ℕ → BitVec 8) (ns : List StRxData) :
    (ns.flatMap (StRxData.bytes mem)).length = rxBytes ns := by
  induction ns with
  | nil => rfl
  | cons n ns ih => rw [List.flatMap_cons, List.length_append, ih, StRxData.bytes_length, rxBytes_cons]

/-- Pages in the middle of a packet. -/
theorem stream_noLeads (mem : Option ℕ → ℕ → BitVec 8) :
    ∀ {ns : List StRxData}, (∀ n ∈ ns, n.leads = false) → ∀ us : List StC2hWrbUdd,
      stream mem ns us = ns.flatMap (StRxData.bytes mem) ∧ (Paired ns us ↔ us = []) := by
  intro ns
  induction ns with
  | nil => intro _ us; exact ⟨rfl, Iff.rfl⟩
  | cons n ns ih =>
      intro h us
      have hn := h n (List.mem_cons_self ..)
      obtain ⟨hstream, hpair⟩ := ih (fun m hm => h m (List.mem_cons_of_mem _ hm)) us
      rw [stream_noLead mem hn, hstream, List.flatMap_cons, paired_noLead hn]
      exact ⟨rfl, hpair⟩

theorem rxNodes_noLeads :
    ∀ (fls : List FlDesc), ∀ n ∈ rxNodes fls false, n.leads = false := by
  intro fls
  induction fls with
  | nil => intro n hn; cases hn
  | cons fl fls ih =>
      intro n hn
      obtain rfl | hn := List.mem_cons.mp hn
      · rfl
      · exact ih n hn

/-- What is added behind paired lists comes behind their bytes. -/
theorem Paired.append (mem : Option ℕ → ℕ → BitVec 8) {ms : List StRxData}
    {vs : List StC2hWrbUdd} (hms : Paired ms vs) :
    ∀ {ns : List StRxData} {us : List StC2hWrbUdd}, Paired ns us →
      Paired (ns ++ ms) (us ++ vs) ∧
        stream mem (ns ++ ms) (us ++ vs) = stream mem ns us ++ stream mem ms vs := by
  intro ns
  induction ns with
  | nil =>
      intro us h
      rw [show us = [] from h]
      exact ⟨hms, rfl⟩
  | cons n ns ih =>
      intro us h
      cases hlead : n.leads with
      | true =>
          obtain ⟨u, us, rfl, h0, hlen, hrest⟩ := (paired_lead hlead).mp h
          obtain ⟨hpair, hstream⟩ := ih hrest
          refine ⟨(paired_lead hlead).mpr ⟨u, us ++ vs, rfl, h0, hlen, hpair⟩, ?_⟩
          rw [List.cons_append, List.cons_append, stream_lead mem hlead, stream_lead mem hlead,
            hstream, List.append_assoc, List.append_assoc]
      | false =>
          obtain ⟨hpair, hstream⟩ := ih ((paired_noLead hlead).mp h)
          refine ⟨(paired_noLead hlead).mpr hpair, ?_⟩
          rw [List.cons_append, stream_noLead mem hlead, stream_noLead mem hlead, hstream,
            List.append_assoc]

/-- Behind a packet whose user-defined data is read, more of its payload. -/
theorem Matched.append_noLeads (mem : Option ℕ → ℕ → BitVec 8) {ns ms : List StRxData}
    {us : List StC2hWrbUdd} (h : Matched ns us) (hms : ∀ n ∈ ms, n.leads = false) :
    Matched (ns ++ ms) us ∧
      stream mem (ns ++ ms) us = stream mem ns us ++ ms.flatMap (StRxData.bytes mem) := by
  have hpair : Paired ms [] := ((stream_noLeads mem hms []).2).mpr rfl
  have hbytes := (stream_noLeads mem hms []).1
  obtain hns | ⟨rfl, htail⟩ := h
  · obtain ⟨hp, hs⟩ := hpair.append mem hns
    rw [List.append_nil] at hp hs
    rw [hbytes] at hs
    exact ⟨Or.inl hp, hs⟩
  · cases ns with
    | nil => exact ⟨Or.inl hpair, hbytes⟩
    | cons n ns =>
        obtain ⟨hp, hs⟩ := hpair.append mem htail
        have hhead : ∀ ls, stream mem (n :: ls) [] = n.bytes mem ++ stream mem ls [] := by
          intro ls
          cases hlead : n.leads with
          | true => exact stream_leadNil mem hlead
          | false => exact stream_noLead mem hlead []
        refine ⟨Or.inr ⟨rfl, hp⟩, ?_⟩
        rw [List.tail_cons, List.append_nil, hbytes] at hs
        rw [List.cons_append, hhead, hhead, hs, List.append_assoc]

/-- A queue that grew, in room. -/
theorem entry_counts {uddEn : Bool} {s : Fifo} {udd : Option StC2hWrbUdd} {fls : List FlDesc}
    (h : FifoInv s) (hguard : fifoGuard uddEn s (.entry udd fls)) :
    (rxEntry s.rxq udd fls).Counts ∧
      (rxEntry s.rxq udd fls).rx = s.rxq.rx ++ rxNodes fls udd.isSome ∧
      (rxEntry s.rxq udd fls).udd = s.rxq.udd ++ udd.toList := by
  obtain ⟨hudd, hfls, hroom⟩ := hguard
  have hgrows := rxEntry_grows udd hfls
    (fun u hu => ⟨(hudd.ok u hu).1, (hudd.ok u hu).2.1⟩) s.rxq
  have hlen : (packetBytes s.mem udd fls).length =
      rxBytes (rxNodes fls udd.isSome) + uddBytes udd.toList := by
    unfold packetBytes
    rw [List.length_append, ← rxNodes_bytes s.mem fls udd.isSome, rxBytes_nodes, Nat.add_comm]
    congr 1
    cases hu : udd with
    | none => rfl
    | some u =>
        obtain ⟨-, h0, hdata⟩ := hudd.ok u hu
        simp [hdata, h0]
  rw [hlen] at hroom
  exact ⟨(hgrows.counts h.good.counts hroom).1, hgrows.rx, hgrows.udd⟩

/-- **Without user-defined data** every entry comes behind the bytes that are there. -/
theorem FifoInv.entryPlain {s : Fifo} {udd : Option StC2hWrbUdd} {fls : List FlDesc}
    (h : FifoInv s) (hguard : fifoGuard false s (.entry udd fls)) :
    FifoInv (fifoStep false s (.entry udd fls)) := by
  obtain ⟨hcounts, hrx, hus⟩ := entry_counts h hguard
  have hnone : udd = none := Option.not_isSome_iff_eq_none.mp
    (by rw [hguard.1.enabled]; exact Bool.false_ne_true)
  subst hnone
  obtain ⟨hmatched, hstream⟩ := h.good.paired.append_noLeads s.mem (rxNodes_noLeads fls)
  have hus' : (rxEntry s.rxq none fls).udd = s.rxq.udd := hus.trans (List.append_nil _)
  refine ⟨⟨hcounts, ?_⟩, ?_, h.oops⟩
  · change Matched (rxEntry s.rxq none fls).rx (rxEntry s.rxq none fls).udd
    rw [hrx, hus']
    exact hmatched
  · change s.copied ++ stream s.mem (rxEntry s.rxq none fls).rx (rxEntry s.rxq none fls).udd = _
    rw [hrx, hus', show (none : Option StC2hWrbUdd).isSome = false from rfl, hstream,
      rxNodes_bytes, ← List.append_assoc, show s.copied ++ stream s.mem s.rxq.rx s.rxq.udd =
        s.expected from h.split]
    rfl

theorem FifoInv.dma {s : Fifo} (h : FifoInv s) (uddEn : Bool) {pg : Option ℕ}
    {data : ℕ → BitVec 8} (hguard : fifoGuard uddEn s (.dma pg data)) :
    FifoInv (fifoStep uddEn s (.dma pg data)) := by
  refine ⟨h.good, ?_, h.oops⟩
  change s.copied ++ stream (Function.update s.mem pg data) s.rxq.rx s.rxq.udd = s.expected
  rw [stream_update data hguard]
  exact h.split

theorem FifoInv.read {uddEn : Bool} {s : Fifo} {lens : List ℕ} (h : FifoInv s)
    (hclear : s.rxq.Clear lens) : FifoInv (fifoStep uddEn s (.read lens)) := by
  have hread : ReadsStream s.mem s.rxq lens (s.readResult uddEn lens) :=
    read_stream s.mem h.good uddEn hclear
  refine ⟨hread.good, ?_, ?_⟩
  · change (s.copied ++ (s.readResult uddEn lens).out.flatten) ++
      (s.readResult uddEn lens).rxq.stream s.mem = s.expected
    rw [hread.out, fill_flatten, hread.rest, List.append_assoc, List.take_append_drop]
    exact h.split
  · change (s.oops || (s.readResult uddEn lens).oops) = false
    rw [h.oops, hread.oops]
    rfl

/-- Without user-defined data there is nothing to stop in. -/
theorem clear_of_noUdd {q : StRxQueue} (hus : q.udd = []) (h : q.Good) (lens : List ℕ) :
    q.Clear lens := by
  intro ls _ hin
  rw [hus] at hin
  obtain hpair | ⟨-, htail⟩ := h.paired
  · rw [hus] at hpair
    exact hpair.not_inUdd _ hin
  · cases hrx : q.rx with
    | nil => rw [hrx] at hin; exact hin
    | cons n ns =>
        rw [hrx] at hin htail
        cases hlead : n.leads with
        | true => exact inUdd_leadNil hlead _ hin
        | false => exact Paired.not_inUdd htail _ ((inUdd_noLead hlead [] _).mp hin).2

/-! ## Without user-defined data -/

/-- Without user-defined data none is ever queued. -/
structure PlainInv (s : Fifo) : Prop where
  inv : FifoInv s
  udd : s.rxq.udd = []

theorem PlainInv.step {s : Fifo} {e : FifoEv} (h : PlainInv s) (hguard : fifoGuard false s e) :
    PlainInv (fifoStep false s e) := by
  cases e with
  | dma pg data => exact ⟨h.inv.dma false hguard, h.udd⟩
  | entry udd fls =>
      obtain ⟨-, -, hus⟩ := entry_counts h.inv hguard
      have hnone : udd = none := Option.not_isSome_iff_eq_none.mp
        (by rw [hguard.1.enabled]; exact Bool.false_ne_true)
      refine ⟨h.inv.entryPlain hguard, ?_⟩
      change (rxEntry s.rxq udd fls).udd = []
      rw [hus, h.udd, hnone]
      rfl
  | read lens =>
      exact ⟨h.inv.read (clear_of_noUdd h.udd h.inv.good lens),
        noUdd_read s.mem h.inv.good.counts h.udd false lens⟩

theorem plainInv_run (mem : Option ℕ → ℕ → BitVec 8) {es : List FifoEv}
    (hrun : (fifoSys false).Admits (Fifo.init mem) es) :
    PlainInv ((fifoSys false).exec (Fifo.init mem) es) :=
  (fifoSys false).invariant (I := PlainInv) (fun _ _ h hg => h.step hg) es
    ⟨fifoInv_init mem, rfl⟩ hrun

/-- **The receive queue is a byte FIFO.**  What was copied is a prefix of what was sent;
and in every state reached a read fills its entries in order from the rest, and takes as
much off `dlen` as it copies. -/
theorem rxq_is_fifo (mem : Option ℕ → ℕ → BitVec 8) (es : List FifoEv)
    (hrun : (fifoSys false).Admits (Fifo.init mem) es) :
    let s := (fifoSys false).exec (Fifo.init mem) es
    let queued := s.expected.drop s.copied.length
    s.copied <+: s.expected ∧ s.rxq.dlen = queued.length ∧
      ∀ lens : List ℕ,
        (s.readResult false lens).out = fill lens queued ∧
        (s.readResult false lens).copied = min lens.sum queued.length ∧
        (s.readResult false lens).rxq.dlen + (s.readResult false lens).copied = s.rxq.dlen ∧
        (s.readResult false lens).oops = false := by
  have hinv := plainInv_run mem hrun
  dsimp only
  generalize (fifoSys false).exec (Fifo.init mem) es = s at hinv ⊢
  have hsplit := hinv.inv.split
  have hqueued : s.expected.drop s.copied.length = s.rxq.stream s.mem := by
    rw [← hsplit, List.drop_left]
  have hlen := hinv.inv.good.stream_length s.mem
  rw [hqueued]
  refine ⟨⟨_, hsplit⟩, hlen.symm, ?_⟩
  intro lens
  have hread : ReadsStream s.mem s.rxq lens (s.readResult false lens) :=
    read_stream s.mem hinv.inv.good false (clear_of_noUdd hinv.udd hinv.inv.good lens)
  refine ⟨hread.out, hread.copied, ?_, hread.oops⟩
  rw [← hread.good.stream_length s.mem, hread.rest, hread.copied, List.length_drop, ← hlen]
  omega

instance (uddEn : Bool) (udd : Option StC2hWrbUdd) : Decidable (UddOk uddEn udd) :=
  match udd with
  | none => decidable_of_iff (false = uddEn)
      ⟨fun h => ⟨h, fun u hu => by cases hu⟩, fun h => h.enabled⟩
  | some u => decidable_of_iff
      (true = uddEn ∧ (u.offset < u.uddLen ∧ u.uddLen < 2 ^ 8) ∧ u.offset = 0 ∧
        u.data.length = u.uddLen)
      ⟨fun h => ⟨h.1, fun v hv => by
          cases hv
          exact ⟨⟨h.2.1.1, h.2.1.2⟩, h.2.2⟩⟩,
        fun h => ⟨h.enabled, ⟨(h.ok u rfl).1.offset, (h.ok u rfl).1.len⟩, (h.ok u rfl).2⟩⟩

instance (fls : List FlDesc) : Decidable (FlsOk fls) :=
  inferInstanceAs (Decidable (∀ fl ∈ fls, _))

instance (uddEn : Bool) (s : Fifo) : ∀ e, Decidable ((fifoSys uddEn).guard s e) := by
  rintro ⟨⟩ <;> dsimp only [fifoSys, fifoGuard] <;> infer_instance

/-- A page of the sample runs. -/
def samplePage (pg len : ℕ) : FlDesc where
  pg := some pg
  dmaAddr := 0
  len := len

def sampleMem (_ : Option ℕ) (i : ℕ) : BitVec 8 := BitVec.ofNat 8 (100 + i)

/-- Two pages, read across their border. -/
theorem rxq_is_fifo_two_pages :
    ((fifoSys false).exec (Fifo.init sampleMem) [.dma (some 7) fun i => BitVec.ofNat 8 i,
      .entry none [samplePage 7 3], .entry none [samplePage 8 2], .read [2, 0, 2]]).copied <+:
    ((fifoSys false).exec (Fifo.init sampleMem) [.dma (some 7) fun i => BitVec.ofNat 8 i,
      .entry none [samplePage 7 3], .entry none [samplePage 8 2], .read [2, 0, 2]]).expected :=
  (rxq_is_fifo sampleMem _ (by decide +kernel)).1

/-! ## With user-defined data -/

/-- The first packet's user-defined data is read and none of its payload: the queue
starts with the first page of a packet and holds no user-defined data. -/
def StRxQueue.uddTaken (q : StRxQueue) : Bool :=
  match q.rx with
  | [] => false
  | n :: _ => n.leads && q.udd.isEmpty

theorem paired_of_notTaken {q : StRxQueue} (h : Matched q.rx q.udd) (ht : q.uddTaken = false) :
    Paired q.rx q.udd := by
  obtain hpair | ⟨hus, htail⟩ := h
  · exact hpair
  · unfold StRxQueue.uddTaken at ht
    rw [hus] at ht ⊢
    cases hrx : q.rx with
    | nil => rfl
    | cons n ns =>
        rw [hrx] at ht htail
        have hlead : n.leads = false := by simpa using ht
        exact (paired_noLead hlead).mpr htail

/-- The first page of a packet with user-defined data starts it; the others do not. -/
theorem paired_packet (mem : Option ℕ → ℕ → BitVec 8) {u : StC2hWrbUdd} (h0 : u.offset = 0)
    (hlen : u.data.length = u.uddLen) {fls : List FlDesc} (hfls : fls ≠ []) :
    Paired (rxNodes fls true) [u] ∧
      stream mem (rxNodes fls true) [u] = packetBytes mem (some u) fls := by
  cases fls with
  | nil => exact absurd rfl hfls
  | cons fl fls =>
      have hlead : (flNode fl true).leads = true := rfl
      obtain ⟨hbytes, hpair⟩ := stream_noLeads mem (rxNodes_noLeads fls) []
      have hall := rxNodes_bytes mem (fl :: fls) true
      rw [rxNodes, List.flatMap_cons] at hall
      refine ⟨(paired_lead hlead).mpr ⟨u, [], rfl, h0, hlen, hpair.mpr rfl⟩, ?_⟩
      rw [rxNodes, stream_lead mem hlead, hbytes, hall]
      rfl

/-- **With user-defined data** an entry that has a payload comes behind the bytes that
are there, unless the packet before it is without its own. -/
theorem FifoInv.entryUdd {s : Fifo} {udd : Option StC2hWrbUdd} {fls : List FlDesc}
    (h : FifoInv s) (hguard : fifoGuard true s (.entry udd fls)) (hfls : fls ≠ [])
    (htaken : s.rxq.uddTaken = false) : FifoInv (fifoStep true s (.entry udd fls)) := by
  obtain ⟨hcounts, hrx, hus⟩ := entry_counts h hguard
  obtain ⟨u, rfl⟩ := Option.isSome_iff_exists.mp hguard.1.enabled
  obtain ⟨-, h0, hlen⟩ := hguard.1.ok u rfl
  obtain ⟨hpacket, hbytes⟩ := paired_packet s.mem h0 hlen hfls
  obtain ⟨hpair, hstream⟩ :=
    hpacket.append s.mem (paired_of_notTaken h.good.paired htaken)
  refine ⟨⟨hcounts, ?_⟩, ?_, h.oops⟩
  · change Matched (rxEntry s.rxq (some u) fls).rx (rxEntry s.rxq (some u) fls).udd
    rw [hrx, hus]
    exact Or.inl hpair
  · change s.copied ++ stream s.mem (rxEntry s.rxq (some u) fls).rx
      (rxEntry s.rxq (some u) fls).udd = s.expected ++ packetBytes s.mem (some u) fls
    rw [hrx, hus, show (some u).isSome = true from rfl, show (some u).toList = [u] from rfl,
      hstream, hbytes, ← List.append_assoc]
    exact congrArg (· ++ packetBytes s.mem (some u) fls) h.split

/-- What keeps user-defined data in its place: every packet has a payload and none
arrives while the packet before it is without its user-defined data; and no entry of a
scatter list ends inside user-defined data, or right behind it with more on the queue. -/
def uddCond (s : Fifo) : FifoEv → Prop
  | .dma _ _ => True
  | .entry _ fls => fls ≠ [] ∧ s.rxq.uddTaken = false
  | .read lens => s.rxq.Clear lens

theorem FifoInv.stepUdd {s : Fifo} {e : FifoEv} (h : FifoInv s)
    (hguard : ((fifoSys true).restrict uddCond).guard s e) :
    FifoInv (((fifoSys true).restrict uddCond).step s e) := by
  obtain ⟨hg, hcond⟩ := hguard
  cases e with
  | dma pg data => exact h.dma true hg
  | entry udd fls => exact h.entryUdd hg hcond.1 hcond.2
  | read lens => exact h.read hcond

/-- **Each packet is read as its user-defined data followed by its payload, once.** -/
theorem udd_before_payload (mem : Option ℕ → ℕ → BitVec 8) (es : List FifoEv)
    (hrun : ((fifoSys true).restrict uddCond).Admits (Fifo.init mem) es) :
    (((fifoSys true).restrict uddCond).exec (Fifo.init mem) es).copied <+:
        (((fifoSys true).restrict uddCond).exec (Fifo.init mem) es).expected ∧
      (((fifoSys true).restrict uddCond).exec (Fifo.init mem) es).oops = false := by
  have hinv := ((fifoSys true).restrict uddCond).invariant (I := FifoInv)
    (fun _ _ h hg => h.stepUdd hg) es (fifoInv_init mem) hrun
  exact ⟨⟨_, hinv.split⟩, hinv.oops⟩

instance decidableInUdd :
    ∀ (ns : List StRxData) (us : List StC2hWrbUdd) (e : ℕ), Decidable (InUdd ns us e)
  | [], _, _ => inferInstanceAs (Decidable False)
  | n :: ns, [], e =>
      if h : n.leads = true then .isFalse (inUdd_leadNil h e)
      else
        have := decidableInUdd ns [] (e - (n.len - n.offset))
        decidable_of_iff (n.len - n.offset ≤ e ∧ InUdd ns [] (e - (n.len - n.offset)))
          (inUdd_noLead (Bool.eq_false_iff.mpr h) [] e).symm
  | n :: ns, u :: us, e =>
      if h : n.leads = true then
        have := decidableInUdd ns us (e - u.uddLen - (n.len - n.offset))
        decidable_of_iff
          ((0 < e ∧ (e < u.uddLen ∨ e = u.uddLen ∧ us ≠ [])) ∨
            u.uddLen ≤ e ∧ n.len - n.offset ≤ e - u.uddLen ∧
              InUdd ns us (e - u.uddLen - (n.len - n.offset)))
          (inUdd_lead h u us e).symm
      else
        have := decidableInUdd ns (u :: us) (e - (n.len - n.offset))
        decidable_of_iff (n.len - n.offset ≤ e ∧ InUdd ns (u :: us) (e - (n.len - n.offset)))
          (inUdd_noLead (Bool.eq_false_iff.mpr h) (u :: us) e).symm

instance (q : StRxQueue) (lens : List ℕ) : Decidable (q.Clear lens) :=
  inferInstanceAs (Decidable (∀ ls ∈ lens.inits, _))

instance (s : Fifo) : ∀ e, Decidable (uddCond s e) := by
  rintro ⟨⟩ <;> dsimp only [uddCond] <;> infer_instance

instance (s : Fifo) (e : FifoEv) : Decidable (((fifoSys true).restrict uddCond).guard s e) :=
  inferInstanceAs (Decidable (_ ∧ _))

/-- The user-defined data of an 8-byte completion entry. -/
def sampleUdd (b : BitVec 8) : StC2hWrbUdd where
  data := [b, b + 1, b + 2, b + 3, b + 4, b + 5]
  uddLen := 6
  offset := 0

/-- Two packets; the first read stops in the first payload, the second one right behind
the last user-defined data. -/
def samplePackets : List FifoEv :=
  [.entry (some (sampleUdd 1)) [samplePage 7 4], .entry (some (sampleUdd 11)) [samplePage 8 3],
    .read [8], .read [8], .read [5]]

theorem udd_before_payload_two_packets :
    (((fifoSys true).restrict uddCond).exec (Fifo.init sampleMem) samplePackets).copied <+:
        (((fifoSys true).restrict uddCond).exec (Fifo.init sampleMem) samplePackets).expected ∧
      (((fifoSys true).restrict uddCond).exec (Fifo.init sampleMem) samplePackets).oops = false :=
  udd_before_payload sampleMem samplePackets (by decide +kernel)

/-- A reader that stops inside user-defined data gets its beginning twice, and a packet
without a payload makes the next reader read through `NULL`. -/
theorem udd_repeated_and_null :
    (fifoSys true).Admits (Fifo.init sampleMem)
        [.entry (some (sampleUdd 1)) [samplePage 7 4], .read [3], .read [3]] ∧
      ¬ ((fifoSys true).exec (Fifo.init sampleMem)
          [.entry (some (sampleUdd 1)) [samplePage 7 4], .read [3], .read [3]]).copied <+:
        ((fifoSys true).exec (Fifo.init sampleMem)
          [.entry (some (sampleUdd 1)) [samplePage 7 4], .read [3], .read [3]]).expected ∧
      (fifoSys true).Admits (Fifo.init sampleMem) [.entry (some (sampleUdd 1)) [], .read [3]] ∧
      ((fifoSys true).exec (Fifo.init sampleMem)
        [.entry (some (sampleUdd 1)) [], .read [3]]).oops = true := by
  decide +kernel

end Qdma

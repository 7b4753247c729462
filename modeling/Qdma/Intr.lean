import Qdma.Lifecycle
import Qdma.Lib.Trace

/-!
# Aggregated interrupts

With fewer vectors than queues the hardware writes an entry into the ring of a vector, in
ring order and in a colour that changes from one lap to the next, and then raises the
interrupt.  `irq_top` walks the ring from `pidx` for as long as the entries have the
expected colour and schedules the work of the queue each one names.

Three other places take part.  The loop of `irq_top` is bounded by the size of the ring
*less* `pidx`; both writeback handlers move `pidx` of the first vector and flip its colour
(`coalAdvance`); and the queue is found by `qdma_device_get_descq_by_id`, which expects a
handle where the entry has a hardware queue id.

* `irqTop` is the handler, `hwWrite` the hardware, `intrSys` the two with the writeback
  handlers.
* `written` and the `entry` of a `Dispatch` are ghosts: which entries were written, and
  which of them a slot held when it was dispatched.  No step reads them.
* `Dispatched` is what the ring is for; `InFirstLap` the runs in which it is met.
-/

namespace Qdma

open Lib

/-! ## The handler -/

/-- `struct qdma_intr_ring`, the fields that are read. -/
structure QdmaIntrRing where
  qid : ℕ
  coalColor : Bool
  deriving DecidableEq

/-- A call of `schedule_work` in `irq_top`. -/
structure Dispatch where
  vec : ℕ
  entry : Option ℕ
  descq : ℕ
  deriving DecidableEq

structure IntrState where
  dev : XlnxDmaDev
  /-- `xdev->msix[i].vector`. -/
  msix : List ℕ
  /-- `intr_ring_base` of each vector, and the memory behind it. -/
  ring : ℕ → ℕ → QdmaIntrRing
  /-- `xdev->lock` is held by nobody who would release it. -/
  locked : Bool
  sched : List Dispatch
  written : ℕ → List ℕ

/-- What the loop of `irq_top` leaves: `counter`, the slots whose queue was scheduled, and
whether every queue was found. -/
structure IrqLoop where
  counter : ℕ
  slots : List (ℕ × ℕ)
  found : Bool

/-- The loop of `irq_top`, with `n` turns left. -/
def irqLoop (ring : ℕ → QdmaIntrRing) (color : Bool) (lookup : ℕ → Option ℕ) : ℕ → ℕ → IrqLoop
  | 0, counter => { counter := counter, slots := [], found := true }
  | n + 1, counter =>
      if (ring counter).coalColor ≠ color then { counter := counter, slots := [], found := true }
      else
        match lookup (ring counter).qid with
        | none => { counter := counter, slots := [], found := false }
        | some descq =>
            let r := irqLoop ring color lookup n (counter + 1)
            { r with slots := (counter, descq) :: r.slots }

/-- The entry a slot of a ring of `size` holds after `cnt` writes. -/
def entryIn (size cnt slot : ℕ) : Option ℕ :=
  if slot < size ∧ slot < cnt then some (slot + size * ((cnt - 1 - slot) / size)) else none

def irqNone : ℤ := 0
def irqHandled : ℤ := 1

/-- `irq_top`.  The bound of the loop is computed without sign, and where a queue is not
found the handler returns without giving the lock back. -/
def irqTop (s : IntrState) (irq : ℕ) : ℤ × IntrState :=
  match s.msix.findIdx? (· = irq) with
  | none => (irqNone, s)
  | some i =>
      if s.dev.intrCoalEn then
        match s.dev.intrCoalList[i]? with
        | none => (irqHandled, s)
        | some coal =>
            if irq = coal.vecId then
              let r := irqLoop (s.ring i) coal.color (s.dev.getDescqById · false)
                (u32Sub coal.intrRingSize coal.pidx - coal.pidx) coal.pidx
              let sched := s.sched ++ r.slots.map fun slot =>
                { vec := i, entry := entryIn coal.intrRingSize (s.written i).length slot.1,
                  descq := slot.2 }
              if r.found then
                (irqHandled,
                  { s with
                    dev :=
                      { s.dev with
                        intrCoalList := s.dev.intrCoalList.set i { coal with pidx := r.counter } }
                    sched := sched })
              else (-einval, { s with sched := sched, locked := true })
            else (irqHandled, s)
      else
        (irqHandled,
          { s with
            sched := s.sched ++ (s.dev.intrList i).map fun q =>
              { vec := i, entry := none, descq := q } })

/-! ## Its surroundings -/

/-- The size of a vector's ring. -/
def IntrState.ringSize (s : IntrState) (v : ℕ) : ℕ :=
  ((s.dev.intrCoalList[v]?).map (·.intrRingSize)).getD 0

/-- The colour of the entry the hardware writes next. -/
def IntrState.hwColor (s : IntrState) (v : ℕ) : Bool :=
  decide ((s.written v).length / s.ringSize v % 2 = 0)

/-- The hardware writes an entry. -/
def hwWrite (s : IntrState) (v qid : ℕ) : IntrState :=
  { s with
    ring := Function.update s.ring v
      (Function.update (s.ring v) ((s.written v).length % s.ringSize v)
        { qid := qid, coalColor := s.hwColor v })
    written := Function.update s.written v (s.written v ++ [qid]) }

/-- What a writeback handler that has found completions does to the rings. -/
def coalAdvance : List IntrCoalConf → List IntrCoalConf
  | [] => []
  | coal :: rest =>
      (if coal.intrRingSize ≤ coal.cidx then
        { coal with cidx := 0, pidx := 0, color := !coal.color }
      else { coal with cidx := u32 (coal.cidx + 1), pidx := u32 (coal.pidx + 1) }) :: rest

theorem intrCoalAdvance_coals (x : Xfer) :
    (intrCoalAdvance x).intrCoalList =
      if x.intrCoalEn then coalAdvance x.intrCoalList else x.intrCoalList := by
  unfold intrCoalAdvance
  split
  · cases hcoals : x.intrCoalList with
    | nil => exact hcoals
    | cons coal rest => rfl
  · rfl

inductive IntrEv where
  | write (v qid : ℕ)
  | fire (irq : ℕ)
  | service
  deriving DecidableEq

/-- The hardware writes into the rings there are, interrupts fire at any time, and queues
are serviced at any time.  An interrupt that finds the lock taken for good does not
return. -/
def intrSys : System IntrState IntrEv where
  step s
    | .write v qid => hwWrite s v qid
    | .fire irq => (irqTop s irq).2
    | .service =>
        { s with
          dev :=
            { s.dev with
              intrCoalList :=
                if s.dev.intrCoalEn then coalAdvance s.dev.intrCoalList
                else s.dev.intrCoalList } }
  guard s
    | .write v _ => v < s.msix.length
    | .fire _ => s.locked = false
    | .service => True

instance (s : IntrState) : ∀ e, Decidable (intrSys.guard s e) := by
  rintro ⟨⟩ <;> dsimp only [intrSys] <;> infer_instance

/-- The `switch` of `intr_ring_setup`. -/
def intrRingEntries (ringSize : ℕ) : ℕ := if ringSize < 8 then 512 * (ringSize + 1) else 512

/-- The state `intr_setup` and `intr_ring_setup` leave behind where aggregation is used;
`vec_id` has sixteen bits, and `behind` is the memory after a ring. -/
def intrRingSetup (dev : XlnxDmaDev) (msix : List ℕ) (ringSize : ℕ)
    (behind : ℕ → ℕ → QdmaIntrRing) : IntrState where
  dev :=
    { dev with
      intrCoalEn := true
      intrCoalList := msix.map fun vector =>
        { vecId := vector % 2 ^ 16, intrRingSize := intrRingEntries ringSize, color := true,
          pidx := 0, cidx := 0 } }
  msix := msix
  ring v j := if j < intrRingEntries ringSize then { qid := 0, coalColor := false } else behind v j
  locked := false
  sched := []
  written _ := []

/-! ## What the rings are for -/

/-- The entries of a vector that were dispatched, in order. -/
def IntrState.dispatched (s : IntrState) (v : ℕ) : List (Option ℕ) :=
  (s.sched.filter fun d => d.vec = v).map (·.entry)

/-- Each dispatch is of a written entry and of its queue, no entry is dispatched twice, and
none is overwritten before it is. -/
structure Dispatched (v : ℕ) (s : IntrState) : Prop where
  right : ∀ d ∈ s.sched, d.vec = v →
    ∃ k, d.entry = some k ∧ (s.written v)[k]? = some (s.dev.descq d.descq).qidxHw
  once : (s.dispatched v).Nodup
  reuse : ∀ k, k + s.ringSize v < (s.written v).length → some k ∈ s.dispatched v

/-- Every entry written has been dispatched. -/
def AllDispatched (v : ℕ) (s : IntrState) : Prop :=
  ∀ k, k < (s.written v).length → some k ∈ s.dispatched v

/-- The steps after which the ring of vector `v` is still right: an entry is written in
the colour the driver expects, which is that of the first lap, and its queue id is a
handle of the queue; an interrupt finds nothing to do or nothing past its bound; and no
writeback handler moves the ring. -/
def InFirstLap (v : ℕ) (s : IntrState) : IntrEv → Prop
  | .write v' qid =>
      v' = v →
        (∀ coal, s.dev.intrCoalList[v]? = some coal → s.hwColor v = coal.color) ∧
          ∃ q, s.dev.getDescqById qid false = some q ∧ (s.dev.descq q).qidxHw = qid
  | .fire irq =>
      s.msix[v]? = some irq →
        irq < 2 ^ 16 ∧
          ∀ coal, s.dev.intrCoalList[v]? = some coal →
            coal.pidx = (s.written v).length ∨
              (s.written v).length + coal.pidx ≤ coal.intrRingSize
  | .service => v ≠ 0

/-! ## The loop -/

/-- The loop over `m` entries of the right colour, with the one behind them not of it or
out of bounds. -/
theorem irqLoop_run (ring : ℕ → QdmaIntrRing) (color : Bool) (lookup : ℕ → Option ℕ)
    (handle : ℕ → ℕ) :
    ∀ (m n counter : ℕ), m ≤ n →
      (∀ j, j < m → (ring (counter + j)).coalColor = color ∧
        lookup (ring (counter + j)).qid = some (handle (counter + j))) →
      (m < n → (ring (counter + m)).coalColor ≠ color) →
      irqLoop ring color lookup n counter =
        { counter := counter + m
          slots := (List.range m).map fun j => (counter + j, handle (counter + j))
          found := true } := by
  intro m
  induction m with
  | zero =>
      intro n counter _ _ hstop
      cases n with
      | zero => rfl
      | succ n =>
          have hcolor : (ring counter).coalColor ≠ color := hstop (Nat.succ_pos n)
          unfold irqLoop
          rw [if_pos hcolor]
          rfl
  | succ m ih =>
      intro n counter hle hgood hstop
      obtain ⟨n, rfl⟩ : ∃ k, n = k + 1 := ⟨n - 1, by omega⟩
      have hhead := hgood 0 (Nat.succ_pos m)
      rw [Nat.add_zero] at hhead
      have hrest := ih n (counter + 1) (by omega)
        (fun j hj => by
          have hj' := hgood (j + 1) (by omega)
          rwa [show counter + (j + 1) = counter + 1 + j by omega] at hj')
        (fun hlt => by
          have hstop' := hstop (by omega)
          rwa [show counter + (m + 1) = counter + 1 + m by omega] at hstop')
      unfold irqLoop
      rw [if_neg (not_not.mpr hhead.1), hhead.2, hrest]
      dsimp only
      rw [List.range_succ_eq_map, List.map_cons, List.map_map,
        show counter + 1 + m = counter + (m + 1) by omega]
      congr 2
      refine List.map_congr_left fun j _ => ?_
      dsimp only [Function.comp]
      rw [show counter + 1 + j = counter + j.succ by omega]

theorem entryIn_first {size cnt slot : ℕ} (hcnt : cnt ≤ size) (hslot : slot < cnt) :
    entryIn size cnt slot = some slot := by
  unfold entryIn
  rw [if_pos ⟨by omega, hslot⟩, Nat.div_eq_of_lt (by omega), Nat.mul_zero, Nat.add_zero]

/-! ## The ring in its first lap -/

/-- The ring of vector `v`, of `n` slots, with `p` entries dispatched. -/
structure FirstLap (v n vector p : ℕ) (s : IntrState) : Prop where
  msix : s.msix.Nodup ∧ s.msix[v]? = some vector
  coalEn : s.dev.intrCoalEn = true
  coal : ∃ cidx, s.dev.intrCoalList[v]? = some
    { vecId := vector % 2 ^ 16, intrRingSize := n, color := true, pidx := p, cidx := cidx }
  size : 0 < n ∧ n < 2 ^ 32
  le : p ≤ (s.written v).length ∧ (s.written v).length ≤ n
  filled : ∀ j qid, (s.written v)[j]? = some qid → s.ring v j = { qid := qid, coalColor := true }
  empty : ∀ j, (s.written v).length ≤ j → j < n → (s.ring v j).coalColor = false
  known : ∀ qid ∈ s.written v,
    ∃ q, s.dev.getDescqById qid false = some q ∧ (s.dev.descq q).qidxHw = qid
  entries : s.dispatched v = (List.range p).map some
  right : ∀ d ∈ s.sched, d.vec = v →
    ∃ k, d.entry = some k ∧ (s.written v)[k]? = some (s.dev.descq d.descq).qidxHw

section Steps

variable {v n vector p : ℕ} {s : IntrState}

theorem FirstLap.ringSize (h : FirstLap v n vector p s) : s.ringSize v = n := by
  obtain ⟨cidx, hcoal⟩ := h.coal
  unfold IntrState.ringSize
  rw [hcoal]
  rfl

theorem FirstLap.dispatched (h : FirstLap v n vector p s) : Dispatched v s where
  right := h.right
  once := by
    rw [h.entries]
    exact List.nodup_range.map (Option.some_injective ℕ)
  reuse k hk := by
    have hle := h.le.2
    rw [h.ringSize] at hk
    omega

/-- Steps that leave the ring and the count of the vector alone. -/
theorem FirstLap.frame (h : FirstLap v n vector p s) {s' : IntrState} (hmsix : s'.msix = s.msix)
    (hcoalEn : s'.dev.intrCoalEn = s.dev.intrCoalEn)
    (hcoal : s'.dev.intrCoalList[v]? = s.dev.intrCoalList[v]?)
    (hlookup : s'.dev.getDescqById = s.dev.getDescqById) (hdescq : s'.dev.descq = s.dev.descq)
    (hring : s'.ring v = s.ring v) (hwritten : s'.written v = s.written v)
    (hsched : s'.sched.filter (fun d => d.vec = v) = s.sched.filter fun d => d.vec = v) :
    FirstLap v n vector p s' where
  msix := by
    rw [hmsix]
    exact h.msix
  coalEn := hcoalEn.trans h.coalEn
  coal := by
    rw [hcoal]
    exact h.coal
  size := h.size
  le := by
    rw [hwritten]
    exact h.le
  filled := by
    rw [hring, hwritten]
    exact h.filled
  empty := by
    rw [hring, hwritten]
    exact h.empty
  known := by
    rw [hwritten, hlookup, hdescq]
    exact h.known
  entries := by
    unfold IntrState.dispatched
    rw [hsched]
    exact h.entries
  right d hd hv := by
    have hmem : d ∈ s'.sched.filter fun d => d.vec = v := List.mem_filter.mpr ⟨hd, by simpa using hv⟩
    rw [hsched] at hmem
    rw [hwritten, hdescq]
    exact h.right d (List.mem_filter.mp hmem).1 hv

/-- The hardware writes into another ring. -/
theorem FirstLap.write_other (h : FirstLap v n vector p s) {v' : ℕ} (hne : v' ≠ v) (qid : ℕ) :
    FirstLap v n vector p (hwWrite s v' qid) :=
  h.frame rfl rfl rfl rfl rfl (Function.update_of_ne (Ne.symm hne) _ _)
    (Function.update_of_ne (Ne.symm hne) _ _) rfl

/-- The hardware writes the next entry of the lap. -/
theorem FirstLap.write (h : FirstLap v n vector p s) {qid : ℕ} (hcolor : s.hwColor v = true)
    (hqid : ∃ q, s.dev.getDescqById qid false = some q ∧ (s.dev.descq q).qidxHw = qid) :
    FirstLap v n vector p (hwWrite s v qid) := by
  have hlt : (s.written v).length < n := by
    have hle := h.le.2
    by_contra hge
    have heq : (s.written v).length = n := by omega
    unfold IntrState.hwColor at hcolor
    rw [h.ringSize, heq, Nat.div_self h.size.1] at hcolor
    exact absurd hcolor (by decide)
  have hslot : (s.written v).length % s.ringSize v = (s.written v).length := by
    rw [h.ringSize]
    exact Nat.mod_eq_of_lt hlt
  have hwritten : (hwWrite s v qid).written v = s.written v ++ [qid] :=
    Function.update_self v _ s.written
  have hring : (hwWrite s v qid).ring v =
      Function.update (s.ring v) (s.written v).length { qid := qid, coalColor := true } := by
    have hself : (hwWrite s v qid).ring v = _ := Function.update_self v _ s.ring
    rw [hself, hslot, hcolor]
  refine ⟨h.msix, h.coalEn, h.coal, h.size, ?_, fun j qid' hj => ?_, fun j hj hjn => ?_, ?_,
    h.entries, fun d hd hv => ?_⟩
  · have hle := h.le.1
    rw [hwritten, List.length_append, List.length_singleton]
    omega
  · rw [hwritten] at hj
    rw [hring]
    by_cases hlast : j = (s.written v).length
    · subst hlast
      rw [List.getElem?_concat_length] at hj
      cases hj
      rw [Function.update_self]
    · have hjlt : j < (s.written v).length := by
        have hlen := (List.getElem?_eq_some_iff.mp hj).1
        rw [List.length_append, List.length_singleton] at hlen
        omega
      rw [List.getElem?_append_left hjlt] at hj
      rw [Function.update_of_ne hlast]
      exact h.filled j qid' hj
  · rw [hwritten, List.length_append, List.length_singleton] at hj
    rw [hring, Function.update_of_ne (by omega)]
    exact h.empty j (by omega) hjn
  · rw [hwritten]
    intro qid' hmem
    rcases List.mem_append.mp hmem with hold | hnew
    · exact h.known qid' hold
    · rw [List.mem_singleton] at hnew
      subst hnew
      exact hqid
  · obtain ⟨k, hk, hq⟩ := h.right d hd hv
    refine ⟨k, hk, ?_⟩
    rw [hwritten, List.getElem?_append_left (List.getElem?_eq_some_iff.mp hq).1]
    exact hq

/-- What the loop finds when nothing is past its bound: the entries that were written and
not yet dispatched. -/
theorem FirstLap.loop (h : FirstLap v n vector p s)
    (hbound : p = (s.written v).length ∨ (s.written v).length + p ≤ n) :
    ∃ handle : ℕ → ℕ,
      (∀ j qid, (s.written v)[j]? = some qid → (s.dev.descq (handle j)).qidxHw = qid) ∧
        irqLoop (s.ring v) true (s.dev.getDescqById · false) (u32Sub n p - p) p =
          { counter := (s.written v).length
            slots := (List.range ((s.written v).length - p)).map fun j => (p + j, handle (p + j))
            found := true } := by
  obtain ⟨hp, hw⟩ := h.le
  -- a handle for each entry
  have hhandle : ∀ j : ℕ, ∃ q, ∀ qid, (s.written v)[j]? = some qid →
      s.dev.getDescqById qid false = some q ∧ (s.dev.descq q).qidxHw = qid := by
    intro j
    cases hj : (s.written v)[j]? with
    | none => exact ⟨0, fun qid hqid => absurd hqid (by simp)⟩
    | some qid =>
        obtain ⟨q, hq⟩ := h.known qid (List.mem_of_getElem? hj)
        refine ⟨q, fun qid' hqid' => ?_⟩
        cases hqid'
        exact hq
  choose handle hhandle using hhandle
  refine ⟨handle, fun j qid hj => (hhandle j qid hj).2, ?_⟩
  rw [u32Sub_of_le h.size.2 (by omega)]
  have hrun := irqLoop_run (s.ring v) true (s.dev.getDescqById · false) handle
    ((s.written v).length - p) (n - p - p) p (by omega) (fun j hj => ?_) (fun hlt => ?_)
  · rwa [show p + ((s.written v).length - p) = (s.written v).length by omega] at hrun
  · obtain ⟨qid, hqid⟩ : ∃ qid, (s.written v)[p + j]? = some qid :=
      ⟨_, List.getElem?_eq_getElem (by omega)⟩
    rw [h.filled _ qid hqid]
    exact ⟨rfl, (hhandle _ qid hqid).1⟩
  · rw [show p + ((s.written v).length - p) = (s.written v).length by omega,
      h.empty _ le_rfl (by omega)]
    decide

theorem irqTop_written (s : IntrState) (irq : ℕ) : (irqTop s irq).2.written = s.written := by
  unfold irqTop
  cases s.msix.findIdx? (· = irq) with
  | none => rfl
  | some i =>
      dsimp only
      by_cases hen : s.dev.intrCoalEn = true
      · rw [if_pos hen]
        cases s.dev.intrCoalList[i]? with
        | none => rfl
        | some coal =>
            dsimp only
            generalize irqLoop _ _ _ _ _ = r
            by_cases hvec : irq = coal.vecId
            · rw [if_pos hvec]
              by_cases hfound : r.found = true
              · rw [if_pos hfound]
              · rw [if_neg hfound]
            · rw [if_neg hvec]
      · rw [if_neg hen]

/-- The interrupt of the vector. -/
theorem FirstLap.fire (h : FirstLap v n vector p s) (hvector : vector < 2 ^ 16)
    (hbound : p = (s.written v).length ∨ (s.written v).length + p ≤ n) :
    FirstLap v n vector (s.written v).length (irqTop s vector).2 := by
  obtain ⟨hp, hw⟩ := h.le
  obtain ⟨cidx, hcoal⟩ := h.coal
  obtain ⟨handle, hright, hloop⟩ := h.loop hbound
  have hfind : s.msix.findIdx? (· = vector) = some v := by
    obtain ⟨hnodup, hv⟩ := h.msix
    obtain ⟨hlt, hget⟩ := List.getElem?_eq_some_iff.mp hv
    rw [List.findIdx?_eq_some_iff_getElem]
    refine ⟨hlt, by simpa using hget, fun j hj hsame => ?_⟩
    have hjv := (List.Nodup.getElem_inj_iff hnodup).mp
      ((of_decide_eq_true hsame).trans hget.symm)
    omega
  have hmod : vector = vector % 2 ^ 16 := (Nat.mod_eq_of_lt hvector).symm
  unfold irqTop
  rw [hfind]
  dsimp only
  rw [if_pos h.coalEn, hcoal]
  dsimp only
  rw [if_pos hmod, hloop]
  dsimp only
  rw [if_pos rfl]
  have hset : ∀ coal : IntrCoalConf, (s.dev.intrCoalList.set v coal)[v]? = some coal := fun coal =>
    List.getElem?_set_self (List.getElem?_eq_some_iff.mp hcoal).1
  have hslots : ∀ j ∈ List.range ((s.written v).length - p),
      entryIn n (s.written v).length (p + j) = some (p + j) := by
    intro j hj
    exact entryIn_first hw (by have := List.mem_range.mp hj; omega)
  refine ⟨h.msix, h.coalEn, ⟨cidx, hset _⟩, h.size, ⟨le_rfl, hw⟩, h.filled, h.empty, h.known, ?_,
    fun d hd hv => ?_⟩
  · unfold IntrState.dispatched
    dsimp only
    rw [List.filter_append, List.map_append]
    have hold : (s.sched.filter fun d => d.vec = v).map (·.entry) = _ := h.entries
    rw [hold, List.map_map, List.filter_map, List.filter_eq_self.mpr (by simp), List.map_map]
    have hsplit : (List.range (s.written v).length).map some = (List.range p).map some ++
        (List.range ((s.written v).length - p)).map fun j => some (p + j) := by
      rw [← Nat.add_sub_cancel' hp, List.range_add, List.map_append, List.map_map,
        Nat.add_sub_cancel' hp]
      rfl
    rw [hsplit]
    exact congrArg _ (List.map_congr_left hslots)
  · rcases List.mem_append.mp hd with hold | hnew
    · exact h.right d hold hv
    · rw [List.map_map, List.mem_map] at hnew
      obtain ⟨j, hj, rfl⟩ := hnew
      have hlt : p + j < (s.written v).length := by
        have := List.mem_range.mp hj
        omega
      obtain ⟨qid, hqid⟩ : ∃ qid, (s.written v)[p + j]? = some qid :=
        ⟨_, List.getElem?_eq_getElem hlt⟩
      refine ⟨p + j, hslots j hj, ?_⟩
      dsimp only [Function.comp]
      rw [hqid, hright _ qid hqid]

/-- The interrupt of another vector. -/
theorem FirstLap.fire_other (h : FirstLap v n vector p s) {irq : ℕ} (hirq : s.msix[v]? ≠ some irq) :
    FirstLap v n vector p (irqTop s irq).2 := by
  unfold irqTop
  cases hfind : s.msix.findIdx? (· = irq) with
  | none => exact h
  | some i =>
      have hne : i ≠ v := by
        rintro rfl
        obtain ⟨hlt, hget, -⟩ := List.findIdx?_eq_some_iff_getElem.mp hfind
        exact hirq (List.getElem?_eq_some_iff.mpr ⟨hlt, of_decide_eq_true hget⟩)
      -- what is scheduled is another vector's
      have hsched : ∀ ds : List Dispatch, (∀ d ∈ ds, d.vec = i) →
          (s.sched ++ ds).filter (fun d => d.vec = v) = s.sched.filter fun d => d.vec = v := by
        intro ds hds
        have hnil : ds.filter (fun d => d.vec = v) = [] := by
          rw [List.filter_eq_nil_iff]
          intro d hd
          rw [hds d hd]
          simpa using hne
        rw [List.filter_append, hnil, List.append_nil]
      have hmapped : ∀ {α : Type} (f : α → Dispatch) (xs : List α), (∀ x, (f x).vec = i) →
          ∀ d ∈ xs.map f, d.vec = i := by
        intro α f xs hf d hd
        obtain ⟨x, -, rfl⟩ := List.mem_map.mp hd
        exact hf x
      dsimp only
      rw [if_pos h.coalEn]
      split
      · exact h
      · split
        · split
          · exact h.frame rfl rfl (List.getElem?_set_ne hne) rfl rfl rfl rfl
              (hsched _ (hmapped _ _ fun _ => rfl))
          · exact h.frame rfl rfl rfl rfl rfl rfl rfl (hsched _ (hmapped _ _ fun _ => rfl))
        · exact h

/-- A writeback handler moves the ring of the first vector only. -/
theorem FirstLap.service (h : FirstLap v n vector p s) (hv : v ≠ 0) :
    FirstLap v n vector p (intrSys.step s .service) := by
  have hcoal : (coalAdvance s.dev.intrCoalList)[v]? = s.dev.intrCoalList[v]? := by
    obtain ⟨v, rfl⟩ : ∃ k, v = k + 1 := ⟨v - 1, by omega⟩
    cases s.dev.intrCoalList with
    | nil => rfl
    | cons coal rest => rfl
  refine h.frame rfl rfl ?_ rfl rfl rfl rfl rfl
  show (if s.dev.intrCoalEn then coalAdvance s.dev.intrCoalList else s.dev.intrCoalList)[v]? = _
  rw [if_pos h.coalEn]
  exact hcoal

theorem FirstLap.step (h : FirstLap v n vector p s) {e : IntrEv} (he : InFirstLap v s e) :
    ∃ p', FirstLap v n vector p' (intrSys.step s e) := by
  obtain ⟨cidx, hcoal⟩ := h.coal
  match e, he with
  | .write v' qid, he =>
      by_cases hv : v' = v
      · subst hv
        obtain ⟨hcolor, hqid⟩ := he rfl
        exact ⟨p, h.write (hcolor _ hcoal) hqid⟩
      · exact ⟨p, h.write_other hv qid⟩
  | .fire irq, he =>
      by_cases hirq : s.msix[v]? = some irq
      · obtain ⟨hvector, hbound⟩ := he hirq
        rw [h.msix.2] at hirq
        cases hirq
        exact ⟨_, h.fire hvector (hbound _ hcoal)⟩
      · exact ⟨p, h.fire_other hirq⟩
  | .service, he => exact ⟨p, h.service he⟩

end Steps

/-! ## Runs -/

theorem intrRingEntries_bounds (ringSize : ℕ) :
    0 < intrRingEntries ringSize ∧ intrRingEntries ringSize < 2 ^ 32 := by
  unfold intrRingEntries
  split
  · omega
  · omega

theorem firstLap_setup (dev : XlnxDmaDev) {msix : List ℕ} (hmsix : msix.Nodup) (ringSize : ℕ)
    (behind : ℕ → ℕ → QdmaIntrRing) {v vector : ℕ} (hv : msix[v]? = some vector) :
    FirstLap v (intrRingEntries ringSize) vector 0 (intrRingSetup dev msix ringSize behind) where
  msix := ⟨hmsix, hv⟩
  coalEn := rfl
  coal := by
    refine ⟨0, ?_⟩
    show (msix.map _)[v]? = _
    rw [List.getElem?_map, hv]
    rfl
  size := intrRingEntries_bounds ringSize
  le := ⟨le_rfl, Nat.zero_le _⟩
  filled j qid hj := absurd hj (by simp [intrRingSetup])
  empty j _ hj := by
    have hring : (intrRingSetup dev msix ringSize behind).ring v j = _ := if_pos hj
    rw [hring]
  known qid hqid := absurd hqid (by simp [intrRingSetup])
  entries := rfl
  right d hd := absurd hd (by simp [intrRingSetup])

/-- Four queues in each direction and one vector. -/
def coalDev : XlnxDmaDev :=
  { polledDev with
    numVecs := 1
    numVecs_le := by decide
    qmax := 4
    qmax_lt := by decide
    descq := fun q => qdmaDescqInit 0 (q % 4) (q % 4) }

def coalStart : IntrState := intrRingSetup coalDev [33] 0 fun _ _ => { qid := 7, coalColor := true }

end Qdma

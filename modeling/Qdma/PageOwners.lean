import Mathlib.Data.List.ReduceOption
import Qdma.PageLedger

/-!
# Every page has one owner

A slot that loses its page to the receive queue and gets no other keeps address 0 in its
descriptor; a page for which there is no node is lost.  `descq_st_c2h_wb` logs the one and
does not look at the other.  `pages_owned` says that nothing else goes wrong: in every run
in which the passes find the nodes and the pages they ask for (`PagesKept`), each state
has every slot posted and every page in one place.

A start is safe whatever fails, since `fl_fill` meets its first failure with the slots
behind it still empty, where `fl_free` may stop (`flFreeLoop_log`).
-/

namespace Qdma

open Lib

/-! ## One slot -/

theorem flMarks_update (fls : ℕ → FlDesc) (i : ℕ) (fl : FlDesc) (pg : ℕ) :
    flMarks (Function.update fls i fl) pg =
      Function.update (flMarks fls pg) i (decide (fl.pg = some pg)) := by
  funext j
  unfold flMarks
  by_cases hj : j = i
  · subst hj
    rw [Function.update_self, Function.update_self]
  · rw [Function.update_of_ne hj, Function.update_of_ne hj]

/-- The page of a slot is mapped at the slot's address. -/
def FlMapped (l : PageLedger) (fl : FlDesc) : Prop :=
  ∃ pg, fl.pg = some pg ∧ l.mapping pg = some fl.dmaAddr

/-- The first `k` of `n` slots are mapped; what they do not hold of the pages that are out
is held by others. -/
structure FlOwned (l : PageLedger) (fls : ℕ → FlDesc) (n k : ℕ) (others : ℕ → ℕ) : Prop where
  mapped : ∀ i < k, FlMapped l (fls i)
  owned : Owned l.log fun pg => tally (flMarks fls pg) n + others pg

section Refill

variable {l : PageLedger} {page : ℕ → Option (ℕ × Option (BitVec 64))}

theorem refill_log (l : PageLedger) (page : Option (ℕ × Option (BitVec 64))) (fl : FlDesc) :
    (l.refill page fl).log =
      match page with
      | some (pg, some _) => l.log ++ [.take pg]
      | some (pg, none) => l.log ++ [.take pg] ++ [.give pg]
      | none => l.log := by
  unfold PageLedger.refill
  cases fl.pg <;> rcases page with _ | ⟨pg, _ | m⟩ <;> rfl

/-- The mappings of the other pages stay. -/
theorem refill_mapping {pg : ℕ} {m : BitVec 64} (fl : FlDesc) {b : ℕ} (hne : b ≠ pg)
    (hold : fl.pg ≠ some b) : (l.refill (some (pg, some m)) fl).mapping b = l.mapping b := by
  unfold PageLedger.refill
  cases hfl : fl.pg with
  | none => exact Function.update_of_ne hne _ _
  | some old =>
      have hb : b ≠ old := by
        rintro rfl
        exact hold hfl
      exact (Function.update_of_ne hne _ _).trans (Function.update_of_ne hb _ _)

theorem refill_mapping_self (pg : ℕ) (m : BitVec 64) (fl : FlDesc) :
    (l.refill (some (pg, some m)) fl).mapping pg = some m := by
  unfold PageLedger.refill
  cases fl.pg <;> exact Function.update_self _ _ _

/-- The allocator's promise, one call later. -/
theorem FreshFrom.refill {n : ℕ} (h : FreshFrom l page n) (fl : FlDesc) :
    FreshFrom (l.refill (page n) fl) page (n + 1) := by
  intro i pg m hi hpage
  obtain ⟨hout, hno⟩ := h i pg m (by omega) hpage
  refine ⟨fun ho => hout ?_, fun j m' hj => hno j m' (by omega)⟩
  rw [refill_log] at ho
  match hn : page n with
  | none =>
      rw [hn] at ho
      exact ho
  | some (b, none) =>
      rw [hn] at ho
      exact (out_take_give l.log b pg).mp ho
  | some (b, some m') =>
      rw [hn] at ho
      obtain ho | rfl := out_take ho
      · exact ho
      · exact absurd hn (hno n m' le_rfl (by omega))

/-- **A slot gets a new page.**  Its old one, if it has one, is in the hands of others. -/
theorem FlOwned.refill {fls : ℕ → FlDesc} {n k k' i : ℕ} {others others' : ℕ → ℕ}
    (h : FlOwned l fls n k others) (hi : i < n) (hk : k ≤ n) (hk' : ∀ j < k', j < k ∨ j = i)
    {pg : ℕ} {m : BitVec 64} (hfresh : ¬ Out l.log pg) {fl : FlDesc} (hpg : fl.pg = some pg)
    (hdma : fl.dmaAddr = m)
    (hothers : ∀ b, others' b = others b + if (fls i).pg = some b then 1 else 0) :
    FlOwned (l.refill (some (pg, some m)) (fls i)) (Function.update fls i fl) n k' others' where
  mapped j hj := by
    by_cases hji : j = i
    · subst hji
      rw [Function.update_self]
      exact ⟨pg, hpg, (refill_mapping_self pg m _).trans (congrArg some hdma.symm)⟩
    · obtain hjk | hjk := hk' j hj
      · obtain ⟨b, hb, hmap⟩ := h.mapped j hjk
        have hmark : flMarks fls b j = true := decide_eq_true hb
        have hsole := h.owned.sole b
        have hone := tally_pos (hjk.trans_le hk) hmark
        have hout : Out l.log b := (h.owned.out_iff b).mpr (by omega)
        have hne : b ≠ pg := by
          rintro rfl
          exact hfresh hout
        -- two slots with one page would count twice
        have hold : (fls i).pg ≠ some b := by
          intro hib
          have htwo := one_lt_tally (hjk.trans_le hk) hi hji hmark (decide_eq_true hib)
          omega
        rw [Function.update_of_ne hji]
        exact ⟨b, hb, (refill_mapping _ hne hold).trans hmap⟩
      · exact absurd hjk hji
  owned := by
    rw [refill_log]
    refine h.owned.take hfresh fun b => ?_
    have hupd := tally_update (p := flMarks fls b) hi (decide (fl.pg = some b))
    have hmark : (flMarks fls b i).toNat = if (fls i).pg = some b then 1 else 0 := by
      unfold flMarks
      split <;> simp [*]
    have hnew : (decide (fl.pg = some b)).toNat = if pg = b then 1 else 0 := by
      rw [hpg]
      split <;> simp [*]
    rw [← flMarks_update, hmark, hnew] at hupd
    rw [hothers b]
    omega

end Refill

/-! ## Filling and freeing the list -/

theorem flRefillEntry_mapped (pg : ℕ) (m : BitVec 64) (fl : FlDesc) :
    (flRefillEntry (some (pg, some m)) fl).1 = 0 ∧
      (flRefillEntry (some (pg, some m)) fl).2.pg = some pg ∧
      (flRefillEntry (some (pg, some m)) fl).2.dmaAddr = m := by
  unfold flRefillEntry
  split <;> exact ⟨rfl, rfl, rfl⟩

/-- A refill that fails leaves the slot empty. -/
theorem flRefillEntry_fails {page : Option (ℕ × Option (BitVec 64))}
    (h : ∀ pg m, page ≠ some (pg, some m)) (fl : FlDesc) :
    (flRefillEntry page fl).1 < 0 ∧ (flRefillEntry page fl).2.pg = none := by
  have hneg : -enomem < 0 := by decide
  have hpg : (if fl.pg.isSome then { fl with pg := none, dmaAddr := 0 } else fl).pg = none := by
    cases hfl : fl.pg with
    | none => rw [if_neg (by decide)]; exact hfl
    | some b => rfl
  unfold flRefillEntry
  match page with
  | none => exact ⟨hneg, hpg⟩
  | some (pg, none) => exact ⟨hneg, hpg⟩
  | some (pg, some m) => exact absurd rfl (h pg m)

/-- Behind an empty slot all slots are empty. -/
def Compact (fls : ℕ → FlDesc) (n : ℕ) : Prop :=
  ∀ i j, i ≤ j → j < n → (fls i).pg = none → (fls j).pg = none

/-- **`fl_free` frees what is there**, if it stops at nothing but the end. -/
theorem flFreeLoop_log {fls : ℕ → FlDesc} {m : ℕ} (h : Compact fls m) :
    ∀ (n i : ℕ) (l : PageLedger), i + n ≤ m → ∃ pgs : List ℕ,
      (flFreeLoop fls n i l).log = l.log ++ pgs.map .give ∧
        ∀ b, pgs.count b + tally (flMarks fls b) i = tally (flMarks fls b) (i + n) := by
  intro n
  induction n with
  | zero => intro i l _; exact ⟨[], (List.append_nil _).symm, fun b => Nat.zero_add _⟩
  | succ n ih =>
      intro i l hm
      unfold flFreeLoop
      cases hpg : (fls i).pg with
      | none =>
          refine ⟨[], (List.append_nil _).symm, fun b => ?_⟩
          rw [tally_add_of_false fun j hij hj => ?_]
          · exact Nat.zero_add _
          · unfold flMarks
            rw [h i j hij (hj.trans_le hm) hpg]
            rfl
      | some pg =>
          obtain ⟨pgs, hlog, hcount⟩ := ih (i + 1) ((l.dmaUnmapPage pg).freePages pg)
            (by omega)
          refine ⟨pg :: pgs, ?_, fun b => ?_⟩
          · rw [hlog]
            exact List.append_assoc l.log [.give pg] (pgs.map .give)
          · have hb := hcount b
            rw [tally_succ] at hb
            have hmark : (flMarks fls b i).toNat = if pg = b then 1 else 0 := by
              unfold flMarks
              rw [hpg]
              split <;> simp [*]
            rw [hmark] at hb
            rw [List.count_cons]
            simp only [beq_iff_eq]
            rw [show i + (n + 1) = i + 1 + n by omega]
            omega

/-- The list at entry `i` of `fl_fill`. -/
structure Filling (page : ℕ → Option (ℕ × Option (BitVec 64))) (n i : ℕ) (fls : ℕ → FlDesc)
    (l : PageLedger) (others : ℕ → ℕ) : Prop where
  slots : FlOwned l fls n i others
  given : ∀ j < i, ∃ pg m, page j = some (pg, some m) ∧ (fls j).dmaAddr = m
  empty : ∀ j, i ≤ j → (fls j).pg = none
  fresh : FreshFrom l page i

section Fill

variable {page : ℕ → Option (ℕ × Option (BitVec 64))} {n i : ℕ} {fls : ℕ → FlDesc}
  {l : PageLedger} {others : ℕ → ℕ}

theorem Filling.next (h : Filling page n i fls l others) (hi : i < n) {pg : ℕ} {m : BitVec 64}
    (hpage : page i = some (pg, some m)) :
    Filling page n (i + 1) (Function.update fls i (flRefillEntry (page i) (fls i)).2)
      (l.refill (page i) (fls i)) others := by
  obtain ⟨-, hpg, hdma⟩ := flRefillEntry_mapped pg m (fls i)
  have hfresh := h.fresh.refill (fls i)
  rw [hpage] at hfresh ⊢
  refine ⟨?_, ?_, ?_, hfresh⟩
  · refine h.slots.refill hi hi.le (fun j hj => by omega) (h.fresh i pg (some m) le_rfl hpage).1
      hpg hdma fun b => ?_
    rw [h.empty i le_rfl, if_neg (by simp)]
    rfl
  · intro j hj
    by_cases hji : j = i
    · subst hji
      rw [Function.update_self]
      exact ⟨pg, m, hpage, hdma⟩
    · rw [Function.update_of_ne hji]
      exact h.given j (by omega)
  · intro j hj
    rw [Function.update_of_ne (by omega)]
    exact h.empty j (by omega)

/-- The first failure: every page taken is in a slot before this one. -/
theorem Filling.fails (h : Filling page n i fls l others)
    (hpage : ∀ pg m, page i ≠ some (pg, some m)) :
    Compact (Function.update fls i (flRefillEntry (page i) (fls i)).2) n ∧
      Owned (l.refill (page i) (fls i)).log fun pg =>
        tally (flMarks (Function.update fls i (flRefillEntry (page i) (fls i)).2) pg) n +
          others pg := by
  obtain ⟨-, hnone⟩ := flRefillEntry_fails hpage (fls i)
  have hsame : ∀ pg, flMarks (Function.update fls i (flRefillEntry (page i) (fls i)).2) pg =
      flMarks fls pg := by
    intro pg
    have hi : decide ((flRefillEntry (page i) (fls i)).2.pg = some pg) = flMarks fls pg i := by
      unfold flMarks
      rw [hnone, h.empty i le_rfl]
    rw [flMarks_update, hi, Function.update_eq_self]
  refine ⟨?_, ?_⟩
  · have hpg : ∀ j, (Function.update fls i (flRefillEntry (page i) (fls i)).2 j).pg =
        (fls j).pg := by
      intro j
      by_cases hji : j = i
      · subst hji
        rw [Function.update_self, hnone, h.empty j le_rfl]
      · rw [Function.update_of_ne hji]
    intro j j' hjj _ hj
    rw [hpg] at hj ⊢
    by_cases hlt : j < i
    · obtain ⟨pg, hmapped, -⟩ := h.slots.mapped j hlt
      rw [hj] at hmapped
      cases hmapped
    · exact h.empty j' (by omega)
  · simp only [hsame]
    rw [refill_log]
    match hp : page i with
    | none => exact h.slots.owned
    | some (pg, none) => exact h.slots.owned.take_give pg
    | some (pg, some m) => exact absurd hp (hpage pg m)

/-- **`fl_fill`, up to its end or its first failure.** -/
theorem flFill_watch :
    ∀ (k i : ℕ) (fls : ℕ → FlDesc) (l : PageLedger), i + k = n → Filling page n i fls l others →
      (∀ fls', flFillLoop page k i fls = some fls' →
        Filling page n n fls' (flFillWatch page k i fls l).2 others) ∧
      (flFillLoop page k i fls = none →
        Compact (flFillWatch page k i fls l).1 n ∧
          Owned (flFillWatch page k i fls l).2.log fun pg =>
            tally (flMarks (flFillWatch page k i fls l).1 pg) n + others pg) := by
  intro k
  induction k with
  | zero =>
      intro i fls l hk h
      have hin : i = n := by omega
      subst hin
      refine ⟨?_, fun hnone => by cases hnone⟩
      intro fls' hfls
      cases hfls
      exact h
  | succ k ih =>
      intro i fls l hk h
      unfold flFillLoop flFillWatch
      dsimp only
      by_cases hpage : ∃ pg m, page i = some (pg, some m)
      · obtain ⟨pg, m, hpage⟩ := hpage
        have hzero := (flRefillEntry_mapped pg m (fls i)).1
        rw [← hpage] at hzero
        rw [if_neg (by omega), if_neg (by omega)]
        exact ih (i + 1) _ _ (by omega) (h.next (by omega) hpage)
      · have hno : ∀ pg m, page i ≠ some (pg, some m) := fun pg m hp => hpage ⟨pg, m, hp⟩
        have hneg := (flRefillEntry_fails hno (fls i)).1
        rw [if_pos hneg, if_pos hneg]
        exact ⟨fun fls' hfls => by (cases hfls), fun _ => h.fails hno⟩

end Fill

/-- The list before `fl_fill` comes to its first entry. -/
theorem filling_zero {l : PageLedger} {page : ℕ → Option (ℕ × Option (BitVec 64))}
    {others : ℕ → ℕ} (h : Owned l.log others) (hfresh : FreshFrom l page 0) (n : ℕ) :
    Filling page n 0 (fun _ => FlDesc.zero) l others := by
  refine ⟨⟨fun i hi => absurd hi (Nat.not_lt_zero i), h.congr fun pg => ?_⟩,
    fun i hi => absurd hi (Nat.not_lt_zero i), fun _ _ => rfl, hfresh⟩
  have hzero : tally (flMarks (fun _ => FlDesc.zero) pg) n = 0 := tally_eq_zero fun i _ => rfl
  rw [hzero]
  exact Nat.zero_add _

/-- **`fl_fill` gives every entry a page** ... -/
theorem flFill_some {al : RingAllocs} {n : ℕ} {fls : ℕ → FlDesc} {l : PageLedger}
    {others : ℕ → ℕ} (hfls : flFill al n = some fls) (h : Owned l.log others)
    (hfresh : FreshFrom l al.page 0) :
    al.fl = true ∧ Filling al.page n n fls (flFillLedger al n l) others := by
  unfold flFillLedger
  rw [hfls]
  unfold flFill at hfls
  cases hal : al.fl with
  | false =>
      rw [hal] at hfls
      cases hfls
  | true =>
      rw [hal, if_pos rfl] at hfls
      have hfill := (flFill_watch n 0 _ l (Nat.zero_add n) (filling_zero h hfresh n)).1 fls hfls
      exact ⟨rfl, hfill⟩

/-- ... or none. -/
theorem flFill_none {al : RingAllocs} {n : ℕ} {l : PageLedger} {others : ℕ → ℕ}
    (hfls : flFill al n = none) (h : Owned l.log others) (hfresh : FreshFrom l al.page 0) :
    Owned (flFillLedger al n l).log others := by
  unfold flFillLedger
  rw [hfls]
  unfold flFill at hfls
  cases hal : al.fl with
  | false => exact h
  | true =>
      rw [hal, if_pos rfl] at hfls
      obtain ⟨hcompact, hown⟩ :=
        (flFill_watch n 0 _ l (Nat.zero_add n) (filling_zero h hfresh n)).2 hfls
      obtain ⟨pgs, hlog, hcount⟩ := flFreeLoop_log hcompact n 0
        (flFillWatch al.page n 0 (fun _ => FlDesc.zero) l).2 (Nat.zero_add n).le
      have hfree : (flFreeLoop _ n 0 _).log = _ := hlog
      simp only [if_true, Option.isSome_none, Bool.false_eq_true, if_false, flFreeLedger]
      rw [hfree]
      refine hown.gives fun pg => ?_
      have hpg := hcount pg
      rw [tally_zero, Nat.zero_add] at hpg
      omega

/-! ## Releasing a queue -/

theorem count_reduceOption (pgs : List (Option ℕ)) (pg : ℕ) :
    pgs.reduceOption.count pg = pgs.count (some pg) := by
  induction pgs with
  | nil => rfl
  | cons a pgs ih =>
      cases a with
      | none =>
          rw [List.reduceOption_cons_of_none, ih, List.count_cons_of_ne (by simp)]
      | some b =>
          rw [List.reduceOption_cons_of_some, List.count_cons, List.count_cons, ih]
          simp

/-- Received pages are freed. -/
theorem owned_freeAll {l : PageLedger} {held held' : ℕ → ℕ} (h : Owned l.log held)
    {pgs : List (Option ℕ)} (heq : ∀ pg, held' pg + pgs.count (some pg) = held pg) :
    Owned (l.freeAll pgs).log held' := by
  refine h.gives fun pg => ?_
  rw [count_reduceOption]
  exact heq pg

theorem inFl_eq {d : QdmaDescq} {fls : ℕ → FlDesc} (h : d.stRxFl = some fls) (pg : ℕ) :
    d.inFl pg = tally (flMarks fls pg) d.conf.rngsz := by
  unfold QdmaDescq.inFl
  rw [h]

theorem inFl_none {d : QdmaDescq} (h : d.stRxFl = none) (pg : ℕ) : d.inFl pg = 0 := by
  unfold QdmaDescq.inFl
  rw [h]

theorem inRxq_nil {d : QdmaDescq} (h : d.rxQueue.rx = []) (pg : ℕ) : d.inRxq pg = 0 := by
  unfold QdmaDescq.inRxq
  rw [h]
  rfl

/-- What `qdma_descq_free_resource` leaves on the receive queue. -/
theorem freeResource_rx {d : QdmaDescq} (h : d.rxQueue.dlen = 0 → d.rxQueue.rx = []) :
    (qdmaDescqFreeResource d).rxQueue.rx = [] := by
  unfold qdmaDescqFreeResource
  dsimp only
  split
  · rename_i hzero
    exact h hzero
  · rfl

/-- **Everything is released** if the free list is compact and the byte count knows of the
pages. -/
theorem owned_freeResource {d : QdmaDescq} {l : PageLedger}
    (h : Owned l.log fun pg => d.inFl pg + d.inRxq pg)
    (hfl : ∀ fls, d.stRxFl = some fls → Compact fls d.conf.rngsz)
    (hrx : d.rxQueue.dlen = 0 → d.rxQueue.rx = []) :
    Owned (freeResourceLedger d l).log fun _ => 0 := by
  have hlist : Owned (flFreeLedger d.conf.rngsz d.stRxFl l).log d.inRxq := by
    unfold flFreeLedger
    cases hfls : d.stRxFl with
    | none => exact h.congr fun pg => by rw [inFl_none hfls, Nat.zero_add]
    | some fls =>
        obtain ⟨pgs, hlog, hcount⟩ := flFreeLoop_log (hfl fls hfls) d.conf.rngsz 0 l
          (Nat.zero_add _).le
        dsimp only
        rw [hlog]
        refine h.gives fun pg => ?_
        have hpg := hcount pg
        rw [tally_zero, Nat.zero_add, Nat.add_zero] at hpg
        rw [inFl_eq hfls]
        omega
  unfold freeResourceLedger
  dsimp only
  split
  · rename_i hzero
    exact hlist.congr fun pg => (inRxq_nil (hrx hzero) pg).symm
  · exact owned_freeAll hlist fun pg => Nat.zero_add _

/-! ## A queue with its rings -/

/-- The queue is up: every slot has its page and its descriptor, and whatever is out is in
a slot or on the receive queue. -/
structure PagesUp (d : QdmaDescq) (l : PageLedger) : Prop where
  kind : d.isStC2h = true
  inited : d.inited = true
  pidx : d.pidx < d.conf.rngsz
  rngsz : d.conf.rngsz < 2 ^ 32
  slots : ∃ ring fls, d.desc = some ring ∧ d.stRxFl = some fls ∧
    ∀ i < d.conf.rngsz, FlMapped l (fls i) ∧ (fls i).dmaAddr ≠ 0 ∧
      (ring.slots i).dstAddr = (fls i).dmaAddr
  owned : Owned l.log fun pg => d.inFl pg + d.inRxq pg
  rx : ∀ n ∈ d.rxQueue.rx, n.Ok

/-- The queue is down: it has no rings and no pages, and none is out. -/
structure PagesDown (d : QdmaDescq) (l : PageLedger) : Prop where
  kind : d.isStC2h = true
  inited : d.inited = false
  pidx : d.pidx < d.conf.rngsz
  rngsz : d.conf.rngsz < 2 ^ 32
  desc : d.desc = none
  fl : d.stRxFl = none
  wrb : d.descWrb = none
  rx : d.rxQueue.rx = []
  owned : Owned l.log fun _ => 0

/-- `d'` is `d` as far as the pages go. -/
structure SameOwners (d d' : QdmaDescq) : Prop where
  conf : d'.conf = d.conf
  inited : d'.inited = d.inited
  desc : d'.desc = d.desc
  fl : d'.stRxFl = d.stRxFl
  rx : d'.rxQueue.rx = d.rxQueue.rx

theorem SameOwners.inFl {d d' : QdmaDescq} (h : SameOwners d d') (pg : ℕ) :
    d'.inFl pg = d.inFl pg := by
  unfold QdmaDescq.inFl
  rw [h.fl, h.conf]

theorem SameOwners.inRxq {d d' : QdmaDescq} (h : SameOwners d d') (pg : ℕ) :
    d'.inRxq pg = d.inRxq pg := by
  unfold QdmaDescq.inRxq
  rw [h.rx]

theorem SameOwners.trans {d d' d'' : QdmaDescq} (h : SameOwners d d') (h' : SameOwners d' d'') :
    SameOwners d d'' :=
  ⟨h'.conf.trans h.conf, h'.inited.trans h.inited, h'.desc.trans h.desc, h'.fl.trans h.fl,
    h'.rx.trans h.rx⟩

theorem sameOwners_checkRx (x : Xfer) :
    SameOwners x.descq (checkRxRequestCompleted x).descq := by
  have h := sameRing_checkRxLoop x.descq.pendList x.descq.rxQueue.dlen x
  unfold checkRxRequestCompleted
  rw [h]
  exact ⟨rfl, rfl, rfl, rfl, rfl⟩

theorem PagesUp.of_same {d d' : QdmaDescq} {l : PageLedger} (h : PagesUp d l)
    (hs : SameOwners d d') (hpidx : d'.pidx < d.conf.rngsz) : PagesUp d' l where
  kind := by
    unfold QdmaDescq.isStC2h
    rw [hs.conf]
    exact h.kind
  inited := hs.inited.trans h.inited
  pidx := by rw [hs.conf]; exact hpidx
  rngsz := by rw [hs.conf]; exact h.rngsz
  slots := by
    rw [hs.desc, hs.fl, hs.conf]
    exact h.slots
  owned := h.owned.congr fun pg => by rw [hs.inFl, hs.inRxq]
  rx := by rw [hs.rx]; exact h.rx

theorem PagesDown.of_same {d d' : QdmaDescq} {l : PageLedger} (h : PagesDown d l)
    (hs : SameOwners d d') (hpidx : d'.pidx = d.pidx) (hwrb : d'.descWrb = none) :
    PagesDown d' l where
  kind := by
    unfold QdmaDescq.isStC2h
    rw [hs.conf]
    exact h.kind
  inited := hs.inited.trans h.inited
  pidx := by rw [hs.conf, hpidx]; exact h.pidx
  rngsz := by rw [hs.conf]; exact h.rngsz
  desc := hs.desc.trans h.desc
  fl := hs.fl.trans h.fl
  wrb := hwrb
  rx := hs.rx.trans h.rx
  owned := h.owned

/-! ## One page of a pass -/

theorem pageAddr_eq_some {page : Option (ℕ × Option (BitVec 64))} {m : BitVec 64} :
    pageAddr page = some m ↔ ∃ pg, page = some (pg, some m) := by
  unfold pageAddr
  rw [Option.bind_eq_some_iff]
  constructor
  · rintro ⟨⟨pg, _⟩, hpage, rfl⟩
    exact ⟨pg, hpage⟩
  · rintro ⟨pg, hpage⟩
    exact ⟨(pg, some m), hpage, rfl⟩

/-- A pass in progress. -/
structure PassOwned (al : RxAllocs) (p : StC2hPass) (l : PageLedger) : Prop where
  up : PagesUp p.x.descq l
  slot : p.pidx < p.x.descq.conf.rngsz
  fresh : FreshFrom l al.page p.pages

theorem rxPut_rx (q : StRxQueue) (n : StRxData) : (rxPut true q n).rx = q.rx ++ [n] := by
  unfold rxPut
  rw [if_pos rfl, rxqEnqueueTail_mk]

/-- **A page changes hands**: the slot's page goes to the receive queue, and a new one is
posted in its place. -/
theorem PassOwned.page {al : RxAllocs} {p : StC2hPass} {l : PageLedger} (h : PassOwned al p l)
    {fls : ℕ → FlDesc} (hfls : p.x.descq.stRxFl = some fls) (hkmalloc : al.kmalloc p.kmallocs = true)
    (hpage : PageMapped (al.page p.pages)) {len : ℕ} (hlen : 0 < len) (udd : Bool) :
    PassOwned al (stC2hPage al fls len udd p) (l.refill (al.page p.pages) (fls p.pidx)) := by
  obtain ⟨m, haddr, hm⟩ := hpage
  obtain ⟨pg, hpage⟩ := pageAddr_eq_some.mp haddr
  obtain ⟨ring, fls', hring, hfls', hslots⟩ := h.up.slots
  obtain rfl : fls = fls' := Option.some.inj (hfls.symm.trans hfls')
  have hpos : 0 < p.x.descq.conf.rngsz := (Nat.zero_le _).trans_lt h.slot
  have hnext := nextSlot_eq h.slot h.up.rngsz
  have hrefilled : (refilled al (fls p.pidx) len p.pages).pg = some pg ∧
      (refilled al (fls p.pidx) len p.pages).dmaAddr = m := by
    unfold refilled
    rw [hpage]
    exact (flRefillEntry_mapped pg m _).2
  have hfresh := h.fresh.refill (fls p.pidx)
  have hbefore : FlOwned l fls p.x.descq.conf.rngsz p.x.descq.conf.rngsz p.x.descq.inRxq :=
    ⟨fun i hi => (hslots i hi).1, h.up.owned.congr fun b => by rw [inFl_eq hfls]⟩
  -- the page handed over counts as the receive queue's from here on
  have hslot : FlOwned (l.refill (some (pg, some m)) (fls p.pidx))
      (Function.update fls p.pidx (refilled al (fls p.pidx) len p.pages))
      p.x.descq.conf.rngsz p.x.descq.conf.rngsz
      fun b => p.x.descq.inRxq b + if (fls p.pidx).pg = some b then 1 else 0 :=
    hbefore.refill h.slot le_rfl (fun j hj => Or.inl hj)
      (h.fresh p.pages pg (some m) le_rfl hpage).1 hrefilled.1 hrefilled.2 fun b => rfl
  rw [hpage] at hfresh ⊢
  rw [stC2hPage_eq al fls len udd p hring, hkmalloc]
  refine ⟨⟨h.up.kind, h.up.inited, h.up.pidx, h.up.rngsz, ?_, ?_, ?_⟩, ?_, hfresh⟩
  · refine ⟨_, _, rfl, rfl, fun i hi => ⟨hslot.mapped i hi, ?_⟩⟩
    by_cases hi' : i = p.pidx
    · subst hi'
      simp only [DescRing.setDst, Function.update_self]
      rw [hrefilled.2]
      exact ⟨hm, trivial⟩
    · simp only [DescRing.setDst, Function.update_of_ne hi']
      exact (hslots i hi).2
  · refine hslot.owned.congr fun b => ?_
    have hmark : (if (fls p.pidx).pg = some b then 1 else 0) =
        [(fls p.pidx).pg].count (some b) := by
      rw [List.count_singleton]
      simp only [beq_iff_eq]
    rw [inFl_eq rfl, hmark]
    unfold QdmaDescq.inRxq
    dsimp only
    rw [rxPut_rx, List.map_append, List.count_append]
    rfl
  · intro n hn
    dsimp only at hn
    rw [rxPut_rx] at hn
    obtain hn | hn := List.mem_append.mp hn
    · exact h.up.rx n hn
    · rw [List.mem_singleton.mp hn]
      exact rxNode_ok _ hlen udd
  · dsimp only
    rw [hnext]
    exact Nat.mod_lt _ hpos

theorem stC2hPage_counters (al : RxAllocs) (fls : ℕ → FlDesc) (len : ℕ) (udd : Bool)
    (p : StC2hPass) : (stC2hPage al fls len udd p).kmallocs = p.kmallocs + 1 ∧
      (stC2hPage al fls len udd p).pages = p.pages + 1 := by
  unfold stC2hPage
  dsimp only
  rw [descqStC2hRxData_eq]
  exact ⟨rfl, rfl⟩

/-- The pages of an entry. -/
theorem PassOwned.pages {al : RxAllocs} :
    ∀ (n len : ℕ) (udd : Bool) {p : StC2hPass} {l : PageLedger}, pagesOf len = n →
      PassOwned al p l → PagesGranted al p.kmallocs p.pages n →
      PassOwned al (stC2hPages al n len udd p) (pagesLedger al n len udd p l) := by
  intro n
  induction n with
  | zero => intro len udd p l _ h _; exact h
  | succ n ih =>
      intro len udd p l hn h hgranted
      obtain ⟨hlen, hrest⟩ := pagesOf_succ hn
      obtain ⟨ring, fls, -, hfls, -⟩ := h.up.slots
      obtain ⟨hkmalloc, hpage⟩ := hgranted 0 (Nat.succ_pos n)
      obtain ⟨hk, hm⟩ := stC2hPage_counters al fls len udd p
      have hone := h.page hfls hkmalloc hpage hlen udd
      rw [stC2hPages_succ hfls]
      unfold pagesLedger
      rw [hfls]
      refine ih _ false hrest hone fun i hi => ?_
      rw [hk, hm, Nat.add_assoc, Nat.add_assoc, Nat.add_comm 1 i]
      exact hgranted (i + 1) (Nat.succ_lt_succ hi)

/-! ## A whole pass -/

theorem PassOwned.setRxq {al : RxAllocs} {p : StC2hPass} {l : PageLedger}
    (h : PassOwned al p l) {rxq : StRxQueue} (hrx : rxq.rx = p.x.descq.rxQueue.rx) (k : ℕ) :
    PassOwned al ({ p with kmallocs := k }.setRxq rxq) l :=
  ⟨h.up.of_same ⟨rfl, rfl, rfl, rfl, hrx⟩ h.up.pidx, h.slot, h.fresh⟩

/-- Queueing user-defined data moves no page. -/
theorem PassOwned.withUdd {al : RxAllocs} {p : StC2hPass} {l : PageLedger}
    (h : PassOwned al p l) (ring : WrbRing) : PassOwned al (withUdd ring p) l := by
  unfold Qdma.withUdd
  by_cases hen : p.x.descq.stC2hWrbUddEn = true
  · rw [if_pos hen, uddEnqueueTail_mk]
    exact h.setRxq (rx_mk _ _ _) _
  · rw [if_neg hen]
    exact h

theorem setRxq_pages (p : StC2hPass) (rxq : StRxQueue) : (p.setRxq rxq).pages = p.pages := rfl

theorem withUdd_pages (ring : WrbRing) (p : StC2hPass) : (withUdd ring p).pages = p.pages := by
  unfold withUdd
  by_cases hen : p.x.descq.stC2hWrbUddEn = true
  · rw [if_pos hen]
    exact setRxq_pages { p with kmallocs := p.kmallocs + 2 } _
  · rw [if_neg hen]

/-- Nor does `wrb_next`. -/
theorem PassOwned.next {al : RxAllocs} {p : StC2hPass} {l : PageLedger}
    (h : PassOwned al p l) : PassOwned al p.next l := by
  have hsame : SameOwners p.x.descq (wrbNext p.x.descq) ∧
      (wrbNext p.x.descq).pidx = p.x.descq.pidx := by
    unfold wrbNext
    split <;> exact ⟨⟨rfl, rfl, rfl, rfl, rfl⟩, rfl⟩
  obtain ⟨hs, hpidx⟩ := hsame
  refine ⟨h.up.of_same hs ?_, ?_, h.fresh⟩
  · change (wrbNext p.x.descq).pidx < _
    rw [hpidx]
    exact h.up.pidx
  · change p.pidx < (wrbNext p.x.descq).conf.rngsz
    rw [hs.conf]
    exact h.slot

/-- The loop over the entries. -/
theorem PassOwned.entries {al : RxAllocs} :
    ∀ (budget : ℕ) {p : StC2hPass} {l : PageLedger}, PassOwned al p l →
      EntriesGranted al budget p →
      PassOwned al (stC2hEntries al budget p).2 (entriesLedger al budget p l) := by
  intro budget
  induction budget with
  | zero => intro p l h _; exact h
  | succ budget ih =>
      intro p l h hgranted
      unfold EntriesGranted at hgranted
      unfold entriesLedger
      cases hring : p.x.descq.descWrb with
      | none =>
          unfold stC2hEntries
          rw [hring]
          exact ⟨h.up.of_same ⟨rfl, rfl, rfl, rfl, rfl⟩ h.up.pidx, h.slot, h.fresh⟩
      | some ring =>
          rw [stC2hEntries_succ al hring]
          dsimp only
          cases hudd : uddFails al p with
          | true => exact h
          | false =>
              cases herr : ring.entryErr p.x.descq.descWrbCur with
              | true => exact h.withUdd ring
              | false =>
                  have hentry := hgranted ring hring
                  rw [hudd, herr] at hentry
                  obtain hfails | ⟨hpages, hlater⟩ := hentry
                  · cases hfails
                  · have hone := (h.withUdd ring).pages
                      (pagesOf (ring.entryLen p.x.descq.descWrbCur))
                      (ring.entryLen p.x.descq.descWrbCur) p.x.descq.stC2hWrbUddEn rfl
                      (by rw [withUdd_pages]; exact hpages)
                    exact ih hone.next hlater

/-- **A pass keeps the pages** where they were found. -/
theorem PagesUp.serviceWb {al : RxAllocs} {x : Xfer} {l : PageLedger} (h : PagesUp x.descq l)
    (hfresh : FreshFrom l al.page 0)
    (hgranted : ∀ ring, x.descq.descWrb = some ring →
      EntriesGranted al (stC2hBudget { x.descq with pidxWrb := ring.wbPidx })
        (passStart ring x)) :
    PagesUp (descqStC2hWb al x).2.descq (passLedger al x l) := by
  unfold passLedger
  cases hring : x.descq.descWrb with
  | none =>
      unfold descqStC2hWb
      rw [hring]
      exact h.of_same ⟨rfl, rfl, rfl, rfl, rfl⟩ h.pidx
  | some ring =>
      have hstart : PassOwned al (passStart ring x) l :=
        ⟨h.of_same ⟨rfl, rfl, rfl, rfl, rfl⟩ h.pidx, h.pidx, hfresh⟩
      have hloop := hstart.entries _ (hgranted ring hring)
      rw [descqStC2hWb_ring al hring]
      generalize stC2hEntries al _ (passStart ring x) = r at hloop ⊢
      obtain ⟨rv, p⟩ := r
      cases rv with
      | some rv => exact hloop.up
      | none =>
          dsimp only
          split
          · exact hloop.up
          · -- the end of the pass writes the producer index and no page
            generalize (if p.pidx = 0 then p.x.descq.conf.rngsz - 1 else p.pidx - 1) = last
            obtain ⟨coal, mmio, hcoal⟩ := intrCoalAdvance_eq
              { p.x with
                descq := { p.x.descq with pidx := p.pidx }
                mmio := p.x.mmio ++ [descqPidxUpdate { p.x.descq with pidx := p.pidx } last,
                  descqWrbCidxUpdate { p.x.descq with pidx := p.pidx } p.x.descq.cidxWrb] }
            rw [hcoal]
            generalize hz : ({ p.x with
              descq := { p.x.descq with pidx := p.pidx }
              intrCoalList := coal
              mmio := mmio } : Xfer) = z
            have hzd : z.descq = { p.x.descq with pidx := p.pidx } := by rw [← hz]
            have hsame : SameOwners p.x.descq z.descq := by
              rw [hzd]
              exact ⟨rfl, rfl, rfl, rfl, rfl⟩
            refine hloop.up.of_same (hsame.trans (sameOwners_checkRx z)) ?_
            rw [pidx_checkRx, hzd]
            exact hloop.slot

/-! ## Reads, stops and starts -/

/-- A page that leaves the receive queue is freed. -/
theorem PagesUp.read {s : PageRun} (h : PagesUp s.x.descq s.ledger)
    (mem : Option ℕ → ℕ → BitVec 8) (lens : List ℕ) :
    PagesUp (s.read mem lens).x.descq (s.read mem lens).ledger := by
  obtain ⟨hpages, hok⟩ := pages_read mem h.rx s.x.descq.stC2hWrbUddEn lens
  refine ⟨h.kind, h.inited, h.pidx, h.rngsz, h.slots, ?_, hok⟩
  refine owned_freeAll h.owned fun pg => ?_
  have hcount := congrArg (List.count (some pg)) hpages
  rw [List.count_append] at hcount
  change s.x.descq.inFl pg + QdmaDescq.inRxq _ pg + _ = s.x.descq.inFl pg + s.x.descq.inRxq pg
  unfold QdmaDescq.inRxq
  rw [← hcount]
  exact Nat.add_right_comm _ _ _ |>.trans (Nat.add_assoc _ _ _)

theorem PagesDown.read {s : PageRun} (h : PagesDown s.x.descq s.ledger)
    (mem : Option ℕ → ℕ → BitVec 8) (lens : List ℕ) :
    PagesDown (s.read mem lens).x.descq (s.read mem lens).ledger := by
  have hrx : ∀ n ∈ s.x.descq.rxQueue.rx, n.Ok := by
    intro n hn
    rw [h.rx] at hn
    cases hn
  obtain ⟨hpages, -⟩ := pages_read mem hrx s.x.descq.stC2hWrbUddEn lens
  rw [h.rx, List.map_nil, List.append_eq_nil_iff] at hpages
  refine ⟨h.kind, h.inited, h.pidx, h.rngsz, h.desc, h.fl, h.wrb,
    List.map_eq_nil_iff.mp hpages.2, ?_⟩
  refine owned_freeAll h.owned fun pg => ?_
  rw [hpages.1]
  rfl

/-- **A queue that is released is down.** -/
theorem pagesDown_freeResource {d : QdmaDescq} {l : PageLedger} (hkind : d.isStC2h = true)
    (hpidx : d.pidx < d.conf.rngsz) (hrngsz : d.conf.rngsz < 2 ^ 32)
    (hrx : d.rxQueue.dlen = 0 → d.rxQueue.rx = []) (howned : Owned l.log fun _ => 0)
    (online : Bool) :
    PagesDown { qdmaDescqFreeResource d with online := online, inited := false } l :=
  ⟨hkind, rfl, hpidx, hrngsz, rfl, rfl, rfl, freeResource_rx hrx, howned⟩

theorem PagesUp.stop {s : PageRun} (h : PagesUp s.x.descq s.ledger)
    (hrx : s.x.descq.rxQueue.dlen = 0 → s.x.descq.rxQueue.rx = []) :
    PagesDown s.stop.x.descq s.stop.ledger := by
  refine pagesDown_freeResource h.kind h.pidx h.rngsz hrx ?_ false
  refine owned_freeResource h.owned (fun fls hfls i j hij hj hnone => ?_) hrx
  obtain ⟨ring, fls', -, hfls', hslots⟩ := h.slots
  obtain rfl : fls = fls' := Option.some.inj (hfls.symm.trans hfls')
  obtain ⟨pg, hpg, -⟩ := (hslots i (hij.trans_lt hj)).1
  rw [hnone] at hpg
  cases hpg

/-- Nothing is left to release. -/
theorem owned_freeResource_none {d : QdmaDescq} {l : PageLedger} (hfl : d.stRxFl = none)
    (hrx : d.rxQueue.rx = []) (howned : Owned l.log fun _ => 0) :
    Owned (freeResourceLedger d l).log fun _ => 0 := by
  refine owned_freeResource (howned.congr fun pg => ?_) (fun fls hfls => ?_) fun _ => hrx
  · rw [inFl_none hfl, inRxq_nil hrx]
  · rw [hfl] at hfls
    cases hfls

theorem PagesDown.stop {s : PageRun} (h : PagesDown s.x.descq s.ledger) :
    PagesDown s.stop.x.descq s.stop.ledger :=
  pagesDown_freeResource h.kind h.pidx h.rngsz (fun _ => h.rx)
    (owned_freeResource_none h.fl h.rx h.owned) false

/-- A filled list is compact. -/
theorem Filling.freeResource {page : ℕ → Option (ℕ × Option (BitVec 64))} {fls : ℕ → FlDesc}
    {l : PageLedger} {d : QdmaDescq} (hfl : d.stRxFl = some fls) (hrx : d.rxQueue.rx = [])
    (hfill : Filling page d.conf.rngsz d.conf.rngsz fls l fun _ => 0) :
    Owned (freeResourceLedger d l).log fun _ => 0 := by
  refine owned_freeResource (hfill.slots.owned.congr fun pg => ?_)
    (fun fls' hfls' i j hij hj hnone => ?_) fun _ => hrx
  · rw [inFl_eq hfl, inRxq_nil hrx]
  · obtain rfl : fls = fls' := Option.some.inj (hfl.symm.trans hfls')
    obtain ⟨pg, hpg, -⟩ := hfill.slots.mapped i (hij.trans_lt hj)
    rw [hnone] at hpg
    cases hpg

section Start

variable {s : PageRun} {al : RingAllocs} (h : PagesDown s.x.descq s.ledger)
include h

/-- The free list of a start that fails behind it is released with the rest. -/
theorem PagesDown.failedStart {d : QdmaDescq} {l : PageLedger} (hconf : d.conf = s.x.descq.conf)
    (hpidx : d.pidx = s.x.descq.pidx) (hrx : d.rxQueue.rx = [])
    (howned : Owned l.log fun _ => 0) :
    PagesDown { qdmaDescqFreeResource d with inited := false } l := by
  refine pagesDown_freeResource ?_ ?_ ?_ (fun _ => hrx) howned d.online
  · unfold QdmaDescq.isStC2h
    rw [hconf]
    exact h.kind
  · rw [hconf, hpidx]
    exact h.pidx
  · rw [hconf]
    exact h.rngsz

/-- A start that succeeds. -/
theorem PagesDown.filled {d : QdmaDescq} {ring : DescRing} {fls : ℕ → FlDesc} {l : PageLedger}
    (hconf : d.conf = s.x.descq.conf) (hpidx : d.pidx = s.x.descq.pidx) (hinited : d.inited = true)
    (hring : d.desc = some (ring.fillDst d.conf.rngsz fls)) (hfl : d.stRxFl = some fls)
    (hrx : d.rxQueue.rx = [])
    (hfill : Filling al.page d.conf.rngsz d.conf.rngsz fls l fun _ => 0)
    (hzero : ∀ i < d.conf.rngsz, pageAddr (al.page i) ≠ some 0) : PagesUp d l where
  kind := by
    unfold QdmaDescq.isStC2h
    rw [hconf]
    exact h.kind
  inited := hinited
  pidx := by rw [hconf, hpidx]; exact h.pidx
  rngsz := by rw [hconf]; exact h.rngsz
  slots := by
    refine ⟨_, fls, hring, hfl, fun i hi => ?_⟩
    obtain ⟨pg, m, hpage, hdma⟩ := hfill.given i hi
    refine ⟨hfill.slots.mapped i hi, fun hnull => ?_, ?_⟩
    · rw [← hdma, hnull] at hpage
      exact hzero i hi (pageAddr_eq_some.mpr ⟨pg, hpage⟩)
    · unfold DescRing.fillDst
      dsimp only
      rw [if_pos hi]
  owned := hfill.slots.owned.congr fun pg => by rw [inFl_eq hfl, inRxq_nil hrx]
  rx n hn := by
    rw [hrx] at hn
    cases hn

/-- **A start fills the list or leaves nothing**, whatever fails. -/
theorem PagesDown.start (hfresh : FreshFrom s.ledger al.page 0) {progHw : Bool}
    (hmapped : StartMapped al progHw s.x.descq.conf.rngsz) :
    PagesUp (s.start al progHw).x.descq (s.start al progHw).ledger ∨
      PagesDown (s.start al progHw).x.descq (s.start al progHw).ledger := by
  have hneg : -enomem < 0 := by decide
  unfold PageRun.start
  dsimp only
  cases honline : s.x.descq.online with
  | true =>
      rw [if_pos (by rw [Bool.or_true])]
      exact Or.inr h
  | false =>
      rw [h.inited, Bool.or_false, if_neg (by decide), h.kind, Bool.and_true]
      unfold descqAllocRings descRingAlloc wrbRingAlloc
      rw [h.kind]
      cases hdesc : al.desc with
      | none =>
          simp only [Option.map_none, hneg, if_true, Option.isSome_none, Bool.false_eq_true,
            if_false]
          exact Or.inr (h.failedStart rfl rfl h.rx (owned_freeResource_none rfl h.rx h.owned))
      | some bus =>
          simp only [Option.map_some, Option.isSome_some, if_true]
          cases hfls : flFill al s.x.descq.conf.rngsz with
          | none =>
              have hnone := flFill_none hfls h.owned hfresh
              simp only [hneg, if_true]
              exact Or.inr (h.failedStart rfl rfl h.rx (owned_freeResource_none rfl h.rx hnone))
          | some fls =>
              obtain ⟨hal, hfill⟩ := flFill_some hfls h.owned hfresh
              cases hwrb : al.wrb with
              | none =>
                  simp only [Option.map_none, hneg, if_true]
                  exact Or.inr (h.failedStart rfl rfl h.rx (hfill.freeResource rfl h.rx))
              | some addr =>
                  simp only [Option.map_some, lt_irrefl, if_false]
                  cases progHw with
                  | true =>
                      rw [if_pos rfl]
                      refine Or.inl (h.filled rfl rfl rfl rfl rfl h.rx hfill ?_)
                      refine hmapped (by rw [hdesc]; rfl) hal (by rw [hwrb]; rfl) rfl fun i hi => ?_
                      obtain ⟨pg, m, hpage, -⟩ := hfill.given i hi
                      rw [pageAddr_eq_some.mpr ⟨pg, hpage⟩]
                      rfl
                  | false =>
                      rw [if_neg (by decide)]
                      exact Or.inr (h.failedStart rfl rfl h.rx (hfill.freeResource rfl h.rx))

end Start

/-! ## Runs -/

theorem PagesUp.pagesOwned {s : PageRun} (h : PagesUp s.x.descq s.ledger) : PagesOwned s where
  posted ring hring := by
    obtain ⟨ring', fls, hring', hfls, hslots⟩ := h.slots
    obtain rfl : ring = ring' := Option.some.inj (hring.symm.trans hring')
    refine ⟨fls, hfls, fun i hi => ?_⟩
    obtain ⟨⟨pg, hpg, hmap⟩, hnull, hdst⟩ := hslots i hi
    have hmark : flMarks fls pg i = true := decide_eq_true hpg
    have hone := tally_pos hi hmark
    have hsole := h.owned.sole pg
    rw [inFl_eq hfls] at hsole
    have hout : Out s.ledger.log pg := by
      refine (h.owned.out_iff pg).mpr ?_
      rw [inFl_eq hfls]
      omega
    rw [← hdst] at hmap hnull
    exact ⟨pg, hpg, hout, hmap, hnull⟩
  oneOwner pg _ := by
    have hheld := h.owned.held_eq pg
    unfold PageRun.owners
    rw [hheld]
    split <;> rfl
  stopped hinited := by
    rw [h.inited] at hinited
    cases hinited

theorem PagesDown.pagesOwned {s : PageRun} (h : PagesDown s.x.descq s.ledger) : PagesOwned s where
  posted ring hring := by
    rw [h.desc] at hring
    cases hring
  oneOwner pg _ := by
    have hheld := h.owned.held_eq pg
    unfold PageRun.owners
    rw [inFl_none h.fl, inRxq_nil h.rx]
    split at hheld
    · cases hheld
    · rename_i hout
      rw [if_neg hout]
  stopped _ := ⟨h.fl, h.rx⟩

theorem JustAdded.pagesDown {x : Xfer} (h : JustAdded x.descq) :
    PagesDown (PageRun.init x).x.descq (PageRun.init x).ledger :=
  ⟨h.kind, h.inited, h.pidx, h.rngsz, h.desc, h.fl, h.wrb, h.rx, owned_nil⟩

/-- What a run keeps. -/
def PageInv (s : PageRun) : Prop := PagesUp s.x.descq s.ledger ∨ PagesDown s.x.descq s.ledger

/-- What does not touch the pages keeps it. -/
theorem PageInv.of_same {s : PageRun} (h : PageInv s) {x : Xfer}
    (hs : SameOwners s.x.descq x.descq) (hpidx : x.descq.pidx = s.x.descq.pidx)
    (hwrb : s.x.descq.descWrb = none → x.descq.descWrb = none) : PageInv { s with x := x } := by
  obtain hup | hdown := h
  · refine Or.inl (hup.of_same hs ?_)
    rw [hpidx]
    exact hup.pidx
  · exact Or.inr (hdown.of_same hs hpidx (hwrb hdown.wrb))

theorem PageInv.serviceWb {s : PageRun} {al : RxAllocs} (h : PageInv s)
    (hfresh : FreshFrom s.ledger al.page 0) (hkept : PagesKept s (.serviceWb al)) :
    PageInv (pageStep s (.serviceWb al)) := by
  obtain hup | hdown := h
  · exact Or.inl (hup.serviceWb hfresh hkept)
  · -- there is no ring to look at
    refine Or.inr ?_
    change PagesDown (descqStC2hWb al s.x).2.descq (passLedger al s.x s.ledger)
    unfold descqStC2hWb passLedger
    rw [hdown.wrb]
    exact hdown.of_same ⟨rfl, rfl, rfl, rfl, rfl⟩ rfl hdown.wrb

theorem pageInv_step (s : PageRun) (e : PageEv) (h : PageInv s)
    (hg : (pageSys.restrict PagesKept).guard s e) :
    PageInv ((pageSys.restrict PagesKept).step s e) := by
  obtain ⟨hguard, hkept⟩ := hg
  cases e with
  | start al progHw =>
      obtain hup | hdown := h
      · -- a queue that is up is not started
        have hsame : s.start al progHw = s := by
          unfold PageRun.start
          dsimp only
          rw [hup.inited, Bool.true_or, if_pos rfl]
        change PageInv (s.start al progHw)
        rw [hsame]
        exact Or.inl hup
      · exact hdown.start hguard hkept
  | submit id req =>
      change PageInv { s with x := (qdmaSgReqSubmitStC2h s.x id req).2 }
      unfold qdmaSgReqSubmitStC2h
      dsimp only
      split
      · exact h.of_same ⟨rfl, rfl, rfl, rfl, rfl⟩ rfl fun hwrb => hwrb
      · split
        · exact h
        · exact h.of_same ⟨rfl, rfl, rfl, rfl, rfl⟩ rfl fun hwrb => hwrb
  | hwWrb pidx mem =>
      refine h.of_same ⟨rfl, rfl, rfl, rfl, rfl⟩ rfl fun hwrb => ?_
      change s.x.descq.descWrb.map _ = none
      rw [hwrb]
      rfl
  | serviceWb al => exact h.serviceWb hguard hkept
  | read mem lens =>
      obtain hup | hdown := h
      · exact Or.inl (hup.read mem lens)
      · exact Or.inr (hdown.read mem lens)
  | timeout id => exact h.of_same ⟨rfl, rfl, rfl, rfl, rfl⟩ rfl fun hwrb => hwrb
  | stop =>
      obtain hup | hdown := h
      · exact Or.inr (hup.stop hkept)
      · exact Or.inr hdown.stop

/-- **Every posted buffer is a mapped page and every page has one owner**, in every state
of a run whose passes get what they ask for. -/
theorem pages_owned {x : Xfer} (hadded : JustAdded x.descq) (es : List PageEv)
    (hrun : (pageSys.restrict PagesKept).Admits (PageRun.init x) es) :
    PagesOwned (pageSys.exec (PageRun.init x) es) := by
  have hinv := (pageSys.restrict PagesKept).invariant pageInv_step es
    (Or.inr hadded.pagesDown) hrun
  obtain hup | hdown := hinv
  · exact hup.pagesOwned
  · exact hdown.pagesOwned

/-! ### A packet of one byte -/

/-- A streaming C2H queue with 8-byte completion entries and no user-defined data. -/
def addedC2h : QdmaDescq :=
  qdmaDescqConfig 0 0 { qdmaDescqInit 0 0 0 with enabled := true }
    { qidx := 0, st := true, c2h := true, stC2hWrbDescSize := descSzRsv, rngsz := 0 } false

def addedXfer : Xfer :=
  Xfer.init addedC2h
    (fun _ =>
      { cb := QdmaSgtReqCb.zero
        write := false
        dmaMapped := true
        epAddr := 0
        sgt := ⟨[], by decide⟩
        count := 0
        count_lt := by decide
        timeoutMs := 0
        fpDone := false }) false []

theorem justAdded_addedXfer : JustAdded addedXfer.descq :=
  justAdded_config 0 0 0 0 0 true _ rfl rfl

/-- The queue is started and a packet arrives. -/
def packetArrives : List PageEv :=
  [.start plainStart.al true, .hwWrb 1 fun i => if i = 0 then 0x10#8 else 0#8]

def arrivedRun : PageRun := pageSys.exec (PageRun.init addedXfer) packetArrives

theorem freshFrom_plainStart : FreshFrom PageLedger.empty plainStart.al.page 0 := by
  intro i pg m _ hpage
  refine ⟨Nat.lt_irrefl 0, fun j m' _ hj hpage' => ?_⟩
  have hi : i = pg := congrArg Prod.fst (Option.some.inj hpage)
  have hj' : j = pg := congrArg Prod.fst (Option.some.inj hpage')
  omega

theorem packetArrives_admits :
    (pageSys.restrict PagesKept).Admits (PageRun.init addedXfer) packetArrives :=
  ⟨⟨freshFrom_plainStart, by decide +kernel⟩, ⟨trivial, trivial⟩, trivial⟩

/-- One page is left, and all the memory for nodes. -/
def onePageLeft : RxAllocs where
  kmalloc _ := true
  page i := if i = 0 then some (1000, some 0x900000#64) else none

theorem freshFrom_onePageLeft : FreshFrom arrivedRun.ledger onePageLeft.page 0 := by
  intro i pg m _ hpage
  have hone : ∀ j p, onePageLeft.page j = some p → j = 0 ∧ p.1 = 1000 := by
    intro j p hp
    unfold onePageLeft at hp
    dsimp only at hp
    split at hp
    · rename_i hj
      exact ⟨hj, congrArg Prod.fst (Option.some.inj hp).symm⟩
    · cases hp
  obtain ⟨rfl, hpg⟩ := hone i _ hpage
  obtain rfl : pg = 1000 := hpg
  exact ⟨by decide +kernel, fun j m' _ hj => absurd hj (Nat.not_lt_zero j)⟩

/-- The packet is handed over, read and freed, and the queue stopped. -/
def packetRead : List PageEv := [.serviceWb onePageLeft, .read (fun _ _ => 0#8) [1], .stop]

theorem packetRead_admits : (pageSys.restrict PagesKept).Admits arrivedRun packetRead :=
  ⟨⟨freshFrom_onePageLeft, by decide +kernel⟩, ⟨trivial, trivial⟩, ⟨trivial, by decide +kernel⟩,
    trivial⟩

theorem pages_owned_one_packet :
    PagesOwned (pageSys.exec (PageRun.init addedXfer) (packetArrives ++ packetRead)) :=
  pages_owned justAdded_addedXfer _
    (((pageSys.restrict PagesKept).admits_append _ _ _).mpr
      ⟨packetArrives_admits, packetRead_admits⟩)

/-- The packet's pass, with nothing left in the page allocator. -/
def packetRefused : List PageEv := [.serviceWb { kmalloc := fun _ => true, page := fun _ => none }]

def refusedRun : PageRun := pageSys.exec (PageRun.init addedXfer) (packetArrives ++ packetRefused)

/-- The page is handed over, there is no other, and the slot is posted again, at
address 0. -/
theorem slot_posted_at_null :
    ¬ ∀ (x : Xfer) (es : List PageEv), JustAdded x.descq → pageSys.Admits (PageRun.init x) es →
      PagesOwned (pageSys.exec (PageRun.init x) es) := by
  intro hall
  have hadmits : pageSys.Admits (PageRun.init addedXfer) (packetArrives ++ packetRefused) :=
    (pageSys.admits_append _ _ _).mpr
      ⟨⟨freshFrom_plainStart, trivial, trivial⟩, (fun i pg m _ hpage => by cases hpage), trivial⟩
  have hrun : PagesOwned refusedRun := hall _ _ justAdded_addedXfer hadmits
  have hnull : (refusedRun.x.descq.desc.map fun r => (r.slots 0).dstAddr) = some 0#64 := by
    decide +kernel
  have hsize : 0 < refusedRun.x.descq.conf.rngsz := by decide +kernel
  obtain ⟨ring, hring, hdst⟩ := Option.map_eq_some_iff.mp hnull
  obtain ⟨fls, -, hslots⟩ := hrun.posted ring hring
  obtain ⟨pg, hslot⟩ := hslots 0 hsize
  exact hslot.notNull hdst

end Qdma

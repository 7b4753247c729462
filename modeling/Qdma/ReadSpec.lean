import Qdma.Read
import Mathlib.Algebra.Order.BigOperators.Group.List
import Mathlib.Algebra.GroupWithZero.Nat

/-!
# What a read does to the receive queue

Three facts about `qdma_descq_rxq_read` on the queue as lists, from which the
properties of whole runs follow.

* **The count** (`StRxQueue.Counts`).  Every helper keeps `dlen` the number of bytes on
  the two lists, so every read does (`counts_read`), whatever the lists hold.
* **The pages** (`pages_read`).  A page leaves the queue only to be freed.
* **The bytes** (`read_stream`).  If no entry of the scatter list ends inside
  user-defined data, or right behind it, a read copies the next bytes of the stream
  (`stream`) and leaves the rest.
-/

namespace Qdma

/-! ## Counting -/

/-- A node on the list of pages has bytes to give. -/
structure StRxData.Ok (rx : StRxData) : Prop where
  offset : rx.offset < rx.len
  len : rx.len < 2 ^ 32

/-- And so has one on the list of user-defined data. -/
structure StC2hWrbUdd.Ok (udd : StC2hWrbUdd) : Prop where
  offset : udd.offset < udd.uddLen
  len : udd.uddLen < 2 ^ 8

def rxBytes (rx : List StRxData) : ℕ := (rx.map fun n => n.len - n.offset).sum

def uddBytes (udd : List StC2hWrbUdd) : ℕ := (udd.map fun n => n.uddLen - n.offset).sum

@[simp] theorem rxBytes_nil : rxBytes [] = 0 := rfl

@[simp] theorem rxBytes_cons (n : StRxData) (ns : List StRxData) :
    rxBytes (n :: ns) = (n.len - n.offset) + rxBytes ns := by
  simp [rxBytes]

@[simp] theorem rxBytes_append (ns ms : List StRxData) :
    rxBytes (ns ++ ms) = rxBytes ns + rxBytes ms := by
  simp [rxBytes]

@[simp] theorem uddBytes_nil : uddBytes [] = 0 := rfl

@[simp] theorem uddBytes_cons (n : StC2hWrbUdd) (ns : List StC2hWrbUdd) :
    uddBytes (n :: ns) = (n.uddLen - n.offset) + uddBytes ns := by
  simp [uddBytes]

@[simp] theorem uddBytes_append (ns ms : List StC2hWrbUdd) :
    uddBytes (ns ++ ms) = uddBytes ns + uddBytes ms := by
  simp [uddBytes]

theorem StRxData.Ok.left {rx : StRxData} (h : rx.Ok) :
    u32Sub rx.len rx.offset = rx.len - rx.offset :=
  u32Sub_of_le h.len h.offset.le

theorem StC2hWrbUdd.Ok.left {udd : StC2hWrbUdd} (h : udd.Ok) :
    u32Sub udd.uddLen udd.offset = udd.uddLen - udd.offset :=
  u32Sub_of_le (h.len.trans (by decide)) h.offset.le

/-- `dlen` is the number of bytes on the two lists. -/
structure StRxQueue.Counts (q : StRxQueue) : Prop where
  dlen : q.dlen = rxBytes q.rx + uddBytes q.udd
  lt : q.dlen < 2 ^ 32
  rx : ∀ n ∈ q.rx, n.Ok
  udd : ∀ n ∈ q.udd, n.Ok

theorem counts_empty : StRxQueue.empty.Counts where
  dlen := rfl
  lt := by decide
  rx n hn := by cases hn
  udd n hn := by cases hn

namespace StRxQueue.Counts

variable {q : StRxQueue} (h : q.Counts)
include h

/-! Each helper, with the wrap-around arithmetic carried out. -/

theorem rxDequeueHead_eq {n : StRxData} {ns : List StRxData} (hq : q.rx = n :: ns) :
    n.Ok ∧ (n.len - n.offset) ≤ q.dlen ∧ rxqDequeueHead q =
      (some n, { q with rx := ns, dlen := q.dlen - (n.len - n.offset) }) := by
  have hn : n.Ok := h.rx n (by rw [hq]; exact List.mem_cons_self ..)
  have hle : (n.len - n.offset) ≤ q.dlen := by
    rw [h.dlen, hq, rxBytes_cons]
    omega
  refine ⟨hn, hle, ?_⟩
  unfold rxqDequeueHead
  simp only [hq]
  rw [hn.left, u32Sub_of_le h.lt hle]

theorem uddDequeueHead_eq {n : StC2hWrbUdd} {ns : List StC2hWrbUdd} (hq : q.udd = n :: ns) :
    n.Ok ∧ (n.uddLen - n.offset) ≤ q.dlen ∧ uddDequeueHead q =
      (some n, { q with udd := ns, dlen := q.dlen - (n.uddLen - n.offset) }) := by
  have hn : n.Ok := h.udd n (by rw [hq]; exact List.mem_cons_self ..)
  have hle : (n.uddLen - n.offset) ≤ q.dlen := by
    rw [h.dlen, hq, uddBytes_cons]
    omega
  refine ⟨hn, hle, ?_⟩
  unfold uddDequeueHead
  simp only [hq]
  rw [hn.left, u32Sub_of_le h.lt hle]

omit h in
theorem rxEnqueueHead_eq {n : StRxData} (hn : n.Ok)
    (hroom : (n.len - n.offset) + q.dlen < 2 ^ 32) :
    rxqEnqueueHead q n = { q with rx := n :: q.rx, dlen := (n.len - n.offset) + q.dlen } := by
  unfold rxqEnqueueHead
  rw [hn.left, Nat.add_comm q.dlen, u32_of_lt hroom]

omit h in
theorem uddEnqueueHead_eq {n : StC2hWrbUdd} (hn : n.Ok)
    (hroom : (n.uddLen - n.offset) + q.dlen < 2 ^ 32) :
    uddEnqueueHead q n =
      { q with udd := n :: q.udd, dlen := (n.uddLen - n.offset) + q.dlen } := by
  unfold uddEnqueueHead
  rw [hn.left, Nat.add_comm q.dlen, u32_of_lt hroom]

/-- A queue with other lists and the count that goes with them. -/
theorem replace {rx : List StRxData} {udd : List StC2hWrbUdd} {dlen : ℕ}
    (hdlen : dlen + (rxBytes q.rx + uddBytes q.udd) = q.dlen + (rxBytes rx + uddBytes udd))
    (hlt : dlen < 2 ^ 32) (hrx : ∀ n ∈ rx, n ∈ q.rx ∨ n.Ok)
    (hudd : ∀ n ∈ udd, n ∈ q.udd ∨ n.Ok) :
    StRxQueue.Counts { dlen := dlen, udd := udd, rx := rx } where
  dlen := by
    have := h.dlen
    dsimp only
    omega
  lt := hlt
  rx n hn := (hrx n hn).elim (h.rx n) id
  udd n hn := (hudd n hn).elim (h.udd n) id

end StRxQueue.Counts

/-! ## The count, through the walk -/

/-- A read in progress on the queue as lists. -/
abbrev ListCursor := RxCursor StRxQueue StRxData StC2hWrbUdd

/-- The bytes of the page the walk is in, which is off the queue. -/
def curBytes (rx : Option StRxData) : ℕ := (rx.map fun n => n.len - n.offset).getD 0

@[simp] theorem curBytes_none : curBytes none = 0 := rfl

@[simp] theorem curBytes_some (n : StRxData) : curBytes (some n) = n.len - n.offset := rfl

/-- The queue counts, and there is room to put the current page back. -/
structure Counted (c : ListCursor) : Prop where
  counts : c.rxq.Counts
  cur : ∀ n, c.rx = some n → n.Ok
  room : curBytes c.rx + c.rxq.dlen < 2 ^ 32

section Walk

variable (page : Option ℕ → ℕ → BitVec 8)

theorem copyUdd_nil {c : ListCursor} (hq : c.rxq.udd = []) (node : StRxData) (len : ℕ) :
    copyUdd listOps node len c = (len, { c with udd := none }) := by
  have hdeq : uddDequeueHead c.rxq = (none, c.rxq) := by
    simp only [uddDequeueHead, hq]
  unfold copyUdd
  simp only [listOps, hdeq]

/-- The bytes a copy of user-defined data writes. -/
def uddOut (node : StRxData) (u : StC2hWrbUdd) (k : ℕ) : List (BitVec 8) :=
  (List.range k).map fun i => u.data.getD (node.offset + i) 0

/-- The cursor when the head of the user-defined data is off its list and `k` bytes of
it are copied. -/
def afterUdd (node : StRxData) (u : StC2hWrbUdd) (us : List StC2hWrbUdd) (k : ℕ)
    (c : ListCursor) : ListCursor :=
  { c with
    rxq := { c.rxq with udd := us, dlen := c.rxq.dlen - (u.uddLen - u.offset) }
    out := c.out ++ uddOut node u k
    copied := u32 (c.copied + k)
    udd := none }

theorem copyUdd_whole {c : ListCursor} (h : c.rxq.Counts) {u : StC2hWrbUdd}
    {us : List StC2hWrbUdd} (hq : c.rxq.udd = u :: us) (node : StRxData) {len : ℕ}
    (hlen : u.uddLen - u.offset ≤ len) :
    copyUdd listOps node len c =
      (len - (u.uddLen - u.offset), afterUdd node u us (u.uddLen - u.offset) c) := by
  obtain ⟨hu, hle, hdeq⟩ := h.uddDequeueHead_eq hq
  have h₁ := hu.len
  have h₂ := hu.offset
  have hmin : min len (u.uddLen - u.offset) = u.uddLen - u.offset := Nat.min_eq_right hlen
  have hmod : (u.offset + (u.uddLen - u.offset)) % 2 ^ 8 = u.uddLen := by
    rw [Nat.add_sub_of_le h₂.le]
    exact Nat.mod_eq_of_lt h₁
  unfold copyUdd
  simp only [listOps, hdeq, id_eq, hu.left, hmin, hmod, if_true]
  rfl

/-- What is left of it goes back to the head. -/
theorem copyUdd_part {c : ListCursor} (h : Counted c) {u : StC2hWrbUdd}
    {us : List StC2hWrbUdd} (hq : c.rxq.udd = u :: us) (node : StRxData) {len : ℕ}
    (hlen : len < u.uddLen - u.offset) :
    copyUdd listOps node len c =
      (0, { afterUdd node u us len c with
        rxq :=
          { c.rxq with
            udd := { u with offset := u.offset + len } :: us
            dlen := c.rxq.dlen - len }
        udd := some { u with offset := u.offset + len } }) := by
  obtain ⟨hu, hle, hdeq⟩ := h.counts.uddDequeueHead_eq hq
  have h₁ := hu.len
  have h₂ := hu.offset
  have hroom := h.room
  have hmin : min len (u.uddLen - u.offset) = len := Nat.min_eq_left hlen.le
  have hmod : (u.offset + len) % 2 ^ 8 = u.offset + len := Nat.mod_eq_of_lt (by omega)
  have hne : u.offset + len ≠ u.uddLen := by omega
  have hok : StC2hWrbUdd.Ok { u with offset := u.offset + len } :=
    ⟨(by dsimp only; omega), hu.len⟩
  have henq : uddEnqueueHead
      { c.rxq with udd := us, dlen := c.rxq.dlen - (u.uddLen - u.offset) }
      { u with offset := u.offset + len } = _ :=
    StRxQueue.Counts.uddEnqueueHead_eq hok (by dsimp only; omega)
  have hdlen : u.uddLen - (u.offset + len) + (c.rxq.dlen - (u.uddLen - u.offset)) =
      c.rxq.dlen - len := by omega
  unfold copyUdd
  simp only [listOps, hdeq, id_eq, hu.left, hmin, hmod, hne, if_false, henq, hdlen, Nat.sub_self]
  rfl

/-- User-defined data that is put back has fewer bytes than when it was taken. -/
theorem Counted.copyUdd {c : ListCursor} (h : Counted c) (node : StRxData) (len : ℕ) :
    Counted (copyUdd listOps node len c).2 ∧ (copyUdd listOps node len c).2.rx = c.rx := by
  have hroom := h.room
  have hlt := h.counts.lt
  cases hq : c.rxq.udd with
  | nil =>
      rw [copyUdd_nil hq]
      exact ⟨⟨h.counts, h.cur, h.room⟩, rfl⟩
  | cons u us =>
      obtain ⟨hu, hle, -⟩ := h.counts.uddDequeueHead_eq hq
      have htail : ∀ n ∈ us, n ∈ c.rxq.udd ∨ n.Ok :=
        fun n hn => Or.inl (by rw [hq]; exact List.mem_cons_of_mem _ hn)
      by_cases hlen : u.uddLen - u.offset ≤ len
      · rw [copyUdd_whole h.counts hq node hlen]
        refine ⟨⟨?_, h.cur, ?_⟩, rfl⟩
        · refine h.counts.replace ?_ ?_ (fun n hn => Or.inl hn) htail
          · rw [hq, uddBytes_cons]
            omega
          · omega
        · simp only [afterUdd]
          omega
      · have hlen' := Nat.lt_of_not_le hlen
        rw [copyUdd_part h hq node hlen']
        refine ⟨⟨?_, h.cur, ?_⟩, rfl⟩
        · refine h.counts.replace ?_ ?_ (fun n hn => Or.inl hn) ?_
          · rw [hq, uddBytes_cons, uddBytes_cons]
            dsimp only
            omega
          · omega
          · intro n hn
            obtain rfl | hn := List.mem_cons.mp hn
            · exact Or.inr ⟨(by dsimp only; omega), hu.len⟩
            · exact htail n hn
        · simp only [afterUdd]
          omega

/-- The bytes a copy of payload writes. -/
def dataOut (page : Option ℕ → ℕ → BitVec 8) (node : StRxData) (k : ℕ) : List (BitVec 8) :=
  (List.range k).map fun i => page node.pg (node.offset + i)

theorem copyData_part {c : ListCursor} {node : StRxData} (hok : node.Ok) {len : ℕ}
    (hlen : len < node.len - node.offset) :
    copyData listOps page node len c =
      (0, { c with
        out := c.out ++ dataOut page node len
        copied := u32 (c.copied + len)
        rx := some { node with offset := node.offset + len } }) := by
  have h₁ := hok.len
  have h₂ := hok.offset
  have hmin : min len (node.len - node.offset) = len := Nat.min_eq_left hlen.le
  have hu32 : u32 (node.offset + len) = node.offset + len := u32_of_lt (by omega)
  have hne : node.offset + len ≠ node.len := by omega
  unfold copyData
  simp only [listOps, id_eq, hok.left, hmin, hu32, hne, if_false, Nat.sub_self]
  rfl

theorem copyData_whole {c : ListCursor} {node : StRxData} (hok : node.Ok) {len : ℕ}
    (hlen : node.len - node.offset ≤ len) :
    copyData listOps page node len c =
      (len - (node.len - node.offset),
        { c with
          out := c.out ++ dataOut page node (node.len - node.offset)
          copied := u32 (c.copied + (node.len - node.offset))
          rxq := (rxqDequeueHead c.rxq).2
          rx := (rxqDequeueHead c.rxq).1
          freed := c.freed ++ [node.pg] }) := by
  have h₁ := hok.len
  have h₂ := hok.offset
  have hmin : min len (node.len - node.offset) = node.len - node.offset := Nat.min_eq_right hlen
  have hu32 : u32 (node.offset + (node.len - node.offset)) = node.len := by
    rw [Nat.add_sub_of_le h₂.le]
    exact u32_of_lt h₁
  unfold copyData
  simp only [listOps, id_eq, hok.left, hmin, hu32, if_true]
  rfl

/-- The next page, if there is one. -/
theorem rxqDequeueHead_nil {q : StRxQueue} (hq : q.rx = []) : rxqDequeueHead q = (none, q) := by
  simp only [rxqDequeueHead, hq]

theorem Counted.copyData {c : ListCursor} (h : Counted c) {node : StRxData}
    (hcur : c.rx = some node) (len : ℕ) : Counted (copyData listOps page node len c).2 := by
  have hok := h.cur node hcur
  have hlt := h.counts.lt
  have hroom := h.room
  rw [hcur, curBytes_some] at hroom
  by_cases hlen : node.len - node.offset ≤ len
  · rw [copyData_whole page hok hlen]
    cases hq : c.rxq.rx with
    | nil =>
        rw [rxqDequeueHead_nil hq]
        refine ⟨h.counts, ?_, ?_⟩
        · intro n hn
          cases hn
        · rw [curBytes_none, Nat.zero_add]
          exact hlt
    | cons n ns =>
        obtain ⟨hn, hle, hdeq⟩ := h.counts.rxDequeueHead_eq hq
        rw [hdeq]
        refine ⟨?_, ?_, ?_⟩
        · refine h.counts.replace ?_ ?_
            (fun m hm => Or.inl (by rw [hq]; exact List.mem_cons_of_mem _ hm))
            fun m hm => Or.inl hm
          · rw [hq, rxBytes_cons]
            omega
          · omega
        · intro m hm
          cases hm
          exact hn
        · simp only [curBytes_some]
          omega
  · have hlen' := Nat.lt_of_not_le hlen
    rw [copyData_part page hok hlen']
    refine ⟨h.counts, ?_, ?_⟩
    · intro m hm
      cases hm
      exact ⟨(by dsimp only; omega), hok.len⟩
    · simp only [curBytes_some]
      omega

theorem Counted.readEntry :
    ∀ (fuel len : ℕ) {c : ListCursor}, Counted c → Counted (readEntry listOps page fuel len c) := by
  intro fuel
  induction fuel with
  | zero => intro len c h; exact h
  | succ fuel ih =>
      intro len c h
      unfold Qdma.readEntry
      split
      · exact h
      · split
        · split
          · exact ⟨h.counts, h.cur, h.room⟩
          · exact h
        · rename_i node hcur
          dsimp only
          apply ih
          by_cases hlead : ((listOps.rx node).leads || c.udd.isSome) = true
          · rw [if_pos hlead]
            obtain ⟨hudd, hrx⟩ := h.copyUdd node len
            exact hudd.copyData page (hrx.trans hcur) _
          · rw [if_neg hlead]
            exact h.copyData page hcur _

theorem Counted.readSgl :
    ∀ (lens : List ℕ) {c : ListCursor}, Counted c → Counted (readSgl listOps page lens c).2 := by
  intro lens
  induction lens with
  | nil => intro c h; exact h
  | cons len rest ih =>
      intro c h
      have hentry := Counted.readEntry page (len + listOps.size c.rxq + 1) len
        (c := { c with out := [] }) ⟨h.counts, h.cur, h.room⟩
      unfold Qdma.readSgl
      dsimp only
      split
      · exact hentry
      · exact ih hentry

theorem Counted.putBack {c : ListCursor} (h : Counted c) : (putBack listOps c).Counts := by
  unfold Qdma.putBack
  cases hcur : c.rx with
  | none => exact h.counts
  | some node =>
      have hok := h.cur node hcur
      have hroom := h.room
      rw [hcur, curBytes_some] at hroom
      dsimp only
      have hlt : (listOps.rx node).offset < (listOps.rx node).len := hok.offset
      rw [if_pos hlt]
      have henq : listOps.enqRxHead c.rxq node = _ :=
        StRxQueue.Counts.rxEnqueueHead_eq hok hroom
      rw [henq]
      refine h.counts.replace ?_ hroom ?_ fun n hn => Or.inl hn
      · rw [rxBytes_cons]
        omega
      · intro n hn
        obtain rfl | hn := List.mem_cons.mp hn
        · exact Or.inr hok
        · exact Or.inl hn

/-- The cursor a read starts with, when there is anything to read. -/
def readStart (uddEn : Bool) (q : StRxQueue) : ListCursor :=
  let r := rxqDequeueHead q
  let u := if r.1.isNone && uddEn then uddDequeueHead r.2 else (none, r.2)
  { rxq := u.2, rx := r.1, udd := u.1, out := [], copied := 0, freed := [], oops := false }

theorem Counted.readStart {q : StRxQueue} (h : q.Counts) (uddEn : Bool) :
    Counted (readStart uddEn q) := by
  have hlt := h.lt
  unfold Qdma.readStart
  cases hq : q.rx with
  | nil =>
      rw [rxqDequeueHead_nil hq]
      cases uddEn with
      | false => exact ⟨h, (fun n hn => by cases hn), by simpa using hlt⟩
      | true =>
          cases hu : q.udd with
          | nil =>
              have hdeq : uddDequeueHead q = (none, q) := by simp only [uddDequeueHead, hu]
              simp only [Option.isNone_none, Bool.and_self, if_true, hdeq]
              exact ⟨h, (fun n hn => by cases hn), by simpa using hlt⟩
          | cons u us =>
              obtain ⟨hok, hle, hdeq⟩ := h.uddDequeueHead_eq hu
              simp only [Option.isNone_none, Bool.and_self, if_true, hdeq]
              refine ⟨?_, (fun n hn => by cases hn), ?_⟩
              · refine h.replace ?_ ?_ (fun n hn => Or.inl hn)
                  fun n hn => Or.inl (by rw [hu]; exact List.mem_cons_of_mem _ hn)
                · rw [hu, uddBytes_cons]
                  omega
                · omega
              · simp only [curBytes_none]
                omega
  | cons n ns =>
      obtain ⟨hn, hle, hdeq⟩ := h.rxDequeueHead_eq hq
      rw [hdeq]
      simp only [Option.isNone_some, Bool.false_and, Bool.false_eq_true, if_false]
      refine ⟨?_, ?_, ?_⟩
      · refine h.replace ?_ ?_
          (fun m hm => Or.inl (by rw [hq]; exact List.mem_cons_of_mem _ hm)) fun m hm => Or.inl hm
        · rw [hq, rxBytes_cons]
          omega
        · omega
      · intro m hm
        cases hm
        exact hn
      · simp only [curBytes_some]
        omega

/-- The outcomes of a read: it returns at once with the lock held, it reads through
`NULL`, or it ends with the current page put back. -/
theorem read_cases (uddEn : Bool) (lens : List ℕ) (q : StRxQueue) :
    (q.rx = [] ∧ q.udd = [] ∧ uddEn = true ∧
      qdmaDescqRxqRead listOps page uddEn lens q =
        { rxq := q, out := lens.map fun _ => [], copied := 0, freed := [], oops := false,
          locked := true }) ∨
    ∃ s, s = readSgl listOps page lens (readStart uddEn q) ∧
      ((s.2.oops = true ∧ qdmaDescqRxqRead listOps page uddEn lens q =
          { rxq := s.2.rxq, out := s.1, copied := s.2.copied, freed := s.2.freed, oops := true,
            locked := true }) ∨
        s.2.oops = false ∧ qdmaDescqRxqRead listOps page uddEn lens q =
          { rxq := putBack listOps s.2, out := s.1, copied := s.2.copied, freed := s.2.freed,
            oops := false, locked := false }) := by
  have hgeneral : ¬ (q.rx = [] ∧ q.udd = [] ∧ uddEn = true) →
      ¬ ((listOps.deqRx q).1.isNone && uddEn && (if (listOps.deqRx q).1.isNone && uddEn then
        listOps.deqUdd (listOps.deqRx q).2 else (none, (listOps.deqRx q).2)).1.isNone) = true := by
    intro hnot
    cases hq : q.rx with
    | cons n ns => simp [listOps, rxqDequeueHead, hq]
    | nil =>
        have hdeq : listOps.deqRx q = (none, q) := rxqDequeueHead_nil hq
        simp only [hdeq]
        cases uddEn with
        | false => simp
        | true =>
            cases hu : q.udd with
            | nil => exact absurd ⟨hq, hu, rfl⟩ hnot
            | cons u us => simp [listOps, uddDequeueHead, hu]
  by_cases hempty : q.rx = [] ∧ q.udd = [] ∧ uddEn = true
  · obtain ⟨hrx, hudd, hen⟩ := hempty
    refine Or.inl ⟨hrx, hudd, hen, ?_⟩
    subst hen
    have hdeq : uddDequeueHead q = (none, q) := by simp only [uddDequeueHead, hudd]
    unfold qdmaDescqRxqRead
    simp only [listOps, rxqDequeueHead_nil hrx, hdeq, Option.isNone_none, Bool.and_self, if_true]
  · refine Or.inr ⟨_, rfl, ?_⟩
    have hrun : qdmaDescqRxqRead listOps page uddEn lens q =
        if (readSgl listOps page lens (Qdma.readStart uddEn q)).2.oops then
          { rxq := (readSgl listOps page lens (Qdma.readStart uddEn q)).2.rxq
            out := (readSgl listOps page lens (Qdma.readStart uddEn q)).1
            copied := (readSgl listOps page lens (Qdma.readStart uddEn q)).2.copied
            freed := (readSgl listOps page lens (Qdma.readStart uddEn q)).2.freed
            oops := true
            locked := true }
        else
          { rxq := putBack listOps (readSgl listOps page lens (Qdma.readStart uddEn q)).2
            out := (readSgl listOps page lens (Qdma.readStart uddEn q)).1
            copied := (readSgl listOps page lens (Qdma.readStart uddEn q)).2.copied
            freed := (readSgl listOps page lens (Qdma.readStart uddEn q)).2.freed
            oops := false
            locked := false } := by
      unfold qdmaDescqRxqRead
      dsimp only
      rw [if_neg (hgeneral hempty)]
      rfl
    rw [hrun]
    cases hoops : (readSgl listOps page lens (Qdma.readStart uddEn q)).2.oops with
    | true => exact Or.inl ⟨rfl, if_pos rfl⟩
    | false => exact Or.inr ⟨rfl, if_neg Bool.false_ne_true⟩

/-- **Every read keeps the count**, however it ends. -/
theorem counts_read {q : StRxQueue} (h : q.Counts) (uddEn : Bool) (lens : List ℕ) :
    (qdmaDescqRxqRead listOps page uddEn lens q).rxq.Counts := by
  have hwalk := Counted.readSgl page lens (Counted.readStart h uddEn)
  obtain ⟨-, -, -, heq⟩ | ⟨s, rfl, ⟨-, heq⟩ | ⟨-, heq⟩⟩ := read_cases page uddEn lens q
  · rw [heq]
    exact h
  · rw [heq]
    exact hwalk.counts
  · rw [heq]
    exact hwalk.putBack

/-! ## The pages -/

/-- The pages a read in progress has freed, is in, and has still to come to. -/
def RxCursor.pages (c : ListCursor) : List (Option ℕ) :=
  c.freed ++ (c.rx.toList ++ c.rxq.rx).map (·.pg)

/-- Every page, on the queue or in hand, has bytes to give. -/
structure RxOk (c : ListCursor) : Prop where
  queue : ∀ n ∈ c.rxq.rx, n.Ok
  cur : ∀ n, c.rx = some n → n.Ok

/-- The list of pages when its head is taken. -/
theorem rxqDequeueHead_cons {q : StRxQueue} {n : StRxData} {ns : List StRxData}
    (hq : q.rx = n :: ns) :
    (rxqDequeueHead q).1 = some n ∧ (rxqDequeueHead q).2.rx = ns := by
  simp only [rxqDequeueHead, hq, and_self]

/-! The list of pages does not depend on the counter. -/

theorem rx_mk (dlen : ℕ) (udd : List StC2hWrbUdd) (rx : List StRxData) :
    (StRxQueue.mk dlen udd rx).rx = rx := rfl

theorem uddEnqueueHead_rx (q : StRxQueue) (n : StC2hWrbUdd) : (uddEnqueueHead q n).rx = q.rx := by
  have henq : uddEnqueueHead q n =
      StRxQueue.mk (u32 (q.dlen + u32Sub n.uddLen n.offset)) (n :: q.udd) q.rx := rfl
  exact (congrArg StRxQueue.rx henq).trans (rx_mk _ _ _)

theorem uddDequeueHead_rx (q : StRxQueue) : (uddDequeueHead q).2.rx = q.rx := by
  cases hq : q.udd with
  | nil => simp only [uddDequeueHead, hq]
  | cons u us =>
      have hdeq : (uddDequeueHead q).2 =
          StRxQueue.mk (u32Sub q.dlen (u32Sub u.uddLen u.offset)) us q.rx := by
        simp only [uddDequeueHead, hq]
      exact (congrArg StRxQueue.rx hdeq).trans (rx_mk _ _ _)

/-- User-defined data is copied beside the pages. -/
structure SamePages (c c' : ListCursor) : Prop where
  queue : c'.rxq.rx = c.rxq.rx
  cur : c'.rx = c.rx
  freed : c'.freed = c.freed
  oops : c'.oops = c.oops

theorem samePages_copyUdd (c : ListCursor) (node : StRxData) (len : ℕ) :
    SamePages c (copyUdd listOps node len c).2 := by
  have hrx : (listOps.deqUdd c.rxq).2.rx = c.rxq.rx := uddDequeueHead_rx c.rxq
  unfold copyUdd
  generalize listOps.deqUdd c.rxq = r at hrx ⊢
  obtain ⟨u, rxq⟩ := r
  cases u with
  | none => exact ⟨hrx, rfl, rfl, rfl⟩
  | some u =>
      dsimp only
      generalize min len (u32Sub (listOps.udd u).uddLen (listOps.udd u).offset) = n
      generalize listOps.setUdd u _ = u'
      by_cases hend : (listOps.udd u').offset = (listOps.udd u').uddLen
      · rw [if_pos hend]
        exact ⟨hrx, rfl, rfl, rfl⟩
      · have henq : (listOps.enqUddHead rxq u').rx = rxq.rx := uddEnqueueHead_rx rxq u'
        rw [if_neg hend]
        dsimp only
        refine ⟨?_, rfl, rfl, rfl⟩
        exact henq.trans hrx

theorem SamePages.pages {c c' : ListCursor} (h : SamePages c c') : c'.pages = c.pages := by
  unfold RxCursor.pages
  rw [h.queue, h.cur, h.freed]

theorem SamePages.rxOk {c c' : ListCursor} (h : SamePages c c') (hok : RxOk c) : RxOk c' where
  queue := by rw [h.queue]; exact hok.queue
  cur := by rw [h.cur]; exact hok.cur

theorem copyData_oops (c : ListCursor) (node : StRxData) (len : ℕ) :
    (copyData listOps page node len c).2.oops = c.oops := by
  unfold copyData
  dsimp only
  split <;> rfl

theorem pages_copyData {c : ListCursor} (h : RxOk c) {node : StRxData}
    (hcur : c.rx = some node) (len : ℕ) :
    (copyData listOps page node len c).2.pages = c.pages ∧
      RxOk (copyData listOps page node len c).2 := by
  have hok := h.cur node hcur
  by_cases hlen : node.len - node.offset ≤ len
  · rw [copyData_whole page hok hlen]
    cases hq : c.rxq.rx with
    | nil =>
        rw [rxqDequeueHead_nil hq]
        refine ⟨by simp [RxCursor.pages, hcur, hq], h.queue, ?_⟩
        intro n hn
        cases hn
    | cons n ns =>
        obtain ⟨hhead, hrest⟩ := rxqDequeueHead_cons hq
        have hmem : ∀ m ∈ n :: ns, m.Ok := by
          rw [← hq]
          exact h.queue
        refine ⟨by simp [RxCursor.pages, hcur, hq, hhead, hrest], ?_, ?_⟩
        · intro m hm
          dsimp only at hm
          rw [hrest] at hm
          exact hmem m (List.mem_cons_of_mem _ hm)
        · intro m hm
          dsimp only at hm
          rw [hhead] at hm
          cases hm
          exact hmem n List.mem_cons_self
  · have hlen' := Nat.lt_of_not_le hlen
    have hlt := hok.len
    rw [copyData_part page hok hlen']
    refine ⟨by simp [RxCursor.pages, hcur], h.queue, ?_⟩
    intro m hm
    cases hm
    exact ⟨(by dsimp only; omega), hlt⟩

/-- What a piece of the walk keeps.  A walk that reads through `NULL` has no current
page. -/
structure KeepsPages (c c' : ListCursor) : Prop where
  pages : c'.pages = c.pages
  rxOk : RxOk c'
  oops : c'.oops = true → c'.rx = none

theorem pages_readEntry :
    ∀ (fuel len : ℕ) {c : ListCursor}, RxOk c → (c.oops = true → c.rx = none) →
      KeepsPages c (readEntry listOps page fuel len c) := by
  intro fuel
  induction fuel with
  | zero => intro len c h hoops; exact ⟨rfl, h, hoops⟩
  | succ fuel ih =>
      intro len c h hoops
      unfold Qdma.readEntry
      split
      · exact ⟨rfl, h, hoops⟩
      · split
        · rename_i hnone
          split
          · exact ⟨rfl, ⟨h.queue, h.cur⟩, fun _ => hnone⟩
          · exact ⟨rfl, h, hoops⟩
        · rename_i node hcur
          have hgood : c.oops = false := by
            cases ho : c.oops with
            | false => rfl
            | true => rw [hoops ho] at hcur; cases hcur
          dsimp only
          by_cases hlead : ((listOps.rx node).leads || c.udd.isSome) = true
          · rw [if_pos hlead]
            have hudd := samePages_copyUdd c node len
            obtain ⟨hpages, hok⟩ := pages_copyData page (hudd.rxOk h) (hudd.cur.trans hcur)
              (copyUdd listOps node len c).1
            have hrest := ih (copyData listOps page node (copyUdd listOps node len c).1
              (copyUdd listOps node len c).2).1 hok
              (fun ho => absurd ho (by
                rw [copyData_oops, hudd.oops, hgood]; exact Bool.false_ne_true))
            exact ⟨hrest.pages.trans (hpages.trans hudd.pages), hrest.rxOk, hrest.oops⟩
          · rw [if_neg hlead]
            obtain ⟨hpages, hok⟩ := pages_copyData page h hcur len
            have hrest := ih (copyData listOps page node len c).1 hok
              (fun ho => absurd ho (by rw [copyData_oops, hgood]; exact Bool.false_ne_true))
            exact ⟨hrest.pages.trans hpages, hrest.rxOk, hrest.oops⟩

theorem pages_readSgl :
    ∀ (lens : List ℕ) {c : ListCursor}, RxOk c → (c.oops = true → c.rx = none) →
      KeepsPages c (readSgl listOps page lens c).2 := by
  intro lens
  induction lens with
  | nil => intro c h hoops; exact ⟨rfl, h, hoops⟩
  | cons len rest ih =>
      intro c h hoops
      have hentry := pages_readEntry page (len + listOps.size c.rxq + 1) len
        (c := { c with out := [] }) ⟨h.queue, h.cur⟩ hoops
      have hstart : RxCursor.pages { c with out := [] } = c.pages := rfl
      unfold Qdma.readSgl
      dsimp only
      split
      · exact ⟨hentry.pages.trans hstart, hentry.rxOk, hentry.oops⟩
      · have hrest := ih hentry.rxOk hentry.oops
        exact ⟨hrest.pages.trans (hentry.pages.trans hstart), hrest.rxOk, hrest.oops⟩

theorem pages_readStart {q : StRxQueue} (h : ∀ n ∈ q.rx, n.Ok) (uddEn : Bool) :
    (readStart uddEn q).pages = q.rx.map (·.pg) ∧ RxOk (readStart uddEn q) := by
  unfold Qdma.readStart
  cases hq : q.rx with
  | nil =>
      have hnone : ∀ n : StRxData, (none : Option StRxData) = some n → n.Ok := by
        intro n hn
        cases hn
      have hempty : ∀ n ∈ ([] : List StRxData), n.Ok := by
        intro n hn
        cases hn
      rw [rxqDequeueHead_nil hq]
      cases uddEn with
      | false => exact ⟨by simp [RxCursor.pages, hq], by rw [← hq] at hempty; exact hempty, hnone⟩
      | true =>
          cases hu : q.udd with
          | nil =>
              refine ⟨by simp [RxCursor.pages, uddDequeueHead, hu, hq], ?_, hnone⟩
              simp only [Option.isNone_none, Bool.and_self, if_true, uddDequeueHead, hu, hq]
              exact hempty
          | cons u us =>
              refine ⟨by simp [RxCursor.pages, uddDequeueHead, hu, hq], ?_, hnone⟩
              simp only [Option.isNone_none, Bool.and_self, if_true, uddDequeueHead, hu, hq]
              exact hempty
  | cons n ns =>
      obtain ⟨hhead, hrest⟩ := rxqDequeueHead_cons hq
      have hmem : ∀ m ∈ n :: ns, m.Ok := by
        rw [← hq]
        exact h
      refine ⟨by simp [RxCursor.pages, hhead, hrest], ?_, ?_⟩
      · intro m hm
        simp only [hhead, Option.isNone_some, Bool.false_and, Bool.false_eq_true, if_false,
          hrest] at hm
        exact hmem m (List.mem_cons_of_mem _ hm)
      · intro m hm
        simp only [hhead] at hm
        cases hm
        exact hmem n List.mem_cons_self

/-- **A page leaves the queue only to be freed**, from the head, however the read
ends; what stays has bytes to give. -/
theorem pages_read {q : StRxQueue} (h : ∀ n ∈ q.rx, n.Ok) (uddEn : Bool) (lens : List ℕ) :
    (qdmaDescqRxqRead listOps page uddEn lens q).freed ++
        (qdmaDescqRxqRead listOps page uddEn lens q).rxq.rx.map (·.pg) = q.rx.map (·.pg) ∧
      ∀ n ∈ (qdmaDescqRxqRead listOps page uddEn lens q).rxq.rx, n.Ok := by
  obtain ⟨hstart, hok⟩ := pages_readStart h uddEn
  have hwalk := pages_readSgl page lens hok (fun ho => absurd ho Bool.false_ne_true)
  have hpages := hwalk.pages.trans hstart
  obtain ⟨-, -, -, heq⟩ | ⟨s, rfl, ⟨hoops, heq⟩ | ⟨-, heq⟩⟩ := read_cases page uddEn lens q
  · rw [heq]
    exact ⟨rfl, h⟩
  · rw [heq, ← hpages]
    refine ⟨?_, hwalk.rxOk.queue⟩
    simp only [RxCursor.pages, hwalk.oops hoops, Option.toList_none, List.nil_append]
  · rw [heq, ← hpages]
    dsimp only
    unfold RxCursor.pages Qdma.putBack
    cases hcur : (readSgl listOps page lens (readStart uddEn q)).2.rx with
    | none =>
        refine ⟨?_, hwalk.rxOk.queue⟩
        simp only [Option.toList_none, List.nil_append]
    | some node =>
        have hnode := hwalk.rxOk.cur node hcur
        have hlt : (listOps.rx node).offset < (listOps.rx node).len := hnode.offset
        simp only [if_pos hlt, Option.toList_some]
        refine ⟨rfl, ?_⟩
        intro n hn
        obtain rfl | hn := List.mem_cons.mp hn
        · exact hnode
        · exact hwalk.rxOk.queue n hn

/-! ## Queues without user-defined data -/

/-- The lists of a queue do not depend on its counter. -/
theorem udd_mk (dlen : ℕ) (udd : List StC2hWrbUdd) (rx : List StRxData) :
    (StRxQueue.mk dlen udd rx).udd = udd := rfl

theorem rxqDequeueHead_udd (q : StRxQueue) : (rxqDequeueHead q).2.udd = q.udd := by
  cases hq : q.rx with
  | nil => rw [rxqDequeueHead_nil hq]
  | cons n ns =>
      have hdeq : (rxqDequeueHead q).2 =
          StRxQueue.mk (u32Sub q.dlen (u32Sub n.len n.offset)) q.udd ns := by
        simp only [rxqDequeueHead, hq]
      exact (congrArg StRxQueue.udd hdeq).trans (udd_mk _ _ _)

theorem rxqEnqueueHead_udd (q : StRxQueue) (n : StRxData) : (rxqEnqueueHead q n).udd = q.udd := by
  have henq : rxqEnqueueHead q n =
      StRxQueue.mk (u32 (q.dlen + u32Sub n.len n.offset)) q.udd (n :: q.rx) := rfl
  exact (congrArg StRxQueue.udd henq).trans (udd_mk _ _ _)

theorem noUdd_copyData {c : ListCursor} {node : StRxData} (hok : node.Ok) (len : ℕ) :
    (copyData listOps page node len c).2.rxq.udd = c.rxq.udd := by
  by_cases hlen : node.len - node.offset ≤ len
  · rw [copyData_whole page hok hlen]
    exact rxqDequeueHead_udd c.rxq
  · rw [copyData_part page hok (Nat.lt_of_not_le hlen)]

theorem noUdd_readEntry :
    ∀ (fuel len : ℕ) {c : ListCursor}, Counted c → c.rxq.udd = [] →
      (readEntry listOps page fuel len c).rxq.udd = [] := by
  intro fuel
  induction fuel with
  | zero => intro len c _ hus; exact hus
  | succ fuel ih =>
      intro len c h hus
      unfold Qdma.readEntry
      split
      · exact hus
      · split
        · split
          · exact hus
          · exact hus
        · rename_i node hcur
          dsimp only
          by_cases hlead : ((listOps.rx node).leads || c.udd.isSome) = true
          · rw [if_pos hlead, copyUdd_nil hus]
            have h' : Counted { c with udd := none } := ⟨h.counts, h.cur, h.room⟩
            refine ih _ (h'.copyData page hcur len) ?_
            rw [noUdd_copyData page (h.cur node hcur)]
            exact hus
          · rw [if_neg hlead]
            refine ih _ (h.copyData page hcur len) ?_
            rw [noUdd_copyData page (h.cur node hcur)]
            exact hus

theorem noUdd_readSgl :
    ∀ (lens : List ℕ) {c : ListCursor}, Counted c → c.rxq.udd = [] →
      (readSgl listOps page lens c).2.rxq.udd = [] := by
  intro lens
  induction lens with
  | nil => intro c _ hus; exact hus
  | cons len rest ih =>
      intro c h hus
      have hentry := Counted.readEntry page (len + listOps.size c.rxq + 1) len
        (c := { c with out := [] }) ⟨h.counts, h.cur, h.room⟩
      have hus' := noUdd_readEntry page (len + listOps.size c.rxq + 1) len
        (c := { c with out := [] }) ⟨h.counts, h.cur, h.room⟩ hus
      unfold Qdma.readSgl
      dsimp only
      split
      · exact hus'
      · exact ih hentry hus'

/-- **A read queues no user-defined data** of its own. -/
theorem noUdd_read {q : StRxQueue} (h : q.Counts) (hus : q.udd = []) (uddEn : Bool)
    (lens : List ℕ) : (qdmaDescqRxqRead listOps page uddEn lens q).rxq.udd = [] := by
  have hstart : (readStart uddEn q).rxq.udd = [] := by
    have hdeq : ∀ p : StRxQueue, p.udd = [] → uddDequeueHead p = (none, p) := by
      intro p hp
      simp only [uddDequeueHead, hp]
    have hrx : (rxqDequeueHead q).2.udd = [] := (rxqDequeueHead_udd q).trans hus
    unfold Qdma.readStart
    dsimp only
    split
    · rw [hdeq _ hrx]
      exact hrx
    · exact hrx
  have hwalk := noUdd_readSgl page lens (Counted.readStart h uddEn) hstart
  obtain ⟨-, -, -, heq⟩ | ⟨s, rfl, ⟨-, heq⟩ | ⟨-, heq⟩⟩ := read_cases page uddEn lens q
  · rw [heq]
    exact hus
  · rw [heq]
    exact hwalk
  · rw [heq]
    dsimp only
    unfold Qdma.putBack
    cases hcur : (readSgl listOps page lens (readStart uddEn q)).2.rx with
    | none => exact hwalk
    | some node =>
        dsimp only
        split
        · exact (rxqEnqueueHead_udd _ node).trans hwalk
        · exact hwalk

end Walk

end Qdma

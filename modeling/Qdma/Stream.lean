import Qdma.Lib.Trace
import Qdma.ReadSpec

/-!
# The bytes a reader gets

A streaming C2H queue is meant to be a byte stream: the packets one after another,
each as its user-defined data followed by its payload.  `stream` is the bytes on the
queue in that order and `fill` is what a scatter list makes of a stream.

`read_stream` is the one walk: if no entry of the scatter list ends inside
user-defined data, or right behind it with more of it on the queue (`Clear`), a read
fills the list from the stream and leaves the rest of it.  Without user-defined data
nothing is asked of the scatter list.
-/

namespace Qdma

open Lib

/-! ## The stream on a queue -/

/-- What is left of a page. -/
def StRxData.bytes (page : Option ℕ → ℕ → BitVec 8) (rx : StRxData) : List (BitVec 8) :=
  dataOut page rx (rx.len - rx.offset)

/-- The pages with the user-defined data in front of those that start a packet. -/
def stream (page : Option ℕ → ℕ → BitVec 8) :
    List StRxData → List StC2hWrbUdd → List (BitVec 8)
  | [], _ => []
  | n :: ns, us =>
      if n.leads then
        match us with
        | [] => n.bytes page ++ stream page ns []
        | u :: us => u.data ++ (n.bytes page ++ stream page ns us)
      else n.bytes page ++ stream page ns us

/-- Every page that starts a packet has its user-defined data, none of it copied
yet, and there is no other. -/
def Paired : List StRxData → List StC2hWrbUdd → Prop
  | [], us => us = []
  | n :: ns, us =>
      if n.leads then
        match us with
        | [] => False
        | u :: us => u.offset = 0 ∧ u.data.length = u.uddLen ∧ Paired ns us
      else Paired ns us

/-- The lists belong together: they are paired, or the user-defined data of the first
packet is read, none of its payload is, and no other packet is there. -/
def Matched (ns : List StRxData) (us : List StC2hWrbUdd) : Prop :=
  Paired ns us ∨ us = [] ∧ Paired ns.tail []

/-- Position `e` of the stream is inside user-defined data, or right behind it and not
the last on the queue. -/
def InUdd : List StRxData → List StC2hWrbUdd → ℕ → Prop
  | [], _, _ => False
  | n :: ns, us, e =>
      if n.leads then
        match us with
        | [] => False
        | u :: us =>
            (0 < e ∧ (e < u.uddLen ∨ e = u.uddLen ∧ us ≠ [])) ∨
              u.uddLen + (n.len - n.offset) ≤ e ∧
                InUdd ns us (e - (u.uddLen + (n.len - n.offset)))
      else n.len - n.offset ≤ e ∧ InUdd ns us (e - (n.len - n.offset))

/-- The positions of user-defined data behind page `n`. -/
def InUddAfter (n : StRxData) (ns : List StRxData) (us : List StC2hWrbUdd) (e : ℕ) : Prop :=
  n.len - n.offset ≤ e ∧ InUdd ns us (e - (n.len - n.offset))

/-- No entry of the scatter list ends there. -/
def StRxQueue.Clear (q : StRxQueue) (lens : List ℕ) : Prop :=
  ∀ ls ∈ lens.inits, ¬ InUdd q.rx q.udd ls.sum

/-- What the entries of a scatter list receive from a stream. -/
def fill : List ℕ → List (BitVec 8) → List (List (BitVec 8))
  | [], _ => []
  | len :: rest, bs => bs.take len :: fill rest (bs.drop len)

section Heads

variable {n : StRxData} {ns : List StRxData}

theorem stream_lead (page : Option ℕ → ℕ → BitVec 8) (h : n.leads = true) (u : StC2hWrbUdd)
    (us : List StC2hWrbUdd) :
    stream page (n :: ns) (u :: us) = u.data ++ (n.bytes page ++ stream page ns us) := by
  rw [stream, if_pos h]

theorem stream_noLead (page : Option ℕ → ℕ → BitVec 8) (h : n.leads = false)
    (us : List StC2hWrbUdd) : stream page (n :: ns) us = n.bytes page ++ stream page ns us := by
  conv_lhs => unfold stream
  rw [h, if_neg Bool.false_ne_true]

theorem paired_lead (h : n.leads = true) {us : List StC2hWrbUdd} :
    Paired (n :: ns) us ↔ ∃ u us', us = u :: us' ∧ u.offset = 0 ∧ u.data.length = u.uddLen ∧
      Paired ns us' := by
  conv_lhs => unfold Paired
  rw [if_pos h]
  cases us with
  | nil => simp
  | cons u us => simp

theorem paired_noLead (h : n.leads = false) {us : List StC2hWrbUdd} :
    Paired (n :: ns) us ↔ Paired ns us := by
  conv_lhs => unfold Paired
  rw [h, if_neg Bool.false_ne_true]

theorem inUdd_lead (h : n.leads = true) (u : StC2hWrbUdd) (us : List StC2hWrbUdd) (e : ℕ) :
    InUdd (n :: ns) (u :: us) e ↔
      (0 < e ∧ (e < u.uddLen ∨ e = u.uddLen ∧ us ≠ [])) ∨
        u.uddLen ≤ e ∧ InUddAfter n ns us (e - u.uddLen) := by
  rw [InUdd, if_pos h]
  refine or_congr Iff.rfl ?_
  unfold InUddAfter
  rw [Nat.sub_sub, ← and_assoc]
  refine and_congr_left' ?_
  omega

theorem inUdd_leadNil (h : n.leads = true) (e : ℕ) : ¬ InUdd (n :: ns) [] e := by
  rw [InUdd, if_pos h]
  exact id

theorem stream_leadNil (page : Option ℕ → ℕ → BitVec 8) (h : n.leads = true) :
    stream page (n :: ns) [] = n.bytes page ++ stream page ns [] := by
  rw [stream, if_pos h]

theorem inUdd_noLead (h : n.leads = false) (us : List StC2hWrbUdd) (e : ℕ) :
    InUdd (n :: ns) us e ↔ InUddAfter n ns us e := by
  unfold InUdd
  rw [h, if_neg Bool.false_ne_true]
  rfl

end Heads

theorem fill_nil : ∀ lens : List ℕ, fill lens [] = lens.map fun _ => [] := by
  intro lens
  induction lens with
  | nil => rfl
  | cons len rest ih => simp [fill, ih]

/-- The entries are filled contiguously and in order. -/
theorem fill_flatten :
    ∀ (lens : List ℕ) (bs : List (BitVec 8)), (fill lens bs).flatten = bs.take lens.sum := by
  intro lens
  induction lens with
  | nil => intro bs; simp [fill]
  | cons len rest ih => intro bs; simp [fill, ih, List.take_add]

@[simp] theorem dataOut_length (page : Option ℕ → ℕ → BitVec 8) (n : StRxData) (k : ℕ) :
    (dataOut page n k).length = k := by
  simp [dataOut]

@[simp] theorem StRxData.bytes_length (page : Option ℕ → ℕ → BitVec 8) (n : StRxData) :
    (n.bytes page).length = n.len - n.offset := dataOut_length page n _

theorem dataOut_add (page : Option ℕ → ℕ → BitVec 8) (n : StRxData) (j k : ℕ) :
    dataOut page n (j + k) = dataOut page n j ++ dataOut page { n with offset := n.offset + j } k := by
  simp [dataOut, List.range_add, Nat.add_assoc]

/-- The first `k` bytes of a page, and the page behind them. -/
theorem StRxData.bytes_split (page : Option ℕ → ℕ → BitVec 8) (n : StRxData) {k : ℕ}
    (hk : k ≤ n.len - n.offset) :
    n.bytes page =
      dataOut page n k ++ StRxData.bytes page { n with offset := n.offset + k } := by
  unfold StRxData.bytes
  rw [← dataOut_add]
  congr 1
  dsimp only
  omega

theorem Paired.stream_length (page : Option ℕ → ℕ → BitVec 8) :
    ∀ (ns : List StRxData) (us : List StC2hWrbUdd), Paired ns us →
      (stream page ns us).length = rxBytes ns + uddBytes us := by
  intro ns
  induction ns with
  | nil => intro us h; rw [show us = [] from h]; rfl
  | cons n ns ih =>
      intro us h
      cases hlead : n.leads with
      | true =>
          obtain ⟨u, us, rfl, h0, hlen, hrest⟩ := (paired_lead hlead).mp h
          rw [stream_lead page hlead]
          simp only [List.length_append, StRxData.bytes_length, ih us hrest, rxBytes_cons,
            uddBytes_cons]
          omega
      | false =>
          rw [stream_noLead page hlead, List.length_append, StRxData.bytes_length,
            ih us ((paired_noLead hlead).mp h), rxBytes_cons]
          omega

/-- Without user-defined data on the queue no position is in it. -/
theorem Paired.not_inUdd :
    ∀ {ns : List StRxData}, Paired ns [] → ∀ e, ¬ InUdd ns [] e := by
  intro ns
  induction ns with
  | nil => intro _ e he; exact he
  | cons n ns ih =>
      intro h e he
      cases hlead : n.leads with
      | true => exact inUdd_leadNil hlead e he
      | false => exact ih ((paired_noLead hlead).mp h) _ ((inUdd_noLead hlead [] e).mp he).2

theorem Matched.stream_length (page : Option ℕ → ℕ → BitVec 8) {ns : List StRxData}
    {us : List StC2hWrbUdd} (h : Matched ns us) :
    (stream page ns us).length = rxBytes ns + uddBytes us := by
  obtain hpair | ⟨rfl, htail⟩ := h
  · exact hpair.stream_length page ns us
  · cases ns with
    | nil => rfl
    | cons n ns =>
        have hlen := Paired.stream_length page ns [] htail
        have hstream : stream page (n :: ns) [] = n.bytes page ++ stream page ns [] := by
          cases hlead : n.leads with
          | true => exact stream_leadNil page hlead
          | false => exact stream_noLead page hlead []
        rw [hstream, List.length_append, hlen, StRxData.bytes_length, rxBytes_cons]
        omega

/-! ## The walk -/

section Walk

variable (page : Option ℕ → ℕ → BitVec 8)

/-- A read in progress with the stream `S` before it. -/
structure Streams (c : ListCursor) (S : List (BitVec 8)) : Prop where
  counted : Counted c
  paired : Matched (c.rx.toList ++ c.rxq.rx) c.rxq.udd
  bytes : stream page (c.rx.toList ++ c.rxq.rx) c.rxq.udd = S
  udd : c.udd = none
  oops : c.oops = false
  copied : c.copied + S.length < 2 ^ 32
  exhausted : c.rx = none → c.rxq.rx = []

/-- What `k` bytes copied from the stream `S` make of the cursor. -/
structure Moved (c c' : ListCursor) (S : List (BitVec 8)) (k : ℕ) : Prop where
  streams : Streams page c' (S.drop k)
  out : c'.out = c.out ++ S.take k
  copied : c'.copied = c.copied + k
  le : k ≤ S.length

/-- The payload of the current page, whose user-defined data is not on the queue any
more (or never was). -/
theorem copyData_moved {c : ListCursor} (h : Counted c) {node : StRxData}
    (hcur : c.rx = some node) (hpair : Paired c.rxq.rx c.rxq.udd) (hudd : c.udd = none)
    (hoops : c.oops = false) {T : List (BitVec 8)}
    (hT : node.bytes page ++ stream page c.rxq.rx c.rxq.udd = T)
    (hcopied : c.copied + T.length < 2 ^ 32) {len : ℕ} (hlen : 0 < len) :
    ∃ k, 0 < k ∧ k ≤ len ∧ (copyData listOps page node len c).1 = len - k ∧
      Moved page c (copyData listOps page node len c).2 T k ∧
      ∀ e, InUdd ((copyData listOps page node len c).2.rx.toList ++
          (copyData listOps page node len c).2.rxq.rx)
          (copyData listOps page node len c).2.rxq.udd e →
        InUddAfter node c.rxq.rx c.rxq.udd (e + k) := by
  have hok := h.cur node hcur
  have hpos := hok.offset
  have hTlen : T.length = (node.len - node.offset) + (stream page c.rxq.rx c.rxq.udd).length := by
    rw [← hT, List.length_append, StRxData.bytes_length]
  have hcounted := h.copyData page hcur len
  by_cases hfull : node.len - node.offset ≤ len
  · -- the page is used up: the cursor moves to the next one
    rw [copyData_whole page hok hfull] at hcounted ⊢
    have hnext : (rxqDequeueHead c.rxq).1.toList ++ (rxqDequeueHead c.rxq).2.rx = c.rxq.rx ∧
        (rxqDequeueHead c.rxq).2.udd = c.rxq.udd ∧
        ((rxqDequeueHead c.rxq).1 = none → (rxqDequeueHead c.rxq).2.rx = []) := by
      cases hq : c.rxq.rx with
      | nil => rw [rxqDequeueHead_nil hq]; simp [hq]
      | cons n ns =>
          obtain ⟨-, -, hdeq⟩ := h.counts.rxDequeueHead_eq hq
          rw [hdeq]
          simp
    have hsplit : T.take (node.len - node.offset) = node.bytes page ∧
        T.drop (node.len - node.offset) = stream page c.rxq.rx c.rxq.udd := by
      rw [← hT]
      constructor
      · exact List.take_left' (StRxData.bytes_length page node)
      · exact List.drop_left' (StRxData.bytes_length page node)
    have hu32 : u32 (c.copied + (node.len - node.offset)) = c.copied + (node.len - node.offset) :=
      u32_of_lt (by omega)
    refine ⟨node.len - node.offset, by omega, hfull, rfl, ⟨⟨hcounted, ?_, ?_, hudd, hoops, ?_,
      hnext.2.2⟩, ?_, hu32, by omega⟩, ?_⟩
    · dsimp only
      rw [hnext.1, hnext.2.1]
      exact Or.inl hpair
    · dsimp only
      rw [hnext.1, hnext.2.1, hsplit.2]
    · dsimp only
      rw [hu32, List.length_drop]
      omega
    · dsimp only
      rw [hsplit.1]
      rfl
    · intro e he
      dsimp only at he
      rw [hnext.1, hnext.2.1] at he
      refine ⟨Nat.le_add_left _ _, ?_⟩
      rw [Nat.add_sub_cancel]
      exact he
  · -- the entry is full: the page keeps its rest, and no packet starts there
    have hpart := Nat.lt_of_not_le hfull
    rw [copyData_part page hok hpart] at hcounted ⊢
    have hlead : StRxData.leads { node with offset := node.offset + len } = false := by
      have hne : ¬ node.offset + len = 0 := by omega
      unfold StRxData.leads
      rw [decide_eq_false hne, Bool.and_false]
    have hbytes := node.bytes_split page (k := len) hpart.le
    have hsplit : T.take len = dataOut page node len ∧
        T.drop len = StRxData.bytes page { node with offset := node.offset + len } ++
          stream page c.rxq.rx c.rxq.udd := by
      rw [← hT, hbytes, List.append_assoc]
      constructor
      · exact List.take_left' (dataOut_length page node len)
      · exact List.drop_left' (dataOut_length page node len)
    have hu32 : u32 (c.copied + len) = c.copied + len := u32_of_lt (by omega)
    refine ⟨len, hlen, le_rfl, (Nat.sub_self len).symm, ⟨⟨hcounted, ?_, ?_, hudd, hoops, ?_,
      fun hc => by cases hc⟩, ?_, hu32, by omega⟩, ?_⟩
    · exact Or.inl ((paired_noLead hlead).mpr hpair)
    · rw [hsplit.2]
      exact stream_noLead page hlead _
    · dsimp only
      rw [hu32, List.length_drop]
      omega
    · dsimp only
      rw [hsplit.1]
    · intro e he
      obtain ⟨hge, hin⟩ := (inUdd_noLead hlead _ e).mp he
      dsimp only at hge hin
      refine ⟨by omega, ?_⟩
      have hsub : e + len - (node.len - node.offset) = e - (node.len - (node.offset + len)) := by
        omega
      rw [hsub]
      exact hin

theorem uddOut_eq {node : StRxData} (hnode : node.offset = 0) {u : StC2hWrbUdd}
    (hlen : u.data.length = u.uddLen) : uddOut node u u.uddLen = u.data := by
  refine List.ext_getElem (by simp [uddOut, hlen]) ?_
  intro i h₁ h₂
  simp [uddOut, hnode, h₂]

/-- The body of the loop: the user-defined data, if a packet starts here, and then the
payload. -/
def readPass (node : StRxData) (len : ℕ) (c : ListCursor) : ℕ × ListCursor :=
  let r := if node.leads || c.udd.isSome then copyUdd listOps node len c else (len, c)
  copyData listOps page node r.1 r.2

theorem readEntry_succ {c : ListCursor} {node : StRxData} (hcur : c.rx = some node) {len : ℕ}
    (hlen : len ≠ 0) (fuel : ℕ) :
    readEntry listOps page (fuel + 1) len c =
      readEntry listOps page fuel (readPass page node len c).1 (readPass page node len c).2 := by
  rw [readEntry, if_neg hlen, hcur]
  rfl

theorem leads_offset {node : StRxData} (h : node.leads = true) : node.offset = 0 := by
  unfold StRxData.leads at h
  rw [Bool.and_eq_true, decide_eq_true_eq] at h
  exact h.2

/-- User-defined data copied whole, and then `k` bytes of what is behind it. -/
theorem Moved.behindUdd {c c₂ : ListCursor} {node : StRxData} (hoffset : node.offset = 0)
    {u : StC2hWrbUdd} (us : List StC2hWrbUdd) (hdata : u.data.length = u.uddLen)
    {S T : List (BitVec 8)} (hS : u.data ++ T = S) (hcopied : c.copied + S.length < 2 ^ 32) {k : ℕ}
    (h : Moved page (afterUdd node u us u.uddLen c) c₂ T k) : Moved page c c₂ S (u.uddLen + k) := by
  have hlen : S.length = u.uddLen + T.length := by
    rw [← hS, List.length_append, hdata]
  have hcopied₁ : (afterUdd node u us u.uddLen c).copied = c.copied + u.uddLen :=
    u32_of_lt (by omega)
  refine ⟨?_, ?_, ?_, ?_⟩
  · have hdrop : S.drop (u.uddLen + k) = T.drop k := by
      rw [← hS, ← hdata]
      exact List.drop_length_add_append k
    rw [hdrop]
    exact h.streams
  · have htake : S.take (u.uddLen + k) = u.data ++ T.take k := by
      rw [← hS, ← hdata]
      exact List.take_length_add_append k
    have hout : (afterUdd node u us u.uddLen c).out = c.out ++ u.data := by
      rw [← uddOut_eq hoffset hdata]
      rfl
    rw [htake, ← List.append_assoc, ← hout]
    exact h.out
  · rw [h.copied, hcopied₁, Nat.add_assoc]
  · rw [hlen]
    exact Nat.add_le_add_left h.le _

/-- An entry that is full before the payload: the page stays where it is. -/
theorem copyData_none {c : ListCursor} (h : Counted c) {node : StRxData} (hcur : c.rx = some node)
    (hlead : node.leads = true) (hus : c.rxq.udd = []) (hpair : Paired c.rxq.rx [])
    (hudd : c.udd = none) (hoops : c.oops = false)
    (hcopied : c.copied + (node.bytes page ++ stream page c.rxq.rx []).length < 2 ^ 32) :
    (copyData listOps page node 0 c).1 = 0 ∧
      Moved page c (copyData listOps page node 0 c).2
        (node.bytes page ++ stream page c.rxq.rx []) 0 ∧
      (copyData listOps page node 0 c).2.rx = some node ∧
      (copyData listOps page node 0 c).2.rxq = c.rxq := by
  have hok := h.cur node hcur
  have hpos := hok.offset
  have hcounted := h.copyData page hcur 0
  have hpart := copyData_part page (c := c) hok (show 0 < node.len - node.offset by omega)
  have hu32 : u32 (c.copied + 0) = c.copied := u32_of_lt (by omega)
  have hnode : { node with offset := node.offset + 0 } = node := rfl
  rw [hnode] at hpart
  rw [hpart] at hcounted ⊢
  refine ⟨rfl, ⟨⟨hcounted, ?_, ?_, hudd, hoops, ?_, fun hc => by cases hc⟩, ?_, ?_,
    Nat.zero_le _⟩, rfl, rfl⟩
  · exact Or.inr ⟨hus, hpair⟩
  · dsimp only [Option.toList_some, List.cons_append, List.nil_append]
    rw [hus, stream_leadNil page hlead, List.drop_zero]
  · dsimp only
    rw [hu32]
    exact hcopied
  · simp [dataOut]
  · exact hu32

/-- What one pass of the loop must do. -/
def PassMoves (c : ListCursor) (S : List (BitVec 8)) (node : StRxData) (len : ℕ) : Prop :=
  ∃ k, 0 < k ∧ k ≤ len ∧ (readPass page node len c).1 = len - k ∧
    Moved page c (readPass page node len c).2 S k ∧
    ∀ e, InUdd ((readPass page node len c).2.rx.toList ++ (readPass page node len c).2.rxq.rx)
        (readPass page node len c).2.rxq.udd e → InUdd (node :: c.rxq.rx) c.rxq.udd (e + k)

/-- A packet starts here: the entry takes its user-defined data whole. -/
theorem pass_lead {c : ListCursor} {S : List (BitVec 8)} (h : Streams page c S)
    {node : StRxData} (hcur : c.rx = some node) (hlead : node.leads = true) {len : ℕ}
    (hlen : 0 < len) (hpair : Paired (node :: c.rxq.rx) c.rxq.udd)
    (hclear : ¬ InUdd (node :: c.rxq.rx) c.rxq.udd len) : PassMoves page c S node len := by
  have hbytes := h.bytes
  have hcopied := h.copied
  rw [hcur, Option.toList_some, List.singleton_append] at hbytes
  obtain ⟨u, us, hq, h0, hdata, hrest⟩ := (paired_lead hlead).mp hpair
  rw [hq, stream_lead page hlead] at hbytes
  rw [hq, inUdd_lead hlead] at hclear
  have hu : u.uddLen - u.offset = u.uddLen := by rw [h0, Nat.sub_zero]
  have huok := h.counted.counts.udd u (by rw [hq]; exact List.mem_cons_self ..)
  have hupos := huok.offset
  have hS : S.length = u.uddLen + (node.bytes page ++ stream page c.rxq.rx us).length := by
    rw [← hbytes, List.length_append, hdata]
  have hcopied₁ : (afterUdd node u us u.uddLen c).copied = c.copied + u.uddLen :=
    u32_of_lt (by omega)
  have hfit : u.uddLen < len ∨ len = u.uddLen ∧ us = [] := by
    by_contra hno
    obtain ⟨hle, hexact⟩ := not_or.mp hno
    refine hclear (Or.inl ⟨hlen, ?_⟩)
    by_cases heq : len = u.uddLen
    · exact Or.inr ⟨heq, fun hus => hexact ⟨heq, hus⟩⟩
    · exact Or.inl (by omega)
  have hwhole := copyUdd_whole h.counted.counts hq node (show u.uddLen - u.offset ≤ len by omega)
  obtain ⟨hcounted, hrx⟩ := h.counted.copyUdd node len
  rw [hwhole, hu] at hcounted hrx
  have hpass : readPass page node len c =
      copyData listOps page node (len - u.uddLen) (afterUdd node u us u.uddLen c) := by
    unfold readPass
    rw [hlead, Bool.true_or, if_pos rfl, hwhole, hu]
  unfold PassMoves
  rw [hpass, hq]
  obtain hlt | ⟨heq, rfl⟩ := hfit
  · obtain ⟨k, hk, hkle, hlen', hmoved, hin⟩ := copyData_moved page hcounted
      (hrx.trans hcur) hrest rfl h.oops (T := node.bytes page ++ stream page c.rxq.rx us) rfl
      (by rw [hcopied₁]; omega) (show 0 < len - u.uddLen by omega)
    refine ⟨u.uddLen + k, by omega, by omega, hlen'.trans (by omega),
      hmoved.behindUdd page (leads_offset hlead) us hdata hbytes hcopied, ?_⟩
    intro e he
    have hafter := hin e he
    refine (inUdd_lead hlead u us _).mpr (Or.inr ⟨by omega, ?_⟩)
    have hsub : e + (u.uddLen + k) - u.uddLen = e + k := by omega
    rw [hsub]
    exact hafter
  · -- the entry ends right behind the last user-defined data
    have hzero : len - u.uddLen = 0 := by omega
    have hroom : (afterUdd node u [] u.uddLen c).copied +
        (node.bytes page ++ stream page c.rxq.rx []).length < 2 ^ 32 := by
      rw [hcopied₁]
      omega
    rw [hzero]
    obtain ⟨hlen', hmoved, hrx', hrxq'⟩ := copyData_none page hcounted (hrx.trans hcur) hlead rfl
      hrest rfl h.oops hroom
    refine ⟨u.uddLen + 0, by omega, by omega, hlen'.trans (by omega),
      hmoved.behindUdd page (leads_offset hlead) [] hdata hbytes hcopied, ?_⟩
    intro e he
    rw [hrx', hrxq'] at he
    exact absurd he (inUdd_leadNil hlead e)

/-- The payload of a packet whose user-defined data is gone, or that has none. -/
theorem pass_payload {c : ListCursor} {S : List (BitVec 8)} (h : Streams page c S)
    {node : StRxData} (hcur : c.rx = some node) {len : ℕ} (hlen : 0 < len)
    (hhead : node.leads = true → c.rxq.udd = []) (hpair : Paired c.rxq.rx c.rxq.udd) :
    PassMoves page c S node len := by
  have hbytes := h.bytes
  rw [hcur, Option.toList_some, List.singleton_append] at hbytes
  unfold PassMoves
  cases hlead : node.leads with
  | true =>
      have hnil := hhead hlead
      have hpass : readPass page node len c = copyData listOps page node len { c with udd := none } := by
        unfold readPass
        rw [hlead, Bool.true_or, if_pos rfl, copyUdd_nil hnil]
      rw [hnil, stream_leadNil page hlead, ← hnil] at hbytes
      obtain ⟨k, hk, hkle, hlen', hmoved, hin⟩ := copyData_moved page (c := { c with udd := none })
        ⟨h.counted.counts, h.counted.cur, h.counted.room⟩ hcur hpair rfl h.oops hbytes h.copied hlen
      rw [hpass]
      refine ⟨k, hk, hkle, hlen', ⟨hmoved.streams, hmoved.out, hmoved.copied, hmoved.le⟩, ?_⟩
      intro e he
      obtain ⟨-, hin'⟩ := hin e he
      rw [show ({ c with udd := none } : ListCursor).rxq.udd = [] from hnil] at hin'
      rw [show ({ c with udd := none } : ListCursor).rxq.udd = [] from hnil] at hpair
      exact absurd hin' (Paired.not_inUdd hpair _)
  | false =>
      have hpass : readPass page node len c = copyData listOps page node len c := by
        unfold readPass
        rw [hlead, h.udd]
        rfl
      rw [stream_noLead page hlead] at hbytes
      obtain ⟨k, hk, hkle, hlen', hmoved, hin⟩ := copyData_moved page h.counted hcur hpair h.udd
        h.oops hbytes h.copied hlen
      rw [hpass]
      refine ⟨k, hk, hkle, hlen', hmoved, ?_⟩
      intro e he
      exact (inUdd_noLead hlead _ _).mpr (hin e he)

theorem pass_moved {c : ListCursor} {S : List (BitVec 8)} (h : Streams page c S)
    {node : StRxData} (hcur : c.rx = some node) {len : ℕ} (hlen : 0 < len)
    (hclear : ¬ InUdd (node :: c.rxq.rx) c.rxq.udd len) : PassMoves page c S node len := by
  have hmatched := h.paired
  rw [hcur, Option.toList_some, List.singleton_append] at hmatched
  obtain hpair | ⟨hnil, htail⟩ := hmatched
  · cases hlead : node.leads with
    | true => exact pass_lead page h hcur hlead hlen hpair hclear
    | false =>
        refine pass_payload page h hcur hlen (fun hl => ?_) ((paired_noLead hlead).mp hpair)
        rw [hlead] at hl
        cases hl
  · refine pass_payload page h hcur hlen (fun _ => hnil) ?_
    rw [hnil]
    exact htail

/-- **One entry of the scatter list** takes the next `len` bytes of the stream.  The
induction is on the fuel; every pass copies something. -/
theorem readEntry_moved :
    ∀ (fuel len : ℕ) {c : ListCursor} {S : List (BitVec 8)}, len < fuel → Streams page c S →
      ¬ InUdd (c.rx.toList ++ c.rxq.rx) c.rxq.udd len →
      ∃ k, k = min len S.length ∧ Moved page c (readEntry listOps page fuel len c) S k ∧
        ∀ e, InUdd ((readEntry listOps page fuel len c).rx.toList ++
            (readEntry listOps page fuel len c).rxq.rx)
            (readEntry listOps page fuel len c).rxq.udd e →
          InUdd (c.rx.toList ++ c.rxq.rx) c.rxq.udd (e + len) := by
  intro fuel
  induction fuel with
  | zero => intro len c S hfuel; exact absurd hfuel (Nat.not_lt_zero len)
  | succ fuel ih =>
      intro len c S hfuel h hclear
      by_cases hlen : len = 0
      · subst hlen
        rw [readEntry, if_pos rfl]
        refine ⟨0, by simp, ⟨?_, by simp, rfl, Nat.zero_le _⟩, fun e he => he⟩
        rw [List.drop_zero]
        exact h
      · cases hcur : c.rx with
        | none =>
            -- nothing is left: `Paired` leaves no user-defined data behind
            have hstop : readEntry listOps page (fuel + 1) len c = c := by
              simp only [readEntry, if_neg hlen, hcur, h.udd, Option.isSome_none,
                Bool.false_eq_true, if_false]
            have hS := h.bytes
            have hrxq : c.rxq.rx = [] := h.exhausted hcur
            rw [hcur, hrxq] at hS
            have hnil : S = [] := hS.symm
            subst hnil
            rw [hstop]
            refine ⟨0, by simp, ⟨h, by simp, rfl, le_rfl⟩, ?_⟩
            intro e he
            rw [hcur, hrxq] at he
            exact absurd he id
        | some node =>
            rw [hcur, Option.toList_some, List.singleton_append] at hclear
            obtain ⟨k, hk, hkle, hlen', hmoved, hin⟩ := pass_moved page h hcur
              (Nat.pos_of_ne_zero hlen) hclear
            rw [readEntry_succ page hcur hlen, hlen']
            obtain ⟨j, hj, hmoved', hin'⟩ := ih (len - k) (by omega) hmoved.streams
              (fun he => hclear (by
                have hback := hin _ he
                rwa [Nat.sub_add_cancel hkle] at hback))
            refine ⟨k + j, ?_, ⟨?_, ?_, ?_, ?_⟩, ?_⟩
            · rw [hj, List.length_drop]
              have := hmoved.le
              omega
            · rw [← List.drop_drop]
              exact hmoved'.streams
            · rw [hmoved'.out, hmoved.out, List.append_assoc, List.take_add]
            · rw [hmoved'.copied, hmoved.copied, Nat.add_assoc]
            · have h₁ := hmoved.le
              have h₂ := hmoved'.le
              rw [List.length_drop] at h₂
              omega
            · intro e he
              have hback := hin _ (hin' e he)
              rw [Nat.add_assoc, Nat.sub_add_cancel hkle] at hback
              exact hback

theorem take_min_length {α : Type} (n : ℕ) (l : List α) : l.take (min n l.length) = l.take n := by
  obtain h | h := Nat.le_total n l.length
  · rw [Nat.min_eq_left h]
  · rw [Nat.min_eq_right h, List.take_length, List.take_of_length_le h]

theorem drop_min_length {α : Type} (n : ℕ) (l : List α) : l.drop (min n l.length) = l.drop n := by
  obtain h | h := Nat.le_total n l.length
  · rw [Nat.min_eq_left h]
  · rw [Nat.min_eq_right h, List.drop_length, List.drop_of_length_le h]

/-- **The whole scatter list.** -/
theorem readSgl_moved :
    ∀ (lens : List ℕ) {c : ListCursor} {S : List (BitVec 8)}, Streams page c S →
      (∀ ls ∈ lens.inits, ¬ InUdd (c.rx.toList ++ c.rxq.rx) c.rxq.udd ls.sum) →
      (readSgl listOps page lens c).1 = fill lens S ∧
        Streams page (readSgl listOps page lens c).2 (S.drop lens.sum) ∧
        (readSgl listOps page lens c).2.copied = c.copied + min lens.sum S.length := by
  intro lens
  induction lens with
  | nil =>
      intro c S h _
      refine ⟨rfl, ?_, by simp [readSgl]⟩
      rw [List.sum_nil, List.drop_zero]
      exact h
  | cons len rest ih =>
      intro c S h hclear
      have hstart : Streams page { c with out := [] } S :=
        ⟨⟨h.counted.counts, h.counted.cur, h.counted.room⟩, h.paired, h.bytes, h.udd, h.oops,
          h.copied, h.exhausted⟩
      have hlen : [len] ∈ (len :: rest).inits := by
        rw [List.mem_inits]
        exact ⟨rest, rfl⟩
      have hclear₁ := hclear [len] hlen
      rw [List.sum_singleton] at hclear₁
      obtain ⟨k, hk, hmoved, hin⟩ := readEntry_moved page (len + listOps.size c.rxq + 1) len
        (by omega) hstart hclear₁
      have hstreams := hmoved.streams
      have hout := hmoved.out
      have hcopied := hmoved.copied
      rw [hk, drop_min_length] at hstreams
      rw [hk, take_min_length, List.nil_append] at hout
      unfold readSgl
      dsimp only
      generalize readEntry listOps page (len + listOps.size c.rxq + 1) len { c with out := [] } = c₁
        at hstreams hout hcopied hin ⊢
      rw [hstreams.oops, Bool.false_or, hstreams.udd, Option.isNone_none, Bool.and_true]
      cases hrx : c₁.rx with
      | none =>
          -- the queue is exhausted, and so is the stream
          have hnil : S.drop len = [] := by
            rw [← hstreams.bytes, hrx, hstreams.exhausted hrx]
            rfl
          simp only [Option.isNone_none, if_true]
          refine ⟨?_, ?_, ?_⟩
          · rw [hout, fill, hnil, fill_nil]
          · rw [List.sum_cons, ← List.drop_drop, hnil, List.drop_nil, ← hnil]
            exact hstreams
          · have hle : S.length ≤ len := List.drop_eq_nil_iff.mp hnil
            rw [hcopied, hk, List.sum_cons]
            dsimp only
            omega
      | some node =>
          simp only [Option.isNone_some, Bool.false_eq_true, if_false]
          obtain ⟨hfill, hrest, hcopied'⟩ := ih hstreams (by
            intro ls hls he
            have hmem : len :: ls ∈ (len :: rest).inits := by
              rw [List.mem_inits] at hls ⊢
              exact (List.prefix_cons_inj len).mpr hls
            refine hclear _ hmem ?_
            rw [List.sum_cons, Nat.add_comm]
            exact hin _ he)
          refine ⟨?_, ?_, ?_⟩
          · rw [hout, hfill, fill]
          · rw [List.sum_cons, ← List.drop_drop]
            exact hrest
          · rw [hcopied', hcopied, hk, List.sum_cons, List.length_drop]
            dsimp only
            omega

/-- A queue whose lists belong together. -/
structure StRxQueue.Good (q : StRxQueue) : Prop where
  counts : q.Counts
  paired : Matched q.rx q.udd

/-- The bytes on the queue. -/
def StRxQueue.stream (page : Option ℕ → ℕ → BitVec 8) (q : StRxQueue) : List (BitVec 8) :=
  Qdma.stream page q.rx q.udd

theorem StRxQueue.Good.stream_length {q : StRxQueue} (h : q.Good) :
    (q.stream page).length = q.dlen :=
  (h.paired.stream_length page).trans h.counts.dlen.symm

theorem StRxQueue.Good.streams {q : StRxQueue} (h : q.Good) (uddEn : Bool) :
    Streams page (readStart uddEn q) (q.stream page) ∧
      (readStart uddEn q).rx.toList ++ (readStart uddEn q).rxq.rx = q.rx ∧
      (readStart uddEn q).rxq.udd = q.udd := by
  have hcounted := Counted.readStart h.counts uddEn
  have hlen : 0 + (q.stream page).length < 2 ^ 32 := by
    rw [h.stream_length, Nat.zero_add]
    exact h.counts.lt
  cases hq : q.rx with
  | nil =>
      have hudd : q.udd = [] := by
        have hpaired := h.paired
        rw [hq] at hpaired
        obtain hpair | ⟨hnil, -⟩ := hpaired
        · exact hpair
        · exact hnil
      have hstart : readStart uddEn q =
          { rxq := q, rx := none, udd := none, out := [], copied := 0, freed := [],
            oops := false } := by
        have hdeq : uddDequeueHead q = (none, q) := by simp only [uddDequeueHead, hudd]
        unfold readStart
        rw [rxqDequeueHead_nil hq]
        cases uddEn with
        | false => rfl
        | true => simp only [Option.isNone_none, Bool.and_self, if_true, hdeq]
      rw [hstart] at hcounted ⊢
      refine ⟨⟨hcounted, h.paired, rfl, rfl, rfl, hlen, fun _ => hq⟩, ?_, rfl⟩
      simp [hq]
  | cons n ns =>
      obtain ⟨-, -, hdeq⟩ := h.counts.rxDequeueHead_eq hq
      have hstart : readStart uddEn q =
          { rxq := { q with rx := ns, dlen := q.dlen - (n.len - n.offset) }, rx := some n,
            udd := none, out := [], copied := 0, freed := [], oops := false } := by
        unfold readStart
        rw [hdeq]
        rfl
      rw [hstart] at hcounted ⊢
      have hlist : (some n).toList ++ ns = q.rx := by rw [hq]; rfl
      refine ⟨⟨hcounted, ?_, ?_, rfl, rfl, hlen, fun hc => by cases hc⟩, rfl, rfl⟩
      · dsimp only
        rw [hlist]
        exact h.paired
      · dsimp only
        rw [hlist]
        rfl

/-- Putting the current page back changes neither the bytes nor how they belong
together. -/
theorem Streams.putBack {c : ListCursor} {S : List (BitVec 8)} (h : Streams page c S) :
    (putBack listOps c).Good ∧ (putBack listOps c).stream page = S := by
  have hcounts := h.counted.putBack
  have hpaired := h.paired
  have hbytes := h.bytes
  have hlists : (Qdma.putBack listOps c).rx = c.rx.toList ++ c.rxq.rx ∧
      (Qdma.putBack listOps c).udd = c.rxq.udd := by
    unfold Qdma.putBack
    cases hcur : c.rx with
    | none => exact ⟨rfl, rfl⟩
    | some node =>
        have hlt : node.offset < node.len := (h.counted.cur node hcur).offset
        simp [listOps, rxqEnqueueHead, hlt]
  refine ⟨⟨hcounts, ?_⟩, ?_⟩
  · rw [hlists.1, hlists.2]
    exact hpaired
  · unfold StRxQueue.stream
    rw [hlists.1, hlists.2]
    exact hbytes

/-- What a read of the lengths `lens` does to a queue with the stream `S` on it. -/
structure ReadsStream (q : StRxQueue) (lens : List ℕ) (r : RxReadResult StRxQueue) : Prop where
  good : r.rxq.Good
  out : r.out = fill lens (q.stream page)
  copied : r.copied = min lens.sum (q.stream page).length
  rest : r.rxq.stream page = (q.stream page).drop lens.sum
  oops : r.oops = false

/-- **A read is a read from the stream**, if no entry ends inside user-defined data or
right behind it. -/
theorem read_stream {q : StRxQueue} (h : q.Good) (uddEn : Bool) {lens : List ℕ}
    (hclear : q.Clear lens) :
    ReadsStream page q lens (qdmaDescqRxqRead listOps page uddEn lens q) := by
  obtain ⟨hstart, hrx, hudd⟩ := h.streams page uddEn
  obtain ⟨hfill, hstreams, hcopied⟩ := readSgl_moved page lens hstart (by
    intro ls hls
    rw [hrx, hudd]
    exact hclear ls hls)
  obtain ⟨hnil, -, -, heq⟩ | ⟨s, rfl, ⟨hoops, -⟩ | ⟨-, heq⟩⟩ := read_cases page uddEn lens q
  · have hempty : q.stream page = [] := by
      unfold StRxQueue.stream
      rw [hnil]
      rfl
    rw [heq]
    refine ⟨h, ?_, ?_, ?_, rfl⟩
    · rw [hempty, fill_nil]
    · rw [hempty]
      simp
    · rw [hempty]
      simp
  · rw [hstreams.oops] at hoops
    cases hoops
  · rw [heq]
    obtain ⟨hgood, hrest⟩ := hstreams.putBack
    refine ⟨hgood, hfill, ?_, hrest, rfl⟩
    have hzero : (readStart uddEn q).copied = 0 := rfl
    rw [hcopied, hzero, Nat.zero_add]

end Walk

end Qdma

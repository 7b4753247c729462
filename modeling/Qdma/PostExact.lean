import Qdma.PostRuns

/-!
# What one posting call writes

`Qdma.PostSpec` says what a posting call does up to the flags of the descriptors.  Here is
the ring itself: which slots are written, and every flag in them.

A posting loop rewrites one slot after the other (`Lib.Cyclic.fill`).  That of a
memory-mapped queue leaves the two packet flags out; they are set afterwards, in the first
and the last slot, which can be the same.

* `PostsExactly` is one call, slot by slot; `posting_exact` proves it of both functions.
-/

namespace Qdma

open Lib Lib.Extent

/-! ## Descriptors with their flags -/

/-- A flag of `flag_len`. -/
def QdmaDesc.flag (d : QdmaDesc) (bit : ℕ) : Bool := d.flagLen.getLsbD bit

/-- The descriptor is valid, names the host range `e`, and has these packet flags. -/
structure QdmaDesc.Describes (d : QdmaDesc) (c2h : Bool) (e : Extent (BitVec 64))
    (sop eop : Bool) : Prop where
  host : d.host c2h = e
  dv : d.flag sDescFDv = true
  sop : d.flag sDescFSop = sop
  eop : d.flag sDescFEop = eop

theorem flag_setFlag (d : QdmaDesc) {bit : ℕ} (hbit : bit < 32) (b : ℕ) :
    (d.setFlag bit).flag b = (d.flag b || decide (b = bit)) := by
  unfold QdmaDesc.setFlag QdmaDesc.flag
  rw [BitVec.getLsbD_or, ← BitVec.twoPow_eq, BitVec.getLsbD_twoPow]
  congr 1
  by_cases h : b = bit
  · subst h
    simp [hbit]
  · simp [h, Ne.symm h]

/-- A length below the flags sets none of them. -/
theorem getLsbD_len {len bit : ℕ} (hlen : len < 2 ^ sDescFDv) (hbit : sDescFDv ≤ bit) :
    (BitVec.ofNat 32 len).getLsbD bit = false := by
  rw [BitVec.getLsbD_ofNat, Nat.testBit_lt_two_pow (hlen.trans_le (Nat.pow_le_pow_right (by decide) hbit)),
    Bool.and_false]

theorem mmDesc_flag (c2h : Bool) (epAddr addr : BitVec 64) {len bit : ℕ}
    (hlen : len < 2 ^ sDescFDv) (hbit : sDescFDv ≤ bit) :
    (mmDesc c2h epAddr addr len).flag bit = decide (bit = sDescFDv) := by
  have hdv : sDescFDv < 32 := by decide
  have hset :=
    flag_setFlag { mmDesc c2h epAddr addr len with flagLen := BitVec.ofNat 32 len } hdv bit
  refine Eq.trans hset ?_
  unfold QdmaDesc.flag
  rw [getLsbD_len hlen hbit, Bool.false_or]

/-- The descriptor of a piece of a memory-mapped transfer. -/
theorem mmDesc_describes (c2h : Bool) (epAddr addr : BitVec 64) {len : ℕ}
    (hlen : len < 2 ^ sDescFDv) :
    (mmDesc c2h epAddr addr len).Describes c2h ⟨addr, len⟩ false false where
  host := mmDesc_host c2h epAddr addr hlen
  dv := mmDesc_flag c2h epAddr addr hlen (by decide)
  sop := mmDesc_flag c2h epAddr addr hlen (by decide)
  eop := mmDesc_flag c2h epAddr addr hlen (by decide)

theorem h2cDesc_flag (old : QdmaDesc) (addr : BitVec 64) (len : ℕ) {bit : ℕ}
    (hset : ((1#32 <<< sDescFDv) ||| (1#32 <<< sDescFSop) ||| (1#32 <<< sDescFEop)).getLsbD bit =
      true) : (h2cDesc old addr len).flag bit = true := by
  unfold QdmaDesc.flag h2cDesc
  rw [BitVec.getLsbD_or, hset, Bool.or_true]

theorem h2cDesc_describes (old : QdmaDesc) (addr : BitVec 64) {len : ℕ}
    (hlen : len < 2 ^ sDescFDv) : (h2cDesc old addr len).Describes false ⟨addr, len⟩ true true where
  host := h2cDesc_host old addr hlen
  dv := h2cDesc_flag old addr len (by decide)
  sop := h2cDesc_flag old addr len (by decide)
  eop := h2cDesc_flag old addr len (by decide)

namespace QdmaDesc.Describes

variable {d : QdmaDesc} {c2h sop eop : Bool} {e : Extent (BitVec 64)}

theorem setSop (h : d.Describes c2h e sop eop) : (d.setFlag sDescFSop).Describes c2h e true eop where
  host := ((agrees_setFlag d (by decide)).host_eq c2h).trans h.host
  dv := by rw [flag_setFlag d (by decide), h.dv, Bool.true_or]
  sop := by rw [flag_setFlag d (by decide), decide_eq_true rfl, Bool.or_true]
  eop := by
    rw [flag_setFlag d (by decide), h.eop]
    exact Bool.or_false eop

theorem setEop (h : d.Describes c2h e sop eop) : (d.setFlag sDescFEop).Describes c2h e sop true where
  host := ((agrees_setFlag d (by decide)).host_eq c2h).trans h.host
  dv := by rw [flag_setFlag d (by decide), h.dv, Bool.true_or]
  sop := by
    rw [flag_setFlag d (by decide), h.sop]
    exact Bool.or_false sop
  eop := by rw [flag_setFlag d (by decide), decide_eq_true rfl, Bool.or_true]

end QdmaDesc.Describes

/-! ## The loops -/

theorem writeDesc_ring {d : QdmaDescq} {ring : DescRing} (h : d.desc = some ring) (slot : ℕ)
    (v : QdmaDesc) :
    d.writeDesc slot v =
      { d with desc := some { ring with slots := Function.update ring.slots slot v } } := by
  unfold QdmaDescq.writeDesc
  rw [h]

theorem slotAt_ring {d : QdmaDescq} {ring : DescRing} (h : d.desc = some ring) (slot : ℕ) :
    d.slotAt slot = ring.slots slot := by
  unfold QdmaDescq.slotAt
  rw [h]

theorem pidxNext_eq {d : QdmaDescq} (hp : d.pidx < d.conf.rngsz) (hsz : d.conf.rngsz < 2 ^ 32) :
    pidxNext d = Cyclic.next d.conf.rngsz d.pidx := by
  unfold pidxNext
  rw [u32_of_lt (by omega)]
  rfl

/-- What the loop of `descq_mm_proc_request` writes for the pieces `es`. -/
def mmWrites (c2h : Bool) : BitVec 64 → List (Extent (BitVec 64)) → List (QdmaDesc → QdmaDesc)
  | _, [] => []
  | epAddr, e :: es =>
      (fun _ => mmDesc c2h epAddr e.start e.len) ::
        mmWrites c2h (epAddr + (e.len : BitVec 64)) es

theorem length_mmWrites (c2h : Bool) :
    ∀ (es : List (Extent (BitVec 64))) (epAddr : BitVec 64),
      (mmWrites c2h epAddr es).length = es.length := by
  intro es
  induction es with
  | nil => intro epAddr; rfl
  | cons e es ih => intro epAddr; exact congrArg (· + 1) (ih _)

theorem getElem?_mmWrites (c2h : Bool) :
    ∀ (es : List (Extent (BitVec 64))) (epAddr : BitVec 64) (k : ℕ) (e : Extent (BitVec 64)),
      es[k]? = some e → ∃ epAddr', (mmWrites c2h epAddr es)[k]? =
        some fun _ => mmDesc c2h epAddr' e.start e.len := by
  intro es
  induction es with
  | nil => intro epAddr k e hk; cases hk
  | cons f es ih =>
      intro epAddr k e hk
      cases k with
      | zero =>
          cases hk
          exact ⟨epAddr, rfl⟩
      | succ k => exact ih _ k e hk

/-- The ring after the loop of `descq_mm_proc_request`, and the last slot it wrote. -/
theorem foldl_mmPut_ring (id : ReqId) :
    ∀ (es : List (Extent (BitVec 64))) (st : MmLoop) {ring : DescRing},
      st.x.descq.desc = some ring → st.x.descq.pidx < st.x.descq.conf.rngsz →
      st.x.descq.conf.rngsz < 2 ^ 32 →
      (es.foldl (putPiece (mmPut id)) st).x.descq.desc = some { ring with
          slots := Cyclic.fill st.x.descq.conf.rngsz ring.slots st.x.descq.pidx
            (mmWrites st.x.descq.conf.c2h st.epAddr es) } ∧
        (es ≠ [] → (es.foldl (putPiece (mmPut id)) st).descEnd =
          some ((st.x.descq.pidx + (es.length - 1)) % st.x.descq.conf.rngsz)) := by
  intro es
  induction es with
  | nil => intro st ring hring _ _; exact ⟨hring, fun h => absurd rfl h⟩
  | cons e es ih =>
      intro st ring hring hp hsz
      have hnext := pidxNext_eq hp hsz
      have hput : (putPiece (mmPut id) st e).x.descq =
          { st.x.descq with
            desc := some { ring with
              slots := Function.update ring.slots st.x.descq.pidx
                (mmDesc st.x.descq.conf.c2h st.epAddr e.start e.len) }
            pidx := Cyclic.next st.x.descq.conf.rngsz st.x.descq.pidx } := by
        unfold putPiece mmPut
        dsimp only
        rw [writeDesc_ring hring, hnext]
      have hend : (putPiece (mmPut id) st e).descEnd = some st.x.descq.pidx := rfl
      have hep : (putPiece (mmPut id) st e).epAddr = st.epAddr + (e.len : BitVec 64) := rfl
      obtain ⟨hdesc, hlast⟩ := ih (putPiece (mmPut id) st e) (congrArg QdmaDescq.desc hput)
        (by rw [hput]; exact Cyclic.next_lt hp) (by rw [hput]; exact hsz)
      rw [List.foldl_cons]
      refine ⟨?_, fun _ => ?_⟩
      · rw [hdesc, hput, hep]
        rfl
      · cases es with
        | nil =>
            rw [List.foldl_nil, hend]
            exact congrArg some (Nat.mod_eq_of_lt hp).symm
        | cons f rest =>
            rw [hlast (List.cons_ne_nil f rest), hput]
            exact congrArg some (Cyclic.next_add_mod hp _)

/-- The ring after the loop of `descq_proc_st_h2c_request`. -/
theorem foldl_stH2cPut_ring (id : ReqId) :
    ∀ (es : List (Extent (BitVec 64))) (st : StH2cLoop) {ring : DescRing},
      st.x.descq.desc = some ring → st.x.descq.pidx < st.x.descq.conf.rngsz →
      st.x.descq.conf.rngsz < 2 ^ 32 →
      (es.foldl (putPiece (stH2cPut id)) st).x.descq.desc = some { ring with
        slots := Cyclic.fill st.x.descq.conf.rngsz ring.slots st.x.descq.pidx
          (es.map fun e old => h2cDesc old e.start e.len) } := by
  intro es
  induction es with
  | nil => intro st ring hring _ _; exact hring
  | cons e es ih =>
      intro st ring hring hp hsz
      have hnext := pidxNext_eq hp hsz
      have hput : (putPiece (stH2cPut id) st e).x.descq =
          { st.x.descq with
            desc := some { ring with
              slots := Function.update ring.slots st.x.descq.pidx
                (h2cDesc (ring.slots st.x.descq.pidx) e.start e.len) }
            pidx := Cyclic.next st.x.descq.conf.rngsz st.x.descq.pidx } := by
        unfold putPiece stH2cPut
        dsimp only
        rw [slotAt_ring hring, writeDesc_ring hring, hnext]
      have hdesc := ih (putPiece (stH2cPut id) st e) (congrArg QdmaDescq.desc hput)
        (by rw [hput]; exact Cyclic.next_lt hp) (by rw [hput]; exact hsz)
      rw [List.foldl_cons, hdesc, hput]
      rfl

/-! ## One call -/

/-- The pieces a call has room for. -/
def postedPieces (blen : ℕ) (x : Xfer) (id : ReqId) : List (Extent (BitVec 64)) :=
  (pieces blen (x.reqs id).sgt.sgl).take x.descq.avail

/-- A call that posts the pieces `es`, with the packet flags `sop` and `eop`: each in its
slot from `pidx` on and nothing in the others, all of it accounted for, and the request
moved just where the pieces are all of it. -/
structure PostsExactly (x : Xfer) (id : ReqId) (c2h : Bool) (es : List (Extent (BitVec 64)))
    (sop eop : ℕ → Bool) (r : ℤ × Xfer) : Prop where
  rv : r.1 = 0
  ring : ∃ ring ring', x.descq.desc = some ring ∧ r.2.descq.desc = some ring' ∧
    (∀ k e, es[k]? = some e →
      (ring'.slots ((x.descq.pidx + k) % x.descq.conf.rngsz)).Describes c2h e (sop k) (eop k)) ∧
    ∀ slot, (∀ k < es.length, slot ≠ (x.descq.pidx + k) % x.descq.conf.rngsz) →
      ring'.slots slot = ring.slots slot
  pidx : r.2.descq.pidx = (x.descq.pidx + es.length) % x.descq.conf.rngsz
  avail : r.2.descq.avail = x.descq.avail - es.length
  descNr : (r.2.reqs id).cb.descNr = u32 ((x.reqs id).cb.descNr + es.length)
  offset : (r.2.reqs id).cb.offset = (x.reqs id).cb.offset + total es
  covered : total es = (x.reqs id).count → r.2.descq.workList = x.descq.workList.erase id ∧
    r.2.descq.pendList = x.descq.pendList.erase id ++ [id]
  partly : total es ≠ (x.reqs id).count →
    r.2.descq.workList = x.descq.workList ∧ r.2.descq.pendList = x.descq.pendList

/-- The pieces of a call have room and fit the length field. -/
theorem mem_postedPieces {blen : ℕ} {x : Xfer} {id : ReqId} (hblen : blen < 2 ^ sDescFDv)
    {e : Extent (BitVec 64)} (he : e ∈ postedPieces blen x id) : e.len < 2 ^ sDescFDv :=
  (len_of_mem_cutAll (List.mem_of_mem_take he)).2.trans_lt hblen

theorem length_postedPieces (blen : ℕ) (x : Xfer) (id : ReqId) :
    (postedPieces blen x id).length ≤ x.descq.avail := by
  unfold postedPieces
  rw [List.length_take]
  exact Nat.min_le_left _ _

theorem total_postedPieces {blen : ℕ} (hb : 0 < blen) {x : Xfer} {id : ReqId}
    (hwf : (x.reqs id).WellFormed) : total (postedPieces blen x id) ≤ (x.reqs id).count := by
  have htotal := total_pieces hb (x.reqs id).sgt.sgl
  have hsplit := total_append ((pieces blen (x.reqs id).sgt.sgl).take x.descq.avail)
    ((pieces blen (x.reqs id).sgt.sgl).drop x.descq.avail)
  rw [List.take_append_drop, htotal, hwf] at hsplit
  unfold postedPieces
  omega

section Call

variable {x : Xfer} {id : ReqId} {r : ℤ × Xfer} {es : List (Extent (BitVec 64))}

/-- A call that posted and accounted for its pieces, once the ring is known. -/
theorem Posts.exactly {c2h : Bool} {sop eop : ℕ → Bool} (h : Posts x id es r.2) (hrv : r.1 = 0)
    (hzero : (x.reqs id).cb.offset = 0) (htotal : total es ≤ (x.reqs id).count)
    (hp : x.descq.pidx < x.descq.conf.rngsz) (hsz : x.descq.conf.rngsz < 2 ^ 32)
    (hlen : es.length ≤ x.descq.avail) (havail : x.descq.avail ≤ x.descq.conf.rngsz - 1)
    (hring : ∃ ring ring', x.descq.desc = some ring ∧ r.2.descq.desc = some ring' ∧
      (∀ k e, es[k]? = some e →
        (ring'.slots ((x.descq.pidx + k) % x.descq.conf.rngsz)).Describes c2h e (sop k) (eop k)) ∧
      ∀ slot, (∀ k < es.length, slot ≠ (x.descq.pidx + k) % x.descq.conf.rngsz) →
        ring'.slots slot = ring.slots slot) :
    PostsExactly x id c2h es sop eop r := by
  have hcount := (x.reqs id).count_lt
  have hcb : (postedCb (x.reqs id).cb es).offset = total es := by
    unfold postedCb QdmaSgtReqCb.account
    dsimp only
    rw [hzero, Nat.zero_add, u32_of_lt (by omega : total es < 2 ^ 32), u32_of_lt (by omega)]
  have hlists := h.lists
  rw [hcb] at hlists
  refine ⟨hrv, hring, h.pidx_eq hsz hp, ?_, ?_, ?_, fun hall => ?_, fun hnot => ?_⟩
  · have hframe := congrArg (fun y : Xfer => y.descq.avail) h.frame
    exact hframe.trans (u32Sub_of_le (by omega) hlen)
  · rw [h.reqs_self]
    rfl
  · rw [h.reqs_self]
    change (postedCb (x.reqs id).cb es).offset = _
    rw [hcb, hzero, Nat.zero_add]
  · rw [if_pos hall] at hlists
    exact ⟨congrArg Prod.fst hlists, congrArg Prod.snd hlists⟩
  · rw [if_neg hnot] at hlists
    exact ⟨congrArg Prod.fst hlists, congrArg Prod.snd hlists⟩

/-- The ring after `descq_mm_proc_request`: the loop, and then a flag in the last slot and
one in the first. -/
theorem mmProcRequest_ring {ring : DescRing} (hring : x.descq.desc = some ring)
    (hzero : (x.reqs id).cb.offset = 0) (hav : x.descq.avail ≠ 0)
    (hne : postedPieces xdmaDescBlenMax x id ≠ []) (hp : x.descq.pidx < x.descq.conf.rngsz)
    (hsz : x.descq.conf.rngsz < 2 ^ 32) {F : ℕ → QdmaDesc} {last : ℕ}
    (hF : F = Cyclic.fill x.descq.conf.rngsz ring.slots x.descq.pidx
      (mmWrites x.descq.conf.c2h (x.reqs id).epAddr (postedPieces xdmaDescBlenMax x id)))
    (hlast : last = (x.descq.pidx + ((postedPieces xdmaDescBlenMax x id).length - 1)) %
      x.descq.conf.rngsz) {G : ℕ → QdmaDesc}
    (hG : G = Function.update F last ((F last).setFlag sDescFEop)) :
    (descqMmProcRequest x id).2.descq.desc = some { ring with
      slots := Function.update G x.descq.pidx ((G x.descq.pidx).setFlag sDescFSop) } := by
  have hwalk := postSgl_eq_foldl (mmPut id) (show 0 < xdmaDescBlenMax by decide)
    (x.reqs id).sgt.sgl 0 x.descq.avail
    { x := x, epAddr := (x.reqs id).epAddr, dataCnt := 0, descCnt := 0, descEnd := none }
  obtain ⟨hdesc, hend⟩ := foldl_mmPut_ring id (postedPieces xdmaDescBlenMax x id)
    { x := x, epAddr := (x.reqs id).epAddr, dataCnt := 0, descCnt := 0, descEnd := none }
    hring hp hsz
  have hend := hend hne
  unfold postedPieces at hdesc hend hF hlast
  rw [← hwalk] at hdesc hend
  dsimp only at hdesc hend
  rw [← hlast] at hend
  rw [← hF] at hdesc
  unfold descqMmProcRequest
  dsimp only
  rw [if_neg hav, postStart_of_zero hzero]
  dsimp only
  generalize postSgl xdmaDescBlenMax (mmPut id) (x.reqs id).sgt.sgl 0 x.descq.avail
    { x := x, epAddr := (x.reqs id).epAddr, dataCnt := 0, descCnt := 0, descEnd := none } = st
    at hdesc hend
  rw [hend]
  dsimp only
  rw [postAccount_eq]
  dsimp only
  rw [slotAt_ring hdesc, writeDesc_ring hdesc]
  dsimp only
  rw [slotAt_ring rfl, writeDesc_ring rfl]
  dsimp only
  rw [← hG]

/-- The slots after `descq_mm_proc_request`. -/
theorem mmProcRequest_slots {ring : DescRing} (hring : x.descq.desc = some ring)
    (hzero : (x.reqs id).cb.offset = 0) (hav : x.descq.avail ≠ 0)
    (hne : postedPieces xdmaDescBlenMax x id ≠ []) (hp : x.descq.pidx < x.descq.conf.rngsz)
    (hsz : x.descq.conf.rngsz < 2 ^ 32) (havail : x.descq.avail ≤ x.descq.conf.rngsz - 1) :
    ∃ ring ring', x.descq.desc = some ring ∧
      (descqMmProcRequest x id).2.descq.desc = some ring' ∧
      (∀ k e, (postedPieces xdmaDescBlenMax x id)[k]? = some e →
        (ring'.slots ((x.descq.pidx + k) % x.descq.conf.rngsz)).Describes x.descq.conf.c2h e
          (decide (k = 0)) (decide (k + 1 = (postedPieces xdmaDescBlenMax x id).length))) ∧
      ∀ slot, (∀ k < (postedPieces xdmaDescBlenMax x id).length,
          slot ≠ (x.descq.pidx + k) % x.descq.conf.rngsz) →
        ring'.slots slot = ring.slots slot := by
  obtain ⟨F, hF⟩ : ∃ F, F = Cyclic.fill x.descq.conf.rngsz ring.slots x.descq.pidx
      (mmWrites x.descq.conf.c2h (x.reqs id).epAddr (postedPieces xdmaDescBlenMax x id)) := ⟨_, rfl⟩
  obtain ⟨last, hlast⟩ : ∃ last, last = (x.descq.pidx +
      ((postedPieces xdmaDescBlenMax x id).length - 1)) % x.descq.conf.rngsz := ⟨_, rfl⟩
  obtain ⟨G, hG⟩ : ∃ G, G = Function.update F last ((F last).setFlag sDescFEop) := ⟨_, rfl⟩
  refine ⟨ring, _, hring, mmProcRequest_ring hring hzero hav hne hp hsz hF hlast hG, ?_, ?_⟩
  all_goals
    have hbound := length_postedPieces xdmaDescBlenMax x id
    have hpieces : ∀ e ∈ postedPieces xdmaDescBlenMax x id, e.len < 2 ^ sDescFDv :=
      fun e he => mem_postedPieces (by decide) he
    generalize postedPieces xdmaDescBlenMax x id = es at hne hF hlast hbound hpieces ⊢
    have hpos : 0 < es.length := List.length_pos_of_ne_nil hne
    have hwrites := length_mmWrites x.descq.conf.c2h es (x.reqs id).epAddr
    have hfirst : x.descq.pidx = (x.descq.pidx + 0) % x.descq.conf.rngsz :=
      (Nat.mod_eq_of_lt hp).symm
  · intro k e hk
    have hklt : k < es.length := (List.getElem?_eq_some_iff.mp hk).1
    have hsame : ∀ j < es.length, ((x.descq.pidx + k) % x.descq.conf.rngsz =
        (x.descq.pidx + j) % x.descq.conf.rngsz ↔ k = j) :=
      fun j hj => Cyclic.add_mod_inj (by omega) (by omega)
    -- the loop writes the piece without packet flags
    have hloop : (F ((x.descq.pidx + k) % x.descq.conf.rngsz)).Describes x.descq.conf.c2h e
        false false := by
      obtain ⟨epAddr, hwrite⟩ := getElem?_mmWrites x.descq.conf.c2h es (x.reqs id).epAddr k e hk
      rw [hF, Cyclic.fill_at _ hp (by omega) hwrite]
      exact mmDesc_describes _ _ _ (hpieces e (List.mem_of_getElem? hk))
    -- the last piece ends the packet
    have hend : (G ((x.descq.pidx + k) % x.descq.conf.rngsz)).Describes x.descq.conf.c2h e
        false (decide (k + 1 = es.length)) := by
      rw [hG]
      by_cases hkl : k + 1 = es.length
      · have hslot : (x.descq.pidx + k) % x.descq.conf.rngsz = last := by
          rw [hlast]
          exact (hsame _ (by omega)).mpr (by omega)
        rw [hslot] at hloop ⊢
        rw [Function.update_self, decide_eq_true hkl]
        exact hloop.setEop
      · have hslot : (x.descq.pidx + k) % x.descq.conf.rngsz ≠ last := by
          rw [hlast]
          exact fun heq => hkl (by have := (hsame _ (by omega)).mp heq; omega)
        rw [Function.update_of_ne hslot, decide_eq_false hkl]
        exact hloop
    dsimp only
    by_cases hkz : k = 0
    · have hslot : (x.descq.pidx + k) % x.descq.conf.rngsz = x.descq.pidx := by
        rw [hkz]
        exact hfirst.symm
      rw [hslot] at hend ⊢
      rw [Function.update_self, decide_eq_true hkz]
      exact hend.setSop
    · have hslot : (x.descq.pidx + k) % x.descq.conf.rngsz ≠ x.descq.pidx := by
        intro heq
        exact hkz ((hsame 0 hpos).mp (heq.trans hfirst))
      rw [Function.update_of_ne hslot, decide_eq_false hkz]
      exact hend
  · intro slot hslot
    have hnotFirst : slot ≠ x.descq.pidx := by
      rw [hfirst]
      exact hslot 0 hpos
    have hnotLast : slot ≠ last := by
      rw [hlast]
      exact hslot _ (by omega)
    dsimp only
    rw [Function.update_of_ne hnotFirst, hG, Function.update_of_ne hnotLast, hF]
    exact Cyclic.fill_off _ hp (by rwa [hwrites])

/-- The slots after `descq_proc_st_h2c_request`. -/
theorem stH2cProcRequest_slots {ring : DescRing} (hring : x.descq.desc = some ring)
    (hzero : (x.reqs id).cb.offset = 0) (hav : x.descq.avail ≠ 0)
    (hp : x.descq.pidx < x.descq.conf.rngsz) (hsz : x.descq.conf.rngsz < 2 ^ 32)
    (havail : x.descq.avail ≤ x.descq.conf.rngsz - 1) :
    ∃ ring ring', x.descq.desc = some ring ∧
      (descqProcStH2cRequest x id).2.descq.desc = some ring' ∧
      (∀ k e, (postedPieces pageSize x id)[k]? = some e →
        (ring'.slots ((x.descq.pidx + k) % x.descq.conf.rngsz)).Describes false e true true) ∧
      ∀ slot, (∀ k < (postedPieces pageSize x id).length,
          slot ≠ (x.descq.pidx + k) % x.descq.conf.rngsz) →
        ring'.slots slot = ring.slots slot := by
  have hwalk := postSgl_eq_foldl (stH2cPut id) (show 0 < pageSize by decide) (x.reqs id).sgt.sgl 0
    x.descq.avail { x := x, dataCnt := 0, descCnt := 0 }
  have hdesc := foldl_stH2cPut_ring id (postedPieces pageSize x id)
    { x := x, dataCnt := 0, descCnt := 0 } hring hp hsz
  have hfinal : (descqProcStH2cRequest x id).2.descq.desc = some { ring with
      slots := Cyclic.fill x.descq.conf.rngsz ring.slots x.descq.pidx
        ((postedPieces pageSize x id).map fun e old => h2cDesc old e.start e.len) } := by
    unfold descqProcStH2cRequest
    dsimp only
    rw [if_neg hav, postStart_of_zero hzero]
    dsimp only
    rw [hwalk, postAccount_eq]
    exact hdesc
  have hbound := length_postedPieces pageSize x id
  have hpieces : ∀ e ∈ postedPieces pageSize x id, e.len < 2 ^ sDescFDv :=
    fun e he => mem_postedPieces (by decide) he
  generalize postedPieces pageSize x id = es at hfinal hbound hpieces ⊢
  refine ⟨ring, _, hring, hfinal, fun k e hk => ?_, fun slot hslot => ?_⟩
  · have hwrite : (es.map fun e old => h2cDesc old e.start e.len)[k]? =
        some fun old => h2cDesc old e.start e.len := by
      rw [List.getElem?_map, hk]
      rfl
    dsimp only
    rw [Cyclic.fill_at _ hp (by rw [List.length_map]; omega) hwrite]
    exact h2cDesc_describes _ _ (hpieces e (List.mem_of_getElem? hk))
  · refine Cyclic.fill_off _ hp ?_
    rwa [List.length_map]

end Call

/-- **One posting call** on a new request writes the pieces there is room for, each with its
flags, into the slots from `pidx` on, and nothing else. -/
theorem posting_exact {x : Xfer} {id : ReqId} (hring : x.descq.desc.isSome = true)
    (hzero : (x.reqs id).cb.offset = 0) (hcount : 1 ≤ (x.reqs id).count)
    (hwf : (x.reqs id).WellFormed) (hp : x.descq.pidx < x.descq.conf.rngsz)
    (hsz : x.descq.conf.rngsz < 2 ^ 32) (hone : 1 ≤ x.descq.avail)
    (havail : x.descq.avail ≤ x.descq.conf.rngsz - 1) :
    PostsExactly x id x.descq.conf.c2h (postedPieces xdmaDescBlenMax x id)
        (fun k => decide (k = 0))
        (fun k => decide (k + 1 = (postedPieces xdmaDescBlenMax x id).length))
        (descqMmProcRequest x id) ∧
      (x.descq.conf.c2h = false →
        PostsExactly x id false (postedPieces pageSize x id) (fun _ => true) (fun _ => true)
          (descqProcStH2cRequest x id)) := by
  obtain ⟨ring, hring⟩ := Option.isSome_iff_exists.mp hring
  have hav : x.descq.avail ≠ 0 := by omega
  have hstart := postStart_of_zero hzero
  have hnil : pieces xdmaDescBlenMax (x.reqs id).sgt.sgl ≠ [] := by
    intro hnil
    have htotal := total_pieces (show 0 < xdmaDescBlenMax by decide) (x.reqs id).sgt.sgl
    rw [hnil, hwf, total_nil] at htotal
    omega
  constructor
  · have hne : postedPieces xdmaDescBlenMax x id ≠ [] := by
      unfold postedPieces
      simp [hnil, hav]
    obtain ⟨hfull, -⟩ | ⟨-, hnone, -⟩ | ⟨-, sg, off, hsome, hnone, -⟩ |
        ⟨-, sg, off, hsome, -, hrv, hposts⟩ := descqMmProcRequest_cases x id
    · exact absurd hfull hav
    · rw [hstart] at hnone
      cases hnone
    · rw [hstart] at hsome
      cases hsome
      exact absurd hnone hnil
    · rw [hstart] at hsome
      cases hsome
      exact hposts.exactly hrv hzero (total_postedPieces (by decide) hwf) hp hsz
        (length_postedPieces _ x id) havail
        (mmProcRequest_slots hring hzero hav hne hp hsz havail)
  · intro hc2h
    obtain ⟨hfull, -⟩ | ⟨-, hnone, -⟩ | ⟨-, sg, off, hsome, hrv, hposts⟩ :=
      descqProcStH2cRequest_cases x id hc2h
    · exact absurd hfull hav
    · rw [hstart] at hnone
      cases hnone
    · rw [hstart] at hsome
      cases hsome
      exact hposts.exactly hrv hzero (total_postedPieces (by decide) hwf) hp hsz
        (length_postedPieces _ x id) havail
        (stH2cProcRequest_slots hring hzero hav hp hsz havail)

theorem posting_exact_two_places :
    PostsExactly (h2cQueued true twoPlacesReq) 0 false
        (postedPieces xdmaDescBlenMax (h2cQueued true twoPlacesReq) 0)
        (fun k => decide (k = 0)) (fun k => decide (k + 1 =
          (postedPieces xdmaDescBlenMax (h2cQueued true twoPlacesReq) 0).length))
        (descqMmProcRequest (h2cQueued true twoPlacesReq) 0) ∧
      PostsExactly (h2cQueued true twoPlacesReq) 0 false
        (postedPieces pageSize (h2cQueued true twoPlacesReq) 0) (fun _ => true) (fun _ => true)
        (descqProcStH2cRequest (h2cQueued true twoPlacesReq) 0) := by
  have hzero : ((h2cQueued true twoPlacesReq).reqs 0).cb.offset = 0 := rfl
  obtain ⟨hmm, hst⟩ := posting_exact (x := h2cQueued true twoPlacesReq) rfl hzero
    (by decide) rfl (by decide) (by decide) (by decide) (by decide)
  exact ⟨hmm, hst rfl⟩

end Qdma

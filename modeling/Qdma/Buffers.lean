import Qdma.Credits

/-!
# Buffers given back to their owners

When a blocking `qdma_sg_req_submit` returns, its caller unmaps and unpins the
pages.  From then on no descriptor the hardware has yet to consume may hold an
address of that buffer.

Three facts carry this from the ledger to the ring itself.

* The slot of a descriptor that is not retired holds what was written to it, up
  to the flag bits (`SlotsOk`): the ring never laps.
* What was written for a request lies inside its buffer (`Held.inside`).
* Buffers that are in the driver's hands at the same time do not overlap
  (`Held.separate`), which is the callers' business and part of the condition on
  submissions.

A descriptor between the hardware's index and `pidx` therefore belongs to a
request that is still on a list, and a request that returns is not.
-/

namespace Qdma

open Lib Lib.Extent Lib.Cyclic

/-- The addresses of a request's buffer. -/
def QdmaSgReq.buffer (req : QdmaSgReq) : List (BitVec 64) :=
  bytesOf (req.sgt.sgl.map Scatterlist.extent)

/-! ## The content of the ring -/

/-- The slot of every descriptor that is not retired holds it, up to flags. -/
def SlotsOk (x : Xfer) : Prop :=
  ∀ r, x.descq.desc = some r → ∀ k p, x.retired ≤ k → x.posted[k]? = some p →
    (r.slots (k % x.descq.conf.rngsz)).Agrees p.desc

/-- Writing a descriptor at `pidx` touches no descriptor that is not retired. -/
theorem SlotsOk.putDesc {x : Xfer} (h : SlotsOk x) (id : ReqId) (desc : QdmaDesc)
    (mmio : List (ℕ × BitVec 32)) (hp : x.descq.pidx = x.posted.length % x.descq.conf.rngsz)
    (hroom : x.posted.length < x.retired + x.descq.conf.rngsz) :
    SlotsOk (x.putDesc id desc mmio) := by
  intro r hr k p hk hkp
  have hconf : (x.putDesc id desc mmio).descq.conf = x.descq.conf := writeDesc_conf _ _ _
  have hret : (x.putDesc id desc mmio).retired = x.retired := rfl
  have hposted : (x.putDesc id desc mmio).posted = x.posted ++ [⟨id, x.descq.pidx, desc⟩] := rfl
  rw [hconf]
  rw [hret] at hk
  rw [hposted] at hkp
  cases hd : x.descq.desc with
  | none =>
      have hnone : (x.putDesc id desc mmio).descq.desc = none := by
        change (x.descq.writeDesc x.descq.pidx desc).desc = none
        simp [QdmaDescq.writeDesc, hd]
      rw [hnone] at hr
      cases hr
  | some r₀ =>
      have hsome : (x.putDesc id desc mmio).descq.desc =
          some { r₀ with slots := Function.update r₀.slots x.descq.pidx desc } := by
        change (x.descq.writeDesc x.descq.pidx desc).desc = _
        simp [QdmaDescq.writeDesc, hd]
      rw [hsome] at hr
      obtain rfl := Option.some.inj hr
      rcases Nat.lt_trichotomy k x.posted.length with hlt | heq | hgt
      · rw [List.getElem?_append_left hlt] at hkp
        have hne : k % x.descq.conf.rngsz ≠ x.descq.pidx := by
          intro heq
          rw [hp] at heq
          have := eq_of_mod_eq (Nat.le_of_lt hlt) (by omega) heq
          omega
        simp only [Function.update_of_ne hne]
        exact h r₀ hd k p hk hkp
      · subst heq
        obtain rfl : (⟨id, x.descq.pidx, desc⟩ : Posting) = p := by simpa using hkp
        rw [← hp]
        simp only [Function.update_self]
        exact QdmaDesc.Agrees.refl desc
      · rw [List.getElem?_eq_none (by simp; omega)] at hkp
        cases hkp

theorem Puts.slotsOk {id : ReqId} {x y : Xfer} {es : List (Extent (BitVec 64))}
    (h : Puts id x es y) (hs : SlotsOk x) (hr : x.descq.conf.rngsz < 2 ^ 32)
    (hpos : 0 < x.descq.conf.rngsz) (hp : x.descq.pidx = x.posted.length % x.descq.conf.rngsz)
    (hroom : x.posted.length + es.length ≤ x.retired + x.descq.conf.rngsz) : SlotsOk y := by
  induction h with
  | nil x => exact hs
  | @cons x y es desc mmio _ ih =>
      simp only [List.length_cons] at hroom
      have hconf : (x.putDesc id desc mmio).descq.conf = x.descq.conf := writeDesc_conf _ _ _
      have hlt : x.descq.pidx < x.descq.conf.rngsz := by
        rw [hp]
        exact Nat.mod_lt _ hpos
      have hnext : (x.putDesc id desc mmio).descq.pidx =
          (x.putDesc id desc mmio).posted.length % x.descq.conf.rngsz := by
        change pidxNext x.descq = (x.posted ++ [_]).length % _
        rw [pidxNext, u32_of_lt (by omega), List.length_append, List.length_singleton,
          ← Nat.mod_add_mod, ← hp, ← next_eq_mod hlt]
        rfl
      have hlen : (x.putDesc id desc mmio).posted.length = x.posted.length + 1 := by
        change (x.posted ++ [_]).length = _
        simp
      refine ih (hs.putDesc id desc mmio hp (by omega)) ?_ ?_ ?_ ?_
      · rw [hconf]
        exact hr
      · rw [hconf]
        exact hpos
      · rw [hconf]
        exact hnext
      · rw [hconf, hlen]
        change _ ≤ x.retired + _
        omega

theorem RingAgrees.slots {r s : DescRing} (h : RingAgrees (some r) (some s)) (k : ℕ) :
    (s.slots k).Agrees (r.slots k) := h.2.2.2.2 k

/-- A batch that fits into the ring keeps the slots of the others. -/
theorem Posts.slotsOk {id : ReqId} {x y : Xfer} {es : List (Extent (BitVec 64))}
    (h : Posts x id es y) (hs : SlotsOk x) (hring : RingInv x)
    (hlen : es.length ≤ x.descq.avail) : SlotsOk y := by
  obtain ⟨x₁, desc, oops, mmio, hputs, hagree, rfl⟩ := h
  have hadd := hring.avail_add
  have hposted := hring.posted_eq
  have hpos : 0 < x.descq.conf.rngsz := Nat.lt_of_le_of_lt (Nat.zero_le _) hring.pidx_lt
  have hslots := hputs.slotsOk hs hring.rngsz_lt hpos hring.pidx_eq (by omega)
  intro r hr k p hk hkp
  rw [postAccount_eq] at hr hk hkp ⊢
  cases hd : x₁.descq.desc with
  | none =>
      rw [hd] at hagree
      dsimp only at hr
      rw [hr] at hagree
      exact hagree.elim
  | some r₀ =>
      dsimp only at hr hk hkp ⊢
      rw [hd, hr] at hagree
      exact (hagree.slots _).trans (hslots r₀ hd k p hk hkp)

/-! ## The invariant -/

/-- The driver still has the request's buffer: it is on a list, or its blocking
submission has not returned. -/
def Xfer.HoldsBuffer (x : Xfer) (id : ReqId) : Prop :=
  id ∈ x.submitted ∧ (id ∈ x.liveIds ∨ ((x.reqs id).fpDone = false ∧ id ∉ x.returned))

/-- The ring's content and the buffers behind it. -/
structure Held (x : Xfer) : Prop where
  ledger : Ledger x
  slots : SlotsOk x
  inside : ∀ p ∈ x.posted, ∀ b ∈ (p.desc.host x.descq.conf.c2h).bytes, b ∈ (x.reqs p.owner).buffer
  separate : ∀ o ∈ x.liveIds, ∀ i, i ≠ o → x.HoldsBuffer i →
    List.Disjoint (x.reqs i).buffer (x.reqs o).buffer

/-- From `x` to `y` nothing is posted and no buffer is taken: requests leave their
lists or return, descriptors are retired. -/
structure Settles (x y : Xfer) : Prop where
  live : ∀ i ∈ y.liveIds, i ∈ x.liveIds
  sgt : ∀ i, (y.reqs i).sgt = (x.reqs i).sgt
  fpDone : ∀ i, (y.reqs i).fpDone = (x.reqs i).fpDone
  submitted : y.submitted = x.submitted
  returned : ∀ i ∈ x.returned, i ∈ y.returned
  posted : y.posted = x.posted
  conf : y.descq.conf = x.descq.conf
  retired : x.retired ≤ y.retired
  slots : ∀ r, y.descq.desc = some r → ∃ r₀, x.descq.desc = some r₀ ∧ r.slots = r₀.slots

theorem Settles.refl (x : Xfer) : Settles x x :=
  ⟨fun _ h => h, fun _ => rfl, fun _ => rfl, rfl, fun _ h => h, rfl, rfl, le_rfl,
    fun r hr => ⟨r, hr, rfl⟩⟩

theorem Settles.trans {x y z : Xfer} (h₁ : Settles x y) (h₂ : Settles y z) : Settles x z := by
  refine ⟨fun i hi => h₁.live i (h₂.live i hi), fun i => (h₂.sgt i).trans (h₁.sgt i),
    fun i => (h₂.fpDone i).trans (h₁.fpDone i), h₂.submitted.trans h₁.submitted,
    fun i hi => h₂.returned i (h₁.returned i hi), h₂.posted.trans h₁.posted,
    h₂.conf.trans h₁.conf, le_trans h₁.retired h₂.retired, ?_⟩
  intro r hr
  obtain ⟨r₁, hr₁, hs₁⟩ := h₂.slots r hr
  obtain ⟨r₀, hr₀, hs₀⟩ := h₁.slots r₁ hr₁
  exact ⟨r₀, hr₀, hs₁.trans hs₀⟩

theorem Held.settles {x y : Xfer} (h : Held x) (hl : Ledger y) (hs : Settles x y) : Held y := by
  have hbuf : ∀ i, (y.reqs i).buffer = (x.reqs i).buffer := by
    intro i
    unfold QdmaSgReq.buffer
    rw [hs.sgt i]
  refine ⟨hl, ?_, ?_, ?_⟩
  · intro r hr k p hk hkp
    obtain ⟨r₀, hr₀, hslots⟩ := hs.slots r hr
    rw [hslots, hs.conf]
    rw [hs.posted] at hkp
    exact h.slots r₀ hr₀ k p (le_trans hs.retired hk) hkp
  · intro p hp b hb
    rw [hs.posted] at hp
    rw [hs.conf] at hb
    rw [hbuf]
    exact h.inside p hp b hb
  · intro o ho i hio hi
    rw [hbuf, hbuf]
    refine h.separate o (hs.live o ho) i hio ⟨?_, ?_⟩
    · rw [← hs.submitted]
      exact hi.1
    · rcases hi.2 with hlive | ⟨hblock, hret⟩
      · exact Or.inl (hs.live i hlive)
      · rw [hs.fpDone] at hblock
        exact Or.inr ⟨hblock, fun hmem => hret (hs.returned i hmem)⟩

theorem settles_listDel (x : Xfer) (id : ReqId) : Settles x (x.listDel id) := by
  refine ⟨?_, fun _ => rfl, fun _ => rfl, rfl, fun _ h => h, rfl, rfl, le_rfl,
    fun r hr => ⟨r, hr, rfl⟩⟩
  intro i hi
  change i ∈ x.descq.pendList.erase id ++ x.descq.workList.erase id at hi
  rcases List.mem_append.mp hi with hp | hw
  · exact List.mem_append_left _ (List.mem_of_mem_erase hp)
  · exact List.mem_append_right _ (List.mem_of_mem_erase hw)

theorem settles_setCb (x : Xfer) (id : ReqId) (cb : QdmaSgtReqCb) :
    Settles x (x.setCb id cb) := by
  refine ⟨fun _ h => h, ?_, ?_, rfl, fun _ h => h, rfl, rfl, le_rfl, fun r hr => ⟨r, hr, rfl⟩⟩
  · intro i
    by_cases hi : i = id
    · subst hi
      simp [Xfer.setCb]
    · simp [Xfer.setCb, Function.update_of_ne hi]
  · intro i
    by_cases hi : i = id
    · subst hi
      simp [Xfer.setCb]
    · simp [Xfer.setCb, Function.update_of_ne hi]

theorem settles_reqDone (x : Xfer) (id : ReqId) (error : ℤ) :
    Settles x (qdmaSgtReqDone x id error) := by
  have h₁ := settles_listDel x id
  have h₂ := settles_setCb (x.listDel id) id
    { (x.reqs id).cb with
      status := if (x.reqs id).fpDone && decide ((x.reqs id).cb.offset ≠ (x.reqs id).count)
        then -einval else error
      done := true }
  refine (h₁.trans h₂).trans ?_
  exact ⟨fun _ h => h, fun _ => rfl, fun _ => rfl, rfl, fun _ h => h, rfl, rfl, le_rfl,
    fun r hr => ⟨r, hr, rfl⟩⟩

/-- A writeback service posts nothing. -/
theorem Ledger.settles_serviceWb {x : Xfer} (h : Ledger x) : Settles x (descqMmNH2cWb x) := by
  rcases h.serviceWb_cases with hr | hr | ⟨cidx, avail, cr, coals, mmio, x₁, rfl, -, hr⟩
  · rw [hr]
    exact Settles.refl x
  · rw [hr]
    exact ⟨fun _ h => h, fun _ => rfl, fun _ => rfl, rfl, fun _ h => h, rfl, rfl, le_rfl,
      fun r hr => ⟨r, hr, rfl⟩⟩
  · have hstart : Settles x { x with
        descq := { x.descq with cidx := cidx, avail := avail }
        retired := x.retired + cr } :=
      ⟨fun _ h => h, fun _ => rfl, fun _ => rfl, rfl, fun _ h => h, rfl, rfl,
        Nat.le_add_right _ _, fun r hr => ⟨r, hr, rfl⟩⟩
    obtain ⟨hloop, -⟩ := reqUpdatePendLoop_induct (P := fun _ y => Settles x y)
      (fun _ y id _ hy _ _ => hy.trans (settles_reqDone y id 0))
      (fun _ y id _ hy _ _ => hy.trans (settles_setCb y id _))
      x.descq.pendList (c := cr + x.descq.credit) hstart rfl
    rw [hr]
    refine hloop.trans ?_
    exact ⟨fun _ h => h, fun _ => rfl, fun _ => rfl, rfl, fun _ h => h, rfl, rfl, le_rfl,
      fun r hr => ⟨r, hr, rfl⟩⟩

/-! ## Steps -/

/-- A piece lies inside the buffer it was cut from. -/
theorem bytes_subset_buffer {blen : ℕ} (hb : 0 < blen) {req : QdmaSgReq}
    {e : Extent (BitVec 64)} (he : e ∈ pieces blen req.sgt.sgl) :
    ∀ b ∈ e.bytes, b ∈ req.buffer := by
  intro b hbmem
  unfold QdmaSgReq.buffer
  rw [← bytesOf_cutAll hb]
  exact List.mem_flatMap.mpr ⟨e, he, hbmem⟩

namespace Held

variable {x : Xfer} {id : ReqId} {rest : List ReqId}

/-- One request of a worker pass. -/
theorem wrkProcOne (h : Held x) (hw : x.descq.workList = id :: rest)
    (hres : x.ResumesAtSegments) : Held (wrkProcOne x id) := by
  have hledger := h.ledger.wrkProcOne hw hres
  rcases h.ledger.wrkProcOne_cases hw hres with ⟨-, hr⟩ | ⟨-, -, error, hr⟩ | ⟨K, hadv⟩
  · rw [hr]
    exact h
  · rw [hr] at hledger ⊢
    exact h.settles hledger (settles_reqDone x id error)
  · have hmem : id ∈ x.descq.workList := by
      rw [hw]
      exact List.mem_cons_self
    have hlive : id ∈ x.liveIds := List.mem_append_right _ hmem
    have hav : x.descq.avail < 2 ^ 32 := lt_trans h.ledger.ring.avail_lt h.ledger.ring.rngsz_lt
    have hlive' := hadv.liveIds_eq (h.ledger.reqs id hlive) h.ledger.nodup hw hav
    have hconf : (Qdma.wrkProcOne x id).descq.conf = x.descq.conf := by rw [hadv.posts.frame]
    have hsub : (Qdma.wrkProcOne x id).submitted = x.submitted := by rw [hadv.posts.frame]
    have hret : (Qdma.wrkProcOne x id).returned = x.returned := by rw [hadv.posts.frame]
    have hreq : ∀ i, ((Qdma.wrkProcOne x id).reqs i).sgt = (x.reqs i).sgt ∧
        ((Qdma.wrkProcOne x id).reqs i).fpDone = (x.reqs i).fpDone := by
      intro i
      by_cases hi : i = id
      · subst hi
        rw [hadv.posts.reqs_self]
        exact ⟨rfl, rfl⟩
      · rw [hadv.posts.reqs_of_ne hi]
        exact ⟨rfl, rfl⟩
    have hbuf : ∀ i, ((Qdma.wrkProcOne x id).reqs i).buffer = (x.reqs i).buffer := by
      intro i
      unfold QdmaSgReq.buffer
      rw [(hreq i).1]
    refine ⟨hledger, ?_, ?_, ?_⟩
    · exact hadv.posts.slotsOk h.slots h.ledger.ring (by simp)
    · intro p hp b hb
      obtain ⟨ps, hps, hmap, howner⟩ := hadv.posts.posted_eq
      rw [hps] at hp
      rw [hconf] at hb
      rw [hbuf]
      rcases List.mem_append.mp hp with hold | hnew
      · exact h.inside p hold b hb
      · have hpiece : p.desc.host x.descq.conf.c2h ∈
            pieces (blenOf x.descq) (x.reqs id).sgt.sgl := by
          have hmem := List.mem_map_of_mem (f := fun p => p.desc.host x.descq.conf.c2h) hnew
          rw [hmap] at hmem
          exact List.mem_of_mem_drop (List.mem_of_mem_take hmem)
        rw [howner p hnew]
        exact bytes_subset_buffer (blenOf_pos _) hpiece b hb
    · intro o ho i hio hi
      rw [hbuf, hbuf]
      rw [hlive'] at ho
      refine h.separate o ho i hio ?_
      unfold Xfer.HoldsBuffer at hi ⊢
      rwa [hsub, hlive', hret, (hreq i).2] at hi

/-- A submission with a buffer of its own. -/
theorem enqueue {req : QdmaSgReq} (h : Held x) (hnew : id ∉ x.submitted)
    (hwf : req.WellFormed) (hn : req.sgt.nents < 2 ^ 31)
    (hown : ∀ i, x.HoldsBuffer i → List.Disjoint (x.reqs i).buffer req.buffer) :
    Held (x.enqueue id req) := by
  have hledger := h.ledger.enqueue hnew hwf hn
  have hlive : (x.enqueue id req).liveIds = x.liveIds ++ [id] := by
    simp [Xfer.liveIds, Xfer.enqueue]
  have hother : ∀ i, i ≠ id → (x.enqueue id req).reqs i = x.reqs i := by
    intro i hi
    simp [Xfer.enqueue, Function.update_of_ne hi]
  have hself : ((x.enqueue id req).reqs id).buffer = req.buffer := by
    simp [Xfer.enqueue, QdmaSgReq.buffer]
  have hholds : ∀ i, i ≠ id → (x.enqueue id req).HoldsBuffer i → x.HoldsBuffer i := by
    intro i hi hh
    unfold Xfer.HoldsBuffer at hh ⊢
    rw [hlive, hother i hi] at hh
    refine ⟨?_, ?_⟩
    · have := hh.1
      change i ∈ x.submitted ++ [id] at this
      simpa [hi] using this
    · rcases hh.2 with hl | hb
      · exact Or.inl (by simpa [hi] using hl)
      · exact Or.inr hb
  refine ⟨hledger, ?_, ?_, ?_⟩
  · exact h.slots
  · intro p hp b hb
    have hne : p.owner ≠ id := by
      intro heq
      exact hnew (heq ▸ h.ledger.owned p hp)
    rw [hother _ hne]
    exact h.inside p hp b hb
  · intro o ho i hio hi
    rw [hlive] at ho
    by_cases hoid : o = id
    · subst hoid
      rw [hself, hother i hio]
      exact hown i (hholds i hio hi)
    · have ho' : o ∈ x.liveIds := by simpa [hoid] using ho
      rw [hother o hoid]
      by_cases hiid : i = id
      · subst hiid
        rw [hself]
        exact (hown o ⟨h.ledger.live o ho', Or.inl ho'⟩).symm
      · rw [hother i hiid]
        exact h.separate o ho' i hio (hholds i hiid hi)

end Held

/-- The steps under which buffers stay apart from the ring: those that keep ring
order and list order together, with submissions of buffers no other request
holds. -/
def BufferStep (x : Xfer) (e : Ev) : Prop :=
  StepOk x e ∧
    ∀ id req, e = .submit id req →
      ∀ i, x.HoldsBuffer i → List.Disjoint (x.reqs i).buffer req.buffer

/-- **Every such step keeps the invariant.** -/
theorem Held.step {x : Xfer} {e : Ev} (h : Held x) (hg : xferGuard x e) (hok : BufferStep x e) :
    Held (xferStep x e) := by
  have hledger := h.ledger.step hg hok.1
  cases e with
  | submit id req =>
      rcases qdmaSgReqSubmit_cases x id req with hr | ⟨hr, -⟩
      · rw [xferStep, hr]
        exact h
      · rw [xferStep, hr]
        exact h.enqueue hg.1 hok.1.1 hok.1.2 (hok.2 id req rfl)
  | wrkProc =>
      exact Ledger.wrkProcLoop_induct (fun _ hx => hx.ledger)
        (fun _ _ _ hx hw hres => Held.wrkProcOne hx hw hres) _ h rfl hok.1
  | serviceWb =>
      rw [xferStep, serviceWb_of_isMmOrH2c h.ledger.ring.kind] at hledger ⊢
      exact h.settles hledger h.ledger.settles_serviceWb
  | hwWb c =>
      refine h.settles hledger ⟨fun _ h => h, fun _ => rfl, fun _ => rfl, rfl, fun _ h => h, rfl,
        rfl, le_rfl, ?_⟩
      intro r hr
      change x.descq.desc.map _ = some r at hr
      obtain ⟨r₀, hr₀, rfl⟩ := Option.map_eq_some_iff.mp hr
      exact ⟨r₀, hr₀, rfl⟩
  | timeout id => exact h.settles hledger (settles_listDel x id)
  | ret id =>
      refine h.settles hledger ⟨fun _ h => h, fun _ => rfl, fun _ => rfl, rfl, ?_, rfl, rfl,
        le_rfl, fun r hr => ⟨r, hr, rfl⟩⟩
      exact fun i hi => List.mem_append_left _ hi

theorem FreshQueue.held {d : QdmaDescq} (h : FreshQueue d) (reqs : ReqId → QdmaSgReq)
    (coalEn : Bool) (coals : List IntrCoalConf) : Held (Xfer.init d reqs coalEn coals) := by
  have hlive : (Xfer.init d reqs coalEn coals).liveIds = [] := by
    change d.pendList ++ d.workList = []
    rw [h.pendList_eq, h.workList_eq, List.append_nil]
  refine ⟨h.ledger reqs coalEn coals, ?_, ?_, ?_⟩
  · intro r _ k p _ hk
    cases hk
  · intro p hp
    exact absurd hp List.not_mem_nil
  · intro o ho
    rw [hlive] at ho
    exact absurd ho List.not_mem_nil

/-! ## Returning -/

/-- No descriptor between the hardware's consumer index and `pidx` covers an
address of the buffer. -/
def NoneInFlightInto (x : Xfer) (buffer : List (BitVec 64)) : Prop :=
  ∀ r, x.descq.desc = some r → ∀ j < gap x.descq.conf.rngsz x.descq.pidx r.wbCidx,
    List.Disjoint
      ((r.slots ((r.wbCidx + j) % x.descq.conf.rngsz)).host x.descq.conf.c2h).bytes buffer

/-- In a state the invariant describes, a request that is on no list and whose
caller has not returned yet has nothing in flight. -/
theorem Held.noneInFlightInto {x : Xfer} (h : Held x) {id : ReqId} (hsub : id ∈ x.submitted)
    (hblock : (x.reqs id).fpDone = false) (hret : id ∉ x.returned) (hlive : id ∉ x.liveIds) :
    NoneInFlightInto x (x.reqs id).buffer := by
  intro r hr j hj
  have hring := h.ledger.ring
  have hmem : x.descq.desc.map (·.wbCidx) = some r.wbCidx := by
    rw [hr]
    rfl
  obtain ⟨hwlt, hwin⟩ := hring.window _ hmem
  rw [gap_sub_gap hring.pidx_lt hwlt hring.cidx_lt hwin] at hj
  -- the slot is that of descriptor number `k`
  set k := x.retired + gap x.descq.conf.rngsz r.wbCidx x.descq.cidx + j with hk
  have hslot : (r.wbCidx + j) % x.descq.conf.rngsz = k % x.descq.conf.rngsz := by
    conv_lhs => rw [← add_gap_mod hwlt hring.cidx_lt, hring.cidx_eq]
    rw [Nat.mod_add_mod, Nat.add_assoc, Nat.mod_add_mod, ← Nat.add_assoc, ← hring.cidx_eq]
  have hklt : k < x.posted.length := by
    have hposted := hring.posted_eq
    unfold Xfer.inFlight at hposted hwin
    omega
  obtain ⟨p, hp⟩ : ∃ p, x.posted[k]? = some p := ⟨_, List.getElem?_eq_getElem hklt⟩
  have hagree := h.slots r hr k p (by omega) hp
  rw [hslot, hagree.host_eq]
  -- its owner is on a list, so it is another request, with another buffer
  have howner : p.owner ∈ x.liveIds := by
    by_contra hnot
    have := h.ledger.toLedgerAt.index_lt hnot hp rfl
    omega
  have hne : id ≠ p.owner := fun heq => hlive (heq ▸ howner)
  have hdisj := h.separate p.owner howner id hne ⟨hsub, Or.inr ⟨hblock, hret⟩⟩
  intro b hb hbuf
  exact hdisj hbuf (h.inside p (List.mem_of_getElem? hp) b hb)

/-- **Buffers given back.**  In every run whose steps keep ring order and list
order together and submit no buffer another request still holds: when a blocking
submission returns, after a completion or after giving up, no descriptor between
the hardware's consumer index and `pidx` covers an address of its buffer. -/
theorem none_in_flight_at_return (d : QdmaDescq) (hd : FreshQueue d) (reqs : ReqId → QdmaSgReq)
    (coalEn : Bool) (coals : List IntrCoalConf) (es : List Ev) (id : ReqId)
    (hrun : (xferSys.restrict BufferStep).Admits (Xfer.init d reqs coalEn coals)
      (es ++ [.ret id])) :
    let x := xferSys.exec (Xfer.init d reqs coalEn coals) es
    NoneInFlightInto x (x.reqs id).buffer := by
  intro x
  obtain ⟨hbefore, hret, -⟩ := ((xferSys.restrict BufferStep).admits_append _ es [.ret id]).mp hrun
  have h : Held x :=
    (xferSys.restrict BufferStep).invariant (fun _ _ hx hg => Held.step hx hg.1 hg.2) es
      (hd.held reqs coalEn coals) hbefore
  obtain ⟨hblock, hsub, hnot, hlinked⟩ := hret.1
  refine h.noneInFlightInto hsub hblock hnot ?_
  intro hlive
  rcases List.mem_append.mp hlive with hp | hw
  · exact hlinked (Or.inr hp)
  · exact hlinked (Or.inl hw)

/-- A submission completes and returns. -/
theorem none_in_flight_after_completion :
    let x := xferSys.exec h2cStart [.submit 0 onePlaceReq, .wrkProc, .hwWb 1, .serviceWb]
    NoneInFlightInto x (x.reqs 0).buffer := by
  refine none_in_flight_at_return (h2cQueue false) (freshQueue_h2cQueue false)
    (fun _ => onePlaceReq) false [] [.submit 0 onePlaceReq, .wrkProc, .hwWb 1, .serviceWb] 0 ?_
  have hok : (xferSys.restrict StepOk).Admits h2cStart
      [.submit 0 onePlaceReq, .wrkProc, .hwWb 1, .serviceWb, .ret 0] := by
    decide +kernel
  obtain ⟨h₁, h₂, h₃, h₄, h₅, -⟩ := hok
  refine ⟨⟨h₁.1, h₁.2, ?_⟩, ⟨h₂.1, h₂.2, ?_⟩, ⟨h₃.1, h₃.2, ?_⟩, ⟨h₄.1, h₄.2, ?_⟩, ⟨h₅.1, h₅.2, ?_⟩,
    trivial⟩
  · rintro id req - i ⟨hmem, -⟩
    exact absurd hmem List.not_mem_nil
  all_goals
    rintro id req ⟨⟩

/-- A caller gives up on a posted request and returns: the descriptor is still in
flight. -/
theorem in_flight_after_timeout :
    xferSys.Admits h2cStart [.submit 0 onePlaceReq, .wrkProc, .timeout 0, .ret 0] ∧
      ¬ NoneInFlightInto (xferSys.exec h2cStart [.submit 0 onePlaceReq, .wrkProc, .timeout 0])
        ((xferSys.exec h2cStart [.submit 0 onePlaceReq, .wrkProc, .timeout 0]).reqs 0).buffer := by
  refine ⟨by decide +kernel, ?_⟩
  intro h
  have hbuf : ((xferSys.exec h2cStart [.submit 0 onePlaceReq, .wrkProc, .timeout 0]).reqs
      0).sgt.sgl.map Scatterlist.extent = [⟨0x100000, 8192⟩] := by
    decide +kernel
  have hring : (xferSys.exec h2cStart [.submit 0 onePlaceReq, .wrkProc, .timeout 0]).descq.desc.map
      (fun r => (r.wbCidx, (r.slots 0).host false)) = some (0, ⟨0x100000, 8192⟩) := by
    decide +kernel
  obtain ⟨r, hr, hrr⟩ := Option.map_eq_some_iff.mp hring
  simp only [Prod.mk.injEq] at hrr
  have hgap : 0 < gap (xferSys.exec h2cStart
      [.submit 0 onePlaceReq, .wrkProc, .timeout 0]).descq.conf.rngsz (xferSys.exec h2cStart
        [.submit 0 onePlaceReq, .wrkProc, .timeout 0]).descq.pidx 0 := by
    decide +kernel
  have hc2h : (xferSys.exec h2cStart
      [.submit 0 onePlaceReq, .wrkProc, .timeout 0]).descq.conf.c2h = false := by
    decide +kernel
  have hdisj := h r hr 0 (by rw [hrr.1]; exact hgap)
  rw [hrr.1, Nat.zero_add, Nat.zero_mod, hc2h, hrr.2, QdmaSgReq.buffer, hbuf] at hdisj
  refine hdisj (start_mem_bytes (by decide)) ?_
  rw [bytesOf_cons]
  exact List.mem_append_left _ (start_mem_bytes (by decide))

end Qdma

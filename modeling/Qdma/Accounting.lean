import Qdma.Transfer

/-!
# Ring accounting

Three counters describe the ring: the producer index `pidx`, the consumer index
`cidx` and the number of free slots `avail`.  They are moved by different
functions (the two posting loops with their wrap, the credit computation with its
own), and the invariant `RingInv` ties them together: the free slots and the
distance between the indexes make up the ring, less the one slot that is never
used.

The record of postings gives the distance its meaning: it is the number of
descriptors written and not yet retired.
-/

namespace Qdma

open Lib Lib.Cyclic

/-- The distance between the producer and the consumer index. -/
def Xfer.inFlight (x : Xfer) : ℕ := gap x.descq.conf.rngsz x.descq.pidx x.descq.cidx

/-- The accounting of one ring. -/
structure RingInv (x : Xfer) : Prop where
  kind : x.descq.isMmOrH2c
  rngsz_eq : x.descq.conf.rngsz = rngSzDflt
  pidx_lt : x.descq.pidx < x.descq.conf.rngsz
  cidx_lt : x.descq.cidx < x.descq.conf.rngsz
  avail_add : x.descq.avail + x.inFlight = x.descq.conf.rngsz - 1
  posted_eq : x.posted.length = x.retired + x.inFlight
  pidx_eq : x.descq.pidx = x.posted.length % x.descq.conf.rngsz
  cidx_eq : x.descq.cidx = x.retired % x.descq.conf.rngsz
  window : ∀ c, x.descq.desc.map (·.wbCidx) = some c →
    c < x.descq.conf.rngsz ∧ gap x.descq.conf.rngsz c x.descq.cidx ≤ x.inFlight

namespace RingInv

variable {x y : Xfer}

theorem rngsz_lt (h : RingInv x) : x.descq.conf.rngsz < 2 ^ 32 := by
  rw [h.rngsz_eq]
  decide

theorem avail_lt (h : RingInv x) : x.descq.avail < x.descq.conf.rngsz := by
  have := h.avail_add
  have := h.pidx_lt
  omega

/-- What does not touch the ring keeps the accounting. -/
theorem of_sameRing (h : RingInv x) (hs : SameRing x y) : RingInv y := by
  rw [hs]
  exact ⟨h.kind, h.rngsz_eq, h.pidx_lt, h.cidx_lt, h.avail_add, h.posted_eq, h.pidx_eq, h.cidx_eq,
    h.window⟩

end RingInv

/-! ## Posting -/

theorem writeDesc_wbCidx (d : QdmaDescq) (slot : ℕ) (v : QdmaDesc) :
    (d.writeDesc slot v).desc.map (·.wbCidx) = d.desc.map (·.wbCidx) := by
  unfold QdmaDescq.writeDesc
  cases hd : d.desc with
  | none => simp
  | some r => simp

theorem Puts.wbCidx_eq {id : ReqId} {x y : Xfer} {es : List (Extent (BitVec 64))}
    (h : Puts id x es y) : y.descq.desc.map (·.wbCidx) = x.descq.desc.map (·.wbCidx) := by
  induction h with
  | nil x => rfl
  | @cons x y es desc mmio _ ih =>
      rw [ih]
      exact writeDesc_wbCidx x.descq x.descq.pidx desc

theorem RingAgrees.wbCidx_eq {r s : Option DescRing} (h : RingAgrees r s) :
    s.map (·.wbCidx) = r.map (·.wbCidx) := by
  match r, s, h with
  | none, none, _ => rfl
  | some r, some s, ⟨_, _, _, hw, _⟩ => simp [hw]

theorem Posts.wbCidx_eq {id : ReqId} {x y : Xfer} {es : List (Extent (BitVec 64))}
    (h : Posts x id es y) : y.descq.desc.map (·.wbCidx) = x.descq.desc.map (·.wbCidx) := by
  obtain ⟨x₁, desc, oops, mmio, hputs, hagree, rfl⟩ := h
  rw [postAccount_eq]
  exact hagree.wbCidx_eq.trans hputs.wbCidx_eq

/-- **Posting a batch** that fits moves `pidx` ahead and takes as much from
`avail`. -/
theorem RingInv.posts {id : ReqId} {x y : Xfer} {es : List (Extent (BitVec 64))}
    (h : RingInv x) (hp : Posts x id es y) (hlen : es.length ≤ x.descq.avail) : RingInv y := by
  have hconf : y.descq.conf = x.descq.conf := by rw [hp.frame]
  have hcidx : y.descq.cidx = x.descq.cidx := by rw [hp.frame]
  have havail : y.descq.avail = x.descq.avail - es.length := by
    rw [hp.frame]
    exact u32Sub_of_le (lt_trans h.avail_lt h.rngsz_lt) hlen
  have hretired : y.retired = x.retired := by rw [hp.frame]
  have hpidx := hp.pidx_eq h.rngsz_lt h.pidx_lt
  have hadd := h.avail_add
  have hpos := h.pidx_lt
  have hflight : y.inFlight = x.inFlight + es.length := by
    unfold Xfer.inFlight
    rw [hconf, hcidx, hpidx]
    refine gap_add h.pidx_lt h.cidx_lt ?_
    unfold Xfer.inFlight at hadd
    omega
  obtain ⟨ps, hps, hmap, -⟩ := hp.posted_eq
  have hpslen : ps.length = es.length := by
    rw [← hmap]
    simp
  refine ⟨?_, ?_, ?_, ?_, ?_, ?_, ?_, ?_, ?_⟩
  · have := h.kind
    unfold QdmaDescq.isMmOrH2c QdmaDescq.isStC2h at *
    rwa [hconf]
  · rw [hconf, h.rngsz_eq]
  · rw [hpidx, hconf]
    exact Nat.mod_lt _ (by omega)
  · rw [hcidx, hconf]
    exact h.cidx_lt
  · rw [havail, hflight, hconf]
    omega
  · have := h.posted_eq
    rw [hps, List.length_append, hpslen, hretired, hflight]
    omega
  · rw [hpidx, hconf, hps, List.length_append, hpslen, h.pidx_eq, Nat.mod_add_mod]
  · rw [hcidx, hconf, hretired]
    exact h.cidx_eq
  · intro c hc
    rw [hp.wbCidx_eq] at hc
    rw [hflight, hconf, hcidx]
    have := h.window c hc
    exact ⟨this.1, by omega⟩

/-- One request of the worker's pass. -/
theorem RingInv.proc {x : Xfer} (h : RingInv x) (id : ReqId) :
    RingInv (qdmaDescqProcSgtRequest x id).2 := by
  rcases proc_cases x id h.kind with
    ⟨-, hr⟩ | ⟨-, -, hr⟩ | ⟨-, sg, off, -, -, -, hr⟩ | ⟨-, sg, off, -, -, -, hr⟩
  · rw [hr]
    exact h
  · rw [hr]
    exact h
  · rw [hr]
    exact h
  · exact h.posts hr (by simp)

theorem RingInv.wrkProcOne {x : Xfer} (h : RingInv x) (id : ReqId) : RingInv (wrkProcOne x id) := by
  unfold Qdma.wrkProcOne
  dsimp only
  split
  · exact (h.proc id).of_sameRing (sameRing_reqDone _ _ _)
  · exact h.proc id

theorem RingInv.wrkProcLoop {x : Xfer} (h : RingInv x) (ids : List ReqId) :
    RingInv (wrkProcLoop ids x) := by
  induction ids generalizing x with
  | nil => exact h
  | cons id rest ih =>
      unfold Qdma.wrkProcLoop
      dsimp only
      split
      · exact h.wrkProcOne id
      · exact ih (h.wrkProcOne id)

/-! ## Retiring -/

/-- The credit computation with its wrap case is the distance the consumer index
has moved. -/
theorem descqWbCredit_eq {x : Xfer} (h : RingInv x) {c : ℕ} (hc : c < x.descq.conf.rngsz) :
    descqWbCredit x c =
      (gap x.descq.conf.rngsz c x.descq.cidx,
        { x with
          descq :=
            { x.descq with
              cidx := c
              avail := u32 (x.descq.avail + gap x.descq.conf.rngsz c x.descq.cidx) }
          retired := x.retired + gap x.descq.conf.rngsz c x.descq.cidx }) := by
  have hcidx := h.cidx_lt
  have hrng := h.rngsz_lt
  unfold descqWbCredit
  dsimp only
  by_cases heq : c = x.descq.cidx
  · rw [if_pos heq, heq, gap_self]
    have havail : u32 (x.descq.avail + 0) = x.descq.avail :=
      u32_of_lt (by have := h.avail_lt; omega)
    rw [havail]
    rfl
  · have hn : (if c < x.descq.cidx then u32 (u32Sub x.descq.conf.rngsz x.descq.cidx + c)
        else c - x.descq.cidx) = gap x.descq.conf.rngsz c x.descq.cidx := by
      rw [gap_eq_ite hc hcidx]
      split
      · rw [u32Sub_of_le hrng (by omega), u32_of_lt (by omega)]
      · rfl
    rw [if_neg heq, hn]

/-- **Retiring a window** gives its slots back. -/
theorem RingInv.wbCredit {x : Xfer} (h : RingInv x) {c : ℕ} (hc : c < x.descq.conf.rngsz)
    (hwin : gap x.descq.conf.rngsz c x.descq.cidx ≤ x.inFlight)
    (hring : x.descq.desc.map (·.wbCidx) = some c) : RingInv (descqWbCredit x c).2 := by
  have hadd := h.avail_add
  have hflight : gap x.descq.conf.rngsz x.descq.pidx c =
      x.inFlight - gap x.descq.conf.rngsz c x.descq.cidx :=
    gap_sub_gap h.pidx_lt hc h.cidx_lt hwin
  have havail : u32 (x.descq.avail + gap x.descq.conf.rngsz c x.descq.cidx) =
      x.descq.avail + gap x.descq.conf.rngsz c x.descq.cidx := by
    have := h.rngsz_lt
    exact u32_of_lt (by omega)
  rw [descqWbCredit_eq h hc, havail]
  refine ⟨h.kind, h.rngsz_eq, h.pidx_lt, hc, ?_, ?_, h.pidx_eq, ?_, ?_⟩
  · change x.descq.avail + gap _ c _ + gap _ x.descq.pidx c = x.descq.conf.rngsz - 1
    rw [hflight]
    omega
  · have := h.posted_eq
    change x.posted.length = x.retired + gap _ c _ + gap _ x.descq.pidx c
    rw [hflight]
    omega
  · change c = (x.retired + gap _ c _) % x.descq.conf.rngsz
    conv_lhs => rw [← add_gap_mod hc h.cidx_lt, h.cidx_eq]
    rw [Nat.mod_add_mod, ← h.cidx_eq]
  · intro c' hc'
    obtain rfl : c = c' := Option.some.inj (hring.symm.trans hc')
    refine ⟨hc, ?_⟩
    change gap _ c c ≤ _
    rw [gap_self]
    exact Nat.zero_le _

/-- Rings that only doorbells and the aggregation ring tell apart. -/
theorem RingInv.of_frame {x y : Xfer} (h : RingInv x) (hd : y.descq = x.descq)
    (hp : y.posted = x.posted) (hr : y.retired = x.retired) : RingInv y := by
  have hf : y.inFlight = x.inFlight := by
    unfold Xfer.inFlight
    rw [hd]
  refine ⟨?_, ?_, ?_, ?_, ?_, ?_, ?_, ?_, ?_⟩
  · rw [hd]; exact h.kind
  · rw [hd]; exact h.rngsz_eq
  · rw [hd]; exact h.pidx_lt
  · rw [hd]; exact h.cidx_lt
  · rw [hf, hd]; exact h.avail_add
  · rw [hp, hr, hf]; exact h.posted_eq
  · rw [hd, hp]; exact h.pidx_eq
  · rw [hd, hr]; exact h.cidx_eq
  · rw [hd, hf]; exact h.window

theorem intrCoalAdvance_frame (x : Xfer) :
    ∃ coals mmio, intrCoalAdvance x = { x with intrCoalList := coals, mmio := mmio } := by
  unfold intrCoalAdvance
  split
  · split
    · exact ⟨x.intrCoalList, x.mmio, rfl⟩
    · exact ⟨_, _, rfl⟩
  · exact ⟨x.intrCoalList, x.mmio, rfl⟩

/-- **Every outcome of `descq_mm_n_h2c_wb`**: nothing new, a ring that is not
there, or credits retired and matched. -/
theorem descqMmNH2cWb_cases (x : Xfer) :
    descqMmNH2cWb x = x ∨
    (x.descq.desc = none ∧ descqMmNH2cWb x = { x with descq := { x.descq with oops := true } }) ∨
    ∃ ring coals mmio, x.descq.desc = some ring ∧ ring.wbCidx ≠ x.descq.cidx ∧
      x.descq.pidx ≠ x.descq.cidx ∧
      descqMmNH2cWb x =
        { reqUpdatePend (descqWbCredit x ring.wbCidx).2 (descqWbCredit x ring.wbCidx).1 with
          intrCoalList := coals, mmio := mmio } := by
  unfold descqMmNH2cWb
  split
  · exact Or.inl rfl
  · rename_i hne
    split
    · rename_i hnone
      exact Or.inr (Or.inl ⟨hnone, rfl⟩)
    · rename_i ring hsome
      split
      · exact Or.inl rfl
      · rename_i hnew
        dsimp only
        obtain ⟨coals, mmio, hc⟩ := intrCoalAdvance_frame
          { reqUpdatePend (descqWbCredit x ring.wbCidx).2 (descqWbCredit x ring.wbCidx).1 with
            mmio := (reqUpdatePend (descqWbCredit x ring.wbCidx).2
              (descqWbCredit x ring.wbCidx).1).mmio ++
                [descqPidxUpdate (reqUpdatePend (descqWbCredit x ring.wbCidx).2
                  (descqWbCredit x ring.wbCidx).1).descq
                  (reqUpdatePend (descqWbCredit x ring.wbCidx).2
                    (descqWbCredit x ring.wbCidx).1).descq.pidx] }
        rw [hc]
        exact Or.inr (Or.inr ⟨ring, coals, mmio, hsome, hnew, hne, rfl⟩)

theorem RingInv.serviceWb {x : Xfer} (h : RingInv x) : RingInv (descqMmNH2cWb x) := by
  rcases descqMmNH2cWb_cases x with hr | ⟨hnone, hr⟩ | ⟨ring, coals, mmio, hsome, -, -, hr⟩
  · rw [hr]
    exact h
  · rw [hr]
    exact ⟨h.kind, h.rngsz_eq, h.pidx_lt, h.cidx_lt, h.avail_add, h.posted_eq, h.pidx_eq, h.cidx_eq,
    h.window⟩
  · have hring : x.descq.desc.map (·.wbCidx) = some ring.wbCidx := by rw [hsome]; rfl
    obtain ⟨hlt, hwin⟩ := h.window _ hring
    have hone := (h.wbCredit hlt hwin hring).of_sameRing
      (sameRing_reqUpdatePend (descqWbCredit x ring.wbCidx).2 (descqWbCredit x ring.wbCidx).1)
    rw [hr]
    exact hone.of_frame rfl rfl rfl

/-! ## Runs -/

theorem serviceWb_of_isMmOrH2c {x : Xfer} (hq : x.descq.isMmOrH2c) (al : RxAllocs) :
    qdmaDescqServiceWb al x = descqMmNH2cWb x := by
  rw [qdmaDescqServiceWb, hq]
  rfl

theorem RingInv.submit {x : Xfer} (h : RingInv x) (id : ReqId) (req : QdmaSgReq) :
    RingInv (qdmaSgReqSubmit x id req).2 := by
  unfold qdmaSgReqSubmit
  split_ifs
  · exact h
  · exact h
  · exact h
  · exact ⟨h.kind, h.rngsz_eq, h.pidx_lt, h.cidx_lt, h.avail_add, h.posted_eq, h.pidx_eq, h.cidx_eq,
    h.window⟩

theorem RingInv.hwWriteback {x : Xfer} (h : RingInv x) {c : ℕ} (hc : c < x.descq.conf.rngsz)
    (hwin : gap x.descq.conf.rngsz c x.descq.cidx ≤ x.inFlight) :
    RingInv (hwWriteback x c) := by
  refine ⟨h.kind, h.rngsz_eq, h.pidx_lt, h.cidx_lt, h.avail_add, h.posted_eq, h.pidx_eq,
    h.cidx_eq, ?_⟩
  intro c' hc'
  have hmem : (x.descq.desc.map fun r => ({ r with wbCidx := c } : DescRing)).map (·.wbCidx) =
      some c' := hc'
  rw [Option.map_map] at hmem
  obtain ⟨r, -, hr⟩ := Option.map_eq_some_iff.mp hmem
  obtain rfl : c = c' := hr
  exact ⟨hc, hwin⟩

/-- **Every event keeps the accounting.** -/
theorem RingInv.step {x : Xfer} {e : Ev} (h : RingInv x) (hg : xferGuard x e) :
    RingInv (xferStep x e) := by
  cases e with
  | submit id req => exact h.submit id req
  | wrkProc => exact h.wrkProcLoop _
  | serviceWb =>
      rw [xferStep, serviceWb_of_isMmOrH2c h.kind]
      exact h.serviceWb
  | hwWb c => exact h.hwWriteback hg.1 hg.2
  | timeout id => exact h.of_sameRing (sameRing_listDel x id)
  | ret id => exact h.of_frame rfl rfl rfl

theorem ringInv_config (numVecs pftchEn : ℕ) (d : QdmaDescq) (qconf : QdmaQueueConf)
    (reconfig : Bool) (reqs : ReqId → QdmaSgReq) (coalEn : Bool) (coals : List IntrCoalConf)
    (hkind : (qdmaDescqConfig numVecs pftchEn d qconf reconfig).isMmOrH2c)
    (hring : ∀ r, d.desc = some r → r.wbCidx = 0) :
    RingInv (Xfer.init (qdmaDescqConfig numVecs pftchEn d qconf reconfig) reqs coalEn coals) := by
  have hsize : 0 < rngSzDflt := by decide
  refine ⟨hkind, rfl, hsize, hsize, ?_, ?_, rfl, rfl, ?_⟩
  · change rngSzDflt - 1 + gap rngSzDflt 0 0 = rngSzDflt - 1
    decide
  · change 0 = 0 + gap rngSzDflt 0 0
    decide
  · intro c hc
    obtain ⟨r, hr, hrc⟩ := Option.map_eq_some_iff.mp hc
    obtain rfl : c = 0 := hrc.symm.trans (hring r hr)
    refine ⟨hsize, ?_⟩
    change gap rngSzDflt 0 0 ≤ gap rngSzDflt 0 0
    exact le_rfl

/-- **Ring accounting.**  From `qdma_descq_config` on, whatever the order of
submissions, worker passes, writeback services, timeouts and in-window writebacks:
the indexes stay inside the ring, the free slots and the distance between the
indexes make up the ring less one slot, that distance is the number of
descriptors written and not retired, the indexes are the unbounded counts modulo
the ring size, and they meet exactly when nothing is outstanding. -/
theorem ring_accounting (numVecs pftchEn : ℕ) (d : QdmaDescq) (qconf : QdmaQueueConf)
    (reconfig : Bool) (reqs : ReqId → QdmaSgReq) (coalEn : Bool) (coals : List IntrCoalConf)
    (hkind : (qdmaDescqConfig numVecs pftchEn d qconf reconfig).isMmOrH2c)
    (hring : ∀ r, d.desc = some r → r.wbCidx = 0) (es : List Ev)
    (hrun : xferSys.Admits
      (Xfer.init (qdmaDescqConfig numVecs pftchEn d qconf reconfig) reqs coalEn coals) es) :
    let x := xferSys.exec
      (Xfer.init (qdmaDescqConfig numVecs pftchEn d qconf reconfig) reqs coalEn coals) es
    let q := x.descq
    q.pidx < q.conf.rngsz ∧ q.cidx < q.conf.rngsz ∧ q.avail ≤ q.conf.rngsz - 1 ∧
      q.avail + gap q.conf.rngsz q.pidx q.cidx = q.conf.rngsz - 1 ∧
      q.avail + (x.posted.length - x.retired) = q.conf.rngsz - 1 ∧
      x.retired ≤ x.posted.length ∧
      q.pidx = x.posted.length % q.conf.rngsz ∧ q.cidx = x.retired % q.conf.rngsz ∧
      (q.pidx = q.cidx ↔ x.retired = x.posted.length) := by
  intro x q
  have h : RingInv x := xferSys.invariant (fun _ _ => RingInv.step) es
    (ringInv_config numVecs pftchEn d qconf reconfig reqs coalEn coals hkind hring) hrun
  have hadd := h.avail_add
  have hposted := h.posted_eq
  have hcount : x.posted.length - x.retired = x.inFlight := by omega
  refine ⟨h.pidx_lt, h.cidx_lt, Nat.le.intro hadd, hadd, ?_, by omega, h.pidx_eq, h.cidx_eq, ?_⟩
  · rw [hcount]
    exact hadd
  · rw [← gap_eq_zero_iff h.pidx_lt h.cidx_lt]
    change x.inFlight = 0 ↔ _
    omega

/-- Two descriptors posted, one of them retired. -/
theorem ring_accounting_one_of_two :
    let x := xferSys.exec
      (Xfer.init (qdmaDescqConfig 0 0 ringedQueue ⟨0, false, false, 0, 0⟩ false)
        (fun _ => twoPlacesReq) false [])
      [.submit 0 twoPlacesReq, .wrkProc, .hwWb 1, .serviceWb]
    x.descq.pidx = 2 ∧ x.descq.cidx = 1 ∧
      x.descq.avail + gap x.descq.conf.rngsz x.descq.pidx x.descq.cidx =
        x.descq.conf.rngsz - 1 :=
  ⟨by decide +kernel, by decide +kernel,
    (ring_accounting 0 0 ringedQueue ⟨0, false, false, 0, 0⟩ false (fun _ => twoPlacesReq) false []
      rfl (by rintro r ⟨⟩; rfl) [.submit 0 twoPlacesReq, .wrkProc, .hwWb 1, .serviceWb]
      (by decide +kernel)).2.2.2.1⟩

end Qdma

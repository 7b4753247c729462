import Qdma.Counts
import Qdma.QResource

/-!
# The queues of a PCI device

The kernel module keeps a table of its own over the queues of a device: for every queue the
handle and the character device.  `xpdev_queue_add` adds the queue below, looks its slot up
and creates the character device; what fails after the queue was added is not undone, and the
slot is written even when there is no character device, with whatever the variable for it
held.

* `XlnxPciDev` is the device with the table and the character devices there are.
* `AddAtomic` is what an addition should be, and `queue_add_atomic_iff` says when it is that.
-/

namespace Qdma

def enospc : ℤ := 28

/-! ## The table -/

/-- `struct qdma_cdev` at its address. -/
structure QdmaCdev where
  addr : ℕ
  minor : ℕ
  privData : ℕ
  deriving DecidableEq

/-- `struct xlnx_qdata`. -/
structure XlnxQdata where
  qhndl : ℕ
  xcdev : Option ℕ
  deriving DecidableEq

/-- `struct xlnx_pci_dev`; `cdevs` are the character devices that are live. -/
structure XlnxPciDev where
  prep : PrepDev
  qmax : ℕ
  qdata : ℕ → XlnxQdata
  cdevMinorCnt : ℕ
  cdevs : List QdmaCdev

/-- `xpdev_queue_get`: the place in `qdata`. -/
def xpdevQueueGet (x : XlnxPciDev) (qidx : ℕ) (c2h checkQhndl : Bool) : Option ℕ :=
  if x.qmax ≤ qidx then none
  else
    let i := if c2h then x.qmax + qidx else qidx
    if checkQhndl && (decide ((x.qdata i).qhndl = 0) && decide ((x.qdata i).xcdev = none)) then none
    else some i

/-- What becomes of the requests of `qdma_cdev_create`; `device_create` gives a negative error
or a device. -/
structure CdevFates where
  kzalloc : Option ℕ
  cdevAdd : ℤ
  qdmaClass : Bool
  deviceCreate : ℤ

/-- `qdma_cdev_create`: the value, what is stored at `xcdev_pp` if anything is, and the
character devices that are live. -/
def qdmaCdevCreate (f : CdevFates) (minorCnt : ℕ) (cdevs : List QdmaCdev) (minor qhndl : ℕ) :
    ℤ × Option ℕ × List QdmaCdev :=
  match f.kzalloc with
  | none => (-enomem, none, cdevs)
  | some addr =>
      let xcdev := { addr := addr, minor := minor, privData := qhndl }
      if minorCnt ≤ minor then (-enospc, none, cdevs)
      else if f.cdevAdd < 0 then (f.cdevAdd, none, cdevs)
      else
        let cdevs := cdevs ++ [xcdev]
        if f.qdmaClass && decide (f.deviceCreate < 0) then
          (f.deviceCreate, none, cdevs.dropLast)
        else (0, some addr, cdevs)

/-- What becomes of the requests of one addition; `xcdev` is what the variable of
`xpdev_queue_add` holds before anything is stored in it. -/
structure QueueAddFates where
  prep : PrepFates
  cdev : CdevFates
  xcdev : Option ℕ

/-- The index `qdma_queue_add` writes back to the configuration, by the handle. -/
def addedQidx (dev : XlnxDmaDev) (c2h : Bool) (qhndl : ℕ) : ℕ :=
  if c2h then qhndl - dev.qmax else qhndl

/-- `xpdev_queue_add` behind `qdma_queue_add`. -/
def xpdevQueueFill (f : QueueAddFates) (x : XlnxPciDev) (c2h : Bool) (qhndl : ℕ) :
    ℤ × XlnxPciDev :=
  match xpdevQueueGet x (addedQidx x.prep.dev c2h qhndl) c2h false with
  | none => (0, x)
  | some i =>
      let r := qdmaCdevCreate f.cdev x.cdevMinorCnt x.cdevs (u32 qhndl) qhndl
      (r.1,
        { x with
          qdata := Function.update x.qdata i { qhndl := qhndl, xcdev := r.2.1.or f.xcdev }
          cdevs := r.2.2 })

/-- `xpdev_queue_add`. -/
def xpdevQueueAdd (f : QueueAddFates) (x : XlnxPciDev) (qconf : QdmaQueueConf) : ℤ × XlnxPciDev :=
  let p := qdmaDevicePrepQResource f.prep x.prep
  let x := { x with prep := p.2 }
  if p.1 < 0 then (p.1, x)
  else
    let r := qdmaQueueAdd x.prep.dev qconf
    let x := { x with prep := { x.prep with dev := r.2.2 } }
    if r.1 < 0 then (r.1, x) else xpdevQueueFill f x qconf.c2h r.2.1

/-! ## The property -/

/-- The enabled flags, the counts, the table and the character devices are as before. -/
structure SameQueues (x y : XlnxPciDev) : Prop where
  enabled : ∀ q, (y.prep.dev.descq q).enabled = (x.prep.dev.descq q).enabled
  counts : ∀ c2h, y.prep.dev.qcnt c2h = x.prep.dev.qcnt c2h
  qdata : y.qdata = x.qdata
  cdevs : y.cdevs = x.cdevs

/-- The table has the handle of the queue that was added and a live character device for it,
and the queue is found there. -/
structure QueueListed (x y : XlnxPciDev) (qconf : QdmaQueueConf) (qhndl : ℕ) : Prop where
  new : ∃ q, (x.prep.dev.descq q).enabled = false ∧ (y.prep.dev.descq q).enabled = true
  found : ∃ i, xpdevQueueGet y (addedQidx y.prep.dev qconf.c2h qhndl) qconf.c2h true = some i ∧
    (y.qdata i).qhndl = qhndl ∧
    ∃ c ∈ y.cdevs, (y.qdata i).xcdev = some c.addr ∧ c.privData = qhndl

/-- The handle a call of `xpdev_queue_add` gets from below. -/
def addedHandle (f : QueueAddFates) (x : XlnxPciDev) (qconf : QdmaQueueConf) : ℕ :=
  (qdmaQueueAdd (qdmaDevicePrepQResource f.prep x.prep).2.dev qconf).2.1

/-- All or nothing. -/
structure AddAtomic (f : QueueAddFates) (x : XlnxPciDev) (qconf : QdmaQueueConf) : Prop where
  nothing : (xpdevQueueAdd f x qconf).1 < 0 → SameQueues x (xpdevQueueAdd f x qconf).2
  all : (xpdevQueueAdd f x qconf).1 = 0 →
    QueueListed x (xpdevQueueAdd f x qconf).2 qconf (addedHandle f x qconf)

/-- The queue `qdma_queue_add` takes, if there is one. -/
def XlnxDmaDev.taken (dev : XlnxDmaDev) (qconf : QdmaQueueConf) : Option ℕ :=
  if dev.qmax ≤ dev.qcnt qconf.c2h then none
  else if qconf.qidx ≠ qdmaQueueIdxInvalid ∧ dev.qmax ≤ qconf.qidx then none
  else (pickQueue dev qconf).toOption

/-- Its handle. -/
def XlnxDmaDev.handleOf (dev : XlnxDmaDev) (c2h : Bool) (i : ℕ) : ℕ :=
  let qidx := (dev.descq (dev.handle c2h i)).conf.qidx
  if c2h then qidx + dev.qmax else qidx

/-- Nothing fails in `qdma_cdev_create` for the queue with the handle. -/
def CdevFates.Creates (f : CdevFates) (minorCnt qhndl : ℕ) : Prop :=
  f.kzalloc ≠ none ∧ u32 qhndl < minorCnt ∧ 0 ≤ f.cdevAdd ∧
    (f.qdmaClass = true → 0 ≤ f.deviceCreate)

/-- The queue is refused below, or everything above succeeds. -/
def RefusedOrGranted (f : QueueAddFates) (x : XlnxPciDev) (qconf : QdmaQueueConf) : Prop :=
  (qdmaDevicePrepQResource f.prep x.prep).1 < 0 ∨
    ∀ i ∈ x.prep.dev.taken qconf,
      (x.prep.dev.descq (x.prep.dev.handle qconf.c2h i)).conf.qidx < x.qmax ∧
        f.cdev.Creates x.cdevMinorCnt (x.prep.dev.handleOf qconf.c2h i)

/-! ## The layer below -/

/-- Two devices with the same queues, as far as an addition looks at them. -/
structure SameSlots (dev dev' : XlnxDmaDev) : Prop where
  qmax : dev'.qmax = dev.qmax
  counts : ∀ c2h, dev'.qcnt c2h = dev.qcnt c2h
  enabled : ∀ q, (dev'.descq q).enabled = (dev.descq q).enabled
  conf : ∀ q, (dev'.descq q).conf = (dev.descq q).conf

theorem SameSlots.trans {dev dev' dev'' : XlnxDmaDev} (h₁ : SameSlots dev dev')
    (h₂ : SameSlots dev' dev'') : SameSlots dev dev'' :=
  ⟨h₂.qmax.trans h₁.qmax, fun b => (h₂.counts b).trans (h₁.counts b),
    fun q => (h₂.enabled q).trans (h₁.enabled q), fun q => (h₂.conf q).trans (h₁.conf q)⟩

theorem sameSlots_of_descq {dev dev' : XlnxDmaDev} (hmax : dev'.qmax = dev.qmax)
    (hh2c : dev'.h2cQcnt = dev.h2cQcnt) (hc2h : dev'.c2hQcnt = dev.c2hQcnt)
    (hdescq : dev'.descq = dev.descq) : SameSlots dev dev' := by
  refine ⟨hmax, fun b => ?_, fun q => by rw [hdescq], fun q => by rw [hdescq]⟩
  unfold XlnxDmaDev.qcnt
  rw [hh2c, hc2h]

theorem sameSlots_setQrange (f : PrepFates) (s : PrepDev) :
    SameSlots s.dev (deviceSetQrange f s).2.dev := by
  unfold deviceSetQrange XlnxDmaDev.grantRange
  split
  · split
    · exact sameSlots_of_descq rfl rfl rfl rfl
    · refine ⟨rfl, fun b => rfl, fun q => ?_, fun q => ?_⟩
      · dsimp only
        split <;> rfl
      · dsimp only
        split <;> rfl
  · exact sameSlots_of_descq rfl rfl rfl rfl

theorem sameSlots_ringSetup (f : PrepFates) (s : PrepDev) (ringSize : ℕ) :
    SameSlots s.dev (s.intrRingSetup f ringSize).2.dev := by
  rcases intrRingSetup_spec f s ringSize with ⟨-, heq⟩ | ⟨-, -, list, bus, -, -, -, heq⟩ | ⟨-, -, heq⟩
  · rw [heq]
    exact sameSlots_of_descq rfl rfl rfl rfl
  · rw [heq]
    exact sameSlots_of_descq rfl rfl rfl rfl
  · rw [heq]
    exact sameSlots_of_descq rfl rfl rfl rfl

/-- Preparing the resources leaves the queues alone, as far as an addition looks at them. -/
theorem sameSlots_prep (f : PrepFates) (s : PrepDev) :
    SameSlots s.dev (qdmaDevicePrepQResource f s).2.dev := by
  have hrange := sameSlots_setQrange f s
  unfold qdmaDevicePrepQResource
  split
  · exact sameSlots_of_descq rfl rfl rfl rfl
  · dsimp only
    split
    · exact hrange
    · have hrings := hrange.trans
        (sameSlots_ringSetup f (deviceSetQrange f s).2 xdevIntrCoalRingSize)
      split
      · exact hrings
      · split
        · generalize ((deviceSetQrange f s).2.intrRingSetup f xdevIntrCoalRingSize).2 = t at hrings ⊢
          obtain ⟨ctxt, heq⟩ := qdmaIntrContextSetup_eq f t
          rw [heq]
          exact hrings.trans (sameSlots_of_descq rfl rfl rfl rfl)
        · exact hrings

theorem SameSlots.taken {dev dev' : XlnxDmaDev} (h : SameSlots dev dev') (qconf : QdmaQueueConf) :
    dev'.taken qconf = dev.taken qconf := by
  have hhandle : ∀ c2h i, dev'.handle c2h i = dev.handle c2h i := fun c2h i => by
    unfold XlnxDmaDev.handle
    rw [h.qmax]
  unfold XlnxDmaDev.taken pickQueue
  simp only [h.qmax, h.counts, hhandle, h.enabled]

theorem handle_of_qmax {dev dev' : XlnxDmaDev} (h : dev'.qmax = dev.qmax) (c2h : Bool) (i : ℕ) :
    dev'.handle c2h i = dev.handle c2h i := by
  unfold XlnxDmaDev.handle
  rw [h]

theorem SameSlots.handleOf {dev dev' : XlnxDmaDev} (h : SameSlots dev dev') (c2h : Bool) (i : ℕ) :
    dev'.handleOf c2h i = dev.handleOf c2h i := by
  unfold XlnxDmaDev.handleOf XlnxDmaDev.handle
  simp only [h.qmax, h.conf]

/-- `qdma_queue_add` refuses and changes nothing, or takes a queue that was not enabled. -/
theorem queueAdd_taken (dev : XlnxDmaDev) (qconf : QdmaQueueConf) :
    (dev.taken qconf = none ∧ (qdmaQueueAdd dev qconf).1 < 0 ∧ (qdmaQueueAdd dev qconf).2.2 = dev) ∨
    ∃ i, dev.taken qconf = some i ∧ (dev.descq (dev.handle qconf.c2h i)).enabled = false ∧
      qdmaQueueAdd dev qconf = (0, dev.handleOf qconf.c2h i,
        countUp dev qconf.c2h (dev.handle qconf.c2h i)
          (addedDescq dev (dev.descq (dev.handle qconf.c2h i)) qconf)) := by
  have hmax := dev.qmax_lt
  unfold XlnxDmaDev.taken qdmaQueueAdd
  dsimp only
  change (if dev.qmax ≤ dev.qcnt qconf.c2h then _ else _) = none ∧
      (if dev.qmax ≤ dev.qcnt qconf.c2h then _ else _ : ℤ × ℕ × XlnxDmaDev).1 < 0 ∧
      (if dev.qmax ≤ dev.qcnt qconf.c2h then _ else _ : ℤ × ℕ × XlnxDmaDev).2.2 = dev ∨ ∃ i,
      (if dev.qmax ≤ dev.qcnt qconf.c2h then _ else _) = some i ∧ _ ∧
      (if dev.qmax ≤ dev.qcnt qconf.c2h then _ else _ : ℤ × ℕ × XlnxDmaDev) = _
  by_cases hfull : dev.qmax ≤ dev.qcnt qconf.c2h
  · simp only [if_pos hfull]
    exact Or.inl ⟨trivial, by decide, trivial⟩
  · simp only [if_neg hfull]
    by_cases hidx : qconf.qidx ≠ qdmaQueueIdxInvalid ∧ dev.qmax ≤ qconf.qidx
    · simp only [if_pos hidx]
      exact Or.inl ⟨trivial, by decide, trivial⟩
    · simp only [if_neg hidx]
      have hpick : pickQueue (dev.addQcnt qconf.c2h 1) qconf = pickQueue dev qconf := by
        obtain ⟨m, c, heq⟩ := addQcnt_eq dev qconf.c2h 1
        rw [heq]
        rfl
      rw [hpick]
      obtain ⟨i, hok, -, -⟩ | ⟨rv, herr, hrv, -⟩ := pickQueue_cases dev qconf
      · obtain ⟨hi, hfree⟩ := pickQueue_eq_ok hidx hok
        refine Or.inr ⟨i, by rw [hok]; rfl, hfree, ?_⟩
        rw [hok]
        obtain ⟨m, c, heq⟩ := addQcnt_eq dev qconf.c2h 1
        unfold countUp
        rw [heq]
        rfl
      · rw [herr]
        refine Or.inl ⟨rfl, hrv, ?_⟩
        dsimp only
        exact addQcnt_undo dev (by omega)

/-! ## The layer above -/

/-- The character device is created, or nothing is stored and none is left. -/
theorem qdmaCdevCreate_spec (f : CdevFates) (minorCnt : ℕ) (cdevs : List QdmaCdev) (qhndl : ℕ) :
    (f.Creates minorCnt qhndl ∧ ∃ c : QdmaCdev, c.privData = qhndl ∧
      qdmaCdevCreate f minorCnt cdevs (u32 qhndl) qhndl = (0, some c.addr, cdevs ++ [c])) ∨
    (¬ f.Creates minorCnt qhndl ∧ ∃ rv < 0,
      qdmaCdevCreate f minorCnt cdevs (u32 qhndl) qhndl = (rv, none, cdevs)) := by
  unfold qdmaCdevCreate CdevFates.Creates
  cases halloc : f.kzalloc with
  | none => exact Or.inr ⟨fun h => h.1 rfl, -enomem, by decide, rfl⟩
  | some addr =>
      dsimp only
      by_cases hminor : minorCnt ≤ u32 qhndl
      · rw [if_pos hminor]
        exact Or.inr ⟨fun h => absurd h.2.1 (Nat.not_lt.mpr hminor), -enospc, by decide, rfl⟩
      · rw [if_neg hminor]
        by_cases hadd : f.cdevAdd < 0
        · rw [if_pos hadd]
          exact Or.inr ⟨fun h => absurd hadd (Int.not_lt.mpr h.2.2.1), f.cdevAdd, hadd, rfl⟩
        · rw [if_neg hadd]
          by_cases hcreate : (f.qdmaClass && decide (f.deviceCreate < 0)) = true
          · rw [if_pos hcreate, List.dropLast_concat]
            rw [Bool.and_eq_true, decide_eq_true_eq] at hcreate
            exact Or.inr ⟨fun h => absurd hcreate.2 (Int.not_lt.mpr (h.2.2.2 hcreate.1)),
              f.deviceCreate, hcreate.2, rfl⟩
          · rw [if_neg hcreate]
            refine Or.inl ⟨⟨Option.some_ne_none addr, Nat.lt_of_not_le hminor, Int.not_lt.mp hadd,
              fun hclass => ?_⟩,
              { addr := addr, minor := u32 qhndl, privData := qhndl }, rfl, rfl⟩
            rw [hclass, Bool.true_and, decide_eq_true_eq] at hcreate
            exact Int.not_lt.mp hcreate

theorem addedQidx_handleOf {dev dev' : XlnxDmaDev} (hmax : dev'.qmax = dev.qmax) (c2h : Bool)
    (i : ℕ) :
    addedQidx dev' c2h (dev.handleOf c2h i) = (dev.descq (dev.handle c2h i)).conf.qidx := by
  unfold addedQidx XlnxDmaDev.handleOf
  cases c2h with
  | false => rfl
  | true =>
      simp only [if_true, hmax]
      exact Nat.add_sub_cancel _ _

/-- A slot with a character device is found. -/
theorem xpdevQueueGet_of_xcdev {x : XlnxPciDev} {qidx : ℕ} {c2h : Bool} (hq : qidx < x.qmax)
    (hx : (x.qdata (if c2h then x.qmax + qidx else qidx)).xcdev ≠ none) :
    xpdevQueueGet x qidx c2h true = some (if c2h then x.qmax + qidx else qidx) := by
  unfold xpdevQueueGet
  rw [if_neg (Nat.not_le.mpr hq)]
  dsimp only
  rw [decide_eq_false hx, Bool.and_false, Bool.and_false, if_neg Bool.false_ne_true]

/-- Behind an addition that was made below: the slot is filled and found, or the value does
not tell what was done. -/
theorem xpdevQueueFill_spec (f : QueueAddFates) (x : XlnxPciDev) (c2h : Bool) {qidx qhndl : ℕ}
    (hqidx : addedQidx x.prep.dev c2h qhndl = qidx) :
    (qidx < x.qmax ∧ f.cdev.Creates x.cdevMinorCnt qhndl ∧ (xpdevQueueFill f x c2h qhndl).1 = 0 ∧
      ∃ i, xpdevQueueGet (xpdevQueueFill f x c2h qhndl).2 qidx c2h true = some i ∧
        ((xpdevQueueFill f x c2h qhndl).2.qdata i).qhndl = qhndl ∧
        ∃ c ∈ (xpdevQueueFill f x c2h qhndl).2.cdevs,
          ((xpdevQueueFill f x c2h qhndl).2.qdata i).xcdev = some c.addr ∧ c.privData = qhndl) ∨
    (¬ (qidx < x.qmax ∧ f.cdev.Creates x.cdevMinorCnt qhndl) ∧
      ((xpdevQueueFill f x c2h qhndl).1 < 0 ∨
        (xpdevQueueFill f x c2h qhndl).1 = 0 ∧
          xpdevQueueGet (xpdevQueueFill f x c2h qhndl).2 qidx c2h true = none)) := by
  unfold xpdevQueueFill
  rw [hqidx]
  by_cases hmax : x.qmax ≤ qidx
  · have hnone : ∀ b, xpdevQueueGet x qidx c2h b = none := fun b => if_pos hmax
    rw [hnone false]
    exact Or.inr ⟨fun h => absurd h.1 (Nat.not_lt.mpr hmax), Or.inr ⟨rfl, hnone true⟩⟩
  · have hget : xpdevQueueGet x qidx c2h false = some (if c2h then x.qmax + qidx else qidx) := by
      unfold xpdevQueueGet
      rw [if_neg hmax]
      rfl
    rw [hget]
    dsimp only
    rcases qdmaCdevCreate_spec f.cdev x.cdevMinorCnt x.cdevs qhndl with
      ⟨hok, c, hpriv, heq⟩ | ⟨hno, rv, hrv, heq⟩
    · refine Or.inl ⟨Nat.lt_of_not_le hmax, hok, ?_, if c2h then x.qmax + qidx else qidx, ?_, ?_, c,
        ?_, ?_, hpriv⟩
      · rw [heq]
      · rw [heq]
        refine xpdevQueueGet_of_xcdev (Nat.lt_of_not_le hmax) ?_
        dsimp only
        rw [Function.update_self]
        exact Option.some_ne_none c.addr
      · rw [heq, Function.update_self]
      · rw [heq]
        exact List.mem_append_right _ (List.mem_singleton_self c)
      · rw [heq, Function.update_self]
        rfl
    · refine Or.inr ⟨fun h => hno h.2, Or.inl ?_⟩
      rw [heq]
      exact hrv

theorem xpdevQueueFill_dev (f : QueueAddFates) (x : XlnxPciDev) (c2h : Bool) (qhndl : ℕ) :
    (xpdevQueueFill f x c2h qhndl).2.prep = x.prep := by
  unfold xpdevQueueFill
  split
  · rfl
  · rfl

/-- The device when the queue below was taken. -/
def XlnxPciDev.takes (x : XlnxPciDev) (s : PrepDev) (qconf : QdmaQueueConf) (i : ℕ) : XlnxPciDev :=
  { x with
    prep := { s with
      dev := countUp s.dev qconf.c2h (s.dev.handle qconf.c2h i)
        (addedDescq s.dev (s.dev.descq (s.dev.handle qconf.c2h i)) qconf) } }

/-- The outcomes of `xpdev_queue_add`: the resources are not there, no queue is to be had, or
one is taken and its slot filled. -/
theorem xpdevQueueAdd_cases (f : QueueAddFates) (x : XlnxPciDev) (qconf : QdmaQueueConf) :
    ((qdmaDevicePrepQResource f.prep x.prep).1 < 0 ∧ (xpdevQueueAdd f x qconf).1 < 0 ∧
      (xpdevQueueAdd f x qconf).2 = { x with prep := (qdmaDevicePrepQResource f.prep x.prep).2 }) ∨
    (¬ (qdmaDevicePrepQResource f.prep x.prep).1 < 0 ∧ x.prep.dev.taken qconf = none ∧
      (xpdevQueueAdd f x qconf).1 < 0 ∧
      (xpdevQueueAdd f x qconf).2 = { x with prep := (qdmaDevicePrepQResource f.prep x.prep).2 }) ∨
    (¬ (qdmaDevicePrepQResource f.prep x.prep).1 < 0 ∧ ∃ i, x.prep.dev.taken qconf = some i ∧
      (x.prep.dev.descq (x.prep.dev.handle qconf.c2h i)).enabled = false ∧
      addedHandle f x qconf = x.prep.dev.handleOf qconf.c2h i ∧
      xpdevQueueAdd f x qconf =
        xpdevQueueFill f (x.takes (qdmaDevicePrepQResource f.prep x.prep).2 qconf i) qconf.c2h
          (x.prep.dev.handleOf qconf.c2h i)) := by
  have hslots := sameSlots_prep f.prep x.prep
  unfold addedHandle xpdevQueueAdd
  dsimp only
  generalize qdmaDevicePrepQResource f.prep x.prep = p at hslots ⊢
  by_cases hprep : p.1 < 0
  · rw [if_pos hprep]
    exact Or.inl ⟨hprep, hprep, rfl⟩
  · rw [if_neg hprep]
    refine Or.inr ?_
    rcases queueAdd_taken p.2.dev qconf with ⟨hnone, hrv, hback⟩ | ⟨i, htake, hfree, heq⟩
    · rw [if_pos hrv]
      refine Or.inl ⟨hprep, (hslots.taken qconf).symm.trans hnone, hrv, ?_⟩
      rw [hback]
    · rw [heq, if_neg (lt_irrefl 0)]
      refine Or.inr ⟨hprep, i, (hslots.taken qconf).symm.trans htake, ?_, ?_, ?_⟩
      · rw [← handle_of_qmax hslots.qmax, ← hslots.enabled]
        exact hfree
      · exact hslots.handleOf qconf.c2h i
      · rw [hslots.handleOf qconf.c2h i]
        rfl

/-- The queues below once one is taken: only its own is another. -/
theorem xpdevQueueFill_takes_descq (f : QueueAddFates) {x : XlnxPciDev} {s : PrepDev}
    (hslots : SameSlots x.prep.dev s.dev) (qconf : QdmaQueueConf) (i k : ℕ) :
    (xpdevQueueFill f (x.takes s qconf i) qconf.c2h k).2.prep.dev.descq =
      Function.update s.dev.descq (x.prep.dev.handle qconf.c2h i)
        (addedDescq s.dev (s.dev.descq (x.prep.dev.handle qconf.c2h i)) qconf) := by
  rw [xpdevQueueFill_dev, ← handle_of_qmax hslots.qmax]
  unfold XlnxPciDev.takes countUp
  change Function.update (s.dev.addQcnt qconf.c2h 1).descq _ _ = _
  rw [addQcnt_descq]

/-- An addition that gets its resources and a queue enables it, whatever it returns. -/
theorem xpdevQueueAdd_enabled {f : QueueAddFates} {x : XlnxPciDev} {qconf : QdmaQueueConf} {i : ℕ}
    (hprep : ¬ (qdmaDevicePrepQResource f.prep x.prep).1 < 0)
    (htake : x.prep.dev.taken qconf = some i) :
    (x.prep.dev.descq (x.prep.dev.handle qconf.c2h i)).enabled = false ∧
      ((xpdevQueueAdd f x qconf).2.prep.dev.descq (x.prep.dev.handle qconf.c2h i)).enabled =
        true := by
  have hslots := sameSlots_prep f.prep x.prep
  rcases xpdevQueueAdd_cases f x qconf with
    ⟨hneg, -⟩ | ⟨-, hnone, -⟩ | ⟨-, j, htake', hfree, -, hcall⟩
  · exact absurd hneg hprep
  · rw [hnone] at htake
    cases htake
  · rw [htake] at htake'
    cases htake'
    refine ⟨hfree, ?_⟩
    generalize (qdmaDevicePrepQResource f.prep x.prep).2 = s at hslots hcall
    rw [hcall, xpdevQueueFill_takes_descq f hslots, Function.update_self]
    rfl

/-- **Adding a queue is all or nothing** exactly where the queue is refused below, or its slot
exists and its character device can be created. -/
theorem queue_add_atomic_iff (f : QueueAddFates) (x : XlnxPciDev) (qconf : QdmaQueueConf) :
    AddAtomic f x qconf ↔ RefusedOrGranted f x qconf := by
  have hslots := sameSlots_prep f.prep x.prep
  have hrefused : (xpdevQueueAdd f x qconf).1 < 0 →
      (xpdevQueueAdd f x qconf).2 = { x with prep := (qdmaDevicePrepQResource f.prep x.prep).2 } →
      AddAtomic f x qconf := by
    intro hneg hback
    refine ⟨fun _ => ?_, fun hzero => absurd hzero (ne_of_lt hneg)⟩
    rw [hback]
    exact ⟨hslots.enabled, hslots.counts, rfl, rfl⟩
  rcases xpdevQueueAdd_cases f x qconf with
    ⟨hprep, hneg, hback⟩ | ⟨-, hnone, hneg, hback⟩ | ⟨hprep, i, htake, hfree, hhandle, hcall⟩
  · exact iff_of_true (hrefused hneg hback) (Or.inl hprep)
  · refine iff_of_true (hrefused hneg hback) (Or.inr fun i hi => ?_)
    rw [hnone] at hi
    cases hi
  · have hcond : RefusedOrGranted f x qconf ↔
        (x.prep.dev.descq (x.prep.dev.handle qconf.c2h i)).conf.qidx < x.qmax ∧
          f.cdev.Creates x.cdevMinorCnt (x.prep.dev.handleOf qconf.c2h i) := by
      unfold RefusedOrGranted
      rw [htake]
      refine ⟨fun h => h.resolve_left hprep i rfl, fun h => Or.inr fun j hj => ?_⟩
      cases hj
      exact h
    rw [hcond]
    -- the queue below is enabled now, whatever comes next
    obtain ⟨-, henabled⟩ := xpdevQueueAdd_enabled hprep htake
    generalize (qdmaDevicePrepQResource f.prep x.prep).2 = s at hslots hcall
    have hmax : (x.takes s qconf i).prep.dev.qmax = x.prep.dev.qmax :=
      (addQcnt_qmax s.dev qconf.c2h 1).trans hslots.qmax
    have hqidx := addedQidx_handleOf hmax qconf.c2h i
    have hfill := xpdevQueueFill_spec f (x.takes s qconf i) qconf.c2h hqidx
    have hlook : addedQidx (xpdevQueueAdd f x qconf).2.prep.dev qconf.c2h (addedHandle f x qconf) =
        (x.prep.dev.descq (x.prep.dev.handle qconf.c2h i)).conf.qidx := by
      rw [hhandle, hcall, xpdevQueueFill_dev]
      exact hqidx
    rw [← hcall] at hfill
    rcases hfill with ⟨hlt, hcreates, hzero, hlisted⟩ | ⟨hno, hneg | ⟨hzero, hlost⟩⟩
    · refine iff_of_true ⟨fun hneg => ?_, fun _ => ⟨⟨_, hfree, henabled⟩, ?_⟩⟩ ⟨hlt, hcreates⟩
      · omega
      · rw [hlook, hhandle]
        exact hlisted
    · refine iff_of_false (fun h => ?_) hno
      have hkept := (h.nothing hneg).enabled (x.prep.dev.handle qconf.c2h i)
      rw [henabled, hfree] at hkept
      cases hkept
    · refine iff_of_false (fun h => ?_) hno
      obtain ⟨j, hfound, -⟩ := (h.all hzero).found
      rw [hlook, hlost] at hfound
      cases hfound

/-- A device that polls, with one queue in each direction and nothing added. -/
def plainXpdev : XlnxPciDev where
  prep := { oneVectorDev with pollMode := true }
  qmax := 1
  qdata _ := { qhndl := 0, xcdev := none }
  cdevMinorCnt := 255
  cdevs := []

/-- There is no memory for the character device. -/
def noCdevMemory : QueueAddFates where
  prep := grantedPrep
  cdev := { kzalloc := none, cdevAdd := 0, qdmaClass := true, deviceCreate := 0 }
  xcdev := some 0xDEAD

/-- The addition fails, and the queue is enabled. -/
theorem queue_left_enabled : ¬ ∀ f x qconf, AddAtomic f x qconf := by
  intro hall
  have h := hall noCdevMemory plainXpdev ⟨0, false, false, 0, 0⟩
  have hkept := (h.nothing (by decide +kernel)).enabled 0
  revert hkept
  decide +kernel

end Qdma

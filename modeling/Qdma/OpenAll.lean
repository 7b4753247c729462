import Qdma.Close
import Qdma.Lib.Balance

/-!
# What a failed open leaves behind

`qdma_device_open` takes one thing after the other and gives them back through a ladder of
labels when a step fails.  Two failures are treated wrongly.  A failed `xdev_alloc` gives
everything back and returns 0, which is what the step before it returned.  And a device
without queues (`qsets_max` is zero) fails behind `intr_setup`: nothing tears the interrupts
down, for `qdma_device_cleanup` returns at once where `dev_priv` is not set.

* `openCall` is the call with a log of what it takes and gives; `deviceOpen` is the device it
  makes, and `openCall_deviceOpen` says that they are the same call.
* `OpenAtomic` is what an open should be, and `open_atomic_iff` says when it is that.
-/

namespace Qdma

open Lib

/-! ## The log of an open -/

/-- What an open takes: `entry` is the place in `xdev_list`, the BARs go by their addresses,
the interrupts by their vectors. -/
inductive OpenHeld where
  | regions
  | device
  | xdev
  | entry
  | bar (addr : ℕ)
  | msix
  | irq (vector : ℕ)
  | qdev
  deriving DecidableEq

/-- `pci_dma_mask_set`, from the two values `pci_set_dma_mask` returns. -/
def pciDmaMaskSet (mask64 mask32 : ℤ) : ℤ :=
  if mask64 = 0 then 0
  else if mask32 = 0 then 0
  else -einval

/-- The table `xdev_map_bars` has made when it looks for the config BAR. -/
def mapAttempt (env : OpenEnv) : BarTable :=
  xdevMapBarsLoop env xdmaMaxBars 0
    { bar := fun _ => none
      mapped := []
      barNumConfig := if env.vf then some 0 else none }

/-- The addresses in the table. -/
def BarTable.used (t : BarTable) : List OpenHeld :=
  ((List.range xdmaMaxBars).filterMap t.bar).map .bar

/-- What `xdev_unmap_bars` unmaps. -/
def unmapBarsLog (t : BarTable) : List (Booking OpenHeld) := t.used.map .give

/-- What `xdev_map_bars` maps, and unmaps where there is no config BAR. -/
def mapBarsLog (env : OpenEnv) : List (Booking OpenHeld) :=
  ((mapAttempt env).mapped.map OpenHeld.bar).map .take ++
    if (mapAttempt env).barNumConfig = none then unmapBarsLog (mapAttempt env) else []

/-- `while (--i >= 0) free_irq(…)`. -/
def freeIrqLog (vector : ℕ → ℕ) : ℕ → List (Booking OpenHeld)
  | 0 => []
  | i + 1 => .give (.irq (vector i)) :: freeIrqLog vector i

/-- The loop over `request_irq`, with the undoing of the requests made. -/
def requestIrqLog (env : OpenEnv) : ℕ → ℕ → List (Booking OpenHeld)
  | 0, _ => []
  | n + 1, i =>
      if env.requestIrq i ≠ 0 then freeIrqLog env.vector i
      else .take (.irq (env.vector i)) :: requestIrqLog env n (i + 1)

/-- `xdev->num_vecs`: negative where `pci_msix_vec_count` is. -/
def OpenEnv.numVecs (env : OpenEnv) : ℤ :=
  if env.pollMode then 0 else min env.msixVecCount (xdevNumIrqMax : ℤ)

/-- MSI-X, where it has been enabled; `pci_disable_msix` does nothing where it has not. -/
def OpenEnv.msixHeld (env : OpenEnv) : List OpenHeld :=
  if env.enableMsix env.numVecs = 0 then [.msix] else []

def intrSetupLog (env : OpenEnv) : List (Booking OpenHeld) :=
  if env.pollMode then []
  else if env.msixVecCount = 0 then []
  else if env.enableMsix env.numVecs < 0 then []
  else
    env.msixHeld.map .take ++ requestIrqLog env env.numVecs.toNat 0 ++
      if (requestIrqLoop env env.numVecs.toNat 0 []).1 ≠ 0 then env.msixHeld.map .give else []

def intrTeardownLog (env : OpenEnv) : List (Booking OpenHeld) :=
  freeIrqLog env.vector env.numVecs.toNat ++
    if env.numVecs ≠ 0 then env.msixHeld.map .give else []

/-- `qdma_device_init`: the value returned and whether `dev_priv` is set. -/
def deviceInitCall (env : OpenEnv) : ℤ × Bool × List (Booking OpenHeld) :=
  if (intrSetup env).1 ≠ 0 then (-einval, false, intrSetupLog env)
  else if env.qsetsMax = 0 then (-einval, false, intrSetupLog env)
  else if !env.qdevAlloc then (-enomem, false, intrSetupLog env ++ intrTeardownLog env)
  else (0, true, intrSetupLog env ++ [.take .qdev])

/-- `qdma_device_cleanup` of a device with no queue in use. -/
def deviceCleanupLog (env : OpenEnv) (devPriv : Bool) : List (Booking OpenHeld) :=
  if !devPriv then [] else intrTeardownLog env ++ [.give .qdev]

/-! ## The call -/

/-- A call of `qdma_device_open`: `rv`, `*dev_hndl`, and what it has done so far. -/
structure OpenCall where
  rv : ℤ
  devHndl : ℕ
  xdevs : List Xdev
  log : List (Booking OpenHeld)

namespace OpenCall

def logs (c : OpenCall) (log : List (Booking OpenHeld)) : OpenCall :=
  { c with log := c.log ++ log }

/-- From the label `release_regions` on. -/
def releaseRegions (c : OpenCall) : OpenCall := c.logs [.give .regions]

def disableDevice (c : OpenCall) : OpenCall := (c.logs [.give .device]).releaseRegions

def unmapBars (env : OpenEnv) (c : OpenCall) : OpenCall :=
  let c := c.logs (unmapBarsLog (xdevMapBars env).2)
  let c : OpenCall := { c.logs [.give .entry] with xdevs := xdevListRemove c.xdevs env.hndl }
  (c.logs [.give .xdev]).disableDevice

def cleanupQdma (env : OpenEnv) (c : OpenCall) : OpenCall :=
  (c.logs (deviceCleanupLog env (deviceInitCall env).2.1)).unmapBars env

end OpenCall

/-- `qdma_device_open` from `xdev_list_add` on. -/
def openListed (env : OpenEnv) (c : OpenCall) : OpenCall :=
  let c : OpenCall := { c.logs [.take .entry] with xdevs := xdevListAdd c.xdevs env.hndl env.pdev }
  let c : OpenCall := { c.logs (mapBarsLog env) with rv := (xdevMapBars env).1 }
  if c.rv ≠ 0 then c.unmapBars env
  else
    let c : OpenCall := { c.logs (deviceInitCall env).2.2 with rv := (deviceInitCall env).1 }
    if c.rv < 0 then c.cleanupQdma env
    else { c with rv := 0, devHndl := env.hndl }

def openCall (env : OpenEnv) (l : List Xdev) : OpenCall :=
  let c : OpenCall := { rv := 0, devHndl := 0, xdevs := l, log := [] }
  if env.pdev = 0 then { c with rv := -einval }
  else if (xdevFindByPdev l env.pdev).isSome then { c with rv := -einval }
  else if env.requestRegions ≠ 0 then { c with rv := env.requestRegions }
  else
    let c := c.logs [.take .regions]
    if env.enableDevice ≠ 0 then OpenCall.releaseRegions { c with rv := env.enableDevice }
    else
      let c : OpenCall := { c.logs [.take .device] with rv := env.dmaMaskSet }
      if c.rv ≠ 0 then c.disableDevice
      -- `rv` is what `pci_dma_mask_set` has returned
      else if !env.xdevAlloc then c.disableDevice
      else openListed env (c.logs [.take .xdev])

/-! ## What an open should be -/

/-- It returns 0 with a device, or fails and gives back what it has taken. -/
structure OpenAtomic (l : List Xdev) (c : OpenCall) : Prop where
  opens : c.rv = 0 ↔ c.devHndl ≠ 0 ∧ ∃ d ∈ c.xdevs, d.hndl = c.devHndl
  fails : c.rv ≠ 0 → c.rv < 0 ∧ GivenBack c.log ∧ c.xdevs = l

/-- The new device has an address of its own, and the calls of the PCI core return 0 or a
negative value. -/
structure PciReturns (env : OpenEnv) (l : List Xdev) : Prop where
  fresh : ∀ d ∈ l, d.hndl ≠ env.hndl
  regions : env.requestRegions ≤ 0
  device : env.enableDevice ≤ 0
  mask : ∃ mask64 mask32, env.dmaMaskSet = pciDmaMaskSet mask64 mask32

/-- The call comes to `xdev_alloc`. -/
structure Allocates (env : OpenEnv) (l : List Xdev) : Prop where
  pdev : env.pdev ≠ 0
  new : xdevFindByPdev l env.pdev = none
  regions : env.requestRegions = 0
  device : env.enableDevice = 0
  mask : env.dmaMaskSet = 0

/-- There is a config BAR, and every BAR in front of it can be mapped. -/
def OpenEnv.ConfigBar (env : OpenEnv) : Prop :=
  env.vf = true ∨
    ∃ i < xdmaMaxBars, (∀ j ≤ i, (env.iomap j).isSome = true) ∧
      env.barId i &&& 0xFFFF0000#32 = 0x1FD30000#32

/-- Interrupts are configured, there are some, and all of them can be had. -/
structure OpenEnv.IntrUsed (env : OpenEnv) : Prop where
  vecs : env.numVecs ≠ 0
  msix : 0 ≤ env.enableMsix env.numVecs
  irqs : ∀ i < env.numVecs.toNat, env.requestIrq i = 0
  some : env.enableMsix env.numVecs = 0 ∨ 0 < env.numVecs

/-- There is memory for the device, and a device without queues has no interrupts. -/
def OpensCleanly (env : OpenEnv) (l : List Xdev) : Prop :=
  Allocates env l →
    env.xdevAlloc = true ∧ (env.ConfigBar → env.IntrUsed → env.qsetsMax ≠ 0)

/-! ## The BARs -/

section Bars

variable (env : OpenEnv)

theorem neg_einval_neg : (-einval : ℤ) < 0 := by decide

theorem xdevMapBars_eq : xdevMapBars env =
    if (mapAttempt env).barNumConfig = none then (-einval, xdevUnmapBars (mapAttempt env))
    else (0, mapAttempt env) := rfl

theorem xdevUnmapBarsLoop_bar : ∀ (n i : ℕ) (t : BarTable) (j : ℕ),
    (xdevUnmapBarsLoop n i t).bar j = if i ≤ j ∧ j < i + n then none else t.bar j := by
  intro n
  induction n with
  | zero =>
      intro i t j
      exact (if_neg (by omega)).symm
  | succ n ih =>
      intro i t j
      unfold xdevUnmapBarsLoop
      cases hbar : t.bar i with
      | none =>
          dsimp only
          rw [ih]
          by_cases hj : j = i
          · subst hj
            rw [if_neg (by omega), if_pos (by omega), hbar]
          · exact if_congr (by omega) rfl rfl
      | some addr =>
          dsimp only
          rw [ih]
          dsimp only
          by_cases hj : j = i
          · subst hj
            rw [if_neg (by omega), if_pos (by omega), Function.update_self]
          · rw [Function.update_of_ne hj]
            exact if_congr (by omega) rfl rfl

/-- Unmapping again unmaps nothing. -/
theorem unmapBarsLog_unmapBars (t : BarTable) : unmapBarsLog (xdevUnmapBars t) = [] := by
  have hnone : (List.range xdmaMaxBars).filterMap (xdevUnmapBars t).bar = [] := by
    rw [List.filterMap_eq_nil_iff]
    intro j hj
    have hlt := List.mem_range.mp hj
    exact (xdevUnmapBarsLoop_bar xdmaMaxBars 0 t j).trans (if_pos ⟨Nat.zero_le j, by omega⟩)
  unfold unmapBarsLog BarTable.used
  rw [hnone]
  rfl

theorem mapAttempt_mapped : (mapAttempt env).mapped.map OpenHeld.bar = (mapAttempt env).used := by
  have hmapped := xdevMapBarsLoop_mapped env xdmaMaxBars 0
    (t := ⟨fun _ => none, [], if env.vf then some 0 else none⟩) (fun _ _ => rfl) rfl
  rw [Nat.zero_add] at hmapped
  unfold BarTable.used
  exact congrArg (List.map OpenHeld.bar) hmapped

/-- Without a config BAR everything is unmapped, behind the label once more. -/
theorem mapBars_given (h : (xdevMapBars env).1 ≠ 0) :
    GivenBack (mapBarsLog env ++ unmapBarsLog (xdevMapBars env).2) := by
  have hnone : (mapAttempt env).barNumConfig = none := by
    by_contra hsome
    rw [xdevMapBars_eq, if_neg hsome] at h
    exact h rfl
  rw [xdevMapBars_eq, if_pos hnone, unmapBarsLog_unmapBars, List.append_nil]
  unfold mapBarsLog unmapBarsLog
  rw [if_pos hnone, mapAttempt_mapped]
  exact GivenBack.of_perm (List.Perm.refl _)

/-- With one they are unmapped behind the label. -/
theorem mapBarsLog_eq (h : (xdevMapBars env).1 = 0) :
    mapBarsLog env = (mapAttempt env).used.map .take ∧
      unmapBarsLog (xdevMapBars env).2 = (mapAttempt env).used.map .give := by
  have hsome : (mapAttempt env).barNumConfig ≠ none := by
    intro hnone
    rw [xdevMapBars_eq, if_pos hnone] at h
    exact absurd h neg_einval_neg.ne
  rw [xdevMapBars_eq, if_neg hsome]
  refine ⟨?_, rfl⟩
  unfold mapBarsLog
  rw [if_neg hsome, List.append_nil, mapAttempt_mapped]

/-- What the loop finds from BAR `i` on. -/
theorem xdevMapBarsLoop_config : ∀ (n i : ℕ) (t : BarTable),
    (xdevMapBarsLoop env n i t).barNumConfig = none ↔
      t.barNumConfig = none ∧
        ∀ k < n, (∀ j ≤ k, (env.iomap (i + j)).isSome = true) →
          env.barId (i + k) &&& 0xFFFF0000#32 ≠ 0x1FD30000#32 := by
  intro n
  induction n with
  | zero =>
      intro i t
      exact ⟨fun h => ⟨h, fun k hk => absurd hk (Nat.not_lt_zero k)⟩, fun h => h.1⟩
  | succ n ih =>
      intro i t
      unfold xdevMapBarsLoop
      cases hmap : env.iomap i with
      | none =>
          refine ⟨fun h => ⟨h, fun k _ hall => ?_⟩, fun h => h.1⟩
          have hfirst := hall 0 (Nat.zero_le k)
          rw [Nat.add_zero, hmap] at hfirst
          cases hfirst
      | some addr =>
          dsimp only
          rw [ih]
          have hnow : (if t.barNumConfig = none ∧
              env.barId i &&& 0xFFFF0000#32 = 0x1FD30000#32 then some i
                else t.barNumConfig) = none ↔
              t.barNumConfig = none ∧ env.barId i &&& 0xFFFF0000#32 ≠ 0x1FD30000#32 := by
            split
            · rename_i hid
              exact ⟨fun h => absurd h (Option.some_ne_none i), fun h => absurd hid.2 h.2⟩
            · rename_i hid
              exact ⟨fun h => ⟨h, fun hb => hid ⟨h, hb⟩⟩, fun h => h.1⟩
          rw [hnow]
          constructor
          · rintro ⟨⟨hnone, hid⟩, hrest⟩
            refine ⟨hnone, fun k hk hall => ?_⟩
            cases k with
            | zero => exact hid
            | succ k =>
                have hlater := hrest k (by omega) fun j hj => by
                  have hnext := hall (j + 1) (by omega)
                  rwa [show i + (j + 1) = i + 1 + j by omega] at hnext
                rwa [show i + (k + 1) = i + 1 + k by omega]
          · rintro ⟨hnone, hall⟩
            refine ⟨⟨hnone, ?_⟩, fun k hk hmapped => ?_⟩
            · refine hall 0 (Nat.succ_pos n) fun j hj => ?_
              rw [Nat.le_zero.mp hj, Nat.add_zero, hmap]
              rfl
            · have hlater := hall (k + 1) (by omega) fun j hj => by
                cases j with
                | zero =>
                    rw [Nat.add_zero, hmap]
                    rfl
                | succ j =>
                    have hnext := hmapped j (by omega)
                    rwa [show i + (j + 1) = i + 1 + j by omega]
              rwa [show i + (k + 1) = i + 1 + k by omega] at hlater

theorem xdevMapBars_zero_iff : (xdevMapBars env).1 = 0 ↔ env.ConfigBar := by
  have hattempt : (xdevMapBars env).1 = 0 ↔ (mapAttempt env).barNumConfig ≠ none := by
    rw [xdevMapBars_eq]
    split
    · rename_i hnone
      exact ⟨fun h => absurd h neg_einval_neg.ne, fun h => absurd hnone h⟩
    · rename_i hsome
      exact ⟨fun _ => hsome, fun _ => rfl⟩
  rw [hattempt]
  unfold mapAttempt OpenEnv.ConfigBar
  rw [ne_eq, xdevMapBarsLoop_config]
  by_cases hvf : env.vf = true
  · rw [hvf]
    exact ⟨fun _ => Or.inl rfl, fun _ h => absurd h.1 nofun⟩
  · have hpf : env.vf = false := Bool.eq_false_iff.mpr hvf
    simp [hpf]

end Bars

/-! ## The interrupts -/

section Intr

variable (env : OpenEnv)

/-- The vectors from entry `i` on, `n` of them. -/
def OpenEnv.irqHeld (env : OpenEnv) (i n : ℕ) : List OpenHeld :=
  (List.range' i n).map fun j => .irq (env.vector j)

/-- What a successful `intr_setup` has taken. -/
def OpenEnv.intrHeld (env : OpenEnv) : List OpenHeld :=
  if env.numVecs = 0 then [] else env.msixHeld ++ env.irqHeld 0 env.numVecs.toNat

theorem freeIrqLog_eq (n : ℕ) :
    freeIrqLog env.vector n = (env.irqHeld 0 n).reverse.map .give := by
  induction n with
  | zero => rfl
  | succ n ih =>
      unfold freeIrqLog
      rw [ih]
      unfold OpenEnv.irqHeld
      rw [List.range'_concat, List.map_append, List.reverse_append, Nat.zero_add, Nat.one_mul]
      rfl

/-- The requests all succeed, or those made are undone. -/
theorem requestIrqLog_cases : ∀ (n i : ℕ) (irqs : List ℕ),
    ((requestIrqLoop env n i irqs).1 = 0 ∧ (∀ j, i ≤ j → j < i + n → env.requestIrq j = 0) ∧
        requestIrqLog env n i = (env.irqHeld i n).map .take) ∨
      ((requestIrqLoop env n i irqs).1 ≠ 0 ∧ (∃ j < i + n, env.requestIrq j ≠ 0) ∧
        ∃ k, requestIrqLog env n i =
          (env.irqHeld i k).map .take ++ freeIrqLog env.vector (i + k)) := by
  intro n
  induction n with
  | zero =>
      intro i irqs
      exact Or.inl ⟨rfl, fun j hj hlt => absurd hlt (by omega), rfl⟩
  | succ n ih =>
      intro i irqs
      unfold requestIrqLoop requestIrqLog
      by_cases hreq : env.requestIrq i ≠ 0
      · rw [if_pos hreq, if_pos hreq]
        exact Or.inr ⟨hreq, ⟨i, by omega, hreq⟩, 0, rfl⟩
      · rw [if_neg hreq, if_neg hreq]
        obtain ⟨hrv, hall, hlog⟩ | ⟨hrv, ⟨j, hj, hfail⟩, k, hlog⟩ :=
          ih (i + 1) (irqs ++ [env.vector i])
        · refine Or.inl ⟨hrv, fun j hij hj => ?_, ?_⟩
          · obtain rfl | hlt := Nat.eq_or_lt_of_le hij
            · exact not_not.mp hreq
            · exact hall j hlt (by omega)
          · rw [hlog]
            rfl
        · refine Or.inr ⟨hrv, ⟨j, by omega, hfail⟩, k + 1, ?_⟩
          rw [hlog, show i + (k + 1) = i + 1 + k by omega]
          rfl

/-- **The setup** fails and gives everything back, or has taken what it should. -/
theorem intrSetup_cases :
    ((intrSetup env).1 ≠ 0 ∧ GivenBack (intrSetupLog env) ∧ ¬ env.IntrUsed) ∨
      ((intrSetup env).1 = 0 ∧ intrSetupLog env = env.intrHeld.map .take ∧
        (env.IntrUsed ↔ env.intrHeld ≠ [])) := by
  unfold intrSetup intrSetupLog OpenEnv.intrHeld
  by_cases hpoll : env.pollMode = true
  · have hvecs : env.numVecs = 0 := if_pos hpoll
    rw [if_pos hpoll, if_pos hpoll, if_pos hvecs]
    exact Or.inr ⟨rfl, rfl, fun h => absurd hvecs h.vecs, fun h => absurd rfl h⟩
  · have hmin : env.numVecs = min env.msixVecCount (xdevNumIrqMax : ℤ) := if_neg hpoll
    have hmax : (xdevNumIrqMax : ℤ) = 8 := rfl
    rw [if_neg hpoll, if_neg hpoll]
    by_cases hcnt : env.msixVecCount = 0
    · have hvecs : env.numVecs = 0 := by omega
      rw [if_pos hcnt, if_pos hcnt, if_pos hvecs]
      exact Or.inr ⟨rfl, rfl, fun h => absurd hvecs h.vecs, fun h => absurd rfl h⟩
    · have hvecs : env.numVecs ≠ 0 := by omega
      rw [if_neg hcnt, if_neg hcnt, if_neg hvecs, ← hmin]
      by_cases hmsix : env.enableMsix env.numVecs < 0
      · rw [if_pos hmsix, if_pos hmsix]
        refine Or.inl ⟨?_, GivenBack.nil, fun h => absurd h.msix (by omega)⟩
        exact hmsix.ne
      · rw [if_neg hmsix, if_neg hmsix]
        dsimp only
        obtain ⟨hrv, hall, hlog⟩ | ⟨hrv, ⟨j, hj, hfail⟩, k, hlog⟩ :=
          requestIrqLog_cases env env.numVecs.toNat 0 []
        · refine Or.inr ⟨hrv, ?_, ?_⟩
          · rw [hrv, if_neg (not_not.mpr rfl), hlog, List.append_nil, List.map_append]
          · have hirqs : env.irqHeld 0 env.numVecs.toNat ≠ [] ↔ 0 < env.numVecs := by
              unfold OpenEnv.irqHeld
              rw [ne_eq, List.map_eq_nil_iff, List.range'_eq_nil_iff]
              omega
            have hheld : env.msixHeld ≠ [] ↔ env.enableMsix env.numVecs = 0 := by
              unfold OpenEnv.msixHeld
              split
              · exact ⟨fun _ => by assumption, fun _ => List.cons_ne_nil _ _⟩
              · exact ⟨fun h => absurd rfl h, fun h => absurd h (by assumption)⟩
            rw [ne_eq, List.append_eq_nil_iff, not_and_or, ← ne_eq, ← ne_eq, hirqs, hheld]
            exact ⟨fun h => h.some, fun h => ⟨hvecs, not_lt.mp hmsix,
              fun i hi => hall i (Nat.zero_le i) (by omega), h⟩⟩
        · refine Or.inl ⟨hrv, ?_, fun h => ?_⟩
          · rw [if_pos hrv, hlog, Nat.zero_add, freeIrqLog_eq]
            refine GivenBack.wrap ?_ (List.Perm.refl _)
            exact GivenBack.of_perm (List.reverse_perm _).symm
          · exact hfail (h.irqs j (by omega))

/-- **The teardown** gives back what a successful setup has taken. -/
theorem intrTeardownLog_eq : ∃ bs : List OpenHeld,
    intrTeardownLog env = bs.map .give ∧ env.intrHeld.Perm bs := by
  unfold intrTeardownLog OpenEnv.intrHeld
  rw [freeIrqLog_eq]
  by_cases hvecs : env.numVecs = 0
  · refine ⟨[], ?_, ?_⟩
    · rw [hvecs]
      rfl
    · rw [if_pos hvecs]
  · refine ⟨(env.irqHeld 0 env.numVecs.toNat).reverse ++ env.msixHeld, ?_, ?_⟩
    · rw [if_pos hvecs, List.map_append]
    · rw [if_neg hvecs]
      exact List.perm_append_comm.trans ((List.reverse_perm _).symm.append_right _)

/-- What `qdma_device_init` leaves when it fails: nothing, or the interrupts. -/
theorem deviceInit_cases :
    ((deviceInitCall env).1 = 0 ∧ ¬ (env.IntrUsed ∧ env.qsetsMax = 0)) ∨
      ((deviceInitCall env).1 < 0 ∧ (deviceInitCall env).2.1 = false ∧
        GivenBack (deviceInitCall env).2.2 ∧ ¬ (env.IntrUsed ∧ env.qsetsMax = 0)) ∨
      ((deviceInitCall env).1 < 0 ∧ (deviceInitCall env).2.1 = false ∧
        (deviceInitCall env).2.2 = env.intrHeld.map .take ∧ env.intrHeld ≠ [] ∧
        env.IntrUsed ∧ env.qsetsMax = 0) := by
  have hinval : (-einval : ℤ) < 0 := neg_einval_neg
  have hnomem : (-enomem : ℤ) < 0 := by decide
  unfold deviceInitCall
  obtain ⟨hrv, hgiven, hunused⟩ | ⟨hrv, hlog, hused⟩ := intrSetup_cases env
  · rw [if_pos hrv]
    exact Or.inr (Or.inl ⟨hinval, rfl, hgiven, fun h => hunused h.1⟩)
  · rw [if_neg (not_not.mpr hrv)]
    by_cases hq : env.qsetsMax = 0
    · rw [if_pos hq]
      by_cases hheld : env.intrHeld = []
      · refine Or.inr (Or.inl ⟨hinval, rfl, ?_, fun h => hused.mp h.1 hheld⟩)
        rw [hlog, hheld]
        exact GivenBack.nil
      · exact Or.inr (Or.inr ⟨hinval, rfl, hlog, hheld, hused.mpr hheld, hq⟩)
    · rw [if_neg hq]
      cases env.qdevAlloc with
      | false =>
          refine Or.inr (Or.inl ⟨hnomem, rfl, ?_, fun h => hq h.2⟩)
          obtain ⟨bs, hdown, hperm⟩ := intrTeardownLog_eq env
          change GivenBack (intrSetupLog env ++ intrTeardownLog env)
          rw [hlog, hdown]
          exact GivenBack.of_perm hperm
      | true => exact Or.inl ⟨rfl, fun h => hq h.2⟩

end Intr

/-! ## The ladder -/

/-- What is taken before the BARs are mapped. -/
def openHeld : List OpenHeld := [.regions, .device, .xdev, .entry]

section Ladder

variable {env : OpenEnv} {l : List Xdev} {c : OpenCall}

theorem unmapBars_eq (env : OpenEnv) (c : OpenCall) : c.unmapBars env =
    { rv := c.rv
      devHndl := c.devHndl
      xdevs := xdevListRemove c.xdevs env.hndl
      log := c.log ++ unmapBarsLog (xdevMapBars env).2 ++ [.give .entry] ++ [.give .xdev] ++
        [.give .device] ++ [.give .regions] } := rfl

/-- A call that fails and leaves the list as it was. -/
theorem atomic_failed {rv : ℤ} (hrv : rv < 0) (log : List (Booking OpenHeld)) :
    OpenAtomic l { rv := rv, devHndl := 0, xdevs := l, log := log } ↔ GivenBack log := by
  refine ⟨fun h => (h.fails hrv.ne).2.1, fun h => ⟨?_, fun _ => ⟨hrv, h, rfl⟩⟩⟩
  exact ⟨fun hzero => absurd hzero hrv.ne, fun hopen => absurd rfl hopen.1⟩

theorem mem_xdevListAdd (l : List Xdev) (hndl pdev : ℕ) :
    ∃ d ∈ xdevListAdd l hndl pdev, d.hndl = hndl := by
  unfold xdevListAdd
  split
  · exact ⟨_, List.mem_append_right l (List.mem_singleton_self _), rfl⟩
  · exact ⟨_, List.mem_append_right l (List.mem_singleton_self _), rfl⟩

/-- **From `xdev_list_add` on**: the open is what it should be unless there are interrupts and
no queues. -/
theorem openListed_atomic_iff (hfresh : ∀ d ∈ l, d.hndl ≠ env.hndl)
    (hlog : c.log = [.take .regions] ++ [.take .device] ++ [.take .xdev])
    (hlist : c.xdevs = l) (hhndl : c.devHndl = 0) :
    OpenAtomic l (openListed env c) ↔ (env.ConfigBar → env.IntrUsed → env.qsetsMax ≠ 0) := by
  have hremove : xdevListRemove (xdevListAdd c.xdevs env.hndl env.pdev) env.hndl = l := by
    rw [hlist]
    exact remove_add env.pdev hfresh
  have hladder : ∀ inner, c.log ++ [.take .entry] ++ inner ++ [.give .entry] ++ [.give .xdev] ++
      [.give .device] ++ [.give .regions] =
        openHeld.map .take ++ inner ++ openHeld.reverse.map .give := by
    intro inner
    rw [hlog]
    unfold openHeld
    simp
  have hclean : deviceCleanupLog env false = [] := rfl
  have hperm := (List.reverse_perm openHeld).symm
  unfold openListed OpenCall.cleanupQdma OpenCall.logs
  dsimp only
  by_cases hbars : (xdevMapBars env).1 = 0
  · obtain ⟨hmap, hunmap⟩ := mapBarsLog_eq env hbars
    have hcfg : env.ConfigBar := (xdevMapBars_zero_iff env).mp hbars
    rw [if_neg (not_not.mpr hbars)]
    obtain ⟨hrv, hsound⟩ | ⟨hrv, hpriv, hgiven, hsound⟩ | ⟨hrv, hpriv, hinit, hheld, hbad⟩ :=
      deviceInit_cases env
    · -- the device is open
      rw [if_neg hrv.not_lt]
      refine ⟨fun _ _ hused hq => hsound ⟨hused, hq⟩, fun _ => ⟨?_, fun h => absurd rfl h⟩⟩
      exact ⟨fun _ => ⟨env.hndl_ne, mem_xdevListAdd _ _ _⟩, fun _ => rfl⟩
    · rw [if_pos hrv, unmapBars_eq, hpriv]
      dsimp only
      rw [hremove, hhndl, hclean, List.append_nil, List.append_assoc _ (mapBarsLog env),
        List.append_assoc _ (_ ++ _), hladder, hmap, hunmap, atomic_failed hrv]
      exact ⟨fun _ _ hused hq => hsound ⟨hused, hq⟩,
        fun _ => (hgiven.wrap (List.Perm.refl _)).wrap hperm⟩
    · -- the interrupts are left
      rw [if_pos hrv, unmapBars_eq, hpriv]
      dsimp only
      rw [hremove, hhndl, hclean, List.append_nil, List.append_assoc _ (mapBarsLog env),
        List.append_assoc _ (_ ++ _), hladder, hmap, hunmap, hinit, atomic_failed hrv]
      refine ⟨fun h => ?_, fun h => absurd hbad.2 (h hcfg hbad.1)⟩
      have hinner := settled_of_wrap (List.Perm.refl _) (settled_of_wrap hperm h.settled)
      exact absurd (eq_nil_of_settled hinner) hheld
  · have hcfg : ¬ env.ConfigBar := fun h => hbars ((xdevMapBars_zero_iff env).mpr h)
    have hneg : (xdevMapBars env).1 < 0 := by
      rw [xdevMapBars_eq] at hbars ⊢
      split at hbars
      · rename_i hnone
        rw [if_pos hnone]
        exact neg_einval_neg
      · exact absurd rfl hbars
    rw [if_pos hbars, unmapBars_eq]
    dsimp only
    rw [hremove, hhndl, List.append_assoc _ (mapBarsLog env), hladder, atomic_failed hneg]
    exact ⟨fun _ h => absurd h hcfg, fun _ => (mapBars_given env hbars).wrap hperm⟩

end Ladder

/-! ## The whole call -/

section Call

variable (env : OpenEnv) (l : List Xdev)

/-- The device of the call is the device that is opened. -/
theorem openCall_deviceOpen : deviceOpen env l =
    ((openCall env l).rv,
      if (openCall env l).devHndl = 0 then none else some (newXdev env l)) := by
  unfold deviceOpen openCall openListed OpenCall.cleanupQdma OpenCall.logs
  by_cases hpdev : env.pdev = 0
  · rw [if_pos hpdev, if_pos hpdev]
    rfl
  rw [if_neg hpdev, if_neg hpdev]
  by_cases hnew : (xdevFindByPdev l env.pdev).isSome = true
  · rw [if_pos hnew, if_pos hnew]
    rfl
  rw [if_neg hnew, if_neg hnew]
  by_cases hregions : env.requestRegions ≠ 0
  · rw [if_pos hregions, if_pos hregions]
    rfl
  rw [if_neg hregions, if_neg hregions]
  by_cases hdevice : env.enableDevice ≠ 0
  · rw [if_pos hdevice, if_pos hdevice]
    rfl
  rw [if_neg hdevice, if_neg hdevice]
  dsimp only
  by_cases hmask : env.dmaMaskSet ≠ 0
  · rw [if_pos hmask, if_pos hmask]
    rfl
  rw [if_neg hmask, if_neg hmask]
  by_cases hmem : (!env.xdevAlloc) = true
  · rw [if_pos hmem, if_pos hmem]
    exact Prod.ext (not_not.mp hmask).symm rfl
  rw [if_neg hmem, if_neg hmem]
  by_cases hbars : (xdevMapBars env).1 ≠ 0
  · rw [if_pos hbars, if_pos hbars]
    rfl
  rw [if_neg hbars, if_neg hbars]
  unfold deviceInitCall
  by_cases hintr : (intrSetup env).1 ≠ 0
  · rw [if_pos hintr, if_pos hintr, if_pos neg_einval_neg]
    rfl
  rw [if_neg hintr, if_neg hintr]
  by_cases hq : env.qsetsMax = 0
  · rw [if_pos hq, if_pos hq, if_pos neg_einval_neg]
    rfl
  rw [if_neg hq, if_neg hq]
  by_cases hqdev : (!env.qdevAlloc) = true
  · rw [if_pos hqdev, if_pos hqdev]
    rfl
  rw [if_neg hqdev, if_neg hqdev]
  change ((0 : ℤ), some (newXdev env l)) =
    (0, if env.hndl = 0 then none else some (newXdev env l))
  rw [if_neg env.hndl_ne]

/-- **An open** is all or nothing unless there is no memory for the device, or there are
interrupts and no queues. -/
theorem open_atomic_iff (h : PciReturns env l) :
    OpenAtomic l (openCall env l) ↔ OpensCleanly env l := by
  -- a call that fails before it comes to the allocation
  have hearly : ∀ {rv : ℤ} {log : List (Booking OpenHeld)}, rv < 0 → GivenBack log →
      ¬ Allocates env l →
        (OpenAtomic l { rv := rv, devHndl := 0, xdevs := l, log := log } ↔ OpensCleanly env l) :=
    fun hrv hgiven hnot =>
      ⟨fun _ halloc => absurd halloc hnot, fun _ => (atomic_failed hrv _).mpr hgiven⟩
  unfold openCall
  by_cases hpdev : env.pdev = 0
  · rw [if_pos hpdev]
    exact hearly neg_einval_neg GivenBack.nil fun ha => ha.pdev hpdev
  rw [if_neg hpdev]
  by_cases hnew : (xdevFindByPdev l env.pdev).isSome = true
  · rw [if_pos hnew]
    refine hearly neg_einval_neg GivenBack.nil fun ha => ?_
    rw [ha.new] at hnew
    cases hnew
  rw [if_neg hnew]
  by_cases hregions : env.requestRegions ≠ 0
  · rw [if_pos hregions]
    exact hearly (lt_of_le_of_ne h.regions hregions) GivenBack.nil fun ha => hregions ha.regions
  rw [if_neg hregions]
  dsimp only
  by_cases hdevice : env.enableDevice ≠ 0
  · rw [if_pos hdevice]
    exact hearly (lt_of_le_of_ne h.device hdevice)
      (GivenBack.of_perm (List.Perm.refl [OpenHeld.regions])) fun ha => hdevice ha.device
  rw [if_neg hdevice]
  by_cases hmask : env.dmaMaskSet ≠ 0
  · rw [if_pos hmask]
    have hgiven := GivenBack.of_perm (List.Perm.refl [OpenHeld.device])
    have hneg : env.dmaMaskSet < 0 := by
      obtain ⟨mask64, mask32, heq⟩ := h.mask
      rw [heq] at hmask ⊢
      unfold pciDmaMaskSet at hmask ⊢
      split at hmask
      · exact absurd rfl hmask
      · split at hmask
        · exact absurd rfl hmask
        · rename_i h64 h32
          rw [if_neg h64, if_neg h32]
          exact neg_einval_neg
    exact hearly hneg (hgiven.wrap (List.Perm.refl [OpenHeld.regions]))
      fun ha => hmask ha.mask
  rw [if_neg hmask]
  have halloc : Allocates env l :=
    ⟨hpdev, Option.not_isSome_iff_eq_none.mp hnew, not_not.mp hregions, not_not.mp hdevice,
      not_not.mp hmask⟩
  by_cases hmem : (!env.xdevAlloc) = true
  · -- 0 is returned, and there is no device
    rw [if_pos hmem]
    refine ⟨fun hatomic => ?_, fun hclean => ?_⟩
    · exact absurd rfl (hatomic.opens.mp (not_not.mp hmask)).1
    · rw [(hclean halloc).1] at hmem
      cases hmem
  · rw [if_neg hmem, openListed_atomic_iff h.fresh rfl rfl rfl]
    have htrue : env.xdevAlloc = true := by
      cases hb : env.xdevAlloc with
      | true => rfl
      | false => exact absurd (by rw [hb]; rfl) hmem
    exact ⟨fun hrest _ => ⟨htrue, hrest⟩, fun hclean => (hclean halloc).2⟩

end Call

/-! ## Small devices -/

theorem pciReturns_onePf (funcId : ℕ) : PciReturns (onePf funcId) [] where
  fresh _ hd := nomatch hd
  regions := le_rfl
  device := le_rfl
  mask := ⟨0, 0, rfl⟩

/-- A polled device that is opened. -/
theorem open_atomic_onePf : OpenAtomic [] (openCall (onePf 0) []) :=
  (open_atomic_iff (onePf 0) [] (pciReturns_onePf 0)).mpr
    fun _ => ⟨rfl, fun _ _ => Nat.one_ne_zero⟩

/-- There is no memory for the device. -/
def outOfMemoryPf : OpenEnv := { onePf 0 with xdevAlloc := false }

/-- One vector, and no queues. -/
def unqueuedPf : OpenEnv :=
  { onePf 0 with
    pollMode := false
    msixVecCount := 1
    qsetsMax := 0
    qsetsMax_lt := Nat.two_pow_pos 16 }

/-- Out of memory the call returns 0 with no device; without queues it fails and leaves MSI-X
enabled and the interrupt requested. -/
theorem open_leaves :
    ((openCall outOfMemoryPf []).rv = 0 ∧ (openCall outOfMemoryPf []).devHndl = 0) ∧
      ((openCall unqueuedPf []).rv = -einval ∧
        (∀ a ∈ [OpenHeld.msix, .irq 0],
          taken (openCall unqueuedPf []).log a = 1 ∧ given (openCall unqueuedPf []).log a = 0)) ∧
        ¬ ∀ (env : OpenEnv) (l : List Xdev), PciReturns env l → OpenAtomic l (openCall env l) := by
  refine ⟨by decide +kernel, by decide +kernel, fun hall => ?_⟩
  have hatomic := hall outOfMemoryPf []
    ⟨fun _ hd => (nomatch hd), le_rfl, le_rfl, ⟨0, 0, rfl⟩⟩
  have hzero : (openCall outOfMemoryPf []).rv = 0 := by decide +kernel
  have hnone : (openCall outOfMemoryPf []).devHndl = 0 := by decide +kernel
  exact (hatomic.opens.mp hzero).1 hnone

end Qdma

import Qdma.Restart

/-!
# Stopping a queue that others still drive

`qdma_queue_stop` unlinks the queue from its threads, clears the contexts and frees
the rings, each in a critical section of its own and the last in none;
`qdma_queue_remove` does not unlink it at all.  `qdma_queue_start` holds the queue's
lock from its checks to the online flag and links the queue after that.  Meanwhile the
threads go over their lists, and `irq_top` schedules `intr_work` items that nothing cancels.

The calls are cut at their locks: `TearPc` is the place the calling thread has
reached, and between two of its steps anyone else may run.  A pass counts at its end,
so one that is under way when the rings go is one that still has to run.  A ring
touched after it was freed shows in `oops`.

`quietRelease` is the condition: when the rings are about to be freed, the worker
either is off the queue or has nothing to post, and either no service pass can come
any more or it would find nothing in flight on a queue that is not streaming C2H.
-/

namespace Qdma

open Lib

/-! ## The calls, cut at their locks -/

/-- What the calling thread does next. -/
inductive TearPc where
  | idle
  | stopWrk (thp thpWb : Option ℕ)
  | stopWb (thpWb : Option ℕ)
  | stopClear
  | stopFree
  | stopFlags
  | removeCleanup
  | removeDisable
  | startLink
  deriving DecidableEq

/-- A queue, who can reach it, and the call in progress.  `wb` is the link on the
writeback thread's list in polled mode and on the vector's list otherwise; `work`
says that an `intr_work` item is scheduled or running. -/
structure Shared where
  x : Xfer
  polled : Bool
  wrk : Bool
  wb : Bool
  work : Bool
  pc : TearPc

def Shared.setDescq (s : Shared) (d : QdmaDescq) : Shared := { s with x := { s.x with descq := d } }

/-- Interrupts are aggregated: an entry of the ring names its queue by number, linked
or not. -/
def Shared.coalesced (s : Shared) : Bool := !s.polled && s.x.intrCoalEn

/-- The next step of the calling thread. -/
def controlStep (s : Shared) : Shared :=
  let d := s.x.descq
  match s.pc with
  | .idle => s
  | .stopWrk thp thpWb => { s with wrk := s.wrk && thp.isNone, pc := .stopWb thpWb }
  | .stopWb thpWb =>
      -- without a thread the queue is taken off an interrupt list
      { s with wb := s.wb && (s.polled && thpWb.isNone), pc := .stopClear }
  | .stopClear => { s with pc := .stopFree }
  | .stopFree => { s.setDescq (qdmaDescqFreeResource d) with pc := .stopFlags }
  | .stopFlags => { s.setDescq { d with online := false, inited := false } with pc := .idle }
  | .removeCleanup => { s.setDescq (qdmaDescqFreeResource d) with pc := .removeDisable }
  | .removeDisable => { s.setDescq { d with enabled := false } with pc := .idle }
  | .startLink =>
      { s.setDescq { d with wrkthp := some 0, wbthp := if s.polled then some 0 else none } with
        wrk := true
        wb := true
        pc := .idle }

/-- The first critical section of a stop. -/
def stopBegins (s : Shared) : Shared :=
  let d := s.x.descq
  { s.setDescq { d with wbthp := none, wrkthp := none } with pc := .stopWrk d.wrkthp d.wbthp }

/-- The first critical section of a removal. -/
def removeBegins (s : Shared) : Shared :=
  { s.setDescq { s.x.descq with inited := false, online := false } with pc := .removeCleanup }

/-- The critical section of a start; `ok` is the outcome of programming the
contexts. -/
def startBegins (s : Shared) (al : RingAllocs) (ok : Bool) : Shared :=
  let r := descqAllocRings al s.x.descq
  if r.1 < 0 || !ok then s.setDescq { qdmaDescqFreeResource r.2 with inited := false }
  else { s.setDescq { r.2 with inited := true, online := true } with pc := .startLink }

inductive TearEv where
  | stop
  | remove
  | start (al : RingAllocs) (ok : Bool)
  | control
  | traffic (e : TrafficEv)
  | irq
  | intrWork (al : RxAllocs)

def tearStep (s : Shared) : TearEv → Shared
  | .stop => stopBegins s
  | .remove => removeBegins s
  | .start al ok => startBegins s al ok
  | .control => controlStep s
  | .traffic e => { s with x := trafficStep s.x e }
  | .irq => { s with work := true }
  | .intrWork al => { s with x := qdmaDescqServiceWb al s.x, work := false }

/-- Who may run: a call needs the thread to be between calls and the queue to be in
the state the call checks for, a thread's pass needs the link, and an item needs to be
scheduled. -/
def tearGuard (s : Shared) : TearEv → Prop
  | .stop => s.pc = .idle ∧ s.x.descq.enabled = true
  | .remove => s.pc = .idle ∧ s.x.descq.enabled = true
  | .start _ _ => s.pc = .idle ∧ s.x.descq.enabled = true ∧ s.x.descq.inited = false ∧
      s.x.descq.online = false
  | .control => s.pc ≠ .idle
  | .traffic .wrkProc => s.wrk = true
  | .traffic (.serviceWb _) => s.polled = true ∧ s.wb = true
  | .traffic _ => True
  | .irq => s.polled = false ∧ (s.wb = true ∨ s.coalesced = true)
  | .intrWork _ => s.work = true

instance decidableTearGuard (s : Shared) : ∀ e, Decidable (tearGuard s e) := by
  rintro (_ | _ | _ | _ | ⟨⟨⟩⟩ | _ | _) <;> dsimp only [tearGuard] <;> infer_instance

def tearSys : System Shared TearEv where
  step := tearStep
  guard := tearGuard

instance (s : Shared) (e : TearEv) : Decidable (tearSys.guard s e) := decidableTearGuard s e

/-- An online queue between calls, with its links and thread pointers as a start leaves
them, and anything in flight. -/
structure OnlineQueue (s : Shared) : Prop where
  enabled : s.x.descq.enabled = true
  inited : s.x.descq.inited = true
  online : s.x.descq.online = true
  rings : s.x.descq.RingsUp
  oops : s.x.descq.oops = false
  wrkthp : s.x.descq.wrkthp.isSome = true
  wbthp : s.x.descq.wbthp.isSome = s.polled
  wrk : s.wrk = true
  wb : s.wb = true
  pc : s.pc = .idle

/-! ## The condition -/

/-- The step frees the rings. -/
def TearPc.frees : TearPc → Bool
  | .stopFree => true
  | .removeCleanup => true
  | _ => false

/-- A service pass finds nothing to read. -/
def serviceIdle (d : QdmaDescq) : Prop := d.isStC2h = false ∧ d.pidx = d.cidx

instance (d : QdmaDescq) : Decidable (serviceIdle d) := inferInstanceAs (Decidable (_ ∧ _))

/-- A service pass can still come. -/
def Shared.serviced (s : Shared) : Bool := s.wb || s.work || s.coalesced

/-- Whoever can still reach the queue would leave its rings alone. -/
def Quiesced (s : Shared) : Prop :=
  (s.wrk = true → s.x.descq.workList = []) ∧ (s.serviced = true → serviceIdle s.x.descq)

instance (s : Shared) : Decidable (Quiesced s) := inferInstanceAs (Decidable (_ ∧ _))

/-- Rings are freed only over a quiesced queue. -/
def quietRelease (s : Shared) : TearEv → Prop
  | .control => s.pc.frees = true → s.x.descq.desc.isSome = true → Quiesced s
  | _ => True

instance decidableQuietRelease (s : Shared) : ∀ e, Decidable (quietRelease s e) := by
  rintro ⟨⟩ <;> dsimp only [quietRelease] <;> infer_instance

def quietSys : System Shared TearEv := tearSys.restrict quietRelease

instance (s : Shared) (e : TearEv) : Decidable (quietSys.guard s e) :=
  inferInstanceAs (Decidable (tearSys.guard s e ∧ quietRelease s e))

/-! ## The invariant -/

/-- Where the calling thread is, with what it has done by then. -/
structure Placed (s : Shared) : Prop where
  wrkthp : s.pc = .idle → s.wrk = true → s.x.descq.enabled = true →
    s.x.descq.wrkthp.isSome = true
  wbthp : s.pc = .idle → s.wb = true → s.x.descq.enabled = true →
    s.x.descq.wbthp.isSome = s.polled
  stopWrk : ∀ thp thpWb, s.pc = .stopWrk thp thpWb →
    (s.wrk = true → thp.isSome = true) ∧ (s.wb = true → thpWb.isSome = s.polled)
  stopWb : ∀ thpWb, s.pc = .stopWb thpWb →
    s.wrk = false ∧ (s.wb = true → thpWb.isSome = s.polled)
  off : s.pc = .stopClear ∨ s.pc = .stopFree ∨ s.pc = .stopFlags → s.wrk = false ∧ s.wb = false
  offline : s.pc = .removeCleanup → s.x.descq.online = false
  inited : s.pc = .startLink → s.x.descq.inited = true

/-- The rings are gone, and whoever can still come leaves them alone. -/
structure Released (s : Shared) : Prop where
  worker : s.wrk = true → s.x.descq.workList = [] ∧ s.x.descq.online = false
  service : s.serviced = true → serviceIdle s.x.descq

structure TearInv (s : Shared) : Prop where
  oops : s.x.descq.oops = false
  placed : Placed s
  rings : s.x.descq.RingsUp ∨ Released s
  up : s.pc = .startLink → s.x.descq.RingsUp
  gone : s.pc = .stopFlags ∨ s.pc = .removeDisable ∨
    (s.pc = .idle ∧ s.x.descq.inited = false) → Released s

theorem OnlineQueue.tearInv {s : Shared} (h : OnlineQueue s) : TearInv s where
  oops := h.oops
  placed :=
    { wrkthp := fun _ _ _ => h.wrkthp
      wbthp := fun _ _ _ => h.wbthp
      stopWrk := fun _ _ hc => by rw [h.pc] at hc; cases hc
      stopWb := fun _ hc => by rw [h.pc] at hc; cases hc
      off := fun hc => by rw [h.pc] at hc; simp at hc
      offline := fun hc => by rw [h.pc] at hc; simp at hc
      inited := fun hc => by rw [h.pc] at hc; simp at hc }
  rings := Or.inl h.rings
  up := fun hc => by rw [h.pc] at hc; cases hc
  gone := fun hc => by rw [h.pc, h.inited] at hc; simp at hc

/-! ## Traffic -/

/-- What traffic does to a queue with its rings. -/
theorem ringsUp_traffic {x : Xfer} (h : x.descq.RingsUp) (e : TrafficEv) :
    (trafficStep x e).descq.RingsUp ∧ (trafficStep x e).descq.oops = x.descq.oops := by
  have hkeep : ∀ d : QdmaDescq, d.desc.isSome = x.descq.desc.isSome → d.conf = x.descq.conf →
      d.descWrb.isSome = x.descq.descWrb.isSome → d.stRxFl = x.descq.stRxFl → d.RingsUp := by
    intro d hdesc hconf hwrb hfl
    have hst : d.isStC2h = x.descq.isStC2h := by
      unfold QdmaDescq.isStC2h
      rw [hconf]
    exact ⟨hdesc.trans h.desc, fun hc => hwrb.trans (h.wrb (hst ▸ hc)),
      fun hc => by rw [hfl]; exact h.fl (hst ▸ hc)⟩
  cases e with
  | submit id req =>
      simp only [trafficStep]
      split
      · obtain ⟨work, pend, reqs, submitted, heq⟩ := sgReqSubmit_cases x id req
        rw [heq]
        exact ⟨hkeep _ rfl rfl rfl rfl, rfl⟩
      · exact ⟨h, rfl⟩
  | wrkProc => exact (drives_threadWrkProc x).rings h
  | serviceWb al => exact (drives_serviceWb al x).rings h
  | hwWb cidx => exact ⟨hkeep _ (Option.isSome_map ..) rfl rfl rfl, rfl⟩
  | hwWrb pidx mem => exact ⟨hkeep _ rfl rfl (Option.isSome_map ..) rfl, rfl⟩
  | rxRead rxq => exact ⟨hkeep _ rfl rfl rfl rfl, rfl⟩
  | timeout id => exact ⟨hkeep _ rfl rfl rfl rfl, rfl⟩

/-- The fields that place the calling thread are none of traffic's. -/
structure SamePlace (d d' : QdmaDescq) : Prop where
  inited : d'.inited = d.inited
  enabled : d'.enabled = d.enabled
  online : d'.online = d.online
  wrkthp : d'.wrkthp = d.wrkthp
  wbthp : d'.wbthp = d.wbthp

theorem SamePlace.of_sameSetup {d d' : QdmaDescq} (h : SameSetup d d') : SamePlace d d' := by
  rw [h]
  exact ⟨rfl, rfl, rfl, rfl, rfl⟩

theorem samePlace_traffic (x : Xfer) (e : TrafficEv) :
    SamePlace x.descq (trafficStep x e).descq := by
  cases e with
  | submit id req =>
      simp only [trafficStep]
      split
      · obtain ⟨work, pend, reqs, submitted, heq⟩ := sgReqSubmit_cases x id req
        rw [heq]
        exact ⟨rfl, rfl, rfl, rfl, rfl⟩
      · exact ⟨rfl, rfl, rfl, rfl, rfl⟩
  | wrkProc => exact SamePlace.of_sameSetup (drives_threadWrkProc x).setup
  | serviceWb al => exact SamePlace.of_sameSetup (drives_serviceWb al x).setup
  | hwWb cidx => exact ⟨rfl, rfl, rfl, rfl, rfl⟩
  | hwWrb pidx mem => exact ⟨rfl, rfl, rfl, rfl, rfl⟩
  | rxRead rxq => exact ⟨rfl, rfl, rfl, rfl, rfl⟩
  | timeout id => exact ⟨rfl, rfl, rfl, rfl, rfl⟩

theorem Placed.traffic {s : Shared} {x : Xfer} {work : Bool} (h : Placed s)
    (hx : SamePlace s.x.descq x.descq) : Placed { s with x := x, work := work } where
  wrkthp hpc hw hen := by
    rw [hx.wrkthp]
    exact h.wrkthp hpc hw (hx.enabled ▸ hen)
  wbthp hpc hw hen := by
    rw [hx.wbthp]
    exact h.wbthp hpc hw (hx.enabled ▸ hen)
  stopWrk := h.stopWrk
  stopWb := h.stopWb
  off := h.off
  offline hpc := hx.online.trans (h.offline hpc)
  inited hpc := hx.inited.trans (h.inited hpc)

/-- A service pass over nothing in flight. -/
theorem serviceWb_of_idle {x : Xfer} (h : serviceIdle x.descq) (al : RxAllocs) :
    qdmaDescqServiceWb al x = x := by
  unfold qdmaDescqServiceWb descqMmNH2cWb
  rw [h.1, if_neg Bool.false_ne_true, if_pos h.2]

/-- The worker over an empty list. -/
theorem wrkProc_of_nil {x : Xfer} (h : x.descq.workList = []) : qdmaThreadWrkProc x = x := by
  unfold qdmaThreadWrkProc
  rw [h]
  rfl

/-- A submission to a queue that is not online. -/
theorem sgReqSubmit_offline {x : Xfer} (h : x.descq.online = false) (id : ReqId)
    (req : QdmaSgReq) : (sgReqSubmit x id req).2.descq = x.descq := by
  unfold sgReqSubmit
  split
  · rfl
  · split
    · unfold qdmaSgReqSubmitStC2h
      dsimp only
      split
      · rfl
      · rw [h]
        rfl
    · unfold qdmaSgReqSubmit
      split
      · rfl
      · split
        · rfl
        · rw [h]
          rfl

/-- Fewer can come, and what they look at is the same. -/
theorem Released.mono {s s' : Shared} (h : Released s) (hwrk : s'.wrk = true → s.wrk = true)
    (hserviced : s'.serviced = true → s.serviced = true)
    (hwork : s.x.descq.online = false → s.x.descq.workList = [] → s'.x.descq.workList = [])
    (honline : s.x.descq.online = false → s'.x.descq.online = false)
    (hidle : serviceIdle s.x.descq → serviceIdle s'.x.descq) : Released s' where
  worker hw := by
    obtain ⟨hnil, hoff⟩ := h.worker (hwrk hw)
    exact ⟨hwork hoff hnil, honline hoff⟩
  service hs := hidle (h.service (hserviced hs))

/-- The traffic that can still come does not touch a queue without rings. -/
theorem Released.traffic {s : Shared} (h : Released s) {e : TrafficEv}
    (hg : tearGuard s (.traffic e)) :
    Released { s with x := trafficStep s.x e } ∧
      (trafficStep s.x e).descq.oops = s.x.descq.oops := by
  cases e with
  | submit rid req =>
      simp only [trafficStep]
      split
      · obtain ⟨work, pend, reqs, submitted, heq⟩ := sgReqSubmit_cases s.x rid req
        have hoff := fun ho => sgReqSubmit_offline (x := s.x) ho rid req
        rw [heq] at hoff ⊢
        refine ⟨h.mono id id ?_ id id, rfl⟩
        intro ho hnil
        rw [hoff ho]
        exact hnil
      · exact ⟨h, rfl⟩
  | wrkProc =>
      have hsame : trafficStep s.x .wrkProc = s.x := wrkProc_of_nil (h.worker hg).1
      rw [hsame]
      exact ⟨h, rfl⟩
  | serviceWb al =>
      have hserviced : s.serviced = true := by
        unfold Shared.serviced
        rw [hg.2]
        rfl
      have hsame : trafficStep s.x (.serviceWb al) = s.x :=
        serviceWb_of_idle (h.service hserviced) al
      rw [hsame]
      exact ⟨h, rfl⟩
  | hwWb cidx => exact ⟨h.mono id id (fun _ hn => hn) id id, rfl⟩
  | hwWrb pidx mem => exact ⟨h.mono id id (fun _ hn => hn) id id, rfl⟩
  | rxRead rxq => exact ⟨h.mono id id (fun _ hn => hn) id id, rfl⟩
  | timeout rid =>
      refine ⟨h.mono id id ?_ id id, rfl⟩
      intro _ hnil
      change s.x.descq.workList.erase rid = []
      rw [hnil]
      rfl

theorem TearInv.traffic {s : Shared} (h : TearInv s) {e : TrafficEv}
    (hg : tearGuard s (.traffic e)) : TearInv (tearStep s (.traffic e)) where
  oops := by
    obtain hup | hrel := h.rings
    · exact (ringsUp_traffic hup e).2.trans h.oops
    · exact (hrel.traffic hg).2.trans h.oops
  placed := h.placed.traffic (samePlace_traffic s.x e)
  rings := by
    obtain hup | hrel := h.rings
    · exact Or.inl (ringsUp_traffic hup e).1
    · exact Or.inr (hrel.traffic hg).1
  up hpc := (ringsUp_traffic (h.up hpc) e).1
  gone hpc := by
    refine ((h.gone ?_).traffic hg).1
    rw [← (samePlace_traffic s.x e).inited]
    exact hpc

/-! ## Interrupts -/

theorem TearInv.irq {s : Shared} (h : TearInv s) (hg : tearGuard s .irq) :
    TearInv (tearStep s .irq) := by
  have hrel : Released s → Released { s with work := true } := by
    intro hrel
    refine ⟨hrel.worker, fun _ => hrel.service ?_⟩
    unfold Shared.serviced
    obtain hwb | hcoal := hg.2
    · rw [hwb]
      rfl
    · rw [hcoal, Bool.or_true]
  exact
    { oops := h.oops
      placed := h.placed.traffic (x := s.x) ⟨rfl, rfl, rfl, rfl, rfl⟩
      rings := h.rings.imp id hrel
      up := h.up
      gone := fun hpc => hrel (h.gone hpc) }

theorem TearInv.intrWork {s : Shared} (h : TearInv s) (al : RxAllocs)
    (hg : tearGuard s (.intrWork al)) : TearInv (tearStep s (.intrWork al)) := by
  have hserviced : s.serviced = true := by
    unfold Shared.serviced
    rw [show s.work = true from hg, Bool.or_true]
    rfl
  have hrel : Released s →
      Released { s with x := qdmaDescqServiceWb al s.x, work := false } ∧
        qdmaDescqServiceWb al s.x = s.x := by
    intro hrel
    have hsame := serviceWb_of_idle (hrel.service hserviced) al
    rw [hsame]
    exact ⟨⟨hrel.worker, fun _ => hrel.service hserviced⟩, rfl⟩
  have hdrive := drives_serviceWb al s.x
  have hplace := SamePlace.of_sameSetup hdrive.setup
  exact
    { oops := by
        obtain hup | hr := h.rings
        · exact (hdrive.rings hup).2.trans h.oops
        · change (qdmaDescqServiceWb al s.x).descq.oops = false
          rw [(hrel hr).2]
          exact h.oops
      placed := h.placed.traffic hplace
      rings := by
        obtain hup | hr := h.rings
        · exact Or.inl (hdrive.rings hup).1
        · exact Or.inr (hrel hr).1
      up := fun hpc => (hdrive.rings (h.up hpc)).1
      gone := fun hpc => by
        refine (hrel (h.gone ?_)).1
        rw [← hplace.inited]
        exact hpc }

/-! ## The calling thread -/

/-- The rings are freed: of a quiesced queue that the worker has left or that is not
online any more. -/
theorem TearInv.released_of_free {s : Shared} (h : TearInv s)
    (hquiet : s.x.descq.desc.isSome = true → Quiesced s)
    (hworker : s.wrk = true → s.x.descq.online = false) : Released s := by
  obtain hup | hrel := h.rings
  · obtain ⟨hwrk, hservice⟩ := hquiet hup.desc
    exact ⟨fun hw => ⟨hwrk hw, hworker hw⟩, hservice⟩
  · exact hrel

theorem TearInv.stop {s : Shared} (h : TearInv s) (hg : tearGuard s .stop) :
    TearInv (tearStep s .stop) where
  oops := h.oops
  placed :=
    { wrkthp := fun hc => by simp [tearStep, stopBegins] at hc
      wbthp := fun hc => by simp [tearStep, stopBegins] at hc
      stopWrk := fun thp thpWb hc => by
        cases hc
        exact ⟨fun hw => h.placed.wrkthp hg.1 hw hg.2,
          fun hw => h.placed.wbthp hg.1 hw hg.2⟩
      stopWb := fun thpWb hc => by cases hc
      off := fun hc => by simp [tearStep, stopBegins] at hc
      offline := fun hc => by simp [tearStep, stopBegins] at hc
      inited := fun hc => by simp [tearStep, stopBegins] at hc }
  rings := h.rings.imp (fun hup => ⟨hup.desc, hup.wrb, hup.fl⟩)
    fun hrel => hrel.mono id id (fun _ hn => hn) id id
  up hc := by simp [tearStep, stopBegins] at hc
  gone hc := by simp [tearStep, stopBegins] at hc

theorem TearInv.remove {s : Shared} (h : TearInv s) : TearInv (tearStep s .remove) where
  oops := h.oops
  placed :=
    { wrkthp := fun hc => by simp [tearStep, removeBegins] at hc
      wbthp := fun hc => by simp [tearStep, removeBegins] at hc
      stopWrk := fun thp thpWb hc => by cases hc
      stopWb := fun thpWb hc => by cases hc
      off := fun hc => by simp [tearStep, removeBegins] at hc
      offline := fun _ => rfl
      inited := fun hc => by cases hc }
  rings := h.rings.imp (fun hup => ⟨hup.desc, hup.wrb, hup.fl⟩)
    fun hrel => hrel.mono id id (fun _ hn => hn) (fun _ => rfl) id
  up hc := by simp [tearStep, removeBegins] at hc
  gone hc := by simp [tearStep, removeBegins] at hc

/-- Nothing but the rings and what hangs on them is different. -/
def RingsOnly (d d' : QdmaDescq) : Prop :=
  d' = { d with
    desc := d'.desc
    stRxFl := d'.stRxFl
    descWrb := d'.descWrb
    descWrbCur := d'.descWrbCur
    rxQueue := d'.rxQueue }

/-- What an allocation does, whether it succeeds or not. -/
theorem ringsOnly_allocRings (al : RingAllocs) (d : QdmaDescq) :
    RingsOnly d (descqAllocRings al d).2 := by
  obtain ⟨-, hd⟩ | ⟨-, hd⟩ := descqAllocRings_cases al d
  · rw [hd]
    rfl
  · generalize (descqAllocRings al d).2 = d' at hd ⊢
    cases hd with
    | plain ring hst hzero => rfl
    | stC2h ring fls wrb hst hzero => rfl

theorem ringsUp_of_allocated {d d' : QdmaDescq} (h : Allocated d d') : d'.RingsUp := by
  cases h with
  | plain ring hst hzero =>
      have hno : ∀ {p : Prop}, d.isStC2h = true → p := fun hc => by rw [hst] at hc; cases hc
      exact ⟨rfl, hno, hno⟩
  | stC2h ring fls wrb hst hzero => exact ⟨rfl, fun _ => rfl, fun _ => rfl⟩

theorem TearInv.start {s : Shared} (h : TearInv s) (al : RingAllocs) (ok : Bool)
    (hg : tearGuard s (.start al ok)) : TearInv (tearStep s (.start al ok)) := by
  obtain ⟨hpc, hen, hin, hoff⟩ := hg
  have hrel := h.gone (Or.inr (Or.inr ⟨hpc, hin⟩))
  have honly := ringsOnly_allocRings al s.x.descq
  have hcases := descqAllocRings_cases al s.x.descq
  simp only [tearStep, startBegins]
  generalize descqAllocRings al s.x.descq = r at honly hcases ⊢
  by_cases hfails : (decide (r.1 < 0) || !ok) = true
  · -- the rings, if there were any, are gone before the lock is
    rw [if_pos hfails, honly]
    have hrel' : Released (s.setDescq
        { qdmaDescqFreeResource
            { s.x.descq with
              desc := r.2.desc
              stRxFl := r.2.stRxFl
              descWrb := r.2.descWrb
              descWrbCur := r.2.descWrbCur
              rxQueue := r.2.rxQueue } with inited := false }) :=
      hrel.mono id id (fun _ hn => hn) id id
    exact
      { oops := h.oops
        placed :=
          { wrkthp := h.placed.wrkthp
            wbthp := h.placed.wbthp
            stopWrk := h.placed.stopWrk
            stopWb := h.placed.stopWb
            off := h.placed.off
            offline := h.placed.offline
            inited := fun hc => absurd (hpc.symm.trans hc) (by simp) }
        rings := Or.inr hrel'
        up := fun hc => absurd (hpc.symm.trans hc) (by simp)
        gone := fun _ => hrel' }
  · rw [if_neg hfails]
    have hzero : ¬ r.1 < 0 := by
      intro hneg
      simp [hneg] at hfails
    obtain ⟨hneg, -⟩ | ⟨-, hd⟩ := hcases
    · exact absurd hneg hzero
    · have hup := ringsUp_of_allocated hd
      have hup' : QdmaDescq.RingsUp { r.2 with inited := true, online := true } :=
        ⟨hup.desc, hup.wrb, hup.fl⟩
      have hoops : r.2.oops = s.x.descq.oops := by rw [honly]
      exact
        { oops := hoops.trans h.oops
          placed :=
            { wrkthp := fun hc => by simp at hc
              wbthp := fun hc => by simp at hc
              stopWrk := fun thp thpWb hc => by cases hc
              stopWb := fun thpWb hc => by cases hc
              off := fun hc => by simp at hc
              offline := fun hc => by simp at hc
              inited := fun _ => rfl }
          rings := Or.inl hup'
          up := fun _ => hup'
          gone := fun hc => by simp at hc }

/-- Placed at a point of a stop where both links are off. -/
theorem placed_off {s : Shared} (hpc : s.pc = .stopClear ∨ s.pc = .stopFree ∨ s.pc = .stopFlags)
    (hwrk : s.wrk = false) (hwb : s.wb = false) : Placed s where
  wrkthp _ hw := absurd (hwrk.symm.trans hw) Bool.false_ne_true
  wbthp _ hw := absurd (hwb.symm.trans hw) Bool.false_ne_true
  stopWrk thp thpWb hc := by rw [hc] at hpc; simp at hpc
  stopWb thpWb hc := by rw [hc] at hpc; simp at hpc
  off _ := ⟨hwrk, hwb⟩
  offline hc := by rw [hc] at hpc; simp at hpc
  inited hc := by rw [hc] at hpc; simp at hpc

theorem TearInv.stopWrk {s : Shared} (h : TearInv s) {thp thpWb : Option ℕ}
    (hpc : s.pc = .stopWrk thp thpWb) : TearInv (controlStep s) := by
  obtain ⟨hthp, hthpWb⟩ := h.placed.stopWrk thp thpWb hpc
  have hoff : (s.wrk && thp.isNone) = false := by
    cases hw : s.wrk with
    | false => rfl
    | true => rw [Option.isNone_eq_false_iff.mpr (hthp hw)]; rfl
  simp only [controlStep, hpc]
  exact
    { oops := h.oops
      placed :=
        { wrkthp := fun hc => by simp at hc
          wbthp := fun hc => by simp at hc
          stopWrk := fun thp thpWb hc => by cases hc
          stopWb := fun thpWb' hc => by cases hc; exact ⟨hoff, hthpWb⟩
          off := fun hc => by simp at hc
          offline := fun hc => by simp at hc
          inited := fun hc => by simp at hc }
      rings := h.rings.imp id fun hrel => hrel.mono
        (fun hw => absurd (hoff.symm.trans hw) Bool.false_ne_true) id (fun _ hn => hn) id id
      up := fun hc => by simp at hc
      gone := fun hc => by simp at hc }

theorem TearInv.stopWb {s : Shared} (h : TearInv s) {thpWb : Option ℕ}
    (hpc : s.pc = .stopWb thpWb) : TearInv (controlStep s) := by
  obtain ⟨hwrk, hthpWb⟩ := h.placed.stopWb thpWb hpc
  have hoff : (s.wb && (s.polled && thpWb.isNone)) = false := by
    cases hw : s.wb with
    | false => rfl
    | true =>
        have heq := hthpWb hw
        cases hp : s.polled with
        | false => rfl
        | true =>
            rw [hp] at heq
            rw [Option.isNone_eq_false_iff.mpr heq]
            rfl
  simp only [controlStep, hpc]
  refine ⟨h.oops, placed_off (Or.inl rfl) hwrk hoff, ?_, fun hc => by simp at hc,
    fun hc => by simp at hc⟩
  refine h.rings.imp id fun hrel => hrel.mono id ?_ (fun _ hn => hn) id id
  -- one way to be serviced less
  intro hs
  unfold Shared.serviced at hs ⊢
  rw [hoff, Bool.false_or] at hs
  change (s.work || s.coalesced) = true at hs
  rw [Bool.or_assoc, hs, Bool.or_true]

theorem TearInv.stopClear {s : Shared} (h : TearInv s) (hpc : s.pc = .stopClear) :
    TearInv (controlStep s) := by
  obtain ⟨hwrk, hwb⟩ := h.placed.off (Or.inl hpc)
  simp only [controlStep, hpc]
  exact ⟨h.oops, placed_off (Or.inr (Or.inl rfl)) hwrk hwb,
    h.rings.imp id fun hrel => hrel.mono id id (fun _ hn => hn) id id, fun hc => by simp at hc,
    fun hc => by simp at hc⟩

theorem TearInv.stopFree {s : Shared} (h : TearInv s) (hpc : s.pc = .stopFree)
    (hquiet : s.x.descq.desc.isSome = true → Quiesced s) : TearInv (controlStep s) := by
  obtain ⟨hwrk, hwb⟩ := h.placed.off (Or.inr (Or.inl hpc))
  have hrel := h.released_of_free hquiet
    fun hw => absurd (hwrk.symm.trans hw) Bool.false_ne_true
  simp only [controlStep, hpc]
  have hrel' : Released
      { s.setDescq (qdmaDescqFreeResource s.x.descq) with pc := .stopFlags } :=
    hrel.mono id id (fun _ hn => hn) id id
  exact ⟨h.oops, placed_off (Or.inr (Or.inr rfl)) hwrk hwb, Or.inr hrel',
    fun hc => by simp at hc, fun _ => hrel'⟩

theorem TearInv.stopFlags {s : Shared} (h : TearInv s) (hpc : s.pc = .stopFlags) :
    TearInv (controlStep s) := by
  obtain ⟨hwrk, hwb⟩ := h.placed.off (Or.inr (Or.inr hpc))
  have hrel := h.gone (Or.inl hpc)
  simp only [controlStep, hpc]
  have hrel' : Released
      { s.setDescq { s.x.descq with online := false, inited := false } with pc := .idle } :=
    hrel.mono id id (fun _ hn => hn) (fun _ => rfl) id
  exact
    { oops := h.oops
      placed :=
        { wrkthp := fun _ hw => absurd (hwrk.symm.trans hw) Bool.false_ne_true
          wbthp := fun _ hw => absurd (hwb.symm.trans hw) Bool.false_ne_true
          stopWrk := fun thp thpWb hc => by cases hc
          stopWb := fun thpWb hc => by cases hc
          off := fun hc => by simp at hc
          offline := fun _ => rfl
          inited := fun hc => by cases hc }
      rings := Or.inr hrel'
      up := fun hc => by simp at hc
      gone := fun _ => hrel' }

theorem TearInv.removeCleanup {s : Shared} (h : TearInv s) (hpc : s.pc = .removeCleanup)
    (hquiet : s.x.descq.desc.isSome = true → Quiesced s) :
    TearInv (controlStep s) := by
  have hrel := h.released_of_free hquiet fun _ => h.placed.offline hpc
  simp only [controlStep, hpc]
  have hrel' : Released
      { s.setDescq (qdmaDescqFreeResource s.x.descq) with pc := .removeDisable } :=
    hrel.mono id id (fun _ hn => hn) id id
  exact
    { oops := h.oops
      placed :=
        { wrkthp := fun hc => by simp at hc
          wbthp := fun hc => by simp at hc
          stopWrk := fun thp thpWb hc => by cases hc
          stopWb := fun thpWb hc => by cases hc
          off := fun hc => by simp at hc
          offline := fun hc => by simp at hc
          inited := fun hc => by simp at hc }
      rings := Or.inr hrel'
      up := fun hc => by simp at hc
      gone := fun _ => hrel' }

theorem TearInv.removeDisable {s : Shared} (h : TearInv s) (hpc : s.pc = .removeDisable)
    : TearInv (controlStep s) := by
  have hrel := h.gone (Or.inr (Or.inl hpc))
  simp only [controlStep, hpc]
  have hrel' : Released
      { s.setDescq { s.x.descq with enabled := false } with pc := .idle } :=
    hrel.mono id id (fun _ hn => hn) id id
  exact
    { oops := h.oops
      placed :=
        { wrkthp := fun _ _ hc => absurd hc Bool.false_ne_true
          wbthp := fun _ _ hc => absurd hc Bool.false_ne_true
          stopWrk := fun thp thpWb hc => by cases hc
          stopWb := fun thpWb hc => by cases hc
          off := fun hc => by simp at hc
          offline := fun hc => by simp at hc
          inited := fun hc => by simp at hc }
      rings := Or.inr hrel'
      up := fun hc => by simp at hc
      gone := fun _ => hrel' }

theorem TearInv.startLink {s : Shared} (h : TearInv s) (hpc : s.pc = .startLink)
    (hin : s.x.descq.inited = true) : TearInv (controlStep s) := by
  have hup := h.up hpc
  simp only [controlStep, hpc]
  exact
    { oops := h.oops
      placed :=
        { wrkthp := fun _ _ _ => rfl
          wbthp := fun _ _ _ => by
            change (if s.polled then some 0 else none).isSome = s.polled
            cases s.polled <;> rfl
          stopWrk := fun thp thpWb hc => by cases hc
          stopWb := fun thpWb hc => by cases hc
          off := fun hc => by simp at hc
          offline := fun hc => by simp at hc
          inited := fun hc => by simp at hc }
      rings := Or.inl ⟨hup.desc, hup.wrb, hup.fl⟩
      up := fun hc => by simp at hc
      gone := fun hc => by simp [Shared.setDescq, hin] at hc }

theorem TearInv.control {s : Shared} (h : TearInv s) (hg : tearGuard s .control)
    (hquiet : quietRelease s .control) : TearInv (tearStep s .control) := by
  change TearInv (controlStep s)
  unfold quietRelease at hquiet
  cases hpc : s.pc with
  | idle => exact absurd hpc hg
  | stopWrk thp thpWb => exact h.stopWrk hpc
  | stopWb thpWb => exact h.stopWb hpc
  | stopClear => exact h.stopClear hpc
  | stopFree => exact h.stopFree hpc (hquiet (by rw [hpc]; rfl))
  | stopFlags => exact h.stopFlags hpc
  | removeCleanup => exact h.removeCleanup hpc (hquiet (by rw [hpc]; rfl))
  | removeDisable => exact h.removeDisable hpc
  | startLink => exact h.startLink hpc (h.placed.inited hpc)

theorem TearInv.step {s : Shared} (h : TearInv s) (e : TearEv) (hg : quietSys.guard s e) :
    TearInv (tearStep s e) := by
  obtain ⟨hg, hquiet⟩ := hg
  cases e with
  | stop => exact h.stop hg
  | remove => exact h.remove
  | start al ok => exact h.start al ok hg
  | control => exact h.control hg hquiet
  | traffic e => exact h.traffic hg
  | irq => exact h.irq hg
  | intrWork al => exact h.intrWork al hg

/-- Without anyone in between, the steps of a stop are the stop. -/
theorem stop_alone (s : Shared) (h : s.pc = .idle) :
    (tearSys.exec s [.stop, .control, .control, .control, .control, .control]).x.descq
        = stoppedDescq s.x.descq ∧
      (tearSys.exec s [.stop, .control, .control, .control, .control, .control]).pc
        = s.pc := by
  rw [h]
  exact ⟨rfl, rfl⟩

/-- And those of a removal the removal. -/
theorem remove_alone (s : Shared) (h : s.pc = .idle) :
    (tearSys.exec s [.remove, .control, .control]).x.descq = removedDescq s.x.descq ∧
      (tearSys.exec s [.remove, .control, .control]).pc = s.pc := by
  rw [h]
  exact ⟨rfl, rfl⟩

/-- **Rings are touched only while allocated**, in every interleaving from an online
queue in which they are freed only over a quiesced one. -/
theorem rings_touched_while_allocated {s : Shared} (honline : OnlineQueue s) (es : List TearEv)
    (hrun : quietSys.Admits s es) : (quietSys.exec s es).x.descq.oops = false :=
  (quietSys.invariant (fun _ e h hg => TearInv.step h e hg) es honline.tearInv hrun).oops

/-- A memory-mapped H2C queue that was just started. -/
def startedShared (polled : Bool) : Shared where
  x := Xfer.init
    { h2cQueue false with
      enabled := true
      inited := true
      wrkthp := some 0
      wbthp := if polled then some 0 else none }
    (fun _ => onePlaceReq) false []
  polled := polled
  wrk := true
  wb := true
  work := false
  pc := .idle

theorem startedShared_online (polled : Bool) : OnlineQueue (startedShared polled) where
  enabled := rfl
  inited := rfl
  online := rfl
  rings := ⟨rfl, (fun hc => by cases hc), (fun hc => by cases hc)⟩
  oops := rfl
  wrkthp := rfl
  wbthp := by cases polled <;> rfl
  wrk := rfl
  wb := rfl
  pc := rfl

/-- The request is posted, done and completed before the queue is stopped; an item that
was scheduled late runs after the rings are gone. -/
def quietStop : List TearEv :=
  [.traffic (.submit 0 onePlaceReq), .traffic .wrkProc, .traffic (.hwWb 1), .irq,
    .intrWork noAllocs, .irq, .stop, .control, .control, .control, .control,
    .intrWork noAllocs, .control]

theorem rings_untouched_by_quiet_stop :
    OnlineQueue (startedShared false) ∧ quietSys.Admits (startedShared false) quietStop ∧
      (quietSys.exec (startedShared false) quietStop).x.descq.oops = false :=
  have hrun : quietSys.Admits (startedShared false) quietStop := by decide +kernel
  ⟨startedShared_online false, hrun,
    rings_touched_while_allocated (startedShared_online false) quietStop hrun⟩

/-- A stop with a descriptor in flight and an item scheduled. -/
def stopWithWork : List TearEv :=
  [.traffic (.submit 0 onePlaceReq), .traffic .wrkProc, .irq, .stop, .control,
    .control, .control, .control, .intrWork noAllocs]

/-- A removal with a descriptor in flight: the writeback thread still has the queue. -/
def removeWhileLinked : List TearEv :=
  [.traffic (.submit 0 onePlaceReq), .traffic .wrkProc, .remove, .control,
    .traffic (.serviceWb noAllocs)]

theorem rings_touched_after_free :
    (OnlineQueue (startedShared false) ∧ tearSys.Admits (startedShared false) stopWithWork ∧
        (tearSys.exec (startedShared false) stopWithWork).x.descq.oops = true) ∧
      OnlineQueue (startedShared true) ∧ tearSys.Admits (startedShared true) removeWhileLinked ∧
        (tearSys.exec (startedShared true) removeWhileLinked).x.descq.oops = true :=
  ⟨⟨startedShared_online false, by decide +kernel, by decide +kernel⟩,
    startedShared_online true, by decide +kernel, by decide +kernel⟩

end Qdma

import Qsbit.Device.Step

/-!
# Runs of the device

A run of the device from its construction or a reset is a sequence of accepted
batches and processed boundaries. The history of a run keeps the batches with
their actions, the deliveries and the log.

The reservations are pruned when a boundary is processed. A later batch is fired
after the boundary, so what has been dropped would not have restricted it.

## Main definitions

* `DeviceRun` — the runs whose calls obey a rule.
* `Reserves` — the reservations of a run are its accepted actions that may still matter.
* `exclusion` — pruning changes no check, and accepted actions exclude each other.
-/
namespace Qsbit
open Std (ExtTreeMap)
open ControlElectronics

inductive DeviceCall
  | accept (batch : TriggeredEvents)
  | process (now : ℕ)

structure DeviceHistory where
  fired : List TriggeredEvents := []
  batches : List (List ScheduledEvent) := []
  delivered : List (ℕ × Completion) := []
  log : List TraceEvent := []

namespace DeviceHistory

/-- The actions accepted since the start of the run, in order. -/
def accepted (history : DeviceHistory) : List ScheduledEvent := history.batches.flatten

end DeviceHistory

/-- A delivery that is written down. -/
def recordDelivery (c : Completion) : Sim (List Completion) Unit := Proc.modify (· ++ [c])

variable {β : Type}

/-- The device is as its construction or a reset leaves it, in this epoch and on this tick. -/
inductive Begins (backend : QuantumBackend β) : (epoch origin : ℕ) → ControlElectronics β → Prop
  | make {profile : DeviceProfile} {state : β} {limit : ℕ} {d : ControlElectronics β}
      (h : ControlElectronics.make backend profile state limit = .ok d) : Begins backend 1 0 d
  -- The constructor refuses a batch limit of zero.
  | reset {now epoch : ℕ} {d₀ d : ControlElectronics β} {l : List TraceEvent}
      (built : 0 < d₀.backend.maxBatchOperations)
      (h : (ControlElectronics.reset backend now epoch).Returns d₀ () d l) :
      Begins backend epoch now d

/-- The runs of the device in one epoch. Its calls obey a rule and return, and the identities of
the accepted actions are distinct. -/
inductive DeviceRun (backend : QuantumBackend β) (epoch origin : ℕ)
    (rule : ControlElectronics β → DeviceCall → Prop) : DeviceHistory → ControlElectronics β → Prop
  | start {d : ControlElectronics β} (h : Begins backend epoch origin d) :
      DeviceRun backend epoch origin rule {} d
  | accept {history : DeviceHistory} {d d' : ControlElectronics β} {batch : TriggeredEvents}
      {actions : List ScheduledEvent} {l : List TraceEvent}
      (run : DeviceRun backend epoch origin rule history d) (obeys : rule d (.accept batch))
      (h : (ControlElectronics.accept backend batch).Returns d () d' l)
      (resolved : d.resolve backend batch = .ok actions)
      (fresh : ∀ a ∈ actions, ∀ b ∈ history.accepted, b.event.id ≠ a.event.id) :
      DeviceRun backend epoch origin rule
        { history with
          fired := history.fired ++ [batch], batches := history.batches ++ [actions]
          log := history.log ++ l } d'
  | process {history : DeviceHistory} {d d' : ControlElectronics β} {now : ℕ}
      {cs : List Completion} {l : List TraceEvent}
      (run : DeviceRun backend epoch origin rule history d) (obeys : rule d (.process now))
      (h : (ControlElectronics.process backend now epoch recordDelivery).Returns (d, []) ()
        (d', cs) l) :
      DeviceRun backend epoch origin rule
        { history with
          delivered := history.delivered ++ cs.map fun c => (now, c)
          log := history.log ++ l } d'

/-- Boundaries are processed in order, when they are next, and every action takes time, which the
checks of the profiles make sure of: see `Routed.timely`. -/
def Timely : ControlElectronics β → DeviceCall → Prop
  | _, .accept batch => ∀ event ∈ batch.events, 0 < event.action.duration
  | d, .process now => d.nextBoundary = some now

theorem DeviceRun.imp {backend : QuantumBackend β} {epoch origin : ℕ}
    {rule rule' : ControlElectronics β → DeviceCall → Prop} {history : DeviceHistory}
    {d : ControlElectronics β} (himp : ∀ d call, rule d call → rule' d call)
    (run : DeviceRun backend epoch origin rule history d) :
    DeviceRun backend epoch origin rule' history d := by
  induction run with
  | start h => exact .start h
  | accept run obeys h resolved fresh ih => exact .accept ih (himp _ _ obeys) h resolved fresh
  | process run obeys h ih => exact .process ih (himp _ _ obeys) h

/-- The tick is not after the last processed boundary. -/
def ControlElectronics.Past (d : ControlElectronics β) (t : ℕ) : Prop :=
  ∃ processed ∈ d.processedTick, t ≤ processed

section Start
variable {backend : QuantumBackend β} {epoch origin : ℕ} {d : ControlElectronics β}

/-- Nothing is left of what has been before. -/
theorem Begins.empty (h : Begins backend epoch origin d) :
    d.boundaries = ∅ ∧ d.active = ∅ ∧ d.readouts = {} ∧ d.reservations = [] ∧
      d.lastTick = origin ∧ d.processedTick = none := by
  cases h with
  | make h =>
    simp only [ControlElectronics.make, Except.bind_eq_ok_iff, Except.pure_eq_ok_iff] at h
    obtain ⟨x, -, _, -, rfl⟩ := h
    exact ⟨rfl, rfl, rfl, rfl, rfl, rfl⟩
  | reset built h =>
    simp only [ControlElectronics.reset, Proc.returns_get_bind_iff] at h
    obtain ⟨_, d₁, _, _, hemit, h₁, -⟩ := Proc.returns_bind_iff.1 h
    obtain ⟨rfl, -⟩ := Proc.returns_emitAll_iff.1 hemit
    rw [Proc.returns_modify_bind_iff] at h₁
    obtain ⟨_, d₂, _, _, hreset, h₂, -⟩ := Proc.returns_bind_iff.1 h₁
    obtain ⟨b, -, rfl⟩ := returns_onExecution_iff.1 hreset
    obtain ⟨rfl, -⟩ := Proc.returns_modify_iff.1 h₂
    exact ⟨rfl, rfl, rfl, rfl, rfl, rfl⟩

end Start

/-! ## Reservations -/

/-- An action as its resolution leaves it: an interval, and its gate instead of a gate output. -/
structure Resolves (a : ScheduledEvent) : Prop where
  interval : a.start ≤ a.end
  output : a.event.action.kind = .gateOutput → a.resolved.kind = .idealGate
  other : a.event.action.kind ≠ .gateOutput → a.resolved = a.event.action

theorem resolves_of_resolveAction {p : DeviceProfile} {a : ScheduledEvent}
    (hinterval : a.start ≤ a.end) (h : resolveAction p a.event = .ok a.resolved) : Resolves a := by
  unfold resolveAction at h
  split at h
  · rename_i value hspec
    simp only [gateAction, Except.bind_eq_ok_iff, require_eq_ok_iff, exists_const,
      Except.pure_eq_ok_iff] at h
    obtain ⟨gate, -, -, action, ⟨gate', -, rfl⟩, hresolved⟩ := h
    refine ⟨hinterval, fun _ => ?_, fun hk => absurd ?_ hk⟩
    · rw [← hresolved]
      rfl
    · simp [EventSpec.kind, hspec]
  · rename_i hspec
    refine ⟨hinterval, fun hk => ?_, fun _ => (Except.pure_eq_ok_iff.1 h).symm⟩
    exfalso
    cases hs : a.event.action.spec <;> simp [EventSpec.kind, hs] at hk
    exact hspec _ hs

/-- What is known of the actions of a resolved batch. -/
theorem resolve_spec {backend : QuantumBackend β} {d : ControlElectronics β}
    {batch : TriggeredEvents} {actions : List ScheduledEvent}
    (h : d.resolve backend batch = .ok actions) :
    ∀ a ∈ actions, Resolves a ∧ batch.fireTick ≤ a.start := by
  intro a ha
  obtain ⟨event, -, hevent⟩ := resolveAll_mem h ha
  obtain ⟨rfl, -, hstart, hend, hresolved⟩ := resolveEvent_spec hevent
  exact ⟨resolves_of_resolveAction (by omega) hresolved, by omega⟩

/-- The reservations are the accepted actions that have not ended before the last processed
boundary; every accepted action was compatible with all that had been accepted before it. -/
structure Reserves (history : DeviceHistory) (d : ControlElectronics β) : Prop where
  reservations : d.reservations =
    match d.processedTick with
    | none => history.accepted
    | some processed => ResourceReservations.discardBefore processed history.accepted
  compatible : history.accepted.Pairwise fun old new => ResourceReservations.Compatible new old
  resolves : ∀ a ∈ history.accepted, Resolves a

section Reserves
variable {backend : QuantumBackend β} {epoch origin : ℕ}
  {rule : ControlElectronics β → DeviceCall → Prop} {history : DeviceHistory}
  {d : ControlElectronics β}

theorem Reserves.mem (h : Reserves history d) {a : ScheduledEvent} :
    a ∈ d.reservations ↔
      a ∈ history.accepted ∧ ∀ processed ∈ d.processedTick, processed ≤ a.end := by
  rw [h.reservations]
  cases d.processedTick with
  | none => simp
  | some processed => simp [ResourceReservations.discardBefore]

/-- A batch that is fired after the last processed boundary passes the check against the
reservations exactly when it passes the check against everything accepted. -/
theorem Reserves.check_iff (h : Reserves history d) {batch : TriggeredEvents}
    {actions : List ScheduledEvent} (hresolved : d.resolve backend batch = .ok actions)
    (hfire : ∀ processed ∈ d.processedTick, processed < batch.fireTick)
    (hfresh : ∀ a ∈ actions, ∀ b ∈ history.accepted, b.event.id ≠ a.event.id) :
    ResourceReservations.check d.reservations actions = .ok () ↔
      ResourceReservations.check history.accepted actions = .ok () := by
  rw [ResourceReservations.check_eq_ok_iff, ResourceReservations.check_eq_ok_iff]
  refine and_congr_left' ⟨?_, ?_⟩
  · intro hcheck a ha old hold
    by_cases hreserved : old ∈ d.reservations
    · exact hcheck a ha old hreserved
    · obtain ⟨processed, hprocessed, hend⟩ :
          ∃ processed ∈ d.processedTick, old.end < processed := by
        by_contra hnot
        apply hreserved
        rw [h.mem]
        refine ⟨hold, fun processed hprocessed => ?_⟩
        by_contra hlt
        exact hnot ⟨processed, hprocessed, by omega⟩
      obtain ⟨hresolves, hstart⟩ := resolve_spec hresolved a ha
      have hlt := hfire processed hprocessed
      exact ⟨hfresh a ha old hold, ResourceReservations.pair_of_end_lt hresolves.interval
        (h.resolves old hold).interval (by omega)⟩
  · intro hcheck a ha old hold
    exact hcheck a ha old (h.mem.1 hold).1

theorem Reserves.start (h : Begins backend epoch origin d) : Reserves {} d := by
  obtain ⟨-, -, -, hreservations, -, hprocessed⟩ := h.empty
  refine ⟨?_, List.Pairwise.nil, by simp [DeviceHistory.accepted]⟩
  rw [hreservations, hprocessed]
  rfl

theorem accepted_append {fired : List TriggeredEvents} {batches : List (List ScheduledEvent)}
    {actions : List ScheduledEvent} {delivered : List (ℕ × Completion)} {log : List TraceEvent} :
    DeviceHistory.accepted { fired, batches := batches ++ [actions], delivered, log } =
      batches.flatten ++ actions := by
  simp [DeviceHistory.accepted]

theorem Reserves.accept (h : Reserves history d) {d' : ControlElectronics β}
    {batch : TriggeredEvents} {actions : List ScheduledEvent} {readouts : List Readout}
    {l : List TraceEvent} (haccepted : Accepted backend batch actions readouts d d')
    (hfresh : ∀ a ∈ actions, ∀ b ∈ history.accepted, b.event.id ≠ a.event.id) :
    Reserves
      { history with
        fired := history.fired ++ [batch], batches := history.batches ++ [actions]
        log := history.log ++ l } d' := by
  have hresolve := resolve_spec haccepted.resolved
  have hcheck := (h.check_iff haccepted.resolved haccepted.after hfresh).1 haccepted.checked
  rw [ResourceReservations.check_eq_ok_iff] at hcheck
  rw [haccepted.device]
  refine ⟨?_, ?_, ?_⟩
  · rw [accepted_append]
    change d.reservations ++ actions = match d.processedTick with
      | none => history.accepted ++ actions
      | some processed =>
        ResourceReservations.discardBefore processed (history.accepted ++ actions)
    rw [h.reservations]
    cases hp : d.processedTick with
    | none => rfl
    | some processed =>
      have hlt := haccepted.after processed hp
      have hkeep : actions.filter (fun action => decide (processed ≤ action.end)) = actions := by
        rw [List.filter_eq_self]
        intro a ha
        obtain ⟨hresolves, hstart⟩ := hresolve a ha
        have hinterval := hresolves.interval
        exact decide_eq_true (by omega)
      simp only [ResourceReservations.discardBefore, List.filter_append, hkeep]
  · rw [accepted_append]
    refine List.pairwise_append.2 ⟨h.compatible, hcheck.2, ?_⟩
    intro old hold a ha
    exact hcheck.1 a ha old hold
  · rw [accepted_append]
    intro a ha
    rcases List.mem_append.1 ha with ha | ha
    · exact h.resolves a ha
    · exact (hresolve a ha).1

theorem Reserves.process (h : Reserves history d) {d' : ControlElectronics β} {now : ℕ}
    {cs : List Completion} {l : List TraceEvent} {delivered : List (ℕ × Completion)}
    (hp : (ControlElectronics.process backend now epoch recordDelivery).Returns (d, []) ()
      (d', cs) l) : Reserves { history with delivered, log := history.log ++ l } d' := by
  rcases process_frame hp with ⟨-, rfl⟩ | ⟨-, hframe⟩
  · exact ⟨h.reservations, h.compatible, h.resolves⟩
  · simp only [frame, complete, Prod.mk.injEq] at hframe
    refine ⟨?_, h.compatible, h.resolves⟩
    rw [hframe.2.1, hframe.2.2.2.2, h.reservations]
    cases hprocessed : d.processedTick with
    | none => rfl
    | some processed =>
      have hlt := (process_returns hp).1.2 processed hprocessed
      simp only [ResourceReservations.discardBefore, List.filter_filter]
      apply List.filter_congr
      intro a _
      have hle : now ≤ a.end → processed ≤ a.end := by omega
      simpa using hle

theorem DeviceRun.reserves (run : DeviceRun backend epoch origin rule history d) :
    Reserves history d := by
  induction run with
  | start h => exact .start h
  | accept run obeys h resolved fresh ih =>
    obtain ⟨actions, readouts, haccepted, rfl⟩ := accept_returns h
    obtain rfl : actions = _ := Except.ok.inj (haccepted.resolved.symm.trans resolved)
    exact ih.accept haccepted fresh
  | process run obeys h ih => exact ih.process h

theorem gateOutput_of_sameGate {a b : EventSpec} (h : sameGate a b = true) :
    a.kind = .gateOutput ∧ b.kind = .gateOutput := by
  unfold sameGate at h
  split at h
  · rename_i ha hb
    exact ⟨by simp [EventSpec.kind, ha], by simp [EventSpec.kind, hb]⟩
  · simp at h

/-- Two accepted actions, in whichever order they have been accepted. -/
theorem Reserves.excludes (h : Reserves history d) {a b : ScheduledEvent}
    (ha : a ∈ history.accepted) (hb : b ∈ history.accepted) (hid : a.event.id ≠ b.event.id) :
    ResourceReservations.Excludes a b := by
  have hpairwise : history.accepted.Pairwise fun x y =>
      x.event.id ≠ y.event.id → ResourceReservations.Excludes x y := by
    refine h.compatible.imp_of_mem ?_
    intro old new hold hnew hcompatible _
    refine (ResourceReservations.excludes_of_pair hcompatible.pair ?_).symm
    intro hsame
    obtain ⟨hnewkind, holdkind⟩ := gateOutput_of_sameGate hsame
    rw [(h.resolves new hnew).output hnewkind, (h.resolves old hold).output holdkind]
    exact ⟨by simp, by simp⟩
  refine List.Pairwise.forall_of_forall_of_flip ?_ hpairwise ?_ ha hb hid
  · intro x _ hne
    exact absurd rfl hne
  · exact hpairwise.imp fun hxy hne => (hxy hne.symm).symm

end Reserves

/-- The reservations of a run exclude what they should, however they are pruned. A batch that is
fired after the last processed boundary passes the check exactly when it would pass it against
everything accepted since the start; any two accepted actions exclude each other. -/
theorem exclusion {backend : QuantumBackend β} {epoch origin : ℕ} {history : DeviceHistory}
    {d : ControlElectronics β} (run : DeviceRun backend epoch origin (fun _ _ => True) history d) :
    (∀ batch actions, d.resolve backend batch = .ok actions →
      (∀ processed ∈ d.processedTick, processed < batch.fireTick) →
      (∀ a ∈ actions, ∀ b ∈ history.accepted, b.event.id ≠ a.event.id) →
      (ResourceReservations.check d.reservations actions = .ok () ↔
        ResourceReservations.check history.accepted actions = .ok ())) ∧
      ∀ a ∈ history.accepted, ∀ b ∈ history.accepted, a.event.id ≠ b.event.id →
        ResourceReservations.Excludes a b := by
  refine ⟨?_, ?_⟩
  · intro batch actions hresolved hfire hfresh
    exact run.reserves.check_iff hresolved hfire hfresh
  · intro a ha b hb hid
    exact run.reserves.excludes ha hb hid

/-! ## A run -/

section Probe

def probeProfile : DeviceProfile := { qubits := 2, seed := 1 }

/-- A new device, as its constructor leaves it. -/
def probeDevice : ControlElectronics (List BackendOperation) :=
  { profile := probeProfile, backend := { backend := [], epoch := 1 } }

def probeEvent (id target : ℕ) (spec : ActionSpec) : OperationEvent :=
  { epoch := 1, id, label := 1, reference := some { epoch := 1, measurement := 1, target }
    action := { port := target, spec } }

/-- An acquisition of the first qubit from tick 10 to 30, whose result is ready on tick 35. -/
def probeBatch : TriggeredEvents :=
  { epoch := 1, label := 1, fireTick := 10
    events := [probeEvent 1 0 (.acquire { operands := { targets := [0] }, discriminatorDelay := 5 })] }

def probeActions : List ScheduledEvent :=
  probeBatch.events.map fun event =>
    { event, start := 10, «end» := 30, resolved := event.action }

/-- The device after the batch has been accepted and boundaries have been processed. -/
def probeAfter (ticks : List ℕ) : ControlElectronics (List BackendOperation) :=
  ticks.foldl (fun d now => (process (tape false) now 1 recordDelivery (d, [])).state.1)
    (accept (tape false) probeBatch probeDevice).state

theorem probe_process {backend : QuantumBackend β} (now : ℕ) {history : DeviceHistory}
    {d : ControlElectronics β} (run : DeviceRun backend 1 0 Timely history d)
    (hnext : d.boundaries.keys.head? = some now)
    (h : (process backend now 1 recordDelivery (d, [])).result.toOption.isSome) :
    DeviceRun backend 1 0 Timely
      { history with
        delivered := history.delivered ++
          (process backend now 1 recordDelivery (d, [])).state.2.map fun c => (now, c)
        log := history.log ++ (process backend now 1 recordDelivery (d, [])).log }
      (process backend now 1 recordDelivery (d, [])).state.1 :=
  .process run ((ExtTreeMap.minKey?_eq_head?_keys).trans hnext) (Proc.returns_of_isSome h)

theorem probe_start : DeviceRun (tape false) 1 0 Timely {} probeDevice := by
  have hmake : ControlElectronics.make (tape false) probeProfile [] 1024 = .ok probeDevice := rfl
  exact .start (.make hmake)

/-- The qubit is being acquired. -/
theorem probe_started : ∃ history : DeviceHistory, history.batches = [probeActions] ∧
    history.delivered = [] ∧ DeviceRun (tape false) 1 0 Timely history (probeAfter [10]) := by
  have hresolve : probeDevice.resolve (tape false) probeBatch = .ok probeActions := rfl
  have h₀ := probe_start.accept (by simp [Timely, probeBatch, probeEvent])
    (Proc.returns_of_isSome (by decide +kernel)) hresolve (by simp [DeviceHistory.accepted])
  have h₁ := probe_process 10 h₀ (by decide +kernel) (by decide +kernel)
  exact ⟨_, rfl, by decide +kernel, h₁⟩

theorem probe_run : ∃ history : DeviceHistory, history.batches = [probeActions] ∧
    history.delivered = [(35, { reference := { epoch := 1, measurement := 1, target := 0 } })] ∧
    DeviceRun (tape false) 1 0 Timely history (probeAfter [10, 30, 35]) := by
  obtain ⟨history, hbatches, hdelivered, h₁⟩ := probe_started
  have h₂ := probe_process 30 h₁ (by decide +kernel) (by decide +kernel)
  have h₃ := probe_process 35 h₂ (by decide +kernel) (by decide +kernel)
  refine ⟨_, ?_, ?_, h₃⟩
  · exact hbatches
  · dsimp only
    rw [hdelivered]
    decide +kernel

/-- A drive of the qubit while it was acquired passes the check after the run. -/
def probeLater : List ScheduledEvent :=
  [{ event := probeEvent 2 0 (.pulse { operands := { targets := [0] } }), start := 40, «end» := 60
     resolved := (probeEvent 2 0 (.pulse { operands := { targets := [0] } })).action }]

theorem exclusion_probe :
    (probeAfter [10, 30, 35]).reservations = [] ∧
      (ResourceReservations.check (probeAfter [10, 30, 35]).reservations probeLater = .ok () ↔
        ResourceReservations.check probeActions probeLater = .ok ()) := by
  obtain ⟨history, hbatches, -, run⟩ := probe_run
  have haccepted : history.accepted = probeActions := by simp [DeviceHistory.accepted, hbatches]
  refine ⟨by decide +kernel, ?_⟩
  rw [← haccepted]
  exact (exclusion (run.imp fun _ _ _ => trivial)).1
    { epoch := 1, label := 1, fireTick := 40
      events := [probeEvent 2 0 (.pulse { operands := { targets := [0] } })] } probeLater
    rfl (by decide +kernel) (by rw [haccepted]; decide)

end Probe
end Qsbit

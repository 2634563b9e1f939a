import Qsbit.ControlProtocol
import Qsbit.Feedback

/-!
# The timing control unit

`TcuCycleModel` turns admitted timing points into launches. On every edge of its
clock `step` checks the point at the head of the queue, a candidate for
admission and the fast results, and then commits all of them. Two kinds of pause
freeze the logical cycle: an empty queue after a `wait 0`, and synchronization.

The two preflight callbacks belong to the caller. The launch check is `const` in
the source; the synchronization check may change the caller's state, which is
`χ` here.

## Main definitions

* `TcuCycleModel` — the queues and registers of one unit.
* `prepareTrigger`, `prepareAdmission` — the checks before any commit.
* `commitTrigger`, `commitAdmission`, `commitFastResults`, `updatePauseState` — the commits.
* `TcuCycleModel.step`, `TcuCycleModel.close`, `TcuCycleModel.reset` — the operations.
-/
namespace Qsbit

structure TcuOutput where
  admitted : Bool := false
  launch : Option TriggeredEvents := none
  fastDelivered : List MeasurementReference := []
  synchronizations : List ℕ := []
  deriving DecidableEq, Repr

namespace TcuCycleModel

structure PauseState where
  instructionSupply : Bool := false
  synchronization : Bool := false
  deriving DecidableEq, Repr

def PauseState.paused (p : PauseState) : Bool := p.instructionSupply || p.synchronization

structure TimingState where
  running : Bool
  cycle : ℕ
  pause : PauseState
  deriving DecidableEq, Repr

structure Point where
  point : TimingPoint
  due : ℕ
  deriving DecidableEq, Repr

/-- A candidate together with its due cycle. -/
structure Admission where
  request : TimingEvents
  due : ℕ
  deriving DecidableEq, Repr

structure Trigger where
  batch : TriggeredEvents
  cancelled : List OperationEvent
  synchronizations : List ℕ
  deriving DecidableEq, Repr

end TcuCycleModel

structure TcuCycleModel where
  profile : TcuConfig
  timing : List TcuCycleModel.Point := []
  events : List (List OperationEvent)
  executionFlags : ExecutionFlags
  lastDue : ℕ := 0
  start : ℕ
  pausedTicks : ℕ := 0
  syncCapacity : ℕ
  syncSize : ℕ := 0
  lastLabel : ℕ := 0
  closed : Bool := false
  admittedPolicy : UnderflowPolicy := .strict
  triggeredPolicy : UnderflowPolicy := .strict
  pause : TcuCycleModel.PauseState := {}
  deriving DecidableEq, Repr

namespace TcuCycleModel

/-- A unit as its constructor leaves it. -/
def make (profile : TcuConfig) (syncCapacity : ℕ := 8) : Except Fault TcuCycleModel := do
  require (0 < syncCapacity) .invalidProfile "zero synchronization queue capacity"
  pure
    { profile
      events := List.replicate profile.timing.ports []
      executionFlags := ExecutionFlags.make profile.timing.qubits
      start := profile.start
      syncCapacity }

def policyAfter (point : TimingPoint) (previous : UnderflowPolicy) : UnderflowPolicy :=
  if point.underflowPolicy = .inherit then previous else point.underflowPolicy

def currentTimingState (m : TcuCycleModel) (now : ℕ) (synchronizationPaused : Bool) :
    TimingState :=
  let running : Bool := m.start ≤ now
  { running
    cycle := if running then
        wrapSub (wrapSub now m.start) m.pausedTicks / m.profile.clock.period else 0
    pause :=
      { instructionSupply :=
          running && m.triggeredPolicy = .pauseWhenEmpty && m.timing.isEmpty && !m.closed
        synchronization := running && synchronizationPaused } }

def meetsDeadline (m : TcuCycleModel) (now dueTick : ℕ) (pause : PauseState) : Bool :=
  now < dueTick ||
    m.admittedPolicy = .pauseWhenEmpty && pause.instructionSupply && now = dueTick

/-! ## Preparation -/

/-- Collect the leading events of one port queue that carry the label. -/
def gatherQueue (epoch label : ℕ) (gathered : List OperationEvent) :
    List OperationEvent → Except Fault (List OperationEvent)
  | [] => pure gathered
  | event :: rest =>
      if event.label ≠ label then pure gathered else do
        require (event.epoch = epoch ∧ ∀ e ∈ gathered, e.id ≠ event.id)
          .manifestMismatch "duplicate or stale port event"
        gatherQueue epoch label (gathered ++ [event]) rest

/-- Collect the events of a label from all port queues. -/
def gather (epoch label : ℕ) (gathered : List OperationEvent) :
    List (List OperationEvent) → Except Fault (List OperationEvent)
  | [] => pure gathered
  | queue :: rest => do
      require (∀ e ∈ queue.head?, label ≤ e.label)
        .manifestMismatch "orphan event precedes timing head"
      let gathered ← gatherQueue epoch label gathered queue
      gather epoch label gathered rest

/-- Split the manifested events into launched and cancelled ones. -/
def evaluateManifest (flags : ExecutionFlags) (gathered : List OperationEvent) :
    List ℕ → Except Fault (List OperationEvent × List OperationEvent)
  | [] => pure ([], [])
  | id :: rest =>
      match gathered.find? (·.id = id) with
      | none => .error ⟨.manifestMismatch, "manifested event is missing"⟩
      | some event => do
          -- A conditional action has exactly one target.
          let launched ← (if event.action.executionFlag ≠ .always then
              flags.evaluate (event.action.targets.headD 0) event.action.executionFlag
            else pure true)
          let (events, cancelled) ← evaluateManifest flags gathered rest
          pure (if launched then (event :: events, cancelled) else (events, event :: cancelled))

/-- Match the head of the queue with its events and evaluate their conditions. -/
def assembleTrigger (m : TcuCycleModel) (now epoch : ℕ) (state : TimingState) (point : Point) :
    Except Fault Trigger := do
  require (point.due = state.cycle) .lateAdmission "queued point missed its firing edge"
  let gathered ← gather epoch point.point.label [] m.events
  require (gathered.length = point.point.manifest.length)
    .manifestMismatch "timing manifest and port queues differ"
  let (events, cancelled) ← evaluateManifest m.executionFlags gathered point.point.manifest
  pure
    { batch := { epoch, label := point.point.label, fireTick := now, events }
      cancelled
      synchronizations := point.point.synchronizations }

section Callbacks
variable {χ : Type}

/-- The trigger of this edge, if the head of the queue is due. -/
def prepareTrigger (m : TcuCycleModel) (now epoch : ℕ) (state : TimingState)
    (preflight : TriggeredEvents → Except Fault Unit)
    (syncPreflight : Option (List ℕ → Sim χ Unit)) : Sim χ (Option Trigger) :=
  match m.timing with
  | [] => pure none
  | point :: _ =>
      if ¬ state.running ∨ state.pause.paused ∨ state.cycle < point.due then pure none else do
        let trigger ← m.assembleTrigger now epoch state point
        preflight trigger.batch
        (if trigger.synchronizations = [] then pure () else
          match syncPreflight with
          | none => Proc.check
              (.error ⟨.unsupportedSynchronization, "TCU has no synchronization unit"⟩)
          | some check => check trigger.synchronizations)
        pure (some trigger)

/-- The due cycle of the candidate, if it is valid, in time and there is space for it. -/
def prepareAdmission (m : TcuCycleModel) (now epoch : ℕ) (candidate : TimingEvents)
    (pause : PauseState) : Except Fault (Option ℕ) := do
  require (m.closed = false) .protocol "request follows stream closure"
  validateTimingEvents candidate m.profile.timing
  require (candidate.point.epoch = epoch)
    .protocol "request identity is stale, repeated or out of order"
  require (candidate.point.label = (← checkedAdd m.lastLabel 1))
    .protocol "request identity is stale, repeated or out of order"
  require (m.lastLabel = 0 ∨ 0 < candidate.point.interval ∨ m.admittedPolicy = .pauseWhenEmpty ∨
      candidate.point.underflowPolicy = .pauseWhenEmpty)
    .protocol "duplicate logical time point"
  let interval :=
    if m.lastLabel = 0 then candidate.point.interval else max 1 candidate.point.interval
  let due ← checkedAdd m.lastDue interval
  let dueTick ← checkedAdd (← checkedAdd m.start m.pausedTicks)
    (← checkedMul due m.profile.clock.period)
  require (m.meetsDeadline now dueTick pause)
    .lateAdmission "request arrived on or after its original deadline"
  require (candidate.point.synchronizations.length ≤ m.syncCapacity)
    .capacity "time point exceeds synchronization queue capacity"
  let space : Bool :=
    m.timing.length < m.profile.timingCapacity ∧
    candidate.point.synchronizations.length ≤ wrapSub m.syncCapacity m.syncSize ∧
    ∀ q ∈ m.events.zipIdx,
      q.1.length + candidate.events.countP (·.action.port = q.2) ≤ m.profile.timing.eventCapacity
  pure (if space then some due else none)

/-! ## Commits -/

/-- The unit after its head point has been triggered. -/
def popHead (m : TcuCycleModel) (head : Point) (rest : List Point) : TcuCycleModel :=
  { m with
    triggeredPolicy := policyAfter head.point m.triggeredPolicy
    syncSize := wrapSub m.syncSize head.point.synchronizations.length
    events := m.events.map (·.dropWhile (·.label = head.point.label))
    timing := rest }

/-- Remove the triggered point and its events. -/
def commitTrigger (now epoch cycle : ℕ) (trigger : Trigger) : Sim TcuCycleModel Unit := do
  let m ← Proc.get
  match m.timing with
  | [] => pure ()
  | head :: rest => do
      Proc.set { m with triggeredPolicy := policyAfter head.point m.triggeredPolicy }
      (if head.point.underflowPolicy = .pauseWhenEmpty then
        Proc.emit { tick := now, epoch, kind := .waitZeroExecuted, label := head.point.label, cycle }
      else pure ())
      Proc.set (m.popHead head rest)
      Proc.emit
        { tick := now, epoch, kind := .timingPointTriggered, label := head.point.label, cycle }
      Proc.emitAll <| trigger.cancelled.map fun event =>
        { tick := now, epoch, kind := .conditionCancelled, id := event.id
          label := head.point.label, cycle, port := event.action.port
          operation := event.action.operation, targets := event.action.targets }

/-- The unit after a candidate has been queued with its due cycle. -/
def enqueue (m : TcuCycleModel) (admission : Admission) : TcuCycleModel :=
  let candidate := admission.request
  { m with
    admittedPolicy := policyAfter candidate.point m.admittedPolicy
    syncSize := m.syncSize + candidate.point.synchronizations.length
    timing := m.timing ++ [⟨candidate.point, admission.due⟩]
    events := candidate.events.foldl
      (fun queues e => queues.modify e.action.port (· ++ [e])) m.events
    lastLabel := candidate.point.label
    lastDue := admission.due }

/-- Queue an admitted candidate. -/
def commitAdmission (now epoch cycle : ℕ) (admission : Admission) :
    Sim TcuCycleModel Unit := do
  Proc.modify (·.enqueue admission)
  let m ← Proc.get
  Proc.emit
    { tick := now, epoch, kind := .timingPointEnqueued, label := m.lastLabel, cycle
      value := m.timing.length }

/-- Make the fast results visible to later edges; yields what is to be credited. -/
def commitFastResults (now epoch cycle : ℕ) (results : List Completion)
    (nextFlags : ExecutionFlags) : Sim TcuCycleModel (List MeasurementReference) := do
  Proc.modify fun m => { m with executionFlags := nextFlags }
  let current := results.filter (·.reference.epoch = epoch)
  Proc.emitAll <| current.map fun result =>
    { tick := now, epoch, kind := .executionFlagsUpdated, id := result.reference.measurement, cycle
      targets := [result.reference.target], value := result.value.toNat }
  pure (current.map (·.reference))

def updatePauseState (now epoch : ℕ) (state : TimingState) (pausedTicks : ℕ) :
    Sim TcuCycleModel Unit := do
  let m ← Proc.get
  (if state.pause.paused ≠ m.pause.paused then
    Proc.emit
      { tick := now, epoch, cycle := state.cycle
        kind := if state.pause.paused then .timerPaused else .timerResumed
        detail :=
          if state.pause.synchronization && state.pause.instructionSupply then
            "synchronization and instruction supply"
          else if state.pause.synchronization then "synchronization"
          else if state.pause.instructionSupply then "instruction supply" else "" }
  else pure ())
  Proc.modify fun m => { m with pause := state.pause, pausedTicks }

/-! ## Operations -/

/-- One edge of the unit's clock. -/
def step (now epoch : ℕ) (candidate : Option TimingEvents) (results : List Completion)
    (preflight : TriggeredEvents → Except Fault Unit) (synchronizationPaused : Bool)
    (syncPreflight : Option (List ℕ → Sim χ Unit)) : Sim (TcuCycleModel × χ) TcuOutput := do
  let m := (← Proc.get).1
  require (m.profile.clock.edge now) .protocol "TCU invoked off-edge"
  let state := m.currentTimingState now synchronizationPaused
  let trigger ← Proc.onSnd (m.prepareTrigger now epoch state preflight syncPreflight)
  let due ← (match candidate with
    | some c => m.prepareAdmission now epoch c state.pause
    | none => pure none : Except Fault (Option ℕ))
  let nextFlags ← m.executionFlags.commitAll results epoch
  let nextPausedTicks ← (if state.pause.paused then
      checkedAdd m.pausedTicks m.profile.clock.period else pure m.pausedTicks : Except Fault ℕ)
  Proc.onFst (Proc.forSome trigger (commitTrigger now epoch state.cycle))
  Proc.onFst (Proc.forSome (candidate.bind fun c => due.map (⟨c, ·⟩)) fun (a : Admission) =>
    commitAdmission now epoch state.cycle a)
  let fastDelivered ← Proc.onFst (commitFastResults now epoch state.cycle results nextFlags)
  Proc.onFst (updatePauseState now epoch state nextPausedTicks)
  pure
    { admitted := due.isSome
      launch := trigger.map (·.batch)
      fastDelivered
      synchronizations := (trigger.map (·.synchronizations)).getD [] }

end Callbacks

/-- End the stream of timing points. -/
def close (terminal : EndOfStream) : Sim TcuCycleModel Unit := do
  let m ← Proc.get
  require (m.closed = false ∧ terminal.lastLabel = m.lastLabel)
    .protocol "invalid or repeated stream closure"
  Proc.set { m with closed := true }

def drained (m : TcuCycleModel) : Bool :=
  m.closed && m.timing.isEmpty && m.events.all (·.isEmpty)

/-- The unit with everything cleared that a reset clears before it moves the start. -/
def cleared (m : TcuCycleModel) : TcuCycleModel :=
  { m with
    timing := []
    events := m.events.map fun _ => []
    executionFlags := m.executionFlags.reset
    lastDue := 0
    lastLabel := 0
    closed := false
    admittedPolicy := .strict
    triggeredPolicy := .strict
    pause := {}
    pausedTicks := 0
    syncSize := 0 }

/-- Start a new session whose first cycle is the first edge at or after the proposed start. -/
def reset (epochOrigin : ℕ) : Sim TcuCycleModel Unit := do
  Proc.modify cleared
  let m ← Proc.get
  let proposed ← checkedAdd epochOrigin m.profile.start
  let start ← (if m.profile.clock.edge proposed then pure proposed
    else m.profile.clock.after proposed)
  Proc.modify fun m => { m with start }

end TcuCycleModel
end Qsbit

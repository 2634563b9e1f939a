import Qsbit.Backend
import Qsbit.Device.Gates
import Qsbit.Device.Readouts

/-!
# Control electronics

A batch of triggered events is accepted as a whole. Each of its actions starts and
ends on a later tick, and an acquisition has its result ready on a later tick
still; these ticks are the boundaries. The simulator processes a boundary after
everything else that happens on its tick.

## Main definitions

* `Boundary` — what starts, ends and gets ready on one tick.
* `ControlElectronics` — the device; `accept`, `process`, `finalize` and `reset` act on it.
-/
namespace Qsbit
open Std (ExtTreeMap)

structure Boundary where
  starts : List ScheduledEvent := []
  ends : List ℕ := []
  ready : List ℕ := []
  deriving DecidableEq, Repr

structure ControlElectronics (β : Type) where
  profile : DeviceProfile
  backend : BackendExecution β
  reservations : List ScheduledEvent := []
  boundaries : ExtTreeMap ℕ Boundary := ∅
  active : ExtTreeMap ℕ ScheduledEvent := ∅
  readouts : Readouts := {}
  lastTick : ℕ := 0
  processedTick : Option ℕ := none

namespace ControlElectronics
variable {β χ : Type} (backend : QuantumBackend β)

/-- The device as its constructor leaves it: the backend is reset to the first epoch. -/
def make (profile : DeviceProfile) (state : β) (maxBatchOperations : ℕ := 1024) :
    Except Fault (ControlElectronics β) := do
  let x ← BackendExecution.make state maxBatchOperations
  let outcome := BackendExecution.reset backend profile.qubits profile.seed 1 0 x
  outcome.result
  pure { profile, backend := outcome.state }

/-! ## Acceptance -/

def validate (p : DeviceProfile) (action : EventSpec) : Except Fault Unit :=
  match action.spec with
  | .gateOutput value => do
      let gate ← gateAction p value.gate
      backend.validate gate
  | _ => backend.validate action

/-- A gate output carries the gate instead of its own specification. -/
def resolveAction (p : DeviceProfile) (event : OperationEvent) : Except Fault EventSpec :=
  match event.action.spec with
  | .gateOutput value => do
      let gate ← p.gate value.gate
      require (inputOf event ∈ gate.inputs ∧ event.action.duration = gate.duration)
        .gateInputMismatch "unexpected gate output endpoint or duration"
      let action ← gateAction p gate.name
      pure { event.action with spec := action.spec }
  | _ => pure event.action

def resolveEvent (p : DeviceProfile) (batch : TriggeredEvents) (event : OperationEvent) :
    Except Fault ScheduledEvent := do
  require (event.epoch = batch.epoch ∧ event.label = batch.label) .protocol
    "launch event identity mismatch"
  validate backend p event.action
  let start ← checkedAdd batch.fireTick event.action.delay
  let resolved ← resolveAction p event
  let last ← checkedAdd start event.action.duration
  pure { event, start, «end» := last, resolved }

def resolveAll (p : DeviceProfile) (batch : TriggeredEvents) :
    List OperationEvent → Except Fault (List ScheduledEvent)
  | [] => pure []
  | event :: rest => do
      let action ← resolveEvent backend p batch event
      let actions ← resolveAll p batch rest
      pure (action :: actions)

def resolve (d : ControlElectronics β) (batch : TriggeredEvents) :
    Except Fault (List ScheduledEvent) :=
  resolveAll backend d.profile batch batch.events

def prepare (d : ControlElectronics β) (batch : TriggeredEvents) :
    Except Fault (List ScheduledEvent × List Readout) := do
  let actions ← d.resolve backend batch
  ResourceReservations.check d.reservations actions
  let readouts ← d.readouts.prepare actions batch.epoch
  require (∀ processed ∈ d.processedTick, processed < batch.fireTick) .protocol
    "launch arrived after its physical barrier"
  pure (actions, readouts)

def preflight (d : ControlElectronics β) (batch : TriggeredEvents) : Except Fault Unit := do
  let _ ← d.prepare backend batch
  pure ()

/-- Change the boundary of a tick, which is empty when there has been none. -/
def alterBoundary (tick : ℕ) (f : Boundary → Boundary) (m : ExtTreeMap ℕ Boundary) :
    ExtTreeMap ℕ Boundary :=
  m.alter tick fun boundary => some (f (boundary.getD {}))

def scheduleReadout (m : ExtTreeMap ℕ Boundary) (r : Readout) : ExtTreeMap ℕ Boundary :=
  alterBoundary r.ready (fun b => { b with ready := b.ready ++ [r.reference.measurement] }) m

def scheduleAction (m : ExtTreeMap ℕ Boundary) (a : ScheduledEvent) : ExtTreeMap ℕ Boundary :=
  alterBoundary a.end (fun b => { b with ends := b.ends ++ [a.event.id] })
    (alterBoundary a.start (fun b => { b with starts := b.starts ++ [a] }) m)

def codewordTriggered (batch : TriggeredEvents) (a : ScheduledEvent) : TraceEvent :=
  { tick := batch.fireTick, epoch := batch.epoch, kind := .codewordTriggered, id := a.event.id
    label := batch.label, core := a.event.core, port := a.event.action.port
    codeword := a.event.codeword, targets := a.resolved.targets
    operation := a.resolved.operation }

/-- Add the boundaries of each action and record the action. -/
def scheduleAll (batch : TriggeredEvents) : List ScheduledEvent → Sim (ControlElectronics β) Unit
  | [] => pure ()
  | a :: rest => do
      Proc.modify fun d => { d with boundaries := scheduleAction d.boundaries a }
      Proc.emit (codewordTriggered batch a)
      scheduleAll batch rest

@[simp] theorem returns_scheduleAll_iff {batch : TriggeredEvents} {actions : List ScheduledEvent}
    {d d' : ControlElectronics β} {u : Unit} {l : List TraceEvent} :
    (scheduleAll batch actions).Returns d u d' l ↔
      { d with boundaries := actions.foldl scheduleAction d.boundaries } = d' ∧
        actions.map (codewordTriggered batch) = l := by
  induction actions generalizing d l with
  | nil => simp [scheduleAll]
  | cons a rest ih =>
    simp only [scheduleAll, Proc.returns_modify_bind_iff, Proc.returns_emit_bind_iff, ih,
      List.foldl_cons, List.map_cons]
    constructor
    · rintro ⟨l', ⟨hd, rfl⟩, rfl⟩
      exact ⟨hd, rfl⟩
    · rintro ⟨hd, rfl⟩
      exact ⟨_, ⟨hd, rfl⟩, rfl⟩

@[simp] theorem not_raises_scheduleAll {batch : TriggeredEvents} {actions : List ScheduledEvent}
    {d d' : ControlElectronics β} {f : Fault} {l : List TraceEvent} :
    ¬ (scheduleAll batch actions).Raises d f d' l := by
  induction actions generalizing d l with
  | nil => simp [scheduleAll]
  | cons a rest ih => simp [scheduleAll, ih]

def accept (batch : TriggeredEvents) : Sim (ControlElectronics β) Unit := do
  let d ← Proc.get
  let (actions, readouts) ← d.prepare backend batch
  let reservations ← ResourceReservations.reserve d.reservations actions
  Proc.modify fun d => { d with reservations }
  Proc.zoom ControlElectronics.readouts (fun readouts d => { d with readouts })
    (Readouts.insertAll readouts)
  Proc.modify fun d => { d with boundaries := readouts.foldl scheduleReadout d.boundaries }
  scheduleAll batch actions

/-! ## Processing of a boundary -/

/-- What a boundary asks of the backend. -/
structure Plan where
  drives : List BackendActivity
  acquisitions : List BackendActivity
  samples : List MeasurementReference
  gates : List EventSpec
  outputs : List (String × List ScheduledEvent)

def drive (a : ScheduledEvent) : BackendActivity :=
  { id := a.event.id, start := a.start, «end» := a.end, action := a.event.action }

def acquisition (a : ScheduledEvent) : BackendActivity :=
  { id := a.event.id, start := a.start, «end» := a.end, action := a.event.action
    reference := a.event.reference }

/-- The active actions of a kind, in the order of their identities. -/
def activeOf (d : ControlElectronics β) (kind : ActionKind) : List ScheduledEvent :=
  (d.active.toList.map (·.2)).filter (·.event.action.kind = kind)

/-- The measurements of the acquisitions among the actions that end. -/
def samplesOf (d : ControlElectronics β) : List ℕ → Except Fault (List MeasurementReference)
  | [] => pure []
  | id :: rest =>
      match d.active[id]? with
      | none => .error ⟨.protocol, "physical end has no active action"⟩
      | some a => do
          let samples ← samplesOf d rest
          -- An accepted acquisition has a reference.
          pure (if a.event.action.kind = .acquire then a.event.reference.toList ++ samples
            else samples)

def checkStarts (p : DeviceProfile) (epoch : ℕ) (sampled : List ℕ) :
    List ScheduledEvent → Except Fault Unit
  | [] => pure ()
  | a :: rest => do
      require (a.event.epoch = epoch) .protocol "old epoch reached physical boundary"
      validate backend p a.event.action
      require (isGate a.event.action → ∀ target ∈ a.resolved.targets, target ∉ sampled)
        .resourceConflict "sample and gate collide at physical boundary"
      checkStarts p epoch sampled rest

/-- The gates of one qubit among the actions that start. -/
def gatesOf (starts : List ScheduledEvent) : List EventSpec :=
  (starts.filter (·.event.action.kind = .idealGate)).map (·.event.action)

/-- Add an output to those of its gate. -/
def addOutput (outputs : ExtTreeMap String (List ScheduledEvent)) (a : ScheduledEvent) :
    ExtTreeMap String (List ScheduledEvent) :=
  match a.event.action.spec with
  | .gateOutput value => outputs.alter value.gate fun o => some (o.getD [] ++ [a])
  | _ => outputs

/-- The gate outputs among the actions that start, by the name of their gate. -/
def gateOutputs (starts : List ScheduledEvent) : ExtTreeMap String (List ScheduledEvent) :=
  starts.foldl addOutput ∅

/-- The checks that precede the first change of the backend. -/
def plan (d : ControlElectronics β) (boundary : Boundary) (now epoch : ℕ) : Except Fault Plan := do
  let samples ← d.samplesOf boundary.ends
  require ((samples.map (·.target)).Nodup) .resourceConflict
    "duplicate same-tick measurement target"
  checkStarts backend d.profile epoch (samples.map (·.target)) boundary.starts
  let outputs := (gateOutputs boundary.starts).toList
  let paired ← resolveGateOutputs d.profile now outputs
  pure
    { drives := (d.activeOf .pulse).map drive
      acquisitions := (d.activeOf .acquire).map acquisition
      samples, outputs
      gates := gatesOf boundary.starts ++ paired }

def onExecution {α : Type} (x : Sim (BackendExecution β) α) : Sim (ControlElectronics β) α :=
  Proc.zoom ControlElectronics.backend (fun backend d => { d with backend }) x

def onReadouts {α : Type} (x : Sim Readouts α) : Sim (ControlElectronics β) α :=
  Proc.zoom ControlElectronics.readouts (fun readouts d => { d with readouts }) x

/-- Give each measurement its bit. -/
def sampleAll (now epoch : ℕ) :
    List (MeasurementReference × Bool) → Sim (ControlElectronics β) Unit
  | [] => pure ()
  | (reference, value) :: rest => do
      onReadouts (Readouts.sample reference.measurement value)
      let d ← Proc.get
      let readout ← d.readouts.at reference.measurement
      Proc.emit
        { tick := now, epoch, kind := .measurementSampled, id := reference.measurement
          core := readout.core, targets := [reference.target], value := value.toNat }
      sampleAll now epoch rest

def operationEnd (now epoch : ℕ) (a : ScheduledEvent) : TraceEvent :=
  { tick := now, epoch, kind := .operationEnd, id := a.event.id, label := a.event.label
    core := a.event.core, port := a.event.action.port, targets := a.resolved.targets
    operation := a.resolved.operation }

def endAll (now epoch : ℕ) : List ℕ → Sim (ControlElectronics β) Unit
  | [] => pure ()
  | id :: rest => do
      let d ← Proc.get
      match d.active[id]? with
      | none => Proc.check (.error ⟨.protocol, "map::at"⟩)
      | some a => do
          Proc.emit { operationEnd now epoch a with id }
          Proc.set { d with active := d.active.erase id }
          endAll now epoch rest

/-- Record the two-qubit gates that have been applied. -/
def gatesApplied (now epoch : ℕ) :
    List (String × List ScheduledEvent) → Sim (ControlElectronics β) Unit
  | [] => pure ()
  | (name, _) :: rest => do
      let d ← Proc.get
      let gate ← d.profile.gate name
      Proc.emit
        { tick := now, epoch, kind := .gateApplied, operation := gate.operation
          targets := gate.targets, value := gate.duration, detail := name }
      gatesApplied now epoch rest

def operationStart (now epoch : ℕ) (a : ScheduledEvent) : TraceEvent :=
  { tick := now, epoch, kind := .operationStart, id := a.event.id, label := a.event.label
    core := a.event.core, port := a.event.action.port, codeword := a.event.codeword
    targets := a.resolved.targets, operation := a.resolved.operation
    value := wrapSub a.end a.start }

def startAll (now epoch : ℕ) : List ScheduledEvent → Sim (ControlElectronics β) Unit
  | [] => pure ()
  | a :: rest => do
      let d ← Proc.get
      require (a.event.id ∉ d.active) .protocol "physical action started twice"
      Proc.set { d with active := d.active.insert a.event.id a }
      Proc.emit (operationStart now epoch a)
      startAll now epoch rest

/-- Deliver the results that are ready. -/
def deliverAll (now epoch : ℕ) (deliver : Completion → Sim χ Unit) :
    List ℕ → Sim (ControlElectronics β × χ) Unit
  | [] => pure ()
  | id :: rest => do
      let (d, _) ← Proc.get
      let readout ← d.readouts.at id
      let result ← d.readouts.result id
      Proc.onSnd (deliver result)
      Proc.emit
        { tick := now, epoch, kind := .resultReady, id, core := readout.core
          targets := [readout.reference.target], value := result.value.toNat }
      Proc.onFst (onReadouts (Proc.modify (Readouts.erase id)))
      deliverAll now epoch deliver rest

/-- What a boundary does to the device before the results are delivered. -/
def enact (now epoch : ℕ) (boundary : Boundary) (p : Plan) : Sim (ControlElectronics β) Unit := do
  let d ← Proc.get
  (if d.lastTick < now then
    onExecution (BackendExecution.evolve backend d.lastTick now p.drives p.acquisitions)
  else pure ())
  let outcomes ← onExecution (BackendExecution.measure backend now p.samples)
  sampleAll now epoch (p.samples.zip outcomes)
  endAll now epoch boundary.ends
  onExecution (BackendExecution.apply backend now p.gates)
  gatesApplied now epoch p.outputs
  startAll now epoch boundary.starts

/-- The boundary is done: reservations that have ended before it are dropped. -/
def complete (now : ℕ) (d : ControlElectronics β) : ControlElectronics β :=
  { d with
    lastTick := now, processedTick := some now, boundaries := d.boundaries.erase now
    reservations := ResourceReservations.discardBefore now d.reservations }

def process (now epoch : ℕ) (deliver : Completion → Sim χ Unit) :
    Sim (ControlElectronics β × χ) Unit := do
  let (d, _) ← Proc.get
  require (d.lastTick ≤ now ∧ ∀ processed ∈ d.processedTick, processed < now) .protocol
    "physical boundary replay or decreasing time"
  match d.boundaries[now]? with
  | none => pure ()
  | some boundary => do
      let p ← d.plan backend boundary now epoch
      Proc.onFst (enact backend now epoch boundary p)
      deliverAll now epoch deliver boundary.ready
      Proc.onFst (Proc.modify (complete now))

/-! ## The end of a run -/

def nextBoundary (d : ControlElectronics β) : Option ℕ := d.boundaries.minKey?

def drained (d : ControlElectronics β) : Bool :=
  d.boundaries.isEmpty ∧ d.active.isEmpty ∧ d.readouts.pending.isEmpty

def finalize (now : ℕ) : Sim (ControlElectronics β) Unit := do
  let d ← Proc.get
  require d.drained .protocol "cannot finalize pending device work"
  require (d.lastTick ≤ now) .protocol "final state time precedes device time"
  (if d.lastTick < now then onExecution (BackendExecution.evolve backend d.lastTick now [])
  else pure ())
  Proc.modify fun d => { d with lastTick := now }
  onExecution (BackendExecution.flush backend)

def resetAborted (now epoch : ℕ) (a : ScheduledEvent) : TraceEvent :=
  { tick := now, epoch, kind := .resetAborted, id := a.event.id, label := a.event.label }

def reset (now epoch : ℕ) : Sim (ControlElectronics β) Unit := do
  let d ← Proc.get
  Proc.emitAll ((d.reservations.filter (now ≤ ·.end)).map (resetAborted now epoch))
  Proc.modify fun d => { d with boundaries := ∅, active := ∅, readouts := {}, reservations := [] }
  onExecution (BackendExecution.reset backend d.profile.qubits d.profile.seed epoch now)
  Proc.modify fun d => { d with lastTick := now, processedTick := none }

end ControlElectronics
end Qsbit

import Qsbit.Mailbox

/-!
# The timing control of a core's CPU side

`TimingControl` executes the control operations of a program. Codewords and
synchronizations are staged for the current time point; an operation that moves
on in time, reads a result or ends the program first submits the staged point
and completes once the timing control unit has acknowledged it. An operation that
cannot complete yields no result and is issued again, unchanged.

## Main definitions

* `ControlOperation` — the operations a program issues.
* `TimingControl`, `ControlState` — the state, alone and with what it works on.
* `receive`, `enqueue`, `execute` — the steps on a CPU edge.
* `Executes` — what a completed or blocked `execute` has done.
-/
namespace Qsbit

inductive ControlCommand
  | wait (cycles : ℕ)
  | codeword (port codeword : ℕ)
  | fetchMeasurement (qubit : ℕ)
  | halt
  | synchronize (target : ℕ)
  deriving DecidableEq, Repr

/-- Operations that are done with the current point before anything else. -/
def ControlCommand.flushes : ControlCommand → Bool
  | .wait _ | .fetchMeasurement _ | .halt => true
  | .codeword _ _ | .synchronize _ => false

/-- How far an operation moves on in time. -/
def ControlCommand.cycles : ControlCommand → ℕ
  | .wait cycles => cycles
  | _ => 0

structure ControlOperation where
  instruction : ℕ := 0
  command : ControlCommand := .wait 0
  deriving DecidableEq, Repr

structure TimingControl where
  profile : TimingConfig
  pendingEvents : List OperationEvent := []
  pendingSync : List ℕ := []
  enqueueRequest : Option TimingEvents := none
  held : Option ControlOperation := none
  timePoint : ℕ := 0
  lastEnqueuedTime : ℕ := 0
  lastLabel : ℕ := 0
  nextEvent : ℕ := 1
  pendingPoint : Bool := false
  enqueued : Bool := false
  closed : Bool := false
  pendingWaitForNext : Bool := false
  allowSameTime : Bool := false
  deriving DecidableEq, Repr

/-- The timing control with the registers and the links it works on. -/
structure ControlState where
  control : TimingControl
  registers : MeasurementRegisters
  links : ControlLinks

namespace TimingControl

def setControl (f : TimingControl → TimingControl) : Sim ControlState Unit :=
  Proc.modify fun s => { s with control := f s.control }

/-! ## Receiving -/

/-- The outstanding request has been admitted under this label. -/
def acknowledged (c : TimingControl) (label : ℕ) : TimingControl :=
  { c with
    lastLabel := label
    lastEnqueuedTime := c.timePoint
    enqueueRequest := none
    pendingEvents := []
    pendingSync := []
    pendingPoint := false
    enqueued := true }

/-- The acknowledgment of the outstanding request, if it has arrived. -/
def receiveReply (now epoch : ℕ) : Sim ControlState Unit := do
  let s ← Proc.get
  match s.links.replies.peek now with
  | none => pure ()
  | some reply => do
      Proc.set { s with links := { s.links with replies := s.links.replies.taken now } }
      if reply.epoch = epoch then do
        require (∃ r ∈ s.control.enqueueRequest, reply.value.label = r.point.label)
          .protocol "unexpected request acknowledgment"
        setControl (·.acknowledged reply.value.label)
        Proc.emit { tick := now, epoch, kind := .enqueueAcknowledged, label := reply.value.label }
      else pure ()

/-- The measurement results that have arrived. -/
def receiveResults (now epoch : ℕ) : List (Mailbox.Envelope Completion) → Sim ControlState Unit
  | [] => pure ()
  | reply :: rest =>
      if now < reply.eligible then pure () else do
        Proc.modify fun s =>
          { s with links := { s.links with cpuResults := { s.links.cpuResults with entries := rest } } }
        (if reply.epoch ≠ epoch then
          Proc.emit { tick := now, epoch, kind := .staleCompletionDiscarded }
        else do
          let s ← Proc.get
          let registers ← s.registers.deliver reply.value epoch
          Proc.set { s with registers }
          Proc.emit
            { tick := now, epoch, kind := .measurementRegisterUpdated
              id := reply.value.reference.measurement, targets := [reply.value.reference.target]
              value := reply.value.value.toNat })
        receiveResults now epoch rest

/-- The credits for fast deliveries that have arrived. -/
def receiveCredits (now epoch : ℕ) :
    List (Mailbox.Envelope MeasurementReference) → Sim ControlState Unit
  | [] => pure ()
  | credit :: rest =>
      if now < credit.eligible then pure () else do
        Proc.modify fun s =>
          { s with links := { s.links with fastCredits := { s.links.fastCredits with entries := rest } } }
        (if credit.epoch = epoch then do
          let s ← Proc.get
          let registers ← s.registers.acknowledgeFast credit.value epoch
          Proc.set { s with registers }
        else pure ())
        receiveCredits now epoch rest

/-- Take in what has arrived from the timing control unit. -/
def receive (now epoch : ℕ) : Sim ControlState Unit := do
  receiveReply now epoch
  let s ← Proc.get
  receiveResults now epoch s.links.cpuResults.entries
  let s ← Proc.get
  receiveCredits now epoch s.links.fastCredits.entries

/-! ## Submitting the staged point -/

/-- The request for the staged point. -/
def request (c : TimingControl) (epoch : ℕ) : Except Fault TimingEvents := do
  let label ← checkedAdd c.lastLabel 1
  let interval := wrapSub c.timePoint c.lastEnqueuedTime
  let events := c.pendingEvents.map fun e => { e with label }
  pure
    { point :=
        { epoch, label, interval, manifest := events.map (·.id), synchronizations := c.pendingSync
          underflowPolicy :=
            if c.pendingWaitForNext then .pauseWhenEmpty else if 0 < interval then .strict
            else .inherit }
      events
      configuration := c.profile.configuration }

/-- Whether the current point is done with; if it is staged and not yet submitted, submit it. -/
def enqueue (now epoch : ℕ) : Sim ControlState Bool := do
  let s ← Proc.get
  if s.control.enqueueRequest.isSome then pure false
  else if s.control.pendingPoint = false then do
    setControl fun c => { c with enqueued := !c.allowSameTime }
    pure true
  else do
    let request ← s.control.request epoch
    validateTimingEvents request s.control.profile
    require (s.links.timingEvents.full = false) .protocol "enqueue request already pending"
    setControl fun c => { c with enqueueRequest := some request }
    let timingEvents ← s.links.timingEvents.publish now epoch request
    Proc.modify fun s => { s with links := { s.links with timingEvents } }
    Proc.emit
      { tick := now, epoch, kind := .timingPointSubmitted, label := request.point.label
        cycle := s.control.timePoint }
    pure false

/-! ## Operations -/

/-- Stage the point that a `wait 0` submits, unless that has been done. -/
def waitForNext (c : TimingControl) : TimingControl :=
  if c.pendingWaitForNext then c else { c with pendingWaitForNext := true, pendingPoint := true }

def executeZeroWait (now epoch : ℕ) : Sim ControlState (Option ℕ) := do
  setControl waitForNext
  if ← enqueue now epoch then do
    setControl fun c =>
      { c with pendingWaitForNext := false, allowSameTime := true, enqueued := false }
    pure (some 0)
  else pure none

def advanceTime (interval now epoch : ℕ) : Sim ControlState (Option ℕ) := do
  let s ← Proc.get
  let destination ← checkedAdd s.control.timePoint interval
  if ← enqueue now epoch then do
    setControl fun c =>
      { c with timePoint := destination, allowSameTime := false, pendingPoint := true
               enqueued := false }
    pure (some 0)
  else pure none

/-- The checks of a codeword's actions; yields the targets to be measured. -/
def checkActions (profile : TimingConfig) (validate : EventSpec → Except Fault Unit) :
    List EventSpec → Except Fault (List ℕ)
  | [] => pure []
  | a :: rest => do
      validate a
      require (a.executionFlag = .always ∨ profile.fastFeedback)
        .unsupportedCapability "fast feedback is disabled"
      let targets ← checkActions profile validate rest
      pure (if a.kind = .acquire then a.targets.headD 0 :: targets else targets)

/-- The per-port limits on the staged actions and the new ones. -/
def checkPorts (profile : TimingConfig) (ports : List ℕ) : List EventSpec → Except Fault Unit
  | [] => pure ()
  | a :: rest => do
      require (a.port < profile.ports) .protocol "vector index out of range"
      let count := ports.count a.port + 1
      require (count ≤ profile.firingWidth ∧ count ≤ profile.eventCapacity)
        .capacity "cw exceeds per-port event capacity"
      checkPorts profile (a.port :: ports) rest

def codeword (validate : EventSpec → Except Fault Unit) (instruction port word now epoch : ℕ) :
    Sim ControlState (Option ℕ) := do
  let s ← Proc.get
  let c := s.control
  require (c.enqueued = false ∧ c.enqueueRequest = none)
    .protocol "cw requires wait after a submitted time point"
  let map ← c.profile.mapping port word
  let targets ← checkActions c.profile validate map.actions
  let count ← checkedAdd c.pendingEvents.length map.actions.length
  require (count ≤ c.profile.stagingCapacity) .capacity "cw exceeds timing-point event capacity"
  checkPorts c.profile (c.pendingEvents.map (·.action.port)) map.actions
  let nextEvent ← checkedAdd c.nextEvent map.actions.length
  let references ← s.registers.prepareReservation epoch targets
  let events ← decodeCodeword c.profile port word epoch instruction c.nextEvent references
  Proc.zoom ControlState.registers (fun registers s => { s with registers })
    (MeasurementRegisters.commitReservation references)
  setControl fun c =>
    { c with pendingEvents := c.pendingEvents ++ events, pendingPoint := true, nextEvent }
  Proc.emit
    { tick := now, epoch, kind := .codewordQueued, id := instruction, cycle := c.timePoint, port
      codeword := word }
  pure (some 0)

def fetchMeasurement (instruction qubit now epoch : ℕ) : Sim ControlState (Option ℕ) := do
  let s ← Proc.get
  require (qubit < s.control.profile.qubits) .invalidOperand "measurement register is invalid"
  if ← enqueue now epoch then do
    let s ← Proc.get
    match ← s.registers.read qubit with
    | none => pure none
    | some value => do
        Proc.emit
          { tick := now, epoch, kind := .measurementRegisterRead, id := instruction
            targets := [qubit], value := value.toNat }
        pure (some value.toNat)
  else pure none

def halt (now epoch : ℕ) : Sim ControlState (Option ℕ) := do
  if ← enqueue now epoch then do
    let s ← Proc.get
    let closure ← s.links.closure.publish now epoch { lastLabel := s.control.lastLabel }
    Proc.set
      { s with links := { s.links with closure }, control := { s.control with closed := true } }
    pure (some 0)
  else pure none

def synchronize (validateSync : Option (ℕ → Except Fault Unit)) (target : ℕ) :
    Sim ControlState (Option ℕ) := do
  let s ← Proc.get
  require validateSync.isSome .unsupportedSynchronization "sync requires a connected controller"
  require (s.control.enqueued = false ∧ s.control.enqueueRequest = none)
    .protocol "sync requires wait after a submitted time point"
  (match validateSync with
    | some validate => validate target
    | none => pure () : Except Fault Unit)
  require (s.control.pendingSync = []) .invalidOperand "only one sync is allowed at a time point"
  setControl fun c => { c with pendingSync := c.pendingSync ++ [target], pendingPoint := true }
  pure (some 0)

/-- Execute one operation; no result means that it has to be issued again. -/
def execute (validate : EventSpec → Except Fault Unit)
    (validateSync : Option (ℕ → Except Fault Unit)) (operation : ControlOperation)
    (now epoch : ℕ) : Sim ControlState (Option ℕ) := do
  let s ← Proc.get
  require (s.control.closed = false) .protocol "control operation after program exit"
  require (∀ held ∈ s.control.held, held = operation)
    .protocol "blocked instruction changed identity or operands"
  setControl fun c => { c with held := some operation }
  let result ← (match operation.command with
    | .codeword port word => codeword validate operation.instruction port word now epoch
    | .wait cycles => if cycles = 0 then executeZeroWait now epoch else advanceTime cycles now epoch
    | .fetchMeasurement qubit => fetchMeasurement operation.instruction qubit now epoch
    | .halt => halt now epoch
    | .synchronize target => synchronize validateSync target : Sim ControlState (Option ℕ))
  (if result.isSome then setControl fun c => { c with held := none } else pure ())
  pure result

def reset (c : TimingControl) : TimingControl := { profile := c.profile }

end TimingControl
end Qsbit

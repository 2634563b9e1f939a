import Qsbit.Backend
import Qsbit.TraceModel

/-!
# Repeated simulation

A program that repeats a region is run for three rounds, and a backend that is put in
front of the real one writes down the operations of the run. The recorded calls are cut
into the rounds of the program. Any number of rounds is then replayed on the real backend
without the program: the first round as it has been, the second one again and again.

Python's numbers are integers. An exception of Python is the fault that the simulator
makes of it. The results leave out the quotients of the counts and the hash of the bits.

## Main definitions

* `Operation`, `Call` — an operation as a Python backend is given it, and as it is recorded.
* `PythonBackend` — the interface of a Python backend; `RecordingBackend` is one.
* `normalized`, `partition`, `checkPeriodic` — the calls of a round up to time, the rounds, and
  the check that they repeat.
* `replayDirect` — the replay; it logs the batches that it sends to the backend.
-/
namespace Qsbit
namespace Replay
open TraceModel (Record)

/-! ## Operations -/

inductive EventKind
  | gate | pulse | acquire | arm
  deriving DecidableEq, Repr

/-- An action. What an action of its kind does not have is absent. -/
structure Descriptor where
  kind : EventKind
  operation : String
  targets : List ℕ
  amplitude : Option Double := none
  axis : Option String := none
  port : Option ℕ := none
  deriving BEq, Repr

/-- An action with its interval. -/
structure Interval extends Descriptor where
  start : ℤ
  «end» : ℤ
  deriving BEq, Repr

/-- A drive or an acquisition. -/
structure Activity extends Interval where
  id : ℕ
  measurement : Option ℕ := none
  deriving BEq, Repr

/-- An operation on activities and references. -/
inductive Operation (α ρ : Type)
  | evolve (start tick : ℤ) (drives acquisitions : List α)
  | apply (tick : ℤ) (gates : List Descriptor)
  | measure (tick : ℤ) (references : List ρ)
  deriving BEq, Repr

namespace Operation
variable {α ρ : Type}

/-- When the operation ends. -/
def tick : Operation α ρ → ℤ
  | evolve _ tick _ _ => tick
  | apply tick _ => tick
  | measure tick _ => tick

def isMeasure : Operation α ρ → Bool
  | measure _ _ => true
  | _ => false

def references : Operation α ρ → List ρ
  | measure _ references => references
  | _ => []

def acquisitions : Operation α ρ → List α
  | evolve _ _ _ acquisitions => acquisitions
  | _ => []

/-- The operation is an evolution without drives. -/
def undriven : Operation α ρ → Bool
  | evolve _ _ drives _ => drives.isEmpty
  | _ => false

end Operation

/-- An operation that a backend is given. -/
abbrev Request : Type := Operation Activity MeasurementReference

def descriptor (a : EventSpec) : Descriptor :=
  match a.spec with
  | .gate value =>
      { kind := .gate, operation := a.operation, targets := a.targets
        amplitude := some value.amplitude }
  | .pulse value =>
      { kind := .pulse, operation := a.operation, targets := a.targets
        amplitude := some value.amplitude, axis := some value.axis, port := some a.port }
  | .acquire _ => { kind := .acquire, operation := a.operation, targets := a.targets }
  | .discriminatorArm _ => { kind := .arm, operation := a.operation, targets := a.targets }
  | .gateOutput _ => { kind := .gate, operation := a.operation, targets := a.targets }

def activity (x : BackendActivity) : Activity :=
  { descriptor x.action with
    port := some x.action.port, start := x.start, «end» := x.end, id := x.id
    measurement := x.reference.map (·.measurement) }

/-- The simulator's operation as a backend of Python is given it. -/
def request : BackendOperation → Request
  | .evolution start tick drives acquisitions =>
      .evolve start tick (drives.map activity) (acquisitions.map activity)
  | .gates tick gates => .apply tick (gates.map descriptor)
  | .measurement tick references => .measure tick references

/-! ## Backends -/

/-- What a Python backend does on its own state `β`. -/
structure PythonBackend (β : Type) where
  validate : Descriptor → Except Fault Unit
  reset : (qubits seed : ℕ) → Proc Fault Empty β Unit
  execute : (epoch : ℕ) → List Request → Proc Fault Empty β (List Bool)
  state : β → List (Double × Double)
  densityMatrix : β → List (List (Double × Double))

/-- The Python backend as the simulator uses it. -/
def PythonBackend.adapter {β : Type} (python : PythonBackend β) : QuantumBackend β where
  validate action :=
    match python.validate (descriptor action) with
    | .ok u => .ok u
    | .error e => .error ⟨.unsupportedCapability, e.message⟩
  reset := python.reset
  execute epoch operations := python.execute epoch (operations.map request)
  state := python.state
  densityMatrix := python.densityMatrix

/-- An operation as it is recorded, with the number of its batch; a measurement has its bits. -/
structure Call where
  operation : Request
  batch : ℕ
  bits : Option (List Bool) := none

structure RecordingBackend (β : Type) where
  backend : β
  calls : List Call := []
  batches : ℕ := 0

namespace RecordingBackend
variable {β : Type}

def record (batch : ℕ) (bits : List Bool) (operation : Request) : Call :=
  { operation, batch, bits := if operation.isMeasure then some bits else none }

def onBackend {α : Type} (x : Proc Fault Empty β α) : Proc Fault Empty (RecordingBackend β) α :=
  Proc.zoom RecordingBackend.backend (fun backend r => { r with backend }) x

def reset (python : PythonBackend β) (qubits seed : ℕ) :
    Proc Fault Empty (RecordingBackend β) Unit := do
  let r ← Proc.get
  require r.calls.isEmpty .backendFailure "recording does not support session resets"
  onBackend (python.reset qubits seed)

/-- Record a batch. The bits are those of the backend, unless an outcome is given. -/
def execute (python : PythonBackend β) (outcome : Option Bool) (epoch : ℕ)
    (operations : List Request) : Proc Fault Empty (RecordingBackend β) (List Bool) := do
  let last ← (match operations.getLast? with
    | some last => pure last
    | none => .error ⟨.backendFailure, "list index out of range"⟩ : Except Fault Request)
  let bits ← (match outcome with
    | none => onBackend (python.execute epoch operations)
    | some outcome => pure (List.replicate last.references.length outcome))
  Proc.modify fun r =>
    { r with calls := r.calls ++ operations.map (record r.batches bits), batches := r.batches + 1 }
  pure bits

/-- A backend that records what it is given. -/
def make (python : PythonBackend β) (outcome : Option Bool) : PythonBackend (RecordingBackend β) where
  validate := python.validate
  reset := reset python
  execute := execute python outcome
  state r := if outcome.isNone then python.state r.backend else []
  densityMatrix r := if outcome.isNone then python.densityMatrix r.backend else []

end RecordingBackend

/-! ## Rounds -/

/-- The interval at another time. -/
def Interval.shift (x : Interval) (d : ℤ) : Interval :=
  { x with start := x.start + d, «end» := x.end + d }

/-- The operation, earlier by a shift and without its identities. -/
def Operation.normalized (shift : ℤ) : Request → Operation Interval ℕ
  | .evolve start tick drives acquisitions =>
      .evolve (start - shift) (tick - shift) (drives.map fun x => x.toInterval.shift (-shift))
        (acquisitions.map fun x => x.toInterval.shift (-shift))
  | .apply tick gates => .apply (tick - shift) gates
  | .measure tick references => .measure (tick - shift) (references.map (·.target))

def normalized (calls : List Call) (shift : ℤ := 0) : List (Operation Interval ℕ) :=
  calls.map fun call => call.operation.normalized shift

/-- Where a tick is to be inserted in increasing ticks: before those that are not less. -/
def bisectLeft (ticks : List ℤ) (tick : ℤ) : ℕ := (ticks.takeWhile (· < tick)).length

/-- The tick of a record that the last instruction of the region has retired. -/
def retirement (pc : BitVec 32) : Record → Option ℤ
  | .cpu tick _ _ (.instructionRetired _ _ state) => if state.pc = pc then some tick else none
  | _ => none

/-- The trace ends with the completion of the simulation on the tick. -/
def completesAt (trace : List Record) (tick : ℤ) : Bool :=
  match trace.getLast? with
  | some (.event e) => e.kind = .simulationCompleted ∧ tick = e.tick
  | _ => false

/-- Put the calls into their groups. What is after the last group is the final idle interval. -/
def assign (ends : List ℤ) (trace : List Record) :
    List Call → List (List Call) → Option Call → Except Fault (List (List Call) × Option Call)
  | [], groups, finalIdle => pure (groups, finalIdle)
  | call :: rest, groups, finalIdle => do
      let index := bisectLeft ends call.operation.tick
      if index = ends.length then do
        require (rest.isEmpty ∧ call.operation.undriven ∧ completesAt trace call.operation.tick)
          .backendFailure "device work remains after repeat-region end"
        assign ends trace rest groups (some call)
      else assign ends trace rest (groups.modify index (· ++ [call])) finalIdle

/-- Every operation of the device ends in the round in which it starts. -/
def checkStarts (ends : List ℤ) : List Record → Except Fault Unit
  | [] => pure ()
  | .event e :: rest => do
      (if e.kind = .operationStart then
        let index := bisectLeft ends e.tick
        require (∃ last ∈ ends[index]?, (e.tick : ℤ) + e.value ≤ last) .backendFailure
          "operation crosses the repeat-region boundary"
      else pure ())
      checkStarts ends rest
  | .cpu _ _ _ _ :: rest => checkStarts ends rest

/-- The calls of each round and the final idle interval. The region ends at the address. -/
def partition (calls : List Call) (trace : List Record) (regionEnd : BitVec 32) (rounds : ℕ) :
    Except Fault (List (List Call) × Option Call) := do
  let ends := trace.filterMap (retirement regionEnd)
  require (ends.length = rounds) .backendFailure
    "executed repetition count differs from configuration"
  let (groups, finalIdle) ← assign ends trace calls (List.replicate ends.length []) none
  checkStarts ends trace
  require (groups.all (!·.isEmpty)) .backendFailure "empty repeat region"
  pure (groups, finalIdle)

def groupAt (groups : List (List Call)) (index : ℕ) : Except Fault (List Call) :=
  match groups[index]? with
  | some group => pure group
  | none => .error ⟨.backendFailure, "list index out of range"⟩

/-- The second and the third round are the same, a period apart. -/
def checkPeriodic (groups : List (List Call)) (period : ℤ) : Except Fault Unit := do
  let steady ← groupAt groups 1
  let next ← groupAt groups 2
  require (normalized steady period == normalized next (2 * period)) .backendFailure
    "quantum operation sequence is not periodic"

/-! ## Replay -/

/-- Number the references, after those that have been numbered. -/
def identify (references : List MeasurementReference) (identity : ℕ)
    (identities : List (ℕ × ℕ)) : ℕ × List (ℕ × ℕ) :=
  references.foldl (fun x r => (x.1 + 1, (r.measurement, x.1 + 1) :: x.2)) (identity, identities)

/-- Number the references of the measurements of a round. -/
def identifyAll : List Call → ℕ → List (ℕ × ℕ) → ℕ × List (ℕ × ℕ)
  | [], identity, identities => (identity, identities)
  | call :: rest, identity, identities =>
      let x := identify call.operation.references identity identities
      identifyAll rest x.1 x.2

def identityOf (identities : List (ℕ × ℕ)) (measurement : Option ℕ) : Except Fault ℕ :=
  match measurement with
  | none => .error ⟨.backendFailure, "'measurement'"⟩
  | some measurement =>
      match identities.lookup measurement with
      | some identity => pure identity
      | none => .error ⟨.backendFailure, toString measurement⟩

def renameActivity (identities : List (ℕ × ℕ)) (shift : ℤ) (x : Activity) :
    Except Fault Activity :=
  let x := { x with start := x.start + shift, «end» := x.end + shift }
  if x.kind = .acquire then do
    let identity ← identityOf identities x.measurement
    pure { x with measurement := some identity }
  else pure x

def renameReference (identities : List (ℕ × ℕ)) (r : MeasurementReference) :
    Except Fault MeasurementReference := do
  let identity ← identityOf identities (some r.measurement)
  pure { r with epoch := 1, measurement := identity }

/-- The recorded operation at another time, with the identities of the iteration. -/
def rename (identities : List (ℕ × ℕ)) (shift : ℤ) : Request → Except Fault Request
  | .evolve start tick drives acquisitions => do
      let drives ← drives.mapM (renameActivity identities shift)
      let acquisitions ← acquisitions.mapM (renameActivity identities shift)
      pure (.evolve (start + shift) (tick + shift) drives acquisitions)
  | .apply tick gates => pure (.apply (tick + shift) gates)
  | .measure tick references => do
      let references ← references.mapM (renameReference identities)
      pure (.measure (tick + shift) references)

/-- How many bits are expected of a batch: those of its last measurement. -/
def expectedResults (operations : List Request) : ℕ :=
  operations.foldl (fun expected operation =>
    if operation.isMeasure then operation.references.length else expected) 0

/-- A batch carries no time. -/
instance : Stamped (List Request) where
  stamp _ := none

/-- A procedure on the state of a backend that logs the batches it sends to the backend. -/
abbrev Replayer (β α : Type) : Type := Proc Fault (List Request) β α

section Replayer
variable {β : Type} (python : PythonBackend β)

def send (operations : List Request) : Replayer β (List Bool) := do
  Proc.emit operations
  (python.execute 1 operations).silent

/-- Send what is recorded of a batch. -/
def replayBatch (identities : List (ℕ × ℕ)) (shift : ℤ) (recorded : List Call) :
    Replayer β (List Bool) := do
  let operations ← (recorded.mapM fun call => rename identities shift call.operation :
    Except Fault (List Request))
  let value ← send python operations
  require (value.length = expectedResults operations) .backendFailure
    "backend returned the wrong measurement count"
  pure value

def replayBatches (identities : List (ℕ × ℕ)) (shift : ℤ) :
    List (List Call) → Replayer β (List Bool)
  | [] => pure []
  | recorded :: rest => do
      let value ← replayBatch python identities shift recorded
      let bits ← replayBatches identities shift rest
      pure (value ++ bits)

/-- What has been measured in the iterations so far. -/
structure Progress where
  identity : ℕ := 0
  counts : Option (List ℕ) := none
  hashed : List Bool := []

/-- Add the bits of an iteration to the counts. -/
def Progress.add (p : Progress) (identity : ℕ) (bits : List Bool) : Progress :=
  { identity
    counts := match p.counts with
      | none => some (bits.map (·.toNat))
      | some counts => some (List.zipWith (fun c b => c + b.toNat) counts bits)
    hashed := p.hashed ++ bits }

def replayIteration (groups : List (List Call)) (period : ℤ) (iteration : ℕ) (p : Progress) :
    Replayer β Progress := do
  let group ← groupAt groups (if iteration = 0 then 0 else 1)
  let shift := if iteration = 0 then 0 else ((iteration : ℤ) - 1) * period
  let (identity, identities) := identifyAll group p.identity []
  let bits ← replayBatches python identities shift
    (group.splitBy fun call next => call.batch == next.batch)
  pure (p.add identity bits)

/-- The iterations in a list, in order. -/
def replayAll (groups : List (List Call)) (period : ℤ) :
    List ℕ → Progress → Replayer β Progress
  | [], p => pure p
  | iteration :: rest, p => do
      let p ← replayIteration python groups period iteration p
      replayAll groups period rest p

/-- The interval after the last iteration, with its drives. -/
def replayIdle (shift : ℤ) : Request → Replayer β Unit
  | .evolve start tick drives _ => do
      let _ ← send python [.evolve (start + shift) (tick + shift) drives []]
      pure ()
  | _ => Proc.check (.error ⟨.backendFailure, "'start'"⟩)

/-- The counts of the ones and the bits that are hashed. -/
structure Result where
  counts : List ℕ
  hashed : List Bool
  deriving DecidableEq, Repr

def replayDirect (qubits seed : ℕ) (groups : List (List Call)) (period : ℤ) (repetitions : ℕ)
    (finalIdle : Option Call) : Replayer β Result := do
  (python.reset qubits seed).silent
  let p ← replayAll python groups period (List.range repetitions) {}
  Proc.forSome finalIdle fun call =>
    replayIdle python (((repetitions : ℤ) - groups.length) * period) call.operation
  match p.counts with
  | none => Proc.check (.error ⟨.backendFailure, "'NoneType' object is not iterable"⟩)
  | some counts => pure { counts, hashed := p.hashed }

end Replayer
end Replay
end Qsbit

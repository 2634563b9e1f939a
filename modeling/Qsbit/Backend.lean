import Qsbit.ControlProtocol
import Qsbit.Trace

/-!
# Quantum backends and batch execution

A backend executes time-ordered operations on the quantum state. It is code the
simulator does not fix, so it is a parameter: any state with a `QuantumBackend`
over it. `BackendExecution` collects operations and hands them over in batches.

## Main definitions

* `QuantumBackend` — the interface of a backend.
* `BackendOperation` — one record of a batch.
* `BackendExecution` — the operations on it are `reset`, `evolve`, `apply`, `measure`, `flush`.
-/
namespace Qsbit

/-- A drive or an acquisition with its full interval. -/
structure BackendActivity where
  id : ℕ
  start : ℕ
  «end» : ℕ
  action : EventSpec
  reference : Option MeasurementReference := none
  deriving DecidableEq, Repr

inductive BackendOperation
  | evolution (start tick : ℕ) (drives acquisitions : List BackendActivity)
  | gates (tick : ℕ) (gates : List EventSpec)
  | measurement (tick : ℕ) (references : List MeasurementReference)
  deriving DecidableEq, Repr

namespace BackendOperation

/-- When the operation ends. -/
def tick : BackendOperation → ℕ
  | evolution _ tick _ _ => tick
  | gates tick _ => tick
  | measurement tick _ => tick

/-- When the operation starts. -/
def start : BackendOperation → ℕ
  | evolution start _ _ _ => start
  | gates tick _ => tick
  | measurement tick _ => tick

def isMeasurement : BackendOperation → Bool
  | measurement _ _ => true
  | _ => false

end BackendOperation

/-- What a backend does on its own state `β`, of which it logs nothing. -/
structure QuantumBackend (β : Type) where
  validate : EventSpec → Except Fault Unit
  reset : (qubits seed : ℕ) → Proc Fault Empty β Unit
  execute : (epoch : ℕ) → List BackendOperation → Proc Fault Empty β (List Bool)
  state : β → List (Double × Double)
  densityMatrix : β → List (List (Double × Double))

structure BackendExecution (β : Type) where
  backend : β
  maxBatchOperations : ℕ := 1024
  pending : List BackendOperation := []
  epoch : ℕ := 0
  committedTick : ℕ := 0

namespace BackendExecution
variable {β : Type} (backend : QuantumBackend β)

def make (state : β) (maxBatchOperations : ℕ := 1024) : Except Fault (BackendExecution β) := do
  require (0 < maxBatchOperations) .invalidProfile
    "backend_execution.max_batch_operations must be positive"
  pure { backend := state, maxBatchOperations }

/-- Run a procedure of the backend on its state. -/
def onBackend {α : Type} (x : Proc Fault Empty β α) : Sim (BackendExecution β) α :=
  Proc.zoom BackendExecution.backend (fun backend x => { x with backend }) x.silent

def reset (qubits seed epoch : ℕ) (now : ℕ := 0) : Sim (BackendExecution β) Unit := do
  Proc.modify fun x => { x with pending := [], epoch, committedTick := now }
  onBackend (backend.reset qubits seed)

def clear : Sim (BackendExecution β) Unit := Proc.modify fun x => { x with pending := [] }

/-- The fault of a batch, which names its epoch and its ticks. -/
def batchFault (epoch : ℕ) (batch : List BackendOperation) (error : Fault) : Fault :=
  ⟨.backendFailure, "backend batch epoch " ++ toString epoch ++ " ticks " ++
    toString ((batch.head?.map (·.start)).getD 0) ++ ".." ++
    toString ((batch.getLast?.map (·.tick)).getD 0) ++ ": " ++ error.message⟩

/-- Hand the pending operations to the backend. They are dropped also when it fails. -/
def execute (expected : ℕ) : Sim (BackendExecution β) (List Bool) := do
  let x ← Proc.get
  if x.pending = [] then pure [] else
    Proc.handle
      (do
        let results ← onBackend (backend.execute x.epoch x.pending)
        require (results.length = expected) .backendFailure
          "backend returned wrong measurement count"
        clear
        pure results)
      fun error => do
        clear
        Proc.check (.error (batchFault x.epoch x.pending error))

def flush : Sim (BackendExecution β) Unit := do
  let _ ← execute backend 0
  pure ()

def commit (operation : BackendOperation) : Sim (BackendExecution β) Unit := do
  let x ← Proc.get
  require (x.committedTick ≤ operation.tick) .protocol "backend time decreased"
  Proc.modify fun x =>
    { x with committedTick := operation.tick, pending := x.pending ++ [operation] }
  let x ← Proc.get
  if x.pending.length = x.maxBatchOperations then flush backend else pure ()

def evolve (start tick : ℕ) (drives : List BackendActivity)
    (acquisitions : List BackendActivity := []) : Sim (BackendExecution β) Unit := do
  let x ← Proc.get
  require (start = x.committedTick ∧ start ≤ tick) .protocol
    "backend evolution must cover the next time interval"
  if start < tick then commit backend (.evolution start tick drives acquisitions) else pure ()

/-- Every gate is one that the backend supports. -/
def validateAll : List EventSpec → Except Fault Unit
  | [] => pure ()
  | gate :: rest => do
      backend.validate gate
      validateAll rest

def apply (now : ℕ) (gates : List EventSpec) : Sim (BackendExecution β) Unit := do
  validateAll backend gates
  if gates = [] then pure () else commit backend (.gates now gates)

def measure (now : ℕ) (references : List MeasurementReference) :
    Sim (BackendExecution β) (List Bool) := do
  let x ← Proc.get
  if references = [] then pure [] else do
    require (x.committedTick ≤ now) .protocol "backend measurement time decreased"
    require ((∀ r ∈ references, r.epoch = x.epoch) ∧ (references.map (·.target)).Nodup) .protocol
      "invalid measurement epoch or duplicate target"
    Proc.modify fun x =>
      { x with committedTick := now, pending := x.pending ++ [.measurement now references] }
    execute backend references.length

def state : Sim (BackendExecution β) (List (Double × Double)) := do
  flush backend
  let x ← Proc.get
  pure (backend.state x.backend)

def densityMatrix : Sim (BackendExecution β) (List (List (Double × Double))) := do
  flush backend
  let x ← Proc.get
  pure (backend.densityMatrix x.backend)

/-! The operations log nothing. -/

section Quiet
variable {backend : QuantumBackend β}

theorem quiet_reset {qubits seed epoch now : ℕ} : (reset backend qubits seed epoch now).Quiet :=
  .bind (.modify _) fun _ => .zoom (.silent _)

theorem quiet_clear : (clear (β := β)).Quiet := .modify _

theorem quiet_execute {expected : ℕ} : (execute backend expected).Quiet := by
  apply Proc.Quiet.get_bind
  intro x
  split
  · exact .pure []
  · apply Proc.Quiet.handle
    · exact .bind (.zoom (.silent _)) fun _ =>
        .bind (.check _) fun _ => .bind quiet_clear fun _ => .pure _
    · exact fun _ => .bind quiet_clear fun _ => .check _

theorem quiet_flush : (flush backend).Quiet := .bind quiet_execute fun _ => .pure ()

theorem quiet_commit {operation : BackendOperation} : (commit backend operation).Quiet := by
  refine .get_bind fun x => .bind (.check _) fun _ => .bind (.modify _) fun _ =>
    .get_bind fun y => ?_
  split
  · exact quiet_flush
  · exact .pure ()

theorem quiet_evolve {start tick : ℕ} {drives acquisitions : List BackendActivity} :
    (evolve backend start tick drives acquisitions).Quiet := by
  refine .get_bind fun x => .bind (.check _) fun _ => ?_
  split
  · exact quiet_commit
  · exact .pure ()

theorem quiet_apply {now : ℕ} {gates : List EventSpec} : (apply backend now gates).Quiet := by
  refine .bind (.check _) fun _ => ?_
  split
  · exact .pure ()
  · exact quiet_commit

theorem quiet_measure {now : ℕ} {references : List MeasurementReference} :
    (measure backend now references).Quiet := by
  apply Proc.Quiet.get_bind
  intro x
  split
  · exact .pure []
  · exact .bind (.check _) fun _ => .bind (.check _) fun _ => .bind (.modify _) fun _ =>
      quiet_execute

end Quiet
end BackendExecution
end Qsbit

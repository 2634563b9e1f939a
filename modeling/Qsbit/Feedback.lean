import Qsbit.Trace
import Std.Data.ExtTreeMap

/-!
# Measurement registers and execution flags

`MeasurementRegisters` hands out measurement identities and holds the results
delivered to the CPU side. `ExecutionFlags` holds the two latest results of each
target for the conditions evaluated by the TCU.
-/
namespace Qsbit

open Std (ExtTreeMap)

structure FeedbackConfig where
  qubits : ℕ
  resultCapacity : ℕ
  fastFeedback : Bool
  deriving DecidableEq, Repr

namespace MeasurementRegisters

structure Register where
  pending : ℕ := 0
  value : Bool := false
  deriving DecidableEq, Repr

end MeasurementRegisters

structure MeasurementRegisters where
  config : FeedbackConfig
  registers : List MeasurementRegisters.Register
  pending : ExtTreeMap ℕ MeasurementReference := ∅
  fastPending : ExtTreeMap ℕ MeasurementReference := ∅
  nextMeasurement : ℕ := 1

namespace MeasurementRegisters

def make (config : FeedbackConfig) : MeasurementRegisters :=
  { config, registers := List.replicate config.qubits {} }

/-- Whether `count` more results fit both delivery paths. -/
def hasCapacity (m : MeasurementRegisters) (count : ℕ) : Bool :=
  count ≤ wrapSub m.config.resultCapacity m.pending.size ∧
    (m.config.fastFeedback → count ≤ wrapSub m.config.resultCapacity m.fastPending.size)

/-- References for the targets from position `made` of a reservation on. -/
def referencesFor (m : MeasurementRegisters) (epoch : ℕ) (targets : List ℕ) (made : ℕ) :
    List ℕ → Except Fault (List MeasurementReference)
  | [] => pure []
  | target :: rest => do
      require (target < m.registers.length) .invalidOperand "measurement target is invalid"
      require (targets.count target ≤ 2 ^ 32 - 1 - (m.registers[target]?.getD {}).pending)
        .timeOverflow "pending measurement count overflow"
      let measurement ← checkedAdd m.nextMeasurement made
      let references ← m.referencesFor epoch targets (made + 1) rest
      pure ({ epoch, measurement, target } :: references)

def prepareReservation (m : MeasurementRegisters) (epoch : ℕ) (targets : List ℕ) :
    Except Fault (List MeasurementReference) := do
  require (m.hasCapacity targets.length) .capacity "measurement delivery capacity exhausted"
  let _ ← checkedAdd m.nextMeasurement targets.length
  m.referencesFor epoch targets 0 targets

/-- One more delivery is due to each of the targets. -/
def countPending (registers : List Register) (targets : List ℕ) : List Register :=
  targets.foldl (fun rs t => rs.modify t fun r => { r with pending := r.pending + 1 }) registers

/-- Add references under their identities; an identity already present keeps its entry. -/
def emplaceAll (entries : ExtTreeMap ℕ MeasurementReference)
    (references : List MeasurementReference) : ExtTreeMap ℕ MeasurementReference :=
  references.foldl (fun es r => es.insertIfNew r.measurement r) entries

def commitReservation (references : List MeasurementReference) :
    Sim MeasurementRegisters Unit := do
  match references with
  | [] => pure ()
  | first :: _ => do
      let m ← Proc.get
      let targets := references.map (·.target)
      let expected ← m.prepareReservation first.epoch targets
      require (expected = references) .protocol "stale measurement reservation"
      Proc.set
        { m with
          pending := emplaceAll m.pending references
          fastPending := if m.config.fastFeedback then emplaceAll m.fastPending references
            else m.fastPending
          registers := countPending m.registers targets }
      let next ← checkedAdd m.nextMeasurement references.length
      Proc.modify fun m => { m with nextMeasurement := next }

/-- Store a result of the current epoch; older epochs are dropped. -/
def deliver (m : MeasurementRegisters) (completion : Completion) (epoch : ℕ) :
    Except Fault MeasurementRegisters := do
  let reference := completion.reference
  if reference.epoch ≠ epoch then pure m else
    require (reference.measurement ∈ m.pending) .duplicateResult "measurement is not pending"
    require (m.pending[reference.measurement]? = some reference)
      .invalidMeasurement "measurement reference mismatch"
    require (∀ entry ∈ m.pending.toList, entry.1 < reference.measurement →
        entry.2.target ≠ reference.target)
      .protocol "measurement results arrived out of order"
    require (reference.target < m.registers.length) .protocol "vector index out of range"
    pure { m with
      registers := m.registers.modify reference.target fun r =>
        { value := completion.value, pending := wrapSub r.pending 1 32 }
      pending := m.pending.erase reference.measurement }

/-- Credit one fast delivery back. -/
def acknowledgeFast (m : MeasurementRegisters) (reference : MeasurementReference) (epoch : ℕ) :
    Except Fault MeasurementRegisters := do
  if reference.epoch ≠ epoch then pure m else
    require (m.fastPending[reference.measurement]? = some reference)
      .invalidMeasurement "unknown or duplicate fast delivery acknowledgment"
    pure { m with fastPending := m.fastPending.erase reference.measurement }

/-- The value of a register, once nothing is pending for it. -/
def read (m : MeasurementRegisters) (target : ℕ) : Except Fault (Option Bool) := do
  require (target < m.registers.length) .invalidOperand "measurement register is invalid"
  let register := m.registers[target]?.getD {}
  pure (if register.pending ≠ 0 then none else some register.value)

def deliveriesPending (m : MeasurementRegisters) : Bool :=
  !m.pending.isEmpty || !m.fastPending.isEmpty

def reset (m : MeasurementRegisters) : MeasurementRegisters :=
  { m with
    registers := m.registers.map fun _ => {}
    pending := ∅, fastPending := ∅, nextMeasurement := 1 }

end MeasurementRegisters

namespace ExecutionFlags

structure Register where
  lastMeasurement : ℕ := 0
  lastOne : Bool := false
  lastZero : Bool := false
  equal : Bool := false
  deriving DecidableEq, Repr

end ExecutionFlags

structure ExecutionFlags where
  registers : List ExecutionFlags.Register
  deriving DecidableEq, Repr

namespace ExecutionFlags

def make (qubits : ℕ) : ExecutionFlags := { registers := List.replicate qubits {} }

def evaluate (f : ExecutionFlags) (target : ℕ) (flag : ExecutionFlag) : Except Fault Bool := do
  require (target < f.registers.length) .invalidOperand "execution flag target is invalid"
  let register := f.registers[target]?.getD {}
  pure <| match flag with
    | .always => true
    | .lastOne => register.lastOne
    | .lastZero => register.lastZero
    | .equal => register.equal

/-- Record one result; results of other epochs are dropped. -/
def commit (f : ExecutionFlags) (completion : Completion) (epoch : ℕ) :
    Except Fault ExecutionFlags := do
  let reference := completion.reference
  if reference.epoch ≠ epoch then pure f else
    require (reference.target < f.registers.length) .invalidMeasurement
      "measurement target is invalid"
    let register := f.registers[reference.target]?.getD {}
    require (register.lastMeasurement < reference.measurement) .protocol
      "fast results are duplicated or out of order"
    let register : Register :=
      { equal := register.lastMeasurement ≠ 0 ∧ register.lastOne = completion.value
        lastOne := completion.value
        lastZero := !completion.value
        lastMeasurement := reference.measurement }
    pure { registers := f.registers.set reference.target register }

/-- Record results in order. -/
def commitAll (f : ExecutionFlags) (completions : List Completion) (epoch : ℕ) :
    Except Fault ExecutionFlags :=
  completions.foldlM (fun flags completion => flags.commit completion epoch) f

theorem code_of_commitAll {f : ExecutionFlags} {completions : List Completion} {epoch : ℕ}
    {e : Fault} (h : f.commitAll completions epoch = .error e) :
    e.code = .invalidMeasurement ∨ e.code = .protocol := by
  induction completions generalizing f with
  | nil => simp [commitAll] at h
  | cons c rest ih =>
    simp only [commitAll, List.foldlM_cons, Except.bind_eq_error_iff] at h
    rcases h with h | ⟨next, -, h⟩
    · simp only [commit] at h
      split at h
      · simp at h
      · simp only [Except.bind_eq_error_iff, require_eq_error_iff, Except.pure_ne_error, and_false,
          exists_false, or_false] at h
        rcases h with ⟨-, rfl⟩ | ⟨_, -, -, rfl⟩
        · exact .inl rfl
        · exact .inr rfl
    · exact ih h

def reset (f : ExecutionFlags) : ExecutionFlags := { registers := f.registers.map fun _ => {} }

end ExecutionFlags

end Qsbit

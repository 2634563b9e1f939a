import Qsbit.ControlProtocol

/-!
# Two-qubit gates

A two-qubit gate is driven by two output ports, possibly of different cores. It
is applied once when both outputs start on the same tick.

## Main definitions

* `DeviceProfile` — the qubits, the seed and the gates of the device.
* `gateAction` — the gate as an action.
* `resolveGateOutputs` — the gates whose outputs start on a tick.
-/
namespace Qsbit

/-- What the device keeps of the profiles; the gates have different names. -/
structure DeviceProfile where
  qubits : ℕ
  seed : ℕ
  gates : List TwoQubitGate := []
  deriving DecidableEq, Repr

def deviceGates (seen : List String) : List TwoQubitGate → Except Fault Unit
  | [] => pure ()
  | g :: rest => do
      require (g.name ∉ seen) .invalidProfile ("duplicate two-qubit gate: " ++ g.name)
      deviceGates (g.name :: seen) rest

def deviceProfile (p : Profile) : Except Fault DeviceProfile := do
  deviceGates [] p.twoQubitGates
  pure { qubits := p.qubits, seed := p.seed, gates := p.twoQubitGates }

namespace DeviceProfile

def gate (p : DeviceProfile) (name : String) : Except Fault TwoQubitGate :=
  match p.gates.find? (·.name = name) with
  | some g => pure g
  | none => .error ⟨.invalidProfile, "unknown two-qubit gate: " ++ name⟩

end DeviceProfile

def gateAction (p : DeviceProfile) (name : String) : Except Fault EventSpec := do
  let g ← p.gate name
  pure
    { duration := g.duration
      spec := .gate
        { operation := g.operation, operands := { targets := g.targets, resources := g.resources } } }

/-- Which port and codeword of which core an event comes from. -/
def inputOf (e : OperationEvent) : GateInput :=
  { core := e.core.getD 0, port := e.sourcePort, codeword := e.codeword }

/-- How many outputs come from an input and end with the gate. -/
def countInputs (now : ℕ) (gate : TwoQubitGate) (input : GateInput) :
    List ScheduledEvent → Except Fault ℕ
  | [] => pure 0
  | output :: rest => do
      let counts ← (if input = inputOf output.event then do
          let last ← checkedAdd now gate.duration
          pure (output.end = last : Bool)
        else pure false : Except Fault Bool)
      let count ← countInputs now gate input rest
      pure (if counts then count + 1 else count)

def checkInputs (now : ℕ) (gate : TwoQubitGate) (outputs : List ScheduledEvent) :
    List GateInput → Except Fault Unit
  | [] => pure ()
  | input :: rest => do
      let count ← countInputs now gate input outputs
      require (count = 1) .gateInputMismatch "missing or duplicate two-qubit gate input"
      checkInputs now gate outputs rest

/-- The gates whose outputs start now, given by name with their outputs. -/
def resolveGateOutputs (p : DeviceProfile) (now : ℕ) :
    List (String × List ScheduledEvent) → Except Fault (List EventSpec)
  | [] => pure []
  | (name, outputs) :: rest => do
      let gate ← p.gate name
      require (outputs.length = gate.inputs.length) .gateInputMismatch
        ("two-qubit gate requires both outputs at the same physical start tick: " ++ name)
      checkInputs now gate outputs gate.inputs
      let action ← gateAction p name
      let actions ← resolveGateOutputs p now rest
      pure (action :: actions)

end Qsbit

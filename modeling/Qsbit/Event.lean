import Qsbit.Time

/-!
# Output actions and measurement identities

The immutable descriptors a profile maps codewords to. An action occupies one
output port for a delay and a duration and is one of five kinds.
-/
namespace Qsbit

/-- Condition on the measurement history under which an action is launched. -/
inductive ExecutionFlag
  | always | lastOne | lastZero | equal
  deriving DecidableEq, Repr

/-- Identity of one reserved measurement. -/
structure MeasurementReference where
  epoch : ℕ := 0
  measurement : ℕ := 0
  target : ℕ := 0
  deriving DecidableEq, Repr

/-- A delivered measurement result. -/
structure Completion where
  reference : MeasurementReference
  value : Bool := false
  deriving DecidableEq, Repr

inductive ActionKind
  | idealGate | pulse | acquire | discriminatorArm | gateOutput
  deriving DecidableEq, Repr

structure ResourceUse where
  id : ℕ := 0
  exclusive : Bool := true
  deriving DecidableEq, Repr

structure QuantumOperands where
  targets : List ℕ := []
  resources : List ResourceUse := []
  deriving DecidableEq, Repr

/-- An IEEE double, by its bits. -/
structure Double where
  bits : BitVec 64 := 0
  deriving DecidableEq, Repr

namespace Double

/-- `std::isfinite`: the exponent is not all ones. -/
def isFinite (x : Double) : Bool := x.bits.toNat / 2 ^ 52 % 2 ^ 11 != 2 ^ 11 - 1

def isNaN (x : Double) : Bool := !x.isFinite && x.bits.toNat % 2 ^ 52 != 0

def isZero (x : Double) : Bool := x.bits.toNat % 2 ^ 63 == 0

/-- The comparison of the source: a NaN differs from itself, the zeros are equal. -/
instance : BEq Double where
  beq x y := !x.isNaN && !y.isNaN && (x.bits == y.bits || x.isZero && y.isZero)

end Double

structure GateSpec where
  operation : String := "x"
  operands : QuantumOperands := {}
  amplitude : Double := {}
  executionFlag : ExecutionFlag := .always
  deriving BEq, DecidableEq, Repr

structure PulseSpec where
  operation : String := "x"
  operands : QuantumOperands := {}
  amplitude : Double := {}
  axis : String := "x"
  executionFlag : ExecutionFlag := .always
  deriving BEq, DecidableEq, Repr

structure AcquireSpec where
  operation : String := "x"
  operands : QuantumOperands := {}
  discriminatorDelay : ℕ := 20
  separateArm : Bool := false
  deriving BEq, DecidableEq, Repr

structure DiscriminatorArmSpec where
  operation : String := "x"
  operands : QuantumOperands := {}
  deriving BEq, DecidableEq, Repr

structure GateOutputSpec where
  gate : String
  deriving BEq, DecidableEq, Repr

/-- The variant part of an action. -/
inductive ActionSpec
  | gate (value : GateSpec)
  | pulse (value : PulseSpec)
  | acquire (value : AcquireSpec)
  | discriminatorArm (value : DiscriminatorArmSpec)
  | gateOutput (value : GateOutputSpec)
  deriving BEq, DecidableEq, Repr

/-- One action of a mapping. -/
structure EventSpec where
  port : ℕ := 0
  delay : ℕ := 0
  duration : ℕ := 20
  spec : ActionSpec := .gate {}
  deriving BEq, DecidableEq, Repr

namespace EventSpec

def kind (a : EventSpec) : ActionKind :=
  match a.spec with
  | .gate _ => .idealGate
  | .pulse _ => .pulse
  | .acquire _ => .acquire
  | .discriminatorArm _ => .discriminatorArm
  | .gateOutput _ => .gateOutput

def targets (a : EventSpec) : List ℕ :=
  match a.spec with
  | .gate value => value.operands.targets
  | .pulse value => value.operands.targets
  | .acquire value => value.operands.targets
  | .discriminatorArm value => value.operands.targets
  | .gateOutput _ => []

def resources (a : EventSpec) : List ResourceUse :=
  match a.spec with
  | .gate value => value.operands.resources
  | .pulse value => value.operands.resources
  | .acquire value => value.operands.resources
  | .discriminatorArm value => value.operands.resources
  | .gateOutput _ => []

def operation (a : EventSpec) : String :=
  match a.spec with
  | .gate value => value.operation
  | .pulse value => value.operation
  | .acquire value => value.operation
  | .discriminatorArm value => value.operation
  | .gateOutput _ => ""

def executionFlag (a : EventSpec) : ExecutionFlag :=
  match a.spec with
  | .gate value => value.executionFlag
  | .pulse value => value.executionFlag
  | .acquire _ | .discriminatorArm _ | .gateOutput _ => .always

end EventSpec

/-- The actions of one codeword on one port. -/
structure Mapping where
  port : ℕ := 0
  codeword : ℕ := 0
  actions : List EventSpec
  deriving DecidableEq, Repr

structure GateInput where
  core : ℕ := 0
  port : ℕ := 0
  codeword : ℕ := 0
  deriving DecidableEq, Repr

structure TwoQubitGate where
  name : String
  operation : String
  targets : List ℕ
  inputs : List GateInput
  resources : List ResourceUse := []
  duration : ℕ := 20
  deriving DecidableEq, Repr

end Qsbit

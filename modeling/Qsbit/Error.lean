import Qsbit.Lib.Proc

/-!
# Error codes and faults

Every check of the simulator goes through `require`: it raises a `Fault` that
carries a code and the text shown to the user.
-/
namespace Qsbit

/-- The simulator's error codes. -/
inductive ErrorCode
  | invalidProfile | timeOverflow | illegalInstruction | instructionMisaligned
  | instructionAccess | loadMisaligned | storeMisaligned | loadAccess | storeAccess
  | environmentCall | breakpoint | invalidImage | unsupportedSynchronization
  | invalidPort | invalidCodeword | invalidOperand | capacity | lateAdmission
  | manifestMismatch | protocol | resourceConflict | gateInputMismatch
  | unsupportedCapability | invalidMeasurement | duplicateResult | backendFailure
  | watchdog
  deriving DecidableEq, Repr

/-- The name of a code, as the user sees it. -/
def ErrorCode.name : ErrorCode → String
  | .invalidProfile => "InvalidProfile"
  | .timeOverflow => "TimeOverflow"
  | .illegalInstruction => "IllegalInstruction"
  | .instructionMisaligned => "InstructionMisaligned"
  | .instructionAccess => "InstructionAccess"
  | .loadMisaligned => "LoadMisaligned"
  | .storeMisaligned => "StoreMisaligned"
  | .loadAccess => "LoadAccess"
  | .storeAccess => "StoreAccess"
  | .environmentCall => "EnvironmentCall"
  | .breakpoint => "Breakpoint"
  | .invalidImage => "InvalidImage"
  | .unsupportedSynchronization => "UnsupportedSynchronization"
  | .invalidPort => "InvalidPort"
  | .invalidCodeword => "InvalidCodeword"
  | .invalidOperand => "InvalidOperand"
  | .capacity => "Capacity"
  | .lateAdmission => "LateAdmission"
  | .manifestMismatch => "ManifestMismatch"
  | .protocol => "Protocol"
  | .resourceConflict => "ResourceConflict"
  | .gateInputMismatch => "GateInputMismatch"
  | .unsupportedCapability => "UnsupportedCapability"
  | .invalidMeasurement => "InvalidMeasurement"
  | .duplicateResult => "DuplicateResult"
  | .backendFailure => "BackendFailure"
  | .watchdog => "Watchdog"

/-- A raised fault: its code and its message. -/
structure Fault where
  code : ErrorCode
  message : String
  deriving DecidableEq, Repr

/-- The fault of a record that is older than the last one of the trace. -/
instance : LogFault Fault where
  decreased := ⟨.protocol, "trace time decreased"⟩

/-- Raise a fault unless the condition holds. -/
def require (condition : Prop) [Decidable condition] (code : ErrorCode) (message : String) :
    Except Fault Unit :=
  if condition then .ok () else .error ⟨code, message⟩

variable {condition : Prop} [Decidable condition] {code : ErrorCode} {message : String}

@[simp] theorem require_eq_ok_iff {u : Unit} :
    require condition code message = .ok u ↔ condition := by
  unfold require
  split <;> simp [*]

@[simp] theorem require_eq_error_iff {f : Fault} :
    require condition code message = .error f ↔ ¬ condition ∧ ⟨code, message⟩ = f := by
  unfold require
  split <;> simp [*]

end Qsbit

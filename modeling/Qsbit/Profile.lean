import Qsbit.Event

/-!
# Profiles

A profile fixes the clocks, latencies, capacities, mappings and two-qubit gates
of one controller core. `Profile.validate` runs before any component is built;
the configurations handed to the components are read off a profile.

The fingerprint of a profile enters the components only as a string that is
compared for equality, so `timingConfig` takes it as an argument.

## Main definitions

* `Profile`, `Profile.validate` — the profile and its checks.
* `TimingConfig`, `TcuConfig`, `TransportConfig` — what the components keep of it.
* `Profile.Valid` — the facts of `validate` that the timing results use.
-/
namespace Qsbit

structure Profile where
  cpu : Clock := { period := 5, phase := 0 }
  tcu : Clock := { period := 20, phase := 0 }
  start : ℕ := 1000
  watchdog : ℕ := 1000000
  memoryLatency : ℕ := 1
  commandLatency : ℕ := 1
  replyLatency : ℕ := 1
  cpuResultLatency : ℕ := 1
  fastResultLatency : ℕ := 2
  timingCapacity : ℕ := 32
  eventCapacity : ℕ := 32
  stagingCapacity : ℕ := 16
  resultCapacity : ℕ := 8
  ports : ℕ := 8
  qubits : ℕ := 2
  firingWidth : ℕ := 1
  seed : ℕ := 1
  fastFeedback : Bool := true
  mappings : List Mapping := []
  twoQubitGates : List TwoQubitGate := []
  deriving DecidableEq, Repr

namespace Profile

def gate (p : Profile) (gateName : String) : Except Fault TwoQubitGate :=
  match p.twoQubitGates.find? (·.name = gateName) with
  | some g => pure g
  | none => .error ⟨.invalidProfile, "unknown two-qubit gate: " ++ gateName⟩

/-- The checks on the two-qubit gates, with the names and inputs seen so far. -/
def validateGates (p : Profile) (names : List String) (inputs : List GateInput) :
    List TwoQubitGate → Except Fault Unit
  | [] => pure ()
  | g :: rest => do
      require (g.name ≠ "" ∧ g.name ∉ names ∧ g.operation ≠ "" ∧ 0 < g.duration ∧
          g.targets.length = 2 ∧ g.targets[0]? ≠ g.targets[1]? ∧ (∀ q ∈ g.targets, q < p.qubits) ∧
          g.inputs.length = 2)
        .invalidProfile "invalid two-qubit gate definition"
      require ((g.inputs.map fun i => (i.core, i.port)).Nodup)
        .invalidProfile "two-qubit gate requires two distinct output ports"
      require ((∀ i ∈ g.inputs, i.core ≤ 131071 ∧ i ∉ inputs) ∧ g.inputs.Nodup)
        .invalidProfile "invalid or ambiguous two-qubit gate input"
      require ((g.resources.map (·.id)).Nodup) .invalidProfile "duplicate gate resource"
      validateGates p (g.name :: names) (g.inputs ++ inputs) rest

/-- The checks on one action of a mapping. -/
def validateAction (p : Profile) (map : Mapping) (a : EventSpec) : Except Fault Unit := do
  require (a.port < p.ports ∧ (a.kind = .gateOutput ∨ a.targets ≠ []) ∧ 0 < a.duration)
    .invalidProfile "invalid action descriptor"
  match a.spec with
  | .gateOutput value => do
      require (map.actions.length = 1 ∧ a.port = map.port)
        .invalidProfile "gate output must be one port action"
      require (a.duration = (← p.gate value.gate).duration)
        .invalidProfile "gate output duration differs from gate duration"
  | _ => pure ()
  -- An out-of-range execution flag cannot be written down here.
  require (a.executionFlag = .always ∨ a.targets.length = 1)
    .invalidProfile "execution flags require a single-qubit gate or pulse"
  require ((∀ q ∈ a.targets, q < p.qubits) ∧ a.targets.Nodup)
    .invalidProfile "invalid target list"
  require ((a.resources.map (·.id)).Nodup) .invalidProfile "duplicate action resource"
  match a.spec with
  | .acquire _ =>
      require (a.targets.length = 1) .invalidProfile "acquisition requires one target"
  | .discriminatorArm _ =>
      require (a.targets.length = 1) .invalidProfile "arm requires one target"
  | .gate value => do
      require (value.operation = "reset" →
          a.targets.length = 1 ∧ a.executionFlag = .always)
        .invalidProfile "reset requires one unconditional target"
      require value.amplitude.isFinite .invalidProfile "nonfinite amplitude"
  | .pulse value => do
      require value.amplitude.isFinite .invalidProfile "nonfinite amplitude"
      require (a.targets.length = 1 ∧ (value.axis = "x" ∨ value.axis = "y" ∨ value.axis = "z"))
        .invalidProfile "unsupported pulse descriptor"
  | .gateOutput _ => pure ()

/-- The targets of the acquisitions of a mapping, each with its arm mode. -/
def acquisitions (map : Mapping) : List (ℕ × Bool) :=
  map.actions.filterMap fun a =>
    match a.spec with
    | .acquire value => some (a.targets.headD 0, value.separateArm)
    | _ => none

/-- How many discriminator arms of a mapping address the target. -/
def arms (map : Mapping) (target : ℕ) : ℕ :=
  map.actions.countP fun a => a.kind = .discriminatorArm ∧ a.targets.headD 0 = target

/-- The actions of a mapping in order; a second acquisition of a target is refused where it stands. -/
def validateActions (p : Profile) (map : Mapping) (acquired : List ℕ) :
    List EventSpec → Except Fault Unit
  | [] => pure ()
  | a :: rest => do
      p.validateAction map a
      require (a.kind = .acquire → a.targets.headD 0 ∉ acquired)
        .invalidProfile "duplicate acquisition target"
      let acquired := if a.kind = .acquire then a.targets.headD 0 :: acquired else acquired
      validateActions p map acquired rest

/-- The checks on the mappings, with the keys seen so far. -/
def validateMappings (p : Profile) (keys : List (ℕ × ℕ)) : List Mapping → Except Fault Unit
  | [] => pure ()
  | map :: rest => do
      require (map.port < p.ports ∧ (map.port, map.codeword) ∉ keys)
        .invalidProfile "duplicate or invalid port mapping"
      require (map.actions ≠ []) .invalidProfile "empty action mapping"
      p.validateActions map [] map.actions
      require (∀ a ∈ acquisitions map, arms map a.1 = if a.2 then 1 else 0)
        .invalidProfile "acquisition and discriminator arm must be paired per target"
      require (∀ a ∈ map.actions, a.kind = .discriminatorArm →
          a.targets.headD 0 ∈ (acquisitions map).map Prod.fst)
        .invalidProfile "orphan discriminator arm"
      validateMappings p ((map.port, map.codeword) :: keys) rest

def validate (p : Profile) : Except Fault Unit := do
  p.cpu.validate
  p.tcu.validate
  require (p.tcu.edge p.start ∧ p.start < p.watchdog) .invalidProfile "invalid start or watchdog"
  require (∀ n ∈ [p.memoryLatency, p.commandLatency, p.replyLatency, p.cpuResultLatency,
      p.fastResultLatency, p.timingCapacity, p.eventCapacity, p.stagingCapacity,
      p.resultCapacity, p.ports, p.qubits, p.firingWidth], 0 < n)
    .invalidProfile "capacities and latencies must be positive"
  require (p.resultCapacity ≤ 65535 ∧ p.ports ≤ 65535 ∧ p.qubits ≤ 32)
    .invalidProfile "profile exceeds index bounds"
  p.validateGates [] [] p.twoQubitGates
  p.validateMappings [] p.mappings

/-- What the timing results use of a validated profile. -/
structure Valid (p : Profile) : Prop where
  cpu : p.cpu.Valid
  tcu : p.tcu.Valid
  start : p.tcu.edge p.start
  timingCapacity : 0 < p.timingCapacity
  commandLatency : 0 < p.commandLatency
  replyLatency : 0 < p.replyLatency

theorem valid_of_validate {p : Profile} (h : p.validate = .ok ()) : p.Valid := by
  simp only [validate, Except.bind_eq_ok_iff, require_eq_ok_iff, exists_const] at h
  obtain ⟨_, hcpu, _, htcu, hstart, hpos, -⟩ := h
  exact
    { cpu := Clock.validate_eq_ok_iff.1 hcpu
      tcu := Clock.validate_eq_ok_iff.1 htcu
      start := hstart.1
      timingCapacity := hpos _ (by simp)
      commandLatency := hpos _ (by simp)
      replyLatency := hpos _ (by simp) }

end Profile

/-- The part of a profile the timing control and the TCU share. -/
structure TimingConfig where
  eventCapacity : ℕ
  stagingCapacity : ℕ
  ports : ℕ
  qubits : ℕ
  firingWidth : ℕ
  fastFeedback : Bool
  configuration : String
  mappings : List Mapping
  deriving DecidableEq, Repr

/-- Look a codeword up among the actions of a port. -/
def TimingConfig.mapping (c : TimingConfig) (port codeword : ℕ) : Except Fault Mapping := do
  require (port < c.ports) .invalidPort "port is outside configured map"
  match c.mappings.find? fun m => m.port = port ∧ m.codeword = codeword with
  | some m => pure m
  | none => .error ⟨.invalidCodeword, "codeword is unmapped on this port"⟩

structure TcuConfig where
  timing : TimingConfig
  clock : Clock
  start : ℕ
  timingCapacity : ℕ
  deriving DecidableEq, Repr

structure TransportConfig where
  cpu : Clock
  tcu : Clock
  commandLatency : ℕ
  replyLatency : ℕ
  cpuResultLatency : ℕ
  fastResultLatency : ℕ
  resultCapacity : ℕ
  deriving DecidableEq, Repr

/-- The timing configuration of a profile with the given fingerprint. -/
def timingConfig (fingerprint : String) (p : Profile) : Except Fault TimingConfig := do
  require ((p.mappings.map fun m => (m.port, m.codeword)).Nodup)
    .invalidProfile "duplicate port/codeword mapping"
  pure
    { eventCapacity := p.eventCapacity, stagingCapacity := p.stagingCapacity, ports := p.ports
      qubits := p.qubits, firingWidth := p.firingWidth, fastFeedback := p.fastFeedback
      configuration := fingerprint, mappings := p.mappings }

def tcuConfig (fingerprint : String) (p : Profile) : Except Fault TcuConfig := do
  let timing ← timingConfig fingerprint p
  pure { timing, clock := p.tcu, start := p.start, timingCapacity := p.timingCapacity }

def transportConfig (p : Profile) : TransportConfig :=
  { cpu := p.cpu, tcu := p.tcu, commandLatency := p.commandLatency
    replyLatency := p.replyLatency, cpuResultLatency := p.cpuResultLatency
    fastResultLatency := p.fastResultLatency, resultCapacity := p.resultCapacity }

/-- A profile with one codeword, which drives a gate on the first qubit. -/
def oneGate : Profile :=
  { mappings := [{ codeword := 1, actions := [{ spec := .gate { operands := { targets := [0] } } }] }] }

example : oneGate.validate = .ok () := by decide

/-- What a timing control unit keeps of it. -/
def oneGateConfig : TcuConfig := (tcuConfig "" oneGate).toOption.get (by decide)

/-- A profile with every kind of action: a gate and a conditional pulse, a readout with an arm of
its own, and the two outputs of a two-qubit gate. -/
def everyKind : Profile :=
  { mappings :=
      [{ port := 0, codeword := 1
         actions :=
           [{ spec := .gate { operands := { targets := [0], resources := [{ id := 7 }] } } },
            { port := 1
              spec := .pulse
                { operands := { targets := [1] }, amplitude := ⟨0x3FE0000000000000⟩, axis := "y"
                  executionFlag := .lastOne } }] },
       { port := 2, codeword := 2
         actions :=
           [{ port := 2, duration := 60
              spec := .acquire
                { operands := { targets := [0], resources := [{ id := 7, exclusive := false }] }
                  separateArm := true } },
            { port := 3, delay := 10, spec := .discriminatorArm { operands := { targets := [0] } } }] },
       { port := 4, codeword := 3, actions := [{ port := 4, duration := 40, spec := .gateOutput ⟨"cz"⟩ }] },
       { port := 5, codeword := 3, actions := [{ port := 5, duration := 40, spec := .gateOutput ⟨"cz"⟩ }] }]
    twoQubitGates :=
      [{ name := "cz", operation := "cz", targets := [0, 1], resources := [{ id := 9 }], duration := 40
         inputs := [{ port := 4, codeword := 3 }, { port := 5, codeword := 3 }] }] }

end Qsbit

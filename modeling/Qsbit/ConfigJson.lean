import Qsbit.Profile
import Qsbit.Lib.Json

/-!
# Profiles as JSON

A profile is read from a JSON object that is laid over an existing profile: what the object
does not mention stays. It is written by separate code. An action is read by its kind, which
says what keys it may have, and takes its port and, as the output of a two-qubit gate, its
duration from elsewhere unless it has its own.

Only the profile that a successful reading leaves is modelled, not what is left of one after
an exception.

## Main definitions

* `Thrown` — what reading may raise.
* `ConfigJson.applyProfile` — reads an object over a profile.
* `ConfigJson.profileJson` — writes a profile.
-/
namespace Qsbit

/-- A raised exception: a fault of the simulator, or a type error of the JSON library. -/
inductive Thrown
  | fault (fault : Fault)
  | typeError (id : ℕ)
  deriving DecidableEq, Repr

/-- The double nearest to a natural number, the even one of two. -/
def Double.ofNat (n : ℕ) : Double :=
  let exponent := n.log2
  let step := 2 ^ (exponent - 52)
  let mantissa := n * 2 ^ (52 - exponent) / step
  let up := step < 2 * (n % step) ∨ step = 2 * (n % step) ∧ mantissa % 2 = 1
  let rounded := if up then mantissa + 1 else mantissa
  if n = 0 then {} else ⟨BitVec.ofNat 64 ((exponent + 1023) * 2 ^ 52 + (rounded - 2 ^ 52))⟩

def Double.ofInt (i : ℤ) : Double :=
  if i < 0 then ⟨(Double.ofNat i.natAbs).bits ||| BitVec.ofNat 64 (2 ^ 63)⟩
  else Double.ofNat i.toNat

example : Double.ofNat 1 = ⟨0x3ff0000000000000⟩ ∧ Double.ofInt (-3) = ⟨0xc008000000000000⟩ ∧
    Double.ofNat (2 ^ 53 + 1) = ⟨0x4340000000000000⟩ := by decide +kernel

namespace ConfigJson

def raise {α : Type} (message : String) : Except Thrown α :=
  .error (.fault ⟨.invalidProfile, message⟩)

def check (condition : Bool) (message : String) : Except Thrown Unit :=
  if condition then .ok () else raise message

/-- A computation of the simulator, which raises faults only. -/
def lift {α : Type} (x : Except Fault α) : Except Thrown α := x.mapError .fault

/-! ## The library's accessors -/

def isArray : Json Double → Bool
  | .array _ => true
  | _ => false

def isObject : Json Double → Bool
  | .object _ => true
  | _ => false

/-- `operator[]`, where the key is known to be there. -/
def member (object : Json Double) (key : String) : Json Double := (object.find? key).getD .null

/-- The elements a loop over the value goes through. -/
def elements : Json Double → List (Json Double)
  | .array values => values
  | .object members => members.map Prod.snd
  | .null => []
  | j => [j]

def getBool : Json Double → Except Thrown Bool
  | .boolean b => .ok b
  | _ => .error (.typeError 302)

def getString : Json Double → Except Thrown String
  | .string s => .ok s
  | _ => .error (.typeError 302)

def getDouble : Json Double → Except Thrown Double
  | .float x => .ok x
  | .unsigned n => .ok (Double.ofNat n)
  | .integer i => .ok (Double.ofInt i)
  | _ => .error (.typeError 302)

/-- `value`: a member, or the default where there is none. -/
def value {α : Type} (get : Json Double → Except Thrown α) (object : Json Double) (key : String)
    (default : α) : Except Thrown α :=
  if isObject object then
    match object.find? key with
    | some j => get j
    | none => .ok default
  else .error (.typeError 306)

/-- Comparison with the number one. -/
def equalsOne : Json Double → Bool
  | .unsigned n => n = 1
  | .integer i => i = 1
  | .float x => x == Double.ofNat 1
  | _ => false

/-! ## Reading -/

/-- The object has allowed keys only. -/
def keys (object : Json Double) (allowed : List String) : Except Thrown Unit :=
  match object with
  | .object members =>
      match members.find? (·.1 ∉ allowed) with
      | some m => raise ("unknown profile key: " ++ m.1)
      | none => .ok ()
  | _ => raise "expected a JSON object"

/-- A nonnegative integer that fits in so many bits. -/
def getInteger (key : String) (bits : ℕ) (j : Json Double) : Except Thrown ℕ := do
  let number ←
    match j with
    | .unsigned n => .ok n
    | .integer i =>
        if 0 ≤ i then .ok i.toNat else raise ("expected nonnegative integer for " ++ key)
    | _ => raise ("expected nonnegative integer for " ++ key)
  check (number < 2 ^ bits) ("integer overflow for " ++ key)
  pure number

/-- The integer under a key, or what is there already. -/
def integer (object : Json Double) (key : String) (bits destination : ℕ) : Except Thrown ℕ :=
  match object.find? key with
  | none => .ok destination
  | some j => getInteger key bits j

def kindName : ActionKind → String
  | .idealGate => "gate"
  | .pulse => "pulse"
  | .acquire => "acquire"
  | .discriminatorArm => "arm"
  | .gateOutput => "gate_output"

def kindValue (name : String) : Except Thrown ActionKind :=
  if name = "gate" then .ok .idealGate
  else if name = "pulse" then .ok .pulse
  else if name = "acquire" then .ok .acquire
  else if name = "arm" then .ok .discriminatorArm
  else if name = "gate_output" then .ok .gateOutput
  else raise ("unsupported action kind: " ++ name)

def flagName : ExecutionFlag → String
  | .always => "always"
  | .lastOne => "last_one"
  | .lastZero => "last_zero"
  | .equal => "equal"

def flagValue (name : String) : Except Thrown ExecutionFlag :=
  match [ExecutionFlag.always, .lastOne, .lastZero, .equal].find? fun flag => flagName flag = name with
  | some flag => .ok flag
  | none => raise ("unsupported execution flag: " ++ name)

def readClock (input : Json Double) (key : String) (c : Clock) : Except Thrown Clock :=
  if input.contains key then do
    let clock := member input key
    keys clock ["period", "phase"]
    let period ← integer clock "period" 64 c.period
    let phase ← integer clock "phase" 64 c.phase
    pure { period, phase }
  else pure c

def readTarget (entry : Json Double) : Except Thrown ℕ :=
  integer (.make [("target", entry)]) "target" 32 0

def readResource (entry : Json Double) : Except Thrown ResourceUse := do
  keys entry ["id", "exclusive"]
  check (entry.contains "id") "resource ID missing"
  let id ← integer entry "id" 32 0
  let exclusive ← value getBool entry "exclusive" true
  pure { id, exclusive }

def readResources (spec : Json Double) (message : String) : Except Thrown (List ResourceUse) :=
  if spec.contains "resources" then do
    check (isArray (member spec "resources")) message
    (elements (member spec "resources")).mapM readResource
  else pure []

def readInput (j : Json Double) : Except Thrown GateInput := do
  keys j ["core", "port", "codeword"]
  check (j.contains "core" && j.contains "port" && j.contains "codeword") "incomplete gate input"
  let core ← integer j "core" 32 0
  let port ← integer j "port" 32 0
  let codeword ← integer j "codeword" 32 0
  pure { core, port, codeword }

def readGate (spec : Json Double) : Except Thrown TwoQubitGate := do
  keys spec ["name", "operation", "targets", "inputs", "resources", "duration"]
  check (spec.contains "name" && spec.contains "operation" && spec.contains "targets" &&
      isArray (member spec "targets") && spec.contains "inputs" &&
      isArray (member spec "inputs") && spec.contains "duration")
    "incomplete two-qubit gate definition"
  let name ← getString (member spec "name")
  let operation ← getString (member spec "operation")
  let duration ← integer spec "duration" 64 20
  let targets ← (elements (member spec "targets")).mapM readTarget
  let inputs ← (elements (member spec "inputs")).mapM readInput
  let resources ← readResources spec "gate resources must be an array"
  pure { name, operation, targets, inputs, resources, duration }

/-- The keys of every action with operands. -/
def operandKeys : List String :=
  ["kind", "port", "delay", "duration", "operation", "targets", "resources"]

/-- An action of the kind before its members are read. -/
def startAction (p : Profile) (port : ℕ) (spec : Json Double) : ActionKind → Except Thrown EventSpec
  | .idealGate => do
      keys spec (operandKeys ++ ["amplitude", "execution_flag"])
      pure { port, spec := .gate {} }
  | .pulse => do
      keys spec (operandKeys ++ ["amplitude", "axis", "execution_flag"])
      pure { port, spec := .pulse {} }
  | .acquire => do
      keys spec (operandKeys ++ ["discriminator_delay", "separate_arm"])
      pure { port, spec := .acquire {} }
  | .discriminatorArm => do
      keys spec operandKeys
      pure { port, spec := .discriminatorArm {} }
  | .gateOutput => do
      keys spec ["kind", "port", "delay", "duration", "gate"]
      let name ← value getString spec "gate" ""
      let gate ← lift (p.gate name)
      pure { port, duration := gate.duration, spec := .gateOutput ⟨name⟩ }

def readOperands (spec : Json Double) : Except Thrown (String × QuantumOperands) := do
  let operation ← value getString spec "operation" "x"
  check (spec.contains "targets" && isArray (member spec "targets")) "action targets are required"
  let targets ← (elements (member spec "targets")).mapM readTarget
  let resources ← readResources spec "resources must be an array"
  pure (operation, { targets, resources })

def readFlag (spec : Json Double) : Except Thrown ExecutionFlag := do
  flagValue (← value getString spec "execution_flag" "always")

/-- The members that depend on the kind. -/
def readSpec (spec : Json Double) : ActionSpec → Except Thrown ActionSpec
  | .gate _ => do
      let read ← readOperands spec
      let amplitude ← value getDouble spec "amplitude" {}
      let executionFlag ← readFlag spec
      pure (.gate { operation := read.1, operands := read.2, amplitude, executionFlag })
  | .pulse _ => do
      let read ← readOperands spec
      let amplitude ← value getDouble spec "amplitude" {}
      let axis ← value getString spec "axis" "x"
      let executionFlag ← readFlag spec
      pure (.pulse { operation := read.1, operands := read.2, amplitude, axis, executionFlag })
  | .acquire v => do
      let read ← readOperands spec
      let discriminatorDelay ← integer spec "discriminator_delay" 64 v.discriminatorDelay
      let separateArm ← value getBool spec "separate_arm" false
      pure (.acquire { operation := read.1, operands := read.2, discriminatorDelay, separateArm })
  | .discriminatorArm _ => do
      let read ← readOperands spec
      pure (.discriminatorArm { operation := read.1, operands := read.2 })
  | .gateOutput v => pure (.gateOutput v)

def readAction (p : Profile) (map : ℕ) (spec : Json Double) : Except Thrown EventSpec := do
  check (isObject spec) "action must be an object"
  let kind ← kindValue (← value getString spec "kind" "gate")
  let action ← startAction p map spec kind
  let port ← integer spec "port" 32 action.port
  let delay ← integer spec "delay" 64 action.delay
  let duration ← integer spec "duration" 64 action.duration
  let spec ← readSpec spec action.spec
  pure { port, delay, duration, spec }

def readMapping (p : Profile) (mapping : Json Double) : Except Thrown Mapping := do
  keys mapping ["port", "codeword", "actions"]
  check (mapping.contains "port" && mapping.contains "codeword" && mapping.contains "actions")
    "incomplete mapping"
  let port ← integer mapping "port" 32 0
  let codeword ← integer mapping "codeword" 32 0
  check (isArray (member mapping "actions")) "actions must be an array"
  let actions ← (elements (member mapping "actions")).mapM (readAction p port)
  pure { port, codeword, actions }

def readGates (p : Profile) (input : Json Double) : Except Thrown (List TwoQubitGate) :=
  if input.contains "two_qubit_gates" then do
    check (isArray (member input "two_qubit_gates")) "two_qubit_gates must be an array"
    (elements (member input "two_qubit_gates")).mapM readGate
  else pure p.twoQubitGates

def readMappings (p : Profile) (input : Json Double) : Except Thrown (List Mapping) :=
  if input.contains "mappings" then do
    check (isArray (member input "mappings")) "mappings must be an array"
    (elements (member input "mappings")).mapM (readMapping p)
  else pure p.mappings

def readSchema (input : Json Double) : Except Thrown Unit :=
  if input.contains "schema" then
    check (equalsOne (member input "schema")) "unsupported profile schema"
  else pure ()

def readFeedback (p : Profile) (input : Json Double) : Except Thrown Bool :=
  if input.contains "fast_feedback" then getBool (member input "fast_feedback")
  else pure p.fastFeedback

/-- The keys of a profile. -/
def profileKeys : List String :=
  ["schema", "cpu", "tcu", "start", "watchdog", "memory_latency", "command_latency",
    "reply_latency", "cpu_result_latency", "fast_result_latency", "timing_capacity",
    "event_capacity", "staging_capacity", "result_capacity", "ports", "qubits", "firing_width",
    "seed", "fast_feedback", "mappings", "two_qubit_gates"]

/-- The fields that are numbers. -/
def readNumbers (p : Profile) (input : Json Double) : Except Thrown Profile := do
  let start ← integer input "start" 64 p.start
  let watchdog ← integer input "watchdog" 64 p.watchdog
  let memoryLatency ← integer input "memory_latency" 32 p.memoryLatency
  let commandLatency ← integer input "command_latency" 32 p.commandLatency
  let replyLatency ← integer input "reply_latency" 32 p.replyLatency
  let cpuResultLatency ← integer input "cpu_result_latency" 32 p.cpuResultLatency
  let fastResultLatency ← integer input "fast_result_latency" 32 p.fastResultLatency
  let timingCapacity ← integer input "timing_capacity" 32 p.timingCapacity
  let eventCapacity ← integer input "event_capacity" 32 p.eventCapacity
  let stagingCapacity ← integer input "staging_capacity" 32 p.stagingCapacity
  let resultCapacity ← integer input "result_capacity" 32 p.resultCapacity
  let ports ← integer input "ports" 32 p.ports
  let qubits ← integer input "qubits" 32 p.qubits
  let firingWidth ← integer input "firing_width" 32 p.firingWidth
  let seed ← integer input "seed" 32 p.seed
  pure
    { p with
      start, watchdog, memoryLatency, commandLatency, replyLatency, cpuResultLatency
      fastResultLatency, timingCapacity, eventCapacity, stagingCapacity, resultCapacity, ports
      qubits, firingWidth, seed }

/-- Reads an object over a profile and validates the result. -/
def applyProfile (p : Profile) (input : Json Double) : Except Thrown Profile := do
  keys input profileKeys
  readSchema input
  let cpu ← readClock input "cpu" p.cpu
  let tcu ← readClock input "tcu" p.tcu
  let p ← readNumbers { p with cpu, tcu } input
  let fastFeedback ← readFeedback p input
  let twoQubitGates ← readGates p input
  let p := { p with fastFeedback, twoQubitGates }
  let mappings ← readMappings p input
  let p := { p with mappings }
  lift p.validate
  pure p

/-! ## Writing -/

def clockJson (c : Clock) : Json Double :=
  .make [("period", .unsigned c.period), ("phase", .unsigned c.phase)]

def targetsJson (targets : List ℕ) : Json Double := .array (targets.map .unsigned)

def resourceJson (r : ResourceUse) : Json Double :=
  .make [("id", .unsigned r.id), ("exclusive", .boolean r.exclusive)]

def resourcesJson (resources : List ResourceUse) : Json Double :=
  .array (resources.map resourceJson)

def inputJson (input : GateInput) : Json Double :=
  .make [("core", .unsigned input.core), ("port", .unsigned input.port),
    ("codeword", .unsigned input.codeword)]

def gateJson (gate : TwoQubitGate) : Json Double :=
  .make [("name", .string gate.name), ("operation", .string gate.operation),
    ("targets", targetsJson gate.targets), ("duration", .unsigned gate.duration),
    ("inputs", .array (gate.inputs.map inputJson)), ("resources", resourcesJson gate.resources)]

def operandsJson (operation : String) (operands : QuantumOperands) :
    List (String × Json Double) :=
  [("operation", .string operation), ("targets", targetsJson operands.targets),
    ("resources", resourcesJson operands.resources)]

/-- The members that depend on the kind. -/
def specJson : ActionSpec → List (String × Json Double)
  | .gate v => operandsJson v.operation v.operands ++
      [("amplitude", .float v.amplitude), ("execution_flag", .string (flagName v.executionFlag))]
  | .pulse v => operandsJson v.operation v.operands ++
      [("amplitude", .float v.amplitude), ("axis", .string v.axis),
        ("execution_flag", .string (flagName v.executionFlag))]
  | .acquire v => operandsJson v.operation v.operands ++
      [("discriminator_delay", .unsigned v.discriminatorDelay),
        ("separate_arm", .boolean v.separateArm)]
  | .discriminatorArm v => operandsJson v.operation v.operands
  | .gateOutput v => [("gate", .string v.gate)]

def actionJson (action : EventSpec) : Json Double :=
  .make ([("kind", .string (kindName action.kind)), ("port", .unsigned action.port),
    ("delay", .unsigned action.delay), ("duration", .unsigned action.duration)] ++
    specJson action.spec)

def mappingJson (mapping : Mapping) : Json Double :=
  .make [("port", .unsigned mapping.port), ("codeword", .unsigned mapping.codeword),
    ("actions", .array (mapping.actions.map actionJson))]

def profileJson (p : Profile) : Json Double :=
  .make [("schema", .integer 1), ("cpu", clockJson p.cpu), ("tcu", clockJson p.tcu),
    ("start", .unsigned p.start), ("watchdog", .unsigned p.watchdog),
    ("memory_latency", .unsigned p.memoryLatency), ("command_latency", .unsigned p.commandLatency),
    ("reply_latency", .unsigned p.replyLatency),
    ("cpu_result_latency", .unsigned p.cpuResultLatency),
    ("fast_result_latency", .unsigned p.fastResultLatency),
    ("timing_capacity", .unsigned p.timingCapacity), ("event_capacity", .unsigned p.eventCapacity),
    ("staging_capacity", .unsigned p.stagingCapacity),
    ("result_capacity", .unsigned p.resultCapacity), ("ports", .unsigned p.ports),
    ("qubits", .unsigned p.qubits), ("firing_width", .unsigned p.firingWidth),
    ("seed", .unsigned p.seed), ("fast_feedback", .boolean p.fastFeedback),
    ("mappings", .array (p.mappings.map mappingJson)),
    ("two_qubit_gates", .array (p.twoQubitGates.map gateJson))]

end ConfigJson
end Qsbit

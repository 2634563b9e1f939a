import Qsbit.ConfigJson
import Qsbit.Profile.Mappings

/-!
# Writing and reading back

What is written of a profile is read back as it was, over any profile: every field is
written under a key that is read, and no action has a key that its kind refuses.

## Main definitions

* `Profile.Representable` — the fields are within the ranges of their types.

## Main results

* `ConfigJson.readAction_actionJson` — an action of any kind is read back.
* `ConfigJson.applyProfile_profileJson` — a profile is read back over any other.
-/
namespace Qsbit

/-! ## The ranges of the fields -/

@[mk_iff] structure ResourceUse.Representable (r : ResourceUse) : Prop where
  id : r.id < 2 ^ 32

instance (r : ResourceUse) : Decidable r.Representable := decidable_of_iff _ (r.representable_iff).symm

@[mk_iff] structure QuantumOperands.Representable (o : QuantumOperands) : Prop where
  targets : ∀ q ∈ o.targets, q < 2 ^ 32
  resources : ∀ r ∈ o.resources, r.Representable

instance (o : QuantumOperands) : Decidable o.Representable :=
  decidable_of_iff _ (o.representable_iff).symm

def ActionSpec.Representable : ActionSpec → Prop
  | .gate v => v.operands.Representable
  | .pulse v => v.operands.Representable
  | .acquire v => v.operands.Representable ∧ v.discriminatorDelay < 2 ^ 64
  | .discriminatorArm v => v.operands.Representable
  | .gateOutput _ => True

instance : DecidablePred ActionSpec.Representable
  | .gate v => inferInstanceAs (Decidable v.operands.Representable)
  | .pulse v => inferInstanceAs (Decidable v.operands.Representable)
  | .acquire v =>
    inferInstanceAs (Decidable (v.operands.Representable ∧ v.discriminatorDelay < 2 ^ 64))
  | .discriminatorArm v => inferInstanceAs (Decidable v.operands.Representable)
  | .gateOutput _ => inferInstanceAs (Decidable True)

@[mk_iff] structure EventSpec.Representable (a : EventSpec) : Prop where
  port : a.port < 2 ^ 32
  delay : a.delay < 2 ^ 64
  duration : a.duration < 2 ^ 64
  spec : a.spec.Representable

instance (a : EventSpec) : Decidable a.Representable := decidable_of_iff _ (a.representable_iff).symm

@[mk_iff] structure Mapping.Representable (m : Mapping) : Prop where
  port : m.port < 2 ^ 32
  codeword : m.codeword < 2 ^ 32
  actions : ∀ a ∈ m.actions, a.Representable

instance (m : Mapping) : Decidable m.Representable := decidable_of_iff _ (m.representable_iff).symm

@[mk_iff] structure GateInput.Representable (input : GateInput) : Prop where
  core : input.core < 2 ^ 32
  port : input.port < 2 ^ 32
  codeword : input.codeword < 2 ^ 32

instance (input : GateInput) : Decidable input.Representable :=
  decidable_of_iff _ (input.representable_iff).symm

@[mk_iff] structure TwoQubitGate.Representable (g : TwoQubitGate) : Prop where
  targets : ∀ q ∈ g.targets, q < 2 ^ 32
  inputs : ∀ input ∈ g.inputs, input.Representable
  resources : ∀ r ∈ g.resources, r.Representable
  duration : g.duration < 2 ^ 64

instance (g : TwoQubitGate) : Decidable g.Representable := decidable_of_iff _ (g.representable_iff).symm

@[mk_iff] structure Clock.Representable (c : Clock) : Prop where
  period : c.period < 2 ^ 64
  phase : c.phase < 2 ^ 64

instance (c : Clock) : Decidable c.Representable := decidable_of_iff _ (c.representable_iff).symm

/-- Every field is a value of its type in the source: ticks have 64 bits, other numbers 32. -/
@[mk_iff] structure Profile.Representable (p : Profile) : Prop where
  cpu : p.cpu.Representable
  tcu : p.tcu.Representable
  ticks : ∀ n ∈ [p.start, p.watchdog], n < 2 ^ 64
  numbers : ∀ n ∈ [p.memoryLatency, p.commandLatency, p.replyLatency, p.cpuResultLatency,
    p.fastResultLatency, p.timingCapacity, p.eventCapacity, p.stagingCapacity, p.resultCapacity,
    p.ports, p.qubits, p.firingWidth, p.seed], n < 2 ^ 32
  mappings : ∀ m ∈ p.mappings, m.Representable
  twoQubitGates : ∀ g ∈ p.twoQubitGates, g.Representable

instance (p : Profile) : Decidable p.Representable := decidable_of_iff _ (p.representable_iff).symm

namespace ConfigJson

/-! ## Accessors on what was written -/

section Accessors
variable {members : List (String × Json Double)} {key : String}

theorem keys_make {allowed : List String} (h : ∀ m ∈ members, m.1 ∈ allowed) :
    keys (.make members) allowed = .ok () := by
  have hnone : ∀ m ∈ members.foldr (fun m rest => Json.assign m.1 m.2 rest) [], m.1 ∈ allowed :=
    fun m hm => h m (Json.mem_make hm)
  have hfind : (members.foldr (fun m rest => Json.assign m.1 m.2 rest) []).find?
      (·.1 ∉ allowed) = none := by
    rw [List.find?_eq_none]
    intro m hm
    simpa using hnone m hm
  rw [Json.make, keys, hfind]

theorem integer_make {bits n destination : ℕ}
    (hfind : (Json.make members).find? key = some (.unsigned n)) (h : n < 2 ^ bits) :
    integer (.make members) key bits destination = .ok n := by
  rw [integer, hfind]
  simp [getInteger, check, h, bind, Except.bind, pure, Except.pure]

theorem value_make {α : Type} {get : Json Double → Except Thrown α} {j : Json Double} {default : α}
    (hfind : (Json.make members).find? key = some j) :
    value get (.make members) key default = get j := by
  have hobject : isObject (Json.make members) = true := rfl
  rw [value, if_pos hobject, hfind]

theorem member_of_find? {object j : Json Double} (hfind : object.find? key = some j) :
    member object key = j := by
  rw [member, hfind, Option.getD_some]

theorem contains_of_find? {object j : Json Double} (hfind : object.find? key = some j) :
    object.contains key = true := by
  rw [Json.contains, hfind, Option.isSome_some]

end Accessors

theorem check_of_eq_true {condition : Bool} {message : String} (h : condition = true) :
    check condition message = .ok () := by
  rw [check, if_pos h]

@[simp] theorem kindValue_kindName (kind : ActionKind) : kindValue (kindName kind) = .ok kind := by
  cases kind <;> rfl

@[simp] theorem flagValue_flagName (flag : ExecutionFlag) :
    flagValue (flagName flag) = .ok flag := by
  cases flag <;> decide

/-! ## Parts of actions and gates -/

theorem readClock_clockJson {members : List (String × Json Double)} {key : String} {c d : Clock}
    (hfind : (Json.make members).find? key = some (clockJson c)) (h : c.Representable) :
    readClock (.make members) key d = .ok c := by
  have hkeys : keys (clockJson c) ["period", "phase"] = .ok () := keys_make (by simp)
  have hperiod : integer (clockJson c) "period" 64 d.period = .ok c.period :=
    integer_make (by simp [Json.find?_make]) h.period
  have hphase : integer (clockJson c) "phase" 64 d.phase = .ok c.phase :=
    integer_make (by simp [Json.find?_make]) h.phase
  rw [readClock, if_pos (contains_of_find? hfind), member_of_find? hfind]
  simp only [hkeys, hperiod, hphase, bind, Except.bind, pure, Except.pure]

theorem readTarget_unsigned {q : ℕ} (h : q < 2 ^ 32) : readTarget (.unsigned q) = .ok q :=
  integer_make (by simp [Json.find?_make]) h

theorem readTargets {targets : List ℕ} (h : ∀ q ∈ targets, q < 2 ^ 32) :
    (elements (targetsJson targets)).mapM readTarget = .ok targets :=
  List.mapM_map_eq_ok targets fun q hq => readTarget_unsigned (h q hq)

theorem readResource_resourceJson {r : ResourceUse} (h : r.Representable) :
    readResource (resourceJson r) = .ok r := by
  have hkeys : keys (resourceJson r) ["id", "exclusive"] = .ok () := keys_make (by simp)
  have hid : (resourceJson r).find? "id" = some (.unsigned r.id) := by
    simp [resourceJson, Json.find?_make]
  have hcheck : check ((resourceJson r).contains "id") "resource ID missing" = .ok () :=
    check_of_eq_true (contains_of_find? hid)
  have hinteger : integer (resourceJson r) "id" 32 0 = .ok r.id := integer_make hid h.id
  have hexclusive : value getBool (resourceJson r) "exclusive" true = .ok r.exclusive :=
    value_make (j := .boolean r.exclusive) (by simp [Json.find?_make])
  rw [readResource, hkeys]
  simp only [hcheck, hinteger, hexclusive, bind, Except.bind, pure, Except.pure]

theorem readResources_resourcesJson {members : List (String × Json Double)}
    {resources : List ResourceUse} {message : String}
    (hfind : (Json.make members).find? "resources" = some (resourcesJson resources))
    (h : ∀ r ∈ resources, r.Representable) :
    readResources (.make members) message = .ok resources := by
  have hread : (elements (resourcesJson resources)).mapM readResource = .ok resources :=
    List.mapM_map_eq_ok resources fun r hr => readResource_resourceJson (h r hr)
  have harray : check (isArray (resourcesJson resources)) message = .ok () := check_of_eq_true rfl
  rw [readResources, if_pos (contains_of_find? hfind), member_of_find? hfind, harray]
  exact hread

theorem readInput_inputJson {input : GateInput} (h : input.Representable) :
    readInput (inputJson input) = .ok input := by
  have hkeys : keys (inputJson input) ["core", "port", "codeword"] = .ok () := keys_make (by simp)
  have hcore : (inputJson input).find? "core" = some (.unsigned input.core) := by
    simp [inputJson, Json.find?_make]
  have hport : (inputJson input).find? "port" = some (.unsigned input.port) := by
    simp [inputJson, Json.find?_make]
  have hcodeword : (inputJson input).find? "codeword" = some (.unsigned input.codeword) := by
    simp [inputJson, Json.find?_make]
  have hcheck : check ((inputJson input).contains "core" && (inputJson input).contains "port" &&
      (inputJson input).contains "codeword") "incomplete gate input" = .ok () := by
    refine check_of_eq_true ?_
    rw [Json.contains, hcore, Json.contains, hport, Json.contains, hcodeword]
    rfl
  have hcore' : integer (inputJson input) "core" 32 0 = .ok input.core := integer_make hcore h.core
  have hport' : integer (inputJson input) "port" 32 0 = .ok input.port := integer_make hport h.port
  have hcodeword' : integer (inputJson input) "codeword" 32 0 = .ok input.codeword :=
    integer_make hcodeword h.codeword
  rw [readInput, hkeys]
  simp only [hcheck, hcore', hport', hcodeword', bind, Except.bind, pure, Except.pure]

theorem readGate_gateJson {g : TwoQubitGate} (h : g.Representable) :
    readGate (gateJson g) = .ok g := by
  have hkeys : keys (gateJson g)
      ["name", "operation", "targets", "inputs", "resources", "duration"] = .ok () :=
    keys_make (by simp)
  have hname : (gateJson g).find? "name" = some (.string g.name) := by
    simp [gateJson, Json.find?_make]
  have hoperation : (gateJson g).find? "operation" = some (.string g.operation) := by
    simp [gateJson, Json.find?_make]
  have htargets : (gateJson g).find? "targets" = some (targetsJson g.targets) := by
    simp [gateJson, Json.find?_make]
  have hinputs : (gateJson g).find? "inputs" = some (.array (g.inputs.map inputJson)) := by
    simp [gateJson, Json.find?_make]
  have hresources : (gateJson g).find? "resources" = some (resourcesJson g.resources) := by
    simp [gateJson, Json.find?_make]
  have hduration : (gateJson g).find? "duration" = some (.unsigned g.duration) := by
    simp [gateJson, Json.find?_make]
  have hcheck : check ((gateJson g).contains "name" && (gateJson g).contains "operation" &&
      (gateJson g).contains "targets" && isArray (member (gateJson g) "targets") &&
      (gateJson g).contains "inputs" && isArray (member (gateJson g) "inputs") &&
      (gateJson g).contains "duration") "incomplete two-qubit gate definition" = .ok () := by
    refine check_of_eq_true ?_
    simp only [Json.contains, member, hname, hoperation, htargets, hinputs, hduration,
      Option.isSome_some, Option.getD_some]
    rfl
  have hduration' : integer (gateJson g) "duration" 64 20 = .ok g.duration :=
    integer_make hduration h.duration
  have hread : (elements (.array (g.inputs.map inputJson))).mapM readInput = .ok g.inputs :=
    List.mapM_map_eq_ok g.inputs fun input hinput => readInput_inputJson (h.inputs input hinput)
  have hresources' : readResources (gateJson g) "gate resources must be an array" =
      .ok g.resources := readResources_resourcesJson hresources h.resources
  rw [readGate, hkeys]
  simp only [hcheck, bind, Except.bind]
  simp only [member, hname, hoperation, htargets, hinputs, Option.getD_some, getString,
    hduration', readTargets h.targets, hread, hresources', pure, Except.pure]

/-! ## Actions -/

theorem readOperands_make {members : List (String × Json Double)} {operation : String}
    {operands : QuantumOperands}
    (hoperation : (Json.make members).find? "operation" = some (.string operation))
    (htargets : (Json.make members).find? "targets" = some (targetsJson operands.targets))
    (hresources : (Json.make members).find? "resources" = some (resourcesJson operands.resources))
    (h : operands.Representable) :
    readOperands (.make members) = .ok (operation, operands) := by
  have hcheck : check ((Json.make members).contains "targets" &&
      isArray (member (.make members) "targets")) "action targets are required" = .ok () := by
    refine check_of_eq_true ?_
    rw [contains_of_find? htargets, member_of_find? htargets]
    rfl
  rw [readOperands, value_make hoperation]
  simp only [getString, hcheck, bind, Except.bind]
  simp only [member_of_find? htargets, readTargets h.targets,
    readResources_resourcesJson hresources h.resources, pure, Except.pure]

theorem readFlag_make {members : List (String × Json Double)} {flag : ExecutionFlag}
    (hfind : (Json.make members).find? "execution_flag" = some (.string (flagName flag))) :
    readFlag (.make members) = .ok flag := by
  rw [readFlag, value_make hfind]
  simp only [getString, flagValue_flagName, bind, Except.bind]

/-- The operands of an action are found whatever else its kind writes. -/
theorem readOperands_actionJson {a : EventSpec} {operation : String} {operands : QuantumOperands}
    {rest : List (String × Json Double)}
    (hspec : specJson a.spec = operandsJson operation operands ++ rest)
    (h : operands.Representable) : readOperands (actionJson a) = .ok (operation, operands) := by
  refine readOperands_make ?_ ?_ ?_ h <;>
    simp [hspec, operandsJson, Json.find?_make]

section Spec
variable {a : EventSpec}

theorem readSpec_gate {v w : GateSpec} (hspec : a.spec = .gate v)
    (h : v.operands.Representable) : readSpec (actionJson a) (.gate w) = .ok a.spec := by
  have hoperands := readOperands_actionJson (a := a) (by rw [hspec]; rfl) h
  have hamplitude : value getDouble (actionJson a) "amplitude" {} = .ok v.amplitude :=
    value_make (j := .float v.amplitude) (by simp [hspec, specJson, operandsJson, Json.find?_make])
  have hflag : readFlag (actionJson a) = .ok v.executionFlag :=
    readFlag_make (by simp [hspec, specJson, operandsJson, Json.find?_make])
  rw [readSpec, hoperands, hspec]
  simp only [hamplitude, hflag, bind, Except.bind, pure, Except.pure]

theorem readSpec_pulse {v w : PulseSpec} (hspec : a.spec = .pulse v)
    (h : v.operands.Representable) : readSpec (actionJson a) (.pulse w) = .ok a.spec := by
  have hoperands := readOperands_actionJson (a := a) (by rw [hspec]; rfl) h
  have hamplitude : value getDouble (actionJson a) "amplitude" {} = .ok v.amplitude :=
    value_make (j := .float v.amplitude) (by simp [hspec, specJson, operandsJson, Json.find?_make])
  have haxis : value getString (actionJson a) "axis" "x" = .ok v.axis :=
    value_make (j := .string v.axis) (by simp [hspec, specJson, operandsJson, Json.find?_make])
  have hflag : readFlag (actionJson a) = .ok v.executionFlag :=
    readFlag_make (by simp [hspec, specJson, operandsJson, Json.find?_make])
  rw [readSpec, hoperands, hspec]
  simp only [hamplitude, haxis, hflag, bind, Except.bind, pure, Except.pure]

theorem readSpec_acquire {v w : AcquireSpec} (hspec : a.spec = .acquire v)
    (h : v.operands.Representable) (hdelay : v.discriminatorDelay < 2 ^ 64) :
    readSpec (actionJson a) (.acquire w) = .ok a.spec := by
  have hoperands := readOperands_actionJson (a := a) (by rw [hspec]; rfl) h
  have hdiscriminator : integer (actionJson a) "discriminator_delay" 64 w.discriminatorDelay =
      .ok v.discriminatorDelay :=
    integer_make (by simp [hspec, specJson, operandsJson, Json.find?_make]) hdelay
  have hseparate : value getBool (actionJson a) "separate_arm" false = .ok v.separateArm :=
    value_make (j := .boolean v.separateArm)
      (by simp [hspec, specJson, operandsJson, Json.find?_make])
  rw [readSpec, hoperands, hspec]
  simp only [hdiscriminator, hseparate, bind, Except.bind, pure, Except.pure]

theorem readSpec_discriminatorArm {v w : DiscriminatorArmSpec}
    (hspec : a.spec = .discriminatorArm v) (h : v.operands.Representable) :
    readSpec (actionJson a) (.discriminatorArm w) = .ok a.spec := by
  have hwritten : specJson a.spec = operandsJson v.operation v.operands ++ [] := by
    rw [hspec, List.append_nil]
    rfl
  have hoperands := readOperands_actionJson hwritten h
  rw [readSpec, hoperands, hspec]
  rfl

end Spec

/-- An action has only keys that its kind allows, so that it is read on its own kind's start. -/
theorem startAction_actionJson {p : Profile} {map : Mapping} {a : EventSpec}
    (hvalid : p.validateAction map a = .ok ()) (h : a.Representable) (port : ℕ) :
    ∃ start, startAction p port (actionJson a) a.kind = .ok start ∧
      readSpec (actionJson a) start.spec = .ok a.spec := by
  have hspec := h.spec
  cases hkind : a.spec with
  | gate v =>
    rw [hkind] at hspec
    have hkeys : keys (actionJson a) (operandKeys ++ ["amplitude", "execution_flag"]) = .ok () :=
      keys_make (by simp [hkind, specJson, operandsJson, operandKeys])
    refine ⟨{ port, spec := .gate {} }, ?_, hkind ▸ readSpec_gate hkind hspec⟩
    simp only [EventSpec.kind, hkind, startAction, hkeys, bind, Except.bind, pure, Except.pure]
  | pulse v =>
    rw [hkind] at hspec
    have hkeys : keys (actionJson a) (operandKeys ++ ["amplitude", "axis", "execution_flag"]) =
        .ok () := keys_make (by simp [hkind, specJson, operandsJson, operandKeys])
    refine ⟨{ port, spec := .pulse {} }, ?_, hkind ▸ readSpec_pulse hkind hspec⟩
    simp only [EventSpec.kind, hkind, startAction, hkeys, bind, Except.bind, pure, Except.pure]
  | acquire v =>
    rw [hkind] at hspec
    have hkeys : keys (actionJson a) (operandKeys ++ ["discriminator_delay", "separate_arm"]) =
        .ok () := keys_make (by simp [hkind, specJson, operandsJson, operandKeys])
    refine ⟨{ port, spec := .acquire {} }, ?_, hkind ▸ readSpec_acquire hkind hspec.1 hspec.2⟩
    simp only [EventSpec.kind, hkind, startAction, hkeys, bind, Except.bind, pure, Except.pure]
  | discriminatorArm v =>
    rw [hkind] at hspec
    have hkeys : keys (actionJson a) operandKeys = .ok () :=
      keys_make (by simp [hkind, specJson, operandsJson, operandKeys])
    refine ⟨{ port, spec := .discriminatorArm {} }, ?_,
      hkind ▸ readSpec_discriminatorArm hkind hspec⟩
    simp only [EventSpec.kind, hkind, startAction, hkeys, bind, Except.bind, pure, Except.pure]
  | gateOutput v =>
    have hkeys : keys (actionJson a) ["kind", "port", "delay", "duration", "gate"] = .ok () :=
      keys_make (by simp [hkind, specJson])
    have hname : value getString (actionJson a) "gate" "" = .ok v.gate :=
      value_make (j := .string v.gate) (by simp [hkind, specJson, Json.find?_make])
    obtain ⟨-, -, gate, hgate, -⟩ := (Profile.validateAction_spec hvalid).output v hkind
    refine ⟨{ port, duration := gate.duration, spec := .gateOutput ⟨v.gate⟩ }, ?_, rfl⟩
    simp only [EventSpec.kind, hkind, startAction, hkeys, hname, hgate, lift, Except.mapError, bind,
      Except.bind, pure, Except.pure]

/-- An action is read back under any port that its mapping would give it. -/
theorem readAction_actionJson {p : Profile} {map : Mapping} {a : EventSpec}
    (hvalid : p.validateAction map a = .ok ()) (h : a.Representable) (port : ℕ) :
    readAction p port (actionJson a) = .ok a := by
  obtain ⟨start, hstart, hspec⟩ := startAction_actionJson hvalid h port
  have hobject : check (isObject (actionJson a)) "action must be an object" = .ok () :=
    check_of_eq_true rfl
  have hkind : value getString (actionJson a) "kind" "gate" = .ok (kindName a.kind) :=
    value_make (j := .string (kindName a.kind)) (by simp [Json.find?_make])
  have hport : integer (actionJson a) "port" 32 start.port = .ok a.port :=
    integer_make (by simp [Json.find?_make]) h.port
  have hdelay : integer (actionJson a) "delay" 64 start.delay = .ok a.delay :=
    integer_make (by simp [Json.find?_make]) h.delay
  have hduration : integer (actionJson a) "duration" 64 start.duration = .ok a.duration :=
    integer_make (by simp [Json.find?_make]) h.duration
  rw [readAction, hobject, hkind]
  simp only [kindValue_kindName, hstart, hport, hdelay, hduration, hspec, bind, Except.bind, pure,
    Except.pure]

theorem readMapping_mappingJson {p : Profile} {m : Mapping}
    (hvalid : ∀ a ∈ m.actions, p.validateAction m a = .ok ()) (h : m.Representable) :
    readMapping p (mappingJson m) = .ok m := by
  have hkeys : keys (mappingJson m) ["port", "codeword", "actions"] = .ok () := keys_make (by simp)
  have hport : (mappingJson m).find? "port" = some (.unsigned m.port) := by
    simp [mappingJson, Json.find?_make]
  have hcodeword : (mappingJson m).find? "codeword" = some (.unsigned m.codeword) := by
    simp [mappingJson, Json.find?_make]
  have hactions : (mappingJson m).find? "actions" = some (.array (m.actions.map actionJson)) := by
    simp [mappingJson, Json.find?_make]
  have hcheck : check ((mappingJson m).contains "port" && (mappingJson m).contains "codeword" &&
      (mappingJson m).contains "actions") "incomplete mapping" = .ok () := by
    refine check_of_eq_true ?_
    simp only [Json.contains, hport, hcodeword, hactions, Option.isSome_some, Bool.and_self]
  have hport' : integer (mappingJson m) "port" 32 0 = .ok m.port := integer_make hport h.port
  have hcodeword' : integer (mappingJson m) "codeword" 32 0 = .ok m.codeword :=
    integer_make hcodeword h.codeword
  have hread : (elements (.array (m.actions.map actionJson))).mapM (readAction p m.port) =
      .ok m.actions :=
    List.mapM_map_eq_ok m.actions fun a ha =>
      readAction_actionJson (hvalid a ha) (h.actions a ha) m.port
  rw [readMapping, hkeys]
  simp only [hcheck, hport', hcodeword', bind, Except.bind]
  simp only [member, hactions, Option.getD_some, isArray, check, if_true, hread, pure, Except.pure]

/-! ## Profiles -/

section Profile
variable {p : Profile}

theorem readNumbers_profileJson (h : p.Representable) (q : Profile) :
    readNumbers q (profileJson p) = .ok
      { p with
        cpu := q.cpu, tcu := q.tcu, fastFeedback := q.fastFeedback, mappings := q.mappings
        twoQubitGates := q.twoQubitGates } := by
  have hnumbers := h.numbers
  have hticks := h.ticks
  simp only [List.forall_mem_cons] at hnumbers hticks
  obtain ⟨hmemory, hcommand, hreply, hresult, hfast, htiming, hevent, hstaging, hcapacity, hports,
    hqubits, hwidth, hseed, -⟩ := hnumbers
  have hread : ∀ (key : String) (n bits destination : ℕ),
      (profileJson p).find? key = some (.unsigned n) → n < 2 ^ bits →
        integer (profileJson p) key bits destination = .ok n :=
    fun key n bits destination hfind hlt => integer_make hfind hlt
  simp only [readNumbers,
    hread "start" p.start 64 _ (by simp [profileJson, Json.find?_make]) hticks.1,
    hread "watchdog" p.watchdog 64 _ (by simp [profileJson, Json.find?_make]) hticks.2.1,
    hread "memory_latency" p.memoryLatency 32 _ (by simp [profileJson, Json.find?_make]) hmemory,
    hread "command_latency" p.commandLatency 32 _ (by simp [profileJson, Json.find?_make]) hcommand,
    hread "reply_latency" p.replyLatency 32 _ (by simp [profileJson, Json.find?_make]) hreply,
    hread "cpu_result_latency" p.cpuResultLatency 32 _ (by simp [profileJson, Json.find?_make]) hresult,
    hread "fast_result_latency" p.fastResultLatency 32 _ (by simp [profileJson, Json.find?_make]) hfast,
    hread "timing_capacity" p.timingCapacity 32 _ (by simp [profileJson, Json.find?_make]) htiming,
    hread "event_capacity" p.eventCapacity 32 _ (by simp [profileJson, Json.find?_make]) hevent,
    hread "staging_capacity" p.stagingCapacity 32 _ (by simp [profileJson, Json.find?_make]) hstaging,
    hread "result_capacity" p.resultCapacity 32 _ (by simp [profileJson, Json.find?_make]) hcapacity,
    hread "ports" p.ports 32 _ (by simp [profileJson, Json.find?_make]) hports,
    hread "qubits" p.qubits 32 _ (by simp [profileJson, Json.find?_make]) hqubits,
    hread "firing_width" p.firingWidth 32 _ (by simp [profileJson, Json.find?_make]) hwidth,
    hread "seed" p.seed 32 _ (by simp [profileJson, Json.find?_make]) hseed,
    bind, Except.bind, pure, Except.pure]

theorem readGates_profileJson (h : p.Representable) (q : Profile) :
    readGates q (profileJson p) = .ok p.twoQubitGates := by
  have hfind : (profileJson p).find? "two_qubit_gates" =
      some (.array (p.twoQubitGates.map gateJson)) := by
    simp [profileJson, Json.find?_make]
  have hread : (elements (.array (p.twoQubitGates.map gateJson))).mapM readGate =
      .ok p.twoQubitGates :=
    List.mapM_map_eq_ok p.twoQubitGates fun g hg => readGate_gateJson (h.twoQubitGates g hg)
  rw [readGates, if_pos (contains_of_find? hfind), member_of_find? hfind]
  exact hread

theorem readMappings_profileJson (h : p.Representable) {q : Profile}
    (hvalid : ∀ m ∈ p.mappings, ∀ a ∈ m.actions, q.validateAction m a = .ok ()) :
    readMappings q (profileJson p) = .ok p.mappings := by
  have hfind : (profileJson p).find? "mappings" = some (.array (p.mappings.map mappingJson)) := by
    simp [profileJson, Json.find?_make]
  have hread : (elements (.array (p.mappings.map mappingJson))).mapM (readMapping q) =
      .ok p.mappings :=
    List.mapM_map_eq_ok p.mappings fun m hm =>
      readMapping_mappingJson (hvalid m hm) (h.mappings m hm)
  rw [readMappings, if_pos (contains_of_find? hfind), member_of_find? hfind]
  exact hread

/-- What is written of a validated profile is read back over any profile, in every field. -/
theorem applyProfile_profileJson (hvalid : p.validate = .ok ()) (h : p.Representable)
    (q : Profile) : applyProfile q (profileJson p) = .ok p := by
  have hkeys : keys (profileJson p) profileKeys = .ok () := keys_make (by simp [profileKeys])
  have hschema : readSchema (profileJson p) = .ok () := by
    have hfind : (profileJson p).find? "schema" = some (.integer 1) := by
      simp [profileJson, Json.find?_make]
    rw [readSchema, if_pos (contains_of_find? hfind), member_of_find? hfind]
    rfl
  have hcpu : readClock (profileJson p) "cpu" q.cpu = .ok p.cpu :=
    readClock_clockJson (by simp [Json.find?_make]) h.cpu
  have htcu : readClock (profileJson p) "tcu" q.tcu = .ok p.tcu :=
    readClock_clockJson (by simp [Json.find?_make]) h.tcu
  have hfeedback : ∀ r : Profile, readFeedback r (profileJson p) = .ok p.fastFeedback := by
    intro r
    have hfind : (profileJson p).find? "fast_feedback" = some (.boolean p.fastFeedback) := by
      simp [profileJson, Json.find?_make]
    rw [readFeedback, if_pos (contains_of_find? hfind), member_of_find? hfind]
    rfl
  -- An action is checked against the gates only, which are read before the mappings.
  have hmappings : readMappings { p with mappings := q.mappings } (profileJson p) =
      .ok p.mappings :=
    readMappings_profileJson h fun m hm a ha => Profile.validateAction_of_validate hvalid hm ha
  rw [applyProfile, hkeys]
  simp only [hschema, hcpu, htcu, readNumbers_profileJson h, hfeedback, readGates_profileJson h,
    hmappings, hvalid, lift, Except.mapError, bind, Except.bind, pure, Except.pure]

end Profile

theorem applyProfile_profileJson_everyKind :
    everyKind.validate = .ok () ∧ everyKind.Representable ∧
      applyProfile {} (profileJson everyKind) = .ok everyKind :=
  ⟨by decide, by decide, applyProfile_profileJson (by decide) (by decide) {}⟩

end ConfigJson
end Qsbit

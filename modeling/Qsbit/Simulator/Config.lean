import Qsbit.Device.Gates
import Qsbit.Lib.Interleave
import Qsbit.Profile.Mappings
import Qsbit.Sync
import Mathlib.Data.List.Forall2

/-!
# Configured cores

The simulator is given its cores with their profiles and the connections between
them. `validated` checks them before anything is built. Each core has output ports,
events and measurements of its own; on the way to the device they are renamed, so
that those of different cores are different, and the results are named back.

The check of the time resolution is left out: a tick is a nanosecond here. A core's
program is not part of its configuration, as the memory is left out.

## Main definitions

* `CoreConfig`, `validated` — the configuration and its checks.
* `portOffsets`, `deviceEvents`, `localize` — the renaming and its inverse.
* `Configured` — what the checks establish of the cores.
* `globalId_injective`, `localize_globalId` — the renaming keeps cores and names apart.
* `Renamed` — an event and its image.
-/
namespace Qsbit
open Interleave

structure CoreConfig where
  id : ℕ
  profile : Profile
  syncCapacity : ℕ := 8
  deriving DecidableEq, Repr

namespace CoreConfig

/-- The checks on each core, with the ids seen so far; yields all ids and the sum of the ports. -/
def validateCores (first : Profile) (ids : List ℕ) (ports : ℕ) :
    List CoreConfig → Except Fault (List ℕ × ℕ)
  | [] => pure (ids, ports)
  | core :: rest => do
      core.profile.validate
      require (core.id ≤ 131071 ∧ core.id ∉ ids) .invalidProfile
        "core addresses must be unique 17-bit integers"
      let p := core.profile
      require (p.tcu.period = first.tcu.period ∧ p.tcu.phase = first.tcu.phase ∧
          p.qubits = first.qubits ∧ p.seed = first.seed ∧ p.watchdog = first.watchdog ∧
          p.twoQubitGates = first.twoQubitGates)
        .invalidProfile
        "cores must share the TCU clock, qubit count, seed, watchdog and two-qubit gates"
      let ports ← checkedAdd ports p.ports
      validateCores first (core.id :: ids) ports rest

def validateLinks (ids : List ℕ) : List SyncConnection → Except Fault Unit
  | [] => pure ()
  | link :: rest => do
      require (link.first ∈ ids ∧ link.second ∈ ids) .invalidProfile
        "synchronization connection names an unknown core"
      validateLinks ids rest

/-- The mapping is the one output of a gate. -/
def drives (gate : String) (mapping : Mapping) : Bool :=
  mapping.actions.length = 1 ∧ ∀ a ∈ mapping.actions.head?, a.spec = .gateOutput { gate }

/-- Each input of a gate is an output of the core that it names. -/
def validateInputs (cores : List CoreConfig) (gate : TwoQubitGate) :
    List GateInput → Except Fault Unit
  | [] => pure ()
  | input :: rest => do
      match cores.find? (·.id = input.core) with
      | none => .error ⟨.invalidProfile, "gate input names an unknown core"⟩
      | some core => do
          require ((core.profile.mappings.find? fun m =>
              m.port = input.port ∧ m.codeword = input.codeword).any (drives gate.name))
            .invalidProfile "gate input has no matching output mapping"
          validateInputs cores gate rest

def validateGates (cores : List CoreConfig) : List TwoQubitGate → Except Fault Unit
  | [] => pure ()
  | gate :: rest => do
      validateInputs cores gate gate.inputs
      validateGates cores rest

/-- A gate output of a mapping is an input of its gate. -/
def validateOutput (first : Profile) (core : CoreConfig) (mapping : Mapping) (a : EventSpec) :
    Except Fault Unit :=
  match a.spec with
  | .gateOutput value => do
      let gate ← first.gate value.gate
      require ({ core := core.id, port := mapping.port, codeword := mapping.codeword } ∈ gate.inputs)
        .invalidProfile "output mapping is not a configured gate input"
  | _ => pure ()

def validateOutputs (first : Profile) (core : CoreConfig) (mapping : Mapping) :
    List EventSpec → Except Fault Unit
  | [] => pure ()
  | a :: rest => do
      validateOutput first core mapping a
      validateOutputs first core mapping rest

def validateMappings (first : Profile) (core : CoreConfig) : List Mapping → Except Fault Unit
  | [] => pure ()
  | mapping :: rest => do
      validateOutputs first core mapping mapping.actions
      validateMappings first core rest

def validateAllOutputs (first : Profile) : List CoreConfig → Except Fault Unit
  | [] => pure ()
  | core :: rest => do
      validateMappings first core core.profile.mappings
      validateAllOutputs first rest

end CoreConfig

/-- Check the cores and their connections; yields the profile of the first core. -/
def validated (cores : List CoreConfig) (links : List SyncConnection) : Except Fault Profile :=
  match cores with
  | [] => .error ⟨.invalidProfile, "at least one core is required"⟩
  | front :: _ => do
      let first := front.profile
      let (ids, ports) ← CoreConfig.validateCores first [] 0 cores
      require (ports ≤ 2 ^ 32 - 1) .invalidProfile "total output port count exceeds uint32"
      CoreConfig.validateLinks ids links
      CoreConfig.validateGates cores first.twoQubitGates
      CoreConfig.validateAllOutputs first cores
      pure first

/-! ## Renaming -/

/-- Where the output ports of each core begin. -/
def portOffsets (cores : List CoreConfig) : List ℕ :=
  runningSums 0 (cores.map (·.profile.ports))

/-- The device's name of an event or measurement of a core. -/
def globalId (cores index id : ℕ) : Except Fault ℕ := do
  require (0 < id) .protocol "zero event or measurement identity"
  checkedAdd (← checkedMul (id - 1) cores) (index + 1)

/-- An event as the device sees it, when there is more than one core. The offset is added without
overflow, as all ports are less than their sum. -/
def deviceEvent (ids offsets : List ℕ) (index : ℕ) (event : OperationEvent) :
    Except Fault OperationEvent := do
  let id ← globalId ids.length index event.id
  let reference ← (match event.reference with
    | none => pure none
    | some r => do
        let measurement ← globalId ids.length index r.measurement
        pure (some { r with measurement }) : Except Fault (Option MeasurementReference))
  pure
    { event with
      id, core := ids[index]?, reference
      action := { event.action with port := event.action.port + offsets[index]?.getD 0 } }

def deviceEventsFrom (ids offsets : List ℕ) (index : ℕ) :
    List OperationEvent → Except Fault (List OperationEvent)
  | [] => pure []
  | event :: rest => do
      let event ← deviceEvent ids offsets index event
      let events ← deviceEventsFrom ids offsets index rest
      pure (event :: events)

/-- A launch of a core as the device sees it. -/
def deviceEvents (ids offsets : List ℕ) (index : ℕ) (batch : TriggeredEvents) :
    Except Fault TriggeredEvents :=
  if ids.length = 1 then
    -- Only the core is named, and core 0 is not.
    pure (if ids.headD 0 ≠ 0 then
        { batch with events := batch.events.map fun e => { e with core := some (ids.headD 0) } }
      else batch)
  else do
    let events ← deviceEventsFrom ids offsets index batch.events
    pure { batch with events }

/-- The core that a result of the device belongs to, and the result under the core's name for it. -/
def localize (cores : ℕ) (result : Completion) : Except Fault (ℕ × Completion) := do
  let measurement := result.reference.measurement
  require (0 < measurement) .protocol "zero measurement identity"
  pure ((measurement - 1) % cores,
    { result with
      reference := { result.reference with measurement := (measurement - 1) / cores + 1 } })

/-! ## What the checks establish -/

/-- What is known of validated cores. -/
structure Configured (cores : List CoreConfig) (first : Profile) : Prop where
  nonempty : cores ≠ []
  profiles : ∀ core ∈ cores, core.profile.validate = .ok ()
  ids : (cores.map (·.id)).Nodup
  clock : ∀ core ∈ cores, core.profile.tcu = first.tcu
  qubits : ∀ core ∈ cores, core.profile.qubits = first.qubits
  gates : ∀ core ∈ cores, core.profile.twoQubitGates = first.twoQubitGates
  inputs : ∀ gate ∈ first.twoQubitGates, ∀ input ∈ gate.inputs, ∃ core ∈ cores, core.id = input.core ∧
    ∃ m ∈ core.profile.mappings, m.port = input.port ∧ m.codeword = input.codeword ∧
      CoreConfig.drives gate.name m = true
  outputs : ∀ core ∈ cores, ∀ m ∈ core.profile.mappings, ∀ a ∈ m.actions, ∀ value,
    a.spec = .gateOutput value → ∃ gate, first.gate value.gate = .ok gate ∧
      { core := core.id, port := m.port, codeword := m.codeword } ∈ gate.inputs

namespace CoreConfig
variable {first : Profile} {cores : List CoreConfig} {u : Unit}

theorem validateCores_spec {ids ids' : List ℕ} {ports ports' : ℕ}
    (h : validateCores first ids ports cores = .ok (ids', ports')) :
    (∀ core ∈ cores, core.profile.validate = .ok () ∧ core.id ∉ ids ∧
      core.profile.tcu = first.tcu ∧ core.profile.qubits = first.qubits ∧
      core.profile.twoQubitGates = first.twoQubitGates) ∧ (cores.map (·.id)).Nodup := by
  induction cores generalizing ids ports with
  | nil => simp
  | cons core rest ih =>
    simp only [validateCores, Except.bind_eq_ok_iff, require_eq_ok_iff, exists_const] at h
    obtain ⟨_, hvalid, ⟨-, hid⟩, ⟨hperiod, hphase, hqubits, -, -, hgates⟩, _, -, hrest⟩ := h
    obtain ⟨hcores, hnodup⟩ := ih hrest
    have hclock : core.profile.tcu = first.tcu := by
      cases hcore : core.profile.tcu
      cases hfirst : first.tcu
      simp_all
    constructor
    · intro core' hcore'
      rcases List.mem_cons.1 hcore' with rfl | hcore'
      · exact ⟨hvalid, hid, hclock, hqubits, hgates⟩
      · obtain ⟨hvalid', hid', hsame⟩ := hcores core' hcore'
        exact ⟨hvalid', fun hmem => hid' (List.mem_cons_of_mem _ hmem), hsame⟩
    · rw [List.map_cons, List.nodup_cons]
      refine ⟨fun hmem => ?_, hnodup⟩
      obtain ⟨core', hcore', heq⟩ := List.mem_map.1 hmem
      exact (hcores core' hcore').2.1 (heq ▸ List.mem_cons_self)

theorem validateInputs_spec {gate : TwoQubitGate} {inputs : List GateInput}
    (h : validateInputs cores gate inputs = .ok u) : ∀ input ∈ inputs,
      ∃ core ∈ cores, core.id = input.core ∧ ∃ m ∈ core.profile.mappings,
        m.port = input.port ∧ m.codeword = input.codeword ∧ drives gate.name m = true := by
  induction inputs with
  | nil => simp
  | cons input rest ih =>
    simp only [validateInputs] at h
    cases hfind : cores.find? (·.id = input.core) with
    | none => simp [hfind] at h
    | some core =>
      simp only [hfind, Except.bind_eq_ok_iff, require_eq_ok_iff, exists_const,
        Option.any_eq_true] at h
      obtain ⟨⟨m, hm, hdrives⟩, hrest⟩ := h
      have hkey := List.find?_some hm
      refine List.forall_mem_cons.2 ⟨⟨core, List.mem_of_find?_eq_some hfind,
        by simpa using List.find?_some hfind, m, List.mem_of_find?_eq_some hm, ?_⟩, ih hrest⟩
      simp only [decide_eq_true_eq] at hkey
      exact ⟨hkey.1, hkey.2, hdrives⟩

theorem validateGates_spec {gates : List TwoQubitGate} (h : validateGates cores gates = .ok u) :
    ∀ gate ∈ gates, validateInputs cores gate gate.inputs = .ok () := by
  induction gates with
  | nil => simp
  | cons gate rest ih =>
    simp only [validateGates, Except.bind_eq_ok_iff] at h
    obtain ⟨_, hgate, hrest⟩ := h
    exact List.forall_mem_cons.2 ⟨hgate, ih hrest⟩

theorem validateOutputs_spec {core : CoreConfig} {m : Mapping} {actions : List EventSpec}
    (h : validateOutputs first core m actions = .ok u) :
    ∀ a ∈ actions, validateOutput first core m a = .ok () := by
  induction actions with
  | nil => simp
  | cons a rest ih =>
    simp only [validateOutputs, Except.bind_eq_ok_iff] at h
    obtain ⟨_, ha, hrest⟩ := h
    exact List.forall_mem_cons.2 ⟨ha, ih hrest⟩

theorem validateMappings_spec {core : CoreConfig} {mappings : List Mapping}
    (h : validateMappings first core mappings = .ok u) :
    ∀ m ∈ mappings, validateOutputs first core m m.actions = .ok () := by
  induction mappings with
  | nil => simp
  | cons m rest ih =>
    simp only [validateMappings, Except.bind_eq_ok_iff] at h
    obtain ⟨_, hm, hrest⟩ := h
    exact List.forall_mem_cons.2 ⟨hm, ih hrest⟩

theorem validateAllOutputs_spec (h : validateAllOutputs first cores = .ok u) :
    ∀ core ∈ cores, validateMappings first core core.profile.mappings = .ok () := by
  induction cores with
  | nil => simp
  | cons core rest ih =>
    simp only [validateAllOutputs, Except.bind_eq_ok_iff] at h
    obtain ⟨_, hcore, hrest⟩ := h
    exact List.forall_mem_cons.2 ⟨hcore, ih hrest⟩

end CoreConfig

theorem configured_of_validated {cores : List CoreConfig} {links : List SyncConnection}
    {first : Profile} (h : validated cores links = .ok first) : Configured cores first := by
  unfold validated at h
  split at h
  · simp at h
  · rename_i front rest
    simp only [Except.bind_eq_ok_iff, require_eq_ok_iff, exists_const, Except.pure_eq_ok_iff] at h
    obtain ⟨⟨ids, ports⟩, hcores, -, _, -, _, hgates, _, houtputs, rfl⟩ := h
    obtain ⟨hcores, hnodup⟩ := CoreConfig.validateCores_spec hcores
    exact
      { nonempty := by simp
        profiles := fun core hcore => (hcores core hcore).1
        ids := hnodup
        clock := fun core hcore => (hcores core hcore).2.2.1
        qubits := fun core hcore => (hcores core hcore).2.2.2.1
        gates := fun core hcore => (hcores core hcore).2.2.2.2
        inputs := fun gate hgate =>
          CoreConfig.validateInputs_spec (CoreConfig.validateGates_spec hgates gate hgate)
        outputs := by
          intro core hcore m hm a ha value hspec
          have hmappings := CoreConfig.validateAllOutputs_spec houtputs core hcore
          have houtput := CoreConfig.validateOutputs_spec
            (CoreConfig.validateMappings_spec hmappings m hm) a ha
          simp only [CoreConfig.validateOutput, hspec, Except.bind_eq_ok_iff,
            require_eq_ok_iff] at houtput
          exact houtput }

/-! ## What the renaming keeps apart -/

section Renaming
variable {cores : List CoreConfig} {n i j k l : ℕ}

theorem eq_of_globalId {id : ℕ} (h : globalId n i k = .ok id) :
    0 < k ∧ id = lane n i (k - 1) + 1 := by
  simp only [globalId, Except.bind_eq_ok_iff, require_eq_ok_iff, exists_const] at h
  obtain ⟨hpos, product, hproduct, hsum⟩ := h
  rw [eq_of_checkedAdd hsum, eq_of_checkedMul hproduct]
  exact ⟨hpos, by rw [lane]; omega⟩

/-- Different cores and different names of one core are renamed differently. -/
theorem globalId_injective {id : ℕ} (hi : i < n) (hj : j < n) (hk : globalId n i k = .ok id)
    (hl : globalId n j l = .ok id) : i = j ∧ k = l := by
  obtain ⟨hkpos, hid⟩ := eq_of_globalId hk
  obtain ⟨hlpos, hid'⟩ := eq_of_globalId hl
  obtain ⟨hij, hkl⟩ := lane_injective (k := k - 1) (l := l - 1) hi hj (by omega)
  exact ⟨hij, by omega⟩

/-- The inverse finds the core and its own name. -/
theorem localize_globalId {id : ℕ} (hi : i < n) (hk : globalId n i k = .ok id)
    (result : Completion) (hid : result.reference.measurement = id) :
    localize n result = .ok (i, { result with
      reference := { result.reference with measurement := k } }) := by
  obtain ⟨hpos, rfl⟩ := eq_of_globalId hk
  have hname : lane n i (k - 1) / n + 1 = k := by
    rw [lane_div hi]
    omega
  simp only [localize, hid, Nat.add_sub_cancel, lane_mod hi, hname, require,
    if_pos (Nat.succ_pos _)]
  rfl

/-! ## A launch as the device sees it -/

/-- How an event of a core and its image differ. -/
structure Renamed (cores : List CoreConfig) (core : CoreConfig) (i : ℕ) (event image : OperationEvent) :
    Prop where
  id : 0 < event.id → image.id = lane cores.length i (event.id - 1) + 1
  reference : image.reference = none ∧ event.reference = none ∨ ∃ r r',
    event.reference = some r ∧ image.reference = some r' ∧ r'.epoch = r.epoch ∧ r'.target = r.target ∧
      (0 < r.measurement → r'.measurement = lane cores.length i (r.measurement - 1) + 1)
  core : event.core = none → image.core.getD 0 = core.id
  port : ∃ offset, (portOffsets cores)[i]? = some offset ∧
    image.action = { event.action with port := event.action.port + offset }
  rest : image.epoch = event.epoch ∧ image.label = event.label ∧
    image.sourcePort = event.sourcePort ∧ image.codeword = event.codeword

theorem offset_of_core {core : CoreConfig} (hi : cores[i]? = some core) :
    ∃ offset, (portOffsets cores)[i]? = some offset := by
  have hlt : i < (portOffsets cores).length := by
    rw [portOffsets, length_runningSums, List.length_map]
    exact (List.getElem?_eq_some_iff.1 hi).1
  exact ⟨_, List.getElem?_eq_getElem hlt⟩

theorem renamed_of_deviceEvent {core : CoreConfig} {event image : OperationEvent}
    (hi : cores[i]? = some core)
    (h : deviceEvent (cores.map (·.id)) (portOffsets cores) i event = .ok image) :
    Renamed cores core i event image := by
  obtain ⟨offset, hoffset⟩ := offset_of_core hi
  simp only [deviceEvent, Except.bind_eq_ok_iff, Except.pure_eq_ok_iff, List.length_map] at h
  obtain ⟨id, hid, reference, hreference, rfl⟩ := h
  refine ⟨fun _ => (eq_of_globalId hid).2, ?_, fun _ => ?_, ⟨offset, hoffset, ?_⟩, rfl, rfl, rfl, rfl⟩
  · cases href : event.reference with
    | none =>
      simp only [href, Except.pure_eq_ok_iff] at hreference
      exact .inl ⟨hreference.symm, rfl⟩
    | some r =>
      simp only [href, Except.bind_eq_ok_iff, Except.pure_eq_ok_iff] at hreference
      obtain ⟨measurement, hmeasurement, rfl⟩ := hreference
      exact .inr ⟨r, _, rfl, rfl, rfl, rfl, fun _ => (eq_of_globalId hmeasurement).2⟩
  · rw [List.getElem?_map, hi]
    rfl
  · rw [hoffset]
    rfl

/-- Every event of a launch has one image, in its place. -/
theorem renamed_of_deviceEvents {core : CoreConfig} {batch image : TriggeredEvents}
    (hi : cores[i]? = some core)
    (h : deviceEvents (cores.map (·.id)) (portOffsets cores) i batch = .ok image) :
    image.epoch = batch.epoch ∧ image.label = batch.label ∧ image.fireTick = batch.fireTick ∧
      List.Forall₂ (Renamed cores core i) batch.events image.events := by
  unfold deviceEvents at h
  by_cases hone : (cores.map (·.id)).length = 1
  · rw [if_pos hone] at h
    obtain rfl := Except.pure_eq_ok_iff.1 h
    obtain ⟨front, rfl⟩ := List.length_eq_one_iff.1 (List.length_map (f := CoreConfig.id) ▸ hone)
    obtain rfl : i = 0 := by
      have := (List.getElem?_eq_some_iff.1 hi).1
      simp only [List.length_cons, List.length_nil] at this
      omega
    obtain rfl : front = core := by simpa using hi
    have hrenamed : ∀ event core', (event.core = none → core'.getD 0 = front.id) →
        Renamed [front] front 0 event { event with core := core' } := by
      intro event core' hcore
      refine ⟨fun hpos => ?_, ?_, hcore, ⟨0, rfl, rfl⟩, rfl, rfl, rfl, rfl⟩
      · simp only [List.length_singleton, lane]
        omega
      · cases href : event.reference with
        | none => exact .inl ⟨rfl, rfl⟩
        | some r =>
          refine .inr ⟨r, r, rfl, rfl, rfl, rfl, fun hpos => ?_⟩
          simp only [List.length_singleton, lane]
          omega
    by_cases hzero : front.id = 0
    · rw [if_neg (by simpa using hzero)]
      refine ⟨rfl, rfl, rfl, List.forall₂_same.2 fun event _ => ?_⟩
      refine hrenamed event event.core fun hnone => ?_
      rw [hnone, hzero]
      rfl
    · rw [if_pos (by simpa using hzero)]
      refine ⟨rfl, rfl, rfl, ?_⟩
      rw [List.forall₂_map_right_iff]
      exact List.forall₂_same.2 fun event _ => hrenamed event _ fun _ => rfl
  · rw [if_neg hone] at h
    simp only [Except.bind_eq_ok_iff, Except.pure_eq_ok_iff] at h
    obtain ⟨events, hevents, rfl⟩ := h
    refine ⟨rfl, rfl, rfl, ?_⟩
    change List.Forall₂ (Renamed cores core i) batch.events events
    generalize batch.events = sent at hevents ⊢
    induction sent generalizing events with
    | nil =>
      rw [← Except.pure_eq_ok_iff.1 hevents]
      exact .nil
    | cons event rest ih =>
      simp only [deviceEventsFrom, Except.bind_eq_ok_iff, Except.pure_eq_ok_iff] at hevents
      obtain ⟨image, himage, images, himages, rfl⟩ := hevents
      exact .cons (renamed_of_deviceEvent hi himage) (ih _ himages)

/-- An event that the device sees is the image of one of the launch. -/
theorem exists_of_image {core : CoreConfig} {events images : List OperationEvent}
    (h : List.Forall₂ (Renamed cores core i) events images) {image : OperationEvent}
    (himage : image ∈ images) : ∃ event ∈ events, Renamed cores core i event image := by
  induction h with
  | nil => simp at himage
  | cons hrenamed _ ih =>
    rcases List.mem_cons.1 himage with rfl | himage
    · exact ⟨_, List.mem_cons_self, hrenamed⟩
    · obtain ⟨event, hevent, hrenamed⟩ := ih himage
      exact ⟨event, List.mem_cons_of_mem _ hevent, hrenamed⟩

end Renaming
end Qsbit

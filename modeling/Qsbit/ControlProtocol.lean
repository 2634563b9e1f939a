import Qsbit.Profile

/-!
# Timing points and their events

An enqueue request is a timing point together with the events it manifests.
`decodeCodeword` produces the events of one codeword; `validateTimingEvents`
checks a request against the profile, once where it is built and once where it
is admitted.

## Main definitions

* `TimingEvents` — one enqueue request.
* `decodeCodeword`, `validateTimingEvents` — the two functions above.
* `WellFormed` — what a validated request satisfies.
-/
namespace Qsbit

/-- What an empty timing queue means after a point has been triggered. -/
inductive UnderflowPolicy
  | inherit | strict | pauseWhenEmpty
  deriving DecidableEq, Repr

structure OperationEvent where
  epoch : ℕ := 0
  id : ℕ := 0
  instruction : ℕ := 0
  label : ℕ := 0
  sourcePort : ℕ := 0
  codeword : ℕ := 0
  action : EventSpec
  reference : Option MeasurementReference := none
  core : Option ℕ := none
  deriving DecidableEq, Repr

structure TimingPoint where
  epoch : ℕ := 0
  label : ℕ := 0
  interval : ℕ := 0
  manifest : List ℕ := []
  synchronizations : List ℕ := []
  underflowPolicy : UnderflowPolicy := .inherit
  deriving DecidableEq, Repr

/-- One enqueue request: a timing point and its associated operation events. -/
structure TimingEvents where
  point : TimingPoint
  events : List OperationEvent := []
  configuration : String := ""
  deriving DecidableEq, Repr

structure EnqueueReply where
  label : ℕ := 0
  deriving DecidableEq, Repr

structure EndOfStream where
  lastLabel : ℕ := 0
  deriving DecidableEq, Repr

structure TriggeredEvents where
  epoch : ℕ := 0
  label : ℕ := 0
  fireTick : ℕ := 0
  events : List OperationEvent := []
  deriving DecidableEq, Repr

/-- An event with its physical interval; a gate output carries its gate in `resolved`. -/
structure ScheduledEvent where
  event : OperationEvent
  start : ℕ := 0
  «end» : ℕ := 0
  resolved : EventSpec
  deriving DecidableEq, Repr

/-! ## Codeword decoding -/

def isReadout (a : EventSpec) : Bool := a.kind = .acquire ∨ a.kind = .discriminatorArm

/-- The references are current, nonzero and distinct in target and identity. -/
def checkReferences (epoch : ℕ) (seen : List MeasurementReference) :
    List MeasurementReference → Except Fault Unit
  | [] => pure ()
  | r :: rest => do
      require (r.epoch = epoch ∧ r.measurement ≠ 0 ∧ (∀ s ∈ seen, s.target ≠ r.target) ∧
          ∀ s ∈ seen, s.measurement ≠ r.measurement)
        .invalidMeasurement "invalid or duplicate measurement reference"
      checkReferences epoch (r :: seen) rest

/-- The reference a readout takes: the last one with the readout's only target. -/
def referenceOf (references : List MeasurementReference) (a : EventSpec) :
    Option MeasurementReference :=
  if isReadout a ∧ a.targets.length = 1 then
    (references.filter fun r => r.target = a.targets.headD 0).getLast?
  else none

/-- The events of a mapping's actions, the first with identity `next`. -/
def decodeActions (profile : TimingConfig) (port codeword epoch instruction : ℕ)
    (references : List MeasurementReference) (first : ℕ) (count : ℕ) :
    List EventSpec → Except Fault (List OperationEvent)
  | [] => pure []
  | a :: rest => do
      require (isReadout a → (referenceOf references a).isSome)
        .invalidMeasurement "readout has no reserved reference"
      require (a.executionFlag = .always ∨ profile.fastFeedback)
        .unsupportedCapability "fast feedback is disabled"
      let id ← checkedAdd first count
      let events ← decodeActions profile port codeword epoch instruction references first
        (count + 1) rest
      pure ({ epoch, id, instruction, sourcePort := port, codeword, action := a
              reference := referenceOf references a } :: events)

/-- The events of one codeword, with consecutive identities from `first`. -/
def decodeCodeword (profile : TimingConfig) (port codeword epoch instruction first : ℕ)
    (references : List MeasurementReference) : Except Fault (List OperationEvent) := do
  let map ← profile.mapping port codeword
  require (references.length = map.actions.countP fun a => a.kind = .acquire)
    .invalidMeasurement "measurement reference count differs from acquisition count"
  checkReferences epoch [] references
  decodeActions profile port codeword epoch instruction references first 0 map.actions

/-! ## Request validation -/

/-- The checks on the events of a request, each paired with its manifest entry. -/
def validateEvents (profile : TimingConfig) (point : TimingPoint) (seen : List OperationEvent) :
    List (OperationEvent × ℕ) → Except Fault Unit
  | [] => pure ()
  | (e, id) :: rest => do
      require (e.epoch = point.epoch ∧ e.label = point.label ∧ e.id ≠ 0 ∧ e.id = id ∧
          ∀ s ∈ seen, s.id ≠ e.id)
        .manifestMismatch "invalid manifested event identity"
      require (e.action.port < profile.ports) .invalidPort "resolved output port is invalid"
      let count := seen.countP (fun s => s.action.port = e.action.port) + 1
      require (count ≤ profile.firingWidth ∧ count ≤ profile.eventCapacity)
        .capacity "request exceeds per-port firing or storage capacity"
      let map ← profile.mapping e.sourcePort e.codeword
      require (map.actions.any (· == e.action))
        .protocol "resolved descriptor differs from immutable mapping"
      validateEvents profile point (seen ++ [e]) rest

/-- The checks on a request. Its underflow policy is one of the three by its type. -/
def validateTimingEvents (request : TimingEvents) (profile : TimingConfig) :
    Except Fault Unit := do
  require (request.point.interval = 0 ∨ request.point.underflowPolicy ≠ .inherit)
    .protocol "positive intervals require an explicit underflow policy"
  require (request.configuration = profile.configuration) .protocol "request profile mismatch"
  require (request.events.length = request.point.manifest.length)
    .manifestMismatch "manifest count differs from event count"
  require (request.events.length ≤ profile.stagingCapacity) .capacity "oversized staged request"
  require (request.point.synchronizations.length ≤ profile.stagingCapacity)
    .capacity "oversized synchronization request"
  require (request.point.synchronizations.length ≤ 1)
    .invalidOperand "only one sync is allowed at a time point"
  require (request.point.synchronizations.Nodup ∧ ∀ t ∈ request.point.synchronizations, t ≤ 131071)
    .invalidOperand "invalid or duplicate synchronization target"
  validateEvents profile request.point [] (request.events.zip request.point.manifest)

/-- What a validated request satisfies. -/
structure WellFormed (profile : TimingConfig) (request : TimingEvents) : Prop where
  policy : 0 < request.point.interval → request.point.underflowPolicy ≠ .inherit
  manifest : request.events.map (·.id) = request.point.manifest
  nodup : request.point.manifest.Nodup
  epoch : ∀ e ∈ request.events, e.epoch = request.point.epoch
  label : ∀ e ∈ request.events, e.label = request.point.label
  port : ∀ e ∈ request.events, e.action.port < profile.ports
  synchronizations : request.point.synchronizations.length ≤ 1

/-- One pass over the events establishes the clauses about them. -/
theorem validateEvents_spec {profile : TimingConfig} {point : TimingPoint}
    {pairs : List (OperationEvent × ℕ)} {seen : List OperationEvent}
    (h : validateEvents profile point seen pairs = .ok ()) :
    (∀ p ∈ pairs, p.1.id = p.2 ∧ p.1.epoch = point.epoch ∧ p.1.label = point.label ∧
      p.1.action.port < profile.ports ∧ ∀ s ∈ seen, s.id ≠ p.1.id) ∧
    (pairs.map fun p => p.1.id).Nodup := by
  induction pairs generalizing seen with
  | nil => simp
  | cons p rest ih =>
    obtain ⟨e, id⟩ := p
    simp only [validateEvents, Except.bind_eq_ok_iff, require_eq_ok_iff, exists_const] at h
    obtain ⟨⟨hepoch, hlabel, -, hid, hseen⟩, hport, -, map, -, -, hrest⟩ := h
    obtain ⟨hall, hnodup⟩ := ih hrest
    constructor
    · intro q hq
      rcases List.mem_cons.1 hq with rfl | hq
      · exact ⟨hid, hepoch, hlabel, hport, hseen⟩
      · obtain ⟨h1, h2, h3, h4, h5⟩ := hall q hq
        exact ⟨h1, h2, h3, h4, fun s hs => h5 s (by simp [hs])⟩
    · refine List.nodup_cons.2 ⟨?_, hnodup⟩
      intro hmem
      obtain ⟨q, hq, hqe⟩ := List.mem_map.1 hmem
      exact (hall q hq).2.2.2.2 e (by simp) hqe.symm

/-- Validation never complains about time. -/
theorem code_of_validateEvents {profile : TimingConfig} {point : TimingPoint}
    {pairs : List (OperationEvent × ℕ)} {seen : List OperationEvent} {f : Fault}
    (h : validateEvents profile point seen pairs = .error f) : f.code ≠ .lateAdmission := by
  induction pairs generalizing seen with
  | nil => simp [validateEvents] at h
  | cons p rest ih =>
    simp only [validateEvents, TimingConfig.mapping, Except.bind_eq_error_iff,
      require_eq_error_iff] at h
    rcases h with ⟨-, rfl⟩ | ⟨_, -, ⟨-, rfl⟩ | ⟨_, -, ⟨-, rfl⟩ | ⟨_, -, h | ⟨_, -, ⟨-, rfl⟩ |
      ⟨_, -, h⟩⟩⟩⟩⟩
    · simp
    · simp
    · simp
    · rcases h with ⟨-, rfl⟩ | ⟨_, -, h⟩
      · simp
      · split at h
        · simp at h
        · simp only [Except.error.injEq] at h
          simp [← h]
    · simp
    · exact ih h

theorem code_of_validateTimingEvents {request : TimingEvents} {profile : TimingConfig} {f : Fault}
    (h : validateTimingEvents request profile = .error f) : f.code ≠ .lateAdmission := by
  simp only [validateTimingEvents, Except.bind_eq_error_iff, require_eq_error_iff] at h
  rcases h with ⟨-, rfl⟩ | ⟨_, -, ⟨-, rfl⟩ | ⟨_, -, ⟨-, rfl⟩ | ⟨_, -, ⟨-, rfl⟩ | ⟨_, -, ⟨-, rfl⟩ |
    ⟨_, -, ⟨-, rfl⟩ | ⟨_, -, ⟨-, rfl⟩ | ⟨_, -, h⟩⟩⟩⟩⟩⟩⟩
  all_goals first | exact code_of_validateEvents h | simp

theorem wellFormed_of_validate {request : TimingEvents} {profile : TimingConfig}
    (h : validateTimingEvents request profile = .ok ()) : WellFormed profile request := by
  simp only [validateTimingEvents, Except.bind_eq_ok_iff, require_eq_ok_iff, exists_const] at h
  obtain ⟨hpolicy, -, hcount, -, -, hsync, -, hevents⟩ := h
  obtain ⟨hall, hnodup⟩ := validateEvents_spec hevents
  have hfst : (request.events.zip request.point.manifest).map Prod.fst = request.events :=
    List.map_fst_zip (by omega)
  have hsnd : (request.events.zip request.point.manifest).map Prod.snd = request.point.manifest :=
    List.map_snd_zip (by omega)
  have hids : (request.events.zip request.point.manifest).map (fun p => p.1.id) =
      request.events.map (·.id) := by
    conv_rhs => rw [← hfst, List.map_map]
    rfl
  have hmanifest : request.events.map (·.id) = request.point.manifest :=
    calc request.events.map (·.id)
        = (request.events.zip request.point.manifest).map (fun p => p.1.id) := hids.symm
      _ = (request.events.zip request.point.manifest).map Prod.snd :=
          List.map_congr_left fun p hp => (hall p hp).1
      _ = request.point.manifest := hsnd
  have hpair : ∀ e ∈ request.events, ∃ p ∈ request.events.zip request.point.manifest, p.1 = e := by
    intro e he
    rw [← hfst] at he
    simpa using List.mem_map.1 he
  refine
    { policy := fun hpos => hpolicy.resolve_left (by omega)
      manifest := hmanifest
      nodup := ?_
      epoch := ?_
      label := ?_
      port := ?_
      synchronizations := hsync }
  · rw [← hmanifest, ← hids]
    exact hnodup
  all_goals
    intro e he
    obtain ⟨p, hp, rfl⟩ := hpair e he
    obtain ⟨-, hepoch, hlabel, hport, -⟩ := hall p hp
    assumption

end Qsbit

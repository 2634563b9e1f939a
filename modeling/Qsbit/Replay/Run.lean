import Qsbit.Replay.Extension
import Qsbit.Replay.Recording

/-!
# The replay of a recording

A recording that is cut into three rounds, the last two of which are the same up to the
period, is extended by its replay to any number of repetitions. What the replay sends does
not depend on the backend: a backend that fails has been sent a prefix of it.

## Main definitions

* `replay_direct_extends` — the replay of a recording extends it.
-/
namespace Qsbit
namespace Replay
open ControlElectronics
open TraceModel (Record)

variable {calls : List Call} {trace : List Record} {groups : List (List Call)}
  {finalIdle : Option Call} {period : ℤ}

theorem groupAt_eq_ok_iff {k : ℕ} {group : List Call} :
    groupAt groups k = .ok group ↔ groups[k]? = some group := by
  unfold groupAt
  cases groups[k]? <;> simp [pure, Except.pure]

/-- The three rounds that pass the check. -/
theorem rounds_of_periodic (hlength : groups.length = 3)
    (h : checkPeriodic groups period = .ok ()) :
    ∃ first steady third, groups = [first, steady, third] ∧
      (normalized steady period == normalized third (2 * period)) = true := by
  obtain ⟨first, steady, third, rfl⟩ := List.length_eq_three.1 hlength
  simp only [checkPeriodic, Except.bind_eq_ok_iff, groupAt_eq_ok_iff, require_eq_ok_iff] at h
  obtain ⟨steady', hsteady, third', hthird, hperiodic⟩ := h
  obtain rfl : steady = steady' := Option.some.inj hsteady
  obtain rfl : third = third' := Option.some.inj hthird
  exact ⟨first, steady, third, rfl, hperiodic⟩

/-- The replay of a recording extends it. -/
theorem replay_direct_extends {γ : Type} {recorded : PythonBackend γ} {outcome : Option Bool}
    {regionEnd : BitVec 32} {repetitions : ℕ} (recording : Recording recorded outcome calls trace)
    (hpartition : partition calls trace regionEnd 3 = .ok (groups, finalIdle))
    (hperiodic : checkPeriodic groups period = .ok ()) (hrepetitions : 0 < repetitions) :
    ∃ iterations idle, Extends calls groups finalIdle period repetitions iterations idle ∧
      ∀ (β : Type) (python : PythonBackend β) (qubits seed : ℕ),
        (replayDirect python qubits seed groups period repetitions finalIdle).Writes python.Answers
          (iterations.flatten ++ idle) fun _ => True := by
  have sound := recording.sound
  obtain ⟨ends, hends, rounds⟩ := rounds_of_partition hpartition sound.ordered
  have hlength : groups.length = 3 := by
    rw [rounds.rounds, List.length_map, List.length_range, hends]
  obtain ⟨first, steady, third, rfl, hsame⟩ := rounds_of_periodic hlength hperiodic
  have hsound := rounds.soundIterations sound
  refine ⟨_, _, extends_of_rounds sound rounds hsame hrepetitions, fun β python qubits seed => ?_⟩
  rw [← List.flatMap_def]
  refine writes_replayDirect rfl rfl rfl hsound (fun call hcall => ?_) hrepetitions
  obtain ⟨start, tick, hidle⟩ := rounds.idle sound hcall
  exact ⟨start, tick, [], [], hidle⟩

section Probe

/-- A backend that measures nothing but zeros. -/
def zeros : PythonBackend Unit where
  validate _ := pure ()
  reset _ _ := pure ()
  execute _ requests := pure (List.replicate (expectedResults requests) false)
  state _ := []
  densityMatrix _ := []

theorem answers_zeros : zeros.Answers where
  reset _ _ s := ⟨s, rfl⟩
  execute _ s := ⟨_, s, rfl, List.length_replicate⟩

def zerosRecording :
    QuantumBackend (RecordingBackend Unit × List (List BackendOperation)) :=
  (RecordingBackend.make zeros (some false)).adapter.recording

def repeatedEvent (id delay : ℕ) : OperationEvent :=
  { epoch := 1, id, label := 1, reference := some { epoch := 1, measurement := id, target := 0 }
    action := { delay, spec := .acquire { operands := { targets := [0] }, discriminatorDelay := 5 } } }

/-- An acquisition in each of three rounds of 40 ticks. -/
def repeatedBatch : TriggeredEvents :=
  { epoch := 1, label := 1, fireTick := 10
    events := [repeatedEvent 1 0, repeatedEvent 2 40, repeatedEvent 3 80] }

def repeatedActions : List ScheduledEvent :=
  repeatedBatch.events.map fun event =>
    { event, start := 10 + event.action.delay, «end» := 30 + event.action.delay
      resolved := event.action }

def repeatedDevice : ControlElectronics (RecordingBackend Unit × List (List BackendOperation)) :=
  { profile := probeProfile, backend := { backend := ({ backend := () }, []), epoch := 1 } }

def repeatedTicks : List ℕ := [10, 30, 35, 50, 70, 75, 90, 110, 115]

/-- The device after the batch has been accepted and boundaries have been processed, and its
records. -/
def repeatedAfter (ticks : List ℕ) :
    ControlElectronics (RecordingBackend Unit × List (List BackendOperation)) × List TraceEvent :=
  ticks.foldl
    (fun x now =>
      let y := process zerosRecording now 1 recordDelivery (x.1, [])
      (y.state.1, x.2 ++ y.log))
    ((accept zerosRecording repeatedBatch repeatedDevice).state,
      (accept zerosRecording repeatedBatch repeatedDevice).log)

def repeatedCalls : List Call :=
  (finalize zerosRecording 120 (repeatedAfter repeatedTicks).1).state.backend.backend.1.calls

def retired (tick : ℕ) : Record :=
  .cpu tick 1 none (.instructionRetired 0 0
    { pc := 0, word := 0, rd := 0, nextPc := 0, value := 0, registers := fun _ => 0 })

/-- The region ends on the ticks 35, 75 and 115. -/
def repeatedTrace : List Record :=
  (repeatedAfter repeatedTicks).2.map .event ++
    [retired 35, retired 75, retired 115,
      .event { tick := 120, epoch := 1, kind := .simulationCompleted }]

theorem repeated_recording : Recording zeros (some false) repeatedCalls repeatedTrace := by
  have hmake : ControlElectronics.make zerosRecording probeProfile ({ backend := () }, []) 1024 =
      .ok repeatedDevice := rfl
  have hstart : DeviceRun zerosRecording 1 0 Timely {} repeatedDevice := .start (.make hmake)
  have hresolve : repeatedDevice.resolve zerosRecording repeatedBatch = .ok repeatedActions := rfl
  have h₀ := hstart.accept (by simp [Timely, repeatedBatch, repeatedEvent])
    (Proc.returns_of_isSome (by decide +kernel)) hresolve (by simp [DeviceHistory.accepted])
  have h₁ := probe_process 10 h₀ (by decide +kernel) (by decide +kernel)
  have h₂ := probe_process 30 h₁ (by decide +kernel) (by decide +kernel)
  have h₃ := probe_process 35 h₂ (by decide +kernel) (by decide +kernel)
  have h₄ := probe_process 50 h₃ (by decide +kernel) (by decide +kernel)
  have h₅ := probe_process 70 h₄ (by decide +kernel) (by decide +kernel)
  have h₆ := probe_process 75 h₅ (by decide +kernel) (by decide +kernel)
  have h₇ := probe_process 90 h₆ (by decide +kernel) (by decide +kernel)
  have h₈ := probe_process 110 h₇ (by decide +kernel) (by decide +kernel)
  have h₉ := probe_process 115 h₈ (by decide +kernel) (by decide +kernel)
  refine .intro h₉ (Proc.returns_of_isSome (by decide +kernel)) ?_ ?_
  · have haccepted : DeviceHistory.accepted
        { fired := [repeatedBatch], batches := [repeatedActions] } = repeatedActions := by
      simp [DeviceHistory.accepted]
    change ∀ a ∈ DeviceHistory.accepted { fired := [repeatedBatch], batches := [repeatedActions] },
      ∀ a' ∈ DeviceHistory.accepted { fired := [repeatedBatch], batches := [repeatedActions] }, _
    rw [haccepted]
    decide +kernel
  · intro e he
    exact List.mem_append_left _ (List.mem_map_of_mem he)

/-- Five repetitions of the recording: four operations each, and then the idle interval. -/
theorem replay_direct_extends_probe : ∃ groups finalIdle,
    partition repeatedCalls repeatedTrace 0 3 = .ok (groups, finalIdle) ∧
      groups.map List.length = [4, 4, 4] ∧ finalIdle.isSome ∧
      ∃ iterations idle, Extends repeatedCalls groups finalIdle 40 5 iterations idle ∧
        ((replayDirect zeros 2 1 groups 40 5 finalIdle ()).log = iterations.flatten ++ idle) ∧
        (iterations.flatten ++ idle).flatten.length = 21 ∧
        ∃ result, (replayDirect zeros 2 1 groups 40 5 finalIdle ()).result = .ok result := by
  have hcheck : (do
      let x ← partition repeatedCalls repeatedTrace 0 3
      checkPeriodic x.1 40
      require (x.1.map List.length = [4, 4, 4] ∧ x.2.isSome ∧
        (replayDirect zeros 2 1 x.1 40 5 x.2 ()).log.flatten.length = 21) .backendFailure "" :
      Except Fault Unit) = .ok () := by decide +kernel
  simp only [Except.bind_eq_ok_iff, require_eq_ok_iff] at hcheck
  obtain ⟨⟨groups, finalIdle⟩, hpartition, _, hperiodic, hlengths, hidle, hsent⟩ := hcheck
  obtain ⟨iterations, idle, hextends, hwrites⟩ :=
    replay_direct_extends repeated_recording hpartition hperiodic (by decide : 0 < 5)
  have hzeros := hwrites Unit zeros 2 1
  obtain ⟨result, hresult⟩ := hzeros.yields answers_zeros ()
  have hlog := (hzeros.full () result hresult).1
  exact ⟨groups, finalIdle, hpartition, hlengths, hidle, iterations, idle, hextends, hlog,
    hlog ▸ hsent, result, hresult⟩

end Probe
end Replay
end Qsbit

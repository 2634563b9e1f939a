import Qsbit.Device.BackendState
import Qsbit.Replay.Stream

/-!
# Recordings of runs

A recording is made by a run of the device with the recording backend: the calls are the
operations of the batches, with the numbers of the batches. The stream of the run makes the
recording sound. Its evolutions follow each other without a gap, they have the acquisitions
that are active, and each acquisition is measured when it ends.

## Main definitions

* `Written` — the calls that are recorded of batches.
* `Recording` — the calls and the trace of a run.
* `Recording.sound` — every recording is sound.
-/
namespace Qsbit
namespace Replay
open ControlElectronics
open TraceModel (Record)

/-! ## What is written down -/

/-- The calls of batches: the requests of each, with the number of the batch. The last argument is
the number of the next one. -/
inductive Written : List Call → List (List BackendOperation) → ℕ → Prop
  | start {n : ℕ} : Written [] [] n
  | batch {calls part : List Call} {batches : List (List BackendOperation)} {n : ℕ}
      {operations : List BackendOperation} (before : Written calls batches n)
      (requests : part.map (·.operation) = operations.map request)
      (numbered : ∀ c ∈ part, c.batch = n) :
      Written (calls ++ part) (batches ++ [operations]) (n + 1)

section Written
variable {calls : List Call} {batches : List (List BackendOperation)} {n : ℕ}

theorem Written.operations (h : Written calls batches n) :
    calls.map (·.operation) = batches.flatten.map request := by
  induction h with
  | start => rfl
  | batch before requests numbered ih =>
    rw [List.map_append, ih, requests, List.flatten_append, List.map_append, List.flatten_singleton]

theorem Written.number_lt (h : Written calls batches n) : ∀ c ∈ calls, c.batch < n := by
  induction h with
  | start => simp
  | batch before requests numbered ih =>
    intro c hc
    rcases List.mem_append.1 hc with hc | hc
    · exact (ih c hc).trans (Nat.lt_succ_self _)
    · rw [numbered c hc]
      exact Nat.lt_succ_self _

theorem isMeasure_request {operation : BackendOperation} :
    (request operation).isMeasure = operation.isMeasurement := by cases operation <;> rfl

theorem pairwise_of_forall_dropLast {α : Type} {p : α → Prop} {xs : List α}
    (h : ∀ x ∈ xs.dropLast, p x) : xs.Pairwise fun x _ => p x := by
  induction xs with
  | nil => exact List.Pairwise.nil
  | cons x rest ih =>
    cases rest with
    | nil => exact List.pairwise_singleton _ _
    | cons y rest =>
      rw [List.dropLast_cons_cons, List.forall_mem_cons] at h
      exact List.pairwise_cons.2 ⟨fun _ _ => h.1, ih h.2⟩

/-- When measurements are the last of their batches, this is what has been recorded. -/
theorem Written.batched (h : Written calls batches n)
    (hlast : ∀ batch ∈ batches, ∀ operation ∈ batch.dropLast, operation.isMeasurement = false) :
    calls.Pairwise fun c c' => c.batch = c'.batch → c.operation.isMeasure = false := by
  induction h with
  | start => exact List.Pairwise.nil
  | @batch calls part batches n operations before requests numbered ih =>
    have hpart : part.Pairwise fun c _ => c.operation.isMeasure = false := by
      have hoperations := pairwise_of_forall_dropLast (hlast operations (by simp))
      have hrequests : (operations.map request).Pairwise fun x _ => x.isMeasure = false := by
        rw [List.pairwise_map]
        exact hoperations.imp fun h => isMeasure_request.trans h
      rwa [← requests, List.pairwise_map] at hrequests
    refine List.pairwise_append.2 ⟨?_, ?_, ?_⟩
    · exact ih fun batch hbatch => hlast batch (List.mem_append_left _ hbatch)
    · refine hpart.imp ?_
      exact fun h _ => h
    · intro c hc c' hc' hsame
      have hlt := before.number_lt c hc
      rw [numbered c' hc'] at hsame
      omega

end Written

section Backend
variable {β : Type} {python : PythonBackend β} {outcome : Option Bool} {r r' : RecordingBackend β}

theorem recording_reset_returns {qubits seed : ℕ} {u : Unit} {l : List Empty}
    (h : (RecordingBackend.reset python qubits seed).Returns r u r' l) : r'.calls = [] := by
  simp only [RecordingBackend.reset, Proc.returns_get_bind_iff, Proc.returns_lift_bind_iff,
    require_eq_ok_iff, exists_const] at h
  obtain ⟨hempty, h⟩ := h
  obtain ⟨backend, -, rfl⟩ := Proc.returns_zoom_iff.1 h
  exact List.isEmpty_iff.1 hempty

theorem recording_execute_returns {epoch : ℕ} {operations : List Request} {bits : List Bool}
    {l : List Empty}
    (h : (RecordingBackend.execute python outcome epoch operations).Returns r bits r' l) :
    r'.calls = r.calls ++ operations.map (RecordingBackend.record r.batches bits) ∧
      r'.batches = r.batches + 1 := by
  simp only [RecordingBackend.execute, Proc.returns_lift_bind_iff] at h
  obtain ⟨last, -, h⟩ := h
  obtain ⟨bits', r₁, _, _, hbits, h, -⟩ := Proc.returns_bind_iff.1 h
  rw [Proc.returns_modify_bind_iff] at h
  obtain ⟨rfl, rfl, -⟩ := Proc.returns_pure_iff.1 h
  cases outcome with
  | none =>
    obtain ⟨backend, -, rfl⟩ := Proc.returns_zoom_iff.1 hbits
    exact ⟨rfl, rfl⟩
  | some outcome =>
    obtain ⟨-, rfl, -⟩ := Proc.returns_pure_iff.1 hbits
    exact ⟨rfl, rfl⟩

/-- The recording backend writes down the batches that it is given. -/
theorem maintains_written : (RecordingBackend.make python outcome).adapter.recording.Maintains
    fun s => Written s.1.calls s.2 s.1.batches := by
  constructor
  case reset =>
    rintro qubits seed ⟨r, batches⟩ ⟨r', batches'⟩ h
    simp only [QuantumBackend.recording, Proc.returns_modify_bind_iff] at h
    obtain ⟨hreset, rfl⟩ := Proc.returns_onFst_iff.1 h
    rw [recording_reset_returns hreset]
    exact .start
  case execute =>
    rintro epoch operations ⟨r, batches⟩ bits ⟨r', batches'⟩ hwritten h
    simp only [QuantumBackend.recording, Proc.returns_modify_bind_iff] at h
    obtain ⟨hexecute, rfl⟩ := Proc.returns_onFst_iff.1 h
    obtain ⟨hcalls, hbatches⟩ := recording_execute_returns hexecute
    rw [hcalls, hbatches]
    refine .batch hwritten ?_ fun c hc => ?_
    · rw [List.map_map]
      exact List.map_id _
    · obtain ⟨operation, -, rfl⟩ := List.mem_map.1 hc
      rfl

end Backend

/-! ## What the stream says of the requests -/

section Requests
variable {p : DeviceProfile} {accepted : List ScheduledEvent} {origin last final : ℕ}
  {ticks : List ℕ} {ops stream : List BackendOperation}

theorem contiguous_of_tiles {a b : ℕ} (h : Tiles a ops b) : Contiguous a (ops.map request) b := by
  induction ops generalizing a with
  | nil =>
    obtain rfl : a = b := h
    rfl
  | cons operation rest ih =>
    obtain ⟨rfl, hle, hrest⟩ := h
    have htick : (request operation).tick = operation.tick := by cases operation <;> rfl
    have hstart : (request operation).start = operation.start := by cases operation <;> rfl
    refine ⟨hstart, ?_, ?_⟩
    · rw [htick]
      exact_mod_cast hle
    · rw [htick]
      exact ih hrest

theorem kind_descriptor {a : EventSpec} : (descriptor a).kind = .acquire ↔ a.kind = .acquire := by
  unfold descriptor EventSpec.kind
  cases a.spec <;> simp

theorem targets_descriptor {a : EventSpec} : (descriptor a).targets = a.targets := by
  unfold descriptor
  cases a.spec <;> rfl

/-- The references that are measured are those of the acquisitions that end on the ticks. -/
theorem references_of_streams (h : Streams p accepted origin ticks ops last) :
    (ops.map request).flatMap (·.references) = ticks.flatMap (endingReferences accepted) := by
  induction h with
  | start => rfl
  | @boundary ticks ops new prev now before le later at_now ih =>
    rw [List.map_append, List.flatMap_append, List.flatMap_append, ih, List.flatMap_singleton]
    congr 1
    cases at_now with
    | @intro drives acquisitions gates drives_cover acquisitions_cover gates_start clear =>
      rw [List.map_append, List.map_append, List.flatMap_append, List.flatMap_append]
      have hevolution : ((if prev < now then [.evolution prev now drives acquisitions] else []).map
          request).flatMap (·.references) = [] := by
        split <;> rfl
      have hgates : ((if gates = [] then [] else [.gates now gates]).map request).flatMap
          (·.references) = [] := by
        split <;> rfl
      rw [hevolution, hgates, List.nil_append, List.append_nil]
      split
      · rename_i hnone
        rw [hnone]
        rfl
      · exact List.append_nil _

/-- What is known of the accepted actions at the end: each has started and ended, and each
acquisition has a reference to its target, which no other acquisition has. -/
structure Settled (accepted : List ScheduledEvent) (ticks : List ℕ) : Prop where
  nodup : accepted.Nodup
  interval : ∀ a ∈ accepted, a.start < a.end
  past : ∀ a ∈ accepted, a.start ∈ ticks ∧ a.end ∈ ticks
  reference : ∀ a ∈ accepted, a.event.action.kind = .acquire →
    ∃ r, a.event.reference = some r ∧ a.event.action.targets = [r.target]
  single : ∀ a ∈ accepted, ∀ a' ∈ accepted, a.event.action.kind = .acquire →
    a'.event.action.kind = .acquire → ∀ r ∈ a.event.reference, ∀ r' ∈ a'.event.reference,
      r.measurement = r'.measurement → a = a'

theorem mem_endingReferences {tick : ℕ} {r : MeasurementReference} :
    r ∈ endingReferences accepted tick ↔ ∃ a ∈ accepted, a.end = tick ∧
      a.event.action.kind = .acquire ∧ a.event.reference = some r := by
  simp only [endingReferences, List.mem_flatMap, List.mem_filter, decide_eq_true_eq,
    Option.mem_toList]
  constructor
  · rintro ⟨a, ⟨⟨ha, hend⟩, hkind⟩, hr⟩
    exact ⟨a, ha, hend, hkind, hr⟩
  · rintro ⟨a, ha, hend, hkind, hr⟩
    exact ⟨a, ⟨⟨ha, hend⟩, hkind⟩, hr⟩

/-- No reference is measured twice. -/
theorem Settled.distinct (h : Settled accepted ticks) (hticks : ticks.Pairwise (· < ·)) :
    ((ticks.flatMap (endingReferences accepted)).map (·.measurement)).Nodup := by
  let ending := fun t => (accepted.filter (·.end = t)).filter (·.event.action.kind = .acquire)
  have hending : ∀ {t a}, a ∈ ending t → a ∈ accepted ∧ a.end = t ∧
      a.event.action.kind = .acquire := by
    intro t a ha
    obtain ⟨ha, hkind⟩ := List.mem_filter.1 ha
    obtain ⟨ha, hend⟩ := List.mem_filter.1 ha
    exact ⟨ha, of_decide_eq_true hend, of_decide_eq_true hkind⟩
  have hnodup : (ticks.flatMap ending).Nodup := by
    refine List.nodup_flatMap.2 ⟨fun t _ => (h.nodup.filter _).filter _, ?_⟩
    refine hticks.imp fun {t t'} hlt a ha ha' => ?_
    have hend := (hending ha).2.1
    have hend' := (hending ha').2.1
    omega
  have hassoc : ticks.flatMap (endingReferences accepted) =
      (ticks.flatMap ending).flatMap (·.event.reference.toList) := List.flatMap_assoc.symm
  rw [hassoc, List.map_flatMap, List.nodup_flatMap]
  refine ⟨fun a _ => ?_, hnodup.pairwise_of_forall_ne fun a ha a' ha' hne m hm hm' => hne ?_⟩
  · cases a.event.reference <;> simp
  · obtain ⟨t, -, ha⟩ := List.mem_flatMap.1 ha
    obtain ⟨t', -, ha'⟩ := List.mem_flatMap.1 ha'
    obtain ⟨hmem, -, hkind⟩ := hending ha
    obtain ⟨hmem', -, hkind'⟩ := hending ha'
    obtain ⟨r, hr, rfl⟩ := List.mem_map.1 hm
    obtain ⟨r', hr', hsame⟩ := List.mem_map.1 hm'
    exact h.single a hmem a' hmem' hkind hkind' r (Option.mem_toList.1 hr) r'
      (Option.mem_toList.1 hr') hsame.symm

/-- An acquisition that a request has is an accepted action that is active throughout. -/
theorem mem_acquisitions_of_stream (h : StreamOf p accepted origin final stream)
    {operation : BackendOperation} (hoperation : operation ∈ stream) {x : Activity}
    (hx : x ∈ (request operation).acquisitions) :
    ∃ start tick drives acquisitions a, operation = .evolution start tick drives acquisitions ∧
      a ∈ accepted ∧ a.event.action.kind = .acquire ∧ a.start ≤ start ∧ tick ≤ a.end ∧
        x = activity (acquisition a) := by
  cases operation with
  | gates tick gates => simp [request, Operation.acquisitions] at hx
  | measurement tick references => simp [request, Operation.acquisitions] at hx
  | evolution start tick drives acquisitions =>
    obtain ⟨y, hy, rfl⟩ := List.mem_map.1 hx
    obtain ⟨-, hcovers, -⟩ := h.evolution _ _ _ _ hoperation
    obtain ⟨a, ha, rfl⟩ := List.mem_map.1 (hcovers.perm.mem_iff.1 hy)
    obtain ⟨hmem, hactive⟩ := List.mem_filter.1 ha
    obtain ⟨hkind, hstart, hend⟩ := of_decide_eq_true hactive
    exact ⟨start, tick, drives, acquisitions, a, rfl, hmem, hkind, hstart, hend, rfl⟩

theorem driven_of_stream (h : StreamOf p accepted origin final stream) {operation : BackendOperation}
    (hoperation : operation ∈ stream) : (request operation).Driven := by
  cases operation with
  | gates tick gates => trivial
  | measurement tick references => trivial
  | evolution start tick drives acquisitions =>
    intro x hx
    obtain ⟨y, hy, rfl⟩ := List.mem_map.1 hx
    obtain ⟨hcovers, -, -⟩ := h.evolution _ _ _ _ hoperation
    obtain ⟨a, ha, rfl⟩ := List.mem_map.1 (hcovers.perm.mem_iff.1 hy)
    obtain ⟨hkind, -⟩ := of_decide_eq_true (List.mem_filter.1 ha).2
    change (descriptor a.event.action).kind ≠ .acquire
    rw [Ne, kind_descriptor, hkind]
    simp

/-- The acquisitions and the references of a whole stream agree. -/
theorem paired_of_stream (h : StreamOf p accepted origin final stream) (hsettled : Settled accepted ticks)
    (hmem : ∀ a ∈ accepted, a.event.action.kind = .acquire →
      ∃ start drives acquisitions, .evolution start a.end drives acquisitions ∈ stream ∧
        acquisition a ∈ acquisitions) : Paired (stream.map request) := by
  have hactivity : ∀ {a r}, a.event.reference = some r → a.event.action.targets = [r.target] →
      (activity (acquisition a)).measurement = some r.measurement ∧
        (activity (acquisition a)).targets = [r.target] := by
    intro a r hr htargets
    refine ⟨?_, ?_⟩
    · change a.event.reference.map (·.measurement) = some r.measurement
      rw [hr]
      rfl
    · exact targets_descriptor.trans htargets
  refine ⟨?_, ?_, ?_⟩
  · intro operation hoperation x hx
    obtain ⟨y, hy, rfl⟩ := List.mem_map.1 hoperation
    obtain ⟨-, -, -, -, a, -, ha, hkind, -, -, rfl⟩ := mem_acquisitions_of_stream h hy hx
    obtain ⟨r, hr, htargets⟩ := hsettled.reference a ha hkind
    have hends : r ∈ endingReferences accepted a.end :=
      mem_endingReferences.2 ⟨a, ha, rfl, hkind, hr⟩
    have hmeasure := (h.measurement a.end _).2 ⟨rfl, List.ne_nil_of_mem hends⟩
    exact ⟨kind_descriptor.2 hkind, endingReferences accepted a.end,
      List.mem_map_of_mem hmeasure, r, hends, hactivity hr htargets⟩
  · intro tick references hmeasure r hr
    obtain ⟨operation, hoperation, heq⟩ := List.mem_map.1 hmeasure
    cases operation with
    | evolution start tick drives acquisitions => simp [request] at heq
    | gates tick gates => simp [request] at heq
    | measurement tick' references' =>
      obtain ⟨rfl, rfl⟩ := Operation.measure.inj heq
      obtain ⟨rfl, -⟩ := (h.measurement _ _).1 hoperation
      obtain ⟨a, ha, rfl, hkind, hr⟩ := mem_endingReferences.1 hr
      obtain ⟨r', hr', htargets⟩ := hsettled.reference a ha hkind
      obtain rfl := Option.some.inj (hr.symm.trans hr')
      obtain ⟨start, drives, acquisitions, hevolution, hacquisition⟩ := hmem a ha hkind
      exact ⟨_, List.mem_map_of_mem hevolution, _, List.mem_map_of_mem hacquisition, rfl,
        hactivity hr htargets⟩
  · intro operation hoperation operation' hoperation' x hx x' hx' hsame
    obtain ⟨y, hy, rfl⟩ := List.mem_map.1 hoperation
    obtain ⟨y', hy', rfl⟩ := List.mem_map.1 hoperation'
    obtain ⟨-, -, -, -, a, -, ha, hkind, -, -, rfl⟩ := mem_acquisitions_of_stream h hy hx
    obtain ⟨-, -, -, -, a', -, ha', hkind', -, -, rfl⟩ := mem_acquisitions_of_stream h hy' hx'
    obtain ⟨r, hr, htargets⟩ := hsettled.reference a ha hkind
    obtain ⟨r', hr', htargets'⟩ := hsettled.reference a' ha' hkind'
    rw [(hactivity hr htargets).1, (hactivity hr' htargets').1] at hsame
    rw [hsettled.single a ha a' ha' hkind hkind' r hr r' hr' (Option.some.inj hsame)]

end Requests

/-! ## Recordings -/

/-- Every accepted acquisition has a reference to its target. -/
theorem reference_of_run {β : Type} {backend : QuantumBackend β} {epoch origin : ℕ}
    {rule : ControlElectronics β → DeviceCall → Prop} {history : DeviceHistory}
    {d : ControlElectronics β} (run : DeviceRun backend epoch origin rule history d) :
    ∀ a ∈ history.accepted, a.event.action.kind = .acquire →
      ∃ r, a.event.reference = some r ∧ a.event.action.targets = [r.target] := by
  induction run with
  | start h => simp [DeviceHistory.accepted]
  | accept run obeys h resolved fresh ih =>
    obtain ⟨actions, readouts, haccepted, -⟩ := accept_returns h
    obtain rfl : actions = _ := Except.ok.inj (haccepted.resolved.symm.trans resolved)
    rw [accepted_append]
    intro a ha hkind
    rcases List.mem_append.1 ha with ha | ha
    · exact ih a ha hkind
    · obtain ⟨r, hr, -, htargets⟩ := (Readouts.prepare_spec haccepted.prepared).members.reference a ha
        (by simp [isReadout, hkind])
      exact ⟨r, hr, htargets⟩
  | process run obeys h ih => exact ih

/-- What has been measured is of the epoch of the run. -/
theorem epoch_of_run {β : Type} {backend : QuantumBackend β} {epoch origin : ℕ}
    {history : DeviceHistory} {d : ControlElectronics (β × List (List BackendOperation))}
    (run : DeviceRun backend.recording epoch origin Timely history d) :
    ∀ t, d.Past t → ∀ r ∈ endingReferences history.accepted t, r.epoch = epoch := by
  induction run with
  | start h =>
    intro t _ r hr
    simp [endingReferences, DeviceHistory.accepted] at hr
  | @accept history d d' batch actions l run obeys h resolved fresh ih =>
    obtain ⟨actions', readouts, haccepted, -⟩ := accept_returns h
    obtain rfl : actions' = _ := Except.ok.inj (haccepted.resolved.symm.trans resolved)
    intro t hpast r hr
    have hpast : d.Past t := by
      rw [haccepted.device] at hpast
      exact hpast
    rw [accepted_append] at hr
    obtain ⟨a, ha, rfl, hkind, hr⟩ := mem_endingReferences.1 hr
    rcases List.mem_append.1 ha with ha | ha
    · exact ih _ hpast r (mem_endingReferences.2 ⟨a, ha, rfl, hkind, hr⟩)
    · obtain ⟨processed, hprocessed, hle⟩ := hpast
      obtain ⟨hresolves, hfire⟩ := resolve_spec haccepted.resolved a ha
      have hinterval := hresolves.interval
      have hafter := haccepted.after processed hprocessed
      omega
  | @process history d d' now cs l run obeys h ih =>
    obtain ⟨bit, tracks⟩ := run.tracks
    obtain ⟨ticks, ops, emits⟩ := run.emits
    obtain ⟨p, bits, he, hsamples, hpast'⟩ := run.executed_of_process obeys h
    obtain ⟨-, -, ⟨hepoch, -⟩, -⟩ := emits.batched.executed he
    intro t hpast r hr
    have hdue := due_of_ending (List.ne_nil_of_mem hr)
    rw [hpast'] at hpast
    rcases (tracks.le_next_iff obeys hdue).1 hpast with hpast | rfl
    · exact ih t hpast r hr
    · rw [hepoch r (hsamples ▸ hr), emits.current]

/-- The calls and the trace of a run of the device with the recording backend. -/
inductive Recording {β : Type} (python : PythonBackend β) (outcome : Option Bool) :
    List Call → List Record → Prop
  | intro {history : DeviceHistory}
      {d d' : ControlElectronics (RecordingBackend β × List (List BackendOperation))}
      {final : ℕ} {l : List TraceEvent} {trace : List Record}
      (run : DeviceRun (RecordingBackend.make python outcome).adapter.recording 1 0 Timely history d)
      (finalized : (finalize (RecordingBackend.make python outcome).adapter.recording final).Returns
        d () d' l)
      -- The measurement registers hand out each identity once.
      (measured : ∀ a ∈ history.accepted, ∀ a' ∈ history.accepted,
        a.event.action.kind = .acquire → a'.event.action.kind = .acquire →
          ∀ r ∈ a.event.reference, ∀ r' ∈ a'.event.reference,
            r.measurement = r'.measurement → a.event.id = a'.event.id)
      -- The records of the device are in the trace, among those of the program.
      (traced : ∀ e ∈ history.log, .event e ∈ trace) :
      Recording python outcome d'.backend.backend.1.calls trace

/-- Every recording is sound. -/
theorem Recording.sound {β : Type} {python : PythonBackend β} {outcome : Option Bool}
    {calls : List Call} {trace : List Record} (h : Recording python outcome calls trace) :
    Sound calls trace := by
  cases h with
  | @intro history d d' final l _ run finalized measured traced =>
    obtain ⟨bit, tracks⟩ := run.tracks
    obtain ⟨ticks, ops, emits⟩ := run.emits
    obtain ⟨hdrained, hle, -⟩ := finalize_returns finalized
    have hstream := emits.streamOf tracks hdrained hle
    obtain ⟨hbatched, hflatten⟩ := emits.finalized finalized
    have hwritten := finalize_maintains maintains_written (run.maintains maintains_written) finalized
    have hoperations := hwritten.operations
    rw [hflatten] at hoperations
    have hdue : ∀ t, history.Due t → t ∈ ticks := fun t ht =>
      (emits.due t).2 ⟨(emits.past_of_drained tracks hdrained ht).1, ht⟩
    have hsettled : Settled history.accepted ticks :=
      { nodup := tracks.nodup_accepted
        interval := tracks.interval
        past := fun a ha =>
          ⟨hdue _ (.inl ⟨a, ha, .inl rfl⟩), hdue _ (.inl ⟨a, ha, .inr rfl⟩)⟩
        reference := reference_of_run run
        single := by
          intro a ha a' ha' hkind hkind' r hr r' hr' hsame
          have hid := measured a ha a' ha' hkind hkind' r hr r' hr' hsame
          exact List.inj_on_of_nodup_map tracks.nodup ha ha' hid }
    have hacquisition : ∀ a ∈ history.accepted, a.event.action.kind = .acquire →
        ∃ start drives acquisitions, .evolution start a.end drives acquisitions ∈
          ops ++ (if d.lastTick < final then [.evolution d.lastTick final [] []] else []) ∧
            acquisition a ∈ acquisitions := by
      intro a ha hkind
      obtain ⟨hstart, hend⟩ := hsettled.past a ha
      obtain ⟨start, drives, acquisitions, hmem, hacquisition⟩ :=
        emits.streams.acquisition_mem ha hkind (tracks.interval a ha) hstart hend
      exact ⟨start, drives, acquisitions, List.mem_append_left _ hmem, hacquisition⟩
    have hcontiguous := contiguous_of_tiles hstream.tiles
    have hreferences : d'.backend.backend.1.calls.flatMap (·.operation.references) =
        ticks.flatMap (endingReferences history.accepted) := by
      have hflatMap : d'.backend.backend.1.calls.flatMap (·.operation.references) =
          (d'.backend.backend.1.calls.map (·.operation)).flatMap (·.references) :=
        (List.flatMap_map ..).symm
      rw [hflatMap, hoperations, ← references_of_streams emits.streams, List.map_append,
        List.flatMap_append, List.append_right_eq_self]
      split <;> rfl
    have hcall : ∀ c ∈ d'.backend.backend.1.calls, ∃ operation ∈
        ops ++ (if d.lastTick < final then [.evolution d.lastTick final [] []] else []),
          request operation = c.operation := by
      intro c hc
      have hmem := List.mem_map_of_mem (f := (·.operation)) hc
      rw [hoperations] at hmem
      exact List.mem_map.1 hmem
    constructor
    case contiguous => exact ⟨final, hoperations ▸ hcontiguous⟩
    case batched => exact hwritten.batched hbatched.measurement_last
    case distinct =>
      rw [hreferences]
      exact hsettled.distinct emits.streams.increasing
    case epoch =>
      intro c hc r hr
      have hmem : r ∈ d'.backend.backend.1.calls.flatMap (·.operation.references) :=
        List.mem_flatMap.2 ⟨c, hc, hr⟩
      rw [hreferences] at hmem
      obtain ⟨t, ht, hr⟩ := List.mem_flatMap.1 hmem
      exact epoch_of_run run t ((emits.due t).1 ht).1 r hr
    case paired =>
      rw [hoperations]
      exact paired_of_stream hstream hsettled hacquisition
    case driven =>
      intro c hc
      obtain ⟨operation, hoperation, heq⟩ := hcall c hc
      rw [← heq]
      exact driven_of_stream hstream hoperation
    case during =>
      intro c hc x hx
      obtain ⟨operation, hoperation, heq⟩ := hcall c hc
      rw [← heq] at hx ⊢
      obtain ⟨start, tick, drives, acquisitions, a, rfl, -, -, hstart, hend, rfl⟩ :=
        mem_acquisitions_of_stream hstream hoperation hx
      have hle := hcontiguous.start_le (List.mem_map_of_mem hoperation)
      exact ⟨(Int.ofNat_le.2 hstart).trans hle, Int.ofNat_le.2 hend⟩
    case started =>
      intro c hc x hx
      obtain ⟨operation, hoperation, heq⟩ := hcall c hc
      rw [← heq] at hx
      obtain ⟨-, -, -, -, a, -, ha, -, -, -, rfl⟩ :=
        mem_acquisitions_of_stream hstream hoperation hx
      have hpast := (emits.past_of_drained tracks hdrained (.inl ⟨a, ha, .inl rfl⟩)).1
      have hmem : operationStart a.start 1 a ∈ history.log := by
        have h := tracks.started.mem_iff.2 (List.mem_map_of_mem
          (List.mem_filter.2 ⟨ha, decide_eq_true hpast⟩))
        exact (List.mem_filter.1 h).1
      refine ⟨_, traced _ hmem, rfl, rfl, ?_⟩
      have hlt := tracks.interval a ha
      change (a.start : ℤ) + (wrapSub a.end a.start : ℕ) = (a.end : ℤ)
      rw [wrapSub_of_le hlt.le]
      omega

end Replay
end Qsbit

import Qsbit.Backend.Protocol
import Qsbit.Device.Fault

/-!
# The operations of the device

What the backend is given in a run is observed with a backend that records its
batches. The operations follow from the accepted actions and the boundaries: at
each boundary the time since the boundary before is covered with what has been
active, the acquisitions that end are measured and the gates that start are
applied. Read as one stream they have no gap, and each batch of them passes the
check of the Python backends.

## Main definitions

* `Covers` — the activities of an evolution are the actions active throughout it.
* `BoundaryOps`, `Streams` — the operations of one boundary, and of a run.
* `device_stream` — the operations of a whole run and of its batches.
-/
namespace Qsbit
open Std (ExtTreeMap)
open ControlElectronics

variable {β : Type}

/-- The operations that have been committed since the last reset. -/
def BackendExecution.stream (x : BackendExecution (β × List (List BackendOperation))) :
    List BackendOperation := x.backend.2.flatten ++ x.pending

/-- The activities are the accepted actions of a kind that are active from one tick to another,
each with its full interval, in the order of their identities. -/
structure Covers (kind : ActionKind) (activity : ScheduledEvent → BackendActivity)
    (accepted : List ScheduledEvent) (start tick : ℕ) (activities : List BackendActivity) : Prop where
  perm : activities.Perm ((accepted.filter fun a =>
    a.event.action.kind = kind ∧ a.start ≤ start ∧ tick ≤ a.end).map activity)
  sorted : (activities.map (·.id)).Pairwise (· < ·)

/-- The references of the acquisitions that end on a tick. -/
def endingReferences (accepted : List ScheduledEvent) (tick : ℕ) : List MeasurementReference :=
  ((accepted.filter (·.end = tick)).filter (·.event.action.kind = .acquire)).flatMap
    (·.event.reference.toList)

/-- The gates that start on a tick, those of two qubits last. -/
def StartingGates (p : DeviceProfile) (accepted : List ScheduledEvent) (tick : ℕ)
    (gates : List EventSpec) : Prop :=
  ∃ paired, resolveGateOutputs p tick (gateOutputs (accepted.filter (·.start = tick))).toList =
      .ok paired ∧
    gates = gatesOf (accepted.filter (·.start = tick)) ++ paired

/-- No accepted action starts or ends between two ticks. -/
def Clear (accepted : List ScheduledEvent) (start tick : ℕ) : Prop :=
  ∀ a ∈ accepted, ¬ (start < a.start ∧ a.start < tick) ∧ ¬ (start < a.end ∧ a.end < tick)

/-- The operations of a boundary: evolve, measure and apply. -/
inductive BoundaryOps (p : DeviceProfile) (accepted : List ScheduledEvent) (prev now : ℕ) :
    List BackendOperation → Prop
  | intro {drives acquisitions : List BackendActivity} {gates : List EventSpec}
      (drives_cover : prev < now → Covers .pulse drive accepted prev now drives)
      (acquisitions_cover : prev < now → Covers .acquire acquisition accepted prev now acquisitions)
      (gates_start : StartingGates p accepted now gates) (clear : Clear accepted prev now) :
      BoundaryOps p accepted prev now
        ((if prev < now then [.evolution prev now drives acquisitions] else []) ++
          (if endingReferences accepted now = [] then []
          else [.measurement now (endingReferences accepted now)]) ++
          (if gates = [] then [] else [.gates now gates]))

/-- The operations of boundaries on increasing ticks. -/
inductive Streams (p : DeviceProfile) (accepted : List ScheduledEvent) (origin : ℕ) :
    List ℕ → List BackendOperation → ℕ → Prop
  | start : Streams p accepted origin [] [] origin
  | boundary {ticks : List ℕ} {ops new : List BackendOperation} {prev now : ℕ}
      (before : Streams p accepted origin ticks ops prev) (le : prev ≤ now)
      (later : ∀ t ∈ ticks, t < now) (at_now : BoundaryOps p accepted prev now new) :
      Streams p accepted origin (ticks ++ [now]) (ops ++ new) now

/-! ## Later actions -/

section Later
variable {p : DeviceProfile} {accepted more : List ScheduledEvent} {origin prev now tick : ℕ}

theorem filter_append_later {q : ScheduledEvent → Bool} (h : ∀ a ∈ more, q a = false) :
    (accepted ++ more).filter q = accepted.filter q := by
  rw [List.filter_append, List.append_right_eq_self, List.filter_eq_nil_iff]
  intro a ha
  simp [h a ha]

theorem Covers.append_later {kind : ActionKind} {activity : ScheduledEvent → BackendActivity}
    {activities : List BackendActivity} (h : Covers kind activity accepted prev now activities)
    (hlater : ∀ a ∈ more, prev < a.start) :
    Covers kind activity (accepted ++ more) prev now activities := by
  refine ⟨?_, h.sorted⟩
  rw [filter_append_later]
  · exact h.perm
  · intro a ha
    have := hlater a ha
    simp only [decide_eq_false_iff_not]
    omega

theorem BoundaryOps.append_later {new : List BackendOperation}
    (h : BoundaryOps p accepted prev now new) (hle : prev ≤ now)
    (hlater : ∀ a ∈ more, now < a.start ∧ now < a.end) :
    BoundaryOps p (accepted ++ more) prev now new := by
  cases h with
  | intro drives_cover acquisitions_cover gates_start clear =>
    have hstart : ∀ a ∈ more, prev < a.start := fun a ha => by have := hlater a ha; omega
    have hends : endingReferences (accepted ++ more) now = endingReferences accepted now := by
      unfold endingReferences
      rw [filter_append_later]
      intro a ha
      have := hlater a ha
      simp only [decide_eq_false_iff_not]
      omega
    have hstarts : (accepted ++ more).filter (·.start = now) = accepted.filter (·.start = now) := by
      apply filter_append_later
      intro a ha
      have := hlater a ha
      simp only [decide_eq_false_iff_not]
      omega
    rw [← hends]
    refine .intro (fun hlt => (drives_cover hlt).append_later hstart)
      (fun hlt => (acquisitions_cover hlt).append_later hstart) ?_ ?_
    · unfold StartingGates
      rw [hstarts]
      exact gates_start
    · intro a ha
      rcases List.mem_append.1 ha with ha | ha
      · exact clear a ha
      · have := hlater a ha
        omega

theorem Streams.append_later {ticks : List ℕ} {ops : List BackendOperation} {last : ℕ}
    (h : Streams p accepted origin ticks ops last)
    (hlater : ticks ≠ [] → ∀ a ∈ more, last < a.start ∧ last < a.end) :
    Streams p (accepted ++ more) origin ticks ops last := by
  induction h with
  | start => exact .start
  | boundary before le later at_now ih =>
    have hlast := hlater (by simp)
    refine .boundary (ih fun _ a ha => ?_) le later (at_now.append_later le hlast)
    have := hlast a ha
    omega

end Later

/-! ## What a boundary commits -/

/-- The operations of a plan. -/
def ControlElectronics.Plan.operations (p : Plan) (prev now : ℕ) : List BackendOperation :=
  (if prev < now then [.evolution prev now p.drives p.acquisitions] else []) ++
    (if p.samples = [] then [] else [.measurement now p.samples]) ++
    (if p.gates = [] then [] else [.gates now p.gates])

theorem validateAll_eq_ok_iff {backend : QuantumBackend β} {gates : List EventSpec} {u : Unit} :
    BackendExecution.validateAll backend gates = .ok u ↔
      ∀ gate ∈ gates, backend.validate gate = .ok () := by
  induction gates with
  | nil => simp [BackendExecution.validateAll]
  | cons gate rest ih =>
    simp only [BackendExecution.validateAll, Except.bind_eq_ok_iff, ih, List.forall_mem_cons]
    constructor
    · rintro ⟨_, hgate, hrest⟩
      exact ⟨hgate, hrest⟩
    · rintro ⟨hgate, hrest⟩
      exact ⟨(), hgate, hrest⟩

section Commit
variable {backend : QuantumBackend β} {limit now prev : ℕ} {ops : List BackendOperation} {p : Plan}
  {bits : List Bool} {b b₁ : BackendExecution (β × List (List BackendOperation))}

theorem Batched.returns_evolve {drives acquisitions : List BackendActivity} {l : List TraceEvent}
    (h : Batched limit ops b) (hlt : prev < now)
    (hr : (BackendExecution.evolve backend.recording prev now drives acquisitions).Returns b () b₁
      l) : Batched limit (ops ++ [.evolution prev now drives acquisitions]) b₁ := by
  have hstart := hr
  simp only [BackendExecution.evolve, Proc.returns_get_bind_iff, Proc.returns_lift_bind_iff,
    require_eq_ok_iff, exists_const] at hstart
  have hbatched : Batched limit
      (ops ++ (BackendCall.evolve prev now drives acquisitions).commits backend.recording b)
      (BackendExecution.evolve backend.recording prev now drives acquisitions b).state := h.evolve
  rw [hr] at hbatched
  simpa only [BackendCall.commits, if_pos (And.intro hstart.1.1 hlt)] using hbatched

theorem Batched.returns_measure {references : List MeasurementReference} {l : List TraceEvent}
    (h : Batched limit ops b)
    (hr : (BackendExecution.measure backend.recording now references).Returns b bits b₁ l) :
    Batched limit (ops ++ if references = [] then [] else [.measurement now references]) b₁ ∧
      (∀ r ∈ references, r.epoch = b.epoch) ∧ (references.map (·.target)).Nodup := by
  have hbatched : Batched limit
      (ops ++ (BackendCall.measure now references).commits backend.recording b)
      (BackendExecution.measure backend.recording now references b).state := h.measure
  rw [hr] at hbatched
  by_cases hnone : references = []
  · subst hnone
    simpa [BackendCall.commits] using hbatched
  · simp only [BackendExecution.measure, Proc.returns_get_bind_iff, if_neg hnone,
      Proc.returns_lift_bind_iff, require_eq_ok_iff, exists_const] at hr
    obtain ⟨htick, ⟨hepoch, hnodup⟩, -⟩ := hr
    rw [if_neg hnone]
    refine ⟨?_, hepoch, hnodup⟩
    simpa only [BackendCall.commits,
      if_pos (And.intro hnone (And.intro htick (And.intro hepoch hnodup)))] using hbatched

theorem Batched.returns_apply {gates : List EventSpec} {l : List TraceEvent}
    (h : Batched limit ops b)
    (hr : (BackendExecution.apply backend.recording now gates).Returns b () b₁ l) :
    Batched limit (ops ++ if gates = [] then [] else [.gates now gates]) b₁ ∧
      ∀ gate ∈ gates, backend.validate gate = .ok () := by
  have hbatched : Batched limit (ops ++ (BackendCall.apply now gates).commits backend.recording b)
      (BackendExecution.apply backend.recording now gates b).state := h.apply
  rw [hr] at hbatched
  have hvalid := hr
  simp only [BackendExecution.apply, Proc.returns_lift_bind_iff] at hvalid
  obtain ⟨_, hvalid, -⟩ := hvalid
  refine ⟨?_, fun gate hgate => (validateAll_eq_ok_iff.1 hvalid) gate hgate⟩
  by_cases hnone : gates = []
  · subst hnone
    simpa [BackendCall.commits] using hbatched
  · have hcommit := apply_returns hr
    rw [if_neg hnone] at hcommit
    obtain ⟨_, hcommit⟩ := hcommit
    simp only [BackendExecution.commit, Proc.returns_get_bind_iff, Proc.returns_lift_bind_iff,
      require_eq_ok_iff, exists_const] at hcommit
    rw [if_neg hnone]
    have htick : b.committedTick ≤ now := hcommit.1
    simpa only [BackendCall.commits,
      if_pos (And.intro hvalid (And.intro hnone htick))] using hbatched

theorem keeps_execute {β : Type} {backend : QuantumBackend β} {b : BackendExecution β}
    {expected : ℕ} : (BackendExecution.execute backend expected).Keeps BackendExecution.epoch b := by
  apply Proc.Keeps.get_bind
  split
  · exact .pure []
  · refine .handle (.bind (.zoom fun _ => rfl) fun _ b₁ => .lift_bind fun _ => ?_) fun _ b₁ => ?_
    · exact .modify_bind rfl (.pure _)
    · exact .modify_bind rfl (.check _)

theorem keeps_commit {β : Type} {backend : QuantumBackend β} {b : BackendExecution β}
    {operation : BackendOperation} :
    (BackendExecution.commit backend operation).Keeps BackendExecution.epoch b := by
  refine .get_bind <| .lift_bind fun _ => .modify_bind rfl <| .get_bind ?_
  split
  · exact .bind keeps_execute fun _ _ => .pure ()
  · exact .pure ()

/-- A boundary commits the operations of its plan. -/
theorem Batched.executed (h : Batched limit ops b) (he : Executed backend.recording now prev p bits b b₁) :
    Batched limit (ops ++ p.operations prev now) b₁ ∧ b₁.epoch = b.epoch ∧
      ((∀ r ∈ p.samples, r.epoch = b.epoch) ∧ (p.samples.map (·.target)).Nodup) ∧
      ∀ gate ∈ p.gates, backend.validate gate = .ok () := by
  cases he with
  | @intro b₂ b₃ _ hevolve hmeasure happly =>
    have hevolved : Batched limit (ops ++ if prev < now then
        [.evolution prev now p.drives p.acquisitions] else []) b₂ ∧ b₂.epoch = b.epoch := by
      by_cases hlt : prev < now
      · rw [if_pos hlt] at hevolve ⊢
        refine ⟨h.returns_evolve hlt hevolve, ?_⟩
        refine Proc.Keeps.returns ?_ hevolve
        refine .get_bind <| .lift_bind fun _ => ?_
        rw [if_pos hlt]
        exact keeps_commit
      · rw [if_neg hlt] at hevolve ⊢
        rw [hevolve, List.append_nil]
        exact ⟨h, rfl⟩
    obtain ⟨hmeasured, hsamples⟩ := hevolved.1.returns_measure hmeasure
    obtain ⟨happlied, hgates⟩ := hmeasured.returns_apply happly
    have hepoch₂ : b₃.epoch = b₂.epoch := by
      refine Proc.Keeps.returns (.get_bind ?_) hmeasure
      split
      · exact .pure []
      · exact .lift_bind fun _ => .lift_bind fun _ => .modify_bind rfl keeps_execute
    have hepoch₃ : b₁.epoch = b₃.epoch := by
      refine Proc.Keeps.returns (.lift_bind fun _ => ?_) happly
      split
      · exact .pure ()
      · exact keeps_commit
    refine ⟨?_, by rw [hepoch₃, hepoch₂, hevolved.2], ?_, hgates⟩
    · rw [Plan.operations, ← List.append_assoc, ← List.append_assoc]
      exact happlied
    · rw [← hevolved.2]
      exact hsamples

end Commit

/-! ## Runs -/

/-- Something is to be done on the tick: an accepted action starts or ends, or a result is ready. -/
def DeviceHistory.Due (history : DeviceHistory) (t : ℕ) : Prop :=
  (∃ a ∈ history.accepted, a.start = t ∨ a.end = t) ∨ ∃ r ∈ history.readouts, r.ready = t

/-- The backend refuses to acquire a qubit that is not one of the first. -/
def QuantumBackend.Bounded (backend : QuantumBackend β) (qubits : ℕ) : Prop :=
  ∀ action, backend.validate action = .ok () → action.kind = .acquire →
    ∀ target ∈ action.targets, target < qubits

/-- The stream of the operations committed so far, and what is known of the accepted actions. -/
structure Emits (backend : QuantumBackend β) (epoch origin : ℕ) (history : DeviceHistory)
    (d : ControlElectronics (β × List (List BackendOperation))) (ticks : List ℕ)
    (ops : List BackendOperation) : Prop where
  current : d.backend.epoch = epoch
  batched : Batched d.backend.maxBatchOperations ops d.backend
  streams : Streams d.profile history.accepted origin ticks ops d.lastTick
  due : ∀ t, t ∈ ticks ↔ d.Past t ∧ history.Due t
  processed : ticks ≠ [] → d.processedTick = some d.lastTick
  unprocessed : ticks = [] → d.processedTick = none ∧ d.lastTick = origin
  valid : ∀ a ∈ history.accepted,
    ControlElectronics.validate backend d.profile a.event.action = .ok ()
  target : ∀ a ∈ history.accepted, a.event.action.kind = .acquire →
    ∀ r ∈ a.event.reference, a.event.action.targets = [r.target]
  proper : ∀ qubits, backend.Bounded qubits → ∀ operation ∈ ops,
    operation.Proper backend.validate epoch qubits

section Runs
variable {backend : QuantumBackend β} {epoch origin now : ℕ} {history : DeviceHistory}
  {d d' : ControlElectronics (β × List (List BackendOperation))}
  {bit : ℕ → MeasurementReference → Bool} {ticks : List ℕ} {ops : List BackendOperation}

theorem validate_of_resolveEvent {β : Type} {backend : QuantumBackend β} {p : DeviceProfile}
    {batch : TriggeredEvents} {event : OperationEvent} {a : ScheduledEvent}
    (h : resolveEvent backend p batch event = .ok a) :
    ControlElectronics.validate backend p event.action = .ok () := by
  simp only [resolveEvent, Except.bind_eq_ok_iff, require_eq_ok_iff, exists_const] at h
  obtain ⟨-, _, hvalid, -⟩ := h
  exact hvalid

theorem validate_of_acquire_or_pulse {β : Type} {backend : QuantumBackend β} {p : DeviceProfile}
    {action : EventSpec} (hkind : action.kind ≠ .gateOutput)
    (h : ControlElectronics.validate backend p action = .ok ()) : backend.validate action = .ok () := by
  unfold ControlElectronics.validate at h
  split at h
  · rename_i hspec
    exact absurd (by simp [EventSpec.kind, hspec]) hkind
  · exact h

theorem Tracks.nodup_accepted (h : Tracks epoch history d bit) : history.accepted.Nodup :=
  h.nodup.of_map _

/-- The active actions of a kind, in the order of their identities. -/
theorem Tracks.covers (h : Tracks epoch history d bit) {prev : ℕ}
    (hactive : ∀ a ∈ history.accepted,
      d.Past a.start ∧ ¬ d.Past a.end ↔ a.start ≤ prev ∧ now ≤ a.end)
    {kind : ActionKind} {activity : ScheduledEvent → BackendActivity}
    (hid : ∀ a, (activity a).id = a.event.id) :
    Covers kind activity history.accepted prev now ((d.activeOf kind).map activity) := by
  have hkeys : (d.active.toList.map (·.2)).map (·.event.id) = d.active.toList.map (·.1) := by
    rw [List.map_map]
    apply List.map_congr_left
    intro entry hentry
    exact ((h.active _ _).1 (ExtTreeMap.mem_toList_iff_getElem?_eq_some.1 hentry)).2.1
  have hordered : ((d.active.toList.map (·.2)).map (·.event.id)).Pairwise (· < ·) := by
    rw [hkeys, List.pairwise_map]
    exact ExtTreeMap.ordered_keys_toList.imp fun hlt => Nat.compare_eq_lt.1 hlt
  have hsorted : ((d.activeOf kind).map (·.event.id)).Pairwise (· < ·) :=
    hordered.sublist (List.filter_sublist.map _)
  refine ⟨List.Perm.map _ ((List.perm_ext_iff_of_nodup ?_ (h.nodup_accepted.filter _)).2 ?_), ?_⟩
  · have hnodup : ((d.activeOf kind).map (·.event.id)).Nodup := hsorted.imp fun hlt => hlt.ne
    exact hnodup.of_map _
  · intro a
    simp only [ControlElectronics.activeOf, List.mem_filter, List.mem_map, Prod.exists,
      exists_eq_right, ExtTreeMap.mem_toList_iff_getElem?_eq_some, decide_eq_true_eq]
    constructor
    · rintro ⟨⟨id, ha⟩, hkind⟩
      obtain ⟨hmem, -, hpast⟩ := (h.active _ _).1 ha
      exact ⟨hmem, hkind, (hactive a hmem).1 hpast⟩
    · rintro ⟨hmem, hkind, hinterval⟩
      exact ⟨⟨a.event.id, (h.active _ _).2 ⟨hmem, rfl, (hactive a hmem).2 hinterval⟩⟩, hkind⟩
  · rw [List.map_map]
    have hcongr : ((d.activeOf kind).map ((·.id) ∘ activity)) =
        (d.activeOf kind).map (·.event.id) := List.map_congr_left fun a _ => hid a
    rw [hcongr]
    exact hsorted

/-- At the next boundary, time passes from the last one without an action starting or ending. -/
theorem Emits.between (h : Emits backend epoch origin history d ticks ops)
    (tracks : Tracks epoch history d bit) (hnext : d.nextBoundary = some now) {t : ℕ}
    (ht : history.Due t) : (d.Past t ∨ now ≤ t) ∧ (d.lastTick < now → (d.Past t ↔ t ≤ d.lastTick)) := by
  have hle := tracks.le_next_iff hnext ht
  constructor
  · by_cases hlt : t < now
    · rcases hle.1 hlt.le with hp | rfl
      · exact .inl hp
      · exact absurd hlt (lt_irrefl _)
    · exact .inr (by omega)
  · intro hlast
    constructor
    · rintro ⟨processed, hprocessed, hpast⟩
      by_cases hticks : ticks = []
      · rw [(h.unprocessed hticks).1] at hprocessed
        simp at hprocessed
      · rw [h.processed hticks] at hprocessed
        obtain rfl := Option.some.inj hprocessed
        exact hpast
    · intro htick
      rcases hle.1 (by omega) with hp | rfl
      · exact hp
      · omega

/-- The operations of the next boundary. -/
theorem Emits.boundaryOps (h : Emits backend epoch origin history d ticks ops)
    (tracks : Tracks epoch history d bit) (hnext : d.nextBoundary = some now)
    {boundary : Boundary} (hb : d.boundaries[now]? = some boundary) {p : Plan}
    (hplan : d.plan backend.recording boundary now epoch = .ok p) :
    BoundaryOps d.profile history.accepted d.lastTick now (p.operations d.lastTick now) := by
  have hsamples : p.samples = endingReferences history.accepted now :=
    (tracks.samples_of_plan hnext hb hplan).trans references_of_readouts
  have hbetween := fun t ht => h.between tracks hnext (t := t) ht
  have hactive : d.lastTick < now → ∀ a ∈ history.accepted,
      d.Past a.start ∧ ¬ d.Past a.end ↔ a.start ≤ d.lastTick ∧ now ≤ a.end := by
    intro hlt a ha
    obtain ⟨-, hstart⟩ := hbetween a.start (.inl ⟨a, ha, .inl rfl⟩)
    obtain ⟨hor, hend⟩ := hbetween a.end (.inl ⟨a, ha, .inr rfl⟩)
    rw [hend hlt] at hor
    rw [hstart hlt, hend hlt]
    constructor
    · rintro ⟨hs, he⟩
      exact ⟨hs, hor.resolve_left he⟩
    · rintro ⟨hs, he⟩
      exact ⟨hs, by omega⟩
  simp only [plan, Except.bind_eq_ok_iff, require_eq_ok_iff, exists_const,
    Except.pure_eq_ok_iff] at hplan
  obtain ⟨samples, -, -, _, -, paired, hpaired, rfl⟩ := hplan
  obtain rfl : samples = _ := hsamples
  rw [tracks.boundary_next hnext hb] at hpaired ⊢
  refine .intro (fun hlt => tracks.covers (hactive hlt) fun _ => rfl)
    (fun hlt => tracks.covers (hactive hlt) fun _ => rfl) ⟨paired, hpaired, rfl⟩ ?_
  intro a ha
  obtain ⟨hs, hs'⟩ := hbetween a.start (.inl ⟨a, ha, .inl rfl⟩)
  obtain ⟨he, he'⟩ := hbetween a.end (.inl ⟨a, ha, .inr rfl⟩)
  constructor
  · rintro ⟨hlast, hnow⟩
    have := (hs' (by omega)).1 (hs.resolve_right (by omega))
    omega
  · rintro ⟨hlast, hnow⟩
    have := (he' (by omega)).1 (he.resolve_right (by omega))
    omega

theorem Emits.start (h : Begins backend.recording epoch origin d) :
    Emits backend epoch origin {} d [] [] := by
  obtain ⟨-, -, -, -, hlast, hprocessed⟩ := h.empty
  have hbackend : d.backend.epoch = epoch ∧ Batched d.backend.maxBatchOperations [] d.backend := by
    cases h with
    | @make profile state limit _ h =>
      simp only [ControlElectronics.make, BackendExecution.make, Except.bind_eq_ok_iff,
        require_eq_ok_iff, exists_const, Except.pure_eq_ok_iff] at h
      obtain ⟨x, ⟨hpos, rfl⟩, _, -, rfl⟩ := h
      exact ⟨rfl, batched_reset (x := { backend := state, maxBatchOperations := limit }) hpos⟩
    | reset built h =>
      simp only [ControlElectronics.reset, Proc.returns_get_bind_iff] at h
      obtain ⟨_, d₁, _, _, hemit, h₁, -⟩ := Proc.returns_bind_iff.1 h
      obtain ⟨rfl, -⟩ := Proc.returns_emitAll_iff.1 hemit
      rw [Proc.returns_modify_bind_iff] at h₁
      obtain ⟨_, d₂, _, _, hreset, h₂, -⟩ := Proc.returns_bind_iff.1 h₁
      obtain ⟨b, hb, rfl⟩ := returns_onExecution_iff.1 hreset
      obtain ⟨rfl, -⟩ := Proc.returns_modify_iff.1 h₂
      have hstate := congrArg Outcome.state hb
      rw [← show _ = b from hstate]
      exact ⟨rfl, batched_reset built⟩
  exact
    { current := hbackend.1
      batched := hbackend.2
      streams := by
        rw [hlast]
        exact .start
      due := by simp [ControlElectronics.Past, hprocessed]
      processed := by simp
      unprocessed := fun _ => ⟨hprocessed, hlast⟩
      valid := by simp [DeviceHistory.accepted]
      target := by simp [DeviceHistory.accepted]
      proper := by simp }

theorem Emits.accept (h : Emits backend epoch origin history d ticks ops) {batch : TriggeredEvents}
    {actions : List ScheduledEvent} {readouts : List Readout} {l : List TraceEvent}
    (haccepted : Accepted backend.recording batch actions readouts d d') :
    Emits backend epoch origin
      { history with
        fired := history.fired ++ [batch], batches := history.batches ++ [actions]
        log := history.log ++ l } d' ticks ops := by
  have hlater : ∀ a ∈ actions, ∀ processed ∈ d.processedTick,
      processed < a.start ∧ processed < a.end := by
    intro a ha processed hprocessed
    obtain ⟨hresolves, hfire⟩ := resolve_spec haccepted.resolved a ha
    have hinterval := hresolves.interval
    have hafter := haccepted.after processed hprocessed
    omega
  have hvalid : ∀ a ∈ actions,
      ControlElectronics.validate backend d.profile a.event.action = .ok () := by
    intro a ha
    obtain ⟨event, -, hevent⟩ := resolveAll_mem haccepted.resolved ha
    obtain ⟨rfl, -⟩ := resolveEvent_spec hevent
    exact validate_of_resolveEvent hevent
  have htarget : ∀ a ∈ actions, a.event.action.kind = .acquire →
      ∀ r ∈ a.event.reference, a.event.action.targets = [r.target] := by
    intro a ha hkind r hr
    obtain ⟨r', hr', -, htargets⟩ := (Readouts.prepare_spec haccepted.prepared).members.reference a ha
      (by simp [isReadout, hkind])
    obtain rfl := Option.some.inj (hr.symm.trans hr')
    exact htargets
  have hready : ∀ r ∈ actions.filterMap (Readouts.readoutOf actions),
      ∀ processed ∈ d.processedTick, processed < r.ready := by
    intro r hr processed hprocessed
    obtain ⟨a, ha, hof⟩ := mem_readouts hr
    obtain ⟨-, -, -, hreadyTick, -⟩ := readoutOf_spec hof
    have hend : a.end ≤ Readouts.readyTick actions a := end_le_readyTick
    have := hlater a ha processed hprocessed
    omega
  rw [haccepted.device]
  exact
    { current := h.current
      batched := h.batched
      streams := by
        rw [accepted_append]
        refine h.streams.append_later fun hticks a ha => ?_
        exact hlater a ha _ (h.processed hticks)
      due := by
        intro t
        rw [h.due t]
        refine and_congr_right fun hpast => ?_
        obtain ⟨processed, hprocessed, hle⟩ := hpast
        unfold DeviceHistory.Due
        rw [accepted_append]
        simp only [DeviceHistory.readouts, List.flatMap_append, List.flatMap_singleton,
          List.mem_append]
        constructor
        · rintro (⟨a, ha, ht⟩ | ⟨r, hr, ht⟩)
          · exact .inl ⟨a, .inl ha, ht⟩
          · exact .inr ⟨r, .inl hr, ht⟩
        · rintro (⟨a, ha | ha, ht⟩ | ⟨r, hr | hr, ht⟩)
          · exact .inl ⟨a, ha, ht⟩
          · have := hlater a ha processed hprocessed
            omega
          · exact .inr ⟨r, hr, ht⟩
          · have := hready r hr processed hprocessed
            omega
      processed := h.processed
      unprocessed := h.unprocessed
      valid := by
        rw [accepted_append]
        intro a ha
        exact (List.mem_append.1 ha).elim (h.valid a) (hvalid a)
      target := by
        rw [accepted_append]
        intro a ha
        exact (List.mem_append.1 ha).elim (h.target a) (htarget a)
      proper := h.proper }

theorem resolveGateOutputs_kind {p : DeviceProfile} {outputs : List (String × List ScheduledEvent)}
    {gates : List EventSpec} (h : resolveGateOutputs p now outputs = .ok gates) :
    ∀ gate ∈ gates, gate.kind = .idealGate := by
  induction outputs generalizing gates with
  | nil =>
    rw [← Except.pure_eq_ok_iff.1 h]
    simp
  | cons output rest ih =>
    simp only [resolveGateOutputs, gateAction, Except.bind_eq_ok_iff, require_eq_ok_iff, exists_const,
      Except.pure_eq_ok_iff] at h
    obtain ⟨gate, -, -, _, -, action, ⟨gate', -, rfl⟩, actions, hrest, rfl⟩ := h
    exact List.forall_mem_cons.2 ⟨rfl, ih hrest⟩

/-- The operations of a boundary are well formed when its gates and references are. -/
theorem Emits.proper_of_boundary (h : Emits backend epoch origin history d ticks ops) {qubits : ℕ}
    (hbounded : backend.Bounded qubits) {prev : ℕ} {new : List BackendOperation}
    (hops : BoundaryOps d.profile history.accepted prev now new)
    (hgates : ∀ t gates, .gates t gates ∈ new → ∀ gate ∈ gates, backend.validate gate = .ok ())
    (hreferences : ∀ t references, .measurement t references ∈ new →
      (∀ r ∈ references, r.epoch = epoch) ∧ (references.map (·.target)).Nodup) :
    ∀ operation ∈ new, operation.Proper backend.validate epoch qubits := by
  have hcovered : ∀ {kind : ActionKind} {activity : ScheduledEvent → BackendActivity}
      {activities : List BackendActivity}, kind ≠ .gateOutput → (∀ a, (activity a).start = a.start ∧
        (activity a).end = a.end ∧ (activity a).action = a.event.action) →
      Covers kind activity history.accepted prev now activities → ∀ x ∈ activities,
        x.action.kind = kind ∧ backend.validate x.action = .ok () ∧ x.start ≤ prev ∧ now ≤ x.end := by
    intro kind activity activities hkind hactivity hcovers x hx
    obtain ⟨a, ha, rfl⟩ := List.mem_map.1 (hcovers.perm.mem_iff.1 hx)
    obtain ⟨hmem, hactive⟩ := List.mem_filter.1 ha
    obtain ⟨hstart, hend, haction⟩ := hactivity a
    simp only [decide_eq_true_eq] at hactive
    rw [hstart, hend, haction]
    refine ⟨hactive.1, validate_of_acquire_or_pulse ?_ (h.valid a hmem), hactive.2⟩
    rw [hactive.1]
    exact hkind
  cases hops with
  | @intro drives acquisitions gates drives_cover acquisitions_cover gates_start clear =>
    intro operation hoperation
    simp only [List.mem_append] at hoperation
    rcases hoperation with (hevolution | hmeasurement) | happlied
    · by_cases hlt : prev < now
      · rw [if_pos hlt, List.mem_singleton] at hevolution
        subst hevolution
        have hdrives := hcovered (by simp) (fun _ => ⟨rfl, rfl, rfl⟩) (drives_cover hlt)
        have hacquisitions := hcovered (by simp) (fun _ => ⟨rfl, rfl, rfl⟩) (acquisitions_cover hlt)
        refine ⟨fun x hx => (hdrives x hx).1, fun x hx => (hacquisitions x hx).1, fun x hx => ?_⟩
        rcases List.mem_append.1 hx with hx | hx
        · obtain ⟨-, hvalid, hstart, hend⟩ := hdrives x hx
          exact ⟨hvalid, hstart, hlt, hend⟩
        · obtain ⟨-, hvalid, hstart, hend⟩ := hacquisitions x hx
          exact ⟨hvalid, hstart, hlt, hend⟩
      · simp [hlt] at hevolution
    · by_cases hnone : endingReferences history.accepted now = []
      · simp [hnone] at hmeasurement
      · rw [if_neg hnone, List.mem_singleton] at hmeasurement
        subst hmeasurement
        obtain ⟨hepoch, hnodup⟩ := hreferences now (endingReferences history.accepted now)
          (by simp [hnone])
        refine ⟨hnodup, fun r hr => ⟨?_, hepoch r hr⟩⟩
        obtain ⟨a, ha, hr⟩ := List.mem_flatMap.1 hr
        obtain ⟨ha, hkind⟩ := List.mem_filter.1 ha
        have hkind : a.event.action.kind = .acquire := by simpa using hkind
        have hmem := (List.mem_filter.1 ha).1
        have hvalid := validate_of_acquire_or_pulse (by simp [hkind]) (h.valid a hmem)
        apply hbounded _ hvalid hkind
        rw [h.target a hmem hkind r (Option.mem_toList.1 hr)]
        exact List.mem_singleton_self _
    · by_cases hnone : gates = []
      · simp [hnone] at happlied
      · rw [if_neg hnone, List.mem_singleton] at happlied
        subst happlied
        intro gate hgate
        refine ⟨?_, hgates now gates (by simp [hnone]) gate hgate⟩
        obtain ⟨paired, hpaired, rfl⟩ := gates_start
        rcases List.mem_append.1 hgate with hgate | hgate
        · obtain ⟨a, ha, rfl⟩ := List.mem_map.1 hgate
          have hkind : a.event.action.kind = .idealGate := by simpa using (List.mem_filter.1 ha).2
          simp [hkind]
        · simp [resolveGateOutputs_kind hpaired gate hgate]

theorem keepsBackend_deliverAll {β χ : Type} {deliver : Completion → Sim χ Unit} {ids : List ℕ}
    {d : ControlElectronics β} {x : χ} :
    (deliverAll now epoch deliver ids).Keeps (fun s => s.1.backend) (d, x) := by
  induction ids generalizing d x with
  | nil => exact .pure ()
  | cons id rest ih =>
    exact .get_bind <| .lift_bind fun _ => .lift_bind fun _ => .bind (.zoom fun _ => rfl)
      fun _ s₁ => .emit_bind <| .bind (.onFst (.zoom fun _ => rfl)) fun _ s₂ => ih

theorem Emits.process (h : Emits backend epoch origin history d ticks ops)
    (tracks : Tracks epoch history d bit) (hnext : d.nextBoundary = some now) {cs : List Completion}
    {l : List TraceEvent}
    (hp : (process backend.recording now epoch recordDelivery).Returns (d, []) () (d', cs) l) :
    ∃ ops', Emits backend epoch origin
      { history with
        delivered := history.delivered ++ cs.map fun c => (now, c)
        log := history.log ++ l } d' (ticks ++ [now]) ops' := by
  have hframe := process_frame hp
  obtain ⟨⟨hle, hafter⟩, ⟨hnone, -⟩ |
    ⟨boundary, p, d₁, d₂, l₁, l₂, hb, hplan, henact, hdeliver, rfl, rfl⟩⟩ := process_returns hp
  · have hmem := (mem_of_nextBoundary hnext).1
    simp [ExtTreeMap.mem_iff_isSome_getElem?, hnone] at hmem
  rcases hframe with ⟨hnone, -⟩ | ⟨-, hframe⟩
  · simp [hb] at hnone
  simp only [frame, complete, Prod.mk.injEq] at hframe
  have hnodup := tracks.nodup_samples hnext
  rw [← tracks.samples_of_plan hnext hb hplan] at hnodup
  obtain ⟨bits, he⟩ := enact_returns henact hnodup
  have hbackend : d₂.backend = d₁.backend := keepsBackend_deliverAll.returns hdeliver
  have hops := h.boundaryOps tracks hnext hb hplan
  obtain ⟨hbatched, hepoch, hreferences, hgates⟩ := h.batched.executed he.executed
  have hlimit : d₁.backend.maxBatchOperations = d.backend.maxBatchOperations := hbatched.bound
  refine ⟨ops ++ p.operations d.lastTick now, ?_⟩
  exact
    { current := by
        change d₂.backend.epoch = epoch
        rw [hbackend, hepoch, h.current]
      batched := by
        change Batched d₂.backend.maxBatchOperations _ d₂.backend
        rw [hbackend, hlimit]
        exact hbatched
      streams := by
        change Streams d₂.profile history.accepted origin _ _ now
        rw [hframe.1]
        refine .boundary h.streams hle (fun t ht => ?_) hops
        obtain ⟨processed, hprocessed, hpast⟩ := ((h.due t).1 ht).1
        have := hafter processed hprocessed
        omega
      due := by
        intro t
        change t ∈ ticks ++ [now] ↔ (complete now d₂).Past t ∧ history.Due t
        have hnow : history.Due now := ((tracks.boundary_mem now).1 (mem_of_nextBoundary hnext).1).2
        rw [past_complete, List.mem_append, List.mem_singleton, h.due t]
        constructor
        · rintro (⟨hpast, hdue⟩ | rfl)
          · exact ⟨(tracks.le_next_iff hnext hdue).2 (.inl hpast), hdue⟩
          · exact ⟨le_rfl, hnow⟩
        · rintro ⟨htick, hdue⟩
          rcases (tracks.le_next_iff hnext hdue).1 htick with hpast | rfl
          · exact .inl ⟨hpast, hdue⟩
          · exact .inr rfl
      processed := fun _ => rfl
      unprocessed := fun hnil => absurd hnil (by simp)
      valid := by
        intro a ha
        change ControlElectronics.validate backend d₂.profile a.event.action = .ok ()
        rw [hframe.1]
        exact h.valid a ha
      target := h.target
      proper := by
        intro qubits hbounded operation hoperation
        rcases List.mem_append.1 hoperation with hoperation | hoperation
        · exact h.proper qubits hbounded operation hoperation
        · refine h.proper_of_boundary hbounded hops ?_ ?_ operation hoperation
          · intro t gates hmem
            simp only [Plan.operations, List.mem_append] at hmem
            rcases hmem with (hmem | hmem) | hmem <;> split at hmem <;> simp at hmem
            rw [hmem.2]
            exact hgates
          · intro t references hmem
            simp only [Plan.operations, List.mem_append] at hmem
            rcases hmem with (hmem | hmem) | hmem <;> split at hmem <;> simp at hmem
            rw [hmem.2, ← h.current]
            exact hreferences }

theorem DeviceRun.emits (run : DeviceRun backend.recording epoch origin Timely history d) :
    ∃ ticks ops, Emits backend epoch origin history d ticks ops := by
  induction run with
  | start h => exact ⟨[], [], .start h⟩
  | accept run obeys h resolved fresh ih =>
    obtain ⟨ticks, ops, ih⟩ := ih
    obtain ⟨actions, readouts, haccepted, rfl⟩ := accept_returns h
    obtain rfl : actions = _ := Except.ok.inj (haccepted.resolved.symm.trans resolved)
    exact ⟨ticks, ops, ih.accept haccepted⟩
  | process run obeys h ih =>
    obtain ⟨ticks, ops, ih⟩ := ih
    obtain ⟨bit, tracks⟩ := run.tracks
    obtain ⟨ops', hemits⟩ := ih.process tracks obeys h
    exact ⟨_, ops', hemits⟩

end Runs

/-! ## Reading the stream -/

section Reading
variable {p : DeviceProfile} {accepted : List ScheduledEvent} {origin prev now last : ℕ}
  {ticks : List ℕ} {ops new : List BackendOperation}

theorem StartingGates.unique {gates gates' : List EventSpec} (h : StartingGates p accepted now gates)
    (h' : StartingGates p accepted now gates') : gates = gates' := by
  obtain ⟨paired, hpaired, rfl⟩ := h
  obtain ⟨paired', hpaired', rfl⟩ := h'
  rw [Except.ok.inj (hpaired.symm.trans hpaired')]

theorem BoundaryOps.tiles (h : BoundaryOps p accepted prev now new) (hle : prev ≤ now) :
    Tiles prev new now := by
  cases h with
  | @intro drives acquisitions gates =>
    rw [tiles_append]
    refine ⟨now, tiles_append.2 ⟨now, ?_, ?_⟩, ?_⟩
    · split
      · exact ⟨rfl, hle, rfl⟩
      · change prev = now
        omega
    · split
      · rfl
      · exact ⟨rfl, le_rfl, rfl⟩
    · split
      · rfl
      · exact ⟨rfl, le_rfl, rfl⟩

theorem Streams.tiles (h : Streams p accepted origin ticks ops last) : Tiles origin ops last := by
  induction h with
  | start => rfl
  | boundary before le later at_now ih => exact tiles_append.2 ⟨_, ih, at_now.tiles le⟩

theorem Streams.evolution {start tick : ℕ} {drives acquisitions : List BackendActivity}
    (h : Streams p accepted origin ticks ops last)
    (hmem : .evolution start tick drives acquisitions ∈ ops) :
    Covers .pulse drive accepted start tick drives ∧
      Covers .acquire acquisition accepted start tick acquisitions ∧ Clear accepted start tick := by
  induction h with
  | start => simp at hmem
  | @boundary _ _ _ prev now before le later at_now ih =>
    rcases List.mem_append.1 hmem with hmem | hmem
    · exact ih hmem
    · cases at_now with
      | intro drives_cover acquisitions_cover gates_start clear =>
        simp only [List.mem_append] at hmem
        rcases hmem with (hmem | hmem) | hmem <;> split at hmem <;> simp at hmem
        rename_i hlt
        obtain ⟨rfl, rfl, rfl, rfl⟩ := hmem
        exact ⟨drives_cover hlt, acquisitions_cover hlt, clear⟩

theorem Streams.measurement (h : Streams p accepted origin ticks ops last) {tick : ℕ}
    {references : List MeasurementReference} :
    .measurement tick references ∈ ops ↔
      tick ∈ ticks ∧ references = endingReferences accepted tick ∧ references ≠ [] := by
  induction h with
  | start => simp
  | @boundary _ _ _ prev now before le later at_now ih =>
    cases at_now with
    | intro drives_cover acquisitions_cover gates_start clear =>
      rw [List.mem_append, ih, List.mem_append, List.mem_append, List.mem_append]
      by_cases hnone : endingReferences accepted now = []
      · have hnow : ¬ (tick = now ∧ references = endingReferences accepted tick ∧ references ≠ []) := by
          rintro ⟨rfl, rfl, hne⟩
          exact hne hnone
        simp only [List.mem_singleton]
        rw [or_and_right, or_iff_left hnow]
        refine ⟨fun hmem => hmem.resolve_right ?_, .inl⟩
        rintro ((hmem | hmem) | hmem) <;> split at hmem <;> simp at hmem
      · simp only [List.mem_singleton, if_neg hnone]
        rw [or_and_right]
        refine or_congr_right ⟨?_, ?_⟩
        · rintro ((hmem | hmem) | hmem)
          · split at hmem <;> simp at hmem
          · obtain ⟨rfl, rfl⟩ := BackendOperation.measurement.inj hmem
            exact ⟨rfl, rfl, hnone⟩
          · split at hmem <;> simp at hmem
        · rintro ⟨rfl, rfl, -⟩
          exact .inl (.inr rfl)

theorem Streams.gates (h : Streams p accepted origin ticks ops last) {tick : ℕ}
    {applied : List EventSpec} :
    .gates tick applied ∈ ops ↔
      tick ∈ ticks ∧ StartingGates p accepted tick applied ∧ applied ≠ [] := by
  induction h with
  | start => simp
  | @boundary _ _ _ prev now before le later at_now ih =>
    cases at_now with
    | @intro _ _ gates drives_cover acquisitions_cover gates_start clear =>
      rw [List.mem_append, ih, List.mem_append, List.mem_append, List.mem_append, List.mem_singleton,
        or_and_right]
      apply or_congr_right
      constructor
      · rintro ((hmem | hmem) | hmem) <;> split at hmem <;> simp at hmem
        rename_i hne
        obtain ⟨rfl, rfl⟩ := hmem
        exact ⟨rfl, gates_start, hne⟩
      · rintro ⟨rfl, hstarts, hne⟩
        obtain rfl := hstarts.unique gates_start
        rw [if_neg hne]
        exact .inr (List.mem_singleton_self _)

theorem Streams.increasing (h : Streams p accepted origin ticks ops last) :
    ticks.Pairwise (· < ·) := by
  induction h with
  | start => exact List.Pairwise.nil
  | boundary before le later at_now ih =>
    refine List.pairwise_append.2 ⟨ih, List.pairwise_singleton _ _, fun t ht t' ht' => ?_⟩
    rw [List.mem_singleton.1 ht']
    exact later t ht

theorem Streams.last_mem (h : Streams p accepted origin ticks ops last) (hne : ticks ≠ []) :
    last ∈ ticks := by
  cases h with
  | start => exact absurd rfl hne
  | boundary before le later at_now => simp

theorem Streams.le_last (h : Streams p accepted origin ticks ops last) {t : ℕ} (ht : t ∈ ticks) :
    t ≤ last := by
  cases h with
  | start => simp at ht
  | boundary before le later at_now =>
    rcases List.mem_append.1 ht with ht | ht
    · exact (later t ht).le
    · exact (List.mem_singleton.1 ht).le

/-- The evolution that ends with an acquisition has it. -/
theorem Streams.acquisition_mem (h : Streams p accepted origin ticks ops last) {a : ScheduledEvent}
    (ha : a ∈ accepted) (hkind : a.event.action.kind = .acquire) (hlt : a.start < a.end)
    (hstart : a.start ∈ ticks) (hend : a.end ∈ ticks) :
    ∃ start drives acquisitions, .evolution start a.end drives acquisitions ∈ ops ∧
      acquisition a ∈ acquisitions := by
  induction h with
  | start => simp at hstart
  | @boundary ticks ops new prev now before le later at_now ih =>
    rcases List.mem_append.1 hend with hend | hend
    · have hnow := later _ hend
      have hstart : a.start ∈ ticks := by
        refine (List.mem_append.1 hstart).resolve_right fun hstart => ?_
        have := List.mem_singleton.1 hstart
        omega
      obtain ⟨start, drives, acquisitions, hmem, hacquisition⟩ := ih hstart hend
      exact ⟨start, drives, acquisitions, List.mem_append_left _ hmem, hacquisition⟩
    · obtain rfl := List.mem_singleton.1 hend
      have hstart : a.start ∈ ticks := by
        refine (List.mem_append.1 hstart).resolve_right fun hstart => ?_
        have := List.mem_singleton.1 hstart
        omega
      have hprev : prev < a.end := later prev (before.last_mem (List.ne_nil_of_mem hstart))
      cases at_now with
      | @intro drives acquisitions gates drives_cover acquisitions_cover gates_start clear =>
        refine ⟨prev, drives, acquisitions, by simp [hprev], ?_⟩
        rw [(acquisitions_cover hprev).perm.mem_iff]
        refine List.mem_map_of_mem (List.mem_filter.2 ⟨ha, ?_⟩)
        simp [hkind, before.le_last hstart]

theorem tiles_of_mem_flatten {a b : ℕ} {batches : List (List BackendOperation)}
    (h : Tiles a batches.flatten b) {batch : List BackendOperation} (hbatch : batch ∈ batches) :
    ∃ c d, Tiles c batch d := by
  induction batches generalizing a with
  | nil => simp at hbatch
  | cons first rest ih =>
    obtain ⟨c, hfirst, hrest⟩ := tiles_append.1 (List.flatten_cons ▸ h)
    rcases List.mem_cons.1 hbatch with rfl | hbatch
    · exact ⟨a, c, hfirst⟩
    · exact ih hrest hbatch

end Reading

/-- The stream of a whole run. The evolutions cover the time from its start to its end and are
those in which the accepted actions are active; measurements are where acquisitions end and gates
where they start; on each tick the evolution is first and the gates are last. -/
structure StreamOf (p : DeviceProfile) (accepted : List ScheduledEvent) (origin final : ℕ)
    (stream : List BackendOperation) : Prop where
  tiles : Tiles origin stream final
  evolution : ∀ start tick drives acquisitions, .evolution start tick drives acquisitions ∈ stream →
    Covers .pulse drive accepted start tick drives ∧
      Covers .acquire acquisition accepted start tick acquisitions ∧ Clear accepted start tick
  measurement : ∀ tick references, .measurement tick references ∈ stream ↔
    references = endingReferences accepted tick ∧ references ≠ []
  gates : ∀ tick applied, .gates tick applied ∈ stream ↔
    StartingGates p accepted tick applied ∧ applied ≠ []
  ordered : ∃ ticks ops last, Streams p accepted origin ticks ops last ∧
    stream = ops ++ if last < final then [.evolution last final [] []] else []

section Final
variable {backend : QuantumBackend β} {epoch origin final : ℕ} {history : DeviceHistory}
  {d d' : ControlElectronics (β × List (List BackendOperation))}
  {bit : ℕ → MeasurementReference → Bool} {ticks : List ℕ} {ops : List BackendOperation}
  {l : List TraceEvent}

theorem due_of_ending {tick : ℕ} (h : endingReferences history.accepted tick ≠ []) :
    history.Due tick := by
  obtain ⟨r, hr⟩ := List.exists_mem_of_ne_nil _ h
  obtain ⟨a, ha, -⟩ := List.mem_flatMap.1 hr
  obtain ⟨hmem, hend⟩ := List.mem_filter.1 (List.mem_filter.1 ha).1
  exact .inl ⟨a, hmem, .inr (by simpa using hend)⟩

theorem due_of_starting {p : DeviceProfile} {tick : ℕ} {applied : List EventSpec}
    (h : StartingGates p history.accepted tick applied) (hne : applied ≠ []) : history.Due tick := by
  obtain ⟨paired, hpaired, rfl⟩ := h
  by_cases hstarts : history.accepted.filter (·.start = tick) = []
  · rw [hstarts] at hpaired hne
    obtain rfl : [] = paired := Except.pure_eq_ok_iff.1 hpaired
    exact absurd rfl hne
  · obtain ⟨a, ha⟩ := List.exists_mem_of_ne_nil _ hstarts
    obtain ⟨hmem, hstart⟩ := List.mem_filter.1 ha
    exact .inl ⟨a, hmem, .inl (by simpa using hstart)⟩

theorem finalize_returns {β : Type} {backend : QuantumBackend β} {d d' : ControlElectronics β}
    (h : (finalize backend final).Returns d () d' l) :
    d.drained = true ∧ d.lastTick ≤ final ∧ ∃ x l₁ l₂,
      (if d.lastTick < final then
        (BackendExecution.evolve backend d.lastTick final []).Returns d.backend () x l₁
      else x = d.backend) ∧
      (BackendExecution.flush backend).Returns x () d'.backend l₂ := by
  simp only [finalize, Proc.returns_get_bind_iff, Proc.returns_lift_bind_iff, require_eq_ok_iff,
    exists_const] at h
  obtain ⟨hdrained, hle, h⟩ := h
  refine ⟨hdrained, hle, ?_⟩
  obtain ⟨_, d₁, l₁, l₂, hevolve, hrest, -⟩ := Proc.returns_bind_iff.1 h
  rw [Proc.returns_modify_bind_iff] at hrest
  obtain ⟨x', hflush, rfl⟩ := returns_onExecution_iff.1 hrest
  refine ⟨d₁.backend, l₁, l₂, ?_, hflush⟩
  by_cases hlt : d.lastTick < final
  · rw [if_pos hlt] at hevolve ⊢
    obtain ⟨x, hx, rfl⟩ := returns_onExecution_iff.1 hevolve
    exact hx
  · rw [if_neg hlt] at hevolve ⊢
    obtain ⟨-, rfl, -⟩ := Proc.returns_pure_iff.1 hevolve
    rfl

theorem flush_pending {β : Type} {backend : QuantumBackend β} {x y : BackendExecution β}
    (h : (BackendExecution.flush backend).Returns x () y l) : y.pending = [] := by
  obtain ⟨bits, y', _, _, hexecute, hpure, -⟩ := Proc.returns_bind_iff.1 h
  obtain ⟨-, rfl, -⟩ := Proc.returns_pure_iff.1 hpure
  rcases execute_returns hexecute with ⟨hnone, -, rfl⟩ | ⟨-, -, s, -, rfl⟩
  · exact hnone
  · rfl

/-- At the end everything that was due is past, and no accepted action is active any more. -/
theorem Emits.past_of_drained (h : Emits backend epoch origin history d ticks ops)
    (tracks : Tracks epoch history d bit) (hdrained : d.drained = true) {t : ℕ}
    (ht : history.Due t) : d.Past t ∧ t ≤ d.lastTick := by
  have hempty := tracks.drained_iff.1 hdrained
  have hpast : d.Past t := by
    by_contra hpast
    have hmem := (tracks.boundary_mem t).2 ⟨hpast, ht⟩
    simp [hempty] at hmem
  refine ⟨hpast, ?_⟩
  obtain ⟨processed, hprocessed, hle⟩ := hpast
  have hticks : ticks ≠ [] := List.ne_nil_of_mem ((h.due t).2 ⟨⟨processed, hprocessed, hle⟩, ht⟩)
  rw [h.processed hticks] at hprocessed
  obtain rfl := Option.some.inj hprocessed
  exact hle

theorem Emits.streamOf (h : Emits backend epoch origin history d ticks ops)
    (tracks : Tracks epoch history d bit) (hdrained : d.drained = true) (hle : d.lastTick ≤ final) :
    StreamOf d.profile history.accepted origin final
      (ops ++ if d.lastTick < final then [.evolution d.lastTick final [] []] else []) := by
  have hpast := fun t ht => h.past_of_drained tracks hdrained (t := t) ht
  have hticks : ∀ t, history.Due t → t ∈ ticks := fun t ht => (h.due t).2 ⟨(hpast t ht).1, ht⟩
  refine ⟨?_, ?_, ?_, ?_, ticks, ops, d.lastTick, h.streams, rfl⟩
  · refine tiles_append.2 ⟨d.lastTick, h.streams.tiles, ?_⟩
    split
    · exact ⟨rfl, hle, rfl⟩
    · change d.lastTick = final
      omega
  · intro start tick drives acquisitions hmem
    rcases List.mem_append.1 hmem with hmem | hmem
    · exact h.streams.evolution hmem
    · split at hmem <;> simp at hmem
      rename_i hlt
      obtain ⟨rfl, rfl, rfl, rfl⟩ := hmem
      have hends : ∀ a ∈ history.accepted, a.start ≤ d.lastTick ∧ a.end ≤ d.lastTick := fun a ha =>
        ⟨(hpast _ (.inl ⟨a, ha, .inl rfl⟩)).2, (hpast _ (.inl ⟨a, ha, .inr rfl⟩)).2⟩
      have hcovers : ∀ kind activity,
          Covers kind activity history.accepted d.lastTick tick [] := by
        intro kind activity
        refine ⟨?_, List.Pairwise.nil⟩
        rw [List.filter_eq_nil_iff.2]
        · exact .refl _
        · intro a ha
          have := hends a ha
          simp only [decide_eq_true_eq]
          omega
      refine ⟨hcovers _ _, hcovers _ _, fun a ha => ?_⟩
      have := hends a ha
      omega
  · intro tick references
    rw [List.mem_append, h.streams.measurement]
    constructor
    · rintro (⟨-, hmem⟩ | hmem)
      · exact hmem
      · split at hmem <;> simp at hmem
    · rintro ⟨rfl, hne⟩
      exact .inl ⟨hticks tick (due_of_ending hne), rfl, hne⟩
  · intro tick applied
    rw [List.mem_append, h.streams.gates]
    constructor
    · rintro (⟨-, hmem⟩ | hmem)
      · exact hmem
      · split at hmem <;> simp at hmem
    · rintro ⟨hstarts, hne⟩
      exact .inl ⟨hticks tick (due_of_starting hstarts hne), hstarts, hne⟩

/-- What has been committed at the end has been given to the backend. -/
theorem Emits.finalized (h : Emits backend epoch origin history d ticks ops)
    (hfinal : (finalize backend.recording final).Returns d () d' l) :
    Batched d.backend.maxBatchOperations
        (ops ++ if d.lastTick < final then [.evolution d.lastTick final [] []] else []) d'.backend ∧
      d'.backend.backend.2.flatten =
        ops ++ if d.lastTick < final then [.evolution d.lastTick final [] []] else [] := by
  obtain ⟨-, -, x, l₁, l₂, hevolve, hflush⟩ := finalize_returns hfinal
  have hbatched : Batched d.backend.maxBatchOperations
      (ops ++ if d.lastTick < final then [.evolution d.lastTick final [] []] else []) x := by
    by_cases hlt : d.lastTick < final
    · rw [if_pos hlt] at hevolve ⊢
      exact h.batched.returns_evolve hlt hevolve
    · rw [if_neg hlt] at hevolve ⊢
      rw [hevolve, List.append_nil]
      exact h.batched
  have hflushed : Batched d.backend.maxBatchOperations _
      (BackendExecution.execute backend.recording 0 x).state := hbatched.execute
  rw [← state_flush, hflush] at hflushed
  refine ⟨hflushed, ?_⟩
  have hcommitted := hflushed.committed
  rwa [flush_pending hflush, List.append_nil] at hcommitted

end Final

/-- The operations of a run that is finalized, and the check of the batches they are given in. -/
theorem device_stream {backend : QuantumBackend β} {epoch origin final : ℕ} {history : DeviceHistory}
    {d d' : ControlElectronics (β × List (List BackendOperation))} {l : List TraceEvent}
    (run : DeviceRun backend.recording epoch origin Timely history d)
    (h : (finalize backend.recording final).Returns d () d' l) :
    StreamOf d.profile history.accepted origin final d'.backend.backend.2.flatten ∧
      ∀ qubits, backend.Bounded qubits → ∀ batch ∈ d'.backend.backend.2,
        validateBatch backend.validate epoch qubits none batch = .ok () := by
  obtain ⟨bit, tracks⟩ := run.tracks
  obtain ⟨ticks, ops, emits⟩ := run.emits
  obtain ⟨hdrained, hle, -⟩ := finalize_returns h
  have hstream := emits.streamOf tracks hdrained hle
  obtain ⟨hflushed, hcommitted⟩ := emits.finalized h
  rw [hcommitted]
  refine ⟨hstream, fun qubits hbounded batch hbatch => ?_⟩
  rw [← hcommitted] at hstream
  obtain ⟨a, b, htiles⟩ := tiles_of_mem_flatten hstream.tiles hbatch
  refine validateBatch_of_tiles htiles (by simp) (fun operation hoperation => ?_)
    (hflushed.measurement_last batch hbatch)
  have hmem : operation ∈ d'.backend.backend.2.flatten := List.mem_flatten.2 ⟨batch, hbatch, hoperation⟩
  rw [hcommitted] at hmem
  rcases List.mem_append.1 hmem with hmem | hmem
  · exact emits.proper qubits hbounded operation hmem
  · split at hmem <;> simp at hmem
    rename_i hlt
    subst hmem
    exact ⟨by simp, by simp, by simp⟩


section Probe

/-- The tape as a register of two qubits. -/
def registerTape : QuantumBackend (List BackendOperation) :=
  { tape false with
    validate := fun action =>
      require (∀ target ∈ action.targets, target < 2) .backendFailure "target outside the register" }

theorem bounded_registerTape : registerTape.Bounded 2 := by
  intro action hvalid _
  exact require_eq_ok_iff.1 hvalid

def streamedDevice : ControlElectronics (List BackendOperation × List (List BackendOperation)) :=
  { profile := probeProfile, backend := { backend := ([], []), epoch := 1 } }

/-- The device after the batch of one acquisition and its boundaries. -/
def streamedAfter (ticks : List ℕ) :
    ControlElectronics (List BackendOperation × List (List BackendOperation)) :=
  ticks.foldl (fun d now => (process registerTape.recording now 1 recordDelivery (d, [])).state.1)
    (ControlElectronics.accept registerTape.recording probeBatch streamedDevice).state

/-- The batches of the run that is finalized on tick 50. -/
def streamedBatches : List (List BackendOperation) :=
  (finalize registerTape.recording 50 (streamedAfter [10, 30, 35])).state.backend.backend.2

theorem device_stream_probe :
    streamedBatches.map List.length = [3, 2] ∧
      StreamOf probeProfile probeActions 0 50 streamedBatches.flatten ∧
      ∀ batch ∈ streamedBatches, validateBatch registerTape.validate 1 2 none batch = .ok () := by
  have hmake : ControlElectronics.make registerTape.recording probeProfile ([], []) 1024 =
      .ok streamedDevice := rfl
  have hstart : DeviceRun registerTape.recording 1 0 Timely {} streamedDevice :=
    .start (.make hmake)
  have hresolve : streamedDevice.resolve registerTape.recording probeBatch = .ok probeActions := rfl
  have h₀ := hstart.accept (by simp [Timely, probeBatch, probeEvent])
    (Proc.returns_of_isSome (by decide +kernel)) hresolve (by simp [DeviceHistory.accepted])
  have h₁ := probe_process 10 h₀ (by decide +kernel) (by decide +kernel)
  have h₂ := probe_process 30 h₁ (by decide +kernel) (by decide +kernel)
  have h₃ := probe_process 35 h₂ (by decide +kernel) (by decide +kernel)
  have hfinal : (finalize registerTape.recording 50).Returns (streamedAfter [10, 30, 35]) () _ _ :=
    Proc.returns_of_isSome (by decide +kernel)
  obtain ⟨hstream, hbatches⟩ := device_stream h₃ hfinal
  have haccepted : DeviceHistory.accepted { fired := [probeBatch], batches := [probeActions] } =
      probeActions := by simp [DeviceHistory.accepted]
  exact ⟨by decide +kernel, haccepted ▸ hstream, hbatches 2 bounded_registerTape⟩

end Probe
end Qsbit

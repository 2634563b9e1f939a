import Qsbit.Fault
import Qsbit.Device.Lifecycle

/-!
# Faults of the lifecycle

Three faults of the device would mean that its maps do not fit each other: an
action ends that is not active, an action starts that is active already, or a
result is delivered that has not been sampled. The first is excluded before
anything is changed; the other two where they could be raised, by what the steps
before have left in the maps.

## Main definitions

* `lifecycleFaults` — the three faults.
* `Tracks.process_faultsIn` — processing the next boundary raises none of them.
* `lifecycle` — what holds after every timely run.
-/
namespace Qsbit
open Std (ExtTreeMap)
open ControlElectronics

variable {β : Type}

/-- The faults that mean that the maps of the device do not fit each other. -/
def lifecycleFaults : List Fault :=
  [⟨.protocol, "physical end has no active action"⟩,
    ⟨.protocol, "physical action started twice"⟩,
    ⟨.protocol, "result is ready before sampling"⟩]

/-- A fault of another kind, unless the backend refuses an action with it. -/
abbrev Foreign (backend : QuantumBackend β) : Fault → Prop :=
  Outside lifecycleFaults fun f => ∃ action, backend.validate action = .error f

/-! ## The backend -/

namespace BackendExecution
variable {backend : QuantumBackend β} {x : BackendExecution β}

theorem batchFault_foreign {epoch : ℕ} {batch : List BackendOperation} {error : Fault} :
    Foreign backend (batchFault epoch batch error) :=
  .of_code (by simp [lifecycleFaults, batchFault])

theorem execute_faultsIn {expected : ℕ} : (execute backend expected).FaultsIn (Foreign backend) x := by
  refine .get_bind ?_
  split
  · exact .pure _
  · intro f s l h
    rw [Proc.raises_handle_iff] at h
    obtain ⟨error, x₁, _, _, -, hhandler, -⟩ := h
    simp only [clear, Proc.raises_modify_bind_iff, Proc.raises_check_iff, Except.error.injEq]
      at hhandler
    rw [← hhandler.1]
    exact batchFault_foreign

theorem commit_faultsIn {operation : BackendOperation} :
    (commit backend operation).FaultsIn (Foreign backend) x := by
  refine .get_bind <| .lift_bind (.require (by decide)) fun _ _ => .modify_bind <| .get_bind ?_
  split
  · exact .bind execute_faultsIn fun _ _ _ _ => .pure _
  · exact .pure _

theorem evolve_faultsIn {start tick : ℕ} {drives acquisitions : List BackendActivity} :
    (evolve backend start tick drives acquisitions).FaultsIn (Foreign backend) x := by
  refine .get_bind <| .lift_bind (.require (by decide)) fun _ _ => ?_
  split
  · exact commit_faultsIn
  · exact .pure _

theorem validateAll_faultsIn {gates : List EventSpec} :
    (validateAll backend gates).FaultsIn (Foreign backend) := by
  induction gates with
  | nil => exact .pure _
  | cons gate rest ih => exact .bind (fun f hf _ => ⟨gate, hf⟩) fun _ _ => ih

theorem apply_faultsIn {now : ℕ} {gates : List EventSpec} :
    (apply backend now gates).FaultsIn (Foreign backend) x := by
  refine .lift_bind validateAll_faultsIn fun _ _ => ?_
  split
  · exact .pure _
  · exact commit_faultsIn

theorem measure_faultsIn {now : ℕ} {references : List MeasurementReference} :
    (measure backend now references).FaultsIn (Foreign backend) x := by
  refine .get_bind ?_
  split
  · exact .pure _
  · exact .lift_bind (.require (by decide)) fun _ _ => .lift_bind (.require (by decide)) fun _ _ =>
      .modify_bind execute_faultsIn

end BackendExecution

/-! ## The checks of a boundary -/

section Plan
variable {backend : QuantumBackend β} {p : DeviceProfile} {now epoch : ℕ}

theorem gate_faultsIn {name : String} : (p.gate name).FaultsIn (Foreign backend) := by
  unfold DeviceProfile.gate
  split
  · exact .pure _
  · intro f hf
    rw [← Except.error.inj hf]
    exact .of_code (by simp [lifecycleFaults])

theorem gateAction_faultsIn {name : String} : (gateAction p name).FaultsIn (Foreign backend) :=
  .bind gate_faultsIn fun _ _ => .pure _

theorem validate_faultsIn {action : EventSpec} :
    (ControlElectronics.validate backend p action).FaultsIn (Foreign backend) := by
  unfold ControlElectronics.validate
  split
  · exact .bind gateAction_faultsIn fun gate _ f hf _ => ⟨gate, hf⟩
  · exact fun f hf _ => ⟨action, hf⟩

theorem checkStarts_faultsIn {sampled : List ℕ} {starts : List ScheduledEvent} :
    (checkStarts backend p epoch sampled starts).FaultsIn (Foreign backend) := by
  induction starts with
  | nil => exact .pure _
  | cons a rest ih =>
    exact .bind (.require (by decide)) fun _ _ => .bind validate_faultsIn fun _ _ =>
      .bind (.require (by decide)) fun _ _ => ih

theorem countInputs_faultsIn {gate : TwoQubitGate} {input : GateInput}
    {outputs : List ScheduledEvent} :
    (countInputs now gate input outputs).FaultsIn (Foreign backend) := by
  induction outputs with
  | nil => exact .pure _
  | cons output rest ih =>
    refine .bind ?_ fun _ _ => .bind ih fun _ _ => .pure _
    split
    · exact .bind (.checkedAdd (by decide)) fun _ _ => .pure _
    · exact .pure _

theorem checkInputs_faultsIn {gate : TwoQubitGate} {outputs : List ScheduledEvent}
    {inputs : List GateInput} :
    (checkInputs now gate outputs inputs).FaultsIn (Foreign backend) := by
  induction inputs with
  | nil => exact .pure _
  | cons input rest ih =>
    exact .bind countInputs_faultsIn fun _ _ => .bind (.require (by decide)) fun _ _ => ih

theorem resolveGateOutputs_faultsIn {outputs : List (String × List ScheduledEvent)} :
    (resolveGateOutputs p now outputs).FaultsIn (Foreign backend) := by
  induction outputs with
  | nil => exact .pure _
  | cons o rest ih =>
    refine .bind gate_faultsIn fun _ _ => .bind ?_ fun _ _ => .bind checkInputs_faultsIn fun _ _ =>
      .bind gateAction_faultsIn fun _ _ => .bind ih fun _ _ => .pure _
    intro f hf
    obtain ⟨-, rfl⟩ := require_eq_error_iff.1 hf
    exact .of_code (by simp [lifecycleFaults])

end Plan

/-! ## The loops of a boundary -/

section Loops
variable {backend : QuantumBackend β} {d : ControlElectronics β} {now epoch : ℕ} {P : Fault → Prop}

theorem at_faultsIn {r : Readouts} {m : ℕ} : (r.at m).FaultsIn (Foreign backend) := by
  unfold Readouts.at
  split
  · exact .pure _
  · exact .error (by decide)

theorem sampleAll_faultsIn {pairs : List (MeasurementReference × Bool)} :
    (sampleAll now epoch pairs).FaultsIn (Foreign backend) d := by
  induction pairs generalizing d with
  | nil => exact .pure _
  | cons pair rest ih =>
    exact .bind (.zoom (.get_bind <| .lift_bind at_faultsIn fun _ _ => .set _)) fun _ _ _ _ =>
      .get_bind <| .lift_bind at_faultsIn fun _ _ => .bind (.emit _) fun _ _ _ _ => ih

theorem endAll_faultsIn {ids : List ℕ} : (endAll now epoch ids).FaultsIn (Foreign backend) d := by
  induction ids generalizing d with
  | nil => exact .pure _
  | cons id rest ih =>
    refine .get_bind ?_
    split
    · intro f s l h
      exact Outside.error (by decide) f (Proc.raises_check_iff.1 h).1
    · exact .bind (.emit _) fun _ _ _ _ => .set_bind ih

theorem gatesApplied_faultsIn {outputs : List (String × List ScheduledEvent)} :
    (gatesApplied now epoch outputs).FaultsIn (Foreign backend) d := by
  induction outputs generalizing d with
  | nil => exact .pure _
  | cons o rest ih =>
    exact .get_bind <| .lift_bind gate_faultsIn fun _ _ => .bind (.emit _) fun _ _ _ _ => ih

/-- Different actions start that are not active. -/
theorem startAll_faultsIn {starts : List ScheduledEvent}
    (hnodup : (starts.map (·.event.id)).Nodup) (hfresh : ∀ a ∈ starts, a.event.id ∉ d.active) :
    (startAll now epoch starts).FaultsIn P d := by
  induction starts generalizing d with
  | nil => exact .pure _
  | cons a rest ih =>
    simp only [List.map_cons, List.nodup_cons] at hnodup
    refine .get_bind <| .lift_bind (require_faultsIn (hfresh a List.mem_cons_self)) fun _ _ =>
      .set_bind <| .bind (.emit _) ?_
    intro _ s₁ l hs₁
    obtain ⟨rfl, -⟩ := Proc.returns_emit_iff.1 hs₁
    refine ih hnodup.2 ?_
    intro b hb hmem
    rcases ExtTreeMap.mem_insert.1 hmem with heq | hmem
    · exact hnodup.1 (List.mem_map.2 ⟨b, hb, (Nat.compare_eq_eq.1 heq).symm⟩)
    · exact hfresh b (List.mem_cons_of_mem _ hb) hmem

/-- Different results are delivered that have been sampled. -/
theorem deliverAll_faultsIn {χ : Type} {deliver : Completion → Sim χ Unit} {x : χ} {ids : List ℕ}
    (hnodup : ids.Nodup)
    (hsampled : ∀ id ∈ ids, ∃ r, d.readouts.pending[id]? = some r ∧ r.sample.isSome = true)
    (hdeliver : ∀ c x, (deliver c).FaultsIn P x) :
    (deliverAll now epoch deliver ids).FaultsIn P (d, x) := by
  induction ids generalizing d x with
  | nil => exact .pure _
  | cons id rest ih =>
    obtain ⟨hid, hrest⟩ := List.nodup_cons.1 hnodup
    obtain ⟨r, hr, hsome⟩ := hsampled id List.mem_cons_self
    obtain ⟨value, hvalue⟩ := Option.isSome_iff_exists.1 hsome
    refine .get_bind <| .lift_bind (.of_ok (Readouts.at_eq_ok_iff.2 hr)) fun _ _ =>
      .lift_bind (.of_ok (Readouts.result_eq_ok_iff.2 ⟨r, value, hr, hvalue, rfl⟩)) fun c _ =>
        .bind (.zoom (hdeliver c _)) ?_
    rintro _ ⟨d₁, x₁⟩ l hs₁
    obtain ⟨-, rfl⟩ := Proc.returns_onSnd_iff.1 hs₁
    refine .bind (.emit _) ?_
    intro _ s₂ l hs₂
    obtain ⟨rfl, -⟩ := Proc.returns_emit_iff.1 hs₂
    refine .bind (.zoom (.zoom (.modify _))) ?_
    rintro _ ⟨d₃, x₃⟩ l hs₃
    obtain ⟨herase, rfl⟩ := Proc.returns_onFst_iff.1 hs₃
    obtain ⟨r', hr', rfl⟩ := Proc.returns_zoom_iff.1 herase
    obtain ⟨rfl, -⟩ := Proc.returns_modify_iff.1 hr'
    refine ih hrest ?_
    intro j hj
    obtain ⟨r, hr, hsome⟩ := hsampled j (List.mem_cons_of_mem _ hj)
    refine ⟨r, ?_, hsome⟩
    have hne : id ≠ j := by
      rintro rfl
      exact hid hj
    rw [Readouts.erase, ExtTreeMap.getElem?_erase, if_neg (by simpa using hne)]
    exact hr

end Loops

/-! ## The next boundary -/

section Next
variable {backend : QuantumBackend β} {epoch origin now : ℕ} {history : DeviceHistory}
  {d : ControlElectronics β} {bit : ℕ → MeasurementReference → Bool}

theorem keepsActive_sampleAll {pairs : List (MeasurementReference × Bool)} :
    (sampleAll now epoch pairs).Keeps ControlElectronics.active d := by
  induction pairs generalizing d with
  | nil => exact .pure ()
  | cons p rest ih =>
    exact .bind (.zoom fun _ => rfl) fun _ d₁ => .get_bind <| .lift_bind fun _ => .emit_bind ih

theorem keepsExecution_sampleAll {pairs : List (MeasurementReference × Bool)} :
    (sampleAll now epoch pairs).Keeps ControlElectronics.backend d := by
  induction pairs generalizing d with
  | nil => exact .pure ()
  | cons p rest ih =>
    exact .bind (.zoom fun _ => rfl) fun _ d₁ => .get_bind <| .lift_bind fun _ => .emit_bind ih

theorem Tracks.plan_faultsIn (h : Tracks epoch history d bit) (hnext : d.nextBoundary = some now)
    {boundary : Boundary} (hb : d.boundaries[now]? = some boundary) :
    (d.plan backend boundary now epoch).FaultsIn (Foreign backend) := by
  refine .bind ?_ fun _ _ => .bind (.require (by decide)) fun _ _ =>
    .bind checkStarts_faultsIn fun _ _ => .bind resolveGateOutputs_faultsIn fun _ _ => .pure _
  intro f hf
  rw [h.boundary_next hnext hb, h.samplesOf_next hnext] at hf
  simp at hf

theorem Tracks.starts_fresh (h : Tracks epoch history d bit) (hnext : d.nextBoundary = some now)
    {boundary : Boundary} (hb : d.boundaries[now]? = some boundary) :
    (boundary.starts.map (·.event.id)).Nodup ∧
      ∀ a ∈ boundary.starts, d.active[a.event.id]? = none := by
  rw [h.boundary_next hnext hb]
  refine ⟨h.nodup.sublist (List.filter_sublist.map _), ?_⟩
  intro a ha
  obtain ⟨hacc, hnow⟩ := List.mem_filter.1 ha
  by_contra hsome
  obtain ⟨b, hb⟩ := Option.ne_none_iff_exists'.1 hsome
  obtain ⟨hbacc, hid, hpast, -⟩ := (h.active _ b).1 hb
  rw [h.unique hbacc hacc hid, show a.start = now by simpa using hnow] at hpast
  exact h.not_past_next hnext hpast

/-- The steps of a boundary fault as their parts do. Once the actions that end are no longer
active, none of those that start is. -/
theorem Tracks.enact_faultsIn {P : Fault → Prop} (h : Tracks epoch history d bit)
    (hnext : d.nextBoundary = some now) {boundary : Boundary}
    (hb : d.boundaries[now]? = some boundary) {p : Plan}
    (hevolve : d.lastTick < now →
      (BackendExecution.evolve backend d.lastTick now p.drives p.acquisitions).FaultsIn P d.backend)
    (hmeasure : ∀ x, (if d.lastTick < now then
        (BackendExecution.evolve backend d.lastTick now p.drives p.acquisitions).Returns
          d.backend () x [] else x = d.backend) →
      (BackendExecution.measure backend now p.samples).FaultsIn P x ∧ ∀ bits y l,
        (BackendExecution.measure backend now p.samples).Returns x bits y l →
          (BackendExecution.apply backend now p.gates).FaultsIn P y)
    (hsample : ∀ (bits : List Bool) (d' : ControlElectronics β), d'.readouts = d.readouts →
      (sampleAll now epoch (p.samples.zip bits)).FaultsIn P d')
    (hends : ∀ d' : ControlElectronics β, d'.active = d.active →
      (endAll now epoch boundary.ends).FaultsIn P d')
    (hgates : ∀ d' : ControlElectronics β, d'.profile = d.profile →
      (gatesApplied now epoch p.outputs).FaultsIn P d') :
    (enact backend now epoch boundary p).FaultsIn P d := by
  have hevolved : ∀ a d₁ l, (if d.lastTick < now then
      onExecution (BackendExecution.evolve backend d.lastTick now p.drives p.acquisitions)
      else pure ()).Returns d a d₁ l → ∃ x, d₁ = { d with backend := x } ∧ if d.lastTick < now then
        (BackendExecution.evolve backend d.lastTick now p.drives p.acquisitions).Returns
          d.backend () x [] else x = d.backend := by
    intro a d₁ l h₁
    split at h₁
    · obtain ⟨x, hx, rfl⟩ := returns_onExecution_iff.1 h₁
      obtain rfl := BackendExecution.quiet_evolve.returns hx
      exact ⟨x, rfl, by rwa [if_pos ‹_›]⟩
    · exact ⟨d.backend, (Proc.returns_pure_iff.1 h₁).2.1.symm, by rw [if_neg ‹_›]⟩
  refine .get_bind <| .bind ?_ fun a d₁ l h₁ => ?_
  · split
    · exact .zoom (hevolve ‹_›)
    · exact .pure _
  obtain ⟨x, rfl, hx⟩ := hevolved a d₁ l h₁
  obtain ⟨hfaults, happly⟩ := hmeasure x hx
  refine .bind (.zoom hfaults) fun bits d₂ l h₂ => ?_
  obtain ⟨y, hy, rfl⟩ := returns_onExecution_iff.1 h₂
  refine .bind (hsample bits _ rfl) fun _ d₃ _ h₃ => ?_
  have hactive₃ := keepsActive_sampleAll.returns h₃
  have hbackend₃ := keepsExecution_sampleAll.returns h₃
  have hframe₃ := keeps_sampleAll.returns h₃
  refine .bind (hends d₃ hactive₃) fun _ d₄ _ h₄ => ?_
  have hframe₄ := (keeps_endAll.returns h₄).trans hframe₃
  obtain ⟨-, ⟨active, rfl, hactive⟩, -⟩ := endAll_returns h₄
  refine .bind (.zoom ?_) fun _ d₅ _ h₅ => ?_
  · change (BackendExecution.apply backend now p.gates).FaultsIn P d₃.backend
    rw [hbackend₃]
    exact happly bits y l hy
  obtain ⟨_, -, rfl⟩ := returns_onExecution_iff.1 h₅
  refine .bind (hgates _ (Prod.mk.inj hframe₄).1) fun _ d₆ _ h₆ => ?_
  obtain ⟨rfl, -⟩ := gatesApplied_returns h₆
  obtain ⟨hnodup, hfresh⟩ := h.starts_fresh hnext hb
  refine startAll_faultsIn hnodup ?_
  intro a ha hmem
  have hgone : active[a.event.id]? = none := by
    rw [hactive, hactive₃]
    change (if _ then none else d.active[a.event.id]?) = none
    rw [hfresh a ha]
    split <;> rfl
  rw [ExtTreeMap.mem_iff_isSome_getElem?] at hmem
  simp [hgone] at hmem

/-- What is ready at the boundary has been sampled. -/
theorem Tracks.ready_sampled (h : Tracks epoch history d bit) (hnext : d.nextBoundary = some now)
    {boundary : Boundary} (hb : d.boundaries[now]? = some boundary) {p : Plan}
    (hp : d.plan backend boundary now epoch = .ok p) {d₁ : ControlElectronics β} {l : List TraceEvent}
    (henact : (enact backend now epoch boundary p).Returns d () d₁ l) :
    boundary.ready.Nodup ∧ ∀ id ∈ boundary.ready,
      ∃ r, d₁.readouts.pending[id]? = some r ∧ r.sample.isSome = true := by
  have hsamples := h.samples_of_plan hnext hb hp
  have hnodup := h.nodup_samples hnext
  rw [← hsamples] at hnodup
  obtain ⟨bits, he⟩ := enact_returns henact hnodup
  obtain ⟨bit', hbit, hzip⟩ := exists_bits he.count hnodup bit now
  rw [h.boundary_next hnext hb]
  constructor
  · refine h.nodup_measurements fun r _ hnow => ?_
    rw [show r.ready = now by simpa using hnow]
    exact h.not_past_next hnext
  · intro id hid
    obtain ⟨r, hr, rfl⟩ := List.mem_map.1 hid
    obtain ⟨hmem, hnow⟩ := List.mem_filter.1 hr
    obtain rfl : r.ready = now := by simpa using hnow
    refine ⟨_, (h.pending_sampled hnext d he hsamples hbit hzip _ _).2
      ⟨r, hmem, rfl, h.not_past_next hnext, rfl⟩, ?_⟩
    rw [sampledAs, if_pos (past_complete.2 (h.ready r hmem))]
    rfl

/-- Processing the next boundary raises no fault of the lifecycle. -/
theorem Tracks.process_faultsIn (h : Tracks epoch history d bit)
    (hnext : d.nextBoundary = some now) :
    (ControlElectronics.process backend now epoch recordDelivery).FaultsIn (Foreign backend)
      (d, []) := by
  refine .get_bind <| .lift_bind (.require (by decide)) fun _ _ => ?_
  cases hb : d.boundaries[now]? with
  | none => exact .pure _
  | some boundary =>
    refine .lift_bind (h.plan_faultsIn hnext hb) fun p hp => .bind (.zoom ?_) ?_
    · exact h.enact_faultsIn hnext hb (fun _ => BackendExecution.evolve_faultsIn)
        (fun _ _ => ⟨BackendExecution.measure_faultsIn, fun _ _ _ _ =>
          BackendExecution.apply_faultsIn⟩)
        (fun _ _ _ => sampleAll_faultsIn) (fun _ _ => endAll_faultsIn) fun _ _ => gatesApplied_faultsIn
    rintro _ ⟨d₁, cs⟩ l hs₁
    obtain ⟨henact, rfl⟩ := Proc.returns_onFst_iff.1 hs₁
    obtain ⟨hnodup, hsampled⟩ := h.ready_sampled hnext hb hp henact
    exact .bind (deliverAll_faultsIn hnodup hsampled fun _ _ => .modify _)
      fun _ _ _ _ => .zoom (.modify _)

end Next

/-! ## Every run -/

/-- When the result of an acquisition is ready: its discriminator delay after the acquisition has
ended and the discriminator is armed, by its own separate arm or as the acquisition starts. -/
def ReadyAt (actions : List ScheduledEvent) (a : ScheduledEvent) (t : ℕ) : Prop :=
  ∃ value arm, a.event.action.spec = .acquire value ∧ t = max a.end arm + value.discriminatorDelay ∧
    if value.separateArm then
      ∃ b ∈ actions, isArm b.event.action ∧ b.event.reference = a.event.reference ∧ arm = b.start
    else arm = a.start

/-- The readout of an acquisition of the batch. -/
structure Acquires (actions : List ScheduledEvent) (a : ScheduledEvent) (r : Readout) : Prop where
  reference : a.event.reference = some r.reference
  core : r.core = a.event.core
  «end» : r.end = a.end
  ready : ReadyAt actions a r.ready

/-- A batch with its events scheduled, and a readout for each of its acquisitions. -/
structure Scheduled (batch : TriggeredEvents) (actions : List ScheduledEvent) : Prop where
  schedules : Schedules batch actions
  acquires : List.Forall₂ (Acquires actions) (actions.filter (·.event.action.kind = .acquire))
    (actions.filterMap (Readouts.readoutOf actions))

section Runs
variable {backend : QuantumBackend β} {epoch origin : ℕ}
  {rule : ControlElectronics β → DeviceCall → Prop} {history : DeviceHistory}
  {d d' : ControlElectronics β}

/-- The discriminator of a prepared acquisition is armed by an arm of the batch if it has one. -/
theorem armStart_of_prepared {r : Readouts} {actions : List ScheduledEvent} {readouts : List Readout}
    (hp : Readouts.Prepared r actions epoch readouts) {a : ScheduledEvent} (ha : a ∈ actions)
    {value : AcquireSpec} (hspec : a.event.action.spec = .acquire value)
    (harm : value.separateArm = true) :
    ∃ b ∈ actions, isArm b.event.action ∧ b.event.reference = a.event.reference ∧
      Readouts.armStart actions a true = b.start := by
  have hread : isReadout a.event.action = true := by simp [isReadout, EventSpec.kind, hspec]
  obtain ⟨reference, href, -⟩ := hp.members.reference a ha hread
  have hcount := (hp.paired a ha value reference hspec href).armed
  rw [harm, if_pos rfl] at hcount
  obtain ⟨b, hb, harms⟩ := List.countP_pos_iff.1 (by omega : 0 < actions.countP
    (Readouts.arms reference.measurement))
  simp only [Readouts.arms, decide_eq_true_eq] at harms
  have hbarm := harms.1
  have hbread : isReadout b.event.action = true := by
    simp only [isArm, decide_eq_true_eq] at hbarm
    simp [isReadout, hbarm]
  obtain ⟨s, hs, -⟩ := hp.members.reference b hb hbread
  have hsame : s = reference :=
    hp.members.agree b hb a ha hbread hread s reference hs href (by simpa [hs] using harms.2)
  have hmem : b ∈ actions.filter fun other =>
      isArm other.event.action ∧ other.event.reference = a.event.reference := by
    rw [List.mem_filter]
    exact ⟨hb, by simp [hbarm, hs, href, hsame]⟩
  obtain ⟨c, hc⟩ := Option.ne_none_iff_exists'.1
    (mt List.getLast?_eq_none_iff.1 (List.ne_nil_of_mem hmem))
  obtain ⟨hcmem, hcarm⟩ := List.mem_filter.1 (List.mem_of_getLast? hc)
  simp only [decide_eq_true_eq] at hcarm
  refine ⟨c, hcmem, hcarm.1, hcarm.2, ?_⟩
  rw [Readouts.armStart, if_pos rfl, hc]
  rfl

theorem ControlElectronics.Accepted.scheduled {batch : TriggeredEvents} {actions : List ScheduledEvent}
    {readouts : List Readout} (h : Accepted backend batch actions readouts d d') :
    Scheduled batch actions := by
  have hp := Readouts.prepare_spec h.prepared
  refine ⟨schedules_of_resolve h.resolved, ?_⟩
  have hall : ∀ rest : List ScheduledEvent, (∀ a ∈ rest, a ∈ actions) →
      List.Forall₂ (Acquires actions) (rest.filter (·.event.action.kind = .acquire))
        (rest.filterMap (Readouts.readoutOf actions)) := by
    intro rest hrest
    induction rest with
    | nil => exact .nil
    | cons a rest ih =>
      have ih := ih fun b hb => hrest b (List.mem_cons_of_mem _ hb)
      have ha := hrest a List.mem_cons_self
      cases hspec : a.event.action.spec with
      | acquire value =>
        have hread : isReadout a.event.action = true := by simp [isReadout, EventSpec.kind, hspec]
        obtain ⟨reference, href, -⟩ := hp.members.reference a ha hread
        have hof : Readouts.readoutOf actions a = some
            { reference, «end» := a.end, arm := Readouts.armStart actions a value.separateArm
              ready := Readouts.readyTick actions a, core := a.event.core } := by
          simp [Readouts.readoutOf, hspec, href]
        rw [List.filterMap_cons_some hof, List.filter_cons_of_pos (by simp [EventSpec.kind, hspec])]
        refine .cons ⟨href, rfl, rfl, value, Readouts.armStart actions a value.separateArm, hspec,
          by simp only [Readouts.readyTick, hspec], ?_⟩ ih
        cases harm : value.separateArm with
        | false => simp [Readouts.armStart]
        | true => simpa using armStart_of_prepared hp ha hspec harm
      | gate | pulse | discriminatorArm | gateOutput =>
        have hof : Readouts.readoutOf actions a = none := by simp [Readouts.readoutOf, hspec]
        rw [List.filterMap_cons_none hof, List.filter_cons_of_neg (by simp [EventSpec.kind, hspec])]
        exact ih
  exact hall actions fun _ ha => ha

theorem DeviceRun.scheduled (run : DeviceRun backend epoch origin rule history d) :
    List.Forall₂ Scheduled history.fired history.batches := by
  induction run with
  | start h => exact .nil
  | accept run obeys h resolved fresh ih =>
    obtain ⟨actions, readouts, haccepted, rfl⟩ := accept_returns h
    obtain rfl : actions = _ := Except.ok.inj (haccepted.resolved.symm.trans resolved)
    exact List.rel_append ih (.cons haccepted.scheduled .nil)
  | process run obeys h ih => exact ih

/-- Nothing is left to be done when no boundary is left. -/
theorem Tracks.drained_iff {bit : ℕ → MeasurementReference → Bool}
    (h : Tracks epoch history d bit) : d.drained = true ↔ d.boundaries = ∅ := by
  simp only [ControlElectronics.drained, decide_eq_true_eq, ExtTreeMap.isEmpty_iff]
  refine ⟨fun hd => hd.1, fun hempty => ⟨hempty, ?_, ?_⟩⟩
  · apply ExtTreeMap.ext_getElem?
    intro id
    rw [ExtTreeMap.getElem?_empty]
    by_contra hsome
    obtain ⟨a, ha⟩ := Option.ne_none_iff_exists'.1 hsome
    obtain ⟨hmem, -, -, hend⟩ := (h.active id a).1 ha
    have := (h.boundary_mem a.end).2 ⟨hend, .inl ⟨a, hmem, .inr rfl⟩⟩
    simp [hempty] at this
  · apply ExtTreeMap.ext_getElem?
    intro m
    rw [ExtTreeMap.getElem?_empty]
    by_contra hsome
    obtain ⟨r, hr⟩ := Option.ne_none_iff_exists'.1 hsome
    obtain ⟨r₀, hmem, -, hready, -⟩ := (h.pending m r).1 hr
    have := (h.boundary_mem r₀.ready).2 ⟨hready, .inr ⟨r₀, hmem, rfl⟩⟩
    simp [hempty] at this

end Runs

/-- The lifecycle of the accepted actions. After every timely run each event of the accepted
batches is scheduled once, the device and its records are what follows from the schedule and the
measured bits, the device is drained when no boundary is left, what is left lies after the last
processed boundary, and the next boundary raises no fault of the lifecycle. -/
theorem lifecycle {backend : QuantumBackend β} {epoch origin : ℕ} {history : DeviceHistory}
    {d : ControlElectronics β} (run : DeviceRun backend epoch origin Timely history d) :
    List.Forall₂ Scheduled history.fired history.batches ∧
      (∃ bit, Tracks epoch history d bit) ∧
      (d.drained = true ↔ d.boundaries = ∅) ∧
      (∀ t ∈ d.boundaries, ∀ processed ∈ d.processedTick, processed < t) ∧
      ∀ now f s l, d.nextBoundary = some now →
        (process backend now epoch recordDelivery).Raises (d, []) f s l →
          f ∈ lifecycleFaults → ∃ action, backend.validate action = .error f := by
  obtain ⟨bit, tracks⟩ := run.tracks
  refine ⟨run.scheduled, ⟨bit, tracks⟩, tracks.drained_iff, ?_, ?_⟩
  · intro t ht processed hprocessed
    by_contra hle
    exact ((tracks.boundary_mem t).1 ht).1 ⟨processed, hprocessed, by omega⟩
  · intro now f s l hnext hraises
    exact tracks.process_faultsIn hnext f s l hraises

/-- The whole run of one acquisition: nothing is left, and its result has been delivered. -/
theorem lifecycle_probe : ∃ history : DeviceHistory, history.batches = [probeActions] ∧
    history.delivered = [(35, { reference := { epoch := 1, measurement := 1, target := 0 } })] ∧
    (probeAfter [10, 30, 35]).drained = true := by
  obtain ⟨history, hbatches, hdelivered, run⟩ := probe_run
  refine ⟨history, hbatches, hdelivered, ?_⟩
  rw [(lifecycle run).2.2.1, ← ExtTreeMap.isEmpty_iff]
  decide +kernel

end Qsbit

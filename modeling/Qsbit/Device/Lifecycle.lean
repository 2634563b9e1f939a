import Qsbit.Device.Run
import Mathlib.Data.List.Nodup

/-!
# The lifecycle of an action

Every accepted action starts and ends once, on its own ticks; an acquisition is
sampled when it ends and its result is delivered once, when it is ready. The maps
of the device are what is left to be done: what lies after the last processed
boundary is scheduled in the boundaries, and what has begun and not ended is in
the active actions and the readouts.

## Main definitions

* `DeviceHistory.readouts` — the readouts of all accepted batches.
* `Tracks` — how the device, the deliveries and the log follow from the accepted actions.
* `lifecycle` — what holds after every timely run.
-/
namespace Qsbit
open Std (ExtTreeMap)
open ControlElectronics

variable {β : Type}

namespace ControlElectronics

instance (d : ControlElectronics β) (t : ℕ) : Decidable (d.Past t) :=
  match h : d.processedTick with
  | none => isFalse fun ⟨_, hp, _⟩ => by simp [h] at hp
  | some processed =>
    if hle : t ≤ processed then isTrue ⟨processed, h, hle⟩
    else isFalse fun ⟨q, hq, hlt⟩ => hle (by
      obtain rfl : processed = q := Option.some.inj (h.symm.trans hq)
      exact hlt)

theorem past_of_le {d : ControlElectronics β} {s t : ℕ} (h : d.Past t) (hst : s ≤ t) : d.Past s := by
  obtain ⟨processed, hprocessed, hle⟩ := h
  exact ⟨processed, hprocessed, by omega⟩

/-- What has a tick that is past after a boundary either had one before or is due at it. -/
theorem filter_past_perm {α : Type} {d d' : ControlElectronics β} {now : ℕ} {xs : List α}
    {key : α → ℕ} (hnow : ¬ d.Past now)
    (h : ∀ x ∈ xs, d'.Past (key x) ↔ d.Past (key x) ∨ key x = now) :
    (xs.filter fun x => d'.Past (key x)).Perm
      ((xs.filter fun x => d.Past (key x)) ++ xs.filter fun x => key x = now) := by
  refine ((List.filter_append_perm (fun x => decide (d.Past (key x))) _).symm.trans ?_)
  rw [List.filter_filter, List.filter_filter]
  refine .of_eq (congrArg₂ _ (List.filter_congr fun x hx => ?_) (List.filter_congr fun x hx => ?_))
  · simp only [h x hx]
    by_cases hp : d.Past (key x) <;> simp [hp]
  · simp only [h x hx]
    by_cases hp : d.Past (key x)
    · have hne : key x ≠ now := by
        rintro rfl
        exact hnow hp
      simp [hp, hne]
    · simp [hp]

end ControlElectronics

/-- The readouts of the acquisitions, by batch, none of them sampled. -/
def DeviceHistory.readouts (history : DeviceHistory) : List Readout :=
  history.batches.flatMap fun actions => actions.filterMap (Readouts.readoutOf actions)

/-- The readout as the device holds it: with its bit once the acquisition has ended. -/
def ControlElectronics.sampledAs (d : ControlElectronics β) (bit : ℕ → MeasurementReference → Bool)
    (r : Readout) : Readout :=
  { r with sample := if d.Past r.end then some (bit r.end r.reference) else none }

/-- The record of a sampled readout. -/
def sampledRecord (epoch : ℕ) (bit : ℕ → MeasurementReference → Bool) (r : Readout) : TraceEvent :=
  { tick := r.end, epoch, kind := .measurementSampled, id := r.reference.measurement
    core := r.core, targets := [r.reference.target], value := (bit r.end r.reference).toNat }

/-- The delivery of a readout. -/
def deliveryOf (bit : ℕ → MeasurementReference → Bool) (r : Readout) : ℕ × Completion :=
  (r.ready, { reference := r.reference, value := bit r.end r.reference })

/-- No result is reported ready before its sample has been recorded. -/
def SampledFirst (log : List TraceEvent) : Prop :=
  ∀ before r after, log = before ++ r :: after → r.kind = .resultReady →
    ∃ s ∈ before, s.kind = .measurementSampled ∧ s.id = r.id ∧ s.targets = r.targets ∧
      s.value = r.value

/-- How the device and its records follow from the accepted actions and the bits that the backend
has measured. -/
structure Tracks (epoch : ℕ) (history : DeviceHistory) (d : ControlElectronics β)
    (bit : ℕ → MeasurementReference → Bool) : Prop where
  nodup : (history.accepted.map (·.event.id)).Nodup
  interval : ∀ a ∈ history.accepted, a.start < a.end
  ready : ∀ r ∈ history.readouts, r.end ≤ r.ready
  live : ((history.readouts.filter fun r => ¬ d.Past r.ready).map
    (·.reference.measurement)).Nodup
  boundary_mem : ∀ t, t ∈ d.boundaries ↔ ¬ d.Past t ∧
    ((∃ a ∈ history.accepted, a.start = t ∨ a.end = t) ∨ ∃ r ∈ history.readouts, r.ready = t)
  boundary : ∀ t, ¬ d.Past t → boundaryAt d.boundaries t =
    { starts := history.accepted.filter (·.start = t)
      ends := (history.accepted.filter (·.end = t)).map (·.event.id)
      ready := (history.readouts.filter (·.ready = t)).map (·.reference.measurement) }
  active : ∀ (id : ℕ) (a : ScheduledEvent), d.active[id]? = some a ↔
    a ∈ history.accepted ∧ a.event.id = id ∧ d.Past a.start ∧ ¬ d.Past a.end
  pending : ∀ (m : ℕ) (r : Readout), d.readouts.pending[m]? = some r ↔
    ∃ r₀ ∈ history.readouts, r₀.reference.measurement = m ∧ ¬ d.Past r₀.ready ∧
      r = d.sampledAs bit r₀
  started : (history.log.filter (·.kind = .operationStart)).Perm
    ((history.accepted.filter fun a => d.Past a.start).map fun a => operationStart a.start epoch a)
  ended : (history.log.filter (·.kind = .operationEnd)).Perm
    ((history.accepted.filter fun a => d.Past a.end).map fun a => operationEnd a.end epoch a)
  sampled : (history.log.filter (·.kind = .measurementSampled)).Perm
    ((history.readouts.filter fun r => d.Past r.end).map (sampledRecord epoch bit))
  delivered : history.delivered.Perm
    ((history.readouts.filter fun r => d.Past r.ready).map (deliveryOf bit))
  sampled_first : SampledFirst history.log

section Tracks
variable {backend : QuantumBackend β} {epoch origin now : ℕ} {history : DeviceHistory}
  {d d' : ControlElectronics β} {bit bit' : ℕ → MeasurementReference → Bool}

theorem not_past_of_begins (h : Begins backend epoch origin d) (t : ℕ) : ¬ d.Past t := by
  rintro ⟨processed, hprocessed, -⟩
  simp [h.empty.2.2.2.2.2] at hprocessed

theorem Tracks.start (h : Begins backend epoch origin d) :
    Tracks epoch {} d (fun _ _ => false) := by
  obtain ⟨hboundaries, hactive, hreadouts, -⟩ := h.empty
  exact
    { nodup := by simp [DeviceHistory.accepted]
      interval := by simp [DeviceHistory.accepted]
      ready := by simp [DeviceHistory.readouts]
      live := by simp [DeviceHistory.readouts]
      boundary_mem := by simp [hboundaries, DeviceHistory.accepted, DeviceHistory.readouts]
      boundary := by
        simp [hboundaries, boundaryAt, DeviceHistory.accepted, DeviceHistory.readouts]
      active := by simp [hactive, DeviceHistory.accepted]
      pending := by simp [hreadouts, DeviceHistory.readouts]
      started := by simp [DeviceHistory.accepted]
      ended := by simp [DeviceHistory.accepted]
      sampled := by simp [DeviceHistory.readouts]
      delivered := by simp [DeviceHistory.readouts]
      sampled_first := by simp [SampledFirst] }

/-- Records that report nothing ready, or only what has been sampled. -/
theorem SampledFirst.append {log more : List TraceEvent} (h : SampledFirst log)
    (hmore : ∀ before r after, more = before ++ r :: after → r.kind = .resultReady →
      ∃ s ∈ log ++ before, s.kind = .measurementSampled ∧ s.id = r.id ∧ s.targets = r.targets ∧
        s.value = r.value) : SampledFirst (log ++ more) := by
  intro before r after heq hkind
  rcases List.append_eq_append_iff.1 heq with ⟨before', rfl, hmore'⟩ | ⟨after', rfl, hafter⟩
  · exact hmore before' r after hmore' hkind
  · cases after' with
    | nil =>
      obtain ⟨s, hs, hrest⟩ := hmore [] r after (by simpa using hafter.symm) hkind
      exact ⟨s, by simpa using hs, hrest⟩
    | cons r' after' =>
      obtain ⟨rfl, -⟩ := List.cons.inj hafter
      exact h before r after' rfl hkind

/-! ## Acceptance -/

/-- The pending readouts after some with new and different measurements have been inserted. -/
theorem getElem?_insertAll {readouts : List Readout} {pending : ExtTreeMap ℕ Readout}
    (hnodup : (readouts.map (·.reference.measurement)).Nodup)
    (hnew : ∀ r ∈ readouts, r.reference.measurement ∉ pending) {m : ℕ} {r : Readout} :
    (readouts.foldl (fun p x => p.insert x.reference.measurement x) pending)[m]? = some r ↔
      (r ∈ readouts ∧ r.reference.measurement = m) ∨ pending[m]? = some r := by
  induction readouts generalizing pending with
  | nil => simp
  | cons x rest ih =>
    simp only [List.map_cons, List.nodup_cons] at hnodup
    have hdiff : ∀ y ∈ rest, y.reference.measurement ≠ x.reference.measurement := by
      intro y hy heq
      exact hnodup.1 (List.mem_map.2 ⟨y, hy, heq⟩)
    have hfresh : pending[x.reference.measurement]? = none := by
      have := hnew x List.mem_cons_self
      rwa [ExtTreeMap.mem_iff_isSome_getElem?, Bool.not_eq_true, Option.isSome_eq_false_iff,
        Option.isNone_iff_eq_none] at this
    rw [List.foldl_cons, ih hnodup.2, ExtTreeMap.getElem?_insert]
    · simp only [Nat.compare_eq_eq, List.mem_cons]
      by_cases hm : x.reference.measurement = m
      · subst hm
        simp only [if_true, hfresh, Option.some.injEq, reduceCtorEq, or_false]
        constructor
        · rintro (⟨hr, heq⟩ | rfl)
          · exact absurd heq (hdiff r hr)
          · exact ⟨.inl rfl, rfl⟩
        · rintro ⟨rfl | hr, heq⟩
          · exact .inr rfl
          · exact absurd heq (hdiff r hr)
      · rw [if_neg hm]
        refine or_congr_left (and_congr_left fun heq => ?_)
        have hne : r ≠ x := by
          rintro rfl
          exact hm heq
        simp [hne]
    · intro y hy hmem
      rcases ExtTreeMap.mem_insert.1 hmem with heq | hmem
      · exact hdiff y hy (Nat.compare_eq_eq.1 heq).symm
      · exact hnew y (List.mem_cons_of_mem _ hy) hmem

theorem readoutOf_spec {actions : List ScheduledEvent} {a : ScheduledEvent} {r : Readout}
    (h : Readouts.readoutOf actions a = some r) :
    a.event.action.kind = .acquire ∧ a.event.reference = some r.reference ∧ r.end = a.end ∧
      r.ready = Readouts.readyTick actions a ∧ r.sample = none := by
  unfold Readouts.readoutOf at h
  split at h
  · rename_i value reference hspec href
    obtain rfl := Option.some.inj h
    exact ⟨by simp [EventSpec.kind, hspec], href, rfl, rfl, rfl⟩
  · simp at h

theorem end_le_readyTick {actions : List ScheduledEvent} {a : ScheduledEvent} :
    a.end ≤ Readouts.readyTick actions a := by
  unfold Readouts.readyTick
  split
  · omega
  · exact le_rfl

/-- The acquisition of a readout of the batch. -/
theorem mem_readouts {actions : List ScheduledEvent} {r : Readout}
    (h : r ∈ actions.filterMap (Readouts.readoutOf actions)) :
    ∃ a ∈ actions, Readouts.readoutOf actions a = some r := List.mem_filterMap.1 h

theorem readouts_append {fired : List TriggeredEvents} {actions : List ScheduledEvent}
    {log : List TraceEvent} : DeviceHistory.readouts
      { history with fired, batches := history.batches ++ [actions], log } =
        history.readouts ++ actions.filterMap (Readouts.readoutOf actions) := by
  simp [DeviceHistory.readouts]

/-- The actions of a batch that is accepted lie ahead, and so do their readouts. -/
structure Lies (d : ControlElectronics β) (actions : List ScheduledEvent) : Prop where
  interval : ∀ a ∈ actions, a.start < a.end
  start : ∀ a ∈ actions, ¬ d.Past a.start

namespace Lies
variable {actions : List ScheduledEvent}

theorem last (h : Lies d actions) : ∀ a ∈ actions, ¬ d.Past a.end := fun a ha hp =>
  h.start a ha (past_of_le hp (h.interval a ha).le)

theorem readout (h : Lies d actions) : ∀ r ∈ actions.filterMap (Readouts.readoutOf actions),
    r.end ≤ r.ready ∧ ¬ d.Past r.end ∧ r.sample = none := by
  intro r hr
  obtain ⟨a, ha, hof⟩ := mem_readouts hr
  obtain ⟨-, -, hrend, hready, hsample⟩ := readoutOf_spec hof
  exact ⟨by rw [hrend, hready]; exact end_le_readyTick, hrend ▸ h.last a ha, hsample⟩

theorem ready (h : Lies d actions) :
    ∀ r ∈ actions.filterMap (Readouts.readoutOf actions), ¬ d.Past r.ready :=
  fun r hr hp => (h.readout r hr).2.1 (past_of_le hp (h.readout r hr).1)

/-- They are held as they are, not sampled. -/
theorem sampledAs (h : Lies d actions) :
    ∀ r ∈ actions.filterMap (Readouts.readoutOf actions), d.sampledAs bit r = r := by
  intro r hr
  obtain ⟨-, hend, hsample⟩ := h.readout r hr
  simp only [ControlElectronics.sampledAs, if_neg hend, ← hsample]

end Lies

theorem lies_of_accepted {batch : TriggeredEvents} {actions : List ScheduledEvent}
    {readouts : List Readout} (haccepted : Accepted backend batch actions readouts d d')
    (hduration : ∀ event ∈ batch.events, 0 < event.action.duration) : Lies d actions where
  interval := by
    intro a ha
    obtain ⟨event, hevent, hresolve⟩ := resolveAll_mem haccepted.resolved ha
    obtain ⟨-, -, -, hend, -⟩ := resolveEvent_spec hresolve
    have := hduration event hevent
    omega
  start := by
    rintro a ha ⟨processed, hprocessed, hle⟩
    have hafter := haccepted.after processed hprocessed
    have hfire := (resolve_spec haccepted.resolved a ha).2
    omega

section Accept
variable {actions : List ScheduledEvent} (h : Tracks epoch history d bit) (hlies : Lies d actions)
include h hlies

/-- A live readout and a new one are of different measurements. -/
theorem Tracks.live_accept
    (hinserted : ((actions.filterMap (Readouts.readoutOf actions)).map
      (·.reference.measurement)).Nodup)
    (hnew : ∀ r ∈ actions.filterMap (Readouts.readoutOf actions),
      r.reference.measurement ∉ d.readouts.pending) :
    (((history.readouts ++ actions.filterMap (Readouts.readoutOf actions)).filter
      fun r => ¬ d.Past r.ready).map (·.reference.measurement)).Nodup := by
  have hkeep : (actions.filterMap (Readouts.readoutOf actions)).filter (fun r => ¬ d.Past r.ready) =
      actions.filterMap (Readouts.readoutOf actions) := by
    rw [List.filter_eq_self]
    intro r hr
    simpa using hlies.ready r hr
  rw [List.filter_append, hkeep, List.map_append, List.nodup_append]
  refine ⟨h.live, hinserted, ?_⟩
  intro x hx y hy hxy
  obtain ⟨r₀, hr₀, rfl⟩ := List.mem_map.1 hx
  obtain ⟨r, hr, rfl⟩ := List.mem_map.1 hy
  obtain ⟨hmem, hlive⟩ := List.mem_filter.1 hr₀
  apply hnew r hr
  rw [ExtTreeMap.mem_iff_isSome_getElem?, ← hxy,
    (h.pending _ _).2 ⟨r₀, hmem, rfl, by simpa using hlive, rfl⟩]
  rfl

theorem Tracks.boundary_mem_accept (t : ℕ) :
    t ∈ actions.foldl scheduleAction
        ((actions.filterMap (Readouts.readoutOf actions)).foldl scheduleReadout d.boundaries) ↔
      ¬ d.Past t ∧ ((∃ a ∈ history.accepted ++ actions, a.start = t ∨ a.end = t) ∨
        ∃ r ∈ history.readouts ++ actions.filterMap (Readouts.readoutOf actions), r.ready = t) := by
  rw [mem_scheduleActions, mem_scheduleReadouts, h.boundary_mem]
  constructor
  · rintro ((⟨hp, hold⟩ | ⟨r, hr, rfl⟩) | ⟨a, ha, hat⟩)
    · exact ⟨hp, hold.imp (fun ⟨a, ha, hat⟩ => ⟨a, List.mem_append_left _ ha, hat⟩)
        fun ⟨r, hr, hrt⟩ => ⟨r, List.mem_append_left _ hr, hrt⟩⟩
    · exact ⟨hlies.ready r hr, .inr ⟨r, List.mem_append_right _ hr, rfl⟩⟩
    · refine ⟨?_, .inl ⟨a, List.mem_append_right _ ha, hat⟩⟩
      rcases hat with rfl | rfl
      · exact hlies.start a ha
      · exact hlies.last a ha
  · rintro ⟨hp, ⟨a, ha, hat⟩ | ⟨r, hr, hrt⟩⟩
    · rcases List.mem_append.1 ha with ha | ha
      · exact .inl (.inl ⟨hp, .inl ⟨a, ha, hat⟩⟩)
      · exact .inr ⟨a, ha, hat⟩
    · rcases List.mem_append.1 hr with hr | hr
      · exact .inl (.inl ⟨hp, .inr ⟨r, hr, hrt⟩⟩)
      · exact .inl (.inr ⟨r, hr, hrt⟩)

theorem Tracks.active_accept (id : ℕ) (a : ScheduledEvent) : d.active[id]? = some a ↔
    a ∈ history.accepted ++ actions ∧ a.event.id = id ∧ d.Past a.start ∧ ¬ d.Past a.end := by
  rw [h.active id a, List.mem_append]
  refine ⟨fun ⟨ha, hrest⟩ => ⟨.inl ha, hrest⟩, ?_⟩
  rintro ⟨ha | ha, hid, hs, he⟩
  · exact ⟨ha, hid, hs, he⟩
  · exact absurd hs (hlies.start a ha)

theorem Tracks.pending_accept
    (hinserted : ((actions.filterMap (Readouts.readoutOf actions)).map
      (·.reference.measurement)).Nodup)
    (hnew : ∀ r ∈ actions.filterMap (Readouts.readoutOf actions),
      r.reference.measurement ∉ d.readouts.pending) (m : ℕ) (r : Readout) :
    ((actions.filterMap (Readouts.readoutOf actions)).foldl
        (fun p x => p.insert x.reference.measurement x) d.readouts.pending)[m]? = some r ↔
      ∃ r₀ ∈ history.readouts ++ actions.filterMap (Readouts.readoutOf actions),
        r₀.reference.measurement = m ∧ ¬ d.Past r₀.ready ∧ r = d.sampledAs bit r₀ := by
  rw [getElem?_insertAll hinserted hnew, h.pending m r]
  constructor
  · rintro (⟨hr, hm⟩ | ⟨r₀, hr₀, hrest⟩)
    · exact ⟨r, List.mem_append_right _ hr, hm, hlies.ready r hr, (hlies.sampledAs r hr).symm⟩
    · exact ⟨r₀, List.mem_append_left _ hr₀, hrest⟩
  · rintro ⟨r₀, hr₀, hm, hready, rfl⟩
    rcases List.mem_append.1 hr₀ with hr₀ | hr₀
    · exact .inr ⟨r₀, hr₀, hm, hready, rfl⟩
    · exact .inl ⟨(hlies.sampledAs r₀ hr₀).symm ▸ hr₀, hm⟩

end Accept

/-- What is ahead is not among what is past. -/
theorem filter_past_append {α : Type} {key : α → ℕ} {xs ys : List α}
    (hys : ∀ y ∈ ys, ¬ d.Past (key y)) :
    (xs ++ ys).filter (fun x => d.Past (key x)) = xs.filter fun x => d.Past (key x) := by
  have hnone : ys.filter (fun x => d.Past (key x)) = [] := by simpa using hys
  rw [List.filter_append, hnone, List.append_nil]

/-- A batch that is accepted logs its codewords only. -/
theorem filter_append_triggered {batch : TriggeredEvents} {actions : List ScheduledEvent}
    {log : List TraceEvent} {kind : TraceKind} (hkind : .codewordTriggered ≠ kind) :
    (log ++ actions.map (codewordTriggered batch)).filter (·.kind = kind) =
      log.filter (·.kind = kind) := by
  have hnone : (actions.map (codewordTriggered batch)).filter (·.kind = kind) = [] := by
    simp [codewordTriggered, hkind]
  rw [List.filter_append, hnone, List.append_nil]

theorem Tracks.accept (h : Tracks epoch history d bit) {batch : TriggeredEvents}
    {actions : List ScheduledEvent} {readouts : List Readout}
    (haccepted : Accepted backend batch actions readouts d d')
    (hduration : ∀ event ∈ batch.events, 0 < event.action.duration)
    (hfresh : ∀ a ∈ actions, ∀ b ∈ history.accepted, b.event.id ≠ a.event.id) :
    Tracks epoch
      { history with
        fired := history.fired ++ [batch], batches := history.batches ++ [actions]
        log := history.log ++ actions.map (codewordTriggered batch) } d' bit := by
  obtain ⟨-, rfl, -⟩ := Readouts.prepare_spec haccepted.prepared
  have hlies := lies_of_accepted haccepted hduration
  have hids : (actions.map (·.event.id)).Nodup := by
    have hpairwise := (ResourceReservations.check_eq_ok_iff.1 haccepted.checked).2
    exact List.pairwise_map.2 (hpairwise.imp fun hc => hc.id)
  obtain ⟨hinserted, hnew⟩ := haccepted.inserted
  rw [haccepted.device]
  constructor
  case nodup =>
    rw [accepted_append, List.map_append, List.nodup_append]
    refine ⟨h.nodup, hids, ?_⟩
    intro x hx y hy hxy
    obtain ⟨b, hb, rfl⟩ := List.mem_map.1 hx
    obtain ⟨a, ha, rfl⟩ := List.mem_map.1 hy
    exact hfresh a ha b hb hxy
  case interval =>
    rw [accepted_append]
    intro a ha
    rcases List.mem_append.1 ha with ha | ha
    · exact h.interval a ha
    · exact hlies.interval a ha
  case ready =>
    rw [readouts_append]
    intro r hr
    rcases List.mem_append.1 hr with hr | hr
    · exact h.ready r hr
    · exact (hlies.readout r hr).1
  case live =>
    rw [readouts_append]
    exact h.live_accept hlies hinserted hnew
  case boundary_mem =>
    intro t
    rw [accepted_append, readouts_append]
    exact h.boundary_mem_accept hlies t
  case boundary =>
    intro t ht
    rw [accepted_append, readouts_append, boundaryAt_scheduleActions, boundaryAt_scheduleReadouts,
      h.boundary t ht]
    simp [DeviceHistory.accepted]
  case active =>
    intro id a
    rw [accepted_append]
    exact h.active_accept hlies id a
  case pending =>
    intro m r
    rw [readouts_append]
    exact h.pending_accept hlies hinserted hnew m r
  case started =>
    change (List.filter _ (history.log ++ _)).Perm
      ((List.filter (fun a : ScheduledEvent => d.Past a.start) _).map _)
    rw [accepted_append, filter_append_triggered (by decide), filter_past_append hlies.start]
    exact h.started
  case ended =>
    change (List.filter _ (history.log ++ _)).Perm
      ((List.filter (fun a : ScheduledEvent => d.Past a.end) _).map _)
    rw [accepted_append, filter_append_triggered (by decide), filter_past_append hlies.last]
    exact h.ended
  case sampled =>
    change (List.filter _ (history.log ++ _)).Perm
      ((List.filter (fun r : Readout => d.Past r.end) _).map _)
    rw [readouts_append, filter_append_triggered (by decide),
      filter_past_append fun r hr => (hlies.readout r hr).2.1]
    exact h.sampled
  case delivered =>
    change history.delivered.Perm ((List.filter (fun r : Readout => d.Past r.ready) _).map _)
    rw [readouts_append, filter_past_append hlies.ready]
    exact h.delivered
  case sampled_first =>
    refine h.sampled_first.append ?_
    intro before r after heq hkind
    have hr : r ∈ actions.map (codewordTriggered batch) := heq ▸ by simp
    obtain ⟨a, -, rfl⟩ := List.mem_map.1 hr
    exact absurd hkind (by simp [codewordTriggered])

/-! ## Processing -/

/-- The acquisition of a readout. -/
theorem acquisition_of_mem_readouts {r : Readout} (hr : r ∈ history.readouts) :
    ∃ a ∈ history.accepted, a.event.action.kind = .acquire ∧
      a.event.reference = some r.reference ∧ a.end = r.end := by
  obtain ⟨actions, hactions, hmem⟩ := List.mem_flatMap.1 hr
  obtain ⟨a, ha, hof⟩ := mem_readouts hmem
  obtain ⟨hkind, href, hend, -⟩ := readoutOf_spec hof
  exact ⟨a, List.mem_flatten.2 ⟨actions, hactions, ha⟩, hkind, href, hend.symm⟩

theorem mem_of_nextBoundary {now : ℕ} (hnext : d.nextBoundary = some now) :
    now ∈ d.boundaries ∧ ∀ t ∈ d.boundaries, now ≤ t := by
  obtain ⟨hmem, hmin⟩ := ExtTreeMap.minKey?_eq_some_iff_mem_and_forall.1 hnext
  exact ⟨hmem, fun t ht => Nat.isLE_compare.1 (hmin t ht)⟩

/-- The references that are sampled on a tick are those of the acquisitions that end. -/
theorem references_of_readouts {batches : List (List ScheduledEvent)} {now : ℕ} :
    ((batches.flatMap fun actions => actions.filterMap (Readouts.readoutOf actions)).filter
        (·.end = now)).map (·.reference) =
      ((batches.flatten.filter (·.end = now)).filter (·.event.action.kind = .acquire)).flatMap
        (·.event.reference.toList) := by
  have hbatch : ∀ actions batch : List ScheduledEvent,
      ((batch.filterMap (Readouts.readoutOf actions)).filter (·.end = now)).map (·.reference) =
        ((batch.filter (·.end = now)).filter (·.event.action.kind = .acquire)).flatMap
          (·.event.reference.toList) := by
    intro actions batch
    induction batch with
    | nil => rfl
    | cons a rest ih =>
      cases hof : Readouts.readoutOf actions a with
      | some r =>
        obtain ⟨hkind, href, hend, -⟩ := readoutOf_spec hof
        rw [List.filterMap_cons_some hof]
        by_cases hnow : a.end = now
        · simp [hnow, hend, hkind, href, ih]
        · simp [hnow, hend, ih]
      | none =>
        rw [List.filterMap_cons_none hof, ih]
        by_cases hnow : a.end = now
        · by_cases hkind : a.event.action.kind = .acquire
          · have href : a.event.reference = none := by
              unfold Readouts.readoutOf at hof
              unfold EventSpec.kind at hkind
              cases hspec : a.event.action.spec <;> cases hr : a.event.reference <;>
                simp_all
            simp [hnow, hkind, href]
          · simp [hnow, hkind]
        · simp [hnow]
  induction batches with
  | nil => rfl
  | cons actions rest ih =>
    simp only [List.flatMap_cons, List.flatten_cons, List.filter_append, List.map_append,
      List.flatMap_append, hbatch actions actions, ih]

theorem samplesOf_active {actions : List ScheduledEvent}
    (h : ∀ a ∈ actions, d.active[a.event.id]? = some a) :
    d.samplesOf (actions.map (·.event.id)) = .ok ((actions.filter
      (·.event.action.kind = .acquire)).flatMap (·.event.reference.toList)) := by
  induction actions with
  | nil => rfl
  | cons a rest ih =>
    have hrest := ih fun b hb => h b (List.mem_cons_of_mem _ hb)
    simp only [List.map_cons, samplesOf, h a List.mem_cons_self, hrest]
    by_cases hkind : a.event.action.kind = .acquire
    · simp [hkind, Bind.bind, Except.bind, Pure.pure, Except.pure]
    · simp [hkind, Bind.bind, Except.bind, Pure.pure, Except.pure]

section Next
variable (h : Tracks epoch history d bit) (hnext : d.nextBoundary = some now)
include h hnext

theorem Tracks.not_past_next : ¬ d.Past now :=
  ((h.boundary_mem now).1 (mem_of_nextBoundary hnext).1).1

/-- Up to the next boundary nothing is scheduled that is not past. -/
theorem Tracks.le_next_iff {t : ℕ} (ht : (∃ a ∈ history.accepted, a.start = t ∨ a.end = t) ∨
    ∃ r ∈ history.readouts, r.ready = t) : t ≤ now ↔ d.Past t ∨ t = now := by
  constructor
  · intro hle
    by_cases hp : d.Past t
    · exact .inl hp
    · have := (mem_of_nextBoundary hnext).2 t ((h.boundary_mem t).2 ⟨hp, ht⟩)
      exact .inr (by omega)
  · rintro (hp | rfl)
    · by_contra hlt
      exact h.not_past_next hnext (past_of_le hp (by omega))
    · exact le_rfl

theorem Tracks.boundary_next {boundary : Boundary} (hb : d.boundaries[now]? = some boundary) :
    boundary =
      { starts := history.accepted.filter (·.start = now)
        ends := (history.accepted.filter (·.end = now)).map (·.event.id)
        ready := (history.readouts.filter (·.ready = now)).map (·.reference.measurement) } := by
  rw [← h.boundary now (h.not_past_next hnext), boundaryAt, hb]
  rfl

/-- What ends at the next boundary is active. -/
theorem Tracks.active_of_end {a : ScheduledEvent}
    (ha : a ∈ history.accepted.filter (·.end = now)) : d.active[a.event.id]? = some a := by
  obtain ⟨hmem, hend⟩ := List.mem_filter.1 ha
  obtain rfl : a.end = now := by simpa using hend
  have hlt := h.interval a hmem
  rw [h.active]
  refine ⟨hmem, rfl, ?_, h.not_past_next hnext⟩
  rcases (h.le_next_iff hnext (.inl ⟨a, hmem, .inl rfl⟩)).1 hlt.le with hp | heq
  · exact hp
  · omega

theorem Tracks.samplesOf_next :
    d.samplesOf ((history.accepted.filter (·.end = now)).map (·.event.id)) =
      .ok ((history.readouts.filter (·.end = now)).map (·.reference)) := by
  rw [samplesOf_active fun a ha => h.active_of_end hnext ha]
  exact congrArg Except.ok references_of_readouts.symm

theorem Tracks.samples_of_plan {boundary : Boundary} (hb : d.boundaries[now]? = some boundary)
    {p : Plan} (hplan : d.plan backend boundary now epoch = .ok p) :
    p.samples = (history.readouts.filter (·.end = now)).map (·.reference) := by
  simp only [plan, Except.bind_eq_ok_iff, require_eq_ok_iff, exists_const,
    Except.pure_eq_ok_iff] at hplan
  obtain ⟨samples, hsamples, -, _, -, paired, -, rfl⟩ := hplan
  rw [h.boundary_next hnext hb, h.samplesOf_next hnext] at hsamples
  exact (Except.ok.inj hsamples).symm

/-- A readout that is sampled at the next boundary is live. -/
theorem Tracks.live_of_end {r : Readout} (hr : r ∈ history.readouts) (hend : r.end = now) :
    ¬ d.Past r.ready := fun hp =>
  h.not_past_next hnext (past_of_le hp (hend ▸ h.ready r hr))

omit hnext in
/-- Live readouts are of different measurements. -/
theorem Tracks.nodup_measurements {q : Readout → Bool}
    (hlive : ∀ r ∈ history.readouts, q r = true → ¬ d.Past r.ready) :
    ((history.readouts.filter q).map (·.reference.measurement)).Nodup := by
  refine h.live.sublist (List.Sublist.map _ ?_)
  have hsub : history.readouts.filter q =
      (history.readouts.filter fun r => ¬ d.Past r.ready).filter q := by
    rw [List.filter_filter]
    apply List.filter_congr
    intro r hr
    by_cases hq : q r = true
    · simp [hq, hlive r hr hq]
    · simp [hq]
  rw [hsub]
  exact List.filter_sublist

/-- The measurements that are sampled are different. -/
theorem Tracks.nodup_samples :
    (((history.readouts.filter (·.end = now)).map (·.reference)).map (·.measurement)).Nodup := by
  rw [List.map_map]
  exact h.nodup_measurements fun r hr hend => h.live_of_end hnext hr (by simpa using hend)

end Next

/-- Two live readouts of one measurement are the same. -/
theorem Tracks.live_unique (h : Tracks epoch history d bit) {r r' : Readout}
    (hr : r ∈ history.readouts) (hr' : r' ∈ history.readouts) (hlive : ¬ d.Past r.ready)
    (hlive' : ¬ d.Past r'.ready) (hm : r.reference.measurement = r'.reference.measurement) :
    r = r' :=
  List.inj_on_of_nodup_map h.live (List.mem_filter.2 ⟨hr, by simpa using hlive⟩)
    (List.mem_filter.2 ⟨hr', by simpa using hlive'⟩) hm

theorem Tracks.unique (h : Tracks epoch history d bit) {a b : ScheduledEvent}
    (ha : a ∈ history.accepted) (hb : b ∈ history.accepted) (hid : a.event.id = b.event.id) :
    a = b := List.inj_on_of_nodup_map h.nodup ha hb hid

/-- Bits for the references that are sampled on a tick, in addition to those known. -/
theorem exists_bits {references : List MeasurementReference} {bits : List Bool}
    (hcount : bits.length = references.length) (hnodup : (references.map (·.measurement)).Nodup)
    (bit : ℕ → MeasurementReference → Bool) (now : ℕ) :
    ∃ bit' : ℕ → MeasurementReference → Bool, (∀ t, t ≠ now → bit' t = bit t) ∧
      references.zip bits = references.map fun r => (r, bit' now r) := by
  have hlookup : ∃ f : MeasurementReference → Bool,
      references.zip bits = references.map fun r => (r, f r) := by
    induction references generalizing bits with
    | nil => exact ⟨fun _ => false, rfl⟩
    | cons r rest ih =>
      cases bits with
      | nil => simp at hcount
      | cons b bits =>
        simp only [List.map_cons, List.nodup_cons] at hnodup
        obtain ⟨f, hf⟩ := ih (by simpa using hcount) hnodup.2
        refine ⟨fun s => if s = r then b else f s, ?_⟩
        have hrest : rest.map (fun s => (s, f s)) =
            rest.map fun s => (s, if s = r then b else f s) := by
          apply List.map_congr_left
          intro s hs
          have hne : s ≠ r := by
            rintro rfl
            exact hnodup.1 (List.mem_map.2 ⟨s, hs, rfl⟩)
          rw [if_neg hne]
        rw [List.zip_cons_cons, hf, hrest, List.map_cons]
        simp only [if_true]
  obtain ⟨f, hf⟩ := hlookup
  refine ⟨fun t => if t = now then f else bit t, fun t ht => if_neg ht, ?_⟩
  simpa using hf

/-- A list is determined by its keys. -/
theorem eq_map_of_keys {α γ κ : Type} {xs : List α} {ys : List γ} {k : α → κ} {k' : γ → κ}
    {f : γ → α} (hkeys : xs.map k = ys.map k') (hf : ∀ x ∈ xs, ∀ y ∈ ys, k x = k' y → x = f y) :
    xs = ys.map f := by
  induction xs generalizing ys with
  | nil =>
    cases ys with
    | nil => rfl
    | cons y ys => simp at hkeys
  | cons x xs ih =>
    cases ys with
    | nil => simp at hkeys
    | cons y ys =>
      simp only [List.map_cons, List.cons.injEq] at hkeys
      rw [List.map_cons, hf x List.mem_cons_self y List.mem_cons_self hkeys.1,
        ← ih hkeys.2 fun x hx y hy => hf x (List.mem_cons_of_mem _ hx) y (List.mem_cons_of_mem _ hy)]

/-- Deliveries that are written down. -/
theorem deliveries_record {rs : List (Readout × Bool)} {cs cs' : List Completion}
    {l : List TraceEvent} (hd : Deliveries now epoch recordDelivery rs cs cs' l) :
    cs' = cs ++ rs.map (fun p => { reference := p.1.reference, value := p.2 }) ∧
      l = rs.map fun p => resultReady now epoch p.1 p.2 := by
  induction hd with
  | nil x => simp
  | cons h rest ih =>
    obtain ⟨rfl, rfl⟩ := Proc.returns_modify_iff.1 h
    obtain ⟨rfl, rfl⟩ := ih
    simp

theorem past_complete {t : ℕ} : (complete now d).Past t ↔ t ≤ now := by
  simp [ControlElectronics.Past, complete]

/-- The readouts between the samples and the deliveries of a boundary. -/
theorem Tracks.pending_sampled (h : Tracks epoch history d bit) (hnext : d.nextBoundary = some now)
    {boundary : Boundary} {p : Plan} {bits : List Bool} {d₁ : ControlElectronics β}
    (d₂ : ControlElectronics β) {l : List TraceEvent}
    (he : Enacted backend now epoch boundary p bits d d₁ l)
    (hsamples : p.samples = (history.readouts.filter (·.end = now)).map (·.reference))
    (hbit : ∀ t, t ≠ now → bit' t = bit t)
    (hzip : p.samples.zip bits = p.samples.map fun r => (r, bit' now r)) (m : ℕ) (r : Readout) :
    d₁.readouts.pending[m]? = some r ↔
      ∃ r₀ ∈ history.readouts, r₀.reference.measurement = m ∧ ¬ d.Past r₀.ready ∧
        r = (complete now d₂).sampledAs bit' r₀ := by
  have hcomplete : ∀ r₀ ∈ history.readouts, (complete now d₂).sampledAs bit' r₀ =
      { r₀ with sample := if r₀.end ≤ now then some (bit' r₀.end r₀.reference) else none } := by
    intro r₀ _
    simp [sampledAs, past_complete]
  by_cases hm : ∃ q ∈ history.readouts, q.end = now ∧ q.reference.measurement = m
  · -- The readout is sampled here; it is the only live one of its measurement.
    obtain ⟨q, hq, hend, rfl⟩ := hm
    have hlive := h.live_of_end hnext hq hend
    have hpair : (q.reference, bit' now q.reference) ∈ p.samples.zip bits := by
      rw [hzip, hsamples]
      exact List.mem_map_of_mem (List.mem_map.2
        ⟨q, List.mem_filter.2 ⟨hq, by simpa using hend⟩, rfl⟩)
    obtain ⟨r₁, hr₁, hsampled⟩ := he.sampled _ hpair
    have hr₁' := hr₁.symm.trans ((h.pending _ _).2 ⟨q, hq, rfl, hlive, rfl⟩)
    have hq' : (complete now d₂).sampledAs bit' q = { r₁ with sample := some (bit' now q.reference) } := by
      rw [hcomplete q hq, Option.some.inj hr₁', sampledAs, hend, if_pos le_rfl]
    rw [hsampled]
    constructor
    · rintro hr
      exact ⟨q, hq, rfl, hlive, by rw [hq', Option.some.inj hr]⟩
    · rintro ⟨r₀, hr₀, hm₀, hlive₀, rfl⟩
      obtain rfl := h.live_unique hr₀ hq hlive₀ hlive hm₀
      rw [hq']
  · have hother : ∀ s ∈ p.samples.zip bits, s.1.measurement ≠ m := by
      intro s hs heq
      rw [hzip, hsamples] at hs
      obtain ⟨_, href, rfl⟩ := List.mem_map.1 hs
      obtain ⟨q, hq, rfl⟩ := List.mem_map.1 href
      obtain ⟨hmem, hend⟩ := List.mem_filter.1 hq
      exact hm ⟨q, hmem, by simpa using hend, heq⟩
    rw [he.readouts m hother, h.pending]
    refine exists_congr fun r₀ => and_congr_right fun hr₀ => and_congr_right fun hm₀ =>
      and_congr_right fun hlive => ?_
    have hne : r₀.end ≠ now := fun hend => hm ⟨r₀, hr₀, hend, hm₀⟩
    rw [hcomplete r₀ hr₀, sampledAs, hbit _ hne]
    obtain ⟨a, ha, -, -, hend⟩ := acquisition_of_mem_readouts hr₀
    have hiff : r₀.end ≤ now ↔ d.Past r₀.end := by
      rw [h.le_next_iff hnext (.inl ⟨a, ha, .inr hend⟩), or_iff_left hne]
    simp only [hiff]

/-- What a boundary logs before the deliveries, besides the gates it applies. -/
theorem Tracks.log_next (h : Tracks epoch history d bit) (hnext : d.nextBoundary = some now)
    {boundary : Boundary} {p : Plan} {bits : List Bool} {d₁ : ControlElectronics β}
    {l : List TraceEvent} (he : Enacted backend now epoch boundary p bits d d₁ l)
    (hb : d.boundaries[now]? = some boundary)
    (hsamples : p.samples = (history.readouts.filter (·.end = now)).map (·.reference))
    (hzip : p.samples.zip bits = p.samples.map fun r => (r, bit' now r)) :
    ∃ applied : List TraceEvent, (∀ r ∈ applied, r.kind = .gateApplied) ∧
      l = (history.readouts.filter (·.end = now)).map (sampledRecord epoch bit') ++
        (history.accepted.filter (·.end = now)).map (fun a => operationEnd a.end epoch a) ++
        applied ++
        (history.accepted.filter (·.start = now)).map fun a => operationStart a.start epoch a := by
  obtain ⟨applied, hkind, rfl⟩ := he.log
  refine ⟨applied, hkind, ?_⟩
  have hsampled : (p.samples.zip bits).map
      (fun s => ControlElectronics.measurementSampled now epoch d.readouts s.1 s.2) =
        (history.readouts.filter (·.end = now)).map (sampledRecord epoch bit') := by
    rw [hzip, hsamples, List.map_map, List.map_map]
    apply List.map_congr_left
    intro r hr
    obtain ⟨hmem, hend⟩ := List.mem_filter.1 hr
    obtain rfl : r.end = now := by simpa using hend
    have hpending := (h.pending r.reference.measurement _).2
      ⟨r, hmem, rfl, h.live_of_end hnext hmem rfl, rfl⟩
    simp [ControlElectronics.measurementSampled, sampledRecord, hpending, sampledAs]
  have hended : (boundary.ends.filterMap fun id =>
      d.active[id]?.map fun a => { operationEnd now epoch a with id }) =
        (history.accepted.filter (·.end = now)).map fun a => operationEnd a.end epoch a := by
    rw [h.boundary_next hnext hb, List.filterMap_map, ← List.filterMap_eq_map]
    apply List.filterMap_congr
    intro a ha
    have hend : a.end = now := by simpa using (List.mem_filter.1 ha).2
    simp [h.active_of_end hnext ha, hend, operationEnd]
  have hstarted : boundary.starts.map (operationStart now epoch) =
      (history.accepted.filter (·.start = now)).map fun a => operationStart a.start epoch a := by
    rw [h.boundary_next hnext hb]
    apply List.map_congr_left
    intro a ha
    have hstart : a.start = now := by simpa using (List.mem_filter.1 ha).2
    rw [hstart]
  rw [hsampled, hended, hstarted]

/-- Records for what has been due, with those of a boundary for what is due at it. -/
theorem Tracks.perm_next {α γ : Type} (h : Tracks epoch history d bit)
    (hnext : d.nextBoundary = some now) {xs : List α} {key : α → ℕ} {f f' : α → γ} {old : List γ}
    (hscheduled : ∀ x ∈ xs, (∃ a ∈ history.accepted, a.start = key x ∨ a.end = key x) ∨
      ∃ r ∈ history.readouts, r.ready = key x)
    (hold : old.Perm ((xs.filter fun x => d.Past (key x)).map f))
    (hagree : ∀ x ∈ xs, d.Past (key x) → f x = f' x) :
    (old ++ (xs.filter (key · = now)).map f').Perm
      ((xs.filter fun x => (complete now d').Past (key x)).map f') := by
  have hsame : (xs.filter fun x => d.Past (key x)).map f =
      (xs.filter fun x => d.Past (key x)).map f' := by
    apply List.map_congr_left
    intro x hx
    obtain ⟨hmem, hp⟩ := List.mem_filter.1 hx
    exact hagree x hmem (by simpa using hp)
  refine (List.Perm.append_right _ (hold.trans (.of_eq hsame))).trans ?_
  rw [← List.map_append]
  refine ((filter_past_perm (h.not_past_next hnext) fun x hx => ?_).map f').symm
  rw [past_complete, h.le_next_iff hnext (hscheduled x hx)]

/-- The records of one kind among records that all have another. -/
theorem filter_kind_of_ne {k k' : TraceKind} {l : List TraceEvent} (h : ∀ r ∈ l, r.kind = k)
    (hne : k ≠ k') : l.filter (·.kind = k') = [] := by
  rw [List.filter_eq_nil_iff]
  intro r hr
  simpa [h r hr] using hne

/-- The log of a boundary, by the kind of its records. -/
theorem filter_boundary_log {samples : List Readout} {ends starts : List ScheduledEvent}
    {applied ready : List TraceEvent} (happlied : ∀ r ∈ applied, r.kind = .gateApplied)
    (hready : ∀ r ∈ ready, r.kind = .resultReady) {l : List TraceEvent}
    (hl : l = samples.map (sampledRecord epoch bit) ++
      ends.map (fun a => operationEnd a.end epoch a) ++ applied ++
      starts.map (fun a => operationStart a.start epoch a) ++ ready) :
    l.filter (·.kind = .measurementSampled) = samples.map (sampledRecord epoch bit) ∧
      l.filter (·.kind = .operationEnd) = ends.map (fun a => operationEnd a.end epoch a) ∧
      l.filter (·.kind = .operationStart) = starts.map fun a => operationStart a.start epoch a := by
  rw [hl]
  refine ⟨?_, ?_, ?_⟩
  all_goals
    simp only [List.filter_append]
    rw [filter_kind_of_ne happlied (by decide), filter_kind_of_ne hready (by decide)]
    simp [sampledRecord, operationEnd, operationStart, Function.comp_def, List.filter_map]

section Boundary
variable (h : Tracks epoch history d bit) (hnext : d.nextBoundary = some now)
include h hnext

theorem Tracks.le_of_past {t : ℕ} (ht : d.Past t) : t ≤ now := by
  by_contra hlt
  exact h.not_past_next hnext (past_of_le ht (by omega))

theorem Tracks.ne_of_past {t : ℕ} (ht : d.Past t) : t ≠ now := by
  rintro rfl
  exact h.not_past_next hnext ht

/-- What is scheduled when the boundary is done. -/
theorem Tracks.boundary_mem_next (t : ℕ) : t ∈ d.boundaries.erase now ↔ ¬ t ≤ now ∧
    ((∃ a ∈ history.accepted, a.start = t ∨ a.end = t) ∨ ∃ r ∈ history.readouts, r.ready = t) := by
  rw [ExtTreeMap.mem_erase, h.boundary_mem, ne_eq, Nat.compare_eq_eq]
  constructor
  · rintro ⟨hne, hpast, hschedule⟩
    refine ⟨fun hle => ?_, hschedule⟩
    rcases (h.le_next_iff hnext hschedule).1 hle with hp | heq
    · exact hpast hp
    · exact hne heq.symm
  · rintro ⟨hlt, hschedule⟩
    exact ⟨by omega, fun hp => hlt (h.le_of_past hnext hp), hschedule⟩

/-- The active actions after a boundary: those that have started and not ended. -/
theorem Tracks.active_next {boundary : Boundary} {p : Plan} {bits : List Bool}
    {d₁ : ControlElectronics β} {l : List TraceEvent}
    (he : Enacted backend now epoch boundary p bits d d₁ l) (hb : d.boundaries[now]? = some boundary)
    (id : ℕ) (a : ScheduledEvent) : d₁.active[id]? = some a ↔
      a ∈ history.accepted ∧ a.event.id = id ∧ a.start ≤ now ∧ ¬ a.end ≤ now := by
  have hboundary := h.boundary_next hnext hb
  by_cases hid : ∃ b ∈ boundary.starts, b.event.id = id
  · -- The action starts here.
    obtain ⟨b, hb, rfl⟩ := hid
    rw [he.active_start b hb]
    rw [hboundary] at hb
    obtain ⟨hmem, hnow⟩ := List.mem_filter.1 hb
    obtain rfl : b.start = now := by simpa using hnow
    have hlt := h.interval b hmem
    constructor
    · rintro hba
      obtain rfl := Option.some.inj hba
      exact ⟨hmem, rfl, le_rfl, by omega⟩
    · rintro ⟨ha, heq, -⟩
      rw [h.unique ha hmem heq]
  rw [he.active id fun b hb heq => hid ⟨b, hb, heq⟩]
  have hends : id ∈ boundary.ends ↔ ∃ b ∈ history.accepted, b.end = now ∧ b.event.id = id := by
    rw [hboundary]
    simp [and_assoc]
  by_cases hend : id ∈ boundary.ends
  · rw [if_pos hend]
    obtain ⟨b, hb, hnow, rfl⟩ := hends.1 hend
    simp only [reduceCtorEq, false_iff]
    rintro ⟨ha, heq, -, hlt⟩
    rw [h.unique ha hb heq] at hlt
    omega
  · rw [if_neg hend, h.active id a]
    refine and_congr_right fun ha => and_congr_right fun heq => ?_
    have hstart : a.start ≠ now := by
      intro hnow
      refine hid ⟨a, ?_, heq⟩
      rw [hboundary]
      exact List.mem_filter.2 ⟨ha, by simpa using hnow⟩
    have hend' : a.end ≠ now := fun hnow => hend (hends.2 ⟨a, ha, hnow, heq⟩)
    rw [h.le_next_iff hnext (.inl ⟨a, ha, .inl rfl⟩), h.le_next_iff hnext
      (.inl ⟨a, ha, .inr rfl⟩), or_iff_left hstart, or_iff_left hend']

section Readouts
variable {boundary : Boundary} (hb : d.boundaries[now]? = some boundary) {held : Readout → Readout}
  {pending : ExtTreeMap ℕ Readout}
  (hpending : ∀ m r, pending[m]? = some r ↔ ∃ r₀ ∈ history.readouts,
    r₀.reference.measurement = m ∧ ¬ d.Past r₀.ready ∧ r = held r₀)
include hb hpending

/-- The readouts that are left when those of the boundary have been delivered. -/
theorem Tracks.pending_next (m : ℕ) (r : Readout) :
    (if m ∈ boundary.ready then none else pending[m]?) = some r ↔ ∃ r₀ ∈ history.readouts,
      r₀.reference.measurement = m ∧ ¬ r₀.ready ≤ now ∧ r = held r₀ := by
  have hids : m ∈ boundary.ready ↔
      ∃ q ∈ history.readouts, q.ready = now ∧ q.reference.measurement = m := by
    rw [h.boundary_next hnext hb]
    simp [and_assoc]
  by_cases hmem : m ∈ boundary.ready
  · rw [if_pos hmem]
    obtain ⟨q, hq, hnow, rfl⟩ := hids.1 hmem
    simp only [reduceCtorEq, false_iff]
    rintro ⟨r₀, hr₀, hm, hlive, -⟩
    have hq' : ¬ d.Past q.ready := hnow ▸ h.not_past_next hnext
    have hsame := h.live_unique hr₀ hq (fun hp => hlive (h.le_of_past hnext hp)) hq' hm
    rw [hsame] at hlive
    omega
  · rw [if_neg hmem, hpending m r]
    refine exists_congr fun r₀ => and_congr_right fun hr₀ => and_congr_right fun hm => ?_
    have hne : r₀.ready ≠ now := fun hnow => hmem (hids.2 ⟨r₀, hr₀, hnow, hm⟩)
    rw [h.le_next_iff hnext (.inr ⟨r₀, hr₀, rfl⟩), or_iff_left hne]

/-- The readouts that the boundary delivers, each with its bit. -/
theorem Tracks.ready_next {rs : List (Readout × Bool)}
    (hrs : boundary.ready = rs.map (·.1.reference.measurement))
    (hheld : ∀ p ∈ rs, pending[p.1.reference.measurement]? = some p.1 ∧ p.1.sample = some p.2)
    (hsample : ∀ r ∈ history.readouts, r.end ≤ now → (held r).sample = some (bit' r.end r.reference)) :
    rs = (history.readouts.filter (·.ready = now)).map fun r => (held r, bit' r.end r.reference) := by
  rw [h.boundary_next hnext hb] at hrs
  refine eq_map_of_keys hrs.symm ?_
  intro q hq r hr hm
  obtain ⟨hmem, hnow⟩ := List.mem_filter.1 hr
  obtain rfl : r.ready = now := by simpa using hnow
  obtain ⟨hpendingq, hsampleq⟩ := hheld q hq
  have hpendingr := (hpending r.reference.measurement _).2 ⟨r, hmem, rfl, h.not_past_next hnext, rfl⟩
  rw [hm, hpendingr] at hpendingq
  have hq₁ := Option.some.inj hpendingq
  rw [← hq₁, hsample r hmem (h.ready r hmem)] at hsampleq
  exact Prod.ext hq₁.symm (Option.some.inj hsampleq).symm

end Readouts

/-- What the boundary delivers has been sampled, here or at an earlier boundary. -/
theorem Tracks.sampled_first_next (hbit : ∀ t, t ≠ now → bit' t = bit t) {l : List TraceEvent}
    {applied : List TraceEvent} (hkind : ∀ r ∈ applied, r.kind = .gateApplied)
    (hlog : l = (history.readouts.filter (·.end = now)).map (sampledRecord epoch bit') ++
        (history.accepted.filter (·.end = now)).map (fun a => operationEnd a.end epoch a) ++
        applied ++
        (history.accepted.filter (·.start = now)).map fun a => operationStart a.start epoch a)
    {held : Readout → Readout} (hheld : ∀ r, held r = { r with sample := (held r).sample }) :
    SampledFirst (history.log ++ (l ++ ((history.readouts.filter (·.ready = now)).map fun r =>
      (held r, bit' r.end r.reference)).map fun p => resultReady now epoch p.1 p.2)) := by
  rw [← List.append_assoc]
  refine (h.sampled_first.append ?_).append ?_
  · intro before r after heq hkindr
    have hr : r ∈ l := heq ▸ by simp
    rw [hlog] at hr
    simp only [List.mem_append, List.mem_map] at hr
    rcases hr with ((⟨_, _, rfl⟩ | ⟨_, _, rfl⟩) | hr) | ⟨_, _, rfl⟩
    · exact absurd hkindr (by simp [sampledRecord])
    · exact absurd hkindr (by simp [operationEnd])
    · exact absurd hkindr (by simp [hkind r hr])
    · exact absurd hkindr (by simp [operationStart])
  · intro before r after heq _
    have hr : r ∈ ((history.readouts.filter (·.ready = now)).map fun r =>
        (held r, bit' r.end r.reference)).map fun p => resultReady now epoch p.1 p.2 := heq ▸ by simp
    rw [List.map_map] at hr
    obtain ⟨r₀, hr₀, rfl⟩ := List.mem_map.1 hr
    obtain ⟨hmem, hnow⟩ := List.mem_filter.1 hr₀
    obtain rfl : r₀.ready = now := by simpa using hnow
    obtain ⟨a, ha, -, -, hend⟩ := acquisition_of_mem_readouts hmem
    have hmeasurement : (held r₀).reference = r₀.reference := by rw [hheld]
    refine ⟨sampledRecord epoch bit' r₀, List.mem_append_left _ ?_, rfl, ?_, ?_, rfl⟩
    · rcases (h.le_next_iff hnext (.inl ⟨a, ha, .inr hend⟩)).1 (h.ready r₀ hmem) with hp | hp
      · -- The sample has been recorded at an earlier boundary.
        have hold : sampledRecord epoch bit r₀ ∈ history.log := by
          refine (List.mem_filter.1 (h.sampled.mem_iff.2 (List.mem_map_of_mem ?_))).1
          exact List.mem_filter.2 ⟨hmem, by simpa using hp⟩
        have hsame : sampledRecord epoch bit' r₀ = sampledRecord epoch bit r₀ := by
          rw [sampledRecord, sampledRecord, hbit _ (h.ne_of_past hnext hp)]
        exact List.mem_append_left _ (hsame ▸ hold)
      · refine List.mem_append_right _ ?_
        rw [hlog]
        simp only [List.mem_append, List.mem_map]
        exact .inl (.inl (.inl ⟨r₀, List.mem_filter.2 ⟨hmem, by simpa using hp⟩, rfl⟩))
    · exact congrArg MeasurementReference.measurement hmeasurement.symm
    · exact congrArg (fun reference => [reference.target]) hmeasurement.symm

end Boundary

/-- The results that are handed over are those of the readouts that are ready. -/
theorem map_deliveryOf {bit' : ℕ → MeasurementReference → Bool} :
    (((history.readouts.filter (·.ready = now)).map fun r =>
      (d.sampledAs bit' r, bit' r.end r.reference)).map fun p =>
        ({ reference := p.1.reference, value := p.2 } : Completion)).map (fun c => (now, c)) =
      (history.readouts.filter (·.ready = now)).map (deliveryOf bit') := by
  rw [List.map_map, List.map_map]
  apply List.map_congr_left
  intro r hr
  have hnow : r.ready = now := by simpa using (List.mem_filter.1 hr).2
  simp [deliveryOf, sampledAs, hnow]

theorem Tracks.process (h : Tracks epoch history d bit) (hnext : d.nextBoundary = some now)
    {cs : List Completion} {l : List TraceEvent}
    (hp : (process backend now epoch recordDelivery).Returns (d, []) () (d', cs) l) :
    ∃ bit', Tracks epoch
      { history with
        delivered := history.delivered ++ cs.map fun c => (now, c)
        log := history.log ++ l } d' bit' := by
  obtain ⟨-, ⟨hnone, -⟩ | ⟨boundary, p, d₁, d₂, l₁, l₂, hb, hplan, henact, hdeliver, rfl, rfl⟩⟩ :=
    process_returns hp
  · have hmem := (mem_of_nextBoundary hnext).1
    simp [ExtTreeMap.mem_iff_isSome_getElem?, hnone] at hmem
  have hsamples := h.samples_of_plan hnext hb hplan
  have hnodup := h.nodup_samples hnext
  rw [← hsamples] at hnodup
  obtain ⟨bits, he⟩ := enact_returns henact hnodup
  obtain ⟨bit', hbit, hzip⟩ := exists_bits he.count hnodup bit now
  have hpending := h.pending_sampled hnext d₂ he hsamples hbit hzip
  have hkeyed : d₁.readouts.Keyed := by
    intro m r hr
    obtain ⟨r₀, -, hm, -, rfl⟩ := (hpending m r).1 hr
    exact hm
  obtain ⟨-, ⟨pending, hd₂, herased⟩, rs, hrs, hrsPending, hdeliveries⟩ :=
    deliverAll_returns hdeliver hkeyed
  obtain ⟨rfl, rfl⟩ := deliveries_record hdeliveries
  obtain ⟨x, active, readouts, hd₁⟩ := he.rest
  have hsampled : ∀ r ∈ history.readouts, r.end ≤ now →
      ((complete now d₂).sampledAs bit' r).sample = some (bit' r.end r.reference) := by
    intro r _ hle
    rw [sampledAs, if_pos (past_complete.2 hle)]
  obtain rfl := h.ready_next hnext hb hpending hrs hrsPending hsampled
  obtain ⟨applied, hkind, hlog⟩ := h.log_next hnext he hb hsamples hzip
  have hreadyLog : ∀ r ∈ ((history.readouts.filter (·.ready = now)).map fun r =>
      ((complete now d₂).sampledAs bit' r, bit' r.end r.reference)).map
        (fun p => resultReady now epoch p.1 p.2), r.kind = .resultReady := by
    intro r hr
    obtain ⟨q, -, rfl⟩ := List.mem_map.1 hr
    rfl
  obtain ⟨hsampled, hended, hstarted⟩ := filter_boundary_log hkind hreadyLog (congrArg (· ++ _) hlog)
  have hboundaries : (complete now d₂).boundaries = d.boundaries.erase now := by
    rw [hd₂, hd₁]
    rfl
  refine ⟨bit', ?_⟩
  constructor
  case nodup => exact h.nodup
  case interval => exact h.interval
  case ready => exact h.ready
  case live =>
    refine h.live.sublist (List.Sublist.map _ (List.monotone_filter_right _ ?_))
    intro r hr
    simp only [past_complete, decide_eq_true_eq] at hr ⊢
    exact fun hp => hr (h.le_of_past hnext hp)
  case boundary_mem =>
    intro t
    rw [hboundaries, past_complete]
    exact h.boundary_mem_next hnext t
  case boundary =>
    intro t ht
    rw [past_complete] at ht
    rw [hboundaries, boundaryAt, ExtTreeMap.getElem?_erase, if_neg (by simp; omega), ← boundaryAt]
    exact h.boundary t fun hp => ht (h.le_of_past hnext hp)
  case active =>
    intro id a
    have hactive : (complete now d₂).active = d₁.active := by
      rw [hd₂]
      rfl
    rw [hactive, past_complete, past_complete]
    exact h.active_next hnext he hb id a
  case pending =>
    intro m r
    have herased : (complete now d₂).readouts.pending[m]? =
        if m ∈ boundary.ready then none else d₁.readouts.pending[m]? := by
      rw [hd₂]
      exact herased m
    simp only [herased, past_complete]
    exact h.pending_next hnext hb hpending m r
  case started =>
    rw [List.filter_append, hstarted]
    exact h.perm_next hnext (fun a ha => .inl ⟨a, ha, .inl rfl⟩) h.started fun _ _ _ => rfl
  case ended =>
    rw [List.filter_append, hended]
    exact h.perm_next hnext (fun a ha => .inl ⟨a, ha, .inr rfl⟩) h.ended fun _ _ _ => rfl
  case sampled =>
    rw [List.filter_append, hsampled]
    refine h.perm_next hnext (fun r hr => ?_) h.sampled fun r hr hp => ?_
    · obtain ⟨a, ha, -, -, hend⟩ := acquisition_of_mem_readouts hr
      exact .inl ⟨a, ha, .inr hend⟩
    · rw [sampledRecord, sampledRecord, hbit _ (h.ne_of_past hnext hp)]
  case delivered =>
    rw [List.nil_append, map_deliveryOf]
    refine h.perm_next hnext (fun r hr => .inr ⟨r, hr, rfl⟩) h.delivered fun r hr hp => ?_
    have hpend := past_of_le hp (h.ready r hr)
    rw [deliveryOf, deliveryOf, hbit _ (h.ne_of_past hnext hpend)]
  case sampled_first => exact h.sampled_first_next hnext hbit hkind hlog fun _ => rfl

theorem DeviceRun.tracks (run : DeviceRun backend epoch origin Timely history d) :
    ∃ bit, Tracks epoch history d bit := by
  induction run with
  | start h => exact ⟨_, .start h⟩
  | accept run obeys h resolved fresh ih =>
    obtain ⟨bit, ih⟩ := ih
    obtain ⟨actions, readouts, haccepted, rfl⟩ := accept_returns h
    obtain rfl : actions = _ := Except.ok.inj (haccepted.resolved.symm.trans resolved)
    exact ⟨bit, ih.accept haccepted obeys fresh⟩
  | process run obeys h ih =>
    obtain ⟨bit, ih⟩ := ih
    exact ih.process obeys h

end Tracks
end Qsbit

import Qsbit.Device.ControlElectronics
import Qsbit.Backend.Batch
import Mathlib.Data.List.Basic

/-!
# What the operations of the device do

An operation of the device that returns has changed its maps in a way that can be
read off its arguments: each loop has a lemma that says what it leaves in the map
it works on and what it appends to the log.

## Main definitions

* `boundaryAt` — the boundary of a tick.
* `Accepted`, `Processed` — what an acceptance and the processing of a boundary have done.
-/
namespace Qsbit
open Std (ExtTreeMap)

namespace ControlElectronics
variable {β χ : Type}

/-! ## Boundaries -/

def boundaryAt (m : ExtTreeMap ℕ Boundary) (t : ℕ) : Boundary := m[t]?.getD {}

section Boundaries
variable {m : ExtTreeMap ℕ Boundary} {t : ℕ}

theorem boundaryAt_alterBoundary {k : ℕ} {f : Boundary → Boundary} :
    boundaryAt (alterBoundary k f m) t = if k = t then f (boundaryAt m t) else boundaryAt m t := by
  unfold boundaryAt alterBoundary
  rw [ExtTreeMap.getElem?_alter]
  by_cases hk : k = t
  · subst hk
    simp
  · simp [hk]

theorem mem_alterBoundary {k : ℕ} {f : Boundary → Boundary} :
    t ∈ alterBoundary k f m ↔ k = t ∨ t ∈ m := by
  unfold alterBoundary
  rw [ExtTreeMap.mem_alter]
  by_cases hk : k = t
  · simp [hk]
  · simp [hk]

theorem boundaryAt_scheduleReadouts {readouts : List Readout} :
    boundaryAt (readouts.foldl scheduleReadout m) t =
      { boundaryAt m t with
        ready := (boundaryAt m t).ready ++
          (readouts.filter (·.ready = t)).map (·.reference.measurement) } := by
  induction readouts generalizing m with
  | nil => simp
  | cons r rest ih =>
    rw [List.foldl_cons, ih, scheduleReadout, boundaryAt_alterBoundary]
    by_cases hr : r.ready = t
    · simp [hr]
    · simp [hr]

theorem mem_scheduleReadouts {readouts : List Readout} :
    t ∈ readouts.foldl scheduleReadout m ↔ t ∈ m ∨ ∃ r ∈ readouts, r.ready = t := by
  induction readouts generalizing m with
  | nil => simp
  | cons r rest ih =>
    rw [List.foldl_cons, ih, scheduleReadout, mem_alterBoundary]
    simp only [List.mem_cons, exists_eq_or_imp]
    tauto

theorem boundaryAt_scheduleActions {actions : List ScheduledEvent} :
    boundaryAt (actions.foldl scheduleAction m) t =
      { boundaryAt m t with
        starts := (boundaryAt m t).starts ++ actions.filter (·.start = t)
        ends := (boundaryAt m t).ends ++ (actions.filter (·.end = t)).map (·.event.id) } := by
  induction actions generalizing m with
  | nil => simp
  | cons a rest ih =>
    rw [List.foldl_cons, ih, scheduleAction, boundaryAt_alterBoundary, boundaryAt_alterBoundary]
    by_cases hend : a.end = t <;> by_cases hstart : a.start = t <;> simp [hend, hstart]

theorem mem_scheduleActions {actions : List ScheduledEvent} :
    t ∈ actions.foldl scheduleAction m ↔ t ∈ m ∨ ∃ a ∈ actions, a.start = t ∨ a.end = t := by
  induction actions generalizing m with
  | nil => simp
  | cons a rest ih =>
    rw [List.foldl_cons, ih, scheduleAction, mem_alterBoundary, mem_alterBoundary]
    simp only [List.mem_cons, exists_eq_or_imp]
    grind

end Boundaries

/-! ## Acceptance -/

section Accept
variable {backend : QuantumBackend β} {d d' : ControlElectronics β} {batch : TriggeredEvents}
  {actions : List ScheduledEvent} {u : Unit} {l : List TraceEvent}

theorem resolveEvent_spec {p : DeviceProfile} {event : OperationEvent} {a : ScheduledEvent}
    (h : resolveEvent backend p batch event = .ok a) :
    a.event = event ∧ event.epoch = batch.epoch ∧ a.start = batch.fireTick + event.action.delay ∧
      a.end = a.start + event.action.duration ∧ resolveAction p event = .ok a.resolved := by
  simp only [resolveEvent, Except.bind_eq_ok_iff, require_eq_ok_iff, exists_const,
    Except.pure_eq_ok_iff] at h
  obtain ⟨hid, _, -, start, hstart, resolved, hresolved, last, hlast, rfl⟩ := h
  exact ⟨rfl, hid.1, eq_of_checkedAdd hstart, eq_of_checkedAdd hlast, hresolved⟩

theorem resolveAll_mem {p : DeviceProfile} {events : List OperationEvent}
    {actions : List ScheduledEvent} (h : resolveAll backend p batch events = .ok actions)
    {a : ScheduledEvent} (ha : a ∈ actions) :
    ∃ event ∈ events, resolveEvent backend p batch event = .ok a := by
  induction events generalizing actions with
  | nil =>
    rw [← Except.pure_eq_ok_iff.1 h] at ha
    simp at ha
  | cons event rest ih =>
    simp only [resolveAll, Except.bind_eq_ok_iff, Except.pure_eq_ok_iff] at h
    obtain ⟨b, hb, actions, hactions, rfl⟩ := h
    rcases List.mem_cons.1 ha with rfl | ha
    · exact ⟨event, List.mem_cons_self, hb⟩
    · obtain ⟨event', hevent', ha'⟩ := ih hactions ha
      exact ⟨event', List.mem_cons_of_mem _ hevent', ha'⟩

/-- What the resolution makes of the events of a batch: each is scheduled once. -/
def Schedules (batch : TriggeredEvents) (actions : List ScheduledEvent) : Prop :=
  List.Forall₂ (fun event a => a.event = event ∧ a.start = batch.fireTick + event.action.delay ∧
    a.end = a.start + event.action.duration) batch.events actions

theorem schedules_of_resolve (h : d.resolve backend batch = .ok actions) :
    Schedules batch actions := by
  have hall : ∀ {events actions}, resolveAll backend d.profile batch events = .ok actions →
      List.Forall₂ (fun event a => a.event = event ∧
        a.start = batch.fireTick + event.action.delay ∧
          a.end = a.start + event.action.duration) events actions := by
    intro events
    induction events with
    | nil =>
      intro actions h
      rw [← Except.pure_eq_ok_iff.1 h]
      exact .nil
    | cons event rest ih =>
      intro actions h
      simp only [resolveAll, Except.bind_eq_ok_iff, Except.pure_eq_ok_iff] at h
      obtain ⟨a, ha, actions, hactions, rfl⟩ := h
      obtain ⟨hevent, -, hstart, hend, -⟩ := resolveEvent_spec ha
      exact .cons ⟨hevent, hstart, hend⟩ (ih hactions)
  exact hall h

/-- What an acceptance has done with the prepared actions and readouts. -/
structure Accepted (backend : QuantumBackend β) (batch : TriggeredEvents)
    (actions : List ScheduledEvent) (readouts : List Readout) (d d' : ControlElectronics β) :
    Prop where
  resolved : d.resolve backend batch = .ok actions
  checked : ResourceReservations.check d.reservations actions = .ok ()
  prepared : d.readouts.prepare actions batch.epoch = .ok readouts
  after : ∀ processed ∈ d.processedTick, processed < batch.fireTick
  inserted : (readouts.map (·.reference.measurement)).Nodup ∧
    ∀ r ∈ readouts, r.reference.measurement ∉ d.readouts.pending
  device : d' =
    { d with
      reservations := d.reservations ++ actions
      boundaries := actions.foldl scheduleAction (readouts.foldl scheduleReadout d.boundaries)
      readouts :=
        { pending := readouts.foldl (fun m x => m.insert x.reference.measurement x)
            d.readouts.pending } }

theorem accept_returns (h : (accept backend batch).Returns d u d' l) :
    ∃ actions readouts, Accepted backend batch actions readouts d d' ∧
      l = actions.map (codewordTriggered batch) := by
  simp only [accept, Proc.returns_get_bind_iff, Proc.returns_lift_bind_iff,
    Proc.returns_modify_bind_iff] at h
  obtain ⟨⟨actions, readouts⟩, hprepare, reservations, hreserve, h⟩ := h
  simp only [prepare, Except.bind_eq_ok_iff, require_eq_ok_iff, exists_const,
    Except.pure_eq_ok_iff, Prod.mk.injEq] at hprepare
  obtain ⟨actions', hresolved, _, hchecked, readouts', hprepared, hafter, rfl, rfl⟩ := hprepare
  simp only [ResourceReservations.reserve, Except.bind_eq_ok_iff,
    Except.pure_eq_ok_iff] at hreserve
  obtain ⟨_, -, rfl⟩ := hreserve
  obtain ⟨_, d₁, l₁, l₂, hinsert, hrest, rfl⟩ := Proc.returns_bind_iff.1 h
  obtain ⟨r, hr, rfl⟩ := Proc.returns_zoom_iff.1 hinsert
  obtain ⟨hpending, hnodup, hnew, rfl⟩ := Readouts.insertAll_returns hr
  simp only [Proc.returns_modify_bind_iff, returns_scheduleAll_iff] at hrest
  obtain ⟨rfl, rfl⟩ := hrest
  refine ⟨actions', readouts', ⟨hresolved, hchecked, hprepared, hafter, ⟨hnodup, hnew⟩, ?_⟩, rfl⟩
  rw [← hpending]

end Accept

/-! ## Processing -/

section Process
variable {backend : QuantumBackend β} {d d' : ControlElectronics β} {now epoch : ℕ} {u : Unit}
  {l : List TraceEvent}

theorem samplesOf_spec {ids : List ℕ} {samples : List MeasurementReference}
    (h : d.samplesOf ids = .ok samples) :
    (∀ id ∈ ids, id ∈ d.active) ∧
      samples = ((ids.filterMap fun id => d.active[id]?).filter
        (·.event.action.kind = .acquire)).flatMap (·.event.reference.toList) := by
  induction ids generalizing samples with
  | nil =>
    simp only [samplesOf, Except.pure_eq_ok_iff] at h
    simp [← h]
  | cons id rest ih =>
    cases hid : d.active[id]? with
    | none => simp [samplesOf, hid] at h
    | some a =>
      simp only [samplesOf, hid, Except.bind_eq_ok_iff, Except.pure_eq_ok_iff] at h
      obtain ⟨samples, hsamples, rfl⟩ := h
      obtain ⟨hactive, rfl⟩ := ih hsamples
      refine ⟨?_, ?_⟩
      · intro j hj
        rcases List.mem_cons.1 hj with rfl | hj
        · exact ExtTreeMap.mem_iff_isSome_getElem?.2 (by simp [hid])
        · exact hactive j hj
      · by_cases ha : a.event.action.kind = .acquire <;> simp [hid, ha]

/-- Samples have been given to the readouts of different measurements. -/
theorem sampleAll_returns {pairs : List (MeasurementReference × Bool)}
    (h : (sampleAll now epoch pairs).Returns d u d' l)
    (hnodup : (pairs.map (·.1.measurement)).Nodup) :
    (∃ pending, d' = { d with readouts := { pending } } ∧
      (∀ p ∈ pairs, ∃ r, d.readouts.pending[p.1.measurement]? = some r ∧
        pending[p.1.measurement]? = some { r with sample := some p.2 }) ∧
      ∀ m, (∀ p ∈ pairs, p.1.measurement ≠ m) → pending[m]? = d.readouts.pending[m]?) ∧
    l = pairs.map fun p =>
      { tick := now, epoch, kind := .measurementSampled, id := p.1.measurement
        core := d.readouts.pending[p.1.measurement]?.bind (·.core)
        targets := [p.1.target], value := p.2.toNat } := by
  induction pairs generalizing d l with
  | nil =>
    obtain ⟨-, rfl, rfl⟩ := Proc.returns_pure_iff.1 h
    exact ⟨⟨d.readouts.pending, rfl, by simp, by simp⟩, rfl⟩
  | cons p rest ih =>
    obtain ⟨reference, value⟩ := p
    obtain ⟨_, d₁, l₁, l₂, hsample, hrest, rfl⟩ := Proc.returns_bind_iff.1 h
    obtain ⟨r₁, hr₁, rfl⟩ := Proc.returns_zoom_iff.1 hsample
    simp only [Readouts.sample, Proc.returns_get_bind_iff, Proc.returns_lift_bind_iff,
      Proc.returns_set_iff] at hr₁
    obtain ⟨readout, hat, rfl, rfl⟩ := hr₁
    have hreadout := Readouts.at_eq_ok_iff.1 hat
    simp only [Proc.returns_get_bind_iff, Proc.returns_lift_bind_iff,
      Proc.returns_emit_bind_iff] at hrest
    obtain ⟨sampled, hsampled, l', hrest, rfl⟩ := hrest
    have hcore : sampled.core = readout.core := by
      rw [Readouts.at_eq_ok_iff, ExtTreeMap.getElem?_insert_self] at hsampled
      rw [← Option.some.inj hsampled]
    simp only [List.map_cons, List.nodup_cons] at hnodup
    obtain ⟨⟨pending, rfl, hmem, hother⟩, rfl⟩ := ih hrest hnodup.2
    have hdiff : ∀ p ∈ rest, p.1.measurement ≠ reference.measurement := by
      intro p hp heq
      exact hnodup.1 (List.mem_map.2 ⟨p, hp, heq⟩)
    refine ⟨⟨pending, rfl, ?_, ?_⟩, ?_⟩
    · intro p hp
      rcases List.mem_cons.1 hp with rfl | hp
      · refine ⟨readout, hreadout, ?_⟩
        rw [hother _ hdiff, ExtTreeMap.getElem?_insert_self]
      · obtain ⟨r, hr, hpending⟩ := hmem p hp
        refine ⟨r, ?_, hpending⟩
        rwa [ExtTreeMap.getElem?_insert, if_neg (by simpa using (hdiff p hp).symm)] at hr
    · intro m hm
      rw [hother m fun p hp => hm p (List.mem_cons_of_mem _ hp), ExtTreeMap.getElem?_insert,
        if_neg (by simpa using hm _ List.mem_cons_self)]
    · simp only [List.map_cons, List.nil_append, hreadout, Option.bind_some, hcore]
      congr 1
      apply List.map_congr_left
      intro p hp
      rw [ExtTreeMap.getElem?_insert, if_neg (by simpa using (hdiff p hp).symm)]

theorem mem_active_of_endAll {ids : List ℕ} (h : (endAll now epoch ids).Returns d u d' l) :
    ∀ id ∈ ids, id ∈ d.active := by
  induction ids generalizing d l with
  | nil => simp
  | cons id rest ih =>
    simp only [endAll, Proc.returns_get_bind_iff] at h
    cases hid : d.active[id]? with
    | none => simp [hid] at h
    | some a =>
      simp only [hid, Proc.returns_emit_bind_iff, Proc.returns_set_bind_iff] at h
      obtain ⟨l', hrest, -⟩ := h
      intro j hj
      rcases List.mem_cons.1 hj with rfl | hj
      · exact ExtTreeMap.mem_iff_isSome_getElem?.2 (by simp [hid])
      · exact (ExtTreeMap.mem_erase.1 (ih hrest j hj)).2

theorem endAll_returns {ids : List ℕ} (h : (endAll now epoch ids).Returns d u d' l) :
    ids.Nodup ∧ (∃ active, d' = { d with active } ∧
      ∀ id, active[id]? = if id ∈ ids then none else d.active[id]?) ∧
    l = ids.filterMap fun id =>
      d.active[id]?.map fun a => { operationEnd now epoch a with id } := by
  induction ids generalizing d l with
  | nil =>
    obtain ⟨-, rfl, rfl⟩ := Proc.returns_pure_iff.1 h
    exact ⟨List.nodup_nil, ⟨d.active, rfl, by simp⟩, rfl⟩
  | cons id rest ih =>
    simp only [endAll, Proc.returns_get_bind_iff] at h
    cases hid : d.active[id]? with
    | none => simp [hid] at h
    | some a =>
      simp only [hid, Proc.returns_emit_bind_iff, Proc.returns_set_bind_iff] at h
      obtain ⟨l', hrest, rfl⟩ := h
      -- A second end of the same action would not find it any more.
      have hfresh : id ∉ rest := by
        intro hmem
        have := mem_active_of_endAll hrest id hmem
        simp at this
      obtain ⟨hnodup, ⟨active, rfl, hactive⟩, rfl⟩ := ih hrest
      refine ⟨List.nodup_cons.2 ⟨hfresh, hnodup⟩, ⟨active, rfl, ?_⟩, ?_⟩
      · intro j
        rw [hactive j, ExtTreeMap.getElem?_erase]
        by_cases hj : id = j
        · simp [hj]
        · by_cases hrest : j ∈ rest <;> simp [hrest, hj, Ne.symm hj]
      · rw [List.filterMap_cons_some (by rw [hid]; rfl)]
        congr 1
        apply List.filterMap_congr
        intro j hj
        have hne : id ≠ j := by
          rintro rfl
          exact hfresh hj
        rw [ExtTreeMap.getElem?_erase, if_neg (by simpa using hne)]

theorem startAll_returns {starts : List ScheduledEvent}
    (h : (startAll now epoch starts).Returns d u d' l) :
    (starts.map (·.event.id)).Nodup ∧ (∀ a ∈ starts, a.event.id ∉ d.active) ∧
      (∃ active, d' = { d with active } ∧ (∀ a ∈ starts, active[a.event.id]? = some a) ∧
        ∀ id, (∀ a ∈ starts, a.event.id ≠ id) → active[id]? = d.active[id]?) ∧
      l = starts.map (operationStart now epoch) := by
  induction starts generalizing d l with
  | nil =>
    obtain ⟨-, rfl, rfl⟩ := Proc.returns_pure_iff.1 h
    exact ⟨by simp, by simp, ⟨d.active, rfl, by simp, by simp⟩, rfl⟩
  | cons a rest ih =>
    simp only [startAll, Proc.returns_get_bind_iff, Proc.returns_lift_bind_iff, require_eq_ok_iff,
      exists_const, Proc.returns_set_bind_iff, Proc.returns_emit_bind_iff] at h
    obtain ⟨hfresh, l', hrest, rfl⟩ := h
    obtain ⟨hnodup, hnew, ⟨active, rfl, hmem, hother⟩, rfl⟩ := ih hrest
    have hdiff : ∀ b ∈ rest, b.event.id ≠ a.event.id := by
      intro b hb heq
      exact hnew b hb (by simp [heq])
    refine ⟨List.nodup_cons.2 ⟨?_, hnodup⟩, ?_, ⟨active, rfl, ?_, ?_⟩, rfl⟩
    · intro hid
      obtain ⟨b, hb, heq⟩ := List.mem_map.1 hid
      exact hdiff b hb heq
    · intro b hb
      rcases List.mem_cons.1 hb with rfl | hb
      · exact hfresh
      · intro hid
        exact hnew b hb (ExtTreeMap.mem_insert.2 (.inr hid))
    · intro b hb
      rcases List.mem_cons.1 hb with rfl | hb
      · rw [hother _ hdiff, ExtTreeMap.getElem?_insert_self]
      · exact hmem b hb
    · intro id hid
      rw [hother id fun b hb => hid b (List.mem_cons_of_mem _ hb), ExtTreeMap.getElem?_insert,
        if_neg (by simpa using hid a List.mem_cons_self)]

theorem gatesApplied_returns {outputs : List (String × List ScheduledEvent)}
    (h : (gatesApplied now epoch outputs).Returns d u d' l) :
    d' = d ∧ ∀ r ∈ l, r.kind = .gateApplied := by
  induction outputs generalizing l with
  | nil =>
    obtain ⟨-, rfl, rfl⟩ := Proc.returns_pure_iff.1 h
    simp
  | cons o rest ih =>
    simp only [gatesApplied, Proc.returns_get_bind_iff, Proc.returns_lift_bind_iff,
      Proc.returns_emit_bind_iff] at h
    obtain ⟨gate, -, l', hrest, rfl⟩ := h
    obtain ⟨rfl, hkind⟩ := ih hrest
    exact ⟨rfl, List.forall_mem_cons.2 ⟨rfl, hkind⟩⟩

/-- The record of a delivery. -/
def resultReady (now epoch : ℕ) (r : Readout) (value : Bool) : TraceEvent :=
  { tick := now, epoch, kind := .resultReady, id := r.reference.measurement, core := r.core
    targets := [r.reference.target], value := value.toNat }

/-- The results of readouts are delivered one after the other. -/
inductive Deliveries (now epoch : ℕ) (deliver : Completion → Sim χ Unit) :
    List (Readout × Bool) → χ → χ → List TraceEvent → Prop
  | nil (x : χ) : Deliveries now epoch deliver [] x x []
  | cons {r : Readout} {value : Bool} {rs : List (Readout × Bool)} {x x₁ x' : χ}
      {l l' : List TraceEvent} (h : (deliver { reference := r.reference, value }).Returns x () x₁ l)
      (rest : Deliveries now epoch deliver rs x₁ x' l') :
      Deliveries now epoch deliver ((r, value) :: rs) x x' (l ++ resultReady now epoch r value :: l')

theorem deliverAll_returns {deliver : Completion → Sim χ Unit} {ids : List ℕ} {x x' : χ}
    (h : (deliverAll now epoch deliver ids).Returns (d, x) u (d', x') l) (hkeyed : d.readouts.Keyed) :
    ids.Nodup ∧ (∃ pending, d' = { d with readouts := { pending } } ∧
      ∀ m, pending[m]? = if m ∈ ids then none else d.readouts.pending[m]?) ∧
    ∃ rs, ids = rs.map (·.1.reference.measurement) ∧
      (∀ p ∈ rs, d.readouts.pending[p.1.reference.measurement]? = some p.1 ∧
        p.1.sample = some p.2) ∧
      Deliveries now epoch deliver rs x x' l := by
  induction ids generalizing d x l with
  | nil =>
    obtain ⟨-, heq, rfl⟩ := Proc.returns_pure_iff.1 h
    obtain ⟨rfl, rfl⟩ := Prod.mk.inj heq
    exact ⟨List.nodup_nil, ⟨d.readouts.pending, rfl, by simp⟩, [], rfl, by simp, .nil x⟩
  | cons id rest ih =>
    simp only [deliverAll, Proc.returns_get_bind_iff, Proc.returns_lift_bind_iff,
      Readouts.at_eq_ok_iff, Readouts.result_eq_ok_iff] at h
    obtain ⟨readout, hreadout, _, ⟨_, value, hreadout', hvalue, rfl⟩, h⟩ := h
    obtain rfl := Option.some.inj (hreadout.symm.trans hreadout')
    obtain rfl := hkeyed id _ hreadout
    obtain ⟨_, ⟨d₁, x₁⟩, l₁, l₂, hx₁, h₁, rfl⟩ := Proc.returns_bind_iff.1 h
    obtain ⟨hdeliver, rfl⟩ := Proc.returns_onSnd_iff.1 hx₁
    obtain ⟨l₃, h₂, rfl⟩ := Proc.returns_emit_bind_iff.1 h₁
    obtain ⟨_, ⟨d₂, x₂⟩, l₄, l₅, hx₂, hrest, rfl⟩ := Proc.returns_bind_iff.1 h₂
    obtain ⟨herase, rfl⟩ := Proc.returns_onFst_iff.1 hx₂
    obtain ⟨r, hr, rfl⟩ := Proc.returns_zoom_iff.1 herase
    obtain ⟨rfl, rfl⟩ := Proc.returns_modify_iff.1 hr
    have hkeyed' : (d.readouts.erase readout.reference.measurement).Keyed := by
      intro m r hm
      simp only [Readouts.erase, ExtTreeMap.getElem?_erase] at hm
      split at hm
      · simp at hm
      · exact hkeyed m r hm
    obtain ⟨hnodup, ⟨pending, rfl, hpending⟩, rs, rfl, hrs, hdeliveries⟩ := ih hrest hkeyed'
    have hfresh : ∀ p ∈ rs, p.1.reference.measurement ≠ readout.reference.measurement := by
      intro p hp heq
      have := (hrs p hp).1
      simp [Readouts.erase, heq] at this
    refine ⟨List.nodup_cons.2 ⟨?_, hnodup⟩, ⟨pending, rfl, ?_⟩, (readout, value) :: rs, rfl, ?_,
      .cons hdeliver hdeliveries⟩
    · intro hmem
      obtain ⟨p, hp, heq⟩ := List.mem_map.1 hmem
      exact hfresh p hp heq
    · intro m
      rw [hpending m]
      simp only [Readouts.erase, ExtTreeMap.getElem?_erase, List.mem_cons, Nat.compare_eq_eq]
      by_cases heq : readout.reference.measurement = m
      · simp [heq]
      · simp only [if_neg heq, Ne.symm heq, false_or]
    · intro p hp
      rcases List.mem_cons.1 hp with rfl | hp
      · exact ⟨hreadout, hvalue⟩
      · refine ⟨?_, (hrs p hp).2⟩
        have := (hrs p hp).1
        rwa [Readouts.erase, ExtTreeMap.getElem?_erase,
          if_neg (by simpa using (hfresh p hp).symm)] at this

/-- What the backend has been asked for: the evolution up to the boundary, the measurements and
the gates. -/
inductive Executed (backend : QuantumBackend β) (now lastTick : ℕ) (p : Plan) (bits : List Bool) :
    BackendExecution β → BackendExecution β → Prop
  | intro {b b₁ b₂ b₃ : BackendExecution β}
      (evolve : if lastTick < now then
        (BackendExecution.evolve backend lastTick now p.drives p.acquisitions).Returns b () b₁ []
        else b₁ = b)
      (measure : (BackendExecution.measure backend now p.samples).Returns b₁ bits b₂ [])
      (apply : (BackendExecution.apply backend now p.gates).Returns b₂ () b₃ []) :
      Executed backend now lastTick p bits b b₃

/-- The record of a sample. -/
def measurementSampled (now epoch : ℕ) (r : Readouts) (reference : MeasurementReference)
    (value : Bool) : TraceEvent :=
  { tick := now, epoch, kind := .measurementSampled, id := reference.measurement
    core := r.pending[reference.measurement]?.bind (·.core), targets := [reference.target]
    value := value.toNat }

/-- What a boundary has done before the results are delivered. -/
structure Enacted (backend : QuantumBackend β) (now epoch : ℕ) (boundary : Boundary) (p : Plan)
    (bits : List Bool) (d d' : ControlElectronics β) (l : List TraceEvent) : Prop where
  executed : Executed backend now d.lastTick p bits d.backend d'.backend
  count : bits.length = p.samples.length
  ended : boundary.ends.Nodup
  started : (boundary.starts.map (·.event.id)).Nodup
  fresh : ∀ a ∈ boundary.starts, a.event.id ∈ d.active → a.event.id ∈ boundary.ends
  active_start : ∀ a ∈ boundary.starts, d'.active[a.event.id]? = some a
  active : ∀ id, (∀ a ∈ boundary.starts, a.event.id ≠ id) →
    d'.active[id]? = if id ∈ boundary.ends then none else d.active[id]?
  sampled : ∀ s ∈ p.samples.zip bits, ∃ r, d.readouts.pending[s.1.measurement]? = some r ∧
    d'.readouts.pending[s.1.measurement]? = some { r with sample := some s.2 }
  readouts : ∀ m, (∀ s ∈ p.samples.zip bits, s.1.measurement ≠ m) →
    d'.readouts.pending[m]? = d.readouts.pending[m]?
  rest : ∃ x active readouts, d' = { d with backend := x, active, readouts }
  log : ∃ applied : List TraceEvent, (∀ r ∈ applied, r.kind = .gateApplied) ∧
    l = (p.samples.zip bits).map (fun s => measurementSampled now epoch d.readouts s.1 s.2) ++
      (boundary.ends.filterMap fun id =>
        d.active[id]?.map fun a => { operationEnd now epoch a with id }) ++ applied ++
      boundary.starts.map (operationStart now epoch)

/-- What the processing of a boundary does not change before the boundary is done. -/
def frame (d : ControlElectronics β) :
    DeviceProfile × List ScheduledEvent × ExtTreeMap ℕ Boundary × ℕ × Option ℕ :=
  (d.profile, d.reservations, d.boundaries, d.lastTick, d.processedTick)

theorem keeps_sampleAll {pairs : List (MeasurementReference × Bool)} :
    (sampleAll now epoch pairs).Keeps frame d := by
  induction pairs generalizing d with
  | nil => exact .pure ()
  | cons p rest ih =>
    exact .bind (.zoom fun _ => rfl) fun _ d₁ => .get_bind <| .lift_bind fun _ => .emit_bind ih

theorem keeps_endAll {ids : List ℕ} : (endAll now epoch ids).Keeps frame d := by
  induction ids generalizing d with
  | nil => exact .pure ()
  | cons id rest ih =>
    apply Proc.Keeps.get_bind
    split
    · exact .check _
    · exact .emit_bind <| .set_bind rfl ih

theorem keeps_gatesApplied {outputs : List (String × List ScheduledEvent)} :
    (gatesApplied now epoch outputs).Keeps frame d := by
  induction outputs generalizing d with
  | nil => exact .pure ()
  | cons o rest ih =>
    exact .get_bind <| .lift_bind fun _ => .emit_bind ih

theorem keeps_startAll {starts : List ScheduledEvent} :
    (startAll now epoch starts).Keeps frame d := by
  induction starts generalizing d with
  | nil => exact .pure ()
  | cons a rest ih =>
    exact .get_bind <| .lift_bind fun _ => .set_bind rfl <| .emit_bind ih

theorem keeps_enact {boundary : Boundary} {p : Plan} :
    (enact backend now epoch boundary p).Keeps frame d := by
  apply Proc.Keeps.get_bind
  refine .bind ?_ fun _ d₁ => .bind (.zoom fun _ => rfl) fun _ d₂ => .bind keeps_sampleAll
    fun _ d₃ => .bind keeps_endAll fun _ d₄ => .bind (.zoom fun _ => rfl) fun _ d₅ =>
      .bind keeps_gatesApplied fun _ d₆ => keeps_startAll
  split
  · exact .zoom fun _ => rfl
  · exact .pure ()

theorem keeps_deliverAll {deliver : Completion → Sim χ Unit} {ids : List ℕ} {x : χ} :
    (deliverAll now epoch deliver ids).Keeps (fun s => s.1.frame) (d, x) := by
  induction ids generalizing d x with
  | nil => exact .pure ()
  | cons id rest ih =>
    exact .get_bind <| .lift_bind fun _ => .lift_bind fun _ => .bind (.zoom fun _ => rfl)
      fun _ s₁ => .emit_bind <| .bind (.onFst (.zoom fun _ => rfl)) fun _ s₂ => ih

theorem returns_onExecution_iff {α : Type} {x : Sim (BackendExecution β) α} {a : α} :
    (onExecution x).Returns d a d' l ↔ ∃ b, x.Returns d.backend a b l ∧ { d with backend := b } = d' :=
  Proc.returns_zoom_iff

theorem enact_returns {boundary : Boundary} {p : Plan}
    (h : (enact backend now epoch boundary p).Returns d u d' l)
    (hnodup : (p.samples.map (·.measurement)).Nodup) :
    ∃ bits, Enacted backend now epoch boundary p bits d d' l := by
  rw [enact, Proc.returns_get_bind_iff] at h
  obtain ⟨_, d₁, l₁, k₁, hevolve, h₁, rfl⟩ := Proc.returns_bind_iff.1 h
  obtain ⟨bits, d₂, l₂, k₂, hmeasure, h₂, rfl⟩ := Proc.returns_bind_iff.1 h₁
  obtain ⟨_, d₃, l₃, k₃, hsample, h₃, rfl⟩ := Proc.returns_bind_iff.1 h₂
  obtain ⟨_, d₄, l₄, k₄, hend, h₄, rfl⟩ := Proc.returns_bind_iff.1 h₃
  obtain ⟨_, d₅, l₅, k₅, happly, h₅, rfl⟩ := Proc.returns_bind_iff.1 h₄
  obtain ⟨_, d₆, l₆, k₆, happlied, hstart, rfl⟩ := Proc.returns_bind_iff.1 h₅
  have hevolved : ∃ b₁, d₁ = { d with backend := b₁ } ∧ l₁ = [] ∧ if d.lastTick < now then
      (BackendExecution.evolve backend d.lastTick now p.drives p.acquisitions).Returns
        d.backend () b₁ [] else b₁ = d.backend := by
    split at hevolve
    · obtain ⟨b₁, hb₁, rfl⟩ := returns_onExecution_iff.1 hevolve
      obtain rfl := BackendExecution.quiet_evolve.returns hb₁
      exact ⟨b₁, rfl, rfl, by rw [if_pos ‹_›]; exact hb₁⟩
    · obtain ⟨-, rfl, rfl⟩ := Proc.returns_pure_iff.1 hevolve
      exact ⟨d.backend, rfl, rfl, by rw [if_neg ‹_›]⟩
  obtain ⟨b₁, rfl, rfl, hb₁⟩ := hevolved
  obtain ⟨b₂, hb₂, rfl⟩ := returns_onExecution_iff.1 hmeasure
  obtain rfl := BackendExecution.quiet_measure.returns hb₂
  have hcount := length_of_measure hb₂
  have hzip : ((p.samples.zip bits).map (·.1.measurement)).Nodup := by
    rw [← List.map_fst_zip hcount.ge, List.map_map] at hnodup
    exact hnodup
  obtain ⟨⟨pending, rfl, hsampled, hreadouts⟩, rfl⟩ := sampleAll_returns hsample hzip
  obtain ⟨hends, ⟨active, rfl, hactive⟩, rfl⟩ := endAll_returns hend
  obtain ⟨b₃, hb₃, rfl⟩ := returns_onExecution_iff.1 happly
  obtain rfl := BackendExecution.quiet_apply.returns hb₃
  obtain ⟨rfl, hkind⟩ := gatesApplied_returns happlied
  obtain ⟨hstarts, hfresh, ⟨active', rfl, hactive', hother⟩, rfl⟩ := startAll_returns hstart
  exact ⟨bits,
    { executed := .intro hb₁ hb₂ hb₃
      count := hcount
      ended := hends
      started := hstarts
      fresh := by
        intro a ha hmem
        by_contra hid
        apply hfresh a ha
        rw [ExtTreeMap.mem_iff_isSome_getElem?] at hmem ⊢
        simpa [hactive, hid] using hmem
      active_start := hactive'
      active := fun id hid => (hother id hid).trans (hactive id)
      sampled := hsampled
      readouts := hreadouts
      rest := ⟨_, _, _, rfl⟩
      log := ⟨l₆, hkind, by simp [measurementSampled]⟩ }⟩

theorem process_returns {deliver : Completion → Sim χ Unit} {x x' : χ}
    (h : (process backend now epoch deliver).Returns (d, x) u (d', x') l) :
    (d.lastTick ≤ now ∧ ∀ processed ∈ d.processedTick, processed < now) ∧
      ((d.boundaries[now]? = none ∧ d' = d ∧ x' = x ∧ l = []) ∨
        ∃ boundary p d₁ d₂ l₁ l₂, d.boundaries[now]? = some boundary ∧
          d.plan backend boundary now epoch = .ok p ∧
          (enact backend now epoch boundary p).Returns d () d₁ l₁ ∧
          (deliverAll now epoch deliver boundary.ready).Returns (d₁, x) () (d₂, x') l₂ ∧
          d' = complete now d₂ ∧ l = l₁ ++ l₂) := by
  simp only [process, Proc.returns_get_bind_iff, Proc.returns_lift_bind_iff, require_eq_ok_iff,
    exists_const] at h
  obtain ⟨hnow, h⟩ := h
  refine ⟨hnow, ?_⟩
  cases hb : d.boundaries[now]? with
  | none =>
    simp only [hb] at h
    obtain ⟨-, heq, rfl⟩ := Proc.returns_pure_iff.1 h
    obtain ⟨rfl, rfl⟩ := Prod.mk.inj heq
    exact .inl ⟨rfl, rfl, rfl, rfl⟩
  | some boundary =>
    simp only [hb, Proc.returns_lift_bind_iff] at h
    obtain ⟨p, hp, h⟩ := h
    obtain ⟨_, ⟨d₁, x₁⟩, l₁, k₁, hx₁, h₁, rfl⟩ := Proc.returns_bind_iff.1 h
    obtain ⟨henact, rfl⟩ := Proc.returns_onFst_iff.1 hx₁
    obtain ⟨_, ⟨d₂, x₂⟩, l₂, k₂, hdeliver, hx₂, rfl⟩ := Proc.returns_bind_iff.1 h₁
    obtain ⟨hcomplete, rfl⟩ := Proc.returns_onFst_iff.1 hx₂
    obtain ⟨rfl, rfl⟩ := Proc.returns_modify_iff.1 hcomplete
    exact .inr ⟨boundary, p, d₁, d₂, l₁, l₂, rfl, hp, henact, hdeliver, rfl, by simp⟩

theorem process_frame {deliver : Completion → Sim χ Unit} {x x' : χ}
    (h : (process backend now epoch deliver).Returns (d, x) u (d', x') l) :
    (d.boundaries[now]? = none ∧ d' = d) ∨
      (now ∈ d.boundaries ∧ d'.frame = (complete now d).frame) := by
  obtain ⟨-, ⟨hnone, rfl, -⟩ | ⟨boundary, p, d₁, d₂, l₁, l₂, hb, -, henact, hdeliver, rfl, -⟩⟩ :=
    process_returns h
  · exact .inl ⟨hnone, rfl⟩
  · have hframe : d₂.frame = d.frame :=
      (keeps_deliverAll.returns hdeliver).trans (keeps_enact.returns henact)
    simp only [frame, Prod.mk.injEq] at hframe
    refine .inr ⟨ExtTreeMap.mem_iff_isSome_getElem?.2 (by simp [hb]), ?_⟩
    simp [frame, complete, hframe]

end Process
end ControlElectronics
end Qsbit

import Qsbit.Device.Boundary
import Qsbit.Device.Stream
import Qsbit.Records
import Qsbit.Sync.Run

/-!
# Atomic acceptance and processing

A batch is prepared before it is registered, and a boundary is planned before the
backend is changed. Both are checked again in the second part: the reservations
and the pending readouts, and what the backend and the maps of the device require
of each call. None of these later checks can fail, the former because the batch
has just been prepared, the latter by what holds in every timely run.

## Main definitions

* `Registered` — what the acceptance of a batch adds to the device.
* `FromOutside` — a fault of the backend as it executes a batch, or of a delivery.
* `BackendExecution.Awaits`, `Aligned` — backend and device agree on the epoch and the time.
* `device_atomic` — acceptance and processing change all or nothing.
-/
namespace Qsbit
open Std (ExtTreeMap)
open ControlElectronics

variable {β χ : Type}

/-! ## Acceptance -/

namespace Readouts
variable {r : Readouts} {actions rest : List ScheduledEvent} {epoch : ℕ} {readouts : List Readout}

theorem count_readouts_le {m : ℕ} :
    ((rest.filterMap (readoutOf actions)).map (·.reference.measurement)).count m ≤
      rest.countP (acquires m) := by
  induction rest with
  | nil => simp
  | cons a rest ih =>
    rw [List.countP_cons]
    cases hof : readoutOf actions a with
    | none =>
      rw [List.filterMap_cons_none hof]
      omega
    | some readout =>
      obtain ⟨hkind, href, -⟩ := readoutOf_spec hof
      rw [List.filterMap_cons_some hof, List.map_cons, List.count_cons]
      by_cases hm : readout.reference.measurement = m
      · have hacquires : acquires m a = true := by simp [acquires, hkind, href, hm]
        simp only [hm, hacquires, beq_self_eq_true, if_true]
        omega
      · have hne : (readout.reference.measurement == m) = false := by simpa using hm
        simp only [hne, Bool.false_eq_true, if_false]
        omega

/-- A batch is prepared only for measurements that are different and not pending. -/
theorem Prepared.distinct (h : Prepared r actions epoch readouts) :
    (readouts.map (·.reference.measurement)).Nodup ∧
      ∀ x ∈ readouts, x.reference.measurement ∉ r.pending := by
  have hpaired : ∀ x ∈ readouts, ∃ value, Paired r actions value x.reference := by
    intro x hx
    rw [h.readouts] at hx
    obtain ⟨a, ha, hof⟩ := List.mem_filterMap.1 hx
    obtain ⟨hkind, href, -⟩ := readoutOf_spec hof
    cases hspec : a.event.action.spec with
    | acquire value => exact ⟨value, h.paired a ha value x.reference hspec href⟩
    | gate | pulse | discriminatorArm | gateOutput => simp [EventSpec.kind, hspec] at hkind
  constructor
  · rw [List.nodup_iff_count_le_one]
    intro m
    by_cases hm : m ∈ readouts.map (·.reference.measurement)
    · obtain ⟨x, hx, rfl⟩ := List.mem_map.1 hm
      obtain ⟨value, hone⟩ := hpaired x hx
      rw [h.readouts, ← hone.acquired]
      exact count_readouts_le
    · rw [List.count_eq_zero.2 hm]
      omega
  · intro x hx
    obtain ⟨value, hone⟩ := hpaired x hx
    exact hone.fresh

theorem returns_insertAll (hnodup : (readouts.map (·.reference.measurement)).Nodup)
    (hfresh : ∀ x ∈ readouts, x.reference.measurement ∉ r.pending) :
    ∃ r', (insertAll readouts).Returns r () r' [] := by
  induction readouts generalizing r with
  | nil => exact ⟨r, rfl⟩
  | cons x rest ih =>
    simp only [List.map_cons, List.nodup_cons] at hnodup
    have hlater : ∀ y ∈ rest, y.reference.measurement ∉
        r.pending.insert x.reference.measurement x := by
      intro y hy hmem
      rcases ExtTreeMap.mem_insert.1 hmem with heq | hmem
      · exact hnodup.1 (List.mem_map.2 ⟨y, hy, (Nat.compare_eq_eq.1 heq).symm⟩)
      · exact hfresh y (List.mem_cons_of_mem _ hy) hmem
    obtain ⟨r', hrest⟩ := ih (r := { pending := r.pending.insert x.reference.measurement x })
      hnodup.2 hlater
    refine ⟨r', Proc.returns_bind_iff.2 ⟨(), _, [], [], ?_, hrest, rfl⟩⟩
    simp only [insert, Proc.returns_get_bind_iff, Proc.returns_lift_bind_iff, require_eq_ok_iff,
      exists_const, Proc.returns_set_iff, and_true]
    exact hfresh x List.mem_cons_self

end Readouts

section Accept
variable {backend : QuantumBackend β} {d d' : ControlElectronics β} {batch : TriggeredEvents}
  {actions : List ScheduledEvent} {readouts : List Readout} {l : List TraceEvent} {f : Fault}

/-- A batch that has been prepared is accepted. -/
theorem accept_of_prepare (h : d.prepare backend batch = .ok (actions, readouts)) :
    ∃ d', (accept backend batch).Returns d () d' (actions.map (codewordTriggered batch)) := by
  have hparts := h
  simp only [prepare, Except.bind_eq_ok_iff, require_eq_ok_iff, exists_const,
    Except.pure_eq_ok_iff, Prod.mk.injEq] at hparts
  obtain ⟨actions', -, _, hchecked, readouts', hprepared, -, rfl, rfl⟩ := hparts
  obtain ⟨hnodup, hfresh⟩ := (Readouts.prepare_spec hprepared).distinct
  obtain ⟨r', hinsert⟩ := Readouts.returns_insertAll hnodup hfresh
  refine ⟨_, Proc.returns_get_bind_iff.2 <| Proc.returns_lift_bind_iff.2 ⟨_, h,
    Proc.returns_lift_bind_iff.2 ⟨d.reservations ++ actions', ?_, Proc.returns_modify_bind_iff.2 <|
      Proc.returns_bind_iff.2 ⟨(), _, [], _, Proc.returns_zoom_iff.2 ⟨r', hinsert, rfl⟩,
        Proc.returns_modify_bind_iff.2 <| returns_scheduleAll_iff.2 ⟨rfl, rfl⟩, rfl⟩⟩⟩⟩
  simp only [ResourceReservations.reserve, Except.bind_eq_ok_iff, Except.pure_eq_ok_iff, and_true]
  exact ⟨(), hchecked⟩

/-- Acceptance faults only as the batch is prepared. -/
theorem accept_raises (h : (accept backend batch).Raises d f d' l) :
    d.prepare backend batch = .error f ∧ d' = d ∧ l = [] := by
  cases hprepare : d.prepare backend batch with
  | ok prepared =>
    obtain ⟨d₁, hd₁⟩ := accept_of_prepare hprepare
    exact absurd h hd₁.not_raises
  | error f' =>
    rw [accept, Proc.raises_get_bind_iff] at h
    rcases Proc.raises_lift_bind_iff.1 h with ⟨hf, rfl, rfl⟩ | ⟨_, hok, -⟩
    · rw [hprepare] at hf
      exact ⟨hf, rfl, rfl⟩
    · simp [hprepare] at hok

/-- Every action of a batch is reserved and scheduled, and its readouts are pending. -/
structure Registered (actions : List ScheduledEvent) (readouts : List Readout)
    (d d' : ControlElectronics β) : Prop where
  reservations : d'.reservations = d.reservations ++ actions
  boundary : ∀ t, boundaryAt d'.boundaries t =
    { starts := (boundaryAt d.boundaries t).starts ++ actions.filter (·.start = t)
      ends := (boundaryAt d.boundaries t).ends ++ (actions.filter (·.end = t)).map (·.event.id)
      ready := (boundaryAt d.boundaries t).ready ++
        (readouts.filter (·.ready = t)).map (·.reference.measurement) }
  pending : ∀ (m : ℕ) (r : Readout), d'.readouts.pending[m]? = some r ↔
    (r ∈ readouts ∧ r.reference.measurement = m) ∨ d.readouts.pending[m]? = some r
  rest : ∃ reservations boundaries readouts, d' = { d with reservations, boundaries, readouts }

theorem ControlElectronics.Accepted.registered (h : Accepted backend batch actions readouts d d') :
    Registered actions readouts d d' := by
  rw [h.device]
  refine ⟨rfl, ?_, ?_, ⟨_, _, _, rfl⟩⟩
  · intro t
    change boundaryAt (actions.foldl scheduleAction _) t = _
    rw [boundaryAt_scheduleActions, boundaryAt_scheduleReadouts]
  · intro m r
    exact getElem?_insertAll h.inserted.1 h.inserted.2

end Accept

/-! ## Bookings -/

section Book
variable {u u' : SyncUnit} {n n' : SyncNetwork} {s target now : ℕ} {targets : List ℕ}
  {l : List TraceEvent}

instance : Std.LawfulEqCmp SyncNetwork.order where
  eq_of_compare := SyncNetwork.order_eq_iff.1

/-- The checks on a signal pass again, and leave the network as they have found it. -/
theorem SyncNetwork.preflight_again (h : (preflight s target now).Returns n () n' l) :
    (preflight s target now).Returns n' () n' [] ∧
      ∃ d arrival, n'.delay s target = .ok d ∧ checkedAdd now d = .ok arrival := by
  have hsame := (SyncNetwork.preflight_returns h).1
  simp only [preflight, Proc.returns_get_bind_iff, Proc.returns_lift_bind_iff, require_eq_ok_iff,
    exists_const, Proc.returns_set_bind_iff, Proc.returns_pure_iff] at h
  obtain ⟨d, hd, hedge, hroom, d', hd', arrival, harrival, -, hn', -⟩ := h
  have hagain : n'.modifyLink s target (Link.prune now) = n' := by
    rw [← hn', modifyLink, modifyLink]
    congr 1
    apply ExtTreeMap.ext_getElem?
    intro key
    simp only [ExtTreeMap.getElem?_modify]
    split
    · rw [if_pos Std.ReflCmp.compare_self, Option.map_map]
      congr 1
      funext link
      simp [Link.prune]
    · rfl
  rw [hn'] at hroom hd'
  refine ⟨?_, d', arrival, hd', harrival⟩
  simp only [preflight, Proc.returns_get_bind_iff, Proc.returns_lift_bind_iff, require_eq_ok_iff,
    exists_const, Proc.returns_set_bind_iff, Proc.returns_pure_iff, hagain]
  refine ⟨d, (hsame.delay s target).trans hd, ?_, hroom, d', hd', arrival, harrival, by simp⟩
  rw [hsame.clock]
  exact hedge

theorem SyncNetwork.send_of_preflight (h : (preflight s target now).Returns n () n' l) :
    ∃ n'', (send s target now).Returns n' () n'' [] := by
  obtain ⟨hagain, d, arrival, hd, harrival⟩ := preflight_again h
  exact ⟨_, Proc.returns_bind_iff.2 ⟨(), n', [], [], hagain, Proc.returns_get_bind_iff.2 <|
    Proc.returns_lift_bind_iff.2 ⟨d, hd, Proc.returns_lift_bind_iff.2 ⟨arrival, harrival, rfl⟩⟩,
    rfl⟩⟩

/-- A booking that has passed its checks is made. -/
theorem SyncUnit.book_of_preflight (h : (preflight targets now).Returns (u, n) () (u', n') l)
    (epoch : ℕ) : ∃ s l', (book targets now epoch).Returns (u', n') () s l' := by
  have hparts := h
  simp only [preflight, Proc.returns_get_bind_iff, Proc.returns_lift_bind_iff, require_eq_ok_iff,
    exists_const, Proc.returns_onSnd_iff] at hparts
  obtain ⟨⟨hlength, hfree⟩, hall, rfl⟩ := hparts
  match targets with
  | [] =>
    obtain ⟨-, rfl, -⟩ := Proc.returns_pure_iff.1 hall
    exact ⟨_, _, Proc.returns_bind_iff.2 ⟨(), _, _, _, h, rfl, rfl⟩⟩
  | target :: [] =>
    obtain ⟨_, n₁, _, _, hfirst, hrest, -⟩ := Proc.returns_bind_iff.1 hall
    obtain ⟨-, rfl, -⟩ := Proc.returns_pure_iff.1 hrest
    obtain ⟨hagain, d, arrival, hd, harrival⟩ := SyncNetwork.preflight_again hfirst
    obtain ⟨n₂, hsend⟩ := SyncNetwork.send_of_preflight hfirst
    have hpreflight : (preflight [target] now).Returns (u, n₁) () (u, n₁) [] := by
      simp only [preflight, Proc.returns_get_bind_iff, Proc.returns_lift_bind_iff,
        require_eq_ok_iff, exists_const, Proc.returns_onSnd_iff, and_true]
      exact ⟨⟨hlength, hfree⟩, Proc.returns_bind_iff.2 ⟨(), n₁, [], [], hagain, rfl, rfl⟩⟩
    exact ⟨_, _, Proc.returns_bind_iff.2 ⟨(), _, _, _, hpreflight, Proc.returns_get_bind_iff.2 <|
      Proc.returns_lift_bind_iff.2 ⟨d, hd, Proc.returns_lift_bind_iff.2 ⟨arrival, harrival,
        Proc.returns_bind_iff.2 ⟨(), (u, n₂), [], _, Proc.returns_onSnd_iff.2 ⟨hsend, rfl⟩, rfl,
          rfl⟩⟩⟩, rfl⟩⟩
  | _ :: _ :: _ => simp at hlength

end Book

/-! ## The backend -/

/-- The references that a batch measures. -/
def measuredIn (batch : List BackendOperation) : List MeasurementReference :=
  batch.flatMap fun
    | .measurement _ references => references
    | _ => []

/-- A fault of the backend, which fails on a batch or does not return a bit for each reference that
the batch measures, or a fault of a delivery. -/
inductive FromOutside (backend : QuantumBackend β) (deliver : Completion → Sim χ Unit) : Fault → Prop
  | execute {epoch : ℕ} {batch : List BackendOperation} {b b' : β} {error : Fault}
      (h : (backend.execute epoch batch).Raises b error b' []) :
      FromOutside backend deliver (BackendExecution.batchFault epoch batch error)
  | count {epoch : ℕ} {batch : List BackendOperation} {b b' : β} {bits : List Bool}
      (h : (backend.execute epoch batch).Returns b bits b' [])
      (count : bits.length ≠ (measuredIn batch).length) :
      FromOutside backend deliver (BackendExecution.batchFault epoch batch
        ⟨.backendFailure, "backend returned wrong measurement count"⟩)
  | deliver {c : Completion} {x x' : χ} {f : Fault} {l : List TraceEvent}
      (h : (deliver c).Raises x f x' l) : FromOutside backend deliver f

namespace BackendExecution

/-- The operations up to a tick of an epoch have been committed, and those that have not been handed
over measure nothing. -/
structure Awaits (epoch now : ℕ) (x : BackendExecution β) : Prop where
  epoch : x.epoch = epoch
  tick : x.committedTick = now
  unmeasured : measuredIn x.pending = []

section Awaits
variable {backend : QuantumBackend β} {deliver : Completion → Sim χ Unit} {epoch now prev : ℕ}
  {x y : BackendExecution β} {l : List TraceEvent}

theorem execute_fromOutside {expected : ℕ} (h : (measuredIn x.pending).length = expected) :
    (execute backend expected).FaultsIn (FromOutside backend deliver) x := by
  refine .get_bind ?_
  split
  · exact .pure _
  · intro f s l hraises
    rw [Proc.raises_handle_iff] at hraises
    obtain ⟨error, x₁, _, _, hexecute, hhandler, -⟩ := hraises
    simp only [clear, Proc.raises_modify_bind_iff, Proc.raises_check_iff, Except.error.injEq]
      at hhandler
    rw [← hhandler.1]
    rcases Proc.raises_bind_iff.1 hexecute with hfail | ⟨bits, x₂, _, _, hbits, hrest, -⟩
    · obtain ⟨b, hb, -⟩ := Proc.raises_zoom_iff.1 hfail
      exact .execute (Proc.raises_silent_iff.1 hb).1
    · obtain ⟨b, hb, -⟩ := Proc.returns_zoom_iff.1 hbits
      rcases Proc.raises_lift_bind_iff.1 hrest with ⟨hcount, -⟩ | ⟨_, -, hrest⟩
      · obtain ⟨hne, rfl⟩ := require_eq_error_iff.1 hcount
        exact .count (Proc.returns_silent_iff.1 hb).1 (h ▸ hne)
      · simp [clear] at hrest

theorem Awaits.execute {bits : List Bool} {expected : ℕ}
    (h : (execute backend expected).Returns x bits y l) (hepoch : x.epoch = epoch)
    (htick : x.committedTick = now) : Awaits epoch now y := by
  rcases execute_returns h with ⟨hpending, -, rfl⟩ | ⟨-, -, b, -, rfl⟩
  · exact ⟨hepoch, htick, by rw [hpending]; rfl⟩
  · exact ⟨hepoch, htick, rfl⟩

theorem Awaits.commit_faultsIn {operation : BackendOperation} (h : Awaits epoch prev x)
    (hle : prev ≤ operation.tick) (hunmeasured : measuredIn [operation] = []) :
    (commit backend operation).FaultsIn (FromOutside backend deliver) x := by
  refine .get_bind <| .lift_bind (require_faultsIn (by rw [h.tick]; exact hle)) fun _ _ =>
    .modify_bind <| .get_bind ?_
  split
  · refine .bind (execute_fromOutside ?_) fun _ _ _ _ => .pure _
    change (measuredIn (x.pending ++ [operation])).length = 0
    rw [measuredIn, List.flatMap_append, List.length_append]
    exact congrArg₂ (·.length + ·.length) h.unmeasured hunmeasured
  · exact .pure _

theorem Awaits.commit {operation : BackendOperation} (h : Awaits epoch prev x)
    (hunmeasured : measuredIn [operation] = [])
    (hr : (commit backend operation).Returns x () y l) : Awaits epoch operation.tick y := by
  simp only [BackendExecution.commit, Proc.returns_get_bind_iff, Proc.returns_lift_bind_iff,
    require_eq_ok_iff, exists_const, Proc.returns_modify_bind_iff] at hr
  obtain ⟨-, hr⟩ := hr
  split at hr
  · obtain ⟨bits, y', _, _, hexecute, hpure, -⟩ := Proc.returns_bind_iff.1 hr
    obtain ⟨-, rfl, -⟩ := Proc.returns_pure_iff.1 hpure
    exact .execute hexecute h.epoch rfl
  · obtain ⟨-, rfl, -⟩ := Proc.returns_pure_iff.1 hr
    refine ⟨h.epoch, rfl, ?_⟩
    change measuredIn (x.pending ++ [operation]) = []
    rw [measuredIn, List.flatMap_append]
    exact congrArg₂ (· ++ ·) h.unmeasured hunmeasured

variable (deliver) in
/-- The time up to the boundary is handed to the backend. -/
theorem Awaits.evolve {drives acquisitions : List BackendActivity} (h : Awaits epoch prev x)
    (hlt : prev < now) :
    (evolve backend prev now drives acquisitions).FaultsIn (FromOutside backend deliver) x ∧
      ∀ y l, (evolve backend prev now drives acquisitions).Returns x () y l → Awaits epoch now y := by
  constructor
  · refine .get_bind <| .lift_bind (require_faultsIn ⟨h.tick.symm, hlt.le⟩) fun _ _ => ?_
    rw [if_pos hlt]
    exact h.commit_faultsIn hlt.le rfl
  · intro y l hr
    have hcommit := evolve_returns hr
    rw [if_pos hlt] at hcommit
    obtain ⟨_, hcommit⟩ := hcommit
    exact h.commit rfl hcommit

variable (backend deliver) in
theorem Awaits.measure {references : List MeasurementReference} (h : Awaits epoch now x)
    (hepoch : ∀ r ∈ references, r.epoch = epoch) (hnodup : (references.map (·.target)).Nodup) :
    (measure backend now references).FaultsIn (FromOutside backend deliver) x ∧
      ∀ bits y l, (measure backend now references).Returns x bits y l → Awaits epoch now y := by
  by_cases hnone : references = []
  · refine ⟨.get_bind ?_, fun bits y l hr => ?_⟩
    · rw [if_pos hnone]
      exact .pure _
    · rw [BackendExecution.measure, Proc.returns_get_bind_iff, if_pos hnone] at hr
      obtain ⟨-, rfl, -⟩ := Proc.returns_pure_iff.1 hr
      exact h
  · refine ⟨.get_bind ?_, fun bits y l hr => ?_⟩
    · rw [if_neg hnone]
      refine .lift_bind (require_faultsIn h.tick.le) fun _ _ =>
        .lift_bind (require_faultsIn ⟨?_, hnodup⟩) fun _ _ => .modify_bind <| execute_fromOutside ?_
      · rw [h.epoch]
        exact hepoch
      · change (measuredIn (x.pending ++ [.measurement now references])).length = references.length
        rw [measuredIn, List.flatMap_append, show x.pending.flatMap _ = [] from h.unmeasured]
        simp
    · simp only [BackendExecution.measure, Proc.returns_get_bind_iff, if_neg hnone,
        Proc.returns_lift_bind_iff, Proc.returns_modify_bind_iff] at hr
      obtain ⟨_, -, _, -, hexecute⟩ := hr
      exact .execute hexecute h.epoch rfl

theorem Awaits.apply {gates : List EventSpec} (h : Awaits epoch now x)
    (hvalid : ∀ gate ∈ gates, backend.validate gate = .ok ()) :
    (apply backend now gates).FaultsIn (FromOutside backend deliver) x ∧
      ∀ y l, (apply backend now gates).Returns x () y l → Awaits epoch now y := by
  constructor
  · refine .lift_bind (.of_ok (a := ()) (validateAll_eq_ok_iff.2 hvalid)) fun _ _ => ?_
    split
    · exact .pure _
    · exact h.commit_faultsIn le_rfl rfl
  · intro y l hr
    have hcommit := apply_returns hr
    by_cases hnone : gates = []
    · rw [if_pos hnone] at hcommit
      rw [hcommit]
      exact h
    · rw [if_neg hnone] at hcommit
      obtain ⟨_, hcommit⟩ := hcommit
      exact h.commit rfl hcommit

theorem awaits_reset {qubits seed : ℕ} (h : (reset backend qubits seed epoch now).Returns x () y l) :
    Awaits epoch now y := by
  simp only [reset, Proc.returns_modify_bind_iff] at h
  obtain ⟨b, -, rfl⟩ := Proc.returns_zoom_iff.1 h
  exact ⟨rfl, rfl, rfl⟩

end Awaits
end BackendExecution

/-! ## Processing -/

/-- Device and backend agree on the epoch and the time. The references of the accepted acquisitions
are of the epoch of their events, and of the epoch of the run for those that have started. -/
structure Aligned (epoch : ℕ) (history : DeviceHistory) (d : ControlElectronics β) : Prop where
  awaits : d.backend.Awaits epoch d.lastTick
  reference : ∀ a ∈ history.accepted, a.event.action.kind = .acquire →
    ∀ r ∈ a.event.reference, r.epoch = a.event.epoch
  started : ∀ a ∈ history.accepted, d.Past a.start → a.event.epoch = epoch

section Process
variable {backend : QuantumBackend β} {deliver : Completion → Sim χ Unit} {epoch origin now : ℕ}
  {history : DeviceHistory} {d d' : ControlElectronics β} {bit : ℕ → MeasurementReference → Bool}
  {boundary : Boundary} {p : Plan}

theorem Aligned.start (h : Begins backend epoch origin d) : Aligned epoch {} d := by
  refine ⟨?_, by simp [DeviceHistory.accepted], by simp [DeviceHistory.accepted]⟩
  rw [h.empty.2.2.2.2.1]
  cases h with
  | @make profile state limit _ h =>
    simp only [ControlElectronics.make, BackendExecution.make, Except.bind_eq_ok_iff,
      require_eq_ok_iff, exists_const, Except.pure_eq_ok_iff] at h
    obtain ⟨x, ⟨-, rfl⟩, _, -, rfl⟩ := h
    exact ⟨rfl, rfl, rfl⟩
  | reset built h =>
    simp only [ControlElectronics.reset, Proc.returns_get_bind_iff] at h
    obtain ⟨_, d₁, _, _, hemit, h₁, -⟩ := Proc.returns_bind_iff.1 h
    obtain ⟨rfl, -⟩ := Proc.returns_emitAll_iff.1 hemit
    rw [Proc.returns_modify_bind_iff] at h₁
    obtain ⟨_, d₂, _, _, hreset, h₂, -⟩ := Proc.returns_bind_iff.1 h₁
    obtain ⟨b, hb, rfl⟩ := returns_onExecution_iff.1 hreset
    obtain ⟨rfl, -⟩ := Proc.returns_modify_iff.1 h₂
    exact BackendExecution.awaits_reset hb

theorem Aligned.accept (h : Aligned epoch history d) {batch : TriggeredEvents}
    {actions : List ScheduledEvent} {readouts : List Readout} {l : List TraceEvent}
    (haccepted : Accepted backend batch actions readouts d d') :
    Aligned epoch
      { history with
        fired := history.fired ++ [batch], batches := history.batches ++ [actions]
        log := history.log ++ l } d' := by
  rw [haccepted.device]
  refine ⟨h.awaits, ?_, ?_⟩
  · rw [accepted_append]
    intro a ha hkind r hr
    rcases List.mem_append.1 ha with ha | ha
    · exact h.reference a ha hkind r hr
    · obtain ⟨r', hr', hepoch, -⟩ := (Readouts.prepare_spec haccepted.prepared).members.reference a ha
        (by simp [isReadout, hkind])
      obtain rfl := Option.some.inj (hr.symm.trans hr')
      obtain ⟨event, -, hevent⟩ := resolveAll_mem haccepted.resolved ha
      obtain ⟨rfl, hbatch, -⟩ := resolveEvent_spec hevent
      exact hepoch.trans hbatch.symm
  · rw [accepted_append]
    intro a ha hpast
    rcases List.mem_append.1 ha with ha | ha
    · exact h.started a ha hpast
    · obtain ⟨processed, hprocessed, hle⟩ := hpast
      have hafter := haccepted.after processed hprocessed
      have hstart := (resolve_spec haccepted.resolved a ha).2
      omega

/-- The references that are sampled at the next boundary are of the epoch of the run. -/
theorem Aligned.samples (h : Aligned epoch history d) (tracks : Tracks epoch history d bit)
    (hnext : d.nextBoundary = some now) (hb : d.boundaries[now]? = some boundary)
    (hp : d.plan backend boundary now epoch = .ok p) : ∀ r ∈ p.samples, r.epoch = epoch := by
  intro r hr
  rw [tracks.samples_of_plan hnext hb hp] at hr
  obtain ⟨readout, hreadout, rfl⟩ := List.mem_map.1 hr
  obtain ⟨hmem, hend⟩ := List.mem_filter.1 hreadout
  obtain ⟨a, ha, hkind, href, haend⟩ := acquisition_of_mem_readouts hmem
  rw [h.reference a ha hkind _ href]
  have hnow : a.end = now := haend.trans (by simpa using hend)
  obtain ⟨-, -, hpast, -⟩ := (tracks.active _ _).1
    (tracks.active_of_end hnext (List.mem_filter.2 ⟨ha, by simpa using hnow⟩))
  exact h.started a ha hpast

variable (deliver) in
/-- Nothing that the boundary asks of the backend is refused. -/
theorem Aligned.backend_faultsIn (h : Aligned epoch history d) (tracks : Tracks epoch history d bit)
    (hnext : d.nextBoundary = some now) (hle : d.lastTick ≤ now)
    (hb : d.boundaries[now]? = some boundary) (hp : d.plan backend boundary now epoch = .ok p) :
    (d.lastTick < now →
      (BackendExecution.evolve backend d.lastTick now p.drives p.acquisitions).FaultsIn
        (FromOutside backend deliver) d.backend) ∧
    ∀ x, (if d.lastTick < now then
        (BackendExecution.evolve backend d.lastTick now p.drives p.acquisitions).Returns
          d.backend () x [] else x = d.backend) → x.Awaits epoch now ∧
      (BackendExecution.measure backend now p.samples).FaultsIn (FromOutside backend deliver) x ∧
      ∀ bits y l, (BackendExecution.measure backend now p.samples).Returns x bits y l →
        (BackendExecution.apply backend now p.gates).FaultsIn (FromOutside backend deliver) y ∧
          ∀ z l, (BackendExecution.apply backend now p.gates).Returns y () z l →
            z.Awaits epoch now := by
  have hplanned := plan_spec hp
  refine ⟨fun hlt => (h.awaits.evolve deliver hlt).1, fun x hx => ?_⟩
  have hawaits : x.Awaits epoch now := by
    by_cases hlt : d.lastTick < now
    · rw [if_pos hlt] at hx
      exact (h.awaits.evolve deliver hlt).2 x [] hx
    · rw [if_neg hlt] at hx
      rw [hx, ← show d.lastTick = now by omega]
      exact h.awaits
  obtain ⟨hfaults, hmeasured⟩ := hawaits.measure backend deliver
    (h.samples tracks hnext hb hp) hplanned.targets
  refine ⟨hawaits, hfaults, fun bits y l hy => ?_⟩
  exact (hmeasured bits y l hy).apply hplanned.valid

theorem Aligned.process (h : Aligned epoch history d) (tracks : Tracks epoch history d bit)
    (hnext : d.nextBoundary = some now) {cs : List Completion} {l : List TraceEvent}
    {delivered : List (ℕ × Completion)}
    (hr : (ControlElectronics.process backend now epoch recordDelivery).Returns (d, []) () (d', cs)
      l) : Aligned epoch { history with delivered, log := history.log ++ l } d' := by
  obtain ⟨⟨hle, -⟩, ⟨hnone, -⟩ | ⟨boundary, p, d₁, d₂, l₁, l₂, hb, hp, henact, hdeliver, rfl, -⟩⟩ :=
    process_returns hr
  · exact absurd (mem_of_nextBoundary hnext).1 (by simp [ExtTreeMap.mem_iff_isSome_getElem?, hnone])
  · have hsamples := tracks.samples_of_plan hnext hb hp
    have hnodup := tracks.nodup_samples hnext
    rw [← hsamples] at hnodup
    obtain ⟨bits, he⟩ := enact_returns henact hnodup
    have hbackend : d₂.backend = d₁.backend := keepsBackend_deliverAll.returns hdeliver
    refine ⟨?_, h.reference, ?_⟩
    · change d₂.backend.Awaits epoch now
      rw [hbackend]
      obtain ⟨-, hcalls⟩ :=
        h.backend_faultsIn recordDelivery tracks hnext hle hb hp
      have hexecuted := he.executed
      cases hexecuted with
      | intro hevolve hmeasure happly =>
        obtain ⟨-, -, hmeasured⟩ := hcalls _ hevolve
        exact (hmeasured _ _ _ hmeasure).2 _ _ happly
    · intro a ha hpast
      rcases (tracks.le_next_iff hnext (.inl ⟨a, ha, .inl rfl⟩)).1 (past_complete.1 hpast)
        with hp' | hnow
      · exact h.started a ha hp'
      · refine ((plan_spec hp).starts a ?_).epoch
        rw [tracks.boundary_next hnext hb]
        exact List.mem_filter.2 ⟨ha, by simpa using hnow⟩

theorem DeviceRun.aligned (run : DeviceRun backend epoch origin Timely history d) :
    Aligned epoch history d := by
  induction run with
  | start h => exact .start h
  | accept run obeys h resolved fresh ih =>
    obtain ⟨actions, readouts, haccepted, rfl⟩ := accept_returns h
    obtain rfl : actions = _ := Except.ok.inj (haccepted.resolved.symm.trans resolved)
    exact ih.accept haccepted
  | process run obeys h ih =>
    obtain ⟨bit, tracks⟩ := run.tracks
    exact ih.process tracks obeys h

theorem sampleAll_pending {P : Fault → Prop} {pairs : List (MeasurementReference × Bool)}
    (h : ∀ s ∈ pairs, s.1.measurement ∈ d.readouts.pending) :
    (sampleAll now epoch pairs).FaultsIn P d := by
  induction pairs generalizing d with
  | nil => exact .pure _
  | cons s rest ih =>
    obtain ⟨reference, value⟩ := s
    have hat : ∀ m ∈ d.readouts.pending, ∃ r, d.readouts.at m = .ok r := by
      intro m hm
      obtain ⟨r, hr⟩ := Option.isSome_iff_exists.1 (ExtTreeMap.mem_iff_isSome_getElem?.1 hm)
      exact ⟨r, Readouts.at_eq_ok_iff.2 hr⟩
    obtain ⟨r, hr⟩ := hat _ (h _ List.mem_cons_self)
    refine .bind (.zoom (.get_bind <| .lift_bind (.of_ok hr) fun _ _ => .set _)) fun _ d₁ _ h₁ => ?_
    obtain ⟨r₁, hr₁, rfl⟩ := Proc.returns_zoom_iff.1 h₁
    simp only [Readouts.sample, Proc.returns_get_bind_iff, Proc.returns_lift_bind_iff,
      Proc.returns_set_iff] at hr₁
    obtain ⟨readout, -, rfl, -⟩ := hr₁
    have hat' : Readouts.at { d.readouts with
        pending := d.readouts.pending.insert reference.measurement
          { readout with sample := some value } } reference.measurement =
        .ok { readout with sample := some value } :=
      Readouts.at_eq_ok_iff.2 ExtTreeMap.getElem?_insert_self
    refine .get_bind <| .lift_bind (.of_ok hat') fun _ _ => .bind (.emit _) fun _ d₂ _ h₂ => ?_
    obtain ⟨rfl, -⟩ := Proc.returns_emit_iff.1 h₂
    exact ih fun s hs => ExtTreeMap.mem_insert.2 (.inr (h s (List.mem_cons_of_mem _ hs)))

theorem endAll_active {P : Fault → Prop} {ids : List ℕ} (hnodup : ids.Nodup)
    (h : ∀ id ∈ ids, id ∈ d.active) : (endAll now epoch ids).FaultsIn P d := by
  induction ids generalizing d with
  | nil => exact .pure _
  | cons id rest ih =>
    obtain ⟨hid, hrest⟩ := List.nodup_cons.1 hnodup
    obtain ⟨a, ha⟩ := Option.isSome_iff_exists.1
      (ExtTreeMap.mem_iff_isSome_getElem?.1 (h id List.mem_cons_self))
    apply Proc.FaultsIn.get_bind
    simp only [ha]
    refine .bind (.emit _) fun _ d₁ _ h₁ => .set_bind (ih hrest ?_)
    obtain ⟨rfl, -⟩ := Proc.returns_emit_iff.1 h₁
    intro j hj
    refine ExtTreeMap.mem_erase.2 ⟨?_, h j (List.mem_cons_of_mem _ hj)⟩
    have hne : id ≠ j := by
      rintro rfl
      exact hid hj
    simpa using hne

theorem gatesApplied_known {P : Fault → Prop} {outputs : List (String × List ScheduledEvent)}
    (h : ∀ output ∈ outputs, ∃ g, d.profile.gate output.1 = .ok g) :
    (gatesApplied now epoch outputs).FaultsIn P d := by
  induction outputs with
  | nil => exact .pure _
  | cons output rest ih =>
    obtain ⟨⟨g, hg⟩, hrest⟩ := List.forall_mem_cons.1 h
    refine .get_bind <| .lift_bind (.of_ok hg) fun _ _ => .bind (.emit _) fun _ d₁ _ h₁ => ?_
    obtain ⟨rfl, -⟩ := Proc.returns_emit_iff.1 h₁
    exact ih hrest

/-- Once a boundary has been planned, what goes wrong comes from outside. -/
theorem Aligned.enact_faultsIn (h : Aligned epoch history d) (tracks : Tracks epoch history d bit)
    (hnext : d.nextBoundary = some now) (hle : d.lastTick ≤ now)
    (hb : d.boundaries[now]? = some boundary) (hp : d.plan backend boundary now epoch = .ok p) :
    (enact backend now epoch boundary p).FaultsIn (FromOutside backend deliver) d := by
  have hplanned := plan_spec hp
  obtain ⟨hevolve, hcalls⟩ := h.backend_faultsIn deliver tracks hnext hle hb hp
  refine tracks.enact_faultsIn hnext hb hevolve (fun x hx => ?_) (fun bits d' hd' => ?_)
    (fun d' hd' => ?_) fun d' hd' => ?_
  · obtain ⟨-, hfaults, hmeasured⟩ := hcalls x hx
    exact ⟨hfaults, fun bits y l hy => (hmeasured bits y l hy).1⟩
  · apply sampleAll_pending
    intro s hs
    rw [hd']
    have hmem : s.1 ∈ p.samples := (List.of_mem_zip hs).1
    rw [tracks.samples_of_plan hnext hb hp] at hmem
    obtain ⟨r, hr, heq⟩ := List.mem_map.1 hmem
    obtain ⟨hr, hend⟩ := List.mem_filter.1 hr
    have hpending := (tracks.pending r.reference.measurement (d.sampledAs bit r)).2
      ⟨r, hr, rfl, tracks.live_of_end hnext hr (by simpa using hend), rfl⟩
    rw [← heq, ExtTreeMap.mem_iff_isSome_getElem?, hpending]
    rfl
  · apply endAll_active
    · rw [tracks.boundary_next hnext hb]
      exact tracks.nodup.sublist (List.filter_sublist.map _)
    · rw [hd']
      exact (samplesOf_spec hplanned.samples).1
  · apply gatesApplied_known
    obtain ⟨paired, hpaired, -⟩ := hplanned.gates
    intro output houtput
    rw [hd']
    obtain ⟨g, hg, -⟩ := (resolveGateOutputs_spec hpaired).1 output houtput
    exact ⟨g, hg⟩

/-- Once a boundary has been planned, its fault comes from outside. -/
theorem Aligned.carry_faultsIn (h : Aligned epoch history d) (tracks : Tracks epoch history d bit)
    (hnext : d.nextBoundary = some now) (hle : d.lastTick ≤ now)
    (hb : d.boundaries[now]? = some boundary) (hp : d.plan backend boundary now epoch = .ok p)
    {x : χ} :
    (do Proc.onFst (enact backend now epoch boundary p)
        deliverAll now epoch deliver boundary.ready
        Proc.onFst (Proc.modify (complete now)) : Sim (ControlElectronics β × χ) Unit).FaultsIn
      (FromOutside backend deliver) (d, x) := by
  refine .bind (.zoom (h.enact_faultsIn tracks hnext hle hb hp)) ?_
  rintro _ ⟨d₁, x₁⟩ l hs₁
  obtain ⟨henact, rfl⟩ := Proc.returns_onFst_iff.1 hs₁
  obtain ⟨hnodup, hsampled⟩ := tracks.ready_sampled hnext hb hp henact
  exact .bind (deliverAll_faultsIn hnodup hsampled fun c x f x' l hraises => .deliver hraises)
    fun _ _ _ _ => .zoom (.modify _)

/-- A boundary faults before anything is changed, unless the fault comes from outside. -/
theorem Aligned.process_raises (h : Aligned epoch history d) (tracks : Tracks epoch history d bit)
    (hnext : d.nextBoundary = some now) {x x' : χ} {f : Fault} {l : List TraceEvent}
    (hr : (ControlElectronics.process backend now epoch deliver).Raises (d, x) f (d', x') l) :
    FromOutside backend deliver f ∨ (d' = d ∧ x' = x ∧ l = []) := by
  rw [ControlElectronics.process, Proc.raises_get_bind_iff] at hr
  rcases Proc.raises_lift_bind_iff.1 hr with ⟨-, heq, rfl⟩ | ⟨_, hnow, hr⟩
  · obtain ⟨rfl, rfl⟩ := Prod.mk.inj heq
    exact .inr ⟨rfl, rfl, rfl⟩
  obtain ⟨hle, -⟩ := require_eq_ok_iff.1 hnow
  cases hb : d.boundaries[now]? with
  | none =>
    simp only [hb] at hr
    exact absurd hr Proc.not_raises_pure
  | some boundary =>
    simp only [hb] at hr
    rcases Proc.raises_lift_bind_iff.1 hr with ⟨-, heq, rfl⟩ | ⟨p, hp, hr⟩
    · obtain ⟨rfl, rfl⟩ := Prod.mk.inj heq
      exact .inr ⟨rfl, rfl, rfl⟩
    exact .inl (h.carry_faultsIn tracks hnext hle hb hp _ _ _ hr)

end Process

/-- Acceptance and processing change all or nothing, on ticks that are not before the last record of
the trace. In every state of the device, a batch that is refused changes nothing, one that is accepted
is registered with all its actions and readouts, and one that has passed the preflight is accepted; a
booking that has passed its checks is made. In every timely run, the next boundary faults before the
backend and the device are changed, unless the backend fails on a batch or a delivery fails. -/
theorem device_atomic {backend : QuantumBackend β} (last : ℕ) :
    (∀ (d d' : ControlElectronics β) batch f l, last ≤ batch.fireTick →
      (accept backend batch).RaisesAfter last d f d' l → d' = d ∧ l = []) ∧
    (∀ (d d' : ControlElectronics β) batch l, last ≤ batch.fireTick →
      (accept backend batch).ReturnsAfter last d () d' l →
      ∃ actions readouts, d.prepare backend batch = .ok (actions, readouts) ∧
        Scheduled batch actions ∧ Registered actions readouts d d') ∧
    (∀ (d : ControlElectronics β) batch, last ≤ batch.fireTick → d.preflight backend batch = .ok () →
      ∃ d' l, (accept backend batch).ReturnsAfter last d () d' l) ∧
    (∀ u u' n n' targets now epoch l, last ≤ now →
      (SyncUnit.preflight targets now).ReturnsAfter last (u, n) () (u', n') l →
      ∃ s l', (SyncUnit.book targets now epoch).ReturnsAfter last (u', n') () s l') ∧
    ∀ (epoch origin : ℕ) history (d : ControlElectronics β),
      DeviceRun backend epoch origin Timely history d →
      ∀ (χ : Type) (deliver : Completion → Sim χ Unit) now, last ≤ now →
      (∀ c x, (deliver c).Logs (Log.At now) x) → d.nextBoundary = some now →
      ∀ f x d' x' l, (process backend now epoch deliver).RaisesAfter last (d, x) f (d', x') l →
        FromOutside backend deliver f ∨ (d' = d ∧ x' = x ∧ l = []) := by
  have haccept : ∀ (d : ControlElectronics β) (batch : TriggeredEvents),
      (accept backend batch).Logs (Log.At batch.fireTick) d :=
    fun d batch => accept_records.mono fun _ hr => hr.at
  refine ⟨?_, ?_, ?_, ?_, ?_⟩
  · intro d d' batch f l hlast h
    exact (accept_raises (((haccept d batch).raisesAfter_iff hlast).1 h)).2
  · intro d d' batch l hlast h
    obtain ⟨actions, readouts, haccepted, -⟩ :=
      accept_returns (((haccept d batch).returnsAfter_iff hlast).1 h)
    refine ⟨actions, readouts, ?_, haccepted.scheduled, haccepted.registered⟩
    simp only [prepare, Except.bind_eq_ok_iff, require_eq_ok_iff, exists_const,
      Except.pure_eq_ok_iff]
    exact ⟨actions, haccepted.resolved, (), haccepted.checked, readouts, haccepted.prepared,
      haccepted.after, rfl⟩
  · intro d batch hlast h
    simp only [preflight, Except.bind_eq_ok_iff] at h
    obtain ⟨⟨actions, readouts⟩, hprepare, -⟩ := h
    obtain ⟨d', hd'⟩ := accept_of_prepare hprepare
    exact ⟨d', _, ((haccept d batch).returnsAfter_iff hlast).2 hd'⟩
  · intro u u' n n' targets now epoch l hlast h
    have hpreflight : (SyncUnit.preflight targets now).Logs (Log.At now) (u, n) :=
      .of_quiet SyncUnit.quiet_preflight
    obtain ⟨s, l', hbooked⟩ :=
      SyncUnit.book_of_preflight ((hpreflight.returnsAfter_iff hlast).1 h) epoch
    exact ⟨s, l', ((SyncUnit.book_records.mono fun _ hr => hr.at).returnsAfter_iff hlast).2 hbooked⟩
  · intro epoch origin history d run χ deliver now hlast hdeliver hnext f x d' x' l h
    obtain ⟨bit, tracks⟩ := run.tracks
    have hlogs : (process backend now epoch deliver).Logs (Log.At now) (d, x) :=
      process_logs (fun _ hr => hr.at) hdeliver
    exact run.aligned.process_raises tracks hnext ((hlogs.raisesAfter_iff hlast).1 h)

section Probe

theorem not_fromOutside_tape {f : Fault} : ¬ FromOutside (tape false) recordDelivery f := by
  rintro (h | ⟨h, hcount⟩ | h)
  · simp [tape] at h
  · rename_i batch _ _ bits
    apply hcount
    simp only [tape, Proc.returns_modify_bind_iff, Proc.returns_pure_iff] at h
    rw [← h.1, measuredIn, List.length_flatMap, List.length_flatMap]
    congr 2
    funext operation
    cases operation <;> simp
  · exact Proc.not_raises_modify h

/-- The batch of an old epoch, which is noticed as its action starts. -/
def staleBatch : TriggeredEvents :=
  { probeBatch with
    epoch := 2
    events := probeBatch.events.map fun event =>
      { event with
        epoch := 2, reference := event.reference.map fun r => { r with epoch := 2 } } }

def staleDevice : ControlElectronics (List BackendOperation) :=
  (accept (tape false) staleBatch probeDevice).state

/-- A batch that has been checked is accepted and another one is refused; a booking is made; and a
boundary faults and changes nothing. No call is on a tick before the last record, which is on tick
10. -/
theorem device_atomic_probe :
    (∃ d' l, (accept (tape false) probeBatch).ReturnsAfter 10 probeDevice () d' l) ∧
    (∃ f, (accept (tape false) probeBatch).RaisesAfter 10 (probeAfter []) f (probeAfter []) []) ∧
    (∃ s l, (SyncUnit.book [2] 20 1).ReturnsAfter 10 (SyncUnit.preflight [2] 20
      ({ core := 1 }, SyncSystem.unevenNetwork)).state () s l) ∧
    ∃ f, (process (tape false) 10 1 recordDelivery).RaisesAfter 10 (staleDevice, []) f
      (staleDevice, []) [] := by
  obtain ⟨hrefused, -, haccepted, hbooked, hprocess⟩ := @device_atomic _ (tape false) 10
  refine ⟨haccepted probeDevice probeBatch (le_refl _) rfl, ?_, ?_, ?_⟩
  · obtain ⟨f, hf⟩ : ∃ f, (accept (tape false) probeBatch).RaisesAfter 10 (probeAfter []) f _ _ :=
      Proc.raisesAfter_of_isNone (by decide +kernel)
    obtain ⟨hstate, hlog⟩ := hrefused _ _ _ _ _ (le_refl _) hf
    rw [hstate, hlog] at hf
    exact ⟨f, hf⟩
  · have hpreflight : (SyncUnit.preflight [2] 20).ReturnsAfter 10
        ({ core := 1 }, SyncSystem.unevenNetwork) () _ _ := Proc.returnsAfter_of_isSome (by decide +kernel)
    exact hbooked _ _ _ _ _ _ 1 _ (by decide) hpreflight
  · have hresolve : probeDevice.resolve (tape false) staleBatch = .ok
        (staleBatch.events.map fun event =>
          { event, start := 10, «end» := 30, resolved := event.action }) := rfl
    have hrun := probe_start.accept (by simp [Timely, staleBatch, probeBatch, probeEvent])
      (Proc.returns_of_isSome (by decide +kernel)) hresolve (by simp [DeviceHistory.accepted])
    have hnext : staleDevice.nextBoundary = some 10 :=
      (ExtTreeMap.minKey?_eq_head?_keys).trans (by decide +kernel)
    obtain ⟨f, hf⟩ : ∃ f, (process (tape false) 10 1 recordDelivery).RaisesAfter 10 (staleDevice, []) f
        _ _ := Proc.raisesAfter_of_isNone (by decide +kernel)
    obtain ⟨hstate, hcs, hlog⟩ := (hprocess 1 0 _ _ hrun _ recordDelivery 10 (le_refl _)
      (fun _ _ => .modify _) hnext f _ _ _ _ hf).resolve_left not_fromOutside_tape
    have hpair : ((process (tape false) 10 1 recordDelivery).run (some 10) (staleDevice, [])).state =
        (staleDevice, []) := Prod.ext hstate hcs
    rw [hpair, hlog] at hf
    exact ⟨f, hf⟩

/-- Calls that are out of order change a part. A batch that has passed the preflight is not accepted
behind a later record, when its readout is already pending; and a boundary that overtakes the one on
tick 30 faults, as its measurement has no sample, when the backend has been driven to tick 35. -/
theorem device_out_of_order :
    (∃ d' l, DeviceRun (tape false) 1 0 Timely {} probeDevice ∧
      probeDevice.preflight (tape false) probeBatch = .ok () ∧
      (accept (tape false) probeBatch).RaisesAfter 20 probeDevice
        ⟨.protocol, "trace time decreased"⟩ d' l ∧
      d'.reservations.length = 1 ∧ 1 ∈ d'.readouts.pending) ∧
    ∃ history d f d' cs l, DeviceRun (tape false) 1 0 Timely history d ∧ 35 ∈ d.boundaries ∧
      (process (tape false) 35 1 recordDelivery).RaisesAfter 10 (d, []) f (d', cs) l ∧
      ¬ FromOutside (tape false) recordDelivery f ∧
      d.backend.committedTick = 10 ∧ d'.backend.committedTick = 35 := by
  constructor
  · exact ⟨_, _, probe_start, rfl, rfl, by decide +kernel, by decide +kernel⟩
  · obtain ⟨history, -, -, run⟩ := probe_started
    obtain ⟨f, hf⟩ : ∃ f, (process (tape false) 35 1 recordDelivery).RaisesAfter 10 (probeAfter [10], [])
        f _ _ := Proc.raisesAfter_of_isNone (by decide +kernel)
    exact ⟨history, _, f, _, _, _, run, by decide +kernel, hf, not_fromOutside_tape, by decide +kernel,
      by decide +kernel⟩

end Probe

end Qsbit

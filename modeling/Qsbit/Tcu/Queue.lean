import Qsbit.Tcu.Step
import Qsbit.Lib.Buckets
import Mathlib.Algebra.Order.BigOperators.Group.List

/-!
# The queue of the timing control unit

The unit stores its queue three times over: the points in `timing`, their events
in one queue per port, and a count of their synchronizations. All three represent
one logical queue, the list of admitted requests that have not been triggered.
`Holds` relates the two; triggering pops the logical queue and admission pushes
onto it.

## Main definitions

* `Holds` — the stored queue represents a list of admissions.
* `Holds.step` — the queue a step leaves.
* `Reachable` — the states of a unit, through any operations.
* `exists_holds` — every reachable state represents some queue.
-/
namespace Qsbit
namespace TcuCycleModel
open Buckets

/-- The stored point of an admission. -/
def Admission.stored (a : Admission) : Point := ⟨a.request.point, a.due⟩

/-- The stored queue of `m` represents the admissions `q`, all of the given epoch. -/
structure Holds (epoch : ℕ) (m : TcuCycleModel) (q : List Admission) : Prop where
  timing : m.timing = q.map Admission.stored
  events : m.events =
    spread m.profile.timing.ports (·.action.port) (q.flatMap (·.request.events))
  wellFormed : ∀ a ∈ q, WellFormed m.profile.timing a.request
  epoch : ∀ a ∈ q, a.request.point.epoch = epoch
  length_le : q.length ≤ m.lastLabel
  labels : q.map (·.request.point.label) = List.range' (m.lastLabel + 1 - q.length) q.length
  dues : (q.map (·.due)).Pairwise (· < ·)
  due_last : ∀ a ∈ q.getLast?, a.due = m.lastDue
  policy : m.admittedPolicy =
    q.foldl (fun policy a => policyAfter a.request.point policy) m.triggeredPolicy
  syncSize : m.syncSize = (q.map fun a => a.request.point.synchronizations.length).sum
  syncBound : m.syncSize ≤ m.syncCapacity
  timingBound : m.timing.length ≤ m.profile.timingCapacity
  portBound : ∀ queue ∈ m.events, queue.length ≤ m.profile.timing.eventCapacity

namespace Holds
variable {epoch : ℕ} {m : TcuCycleModel} {q : List Admission} {a : Admission}

/-- Only the queue and its bookkeeping are constrained. -/
theorem reclock (h : Holds epoch m q) (flags : ExecutionFlags) (pause : PauseState)
    (ticks : ℕ) :
    Holds epoch { m with executionFlags := flags, pause, pausedTicks := ticks } q :=
  ⟨h.timing, h.events, h.wellFormed, h.epoch, h.length_le, h.labels, h.dues, h.due_last, h.policy,
    h.syncSize, h.syncBound, h.timingBound, h.portBound⟩

/-- The events of a queued request carry its label. -/
theorem label_of_mem (h : Holds epoch m q) (ha : a ∈ q) :
    ∀ e ∈ a.request.events, e.label = a.request.point.label :=
  (h.wellFormed a ha).label

/-- Labels do not repeat. -/
theorem nodup_labels (h : Holds epoch m q) : (q.map (·.request.point.label)).Nodup := by
  rw [h.labels]
  exact List.nodup_range'

/-- Dues in the queue do not pass the last one admitted. -/
theorem due_le (h : Holds epoch m q) : ∀ a ∈ q, a.due ≤ m.lastDue := by
  intro a ha
  rcases List.eq_nil_or_concat q with rfl | ⟨init, last, rfl⟩
  · simp at ha
  · have hlast := h.due_last last (by simp)
    have hdues := h.dues
    rw [List.concat_eq_append, List.map_append, List.pairwise_append] at hdues
    rw [List.concat_eq_append, List.mem_append, List.mem_singleton] at ha
    rcases ha with ha | rfl
    · have := hdues.2.2 a.due (List.mem_map_of_mem ha) last.due (by simp)
      omega
    · exact hlast.le

/-- Nothing is queued before the first admission. -/
theorem eq_nil_of_lastLabel (h : Holds epoch m q) (hl : m.lastLabel = 0) : q = [] := by
  have := h.length_le
  exact List.eq_nil_of_length_eq_zero (by omega)

/-- The head's label differs from every label behind it. -/
theorem head_label_ne {q : List Admission} (h : Holds epoch m (a :: q)) :
    ∀ b ∈ q, b.request.point.label ≠ a.request.point.label := by
  intro b hb heq
  have hnodup := h.nodup_labels
  rw [List.map_cons, List.nodup_cons] at hnodup
  exact hnodup.1 (heq ▸ List.mem_map_of_mem (f := (·.request.point.label)) hb)

/-- Triggering pops the logical queue. -/
theorem popHead (h : Holds epoch m (a :: q)) :
    Holds epoch (m.popHead a.stored (q.map Admission.stored)) q := by
  have hlen : q.length + 1 ≤ m.lastLabel := h.length_le
  have hevents : m.events.map (·.dropWhile (·.label = a.request.point.label)) =
      spread m.profile.timing.ports (·.action.port) (q.flatMap (·.request.events)) := by
    rw [h.events, List.flatMap_cons]
    refine map_dropWhile_spread (fun e he => ?_) (fun e he => ?_)
    · simpa using h.label_of_mem (List.mem_cons_self ..) e he
    · obtain ⟨b, hb, heb⟩ := List.mem_flatMap.1 he
      rw [decide_eq_false_iff_not, h.label_of_mem (List.mem_cons_of_mem _ hb) e heb]
      exact h.head_label_ne b hb
  have hsize := h.syncSize
  rw [List.map_cons, List.sum_cons] at hsize
  have hsync : wrapSub m.syncSize a.request.point.synchronizations.length =
      (q.map fun b => b.request.point.synchronizations.length).sum := by
    rw [wrapSub_of_le (by omega)]
    omega
  exact
    { timing := rfl
      events := hevents
      wellFormed := fun b hb => h.wellFormed b (List.mem_cons_of_mem _ hb)
      epoch := fun b hb => h.epoch b (List.mem_cons_of_mem _ hb)
      length_le := by show q.length ≤ m.lastLabel; omega
      labels := by
        have hlabels := h.labels
        rw [List.map_cons, List.length_cons, List.range'_succ] at hlabels
        rw [(List.cons.inj hlabels).2]
        show _ = List.range' (m.lastLabel + 1 - q.length) q.length
        congr 1
        omega
      dues := (List.pairwise_cons.1 h.dues).2
      due_last := by
        intro b hb
        refine h.due_last b ?_
        cases q with
        | nil => simp at hb
        | cons c q => rwa [List.getLast?_cons_cons]
      policy := h.policy
      syncSize := hsync
      syncBound := by
        show wrapSub m.syncSize a.request.point.synchronizations.length ≤ m.syncCapacity
        have := h.syncBound
        omega
      timingBound := by
        have := h.timingBound
        rw [h.timing] at this
        simp only [List.map_cons, List.length_cons] at this
        show (q.map Admission.stored).length ≤ m.profile.timingCapacity
        omega
      portBound := by
        intro queue hqueue
        obtain ⟨old, hold, rfl⟩ := List.mem_map.1 hqueue
        exact (List.length_dropWhile_le _ _).trans (h.portBound old hold) }

/-- A new admission is due after everything that is queued. -/
theorem due_lt {now : ℕ} {pause : PauseState} (h : Holds epoch m q)
    (had : Admits m now epoch a.request pause a.due) : ∀ b ∈ q, b.due < a.due := by
  intro b hb
  have hle := h.due_le b hb
  have hlabel : m.lastLabel ≠ 0 := fun hz => by
    rw [h.eq_nil_of_lastLabel hz] at hb
    simp at hb
  have hdue := had.due_eq
  rw [if_neg hlabel] at hdue
  omega

/-- Admission pushes onto the logical queue. -/
theorem enqueue {now : ℕ} {pause : PauseState} (h : Holds epoch m q)
    (had : Admits m now epoch a.request pause a.due) : Holds epoch (m.enqueue a) (q ++ [a]) := by
  have hwf := wellFormed_of_validate had.valid
  have hspread : a.request.events.foldl
      (fun queues e => queues.modify e.action.port (· ++ [e])) m.events =
      spread m.profile.timing.ports (·.action.port)
        ((q ++ [a]).flatMap (·.request.events)) := by
    rw [h.events, foldl_modify_spread, List.flatMap_append, List.flatMap_singleton]
  have hspace := had.syncSpace
  rw [wrapSub_of_le h.syncBound] at hspace
  exact
    { timing := by
        show m.timing ++ [_] = _
        rw [h.timing, List.map_append]
        rfl
      events := hspread
      wellFormed := by
        intro b hb
        rcases List.mem_append.1 hb with hb | hb
        · exact h.wellFormed b hb
        · rw [List.mem_singleton.1 hb]
          exact hwf
      epoch := by
        intro b hb
        rcases List.mem_append.1 hb with hb | hb
        · exact h.epoch b hb
        · rw [List.mem_singleton.1 hb]
          exact had.epoch
      length_le := by
        show (q ++ [a]).length ≤ a.request.point.label
        have := h.length_le
        rw [List.length_append, had.label, List.length_singleton]
        omega
      labels := by
        show _ = List.range' (a.request.point.label + 1 - (q ++ [a]).length) (q ++ [a]).length
        have := h.length_le
        rw [List.map_append, List.map_singleton, List.length_append, List.length_singleton,
          List.range'_concat, h.labels, had.label]
        have hfirst : m.lastLabel + 1 + 1 - (q.length + 1) = m.lastLabel + 1 - q.length := by omega
        have hnext : m.lastLabel + 1 = m.lastLabel + 1 - q.length + 1 * q.length := by omega
        rw [hfirst, ← hnext]
      dues := by
        rw [List.map_append, List.map_singleton, List.pairwise_append]
        refine ⟨h.dues, List.pairwise_singleton .., fun d hd e he => ?_⟩
        obtain ⟨b, hb, rfl⟩ := List.mem_map.1 hd
        rw [List.mem_singleton.1 he]
        exact h.due_lt had b hb
      due_last := by
        intro b hb
        rw [List.getLast?_concat, Option.mem_def, Option.some.injEq] at hb
        rw [← hb]
        rfl
      policy := by
        show policyAfter a.request.point m.admittedPolicy = _
        rw [List.foldl_append, h.policy]
        rfl
      syncSize := by
        show m.syncSize + _ = _
        rw [List.map_append, List.sum_append, h.syncSize]
        simp
      syncBound := by
        show m.syncSize + a.request.point.synchronizations.length ≤ m.syncCapacity
        have := h.syncBound
        omega
      timingBound := by
        show (m.timing ++ [_]).length ≤ m.profile.timingCapacity
        have := had.timingSpace
        rw [List.length_append, List.length_singleton]
        omega
      portBound := by
        intro queue hqueue
        have hqueue' : queue ∈ spread m.profile.timing.ports (·.action.port)
            ((q ++ [a]).flatMap (·.request.events)) := hspread ▸ hqueue
        obtain ⟨p, hp, rfl⟩ := mem_spread.1 hqueue'
        have hold := had.portSpace (_, p) (h.events ▸ mem_zipIdx_spread hp)
        rw [List.flatMap_append, List.flatMap_singleton, List.filter_append, List.length_append,
          ← List.countP_eq_length_filter (l := a.request.events)]
        exact hold }

/-- Room for a candidate remains room after the head is gone. -/
theorem admits_popHead {x : Admission} {candidate : TimingEvents} {now due : ℕ}
    {pause : PauseState} (h : Holds epoch m (x :: q)) {rest : List Point}
    (htiming : m.timing = x.stored :: rest) (had : Admits m now epoch candidate pause due) :
    Admits (m.popHead x.stored rest) now epoch candidate pause due := by
  have hsize := h.syncSize
  rw [List.map_cons, List.sum_cons] at hsize
  exact
    { opened := had.opened
      valid := had.valid
      epoch := had.epoch
      label := had.label
      separated := had.separated
      due_eq := had.due_eq
      deadline := had.deadline
      timingSpace := by
        have hspace := had.timingSpace
        rw [htiming, List.length_cons] at hspace
        show rest.length < m.profile.timingCapacity
        omega
      syncBound := had.syncBound
      syncSpace := by
        have hspace := had.syncSpace
        have hbound := h.syncBound
        rw [wrapSub_of_le hbound] at hspace
        show _ ≤ wrapSub m.syncCapacity (wrapSub m.syncSize x.request.point.synchronizations.length)
        rw [wrapSub_of_le (a := m.syncSize) (by omega), wrapSub_of_le (by omega)]
        omega
      portSpace := by
        intro ⟨queue, p⟩ hqueue
        rw [List.mk_mem_zipIdx_iff_getElem?] at hqueue
        have hqueue' : (m.events.map (·.dropWhile (·.label = x.stored.point.label)))[p]? =
            some queue := hqueue
        rw [List.getElem?_map, Option.map_eq_some_iff] at hqueue'
        obtain ⟨old, hold, rfl⟩ := hqueue'
        have hspace := had.portSpace (old, p) (List.mk_mem_zipIdx_iff_getElem?.2 hold)
        have hlen := List.length_dropWhile_le (fun e => decide (e.label = x.stored.point.label)) old
        show _ ≤ m.profile.timing.eventCapacity
        dsimp only at hspace ⊢
        omega }

/-- A triggered unit has a point at its head. -/
theorem eq_cons_of_fires {now : ℕ} {state : TimingState} {trigger : Trigger}
    (h : Holds epoch m q) (hf : Fires m now epoch state (some trigger)) :
    ∃ x rest, q = x :: rest ∧ m.timing = x.stored :: rest.map Admission.stored ∧
      x.due = state.cycle ∧ m.assembleTrigger now epoch state x.stored = .ok trigger := by
  obtain _ | ⟨point, rest, _, timing, -, -, due, assembled⟩ := hf
  cases q with
  | nil =>
    rw [h.timing] at timing
    simp at timing
  | cons x q =>
    have hx := h.timing
    rw [timing, List.map_cons] at hx
    obtain ⟨rfl, rfl⟩ := List.cons.inj hx
    exact ⟨x, q, rfl, timing, due, assembled⟩

/-- A step pops the triggered point and pushes the admitted one. -/
theorem step {m' : TcuCycleModel} {now : ℕ} {candidate : Option TimingEvents}
    {results : List Completion} {paused : Bool} {out : TcuOutput} {trigger : Option Trigger}
    {admission : Option Admission} (h : Holds epoch m q)
    (hs : Stepped m now epoch candidate results paused out m' trigger admission) :
    Holds epoch m' ((if trigger.isSome then q.tail else q) ++ admission.toList) := by
  obtain ⟨flags, -, rfl⟩ := hs.state
  refine Holds.reclock ?_ ..
  have hpush : ∀ {m₁ : TcuCycleModel} {q₁ : List Admission}, Holds epoch m₁ q₁ →
      (∀ a ∈ admission, Admits m₁ now epoch a.request
        (m.currentTimingState now paused).pause a.due) →
      Holds epoch (m₁.push admission) (q₁ ++ admission.toList) := by
    intro m₁ q₁ h₁ had
    cases admission with
    | none => simpa [push] using h₁
    | some a => exact h₁.enqueue (had a rfl)
  cases trigger with
  | none => exact hpush (by simpa [fire] using h) fun a ha => (hs.admits a ha).2
  | some t =>
    obtain ⟨x, rest, rfl, htiming, -⟩ := h.eq_cons_of_fires hs.fires
    have hfire : m.fire (some t) = m.popHead x.stored (rest.map Admission.stored) := by
      simp [fire, htiming]
    rw [hfire]
    exact hpush h.popHead fun a ha => h.admits_popHead htiming (hs.admits a ha).2

theorem close {terminal : EndOfStream} (h : Holds epoch m q) :
    Holds epoch (close terminal m).state q := by
  rw [close_state]
  exact ⟨h.timing, h.events, h.wellFormed, h.epoch, h.length_le, h.labels, h.dues, h.due_last,
    h.policy, h.syncSize, h.syncBound, h.timingBound, h.portBound⟩

/-- An empty unit represents the empty queue. -/
theorem of_empty {ports : ℕ} (hports : m.profile.timing.ports = ports) (htiming : m.timing = [])
    (hevents : m.events = List.replicate ports [])
    (hpolicy : m.admittedPolicy = m.triggeredPolicy) (hsize : m.syncSize = 0) :
    Holds epoch m [] where
  timing := htiming
  events := by rw [hevents, List.flatMap_nil, spread_nil, hports]
  wellFormed := by simp
  epoch := by simp
  length_le := by simp
  labels := by simp
  dues := by simp
  due_last := by simp
  policy := hpolicy
  syncSize := hsize
  syncBound := by omega
  timingBound := by simp [htiming]
  portBound := by
    intro queue hqueue
    rw [hevents] at hqueue
    simp [List.eq_of_mem_replicate hqueue]

theorem make {profile : TcuConfig} {syncCapacity : ℕ}
    (h : TcuCycleModel.make profile syncCapacity = .ok m) : Holds epoch m [] := by
  simp only [TcuCycleModel.make, Except.bind_eq_ok_iff, require_eq_ok_iff,
    Except.pure_eq_ok_iff] at h
  obtain ⟨_, -, rfl⟩ := h
  exact of_empty rfl rfl rfl rfl rfl

/-- A cleared unit keeps its ports. -/
theorem cleared {epoch' : ℕ} (h : Holds epoch m q) (start : ℕ) :
    Holds epoch' { m.cleared with start } [] := by
  refine of_empty rfl rfl ?_ rfl rfl
  show m.events.map (fun _ => []) = _
  rw [List.map_const', h.events, length_spread]
  rfl

end Holds

/-- The states of a unit with this configuration in a session of the given epoch. An
operation that faults also leaves a state. -/
inductive Reachable (profile : TcuConfig) (syncCapacity : ℕ) : ℕ → TcuCycleModel → Prop
  | make {m : TcuCycleModel} (epoch : ℕ) (h : make profile syncCapacity = .ok m) :
      Reachable profile syncCapacity epoch m
  | step {epoch : ℕ} {m : TcuCycleModel} (h : Reachable profile syncCapacity epoch m) {χ : Type}
      (now : ℕ) (candidate : Option TimingEvents) (results : List Completion)
      (preflight : TriggeredEvents → Except Fault Unit) (synchronizationPaused : Bool)
      (syncPreflight : Option (List ℕ → Sim χ Unit)) (c : χ) :
      Reachable profile syncCapacity epoch
        (step now epoch candidate results preflight synchronizationPaused syncPreflight
          (m, c)).state.1
  | close {epoch : ℕ} {m : TcuCycleModel} (h : Reachable profile syncCapacity epoch m)
      (terminal : EndOfStream) :
      Reachable profile syncCapacity epoch (close terminal m).state
  | reset {epoch : ℕ} {m : TcuCycleModel} (h : Reachable profile syncCapacity epoch m)
      (origin epoch' : ℕ) :
      Reachable profile syncCapacity epoch' (reset origin m).state

/-- Every reachable state represents some queue, under the configuration it was built with. -/
theorem exists_holds {profile : TcuConfig} {syncCapacity epoch : ℕ} {m : TcuCycleModel}
    (h : Reachable profile syncCapacity epoch m) :
    m.profile = profile ∧ m.syncCapacity = syncCapacity ∧ ∃ q, Holds epoch m q := by
  induction h with
  | make epoch h =>
    have hq : Holds epoch _ [] := Holds.make h
    simp only [make, Except.bind_eq_ok_iff, Except.pure_eq_ok_iff] at h
    obtain ⟨_, -, rfl⟩ := h
    exact ⟨rfl, rfl, [], hq⟩
  | @step epoch m h χ now candidate results preflight paused syncPreflight c ih =>
    obtain ⟨hprofile, hcapacity, q, hq⟩ := ih
    rcases hstep : step now epoch candidate results preflight paused syncPreflight (m, c) with
      ⟨_ | out, ⟨m', c'⟩, l⟩
    · obtain ⟨rfl, -⟩ := raises_of_step hstep
      exact ⟨hprofile, hcapacity, q, hq⟩
    · obtain ⟨trigger, admission, hs⟩ := stepped_of_returns hstep
      obtain ⟨flags, -, hm'⟩ := hs.state
      exact ⟨by simp [hm', hprofile], by simp [hm', hcapacity], _, hq.step hs⟩
  | close h terminal ih =>
    obtain ⟨hprofile, hcapacity, q, hq⟩ := ih
    have hstate := close_state terminal
    exact ⟨by rw [hstate]; exact hprofile, by rw [hstate]; exact hcapacity, q, hq.close⟩
  | reset h origin epoch' ih =>
    obtain ⟨hprofile, hcapacity, q, hq⟩ := ih
    obtain ⟨start, hstate⟩ := reset_state origin _
    rw [hstate]
    exact ⟨hprofile, hcapacity, [], hq.cleared start⟩

/-- A unit that has just been constructed. -/
def oneGateUnit : TcuCycleModel := (make oneGateConfig).toOption.get (by decide)

/-- A first request with the gate of `oneGate`, due one cycle after the start. -/
def oneGateRequest : TimingEvents :=
  { point := { epoch := 1, label := 1, interval := 1, underflowPolicy := .strict, manifest := [1] }
    events := [{ epoch := 1, id := 1, label := 1, codeword := 1
                 action := { spec := .gate { operands := { targets := [0] } } } }] }

/-- A second request, one cycle later. -/
def nextGateRequest : TimingEvents :=
  { point := { oneGateRequest.point with label := 2, manifest := [2] }
    events := oneGateRequest.events.map fun e => { e with id := 2, label := 2 } }

end TcuCycleModel
end Qsbit

import Qsbit.Tcu

/-!
# What one step of the timing control unit does

`step` is a long sequence of checks followed by commits. `Stepped` states once
what a successful step implies: which point fired, what was admitted and how the
state changed. Everything proved about runs of the unit goes through it.

## Main definitions

* `Fires`, `Admits` — the outcome of the two preparations.
* `Stepped` — a successful step.
* `stepped_of_returns` — a returning `step` is a `Stepped`.
-/
namespace Qsbit
namespace TcuCycleModel
variable {χ : Type}

/-- Why and how a trigger was prepared, or why there is none. -/
inductive Fires (m : TcuCycleModel) (now epoch : ℕ) (state : TimingState) :
    Option Trigger → Prop
  /-- Nothing is due on this edge. -/
  | idle (h : ∀ point ∈ m.timing.head?, state.running = true → state.pause.paused = false →
      state.cycle < point.due) : Fires m now epoch state none
  /-- The head of the queue is due exactly now. -/
  | head (point : Point) (rest : List Point) (trigger : Trigger)
      (timing : m.timing = point :: rest) (running : state.running = true)
      (unpaused : state.pause.paused = false) (due : point.due = state.cycle)
      (assembled : m.assembleTrigger now epoch state point = .ok trigger) :
      Fires m now epoch state (some trigger)

/-- Why a candidate was given a due cycle. -/
structure Admits (m : TcuCycleModel) (now epoch : ℕ) (candidate : TimingEvents)
    (pause : PauseState) (due : ℕ) : Prop where
  opened : m.closed = false
  valid : validateTimingEvents candidate m.profile.timing = .ok ()
  epoch : candidate.point.epoch = epoch
  label : candidate.point.label = m.lastLabel + 1
  separated : m.lastLabel = 0 ∨ 0 < candidate.point.interval ∨
    m.admittedPolicy = .pauseWhenEmpty ∨ candidate.point.underflowPolicy = .pauseWhenEmpty
  due_eq : due = m.lastDue +
    (if m.lastLabel = 0 then candidate.point.interval else max 1 candidate.point.interval)
  deadline : m.meetsDeadline now (m.start + m.pausedTicks + due * m.profile.clock.period) pause
  timingSpace : m.timing.length < m.profile.timingCapacity
  syncBound : candidate.point.synchronizations.length ≤ m.syncCapacity
  syncSpace : candidate.point.synchronizations.length ≤ wrapSub m.syncCapacity m.syncSize
  portSpace : ∀ q ∈ m.events.zipIdx,
    q.1.length + candidate.events.countP (·.action.port = q.2) ≤ m.profile.timing.eventCapacity

/-- Why a candidate was refused with a fault. -/
inductive Refuses (m : TcuCycleModel) (now epoch : ℕ) (candidate : TimingEvents)
    (pause : PauseState) : Fault → Prop
  | closed (h : m.closed = true) :
      Refuses m now epoch candidate pause ⟨.protocol, "request follows stream closure"⟩
  | invalid {f : Fault} (h : validateTimingEvents candidate m.profile.timing = .error f) :
      Refuses m now epoch candidate pause f
  | identity (h : candidate.point.epoch ≠ epoch ∨ candidate.point.label ≠ m.lastLabel + 1) :
      Refuses m now epoch candidate pause
        ⟨.protocol, "request identity is stale, repeated or out of order"⟩
  | duplicate (label : m.lastLabel ≠ 0) (interval : candidate.point.interval = 0)
      (admitted : m.admittedPolicy ≠ .pauseWhenEmpty)
      (policy : candidate.point.underflowPolicy ≠ .pauseWhenEmpty) :
      Refuses m now epoch candidate pause ⟨.protocol, "duplicate logical time point"⟩
  | overflow {f : Fault} (h : f = ⟨.timeOverflow, "tick addition overflow"⟩ ∨
        f = ⟨.timeOverflow, "tick multiplication overflow"⟩) :
      Refuses m now epoch candidate pause f
  | late (due : ℕ) (due_eq : due = m.lastDue +
        (if m.lastLabel = 0 then candidate.point.interval else max 1 candidate.point.interval))
      (deadline : m.meetsDeadline now (m.start + m.pausedTicks + due * m.profile.clock.period)
        pause = false) :
      Refuses m now epoch candidate pause
        ⟨.lateAdmission, "request arrived on or after its original deadline"⟩
  | synchronizations (h : m.syncCapacity < candidate.point.synchronizations.length) :
      Refuses m now epoch candidate pause
        ⟨.capacity, "time point exceeds synchronization queue capacity"⟩

/-- A candidate is refused as late for its deadline only. -/
theorem Refuses.message {m : TcuCycleModel} {now epoch : ℕ} {candidate : TimingEvents}
    {pause : PauseState} {f : Fault} (h : Refuses m now epoch candidate pause f)
    (hcode : f.code = .lateAdmission) :
    f.message = "request arrived on or after its original deadline" := by
  cases h with
  | invalid h => exact absurd hcode (code_of_validateTimingEvents h)
  | overflow h => rcases h with rfl | rfl <;> simp at hcode
  | late => rfl
  | _ => simp at hcode

/-- Remove the head if there is a trigger. -/
def fire (m : TcuCycleModel) (trigger : Option Trigger) : TcuCycleModel :=
  match trigger, m.timing with
  | some _, head :: rest => m.popHead head rest
  | _, _ => m

/-- Queue the candidate if there is an admission. -/
def push (m : TcuCycleModel) (admission : Option Admission) : TcuCycleModel :=
  match admission with
  | some a => m.enqueue a
  | none => m

/-- The unit after a step. -/
def next (m : TcuCycleModel) (trigger : Option Trigger) (admission : Option Admission)
    (flags : ExecutionFlags) (pause : PauseState) : TcuCycleModel :=
  { (m.fire trigger).push admission with
    executionFlags := flags
    pause
    pausedTicks := if pause.paused then m.pausedTicks + m.profile.clock.period else m.pausedTicks }

section Frame
variable {m : TcuCycleModel} {trigger : Option Trigger} {admission : Option Admission}
  {flags : ExecutionFlags} {pause : PauseState}

theorem fire_eq (m : TcuCycleModel) (trigger : Option Trigger) : ∃ triggeredPolicy syncSize events timing,
    m.fire trigger = { m with triggeredPolicy, syncSize, events, timing } := by
  unfold fire
  split
  · exact ⟨_, _, _, _, rfl⟩
  · exact ⟨_, _, _, _, rfl⟩

@[simp] theorem fire_profile : (m.fire trigger).profile = m.profile := by
  obtain ⟨_, _, _, _, h⟩ := fire_eq m trigger
  rw [h]

@[simp] theorem fire_start : (m.fire trigger).start = m.start := by
  obtain ⟨_, _, _, _, h⟩ := fire_eq m trigger
  rw [h]

@[simp] theorem fire_syncCapacity : (m.fire trigger).syncCapacity = m.syncCapacity := by
  obtain ⟨_, _, _, _, h⟩ := fire_eq m trigger
  rw [h]

@[simp] theorem fire_lastLabel : (m.fire trigger).lastLabel = m.lastLabel := by
  obtain ⟨_, _, _, _, h⟩ := fire_eq m trigger
  rw [h]

@[simp] theorem fire_lastDue : (m.fire trigger).lastDue = m.lastDue := by
  obtain ⟨_, _, _, _, h⟩ := fire_eq m trigger
  rw [h]

@[simp] theorem fire_closed : (m.fire trigger).closed = m.closed := by
  obtain ⟨_, _, _, _, h⟩ := fire_eq m trigger
  rw [h]

@[simp] theorem fire_admittedPolicy : (m.fire trigger).admittedPolicy = m.admittedPolicy := by
  obtain ⟨_, _, _, _, h⟩ := fire_eq m trigger
  rw [h]

@[simp] theorem next_profile : (m.next trigger admission flags pause).profile = m.profile := by
  cases admission <;> simp [next, push, enqueue]

@[simp] theorem next_start : (m.next trigger admission flags pause).start = m.start := by
  cases admission <;> simp [next, push, enqueue]

@[simp] theorem next_syncCapacity :
    (m.next trigger admission flags pause).syncCapacity = m.syncCapacity := by
  cases admission <;> simp [next, push, enqueue]

@[simp] theorem next_closed : (m.next trigger admission flags pause).closed = m.closed := by
  cases admission <;> simp [next, push, enqueue]

@[simp] theorem next_lastLabel : (m.next trigger admission flags pause).lastLabel =
    match admission with
    | some a => a.request.point.label
    | none => m.lastLabel := by
  cases admission <;> simp [next, push, enqueue]

@[simp] theorem next_admittedPolicy : (m.next trigger admission flags pause).admittedPolicy =
    match admission with
    | some a => policyAfter a.request.point m.admittedPolicy
    | none => m.admittedPolicy := by
  cases admission <;> simp [next, push, enqueue]

@[simp] theorem next_pausedTicks : (m.next trigger admission flags pause).pausedTicks =
    if pause.paused then m.pausedTicks + m.profile.clock.period else m.pausedTicks := rfl

end Frame

/-- A successful step on the edge `now`. -/
structure Stepped (m : TcuCycleModel) (now epoch : ℕ) (candidate : Option TimingEvents)
    (results : List Completion) (synchronizationPaused : Bool) (out : TcuOutput)
    (m' : TcuCycleModel) (trigger : Option Trigger) (admission : Option Admission) :
    Prop where
  edge : m.profile.clock.edge now
  fires : Fires m now epoch (m.currentTimingState now synchronizationPaused) trigger
  admits : ∀ a ∈ admission, candidate = some a.request ∧
    Admits m now epoch a.request (m.currentTimingState now synchronizationPaused).pause a.due
  state : ∃ flags, m.executionFlags.commitAll results epoch = .ok flags ∧
    m' = m.next trigger admission flags (m.currentTimingState now synchronizationPaused).pause
  launch : out.launch = trigger.map (·.batch)
  admitted : out.admitted = admission.isSome
  synchronizations : out.synchronizations = (trigger.map (·.synchronizations)).getD []
  fastDelivered : out.fastDelivered =
    (results.filter (·.reference.epoch = epoch)).map (·.reference)

theorem prepareAdmission_eq_some {m : TcuCycleModel} {now epoch due : ℕ}
    {candidate : TimingEvents} {pause : PauseState}
    (h : m.prepareAdmission now epoch candidate pause = .ok (some due)) :
    Admits m now epoch candidate pause due := by
  simp only [prepareAdmission, Except.bind_eq_ok_iff, require_eq_ok_iff, exists_const,
    Except.pure_eq_ok_iff] at h
  obtain ⟨hopen, _, hvalid, hepoch, label, hlabel, heq, hsep, due', hdue, base, hbase, ticks,
    hticks, tick, htick, hdeadline, hbound, hspace⟩ := h
  rw [eq_of_checkedAdd htick, eq_of_checkedAdd hbase, eq_of_checkedMul hticks] at hdeadline
  split at hspace
  · rename_i hs
    simp only [Option.some.injEq] at hspace
    subst hspace
    simp only [decide_eq_true_eq] at hs
    exact
      { opened := hopen
        valid := hvalid
        epoch := hepoch
        label := by rw [heq, eq_of_checkedAdd hlabel]
        separated := hsep
        due_eq := eq_of_checkedAdd hdue
        deadline := hdeadline
        timingSpace := hs.1
        syncBound := hbound
        syncSpace := hs.2.1
        portSpace := hs.2.2 }
  · simp at hspace

theorem prepareAdmission_eq_error {m : TcuCycleModel} {now epoch : ℕ}
    {candidate : TimingEvents} {pause : PauseState} {f : Fault}
    (h : m.prepareAdmission now epoch candidate pause = .error f) :
    Refuses m now epoch candidate pause f := by
  simp only [prepareAdmission, Except.bind_eq_error_iff, require_eq_error_iff, require_eq_ok_iff,
    exists_const, Except.pure_ne_error, and_false, or_false] at h
  rcases h with ⟨h, rfl⟩ | ⟨-, h | ⟨_, -, ⟨h, rfl⟩ | ⟨-, h | ⟨label, hlabel, h⟩⟩⟩⟩
  · exact .closed (by simpa using h)
  · exact .invalid h
  · exact .identity (.inl h)
  · exact .overflow (.inl (code_of_checkedAdd h))
  rcases h with ⟨h, rfl⟩ | ⟨-, ⟨h, rfl⟩ | ⟨-, h | ⟨due, hdue, h | ⟨base, hbase, h |
    ⟨ticks, hticks, h⟩⟩⟩⟩⟩
  · exact .identity (.inr (by rwa [eq_of_checkedAdd hlabel] at h))
  · simp only [not_or, Nat.not_lt, Nat.le_zero] at h
    exact .duplicate h.1 h.2.1 h.2.2.1 h.2.2.2
  · exact .overflow (.inl (code_of_checkedAdd h))
  · exact .overflow (.inl (code_of_checkedAdd h))
  · exact .overflow (.inr (code_of_checkedMul h))
  rcases h with h | ⟨tick, htick, ⟨h, rfl⟩ | ⟨-, h, rfl⟩⟩
  · exact .overflow (.inl (code_of_checkedAdd h))
  · rw [eq_of_checkedAdd htick, eq_of_checkedAdd hbase, eq_of_checkedMul hticks,
      Bool.not_eq_true] at h
    exact .late due (eq_of_checkedAdd hdue) h
  · exact .synchronizations (by omega)

/-- The batch of a trigger is that of its point. -/
theorem batch_of_assembleTrigger {m : TcuCycleModel} {now epoch : ℕ} {state : TimingState}
    {point : Point} {trigger : Trigger}
    (h : m.assembleTrigger now epoch state point = .ok trigger) :
    point.due = state.cycle ∧ trigger.batch.label = point.point.label ∧
      trigger.batch.fireTick = now ∧ trigger.synchronizations = point.point.synchronizations := by
  simp only [assembleTrigger, Except.bind_eq_ok_iff, require_eq_ok_iff, exists_const,
    Except.pure_eq_ok_iff] at h
  obtain ⟨hdue, _, -, -, _, -, rfl⟩ := h
  exact ⟨hdue, rfl, rfl, rfl⟩

theorem prepareTrigger_returns {m : TcuCycleModel} {now epoch : ℕ} {state : TimingState}
    {preflight : TriggeredEvents → Except Fault Unit}
    {syncPreflight : Option (List ℕ → Sim χ Unit)} {c c' : χ} {trigger : Option Trigger}
    {l : List TraceEvent}
    (h : (m.prepareTrigger now epoch state preflight syncPreflight).Returns c trigger c' l) :
    Fires m now epoch state trigger := by
  unfold prepareTrigger at h
  cases htiming : m.timing with
  | nil =>
    simp only [htiming, Proc.returns_pure_iff] at h
    obtain ⟨rfl, -⟩ := h
    exact .idle (by simp [htiming])
  | cons point rest =>
    simp only [htiming] at h
    split at h
    · rename_i hidle
      simp only [Proc.returns_pure_iff] at h
      obtain ⟨rfl, -⟩ := h
      refine .idle fun p hp hrun hpause => ?_
      simp only [htiming, List.head?_cons, Option.mem_def, Option.some.injEq] at hp
      subst hp
      simpa [hrun, hpause] using hidle
    · rename_i hbusy
      simp only [Proc.returns_bind_iff, Proc.returns_lift_iff, Proc.returns_pure_iff] at h
      obtain ⟨t, _, _, _, ⟨hassembled, -⟩, ⟨_, _, _, _, -, ⟨_, _, _, _, -, ⟨rfl, -⟩, -⟩, -⟩, -⟩ := h
      have hdue : point.due = state.cycle := (batch_of_assembleTrigger hassembled).1
      simp only [not_or, Bool.not_eq_true, Bool.not_eq_false, not_lt] at hbusy
      exact .head point rest t htiming hbusy.1 hbusy.2.1 hdue hassembled

section Commits
variable {m m' : TcuCycleModel} {now epoch cycle : ℕ} {l : List TraceEvent} {u : Unit}

theorem commitTrigger_returns {trigger : Option Trigger}
    (h : (Proc.forSome trigger (commitTrigger now epoch cycle)).Returns m u m' l) :
    m' = m.fire trigger := by
  cases trigger with
  | none =>
    simp only [Proc.forSome_none, Proc.returns_pure_iff] at h
    exact h.2.1.symm
  | some t =>
    cases htiming : m.timing with
    | nil =>
      simp only [Proc.forSome_some, commitTrigger, Proc.returns_bind_iff, Proc.returns_get_iff] at h
      obtain ⟨_, _, _, _, ⟨rfl, rfl, -⟩, h, -⟩ := h
      simp only [htiming, Proc.returns_pure_iff] at h
      obtain ⟨-, rfl, -⟩ := h
      simp [fire, htiming]
    | cons head rest =>
      simp only [Proc.forSome_some, commitTrigger, Proc.returns_bind_iff, Proc.returns_get_iff] at h
      obtain ⟨_, _, _, _, ⟨rfl, rfl, -⟩, h, -⟩ := h
      simp only [htiming, Proc.returns_bind_iff, Proc.returns_set_iff, Proc.returns_emit_iff,
        Proc.returns_emitAll_iff] at h
      obtain ⟨_, _, _, _, ⟨rfl, -⟩, ⟨_, _, _, _, -, ⟨_, _, _, _, ⟨rfl, -⟩, ⟨_, _, _, _, ⟨rfl, -⟩,
        ⟨rfl, -⟩, -⟩, -⟩, -⟩, -⟩ := h
      simp [fire, htiming]

theorem commitAdmission_returns {admission : Option Admission}
    (h : (Proc.forSome admission fun a => commitAdmission now epoch cycle a).Returns
      m u m' l) : m' = m.push admission := by
  cases admission with
  | none =>
    simp only [Proc.forSome_none, Proc.returns_pure_iff] at h
    exact h.2.1.symm
  | some a =>
    simp only [Proc.forSome_some, commitAdmission, Proc.returns_bind_iff, Proc.returns_modify_iff,
      Proc.returns_get_iff, Proc.returns_emit_iff] at h
    obtain ⟨_, _, _, _, ⟨rfl, -⟩, ⟨_, _, _, _, ⟨-, rfl, -⟩, ⟨rfl, -⟩, -⟩, -⟩ := h
    rfl

theorem commitFastResults_returns {results : List Completion} {flags : ExecutionFlags}
    {credits : List MeasurementReference}
    (h : (commitFastResults now epoch cycle results flags).Returns m credits m' l) :
    m' = { m with executionFlags := flags } ∧
      credits = (results.filter (·.reference.epoch = epoch)).map (·.reference) := by
  simp only [commitFastResults, Proc.returns_bind_iff, Proc.returns_modify_iff,
    Proc.returns_emitAll_iff, Proc.returns_pure_iff] at h
  obtain ⟨_, _, _, _, ⟨rfl, -⟩, ⟨_, _, _, _, ⟨rfl, -⟩, ⟨rfl, rfl, -⟩, -⟩, -⟩ := h
  exact ⟨rfl, rfl⟩

theorem updatePauseState_returns {state : TimingState} {ticks : ℕ}
    (h : (updatePauseState now epoch state ticks).Returns m u m' l) :
    m' = { m with pause := state.pause, pausedTicks := ticks } := by
  simp only [updatePauseState, Proc.returns_bind_iff, Proc.returns_get_iff,
    Proc.returns_modify_iff] at h
  obtain ⟨_, _, _, _, ⟨rfl, rfl, -⟩, ⟨_, m₁, _, _, htrace, ⟨rfl, -⟩, -⟩, -⟩ := h
  have : m₁ = m := by
    split at htrace
    · simp only [Proc.returns_emit_iff] at htrace
      exact htrace.1.symm
    · simp only [Proc.returns_pure_iff] at htrace
      exact htrace.2.1.symm
  rw [this]

/-! The commits cannot fault. -/

variable {f : Fault}

theorem not_raises_commitTrigger {trigger : Option Trigger} :
    ¬ (Proc.forSome trigger (commitTrigger now epoch cycle)).Raises m f m' l := by
  cases trigger with
  | none => simp
  | some t =>
    simp only [Proc.forSome_some, commitTrigger, Proc.raises_bind_iff, Proc.not_raises_get,
      Proc.returns_get_iff, false_or]
    rintro ⟨_, _, _, _, ⟨rfl, rfl, -⟩, h, -⟩
    split at h
    · simp at h
    · split at h <;> simp at h

theorem not_raises_commitAdmission {admission : Option Admission} :
    ¬ (Proc.forSome admission fun a => commitAdmission now epoch cycle a).Raises m f m' l := by
  cases admission <;> simp [commitAdmission]

theorem not_raises_commitFastResults {results : List Completion} {flags : ExecutionFlags} :
    ¬ (commitFastResults now epoch cycle results flags).Raises m f m' l := by
  simp [commitFastResults]

theorem not_raises_updatePauseState {state : TimingState} {ticks : ℕ} :
    ¬ (updatePauseState now epoch state ticks).Raises m f m' l := by
  simp only [updatePauseState, Proc.raises_bind_iff, Proc.not_raises_get, Proc.returns_get_iff,
    Proc.not_raises_modify, false_or, and_false, false_and, exists_false, or_false]
  rintro ⟨_, _, _, _, ⟨rfl, rfl, -⟩, h, -⟩
  split at h <;> simp at h

end Commits

/-- A returning step fires, admits and moves on as `Stepped` says. -/
theorem stepped_of_returns {m m' : TcuCycleModel} {now epoch : ℕ}
    {candidate : Option TimingEvents} {results : List Completion}
    {preflight : TriggeredEvents → Except Fault Unit} {synchronizationPaused : Bool}
    {syncPreflight : Option (List ℕ → Sim χ Unit)} {c c' : χ} {out : TcuOutput}
    {l : List TraceEvent}
    (h : (step now epoch candidate results preflight synchronizationPaused syncPreflight).Returns
      (m, c) out (m', c') l) :
    ∃ trigger admission,
      Stepped m now epoch candidate results synchronizationPaused out m' trigger admission := by
  simp only [step, Proc.returns_bind_iff, Proc.returns_get_iff, Proc.returns_lift_iff,
    Proc.returns_onSnd_iff, Proc.returns_onFst_iff, Proc.returns_pure_iff, require_eq_ok_iff,
    Prod.exists, Prod.mk.injEq, exists_const, and_assoc, exists_and_left, exists_eq_left',
    List.nil_append, exists_eq_right] at h
  obtain ⟨hedge, trigger, _, c₁, _, htrigger, rfl, _, ⟨due, hdue, flags, hflags, ticks, hticks,
    _, m₁, _, _, hfire, -, _, ⟨_, m₂, _, _, hadmit, -, _, ⟨credits, m₃, _, _, hfast, -, _,
    ⟨_, m₄, _, _, hpause, -, rfl, rfl, -⟩, -⟩, -⟩, -⟩, -⟩ := h
  have hticks' : ticks = if (m.currentTimingState now synchronizationPaused).pause.paused then
      m.pausedTicks + m.profile.clock.period else m.pausedTicks := by
    split at hticks
    · rw [if_pos ‹_›]; exact eq_of_checkedAdd hticks
    · rw [if_neg ‹_›]; exact (Except.pure_eq_ok_iff.1 hticks).symm
  have hm₁ := commitTrigger_returns hfire
  have hm₂ := commitAdmission_returns hadmit
  obtain ⟨hm₃, hcredits⟩ := commitFastResults_returns hfast
  have hm₄ := updatePauseState_returns hpause
  refine ⟨trigger, candidate.bind fun c => due.map (⟨c, ·⟩), ?_⟩
  exact
    { edge := hedge
      fires := prepareTrigger_returns htrigger
      admits := by
        intro a ha
        simp only [Option.mem_def, Option.bind_eq_some_iff, Option.map_eq_some_iff] at ha
        obtain ⟨c, rfl, d, rfl, rfl⟩ := ha
        exact ⟨rfl, prepareAdmission_eq_some hdue⟩
      state := ⟨flags, hflags, by rw [hm₄, hm₃, hm₂, hm₁, hticks']; rfl⟩
      launch := rfl
      admitted := by
        cases candidate with
        | none =>
          obtain rfl := Except.pure_eq_ok_iff.1 hdue
          rfl
        | some c => cases due <;> rfl
      synchronizations := rfl
      fastDelivered := hcredits }

/-- Why a trigger was not prepared: the head is due, and the fault is about its events or
comes from a callback. -/
theorem prepareTrigger_raises {m : TcuCycleModel} {now epoch : ℕ} {state : TimingState}
    {preflight : TriggeredEvents → Except Fault Unit}
    {syncPreflight : Option (List ℕ → Sim χ Unit)} {c c' : χ} {f : Fault} {l : List TraceEvent}
    (h : (m.prepareTrigger now epoch state preflight syncPreflight).Raises c f c' l) :
    ∃ point ∈ m.timing.head?, state.running = true ∧ state.pause.paused = false ∧
      point.due ≤ state.cycle ∧
      (m.assembleTrigger now epoch state point = .error f ∨
        (∃ batch, preflight batch = .error f) ∨
        f = ⟨.unsupportedSynchronization, "TCU has no synchronization unit"⟩ ∨
        ∃ check targets c₁ l₁, syncPreflight = some check ∧ (check targets).Raises c f c₁ l₁) := by
  unfold prepareTrigger at h
  cases htiming : m.timing with
  | nil => simp [htiming] at h
  | cons point rest =>
    simp only [htiming] at h
    split at h
    · simp at h
    · rename_i hbusy
      simp only [not_or, Bool.not_eq_true, Bool.not_eq_false, not_lt] at hbusy
      refine ⟨point, rfl, hbusy.1, hbusy.2.1, hbusy.2.2, ?_⟩
      simp only [Proc.raises_bind_iff, Proc.raises_lift_iff, Proc.returns_lift_iff,
        Proc.not_raises_pure] at h
      rcases h with ⟨h, -⟩ | ⟨trigger, _, _, _, ⟨-, rfl, -⟩, h, -⟩
      · exact .inl h
      · rcases h with ⟨h, -⟩ | ⟨_, _, _, _, ⟨-, rfl, -⟩, h | ⟨_, _, _, _, -, h, -⟩, -⟩
        · exact .inr (.inl ⟨_, h⟩)
        · split at h
          · simp at h
          · split at h
            · simp only [Proc.raises_check_iff, Except.error.injEq] at h
              exact .inr (.inr (.inl h.1.symm))
            · exact .inr (.inr (.inr ⟨_, _, _, _, rfl, h⟩))
        · exact h.elim

/-- A fault leaves the unit as it was: the commits come after every check and cannot fault. -/
theorem raises_of_step {m m' : TcuCycleModel} {now epoch : ℕ}
    {candidate : Option TimingEvents} {results : List Completion}
    {preflight : TriggeredEvents → Except Fault Unit} {synchronizationPaused : Bool}
    {syncPreflight : Option (List ℕ → Sim χ Unit)} {c c' : χ} {f : Fault} {l : List TraceEvent}
    (h : (step now epoch candidate results preflight synchronizationPaused syncPreflight).Raises
      (m, c) f (m', c') l) :
    m' = m ∧
      (f = ⟨.protocol, "TCU invoked off-edge"⟩ ∨
        (∃ c₁ l₁, (m.prepareTrigger now epoch (m.currentTimingState now synchronizationPaused)
          preflight syncPreflight).Raises c f c₁ l₁) ∨
        (∃ a ∈ candidate, m.prepareAdmission now epoch a
          (m.currentTimingState now synchronizationPaused).pause = .error f) ∨
        m.executionFlags.commitAll results epoch = .error f ∨ f.code = .timeOverflow) := by
  simp only [step, Proc.raises_bind_iff, Proc.returns_get_iff, Proc.not_raises_get,
    Proc.returns_lift_iff, Proc.raises_lift_iff, Proc.returns_onSnd_iff, Proc.raises_onSnd_iff,
    Proc.raises_onFst_iff, Proc.not_raises_pure, require_eq_ok_iff, require_eq_error_iff,
    Prod.exists, Prod.mk.injEq, exists_const, and_assoc, exists_and_left, exists_eq_left',
    List.nil_append, exists_eq_right, false_or, and_false, false_and, exists_false, or_false,
    not_raises_commitTrigger, not_raises_commitAdmission, not_raises_commitFastResults,
    not_raises_updatePauseState] at h
  rcases h with ⟨-, rfl, rfl, -⟩ | ⟨-, ⟨h, rfl⟩ | ⟨_, _, _, _, -, rfl, _, h, -⟩⟩
  · exact ⟨rfl, .inl rfl⟩
  · exact ⟨rfl, .inr (.inl ⟨_, _, h⟩)⟩
  · rcases h with ⟨h, rfl, -⟩ | ⟨_, -, ⟨h, rfl, -⟩ | ⟨_, -, h, rfl, -⟩⟩
    · refine ⟨rfl, .inr (.inr (.inl ?_))⟩
      cases candidate with
      | none => simp at h
      | some a => exact ⟨a, rfl, h⟩
    · exact ⟨rfl, .inr (.inr (.inr (.inl h)))⟩
    · refine ⟨rfl, .inr (.inr (.inr (.inr ?_)))⟩
      split at h
      · rw [code_of_checkedAdd h]
      · simp at h

/-- Closing changes at most the closed flag. -/
theorem close_state (terminal : EndOfStream) (m : TcuCycleModel) :
    (close terminal m).state = { m with closed := (close terminal m).state.closed } := by
  rcases hc : close terminal m with ⟨_ | u, m', l⟩
  · have hr : (close terminal).Raises m _ m' l := hc
    simp only [close, Proc.raises_bind_iff, Proc.not_raises_get, Proc.returns_get_iff,
      Proc.raises_lift_iff, Proc.not_raises_set, and_false, false_and, exists_false, or_false,
      false_or] at hr
    obtain ⟨_, _, _, _, ⟨rfl, rfl, -⟩, ⟨-, rfl, -⟩, -⟩ := hr
    rfl
  · have hr : (close terminal).Returns m u m' l := hc
    simp only [close, Proc.returns_bind_iff, Proc.returns_get_iff, Proc.returns_lift_iff,
      Proc.returns_set_iff] at hr
    obtain ⟨_, _, _, _, ⟨rfl, rfl, -⟩, ⟨_, _, _, _, ⟨-, rfl, -⟩, ⟨rfl, -⟩, -⟩, -⟩ := hr
    rfl

/-- A reset clears the unit and moves its start to an edge. -/
theorem reset_returns {origin : ℕ} {m m' : TcuCycleModel} {u : Unit} {l : List TraceEvent}
    (h : (reset origin).Returns m u m' l) :
    ∃ start, m.profile.clock.edge start ∧ m' = { m.cleared with start } := by
  simp only [reset, Proc.returns_bind_iff, Proc.returns_modify_iff, Proc.returns_get_iff,
    Proc.returns_lift_iff] at h
  obtain ⟨_, _, _, _, ⟨rfl, -⟩, ⟨_, _, _, _, ⟨rfl, rfl, -⟩, ⟨_, _, _, _, ⟨-, rfl, -⟩,
    ⟨start, m₂, _, _, hstart, ⟨rfl, -⟩, -⟩, -⟩, -⟩, -⟩ := h
  split at hstart
  · rename_i hedge
    simp only [Proc.returns_pure_iff] at hstart
    obtain ⟨rfl, rfl, -⟩ := hstart
    exact ⟨_, hedge, rfl⟩
  · simp only [Proc.returns_lift_iff] at hstart
    obtain ⟨hafter, rfl, -⟩ := hstart
    exact ⟨start, (Clock.edge_of_after hafter).1, rfl⟩

/-- Also a reset whose new start overflows has cleared the unit. -/
theorem reset_state (origin : ℕ) (m : TcuCycleModel) :
    ∃ start, (reset origin m).state = { m.cleared with start } := by
  rcases h : reset origin m with ⟨_ | u, m', l⟩
  · have hr : (reset origin).Raises m _ m' l := h
    simp only [reset, Proc.raises_bind_iff, Proc.not_raises_modify, Proc.returns_modify_iff,
      Proc.not_raises_get, Proc.returns_get_iff, Proc.raises_lift_iff, Proc.returns_lift_iff,
      false_or] at hr
    obtain ⟨_, _, _, _, ⟨rfl, -⟩, ⟨_, _, _, _, ⟨rfl, rfl, -⟩, hr, -⟩, -⟩ := hr
    refine ⟨m.start, ?_⟩
    rcases hr with ⟨-, rfl, -⟩ | ⟨_, _, _, _, ⟨-, rfl, -⟩, hr, -⟩
    · rfl
    · rcases hr with hr | ⟨_, _, _, _, -, hr, -⟩
      · split at hr
        · simp at hr
        · simp only [Proc.raises_lift_iff] at hr
          rw [← hr.2.1]
          rfl
      · exact hr.elim
  · obtain ⟨start, -, hm'⟩ := reset_returns (u := u) h
    exact ⟨start, hm'⟩

end TcuCycleModel
end Qsbit

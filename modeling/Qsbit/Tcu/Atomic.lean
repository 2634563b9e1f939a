import Qsbit.Tcu.Queue

/-!
# A step is all or nothing

The checks of a step read the unit and the commits change it. No check comes after a
commit, and a commit can only fault when the trace refuses its record. All records of a
step carry its tick, so a step that faults leaves the unit as it was, unless the trace has
a record that is later than the tick.

## Main results

* `step_eq_commit` — a step is its checks and then its commits.
* `step_records` — the records of a step.
* `step_atomic` — a step that faults has no effect on the unit and its records.
-/
namespace Qsbit
namespace TcuCycleModel
variable {χ : Type}

/-- What the checks of a step have found out. -/
structure Prepared where
  state : TimingState
  trigger : Option Trigger
  due : Option ℕ
  nextFlags : ExecutionFlags
  nextPausedTicks : ℕ

/-- The checks of a step. -/
def prepare (now epoch : ℕ) (candidate : Option TimingEvents) (results : List Completion)
    (preflight : TriggeredEvents → Except Fault Unit) (synchronizationPaused : Bool)
    (syncPreflight : Option (List ℕ → Sim χ Unit)) : Sim (TcuCycleModel × χ) Prepared := do
  let m := (← Proc.get).1
  require (m.profile.clock.edge now) .protocol "TCU invoked off-edge"
  let state := m.currentTimingState now synchronizationPaused
  let trigger ← Proc.onSnd (m.prepareTrigger now epoch state preflight syncPreflight)
  let due ← (match candidate with
    | some c => m.prepareAdmission now epoch c state.pause
    | none => pure none : Except Fault (Option ℕ))
  let nextFlags ← m.executionFlags.commitAll results epoch
  let nextPausedTicks ← (if state.pause.paused then
      checkedAdd m.pausedTicks m.profile.clock.period else pure m.pausedTicks : Except Fault ℕ)
  pure { state, trigger, due, nextFlags, nextPausedTicks }

/-- The commits of a step. -/
def commit (now epoch : ℕ) (candidate : Option TimingEvents) (results : List Completion)
    (p : Prepared) : Sim TcuCycleModel TcuOutput := do
  Proc.forSome p.trigger (commitTrigger now epoch p.state.cycle)
  Proc.forSome (candidate.bind fun c => p.due.map (⟨c, ·⟩)) fun (a : Admission) =>
    commitAdmission now epoch p.state.cycle a
  let fastDelivered ← commitFastResults now epoch p.state.cycle results p.nextFlags
  updatePauseState now epoch p.state p.nextPausedTicks
  pure
    { admitted := p.due.isSome
      launch := p.trigger.map (·.batch)
      fastDelivered
      synchronizations := (p.trigger.map (·.synchronizations)).getD [] }

/-! ## Records -/

section Records
variable {now epoch cycle : ℕ} {m : TcuCycleModel}

/-- The kinds of the records of points. -/
def pointKinds : TraceKind → Bool
  | .waitZeroExecuted | .timingPointTriggered | .conditionCancelled | .timingPointEnqueued => true
  | _ => false

/-- The kinds of the records of flags and pauses. -/
def restKinds : TraceKind → Bool
  | .executionFlagsUpdated | .timerPaused | .timerResumed => true
  | _ => false

/-- The kinds of its records. -/
def kinds (kind : TraceKind) : Bool := pointKinds kind || restKinds kind

theorem commitTrigger_records {trigger : Trigger} :
    (commitTrigger now epoch cycle trigger).Logs (·.Of now epoch pointKinds) m := by
  refine .get_bind ?_
  split
  · exact .pure _
  · refine .set_bind <| .bind ?_ fun _ _ _ _ => .set_bind <|
      .emit_bind ⟨rfl, rfl, rfl⟩ <| .emitAll fun e he => ?_
    · split
      · exact .emit ⟨rfl, rfl, rfl⟩
      · exact .pure _
    · obtain ⟨event, -, rfl⟩ := List.mem_map.1 he
      exact ⟨rfl, rfl, rfl⟩

theorem commitAdmission_records {admission : Admission} :
    (commitAdmission now epoch cycle admission).Logs (·.Of now epoch pointKinds) m :=
  .modify_bind <| .get_bind <| .emit ⟨rfl, rfl, rfl⟩

theorem commitFastResults_records {results : List Completion} {flags : ExecutionFlags} :
    (commitFastResults now epoch cycle results flags).Logs (·.Of now epoch restKinds) m := by
  refine .modify_bind <| .bind (.emitAll fun e he => ?_) fun _ _ _ _ => .pure _
  obtain ⟨result, -, rfl⟩ := List.mem_map.1 he
  exact ⟨rfl, rfl, rfl⟩

theorem updatePauseState_records {state : TimingState} {ticks : ℕ} :
    (updatePauseState now epoch state ticks).Logs (·.Of now epoch restKinds) m := by
  refine .get_bind <| .bind ?_ fun _ _ _ _ => .modify _
  split
  · refine .emit ⟨rfl, rfl, ?_⟩
    dsimp only
    split <;> rfl
  · exact .pure _

theorem commit_records {candidate : Option TimingEvents} {results : List Completion} {p : Prepared} :
    (commit now epoch candidate results p).Logs (·.Of now epoch kinds) m := by
  have hpoint : ∀ r : TraceEvent, r.Of now epoch pointKinds → r.Of now epoch kinds :=
    fun r hr => ⟨hr.tick, hr.epoch, by simp [kinds, hr.kind]⟩
  have hrest : ∀ r : TraceEvent, r.Of now epoch restKinds → r.Of now epoch kinds :=
    fun r hr => ⟨hr.tick, hr.epoch, by simp [kinds, hr.kind]⟩
  refine .bind ?_ fun _ _ _ _ => .bind ?_ fun _ _ _ _ =>
    .bind (commitFastResults_records.mono hrest) fun _ _ _ _ =>
      .bind (updatePauseState_records.mono hrest) fun _ _ _ _ => .pure _
  · cases p.trigger with
    | none => exact .pure _
    | some t => exact commitTrigger_records.mono hpoint
  · cases candidate.bind fun c => p.due.map fun due => (⟨c, due⟩ : Admission) with
    | none => exact .pure _
    | some a => exact commitAdmission_records.mono hpoint

theorem quiet_close {terminal : EndOfStream} : (close terminal).Quiet :=
  .get_bind fun _ => .bind (.check _) fun _ _ => rfl

theorem quiet_reset {epochOrigin : ℕ} : (reset epochOrigin).Quiet := by
  refine .bind (.modify _) fun _ => .get_bind fun _ => .bind (.check _) fun _ => .bind ?_ fun _ =>
    .modify _
  split
  · exact .pure _
  · exact .check _

end Records

section Step
variable {m m' : TcuCycleModel} {now epoch : ℕ} {candidate : Option TimingEvents}
  {results : List Completion} {preflight : TriggeredEvents → Except Fault Unit}
  {synchronizationPaused : Bool} {syncPreflight : Option (List ℕ → Sim χ Unit)} {c c' : χ}
  {f : Fault} {l : List TraceEvent} {state : TimingState} {p : Prepared}

theorem step_eq_commit : (step now epoch candidate results preflight synchronizationPaused
    syncPreflight : Sim (TcuCycleModel × χ) TcuOutput) =
      prepare now epoch candidate results preflight synchronizationPaused syncPreflight >>=
        fun p => Proc.onFst (commit now epoch candidate results p) := by
  simp only [prepare, commit, Proc.bind_assoc, Proc.pure_bind, Proc.onFst_bind, Proc.onFst_pure]
  rfl

theorem prepareTrigger_logs {P : TraceEvent → Prop}
    (hcheck : ∀ check ∈ syncPreflight, ∀ targets c, (check targets).Logs P c) :
    (m.prepareTrigger now epoch state preflight syncPreflight).Logs P c := by
  unfold prepareTrigger
  split
  · exact .pure _
  split
  · exact .pure _
  · refine .lift_bind fun t _ => .lift_bind fun _ _ => .bind ?_ fun _ _ _ _ => .pure _
    split
    · exact .pure _
    · cases syncPreflight with
      | none => exact .check _
      | some check => exact hcheck check rfl t.synchronizations c

theorem prepare_logs {P : TraceEvent → Prop}
    (hcheck : ∀ check ∈ syncPreflight, ∀ targets c, (check targets).Logs P c) :
    (prepare now epoch candidate results preflight synchronizationPaused syncPreflight).Logs P
      (m, c) :=
  .get_bind <| .lift_bind fun _ _ => .bind (.zoom <| prepareTrigger_logs hcheck) fun _ _ _ _ =>
    .lift_bind fun _ _ => .lift_bind fun _ _ => .lift_bind fun _ _ => .pure _

theorem step_records (hcheck : ∀ check ∈ syncPreflight, ∀ targets c,
      (check targets).Logs (·.Of now epoch kinds) c) :
    (step now epoch candidate results preflight synchronizationPaused syncPreflight).Logs
      (·.Of now epoch kinds) (m, c) := by
  rw [step_eq_commit]
  exact .bind (prepare_logs hcheck) fun _ _ _ _ => .zoom commit_records

/-- The commits always complete. -/
theorem commit_returns :
    ∃ out m' l, (commit now epoch candidate results p).Returns m out m' l := by
  rcases hcommit : commit now epoch candidate results p m with ⟨f | out, m', l⟩
  · exfalso
    have h : (commit now epoch candidate results p).Raises m f m' l := hcommit
    simp only [commit, Proc.raises_bind_iff, not_raises_commitTrigger, not_raises_commitAdmission,
      not_raises_commitFastResults, not_raises_updatePauseState, Proc.not_raises_pure, and_false,
      false_and, exists_false, or_false] at h
  · exact ⟨out, m', l, hcommit⟩

theorem commit_admitted {out : TcuOutput}
    (h : (commit now epoch candidate results p).Returns m out m' l) :
    out.admitted = p.due.isSome := by
  simp only [commit, Proc.returns_bind_iff, Proc.returns_pure_iff] at h
  obtain ⟨_, _, _, _, -, ⟨_, _, _, _, -, ⟨_, _, _, _, -, ⟨_, _, _, _, -, ⟨rfl, -⟩, -⟩, -⟩, -⟩, -⟩ := h
  rfl

/-- The preparation of a trigger is a check of values, but for the synchronization check. -/
theorem prepareTrigger_eq : (∃ x, m.prepareTrigger now epoch state preflight syncPreflight =
      Proc.check x) ∨ ∃ check t, syncPreflight = some check ∧
        m.prepareTrigger now epoch state preflight syncPreflight =
          check t.synchronizations >>= fun _ => pure (some t) := by
  unfold prepareTrigger
  cases htiming : m.timing with
  | nil => exact .inl ⟨.ok none, rfl⟩
  | cons point rest =>
    dsimp only
    split
    · exact .inl ⟨.ok none, rfl⟩
    rw [Proc.lift_bind]
    cases m.assembleTrigger now epoch state point with
    | error f => exact .inl ⟨.error f, rfl⟩
    | ok t =>
      dsimp only
      rw [Proc.lift_bind]
      cases preflight t.batch with
      | error f => exact .inl ⟨.error f, rfl⟩
      | ok u =>
        dsimp only
        by_cases hnone : t.synchronizations = []
        · rw [if_pos hnone]
          exact .inl ⟨.ok (some t), Proc.pure_bind⟩
        · rw [if_neg hnone]
          cases syncPreflight with
          | none => exact .inl ⟨_, rfl⟩
          | some check => exact .inr ⟨check, t, rfl, rfl⟩

section After
variable {last : ℕ}

theorem prepareTrigger_raisesAfter
    (h : (m.prepareTrigger now epoch state preflight syncPreflight).RaisesAfter last c f c' l) :
    l = [] ∨ ∃ check targets, syncPreflight = some check ∧ (check targets).RaisesAfter last c f c' l := by
  rcases prepareTrigger_eq with ⟨x, heq⟩ | ⟨check, t, hcheck, heq⟩
  · rw [heq] at h
    exact .inl (Proc.raisesAfter_lift_iff.1 h).2.2.symm
  · rw [heq] at h
    simp only [Proc.raisesAfter_bind_iff, Proc.not_raisesAfter_pure, and_false, false_and,
      exists_false, or_false] at h
    exact .inr ⟨check, t.synchronizations, hcheck, h⟩

theorem prepareTrigger_returnsAfter {trigger : Option Trigger}
    (h : (m.prepareTrigger now epoch state preflight syncPreflight).ReturnsAfter last c trigger c' l) :
    (trigger.isSome → m.timing ≠ []) ∧ (l = [] ∨ ∃ check targets, syncPreflight = some check ∧
      (check targets).ReturnsAfter last c () c' l) := by
  constructor
  · intro hsome hnil
    rw [prepareTrigger, hnil] at h
    obtain ⟨rfl, -⟩ := Proc.returnsAfter_pure_iff.1 h
    simp at hsome
  · rcases prepareTrigger_eq with ⟨x, heq⟩ | ⟨check, t, hcheck, heq⟩
    · rw [heq] at h
      exact .inl (Proc.returnsAfter_lift_iff.1 h).2.2.symm
    · rw [heq] at h
      obtain ⟨_, c₁, l₁, l₂, hchecked, hpure, rfl⟩ := Proc.returnsAfter_bind_iff.1 h
      obtain ⟨-, rfl, rfl⟩ := Proc.returnsAfter_pure_iff.1 hpure
      rw [List.append_nil]
      exact .inr ⟨check, t.synchronizations, hcheck, hchecked⟩

/-- Checks that fault do not touch the unit. -/
theorem prepare_raisesAfter (h : (prepare now epoch candidate results preflight synchronizationPaused
    syncPreflight).RaisesAfter last (m, c) f (m', c') l) : m' = m ∧ (l = [] ∨
      ∃ check targets, syncPreflight = some check ∧ l = ((check targets).run (some last) c).log) := by
  simp only [prepare, Proc.raisesAfter_bind_iff, Proc.returnsAfter_get_iff, Proc.not_raisesAfter_get,
    Proc.returnsAfter_lift_iff, Proc.raisesAfter_lift_iff, Proc.returnsAfter_onSnd_iff,
    Proc.raisesAfter_onSnd_iff, Proc.not_raisesAfter_pure, Log.latest_nil, require_eq_ok_iff,
    require_eq_error_iff,
    Prod.exists, Prod.mk.injEq, exists_const, and_assoc, exists_and_left, exists_eq_left',
    List.nil_append, exists_eq_right, false_or, and_false, false_and, exists_false, or_false] at h
  rcases h with ⟨-, -, rfl, -, rfl⟩ | ⟨-, ⟨h, rfl⟩ | ⟨trigger, m₁, c₁, l₁, h, rfl, l₂, hrest, rfl⟩⟩
  · exact ⟨rfl, .inl rfl⟩
  · refine ⟨rfl, (prepareTrigger_raisesAfter h).imp_right ?_⟩
    rintro ⟨check, targets, hcheck, hraises⟩
    exact ⟨check, targets, hcheck, (congrArg Outcome.log hraises).symm⟩
  · have hlog : l₁ = [] ∨ ∃ check targets, syncPreflight = some check ∧
        l₁ = ((check targets).run (some last) c).log := by
      refine (prepareTrigger_returnsAfter h).2.imp_right ?_
      rintro ⟨check, targets, hcheck, hreturns⟩
      exact ⟨check, targets, hcheck, (congrArg Outcome.log hreturns).symm⟩
    rcases hrest with ⟨-, rfl, -, rfl⟩ | ⟨_, -, ⟨-, rfl, -, rfl⟩ | ⟨_, -, -, rfl, -, rfl⟩⟩
    all_goals exact ⟨rfl, by rwa [List.append_nil]⟩

/-- What the commits rely on. -/
theorem prepare_returnsAfter (h : (prepare now epoch candidate results preflight
    synchronizationPaused syncPreflight).ReturnsAfter last (m, c) p (m', c') l) :
    m' = m ∧ (p.trigger.isSome → m.timing ≠ []) ∧
      (∀ a ∈ candidate, p.due.isSome → ∀ e ∈ a.events, e.action.port < m.profile.timing.ports) ∧
      (l = [] ∨ ∃ check targets, syncPreflight = some check ∧
        (check targets).ReturnsAfter last c () c' l) := by
  simp only [prepare, Proc.returnsAfter_bind_iff, Proc.returnsAfter_get_iff,
    Proc.returnsAfter_lift_iff, Proc.returnsAfter_onSnd_iff, Proc.returnsAfter_pure_iff,
    Log.latest_nil, require_eq_ok_iff, Prod.exists, Prod.mk.injEq, exists_const, and_assoc, exists_and_left,
    exists_eq_left', List.nil_append, exists_eq_right] at h
  obtain ⟨-, trigger, m₁, c₁, l₁, htrigger, rfl, l₂, ⟨due, hdue, flags, -, ticks, -, rfl, rfl, rfl, rfl⟩,
    rfl⟩ := h
  obtain ⟨hsome, hlog⟩ := prepareTrigger_returnsAfter htrigger
  refine ⟨rfl, hsome, fun a ha hsome => ?_, by rwa [List.append_nil]⟩
  obtain rfl := ha
  obtain ⟨d, rfl⟩ := Option.isSome_iff_exists.1 hsome
  exact (wellFormed_of_validate (prepareAdmission_eq_some hdue).valid).port

end After

/-- Checks that succeed have prepared the trigger and the admission, and do not touch the unit. -/
theorem prepare_parts (h : (prepare now epoch candidate results preflight synchronizationPaused
    syncPreflight).Returns (m, c) p (m', c') l) : m' = m ∧
      (∃ c₁ l₁, (m.prepareTrigger now epoch (m.currentTimingState now synchronizationPaused) preflight
        syncPreflight).Returns c p.trigger c₁ l₁) ∧
      ∀ a ∈ candidate, m.prepareAdmission now epoch a
        (m.currentTimingState now synchronizationPaused).pause = .ok p.due := by
  simp only [prepare, Proc.returns_bind_iff, Proc.returns_get_iff, Proc.returns_lift_iff,
    Proc.returns_onSnd_iff, Proc.returns_pure_iff, require_eq_ok_iff, Prod.exists, Prod.mk.injEq,
    exists_const, and_assoc, exists_and_left, exists_eq_left', List.nil_append,
    exists_eq_right] at h
  obtain ⟨-, trigger, m₁, c₁, l₁, htrigger, rfl, l₂, ⟨due, hdue, flags, -, ticks, -, rfl, rfl, -⟩, -⟩ := h
  refine ⟨rfl, ⟨c₁, l₁, htrigger⟩, fun a ha => ?_⟩
  obtain rfl := ha
  exact hdue

/-- The commits complete on every tick that is not before the last record. -/
theorem commit_returnsAfter {last : ℕ} (hlast : last ≤ now) :
    ∃ out m' l, (commit now epoch candidate results p).ReturnsAfter last m out m' l := by
  obtain ⟨out, m', l, h⟩ : ∃ out m' l, (commit now epoch candidate results p).Returns m out m' l :=
    commit_returns
  exact ⟨out, m', l, ((commit_records.mono fun _ hr => hr.at).returnsAfter_iff hlast).2 h⟩

/-- A step is its checks and then its commits. On a tick that is not before the last record of the
trace, also after what the caller's own synchronization check has recorded, the checks do not touch
the unit and leave no records but those of that check, and the commits cannot fault and find the head
of the queue and the ports that they need; so a step that faults leaves the unit as it was. -/
theorem step_atomic (m : TcuCycleModel) (c : χ) (now epoch last : ℕ)
    (candidate : Option TimingEvents) (results : List Completion)
    (preflight : TriggeredEvents → Except Fault Unit) (synchronizationPaused : Bool)
    (syncPreflight : Option (List ℕ → Sim χ Unit)) (hlast : last ≤ now)
    (hcheck : ∀ check ∈ syncPreflight, ∀ targets c' l,
      (check targets).ReturnsAfter last c () c' l → Log.latest last l ≤ now) :
    (∀ f m' c' l, (step now epoch candidate results preflight synchronizationPaused
        syncPreflight).RaisesAfter last (m, c) f (m', c') l →
      m' = m ∧ (l = [] ∨ ∃ check targets, syncPreflight = some check ∧
        l = ((check targets).run (some last) c).log)) ∧
    (step now epoch candidate results preflight synchronizationPaused
        syncPreflight : Sim (TcuCycleModel × χ) TcuOutput) =
      prepare now epoch candidate results preflight synchronizationPaused syncPreflight >>=
        (fun p => Proc.onFst (commit now epoch candidate results p)) ∧
    (∀ p m' c' l, (prepare now epoch candidate results preflight synchronizationPaused
        syncPreflight).ReturnsAfter last (m, c) p (m', c') l →
      m' = m ∧ Log.latest last l ≤ now ∧ (p.trigger.isSome → m.timing ≠ []) ∧
        ∀ a ∈ candidate, p.due.isSome → ∀ e ∈ a.events, e.action.port < m.profile.timing.ports) ∧
    ∀ p m₁ last', last' ≤ now → ∃ out m₂ l,
      (commit now epoch candidate results p).ReturnsAfter last' m₁ out m₂ l := by
  have hprepare : ∀ p m' c' l, (prepare now epoch candidate results preflight synchronizationPaused
      syncPreflight).ReturnsAfter last (m, c) p (m', c') l → Log.latest last l ≤ now := by
    intro p m' c' l h
    rcases (prepare_returnsAfter h).2.2.2 with rfl | ⟨check, targets, hsome, hchecked⟩
    · exact hlast
    · exact hcheck check hsome targets c' l hchecked
  refine ⟨?_, step_eq_commit, fun p m' c' l h => ?_, fun p m₁ last' => commit_returnsAfter⟩
  · intro f m' c' l h
    rw [step_eq_commit, Proc.raisesAfter_bind_iff] at h
    rcases h with h | ⟨p, ⟨m₁, c₁⟩, l₁, l₂, hp, h, -⟩
    · exact prepare_raisesAfter h
    · obtain ⟨out, m₂, k, hreturns⟩ : ∃ out m₂ k, (commit now epoch candidate results p).ReturnsAfter
          (Log.latest last l₁) m₁ out m₂ k := commit_returnsAfter (hprepare p m₁ c₁ l₁ hp)
      exact absurd (Proc.raisesAfter_onFst_iff.1 h).1 hreturns.not_raisesAfter
  · obtain ⟨hm, htrigger, hdue, -⟩ := prepare_returnsAfter h
    exact ⟨hm, hprepare p m' c' l h, htrigger, hdue⟩

end Step

section Probe

/-- A unit whose only point is due at tick 1020. -/
def oneGateQueued : TcuCycleModel :=
  (step (χ := Unit) 980 1 (some oneGateRequest) [] (fun _ => pure ()) false none
    (oneGateUnit, ())).state.1

/-- A synchronization check that leaves a record. -/
def recordCheck (_ : List ℕ) : Sim Unit Unit :=
  Proc.emit { tick := 1010, epoch := 1, kind := .syncReceived }

/-- A launch that the device refuses leaves the point where it is. -/
theorem step_atomic_refused : ∃ f m' l,
    (step 1020 1 none [] (fun _ => .error ⟨.resourceConflict, "refused"⟩) false
      (some recordCheck)).RaisesAfter 1000 (oneGateQueued, ()) f (m', ()) l ∧
    f.code = .resourceConflict ∧ m' = oneGateQueued ∧ m'.timing ≠ [] := by
  have hraises : ∃ f m' l, (step 1020 1 none [] (fun _ => .error ⟨.resourceConflict, "refused"⟩) false
      (some recordCheck)).RaisesAfter 1000 (oneGateQueued, ()) f (m', ()) l ∧
      f.code = .resourceConflict ∧ m'.timing ≠ [] := ⟨_, _, _, rfl, rfl, by decide⟩
  obtain ⟨f, m', l, hraises, hcode, htiming⟩ := hraises
  obtain ⟨hfault, -⟩ := step_atomic oneGateQueued () 1020 1 1000 none []
    (fun _ => .error ⟨.resourceConflict, "refused"⟩) false (some recordCheck) (by decide) (by
      intro check hcheck targets c' l h
      obtain rfl := Option.some.inj hcheck
      obtain rfl : [_] = l := congrArg Outcome.log h
      decide)
  exact ⟨f, m', l, hraises, hcode, (hfault f m' () l hraises).1, htiming⟩

/-- On a tick before the last record of the trace the commits fault after the point is gone. -/
theorem step_out_of_order : ∃ m' l,
    (step (χ := Unit) 1020 1 none [] (fun _ => pure ()) false none).RaisesAfter 2000
      (oneGateQueued, ()) ⟨.protocol, "trace time decreased"⟩ (m', ()) l ∧
    oneGateQueued.timing ≠ [] ∧ m'.timing = [] :=
  ⟨_, _, rfl, by decide, rfl⟩

end Probe
end TcuCycleModel
end Qsbit

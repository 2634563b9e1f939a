import Qsbit.Core.Handshake
import Qsbit.Records
import Qsbit.TraceModel.Buffers

/-!
# The records of a core

What the two sides of a core append to the trace, as far as the queues of the player depend
on it: a codeword that is staged, a request that is submitted, a point that is triggered or
admitted. All other records of a core belong to the session and move nothing.

## Main definitions

* `Plain` — a record of the session that moves nothing.
* `queued`, `submissions` — the records of an operation that move something.
* `Triggered`, `Enqueued` — those of a step of the unit.
-/
namespace Qsbit
namespace TraceModel

/-- A record of the session that moves nothing in the queues of the player. -/
def Plain (epoch : ℕ) (e : TraceEvent) : Prop := Within epoch (.event e) ∧ e.kind.moves = false

theorem Plain.of {now epoch : ℕ} {kinds : TraceKind → Bool} {e : TraceEvent}
    (hkinds : ∀ k, kinds k = true → k.plain = true) (h : e.Of now epoch kinds) : Plain epoch e := by
  have hplain := hkinds e.kind h.kind
  simp only [TraceKind.plain, Bool.and_eq_true, Bool.not_eq_true', decide_eq_true_eq] at hplain
  obtain ⟨⟨hmoves, hstarted⟩, hreset⟩ := hplain
  exact ⟨⟨by simp [Record.startsSession, hstarted, hreset], h.epoch⟩, hmoves⟩

theorem plain_of_arrivals (k : TraceKind) (h : TimingControl.arrivals k = true) :
    k.plain = true := by
  cases k <;> first | rfl | cases h

theorem plain_of_rest (k : TraceKind) (h : TcuCycleModel.restKinds k = true) :
    k.plain = true := by
  cases k <;> first | rfl | cases h

theorem plain_of_sync (k : TraceKind) (h : SyncUnit.kinds k = true) : k.plain = true := by
  cases k <;> first | rfl | cases h

theorem plain_of_decoders (k : TraceKind) (h : DecoderSystem.kinds k = true) : k.plain = true := by
  cases k <;> first | rfl | cases h

theorem plain_of_device (k : TraceKind) (h : ControlElectronics.kinds k = true) :
    k.plain = true := by
  cases k <;> first | rfl | cases h

/-- The records of a core within a session, of which `moved` move something. -/
structure Recorded (epoch : ℕ) (moved l : List TraceEvent) : Prop where
  within : ∀ e ∈ l, Within epoch (.event e)
  moved : l.filter (·.kind.moves) = moved

section Recorded
variable {epoch : ℕ} {moved moved' l l' : List TraceEvent}

theorem Recorded.nil : Recorded epoch [] [] := ⟨by simp, rfl⟩

theorem Recorded.of_plain (h : ∀ e ∈ l, Plain epoch e) : Recorded epoch [] l := by
  refine ⟨fun e he => (h e he).1, List.filter_eq_nil_iff.2 fun e he => ?_⟩
  simp [(h e he).2]

theorem Recorded.of_moves (hw : ∀ e ∈ l, Within epoch (.event e))
    (hm : ∀ e ∈ l, e.kind.moves = true) : Recorded epoch l l :=
  ⟨hw, List.filter_eq_self.2 hm⟩

theorem Recorded.single {e : TraceEvent} (hw : Within epoch (.event e)) (hm : e.kind.moves = true) :
    Recorded epoch [e] [e] :=
  .of_moves (by simpa using hw) (by simpa using hm)

theorem Recorded.append (h : Recorded epoch moved l) (h' : Recorded epoch moved' l') :
    Recorded epoch (moved ++ moved') (l ++ l') := by
  refine ⟨fun e he => ?_, by rw [List.filter_append, h.moved, h'.moved]⟩
  rcases List.mem_append.1 he with he | he
  · exact h.within e he
  · exact h'.within e he

end Recorded

/-! ## The timing control -/

section Control
variable {s s' : ControlState} {now epoch : ℕ} {l : List TraceEvent}

theorem receive_logs : (TimingControl.receive now epoch).Logs (Plain epoch) s :=
  TimingControl.receive_records.mono fun _ => .of plain_of_arrivals

/-- The record of a codeword that has been staged. -/
def queued (operation : ControlOperation) (now epoch : ℕ) (s : ControlState) : List TraceEvent :=
  match operation.command with
  | .codeword port word =>
      [{ tick := now, epoch, kind := .codewordQueued, id := operation.instruction
         cycle := s.control.timePoint, port, codeword := word }]
  | _ => []

/-- The record of a submitted request. -/
def submission (now epoch time : ℕ) (r : TimingEvents) : TraceEvent :=
  { tick := now, epoch, kind := .timingPointSubmitted, label := r.point.label, cycle := time }

/-- The records of what has been submitted. -/
def submissions (now epoch : ℕ) (s s' : ControlState) : List TraceEvent :=
  (TimingControl.added s.links.timingEvents s'.links.timingEvents).map
    (submission now epoch s.control.timePoint)

theorem enqueue_log {b : Bool} (h : (TimingControl.enqueue now epoch).Returns s b s' l) :
    l = submissions now epoch s s' := by
  have hnone : s'.links.timingEvents = s.links.timingEvents → submissions now epoch s s' = [] := by
    intro heq
    simp [submissions, heq]
  simp only [TimingControl.enqueue, Proc.returns_get_bind_iff] at h
  split at h
  · obtain ⟨-, rfl, rfl⟩ := Proc.returns_pure_iff.1 h
    rw [hnone rfl]
  · split at h
    · simp only [TimingControl.returns_setControl_bind_iff, Proc.returns_pure_iff] at h
      obtain ⟨-, rfl, rfl⟩ := h
      rw [hnone rfl]
    · simp only [Proc.returns_lift_bind_iff, TimingControl.returns_setControl_bind_iff,
        Proc.returns_modify_bind_iff, Proc.returns_emit_bind_iff, Proc.returns_pure_iff] at h
      obtain ⟨r, -, _, -, _, -, events, hevents, _, ⟨-, rfl, rfl⟩, rfl⟩ := h
      obtain ⟨-, eligible, rfl⟩ := Mailbox.publish_eq_ok hevents
      simp [submissions, submission]

theorem submissions_of_same (h : s'.links.timingEvents = s.links.timingEvents) :
    submissions now epoch s s' = [] := by simp [submissions, h]

/-- The records of submissions belong to the session and all of them move something. -/
theorem recorded_submissions :
    Recorded epoch (submissions now epoch s s') (submissions now epoch s s') := by
  refine .of_moves (fun e he => ?_) fun e he => ?_
  · obtain ⟨r, -, rfl⟩ := List.mem_map.1 he
    exact ⟨rfl, rfl⟩
  · obtain ⟨r, -, rfl⟩ := List.mem_map.1 he
    rfl

section Bodies
variable {result : Option ℕ}

theorem codeword_log {validate : EventSpec → Except Fault Unit} {instruction port word : ℕ}
    (h : (TimingControl.codeword validate instruction port word now epoch).Returns s result s' l) :
    l = [{ tick := now, epoch, kind := .codewordQueued, id := instruction
           cycle := s.control.timePoint, port, codeword := word }] ∧
      s'.links.timingEvents = s.links.timingEvents := by
  simp only [TimingControl.codeword, Proc.returns_get_bind_iff, Proc.returns_lift_bind_iff] at h
  obtain ⟨_, -, _, -, _, -, _, -, _, -, _, -, _, -, _, -, _, -, h⟩ := h
  obtain ⟨_, s₁, l₁, l₂, hcommit, hrest, rfl⟩ := Proc.returns_bind_iff.1 h
  obtain ⟨registers, hregisters, rfl⟩ := Proc.returns_zoom_iff.1 hcommit
  obtain rfl := TimingControl.quiet_commitReservation.returns hregisters
  simp only [TimingControl.returns_setControl_bind_iff, Proc.returns_emit_bind_iff,
    Proc.returns_pure_iff] at hrest
  obtain ⟨_, ⟨-, rfl, rfl⟩, rfl⟩ := hrest
  exact ⟨rfl, rfl⟩

/-- A call that submits and then appends plain records. -/
theorem recorded_of_enqueue {b : Bool} {s₀ s₁ : ControlState} {more : List TraceEvent}
    (h : (TimingControl.enqueue now epoch).Returns s₀ b s₁ l)
    (htime : s₀.control.timePoint = s.control.timePoint)
    (hfirst : s₀.links.timingEvents = s.links.timingEvents)
    (hlast : s'.links.timingEvents = s₁.links.timingEvents) (hmore : ∀ e ∈ more, Plain epoch e) :
    Recorded epoch (submissions now epoch s s') (l ++ more) := by
  have hsame : submissions now epoch s s' = submissions now epoch s₀ s₁ := by
    simp [submissions, htime, hfirst, hlast]
  rw [enqueue_log h, hsame]
  have happend : Recorded epoch (submissions now epoch s₀ s₁ ++ [])
      (submissions now epoch s₀ s₁ ++ more) :=
    recorded_submissions.append (.of_plain hmore)
  rwa [List.append_nil] at happend

theorem executeZeroWait_log
    (h : (TimingControl.executeZeroWait now epoch).Returns s result s' l) :
    Recorded epoch (submissions now epoch s s') l := by
  have htime : s.control.waitForNext.timePoint = s.control.timePoint := by
    unfold TimingControl.waitForNext
    split <;> rfl
  simp only [TimingControl.executeZeroWait, TimingControl.returns_setControl_bind_iff] at h
  obtain ⟨b, s₁, l₁, l₂, henqueue, h, rfl⟩ := Proc.returns_bind_iff.1 h
  cases b with
  | false =>
    obtain ⟨-, rfl, rfl⟩ := Proc.returns_pure_iff.1 h
    exact recorded_of_enqueue henqueue htime rfl rfl (by simp)
  | true =>
    simp only [if_true, TimingControl.returns_setControl_bind_iff, Proc.returns_pure_iff] at h
    obtain ⟨-, rfl, rfl⟩ := h
    exact recorded_of_enqueue henqueue htime rfl rfl (by simp)

theorem advanceTime_log {cycles : ℕ}
    (h : (TimingControl.advanceTime cycles now epoch).Returns s result s' l) :
    Recorded epoch (submissions now epoch s s') l := by
  simp only [TimingControl.advanceTime, Proc.returns_get_bind_iff, Proc.returns_lift_bind_iff] at h
  obtain ⟨_, -, h⟩ := h
  obtain ⟨b, s₁, l₁, l₂, henqueue, h, rfl⟩ := Proc.returns_bind_iff.1 h
  cases b with
  | false =>
    obtain ⟨-, rfl, rfl⟩ := Proc.returns_pure_iff.1 h
    exact recorded_of_enqueue henqueue rfl rfl rfl (by simp)
  | true =>
    simp only [if_true, TimingControl.returns_setControl_bind_iff, Proc.returns_pure_iff] at h
    obtain ⟨-, rfl, rfl⟩ := h
    exact recorded_of_enqueue henqueue rfl rfl rfl (by simp)

theorem fetchMeasurement_log {instruction qubit : ℕ}
    (h : (TimingControl.fetchMeasurement instruction qubit now epoch).Returns s result s' l) :
    Recorded epoch (submissions now epoch s s') l := by
  simp only [TimingControl.fetchMeasurement, Proc.returns_get_bind_iff,
    Proc.returns_lift_bind_iff] at h
  obtain ⟨_, -, h⟩ := h
  obtain ⟨b, s₁, l₁, l₂, henqueue, h, rfl⟩ := Proc.returns_bind_iff.1 h
  cases b with
  | false =>
    obtain ⟨-, rfl, rfl⟩ := Proc.returns_pure_iff.1 h
    exact recorded_of_enqueue henqueue rfl rfl rfl (by simp)
  | true =>
    simp only [if_true, Proc.returns_get_bind_iff, Proc.returns_lift_bind_iff] at h
    obtain ⟨value, -, h⟩ := h
    cases value with
    | none =>
      obtain ⟨-, rfl, rfl⟩ := Proc.returns_pure_iff.1 h
      exact recorded_of_enqueue henqueue rfl rfl rfl (by simp)
    | some v =>
      simp only [Proc.returns_emit_bind_iff, Proc.returns_pure_iff] at h
      obtain ⟨_, ⟨-, rfl, rfl⟩, rfl⟩ := h
      refine recorded_of_enqueue henqueue rfl rfl rfl ?_
      simp only [List.mem_singleton, forall_eq]
      exact ⟨⟨rfl, rfl⟩, rfl⟩

theorem halt_log (h : (TimingControl.halt now epoch).Returns s result s' l) :
    Recorded epoch (submissions now epoch s s') l := by
  obtain ⟨b, s₁, l₁, l₂, henqueue, h, rfl⟩ := Proc.returns_bind_iff.1 h
  cases b with
  | false =>
    obtain ⟨-, rfl, rfl⟩ := Proc.returns_pure_iff.1 h
    exact recorded_of_enqueue henqueue rfl rfl rfl (by simp)
  | true =>
    simp only [if_true, Proc.returns_get_bind_iff, Proc.returns_lift_bind_iff,
      Proc.returns_set_bind_iff, Proc.returns_pure_iff] at h
    obtain ⟨_, -, -, rfl, rfl⟩ := h
    exact recorded_of_enqueue henqueue rfl rfl rfl (by simp)

theorem synchronize_log {validateSync : Option (ℕ → Except Fault Unit)} {target : ℕ}
    (h : (TimingControl.synchronize validateSync target).Returns s result s' l) :
    l = [] ∧ s'.links.timingEvents = s.links.timingEvents := by
  simp only [TimingControl.synchronize, Proc.returns_get_bind_iff, Proc.returns_lift_bind_iff,
    TimingControl.returns_setControl_bind_iff, Proc.returns_pure_iff] at h
  obtain ⟨_, -, _, -, _, -, _, -, -, rfl, rfl⟩ := h
  exact ⟨rfl, rfl⟩

end Bodies

/-- The records of one operation. -/
theorem execute_log {validate : EventSpec → Except Fault Unit}
    {validateSync : Option (ℕ → Except Fault Unit)} {operation : ControlOperation}
    {result : Option ℕ}
    (h : (TimingControl.execute validate validateSync operation now epoch).Returns s result s' l) :
    Recorded epoch (queued operation now epoch s ++ submissions now epoch s s') l := by
  simp only [TimingControl.execute, Proc.returns_get_bind_iff, Proc.returns_lift_bind_iff,
    TimingControl.returns_setControl_bind_iff] at h
  obtain ⟨_, -, _, -, h⟩ := h
  obtain ⟨res, s₁, l₁, l₂, hbody, hrest, rfl⟩ := Proc.returns_bind_iff.1 h
  -- That the operation is no longer held logs nothing and leaves the links alone.
  have hend : l₂ = [] ∧ s'.links.timingEvents = s₁.links.timingEvents := by
    obtain ⟨_, s₂, l₃, l₄, hrelease, hpure, rfl⟩ := Proc.returns_bind_iff.1 hrest
    obtain ⟨-, rfl, rfl⟩ := Proc.returns_pure_iff.1 hpure
    split at hrelease
    · obtain ⟨rfl, rfl⟩ := TimingControl.returns_setControl_iff.1 hrelease
      exact ⟨rfl, rfl⟩
    · obtain ⟨-, rfl, rfl⟩ := Proc.returns_pure_iff.1 hrelease
      exact ⟨rfl, rfl⟩
  obtain ⟨rfl, hlinks⟩ := hend
  have hsame : submissions now epoch s s' = submissions now epoch s s₁ := by
    simp [submissions, hlinks]
  rw [List.append_nil, hsame]
  have hqueued : (∀ port word, operation.command ≠ .codeword port word) →
      queued operation now epoch s ++ submissions now epoch s s₁ = submissions now epoch s s₁ := by
    intro hne
    unfold queued
    split
    · rename_i port word hcommand
      exact absurd hcommand (hne port word)
    · rfl
  cases hcommand : operation.command with
  | codeword port word =>
    simp only [hcommand] at hbody
    obtain ⟨rfl, hlinks₁⟩ := codeword_log hbody
    have hnone : submissions now epoch s s₁ = [] := submissions_of_same hlinks₁
    rw [hnone, List.append_nil, queued, hcommand]
    exact .single ⟨rfl, rfl⟩ rfl
  | wait cycles =>
    simp only [hcommand] at hbody
    rw [hqueued (by simp [hcommand])]
    split at hbody
    · exact (executeZeroWait_log hbody :)
    · exact (advanceTime_log hbody :)
  | fetchMeasurement qubit =>
    simp only [hcommand] at hbody
    rw [hqueued (by simp [hcommand])]
    exact (fetchMeasurement_log hbody :)
  | halt =>
    simp only [hcommand] at hbody
    rw [hqueued (by simp [hcommand])]
    exact (halt_log hbody :)
  | synchronize target =>
    simp only [hcommand] at hbody
    obtain ⟨rfl, hlinks₁⟩ := synchronize_log hbody
    have hnone : submissions now epoch s s₁ = [] := submissions_of_same hlinks₁
    rw [hqueued (by simp [hcommand]), hnone]
    exact .nil

end Control

/-! ## The timing control unit -/

section Unit
variable {m m' : TcuCycleModel} {now epoch cycle : ℕ} {l : List TraceEvent} {u : Unit}

/-- The record of the point that a step has triggered. -/
def triggered (now epoch cycle : ℕ) (m : TcuCycleModel) (launched : Bool) : List TraceEvent :=
  if launched then
    m.timing.head?.toList.map fun head =>
      { tick := now, epoch, kind := .timingPointTriggered, label := head.point.label, cycle }
  else []

/-- The record of the point that a step has admitted. -/
def enqueued (now epoch cycle : ℕ) (m' : TcuCycleModel) (admitted : Bool) : List TraceEvent :=
  if admitted then
    [{ tick := now, epoch, kind := .timingPointEnqueued, label := m'.lastLabel, cycle
       value := m'.timing.length }]
  else []

theorem commitTrigger_log {trigger : Option TcuCycleModel.Trigger}
    (h : (Proc.forSome trigger (TcuCycleModel.commitTrigger now epoch cycle)).Returns m u m' l) :
    Recorded epoch (triggered now epoch cycle m trigger.isSome) l := by
  cases trigger with
  | none =>
    obtain ⟨-, -, rfl⟩ := Proc.returns_pure_iff.1 h
    exact .nil
  | some t =>
    simp only [Proc.forSome_some, TcuCycleModel.commitTrigger, Proc.returns_get_bind_iff] at h
    cases htiming : m.timing with
    | nil =>
      simp only [htiming, Proc.returns_pure_iff] at h
      obtain ⟨-, -, rfl⟩ := h
      simpa [triggered, htiming] using Recorded.nil
    | cons head rest =>
      simp only [htiming, Proc.returns_set_bind_iff] at h
      obtain ⟨_, m₁, l₁, l₂, hwait, hrest, rfl⟩ := Proc.returns_bind_iff.1 h
      simp only [Proc.returns_set_bind_iff, Proc.returns_emit_bind_iff,
        Proc.returns_emitAll_iff] at hrest
      obtain ⟨l₃, ⟨-, rfl⟩, rfl⟩ := hrest
      have hwaited : ∀ e ∈ l₁, Plain epoch e := by
        split at hwait
        · obtain ⟨-, rfl⟩ := Proc.returns_emit_iff.1 hwait
          simp only [List.mem_singleton, forall_eq]
          exact ⟨⟨rfl, rfl⟩, rfl⟩
        · obtain ⟨-, -, rfl⟩ := Proc.returns_pure_iff.1 hwait
          simp
      have hcancelled : ∀ e ∈ t.cancelled.map fun event =>
          ({ tick := now, epoch, kind := .conditionCancelled, id := event.id
             label := head.point.label, cycle, port := event.action.port
             operation := event.action.operation, targets := event.action.targets } : TraceEvent),
          Plain epoch e := by
        intro e he
        obtain ⟨event, -, rfl⟩ := List.mem_map.1 he
        exact ⟨⟨rfl, rfl⟩, rfl⟩
      have hhead : Recorded epoch (triggered now epoch cycle m (some t).isSome)
          [{ tick := now, epoch, kind := .timingPointTriggered, label := head.point.label, cycle }] := by
        rw [triggered, if_pos Option.isSome_some, htiming]
        exact .single ⟨rfl, rfl⟩ rfl
      have hall := (Recorded.of_plain hwaited).append (hhead.append (.of_plain hcancelled))
      rwa [List.append_nil] at hall

theorem commitAdmission_log {admission : Option TcuCycleModel.Admission}
    (h : (Proc.forSome admission fun a => TcuCycleModel.commitAdmission now epoch cycle a).Returns
      m u m' l) : Recorded epoch (enqueued now epoch cycle m' admission.isSome) l := by
  cases admission with
  | none =>
    obtain ⟨-, -, rfl⟩ := Proc.returns_pure_iff.1 h
    exact .nil
  | some a =>
    simp only [Proc.forSome_some, TcuCycleModel.commitAdmission, Proc.returns_modify_bind_iff,
      Proc.returns_get_bind_iff, Proc.returns_emit_iff] at h
    obtain ⟨rfl, rfl⟩ := h
    exact .single ⟨rfl, rfl⟩ rfl

theorem commitFastResults_logs {results : List Completion} {flags : ExecutionFlags} :
    (TcuCycleModel.commitFastResults now epoch cycle results flags).Logs (Plain epoch) m :=
  TcuCycleModel.commitFastResults_records.mono fun _ => .of plain_of_rest

theorem updatePauseState_logs {state : TcuCycleModel.TimingState} {ticks : ℕ} :
    (TcuCycleModel.updatePauseState now epoch state ticks).Logs (Plain epoch) m :=
  TcuCycleModel.updatePauseState_records.mono fun _ => .of plain_of_rest

theorem quiet_prepareTrigger {χ : Type} {state : TcuCycleModel.TimingState}
    {preflight : TriggeredEvents → Except Fault Unit}
    {syncPreflight : Option (List ℕ → Sim χ Unit)}
    (hquiet : ∀ check ∈ syncPreflight, ∀ targets, (check targets).Quiet) :
    (m.prepareTrigger now epoch state preflight syncPreflight).Quiet := by
  intro c
  have hlogs : (m.prepareTrigger now epoch state preflight syncPreflight).Logs (fun _ => False) c :=
    TcuCycleModel.prepareTrigger_logs fun check hcheck targets _ =>
      .of_quiet (hquiet check hcheck targets)
  exact List.eq_nil_iff_forall_not_mem.2 hlogs

/-- The records of a step of the unit: the point it has triggered and the one it has admitted. -/
theorem step_log {χ : Type} {candidate : Option TimingEvents} {results : List Completion}
    {preflight : TriggeredEvents → Except Fault Unit} {paused : Bool}
    {syncPreflight : Option (List ℕ → Sim χ Unit)} {c c' : χ} {out : TcuOutput}
    (hquiet : ∀ check ∈ syncPreflight, ∀ targets, (check targets).Quiet)
    (h : (TcuCycleModel.step now epoch candidate results preflight paused syncPreflight).Returns
      (m, c) out (m', c') l) :
    Recorded epoch
      (triggered now epoch (m.currentTimingState now paused).cycle m out.launch.isSome ++
        enqueued now epoch (m.currentTimingState now paused).cycle m' out.admitted) l := by
  simp only [TcuCycleModel.step, Proc.returns_get_bind_iff, Proc.returns_lift_bind_iff] at h
  obtain ⟨_, -, h₀⟩ := h
  obtain ⟨trigger, ⟨m₁, c₁⟩, l₁, k₁, htrigger, h₁, rfl⟩ := Proc.returns_bind_iff.1 h₀
  simp only [Proc.returns_lift_bind_iff] at h₁
  obtain ⟨due, hdue, flags, -, ticks, -, h₂⟩ := h₁
  obtain ⟨_, ⟨m₂, c₂⟩, l₂, k₂, hfire, h₃, rfl⟩ := Proc.returns_bind_iff.1 h₂
  obtain ⟨_, ⟨m₃, c₃⟩, l₃, k₃, hadmit, h₄, rfl⟩ := Proc.returns_bind_iff.1 h₃
  obtain ⟨credits, ⟨m₄, c₄⟩, l₄, k₄, hfast, h₅, rfl⟩ := Proc.returns_bind_iff.1 h₄
  obtain ⟨_, ⟨m₅, c₅⟩, l₅, k₅, hpause, hpure, rfl⟩ := Proc.returns_bind_iff.1 h₅
  obtain ⟨rfl, heq, rfl⟩ := Proc.returns_pure_iff.1 hpure
  obtain ⟨rfl, rfl⟩ := Prod.mk.inj heq
  obtain ⟨hprepare, rfl⟩ := Proc.returns_onSnd_iff.1 htrigger
  obtain rfl := (quiet_prepareTrigger hquiet).returns hprepare
  have hfired := commitTrigger_log (Proc.returns_onFst_iff.1 hfire).1
  have hadmitted := commitAdmission_log (Proc.returns_onFst_iff.1 hadmit).1
  have hfast' := (Proc.returns_onFst_iff.1 hfast).1
  have hpause' := (Proc.returns_onFst_iff.1 hpause).1
  -- What follows the admission leaves the queue alone.
  have hsame : m₅.lastLabel = m₃.lastLabel ∧ m₅.timing = m₃.timing := by
    rw [TcuCycleModel.updatePauseState_returns hpause',
      (TcuCycleModel.commitFastResults_returns hfast').1]
    exact ⟨rfl, rfl⟩
  have hdue' : (candidate.bind fun c => due.map (TcuCycleModel.Admission.mk c)).isSome =
      due.isSome := by
    cases candidate with
    | none =>
      obtain rfl := Except.pure_eq_ok_iff.1 hdue
      rfl
    | some c => cases due <;> rfl
  have henqueued : enqueued now epoch (m.currentTimingState now paused).cycle m₅ due.isSome =
      enqueued now epoch (m.currentTimingState now paused).cycle m₃ due.isSome := by
    simp [enqueued, hsame]
  rw [hdue'] at hadmitted
  have hrest : Recorded epoch [] (l₄ ++ (l₅ ++ [])) :=
    (Recorded.of_plain (commitFastResults_logs.returns hfast')).append <|
      (Recorded.of_plain (updatePauseState_logs.returns hpause')).append .nil
  have hall := hfired.append (hadmitted.append hrest)
  simpa [henqueued] using hall

end Unit

/-! ## The rest of an edge of the unit -/

section Edge
variable {now epoch : ℕ}

theorem book_logs {targets : List ℕ} {s : SyncUnit × SyncNetwork} :
    (SyncUnit.book targets now epoch).Logs (Plain epoch) s :=
  SyncUnit.book_records.mono fun _ => .of plain_of_sync

theorem sync_step_logs {s : SyncUnit × SyncNetwork} :
    (SyncUnit.step now epoch).Logs (Plain epoch) s :=
  SyncUnit.step_records.mono fun _ => .of plain_of_sync

theorem takeFastResults_logs {entries : List (Mailbox.Envelope Completion)} {links : ControlLinks} :
    (Core.takeFastResults now epoch entries).Logs (Plain epoch) links :=
  Core.takeFastResults_records.mono fun _ => .of fun k hk => by
    rw [of_decide_eq_true hk]
    rfl

theorem finish_logs {s : ControlLinks × TcuCycleModel} :
    (Core.finish now epoch).Logs (Plain epoch) s :=
  Core.finish_records.mono fun _ => .of fun k hk => by
    rw [of_decide_eq_true hk]
    rfl

end Edge

end TraceModel
end Qsbit

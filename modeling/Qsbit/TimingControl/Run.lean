import Qsbit.TimingControl.Program

/-!
# Programs on the timing control

`ProgramRun` drives the timing control from its start through any calls of
`receive` and `execute`, with any messages in the links. Between two completed
operations the state is the `Staging` of the program so far; an operation that
is being reissued has its point staged, outstanding or acknowledged.

## Main definitions

* `ProgramHistory` — the completed operations, the submitted requests, the closures.
* `ProgramRun` — any run of the timing control.
* `Progress` — the invariant of a run.
* `program_semantics` — a program that has ended has submitted `Staging.submissions`.
-/
namespace Qsbit
namespace TimingControl
open Staging (references codewordEvents point)
variable {config : TimingConfig} {epoch : ℕ}

/-! ## Codewords -/

theorem referencesFor_eq_ok {m : MeasurementRegisters} {targets rest : List ℕ} {made : ℕ}
    {found : List MeasurementReference} (h : m.referencesFor epoch targets made rest = .ok found) :
    found = references epoch (m.nextMeasurement + made) rest := by
  induction rest generalizing made found with
  | nil => exact (Except.pure_eq_ok_iff.1 h).symm
  | cons target rest ih =>
    simp only [MeasurementRegisters.referencesFor, Except.bind_eq_ok_iff, require_eq_ok_iff,
      exists_const, Except.pure_eq_ok_iff] at h
    obtain ⟨-, -, measurement, hmeasurement, tail, htail, rfl⟩ := h
    rw [ih htail, eq_of_checkedAdd hmeasurement]
    simp only [references, List.mapIdx_cons, Nat.add_zero, List.cons.injEq, true_and]
    refine List.mapIdx_eq_mapIdx_iff.2 ?_
    intro i hi
    have hid : m.nextMeasurement + (made + 1) + i = m.nextMeasurement + made + (i + 1) := by omega
    rw [hid]

theorem prepareReservation_eq_ok {m : MeasurementRegisters} {targets : List ℕ}
    {found : List MeasurementReference} (h : m.prepareReservation epoch targets = .ok found) :
    found = references epoch m.nextMeasurement targets := by
  simp only [MeasurementRegisters.prepareReservation, Except.bind_eq_ok_iff, require_eq_ok_iff,
    exists_const] at h
  obtain ⟨-, _, -, h⟩ := h
  exact referencesFor_eq_ok h

theorem nextMeasurement_of_commitReservation {m m' : MeasurementRegisters} {u : Unit}
    {reserved : List MeasurementReference} {l : List TraceEvent}
    (h : (MeasurementRegisters.commitReservation reserved).Returns m u m' l) :
    m'.nextMeasurement = m.nextMeasurement + reserved.length := by
  unfold MeasurementRegisters.commitReservation at h
  split at h
  · rw [← (Proc.returns_pure_iff.1 h).2.1, List.length_nil, Nat.add_zero]
  · simp only [Proc.returns_get_bind_iff, Proc.returns_lift_bind_iff, Proc.returns_set_bind_iff,
      Proc.returns_modify_iff] at h
    obtain ⟨_, -, _, -, next, hnext, rfl, -⟩ := h
    exact eq_of_checkedAdd hnext

theorem decodeActions_eq_ok {port word instruction first count : ℕ}
    {reserved : List MeasurementReference} {actions : List EventSpec} {events : List OperationEvent}
    (h : decodeActions config port word epoch instruction reserved first count actions = .ok events) :
    events = actions.mapIdx fun i action =>
      { epoch, id := first + count + i, instruction, sourcePort := port, codeword := word, action
        reference := referenceOf reserved action } := by
  induction actions generalizing count events with
  | nil => exact (Except.pure_eq_ok_iff.1 h).symm
  | cons action rest ih =>
    simp only [decodeActions, Except.bind_eq_ok_iff, require_eq_ok_iff, exists_const,
      Except.pure_eq_ok_iff] at h
    obtain ⟨-, -, id, hid, tail, htail, rfl⟩ := h
    rw [ih htail, eq_of_checkedAdd hid, List.mapIdx_cons]
    simp only [Nat.add_zero, List.cons.injEq, true_and]
    refine List.mapIdx_eq_mapIdx_iff.2 ?_
    intro i hi
    have hnext : first + (count + 1) + i = first + count + (i + 1) := by omega
    rw [hnext]

/-- A codeword that decodes against fresh references yields the events of the staging. -/
theorem decodeCodeword_eq_ok {port word instruction : ℕ} {map : Mapping} {g : Staging}
    {reserved : List MeasurementReference} {events : List OperationEvent}
    (hmap : config.mapping port word = .ok map)
    (hreserved : reserved = references epoch g.nextMeasurement (acquireTargets map.actions))
    (h : decodeCodeword config port word epoch instruction g.nextEvent reserved = .ok events) :
    events = g.codewordEvents config epoch instruction port word := by
  simp only [decodeCodeword, Except.bind_eq_ok_iff, require_eq_ok_iff, exists_const] at h
  obtain ⟨map', hmap', -, _, -, h⟩ := h
  obtain rfl : map' = map := Except.ok.inj (hmap'.symm.trans hmap)
  have hactions : config.actions port word = map'.actions := by simp [TimingConfig.actions, hmap]
  rw [decodeActions_eq_ok h, codewordEvents, hactions, hreserved]
  rfl

/-! ## Runs -/

/-- What has come of a run: the operations that completed, the requests they submitted and the
end of the stream. -/
structure ProgramHistory where
  program : List ControlOperation := []
  submitted : List (ControlOperation × TimingEvents) := []
  closures : List EndOfStream := []

/-- The messages that have been added to a mailbox. -/
def added {α : Type} (before after : Mailbox α) : List α :=
  (after.entries.drop before.entries.length).map (·.value)

@[simp] theorem added_self {α : Type} (b : Mailbox α) : added b b = [] := by simp [added]

@[simp] theorem added_append {α : Type} (b : Mailbox α) (entries : List (Mailbox.Envelope α)) :
    added b { b with entries := b.entries ++ entries } = entries.map (·.value) := by
  simp [added]

/-- The history after a call of `execute`. -/
def ProgramHistory.executed (x : ProgramHistory) (operation : ControlOperation)
    (result : Option ℕ) (s s' : ControlState) : ProgramHistory where
  program := if result.isSome then x.program ++ [operation] else x.program
  submitted :=
    x.submitted ++ (added s.links.timingEvents s'.links.timingEvents).map (operation, ·)
  closures := x.closures ++ added s.links.closure s'.links.closure

/-- A run of the timing control from its start in one epoch. Between two calls the links may
change in any way: the other side takes requests and publishes replies and results. -/
inductive ProgramRun (validate : EventSpec → Except Fault Unit)
    (validateSync : Option (ℕ → Except Fault Unit)) (config : TimingConfig) (epoch : ℕ) :
    ProgramHistory → ControlState → Prop
  | start (registers : MeasurementRegisters) (links : ControlLinks)
      (fresh : registers.nextMeasurement = 1) :
      ProgramRun validate validateSync config epoch {}
        { control := { profile := config }, registers, links }
  | exchange {x : ProgramHistory} {s : ControlState} (links : ControlLinks)
      (run : ProgramRun validate validateSync config epoch x s) :
      ProgramRun validate validateSync config epoch x { s with links }
  | receive {x : ProgramHistory} {s s' : ControlState} {now : ℕ} {l : List TraceEvent}
      (run : ProgramRun validate validateSync config epoch x s)
      (h : (receive now epoch).Returns s () s' l) :
      ProgramRun validate validateSync config epoch x s'
  | execute {x : ProgramHistory} {s s' : ControlState} {operation : ControlOperation} {now : ℕ}
      {result : Option ℕ} {l : List TraceEvent}
      (run : ProgramRun validate validateSync config epoch x s)
      (h : (execute validate validateSync operation now epoch).Returns s result s' l) :
      ProgramRun validate validateSync config epoch (x.executed operation result s s') s'

/-- A call on the timing control, or an exchange of messages. -/
inductive ProgramInput
  | exchange (f : ControlLinks → ControlLinks)
  | receive (now : ℕ)
  | execute (operation : ControlOperation) (now : ℕ)

/-- Evaluate the calls of a run, with every action and target accepted. -/
def drive (epoch : ℕ) (x : ProgramHistory) (s : ControlState) :
    List ProgramInput → Except Fault (ProgramHistory × ControlState)
  | [] => pure (x, s)
  | .exchange f :: rest => drive epoch x { s with links := f s.links } rest
  | .receive now :: rest => do
      let outcome := receive now epoch s
      outcome.result
      drive epoch x outcome.state rest
  | .execute operation now :: rest => do
      let outcome := execute (fun _ => pure ()) none operation now epoch s
      let result ← outcome.result
      drive epoch (x.executed operation result s outcome.state) outcome.state rest

theorem run_of_drive {x x' : ProgramHistory} {s s' : ControlState} {inputs : List ProgramInput}
    (run : ProgramRun (fun _ => pure ()) none config epoch x s)
    (h : drive epoch x s inputs = .ok (x', s')) :
    ProgramRun (fun _ => pure ()) none config epoch x' s' := by
  induction inputs generalizing x s with
  | nil =>
    obtain ⟨rfl, rfl⟩ := Prod.mk.inj (Except.pure_eq_ok_iff.1 h)
    exact run
  | cons input rest ih =>
    cases input with
    | exchange f => exact ih (run.exchange (f s.links)) h
    | receive now =>
      simp only [drive, Except.bind_eq_ok_iff] at h
      rcases hr : TimingControl.receive now epoch s with ⟨result, s₁, l⟩
      obtain ⟨_, hresult, hrest⟩ := h
      rw [hr] at hresult hrest
      obtain rfl : result = .ok () := hresult
      exact ih (run.receive hr) hrest
    | execute operation now =>
      simp only [drive, Except.bind_eq_ok_iff] at h
      rcases he : TimingControl.execute (fun _ => pure ()) none operation now epoch s with
        ⟨result, s₁, l⟩
      obtain ⟨value, hresult, hrest⟩ := h
      rw [he] at hresult hrest
      obtain rfl : result = .ok value := hresult
      exact ih (run.execute he) hrest

/-! ## The invariant -/

/-- The state is at the time point of the staging and has the same things staged there. -/
structure Matches (config : TimingConfig) (g : Staging) (s : ControlState) : Prop where
  profile : s.control.profile = config
  time : s.control.timePoint = g.time
  lastTime : s.control.lastEnqueuedTime = g.lastTime
  label : s.control.lastLabel = g.label
  nextEvent : s.control.nextEvent = g.nextEvent
  nextMeasurement : s.registers.nextMeasurement = g.nextMeasurement
  events : s.control.pendingEvents = g.events
  synchronizations : s.control.pendingSync = g.synchronizations
  staged : s.control.pendingPoint = g.staged

/-- How far an operation is with the point it submits, and what it has submitted. -/
inductive Underway (config : TimingConfig) (epoch : ℕ) (g : Staging)
    (operation : ControlOperation) : List TimingEvents → ControlState → Prop
  | staged {s : ControlState} (idle : s.control.enqueueRequest = none)
      (matched : Matches config (g.before operation) s)
      (point : (g.before operation).staged = true) : Underway config epoch g operation [] s
  | outstanding {s : ControlState} (request : TimingEvents)
      (outstanding : s.control.enqueueRequest = some request)
      (matched : Matches config (g.before operation) s)
      (flushed : g.flushFor config epoch operation =
        ({ g.before operation with
            lastTime := (g.before operation).time, label := request.point.label, events := []
            synchronizations := [], staged := false }, [request])) :
      Underway config epoch g operation [request] s
  | done {s : ControlState} {requests : List TimingEvents} (flushed : Staging)
      (idle : s.control.enqueueRequest = none) (matched : Matches config flushed s)
      (eq : g.flushFor config epoch operation = (flushed, requests)) :
      Underway config epoch g operation requests s

/-- Where a run is: between two operations, or at one that has to be reissued. -/
inductive Progress (config : TimingConfig) (epoch : ℕ) (x : ProgramHistory) (s : ControlState) :
    Prop
  | ready (held : s.control.held = none) (idle : s.control.enqueueRequest = none)
      (waiting : s.control.pendingWaitForNext = false)
      (matched : Matches config (({} : Staging).after config epoch x.program) s)
      (submitted : x.submitted = ({} : Staging).submissions config epoch x.program)
  | underway (operation : ControlOperation) (requests : List TimingEvents)
      (held : s.control.held = some operation) (flushes : operation.command.flushes = true)
      (waiting : s.control.pendingWaitForNext = (operation.command = .wait 0 : Bool))
      (phase : Underway config epoch (({} : Staging).after config epoch x.program) operation
        requests s)
      (submitted : x.submitted =
        ({} : Staging).submissions config epoch x.program ++ requests.map (operation, ·))

section Progress
variable {g : Staging} {operation : ControlOperation} {requests : List TimingEvents}
  {s s' : ControlState} {x : ProgramHistory} {now : ℕ}

theorem Matches.of_same (h : Matches config g s) (hc : s'.control = s.control)
    (hn : s'.registers.nextMeasurement = s.registers.nextMeasurement) : Matches config g s' where
  profile := hc ▸ h.profile
  time := hc ▸ h.time
  lastTime := hc ▸ h.lastTime
  label := hc ▸ h.label
  nextEvent := hc ▸ h.nextEvent
  nextMeasurement := hn.trans h.nextMeasurement
  events := hc ▸ h.events
  synchronizations := hc ▸ h.synchronizations
  staged := hc ▸ h.staged

theorem Underway.of_same (h : Underway config epoch g operation requests s)
    (hc : s'.control = s.control)
    (hn : s'.registers.nextMeasurement = s.registers.nextMeasurement) :
    Underway config epoch g operation requests s' := by
  cases h with
  | staged idle matched point => exact .staged (hc ▸ idle) (matched.of_same hc hn) point
  | outstanding request outstanding matched flushed =>
    exact .outstanding request (hc ▸ outstanding) (matched.of_same hc hn) flushed
  | done flushed idle matched eq => exact .done flushed (hc ▸ idle) (matched.of_same hc hn) eq

/-- Results and messages do not matter to the progress of a program. -/
theorem Progress.of_same (h : Progress config epoch x s) (hc : s'.control = s.control)
    (hn : s'.registers.nextMeasurement = s.registers.nextMeasurement) :
    Progress config epoch x s' := by
  cases h with
  | ready held idle waiting matched submitted =>
    exact .ready (hc ▸ held) (hc ▸ idle) (hc ▸ waiting) (matched.of_same hc hn) submitted
  | underway operation requests held flushes waiting phase submitted =>
    exact .underway operation requests (hc ▸ held) flushes (hc ▸ waiting) (phase.of_same hc hn)
      submitted

/-- An acknowledgment concludes the outstanding request. -/
theorem Progress.receive {u : Unit} {l : List TraceEvent} (h : Progress config epoch x s)
    (hr : (receive now epoch).Returns s u s' l) : Progress config epoch x s' := by
  obtain ⟨s₁, hreceives, hsame⟩ := receive_returns hr
  refine Progress.of_same ?_ hsame.control hsame.nextMeasurement
  cases hreceives with
  | nothing => exact h
  | stale reply rest entries epoch_ne => exact h.of_same rfl rfl
  | acknowledged reply rest request entries epoch_eq outstanding label =>
    cases h with
    | ready held idle waiting matched submitted => simp [idle] at outstanding
    | underway operation requests held flushes waiting phase submitted =>
      cases phase with
      | staged idle => simp [idle] at outstanding
      | done flushed idle => simp [idle] at outstanding
      | outstanding request' outstanding' matched flushed =>
        obtain rfl : request' = request := Option.some.inj (outstanding'.symm.trans outstanding)
        refine .underway operation [request'] held flushes waiting (.done _ rfl ?_ flushed) submitted
        exact
          { matched with
            lastTime := matched.time, label := rfl, events := rfl, synchronizations := rfl
            staged := rfl }

/-! ## One operation -/

theorem request_eq_ok {waits : Bool} {request : TimingEvents} (h : Matches config g s)
    (hsound : g.Sound) (hwaits : s.control.pendingWaitForNext = waits)
    (hr : s.control.request epoch = .ok request) : request = g.point config epoch waits := by
  simp only [TimingControl.request, Except.bind_eq_ok_iff, Except.pure_eq_ok_iff] at hr
  obtain ⟨label, hlabel, rfl⟩ := hr
  have hinterval : wrapSub s.control.timePoint s.control.lastEnqueuedTime = g.time - g.lastTime := by
    rw [h.time, h.lastTime, wrapSub_of_le hsound.time]
  rw [eq_of_checkedAdd hlabel, hinterval, h.label, h.events, h.synchronizations, h.profile, hwaits,
    point]
  simp [Function.comp_def]

theorem Enqueues.timePoint {b : Bool} (h : Enqueues now epoch s b s') :
    s'.control.timePoint = s.control.timePoint := by
  cases h <;> rfl

theorem Enqueues.closed {b : Bool} (h : Enqueues now epoch s b s') :
    s'.control.closed = s.control.closed ∧ s'.links.closure = s.links.closure := by
  cases h <;> exact ⟨rfl, rfl⟩

/-- A call of `enqueue` submits the operation's point if nothing of it has been submitted, and
yields `true` exactly when the operation is done with its point. -/
theorem Underway.enqueue {b : Bool} (h : Underway config epoch g operation requests s)
    (hsound : g.Sound) (hwaits : s.control.pendingWaitForNext = (operation.command = .wait 0 : Bool))
    (he : Enqueues now epoch s b s') :
    Underway config epoch g operation
        (requests ++ added s.links.timingEvents s'.links.timingEvents) s' ∧
      s'.control.held = s.control.held ∧
      s'.control.pendingWaitForNext = s.control.pendingWaitForNext ∧
      (b = true → s'.control.enqueueRequest = none ∧
        ∃ flushed, Matches config flushed s' ∧ g.flushFor config epoch operation =
          (flushed, requests ++ added s.links.timingEvents s'.links.timingEvents)) := by
  cases he with
  | waiting request hrequest =>
    refine ⟨?_, rfl, rfl, by simp⟩
    simpa using h
  | done idle point =>
    cases h with
    | staged idle' matched point' => simp [← matched.staged, point] at point'
    | outstanding request outstanding => simp [idle] at outstanding
    | done flushed idle' matched eq =>
      have hmatched : Matches config flushed
          { s with control := { s.control with enqueued := !s.control.allowSameTime } } :=
        { matched with }
      have heq : g.flushFor config epoch operation =
          (flushed, requests ++ added s.links.timingEvents s.links.timingEvents) := by simpa using eq
      exact ⟨.done flushed idle hmatched heq, rfl, rfl,
        fun _ => ⟨idle, flushed, hmatched, heq⟩⟩
  | submitted request eligible idle point made valid space =>
    cases h with
    | outstanding request outstanding => simp [idle] at outstanding
    | done flushed idle' matched eq =>
      have hstaged : flushed.staged = true := matched.staged ▸ point
      have hflush : (g.flushFor config epoch operation).1.staged = false :=
        Staging.flush_staged (g.before operation) _
      rw [eq] at hflush
      exact absurd (hstaged.symm.trans hflush) (by simp)
    | staged idle' matched point' =>
      have hrequest := request_eq_ok matched (hsound.before operation) hwaits made
      refine ⟨?_, rfl, rfl, by simp⟩
      rw [List.nil_append, added_append]
      refine .outstanding request rfl { matched with } ?_
      rw [Staging.flushFor, Staging.flush, if_pos point', hrequest]
      rfl

theorem before_of_wait {operation : ControlOperation} (h : operation.command = .wait 0)
    (g : Staging) : g.before operation = { g with staged := true } := if_pos h

theorem prepared_held (c : TimingControl) (operation : ControlOperation) :
    (c.prepared operation).held = some operation := by
  unfold prepared waitForNext
  split
  · split <;> rfl
  · rfl

theorem prepared_timePoint (c : TimingControl) (operation : ControlOperation) :
    (c.prepared operation).timePoint = c.timePoint := by
  unfold prepared waitForNext
  split
  · split <;> rfl
  · rfl

theorem prepared_closed (c : TimingControl) (operation : ControlOperation) :
    (c.prepared operation).closed = c.closed := by
  unfold prepared waitForNext
  split
  · split <;> rfl
  · rfl

/-- Issuing an operation again changes nothing. -/
theorem prepared_of_held {c : TimingControl} {operation : ControlOperation}
    (held : c.held = some operation)
    (waiting : c.pendingWaitForNext = (operation.command = .wait 0 : Bool)) :
    c.prepared operation = c := by
  by_cases hwait : operation.command = .wait 0
  · have hset : c.pendingWaitForNext = true := by simp [waiting, hwait]
    rw [prepared, if_pos hwait, ← held]
    exact if_pos hset
  · simp only [prepared, hwait, if_false, ← held]

/-- Issuing an operation that flushes takes up its point where it was left. -/
theorem Progress.issue (h : Progress config epoch x s)
    (hheld : ∀ held ∈ s.control.held, held = operation)
    (hflushes : operation.command.flushes = true) :
    ∃ requests, Underway config epoch (({} : Staging).after config epoch x.program) operation
        requests { s with control := s.control.prepared operation } ∧
      (s.control.prepared operation).pendingWaitForNext =
        (operation.command = .wait 0 : Bool) ∧
      x.submitted =
        ({} : Staging).submissions config epoch x.program ++ requests.map (operation, ·) := by
  cases h with
  | ready held idle waiting matched submitted =>
    refine ⟨[], ?_, ?_, by simpa using submitted⟩
    · by_cases hwait : operation.command = .wait 0
      · have hprepared : s.control.prepared operation =
            { s.control with
              held := some operation, pendingWaitForNext := true, pendingPoint := true } := by
          simp [prepared, waitForNext, hwait, waiting]
        rw [hprepared]
        refine .staged idle ?_ ?_
        · rw [before_of_wait hwait]
          exact { matched with staged := rfl }
        · rw [before_of_wait hwait]
      · have hprepared : s.control.prepared operation =
            { s.control with held := some operation } := if_neg hwait
        have hbefore : (({} : Staging).after config epoch x.program).before operation =
            ({} : Staging).after config epoch x.program := if_neg hwait
        rw [hprepared]
        by_cases hstaged : (({} : Staging).after config epoch x.program).staged = true
        · refine .staged idle ?_ ?_
          · rw [hbefore]
            exact { matched with }
          · rw [hbefore]
            exact hstaged
        · refine .done (({} : Staging).after config epoch x.program) idle { matched with } ?_
          rw [Staging.flushFor, hbefore, Staging.flush, if_neg hstaged]
    · by_cases hwait : operation.command = .wait 0
      · simp [prepared, waitForNext, hwait, waiting]
      · simp [prepared, hwait, waiting]
  | underway operation' requests held flushes waiting phase submitted =>
    obtain rfl := hheld operation' (by simp [held])
    rw [prepared_of_held held waiting]
    exact ⟨requests, phase, waiting, submitted⟩

/-- When an operation is done with its point, everything before it has been submitted. -/
theorem Progress.finish {s₁ : ControlState} (h : Progress config epoch x s)
    (hheld : ∀ held ∈ s.control.held, held = operation)
    (hflushes : operation.command.flushes = true)
    (he : Enqueues now epoch { s with control := s.control.prepared operation } true s₁) :
    s₁.control.enqueueRequest = none ∧
      s₁.control.pendingWaitForNext = (operation.command = .wait 0 : Bool) ∧
      Matches config
        ((({} : Staging).after config epoch x.program).flushFor config epoch operation).1 s₁ ∧
      x.submitted ++ (added s.links.timingEvents s₁.links.timingEvents).map (operation, ·) =
        ({} : Staging).submissions config epoch (x.program ++ [operation]) := by
  obtain ⟨requests, hunderway, hwaits, hsubmitted⟩ := h.issue hheld hflushes
  obtain ⟨-, -, hwaits', hdone⟩ :=
    hunderway.enqueue (Staging.sound_initial.after x.program) hwaits he
  obtain ⟨hidle, flushed, hmatched, heq⟩ := hdone rfl
  refine ⟨hidle, hwaits'.trans hwaits, by rw [heq]; exact hmatched, ?_⟩
  rw [Staging.submissions_concat, (Staging.step_of_flushes config epoch _ hflushes).1, heq,
    hsubmitted, List.append_assoc, ← List.map_append]

/-- An operation that yields no result stays at its point. -/
theorem Progress.reissue {b : Bool} (h : Progress config epoch x s)
    (hheld : ∀ held ∈ s.control.held, held = operation)
    (hflushes : operation.command.flushes = true)
    (he : Enqueues now epoch { s with control := s.control.prepared operation } b s') :
    Progress config epoch (x.executed operation none s s') s' := by
  obtain ⟨requests, hunderway, hwaits, hsubmitted⟩ := h.issue hheld hflushes
  obtain ⟨hunderway', hheld', hwaits', -⟩ :=
    hunderway.enqueue (Staging.sound_initial.after x.program) hwaits he
  refine .underway operation _ (hheld'.trans ?_) hflushes (hwaits'.trans hwaits) hunderway' ?_
  · exact prepared_held s.control operation
  · simp [ProgramHistory.executed, hsubmitted]

/-- An operation that only stages is never reissued. -/
theorem Progress.ready_of_not_flushes (h : Progress config epoch x s)
    (hheld : ∀ held ∈ s.control.held, held = operation)
    (hflushes : operation.command.flushes = false) :
    s.control.pendingWaitForNext = false ∧
      Matches config (({} : Staging).after config epoch x.program) s ∧
      x.submitted = ({} : Staging).submissions config epoch x.program := by
  cases h with
  | ready held idle waiting matched submitted => exact ⟨waiting, matched, submitted⟩
  | underway operation' requests held flushes =>
    obtain rfl := hheld operation' (by simp [held])
    simp [hflushes] at flushes

theorem submissions_of_not_flushes (hflushes : operation.command.flushes = false)
    (program : List ControlOperation) :
    ({} : Staging).submissions config epoch (program ++ [operation]) =
      ({} : Staging).submissions config epoch program := by
  rw [Staging.submissions_concat, (Staging.step_of_not_flushes config epoch _ hflushes).1,
    List.map_nil, List.append_nil]

/-- One call of `execute` makes progress as the meaning of its operation says. -/
theorem Progress.execute {validate : EventSpec → Except Fault Unit}
    {validateSync : Option (ℕ → Except Fault Unit)} {result : Option ℕ} {l : List TraceEvent}
    (h : Progress config epoch x s)
    (he : (execute validate validateSync operation now epoch).Returns s result s' l) :
    Progress config epoch (x.executed operation result s s') s' := by
  obtain ⟨-, hheld, hexecutes⟩ := execute_returns he
  cases hexecutes with
  | codeword port word map references events registers log command free idle mapped reserved
      decoded committed =>
    have hflushes : operation.command.flushes = false := by rw [command]; rfl
    obtain ⟨hwaiting, hmatched, hsubmitted⟩ := h.ready_of_not_flushes hheld hflushes
    have hactions : config.actions port word = map.actions := by
      simp [TimingConfig.actions, ← hmatched.profile, mapped]
    have hreferences := prepareReservation_eq_ok reserved
    have hlength : references.length = (acquireTargets map.actions).length := by
      simp [hreferences, Staging.references]
    rw [hmatched.profile] at mapped
    rw [hmatched.profile, hmatched.nextEvent] at decoded
    rw [hmatched.nextMeasurement] at hreferences
    have hevents := decodeCodeword_eq_ok mapped hreferences decoded
    refine .ready rfl idle hwaiting ?_ ?_
    · simp only [ProgramHistory.executed, Option.isSome_some, if_true, Staging.after_concat,
        Staging.step, command]
      exact
        { hmatched with
          nextEvent := by rw [hactions, ← hmatched.nextEvent]
          nextMeasurement := by
            rw [hactions, ← hlength, ← hmatched.nextMeasurement]
            exact nextMeasurement_of_commitReservation committed
          events := by rw [← hevents, ← hmatched.events]
          staged := rfl }
    · simp [ProgramHistory.executed, submissions_of_not_flushes hflushes, hsubmitted]
  | synchronized target command free idle single =>
    have hflushes : operation.command.flushes = false := by rw [command]; rfl
    obtain ⟨hwaiting, hmatched, hsubmitted⟩ := h.ready_of_not_flushes hheld hflushes
    refine .ready rfl idle hwaiting ?_ ?_
    · simp only [ProgramHistory.executed, Option.isSome_some, if_true, Staging.after_concat,
        Staging.step, command]
      exact
        { hmatched with
          synchronizations := by rw [← hmatched.synchronizations, single, List.nil_append]
          staged := rfl }
    · simp [ProgramHistory.executed, submissions_of_not_flushes hflushes, hsubmitted]
  | blocked s₁ flushes h' => exact h.reissue hheld flushes h'
  | waited s₁ command h' =>
    have hflushes : operation.command.flushes = true := by rw [command]; rfl
    obtain ⟨hidle, -, hmatched, hsubmitted⟩ := h.finish hheld hflushes h'
    refine .ready rfl hidle rfl ?_ hsubmitted
    simp only [ProgramHistory.executed, Option.isSome_some, if_true, Staging.after_concat,
      Staging.step, command]
    exact { hmatched with }
  | advanced cycles s₁ command positive h' =>
    have hflushes : operation.command.flushes = true := by rw [command]; rfl
    obtain ⟨hidle, hwaits, hmatched, hsubmitted⟩ := h.finish hheld hflushes h'
    refine .ready rfl hidle (hwaits.trans (by simp [command, positive])) ?_ hsubmitted
    have htime : s₁.control.timePoint = s.control.timePoint :=
      h'.timePoint.trans (prepared_timePoint s.control operation)
    simp only [ProgramHistory.executed, Option.isSome_some, if_true, Staging.after_concat,
      Staging.step, command, if_neg positive]
    exact { hmatched with time := by rw [← hmatched.time, htime], staged := rfl }
  | unread qubit s₁ command h' => exact h.reissue hheld (by rw [command]; rfl) h'
  | read qubit value s₁ command h' =>
    have hflushes : operation.command.flushes = true := by rw [command]; rfl
    obtain ⟨hidle, hwaits, hmatched, hsubmitted⟩ := h.finish hheld hflushes h'
    refine .ready rfl hidle (hwaits.trans (by simp [command])) ?_ hsubmitted
    simp only [ProgramHistory.executed, Option.isSome_some, if_true, Staging.after_concat,
      Staging.step, command]
    exact { hmatched with }
  | halted eligible s₁ command h' space =>
    have hflushes : operation.command.flushes = true := by rw [command]; rfl
    obtain ⟨hidle, hwaits, hmatched, hsubmitted⟩ := h.finish hheld hflushes h'
    refine .ready rfl hidle (hwaits.trans (by simp [command])) ?_ hsubmitted
    simp only [ProgramHistory.executed, Option.isSome_some, if_true, Staging.after_concat,
      Staging.step, command]
    exact { hmatched with }

/-! ## The end of a program -/

/-- Whether the program has ended, and what it has then published. -/
inductive Ending (x : ProgramHistory) (s : ControlState) : Prop
  | running (opened : s.control.closed = false) (none : x.closures = [])
  | ended (program : List ControlOperation) (operation : ControlOperation)
      (eq : x.program = program ++ [operation]) (halt : operation.command = .halt)
      (held : s.control.held = none) (closed : s.control.closed = true)
      (closures : x.closures = [{ lastLabel := s.control.lastLabel }])

theorem Ending.receive {u : Unit} {l : List TraceEvent} (h : Ending x s)
    (hp : Progress config epoch x s) (hr : (receive now epoch).Returns s u s' l) :
    Ending x s' := by
  obtain ⟨s₁, hreceives, hsame⟩ := receive_returns hr
  have hcontrol := hsame.control
  cases h with
  | running opened none =>
    refine .running ?_ none
    rw [hcontrol]
    cases hreceives <;> exact opened
  | ended program operation eq halt held closed closures =>
    -- No request is outstanding, so nothing can be acknowledged.
    have hidle : s.control.enqueueRequest = none := by
      cases hp with
      | ready held idle => exact idle
      | underway operation requests held' => simp [held] at held'
    have hsame₁ : s₁.control = s.control := by
      cases hreceives with
      | nothing => rfl
      | stale => rfl
      | acknowledged reply rest request entries epoch_eq outstanding =>
        simp [hidle] at outstanding
    rw [hsame₁] at hcontrol
    exact .ended program operation eq halt (hcontrol ▸ held) (hcontrol ▸ closed)
      (hcontrol ▸ closures)

/-- Only a `halt` ends a program, with the label of the last request. -/
theorem Ending.execute {validate : EventSpec → Except Fault Unit}
    {validateSync : Option (ℕ → Except Fault Unit)} {result : Option ℕ} {l : List TraceEvent}
    (h : Ending x s)
    (he : (execute validate validateSync operation now epoch).Returns s result s' l) :
    Ending (x.executed operation result s s') s' := by
  obtain ⟨hopen, -, hexecutes⟩ := execute_returns he
  have hnone : x.closures = [] := by
    cases h with
    | running opened none => exact none
    | ended program operation eq halt held closed => simp [hopen] at closed
  have hrunning : ∀ {b s₁},
      Enqueues now epoch { s with control := s.control.prepared operation } b s₁ →
        s₁.control.closed = false ∧ s₁.links.closure = s.links.closure := by
    intro b s₁ h'
    rw [h'.closed.1, h'.closed.2]
    exact ⟨(prepared_closed s.control operation).trans hopen, rfl⟩
  cases hexecutes with
  | codeword => exact .running hopen (by simp [ProgramHistory.executed, hnone])
  | synchronized => exact .running hopen (by simp [ProgramHistory.executed, hnone])
  | blocked s₁ flushes h' =>
    exact .running (hrunning h').1 (by simp [ProgramHistory.executed, hnone, (hrunning h').2])
  | waited s₁ command h' =>
    exact .running (hrunning h').1 (by simp [ProgramHistory.executed, hnone, (hrunning h').2])
  | advanced cycles s₁ command positive h' =>
    exact .running (hrunning h').1 (by simp [ProgramHistory.executed, hnone, (hrunning h').2])
  | unread qubit s₁ command h' =>
    exact .running (hrunning h').1 (by simp [ProgramHistory.executed, hnone, (hrunning h').2])
  | read qubit value s₁ command h' =>
    exact .running (hrunning h').1 (by simp [ProgramHistory.executed, hnone, (hrunning h').2])
  | halted eligible s₁ command h' space =>
    refine .ended x.program operation rfl command rfl rfl ?_
    simp [ProgramHistory.executed, hnone, (hrunning h').2]

theorem ProgramRun.progress {validate : EventSpec → Except Fault Unit}
    {validateSync : Option (ℕ → Except Fault Unit)}
    (run : ProgramRun validate validateSync config epoch x s) :
    Progress config epoch x s ∧ Ending x s := by
  induction run with
  | start registers links fresh =>
    exact ⟨.ready rfl rfl rfl ⟨rfl, rfl, rfl, rfl, rfl, fresh, rfl, rfl, rfl⟩ rfl,
      .running rfl rfl⟩
  | exchange links run ih =>
    refine ⟨ih.1.of_same rfl rfl, ?_⟩
    cases ih.2 with
    | running opened none => exact .running opened none
    | ended program operation eq halt held closed closures =>
      exact .ended program operation eq halt held closed closures
  | receive run h ih => exact ⟨ih.1.receive h, ih.2.receive ih.1 h⟩
  | execute run h ih => exact ⟨ih.1.execute h, ih.2.execute h⟩

/-- What the requests of a program are to its operations: numbered without gaps, with every
action and every synchronization in one of them, in program order and at its time. -/
structure Meaning (config : TimingConfig) (epoch : ℕ) (program : List ControlOperation)
    (submitted : List (ControlOperation × TimingEvents)) : Prop where
  labels : submitted.map (·.2.point.label) = List.range' 1 submitted.length
  ids : submitted.flatMap (fun x => x.2.events.map (·.id)) =
    List.range' 1 (program.flatMap (Staging.actionsOf config)).length
  actions : Staging.timedRequests (fun r => r.events.map (·.action)) 0 (submitted.map Prod.snd) =
    Staging.timedOperations (Staging.actionsOf config) 0 program
  synchronizations :
    Staging.timedRequests (·.point.synchronizations) 0 (submitted.map Prod.snd) =
      Staging.timedOperations Staging.synchronizationsOf 0 program
  manifest : ∀ x ∈ submitted, x.2.point.epoch = epoch ∧
    x.2.point.manifest = x.2.events.map (·.id) ∧ ∀ e ∈ x.2.events, e.label = x.2.point.label
  policy : ∀ x ∈ submitted, x.2.point.underflowPolicy =
    if x.1.command = .wait 0 then .pauseWhenEmpty else if 0 < x.2.point.interval then .strict
    else .inherit

/-- A program that ends with nothing staged has this meaning. -/
theorem meaning_submissions {program : List ControlOperation}
    (h : (({} : Staging).after config epoch program).staged = false) :
    Meaning config epoch program (({} : Staging).submissions config epoch program) := by
  have hsound : (({} : Staging).after config epoch program).Sound :=
    Staging.sound_initial.after program
  have hevents := hsound.events h
  have hsynchronizations := hsound.synchronizations h
  have hactions := Staging.timedRequests_submissions (Staging.carries_actions : Staging.Carries
    config epoch _ _ _) program Staging.sound_initial
  have hsyncs := Staging.timedRequests_submissions (Staging.carries_synchronizations :
    Staging.Carries config epoch _ _ _) program Staging.sound_initial
  have hids := @Staging.ids_submissions config epoch program {} Staging.sound_initial
  refine
    { labels := (Staging.labels_submissions program {}).1
      ids := ?_
      actions := ?_
      synchronizations := ?_
      manifest := ?_
      policy := ?_ }
  · simpa [hevents] using hids
  · simpa [hevents] using hactions
  · simpa [hsynchronizations] using hsyncs
  · intro x hx
    obtain ⟨g, hg⟩ := Staging.mem_submissions hx
    rw [hg]
    refine ⟨rfl, ?_, ?_⟩
    · simp [point]
    · intro e he
      obtain ⟨e', -, rfl⟩ := List.mem_map.1 he
      rfl
  · intro x hx
    obtain ⟨g, hg⟩ := Staging.mem_submissions hx
    rw [hg]
    simp [point]

/-- A program that has ended has submitted what its operations mean, whatever the other side
and the retries were, and has published the number of its requests. -/
theorem program_semantics {validate : EventSpec → Except Fault Unit}
    {validateSync : Option (ℕ → Except Fault Unit)}
    (run : ProgramRun validate validateSync config epoch x s) (h : s.control.closed = true) :
    x.submitted = ({} : Staging).submissions config epoch x.program ∧
      Meaning config epoch x.program x.submitted ∧
      x.closures = [{ lastLabel := x.submitted.length }] := by
  obtain ⟨hprogress, hending⟩ := run.progress
  cases hending with
  | running opened => simp [h] at opened
  | ended program operation eq halt held closed closures =>
    cases hprogress with
    | underway operation requests held' => simp [held] at held'
    | ready _ idle waiting matched submitted =>
      have hflushes : operation.command.flushes = true := by rw [halt]; rfl
      have hstaged : (({} : Staging).after config epoch x.program).staged = false := by
        rw [eq, Staging.after_concat, Staging.step, halt]
        exact Staging.flush_staged _ _
      have hlast : s.control.lastLabel = x.submitted.length := by
        rw [matched.label, submitted, (Staging.labels_submissions x.program {}).2, Nat.zero_add]
      refine ⟨submitted, submitted ▸ meaning_submissions hstaged, ?_⟩
      rw [closures, hlast]

end Progress

/-- The links of a profile with one gate. -/
def oneGateLinks : ControlLinks := (ControlLinks.make (transportConfig oneGate)).toOption.get (by decide)

/-- The other side takes the outstanding request and acknowledges it. -/
def acknowledge (label tick : ℕ) (links : ControlLinks) : ControlLinks :=
  { links with
    timingEvents := links.timingEvents.reset
    replies :=
      { links.replies with
        entries := [{ published := tick, eligible := tick + 5, epoch := 1, value := { label } }] } }

/-- A codeword, a wait and the end, with each request acknowledged after a retry. -/
theorem program_semantics_oneGate : ∃ x : ProgramHistory,
    x.program.map (·.command) = [.codeword 0 1, .wait 3, .halt] ∧
      x.submitted.map (·.2.point.interval) = [0, 3] ∧
      x.submitted = ({} : Staging).submissions oneGateConfig.timing 1 x.program ∧
      Meaning oneGateConfig.timing 1 x.program x.submitted ∧
      x.closures = [{ lastLabel := x.submitted.length }] := by
  have hdrive : drive 1 {}
      { control := { profile := oneGateConfig.timing }
        registers := MeasurementRegisters.make { qubits := 2, resultCapacity := 8, fastFeedback := true }
        links := oneGateLinks }
      [.execute { command := .codeword 0 1 } 0, .execute { command := .wait 3 } 5,
        .execute { command := .wait 3 } 10, .exchange (acknowledge 1 20), .receive 25,
        .execute { command := .wait 3 } 25, .execute { command := .halt } 30,
        .exchange (acknowledge 2 40), .receive 45, .execute { command := .halt } 45] = .ok _ := rfl
  refine ⟨_, ?_, ?_, program_semantics (run_of_drive (.start _ _ rfl) hdrive) rfl⟩
  · decide
  · decide

end TimingControl
end Qsbit

import Qsbit.TimingControl

/-!
# What one step of the timing control does

Each operation of `TimingControl` is inverted once, into the state changes that a
successful call can make. Everything proved about programs goes through these.

## Main definitions

* `Receives` — an acknowledgment was taken in, or none.
* `Enqueues` — a request was submitted, is outstanding, or is not needed.
* `Executes` — an operation completed or has to be issued again.
* `receive_returns`, `enqueue_returns`, `execute_returns` — the inversions.
-/
namespace Qsbit
namespace TimingControl
variable {s s' : ControlState} {now epoch : ℕ} {l : List TraceEvent} {u : Unit}

@[simp] theorem returns_setControl_iff {f : TimingControl → TimingControl} :
    (setControl f).Returns s u s' l ↔ { s with control := f s.control } = s' ∧ [] = l := by
  simp [setControl]

theorem returns_setControl_bind_iff {α : Type} {a : α} {f : TimingControl → TimingControl}
    {g : Unit → Sim ControlState α} : (setControl f >>= g).Returns s a s' l ↔
      (g ()).Returns { s with control := f s.control } a s' l :=
  Proc.returns_modify_bind_iff

@[simp] theorem not_raises_setControl {f : TimingControl → TimingControl} {e : Fault} :
    ¬ (setControl f).Raises s e s' l := by
  simp [setControl]

/-! ## Receiving -/

/-- What the program does not see of a step: only results have come in. -/
structure SameControl (s s' : ControlState) : Prop where
  control : s'.control = s.control
  timingEvents : s'.links.timingEvents = s.links.timingEvents
  replies : s'.links.replies = s.links.replies
  closure : s'.links.closure = s.links.closure
  nextMeasurement : s'.registers.nextMeasurement = s.registers.nextMeasurement

theorem SameControl.refl (s : ControlState) : SameControl s s := ⟨rfl, rfl, rfl, rfl, rfl⟩

theorem SameControl.trans {s₁ s₂ s₃ : ControlState} (h : SameControl s₁ s₂)
    (h' : SameControl s₂ s₃) : SameControl s₁ s₃ :=
  ⟨h'.control.trans h.control, h'.timingEvents.trans h.timingEvents, h'.replies.trans h.replies,
    h'.closure.trans h.closure, h'.nextMeasurement.trans h.nextMeasurement⟩

theorem nextMeasurement_of_deliver {m m' : MeasurementRegisters} {completion : Completion}
    (h : m.deliver completion epoch = .ok m') : m'.nextMeasurement = m.nextMeasurement := by
  simp only [MeasurementRegisters.deliver] at h
  split at h
  · rw [Except.pure_eq_ok_iff.1 h]
  · simp only [Except.bind_eq_ok_iff, Except.pure_eq_ok_iff] at h
    obtain ⟨_, -, _, -, _, -, _, -, rfl⟩ := h
    rfl

theorem nextMeasurement_of_acknowledgeFast {m m' : MeasurementRegisters}
    {reference : MeasurementReference} (h : m.acknowledgeFast reference epoch = .ok m') :
    m'.nextMeasurement = m.nextMeasurement := by
  simp only [MeasurementRegisters.acknowledgeFast] at h
  split at h
  · rw [Except.pure_eq_ok_iff.1 h]
  · simp only [Except.bind_eq_ok_iff, Except.pure_eq_ok_iff] at h
    obtain ⟨_, -, rfl⟩ := h
    rfl

theorem receiveResults_returns {entries : List (Mailbox.Envelope Completion)}
    (h : (receiveResults now epoch entries).Returns s u s' l) : SameControl s s' := by
  induction entries generalizing s l with
  | nil =>
    simp only [receiveResults, Proc.returns_pure_iff] at h
    rw [← h.2.1]
    exact .refl s
  | cons reply rest ih =>
    unfold receiveResults at h
    split at h
    · simp only [Proc.returns_pure_iff] at h
      rw [← h.2.1]
      exact .refl s
    · simp only [Proc.returns_bind_iff, Proc.returns_modify_iff] at h
      obtain ⟨_, s₁, _, _, ⟨hs₁, -⟩, ⟨_, s₂, _, _, hdeliver, hrest, -⟩, -⟩ := h
      subst hs₁
      refine SameControl.trans ?_ (ih hrest)
      split at hdeliver
      · simp only [Proc.returns_emit_iff] at hdeliver
        rw [← hdeliver.1]
        exact ⟨rfl, rfl, rfl, rfl, rfl⟩
      · simp only [Proc.returns_bind_iff, Proc.returns_get_iff, Proc.returns_lift_iff,
          Proc.returns_set_iff, Proc.returns_emit_iff] at hdeliver
        obtain ⟨_, _, _, _, ⟨rfl, rfl, -⟩, ⟨registers, _, _, _, ⟨hregisters, rfl, -⟩,
          ⟨_, _, _, _, ⟨rfl, -⟩, ⟨rfl, -⟩, -⟩, -⟩, -⟩ := hdeliver
        exact ⟨rfl, rfl, rfl, rfl, nextMeasurement_of_deliver hregisters⟩

theorem receiveCredits_returns {entries : List (Mailbox.Envelope MeasurementReference)}
    (h : (receiveCredits now epoch entries).Returns s u s' l) : SameControl s s' := by
  induction entries generalizing s l with
  | nil =>
    simp only [receiveCredits, Proc.returns_pure_iff] at h
    rw [← h.2.1]
    exact .refl s
  | cons credit rest ih =>
    unfold receiveCredits at h
    split at h
    · simp only [Proc.returns_pure_iff] at h
      rw [← h.2.1]
      exact .refl s
    · simp only [Proc.returns_bind_iff, Proc.returns_modify_iff] at h
      obtain ⟨_, s₁, _, _, ⟨hs₁, -⟩, ⟨_, s₂, _, _, hcredit, hrest, -⟩, -⟩ := h
      subst hs₁
      refine SameControl.trans ?_ (ih hrest)
      split at hcredit
      · simp only [Proc.returns_bind_iff, Proc.returns_get_iff, Proc.returns_lift_iff,
          Proc.returns_set_iff] at hcredit
        obtain ⟨_, _, _, _, ⟨rfl, rfl, -⟩, ⟨registers, _, _, _, ⟨hregisters, rfl, -⟩,
          ⟨rfl, -⟩, -⟩, -⟩ := hcredit
        exact ⟨rfl, rfl, rfl, rfl, nextMeasurement_of_acknowledgeFast hregisters⟩
      · simp only [Proc.returns_pure_iff] at hcredit
        rw [← hcredit.2.1]
        exact ⟨rfl, rfl, rfl, rfl, rfl⟩

/-- Whether an acknowledgment was taken in. -/
inductive Receives (epoch : ℕ) (s : ControlState) : ControlState → Prop
  | nothing : Receives epoch s s
  | stale (reply : Mailbox.Envelope EnqueueReply) (rest : List (Mailbox.Envelope EnqueueReply))
      (entries : s.links.replies.entries = reply :: rest) (epoch_ne : reply.epoch ≠ epoch) :
      Receives epoch s
        { s with links := { s.links with replies := { s.links.replies with entries := rest } } }
  | acknowledged (reply : Mailbox.Envelope EnqueueReply)
      (rest : List (Mailbox.Envelope EnqueueReply)) (request : TimingEvents)
      (entries : s.links.replies.entries = reply :: rest) (epoch_eq : reply.epoch = epoch)
      (outstanding : s.control.enqueueRequest = some request)
      (label : reply.value.label = request.point.label) :
      Receives epoch s
        { s with
          control := s.control.acknowledged request.point.label
          links := { s.links with replies := { s.links.replies with entries := rest } } }

theorem receiveReply_returns (h : (receiveReply now epoch).Returns s u s' l) :
    Receives epoch s s' := by
  simp only [receiveReply, Proc.returns_bind_iff, Proc.returns_get_iff] at h
  obtain ⟨_, _, _, _, ⟨rfl, rfl, -⟩, h, -⟩ := h
  cases hpeek : s.links.replies.peek now with
  | none =>
    simp only [hpeek, Proc.returns_pure_iff] at h
    rw [← h.2.1]
    exact .nothing
  | some reply =>
    obtain ⟨rest, hentries, htaken⟩ := Mailbox.peek_eq_some hpeek
    have htaken' : s.links.replies.taken now = { s.links.replies with entries := rest } := by
      simp [Mailbox.taken, hpeek, hentries]
    simp only [hpeek, htaken', Proc.returns_bind_iff, Proc.returns_set_iff] at h
    obtain ⟨_, _, _, _, ⟨rfl, -⟩, h, -⟩ := h
    split at h
    · rename_i hepoch
      simp only [Proc.returns_bind_iff, Proc.returns_lift_iff, require_eq_ok_iff,
        returns_setControl_iff, Proc.returns_emit_iff] at h
      obtain ⟨_, _, _, _, ⟨⟨r, hr, hlabel⟩, rfl, -⟩, ⟨_, _, _, _, ⟨rfl, -⟩, ⟨rfl, -⟩, -⟩, -⟩ := h
      rw [hlabel]
      exact .acknowledged reply rest r hentries hepoch hr hlabel
    · rename_i hepoch
      simp only [Proc.returns_pure_iff] at h
      rw [← h.2.1]
      exact .stale reply rest hentries hepoch

theorem receive_returns (h : (receive now epoch).Returns s u s' l) :
    ∃ s₁, Receives epoch s s₁ ∧ SameControl s₁ s' := by
  simp only [receive, Proc.returns_bind_iff, Proc.returns_get_iff] at h
  obtain ⟨_, s₁, _, _, hreply, ⟨_, _, _, _, ⟨rfl, rfl, -⟩, ⟨_, s₂, _, _, hresults,
    ⟨_, _, _, _, ⟨rfl, rfl, -⟩, hcredits, -⟩, -⟩, -⟩, -⟩ := h
  exact ⟨s₁, receiveReply_returns hreply,
    (receiveResults_returns hresults).trans (receiveCredits_returns hcredits)⟩

/-- Nothing is submitted by receiving. -/
theorem receive_timingEvents (h : (receive now epoch).Returns s u s' l) :
    s'.links.timingEvents = s.links.timingEvents := by
  obtain ⟨s₁, hreceives, hsame⟩ := receive_returns h
  rw [hsame.timingEvents]
  cases hreceives <;> rfl

/-! ## Submitting -/

/-- What a call of `enqueue` has done; the point is done with when it yields `true`. -/
inductive Enqueues (now epoch : ℕ) (s : ControlState) : Bool → ControlState → Prop
  | waiting (request : TimingEvents) (h : s.control.enqueueRequest = some request) :
      Enqueues now epoch s false s
  | done (idle : s.control.enqueueRequest = none) (point : s.control.pendingPoint = false) :
      Enqueues now epoch s true
        { s with control := { s.control with enqueued := !s.control.allowSameTime } }
  | submitted (request : TimingEvents) (eligible : ℕ) (idle : s.control.enqueueRequest = none)
      (point : s.control.pendingPoint = true) (made : s.control.request epoch = .ok request)
      (valid : validateTimingEvents request s.control.profile = .ok ())
      (space : s.links.timingEvents.full = false) :
      Enqueues now epoch s false
        { s with
          control := { s.control with enqueueRequest := some request }
          links :=
            { s.links with
              timingEvents :=
                { s.links.timingEvents with
                  entries := s.links.timingEvents.entries ++
                    [{ published := now, eligible, epoch, value := request }] } } }

theorem enqueue_returns {b : Bool} (h : (enqueue now epoch).Returns s b s' l) :
    Enqueues now epoch s b s' := by
  simp only [enqueue, Proc.returns_bind_iff, Proc.returns_get_iff] at h
  obtain ⟨_, _, _, _, ⟨rfl, rfl, -⟩, h, -⟩ := h
  split at h
  · rename_i hsome
    obtain ⟨r, hr⟩ := Option.isSome_iff_exists.1 hsome
    simp only [Proc.returns_pure_iff] at h
    obtain ⟨rfl, rfl, -⟩ := h
    exact .waiting r hr
  · rename_i hnone
    have hidle : s.control.enqueueRequest = none := by simpa using hnone
    split at h
    · rename_i hpoint
      simp only [Proc.returns_bind_iff, returns_setControl_iff, Proc.returns_pure_iff] at h
      obtain ⟨_, _, _, _, ⟨rfl, -⟩, ⟨rfl, rfl, -⟩, -⟩ := h
      exact .done hidle hpoint
    · rename_i hpoint
      simp only [Proc.returns_bind_iff, Proc.returns_lift_iff, require_eq_ok_iff,
        returns_setControl_iff, Proc.returns_modify_iff, Proc.returns_emit_iff,
        Proc.returns_pure_iff] at h
      obtain ⟨r, _, _, _, ⟨hr, rfl, -⟩, ⟨_, _, _, _, ⟨hvalid, rfl, -⟩, ⟨_, _, _, _,
        ⟨hspace, rfl, -⟩, ⟨_, _, _, _, ⟨rfl, -⟩, ⟨b', _, _, _, ⟨hb', rfl, -⟩, ⟨_, _, _, _,
        ⟨rfl, -⟩, ⟨_, _, _, _, ⟨rfl, -⟩, ⟨rfl, rfl, -⟩, -⟩, -⟩, -⟩, -⟩, -⟩, -⟩, -⟩ := h
      obtain ⟨-, eligible, rfl⟩ := Mailbox.publish_eq_ok hb'
      exact .submitted r eligible hidle (by simpa using hpoint) hr hvalid hspace

/-! ## Executing -/

/-- The targets a list of actions measures. -/
def acquireTargets (actions : List EventSpec) : List ℕ :=
  (actions.filter fun a => a.kind = .acquire).map (·.targets.headD 0)

theorem checkActions_eq_ok {profile : TimingConfig} {validate : EventSpec → Except Fault Unit}
    {actions : List EventSpec} {targets : List ℕ}
    (h : checkActions profile validate actions = .ok targets) : targets = acquireTargets actions := by
  induction actions generalizing targets with
  | nil =>
    rw [← Except.pure_eq_ok_iff.1 h]
    rfl
  | cons a rest ih =>
    simp only [checkActions, Except.bind_eq_ok_iff, Except.pure_eq_ok_iff] at h
    obtain ⟨_, -, _, -, found, hfound, rfl⟩ := h
    rw [ih hfound]
    by_cases ha : a.kind = .acquire
    · simp [acquireTargets, ha]
    · simp [acquireTargets, ha]

/-- The timing control as an operation leaves it before it is done with the point. -/
def prepared (c : TimingControl) (operation : ControlOperation) : TimingControl :=
  if operation.command = .wait 0 then { c with held := some operation }.waitForNext
  else { c with held := some operation }

/-- What a call of `execute` has done; without a result the operation has to be reissued. -/
inductive Executes (operation : ControlOperation) (now epoch : ℕ) (s : ControlState) :
    Option ℕ → ControlState → Prop
  | codeword (port word : ℕ) (map : Mapping) (references : List MeasurementReference)
      (events : List OperationEvent) (registers : MeasurementRegisters) (log : List TraceEvent)
      (command : operation.command = .codeword port word) (free : s.control.enqueued = false)
      (idle : s.control.enqueueRequest = none)
      (mapped : s.control.profile.mapping port word = .ok map)
      (reserved : s.registers.prepareReservation epoch (acquireTargets map.actions) = .ok references)
      (decoded : decodeCodeword s.control.profile port word epoch operation.instruction
        s.control.nextEvent references = .ok events)
      (committed : (MeasurementRegisters.commitReservation references).Returns s.registers ()
        registers log) :
      Executes operation now epoch s (some 0)
        { s with
          control :=
            { s.control with
              held := none
              pendingEvents := s.control.pendingEvents ++ events
              pendingPoint := true
              nextEvent := s.control.nextEvent + map.actions.length }
          registers }
  | synchronized (target : ℕ) (command : operation.command = .synchronize target)
      (free : s.control.enqueued = false) (idle : s.control.enqueueRequest = none)
      (single : s.control.pendingSync = []) :
      Executes operation now epoch s (some 0)
        { s with
          control := { s.control with held := none, pendingSync := [target], pendingPoint := true } }
  | blocked (s₁ : ControlState) (flushes : operation.command.flushes = true)
      (h : Enqueues now epoch { s with control := s.control.prepared operation } false s₁) :
      Executes operation now epoch s none s₁
  | waited (s₁ : ControlState) (command : operation.command = .wait 0)
      (h : Enqueues now epoch { s with control := s.control.prepared operation } true s₁) :
      Executes operation now epoch s (some 0)
        { s₁ with
          control :=
            { s₁.control with
              held := none, pendingWaitForNext := false, allowSameTime := true, enqueued := false } }
  | advanced (cycles : ℕ) (s₁ : ControlState) (command : operation.command = .wait cycles)
      (positive : cycles ≠ 0)
      (h : Enqueues now epoch { s with control := s.control.prepared operation } true s₁) :
      Executes operation now epoch s (some 0)
        { s₁ with
          control :=
            { s₁.control with
              held := none, timePoint := s.control.timePoint + cycles, allowSameTime := false
              pendingPoint := true, enqueued := false } }
  | unread (qubit : ℕ) (s₁ : ControlState) (command : operation.command = .fetchMeasurement qubit)
      (h : Enqueues now epoch { s with control := s.control.prepared operation } true s₁) :
      Executes operation now epoch s none s₁
  | read (qubit value : ℕ) (s₁ : ControlState)
      (command : operation.command = .fetchMeasurement qubit)
      (h : Enqueues now epoch { s with control := s.control.prepared operation } true s₁) :
      Executes operation now epoch s (some value)
        { s₁ with control := { s₁.control with held := none } }
  | halted (eligible : ℕ) (s₁ : ControlState) (command : operation.command = .halt)
      (h : Enqueues now epoch { s with control := s.control.prepared operation } true s₁)
      (space : s₁.links.closure.full = false) :
      Executes operation now epoch s (some 0)
        { s₁ with
          control := { s₁.control with held := none, closed := true }
          links :=
            { s₁.links with
              closure :=
                { s₁.links.closure with
                  entries := s₁.links.closure.entries ++
                    [{ published := now, eligible, epoch
                       value := { lastLabel := s₁.control.lastLabel } }] } } }

section Bodies
variable {result : Option ℕ} {validate : EventSpec → Except Fault Unit}

theorem codeword_returns {instruction port word : ℕ}
    (h : (codeword validate instruction port word now epoch).Returns s result s' l) :
    ∃ map references events registers log, s.control.enqueued = false ∧
      s.control.enqueueRequest = none ∧ s.control.profile.mapping port word = .ok map ∧
      s.registers.prepareReservation epoch (acquireTargets map.actions) = .ok references ∧
      decodeCodeword s.control.profile port word epoch instruction s.control.nextEvent references =
        .ok events ∧
      (MeasurementRegisters.commitReservation references).Returns s.registers () registers log ∧
      result = some 0 ∧ s' =
        { s with
          control :=
            { s.control with
              pendingEvents := s.control.pendingEvents ++ events
              pendingPoint := true
              nextEvent := s.control.nextEvent + map.actions.length }
          registers } := by
  simp only [codeword, Proc.returns_get_bind_iff, Proc.returns_lift_bind_iff, require_eq_ok_iff,
    exists_const] at h
  obtain ⟨⟨hfree, hidle⟩, map, hmap, targets, htargets, _, -, -, _, -, next, hnext, references,
    hreferences, events, hevents, h⟩ := h
  obtain ⟨_, s₁, log, _, hcommit, h, -⟩ := Proc.returns_bind_iff.1 h
  obtain ⟨registers, hregisters, rfl⟩ := Proc.returns_zoom_iff.1 hcommit
  simp only [returns_setControl_bind_iff, Proc.returns_emit_bind_iff, Proc.returns_pure_iff] at h
  obtain ⟨_, ⟨rfl, rfl, -⟩, -⟩ := h
  rw [checkActions_eq_ok htargets] at hreferences
  rw [eq_of_checkedAdd hnext]
  exact ⟨map, references, events, registers, log, hfree, hidle, hmap, hreferences, hevents,
    hregisters, rfl, rfl⟩

theorem executeZeroWait_returns (h : (executeZeroWait now epoch).Returns s result s' l) :
    ∃ b s₁, Enqueues now epoch { s with control := s.control.waitForNext } b s₁ ∧
      ((b = false ∧ result = none ∧ s' = s₁) ∨ b = true ∧ result = some 0 ∧ s' =
        { s₁ with
          control :=
            { s₁.control with
              pendingWaitForNext := false, allowSameTime := true, enqueued := false } }) := by
  simp only [executeZeroWait, returns_setControl_bind_iff] at h
  obtain ⟨b, s₁, _, _, henqueue, h, -⟩ := Proc.returns_bind_iff.1 h
  refine ⟨b, s₁, enqueue_returns henqueue, ?_⟩
  cases b with
  | false =>
    obtain ⟨rfl, rfl, -⟩ := Proc.returns_pure_iff.1 h
    exact .inl ⟨rfl, rfl, rfl⟩
  | true =>
    simp only [if_true, returns_setControl_bind_iff, Proc.returns_pure_iff] at h
    obtain ⟨rfl, rfl, -⟩ := h
    exact .inr ⟨rfl, rfl, rfl⟩

theorem advanceTime_returns {cycles : ℕ}
    (h : (advanceTime cycles now epoch).Returns s result s' l) :
    ∃ b s₁, Enqueues now epoch s b s₁ ∧
      ((b = false ∧ result = none ∧ s' = s₁) ∨ b = true ∧ result = some 0 ∧ s' =
        { s₁ with
          control :=
            { s₁.control with
              timePoint := s.control.timePoint + cycles, allowSameTime := false
              pendingPoint := true, enqueued := false } }) := by
  simp only [advanceTime, Proc.returns_get_bind_iff, Proc.returns_lift_bind_iff] at h
  obtain ⟨destination, hdestination, h⟩ := h
  obtain ⟨b, s₁, _, _, henqueue, h, -⟩ := Proc.returns_bind_iff.1 h
  refine ⟨b, s₁, enqueue_returns henqueue, ?_⟩
  cases b with
  | false =>
    obtain ⟨rfl, rfl, -⟩ := Proc.returns_pure_iff.1 h
    exact .inl ⟨rfl, rfl, rfl⟩
  | true =>
    simp only [if_true, returns_setControl_bind_iff, Proc.returns_pure_iff] at h
    obtain ⟨rfl, rfl, -⟩ := h
    exact .inr ⟨rfl, rfl, by rw [eq_of_checkedAdd hdestination]⟩

theorem fetchMeasurement_returns {instruction qubit : ℕ}
    (h : (fetchMeasurement instruction qubit now epoch).Returns s result s' l) :
    ∃ b, Enqueues now epoch s b s' ∧ (b = false → result = none) := by
  simp only [fetchMeasurement, Proc.returns_get_bind_iff, Proc.returns_lift_bind_iff,
    require_eq_ok_iff, exists_const] at h
  obtain ⟨b, s₁, _, _, henqueue, h, -⟩ := Proc.returns_bind_iff.1 h.2
  refine ⟨b, ?_, ?_⟩
  · have henqueues := enqueue_returns henqueue
    cases b with
    | false =>
      obtain ⟨-, rfl, -⟩ := Proc.returns_pure_iff.1 h
      exact henqueues
    | true =>
      simp only [if_true, Proc.returns_get_bind_iff, Proc.returns_lift_bind_iff] at h
      obtain ⟨value, -, h⟩ := h
      cases value with
      | none =>
        obtain ⟨-, rfl, -⟩ := Proc.returns_pure_iff.1 h
        exact henqueues
      | some v =>
        simp only [Proc.returns_emit_bind_iff, Proc.returns_pure_iff] at h
        obtain ⟨_, ⟨-, rfl, -⟩, -⟩ := h
        exact henqueues
  · rintro rfl
    exact (Proc.returns_pure_iff.1 h).1.symm

theorem halt_returns (h : (halt now epoch).Returns s result s' l) :
    ∃ b s₁, Enqueues now epoch s b s₁ ∧
      ((b = false ∧ result = none ∧ s' = s₁) ∨ b = true ∧ result = some 0 ∧
        s₁.links.closure.full = false ∧ ∃ eligible, s' =
          { s₁ with
            control := { s₁.control with closed := true }
            links :=
              { s₁.links with
                closure :=
                  { s₁.links.closure with
                    entries := s₁.links.closure.entries ++
                      [{ published := now, eligible, epoch
                         value := { lastLabel := s₁.control.lastLabel } }] } } }) := by
  obtain ⟨b, s₁, _, _, henqueue, h, -⟩ := Proc.returns_bind_iff.1 h
  refine ⟨b, s₁, enqueue_returns henqueue, ?_⟩
  cases b with
  | false =>
    obtain ⟨rfl, rfl, -⟩ := Proc.returns_pure_iff.1 h
    exact .inl ⟨rfl, rfl, rfl⟩
  | true =>
    simp only [if_true, Proc.returns_get_bind_iff, Proc.returns_lift_bind_iff,
      Proc.returns_set_bind_iff, Proc.returns_pure_iff] at h
    obtain ⟨closure, hclosure, rfl, rfl, -⟩ := h
    obtain ⟨hspace, eligible, rfl⟩ := Mailbox.publish_eq_ok hclosure
    exact .inr ⟨rfl, rfl, hspace, eligible, rfl⟩

theorem synchronize_returns {validateSync : Option (ℕ → Except Fault Unit)} {target : ℕ}
    (h : (synchronize validateSync target).Returns s result s' l) :
    s.control.enqueued = false ∧ s.control.enqueueRequest = none ∧ s.control.pendingSync = [] ∧
      result = some 0 ∧ s' =
        { s with
          control := { s.control with pendingSync := [target], pendingPoint := true } } := by
  simp only [synchronize, Proc.returns_get_bind_iff, Proc.returns_lift_bind_iff, exists_const,
    require_eq_ok_iff, returns_setControl_bind_iff, Proc.returns_pure_iff] at h
  obtain ⟨-, ⟨hfree, hidle⟩, _, -, hsingle, rfl, rfl, -⟩ := h
  refine ⟨hfree, hidle, hsingle, rfl, ?_⟩
  rw [hsingle, List.nil_append]

end Bodies

theorem execute_returns {validate : EventSpec → Except Fault Unit}
    {validateSync : Option (ℕ → Except Fault Unit)} {operation : ControlOperation}
    {result : Option ℕ}
    (h : (execute validate validateSync operation now epoch).Returns s result s' l) :
    s.control.closed = false ∧ (∀ held ∈ s.control.held, held = operation) ∧
      Executes operation now epoch s result s' := by
  simp only [execute, Proc.returns_get_bind_iff, Proc.returns_lift_bind_iff, require_eq_ok_iff,
    exists_const, returns_setControl_bind_iff] at h
  obtain ⟨hopen, hheld, h⟩ := h
  refine ⟨hopen, hheld, ?_⟩
  obtain ⟨res, s₁, _, _, hbody, hrest, -⟩ := Proc.returns_bind_iff.1 h
  have hend : res = result ∧
      (if res.isSome then { s₁ with control := { s₁.control with held := none } } else s₁) = s' := by
    obtain ⟨_, s₂, _, _, hrelease, hpure, -⟩ := Proc.returns_bind_iff.1 hrest
    obtain ⟨rfl, rfl, -⟩ := Proc.returns_pure_iff.1 hpure
    refine ⟨rfl, ?_⟩
    split at hrelease
    · rw [if_pos ‹_›, ← (returns_setControl_iff.1 hrelease).1]
    · rw [if_neg ‹_›, ← (Proc.returns_pure_iff.1 hrelease).2.1]
  obtain ⟨rfl, rfl⟩ := hend
  clear h hrest
  cases hcommand : operation.command with
  | codeword port word =>
    simp only [hcommand] at hbody
    obtain ⟨map, references, events, registers, log, hfree, hidle, hmap, hreferences, hevents,
      hcommit, rfl, rfl⟩ := codeword_returns hbody
    exact .codeword port word map references events registers log hcommand hfree hidle hmap
      hreferences hevents hcommit
  | wait cycles =>
    simp only [hcommand] at hbody
    split at hbody
    · rename_i hz
      subst hz
      have hprepared : s.control.prepared operation =
          { s.control with held := some operation }.waitForNext := if_pos hcommand
      obtain ⟨b, s₃, h, hcases⟩ := executeZeroWait_returns hbody
      rw [← hprepared] at h
      rcases hcases with ⟨rfl, rfl, rfl⟩ | ⟨rfl, rfl, rfl⟩
      · exact .blocked _ (by simp [hcommand, ControlCommand.flushes]) h
      · exact .waited s₃ hcommand h
    · rename_i hpos
      have hprepared : s.control.prepared operation = { s.control with held := some operation } :=
        if_neg (by simp [hcommand, hpos])
      obtain ⟨b, s₃, h, hcases⟩ := advanceTime_returns hbody
      rw [← hprepared] at h
      rcases hcases with ⟨rfl, rfl, rfl⟩ | ⟨rfl, rfl, rfl⟩
      · exact .blocked _ (by simp [hcommand, ControlCommand.flushes]) h
      · exact .advanced cycles s₃ hcommand hpos h
  | fetchMeasurement qubit =>
    have hprepared : s.control.prepared operation = { s.control with held := some operation } :=
      if_neg (by simp [hcommand])
    simp only [hcommand] at hbody
    obtain ⟨b, h, hblocked⟩ := fetchMeasurement_returns hbody
    rw [← hprepared] at h
    cases b with
    | false =>
      obtain rfl := hblocked rfl
      exact .blocked _ (by simp [hcommand, ControlCommand.flushes]) h
    | true =>
      cases res with
      | none => exact .unread qubit _ hcommand h
      | some value => exact .read qubit value _ hcommand h
  | halt =>
    have hprepared : s.control.prepared operation = { s.control with held := some operation } :=
      if_neg (by simp [hcommand])
    simp only [hcommand] at hbody
    obtain ⟨b, s₃, h, hcases⟩ := halt_returns hbody
    rw [← hprepared] at h
    rcases hcases with ⟨rfl, rfl, rfl⟩ | ⟨rfl, rfl, hspace, eligible, rfl⟩
    · exact .blocked _ (by simp [hcommand, ControlCommand.flushes]) h
    · exact .halted eligible s₃ hcommand h hspace
  | synchronize target =>
    simp only [hcommand] at hbody
    obtain ⟨hfree, hidle, hsingle, rfl, rfl⟩ := synchronize_returns hbody
    exact .synchronized target hcommand hfree hidle hsingle

end TimingControl
end Qsbit

import Qsbit.Core
import Qsbit.TimingControl.Fault
import Qsbit.TimingControl.Run

/-!
# The handshake between the timing control and its unit

The two sides of a core exchange requests, acknowledgments and the end of the
stream through mailboxes with one slot. At any time a request is in one place:
it is on its way, its acknowledgment is on its way, or neither exists.

## Main definitions

* `HandshakeHistory`, `CoreRun` — what has been submitted and admitted in a run of a core.
* `Agreed` — the invariant; `Phase` says where the request is, `Apart` why two points differ.
* `handshake` — what the invariant means for both sides.
-/
namespace Qsbit
open TimingControl (added)

/-- The requests that have been submitted and those that have been admitted. -/
structure HandshakeHistory where
  submitted : List TimingEvents := []
  admitted : List TimingEvents := []

/-- The request that the unit takes on an edge. -/
def Core.candidate (c : Core) (now : ℕ) : Option TimingEvents :=
  (c.links.timingEvents.peek now).map (·.value)

/-- A run of a core: its edges in any order and any number, with any operations from the CPU.
The network may be any on every edge, so the other cores may do anything. -/
inductive CoreRun (validate : EventSpec → Except Fault Unit) :
    ℕ → HandshakeHistory → Core → Prop
  | make {fingerprint : String} {id syncCapacity : ℕ} {profile : Profile} {c : Core} (epoch : ℕ)
      (h : Core.make fingerprint id profile syncCapacity = .ok c) : CoreRun validate epoch {} c
  | reset {epoch now : ℕ} {x : HandshakeHistory} {c c' : Core} {l : List TraceEvent}
      (epoch' : ℕ) (run : CoreRun validate epoch x c) (h : (Core.reset now).Returns c () c' l) :
      CoreRun validate epoch' {} c'
  | cpuEdge {epoch now : ℕ} {x : HandshakeHistory} {c c' : Core} {n n' : SyncNetwork}
      {operations : List ControlOperation} {results : List (Option ℕ)} {l : List TraceEvent}
      (run : CoreRun validate epoch x c)
      (h : (Core.cpuEdge validate operations now epoch).Returns (c, n) results (c', n') l) :
      CoreRun validate epoch
        { x with submitted := x.submitted ++ added c.links.timingEvents c'.links.timingEvents } c'
  | tcuEdge {epoch now : ℕ} {x : HandshakeHistory} {c c' : Core} {n n' : SyncNetwork}
      {preflight : TriggeredEvents → Except Fault Unit} {out : TcuOutput} {l : List TraceEvent}
      (run : CoreRun validate epoch x c)
      (h : (Core.tcuEdge preflight now epoch).Returns (c, n) out (c', n') l) :
      CoreRun validate epoch
        { x with
          admitted := x.admitted ++ if out.admitted then (c.candidate now).toList else [] } c'
  | deliver {epoch now : ℕ} {x : HandshakeHistory} {c c' : Core} {result : Completion}
      {l : List TraceEvent} (run : CoreRun validate epoch x c)
      (h : (Core.deliver result now epoch).Returns c () c' l) : CoreRun validate epoch x c'

/-! ## The invariant -/

/-- Why the point that is staged can follow the one before it. -/
structure Apart (c : TimingControl) (m : TcuCycleModel) : Prop where
  time : c.lastEnqueuedTime ≤ c.timePoint
  same : c.allowSameTime = true →
    c.lastEnqueuedTime = c.timePoint ∧ m.admittedPolicy = .pauseWhenEmpty
  waited : c.enqueueRequest = none → c.pendingWaitForNext = true → c.pendingPoint = false →
    c.lastEnqueuedTime = c.timePoint ∧ m.admittedPolicy = .pauseWhenEmpty
  apart : c.enqueueRequest = none → c.pendingWaitForNext = false →
    c.pendingPoint = true ∨ c.enqueued = false →
      m.lastLabel = 0 ∨ c.lastEnqueuedTime < c.timePoint ∨ m.admittedPolicy = .pauseWhenEmpty

/-- A request that the unit can only refuse for its time. -/
structure Proper (epoch : ℕ) (c : TimingControl) (m : TcuCycleModel) (r : TimingEvents) : Prop where
  valid : validateTimingEvents r m.profile.timing = .ok ()
  epoch : r.point.epoch = epoch
  label : r.point.label = m.lastLabel + 1
  separated : m.lastLabel = 0 ∨ 0 < r.point.interval ∨ m.admittedPolicy = .pauseWhenEmpty ∨
    r.point.underflowPolicy = .pauseWhenEmpty
  same : c.allowSameTime = true → r.point.underflowPolicy ≠ .strict
  waiting : c.pendingWaitForNext = true → r.point.underflowPolicy = .pauseWhenEmpty

/-- Where the outstanding request is. -/
inductive Phase (epoch : ℕ) (x : HandshakeHistory) (s : ControlState) (m : TcuCycleModel) : Prop
  | idle (request : s.control.enqueueRequest = none) (events : s.links.timingEvents.entries = [])
      (replies : s.links.replies.entries = []) (label : s.control.lastLabel = m.lastLabel)
      (admitted : x.admitted = x.submitted)
  | sent (envelope : Mailbox.Envelope TimingEvents)
      (request : s.control.enqueueRequest = some envelope.value)
      (events : s.links.timingEvents.entries = [envelope])
      (replies : s.links.replies.entries = [])
      (submitted : x.submitted = x.admitted ++ [envelope.value])
      (proper : Proper epoch s.control m envelope.value)
  | replied (r : TimingEvents) (envelope : Mailbox.Envelope EnqueueReply)
      (request : s.control.enqueueRequest = some r) (events : s.links.timingEvents.entries = [])
      (replies : s.links.replies.entries = [envelope]) (current : envelope.epoch = epoch)
      (answer : envelope.value.label = r.point.label) (label : m.lastLabel = r.point.label)
      (admitted : x.admitted = x.submitted)
      (waiting : s.control.pendingWaitForNext = true → m.admittedPolicy = .pauseWhenEmpty)

/-- Where the end of the stream is. -/
inductive Closing (epoch : ℕ) (s : ControlState) (m : TcuCycleModel) : Prop
  | running (control : s.control.closed = false) (closure : s.links.closure.entries = [])
      (opened : m.closed = false)
  | announced (envelope : Mailbox.Envelope EndOfStream) (control : s.control.closed = true)
      (idle : s.control.enqueueRequest = none) (closure : s.links.closure.entries = [envelope])
      (current : envelope.epoch = epoch) (label : envelope.value.lastLabel = s.control.lastLabel)
      (opened : m.closed = false)
  | ended (control : s.control.closed = true) (idle : s.control.enqueueRequest = none)
      (closure : s.links.closure.entries = [])

/-- Between two operations, or at one that has to be issued again. -/
inductive Steady (c : TimingControl) : Prop
  | resting (held : c.held = none) (idle : c.enqueueRequest = none)
      (waiting : c.pendingWaitForNext = false)
  | blocked (operation : ControlOperation) (held : c.held = some operation)
      (flushes : operation.command.flushes = true)
      (waiting : c.pendingWaitForNext = (operation.command = .wait 0 : Bool))
      (done : c.enqueueRequest = none → c.pendingPoint = false)

/-- The two sides of a core agree on what has been exchanged. -/
structure Agreed (epoch : ℕ) (x : HandshakeHistory) (s : ControlState) (m : TcuCycleModel) :
    Prop where
  profile : s.control.profile = m.profile.timing
  slots : s.links.timingEvents.capacity = 1 ∧ s.links.replies.capacity = 1 ∧
    s.links.closure.capacity = 1
  syncCapacity : 0 < m.syncCapacity
  labels : x.submitted.map (·.point.label) = List.range' 1 x.submitted.length
  count : x.admitted.length = m.lastLabel
  phase : Phase epoch x s m
  apart : Apart s.control m
  closing : Closing epoch s m

section Agreed
variable {epoch now : ℕ} {x : HandshakeHistory} {s s' : ControlState} {m : TcuCycleModel}
  {operation : ControlOperation}

theorem Phase.idle_of (h : Phase epoch x s m) (hidle : s.control.enqueueRequest = none) :
    s.links.timingEvents.entries = [] ∧ s.links.replies.entries = [] ∧
      s.control.lastLabel = m.lastLabel ∧ x.admitted = x.submitted := by
  cases h with
  | idle request events replies label admitted => exact ⟨events, replies, label, admitted⟩
  | sent envelope request => simp [hidle] at request
  | replied r envelope request => simp [hidle] at request

/-- The control's part of the invariant depends on these fields only. -/
theorem Agreed.of_idle (h : Agreed epoch x s m) (hidle : s.control.enqueueRequest = none)
    (hprofile : s'.control.profile = s.control.profile)
    (hidle' : s'.control.enqueueRequest = none)
    (hlabel : s'.control.lastLabel = s.control.lastLabel)
    (hevents : s'.links.timingEvents = s.links.timingEvents)
    (hreplies : s'.links.replies = s.links.replies)
    (hcapacity : s'.links.closure.capacity = s.links.closure.capacity)
    (hapart : Apart s'.control m) (hclosing : Closing epoch s' m) : Agreed epoch x s' m := by
  obtain ⟨hnoEvents, hnoReplies, hsame, hadmitted⟩ := h.phase.idle_of hidle
  exact
    { h with
      profile := hprofile.trans h.profile
      slots := by rw [hevents, hreplies, hcapacity]; exact h.slots
      phase := .idle hidle' (hevents ▸ hnoEvents) (hreplies ▸ hnoReplies) (hlabel.trans hsame)
        hadmitted
      apart := hapart
      closing := hclosing }

theorem Agreed.of_same (h : Agreed epoch x s m) (hc : s'.control = s.control)
    (hevents : s'.links.timingEvents = s.links.timingEvents)
    (hreplies : s'.links.replies = s.links.replies)
    (hclosure : s'.links.closure = s.links.closure) : Agreed epoch x s' m where
  profile := hc ▸ h.profile
  slots := by rw [hevents, hreplies, hclosure]; exact h.slots
  syncCapacity := h.syncCapacity
  labels := h.labels
  count := h.count
  phase := by
    cases h.phase with
    | idle request events replies label admitted =>
      exact .idle (hc ▸ request) (hevents ▸ events) (hreplies ▸ replies) (hc ▸ label) admitted
    | sent envelope request events replies submitted proper =>
      exact .sent envelope (hc ▸ request) (hevents ▸ events) (hreplies ▸ replies) submitted
        (hc ▸ proper)
    | replied r envelope request events replies current answer label admitted waiting =>
      exact .replied r envelope (hc ▸ request) (hevents ▸ events) (hreplies ▸ replies) current
        answer label admitted (hc ▸ waiting)
  apart := hc ▸ h.apart
  closing := by
    cases h.closing with
    | running control closure opened => exact .running (hc ▸ control) (hclosure ▸ closure) opened
    | announced envelope control idle closure current label opened =>
      exact .announced envelope (hc ▸ control) (hc ▸ idle) (hclosure ▸ closure) current
        (hc ▸ label) opened
    | ended control idle closure => exact .ended (hc ▸ control) (hc ▸ idle) (hclosure ▸ closure)

/-- A running program has not announced its end. -/
theorem Agreed.open_closure (h : Agreed epoch x s m) (hopen : s.control.closed = false) :
    s.links.closure.entries = [] ∧ m.closed = false := by
  cases h.closing with
  | running control closure opened => exact ⟨closure, opened⟩
  | announced envelope control => simp [hopen] at control
  | ended control => simp [hopen] at control

/-! ## Receiving -/

/-- Every acknowledgment is the one that is waited for. -/
theorem Agreed.answers (h : Agreed epoch x s m) : ∀ reply ∈ s.links.replies.entries,
    reply.epoch = epoch ∧ ∃ r ∈ s.control.enqueueRequest, reply.value.label = r.point.label := by
  intro reply hreply
  cases h.phase with
  | idle request events replies => simp [replies] at hreply
  | sent envelope request events replies => simp [replies] at hreply
  | replied r envelope request events replies current answer =>
    obtain rfl : reply = envelope := by simpa [replies] using hreply
    exact ⟨current, r, request, answer⟩

theorem Agreed.receive {u : Unit} {l : List TraceEvent} (h : Agreed epoch x s m)
    (hsteady : Steady s.control) (hr : (TimingControl.receive now epoch).Returns s u s' l) :
    Agreed epoch x s' m ∧ Steady s'.control := by
  obtain ⟨s₁, hreceives, hsame⟩ := TimingControl.receive_returns hr
  suffices h₁ : Agreed epoch x s₁ m ∧ Steady s₁.control by
    refine ⟨h₁.1.of_same hsame.control hsame.timingEvents hsame.replies hsame.closure, ?_⟩
    rw [hsame.control]
    exact h₁.2
  cases hreceives with
  | nothing => exact ⟨h, hsteady⟩
  | stale reply rest entries epoch_ne =>
    exact absurd (h.answers reply (by simp [entries])).1 epoch_ne
  | acknowledged reply rest request entries epoch_eq outstanding label =>
    cases hsteady with
    | resting held idle waiting => simp [idle] at outstanding
    | blocked operation held flushes waiting done =>
      refine ⟨?_, .blocked operation held flushes waiting fun _ => rfl⟩
      cases h.phase with
      | idle request => simp [outstanding] at request
      | sent envelope request events replies => simp [replies] at entries
      | replied r envelope request' events replies current answer label' admitted waiting' =>
        obtain rfl : request = r := Option.some.inj (outstanding.symm.trans request')
        obtain ⟨-, rfl⟩ := List.cons.inj (entries.symm.trans replies)
        refine { h with phase := ?_, apart := ?_, closing := ?_ }
        · exact .idle rfl events rfl label'.symm admitted
        · exact
            { time := le_refl _
              same := fun hs => ⟨rfl, (h.apart.same hs).2⟩
              waited := fun _ hw _ => ⟨rfl, waiting' hw⟩
              apart := fun _ _ hp =>
                absurd hp (by simp [TimingControl.acknowledged]) }
        · cases h.closing with
          | running control closure opened => exact .running control closure opened
          | announced envelope control idle => simp [idle] at outstanding
          | ended control idle => simp [idle] at outstanding

/-! ## Submitting -/

/-- The operation is at its point. -/
structure Issued (operation : ControlOperation) (c : TimingControl) : Prop where
  held : c.held = some operation
  waiting : c.pendingWaitForNext = (operation.command = .wait 0 : Bool)
  opened : c.closed = false

/-- Issuing an operation stages at most the point of a `wait 0`. -/
theorem Agreed.prepared (h : Agreed epoch x s m) (hsteady : Steady s.control)
    (hopen : s.control.closed = false) (hheld : ∀ held ∈ s.control.held, held = operation) :
    Agreed epoch x { s with control := s.control.prepared operation } m ∧
      Issued operation (s.control.prepared operation) := by
  have hopen' := (TimingControl.prepared_closed s.control operation).trans hopen
  obtain ⟨hclosure, hopened⟩ := h.open_closure hopen
  cases hsteady with
  | resting held idle waiting =>
    by_cases hwait : operation.command = .wait 0
    · have hprepared : s.control.prepared operation =
          { s.control with
            held := some operation, pendingWaitForNext := true, pendingPoint := true } := by
        simp [TimingControl.prepared, TimingControl.waitForNext, hwait, waiting]
      refine ⟨?_, TimingControl.prepared_held s.control operation, ?_, hopen'⟩
      · rw [hprepared]
        refine h.of_idle idle rfl idle rfl rfl rfl rfl ?_ (.running hopen hclosure hopened)
        exact
          { h.apart with
            waited := fun _ _ hp => by simp at hp
            apart := fun _ hw => by simp at hw }
      · simp [hprepared, hwait]
    · have hprepared : s.control.prepared operation =
          { s.control with held := some operation } := if_neg hwait
      refine ⟨?_, TimingControl.prepared_held s.control operation, ?_, hopen'⟩
      · rw [hprepared]
        exact h.of_idle idle rfl idle rfl rfl rfl rfl { h.apart with }
          (.running hopen hclosure hopened)
      · simp [hprepared, hwait, waiting]
  | blocked operation' held flushes waiting done =>
    obtain rfl := hheld operation' (by simp [held])
    have hprepared := TimingControl.prepared_of_held held waiting
    refine ⟨?_, TimingControl.prepared_held s.control operation', ?_, hopen'⟩
    · rw [hprepared]
      exact h
    · rw [hprepared]
      exact waiting

/-- The request for the staged point is one that the unit can only refuse for its time. -/
theorem Agreed.request_proper {request : TimingEvents} (h : Agreed epoch x s m)
    (hidle : s.control.enqueueRequest = none) (hpoint : s.control.pendingPoint = true)
    (made : s.control.request epoch = .ok request)
    (valid : validateTimingEvents request s.control.profile = .ok ()) :
    Proper epoch s.control m request := by
  obtain ⟨-, -, hlabel, -⟩ := h.phase.idle_of hidle
  simp only [TimingControl.request, Except.bind_eq_ok_iff, Except.pure_eq_ok_iff] at made
  obtain ⟨label, hadd, rfl⟩ := made
  have hinterval : wrapSub s.control.timePoint s.control.lastEnqueuedTime =
      s.control.timePoint - s.control.lastEnqueuedTime := wrapSub_of_le h.apart.time
  refine
    { valid := h.profile ▸ valid
      epoch := rfl
      label := by rw [← hlabel]; exact eq_of_checkedAdd hadd
      separated := ?_
      same := ?_
      waiting := fun hw => by simp [hw] }
  · by_cases hwait : s.control.pendingWaitForNext = true
    · simp [hwait]
    · rcases h.apart.apart hidle (by simpa using hwait) (.inl hpoint) with h | h | h
      · exact .inl h
      · refine .inr (.inl ?_)
        change 0 < wrapSub s.control.timePoint s.control.lastEnqueuedTime
        omega
      · exact .inr (.inr (.inl h))
  · intro hs
    have hzero : wrapSub s.control.timePoint s.control.lastEnqueuedTime = 0 := by
      rw [hinterval, (h.apart.same hs).1, Nat.sub_self]
    simp only [hzero, lt_irrefl, if_false]
    split <;> simp

/-- What has been submitted by one call. -/
def HandshakeHistory.submit (x : HandshakeHistory) (s s' : ControlState) : HandshakeHistory :=
  { x with submitted := x.submitted ++ added s.links.timingEvents s'.links.timingEvents }

/-- A call that submits nothing adds nothing. -/
theorem Agreed.submit_nothing (h : Agreed epoch x s' m)
    (he : s'.links.timingEvents = s.links.timingEvents) : Agreed epoch (x.submit s s') s' m := by
  have hsubmit : x.submit s s' = x := by simp [HandshakeHistory.submit, he]
  rw [hsubmit]
  exact h

theorem Agreed.enqueue {b : Bool} (h : Agreed epoch x s m) (hissued : Issued operation s.control)
    (he : TimingControl.Enqueues now epoch s b s') :
    Agreed epoch (x.submit s s') s' m ∧ Issued operation s'.control ∧
      (b = true → s'.control.enqueueRequest = none ∧ s'.control.pendingPoint = false) ∧
      (s'.control.enqueueRequest = none → s'.control.pendingPoint = false) := by
  cases he with
  | waiting request hrequest => exact ⟨h.submit_nothing rfl, hissued, by simp, by simp [hrequest]⟩
  | done idle point =>
    refine ⟨Agreed.submit_nothing ?_ rfl, ⟨hissued.held, hissued.waiting, hissued.opened⟩,
      fun _ => ⟨idle, point⟩, fun _ => point⟩
    refine h.of_idle idle rfl idle rfl rfl rfl rfl ?_ ?_
    · refine { h.apart with apart := ?_ }
      rintro - - (hp | hp)
      · simp [point] at hp
      · exact .inr (.inr (h.apart.same (by simpa using hp)).2)
    · exact .running hissued.opened (h.open_closure hissued.opened).1
        (h.open_closure hissued.opened).2
  | submitted request eligible idle point made valid space =>
    obtain ⟨hevents, hreplies, hlabel, hadmitted⟩ := h.phase.idle_of idle
    have hproper := h.request_proper idle point made valid
    refine ⟨?_, ⟨hissued.held, hissued.waiting, hissued.opened⟩, by simp, by simp⟩
    have hcount : x.submitted.length = m.lastLabel := by rw [← h.count, hadmitted]
    refine { h with labels := ?_, phase := ?_, apart := ?_, closing := ?_ }
    · simp only [HandshakeHistory.submit, TimingControl.added_append, List.map_append, h.labels,
        List.length_append, List.map_cons, List.map_nil, List.length_cons, List.length_nil,
        Nat.zero_add, List.range'_concat]
      rw [hproper.label, hcount, Nat.one_mul, Nat.add_comm]
    · refine .sent _ rfl (by rw [hevents]; rfl) hreplies ?_ { hproper with }
      simp [HandshakeHistory.submit, hadmitted]
    · exact
        { time := h.apart.time
          same := h.apart.same
          waited := fun hn => by simp at hn
          apart := fun hn => by simp at hn }
    · exact .running hissued.opened (h.open_closure hissued.opened).1
        (h.open_closure hissued.opened).2

/-! ## Executing -/

theorem Agreed.execute {validate : EventSpec → Except Fault Unit}
    {validateSync : Option (ℕ → Except Fault Unit)} {result : Option ℕ} {l : List TraceEvent}
    (h : Agreed epoch x s m) (hsteady : Steady s.control)
    (he : (TimingControl.execute validate validateSync operation now epoch).Returns s result s' l) :
    Agreed epoch (x.submit s s') s' m ∧ Steady s'.control := by
  obtain ⟨hopen, hheld, hexecutes⟩ := TimingControl.execute_returns he
  obtain ⟨hprepared, hissued⟩ := h.prepared hsteady hopen hheld
  have hresting : operation.command.flushes = false → s.control.pendingWaitForNext = false := by
    intro hflushes
    cases hsteady with
    | resting held idle waiting => exact waiting
    | blocked operation' held flushes =>
      obtain rfl := hheld operation' (by simp [held])
      simp [hflushes] at flushes
  obtain ⟨hclosure, hopened⟩ := h.open_closure hopen
  cases hexecutes with
  | codeword port word map references events registers log command free idle =>
    have hwaiting := hresting (by rw [command]; rfl)
    refine ⟨Agreed.submit_nothing ?_ rfl, .resting rfl idle hwaiting⟩
    refine h.of_idle idle rfl idle rfl rfl rfl rfl ?_ (.running hopen hclosure hopened)
    exact
      { time := h.apart.time
        same := h.apart.same
        waited := fun _ hw => by simp [hwaiting] at hw
        apart := fun _ _ _ => h.apart.apart idle hwaiting (.inr free) }
  | synchronized target command free idle =>
    have hwaiting := hresting (by rw [command]; rfl)
    refine ⟨Agreed.submit_nothing ?_ rfl, .resting rfl idle hwaiting⟩
    refine h.of_idle idle rfl idle rfl rfl rfl rfl ?_ (.running hopen hclosure hopened)
    exact
      { time := h.apart.time
        same := h.apart.same
        waited := fun _ hw => by simp [hwaiting] at hw
        apart := fun _ _ _ => h.apart.apart idle hwaiting (.inr free) }
  | blocked s₁ flushes h' =>
    obtain ⟨hagreed, hissued', -, hdone⟩ := hprepared.enqueue hissued h'
    exact ⟨hagreed, .blocked operation hissued'.held flushes hissued'.waiting hdone⟩
  | waited s₁ command h' =>
    obtain ⟨hagreed, hissued', hdone, -⟩ := hprepared.enqueue hissued h'
    obtain ⟨hidle, hpoint⟩ := hdone rfl
    obtain ⟨hclosure₁, hopened₁⟩ := hagreed.open_closure hissued'.opened
    have hwaited := hagreed.apart.waited hidle (by simp [hissued'.waiting, command]) hpoint
    refine ⟨Agreed.of_idle hagreed hidle rfl hidle rfl rfl rfl rfl ?_
      (.running hissued'.opened hclosure₁ hopened₁), .resting rfl hidle rfl⟩
    exact
      { time := hagreed.apart.time
        same := fun _ => hwaited
        waited := fun _ hw => by simp at hw
        apart := fun _ _ _ => .inr (.inr hwaited.2) }
  | advanced cycles s₁ command positive h' =>
    obtain ⟨hagreed, hissued', hdone, -⟩ := hprepared.enqueue hissued h'
    obtain ⟨hidle, hpoint⟩ := hdone rfl
    obtain ⟨hclosure₁, hopened₁⟩ := hagreed.open_closure hissued'.opened
    have hwaiting : s₁.control.pendingWaitForNext = false := by
      simp [hissued'.waiting, command, positive]
    have htime : s₁.control.timePoint = s.control.timePoint :=
      h'.timePoint.trans (TimingControl.prepared_timePoint s.control operation)
    have hlast : s₁.control.lastEnqueuedTime < s.control.timePoint + cycles := by
      have := hagreed.apart.time
      omega
    refine ⟨Agreed.of_idle hagreed hidle rfl hidle rfl rfl rfl rfl ?_
      (.running hissued'.opened hclosure₁ hopened₁), .resting rfl hidle hwaiting⟩
    exact
      { time := hlast.le
        same := fun hs => by simp at hs
        waited := fun _ _ hp => by simp at hp
        apart := fun _ _ _ => .inr (.inl hlast) }
  | unread qubit s₁ command h' =>
    obtain ⟨hagreed, hissued', -, hdone⟩ := hprepared.enqueue hissued h'
    exact ⟨hagreed,
      .blocked operation hissued'.held (by rw [command]; rfl) hissued'.waiting hdone⟩
  | read qubit value s₁ command h' =>
    obtain ⟨hagreed, hissued', hdone, -⟩ := hprepared.enqueue hissued h'
    obtain ⟨hidle, hpoint⟩ := hdone rfl
    obtain ⟨hclosure₁, hopened₁⟩ := hagreed.open_closure hissued'.opened
    exact ⟨Agreed.of_idle hagreed hidle rfl hidle rfl rfl rfl rfl { hagreed.apart with }
      (.running hissued'.opened hclosure₁ hopened₁),
      .resting rfl hidle (by simp [hissued'.waiting, command])⟩
  | halted eligible s₁ command h' space =>
    obtain ⟨hagreed, hissued', hdone, -⟩ := hprepared.enqueue hissued h'
    obtain ⟨hidle, hpoint⟩ := hdone rfl
    obtain ⟨hclosure₁, hopened₁⟩ := hagreed.open_closure hissued'.opened
    refine ⟨Agreed.of_idle hagreed hidle rfl hidle rfl rfl rfl rfl { hagreed.apart with } ?_,
      .resting rfl hidle (by simp [hissued'.waiting, command])⟩
    exact .announced _ rfl hidle (by rw [hclosure₁]; rfl) rfl rfl hopened₁

/-! ## CPU edges -/

/-- A mailbox after some messages have been added. -/
def Grows {α : Type} (b b' : Mailbox α) : Prop :=
  ∃ more, b' = { b with entries := b.entries ++ more }

theorem Grows.refl {α : Type} (b : Mailbox α) : Grows b b := ⟨[], by simp⟩

theorem Grows.trans {α : Type} {b b' b'' : Mailbox α} (h : Grows b b') (h' : Grows b' b'') :
    Grows b b'' := by
  obtain ⟨more, rfl⟩ := h
  obtain ⟨more', rfl⟩ := h'
  exact ⟨more ++ more', by simp⟩

theorem added_trans {α : Type} {b b' b'' : Mailbox α} (h : Grows b b') (h' : Grows b' b'') :
    added b b'' = added b b' ++ added b' b'' := by
  obtain ⟨more, rfl⟩ := h
  obtain ⟨more', rfl⟩ := h'
  simp [added]

theorem grows_of_enqueues {b : Bool} (h : TimingControl.Enqueues now epoch s b s') :
    Grows s.links.timingEvents s'.links.timingEvents := by
  cases h with
  | waiting => exact .refl _
  | done => exact .refl _
  | submitted => exact ⟨_, rfl⟩

theorem grows_of_execute {validate : EventSpec → Except Fault Unit}
    {validateSync : Option (ℕ → Except Fault Unit)} {result : Option ℕ} {l : List TraceEvent}
    (he : (TimingControl.execute validate validateSync operation now epoch).Returns s result s' l) :
    Grows s.links.timingEvents s'.links.timingEvents := by
  obtain ⟨-, -, hexecutes⟩ := TimingControl.execute_returns he
  cases hexecutes with
  | codeword => exact .refl _
  | synchronized => exact .refl _
  | blocked s₁ flushes h' => exact (grows_of_enqueues h' :)
  | waited s₁ command h' => exact (grows_of_enqueues h' :)
  | advanced cycles s₁ command positive h' => exact (grows_of_enqueues h' :)
  | unread qubit s₁ command h' => exact (grows_of_enqueues h' :)
  | read qubit value s₁ command h' => exact (grows_of_enqueues h' :)
  | halted eligible s₁ command h' => exact (grows_of_enqueues h' :)

/-- There is space for whatever may be submitted. -/
theorem Agreed.spacious (h : Agreed epoch x s m) : TimingControl.Spacious s where
  timingEvents := by
    intro hidle
    simp [Mailbox.full, (h.phase.idle_of hidle).1, h.slots.1]
  closure := by
    intro hopen
    simp [Mailbox.full, (h.open_closure hopen).1, h.slots.2.2]

theorem Agreed.executeAll {validate : EventSpec → Except Fault Unit}
    {validateSync : ℕ → Except Fault Unit} {operations : List ControlOperation}
    {results : List (Option ℕ)} {l : List TraceEvent}
    (h : Agreed epoch x s m) (hsteady : Steady s.control)
    (he : (Core.executeAll validate validateSync now epoch operations).Returns s results s' l) :
    Agreed epoch (x.submit s s') s' m ∧ Steady s'.control ∧
      Grows s.links.timingEvents s'.links.timingEvents := by
  induction operations generalizing x s results l with
  | nil =>
    obtain ⟨-, rfl, -⟩ := Proc.returns_pure_iff.1 he
    exact ⟨h.submit_nothing rfl, hsteady, .refl _⟩
  | cons operation rest ih =>
    obtain ⟨result, s₁, _, _, hexecute, hmore, -⟩ := Proc.returns_bind_iff.1 he
    obtain ⟨results', s₂, _, _, hrest, hpure, -⟩ := Proc.returns_bind_iff.1 hmore
    obtain ⟨-, rfl, -⟩ := Proc.returns_pure_iff.1 hpure
    obtain ⟨hagreed, hsteady₁⟩ := h.execute hsteady hexecute
    have hgrows := grows_of_execute hexecute
    obtain ⟨hagreed', hsteady₂, hgrows'⟩ := ih hagreed hsteady₁ hrest
    refine ⟨?_, hsteady₂, hgrows.trans hgrows'⟩
    have hsubmit : x.submit s s₂ = (x.submit s s₁).submit s₁ s₂ := by
      simp [HandshakeHistory.submit, added_trans hgrows hgrows']
    rw [hsubmit]
    exact hagreed'

theorem Agreed.executeAll_faultsIn {validate : EventSpec → Except Fault Unit}
    {validateSync : ℕ → Except Fault Unit} {operations : List ControlOperation}
    (h : Agreed epoch x s m) (hsteady : Steady s.control)
    (hsync : ∀ t, (validateSync t).FaultsIn (Unrelated validate)) :
    (Core.executeAll validate validateSync now epoch operations).FaultsIn
      (Unrelated validate) s := by
  induction operations generalizing x s with
  | nil => exact .pure _
  | cons operation rest ih =>
    refine .bind (TimingControl.execute_faultsIn hsync h.spacious) fun _ s₁ _ hexecute => ?_
    obtain ⟨hagreed, hsteady₁⟩ := h.execute hsteady hexecute
    exact .bind (ih hagreed hsteady₁) fun _ _ _ _ => .pure _

/-! ## TCU edges -/

/-- Admitting the request on its way and acknowledging it. -/
theorem Agreed.step {m₁ : TcuCycleModel} {results : List Completion} {paused : Bool}
    {out : TcuOutput} {trigger : Option TcuCycleModel.Trigger}
    {admission : Option TcuCycleModel.Admission} {timingEvents : Mailbox TimingEvents}
    {replies : Mailbox EnqueueReply} {candidate : Option TimingEvents} (h : Agreed epoch x s m)
    (hcandidate : candidate = (s.links.timingEvents.peek now).map (·.value))
    (hs : TcuCycleModel.Stepped m now epoch candidate results paused out m₁ trigger admission)
    (hr : Core.Replies now epoch s.links.timingEvents s.links.replies out.admitted timingEvents
      replies) :
    Agreed epoch { x with admitted := x.admitted ++ if out.admitted then candidate.toList else [] }
      { s with links := { s.links with timingEvents, replies } } m₁ := by
  obtain ⟨flags, -, rfl⟩ := hs.state
  cases admission with
  | none =>
    have hrefused : out.admitted = false := by simp [hs.admitted]
    rw [hrefused] at hr ⊢
    cases hr with
    | refused =>
      have hx : { x with admitted := x.admitted ++ if false = true then candidate.toList else [] } =
          x := by simp
      rw [hx]
      refine
        { profile := by simpa using h.profile
          slots := h.slots
          syncCapacity := by simpa using h.syncCapacity
          labels := h.labels
          count := by simpa using h.count
          phase := ?_
          apart := ⟨h.apart.time, by simpa using h.apart.same, by simpa using h.apart.waited,
            by simpa using h.apart.apart⟩
          closing := ?_ }
      · cases h.phase with
        | idle request events replies label admitted =>
          exact .idle request events replies (by simpa using label) admitted
        | sent envelope request events replies submitted proper =>
          exact .sent envelope request events replies submitted
            ⟨by simpa using proper.valid, proper.epoch, by simpa using proper.label,
              by simpa using proper.separated, proper.same, proper.waiting⟩
        | replied r envelope request events replies current answer label admitted waiting =>
          exact .replied r envelope request events replies current answer (by simpa using label)
            admitted (by simpa using waiting)
      · cases h.closing with
        | running control closure opened => exact .running control closure (by simpa using opened)
        | announced envelope control idle closure current label opened =>
          exact .announced envelope control idle closure current label (by simpa using opened)
        | ended control idle closure => exact .ended control idle closure
  | some a =>
    have hadmitted : out.admitted = true := by simp [hs.admitted]
    obtain ⟨hrequest, hadmits⟩ := hs.admits a rfl
    rw [hadmitted] at hr ⊢
    cases hr with
    | accepted request rest eligible readable entries =>
      cases h.phase with
      | idle request' events => simp [events] at entries
      | replied r envelope request' events => simp [events] at entries
      | sent envelope request' events noReplies submitted proper =>
        obtain ⟨rfl, rfl⟩ := List.cons.inj (entries.symm.trans events)
        have ha : a.request = request.value := by
          rw [hcandidate, readable] at hrequest
          exact (Option.some.inj hrequest).symm
        have hx : x.admitted ++ (if true = true then candidate.toList else []) = x.submitted := by
          simp [hrequest, ha, submitted]
        have hpolicy : s.control.allowSameTime = true ∨ s.control.pendingWaitForNext = true →
            TcuCycleModel.policyAfter request.value.point m.admittedPolicy = .pauseWhenEmpty := by
          rintro (hsame | hwaiting)
          · have hstrict := proper.same hsame
            have hbefore := (h.apart.same hsame).2
            unfold TcuCycleModel.policyAfter
            cases hp : request.value.point.underflowPolicy with
            | inherit => simp [hbefore]
            | strict => exact absurd hp hstrict
            | pauseWhenEmpty => simp
          · simp [TcuCycleModel.policyAfter, proper.waiting hwaiting]
        refine
          { profile := by simpa using h.profile
            slots := h.slots
            syncCapacity := by simpa using h.syncCapacity
            labels := h.labels
            count := ?_
            phase := ?_
            apart := ?_
            closing := ?_ }
        · rw [hx, submitted, List.length_append, h.count, List.length_singleton,
            TcuCycleModel.next_lastLabel]
          simp [ha, proper.label]
        · refine .replied request.value _ request' rfl (by rw [noReplies]; rfl) rfl rfl ?_ hx ?_
          · simp [ha]
          · intro hwaiting
            rw [TcuCycleModel.next_admittedPolicy]
            simpa [ha] using hpolicy (.inr hwaiting)
        · refine
            { time := h.apart.time
              same := ?_
              waited := fun hn => by simp [request'] at hn
              apart := fun hn => by simp [request'] at hn }
          intro hsame
          refine ⟨(h.apart.same hsame).1, ?_⟩
          rw [TcuCycleModel.next_admittedPolicy]
          simpa [ha] using hpolicy (.inl hsame)
        · cases h.closing with
          | running control closure opened =>
            exact .running control closure (by simpa using opened)
          | announced envelope control idle => simp [request'] at idle
          | ended control idle => simp [request'] at idle

theorem Agreed.finish {m' : TcuCycleModel} {closure : Mailbox EndOfStream}
    (h : Agreed epoch x s m) (hf : Core.Finishes epoch s.links.closure m closure m') :
    Agreed epoch x { s with links := { s.links with closure } } m' := by
  cases hf with
  | goesOn => exact h
  | ends terminal rest entries current opened label =>
    have hphase : Phase epoch x
        { s with links :=
            { s.links with closure := { s.links.closure with entries := rest } } }
        { m with closed := true } := by
      cases h.phase with
      | idle request events replies label admitted =>
        exact .idle request events replies label admitted
      | sent envelope request events replies submitted proper =>
        exact .sent envelope request events replies submitted { proper with }
      | replied r envelope request events replies current answer label admitted waiting =>
        exact .replied r envelope request events replies current answer label admitted waiting
    refine { h with phase := hphase, apart := { h.apart with }, closing := ?_ }
    cases h.closing with
    | running control closure => simp [closure] at entries
    | ended control idle closure => simp [closure] at entries
    | announced envelope control idle closure =>
      obtain ⟨-, rfl⟩ := List.cons.inj (entries.symm.trans closure)
      exact .ended control idle rfl

theorem Agreed.tcuEdge {c c' : Core} {n n' : SyncNetwork} {out : TcuOutput}
    {preflight : TriggeredEvents → Except Fault Unit} (h : Agreed epoch x c.cpuSide c.tcu)
    (he : Core.TcuEdge preflight now epoch c n out c' n') :
    Agreed epoch
      { x with admitted := x.admitted ++ if out.admitted then (c.candidate now).toList else [] }
      c'.cpuSide c'.tcu := by
  cases he with
  | intro synced stepped replied booked finished =>
    obtain ⟨trigger, admission, hs⟩ := TcuCycleModel.stepped_of_returns stepped
    have hstep := Agreed.step h rfl hs replied
    exact (hstep.finish finished).of_same rfl rfl rfl rfl

/-! ## The start of a session -/

theorem mailbox_make {α : Type} {capacity latency : ℕ} {receiver : Clock} {b : Mailbox α}
    (h : Mailbox.make capacity receiver latency = .ok b) :
    b.capacity = capacity ∧ b.entries = [] := by
  simp only [Mailbox.make, Except.bind_eq_ok_iff, Except.pure_eq_ok_iff] at h
  obtain ⟨_, -, _, -, _, -, rfl⟩ := h
  exact ⟨rfl, rfl⟩

/-- Both sides have just been started. -/
theorem Agreed.start (hprofile : s.control.profile = m.profile.timing)
    (hcontrol : s.control = { profile := s.control.profile })
    (hslots : s.links.timingEvents.capacity = 1 ∧ s.links.replies.capacity = 1 ∧
      s.links.closure.capacity = 1)
    (hevents : s.links.timingEvents.entries = []) (hreplies : s.links.replies.entries = [])
    (hclosure : s.links.closure.entries = []) (hcapacity : 0 < m.syncCapacity)
    (hlabel : m.lastLabel = 0) (hopen : m.closed = false) :
    Agreed epoch {} s m ∧ Steady s.control := by
  have hidle : s.control.enqueueRequest = none := by rw [hcontrol]
  refine ⟨?_, .resting (by rw [hcontrol]) hidle (by rw [hcontrol])⟩
  refine
    { profile := hprofile
      slots := hslots
      syncCapacity := hcapacity
      labels := rfl
      count := hlabel.symm
      phase := .idle hidle hevents hreplies (by rw [hcontrol, hlabel]) rfl
      apart := ?_
      closing := .running (by rw [hcontrol]) hclosure hopen }
  exact
    { time := by rw [hcontrol]
      same := fun hs => by rw [hcontrol] at hs; simp at hs
      waited := fun _ hw => by rw [hcontrol] at hw; simp at hw
      apart := fun _ _ _ => .inl hlabel }

theorem Agreed.make {fingerprint : String} {id syncCapacity : ℕ} {profile : Profile} {c : Core}
    (h : Core.make fingerprint id profile syncCapacity = .ok c) :
    Agreed epoch {} c.cpuSide c.tcu ∧ Steady c.timingControl := by
  simp only [Core.make, TcuCycleModel.make, tcuConfig, ControlLinks.make, Except.bind_eq_ok_iff,
    require_eq_ok_iff, exists_const, Except.pure_eq_ok_iff] at h
  obtain ⟨timing, htiming, links, ⟨events, hevents, replies, hreplies, closure, hclosure,
    _, -, _, -, _, -, rfl⟩, config, ⟨timing', htiming', rfl⟩, tcu, ⟨hcapacity, rfl⟩, _, -, rfl⟩ := h
  obtain rfl : timing = timing' := Except.ok.inj (htiming.symm.trans htiming')
  obtain ⟨hevents₁, hevents₂⟩ := mailbox_make hevents
  obtain ⟨hreplies₁, hreplies₂⟩ := mailbox_make hreplies
  obtain ⟨hclosure₁, hclosure₂⟩ := mailbox_make hclosure
  exact Agreed.start rfl rfl ⟨hevents₁, hreplies₁, hclosure₁⟩ hevents₂ hreplies₂ hclosure₂
    hcapacity rfl rfl

theorem Agreed.reset {c c' : Core} {epoch' : ℕ} {u : Unit} {l : List TraceEvent}
    (h : Agreed epoch x c.cpuSide c.tcu) (hr : (Core.reset now).Returns c u c' l) :
    Agreed epoch' {} c'.cpuSide c'.tcu ∧ Steady c'.timingControl := by
  simp only [Core.reset, Proc.returns_modify_bind_iff] at hr
  obtain ⟨_, c₁, _, _, hzoom, hlast, -⟩ := Proc.returns_bind_iff.1 hr
  obtain ⟨tcu, htcu, rfl⟩ := Proc.returns_zoom_iff.1 hzoom
  obtain ⟨rfl, -⟩ := Proc.returns_modify_iff.1 hlast
  obtain ⟨start, -, rfl⟩ := TcuCycleModel.reset_returns htcu
  exact Agreed.start h.profile rfl h.slots rfl rfl rfl h.syncCapacity rfl rfl

theorem CoreRun.agreed {validate : EventSpec → Except Fault Unit} {c : Core}
    (run : CoreRun validate epoch x c) : Agreed epoch x c.cpuSide c.tcu ∧ Steady c.timingControl := by
  induction run with
  | make epoch h => exact Agreed.make h
  | reset epoch' run h ih => exact ih.1.reset h
  | @cpuEdge epoch now x c c' n n' operations results l run h ih =>
    obtain ⟨s₁, s₂, _, _, hreceive, hexecute, rfl, rfl, -⟩ := Core.cpuEdge_returns h
    obtain ⟨hagreed, hsteady⟩ := ih.1.receive ih.2 hreceive
    obtain ⟨hagreed', hsteady', -⟩ := hagreed.executeAll hsteady hexecute
    have hsame : s₁.links.timingEvents = c.links.timingEvents :=
      TimingControl.receive_timingEvents hreceive
    refine ⟨?_, hsteady'⟩
    unfold HandshakeHistory.submit at hagreed'
    rw [hsame] at hagreed'
    exact hagreed'
  | tcuEdge run h ih =>
    have hedge := Core.tcuEdge_returns h
    refine ⟨ih.1.tcuEdge hedge, ?_⟩
    cases hedge
    exact ih.2
  | deliver run h ih =>
    obtain ⟨cpuResults, fastResults, rfl⟩ := Core.deliver_returns h
    exact ⟨ih.1.of_same rfl rfl rfl rfl, ih.2⟩

end Agreed

/-! ## What both sides can rely on -/

/-- The state of the exchange between the two sides of a core. -/
structure Handshake (validate : EventSpec → Except Fault Unit) (epoch : ℕ) (x : HandshakeHistory)
    (c : Core) : Prop where
  /-- The mailboxes with one slot hold at most one message. -/
  slots : c.links.timingEvents.entries.length ≤ 1 ∧ c.links.replies.entries.length ≤ 1 ∧
    c.links.closure.entries.length ≤ 1
  /-- No CPU edge finds a mailbox full, a request on its way or an unexpected acknowledgment. -/
  cpuEdge : ∀ n operations now,
    (Core.cpuEdge validate operations now epoch).FaultsIn (Unrelated validate) (c, n)
  /-- An admitted request is acknowledged without finding the mailbox full. -/
  reply : ∀ now fastResults, (Core.reply now epoch).FaultsIn (· ∉ exchangeFaults)
    { c.links with fastResults }
  labels : x.submitted.map (·.point.label) = List.range' 1 x.submitted.length
  /-- Requests are admitted at most once, in order and as they were submitted. -/
  admitted : x.admitted <+: x.submitted
  agreed : c.timingControl.enqueueRequest = none →
    c.timingControl.lastLabel = c.tcu.lastLabel ∧ x.admitted = x.submitted
  /-- The unit refuses a request for its time only. -/
  admission : ∀ now request pause f, c.candidate now = some request →
    c.tcu.prepareAdmission now epoch request pause = .error f →
      f.code = .lateAdmission ∨ f.code = .timeOverflow
  /-- The end of the stream comes after the last request and is accepted. -/
  closure : ∀ terminal ∈ c.links.closure.entries, terminal.epoch = epoch ∧
    c.tcu.closed = false ∧ terminal.value.lastLabel = c.tcu.lastLabel ∧
      c.links.timingEvents.entries = []

section Handshake
variable {validate : EventSpec → Except Fault Unit} {epoch : ℕ} {x : HandshakeHistory} {c : Core}

theorem Core.faultsIn_validateSync {u : SyncUnit} {n : SyncNetwork} {target : ℕ} :
    (u.validate n target).FaultsIn (Unrelated validate) := by
  refine .bind ?_ fun _ _ => .pure _
  intro f hf
  unfold SyncNetwork.delay at hf
  split at hf
  · exact absurd hf Except.pure_ne_error
  · rw [← Except.error.inj hf]
    exact unrelated_of_code (by simp) (by simp)

theorem Agreed.candidate_proper {now : ℕ} {request : TimingEvents}
    (h : Agreed epoch x c.cpuSide c.tcu) (hc : c.candidate now = some request) :
    Proper epoch c.timingControl c.tcu request ∧ c.links.replies.entries = [] ∧
      c.tcu.closed = false := by
  obtain ⟨envelope, hpeek, rfl⟩ := Option.map_eq_some_iff.1 hc
  obtain ⟨rest, hentries, -⟩ := Mailbox.peek_eq_some hpeek
  cases h.phase with
  | idle request events => exact absurd (hentries.symm.trans events) (by simp)
  | replied r envelope' request events => exact absurd (hentries.symm.trans events) (by simp)
  | sent envelope' request events replies submitted proper =>
    obtain ⟨rfl, -⟩ := List.cons.inj (hentries.symm.trans events)
    refine ⟨proper, replies, ?_⟩
    cases h.closing with
    | running control closure opened => exact opened
    | announced envelope' control idle => simp [idle] at request
    | ended control idle => simp [idle] at request

/-- A proper request is admitted, has to wait for space, or is refused for its time. -/
theorem Proper.refuses {control : TimingControl} {m : TcuCycleModel} {request : TimingEvents}
    {now : ℕ} {pause : TcuCycleModel.PauseState} {f : Fault} (h : Proper epoch control m request)
    (hopen : m.closed = false) (hcapacity : 0 < m.syncCapacity)
    (hr : TcuCycleModel.Refuses m now epoch request pause f) :
    f.code = .lateAdmission ∨ f.code = .timeOverflow := by
  cases hr with
  | closed hclosed => simp [hopen] at hclosed
  | invalid hinvalid => simp [h.valid] at hinvalid
  | identity hidentity => exact absurd hidentity (by simp [h.epoch, h.label])
  | duplicate label interval admitted policy =>
    rcases h.separated with hs | hs | hs | hs
    · exact absurd hs label
    · omega
    · exact absurd hs admitted
    · exact absurd hs policy
  | overflow hoverflow => rcases hoverflow with rfl | rfl <;> exact .inr rfl
  | late => exact .inl rfl
  | synchronizations hmany =>
    have hone := (wellFormed_of_validate h.valid).synchronizations
    omega

/-- The handshake of a core keeps both sides in step in every run: whatever the clocks, the
latencies, the operations and the order of the edges, no message is lost, doubled or refused
for anything but its time. -/
theorem handshake (run : CoreRun validate epoch x c) : Handshake validate epoch x c := by
  obtain ⟨hagreed, hsteady⟩ := run.agreed
  refine
    { slots := ?_
      cpuEdge := ?_
      reply := ?_
      labels := hagreed.labels
      admitted := ?_
      agreed := ?_
      admission := ?_
      closure := ?_ }
  · refine ⟨?_, ?_, ?_⟩
    · change c.cpuSide.links.timingEvents.entries.length ≤ 1
      cases hagreed.phase <;> simp [*]
    · change c.cpuSide.links.replies.entries.length ≤ 1
      cases hagreed.phase <;> simp [*]
    · change c.cpuSide.links.closure.entries.length ≤ 1
      cases hagreed.closing <;> simp [*]
  · intro n operations now
    refine Core.cpuEdge_faultsIn ?_ ?_
    · exact TimingControl.receive_faultsIn fun reply hreply _ => (hagreed.answers reply hreply).2
    · intro s₁ l₁ hreceive
      obtain ⟨hagreed₁, hsteady₁⟩ := hagreed.receive hsteady hreceive
      exact hagreed₁.executeAll_faultsIn hsteady₁ fun _ => Core.faultsIn_validateSync
  · intro now fastResults
    refine .get_bind ?_
    cases hpeek : c.links.timingEvents.peek now with
    | none => exact .pure _
    | some accepted =>
      have hcandidate : c.candidate now = some accepted.value := by simp [Core.candidate, hpeek]
      have hreplies := (hagreed.candidate_proper hcandidate).2.1
      have hspace : c.links.replies.full = false := by
        have hcapacity : c.links.replies.capacity = 1 := hagreed.slots.2.1
        simp [Mailbox.full, hreplies, hcapacity]
      refine .set_bind <| .lift_bind ?_ fun _ _ => .modify _
      intro f hf hmem
      obtain ⟨a, ha⟩ := (faultsIn_publish hspace : Except.FaultsIn
        (Unrelated fun _ => .ok ()) _) f hf hmem
      simp at ha
  · cases hagreed.phase with
    | idle request events replies label admitted => exact admitted ▸ List.prefix_refl _
    | sent envelope request events replies submitted => exact ⟨_, submitted.symm⟩
    | replied r envelope request events replies current answer label admitted =>
      exact admitted ▸ List.prefix_refl _
  · intro hidle
    obtain ⟨-, -, hlabel, hadmitted⟩ := hagreed.phase.idle_of hidle
    exact ⟨hlabel, hadmitted⟩
  · intro now request pause f hcandidate herror
    obtain ⟨hproper, -, hopen⟩ := hagreed.candidate_proper hcandidate
    exact hproper.refuses hopen hagreed.syncCapacity
      (TcuCycleModel.prepareAdmission_eq_error herror)
  · intro terminal hterminal
    have hmem : terminal ∈ c.cpuSide.links.closure.entries := hterminal
    cases hagreed.closing with
    | running control closure => simp [closure] at hmem
    | ended control idle closure => simp [closure] at hmem
    | announced envelope control idle closure current label opened =>
      obtain rfl : terminal = envelope := by simpa [closure] using hmem
      obtain ⟨hevents, -, hlabel, -⟩ := hagreed.phase.idle_of idle
      exact ⟨current, opened, label.trans hlabel, hevents⟩

end Handshake

/-! ## A core with one gate -/

/-- An edge of one of the two clocks. -/
inductive CoreInput
  | cpuEdge (operations : List ControlOperation) (now : ℕ)
  | tcuEdge (now : ℕ)

/-- Evaluate the edges of a core without neighbours, with every action and batch accepted. -/
def driveCore (epoch : ℕ) (x : HandshakeHistory) (c : Core) :
    List CoreInput → Except Fault (HandshakeHistory × Core)
  | [] => pure (x, c)
  | .cpuEdge operations now :: rest => do
      let outcome := Core.cpuEdge (fun _ => pure ()) operations now epoch (c, { clock := c.profile.tcu })
      let _ ← outcome.result
      let c' := outcome.state.1
      driveCore epoch
        { x with submitted := x.submitted ++ added c.links.timingEvents c'.links.timingEvents } c' rest
  | .tcuEdge now :: rest => do
      let outcome := Core.tcuEdge (fun _ => pure ()) now epoch (c, { clock := c.profile.tcu })
      let out ← outcome.result
      driveCore epoch
        { x with
          admitted := x.admitted ++ if out.admitted then (c.candidate now).toList else [] }
        outcome.state.1 rest

theorem run_of_driveCore {epoch : ℕ} {x : HandshakeHistory} {c : Core} {inputs : List CoreInput}
    {last : HandshakeHistory × Core} (run : CoreRun (fun _ => pure ()) epoch x c)
    (h : driveCore epoch x c inputs = .ok last) :
    CoreRun (fun _ => pure ()) epoch last.1 last.2 := by
  induction inputs generalizing x c with
  | nil =>
    rw [← Except.pure_eq_ok_iff.1 h]
    exact run
  | cons input rest ih =>
    cases input with
    | cpuEdge operations now =>
      simp only [driveCore, Except.bind_eq_ok_iff] at h
      rcases hr : Core.cpuEdge (fun _ => pure ()) operations now epoch
        (c, { clock := c.profile.tcu }) with ⟨result, ⟨c', n'⟩, l⟩
      obtain ⟨results, hresult, hrest⟩ := h
      rw [hr] at hresult hrest
      obtain rfl : result = .ok results := hresult
      exact ih (run.cpuEdge hr) hrest
    | tcuEdge now =>
      simp only [driveCore, Except.bind_eq_ok_iff] at h
      rcases hr : Core.tcuEdge (fun _ => pure ()) now epoch
        (c, { clock := c.profile.tcu }) with ⟨result, ⟨c', n'⟩, l⟩
      obtain ⟨out, hresult, hrest⟩ := h
      rw [hr] at hresult hrest
      obtain rfl : result = .ok out := hresult
      exact ih (run.tcuEdge hr) hrest

theorem isSome_oneGateCore : (Core.make "" 0 oneGate).toOption.isSome = true := by decide +kernel

def oneGateCore : Core := (Core.make "" 0 oneGate).toOption.get isSome_oneGateCore

/-- A codeword, a wait and the end, with the edges of both clocks on which something happens. -/
def oneGateEdges : List CoreInput :=
  [.cpuEdge [{ command := .codeword 0 1 }] 0, .cpuEdge [{ command := .wait 3 }] 5, .tcuEdge 20,
    .cpuEdge [{ command := .wait 3 }] 25, .cpuEdge [{ command := .halt }] 30, .tcuEdge 40,
    .cpuEdge [{ command := .halt }] 45, .tcuEdge 60]

theorem isSome_oneGateEnd : (driveCore 1 {} oneGateCore oneGateEdges).toOption.isSome = true := by
  decide +kernel

def oneGateEnd : HandshakeHistory × Core :=
  (driveCore 1 {} oneGateCore oneGateEdges).toOption.get isSome_oneGateEnd

theorem handshake_oneGate : oneGateEnd.1.submitted.length = 2 ∧
    oneGateEnd.1.admitted = oneGateEnd.1.submitted ∧ oneGateEnd.2.tcu.closed = true ∧
      Handshake (fun _ => pure ()) 1 oneGateEnd.1 oneGateEnd.2 := by
  refine ⟨by decide +kernel, by decide +kernel, by decide +kernel, handshake ?_⟩
  exact run_of_driveCore (.make 1 (Except.eq_ok_get isSome_oneGateCore))
    (Except.eq_ok_get isSome_oneGateEnd)

end Qsbit

import Qsbit.Tcu.Queue
import Qsbit.TraceModel.Records

/-!
# How the player follows a core

The player learns of the queue of a unit from the records of two components. What is staged
is known from the timing control, and so is what a submitted point consists of; that a point
has been admitted or triggered is known from the unit. The two parts of the invariant are
kept apart in the same way.

## Main definitions

* `Decodes` — events are those that codewords stand for.
* `Shows` — an entry of the player's queue shows a request.
* `Stages`, `Queues` — the invariant on either side.
* `Follows` — both sides of a core, in a session.
-/
namespace Qsbit
namespace TraceModel
open Buffers (ofRecords)

/-- The events are those that the codewords stand for, in order. -/
def Decodes (config : TimingConfig) (codewords : List TraceEvent) (events : List OperationEvent) :
    Prop :=
  events.map (fun e => (e.instruction, e.sourcePort, e.codeword, e.action)) =
    codewords.flatMap fun r =>
      (config.actions r.port r.codeword).map fun action => (r.id, r.port, r.codeword, action)

/-- The entry shows the request, with the codewords of the point in the records. -/
structure Shows (config : TimingConfig) (rs : List TraceEvent) (item : QueueItem)
    (r : TimingEvents) : Prop where
  label : item.label = r.point.label
  codewords : item.codewords = pointCodewords rs r.point.label
  decodes : Decodes config item.codewords r.events
  submitted : Submitted rs r.point.label

/-- The player's staging area and its submitted points agree with the timing control. -/
structure Stages (rs : List TraceEvent) (c : TimingControl) (requests : Mailbox TimingEvents) :
    Prop where
  staged : (ofRecords rs).staged = openCodewords rs
  decodes : c.enqueueRequest = none → Decodes c.profile (openCodewords rs) c.pendingEvents
  outstanding : c.enqueueRequest ≠ none → openCodewords rs = []
  next : ∀ r ∈ c.enqueueRequest, r.point.label = c.lastLabel + 1
  /-- Only the points up to the outstanding one have been submitted. -/
  fresh : ∀ label, Submitted rs label →
    label ≤ c.lastLabel ∨ ∃ r ∈ c.enqueueRequest, label = r.point.label
  submitted : ∀ envelope ∈ requests.entries, ∃ item,
    (ofRecords rs).submitted[envelope.value.point.label]? = some item ∧
      Shows c.profile rs item envelope.value

/-- The player's queue shows the requests that the unit holds. -/
structure Queues (config : TimingConfig) (rs : List TraceEvent)
    (q : List TcuCycleModel.Admission) : Prop where
  items : List.Forall₂ (fun item a => Shows config rs item a.request) (ofRecords rs).queue q
  occupancy : ∀ e ∈ (ofRecords rs).occupancy, e.value = q.length

section Records
variable {config : TimingConfig} {rs more : List TraceEvent} {e : TraceEvent}

theorem Buffers.ofRecords_concat : ofRecords (rs ++ [e]) = (ofRecords rs).reduce e := by
  simp [ofRecords]

theorem submitted_concat {label : ℕ} (he : e.kind ≠ .timingPointSubmitted) :
    Submitted (rs ++ [e]) label ↔ Submitted rs label := by
  have hs : submitsPoint label e = false := by simp [submitsPoint, submits, he]
  simp [Submitted, or_and_right, exists_or, hs]

theorem Shows.append {item : QueueItem} {r : TimingEvents} (h : Shows config rs item r) :
    Shows config (rs ++ more) item r :=
  { h with
    codewords := h.codewords.trans (pointCodewords_append h.submitted).symm
    submitted := h.submitted.append }

theorem Decodes.append {codewords codewords' : List TraceEvent} {events events' : List OperationEvent}
    (h : Decodes config codewords events) (h' : Decodes config codewords' events') :
    Decodes config (codewords ++ codewords') (events ++ events') := by
  rw [Decodes, List.map_append, List.flatMap_append, h, h']

/-! ## The queue -/

variable {q : List TcuCycleModel.Admission} {a : TcuCycleModel.Admission}

theorem Queues.nil : Queues config [] [] := ⟨.nil, by simp [ofRecords]⟩

theorem labels_of_shows {items : List QueueItem}
    (h : List.Forall₂ (fun item a => Shows config rs item a.request) items q) :
    items.map (·.label) = q.map (·.request.point.label) := by
  induction h with
  | nil => rfl
  | cons hshows _ ih => rw [List.map_cons, List.map_cons, hshows.label, ih]

/-- A record of the other side leaves the queue alone. -/
theorem Queues.other (h : Queues config rs q)
    (he : e.kind = .codewordQueued ∨ e.kind = .timingPointSubmitted) :
    Queues config (rs ++ [e]) q := by
  have hsame : (ofRecords (rs ++ [e])).queue = (ofRecords rs).queue ∧
      (ofRecords (rs ++ [e])).occupancy = (ofRecords rs).occupancy := by
    rw [Buffers.ofRecords_concat]
    rcases he with he | he <;> simp [Buffers.reduce, he]
  refine ⟨?_, by rw [hsame.2]; exact h.occupancy⟩
  rw [hsame.1]
  exact h.items.imp fun _ _ => Shows.append

theorem Queues.others (h : Queues config rs q)
    (hmore : ∀ e ∈ more, e.kind = .codewordQueued ∨ e.kind = .timingPointSubmitted) :
    Queues config (rs ++ more) q := by
  induction more generalizing rs with
  | nil => simpa using h
  | cons e more ih =>
    obtain ⟨he, hrest⟩ := List.forall_mem_cons.1 hmore
    rw [List.append_cons]
    exact ih (h.other he) hrest

/-- The triggered point is the head of the queue, and no other entry has its label. -/
theorem Queues.trigger (h : Queues config rs (a :: q))
    (hlabels : ∀ b ∈ q, b.request.point.label ≠ a.request.point.label)
    (he : e.kind = .timingPointTriggered) (hlabel : e.label = a.request.point.label) :
    Queues config (rs ++ [e]) q := by
  obtain ⟨item, items, hitem, hitems, hqueue⟩ := List.forall₂_cons_right_iff.1 h.items
  have hkeep : (item :: items).filter (·.label ≠ e.label) = items := by
    rw [List.filter_cons_of_neg (by simp [hitem.label, hlabel]), List.filter_eq_self]
    intro i hi
    have hmem : i.label ∈ q.map (·.request.point.label) :=
      labels_of_shows hitems ▸ List.mem_map_of_mem hi
    obtain ⟨b, hb, heq⟩ := List.mem_map.1 hmem
    have hne := hlabels b hb
    rw [← hlabel, heq] at hne
    simpa using hne
  have hreduce : (ofRecords (rs ++ [e])).queue = items ∧ (ofRecords (rs ++ [e])).occupancy =
      (ofRecords rs).occupancy.map fun previous => { e with value := previous.value - 1 } := by
    rw [Buffers.ofRecords_concat]
    simp only [Buffers.reduce, he, hqueue, hkeep, and_self]
  refine ⟨?_, ?_⟩
  · rw [hreduce.1]
    exact hitems.imp fun _ _ => Shows.append
  · rw [hreduce.2]
    intro e' he'
    obtain ⟨previous, hprevious, rfl⟩ := Option.map_eq_some_iff.1 he'
    simp [h.occupancy previous hprevious]

/-- The admitted point is known from its submission. -/
theorem Queues.admitted {item : QueueItem} (h : Queues config rs q) (he : e.kind = .timingPointEnqueued)
    (hlabel : e.label = a.request.point.label) (hvalue : e.value = q.length + 1)
    (hitem : (ofRecords rs).submitted[a.request.point.label]? = some item)
    (hshows : Shows config rs item a.request) : Queues config (rs ++ [e]) (q ++ [a]) := by
  have hreduce : (ofRecords (rs ++ [e])).queue = (ofRecords rs).queue ++ [item] ∧
      (ofRecords (rs ++ [e])).occupancy = some e := by
    rw [Buffers.ofRecords_concat]
    simp [Buffers.reduce, he, hlabel, hitem]
  refine ⟨?_, ?_⟩
  · rw [hreduce.1]
    exact List.rel_append (h.items.imp fun _ _ => Shows.append) (.cons hshows.append .nil)
  · rw [hreduce.2]
    intro e' he'
    rw [← Option.some.inj he', hvalue, List.length_append, List.length_singleton]

/-! ## The staging area -/

variable {c c' : TimingControl} {requests : Mailbox TimingEvents}

theorem Stages.start (hrequest : c.enqueueRequest = none) (hevents : c.pendingEvents = [])
    (hrequests : requests.entries = []) : Stages [] c requests where
  staged := rfl
  decodes := fun _ => by rw [hevents]; rfl
  outstanding := fun h => absurd hrequest h
  next := by simp [hrequest]
  fresh := by simp [Submitted]
  submitted := by simp [hrequests]

/-- The invariant depends on these fields only. -/
theorem Stages.congr (h : Stages rs c requests) (hprofile : c'.profile = c.profile)
    (hrequest : c'.enqueueRequest = c.enqueueRequest) (hevents : c'.pendingEvents = c.pendingEvents)
    (hlabel : c'.lastLabel = c.lastLabel) : Stages rs c' requests where
  staged := h.staged
  decodes := by rw [hprofile, hrequest, hevents]; exact h.decodes
  outstanding := by rw [hrequest]; exact h.outstanding
  next := by rw [hrequest, hlabel]; exact h.next
  fresh := by rw [hrequest, hlabel]; exact h.fresh
  submitted := by rw [hprofile]; exact h.submitted

/-- Nothing is known of a request that has been taken. -/
theorem Stages.taken {requests' : Mailbox TimingEvents} (h : Stages rs c requests)
    (hgone : requests'.entries = []) : Stages rs c requests' :=
  { h with submitted := by simp [hgone] }

/-- A record of the unit moves nothing that is staged; the request it has taken is gone. -/
theorem Stages.other (h : Stages rs c requests)
    (he : e.kind = .timingPointTriggered ∨ e.kind = .timingPointEnqueued)
    (hgone : e.kind = .timingPointEnqueued → requests.entries = []) :
    Stages (rs ++ [e]) c requests := by
  have hs : e.kind ≠ .timingPointSubmitted := by rcases he with he | he <;> simp [he]
  have hc : e.kind ≠ .codewordQueued := by rcases he with he | he <;> simp [he]
  have hopen : openCodewords (rs ++ [e]) = openCodewords rs := openCodewords_other hs hc
  have hstaged : (ofRecords (rs ++ [e])).staged = (ofRecords rs).staged := by
    rw [Buffers.ofRecords_concat]
    rcases he with he | he <;> simp [Buffers.reduce, he]
  refine
    { staged := by rw [hstaged, hopen]; exact h.staged
      decodes := by rw [hopen]; exact h.decodes
      outstanding := by rw [hopen]; exact h.outstanding
      next := h.next
      fresh := fun label hl => h.fresh label ((submitted_concat hs).1 hl)
      submitted := ?_ }
  rcases he with he | he
  · intro envelope hmem
    obtain ⟨item, hitem, hshows⟩ := h.submitted envelope hmem
    refine ⟨item, ?_, hshows.append⟩
    rw [Buffers.ofRecords_concat]
    simpa [Buffers.reduce, he] using hitem
  · simp [hgone he]

/-- A codeword is staged together with its events. -/
theorem Stages.queue {events : List OperationEvent} (h : Stages rs c requests)
    (hidle : c.enqueueRequest = none) (he : e.kind = .codewordQueued)
    (hevents : Decodes c.profile [e] events) (hprofile : c'.profile = c.profile)
    (hrequest : c'.enqueueRequest = none) (hpending : c'.pendingEvents = c.pendingEvents ++ events)
    (hlabel : c'.lastLabel = c.lastLabel) (hrequests : requests.entries = []) :
    Stages (rs ++ [e]) c' requests where
  staged := by
    rw [Buffers.ofRecords_concat, openCodewords_queued he, ← h.staged]
    simp [Buffers.reduce, he]
  decodes := fun _ => by
    rw [openCodewords_queued he, hprofile, hpending]
    exact (h.decodes hidle).append hevents
  outstanding := fun hne => absurd hrequest hne
  next := by simp [hrequest]
  fresh := fun label hl => by
    have hold := h.fresh label ((submitted_concat (by simp [he])).1 hl)
    rw [hlabel, hrequest]
    rwa [hidle] at hold
  submitted := by simp [hrequests]

/-- A point is submitted with the codewords that have been staged. -/
theorem Stages.submit {request : TimingEvents} {envelope : Mailbox.Envelope TimingEvents}
    (h : Stages rs c requests) (hidle : c.enqueueRequest = none)
    (he : e.kind = .timingPointSubmitted) (hlabel : e.label = request.point.label)
    (hnext : request.point.label = c.lastLabel + 1)
    (hdecodes : Decodes c.profile (openCodewords rs) request.events)
    (hvalue : envelope.value = request) (hprofile : c'.profile = c.profile)
    (hrequest : c'.enqueueRequest = some request) (hlast : c'.lastLabel = c.lastLabel) :
    Stages (rs ++ [e]) c' { requests with entries := [envelope] } := by
  have hnew : ¬ Submitted rs e.label := by
    intro hs
    rcases h.fresh _ hs with hle | ⟨r, hr, -⟩
    · rw [hlabel, hnext] at hle
      omega
    · simp [hidle] at hr
  have hsubmits : submitsPoint e.label e = true := by simp [submitsPoint, submits, he]
  refine
    { staged := ?_
      decodes := fun hn => by simp [hrequest] at hn
      outstanding := fun _ => openCodewords_submitted he
      next := ?_
      fresh := ?_
      submitted := ?_ }
  · rw [openCodewords_submitted he, Buffers.ofRecords_concat]
    simp [Buffers.reduce, he]
  · intro r hr
    rw [hrequest] at hr
    rw [← Option.some.inj hr, hlast, hnext]
  · rintro label ⟨x, hx, hs⟩
    rcases List.mem_append.1 hx with hx | hx
    · rcases h.fresh label ⟨x, hx, hs⟩ with hle | ⟨r, hr, -⟩
      · exact .inl (hlast ▸ hle)
      · simp [hidle] at hr
    · rw [List.mem_singleton.1 hx] at hs
      have hsame : e.label = label := by simpa [submitsPoint, submits, he] using hs
      exact .inr ⟨request, hrequest, by rw [← hsame, hlabel]⟩
  · intro envelope' hmem
    obtain rfl := List.mem_singleton.1 hmem
    rw [hvalue, ← hlabel]
    refine ⟨{ label := e.label, point := some e.cycle, codewords := (ofRecords rs).staged
              tick := e.tick }, ?_, ?_⟩
    · rw [Buffers.ofRecords_concat]
      simp [Buffers.reduce, he]
    · refine
        { label := hlabel
          codewords := ?_
          decodes := ?_
          submitted := ?_ }
      · rw [← hlabel, pointCodewords_submitted hnew he, h.staged]
      · rw [hprofile, h.staged]
        exact hdecodes
      · rw [← hlabel]
        exact ⟨e, by simp, hsubmits⟩

/-- The acknowledgment of a point makes way for the next one. -/
theorem Stages.acknowledge {request : TimingEvents} (h : Stages rs c requests)
    (hrequest : c.enqueueRequest = some request) (hprofile : c'.profile = c.profile)
    (hidle : c'.enqueueRequest = none) (hevents : c'.pendingEvents = [])
    (hlabel : c'.lastLabel = request.point.label) : Stages rs c' requests where
  staged := h.staged
  decodes := fun _ => by
    rw [h.outstanding (by simp [hrequest]), hevents]
    rfl
  outstanding := fun hne => absurd hidle hne
  next := by simp [hidle]
  fresh := fun label hl => by
    left
    rcases h.fresh label hl with hle | ⟨r, hr, heq⟩
    · have hnext := h.next request hrequest
      omega
    · rw [hrequest] at hr
      rw [heq, ← Option.some.inj hr, hlabel]
  submitted := by rw [hprofile]; exact h.submitted

end Records

/-! ## Operations -/

/-- The record as it is told apart from those of other cores. -/
def retag (core : Option ℕ) (e : TraceEvent) : TraceEvent := { e with core }

section Control
variable {rs : List TraceEvent} {s s' : ControlState} {now epoch : ℕ} {l : List TraceEvent}
  {core : Option ℕ}

theorem decodes_of_decodeCodeword {config : TimingConfig} {port word instruction first : ℕ}
    {references : List MeasurementReference} {events : List OperationEvent} {r : TraceEvent}
    (hid : r.id = instruction) (hport : r.port = port) (hword : r.codeword = word)
    (h : decodeCodeword config port word epoch instruction first references = .ok events) :
    Decodes config [r] events := by
  simp only [decodeCodeword, Except.bind_eq_ok_iff, require_eq_ok_iff, exists_const] at h
  obtain ⟨map, hmap, -, _, -, h⟩ := h
  have hactions : config.actions port word = map.actions := by simp [TimingConfig.actions, hmap]
  rw [Decodes, TimingControl.decodeActions_eq_ok h, List.flatMap_singleton, hport, hword, hactions,
    hid]
  exact List.ext_getElem (by simp) (by simp)

theorem Decodes.relabel {config : TimingConfig} {codewords : List TraceEvent}
    {events : List OperationEvent} (h : Decodes config codewords events) (label : ℕ) :
    Decodes config codewords (events.map fun e => { e with label }) := by
  rw [Decodes, List.map_map]
  exact h

theorem prepared_fields (c : TimingControl) (operation : ControlOperation) :
    (c.prepared operation).profile = c.profile ∧
      (c.prepared operation).enqueueRequest = c.enqueueRequest ∧
      (c.prepared operation).pendingEvents = c.pendingEvents ∧
      (c.prepared operation).lastLabel = c.lastLabel := by
  unfold TimingControl.prepared TimingControl.waitForNext
  split
  · split <;> exact ⟨rfl, rfl, rfl, rfl⟩
  · exact ⟨rfl, rfl, rfl, rfl⟩

/-- A call that submits nothing. -/
theorem Stages.unsubmitted (h : Stages rs s'.control s'.links.timingEvents)
    (hsame : s'.links.timingEvents = s.links.timingEvents) :
    Stages (rs ++ (submissions now epoch s s').map (retag core)) s'.control s'.links.timingEvents := by
  rw [submissions_of_same hsame, List.map_nil, List.append_nil]
  exact h

theorem request_fields {c : TimingControl} {request : TimingEvents}
    (h : c.request epoch = .ok request) : request.point.label = c.lastLabel + 1 ∧
      request.events = c.pendingEvents.map fun e => { e with label := request.point.label } := by
  simp only [TimingControl.request, Except.bind_eq_ok_iff, Except.pure_eq_ok_iff] at h
  obtain ⟨label, hlabel, rfl⟩ := h
  exact ⟨eq_of_checkedAdd hlabel, rfl⟩

theorem submissions_of_append {x : Mailbox.Envelope TimingEvents}
    (h : s'.links.timingEvents = { s.links.timingEvents with
      entries := s.links.timingEvents.entries ++ [x] }) :
    submissions now epoch s s' = [submission now epoch s.control.timePoint x.value] := by
  rw [submissions, h, TimingControl.added_append]
  rfl

theorem Stages.enqueue {b : Bool} (h : Stages rs s.control s.links.timingEvents)
    (hspace : s.control.enqueueRequest = none → s.links.timingEvents.entries = [])
    (he : TimingControl.Enqueues now epoch s b s') :
    Stages (rs ++ (submissions now epoch s s').map (retag core)) s'.control s'.links.timingEvents := by
  cases he with
  | waiting request hrequest => exact h.unsubmitted rfl
  | done idle point => exact Stages.unsubmitted (h.congr rfl rfl rfl rfl) rfl
  | submitted request eligible idle point made valid space =>
    obtain ⟨hnext, hevents⟩ := request_fields made
    have hdecodes : Decodes s.control.profile (openCodewords rs) request.events := by
      rw [hevents]
      exact (h.decodes idle).relabel _
    rw [submissions_of_append (x := { published := now, eligible, epoch, value := request }) rfl]
    simp only [hspace idle, List.nil_append]
    exact h.submit idle rfl rfl hnext hdecodes rfl rfl rfl rfl

/-- What an operation stages and submits. -/
theorem Stages.execute {operation : ControlOperation} {result : Option ℕ}
    (h : Stages rs s.control s.links.timingEvents)
    (hspace : s.control.enqueueRequest = none → s.links.timingEvents.entries = [])
    (he : TimingControl.Executes operation now epoch s result s') :
    Stages (rs ++ (queued operation now epoch s ++ submissions now epoch s s').map (retag core))
      s'.control s'.links.timingEvents := by
  obtain ⟨hprofile, hrequest, hevents, hlabel⟩ := prepared_fields s.control operation
  have hprepared : Stages rs (s.control.prepared operation) s.links.timingEvents :=
    h.congr hprofile hrequest hevents hlabel
  -- An operation other than a codeword only calls `enqueue` and then changes nothing of this.
  have hcall : ∀ {b : Bool} {s₁ : ControlState},
      TimingControl.Enqueues now epoch { s with control := s.control.prepared operation } b s₁ →
      (∀ port word, operation.command ≠ .codeword port word) →
      Stages (rs ++ (queued operation now epoch s ++ submissions now epoch s s₁).map (retag core))
        s₁.control s₁.links.timingEvents := by
    intro b s₁ henqueues hne
    have hqueued : queued operation now epoch s = [] := by
      unfold queued
      split
      · rename_i port word hcommand
        exact absurd hcommand (hne port word)
      · rfl
    have hsame : submissions now epoch s s₁ =
        submissions now epoch { s with control := s.control.prepared operation } s₁ := by
      simp only [submissions, TimingControl.prepared_timePoint]
    rw [hqueued, List.nil_append, hsame]
    exact Stages.enqueue hprepared (fun hn => hspace (hrequest ▸ hn)) henqueues
  cases he with
  | codeword port word map references events registers log command free idle mapped reserved decoded =>
    have hsame : submissions now epoch s
        { s with
          control :=
            { s.control with
              held := none
              pendingEvents := s.control.pendingEvents ++ events
              pendingPoint := true
              nextEvent := s.control.nextEvent + map.actions.length }
          registers } = [] := submissions_of_same rfl
    rw [hsame, List.append_nil, queued, command]
    exact h.queue idle rfl (decodes_of_decodeCodeword rfl rfl rfl decoded) rfl idle rfl rfl (hspace idle)
  | synchronized target command free idle single =>
    have hqueued : queued operation now epoch s = [] := by rw [queued, command]
    rw [hqueued, List.nil_append]
    exact Stages.unsubmitted (h.congr rfl rfl rfl rfl) rfl
  | blocked s₁ flushes h' =>
    refine hcall h' fun port word hcommand => ?_
    simp [hcommand, ControlCommand.flushes] at flushes
  | waited s₁ command h' => exact (hcall h' (by simp [command])).congr rfl rfl rfl rfl
  | advanced cycles s₁ command positive h' => exact (hcall h' (by simp [command])).congr rfl rfl rfl rfl
  | unread qubit s₁ command h' => exact hcall h' (by simp [command])
  | read qubit value s₁ command h' => exact (hcall h' (by simp [command])).congr rfl rfl rfl rfl
  | halted eligible s₁ command h' space => exact (hcall h' (by simp [command])).congr rfl rfl rfl rfl

theorem kind_of_operation {operation : ControlOperation} {e : TraceEvent}
    (h : e ∈ queued operation now epoch s ++ submissions now epoch s s') :
    e.kind = .codewordQueued ∨ e.kind = .timingPointSubmitted := by
  rcases List.mem_append.1 h with h | h
  · left
    unfold queued at h
    split at h
    · rw [List.mem_singleton.1 h]
    · simp at h
  · obtain ⟨r, -, rfl⟩ := List.mem_map.1 h
    exact .inr rfl

theorem Stages.receive {u : Unit} (h : Stages rs s.control s.links.timingEvents)
    (hr : (TimingControl.receive now epoch).Returns s u s' l) :
    Stages rs s'.control s'.links.timingEvents := by
  obtain ⟨s₁, hreceives, hsame⟩ := TimingControl.receive_returns hr
  rw [hsame.control, hsame.timingEvents]
  cases hreceives with
  | nothing => exact h
  | stale reply rest entries epoch_ne => exact h
  | acknowledged reply rest request entries epoch_eq outstanding label =>
    exact h.acknowledge outstanding rfl rfl rfl rfl

/-- A run of operations only stages codewords and submits points. -/
theorem Stages.executeAll {validate : EventSpec → Except Fault Unit}
    {validateSync : ℕ → Except Fault Unit} {operations : List ControlOperation}
    {results : List (Option ℕ)} {x : HandshakeHistory} {m : TcuCycleModel}
    (h : Stages rs s.control s.links.timingEvents) (hagreed : Agreed epoch x s m)
    (hsteady : Steady s.control)
    (he : (Core.executeAll validate validateSync now epoch operations).Returns s results s' l) :
    ∃ moved, Recorded epoch moved l ∧
      (∀ e ∈ moved, e.kind = .codewordQueued ∨ e.kind = .timingPointSubmitted) ∧
        Stages (rs ++ moved.map (retag core)) s'.control s'.links.timingEvents := by
  induction operations generalizing rs x s results l with
  | nil =>
    obtain ⟨-, rfl, rfl⟩ := Proc.returns_pure_iff.1 he
    exact ⟨[], .nil, by simp, by simpa using h⟩
  | cons operation rest ih =>
    obtain ⟨result, s₁, l₁, l₂, hexecute, hmore, rfl⟩ := Proc.returns_bind_iff.1 he
    obtain ⟨results', s₂, l₃, l₄, hrest, hpure, rfl⟩ := Proc.returns_bind_iff.1 hmore
    obtain ⟨-, rfl, rfl⟩ := Proc.returns_pure_iff.1 hpure
    obtain ⟨-, -, hexecutes⟩ := TimingControl.execute_returns hexecute
    obtain ⟨hagreed₁, hsteady₁⟩ := hagreed.execute hsteady hexecute
    obtain ⟨moved, hrecorded, hkinds, hlast⟩ :=
      ih (h.execute (fun hidle => (hagreed.phase.idle_of hidle).1) hexecutes) hagreed₁ hsteady₁ hrest
    refine ⟨_, (execute_log hexecute).append (by simpa using hrecorded), ?_, ?_⟩
    · intro e hmem
      rcases List.mem_append.1 hmem with hmem | hmem
      · exact kind_of_operation hmem
      · exact hkinds e hmem
    · rw [List.map_append, ← List.append_assoc]
      exact hlast

end Control

/-- The player is in step with a core. -/
structure Follows (epoch : ℕ) (rs : List TraceEvent) (c : Core) : Prop where
  agreed : ∃ x, Agreed epoch x c.cpuSide c.tcu
  steady : Steady c.timingControl
  stages : Stages rs c.timingControl c.links.timingEvents
  queues : ∃ q, c.tcu.Holds epoch q ∧ Queues c.timingControl.profile rs q

end TraceModel
end Qsbit

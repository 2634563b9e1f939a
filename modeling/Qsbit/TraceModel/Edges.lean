import Qsbit.TraceModel.Follows

/-!
# The player at the edges of a core

An edge of either clock and a delivery keep the player in step with a core, whatever it does
on them: on one edge a point may be triggered and another one admitted. Between the step of
the unit and the end of its edge the request that has been admitted is still in its mailbox,
which is why the step is looked at by itself.

## Main definitions

* `Core.tcuStep` — an edge of the unit up to the end of its step; `Core.tcuRest` is the rest.
* `Follows.tcuStep`, `Follows.tcuEdge`, `Follows.cpuEdge` — what the edges preserve.
-/
namespace Qsbit

namespace Core

/-- An edge of the TCU clock up to the end of the step of the unit. -/
def tcuStep (preflight : TriggeredEvents → Except Fault Unit) (now epoch : ℕ) :
    Sim (Core × SyncNetwork) TcuOutput := do
  let paused ← onSync (SyncUnit.step now epoch)
  let (c, _) ← Proc.get
  let results ← onLinks (takeFastResults now epoch c.links.fastResults.entries)
  onTcu (TcuCycleModel.step now epoch ((c.links.timingEvents.peek now).map (·.value)) results
    preflight paused (some fun targets => SyncUnit.preflight targets now))

/-- What follows the step of the unit. -/
def tcuRest (now epoch : ℕ) (output : TcuOutput) : Sim (Core × SyncNetwork) TcuOutput := do
  (if output.admitted then onLinks (reply now epoch) else pure ())
  onSync (SyncUnit.book output.synchronizations now epoch)
  onLinks (credit now epoch output.fastDelivered)
  onClosure (finish now epoch)
  pure output

theorem tcuEdge_eq {preflight : TriggeredEvents → Except Fault Unit} {now epoch : ℕ} :
    tcuEdge preflight now epoch = tcuStep preflight now epoch >>= tcuRest now epoch := by
  simp only [tcuStep, Proc.bind_assoc]
  rfl

end Core

namespace TraceModel
open Buffers (ofRecords)

section Step
variable {rs : List TraceEvent} {control : TimingControl} {requests b : Mailbox TimingEvents}
  {m m' : TcuCycleModel} {q : List TcuCycleModel.Admission} {now epoch : ℕ}
  {candidate : Option TimingEvents} {results : List Completion} {paused : Bool} {out : TcuOutput}
  {trigger : Option TcuCycleModel.Trigger} {admission : Option TcuCycleModel.Admission}

/-- The point that a step triggers leaves the queue. -/
theorem Queues.fired (core : Option ℕ)
    (hs : TcuCycleModel.Stepped m now epoch candidate results paused out m' trigger admission)
    (hholds : m.Holds epoch q) (hqueues : Queues control.profile rs q)
    (hstages : Stages rs control requests) :
    Queues control.profile
      (rs ++ (triggered now epoch (m.currentTimingState now paused).cycle m
        out.launch.isSome).map (retag core))
      (if trigger.isSome then q.tail else q) ∧
    Stages
      (rs ++ (triggered now epoch (m.currentTimingState now paused).cycle m
        out.launch.isSome).map (retag core))
      control requests := by
  rw [hs.launch, Option.isSome_map]
  cases trigger with
  | none => simpa [triggered] using ⟨hqueues, hstages⟩
  | some t =>
    obtain ⟨x, rest, rfl, htiming, -⟩ := hholds.eq_cons_of_fires hs.fires
    have hone : triggered now epoch (m.currentTimingState now paused).cycle m (some t).isSome =
        [{ tick := now, epoch, kind := .timingPointTriggered, label := x.request.point.label
           cycle := (m.currentTimingState now paused).cycle }] := by
      rw [triggered, if_pos Option.isSome_some, htiming]
      rfl
    rw [hone]
    refine ⟨hqueues.trigger hholds.head_label_ne rfl rfl, hstages.other (.inl rfl) fun h => ?_⟩
    have hkind : TraceKind.timingPointTriggered = .timingPointEnqueued := h
    simp at hkind

/-- A step moves in the queues of the player what it moves in the unit. -/
theorem Queues.step (core : Option ℕ)
    (hs : TcuCycleModel.Stepped m now epoch candidate results paused out m' trigger admission)
    (hcandidate : candidate = (requests.peek now).map (·.value)) (hholds : m.Holds epoch q)
    (hqueues : Queues control.profile rs q) (hstages : Stages rs control requests)
    (hgone : out.admitted = true → b.entries = [])
    (hkept : out.admitted = false → b = requests) :
    ∃ q', m'.Holds epoch q' ∧
      Queues control.profile (rs ++
        (triggered now epoch (m.currentTimingState now paused).cycle m out.launch.isSome ++
          enqueued now epoch (m.currentTimingState now paused).cycle m' out.admitted).map
            (retag core)) q' ∧
      Stages (rs ++
        (triggered now epoch (m.currentTimingState now paused).cycle m out.launch.isSome ++
          enqueued now epoch (m.currentTimingState now paused).cycle m' out.admitted).map
            (retag core)) control b := by
  have hholds' := hholds.step hs
  obtain ⟨hqueues₁, hstages₁⟩ := hqueues.fired core hs hholds hstages
  refine ⟨_, hholds', ?_⟩
  rw [List.map_append, ← List.append_assoc]
  cases admission with
  | none =>
    have hrefused : out.admitted = false := by simp [hs.admitted]
    rw [hrefused, hkept hrefused]
    simpa [enqueued] using ⟨hqueues₁, hstages₁⟩
  | some a =>
    have hadmitted : out.admitted = true := by simp [hs.admitted]
    obtain ⟨flags, -, hm'⟩ := hs.state
    have hlabel : m'.lastLabel = a.request.point.label := by simp [hm']
    have hlength : m'.timing.length = (if trigger.isSome then q.tail else q).length + 1 := by
      simp [hholds'.timing]
    obtain ⟨envelope, hpeek, hvalue⟩ : ∃ envelope, requests.peek now = some envelope ∧
        envelope.value = a.request :=
      Option.map_eq_some_iff.1 (hcandidate.symm.trans (hs.admits a rfl).1)
    obtain ⟨others, hentries, -⟩ := Mailbox.peek_eq_some hpeek
    obtain ⟨item, hitem, hshows⟩ := hstages₁.submitted envelope (by simp [hentries])
    rw [hvalue] at hitem hshows
    rw [enqueued, if_pos hadmitted]
    refine ⟨hqueues₁.admitted rfl hlabel hlength hitem hshows, ?_⟩
    exact (hstages₁.taken (hgone hadmitted)).other (.inr rfl) fun _ => hgone hadmitted

end Step

section Edges
variable {rs : List TraceEvent} {c c' : Core} {n n' : SyncNetwork} {now epoch : ℕ}
  {preflight : TriggeredEvents → Except Fault Unit} {out out' : TcuOutput} {l : List TraceEvent}
  {core : Option ℕ}

/-! ## Edges of the unit -/

theorem tcuStep_returns (h : (Core.tcuStep preflight now epoch).Returns (c, n) out (c', n') l) :
    ∃ paused trigger admission results, TcuCycleModel.Stepped c.tcu now epoch (c.candidate now)
      results paused out c'.tcu trigger admission ∧
    Recorded epoch
      (triggered now epoch (c.tcu.currentTimingState now paused).cycle c.tcu out.launch.isSome ++
        enqueued now epoch (c.tcu.currentTimingState now paused).cycle c'.tcu out.admitted) l ∧
    ∃ sync fastResults, c' = { c with
      sync, tcu := c'.tcu, links := { c.links with fastResults } } := by
  obtain ⟨paused, ⟨c₁, n₁⟩, l₁, k₁, hx₁, h₁, rfl⟩ := Proc.returns_bind_iff.1 h
  obtain ⟨u₁, hsync, rfl⟩ := Core.returns_onSync_iff.1 hx₁
  rw [Proc.returns_get_bind_iff] at h₁
  obtain ⟨results, ⟨c₂, n₂⟩, l₂, l₃, hx₂, hx₃, rfl⟩ := Proc.returns_bind_iff.1 h₁
  obtain ⟨links₂, hresults, rfl, rfl⟩ := Core.returns_onLinks_iff.1 hx₂
  obtain ⟨fastResults, rfl⟩ := Core.takeFastResults_returns hresults
  obtain ⟨m₁, u₂, hstep, rfl⟩ := Core.returns_onTcu_iff.1 hx₃
  obtain ⟨trigger, admission, hs⟩ := TcuCycleModel.stepped_of_returns hstep
  refine ⟨paused, trigger, admission, results, hs, ?_, u₂, fastResults, rfl⟩
  have hlog := step_log (fun check hc targets => by
    rw [← Option.some.inj hc]
    exact SyncUnit.quiet_preflight) hstep
  exact (Recorded.of_plain (sync_step_logs.returns hsync)).append <|
    (Recorded.of_plain (takeFastResults_logs.returns hresults)).append hlog

theorem tcuRest_returns (h : (Core.tcuRest now epoch out).Returns (c, n) out' (c', n') l)
    (hreadable : out.admitted = true → c.links.timingEvents.peek now ≠ none) :
    out' = out ∧ Recorded epoch [] l ∧ c'.timingControl = c.timingControl ∧
      (out.admitted = true → c'.links.timingEvents.entries = c.links.timingEvents.entries.tail) ∧
      (out.admitted = false → c'.links.timingEvents = c.links.timingEvents) ∧
      ∃ closure, Core.Finishes epoch c.links.closure c.tcu closure c'.tcu := by
  obtain ⟨_, ⟨c₁, n₁⟩, l₁, k₁, hx₁, h₁, rfl⟩ := Proc.returns_bind_iff.1 h
  obtain ⟨_, ⟨c₂, n₂⟩, l₂, k₂, hx₂, h₂, rfl⟩ := Proc.returns_bind_iff.1 h₁
  obtain ⟨u₂, hbook, rfl⟩ := Core.returns_onSync_iff.1 hx₂
  obtain ⟨_, ⟨c₃, n₃⟩, l₃, k₃, hx₃, h₃, rfl⟩ := Proc.returns_bind_iff.1 h₂
  obtain ⟨links₃, hcredit, rfl, rfl⟩ := Core.returns_onLinks_iff.1 hx₃
  obtain ⟨fastCredits, rfl⟩ := Core.credit_returns hcredit
  obtain ⟨_, ⟨c₄, n₄⟩, l₄, k₄, hx₄, hpure, rfl⟩ := Proc.returns_bind_iff.1 h₃
  obtain ⟨links₄, m₄, hfinish, rfl, rfl⟩ := Core.returns_onClosure_iff.1 hx₄
  obtain ⟨closure, hfinished, rfl⟩ := Core.finish_returns hfinish
  obtain ⟨rfl, heq, rfl⟩ := Proc.returns_pure_iff.1 hpure
  obtain ⟨rfl, rfl⟩ := Prod.mk.inj heq
  obtain rfl := Core.quiet_credit.returns hcredit
  have hrest : Recorded epoch [] (l₂ ++ ([] ++ (l₄ ++ []))) :=
    (Recorded.of_plain (book_logs.returns hbook)).append <|
      Recorded.nil.append <| (Recorded.of_plain (finish_logs.returns hfinish)).append .nil
  by_cases hadmitted : out.admitted = true
  · rw [if_pos hadmitted] at hx₁
    obtain ⟨links₁, hreply, rfl, rfl⟩ := Core.returns_onLinks_iff.1 hx₁
    obtain rfl := Core.quiet_reply.returns hreply
    obtain ⟨timingEvents, replies, hreplies, rfl⟩ := Core.reply_returns hreply (hreadable hadmitted)
    refine ⟨rfl, hrest, rfl, fun _ => ?_, fun hn => by simp [hadmitted] at hn, closure, hfinished⟩
    cases hreplies with
    | accepted request rest eligible readable entries =>
      show rest = _
      rw [entries, List.tail_cons]
  · rw [if_neg hadmitted] at hx₁
    obtain ⟨-, heq, rfl⟩ := Proc.returns_pure_iff.1 hx₁
    obtain ⟨rfl, rfl⟩ := Prod.mk.inj heq
    exact ⟨rfl, hrest, rfl, fun hn => absurd hn hadmitted, fun _ => rfl, closure, hfinished⟩

/-- What the player shows at the end of a step of the unit. -/
theorem Follows.tcuStep (core : Option ℕ) (h : Follows epoch rs c)
    (hstep : (Core.tcuStep preflight now epoch).Returns (c, n) out (c', n') l) :
    c'.id = c.id ∧ ∃ moved, Recorded epoch moved l ∧
      (∃ requests, Stages (rs ++ moved.map (retag core)) c'.timingControl requests) ∧
      ∃ q, c'.tcu.Holds epoch q ∧
        Queues c'.timingControl.profile (rs ++ moved.map (retag core)) q := by
  obtain ⟨paused, trigger, admission, results, hs, hrecorded, sync, fastResults, hc'⟩ :=
    tcuStep_returns hstep
  obtain ⟨q, hholds, hqueues⟩ := h.queues
  have hcontrol : c'.timingControl = c.timingControl := by rw [hc']
  -- The request that has been admitted is taken later on, which the player does not see.
  obtain ⟨q', hholds', hqueues', hstages⟩ := Queues.step core
    (b := if out.admitted then { c.links.timingEvents with entries := [] }
      else c.links.timingEvents) hs rfl hholds hqueues h.stages (by simp +contextual)
    (by simp +contextual)
  rw [hcontrol]
  exact ⟨by rw [hc'], _, hrecorded, ⟨_, hstages⟩, q', hholds', hqueues'⟩

theorem entries_tail_of_agreed {x : HandshakeHistory} {s : ControlState} {m : TcuCycleModel}
    (h : Agreed epoch x s m) : s.links.timingEvents.entries.tail = [] := by
  cases h.phase with
  | idle request events => simp [events]
  | sent envelope request events => simp [events]
  | replied r envelope request events => simp [events]

theorem holds_of_finishes {closure closure' : Mailbox EndOfStream} {m m' : TcuCycleModel}
    {q : List TcuCycleModel.Admission} (hf : Core.Finishes epoch closure m closure' m')
    (h : m.Holds epoch q) : m'.Holds epoch q := by
  cases hf with
  | goesOn => exact h
  | ends => exact { h with }

/-- An edge of the unit keeps the player in step. -/
theorem Follows.tcuEdge (h : Follows epoch rs c)
    (hedge : (Core.tcuEdge preflight now epoch).Returns (c, n) out (c', n') l) :
    ∃ moved, Recorded epoch moved l ∧ Follows epoch (rs ++ moved.map (retag core)) c' := by
  obtain ⟨x, hagreed⟩ := h.agreed
  have hagreed' := hagreed.tcuEdge (Core.tcuEdge_returns hedge)
  rw [Core.tcuEdge_eq] at hedge
  obtain ⟨out₁, ⟨c₁, n₁⟩, l₁, l₂, hstep, hrest, rfl⟩ := Proc.returns_bind_iff.1 hedge
  obtain ⟨paused, trigger, admission, results, hs, hrecorded, sync, fastResults, hc₁⟩ :=
    tcuStep_returns hstep
  have hlinks : c₁.links.timingEvents = c.links.timingEvents := by rw [hc₁]
  have hcontrol : c₁.timingControl = c.timingControl := by rw [hc₁]
  have hreadable : out₁.admitted = true → c₁.links.timingEvents.peek now ≠ none := by
    intro hadmitted hnone
    rw [hs.admitted] at hadmitted
    obtain ⟨a, ha⟩ := Option.isSome_iff_exists.1 hadmitted
    have hcandidate := (hs.admits a ha).1
    rw [Core.candidate, ← hlinks, hnone] at hcandidate
    simp at hcandidate
  obtain ⟨rfl, hplain, hcontrol', hadmitted, hrefused, closure, hfinished⟩ :=
    tcuRest_returns hrest hreadable
  obtain ⟨q, hholds, hqueues⟩ := h.queues
  have hgone : out.admitted = true → c'.links.timingEvents.entries = [] := by
    intro ha
    rw [hadmitted ha, hlinks]
    exact entries_tail_of_agreed hagreed
  obtain ⟨q', hholds', hqueues', hstages'⟩ := Queues.step core hs rfl hholds hqueues h.stages hgone
    fun hr => (hrefused hr).trans hlinks
  have hall := hrecorded.append hplain
  rw [List.append_nil] at hall
  refine ⟨_, hall, ⟨_, hagreed'⟩, ?_, ?_, q', ?_, ?_⟩
  · rw [hcontrol', hcontrol]
    exact h.steady
  · rw [hcontrol', hcontrol]
    exact hstages'
  · exact holds_of_finishes hfinished hholds'
  · rw [hcontrol', hcontrol]
    exact hqueues'

/-! ## The other edges -/

theorem Follows.cpuEdge {validate : EventSpec → Except Fault Unit}
    {operations : List ControlOperation} {results : List (Option ℕ)} (h : Follows epoch rs c)
    (hedge : (Core.cpuEdge validate operations now epoch).Returns (c, n) results (c', n') l) :
    ∃ moved, Recorded epoch moved l ∧ Follows epoch (rs ++ moved.map (retag core)) c' := by
  obtain ⟨x, hagreed⟩ := h.agreed
  obtain ⟨s₁, s₂, l₁, l₂, hreceive, hexecute, rfl, -, rfl⟩ := Core.cpuEdge_returns hedge
  obtain ⟨hagreed₁, hsteady₁⟩ := hagreed.receive h.steady hreceive
  obtain ⟨hagreed₂, hsteady₂, -⟩ := hagreed₁.executeAll hsteady₁ hexecute
  have hstages₁ : Stages rs s₁.control s₁.links.timingEvents := Stages.receive h.stages hreceive
  obtain ⟨moved, hrecorded, hkinds, hstages₂⟩ := hstages₁.executeAll hagreed₁ hsteady₁ hexecute
  obtain ⟨q, hholds, hqueues⟩ := h.queues
  have hprofile : s₂.control.profile = c.timingControl.profile :=
    hagreed₂.profile.trans hagreed.profile.symm
  refine ⟨moved, (Recorded.of_plain (receive_logs.returns hreceive)).append hrecorded,
    ⟨_, hagreed₂⟩, hsteady₂, hstages₂, q, hholds, ?_⟩
  show Queues s₂.control.profile _ _
  rw [hprofile]
  exact hqueues.others (List.forall_mem_map.2 hkinds)

theorem Follows.deliver {epoch' : ℕ} {result : Completion} {u : Unit} (h : Follows epoch rs c)
    (hd : (Core.deliver result now epoch').Returns c u c' l) : Follows epoch rs c' := by
  obtain ⟨x, hagreed⟩ := h.agreed
  obtain ⟨cpuResults, fastResults, rfl⟩ := Core.deliver_returns hd
  exact ⟨⟨x, hagreed.of_same rfl rfl rfl rfl⟩, h.steady, h.stages, h.queues⟩

/-! ## The start of a session -/

theorem Follows.make {fingerprint : String} {id syncCapacity : ℕ} {profile : Profile}
    (h : Core.make fingerprint id profile syncCapacity = .ok c) : Follows epoch [] c := by
  obtain ⟨hagreed, hsteady⟩ := (Agreed.make h : Agreed epoch {} c.cpuSide c.tcu ∧ _)
  simp only [Core.make, ControlLinks.make, Except.bind_eq_ok_iff, Except.pure_eq_ok_iff] at h
  obtain ⟨timing, -, links, ⟨events, hevents, _, -, _, -, _, -, _, -, _, -, rfl⟩, config, -, tcu,
    htcu, _, -, rfl⟩ := h
  exact
    { agreed := ⟨_, hagreed⟩
      steady := hsteady
      stages := .start rfl rfl (mailbox_make hevents).2
      queues := ⟨[], .make htcu, .nil⟩ }

/-- A reset starts with nothing. -/
theorem Follows.reset {epoch' : ℕ} {u : Unit} (h : Follows epoch rs c)
    (hr : (Core.reset now).Returns c u c' l) : Follows epoch' [] c' := by
  obtain ⟨x, hagreed⟩ := h.agreed
  obtain ⟨hagreed', hsteady'⟩ := (hagreed.reset hr : Agreed epoch' {} c'.cpuSide c'.tcu ∧ _)
  obtain ⟨q, hholds, -⟩ := h.queues
  simp only [Core.reset, Proc.returns_modify_bind_iff] at hr
  obtain ⟨_, c₁, _, _, hzoom, hlast, -⟩ := Proc.returns_bind_iff.1 hr
  obtain ⟨tcu, htcu, rfl⟩ := Proc.returns_zoom_iff.1 hzoom
  obtain ⟨rfl, -⟩ := Proc.returns_modify_iff.1 hlast
  obtain ⟨start, -, rfl⟩ := TcuCycleModel.reset_returns htcu
  exact
    { agreed := ⟨_, hagreed'⟩
      steady := hsteady'
      stages := .start rfl rfl rfl
      queues := ⟨[], hholds.cleared start, .nil⟩ }

end Edges

end TraceModel
end Qsbit

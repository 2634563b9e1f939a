import Qsbit.Sync
import Qsbit.Tcu.Step
import Qsbit.TimingControl.Step

/-!
# A controller core

A core connects the timing control of its CPU side, its timing control unit and
its synchronization unit. What the CPU executes is given from outside: on a CPU
edge the timing control receives what has arrived and then executes the
operations that the CPU issues. The memory and the CPU pipeline are left out;
they touch nothing else of the core.

## Main definitions

* `Core` — the parts of a core.
* `Core.cpuEdge`, `Core.tcuEdge`, `Core.deliver`, `Core.reset` — what happens to a core.
* `Core.TcuEdge` — what a TCU edge has done.
-/
namespace Qsbit

structure Core where
  id : ℕ
  profile : Profile
  sync : SyncUnit
  registers : MeasurementRegisters
  timingControl : TimingControl
  links : ControlLinks
  tcu : TcuCycleModel

namespace Core

/-- A core as its constructor leaves it. -/
def make (fingerprint : String) (id : ℕ) (profile : Profile) (syncCapacity : ℕ := 8) :
    Except Fault Core := do
  let timing ← timingConfig fingerprint profile
  let links ← ControlLinks.make (transportConfig profile)
  let config ← tcuConfig fingerprint profile
  let tcu ← TcuCycleModel.make config syncCapacity
  profile.validate
  pure
    { id, profile, links, tcu
      sync := { core := id }
      registers := MeasurementRegisters.make
        { qubits := profile.qubits, resultCapacity := profile.resultCapacity
          fastFeedback := profile.fastFeedback }
      timingControl := { profile := timing } }

/-! ## CPU edges -/

/-- What the timing control works on. -/
def cpuSide (c : Core) : ControlState :=
  { control := c.timingControl, registers := c.registers, links := c.links }

def withCpuSide (s : ControlState) (c : Core) : Core :=
  { c with timingControl := s.control, registers := s.registers, links := s.links }

@[simp] theorem cpuSide_withCpuSide (s : ControlState) (c : Core) :
    (c.withCpuSide s).cpuSide = s := rfl

/-- Execute the operations that the CPU issues on one edge, in order. -/
def executeAll (validate : EventSpec → Except Fault Unit) (validateSync : ℕ → Except Fault Unit)
    (now epoch : ℕ) : List ControlOperation → Sim ControlState (List (Option ℕ))
  | [] => pure []
  | operation :: rest => do
      let result ← TimingControl.execute validate (some validateSync) operation now epoch
      let results ← executeAll validate validateSync now epoch rest
      pure (result :: results)

/-- One edge of the CPU clock; yields the results of the operations. -/
def cpuEdge (validate : EventSpec → Except Fault Unit) (operations : List ControlOperation)
    (now epoch : ℕ) : Sim (Core × SyncNetwork) (List (Option ℕ)) := do
  let (c, n) ← Proc.get
  Proc.onFst <| Proc.zoom cpuSide withCpuSide do
    TimingControl.receive now epoch
    executeAll validate (c.sync.validate n) now epoch operations

/-! ## TCU edges -/

/-- Take the fast results that have arrived; yields those of the current epoch. -/
def takeFastResults (now epoch : ℕ) :
    List (Mailbox.Envelope Completion) → Sim ControlLinks (List Completion)
  | [] => pure []
  | result :: rest =>
      if now < result.eligible then pure [] else do
        Proc.modify fun links =>
          { links with fastResults := { links.fastResults with entries := rest } }
        (if result.epoch = epoch then pure ()
        else Proc.emit { tick := now, epoch, kind := .staleCompletionDiscarded })
        let results ← takeFastResults now epoch rest
        pure (if result.epoch = epoch then result.value :: results else results)

/-- Take the request that has been admitted and acknowledge it. -/
def reply (now epoch : ℕ) : Sim ControlLinks Unit := do
  let links ← Proc.get
  match links.timingEvents.peek now with
  -- A request has been admitted only if it is there.
  | none => pure ()
  | some accepted => do
      Proc.set { links with timingEvents := links.timingEvents.taken now }
      let replies ← links.replies.publish now epoch { label := accepted.value.point.label }
      Proc.modify fun links => { links with replies }

/-- Credit the delivered fast results back. -/
def credit (now epoch : ℕ) : List MeasurementReference → Sim ControlLinks Unit
  | [] => pure ()
  | reference :: rest => do
      let links ← Proc.get
      let fastCredits ← links.fastCredits.publish now epoch reference
      Proc.set { links with fastCredits }
      credit now epoch rest

/-- Close the stream of timing points once its end has arrived. -/
def finish (now epoch : ℕ) : Sim (ControlLinks × TcuCycleModel) Unit := do
  let (links, m) ← Proc.get
  match links.closure.peek now with
  | none => pure ()
  | some terminal => do
      Proc.set ({ links with closure := links.closure.taken now }, m)
      require (terminal.epoch = epoch) .protocol "stale stream closure"
      Proc.onSnd (TcuCycleModel.close terminal.value)
      Proc.emit
        { tick := now, epoch, kind := .endOfStreamVisible, label := terminal.value.lastLabel }

def onLinks {α : Type} (x : Sim ControlLinks α) : Sim (Core × SyncNetwork) α :=
  Proc.onFst (Proc.zoom Core.links (fun links c => { c with links }) x)

def onSync {α : Type} (x : Sim (SyncUnit × SyncNetwork) α) : Sim (Core × SyncNetwork) α :=
  Proc.zoom (fun s => (s.1.sync, s.2)) (fun x s => ({ s.1 with sync := x.1 }, x.2)) x

def onTcu {α : Type} (x : Sim (TcuCycleModel × (SyncUnit × SyncNetwork)) α) :
    Sim (Core × SyncNetwork) α :=
  Proc.zoom (fun s => (s.1.tcu, s.1.sync, s.2))
    (fun x s => ({ s.1 with tcu := x.1, sync := x.2.1 }, x.2.2)) x

def onClosure {α : Type} (x : Sim (ControlLinks × TcuCycleModel) α) : Sim (Core × SyncNetwork) α :=
  Proc.onFst (Proc.zoom (fun c => (c.links, c.tcu))
    (fun x c => { c with links := x.1, tcu := x.2 }) x)

/-- One edge of the TCU clock. -/
def tcuEdge (preflight : TriggeredEvents → Except Fault Unit) (now epoch : ℕ) :
    Sim (Core × SyncNetwork) TcuOutput := do
  let paused ← onSync (SyncUnit.step now epoch)
  let (c, _) ← Proc.get
  let results ← onLinks (takeFastResults now epoch c.links.fastResults.entries)
  let output ← onTcu (TcuCycleModel.step now epoch ((c.links.timingEvents.peek now).map (·.value))
    results preflight paused (some fun targets => SyncUnit.preflight targets now))
  (if output.admitted then onLinks (reply now epoch) else pure ())
  onSync (SyncUnit.book output.synchronizations now epoch)
  onLinks (credit now epoch output.fastDelivered)
  onClosure (finish now epoch)
  pure output

/-! ## Deliveries and resets -/

/-- Deliver a measurement result. -/
def deliver (result : Completion) (now epoch : ℕ) : Sim Core Unit := do
  let c ← Proc.get
  let cpuResults ← c.links.cpuResults.publish now epoch result
  Proc.set { c with links := { c.links with cpuResults } }
  (if c.profile.fastFeedback then do
    let c ← Proc.get
    let fastResults ← c.links.fastResults.publish now epoch result
    Proc.set { c with links := { c.links with fastResults } }
  else pure ())

/-- Start a new session. -/
def reset (now : ℕ) : Sim Core Unit := do
  Proc.modify fun c =>
    { c with
      links := c.links.reset
      timingControl := c.timingControl.reset
      registers := c.registers.reset }
  Proc.zoom Core.tcu (fun tcu c => { c with tcu }) (TcuCycleModel.reset now)
  Proc.modify fun c => { c with sync := c.sync.reset }

/-! ## What an edge has done -/

section Edges
variable {c c' : Core} {n n' : SyncNetwork} {links links' : ControlLinks} {m m' : TcuCycleModel}
  {now epoch : ℕ} {u : Unit} {l : List TraceEvent}

theorem returns_onLinks_iff {α : Type} {x : Sim ControlLinks α} {a : α} :
    (onLinks x).Returns (c, n) a (c', n') l ↔
      ∃ links, x.Returns c.links a links l ∧ c' = { c with links } ∧ n' = n := by
  simp only [onLinks, Proc.returns_onFst_iff, Proc.returns_zoom_iff]
  constructor
  · rintro ⟨⟨links, h, rfl⟩, rfl⟩
    exact ⟨links, h, rfl, rfl⟩
  · rintro ⟨links, h, rfl, rfl⟩
    exact ⟨⟨links, h, rfl⟩, rfl⟩

theorem returns_onSync_iff {α : Type} {x : Sim (SyncUnit × SyncNetwork) α} {a : α} :
    (onSync x).Returns (c, n) a (c', n') l ↔
      ∃ sync, x.Returns (c.sync, n) a (sync, n') l ∧ c' = { c with sync } := by
  simp only [onSync, Proc.returns_zoom_iff, Prod.exists, Prod.mk.injEq]
  constructor
  · rintro ⟨sync, _, h, rfl, rfl⟩
    exact ⟨sync, h, rfl⟩
  · rintro ⟨sync, h, rfl⟩
    exact ⟨sync, n', h, rfl, rfl⟩

theorem returns_onTcu_iff {α : Type} {x : Sim (TcuCycleModel × (SyncUnit × SyncNetwork)) α}
    {a : α} : (onTcu x).Returns (c, n) a (c', n') l ↔
      ∃ tcu sync, x.Returns (c.tcu, c.sync, n) a (tcu, sync, n') l ∧
        c' = { c with tcu, sync } := by
  simp only [onTcu, Proc.returns_zoom_iff, Prod.exists, Prod.mk.injEq]
  constructor
  · rintro ⟨tcu, sync, _, h, rfl, rfl⟩
    exact ⟨tcu, sync, h, rfl⟩
  · rintro ⟨tcu, sync, h, rfl⟩
    exact ⟨tcu, sync, n', h, rfl, rfl⟩

theorem returns_onClosure_iff {α : Type} {x : Sim (ControlLinks × TcuCycleModel) α} {a : α} :
    (onClosure x).Returns (c, n) a (c', n') l ↔
      ∃ links tcu, x.Returns (c.links, c.tcu) a (links, tcu) l ∧ c' = { c with links, tcu } ∧
        n' = n := by
  simp only [onClosure, Proc.returns_onFst_iff, Proc.returns_zoom_iff, Prod.exists]
  constructor
  · rintro ⟨⟨links, tcu, h, rfl⟩, rfl⟩
    exact ⟨links, tcu, h, rfl, rfl⟩
  · rintro ⟨links, tcu, h, rfl, rfl⟩
    exact ⟨⟨links, tcu, h, rfl⟩, rfl⟩

theorem cpuEdge_returns {validate : EventSpec → Except Fault Unit}
    {operations : List ControlOperation} {results : List (Option ℕ)}
    (h : (cpuEdge validate operations now epoch).Returns (c, n) results (c', n') l) :
    ∃ s₁ s₂ l₁ l₂, (TimingControl.receive now epoch).Returns c.cpuSide () s₁ l₁ ∧
      (executeAll validate (c.sync.validate n) now epoch operations).Returns s₁ results s₂ l₂ ∧
        c' = c.withCpuSide s₂ ∧ n' = n ∧ l = l₁ ++ l₂ := by
  simp only [cpuEdge, Proc.returns_get_bind_iff, Proc.returns_onFst_iff,
    Proc.returns_zoom_iff] at h
  obtain ⟨⟨s₂, hboth, rfl⟩, rfl⟩ := h
  obtain ⟨_, s₁, l₁, l₂, hreceive, hexecute, hlog⟩ := Proc.returns_bind_iff.1 hboth
  exact ⟨s₁, s₂, l₁, l₂, hreceive, hexecute, rfl, rfl, hlog.symm⟩

theorem cpuEdge_faultsIn {P : Fault → Prop} {validate : EventSpec → Except Fault Unit}
    {operations : List ControlOperation}
    (hreceive : (TimingControl.receive now epoch).FaultsIn P c.cpuSide)
    (hexecute : ∀ s₁ l₁, (TimingControl.receive now epoch).Returns c.cpuSide () s₁ l₁ →
      (executeAll validate (c.sync.validate n) now epoch operations).FaultsIn P s₁) :
    (cpuEdge validate operations now epoch).FaultsIn P (c, n) :=
  .get_bind <| .zoom <| .zoom <| .bind hreceive fun _ s₁ l₁ h => hexecute s₁ l₁ h

theorem takeFastResults_returns {entries : List (Mailbox.Envelope Completion)}
    {results : List Completion}
    (h : (takeFastResults now epoch entries).Returns links results links' l) :
    ∃ fastResults, links' = { links with fastResults } := by
  induction entries generalizing links results l with
  | nil =>
    obtain ⟨-, rfl, -⟩ := Proc.returns_pure_iff.1 h
    exact ⟨_, rfl⟩
  | cons result rest ih =>
    unfold takeFastResults at h
    split at h
    · obtain ⟨-, rfl, -⟩ := Proc.returns_pure_iff.1 h
      exact ⟨_, rfl⟩
    · rw [Proc.returns_modify_bind_iff] at h
      obtain ⟨_, links₁, _, _, htrace, hrest, -⟩ := Proc.returns_bind_iff.1 h
      obtain ⟨found, links₂, _, _, hfound, hpure, -⟩ := Proc.returns_bind_iff.1 hrest
      obtain ⟨-, rfl, -⟩ := Proc.returns_pure_iff.1 hpure
      obtain ⟨fastResults, rfl⟩ := ih hfound
      have hsame : { links with fastResults := { links.fastResults with entries := rest } } =
          links₁ := by
        split at htrace
        · exact (Proc.returns_pure_iff.1 htrace).2.1
        · exact (Proc.returns_emit_iff.1 htrace).1
      rw [← hsame]
      exact ⟨fastResults, rfl⟩

theorem credit_returns {references : List MeasurementReference}
    (h : (credit now epoch references).Returns links u links' l) :
    ∃ fastCredits, links' = { links with fastCredits } := by
  induction references generalizing links l with
  | nil =>
    obtain ⟨-, rfl, -⟩ := Proc.returns_pure_iff.1 h
    exact ⟨_, rfl⟩
  | cons reference rest ih =>
    simp only [credit, Proc.returns_get_bind_iff, Proc.returns_lift_bind_iff,
      Proc.returns_set_bind_iff] at h
    obtain ⟨fastCredits, -, h⟩ := h
    obtain ⟨fastCredits', rfl⟩ := ih h
    exact ⟨fastCredits', rfl⟩

/-- Whether a request has been taken and acknowledged. -/
inductive Replies (now epoch : ℕ) (timingEvents : Mailbox TimingEvents)
    (replies : Mailbox EnqueueReply) : Bool → Mailbox TimingEvents → Mailbox EnqueueReply → Prop
  | refused : Replies now epoch timingEvents replies false timingEvents replies
  | accepted (request : Mailbox.Envelope TimingEvents)
      (rest : List (Mailbox.Envelope TimingEvents)) (eligible : ℕ)
      (readable : timingEvents.peek now = some request)
      (entries : timingEvents.entries = request :: rest) :
      Replies now epoch timingEvents replies true { timingEvents with entries := rest }
        { replies with
          entries := replies.entries ++
            [{ published := now, eligible, epoch, value := { label := request.value.point.label } }] }

theorem reply_returns (h : (reply now epoch).Returns links u links' l)
    (hreadable : links.timingEvents.peek now ≠ none) : ∃ timingEvents replies,
      Replies now epoch links.timingEvents links.replies true timingEvents replies ∧
        links' = { links with timingEvents, replies } := by
  simp only [reply, Proc.returns_get_bind_iff] at h
  cases hpeek : links.timingEvents.peek now with
  | none => exact absurd hpeek hreadable
  | some request =>
    simp only [hpeek, Proc.returns_set_bind_iff, Proc.returns_lift_bind_iff,
      Proc.returns_modify_iff] at h
    obtain ⟨replies, hreplies, rfl, -⟩ := h
    obtain ⟨-, eligible, rfl⟩ := Mailbox.publish_eq_ok hreplies
    obtain ⟨rest, hentries, -⟩ := Mailbox.peek_eq_some hpeek
    have htaken : links.timingEvents.taken now = { links.timingEvents with entries := rest } := by
      simp [Mailbox.taken, hpeek, hentries]
    rw [htaken]
    exact ⟨_, _, .accepted request rest eligible hpeek hentries, rfl⟩

/-- Whether the end of the stream has been taken. -/
inductive Finishes (epoch : ℕ) (closure : Mailbox EndOfStream) (m : TcuCycleModel) :
    Mailbox EndOfStream → TcuCycleModel → Prop
  | goesOn : Finishes epoch closure m closure m
  | ends (terminal : Mailbox.Envelope EndOfStream) (rest : List (Mailbox.Envelope EndOfStream))
      (entries : closure.entries = terminal :: rest) (current : terminal.epoch = epoch)
      (opened : m.closed = false) (label : terminal.value.lastLabel = m.lastLabel) :
      Finishes epoch closure m { closure with entries := rest } { m with closed := true }

theorem finish_returns (h : (finish now epoch).Returns (links, m) u (links', m') l) :
    ∃ closure, Finishes epoch links.closure m closure m' ∧ links' = { links with closure } := by
  simp only [finish, Proc.returns_get_bind_iff] at h
  cases hpeek : links.closure.peek now with
  | none =>
    simp only [hpeek, Proc.returns_pure_iff, Prod.mk.injEq] at h
    obtain ⟨-, ⟨rfl, rfl⟩, -⟩ := h
    exact ⟨_, .goesOn, rfl⟩
  | some terminal =>
    simp only [hpeek, Proc.returns_set_bind_iff, Proc.returns_lift_bind_iff, require_eq_ok_iff,
      exists_const] at h
    obtain ⟨hepoch, h⟩ := h
    obtain ⟨_, ⟨links₁, m₁⟩, _, _, hboth, hemit, -⟩ := Proc.returns_bind_iff.1 h
    obtain ⟨hclose, rfl⟩ := Proc.returns_onSnd_iff.1 hboth
    obtain ⟨heq, -⟩ := Proc.returns_emit_iff.1 hemit
    obtain ⟨rfl, rfl⟩ := Prod.mk.inj heq
    simp only [TcuCycleModel.close, Proc.returns_get_bind_iff, Proc.returns_lift_bind_iff,
      require_eq_ok_iff, exists_const, Proc.returns_set_iff] at hclose
    obtain ⟨⟨hopen, hlabel⟩, rfl, -⟩ := hclose
    obtain ⟨rest, hentries, -⟩ := Mailbox.peek_eq_some hpeek
    have htaken : links.closure.taken now = { links.closure with entries := rest } := by
      simp [Mailbox.taken, hpeek, hentries]
    rw [htaken]
    exact ⟨_, .ends terminal rest hentries hepoch hopen hlabel, rfl⟩

/-- What a TCU edge has done to a core and its network. -/
inductive TcuEdge (preflight : TriggeredEvents → Except Fault Unit) (now epoch : ℕ) (c : Core)
    (n : SyncNetwork) (out : TcuOutput) : Core → SyncNetwork → Prop
  | intro {paused : Bool} {u₁ u₂ u₃ : SyncUnit} {n₁ n₂ n₃ : SyncNetwork} {m₁ m₂ : TcuCycleModel}
      {results : List Completion} {l₁ l₂ l₃ : List TraceEvent} {timingEvents : Mailbox TimingEvents}
      {replies : Mailbox EnqueueReply} {closure : Mailbox EndOfStream}
      {fastResults : Mailbox Completion} {fastCredits : Mailbox MeasurementReference}
      (synced : (SyncUnit.step now epoch).Returns (c.sync, n) paused (u₁, n₁) l₁)
      (stepped : (TcuCycleModel.step now epoch ((c.links.timingEvents.peek now).map (·.value))
        results preflight paused (some fun targets => SyncUnit.preflight targets now)).Returns
          (c.tcu, u₁, n₁) out (m₁, u₂, n₂) l₂)
      (replied : Replies now epoch c.links.timingEvents c.links.replies out.admitted timingEvents
        replies)
      (booked : (SyncUnit.book out.synchronizations now epoch).Returns (u₂, n₂) () (u₃, n₃) l₃)
      (finished : Finishes epoch c.links.closure m₁ closure m₂) :
      TcuEdge preflight now epoch c n out
        { c with
          sync := u₃, tcu := m₂
          links :=
            { c.links with timingEvents, replies, closure, fastResults, fastCredits } } n₃

theorem tcuEdge_returns {preflight : TriggeredEvents → Except Fault Unit} {out : TcuOutput}
    (h : (tcuEdge preflight now epoch).Returns (c, n) out (c', n') l) :
    TcuEdge preflight now epoch c n out c' n' := by
  obtain ⟨paused, ⟨c₁, n₁⟩, _, _, hx₁, h₁, -⟩ := Proc.returns_bind_iff.1 h
  obtain ⟨u₁, hsync, rfl⟩ := returns_onSync_iff.1 hx₁
  rw [Proc.returns_get_bind_iff] at h₁
  obtain ⟨results, ⟨c₂, n₂⟩, _, _, hx₂, h₂, -⟩ := Proc.returns_bind_iff.1 h₁
  obtain ⟨links₂, hresults, rfl, rfl⟩ := returns_onLinks_iff.1 hx₂
  obtain ⟨fastResults, rfl⟩ := takeFastResults_returns hresults
  obtain ⟨out', ⟨c₃, n₃⟩, _, _, hx₃, h₃, -⟩ := Proc.returns_bind_iff.1 h₂
  obtain ⟨m₁, u₂, hstep, rfl⟩ := returns_onTcu_iff.1 hx₃
  obtain ⟨_, ⟨c₄, n₄⟩, _, _, hx₄, h₄, -⟩ := Proc.returns_bind_iff.1 h₃
  obtain ⟨_, ⟨c₅, n₅⟩, _, _, hx₅, h₅, -⟩ := Proc.returns_bind_iff.1 h₄
  obtain ⟨u₃, hbook, rfl⟩ := returns_onSync_iff.1 hx₅
  obtain ⟨_, ⟨c₆, n₆⟩, _, _, hx₆, h₆, -⟩ := Proc.returns_bind_iff.1 h₅
  obtain ⟨links₆, hcredit, rfl, rfl⟩ := returns_onLinks_iff.1 hx₆
  obtain ⟨fastCredits, rfl⟩ := credit_returns hcredit
  obtain ⟨_, ⟨c₇, n₇⟩, _, _, hx₇, hpure, -⟩ := Proc.returns_bind_iff.1 h₆
  obtain ⟨links₇, m₂, hfinish, rfl, rfl⟩ := returns_onClosure_iff.1 hx₇
  obtain ⟨closure, hfinished, rfl⟩ := finish_returns hfinish
  obtain ⟨rfl, heq, -⟩ := Proc.returns_pure_iff.1 hpure
  obtain ⟨rfl, rfl⟩ := Prod.mk.inj heq
  -- Only the reply is left, which is made when a request has been admitted.
  by_cases hadmitted : out'.admitted = true
  · rw [if_pos hadmitted] at hx₄
    obtain ⟨links₄, hreply, rfl, rfl⟩ := returns_onLinks_iff.1 hx₄
    obtain ⟨trigger, admission, hs⟩ := TcuCycleModel.stepped_of_returns hstep
    have hreadable : c.links.timingEvents.peek now ≠ none := by
      intro hnone
      rw [hs.admitted] at hadmitted
      obtain ⟨a, ha⟩ := Option.isSome_iff_exists.1 hadmitted
      have hcandidate := (hs.admits a ha).1
      simp [hnone] at hcandidate
    obtain ⟨timingEvents, replies, hreplies, rfl⟩ := reply_returns hreply hreadable
    exact .intro hsync hstep (hadmitted ▸ hreplies) hbook hfinished
  · rw [if_neg hadmitted] at hx₄
    obtain ⟨-, heq, -⟩ := Proc.returns_pure_iff.1 hx₄
    obtain ⟨rfl, rfl⟩ := Prod.mk.inj heq
    have hrefused : out'.admitted = false := by simpa using hadmitted
    exact .intro hsync hstep (hrefused ▸ .refused) hbook hfinished

/-- A delivery only adds results. -/
theorem deliver_returns {result : Completion} (h : (deliver result now epoch).Returns c u c' l) :
    ∃ cpuResults fastResults, c' = { c with links := { c.links with cpuResults, fastResults } } := by
  simp only [deliver, Proc.returns_get_bind_iff, Proc.returns_lift_bind_iff,
    Proc.returns_set_bind_iff] at h
  obtain ⟨cpuResults, -, h⟩ := h
  split at h
  · simp only [Proc.returns_get_bind_iff, Proc.returns_lift_bind_iff, Proc.returns_set_iff] at h
    obtain ⟨fastResults, -, rfl, -⟩ := h
    exact ⟨cpuResults, fastResults, rfl⟩
  · obtain ⟨-, rfl, -⟩ := Proc.returns_pure_iff.1 h
    exact ⟨cpuResults, c.links.fastResults, rfl⟩

end Edges

end Core
end Qsbit

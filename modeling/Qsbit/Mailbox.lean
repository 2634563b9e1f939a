import Qsbit.ControlProtocol
import Qsbit.Feedback

/-!
# Mailboxes and control links

Messages cross the clock domains of a core through bounded mailboxes. A message
becomes readable on an edge of its receiver, a number of edges after it was
published. `ControlLinks` are the six mailboxes between the CPU side and the
timing control unit.
-/
namespace Qsbit

namespace Mailbox

structure Envelope (α : Type) where
  published : ℕ
  eligible : ℕ
  epoch : ℕ
  value : α
  deriving DecidableEq, Repr

end Mailbox

structure Mailbox (α : Type) where
  capacity : ℕ
  receiver : Clock
  latency : ℕ := 1
  entries : List (Mailbox.Envelope α) := []
  deriving DecidableEq, Repr

namespace Mailbox
variable {α : Type}

def make (capacity : ℕ) (receiver : Clock) (latency : ℕ := 1) : Except Fault (Mailbox α) := do
  require (0 < capacity) .invalidProfile "zero mailbox capacity"
  receiver.validate
  require (0 < latency) .invalidProfile "zero mailbox latency"
  pure { capacity, receiver, latency }

def full (b : Mailbox α) : Bool := b.entries.length = b.capacity

def publish (b : Mailbox α) (now epoch : ℕ) (value : α) : Except Fault (Mailbox α) := do
  require (b.full = false) .capacity "mailbox capacity exceeded"
  let eligible ← b.receiver.after now b.latency
  require (∀ last ∈ b.entries.getLast?, last.published ≤ now)
    .protocol "mailbox publication time decreased"
  pure { b with entries := b.entries ++ [{ published := now, eligible, epoch, value }] }

/-- The oldest message, if it is readable. -/
def peek (b : Mailbox α) (now : ℕ) : Option (Envelope α) :=
  b.entries.head?.filter (·.eligible ≤ now)

/-- The mailbox without its oldest message, if that is readable. -/
def taken (b : Mailbox α) (now : ℕ) : Mailbox α :=
  if (b.peek now).isSome then { b with entries := b.entries.tail } else b

def reset (b : Mailbox α) : Mailbox α := { b with entries := [] }

@[simp] theorem taken_capacity (b : Mailbox α) (now : ℕ) : (b.taken now).capacity = b.capacity := by
  unfold taken
  split <;> rfl

/-- Publication appends one message. -/
theorem publish_eq_ok {b b' : Mailbox α} {now epoch : ℕ} {value : α}
    (h : b.publish now epoch value = .ok b') :
    b.full = false ∧ ∃ eligible, b' = { b with
      entries := b.entries ++ [{ published := now, eligible, epoch, value }] } := by
  simp only [publish, Except.bind_eq_ok_iff, require_eq_ok_iff, exists_const,
    Except.pure_eq_ok_iff] at h
  obtain ⟨hfull, eligible, -, -, rfl⟩ := h
  exact ⟨hfull, eligible, rfl⟩

/-- A readable message is the oldest one. -/
theorem peek_eq_some {b : Mailbox α} {now : ℕ} {e : Envelope α} (h : b.peek now = some e) :
    ∃ rest, b.entries = e :: rest ∧ (b.taken now).entries = rest := by
  have hhead := h
  rw [peek, Option.filter_eq_some_iff] at hhead
  cases hentries : b.entries with
  | nil => simp [hentries] at hhead
  | cons x rest =>
    rw [hentries, List.head?_cons, Option.some.injEq] at hhead
    obtain ⟨rfl, -⟩ := hhead
    exact ⟨rest, rfl, by simp [taken, h, hentries]⟩

end Mailbox

structure ControlLinks where
  timingEvents : Mailbox TimingEvents
  replies : Mailbox EnqueueReply
  closure : Mailbox EndOfStream
  cpuResults : Mailbox Completion
  fastResults : Mailbox Completion
  fastCredits : Mailbox MeasurementReference
  deriving DecidableEq, Repr

namespace ControlLinks

def make (p : TransportConfig) : Except Fault ControlLinks := do
  let timingEvents ← Mailbox.make 1 p.tcu p.commandLatency
  let replies ← Mailbox.make 1 p.cpu p.replyLatency
  let closure ← Mailbox.make 1 p.tcu p.commandLatency
  let cpuResults ← Mailbox.make p.resultCapacity p.cpu p.cpuResultLatency
  let fastResults ← Mailbox.make p.resultCapacity p.tcu p.fastResultLatency
  let fastCredits ← Mailbox.make p.resultCapacity p.cpu
  pure { timingEvents, replies, closure, cpuResults, fastResults, fastCredits }

def reset (l : ControlLinks) : ControlLinks :=
  { timingEvents := l.timingEvents.reset
    replies := l.replies.reset
    closure := l.closure.reset
    cpuResults := l.cpuResults.reset
    fastResults := l.fastResults.reset
    fastCredits := l.fastCredits.reset }

end ControlLinks
end Qsbit

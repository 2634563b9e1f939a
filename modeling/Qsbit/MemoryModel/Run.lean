import Qsbit.MemoryModel.Step

/-!
# Runs of the memory

Between two edges of the memory its ports and its device may change in any way: the core sends
requests and takes responses, and the device is used by other cores. The requests of one lane
have increasing identities, so that the one a lane has accepted is performed and answered on
one edge only.

## Main definitions

* `MemoryRun` — edges of a memory, one after the other.
* `Served` — what becomes of a request that has been accepted.
* `requests_answered` — every request that is accepted is served.
-/
namespace Qsbit
namespace MemoryModel
variable {δ : Type}

/-! ## One lane -/

/-- An edge as one lane sees it. -/
structure LaneEdge (δ : Type) where
  now : ℕ
  epoch : ℕ
  before : Lane × Bank δ
  after : Lane × Bank δ

namespace LaneEdge

/-- The responses that the edge has given. -/
def responded (e : LaneEdge δ) : List MemoryResponse :=
  (e.after.1.port.responses.entries.drop e.before.1.port.responses.entries.length).map (·.value)

/-- The edge accepts a request. -/
def Accepts (e : LaneEdge δ) (p : Pending) : Prop :=
  e.before.1.pending = none ∧ e.after.1.pending = some p

/-- The request is not performed: it is not due, there is no slot for the response, or it is
refused. -/
structure Waits (d : MemoryDevice δ) (p : Pending) (e : LaneEdge δ) : Prop where
  pending : e.before.1.pending = some p
  lane : e.after.1 = e.before.1
  bank : (¬ (p.completion ≤ e.now ∧ e.before.1.port.responses.full = false) ∧
    e.after.2 = e.before.2) ∨ Refuses d p.request e.now e.epoch e.before.2 e.after.2

/-- The request is performed and answered. -/
structure Answers (d : MemoryDevice δ) (p : Pending) (e : LaneEdge δ) : Prop where
  pending : e.before.1.pending = some p
  completion : p.completion ≤ e.now
  slot : e.before.1.port.responses.full = false
  done : e.after.1.pending = none
  performed : ∃ result, Performs d p.request e.now e.epoch e.before.2 result e.after.2 ∧
    e.responded = [answer p.request result]

/-- What the edge performs and answers has an identity with property `r`. -/
structure Others (d : MemoryDevice δ) (r : ℕ → Prop) (e : LaneEdge δ) : Prop where
  pending : ∀ q ∈ e.before.1.pending, r q.request.id
  responded : ∀ response ∈ e.responded, r response.id
  bank : e.after.2 = e.before.2 ∨ ∃ q ∈ e.before.1.pending,
    Refuses d q.request e.now e.epoch e.before.2 e.after.2 ∨
      ∃ result, Performs d q.request e.now e.epoch e.before.2 result e.after.2

end LaneEdge

/-- A request waits, or it does until one edge performs and answers it. -/
def Served (d : MemoryDevice δ) (p : Pending) (es : List (LaneEdge δ)) : Prop :=
  (∀ x ∈ es, x.Waits d p) ∨ ∃ es₁ e es₂, es = es₁ ++ e :: es₂ ∧ (∀ x ∈ es₁, x.Waits d p) ∧
    e.Answers d p ∧ ∀ x ∈ es₂, x.Others d (p.request.id < ·)

/-- Edges of one lane. Between them its port and the bank may change. -/
inductive LaneRun (d : MemoryDevice δ) (clock : Clock) (latency : ℕ) :
    Lane → List (LaneEdge δ) → Prop
  | nil {lane : Lane} : LaneRun d clock latency lane []
  | cons {lane : Lane} {e : LaneEdge δ} {es : List (LaneEdge δ)}
      (pending : e.before.1.pending = lane.pending) (lastId : e.before.1.lastId = lane.lastId)
      (step : LaneStep d clock latency e.now e.epoch e.before e.after)
      (rest : LaneRun d clock latency e.after.1 es) : LaneRun d clock latency lane (e :: es)

section Lane
variable {d : MemoryDevice δ} {clock : Clock} {latency now epoch : ℕ} {s s' : Lane × Bank δ}
  {lane : Lane} {e : LaneEdge δ} {es es₁ es₂ : List (LaneEdge δ)} {p : Pending}

/-- What an edge does to the identities and to the bank. -/
structure Advances (d : MemoryDevice δ) (e : LaneEdge δ) : Prop where
  lastId : e.before.1.lastId ≤ e.after.1.lastId
  pending : ∀ q ∈ e.after.1.pending,
    q ∈ e.before.1.pending ∨ e.before.1.lastId < q.request.id ∧ q.request.id = e.after.1.lastId
  responded : ∀ response ∈ e.responded, ∃ q ∈ e.before.1.pending, response.id = q.request.id
  bank : e.after.2 = e.before.2 ∨ ∃ q ∈ e.before.1.pending,
    Refuses d q.request e.now e.epoch e.before.2 e.after.2 ∨
      ∃ result, Performs d q.request e.now e.epoch e.before.2 result e.after.2

theorem answer_id (request : MemoryRequest) (result : Except Fault ℕ) :
    (answer request result).id = request.id := by
  cases result <;> rfl

theorem responded_publish {lane lane' : Lane} {b b' : Bank δ} {response : MemoryResponse}
    {responses : Mailbox MemoryResponse}
    (h : lane.port.responses.publish now epoch response = .ok responses)
    (hlane : lane'.port.responses = responses) :
    (LaneEdge.mk now epoch (lane, b) (lane', b')).responded = [response] := by
  obtain ⟨-, eligible, rfl⟩ := Mailbox.publish_eq_ok h
  simp [LaneEdge.responded, hlane]

theorem LaneStep.advances (h : LaneStep d clock latency now epoch s s') :
    Advances d ⟨now, epoch, s, s'⟩ := by
  cases h with
  | vacant free =>
    exact ⟨le_rfl, fun q hq => .inl hq, by simp [LaneEdge.responded], .inl rfl⟩
  | stale free readable old =>
    exact ⟨le_rfl, fun q hq => .inl hq, by simp [LaneEdge.responded], .inl rfl⟩
  | accepted free readable current newer =>
    refine ⟨newer.le, ?_, by simp [LaneEdge.responded], .inl rfl⟩
    intro q hq
    obtain rfl := Option.some.inj hq
    exact .inr ⟨newer, rfl⟩
  | early busy early =>
    exact ⟨le_rfl, fun q hq => .inl hq, by simp [LaneEdge.responded], .inl rfl⟩
  | dropped due old =>
    exact ⟨le_rfl, by simp, by simp [LaneEdge.responded], .inl rfl⟩
  | @refused lane b b' p due current refuses =>
    obtain ⟨hpending, -⟩ := Lane.due_eq_some due
    exact ⟨le_rfl, fun q hq => .inl hq, by simp [LaneEdge.responded],
      .inr ⟨p, hpending, .inl refuses⟩⟩
  | @answered lane b b' p result responses due current performs published =>
    obtain ⟨hpending, -⟩ := Lane.due_eq_some due
    refine ⟨le_rfl, by simp, ?_, .inr ⟨p, hpending, .inr ⟨result, performs⟩⟩⟩
    rw [responded_publish published rfl]
    intro response hresponse
    rw [List.mem_singleton.1 hresponse]
    exact ⟨p, hpending, answer_id _ _⟩

theorem Advances.others {r : ℕ → Prop} (h : Advances d e)
    (hpending : ∀ q ∈ e.before.1.pending, r q.request.id) : e.Others d r where
  pending := hpending
  responded := by
    intro response hresponse
    obtain ⟨q, hq, hid⟩ := h.responded response hresponse
    rw [hid]
    exact hpending q hq
  bank := h.bank

/-- Of a request that is pending only: it waits, or it is answered. -/
theorem LaneStep.of_pending (h : LaneStep d clock latency now epoch s s')
    (hp : s.1.pending = some p) (hepoch : p.epoch = epoch) :
    (LaneEdge.mk now epoch s s').Waits d p ∨ (LaneEdge.mk now epoch s s').Answers d p := by
  cases h with
  | vacant free | stale free readable old | accepted free readable current newer =>
    exact absurd (free.symm.trans hp) (by simp)
  | early busy early => exact .inl ⟨hp, rfl, .inl ⟨Lane.due_eq_none early hp, rfl⟩⟩
  | dropped due old =>
    obtain ⟨hpending, -⟩ := Lane.due_eq_some due
    obtain rfl := Option.some.inj (hp.symm.trans hpending)
    exact absurd hepoch old
  | refused due current refuses =>
    obtain ⟨hpending, -⟩ := Lane.due_eq_some due
    obtain rfl := Option.some.inj (hp.symm.trans hpending)
    exact .inl ⟨hp, rfl, .inr refuses⟩
  | @answered lane b b' q result responses due current performs published =>
    obtain ⟨hpending, hcompletion, hslot⟩ := Lane.due_eq_some due
    obtain rfl := Option.some.inj (hp.symm.trans hpending)
    exact .inr ⟨hp, hcompletion, hslot, rfl, result, performs, responded_publish published rfl⟩

/-- Once a request is no longer pending, only newer ones are. -/
theorem LaneRun.later (run : LaneRun d clock latency lane es) {id : ℕ} (hlast : id ≤ lane.lastId)
    (hpending : ∀ q ∈ lane.pending, id < q.request.id) : ∀ x ∈ es, x.Others d (id < ·) := by
  induction run with
  | nil => simp
  | @cons lane e es pending lastId step rest ih =>
    rw [← lastId] at hlast
    rw [← pending] at hpending
    have hadvances := step.advances
    refine List.forall_mem_cons.2 ⟨hadvances.others hpending, ih (hlast.trans hadvances.lastId) ?_⟩
    intro q hq
    rcases hadvances.pending q hq with hold | ⟨hnewer, -⟩
    · exact hpending q hold
    · exact hlast.trans_lt hnewer

/-- A request that is pending waits or is answered, as long as the epoch is the same. -/
theorem LaneRun.served (run : LaneRun d clock latency lane es) (hp : lane.pending = some p)
    (hlast : p.request.id ≤ lane.lastId) (hepoch : ∀ x ∈ es, x.epoch = p.epoch) :
    Served d p es := by
  induction run with
  | nil => exact .inl (by simp)
  | @cons lane e es pending lastId step rest ih =>
    obtain ⟨he, hrest⟩ := List.forall_mem_cons.1 hepoch
    rw [← pending] at hp
    rw [← lastId] at hlast
    have hmore := hlast.trans step.advances.lastId
    rcases step.of_pending hp he.symm with hwaits | hanswers
    · rcases ih (hwaits.lane ▸ hp) hmore hrest with hall | ⟨es₁, e', es₂, rfl, hbefore, hafter⟩
      · exact .inl (List.forall_mem_cons.2 ⟨hwaits, hall⟩)
      · exact .inr ⟨e :: es₁, e', es₂, rfl, List.forall_mem_cons.2 ⟨hwaits, hbefore⟩, hafter⟩
    · have hdone : e.after.1.pending = none := hanswers.done
      exact .inr ⟨[], e, es, rfl, by simp, hanswers, rest.later hmore (by simp [hdone])⟩

/-- What has been accepted is the request at the head of the port. -/
theorem LaneStep.of_accepts (h : LaneStep d clock latency now epoch s s')
    (hfree : s.1.pending = none) (hp : s'.1.pending = some p) :
    (∃ message, s.1.port.requests.peek now = some message ∧ message.epoch = epoch ∧
      message.value = p.request) ∧ p.completion = now + latency * clock.period ∧
      p.epoch = epoch ∧ s.1.lastId < p.request.id ∧ s'.1.lastId = p.request.id ∧ s'.2 = s.2 := by
  cases h with
  | vacant free | stale free readable old => exact absurd (hp.symm.trans free) (by simp)
  | early busy early => exact absurd (hp.symm.trans hfree) (by simp)
  | dropped due old => simp at hp
  | refused due current refuses => exact absurd (hp.symm.trans hfree) (by simp)
  | answered due current performs published => simp at hp
  | accepted free readable current newer =>
    obtain rfl := Option.some.inj hp
    exact ⟨⟨_, readable, current, rfl⟩, rfl, rfl, newer, rfl, rfl⟩

/-- Before a request is accepted, only older ones are pending. -/
theorem LaneRun.earlier (run : LaneRun d clock latency lane (es₁ ++ e :: es₂))
    (haccepts : e.Accepts p) (hpending : ∀ q ∈ lane.pending, q.request.id ≤ lane.lastId) :
    lane.lastId < p.request.id ∧ ∀ x ∈ es₁, x.Others d (· < p.request.id) := by
  induction es₁ generalizing lane with
  | nil =>
    cases run with
    | cons pending lastId step rest =>
      rw [← lastId]
      exact ⟨(step.of_accepts haccepts.1 haccepts.2).2.2.2.1, by simp⟩
  | cons x es₁ ih =>
    cases run with
    | cons pending lastId step rest =>
      rw [← lastId, ← pending] at hpending
      rw [← lastId]
      have hadvances := step.advances
      have hnext : ∀ q ∈ x.after.1.pending, q.request.id ≤ x.after.1.lastId := by
        intro q hq
        rcases hadvances.pending q hq with hold | ⟨-, hid⟩
        · exact (hpending q hold).trans hadvances.lastId
        · exact hid.le
      obtain ⟨hlater, hothers⟩ := ih rest hnext
      have hlast := hadvances.lastId.trans_lt hlater
      exact ⟨hlast, List.forall_mem_cons.2
        ⟨hadvances.others fun q hq => (hpending q hq).trans_lt hlast, hothers⟩⟩

theorem LaneRun.drop (run : LaneRun d clock latency lane (es₁ ++ e :: es₂)) :
    LaneStep d clock latency e.now e.epoch e.before e.after ∧
      LaneRun d clock latency e.after.1 es₂ := by
  induction es₁ generalizing lane with
  | nil =>
    cases run with
    | cons pending lastId step rest => exact ⟨step, rest⟩
  | cons x es₁ ih =>
    cases run with
    | cons pending lastId step rest => exact ih rest

end Lane

/-! ## Both lanes -/

/-- The memory with other ports and another state of its device. -/
def arrange (m : MemoryModel δ) (fetch data : MemoryPort) (device : δ) : MemoryModel δ :=
  { m with
    fetch := { m.fetch with port := fetch }
    data := { m.data with port := data }
    bank := { m.bank with device } }

end MemoryModel

open MemoryModel

/-- One edge of the memory. -/
structure MemoryEdge (δ : Type) where
  now : ℕ
  epoch : ℕ
  before : MemoryModel δ
  after : MemoryModel δ

namespace MemoryEdge
variable {δ : Type}

/-- The bank after the port for instructions has been served. -/
def middle (d : MemoryDevice δ) (e : MemoryEdge δ) : Bank δ :=
  (stepPort d e.before.clock e.before.latency true e.now e.epoch
    (e.before.fetch, e.before.bank)).state.2

/-- The edge as the port for instructions or the port for data sees it. -/
def lane (d : MemoryDevice δ) (instruction : Bool) (e : MemoryEdge δ) : LaneEdge δ where
  now := e.now
  epoch := e.epoch
  before := if instruction then (e.before.fetch, e.before.bank) else (e.before.data, e.middle d)
  after := if instruction then (e.after.fetch, e.middle d) else (e.after.data, e.after.bank)

end MemoryEdge

/-- Edges of a memory. Between them the ports and the device change at will. -/
inductive MemoryRun {δ : Type} (d : MemoryDevice δ) : MemoryModel δ → List (MemoryEdge δ) → Prop
  | nil {m : MemoryModel δ} : MemoryRun d m []
  | cons {m : MemoryModel δ} {e : MemoryEdge δ} {es : List (MemoryEdge δ)} {l : List TraceEvent}
      (between : ∃ fetch data device, e.before = m.arrange fetch data device)
      (step : (MemoryModel.step d e.now e.epoch).Returns e.before () e.after l)
      (rest : MemoryRun d e.after es) : MemoryRun d m (e :: es)

namespace MemoryModel
variable {δ : Type} {d : MemoryDevice δ} {m m' : MemoryModel δ} {e : MemoryEdge δ}
  {es : List (MemoryEdge δ)} {now epoch : ℕ} {u : Unit} {l : List TraceEvent}

/-- The lane of a port. -/
def lane (m : MemoryModel δ) (instruction : Bool) : Lane := if instruction then m.fetch else m.data

/-- An edge serves one port and then the other. -/
theorem step_returns (h : (step d now epoch).Returns m u m' l) (instruction : Bool) :
    m'.clock = m.clock ∧ m'.latency = m.latency ∧
      LaneStep d m.clock m.latency now epoch ((MemoryEdge.mk now epoch m m').lane d instruction).before
        ((MemoryEdge.mk now epoch m m').lane d instruction).after := by
  simp only [step, Proc.returns_get_bind_iff, Proc.returns_lift_bind_iff, require_eq_ok_iff,
    exists_const] at h
  obtain ⟨-, h⟩ := h
  obtain ⟨_, m₁, l₁, l₂, hfirst, hsecond, -⟩ := Proc.returns_bind_iff.1 h
  obtain ⟨⟨fetch, middle⟩, hfetch, rfl⟩ := Proc.returns_zoom_iff.1 hfirst
  obtain ⟨⟨data, bank⟩, hdata, rfl⟩ := Proc.returns_zoom_iff.1 hsecond
  have hmiddle : (stepPort d m.clock m.latency true now epoch (m.fetch, m.bank)).state.2 = middle :=
    congrArg (fun outcome => outcome.state.2) hfetch
  refine ⟨rfl, rfl, ?_⟩
  cases instruction with
  | true =>
    have hlane := stepPort_returns hfetch
    rw [← hmiddle] at hlane
    exact hlane
  | false =>
    have hlane := stepPort_returns hdata
    rw [← hmiddle] at hlane
    exact hlane

end MemoryModel

namespace MemoryRun
variable {δ : Type} {d : MemoryDevice δ} {m : MemoryModel δ} {es : List (MemoryEdge δ)}

/-- Each port of a memory sees a run of its lane. -/
theorem lane (run : MemoryRun d m es) (instruction : Bool) :
    LaneRun d m.clock m.latency (m.lane instruction) (es.map (·.lane d instruction)) := by
  induction run with
  | nil => exact .nil
  | @cons m e es l between step rest ih =>
    obtain ⟨fetch, data, device, hbefore⟩ := between
    obtain ⟨hclock, hlatency, hstep⟩ := step_returns step instruction
    have hsame : e.before.clock = m.clock ∧ e.before.latency = m.latency := by
      rw [hbefore]
      exact ⟨rfl, rfl⟩
    have hpending : (e.lane d instruction).before.1.pending = (m.lane instruction).pending ∧
        (e.lane d instruction).before.1.lastId = (m.lane instruction).lastId := by
      cases instruction
      · change e.before.data.pending = _ ∧ e.before.data.lastId = _
        rw [hbefore]
        exact ⟨rfl, rfl⟩
      · change e.before.fetch.pending = _ ∧ e.before.fetch.lastId = _
        rw [hbefore]
        exact ⟨rfl, rfl⟩
    rw [hclock, hlatency, hsame.1, hsame.2] at ih
    rw [hsame.1, hsame.2] at hstep
    have hafter : (e.lane d instruction).after.1 = e.after.lane instruction := by
      cases instruction <;> rfl
    rw [← hafter] at ih
    exact .cons hpending.1 hpending.2 hstep ih

/-- A request that is accepted by a memory that has started idle. -/
structure Accepted (d : MemoryDevice δ) (cycles : ℕ) (es₁ : List (LaneEdge δ)) (e : LaneEdge δ)
    (p : Pending) (es₂ : List (LaneEdge δ)) : Prop where
  request : ∃ message, e.before.1.port.requests.peek e.now = some message ∧
    message.epoch = e.epoch ∧ message.value = p.request
  completion : p.completion = e.now + cycles
  bank : e.after.2 = e.before.2
  before : ∀ x ∈ es₁, x.Others d (· < p.request.id)
  served : (∀ x ∈ es₂, x.epoch = e.epoch) → Served d p es₂

theorem accepted (run : MemoryRun d m es) (start : m.idle = true) {instruction : Bool}
    {es₁ es₂ : List (LaneEdge δ)} {e : LaneEdge δ} {p : Pending}
    (split : es.map (·.lane d instruction) = es₁ ++ e :: es₂) (accepts : e.Accepts p) :
    Accepted d (m.latency * m.clock.period) es₁ e p es₂ := by
  have hlane := run.lane instruction
  rw [split] at hlane
  have hidle : (m.lane instruction).pending = none := by
    rw [idle, Bool.and_eq_true, Option.isNone_iff_eq_none, Option.isNone_iff_eq_none] at start
    cases instruction
    · exact start.2
    · exact start.1
  obtain ⟨hstep, hrest⟩ := hlane.drop
  obtain ⟨hrequest, hcompletion, hepoch, -, hlast, hbank⟩ := hstep.of_accepts accepts.1 accepts.2
  refine ⟨hrequest, hcompletion, hbank, (hlane.earlier accepts (by simp [hidle])).2, ?_⟩
  intro hsame
  refine hrest.served accepts.2 hlast.ge ?_
  rw [hepoch]
  exact hsame

end MemoryRun
end Qsbit

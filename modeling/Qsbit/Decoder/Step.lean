import Qsbit.Decoder

/-!
# What the operations of the decoders do

One lemma for each operation says what it has done when it returns. What matters of
the decoders to one session is its entry in the map, its queued requests and its
job; the operations of other sessions leave these alone.
-/
namespace Qsbit
open Std (ExtTreeMap)

namespace DecoderSystem

/-! ## Sessions -/

section Sessions
variable {s : DecoderSystem} {key key' : ℕ × ℕ} {x : Session}

@[simp] theorem session_setSession :
    (s.setSession key x).session key' = if key = key' then x else s.session key' := by
  simp only [session, setSession, ExtTreeMap.getElem?_insert, order_eq_iff]
  split <;> simp

@[simp] theorem session_openSession : (s.openSession key).session key' = s.session key' := by
  rw [openSession, session_setSession]
  split
  · rename_i h
    rw [h]
  · rfl

/-- The request is one of the session. -/
def Request.of (p : Request) (key : ℕ × ℕ) : Bool := p.core = key.1 ∧ p.decoder = key.2

def Job.of (j : Job) (key : ℕ × ℕ) : Bool := j.core = key.1 ∧ j.decoder = key.2

theorem Request.of_iff {p : Request} : p.of key = true ↔ (p.core, p.decoder) = key := by
  simp [Request.of, Prod.ext_iff]

theorem Job.of_iff {j : Job} : j.of key = true ↔ (j.core, j.decoder) = key := by
  simp [Job.of, Prod.ext_iff]

@[simp] theorem Request.of_transmit {p : Request} {now : ℕ} : (p.transmit now).of key = p.of key := by
  unfold Request.transmit
  split <;> rfl

end Sessions

/-! ## Accesses -/

section Access
variable {s s' : DecoderSystem} {core now epoch : ℕ} {reply : Option ℕ} {l : List TraceEvent}

theorem le_of_linkDuration {config : DecoderSystemConfig} {payload duration : ℕ}
    (h : linkDuration config payload = .ok duration) : 0 < duration := by
  simp only [linkDuration, Except.bind_eq_ok_iff, Except.pure_eq_ok_iff] at h
  obtain ⟨bytes, -, rfl⟩ := h
  omega

theorem returns_event_iff {kind : TraceKind} {id target tag : ℕ} {u : Unit} :
    (event now epoch kind id core target tag).Returns s u s' l ↔
      s = s' ∧ l = [s.record now epoch kind id core target tag] := by
  simp only [event, Proc.returns_get_bind_iff, Proc.returns_emit_iff]
  constructor
  · rintro ⟨rfl, rfl⟩
    exact ⟨rfl, rfl⟩
  · rintro ⟨rfl, rfl⟩
    exact ⟨rfl, rfl⟩

/-- What a packet that is sent looks like. -/
structure Sends (s : DecoderSystem) (core : ℕ) (submission : DecoderSubmit) (now : ℕ)
    (packet : Request) (last : ℕ) : Prop where
  id : packet.id = s.next
  core : packet.core = core
  decoder : packet.decoder = submission.decoder
  count : packet.count = submission.count
  data : packet.data = submission.data
  fresh : packet.transmitted = false
  sent : packet.sent = max now s.txAvailable
  transmission : packet.sent < last
  duration : linkDuration s.config ((submission.count + 7) / 8) = .ok (last - packet.sent)
  arrival : packet.arrival = last + s.config.linkLatency

theorem send_returns {reset : Bool} {submission : DecoderSubmit}
    (h : (send core reset submission now epoch).Returns s reply s' l) :
    (reply = none ∧ s' = s ∧ l = []) ∨ ∃ packet last, reply = some 0 ∧
      Sends s core submission now packet last ∧ s.full reset = false ∧
      s' = { s.enqueue reset packet with next := s.next + 1, txAvailable := last } ∧
      l = [s'.record now epoch .decoderRequestSubmitted s.next core submission.decoder
        submission.tag] := by
  rw [send, Proc.returns_get_bind_iff] at h
  split at h
  · obtain ⟨rfl, rfl, rfl⟩ := Proc.returns_pure_iff.1 h
    exact .inl ⟨rfl, rfl, rfl⟩
  · rename_i hroom
    simp only [Proc.returns_lift_bind_iff, require_eq_ok_iff, exists_const,
      Proc.returns_modify_bind_iff] at h
    obtain ⟨duration, hduration, last, hlast, arrival, harrival, -, h⟩ := h
    obtain ⟨_, s₁, l₁, l₂, hevent, hpure, rfl⟩ := Proc.returns_bind_iff.1 h
    obtain ⟨rfl, rfl⟩ := returns_event_iff.1 hevent
    obtain ⟨rfl, rfl, rfl⟩ := Proc.returns_pure_iff.1 hpure
    have hpos := le_of_linkDuration hduration
    have hend := eq_of_checkedAdd hlast
    have hsent : max now s.txAvailable < last := by omega
    have hlength : last - max now s.txAvailable = duration := by omega
    exact .inr ⟨_, last, rfl, ⟨rfl, rfl, rfl, rfl, rfl, rfl, rfl, hsent, hlength ▸ hduration,
      eq_of_checkedAdd harrival⟩, by simpa using hroom, rfl, by simp⟩

theorem consume_returns {decoder : ℕ} (h : (consume core decoder now epoch).Returns s reply s' l) :
    ((s.session (core, decoder)).result.isSome ∧ (s.session (core, decoder)).submitted = false ∧
      (s.session (core, decoder)).measurements = []) ∧
      s' = (s.openSession (core, decoder)).setSession (core, decoder) {} ∧
      l = [s'.record now epoch .decoderResultConsumed 0 core decoder] := by
  simp only [consume, Proc.returns_modify_bind_iff, Proc.returns_get_bind_iff,
    Proc.returns_lift_bind_iff, require_eq_ok_iff, exists_const, session_openSession] at h
  obtain ⟨hready, h⟩ := h
  obtain ⟨_, s₁, l₁, l₂, hevent, hpure, rfl⟩ := Proc.returns_bind_iff.1 h
  obtain ⟨rfl, rfl⟩ := returns_event_iff.1 hevent
  obtain ⟨-, rfl, rfl⟩ := Proc.returns_pure_iff.1 hpure
  exact ⟨hready, rfl, by simp⟩

/-- A read opens the session, and yields the words of its result. -/
theorem read_returns {decoder : ℕ} {kind : DecoderReadKind}
    (h : (read core decoder kind).Returns s reply s' l) :
    (s' = s ∨ s' = s.openSession (core, decoder)) ∧ l = [] ∧
      (kind = .low ∨ kind = .high → ∃ result, (s.session (core, decoder)).result = some result ∧
        reply = some ((result >>> if kind = .low then 0 else 32) % 2 ^ 32)) := by
  rw [read, Proc.returns_get_bind_iff] at h
  cases kind with
  | count =>
    simp only [Proc.returns_lift_bind_iff] at h
    obtain ⟨d, -, h⟩ := h
    obtain ⟨-, rfl, rfl⟩ := Proc.returns_pure_iff.1 h
    exact ⟨.inl rfl, rfl, by simp⟩
  | status =>
    simp only [Proc.returns_modify_bind_iff] at h
    obtain ⟨-, rfl, rfl⟩ := Proc.returns_pure_iff.1 h
    exact ⟨.inr rfl, rfl, by simp⟩
  | low | high =>
    simp only [Proc.returns_modify_bind_iff] at h
    cases hresult : (s.session (core, decoder)).result with
    | none => simp [hresult] at h
    | some result =>
      rw [hresult] at h
      obtain ⟨rfl, rfl, rfl⟩ := Proc.returns_pure_iff.1 h
      exact ⟨.inr rfl, rfl, fun _ => ⟨result, rfl, rfl⟩⟩

end Access

/-! ## Steps -/

section Steps
variable {s s' : DecoderSystem} {now epoch : ℕ} {u : Unit} {l : List TraceEvent}

theorem returns_eventIf_iff {c : Prop} [Decidable c] {kind : TraceKind} {id core target : ℕ} :
    (if c then event now epoch kind id core target else pure ()).Returns s u s' l ↔
      s = s' ∧ l = if c then [s.record now epoch kind id core target] else [] := by
  split
  · exact returns_event_iff
  · rw [Proc.returns_pure_iff]
    constructor
    · rintro ⟨-, rfl, rfl⟩
      exact ⟨rfl, rfl⟩
    · rintro ⟨rfl, rfl⟩
      exact ⟨rfl, rfl, rfl⟩

theorem advanceTransmission_returns (h : (advanceTransmission now epoch).Returns s u s' l) :
    (∃ p, s.resetRequest = some p ∧ p.arrival ≤ now ∧ s' = (s.transmitAll now).cancel p ∧
        l = s.requestsSent now epoch ++
          [s'.record now epoch .decoderReset p.id p.core p.decoder p.tag]) ∨
      ((∀ p ∈ s.resetRequest, now < p.arrival) ∧ s' = s.transmitAll now ∧
        l = s.requestsSent now epoch) := by
  rw [advanceTransmission, Proc.returns_get_bind_iff] at h
  obtain ⟨_, s₀, l₁, l₂, hemit, hrest, rfl⟩ := Proc.returns_bind_iff.1 h
  obtain ⟨rfl, rfl⟩ := Proc.returns_emitAll_iff.1 hemit
  rw [Proc.returns_modify_bind_iff] at hrest
  cases hreset : s.resetRequest with
  | none =>
    rw [hreset, Proc.forSome_none] at hrest
    obtain ⟨-, rfl, rfl⟩ := Proc.returns_pure_iff.1 hrest
    exact .inr ⟨by simp, rfl, List.append_nil _⟩
  | some p =>
    rw [hreset, Proc.forSome_some] at hrest
    by_cases harrival : p.arrival ≤ now
    · rw [if_pos harrival, Proc.returns_modify_bind_iff, returns_event_iff] at hrest
      obtain ⟨rfl, rfl⟩ := hrest
      exact .inl ⟨p, rfl, harrival, rfl, rfl⟩
    · rw [if_neg harrival] at hrest
      obtain ⟨-, rfl, rfl⟩ := Proc.returns_pure_iff.1 hrest
      refine .inr ⟨?_, rfl, List.append_nil _⟩
      intro q hq
      obtain rfl := Option.some.inj hq
      omega

/-- The records of a job that starts or completes. -/
def jobRecords (s : DecoderSystem) (now epoch : ℕ) (j : Job) : List TraceEvent :=
  (if j.started = false ∧ j.start ≤ now then
    [s.record now epoch .decoderStarted j.id j.core j.decoder] else []) ++
  if j.completed = false ∧ j.completion ≤ now then
    [s.record now epoch .decoderCompleted j.id j.core j.decoder] else []

/-- The state once the result of a job has been added to its session. -/
def returned (s : DecoderSystem) (j : Job) : DecoderSystem :=
  s.setSession (j.core, j.decoder)
    { s.session (j.core, j.decoder) with
      result := some ((s.session (j.core, j.decoder)).result.getD 0 ^^^ j.result)
      submitted := false }

theorem advanceJob_returns {j : Job} {j' : Option Job}
    (h : (advanceJob now epoch j).Returns s j' s' l) :
    (j.arrived now = false ∧ j' = some (j.advance now) ∧ s' = s ∧ l = s.jobRecords now epoch j) ∨
      (j.arrived now = true ∧ j' = none ∧ s' = s.returned j ∧ l = s.jobRecords now epoch j ++
        [s'.record now epoch .decoderResultReturned j.id j.core j.decoder]) := by
  obtain ⟨_, s₁, l₁, k₁, hstarted, h₁, rfl⟩ := Proc.returns_bind_iff.1 h
  obtain ⟨rfl, rfl⟩ := returns_eventIf_iff.1 hstarted
  obtain ⟨_, s₂, l₂, k₂, hcompleted, h₂, rfl⟩ := Proc.returns_bind_iff.1 h₁
  obtain ⟨rfl, rfl⟩ := returns_eventIf_iff.1 hcompleted
  rw [← List.append_assoc]
  cases harrived : j.arrived now with
  | false =>
    rw [harrived, if_neg (by simp)] at h₂
    obtain ⟨rfl, rfl, rfl⟩ := Proc.returns_pure_iff.1 h₂
    exact .inl ⟨rfl, rfl, rfl, List.append_nil _⟩
  | true =>
    rw [harrived, if_pos rfl] at h₂
    obtain ⟨_, s₃, l₃, k₃, hreturn, hpure, rfl⟩ := Proc.returns_bind_iff.1 h₂
    obtain ⟨rfl, rfl, rfl⟩ := Proc.returns_pure_iff.1 hpure
    rw [returnResult, Proc.returns_get_bind_iff] at hreturn
    cases hsession : s.sessions[(j.core, j.decoder)]? with
    | none => simp [hsession] at hreturn
    | some session =>
      have heq : s.session (j.core, j.decoder) = session := by simp [DecoderSystem.session, hsession]
      simp only [hsession, Proc.returns_modify_bind_iff, returns_event_iff] at hreturn
      obtain ⟨rfl, rfl⟩ := hreturn
      refine .inr ⟨rfl, rfl, ?_, by simp [jobRecords]⟩
      rw [returned, heq]

/-- What advancing the jobs one after the other does, from what advancing one job does. -/
theorem advanceFrom_induction {P : DecoderSystem → List TraceEvent → Prop} {kept jobs : List Job}
    (h : (advanceFrom now epoch kept jobs).Returns s u s' l) (hjobs : s.jobs = kept ++ jobs)
    (before : List TraceEvent) (hs : P s before)
    (hstep : ∀ kept j rest s s' j' before k, s.jobs = kept ++ j :: rest → P s before →
      (advanceJob now epoch j).Returns s j' s' k →
      P { s' with jobs := kept ++ j'.toList ++ rest } (before ++ k)) :
    P s' (before ++ l) ∧
      s'.jobs = kept ++ (jobs.filter fun j => ¬ j.arrived now).map (·.advance now) := by
  induction jobs generalizing kept s l before with
  | nil =>
    obtain ⟨-, rfl, rfl⟩ := Proc.returns_pure_iff.1 h
    exact ⟨by simpa using hs, by simpa using hjobs⟩
  | cons j rest ih =>
    obtain ⟨j', s₁, l₁, l₂, hj, hrest, rfl⟩ := Proc.returns_bind_iff.1 h
    rw [Proc.returns_modify_bind_iff] at hrest
    have hnext := hstep kept j rest s s₁ j' before l₁ hjobs hs hj
    obtain ⟨hP, hkept⟩ := ih hrest rfl _ hnext
    rw [← List.append_assoc]
    refine ⟨hP, hkept.trans ?_⟩
    rcases advanceJob_returns hj with ⟨harrived, rfl, -, -⟩ | ⟨harrived, rfl, -, -⟩
    · simp [harrived]
    · simp [harrived]

@[simp] theorem openSession_openSession {key : ℕ × ℕ} :
    (s.openSession key).openSession key = s.openSession key := by
  unfold openSession
  rw [session_setSession, if_pos rfl]
  simp only [setSession, DecoderSystem.mk.injEq, and_true, true_and]
  apply ExtTreeMap.ext_getElem?
  intro k
  simp only [ExtTreeMap.getElem?_insert]
  split <;> rfl

/-- The request waits at the head of the queue. -/
structure Blocked (s : DecoderSystem) (p : Request) (d : DecoderConfig) : Prop where
  decoder : s.decoder p.decoder = .ok d
  opened : s.openSession (p.core, p.decoder) = s
  waits : (s.session (p.core, p.decoder)).submitted = true ∨
    (s.session (p.core, p.decoder)).measurements.length + p.count = d.measurements ∧
      (s.session (p.core, p.decoder)).result = none ∧ s.config.resultCapacity ≤ s.reserved

/-- When the job of a window that is completed on a tick runs. -/
structure Schedules (now : ℕ) (d : DecoderConfig) (s s' : DecoderSystem) (start completion : ℕ) :
    Prop where
  earliest : start = max (now + 1) (s.available[d.id]?.getD 0)
  latency : completion = start + d.latency
  available : s'.available = s.available.insert d.id (start + d.initiationInterval)

/-- What the admission of a request does to its session and to the jobs. -/
structure Admits (now : ℕ) (d : DecoderConfig) (p : Request) (window : List Bool)
    (s s' : DecoderSystem) : Prop where
  idle : (s.session (p.core, p.decoder)).submitted = false
  appended : window = (s.session (p.core, p.decoder)).measurements ++ p.bits
  fits : window.length ≤ d.measurements
  other : ∀ key, (p.core, p.decoder) ≠ key → s'.session key = s.session key
  rest : ∃ sessions available jobs, s' = { s with sessions, available, jobs }
  room : window.length = d.measurements → (s.session (p.core, p.decoder)).result = none →
    (s.openSession (p.core, p.decoder)).reserved < s.config.resultCapacity
  outcome : (window.length < d.measurements ∧ s'.jobs = s.jobs ∧ s'.available = s.available ∧
      s'.session (p.core, p.decoder) =
        { s.session (p.core, p.decoder) with measurements := window }) ∨
    (window.length = d.measurements ∧ s'.session (p.core, p.decoder) =
        { s.session (p.core, p.decoder) with measurements := [], submitted := true } ∧
      ∃ result start completion, d.decode window = .ok result ∧
        Schedules now d s s' start completion ∧ s'.jobs = s.jobs ++
          [{ id := p.id, core := p.core, decoder := p.decoder, start, completion
             result := ofBits result }])

@[simp] theorem Request.length_bits {p : Request} : p.bits.length = p.count := by
  simp [Request.bits]

theorem decodeWindow_returns {d : DecoderConfig} {p : Request} {window : List Bool}
    (h : (decodeWindow now d p window).Returns s u s' l) :
    l = [] ∧ ∃ result start completion, d.decode window = .ok result ∧
      start = max (now + 1) (s.available[d.id]?.getD 0) ∧ completion = start + d.latency ∧
      s' = setSession (p.core, p.decoder)
        { s.session (p.core, p.decoder) with submitted := true, measurements := [] }
        { s with
          available := s.available.insert d.id (start + d.initiationInterval)
          jobs := s.jobs ++ [
            { id := p.id, core := p.core, decoder := p.decoder, start, completion
              result := ofBits result }] } := by
  simp only [decodeWindow, Proc.returns_get_bind_iff, Proc.returns_lift_bind_iff, require_eq_ok_iff,
    exists_const, Proc.returns_modify_bind_iff, Proc.returns_modify_iff] at h
  obtain ⟨result, hresult, -, earliest, hearliest, available, havailable, completion, hcompletion,
    rfl, rfl⟩ := h
  obtain rfl := eq_of_checkedAdd hearliest
  obtain rfl := eq_of_checkedAdd havailable
  exact ⟨rfl, result, _, completion, hresult, rfl, eq_of_checkedAdd hcompletion, rfl⟩

theorem admitRequest_returns {p : Request} {admitted : Bool}
    (h : (admitRequest now epoch p).Returns s admitted s' l) :
    ∃ d, s.decoder p.decoder = .ok d ∧
      ((admitted = false ∧ s' = s.openSession (p.core, p.decoder) ∧ Blocked s' p d ∧ l = []) ∨
        (admitted = true ∧ (∃ window, Admits now d p window s s') ∧ ∃ r, l = [r] ∧
          r.kind = .decoderRequestArrived)) := by
  simp only [admitRequest, Proc.returns_get_bind_iff, Proc.returns_lift_bind_iff,
    Proc.returns_modify_bind_iff, session_openSession] at h
  obtain ⟨d, hd, h⟩ := h
  refine ⟨d, hd, ?_⟩
  by_cases hsubmitted : (s.session (p.core, p.decoder)).submitted = true
  · rw [if_pos hsubmitted] at h
    obtain ⟨rfl, rfl, rfl⟩ := Proc.returns_pure_iff.1 h
    exact .inl ⟨rfl, rfl, ⟨hd, openSession_openSession, .inl (by simpa using hsubmitted)⟩, rfl⟩
  rw [if_neg hsubmitted] at h
  simp only [Proc.returns_lift_bind_iff, require_eq_ok_iff, exists_const] at h
  obtain ⟨hfits, h⟩ := h
  by_cases hfull : (s.session (p.core, p.decoder)).measurements.length + p.count = d.measurements ∧
      (s.session (p.core, p.decoder)).result = none ∧
        (s.openSession (p.core, p.decoder)).config.resultCapacity ≤
          (s.openSession (p.core, p.decoder)).reserved
  · rw [if_pos hfull] at h
    obtain ⟨rfl, rfl, rfl⟩ := Proc.returns_pure_iff.1 h
    exact .inl ⟨rfl, rfl, ⟨hd, openSession_openSession, .inr (by simpa using hfull)⟩, rfl⟩
  rw [if_neg hfull, Proc.returns_modify_bind_iff] at h
  obtain ⟨_, s₁, l₁, k₁, hevent, h₁, rfl⟩ := Proc.returns_bind_iff.1 h
  obtain ⟨rfl, rfl⟩ := returns_event_iff.1 hevent
  obtain ⟨_, s₂, l₂, k₂, hdecode, hpure, rfl⟩ := Proc.returns_bind_iff.1 h₁
  obtain ⟨rfl, rfl, rfl⟩ := Proc.returns_pure_iff.1 hpure
  have hidle : (s.session (p.core, p.decoder)).submitted = false := by simpa using hsubmitted
  have hlength : ((s.session (p.core, p.decoder)).measurements ++ p.bits).length =
      (s.session (p.core, p.decoder)).measurements.length + p.count := by simp
  by_cases hwindow : ((s.session (p.core, p.decoder)).measurements ++ p.bits).length = d.measurements
  · rw [if_pos hwindow] at hdecode
    obtain ⟨rfl, result, start, completion, hresult, hstart, hcompletion, rfl⟩ :=
      decodeWindow_returns hdecode
    refine .inr ⟨rfl, ⟨_, hidle, rfl, hwindow.le, ?_, ⟨_, _, _, rfl⟩, fun hfits hnone => ?_,
      .inr ⟨hwindow, ?_, result, start, completion, hresult, ⟨hstart, hcompletion, rfl⟩, rfl⟩⟩, _,
      rfl, rfl⟩
    · intro key hkey
      rw [session_setSession, if_neg hkey]
      change ((s.openSession _).setSession _ _).session key = _
      rw [session_setSession, if_neg hkey, session_openSession]
    · by_contra hcapacity
      exact hfull ⟨hlength ▸ hfits, hnone, not_lt.1 hcapacity⟩
    · rw [session_setSession, if_pos rfl, session_setSession, if_pos rfl]
  · rw [if_neg hwindow] at hdecode
    obtain ⟨-, rfl, rfl⟩ := Proc.returns_pure_iff.1 hdecode
    refine .inr ⟨rfl, ⟨_, hidle, rfl, by omega, ?_, ⟨_, _, _, rfl⟩, fun hfits => absurd hfits hwindow,
      .inl ⟨by omega, rfl, rfl, ?_⟩⟩, _, rfl, rfl⟩
    · intro key hkey
      rw [session_setSession, if_neg hkey, session_openSession]
    · rw [session_setSession, if_pos rfl]

/-- What admitting requests one after the other does, from what admitting one request does. The
request that is then at the head has not arrived, or waits. -/
theorem admitFrom_induction {P : DecoderSystem → List TraceEvent → Prop} {requests : List Request}
    (h : (admitFrom now epoch requests).Returns s u s' l) (hrequests : s.requests = requests)
    (before : List TraceEvent) (hs : P s before)
    (hopen : ∀ s before key, P s before → P (s.openSession key) before)
    (hstep : ∀ p rest s s' before k, s.requests = p :: rest → p.arrival ≤ now → P s before →
      (admitRequest now epoch p).Returns s true s' k → P { s' with requests := rest } (before ++ k)) :
    P s' (before ++ l) ∧
      ∀ p rest, s'.requests = p :: rest → p.arrival ≤ now → ∃ d, Blocked s' p d := by
  induction requests generalizing s l before with
  | nil =>
    obtain ⟨-, rfl, rfl⟩ := Proc.returns_pure_iff.1 h
    exact ⟨by simpa using hs, by simp [hrequests]⟩
  | cons p rest ih =>
    rw [admitFrom] at h
    by_cases harrival : p.arrival ≤ now
    · rw [if_pos harrival] at h
      obtain ⟨admitted, s₁, l₁, l₂, hadmission, h₁, rfl⟩ := Proc.returns_bind_iff.1 h
      cases admitted with
      | true =>
        rw [if_pos rfl, Proc.returns_modify_bind_iff] at h₁
        rw [← List.append_assoc]
        exact ih h₁ rfl _ (hstep p rest s s₁ before l₁ hrequests harrival hs hadmission)
      | false =>
        rw [if_neg (by simp)] at h₁
        obtain ⟨-, rfl, rfl⟩ := Proc.returns_pure_iff.1 h₁
        obtain ⟨d, -, ⟨-, rfl, hblocked, rfl⟩ | ⟨hfalse, -⟩⟩ := admitRequest_returns hadmission
        · refine ⟨by simpa using hopen s before _ hs, ?_⟩
          intro q rest' hq hle
          obtain ⟨rfl, -⟩ := List.cons.inj (hrequests.symm.trans hq)
          exact ⟨d, hblocked⟩
        · simp at hfalse
    · rw [if_neg harrival] at h
      obtain ⟨-, rfl, rfl⟩ := Proc.returns_pure_iff.1 h
      refine ⟨by simpa using hs, ?_⟩
      intro q rest' hq hle
      obtain ⟨rfl, -⟩ := List.cons.inj (hrequests.symm.trans hq)
      exact absurd hle harrival

/-- The transmission of the result of a job occupies the link up to `last`. -/
structure Transmits (s : DecoderSystem) (now : ℕ) (ready : Job) (last arrival : ℕ) : Prop where
  free : s.rxAvailable ≤ now
  first : readyJob s.jobs = some ready
  duration : ∃ d, s.decoder ready.decoder = .ok d ∧
    linkDuration s.config ((d.outputs + 7) / 8) = .ok (last - now)
  transmission : now < last
  arrival : arrival = last + s.config.linkLatency

/-- Nothing is transmitted, or the result of a ready job. -/
theorem transmitResult_returns (h : (transmitResult now).Returns s u s' l) :
    l = [] ∧ ((s' = s ∧ (s.rxAvailable ≤ now → readyJob s.jobs = none)) ∨
      ∃ ready last arrival, Transmits s now ready last arrival ∧ s' =
          { s with
            jobs := s.jobs.map fun j =>
              if j.id = ready.id then { j with arrival := some arrival } else j
            rxAvailable := last }) := by
  rw [transmitResult, Proc.returns_get_bind_iff] at h
  by_cases hfree : s.rxAvailable ≤ now
  · rw [if_pos hfree] at h
    cases hready : readyJob s.jobs with
    | none =>
      rw [hready, Proc.forSome_none] at h
      obtain ⟨-, rfl, rfl⟩ := Proc.returns_pure_iff.1 h
      exact ⟨rfl, .inl ⟨rfl, fun _ => rfl⟩⟩
    | some ready =>
      simp only [hready, Proc.forSome_some, Proc.returns_lift_bind_iff,
        Proc.returns_modify_iff] at h
      obtain ⟨d, hd, duration, hduration, last, hlast, arrival, harrival, rfl, rfl⟩ := h
      have hpos := le_of_linkDuration hduration
      obtain rfl := eq_of_checkedAdd hlast
      have hlength : now + duration - now = duration := by omega
      exact ⟨rfl, .inr ⟨ready, _, arrival, ⟨hfree, hready, ⟨d, hd, hlength.symm ▸ hduration⟩,
        by omega, eq_of_checkedAdd harrival⟩, rfl⟩⟩
  · rw [if_neg hfree] at h
    obtain ⟨-, rfl, rfl⟩ := Proc.returns_pure_iff.1 h
    exact ⟨rfl, .inl ⟨rfl, fun hle => absurd hle hfree⟩⟩

theorem mem_of_readyJob {jobs : List Job} {ready : Job} (h : readyJob jobs = some ready) :
    ready ∈ jobs ∧ ready.ready = true := by
  have hall : ∀ (rest : List Job) (start : Option Job),
      rest.foldl firstReady start = some ready →
        start = some ready ∨ ready ∈ rest ∧ ready.ready = true := by
    intro rest
    induction rest with
    | nil => exact fun start hstart => .inl hstart
    | cons j rest ih =>
      intro start hstart
      rcases ih _ hstart with hj | ⟨hmem, hready⟩
      · unfold firstReady at hj
        split at hj
        · rename_i hcond
          obtain rfl := Option.some.inj hj
          exact .inr ⟨List.mem_cons_self, hcond.1⟩
        · exact .inl hj
      · exact .inr ⟨List.mem_cons_of_mem _ hmem, hready⟩
  rcases hall jobs none h with hnone | hmem
  · simp at hnone
  · exact hmem

theorem readyJob_eq_none_iff {jobs : List Job} :
    readyJob jobs = none ↔ ∀ j ∈ jobs, j.ready = false := by
  have hall : ∀ (rest : List Job) (start : Option Job),
      rest.foldl firstReady start = none ↔ start = none ∧ ∀ j ∈ rest, j.ready = false := by
    intro rest
    induction rest with
    | nil => simp
    | cons j rest ih =>
      intro start
      rw [List.foldl_cons, ih, List.forall_mem_cons]
      cases start with
      | none => cases hj : j.ready <;> simp [firstReady, hj]
      | some r =>
        unfold firstReady
        split <;> simp
  rw [readyJob, hall]
  simp

theorem step_returns (h : (step now epoch).Returns s u s' l) :
    ∃ s₁ s₂ s₃ l₁ l₂ l₃, (advanceTransmission now epoch).Returns s () s₁ l₁ ∧
      (advanceFrom now epoch [] s₁.jobs).Returns s₁ () s₂ l₂ ∧
      (admitFrom now epoch s₂.requests).Returns s₂ () s₃ l₃ ∧
      (transmitResult now).Returns s₃ () s' [] ∧ l = l₁ ++ l₂ ++ l₃ := by
  obtain ⟨_, s₁, l₁, k₁, h₁, hrest₁, rfl⟩ := Proc.returns_bind_iff.1 h
  obtain ⟨_, s₂, l₂, k₂, h₂, hrest₂, rfl⟩ := Proc.returns_bind_iff.1 hrest₁
  obtain ⟨_, s₃, l₃, k₃, h₃, h₄, rfl⟩ := Proc.returns_bind_iff.1 hrest₂
  obtain ⟨rfl, -⟩ := transmitResult_returns h₄
  rw [advanceJobs, Proc.returns_get_bind_iff] at h₂
  rw [admitRequests, Proc.returns_get_bind_iff] at h₃
  exact ⟨s₁, s₂, s₃, l₁, l₂, l₃, h₁, h₂, h₃, h₄, by simp⟩

end Steps
end DecoderSystem
end Qsbit

import Qsbit.MemoryModel

/-!
# What an edge of the memory does

An edge does one thing to a lane: it accepts a request, drops one of an earlier epoch, tries
the one that is due, or leaves the lane as it is.

## Main definitions

* `LaneStep` — what an edge can do to a lane.
* `stepPort_returns` — every edge that returns does one of these.
-/
namespace Qsbit
namespace MemoryModel
variable {δ : Type} {d : MemoryDevice δ} {clock : Clock} {latency now epoch : ℕ} {instruction : Bool}

/-- The response with the value or the fault of an access. -/
def answer (request : MemoryRequest) : Except Fault ℕ → MemoryResponse
  | .ok value => { id := request.id, value }
  | .error fault => { id := request.id, fault := some fault.code }

/-- An access is performed and is not refused. -/
inductive Performs (d : MemoryDevice δ) (request : MemoryRequest) (now epoch : ℕ) (b : Bank δ) :
    Except Fault ℕ → Bank δ → Prop
  | value {value : ℕ} {b' : Bank δ} {l : List TraceEvent}
      (h : (perform d request now epoch).Returns b (some value) b' l) :
      Performs d request now epoch b (.ok value) b'
  | fault {fault : Fault} {b' : Bank δ} {l : List TraceEvent}
      (h : (perform d request now epoch).Raises b fault b' l) :
      Performs d request now epoch b (.error fault) b'

/-- An access is refused. -/
def Refuses (d : MemoryDevice δ) (request : MemoryRequest) (now epoch : ℕ) (b b' : Bank δ) : Prop :=
  ∃ l, (perform d request now epoch).Returns b none b' l

/-- What an edge does to a lane. -/
inductive LaneStep (d : MemoryDevice δ) (clock : Clock) (latency now epoch : ℕ) :
    Lane × Bank δ → Lane × Bank δ → Prop
  | vacant {lane : Lane} {b : Bank δ} (free : lane.pending = none) :
      LaneStep d clock latency now epoch (lane, b) (lane, b)
  | stale {lane : Lane} {b : Bank δ} {message : Mailbox.Envelope MemoryRequest}
      (free : lane.pending = none) (readable : lane.port.requests.peek now = some message)
      (old : message.epoch ≠ epoch) :
      LaneStep d clock latency now epoch (lane, b)
        ({ lane with port := { lane.port with requests := lane.port.requests.taken now } }, b)
  | accepted {lane : Lane} {b : Bank δ} {message : Mailbox.Envelope MemoryRequest}
      (free : lane.pending = none) (readable : lane.port.requests.peek now = some message)
      (current : message.epoch = epoch) (newer : lane.lastId < message.value.id) :
      LaneStep d clock latency now epoch (lane, b)
        ({ port := { lane.port with requests := lane.port.requests.taken now }
           pending := some
             { request := message.value, completion := now + latency * clock.period, epoch }
           lastId := message.value.id }, b)
  | early {lane : Lane} {b : Bank δ} {p : Pending} (busy : lane.pending = some p)
      (early : lane.due now = none) : LaneStep d clock latency now epoch (lane, b) (lane, b)
  | dropped {lane : Lane} {b : Bank δ} {p : Pending} (due : lane.due now = some p)
      (old : p.epoch ≠ epoch) :
      LaneStep d clock latency now epoch (lane, b) ({ lane with pending := none }, b)
  | refused {lane : Lane} {b b' : Bank δ} {p : Pending} (due : lane.due now = some p)
      (current : p.epoch = epoch) (refuses : Refuses d p.request now epoch b b') :
      LaneStep d clock latency now epoch (lane, b) (lane, b')
  | answered {lane : Lane} {b b' : Bank δ} {p : Pending} {result : Except Fault ℕ}
      {responses : Mailbox MemoryResponse} (due : lane.due now = some p) (current : p.epoch = epoch)
      (performs : Performs d p.request now epoch b result b')
      (published : lane.port.responses.publish now epoch (answer p.request result) = .ok responses) :
      LaneStep d clock latency now epoch (lane, b)
        ({ lane with port := { lane.port with responses }, pending := none }, b')

section Lane
variable {lane : Lane} {p : Pending}

theorem Lane.due_eq_some (h : lane.due now = some p) : lane.pending = some p ∧
    p.completion ≤ now ∧ lane.port.responses.full = false := by
  rw [Lane.due, Option.filter_eq_some_iff] at h
  simpa using h

theorem Lane.due_eq_none (h : lane.due now = none) (hp : lane.pending = some p) :
    ¬ (p.completion ≤ now ∧ lane.port.responses.full = false) := by
  rw [Lane.due, hp, Option.filter_eq_none_iff] at h
  simpa using h p rfl

end Lane

section Steps
variable {s s' : Lane × Bank δ} {b b' : Bank δ} {request : MemoryRequest} {u : Unit}
  {l : List TraceEvent}

/-- A request is refused, or its value or its fault is the response. -/
theorem respond_returns {response : Option MemoryResponse}
    (h : (respond d request now epoch).Returns b response b' l) :
    (response = none ∧ Refuses d request now epoch b b') ∨
      ∃ result, response = some (answer request result) ∧ Performs d request now epoch b result b' := by
  rcases Proc.returns_handle_iff.1 h with h | ⟨fault, s₁, l₁, l₂, hraises, hpure, rfl⟩
  · obtain ⟨result, s₁, l₁, l₂, hperform, hpure, rfl⟩ := Proc.returns_bind_iff.1 h
    obtain ⟨rfl, rfl, rfl⟩ := Proc.returns_pure_iff.1 hpure
    cases result with
    | none => exact .inl ⟨rfl, l₁, hperform⟩
    | some value => exact .inr ⟨.ok value, rfl, .value hperform⟩
  · obtain ⟨rfl, rfl, rfl⟩ := Proc.returns_pure_iff.1 hpure
    rcases Proc.raises_bind_iff.1 hraises with hraises | ⟨_, _, _, _, -, hpure, -⟩
    · exact .inr ⟨.error fault, rfl, .fault hraises⟩
    · exact absurd hpure Proc.not_raises_pure

theorem complete_returns (hbusy : s.1.pending.isSome) (h : (complete d now epoch).Returns s u s' l) :
    LaneStep d clock latency now epoch s s' := by
  obtain ⟨lane, b⟩ := s
  obtain ⟨p, hp⟩ := Option.isSome_iff_exists.1 hbusy
  rw [complete, Proc.returns_get_bind_iff] at h
  cases hdue : lane.due now with
  | none =>
    simp only [hdue] at h
    obtain ⟨-, rfl, -⟩ := Proc.returns_pure_iff.1 h
    exact .early hp hdue
  | some q =>
    simp only [hdue] at h
    by_cases hepoch : q.epoch = epoch
    · rw [if_pos hepoch] at h
      obtain ⟨response, ⟨lane₁, b₁⟩, l₁, l₂, hfirst, hrest, -⟩ := Proc.returns_bind_iff.1 h
      obtain ⟨hrespond, rfl⟩ := Proc.returns_onSnd_iff.1 hfirst
      rcases respond_returns hrespond with ⟨rfl, hrefuses⟩ | ⟨result, rfl, hperforms⟩
      · obtain ⟨-, rfl, -⟩ := Proc.returns_pure_iff.1 hrest
        exact .refused hdue hepoch hrefuses
      · simp only [Proc.returns_lift_bind_iff] at hrest
        obtain ⟨responses, hpublish, hrest⟩ := hrest
        obtain ⟨rfl, -⟩ := Proc.returns_modify_iff.1 hrest
        exact .answered hdue hepoch hperforms hpublish
    · rw [if_neg hepoch] at h
      obtain ⟨rfl, -⟩ := Proc.returns_modify_iff.1 h
      exact .dropped hdue hepoch

theorem complete_vacant (hfree : s.1.pending = none) (h : (complete d now epoch).Returns s u s' l) :
    s' = s := by
  have hdue : s.1.due now = none := by rw [Lane.due, hfree, Option.filter_none]
  rw [complete, Proc.returns_get_bind_iff] at h
  simp only [hdue] at h
  exact (Proc.returns_pure_iff.1 h).2.1.symm

theorem accept_returns (hfree : s.1.pending = none)
    (h : (accept clock latency instruction now epoch).Returns s u s' l) :
    LaneStep d clock latency now epoch s s' := by
  obtain ⟨lane, b⟩ := s
  rw [accept, Proc.returns_get_bind_iff] at h
  split at h
  · obtain ⟨-, rfl, -⟩ := Proc.returns_pure_iff.1 h
    exact .vacant hfree
  split at h
  · obtain ⟨-, rfl, -⟩ := Proc.returns_pure_iff.1 h
    exact .vacant hfree
  · rename_i message hmessage
    rw [Proc.returns_modify_bind_iff] at h
    split at h
    · rename_i hold
      obtain ⟨-, rfl, -⟩ := Proc.returns_pure_iff.1 h
      exact .stale hfree hmessage hold
    · rename_i hcurrent
      simp only [Proc.returns_lift_bind_iff, require_eq_ok_iff, exists_const,
        Proc.returns_modify_bind_iff] at h
      obtain ⟨⟨hnewer, -⟩, -, cycles, hcycles, completion, hcompletion, h⟩ := h
      obtain ⟨rfl, -⟩ := Proc.returns_modify_iff.1 h
      rw [eq_of_checkedAdd hcompletion, eq_of_checkedMul hcycles]
      exact .accepted hfree hmessage (not_not.1 hcurrent) hnewer

/-- Every edge that returns does one thing to a lane. -/
theorem stepPort_returns
    (h : (stepPort d clock latency instruction now epoch).Returns s u s' l) :
    LaneStep d clock latency now epoch s s' := by
  rw [stepPort, Proc.returns_get_bind_iff] at h
  obtain ⟨_, s₁, l₁, l₂, hcomplete, haccept, -⟩ := Proc.returns_bind_iff.1 h
  by_cases hbusy : s.1.pending.isSome
  · rw [if_pos hbusy] at haccept
    obtain ⟨-, rfl, -⟩ := Proc.returns_pure_iff.1 haccept
    exact complete_returns hbusy hcomplete
  · rw [if_neg hbusy] at haccept
    have hfree : s.1.pending = none := by simpa using hbusy
    obtain rfl := complete_vacant hfree hcomplete
    exact accept_returns hfree haccept

end Steps
end MemoryModel
end Qsbit

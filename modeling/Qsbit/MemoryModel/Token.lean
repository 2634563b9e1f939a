import Qsbit.MemoryModel.Run

/-!
# One request at a time

A core sends a request over a port once it has taken the response to the one before. So there is
at most one request in a lane: it waits in the port, the memory works on it, or its response waits
in the port.

## Main definitions

* `Carries` — the request that is in a lane, and its response.
* `LaneStep.carries` — what an edge of the memory does with them.
-/
namespace Qsbit

/-! ## Ports -/

/-- The receiver has a clock, and a message takes time. -/
structure Mailbox.Sound {α : Type} (b : Mailbox α) : Prop where
  receiver : b.receiver.Valid
  latency : 0 < b.latency

/-- Both directions of a port are sound. -/
structure MemoryPort.Sound (port : MemoryPort) : Prop where
  requests : port.requests.Sound
  responses : port.responses.Sound

namespace Mailbox.Sound
variable {α : Type} {b b' : Mailbox α} {now epoch : ℕ} {value : α}

theorem taken (h : b.Sound) : (b.taken now).Sound := by
  unfold Mailbox.taken
  split
  · exact ⟨h.receiver, h.latency⟩
  · exact h

theorem publish (h : b.Sound) (hpublish : b.publish now epoch value = .ok b') : b'.Sound := by
  obtain ⟨-, eligible, rfl⟩ := publish_eq_ok hpublish
  exact ⟨h.receiver, h.latency⟩

end Mailbox.Sound

namespace MemoryModel
open Mailbox (Envelope)

/-- The request that is in a lane, and its response. -/
inductive Carries (epoch : ℕ) (lane : Lane) : Option MemoryRequest → Option MemoryResponse → Prop
  | nothing (requests : lane.port.requests.entries = []) (pending : lane.pending = none)
      (responses : lane.port.responses.entries = []) : Carries epoch lane none none
  | asked {request : MemoryRequest} {message : Envelope MemoryRequest}
      (requests : lane.port.requests.entries = [message]) (pending : lane.pending = none)
      (responses : lane.port.responses.entries = []) (current : message.epoch = epoch)
      (value : message.value = request) (newer : lane.lastId < request.id) :
      Carries epoch lane (some request) none
  | accepted {request : MemoryRequest} {p : Pending} (requests : lane.port.requests.entries = [])
      (pending : lane.pending = some p) (responses : lane.port.responses.entries = [])
      (current : p.epoch = epoch) (value : p.request = request) :
      Carries epoch lane (some request) none
  | answered {request : MemoryRequest} {response : MemoryResponse}
      {message : Envelope MemoryResponse} (requests : lane.port.requests.entries = [])
      (pending : lane.pending = none) (responses : lane.port.responses.entries = [message])
      (current : message.epoch = epoch) (value : message.value = response) :
      Carries epoch lane (some request) (some response)

section Carries
variable {δ : Type} {d : MemoryDevice δ} {clock : Clock} {latency now epoch n : ℕ}
  {lane lane' : Lane} {b b' : Bank δ} {request : Option MemoryRequest}
  {response : Option MemoryResponse}

/-- What an edge of the memory does with the request of a lane. -/
inductive Handles (d : MemoryDevice δ) (now epoch : ℕ) (lane lane' : Lane) (b b' : Bank δ) :
    Option MemoryRequest → Option MemoryResponse → Prop
  | kept {request : Option MemoryRequest} {response : Option MemoryResponse}
      (carries : Carries epoch lane' request response) (same : b' = b)
      (quiet : lane'.port.responses = lane.port.responses) :
      Handles d now epoch lane lane' b b' request response
  | refused {request : MemoryRequest} (carries : Carries epoch lane' (some request) none)
      (refuses : Refuses d request now epoch b b')
      (quiet : lane'.port.responses = lane.port.responses) :
      Handles d now epoch lane lane' b b' (some request) none
  | performed {p : Pending} {result : Except Fault ℕ} {message : Envelope MemoryResponse}
      (carries : Carries epoch lane' (some p.request) (some (answer p.request result)))
      (performs : Performs d p.request now epoch b result b') (pending : lane.pending = some p)
      (responses : lane'.port.responses.entries = lane.port.responses.entries ++ [message])
      (value : message.value = answer p.request result) :
      Handles d now epoch lane lane' b b' (some p.request) none

/-- The oldest message, if there is one message only. -/
theorem peek_singleton {α : Type} {box : Mailbox α} {message message' : Envelope α}
    (hentries : box.entries = [message]) (hpeek : box.peek now = some message') :
    message' = message ∧ (box.taken now).entries = [] := by
  obtain ⟨rest, hrest, htaken⟩ := Mailbox.peek_eq_some hpeek
  rw [hentries] at hrest
  obtain ⟨rfl, rfl⟩ := List.cons.inj hrest
  exact ⟨rfl, htaken⟩

theorem peek_nil {α : Type} {box : Mailbox α} (hentries : box.entries = []) :
    box.peek now = none := by
  simp [Mailbox.peek, hentries]

theorem LaneStep.carries (h : LaneStep d clock latency now epoch (lane, b) (lane', b'))
    (hcarries : Carries epoch lane request response) :
    Handles d now epoch lane lane' b b' request response := by
  cases hcarries with
  | nothing requests pending responses =>
    cases h with
    | vacant => exact .kept (.nothing requests pending responses) rfl rfl
    | stale _ readable | accepted _ readable =>
      rw [peek_nil requests] at readable
      cases readable
    | early busy => rw [pending] at busy; cases busy
    | dropped due | refused due | answered due =>
      have hpending := (Lane.due_eq_some due).1
      rw [pending] at hpending
      cases hpending
  | asked requests pending responses current value newer =>
    cases h with
    | vacant => exact .kept (.asked requests pending responses current value newer) rfl rfl
    | stale _ readable old =>
      obtain ⟨rfl, -⟩ := peek_singleton requests readable
      exact absurd current old
    | accepted _ readable =>
      obtain ⟨rfl, htaken⟩ := peek_singleton requests readable
      exact .kept (.accepted htaken rfl responses rfl value) rfl rfl
    | early busy => rw [pending] at busy; cases busy
    | dropped due | refused due | answered due =>
      have hpending := (Lane.due_eq_some due).1
      rw [pending] at hpending
      cases hpending
  | @accepted _ p requests pending responses current value =>
    subst value
    cases h with
    | vacant free | stale free | accepted free => rw [pending] at free; cases free
    | early => exact .kept (.accepted requests pending responses current rfl) rfl rfl
    | dropped due old =>
      obtain rfl := Option.some.inj (pending.symm.trans (Lane.due_eq_some due).1)
      exact absurd current old
    | refused due _ refuses =>
      obtain rfl := Option.some.inj (pending.symm.trans (Lane.due_eq_some due).1)
      exact .refused (.accepted requests pending responses current rfl) refuses rfl
    | answered due _ performs published =>
      obtain rfl := Option.some.inj (pending.symm.trans (Lane.due_eq_some due).1)
      obtain ⟨-, eligible, rfl⟩ := Mailbox.publish_eq_ok published
      have hentries : ∀ x : Envelope MemoryResponse, lane.port.responses.entries ++ [x] = [x] := by
        simp [responses]
      exact .performed (.answered requests rfl (hentries _) rfl rfl) performs pending rfl rfl
  | answered requests pending responses current value =>
    cases h with
    | vacant => exact .kept (.answered requests pending responses current value) rfl rfl
    | stale _ readable | accepted _ readable =>
      rw [peek_nil requests] at readable
      cases readable
    | early busy => rw [pending] at busy; cases busy
    | dropped due | refused due | answered due =>
      have hpending := (Lane.due_eq_some due).1
      rw [pending] at hpending
      cases hpending

/-- The identity of the last request stays below that of the next one. -/
theorem LaneStep.lastId_lt (h : LaneStep d clock latency now epoch (lane, b) (lane', b'))
    (hcarries : Carries epoch lane request response) (hlast : lane.lastId < n)
    (hrequest : ∀ r ∈ request, r.id < n) : lane'.lastId < n := by
  cases h with
  | vacant | stale | early | dropped | refused | answered => exact hlast
  | accepted free readable =>
    cases hcarries with
    | asked requests _ _ _ value =>
      obtain ⟨rfl, -⟩ := peek_singleton requests readable
      rw [value]
      exact hrequest _ rfl
    | nothing requests | answered requests =>
      rw [peek_nil requests] at readable
      cases readable
    | accepted _ pending => rw [pending] at free; cases free

theorem LaneStep.sound (h : LaneStep d clock latency now epoch (lane, b) (lane', b'))
    (hsound : lane.port.Sound) : lane'.port.Sound := by
  cases h with
  | vacant | early | dropped | refused => exact hsound
  | stale | accepted => exact ⟨hsound.requests.taken, hsound.responses⟩
  | answered _ _ _ published => exact ⟨hsound.requests, hsound.responses.publish published⟩

/-- An edge serves one port and then the other. -/
theorem step_lanes {m m' : MemoryModel δ} {u : Unit} {l : List TraceEvent}
    (h : (step d now epoch).Returns m u m' l) : ∃ middle,
      LaneStep d m.clock m.latency now epoch (m.fetch, m.bank) (m'.fetch, middle) ∧
        LaneStep d m.clock m.latency now epoch (m.data, middle) (m'.data, m'.bank) := by
  simp only [step, Proc.returns_get_bind_iff, Proc.returns_lift_bind_iff] at h
  obtain ⟨-, -, h⟩ := h
  obtain ⟨_, m₁, l₁, l₂, hfirst, hsecond, -⟩ := Proc.returns_bind_iff.1 h
  obtain ⟨⟨fetch, middle⟩, hfetch, rfl⟩ := Proc.returns_zoom_iff.1 hfirst
  obtain ⟨⟨data, bank⟩, hdata, rfl⟩ := Proc.returns_zoom_iff.1 hsecond
  exact ⟨middle, stepPort_returns hfetch, stepPort_returns hdata⟩

/-! ## The side of the core -/

/-- There is no response before the request has been answered. -/
theorem Carries.peek_none (h : Carries epoch lane request none) :
    lane.port.responses.peek now = none := by
  cases h with
  | nothing _ _ responses | asked _ _ responses | accepted _ _ responses => exact peek_nil responses

/-- The core takes the response, and the lane is empty. -/
theorem Carries.taken {message : Envelope MemoryResponse} (h : Carries epoch lane request response)
    (hpeek : lane.port.responses.peek now = some message) :
    response = some message.value ∧ message.epoch = epoch ∧ request.isSome ∧
      Carries epoch
        { lane with port := { lane.port with responses := lane.port.responses.taken now } }
        none none := by
  cases h with
  | nothing _ _ responses | asked _ _ responses | accepted _ _ responses =>
    rw [peek_nil responses] at hpeek
    cases hpeek
  | answered requests pending responses current value =>
    obtain ⟨rfl, htaken⟩ := peek_singleton responses hpeek
    exact ⟨congrArg some value.symm, current, rfl, .nothing requests pending htaken⟩

/-- The core sends a request. -/
theorem Carries.published {r : MemoryRequest} {requests : Mailbox MemoryRequest}
    (h : Carries epoch lane none response) (hnewer : lane.lastId < r.id)
    (hpublish : lane.port.requests.publish now epoch r = .ok requests) :
    Carries epoch { lane with port := { lane.port with requests } } (some r) none := by
  cases h with
  | nothing empty pending responses =>
    obtain ⟨-, eligible, rfl⟩ := Mailbox.publish_eq_ok hpublish
    have hentries : ∀ x : Envelope MemoryRequest, lane.port.requests.entries ++ [x] = [x] := by
      simp [empty]
    exact .asked (hentries _) pending responses rfl rfl hnewer

end Carries
end MemoryModel
end Qsbit

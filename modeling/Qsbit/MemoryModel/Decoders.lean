import Qsbit.Decoder.Quiet
import Qsbit.Decoder.Run
import Qsbit.MemoryModel.Run

/-!
# The decoders in the memory of a core

The registers of the decoders are mapped into the memory of every core. A store to the command
register may be refused, and the memory tries it again on each edge. What has been refused or
has faulted leaves the decoders and the image as they were, and a command that is taken in the
end sends one packet.

## Main definitions

* `decoderDevice` — the decoders as the device of a core.
* `Unaffected` — nothing that the decoders keep has changed.
* `requests_answered` — what the memory does with its requests, and the decoders with theirs.
-/
namespace Qsbit
open MemoryModel

/-- The decoders as a core accesses them. -/
def decoderDevice (core : ℕ) : MemoryDevice DecoderSystem where
  contains s address := s.mmio.contains address
  access request now epoch := DecoderSystem.access core request now epoch

namespace DecoderSystem

/-- The packet that an access would send, and whether it is a reset. -/
def sent (s : DecoderSystem) (core : ℕ) (request : MemoryRequest) : Option (Bool × DecoderSubmit) :=
  match (DecoderMmio.access core request s.mmio).result with
  | .ok (some (.submit submission)) => some (false, submission)
  | .ok (some (.reset decoder tag)) => some (true, { decoder, count := 0, tag, data := 0 })
  | _ => none

/-- Nothing has changed but that a session that was not used may have been looked up. -/
structure Unaffected (s s' : DecoderSystem) : Prop where
  config : s'.config = s.config
  mmio : s'.mmio = s.mmio
  session : ∀ key, s'.session key = s.session key
  available : s'.available = s.available
  requests : s'.requests = s.requests
  resetRequest : s'.resetRequest = s.resetRequest
  jobs : s'.jobs = s.jobs
  txAvailable : s'.txAvailable = s.txAvailable
  rxAvailable : s'.rxAvailable = s.rxAvailable
  next : s'.next = s.next

/-- One packet has been sent. -/
structure SendsOne (s : DecoderSystem) (core : ℕ) (reset : Bool) (submission : DecoderSubmit)
    (now : ℕ) (s' : DecoderSystem) : Prop where
  room : s.full reset = false
  packet : ∃ packet last, Sends s core submission now packet last ∧
    s' = { s.enqueue reset packet with next := s.next + 1, txAvailable := last }

section Access
variable {s s' : DecoderSystem} {core now epoch : ℕ} {request : MemoryRequest}
  {reply : Option ℕ} {l : List TraceEvent}

theorem unaffected_refl : Unaffected s s :=
  ⟨rfl, rfl, fun _ => rfl, rfl, rfl, rfl, rfl, rfl, rfl, rfl⟩

theorem unaffected_raises {f : Fault} (h : (access core request now epoch).Raises s f s' l) :
    Unaffected s s' := by
  rcases access_raises h with rfl | ⟨key, rfl⟩
  · exact unaffected_refl
  · exact { unaffected_refl with session := fun _ => session_openSession }

/-- An access of which the command is known. -/
theorem access_of_command {command : DecoderCommand}
    (hcommand : (DecoderMmio.access core request s.mmio).result = .ok (some command))
    (h : (access core request now epoch).Returns s reply s' l) :
    (DecoderSystem.command core now epoch (some command)).Returns s reply s' l := by
  obtain ⟨c, mmio, hmmio, hrest⟩ := access_returns_iff.1 h
  have hresult : (DecoderMmio.access core request s.mmio).result = .ok c :=
    congrArg (·.result) hmmio
  obtain rfl : c = some command := Except.ok.inj (hresult.symm.trans hcommand)
  obtain rfl := (DecoderMmio.access_returns hmmio).2.same command rfl
  exact hrest

theorem send_of_sent {reset : Bool} {submission : DecoderSubmit}
    (hsent : s.sent core request = some (reset, submission))
    (h : (access core request now epoch).Returns s reply s' l) :
    (send core reset submission now epoch).Returns s reply s' l := by
  unfold sent at hsent
  split at hsent
  · rename_i hcommand
    obtain ⟨rfl, rfl⟩ := Prod.mk.inj (Option.some.inj hsent)
    exact access_of_command hcommand h
  · rename_i hcommand
    obtain ⟨rfl, rfl⟩ := Prod.mk.inj (Option.some.inj hsent)
    exact access_of_command hcommand h
  · simp at hsent

theorem consume_not_refused {decoder : ℕ} :
    ¬ (consume core decoder now epoch).Returns s none s' l := by
  intro h
  simp only [consume, Proc.returns_modify_bind_iff, Proc.returns_get_bind_iff,
    Proc.returns_lift_bind_iff] at h
  obtain ⟨_, -, h⟩ := h
  obtain ⟨_, s₁, l₁, l₂, -, hpure, -⟩ := Proc.returns_bind_iff.1 h
  simpa using (Proc.returns_pure_iff.1 hpure).1

theorem read_not_refused {decoder : ℕ} {kind : DecoderReadKind} :
    ¬ (read core decoder kind).Returns s none s' l := by
  intro h
  rw [read, Proc.returns_get_bind_iff] at h
  cases kind with
  | count =>
    simp only [Proc.returns_lift_bind_iff] at h
    obtain ⟨d, -, hpure⟩ := h
    simpa using (Proc.returns_pure_iff.1 hpure).1
  | status =>
    simp only [Proc.returns_modify_bind_iff] at h
    simpa using (Proc.returns_pure_iff.1 h).1
  | low | high =>
    simp only [Proc.returns_modify_bind_iff] at h
    split at h
    · simp at h
    · simpa using (Proc.returns_pure_iff.1 h).1

/-- Only a packet is refused, and nothing has changed then. -/
theorem access_refused (h : (access core request now epoch).Returns s none s' l) : s' = s := by
  obtain ⟨c, mmio, hmmio, hrest⟩ := access_returns_iff.1 h
  have hsame := (DecoderMmio.access_returns hmmio).2.same
  have hsend : ∀ {reset : Bool} {x : DecoderSubmit} {s₁ : DecoderSystem},
      (send core reset x now epoch).Returns s₁ none s' l → s' = s₁ := by
    intro reset x s₁ hsend
    rcases send_returns hsend with ⟨-, rfl, -⟩ | ⟨packet, last, hreply, -⟩
    · rfl
    · simp at hreply
  match c, hsame, hrest with
  | none, _, hrest => exact absurd (Proc.returns_pure_iff.1 hrest).1 (by simp)
  | some (.consume decoder), _, hrest => exact absurd hrest consume_not_refused
  | some (.read decoder kind), _, hrest => exact absurd hrest read_not_refused
  | some (.reset decoder tag), hsame, hrest =>
    obtain rfl := hsame _ rfl
    exact hsend hrest
  | some (.submit submission), hsame, hrest =>
    obtain rfl := hsame _ rfl
    exact hsend hrest

theorem access_sends {reset : Bool} {submission : DecoderSubmit} {value : ℕ}
    (hsent : s.sent core request = some (reset, submission))
    (h : (access core request now epoch).Returns s (some value) s' l) :
    SendsOne s core reset submission now s' := by
  rcases send_returns (send_of_sent hsent h) with ⟨hreply, -⟩ | ⟨packet, last, -, hsends, hroom, hs', -⟩
  · simp at hreply
  · exact ⟨hroom, packet, last, hsends, hs'⟩

end Access
end DecoderSystem

open DecoderSystem

namespace MemoryModel
variable {now epoch : ℕ} {request : MemoryRequest}

section Ram
variable {δ : Type} {d : MemoryDevice δ} {b b' : Bank δ}

theorem perform_device (hdevice : d.contains b.device request.address = true)
    {result : Option ℕ} {l : List TraceEvent} :
    (perform d request now epoch).Returns b result b' l ↔ ∃ device,
      (d.access request now epoch).Returns b.device result device l ∧ { b with device } = b' := by
  rw [perform, Proc.returns_get_bind_iff, if_pos hdevice, Proc.returns_zoom_iff]

theorem perform_device_raises (hdevice : d.contains b.device request.address = true)
    {fault : Fault} {l : List TraceEvent} :
    (perform d request now epoch).Raises b fault b' l ↔ ∃ device,
      (d.access request now epoch).Raises b.device fault device l ∧ { b with device } = b' := by
  rw [perform, Proc.raises_get_bind_iff, if_pos hdevice, Proc.raises_zoom_iff]

/-- An access of the image that faults has no effect. -/
theorem perform_image_raises (himage : d.contains b.device request.address = false)
    {fault : Fault} {l : List TraceEvent} (h : (perform d request now epoch).Raises b fault b' l) :
    b' = b := by
  rw [perform, Proc.raises_get_bind_iff, if_neg (by simp [himage])] at h
  split at h
  all_goals
    rcases Proc.raises_lift_bind_iff.1 h with ⟨-, rfl, -⟩ | ⟨value, -, h⟩
    · rfl
    · simp at h

/-- The image is never busy. -/
theorem perform_image_answers (himage : d.contains b.device request.address = false)
    {l : List TraceEvent} : ¬ (perform d request now epoch).Returns b none b' l := by
  intro h
  rw [perform, Proc.returns_get_bind_iff, if_neg (by simp [himage])] at h
  split at h
  all_goals simp at h

end Ram

section Decoders
variable {core : ℕ} {b b' : Bank DecoderSystem}

theorem refuses_decoders (h : Refuses (decoderDevice core) request now epoch b b') : b' = b := by
  obtain ⟨l, hperform⟩ := h
  cases hdevice : (decoderDevice core).contains b.device request.address with
  | true =>
    obtain ⟨device, haccess, rfl⟩ := (perform_device hdevice).1 hperform
    rw [access_refused haccess]
  | false => exact absurd hperform (perform_image_answers hdevice)

/-- What the answer to a request of a core has done to its memory. -/
structure Effects (core : ℕ) (p : Pending) (x : LaneEdge DecoderSystem) : Prop where
  fault : (∃ response ∈ x.responded, response.fault ≠ none) →
    x.after.2.image = x.before.2.image ∧ Unaffected x.before.2.device x.after.2.device
  sends : ∀ reset submission, x.before.2.device.sent core p.request = some (reset, submission) →
    (∀ response ∈ x.responded, response.fault = none) →
      x.after.2.image = x.before.2.image ∧
        SendsOne x.before.2.device core reset submission x.now x.after.2.device

/-- Only an access of the registers sends a packet. -/
theorem contains_of_sent {s : DecoderSystem} {packet : Bool × DecoderSubmit}
    (h : s.sent core request = some packet) : s.mmio.contains request.address := by
  by_contra hcontains
  have hresult : (DecoderMmio.access core request s.mmio).result =
      .error ⟨.invalidOperand, "decoder MMIO requires aligned data words"⟩ := by
    rw [DecoderMmio.access, Proc.result_get_bind, Proc.result_lift_bind, require,
      if_neg fun h => hcontains h.1]
    rfl
  simp [sent, hresult] at h

theorem effects_of_answers {p : Pending} {x : LaneEdge DecoderSystem}
    (h : x.Answers (decoderDevice core) p) : Effects core p x := by
  obtain ⟨result, hperforms, hresponded⟩ := h.performed
  generalize hafter : x.after.2 = b' at hperforms
  cases hperforms with
  | @value value b' l hperform =>
    refine ⟨by simp [hresponded, answer], fun reset submission hsent _ => ?_⟩
    have hdevice : (decoderDevice core).contains x.before.2.device p.request.address = true :=
      decide_eq_true (contains_of_sent hsent)
    obtain ⟨device, haccess, hbank⟩ := (perform_device hdevice).1 hperform
    rw [hafter, ← hbank]
    exact ⟨rfl, access_sends hsent haccess⟩
  | @fault fault b' l hperform =>
    refine ⟨fun _ => ?_, by simp [hresponded, answer]⟩
    rw [hafter]
    cases hdevice : (decoderDevice core).contains x.before.2.device p.request.address with
    | true =>
      obtain ⟨device, haccess, rfl⟩ := (perform_device_raises hdevice).1 hperform
      exact ⟨rfl, unaffected_raises haccess⟩
    | false =>
      rw [perform_image_raises hdevice hperform]
      exact ⟨rfl, unaffected_refl⟩

end Decoders

/-- Every request that is accepted is answered by one edge, the first on which it is due, has a
slot for its response and is not refused. It is performed there and nowhere else. A request that
faults does not change the image, and neither a fault nor a refusal changes the decoders; a
packet that is taken is sent once. -/
theorem requests_answered :
    (∀ {δ : Type} {d : MemoryDevice δ} {m : MemoryModel δ} {es : List (MemoryEdge δ)},
      MemoryRun d m es → m.idle = true → ∀ instruction es₁ e es₂ p,
        es.map (·.lane d instruction) = es₁ ++ e :: es₂ → e.Accepts p →
          MemoryRun.Accepted d (m.latency * m.clock.period) es₁ e p es₂) ∧
      (∀ {δ : Type} {d : MemoryDevice δ} {p : Pending} {x : LaneEdge δ}, x.Answers d p →
        d.contains x.before.2.device p.request.address = false →
          (∃ response ∈ x.responded, response.fault ≠ none) → x.after.2 = x.before.2) ∧
      ∀ core p x, (x.Waits (decoderDevice core) p → x.after.2 = x.before.2) ∧
        (x.Answers (decoderDevice core) p → Effects core p x) := by
  refine ⟨fun run start _ _ _ _ _ split accepts => run.accepted start split accepts, ?_, ?_⟩
  · intro δ d p x hanswers himage hfault
    obtain ⟨result, hperforms, hresponded⟩ := hanswers.performed
    generalize hafter : x.after.2 = b' at hperforms
    cases hperforms with
    | value hperform => simp [hresponded, answer] at hfault
    | fault hperform => exact perform_image_raises himage hperform
  · intro core p x
    refine ⟨fun hwaits => ?_, effects_of_answers⟩
    rcases hwaits.bank with ⟨-, hbank⟩ | hrefuses
    · exact hbank
    · exact refuses_decoders hrefuses

section Probe

/-- One packet waits, and there is no place for another. -/
def busyDecoders : DecoderSystem :=
  { parityDecoders with
    mmio := { parityDecoders.mmio with
      registers := (∅ : Std.ExtTreeMap ℕ DecoderMmio.Registers).insert 0
        { decoder := 7, count := 2, low := 1 } }
    requests := [{ id := 1, core := 0, decoder := 7, count := 2, tag := 0, data := 0, sent := 0
                   arrival := 9 }]
    next := 2 }

def freeDecoders : DecoderSystem := { busyDecoders with requests := [] }

/-- A store to the command register. -/
def submitRequest : MemoryRequest := { (decoderWrite 20 1).2 with id := 1 }

def silentPort : MemoryPort :=
  { requests := { capacity := 1, receiver := {} }, responses := { capacity := 1, receiver := {} } }

def submitPort : MemoryPort :=
  { silentPort with
    requests := { silentPort.requests with
      entries := [{ published := 0, eligible := 1, epoch := 1, value := submitRequest }] } }

def submitMemory : MemoryModel DecoderSystem :=
  { clock := {}, latency := 1, fetch := { port := silentPort }, data := { port := submitPort }
    bank := { image := { base := 0, bytes := [] }, device := busyDecoders } }

/-- An edge of the memory of a core. -/
def decoderEdge (now : ℕ) (m : MemoryModel DecoderSystem) : MemoryEdge DecoderSystem where
  now := now
  epoch := 1
  before := m
  after := (step (decoderDevice 0) now 1 m).state

/-- The request is accepted. -/
def acceptingEdge : MemoryEdge DecoderSystem := decoderEdge 1 submitMemory

/-- It is refused. -/
def refusingEdge : MemoryEdge DecoderSystem := decoderEdge 2 acceptingEdge.after

/-- It is taken, after another core has made place for it. -/
def takingEdge : MemoryEdge DecoderSystem :=
  decoderEdge 3 (refusingEdge.after.arrange silentPort silentPort freeDecoders)

theorem requests_answered_submit : ∃ p, MemoryRun.Accepted (decoderDevice 0) 1 []
      (acceptingEdge.lane (decoderDevice 0) false) p
      [refusingEdge.lane (decoderDevice 0) false, takingEdge.lane (decoderDevice 0) false] ∧
    ((refusingEdge.lane (decoderDevice 0) false).Waits (decoderDevice 0) p →
      refusingEdge.after.bank = refusingEdge.middle (decoderDevice 0)) ∧
    refusingEdge.after.bank.device.next = 2 ∧ takingEdge.after.bank.device.next = 3 := by
  have hrun : MemoryRun (decoderDevice 0) submitMemory [acceptingEdge, refusingEdge, takingEdge] :=
    .cons ⟨silentPort, submitPort, busyDecoders, rfl⟩
      (Proc.returns_of_isSome (by decide +kernel))
      (.cons ⟨acceptingEdge.after.fetch.port, acceptingEdge.after.data.port,
          acceptingEdge.after.bank.device, rfl⟩ (Proc.returns_of_isSome (by decide +kernel))
        (.cons ⟨silentPort, silentPort, freeDecoders, rfl⟩
          (Proc.returns_of_isSome (by decide +kernel)) .nil))
  refine ⟨{ request := submitRequest, completion := 2, epoch := 1 }, ?_, ?_, by decide +kernel⟩
  · exact requests_answered.1 hrun rfl false [] _ _ _ rfl ⟨rfl, by decide +kernel⟩
  · exact (requests_answered.2.2 0 _ _).1

end Probe

end MemoryModel
end Qsbit

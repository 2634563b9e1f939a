import Qsbit.Fault
import Qsbit.TimingControl.Step

/-!
# The faults of the exchange

Three faults would mean that the timing control and its unit have lost track of
each other: a full mailbox, a request submitted while one is on its way and an
acknowledgment of nothing. Each has one place in the timing control that can
raise it, so they are excluded by what holds of the links in those places.

## Main definitions

* `exchangeFaults` — the three faults.
* `Unrelated` — a fault that is not one of the exchange.
* `receive_faultsIn`, `execute_faultsIn` — when none of them is raised.
-/
namespace Qsbit

/-- The faults that mean that the two sides have lost track of each other. -/
def exchangeFaults : List Fault :=
  [⟨.capacity, "mailbox capacity exceeded"⟩, ⟨.protocol, "unexpected request acknowledgment"⟩,
    ⟨.protocol, "enqueue request already pending"⟩]

/-- A fault that is not one of the exchange, unless the check of an action raises it. -/
def Unrelated (validate : EventSpec → Except Fault Unit) (f : Fault) : Prop :=
  f ∈ exchangeFaults → ∃ a, validate a = .error f

section Checks
variable {validate : EventSpec → Except Fault Unit}

theorem unrelated_of_code {f : Fault} (hcapacity : f.code ≠ .capacity)
    (hprotocol : f.code ≠ .protocol) : Unrelated validate f := by
  intro h
  simp only [exchangeFaults, List.mem_cons, List.not_mem_nil, or_false] at h
  rcases h with rfl | rfl | rfl
  · exact absurd rfl hcapacity
  · exact absurd rfl hprotocol
  · exact absurd rfl hprotocol

theorem faultsIn_require {p : Prop} [Decidable p] {code : ErrorCode} {message : String}
    (h : ⟨code, message⟩ ∉ exchangeFaults) :
    (require p code message).FaultsIn (Unrelated validate) := by
  intro f hf
  obtain ⟨-, rfl⟩ := require_eq_error_iff.1 hf
  exact fun hmem => absurd hmem h

theorem faultsIn_checkedAdd {a b : ℕ} : (checkedAdd a b).FaultsIn (Unrelated validate) := by
  intro f hf
  rw [code_of_checkedAdd hf]
  exact unrelated_of_code (by simp) (by simp)

theorem faultsIn_checkedMul {a b : ℕ} : (checkedMul a b).FaultsIn (Unrelated validate) := by
  intro f hf
  rw [code_of_checkedMul hf]
  exact unrelated_of_code (by simp) (by simp)

theorem faultsIn_after {c : Clock} {publication latency : ℕ} :
    (c.after publication latency).FaultsIn (Unrelated validate) := by
  refine .bind (faultsIn_require (by decide)) fun _ _ =>
    .bind (faultsIn_require (by decide)) fun _ _ => .bind ?_ fun _ _ =>
      .bind faultsIn_checkedMul fun _ _ => faultsIn_checkedAdd
  split
  · exact .bind faultsIn_checkedAdd fun _ _ => .bind faultsIn_checkedMul fun _ _ =>
      faultsIn_checkedAdd
  · exact .pure _

/-- A mailbox with space takes a message, or refuses it for its time. -/
theorem faultsIn_publish {α : Type} {b : Mailbox α} {now epoch : ℕ} {value : α}
    (h : b.full = false) : (b.publish now epoch value).FaultsIn (Unrelated validate) :=
  .bind (require_faultsIn h) fun _ _ => .bind faultsIn_after fun _ _ =>
    .bind (faultsIn_require (by decide)) fun _ _ => .pure _

end Checks

namespace TimingControl
variable {validate : EventSpec → Except Fault Unit}

/-! ## Codewords -/

theorem faultsIn_mapping {profile : TimingConfig} {port word : ℕ} :
    (profile.mapping port word).FaultsIn (Unrelated validate) := by
  refine .bind (faultsIn_require (by decide)) ?_
  intro _ _
  split
  · exact .pure _
  · intro f hf
    rw [← Except.error.inj hf]
    exact unrelated_of_code (by simp) (by simp)

theorem faultsIn_checkActions {profile : TimingConfig} {actions : List EventSpec} :
    (checkActions profile validate actions).FaultsIn (Unrelated validate) := by
  induction actions with
  | nil => exact .pure _
  | cons a rest ih =>
    refine .bind ?_ fun _ _ => .bind (faultsIn_require (by decide)) fun _ _ =>
      .bind ih fun _ _ => .pure _
    intro f hf hmem
    exact ⟨a, hf⟩

theorem faultsIn_checkPorts {profile : TimingConfig} {ports : List ℕ} {actions : List EventSpec} :
    (checkPorts profile ports actions).FaultsIn (Unrelated validate) := by
  induction actions generalizing ports with
  | nil => exact .pure _
  | cons a rest ih =>
    exact .bind (faultsIn_require (by decide)) fun _ _ =>
      .bind (faultsIn_require (by decide)) fun _ _ => ih

theorem faultsIn_referencesFor {m : MeasurementRegisters} {epoch made : ℕ} {targets rest : List ℕ} :
    (m.referencesFor epoch targets made rest).FaultsIn (Unrelated validate) := by
  induction rest generalizing made with
  | nil => exact .pure _
  | cons target rest ih =>
    exact .bind (faultsIn_require (by decide)) fun _ _ =>
      .bind (faultsIn_require (by decide)) fun _ _ => .bind faultsIn_checkedAdd fun _ _ =>
        .bind ih fun _ _ => .pure _

theorem faultsIn_prepareReservation {m : MeasurementRegisters} {epoch : ℕ} {targets : List ℕ} :
    (m.prepareReservation epoch targets).FaultsIn (Unrelated validate) :=
  .bind (faultsIn_require (by decide)) fun _ _ => .bind faultsIn_checkedAdd fun _ _ =>
    faultsIn_referencesFor

theorem faultsIn_commitReservation {m : MeasurementRegisters}
    {references : List MeasurementReference} :
    (MeasurementRegisters.commitReservation references).FaultsIn (Unrelated validate) m := by
  cases references with
  | nil => exact .pure _
  | cons first rest =>
    exact .get_bind <| .lift_bind faultsIn_prepareReservation fun _ _ =>
      .lift_bind (faultsIn_require (by decide)) fun _ _ => .set_bind <|
        .lift_bind faultsIn_checkedAdd fun _ _ => .modify _

theorem faultsIn_checkReferences {epoch : ℕ} {seen references : List MeasurementReference} :
    (checkReferences epoch seen references).FaultsIn (Unrelated validate) := by
  induction references generalizing seen with
  | nil => exact .pure _
  | cons r rest ih => exact .bind (faultsIn_require (by decide)) fun _ _ => ih

theorem faultsIn_decodeActions {profile : TimingConfig}
    {port word epoch instruction first count : ℕ} {references : List MeasurementReference}
    {actions : List EventSpec} :
    (decodeActions profile port word epoch instruction references first count actions).FaultsIn
      (Unrelated validate) := by
  induction actions generalizing count with
  | nil => exact .pure _
  | cons a rest ih =>
    exact .bind (faultsIn_require (by decide)) fun _ _ =>
      .bind (faultsIn_require (by decide)) fun _ _ => .bind faultsIn_checkedAdd fun _ _ =>
        .bind ih fun _ _ => .pure _

theorem faultsIn_decodeCodeword {profile : TimingConfig} {port word epoch instruction first : ℕ}
    {references : List MeasurementReference} :
    (decodeCodeword profile port word epoch instruction first references).FaultsIn
      (Unrelated validate) :=
  .bind faultsIn_mapping fun _ _ => .bind (faultsIn_require (by decide)) fun _ _ =>
    .bind faultsIn_checkReferences fun _ _ => faultsIn_decodeActions

/-! ## Submitting -/

theorem faultsIn_validateEvents {profile : TimingConfig} {point : TimingPoint}
    {seen : List OperationEvent} {pairs : List (OperationEvent × ℕ)} :
    (validateEvents profile point seen pairs).FaultsIn (Unrelated validate) := by
  induction pairs generalizing seen with
  | nil => exact .pure _
  | cons p rest ih =>
    exact .bind (faultsIn_require (by decide)) fun _ _ =>
      .bind (faultsIn_require (by decide)) fun _ _ =>
        .bind (faultsIn_require (by decide)) fun _ _ => .bind faultsIn_mapping fun _ _ =>
          .bind (faultsIn_require (by decide)) fun _ _ => ih

theorem faultsIn_validateTimingEvents {request : TimingEvents} {profile : TimingConfig} :
    (validateTimingEvents request profile).FaultsIn (Unrelated validate) :=
  .bind (faultsIn_require (by decide)) fun _ _ => .bind (faultsIn_require (by decide)) fun _ _ =>
    .bind (faultsIn_require (by decide)) fun _ _ => .bind (faultsIn_require (by decide)) fun _ _ =>
      .bind (faultsIn_require (by decide)) fun _ _ =>
        .bind (faultsIn_require (by decide)) fun _ _ =>
          .bind (faultsIn_require (by decide)) fun _ _ => faultsIn_validateEvents

variable {s : ControlState} {now epoch : ℕ}

theorem faultsIn_setControl {f : TimingControl → TimingControl} :
    (setControl f).FaultsIn (Unrelated validate) s := .modify _

theorem FaultsIn.setControl_bind {α : Type} {P : Fault → Prop} {f : TimingControl → TimingControl}
    {g : Unit → Sim ControlState α}
    (h : (g ()).FaultsIn P { s with control := f s.control }) :
    (setControl f >>= g).FaultsIn P s := .modify_bind h

/-- There is space for whatever may be submitted. -/
structure Spacious (s : ControlState) : Prop where
  timingEvents : s.control.enqueueRequest = none → s.links.timingEvents.full = false
  closure : s.control.closed = false → s.links.closure.full = false

theorem faultsIn_enqueue (h : Spacious s) : (enqueue now epoch).FaultsIn (Unrelated validate) s := by
  refine .get_bind ?_
  by_cases hsome : s.control.enqueueRequest.isSome = true
  · rw [if_pos hsome]
    exact .pure _
  · rw [if_neg hsome]
    by_cases hpoint : s.control.pendingPoint = false
    · rw [if_pos hpoint]
      exact FaultsIn.setControl_bind (.pure _)
    · rw [if_neg hpoint]
      have hspace := h.timingEvents (by simpa using hsome)
      refine .lift_bind (.bind faultsIn_checkedAdd fun _ _ => .pure _) fun request _ => ?_
      refine .lift_bind faultsIn_validateTimingEvents fun _ _ => ?_
      refine .lift_bind (require_faultsIn hspace) fun _ _ => ?_
      exact FaultsIn.setControl_bind <| .lift_bind (faultsIn_publish hspace) fun _ _ =>
        .modify_bind <| .bind (.emit _) fun _ _ _ _ => .pure _

/-! ## Operations -/

theorem faultsIn_executeZeroWait (h : Spacious s) :
    (executeZeroWait now epoch).FaultsIn (Unrelated validate) s := by
  have hspace : Spacious { s with control := s.control.waitForNext } := by
    unfold waitForNext
    split
    · exact h
    · exact ⟨h.timingEvents, h.closure⟩
  refine FaultsIn.setControl_bind (.bind (faultsIn_enqueue hspace) ?_)
  intro b s₁ l hb
  cases b with
  | false => exact .pure _
  | true => exact FaultsIn.setControl_bind (.pure _)

theorem faultsIn_advanceTime {cycles : ℕ} (h : Spacious s) :
    (advanceTime cycles now epoch).FaultsIn (Unrelated validate) s := by
  refine .get_bind <| .lift_bind faultsIn_checkedAdd fun _ _ => .bind (faultsIn_enqueue h) ?_
  intro b s₁ l hb
  cases b with
  | false => exact .pure _
  | true => exact FaultsIn.setControl_bind (.pure _)

theorem faultsIn_codeword {instruction port word : ℕ} :
    (codeword validate instruction port word now epoch).FaultsIn (Unrelated validate) s :=
  .get_bind <| .lift_bind (faultsIn_require (by decide)) fun _ _ =>
    .lift_bind faultsIn_mapping fun _ _ => .lift_bind faultsIn_checkActions fun _ _ =>
      .lift_bind faultsIn_checkedAdd fun _ _ => .lift_bind (faultsIn_require (by decide)) fun _ _ =>
        .lift_bind faultsIn_checkPorts fun _ _ => .lift_bind faultsIn_checkedAdd fun _ _ =>
          .lift_bind faultsIn_prepareReservation fun _ _ =>
            .lift_bind faultsIn_decodeCodeword fun _ _ =>
              .bind (.zoom faultsIn_commitReservation) fun _ _ _ _ =>
                FaultsIn.setControl_bind <| .bind (.emit _) fun _ _ _ _ => .pure _

theorem faultsIn_fetchMeasurement {instruction qubit : ℕ} (h : Spacious s) :
    (fetchMeasurement instruction qubit now epoch).FaultsIn (Unrelated validate) s := by
  refine .get_bind <| .lift_bind (faultsIn_require (by decide)) fun _ _ =>
    .bind (faultsIn_enqueue h) ?_
  intro b s₁ l hb
  cases b with
  | false => exact .pure _
  | true =>
    refine .get_bind <| .lift_bind ?_ fun value _ => ?_
    · exact .bind (faultsIn_require (by decide)) fun _ _ => .pure _
    · cases value with
      | none => exact .pure _
      | some value => exact .bind (.emit _) fun _ _ _ _ => .pure _

theorem faultsIn_halt (h : Spacious s) (hopen : s.control.closed = false) :
    (halt now epoch).FaultsIn (Unrelated validate) s := by
  refine .bind (faultsIn_enqueue h) ?_
  intro b s₁ l hb
  cases b with
  | false => exact .pure _
  | true =>
    have hspace : s₁.links.closure.full = false := by
      cases enqueue_returns hb with
      | done => exact h.closure hopen
    exact .get_bind <| .lift_bind (faultsIn_publish hspace) fun _ _ => .set_bind (.pure _)

theorem faultsIn_synchronize {validateSync : ℕ → Except Fault Unit} {target : ℕ}
    (hsync : ∀ t, (validateSync t).FaultsIn (Unrelated validate)) :
    (synchronize (some validateSync) target).FaultsIn (Unrelated validate) s :=
  .get_bind <| .lift_bind (faultsIn_require (by decide)) fun _ _ =>
    .lift_bind (faultsIn_require (by decide)) fun _ _ => .lift_bind (hsync target) fun _ _ =>
      .lift_bind (faultsIn_require (by decide)) fun _ _ => FaultsIn.setControl_bind (.pure _)

/-- An operation executed with space in the links has no fault of the exchange. -/
theorem execute_faultsIn {validateSync : ℕ → Except Fault Unit} {operation : ControlOperation}
    (hsync : ∀ t, (validateSync t).FaultsIn (Unrelated validate)) (h : Spacious s) :
    (execute validate (some validateSync) operation now epoch).FaultsIn (Unrelated validate) s := by
  refine .get_bind <| .lift_bind (faultsIn_require (by decide)) fun _ hopen =>
    .lift_bind (faultsIn_require (by decide)) fun _ _ => FaultsIn.setControl_bind ?_
  have hspace : Spacious { s with control := { s.control with held := some operation } } :=
    ⟨h.timingEvents, h.closure⟩
  refine .bind ?_ ?_
  · cases operation.command with
    | codeword port word => exact faultsIn_codeword
    | wait cycles =>
      by_cases hzero : cycles = 0
      · simp only [if_pos hzero]
        exact faultsIn_executeZeroWait hspace
      · simp only [if_neg hzero]
        exact faultsIn_advanceTime hspace
    | fetchMeasurement qubit => exact faultsIn_fetchMeasurement hspace
    | halt => exact faultsIn_halt hspace (require_eq_ok_iff.1 hopen)
    | synchronize target => exact faultsIn_synchronize hsync
  · intro result s₁ l hresult
    refine .bind ?_ fun _ _ _ _ => .pure _
    split
    · exact faultsIn_setControl
    · exact .pure _

/-! ## Receiving -/

theorem faultsIn_receiveReply
    (h : ∀ reply ∈ s.links.replies.entries, reply.epoch = epoch →
      ∃ r ∈ s.control.enqueueRequest, reply.value.label = r.point.label) :
    (receiveReply now epoch).FaultsIn (Unrelated validate) s := by
  refine .get_bind ?_
  cases hpeek : s.links.replies.peek now with
  | none => exact .pure _
  | some reply =>
    obtain ⟨rest, hentries, -⟩ := Mailbox.peek_eq_some hpeek
    refine .set_bind ?_
    split
    · rename_i hepoch
      have houtstanding := h reply (by simp [hentries]) hepoch
      exact .lift_bind (require_faultsIn houtstanding) fun _ _ =>
        FaultsIn.setControl_bind (.emit _)
    · exact .pure _

theorem faultsIn_deliver {m : MeasurementRegisters} {completion : Completion} :
    (m.deliver completion epoch).FaultsIn (Unrelated validate) := by
  simp only [MeasurementRegisters.deliver]
  split
  · exact .pure _
  · exact .bind (faultsIn_require (by decide)) fun _ _ =>
      .bind (faultsIn_require (by decide)) fun _ _ =>
        .bind (faultsIn_require (by decide)) fun _ _ =>
          .bind (faultsIn_require (by decide)) fun _ _ => .pure _

theorem faultsIn_acknowledgeFast {m : MeasurementRegisters} {reference : MeasurementReference} :
    (m.acknowledgeFast reference epoch).FaultsIn (Unrelated validate) := by
  simp only [MeasurementRegisters.acknowledgeFast]
  split
  · exact .pure _
  · exact .bind (faultsIn_require (by decide)) fun _ _ => .pure _

theorem faultsIn_receiveResults {entries : List (Mailbox.Envelope Completion)} :
    (receiveResults now epoch entries).FaultsIn (Unrelated validate) s := by
  induction entries generalizing s with
  | nil => exact .pure _
  | cons reply rest ih =>
    unfold receiveResults
    split
    · exact .pure _
    · refine .modify_bind <| .bind ?_ fun _ _ _ _ => ih
      split
      · exact .emit _
      · exact .get_bind <| .lift_bind faultsIn_deliver fun _ _ => .set_bind (.emit _)

theorem faultsIn_receiveCredits {entries : List (Mailbox.Envelope MeasurementReference)} :
    (receiveCredits now epoch entries).FaultsIn (Unrelated validate) s := by
  induction entries generalizing s with
  | nil => exact .pure _
  | cons credit rest ih =>
    unfold receiveCredits
    split
    · exact .pure _
    · refine .modify_bind <| .bind ?_ fun _ _ _ _ => ih
      split
      · exact .get_bind <| .lift_bind faultsIn_acknowledgeFast fun _ _ => .set _
      · exact .pure _

/-- When every acknowledgment is that of the outstanding request, none is unexpected. -/
theorem receive_faultsIn
    (h : ∀ reply ∈ s.links.replies.entries, reply.epoch = epoch →
      ∃ r ∈ s.control.enqueueRequest, reply.value.label = r.point.label) :
    (receive now epoch).FaultsIn (Unrelated validate) s :=
  .bind (faultsIn_receiveReply h) fun _ _ _ _ => .get_bind <|
    .bind faultsIn_receiveResults fun _ _ _ _ => .get_bind faultsIn_receiveCredits

end TimingControl
end Qsbit

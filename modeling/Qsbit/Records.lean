import Qsbit.Core
import Qsbit.Cpu
import Qsbit.Decoder
import Qsbit.Device.ControlElectronics
import Qsbit.Tcu.Atomic

/-!
# The records of the parts

What a part appends to the trace on a tick carries the tick and the epoch, and is of one of
the kinds of the part, whether the part faults or not. The trace therefore takes all records
of a tick, as long as its last record is not later than the tick.

## Main results

* `TcuCycleModel.step_records`, `TimingControl.execute_records`, `SyncUnit.step_records` and
  their like — the records of a method of a part.
-/
namespace Qsbit
variable {now epoch : ℕ}

/-! ## The timing control -/

namespace TimingControl
variable {s : ControlState}

/-- The kinds of the records of what has arrived. -/
def arrivals : TraceKind → Bool
  | .enqueueAcknowledged | .staleCompletionDiscarded | .measurementRegisterUpdated => true
  | _ => false

/-- The kinds of the records of operations. -/
def operations : TraceKind → Bool
  | .timingPointSubmitted | .codewordQueued | .measurementRegisterRead => true
  | _ => false

theorem receiveReply_records : (receiveReply now epoch).Logs (·.Of now epoch arrivals) s := by
  refine .get_bind ?_
  split
  · exact .pure _
  · refine .set_bind ?_
    split
    · exact .lift_bind fun _ _ => .modify_bind <| .emit ⟨rfl, rfl, rfl⟩
    · exact .pure _

theorem receiveResults_records {entries : List (Mailbox.Envelope Completion)} :
    (receiveResults now epoch entries).Logs (·.Of now epoch arrivals) s := by
  induction entries generalizing s with
  | nil => exact .pure _
  | cons reply rest ih =>
    unfold receiveResults
    split
    · exact .pure _
    · refine .modify_bind <| .bind ?_ fun _ _ _ _ => ih
      split
      · exact .emit ⟨rfl, rfl, rfl⟩
      · exact .get_bind <| .lift_bind fun _ _ => .set_bind <| .emit ⟨rfl, rfl, rfl⟩

theorem quiet_receiveCredits {entries : List (Mailbox.Envelope MeasurementReference)} :
    (receiveCredits now epoch entries).Quiet := by
  induction entries with
  | nil => exact .pure _
  | cons credit rest ih =>
    unfold receiveCredits
    split
    · exact .pure _
    · refine .bind (.modify _) fun _ => .bind ?_ fun _ => ih
      split
      · exact .get_bind fun _ => .bind (.check _) fun _ _ => rfl
      · exact .pure _

theorem receive_records : (receive now epoch).Logs (·.Of now epoch arrivals) s :=
  .bind receiveReply_records fun _ _ _ _ => .get_bind <| .bind receiveResults_records
    fun _ _ _ _ => .get_bind <| .of_quiet quiet_receiveCredits

theorem enqueue_records : (enqueue now epoch).Logs (·.Of now epoch operations) s := by
  refine .get_bind ?_
  split
  · exact .pure _
  split
  · exact .modify_bind <| .pure _
  · exact .lift_bind fun _ _ => .lift_bind fun _ _ => .lift_bind fun _ _ => .modify_bind <|
      .lift_bind fun _ _ => .modify_bind <| .emit_bind ⟨rfl, rfl, rfl⟩ <| .pure _

theorem executeZeroWait_records : (executeZeroWait now epoch).Logs (·.Of now epoch operations) s := by
  refine .modify_bind <| .bind enqueue_records fun done _ _ _ => ?_
  split
  · exact .modify_bind <| .pure _
  · exact .pure _

theorem advanceTime_records {interval : ℕ} :
    (advanceTime interval now epoch).Logs (·.Of now epoch operations) s := by
  refine .get_bind <| .lift_bind fun _ _ => .bind enqueue_records fun done _ _ _ => ?_
  split
  · exact .modify_bind <| .pure _
  · exact .pure _

theorem quiet_commitReservation {references : List MeasurementReference} :
    (MeasurementRegisters.commitReservation references).Quiet := by
  unfold MeasurementRegisters.commitReservation
  split
  · exact .pure _
  · exact .get_bind fun _ => .bind (.check _) fun _ => .bind (.check _) fun _ =>
      .bind (fun _ => rfl) fun _ => .bind (.check _) fun _ => .modify _

theorem codeword_records {validate : EventSpec → Except Fault Unit} {instruction port word : ℕ} :
    (codeword validate instruction port word now epoch).Logs (·.Of now epoch operations) s :=
  .get_bind <| .lift_bind fun _ _ => .lift_bind fun _ _ => .lift_bind fun _ _ => .lift_bind
    fun _ _ => .lift_bind fun _ _ => .lift_bind fun _ _ => .lift_bind fun _ _ => .lift_bind
      fun _ _ => .lift_bind fun _ _ => .bind (.zoom <| .of_quiet quiet_commitReservation)
        fun _ _ _ _ => .modify_bind <| .emit_bind ⟨rfl, rfl, rfl⟩ <| .pure _

theorem fetchMeasurement_records {instruction qubit : ℕ} :
    (fetchMeasurement instruction qubit now epoch).Logs (·.Of now epoch operations) s := by
  refine .get_bind <| .lift_bind fun _ _ => .bind enqueue_records fun done _ _ _ => ?_
  split
  · refine .get_bind <| .lift_bind fun value _ => ?_
    cases value with
    | none => exact .pure _
    | some value => exact .emit_bind ⟨rfl, rfl, rfl⟩ <| .pure _
  · exact .pure _

theorem halt_records : (halt now epoch).Logs (·.Of now epoch operations) s := by
  refine .bind enqueue_records fun done _ _ _ => ?_
  split
  · exact .get_bind <| .lift_bind fun _ _ => .set_bind <| .pure _
  · exact .pure _

theorem quiet_synchronize {validateSync : Option (ℕ → Except Fault Unit)} {target : ℕ} :
    (synchronize validateSync target).Quiet :=
  .get_bind fun _ => .bind (.check _) fun _ => .bind (.check _) fun _ => .bind (.check _) fun _ =>
    .bind (.check _) fun _ => .bind (.modify _) fun _ => .pure _

theorem execute_records {validate : EventSpec → Except Fault Unit}
    {validateSync : Option (ℕ → Except Fault Unit)} {operation : ControlOperation} :
    (execute validate validateSync operation now epoch).Logs (·.Of now epoch operations) s := by
  refine .get_bind <| .lift_bind fun _ _ => .lift_bind fun _ _ => .modify_bind <| .bind ?_
    fun result _ _ _ => .bind ?_ fun _ _ _ _ => .pure _
  · cases operation.command with
    | codeword port word => exact codeword_records
    | wait cycles =>
      dsimp only
      split
      · exact executeZeroWait_records
      · exact advanceTime_records
    | fetchMeasurement qubit => exact fetchMeasurement_records
    | halt => exact halt_records
    | synchronize target => exact .of_quiet quiet_synchronize
  · split
    · exact .modify _
    · exact .pure _

end TimingControl

/-! ## Synchronization -/

namespace SyncNetwork

theorem quiet_preflight {source target : ℕ} : (preflight source target now).Quiet :=
  .get_bind fun _ => .bind (.check _) fun _ => .bind (.check _) fun _ => .bind (fun _ => rfl)
    fun _ => .get_bind fun _ => .bind (.check _) fun _ => .bind (.check _) fun _ =>
      .bind (.check _) fun _ => .pure _

theorem quiet_send {source target : ℕ} : (send source target now).Quiet :=
  .bind quiet_preflight fun _ => .get_bind fun _ => .bind (.check _) fun _ =>
    .bind (.check _) fun _ _ => rfl

theorem quiet_receive {source target : ℕ} : (receive source target now).Quiet := by
  refine .get_bind fun n => ?_
  split
  · exact .check _
  · split
    · exact .pure _
    · exact .bind (fun _ => rfl) fun _ => .pure _

end SyncNetwork

namespace SyncUnit
variable {s : SyncUnit × SyncNetwork}

/-- The kinds of its records. -/
def kinds : TraceKind → Bool
  | .syncBooked | .syncReceived | .syncCompleted => true
  | _ => false

theorem quiet_preflight {targets : List ℕ} : (preflight targets now).Quiet := by
  refine .get_bind fun s => .bind (.check _) fun _ => .zoom ?_
  induction targets with
  | nil => exact .pure _
  | cons target rest ih => exact .bind SyncNetwork.quiet_preflight fun _ => ih

theorem bookAll_records {targets : List ℕ} :
    (bookAll now epoch targets).Logs (·.Of now epoch kinds) s := by
  induction targets generalizing s with
  | nil => exact .pure _
  | cons target rest ih =>
    exact .get_bind <| .lift_bind fun _ _ => .lift_bind fun _ _ =>
      .bind (.zoom <| .of_quiet SyncNetwork.quiet_send) fun _ _ _ _ => .modify_bind <|
        .emit_bind ⟨rfl, rfl, rfl⟩ ih

theorem book_records {targets : List ℕ} : (book targets now epoch).Logs (·.Of now epoch kinds) s :=
  .bind (.of_quiet quiet_preflight) fun _ _ _ _ => bookAll_records

theorem step_records : (step now epoch).Logs (·.Of now epoch kinds) s := by
  obtain ⟨u, n⟩ := s
  refine .get_bind ?_
  dsimp only
  split
  · exact .pure _
  · refine .bind ?_ fun booking s₁ _ _ => ?_
    · unfold receive
      split
      · exact .pure _
      · refine .get_bind <| .bind (.zoom <| .of_quiet SyncNetwork.quiet_receive)
          fun arrival _ _ _ => ?_
        cases arrival with
        | none => exact .pure _
        | some arrival => exact .modify_bind <| .emit_bind ⟨rfl, rfl, rfl⟩ <| .pure _
    · split
      · exact .emit_bind ⟨rfl, rfl, rfl⟩ <| .modify_bind <| .pure _
      · exact .pure _

end SyncUnit

/-! ## A core -/

namespace Core

/-- The kinds of its records. -/
def kinds (kind : TraceKind) : Bool :=
  TimingControl.arrivals kind || TimingControl.operations kind || TcuCycleModel.kinds kind ||
    SyncUnit.kinds kind || kind = .endOfStreamVisible

variable {x : Core × SyncNetwork}

theorem executeAll_records {validate : EventSpec → Except Fault Unit}
    {validateSync : ℕ → Except Fault Unit} {operations : List ControlOperation} {s : ControlState} :
    (executeAll validate validateSync now epoch operations).Logs
      (·.Of now epoch TimingControl.operations) s := by
  induction operations generalizing s with
  | nil => exact .pure _
  | cons operation rest ih =>
    exact .bind TimingControl.execute_records fun _ _ _ _ => .bind ih fun _ _ _ _ => .pure _

theorem cpuEdge_records {validate : EventSpec → Except Fault Unit}
    {operations : List ControlOperation} :
    (cpuEdge validate operations now epoch).Logs (·.Of now epoch kinds) x := by
  obtain ⟨c, n⟩ := x
  refine .get_bind <| .zoom <| .zoom <| .bind (TimingControl.receive_records.mono fun r hr => ?_)
    fun _ _ _ _ => executeAll_records.mono fun r hr => ?_
  · exact ⟨hr.tick, hr.epoch, by simp [kinds, hr.kind]⟩
  · exact ⟨hr.tick, hr.epoch, by simp [kinds, hr.kind]⟩

theorem takeFastResults_records {entries : List (Mailbox.Envelope Completion)}
    {links : ControlLinks} : (takeFastResults now epoch entries).Logs
      (·.Of now epoch (· = .staleCompletionDiscarded)) links := by
  induction entries generalizing links with
  | nil => exact .pure _
  | cons result rest ih =>
    unfold takeFastResults
    split
    · exact .pure _
    · refine .modify_bind <| .bind ?_ fun _ _ _ _ => .bind ih fun _ _ _ _ => .pure _
      split
      · exact .pure _
      · exact .emit ⟨rfl, rfl, rfl⟩

theorem quiet_reply : (reply now epoch).Quiet := by
  refine .get_bind fun links => ?_
  split
  · exact .pure _
  · exact .bind (fun _ => rfl) fun _ => .bind (.check _) fun _ => .modify _

theorem quiet_credit {references : List MeasurementReference} :
    (credit now epoch references).Quiet := by
  induction references with
  | nil => exact .pure _
  | cons reference rest ih =>
    exact .get_bind fun _ => .bind (.check _) fun _ => .bind (fun _ => rfl) fun _ => ih

theorem finish_records {s : ControlLinks × TcuCycleModel} :
    (finish now epoch).Logs (·.Of now epoch (· = .endOfStreamVisible)) s := by
  obtain ⟨links, m⟩ := s
  refine .get_bind ?_
  dsimp only
  split
  · exact .pure _
  · refine .set_bind <| .lift_bind fun _ _ => .bind (.zoom <| .of_quiet ?_) fun _ _ _ _ =>
      .emit ⟨rfl, rfl, rfl⟩
    exact TcuCycleModel.quiet_close

section Parts
variable {α : Type} {P : TraceEvent → Prop}

theorem onLinks_logs {y : Sim ControlLinks α} (hy : ∀ links, y.Logs P links) : (onLinks y).Logs P x :=
  hy x.1.links

theorem onSync_logs {y : Sim (SyncUnit × SyncNetwork) α} (hy : ∀ s, y.Logs P s) :
    (onSync y).Logs P x :=
  hy (x.1.sync, x.2)

theorem onTcu_logs {y : Sim (TcuCycleModel × (SyncUnit × SyncNetwork)) α} (hy : ∀ s, y.Logs P s) :
    (onTcu y).Logs P x :=
  hy (x.1.tcu, x.1.sync, x.2)

theorem onClosure_logs {y : Sim (ControlLinks × TcuCycleModel) α} (hy : ∀ s, y.Logs P s) :
    (onClosure y).Logs P x :=
  hy (x.1.links, x.1.tcu)

end Parts

theorem tcuEdge_records {preflight : TriggeredEvents → Except Fault Unit} :
    (tcuEdge preflight now epoch).Logs (·.Of now epoch kinds) x := by
  have hsync : ∀ r : TraceEvent, r.Of now epoch SyncUnit.kinds → r.Of now epoch kinds :=
    fun r hr => ⟨hr.tick, hr.epoch, by simp [kinds, hr.kind]⟩
  have hstale : ∀ r : TraceEvent, r.Of now epoch (· = .staleCompletionDiscarded) →
      r.Of now epoch kinds :=
    fun r hr => ⟨hr.tick, hr.epoch, by simp [kinds, of_decide_eq_true hr.kind,
      TimingControl.arrivals]⟩
  have hunit : ∀ r : TraceEvent, r.Of now epoch TcuCycleModel.kinds → r.Of now epoch kinds :=
    fun r hr => ⟨hr.tick, hr.epoch, by simp [kinds, hr.kind]⟩
  have hend : ∀ r : TraceEvent, r.Of now epoch (· = .endOfStreamVisible) → r.Of now epoch kinds :=
    fun r hr => ⟨hr.tick, hr.epoch, by simp [kinds, of_decide_eq_true hr.kind]⟩
  have hcheck : ∀ {check}, check ∈ some (fun targets => SyncUnit.preflight targets now) →
      ∀ targets c, (check targets).Logs (·.Of now epoch TcuCycleModel.kinds) c := by
    intro check hcheck targets c
    obtain rfl := Option.some.inj hcheck
    exact .of_quiet SyncUnit.quiet_preflight
  refine .bind (onSync_logs fun _ => SyncUnit.step_records.mono hsync) fun _ _ _ _ => .get_bind <|
    .bind (onLinks_logs fun _ => takeFastResults_records.mono hstale) fun _ _ _ _ =>
      .bind (onTcu_logs fun _ => (TcuCycleModel.step_records fun _ => hcheck).mono hunit)
        fun output _ _ _ => .bind ?_ fun _ _ _ _ =>
          .bind (onSync_logs fun _ => SyncUnit.book_records.mono hsync) fun _ _ _ _ =>
            .bind (onLinks_logs fun _ => .of_quiet quiet_credit) fun _ _ _ _ =>
              .bind (onClosure_logs fun _ => finish_records.mono hend) fun _ _ _ _ => .pure _
  split
  · exact onLinks_logs fun _ => .of_quiet quiet_reply
  · exact .pure _

theorem quiet_deliver {result : Completion} : (deliver result now epoch).Quiet := by
  refine .get_bind fun c => .bind (.check _) fun _ => .bind (fun _ => rfl) fun _ => ?_
  split
  · exact .get_bind fun _ => .bind (.check _) fun _ _ => rfl
  · exact .pure _

theorem quiet_reset : (reset now).Quiet :=
  .bind (.modify _) fun _ => .bind (.zoom TcuCycleModel.quiet_reset) fun _ => .modify _

end Core

/-! ## Decoders -/

namespace DecoderSystem
variable {s : DecoderSystem} {kind : TraceKind} {id core target tag : ℕ}

/-- The kinds of their records. -/
def kinds : TraceKind → Bool
  | .decoderRequestSubmitted | .decoderRequestSent | .decoderRequestArrived | .decoderStarted
  | .decoderCompleted | .decoderResultReturned | .decoderReset | .decoderResultConsumed => true
  | _ => false

theorem event_records (hkind : kinds kind = true) :
    (event now epoch kind id core target tag).Logs (·.Of now epoch kinds) s :=
  .get_bind <| .emit ⟨rfl, rfl, hkind⟩

theorem send_records {reset : Bool} {submission : DecoderSubmit} :
    (send core reset submission now epoch).Logs (·.Of now epoch kinds) s := by
  refine .get_bind ?_
  split
  · exact .pure _
  · exact .lift_bind fun _ _ => .lift_bind fun _ _ => .lift_bind fun _ _ => .lift_bind fun _ _ =>
      .modify_bind <| .bind (event_records rfl) fun _ _ _ _ => .pure _

theorem quiet_mmio_access {request : MemoryRequest} : (DecoderMmio.access core request).Quiet := by
  have hwrite : ∀ r, (DecoderMmio.write core r).Quiet := fun r =>
    .bind (.modify _) fun _ => .pure _
  refine .get_bind fun m => .bind (.check _) fun _ => ?_
  dsimp only
  split
  · split
    · exact .bind (.check _) fun _ => hwrite _
    split
    · exact hwrite _
    split
    · exact hwrite _
    split
    · exact hwrite _
    split
    · exact hwrite _
    split
    · exact .bind (.check _) fun _ => .pure _
    · exact .check _
  · exact .bind (.check _) fun _ => .pure _

theorem quiet_result {result : Option ℕ} {shift : ℕ} :
    (match result with
      | none => Proc.check (.error ⟨.protocol, "decoder result read before completion"⟩)
      | some result => pure (some ((result >>> shift) % 2 ^ 32)) :
        Sim DecoderSystem (Option ℕ)).Quiet := by
  split
  · exact .check _
  · exact .pure _

theorem quiet_read {decoder : ℕ} {kind : DecoderReadKind} :
    (read core decoder kind).Quiet := by
  refine .get_bind fun s => ?_
  cases kind with
  | count => exact .bind (.check _) fun _ => .pure _
  | status => exact .bind (.modify _) fun _ => .pure _
  | low => exact .bind (.modify _) fun _ => quiet_result
  | high => exact .bind (.modify _) fun _ => quiet_result

theorem access_records {request : MemoryRequest} :
    (access core request now epoch).Logs (·.Of now epoch kinds) s := by
  refine .bind (.zoom (.of_quiet quiet_mmio_access)) fun command s₁ _ _ => ?_
  rcases command with _ | command
  · exact .pure _
  · cases command with
    | consume decoder =>
      exact .modify_bind <| .get_bind <| .lift_bind fun _ _ => .modify_bind <|
        .bind (event_records rfl) fun _ _ _ _ => .pure _
    | read decoder kind => exact .of_quiet quiet_read
    | reset decoder tag => exact send_records
    | submit submission => exact send_records

theorem advanceTransmission_records :
    (advanceTransmission now epoch).Logs (·.Of now epoch kinds) s := by
  refine .get_bind <| .bind (.emitAll ?_) fun _ s₁ _ _ => .modify_bind ?_
  · intro e he
    obtain ⟨p, -, rfl⟩ := List.mem_map.1 he
    exact ⟨rfl, rfl, rfl⟩
  · cases s.resetRequest with
    | none => exact .pure _
    | some p =>
      rw [Proc.forSome_some]
      split
      · exact .modify_bind <| event_records rfl
      · exact .pure _

theorem advanceJob_records {j : Job} : (advanceJob now epoch j).Logs (·.Of now epoch kinds) s := by
  refine .bind ?_ fun _ s₁ _ _ => .bind ?_ fun _ s₂ _ _ => ?_
  · split
    · exact event_records rfl
    · exact .pure _
  · split
    · exact event_records rfl
    · exact .pure _
  · split
    · refine .bind (.get_bind ?_) fun _ _ _ _ => .pure _
      split
      · exact .check _
      · exact .modify_bind <| event_records rfl
    · exact .pure _

theorem advanceFrom_records {kept jobs : List Job} :
    (advanceFrom now epoch kept jobs).Logs (·.Of now epoch kinds) s := by
  induction jobs generalizing kept s with
  | nil => exact .pure _
  | cons j rest ih => exact .bind advanceJob_records fun _ _ _ _ => .modify_bind ih

theorem admitRequest_records {p : Request} :
    (admitRequest now epoch p).Logs (·.Of now epoch kinds) s := by
  refine .get_bind <| .lift_bind fun d _ => .modify_bind <| .get_bind ?_
  dsimp only
  split
  · exact .pure _
  · refine .lift_bind fun _ _ => ?_
    split
    · exact .pure _
    · refine .modify_bind <| .bind (event_records rfl) fun _ _ _ _ =>
        .bind ?_ fun _ _ _ _ => .pure _
      split
      · exact .get_bind <| .lift_bind fun _ _ => .lift_bind fun _ _ => .lift_bind fun _ _ =>
          .lift_bind fun _ _ => .modify_bind <| .lift_bind fun _ _ => .modify _
      · exact .pure _

theorem admitFrom_records {requests : List Request} :
    (admitFrom now epoch requests).Logs (·.Of now epoch kinds) s := by
  induction requests generalizing s with
  | nil => exact .pure _
  | cons p rest ih =>
    unfold admitFrom
    split
    · refine .bind admitRequest_records fun admitted _ _ _ => ?_
      split
      · exact .modify_bind ih
      · exact .pure _
    · exact .pure _

theorem quiet_transmitResult : (transmitResult now).Quiet := by
  refine .get_bind fun s => ?_
  split
  · cases readyJob s.jobs with
    | none => exact .pure _
    | some ready =>
      exact .bind (.check _) fun _ => .bind (.check _) fun _ => .bind (.check _) fun _ =>
        .bind (.check _) fun _ => .modify _
  · exact .pure _

theorem step_records : (step now epoch).Logs (·.Of now epoch kinds) s :=
  .bind advanceTransmission_records fun _ _ _ _ => .bind (.get_bind advanceFrom_records) fun _ _ _ _ =>
    .bind (.get_bind admitFrom_records) fun _ _ _ _ => .of_quiet quiet_transmitResult

end DecoderSystem

/-! ## The memory -/

namespace MemoryModel
variable {δ : Type} {d : MemoryDevice δ} {P : TraceEvent → Prop}

theorem quiet_accept {clock : Clock} {latency : ℕ} {instruction : Bool} :
    (accept (δ := δ) clock latency instruction now epoch).Quiet := by
  refine .get_bind fun s => ?_
  split
  · exact .pure _
  · split
    · exact .pure _
    · refine .bind (.modify _) fun _ => ?_
      split
      · exact .pure _
      · exact .bind (.check _) fun _ => .bind (.check _) fun _ => .bind (.modify _) fun _ =>
          .bind (.check _) fun _ => .bind (.check _) fun _ => .modify _

theorem respond_logs {request : MemoryRequest} {b : Bank δ}
    (hd : ∀ device, (d.access request now epoch).Logs P device) :
    (respond d request now epoch).Logs P b := by
  refine .handle (.bind (.get_bind ?_) fun _ _ _ _ => .pure _) fun _ _ => .pure _
  split
  · exact .zoom (hd _)
  · split
    · exact .lift_bind fun _ _ => .of_quiet fun _ => rfl
    · exact .lift_bind fun _ _ => .pure _

/-- The memory records nothing itself. -/
theorem step_logs (hd : ∀ request device, (d.access request now epoch).Logs P device)
    {m : MemoryModel δ} : (step d now epoch).Logs P m := by
  have hport : ∀ {clock latency instruction} {s : Lane × Bank δ},
      (stepPort d clock latency instruction now epoch).Logs P s := by
    intro clock latency instruction s
    refine .get_bind <| .bind (.get_bind ?_) fun _ s₁ _ _ => ?_
    · split
      · exact .pure _
      · split
        · refine .bind (.zoom (respond_logs fun _ => hd _ _)) fun response _ _ _ => ?_
          cases response with
          | none => exact .pure _
          | some response => exact .lift_bind fun _ _ => .modify _
        · exact .modify _
    · split
      · exact .pure _
      · exact .of_quiet quiet_accept
  exact .get_bind <| .lift_bind fun _ _ => .bind (.zoom hport) fun _ _ _ _ => .zoom hport

end MemoryModel

/-! ## The pipeline -/

namespace InOrderPipeline
variable {δ : Type} {s : CpuState δ} {frame : Frame} {d : Rv32.Decoded}

theorem quiet_takeFetch : (takeFetch (δ := δ) now epoch).Quiet := by
  refine .get_bind fun s => ?_
  split
  · exact .pure _
  · refine .bind (.modify _) fun _ => ?_
    split
    · split
      · exact .check _
      · refine .bind (.check _) fun _ => .bind ?_ fun _ => .modify _
        split
        · exact .bind (.check _) fun _ => .modify _
        · exact .pure _
    · exact .pure _

theorem quiet_fetchNext : (fetchNext (δ := δ) now epoch).Quiet := by
  refine .get_bind fun s => ?_
  dsimp only
  split
  · exact .bind (.check _) fun _ => .bind (.modify _) fun _ => .bind (.check _) fun _ =>
      .bind (.modify _) fun _ => .modify _
  · exact .pure _

theorem quiet_accessData {effect : Rv32.Effect} :
    (accessData (δ := δ) frame effect now epoch).Quiet := by
  refine .get_bind fun s => ?_
  split
  · split
    · exact .pure _
    · exact .bind (.check _) fun _ => .bind (.modify _) fun _ => .bind (.check _) fun _ =>
        .bind (.modify _) fun _ => .bind (.modify _) fun _ => .pure _
  · split
    · exact .pure _
    · refine .bind (.modify _) fun _ => .bind (.check _) fun _ => .bind (.check _) fun _ => ?_
      split
      · exact .bind (.check _) fun _ => .pure _
      · exact .pure _

theorem quiet_executePlain : (executePlain (δ := δ) d frame now epoch).Quiet := by
  have hrest : ∀ effect : Rv32.Effect, (modifyFrame (fun frame => { frame with effect := some effect }) >>=
      fun _ => if effect.memory = .none then
          pure (some { value := effect.value, nextPc := effect.nextPc, flush := effect.branchTaken })
        else accessData frame effect now epoch : Cpu δ (Option Completion)).Quiet := by
    refine fun effect => .bind (.modify _) fun _ => ?_
    split
    · exact .pure _
    · exact quiet_accessData
  unfold executePlain
  split
  · exact .bind (.pure _) hrest
  · exact .bind (.check _) hrest

variable {control : ControlCallback δ}

theorem callControl_at (hcontrol : ∀ operation device,
      (control operation now epoch).Logs (Log.At now) device) {operation : ControlOperation} :
    (callControl control operation now epoch).Logs (Log.At now) s := by
  have hcalled : ∀ reply, Log.At now (CpuRecord.called operation reply) := fun reply t ht => by
    cases ht
  exact .bind (.zoom (.translate (hcontrol _ _))) fun reply _ _ _ =>
    .emit_bind (hcalled reply) (.pure _)

theorem issueLanes_at (hcontrol : ∀ operation device,
      (control operation now epoch).Logs (Log.At now) device) {operations : List ControlOperation} :
    (issueLanes control now epoch operations).Logs (Log.At now) s := by
  induction operations generalizing s with
  | nil => exact .pure _
  | cons operation rest ih =>
    refine .bind (callControl_at hcontrol) fun reply _ _ _ => ?_
    cases reply with
    | none => exact .pure _
    | some value => exact .modify_bind ih

theorem executeFrame_at (hcontrol : ∀ operation device,
      (control operation now epoch).Logs (Log.At now) device) {registers : RegisterFile} :
    (executeFrame control d frame registers now epoch).Logs (Log.At now) s := by
  unfold executeFrame
  split
  · exact .bind (issueLanes_at hcontrol) fun _ _ _ _ => .pure _
  · split
    · exact .lift_bind fun _ _ => .bind (callControl_at hcontrol) fun _ _ _ _ => .pure _
    · split
      · refine .bind (callControl_at hcontrol) fun reply _ _ _ => ?_
        cases reply with
        | none => exact .pure _
        | some value => exact .modify_bind (.pure _)
      · exact .of_quiet quiet_executePlain

theorem executeStage_at (hcontrol : ∀ operation device,
      (control operation now epoch).Logs (Log.At now) device) :
    (executeStage control now epoch).Logs (Log.At now) s := by
  refine .get_bind ?_
  cases s.pipeline.execute with
  | none => exact .pure _
  | some frame =>
    refine .lift_bind fun _ _ => ?_
    cases frame.decoded with
    | none => exact .check _
    | some d =>
      refine .bind (executeFrame_at hcontrol) fun completion _ _ _ => ?_
      cases completion with
      | none => exact .emit_bind (.of_stamp rfl) (.pure _)
      | some completion =>
        exact .bind (.modify_bind <| .get_bind <| .emit_bind (.of_stamp rfl) (.modify _))
          fun _ _ _ _ => .pure _

/-- The records of an edge carry its tick, if those of the control do. -/
theorem step_at (hcontrol : ∀ operation device,
      (control operation now epoch).Logs (Log.At now) device) :
    (step control now epoch).Logs (Log.At now) s := by
  refine .get_bind <| .lift_bind fun _ _ => .bind ?_ fun _ _ _ _ => .get_bind ?_
  · refine .bind (.of_quiet quiet_takeFetch) fun _ _ _ _ => .get_bind ?_
    split
    · exact .pure _
    · refine .bind (executeStage_at hcontrol) fun flushes _ _ _ => .bind ?_ fun _ _ _ _ => .get_bind ?_
      · split
        · exact .get_bind <| .lift_bind fun _ _ => .modify_bind <| .emit (.of_stamp rfl)
        · exact .pure _
      · split
        · exact .pure _
        · exact .modify_bind <| .of_quiet quiet_fetchNext
  · dsimp only
    split
    · exact .pure _
    · exact .emit_bind (.of_stamp rfl) (.modify _)

end InOrderPipeline

/-! ## The device -/

namespace ControlElectronics
variable {β χ : Type} {backend : QuantumBackend β} {d : ControlElectronics β}

/-- The kinds of its records. -/
def kinds : TraceKind → Bool
  | .codewordTriggered | .measurementSampled | .operationStart | .operationEnd | .gateApplied
  | .resultReady | .resetAborted => true
  | _ => false

theorem quiet_insertAll {readouts : List Readout} : (Readouts.insertAll readouts).Quiet := by
  induction readouts with
  | nil => exact .pure _
  | cons readout rest ih =>
    exact .bind (.get_bind fun _ => .bind (.check _) fun _ _ => rfl) fun _ => ih

theorem scheduleAll_records {batch : TriggeredEvents} {actions : List ScheduledEvent} :
    (scheduleAll batch actions).Logs (·.Of batch.fireTick batch.epoch kinds) d := by
  induction actions generalizing d with
  | nil => exact .pure _
  | cons a rest ih => exact .modify_bind <| .emit_bind ⟨rfl, rfl, rfl⟩ ih

theorem accept_records {batch : TriggeredEvents} :
    (accept backend batch).Logs (·.Of batch.fireTick batch.epoch kinds) d := by
  refine .get_bind <| .lift_bind fun x _ => ?_
  obtain ⟨actions, readouts⟩ := x
  refine .lift_bind fun _ _ => .modify_bind <| .bind (.zoom <| .of_quiet quiet_insertAll)
    fun _ _ _ _ => .modify_bind <| scheduleAll_records

theorem sampleAll_records {pairs : List (MeasurementReference × Bool)} :
    (sampleAll now epoch pairs).Logs (·.Of now epoch kinds) d := by
  induction pairs generalizing d with
  | nil => exact .pure _
  | cons pair rest ih =>
    exact .bind (.zoom <| .get_bind <| .lift_bind fun _ _ => .of_quiet fun _ => rfl)
      fun _ _ _ _ => .get_bind <| .lift_bind fun _ _ => .emit_bind ⟨rfl, rfl, rfl⟩ ih

theorem endAll_records {ids : List ℕ} :
    (endAll now epoch ids).Logs (·.Of now epoch kinds) d := by
  induction ids generalizing d with
  | nil => exact .pure _
  | cons id rest ih =>
    refine .get_bind ?_
    split
    · exact .check _
    · exact .emit_bind ⟨rfl, rfl, rfl⟩ <| .set_bind ih

theorem gatesApplied_records {outputs : List (String × List ScheduledEvent)} :
    (gatesApplied now epoch outputs).Logs (·.Of now epoch kinds) d := by
  induction outputs generalizing d with
  | nil => exact .pure _
  | cons output rest ih =>
    exact .get_bind <| .lift_bind fun _ _ => .emit_bind ⟨rfl, rfl, rfl⟩ ih

theorem startAll_records {starts : List ScheduledEvent} :
    (startAll now epoch starts).Logs (·.Of now epoch kinds) d := by
  induction starts generalizing d with
  | nil => exact .pure _
  | cons a rest ih =>
    exact .get_bind <| .lift_bind fun _ _ => .set_bind <| .emit_bind ⟨rfl, rfl, rfl⟩ ih

section Process
variable {P : TraceEvent → Prop} {deliver : Completion → Sim χ Unit} {x : χ}

theorem deliverAll_logs (hP : ∀ r : TraceEvent, r.Of now epoch kinds → P r)
    (hdeliver : ∀ c x, (deliver c).Logs P x) {ids : List ℕ} :
    (deliverAll now epoch deliver ids).Logs P (d, x) := by
  induction ids generalizing d x with
  | nil => exact .pure _
  | cons id rest ih =>
    exact .get_bind <| .lift_bind fun _ _ => .lift_bind fun _ _ =>
      .bind (.zoom (hdeliver _ _)) fun _ _ _ _ => .emit_bind (hP _ ⟨rfl, rfl, rfl⟩) <|
        .bind (.zoom <| .zoom <| .modify _) fun _ _ _ _ => ih

theorem enact_records {boundary : Boundary} {p : Plan} :
    (enact backend now epoch boundary p).Logs (·.Of now epoch kinds) d := by
  refine .get_bind <| .bind ?_ fun _ _ _ _ => .bind
    (.zoom (.of_quiet BackendExecution.quiet_measure)) fun _ _ _ _ => .bind sampleAll_records
      fun _ _ _ _ => .bind endAll_records fun _ _ _ _ => .bind
        (.zoom (.of_quiet BackendExecution.quiet_apply)) fun _ _ _ _ =>
          .bind gatesApplied_records fun _ _ _ _ => startAll_records
  split
  · exact .zoom (.of_quiet BackendExecution.quiet_evolve)
  · exact .pure _

/-- The records of a boundary are its own and those of the deliveries. -/
theorem process_logs (hP : ∀ r : TraceEvent, r.Of now epoch kinds → P r)
    (hdeliver : ∀ c x, (deliver c).Logs P x) :
    (process backend now epoch deliver).Logs P (d, x) := by
  refine .get_bind <| .lift_bind fun _ _ => ?_
  split
  · exact .pure _
  · exact .lift_bind fun p _ => .bind (.zoom (enact_records.mono hP)) fun _ _ _ _ =>
      .bind (deliverAll_logs hP hdeliver) fun _ _ _ _ => .zoom (.modify _)

end Process

theorem quiet_finalize : (finalize backend now).Quiet := by
  refine .get_bind fun d => .bind (.check _) fun _ => .bind (.check _) fun _ => .bind ?_ fun _ =>
    .bind (.modify _) fun _ => .zoom BackendExecution.quiet_flush
  split
  · exact .zoom BackendExecution.quiet_evolve
  · exact .pure _

end ControlElectronics
end Qsbit

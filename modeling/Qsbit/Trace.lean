import Qsbit.Event

/-!
# Trace records

Components append records to a trace they never read back, except that the trace refuses a
record that is older than its last one. The log of a `Proc` is that trace.
-/
namespace Qsbit

/-- The kinds of record the modelled components append. -/
inductive TraceKind
  | sessionStarted | sessionReset | simulationCompleted | fault
  | codewordQueued | timingPointSubmitted | enqueueAcknowledged | measurementRegisterUpdated
  | measurementRegisterRead | staleCompletionDiscarded
  | waitZeroExecuted | timingPointTriggered | conditionCancelled | timingPointEnqueued
  | executionFlagsUpdated | timerPaused | timerResumed | endOfStreamVisible
  | syncBooked | syncReceived | syncCompleted
  | codewordTriggered | measurementSampled | operationStart | operationEnd | gateApplied
  | resultReady | resetAborted
  | decoderRequestSubmitted | decoderRequestSent | decoderRequestArrived | decoderStarted
  | decoderCompleted | decoderResultReturned | decoderReset | decoderResultConsumed
  deriving DecidableEq, Repr

/-- What a record of the decoders tells about them. -/
structure DecoderTrace where
  id : ℕ
  tag : ℕ
  requests : ℕ
  resets : ℕ
  jobs : ℕ
  deriving DecidableEq, Repr

structure TraceEvent where
  tick : ℕ
  epoch : ℕ
  kind : TraceKind
  id : ℕ := 0
  label : ℕ := 0
  cycle : ℕ := 0
  port : ℕ := 0
  codeword : ℕ := 0
  targets : List ℕ := []
  operation : String := ""
  detail : String := ""
  value : ℕ := 0
  core : Option ℕ := none
  decoder : Option DecoderTrace := none
  deriving DecidableEq, Repr

instance : Stamped TraceEvent where
  stamp e := some e.tick

/-- A procedure of the simulator: it faults with a `Fault` and logs trace records. -/
abbrev Sim (σ α : Type) : Type := Proc Fault TraceEvent σ α

/-- A record of the tick and of the session, of one of the kinds. -/
structure TraceEvent.Of (now epoch : ℕ) (kinds : TraceKind → Bool) (e : TraceEvent) : Prop where
  tick : e.tick = now
  epoch : e.epoch = epoch
  kind : kinds e.kind = true

theorem TraceEvent.at_of_tick {now : ℕ} {e : TraceEvent} (h : e.tick = now) : Log.At now e := by
  intro t ht
  rw [← Option.some.inj ht, h]

theorem TraceEvent.Of.at {now epoch : ℕ} {kinds : TraceKind → Bool} {e : TraceEvent}
    (h : e.Of now epoch kinds) : Log.At now e := at_of_tick h.tick

end Qsbit

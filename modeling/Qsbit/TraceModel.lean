import Qsbit.Cpu
import Std.Data.ExtTreeMap

/-!
# The trace player

The player shows a recorded run. It reads the records of a trace one after the other and
reconstructs what the parts of the system hold, among it the queue of each timing control
unit and the codewords that are staged for the next point. Nothing but the trace is known
to it. Numbers are naturals here; the player's are exact up to `2 ^ 53`.

## Main definitions

* `TraceModel.Record` — a line of a trace.
* `TraceModel.State`, `TraceModel.CoreState` — what the player shows.
* `TraceModel.reduce` — the effect of one record.
-/
namespace Qsbit
namespace TraceModel
open Std (ExtTreeMap)

/-! ## Records -/

/-- What a record of a CPU tells. -/
inductive CpuTrace
  | cpuPipelineUpdated (cycle : ℕ) (state : CpuPipelineState)
  | instructionRetired (id cycle : ℕ) (state : InstructionRetired)
  | cpuStalled (id : ℕ) (detail : String)
  | pipelineFlushed

/-- A line of a trace. -/
inductive Record
  | event (e : TraceEvent)
  | cpu (tick epoch : ℕ) (core : Option ℕ) (r : CpuTrace)

namespace Record

def epoch : Record → ℕ
  | event e => e.epoch
  | cpu _ epoch _ _ => epoch

def core : Record → Option ℕ
  | event e => e.core
  | cpu _ _ core _ => core

/-- The record, unless a CPU has made it. -/
def event? : Record → Option TraceEvent
  | event e => some e
  | cpu _ _ _ _ => none

/-- The first record of a session. -/
def startsSession : Record → Bool
  | event e => e.kind = .sessionStarted ∨ e.kind = .sessionReset
  | cpu _ _ _ _ => false

end Record

/-! ## States -/

/-- A timing point with its codewords; the point's time is known once it has been submitted. -/
structure QueueItem where
  label : ℕ
  point : Option ℕ
  codewords : List TraceEvent
  tick : ℕ
  deriving DecidableEq, Repr

structure FlagState where
  event : TraceEvent
  lastOne : Bool
  lastZero : Bool
  equal : Option Bool
  deriving DecidableEq, Repr

/-- The last record of each kind about a measurement. -/
structure MeasurementState where
  id : ℕ
  targets : List ℕ
  measurementSampled : Option TraceEvent := none
  resultReady : Option TraceEvent := none
  measurementRegisterUpdated : Option TraceEvent := none
  executionFlagsUpdated : Option TraceEvent := none
  deriving DecidableEq, Repr

/-- What is shown of a core. -/
structure CoreState where
  retired : Option Record := none
  pipeline : Option Record := none
  stall : Option Record := none
  point : Option TraceEvent := none
  staged : List TraceEvent := []
  submitted : ExtTreeMap ℕ QueueItem := ∅
  queue : List QueueItem := []
  occupancy : Option TraceEvent := none
  cycle : Option TraceEvent := none
  triggered : Option TraceEvent := none
  registers : ExtTreeMap ℕ TraceEvent := ∅
  flags : ExtTreeMap ℕ FlagState := ∅
  measurements : ExtTreeMap ℕ MeasurementState := ∅
  read : Option TraceEvent := none
  sync : Option TraceEvent := none
  paused : Option TraceEvent := none
  cancelled : Option TraceEvent := none
  output : Option TraceEvent := none

structure State where
  epoch : Option ℕ := none
  cores : ExtTreeMap ℕ CoreState := ∅
  /-- The operations that are under way, by core and identity. -/
  active : ExtTreeMap ℕ (ExtTreeMap ℕ TraceEvent) := ∅
  lastOutput : ExtTreeMap ℕ TraceEvent := ∅
  gate : Option TraceEvent := none
  terminal : Option TraceEvent := none

/-! ## The effect of a record -/

def coreId (r : Record) : ℕ := r.core.getD 0

/-- The state before a record: another session starts with nothing. -/
def enter (s : State) (r : Record) : State :=
  let s := if r.startsSession ∨ ∃ epoch ∈ s.epoch, r.epoch ≠ epoch then {} else s
  { s with epoch := some r.epoch }

/-- A core that has not been mentioned is a fresh one. -/
def State.core (s : State) (id : ℕ) : CoreState := s.cores[id]?.getD {}

/-- Take the flags of the qubits that a result belongs to. -/
def updateFlags (e : TraceEvent) (flags : ExtTreeMap ℕ FlagState) : ExtTreeMap ℕ FlagState :=
  e.targets.foldl (fun flags q =>
    flags.insert q
      { event := e, lastOne := e.value ≠ 0, lastZero := e.value = 0
        equal := flags[q]?.map fun previous => previous.event.value = e.value }) flags

/-- Remember a record of a measurement; the four latest measurements are kept. -/
def remember (e : TraceEvent) (put : MeasurementState → MeasurementState)
    (measurements : ExtTreeMap ℕ MeasurementState) : ExtTreeMap ℕ MeasurementState :=
  let measurements :=
    measurements.insert e.id (put (measurements[e.id]?.getD { id := e.id, targets := e.targets }))
  (measurements.keys.reverse.drop 4).foldl (·.erase ·) measurements

/-- Remember the records about measurements. -/
def measure (e : TraceEvent) (c : CoreState) : CoreState :=
  match e.kind with
  | .measurementSampled =>
      { c with
        measurements := remember e (fun m => { m with measurementSampled := some e }) c.measurements }
  | .resultReady =>
      { c with measurements := remember e (fun m => { m with resultReady := some e }) c.measurements }
  | .measurementRegisterUpdated =>
      { c with
        measurements :=
          remember e (fun m => { m with measurementRegisterUpdated := some e }) c.measurements }
  | .executionFlagsUpdated =>
      { c with
        measurements :=
          remember e (fun m => { m with executionFlagsUpdated := some e }) c.measurements }
  | _ => c

/-- The effect of a record on its core. -/
def reduceCore (e : TraceEvent) (c : CoreState) : CoreState :=
  match e.kind with
  | .codewordQueued => { c with point := some e, staged := c.staged ++ [e] }
  | .timingPointSubmitted =>
      { c with
        point := some e
        submitted := c.submitted.insert e.label
          { label := e.label, point := some e.cycle, codewords := c.staged, tick := e.tick }
        staged := [] }
  | .timingPointEnqueued =>
      { c with
        cycle := some e
        queue := c.queue ++
          [c.submitted[e.label]?.getD
            { label := e.label, point := none, codewords := [], tick := e.tick }]
        submitted := c.submitted.erase e.label
        occupancy := some e }
  | .timingPointTriggered =>
      { c with
        cycle := some e
        triggered := some e
        queue := c.queue.filter (·.label ≠ e.label)
        occupancy := c.occupancy.map fun previous => { e with value := previous.value - 1 } }
  | .executionFlagsUpdated => { c with cycle := some e, flags := updateFlags e c.flags }
  | .conditionCancelled => { c with cancelled := some e }
  | .measurementRegisterUpdated =>
      { c with registers := e.targets.foldl (fun registers q => registers.insert q e) c.registers }
  | .measurementRegisterRead => { c with read := some e }
  | .timerPaused => { c with paused := some e }
  | .timerResumed => { c with paused := none }
  | .syncBooked | .syncReceived | .syncCompleted => { c with sync := some e }
  | .codewordTriggered => { c with output := some e }
  | _ => c

/-- The effect of a record on what belongs to no core. -/
def reduceShared (id : ℕ) (e : TraceEvent) (s : State) : State :=
  let running := s.active[id]?.getD ∅
  match e.kind with
  | .operationStart =>
      { s with
        active := s.active.insert id (running.insert e.id e)
        lastOutput := s.lastOutput.insert e.port e }
  | .operationEnd | .resetAborted => { s with active := s.active.insert id (running.erase e.id) }
  | .gateApplied => { s with gate := some e }
  | .simulationCompleted | .fault => { s with terminal := some e }
  | _ => s

/-- The effect of a record of a CPU on its core. -/
def reduceCpu (r : Record) (trace : CpuTrace) (c : CoreState) : CoreState :=
  match trace with
  | .cpuPipelineUpdated _ _ => { c with pipeline := some r }
  | .instructionRetired _ _ _ => { c with retired := some r, stall := none }
  | .cpuStalled _ _ => { c with stall := some r }
  | .pipelineFlushed => { c with stall := none }

def reduce (s : State) (r : Record) : State :=
  let s := enter s r
  let id := coreId r
  match r with
  | .cpu _ _ _ trace => { s with cores := s.cores.insert id (reduceCpu r trace (s.core id)) }
  | .event e =>
      let s := { s with cores := s.cores.insert id (measure e (reduceCore e (s.core id))) }
      reduceShared id e s

/-- What is shown at the end of a trace. -/
def play (trace : List Record) : State := trace.foldl reduce {}

end TraceModel
end Qsbit

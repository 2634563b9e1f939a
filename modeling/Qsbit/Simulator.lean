import Qsbit.Core
import Qsbit.Decoder
import Qsbit.Device.ControlElectronics
import Qsbit.Simulator.Config

/-!
# The simulator

The simulator owns the cores, their network, the decoders and the device. Five
methods are activated by a scheduler as time goes on: the edges of the clocks, a
wakeup and the barrier. What the processors of the cores do is given from
outside: the control operations that each of them issues on an edge, the accesses
to the decoders that its memory makes, and whether it has halted and is idle.

A reset is applied by the first method that runs on its tick. The barrier does
nothing until every edge of its tick has been seen; it then advances the decoders
and the device, and decides whether the simulation is complete.

## Main definitions

* `Simulator` — the state; `Simulator.make`, `Simulator.start` are its constructor.
* `Simulator.cpuEdge`, `memoryEdge`, `tcuEdge`, `wakeup`, `barrier` — the methods.
* `Simulator.activate` — one activation, which stops the simulator when it faults.
-/
namespace Qsbit

structure Simulator (β : Type) where
  profile : Profile
  cores : List Core
  portOffsets : List ℕ
  network : SyncNetwork
  decoders : DecoderSystem
  device : ControlElectronics β
  resets : List ℕ := []
  reverse : Bool := false
  epoch : ℕ := 1
  cpuDone : Option ℕ := none
  memoryDone : Option ℕ := none
  tcuDone : Option ℕ := none
  lastReset : Option ℕ := none
  stopped : Bool := false
  success : Bool := false
  fault : Option Fault := none
  wake : Option ℕ := none

/-- Nothing is left to be done in a core, apart from its processor. -/
def Core.drained (c : Core) : Bool :=
  c.timingControl.closed ∧ c.timingControl.enqueueRequest = none ∧ c.tcu.drained ∧ c.sync.drained ∧
    c.registers.deliveriesPending = false ∧ c.links.timingEvents.entries = [] ∧
    c.links.replies.entries = [] ∧ c.links.closure.entries = [] ∧ c.links.cpuResults.entries = [] ∧
    c.links.fastResults.entries = [] ∧ c.links.fastCredits.entries = []

namespace Simulator
variable {β : Type} (backend : QuantumBackend β)

def ids (s : Simulator β) : List ℕ := s.cores.map (·.id)

/-- The records of a core carry the core, if there are others. -/
def tag (s : Simulator β) (core : Core) (e : TraceEvent) : TraceEvent :=
  { e with core := if 1 < s.cores.length then some core.id else none }

/-- Run a procedure of a core, which may use the network. -/
def onCore {α : Type} (i : ℕ) (x : Core → Sim (Core × SyncNetwork) α) : Sim (Simulator β) α := do
  let s ← Proc.get
  match s.cores[i]? with
  | none => Proc.check (.error ⟨.protocol, "vector index out of range"⟩)
  | some core =>
      Proc.translate (s.tag core) (fun _ => rfl) <| Proc.zoom (fun s => (core, s.network))
        (fun x s => { s with cores := s.cores.set i x.1, network := x.2 }) (x core)

def onDecoders {α : Type} (x : Sim DecoderSystem α) : Sim (Simulator β) α :=
  Proc.zoom Simulator.decoders (fun decoders s => { s with decoders }) x

def onDevice {α : Type} (x : Sim (ControlElectronics β) α) : Sim (Simulator β) α :=
  Proc.zoom Simulator.device (fun device s => { s with device }) x

/-! ## Construction -/

def makeCores (fingerprint : Profile → String) : List CoreConfig → Except Fault (List Core)
  | [] => pure []
  | config :: rest => do
      let core ← Core.make (fingerprint config.profile) config.id config.profile config.syncCapacity
      let cores ← makeCores fingerprint rest
      pure (core :: cores)

/-- The simulator before its first record. -/
def make (fingerprint : Profile → String) (configs : List CoreConfig)
    (connections : List SyncConnection) (state : β) (resets : List ℕ) (reverse : Bool)
    (maxBatchOperations : ℕ) (decoding : DecoderSystemConfig) : Except Fault (Simulator β) := do
  let profile ← validated configs connections
  let decoders ← DecoderSystem.make decoding
  let network ← SyncNetwork.make profile.tcu connections
  let device ← ControlElectronics.make backend (← deviceProfile profile) state maxBatchOperations
  require (resets.Pairwise (· < ·)) .invalidProfile "reset ticks must be sorted and unique"
  require (∀ tick ∈ resets, 0 < tick ∧ tick < profile.watchdog) .invalidProfile
    "reset tick outside run"
  let cores ← makeCores fingerprint configs
  pure
    { profile, cores, network, decoders, device, resets, reverse
      portOffsets := Qsbit.portOffsets configs }

/-- Wake up when something is due, or when the simulation has taken too long. -/
def scheduleWakeup (now : ℕ) : Sim (Simulator β) Unit := do
  let s ← Proc.get
  let next := ((s.decoders.nextBoundary now).toList ++ s.device.nextBoundary.toList ++
    (s.resets.find? (now < ·)).toList).foldl min s.profile.watchdog
  require (now < next) .protocol "unprocessed event at or before completed barrier"
  Proc.modify fun s => { s with wake := some next }

/-- The end of the constructor. -/
def start (fingerprint : Profile → String) : Sim (Simulator β) Unit := do
  let s ← Proc.get
  Proc.emit
    { tick := 0, epoch := s.epoch, kind := .sessionStarted, detail := fingerprint s.profile }
  scheduleWakeup 0

/-! ## Edges -/

/-- Whether there is a reset on the tick; the first to ask applies it. -/
def resetAt (now : ℕ) : Sim (Simulator β) Bool := do
  let s ← Proc.get
  if now ∉ s.resets then pure false
  else do
    (if s.lastReset ≠ some now then do
      let epoch ← checkedAdd s.epoch 1
      Proc.modify fun s =>
        { s with epoch, network := s.network.reset, decoders := s.decoders.reset }
      Proc.forEach (fun i => onCore i fun _ => Proc.onFst (Core.reset now))
        (List.range s.cores.length)
      onDevice (ControlElectronics.reset backend now epoch)
      Proc.modify fun s => { s with lastReset := some now }
      Proc.emit { tick := now, epoch, kind := .sessionReset }
    else pure ())
    pure true

/-- The check of an action of a core by the device, whose ports are those of all cores. -/
def validate (s : Simulator β) (i : ℕ) (action : EventSpec) : Except Fault Unit :=
  ControlElectronics.validate backend s.device.profile
    { action with port := action.port + s.portOffsets[i]?.getD 0 }

def cpuEdge (operations : ℕ → List ControlOperation) (now : ℕ) : Sim (Simulator β) Unit := do
  let reset ← resetAt backend now
  (if reset then pure ()
  else do
    let s ← Proc.get
    Proc.forEach (fun i => onCore i fun core =>
      if core.profile.cpu.edge now then do
        let _ ← Core.cpuEdge (s.validate backend i) (operations i) now s.epoch
        pure ()
      else pure ()) (List.range s.cores.length))
  Proc.modify fun s => { s with cpuDone := some now }

/-- The accesses of the memory of a core; a fault is the answer of the access. -/
def accessAll (core now epoch : ℕ) (accesses : List MemoryRequest) : Sim DecoderSystem Unit :=
  Proc.forEach (fun request =>
    Proc.handle
      (do let _ ← DecoderSystem.access core request now epoch
          pure ())
      fun _ => pure ()) accesses

def memoryEdge (accesses : ℕ → List MemoryRequest) (now : ℕ) : Sim (Simulator β) Unit := do
  let reset ← resetAt backend now
  (if reset then pure ()
  else do
    let s ← Proc.get
    Proc.forEach (fun i =>
      match s.cores[i]? with
      | none => pure ()
      | some core =>
          if core.profile.cpu.edge now then onDecoders (accessAll core.id now s.epoch (accesses i))
          else pure ()) (List.range s.cores.length))
  Proc.modify fun s => { s with memoryDone := some now }

/-- What the device makes of a launch of a core. -/
def deviceEvents (s : Simulator β) (i : ℕ) (batch : TriggeredEvents) : Except Fault TriggeredEvents :=
  Qsbit.deviceEvents s.ids s.portOffsets i batch

/-- The TCU edges of cores, in order; yields what they have launched. -/
def tcuEdges (now : ℕ) : List ℕ → Sim (Simulator β) (List (ℕ × TriggeredEvents))
  | [] => pure []
  | i :: rest => do
      let s ← Proc.get
      let output ← onCore i fun _ =>
        Core.tcuEdge (fun batch => do s.device.preflight backend (← s.deviceEvents i batch)) now
          s.epoch
      Proc.forSome output.launch fun batch => do
        let events ← s.deviceEvents i batch
        onDevice (ControlElectronics.accept backend events)
      let launched ← tcuEdges now rest
      pure (output.launch.toList.map (i, ·) ++ launched)

/-- The order in which the TCU edges of the cores are run. -/
def order (s : Simulator β) : List ℕ :=
  if s.reverse then (List.range s.cores.length).reverse else List.range s.cores.length

def tcuEdge (now : ℕ) : Sim (Simulator β) (List (ℕ × TriggeredEvents)) := do
  let reset ← resetAt backend now
  let launched ← (if reset then pure []
    else do
      let s ← Proc.get
      tcuEdges backend now s.order : Sim (Simulator β) (List (ℕ × TriggeredEvents)))
  Proc.modify fun s => { s with tcuDone := some now }
  pure launched

def wakeup (now : ℕ) : Sim (Simulator β) Unit := do
  let _ ← resetAt backend now
  pure ()

/-! ## The barrier -/

/-- Deliver a result of the device to the core that it belongs to. -/
def deliver (now epoch : ℕ) (result : Completion) : Sim (List Core) Unit := do
  let cores ← Proc.get
  let (i, result) ← localize cores.length result
  match cores[i]? with
  | none => Proc.check (.error ⟨.protocol, "vector index out of range"⟩)
  | some core =>
      Proc.zoom (fun _ => core) (fun core cores => cores.set i core) (Core.deliver result now epoch)

/-- An edge of the tick has not been seen yet. -/
def waits (s : Simulator β) (now : ℕ) : Bool :=
  (s.cores.any (·.profile.cpu.edge now) && (s.cpuDone ≠ some now || s.memoryDone ≠ some now)) ||
    (s.profile.tcu.edge now && s.tcuDone ≠ some now)

def drained (s : Simulator β) (idle : ℕ → Bool) : Bool :=
  s.device.drained && s.network.empty && s.decoders.idle &&
    s.cores.zipIdx.all fun c => c.1.drained && idle c.2

/-- The boundary of the device. -/
def processDevice (now epoch : ℕ) : Sim (Simulator β) Unit :=
  Proc.zoom (fun s => (s.device, s.cores)) (fun x s => { s with device := x.1, cores := x.2 })
    (ControlElectronics.process backend now epoch (deliver now epoch))

def barrier (idle : ℕ → Bool) (now : ℕ) : Sim (Simulator β) Unit := do
  let s ← Proc.get
  if s.waits now then pure ()
  else do
    (if s.lastReset ≠ some now then onDecoders (DecoderSystem.step now s.epoch) else pure ())
    let reset ← resetAt backend now
    let s ← Proc.get
    (if reset = false ∧ s.device.nextBoundary = some now then processDevice backend now s.epoch
    else pure ())
    let s ← Proc.get
    if s.drained idle then do
      onDevice (ControlElectronics.finalize backend now)
      Proc.modify fun s => { s with success := true, stopped := true }
      Proc.emit { tick := now, epoch := s.epoch, kind := .simulationCompleted }
    else do
      require (now < s.profile.watchdog) .watchdog "simulation failed to drain before watchdog"
      scheduleWakeup now

/-! ## Activations -/

/-- A method that the scheduler activates, with what the processors do in it. -/
inductive Activation
  | cpuEdge (operations : ℕ → List ControlOperation)
  | memoryEdge (accesses : ℕ → List MemoryRequest)
  | tcuEdge
  | wakeup
  | barrier (idle : ℕ → Bool)

def fail (now : ℕ) (f : Fault) : Sim (Simulator β) Unit := do
  let s ← Proc.get
  if s.stopped then pure ()
  else do
    Proc.set { s with fault := some f, stopped := true }
    Proc.emit
      { tick := now, epoch := s.epoch, kind := .fault, operation := f.code.name, detail := f.message }

/-- What an activated method does, unless it faults; yields what has been launched. -/
def body (now : ℕ) : Activation → Sim (Simulator β) (List (ℕ × TriggeredEvents))
  | .cpuEdge operations => do
      cpuEdge backend operations now
      pure []
  | .memoryEdge accesses => do
      memoryEdge backend accesses now
      pure []
  | .tcuEdge => tcuEdge backend now
  | .wakeup => do
      wakeup backend now
      pure []
  | .barrier idle => do
      barrier backend idle now
      pure []

/-- One activation. A simulator that has stopped does nothing. -/
def activate (now : ℕ) (a : Activation) : Sim (Simulator β) (List (ℕ × TriggeredEvents)) := do
  let s ← Proc.get
  if s.stopped then pure []
  else
    Proc.handle (body backend now a) fun f => do
      fail now f
      pure []

/-! ## What a procedure of a core has done -/

section OnCore
variable {s s' : Simulator β} {l : List TraceEvent} {i : ℕ} {α : Type}
  {x : Core → Sim (Core × SyncNetwork) α} {a : α}

theorem returns_onCore (h : (onCore i x).Returns s a s' l) : ∃ c c' n' l₀, s.cores[i]? = some c ∧
    (x c).Returns (c, s.network) a (c', n') l₀ ∧
      s' = { s with cores := s.cores.set i c', network := n' } ∧ l = l₀.map (s.tag c) := by
  simp only [onCore, Proc.returns_get_bind_iff] at h
  cases hi : s.cores[i]? with
  | none =>
    rw [hi] at h
    simp at h
  | some c =>
    rw [hi] at h
    obtain ⟨l₀, hzoom, rfl⟩ := Proc.returns_translate_iff.1 h
    obtain ⟨⟨c', n'⟩, hx, rfl⟩ := Proc.returns_zoom_iff.1 hzoom
    exact ⟨c, c', n', l₀, rfl, hx, rfl, rfl⟩

end OnCore

end Simulator
end Qsbit

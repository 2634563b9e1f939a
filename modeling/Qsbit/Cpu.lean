import Qsbit.Isa
import Qsbit.MemoryModel
import Qsbit.TimingControl

/-!
# The CPU of a core

The pipeline fetches ahead, decodes one instruction while it executes another, and retires in
order. An instruction that controls time is handed to the timing control, which may refuse it:
it is then handed over again on the next edge. A bundle holds two codewords, which are handed
over one after the other.

Beside the records of the trace the log holds what the pipeline has asked of the control.

## Main definitions

* `adaptQuantum`, `decodeCwBundle` — control operations of a control word and of a bundle.
* `InOrderPipeline` — registers, latches and the instruction that is executed.
* `InOrderPipeline.step` — one edge of the CPU.
-/
namespace Qsbit

/-- The registers of a CPU. -/
abbrev RegisterFile : Type := BitVec 5 → BitVec 32

/-! ## Control operations -/

def adaptQuantum (d : Rv32.Decoded) (id : ℕ) (lhs rhs : BitVec 32) : Except Fault ControlOperation := do
  require (d.op = .quantum) .protocol "non-quantum operation sent to adapter"
  match ((d.word >>> 12) &&& 7).toNat with
  | 0 =>
    let port := if (d.word >>> 25) &&& 1 ≠ 0 then d.rs1.toNat else lhs.toNat
    let codeword := if (d.word >>> 25) &&& 2 ≠ 0 then d.rs2.toNat else rhs.toNat
    pure { instruction := id, command := .codeword port codeword }
  | 1 => pure { instruction := id, command := .wait lhs.toNat }
  | 2 => pure { instruction := id, command := .wait (d.word >>> 15).toNat }
  | 3 => pure { instruction := id, command := .fetchMeasurement d.rs1.toNat }
  | 6 => pure { instruction := id, command := .synchronize (d.word >>> 15).toNat }
  | _ => .error ⟨.illegalInstruction, "reserved quantum operation"⟩

/-- The codeword in one slot of a bundle. -/
def decodeLane (word : BitVec 32) (instruction : ℕ) (registers : RegisterFile) (lane : ℕ) :
    Except Fault ControlOperation := do
  let slot := (word >>> (7 + 12 * lane)) &&& 0xfff
  let port := slot &&& 31
  let codeword := (slot >>> 5) &&& 31
  let modes := slot >>> 10
  let scalar := 0x0b ||| (port <<< 15) ||| (codeword <<< 20) ||| (modes <<< 25)
  let d ← Rv32.decode scalar
  adaptQuantum d instruction (registers (port.setWidth 5)) (registers (codeword.setWidth 5))

def decodeCwBundle (word : BitVec 32) (instruction : ℕ) (registers : RegisterFile) :
    Except Fault (List ControlOperation) := do
  require (word &&& 0x8000007f = Contract.bundleOpcode) .illegalInstruction
    "invalid cw bundle encoding"
  [0, 1].mapM (decodeLane word instruction registers)

/-! ## Records -/

structure CpuPipelineInstruction where
  id : ℕ := 0
  pc : BitVec 32 := 0
  word : Option (BitVec 32) := none
  discarded : Bool := false
  deriving DecidableEq, Repr

/-- What is in the four stages. -/
structure CpuPipelineState where
  stages : List (Option CpuPipelineInstruction)
  halted : Bool := false
  deriving DecidableEq, Repr

structure InstructionRetired where
  pc : BitVec 32
  word : BitVec 32
  rd : BitVec 8
  nextPc : BitVec 32
  value : BitVec 32
  registers : RegisterFile

/-- The records of a CPU edge: those of the control, and those of the pipeline. That the control
has been called is no record of the trace. -/
inductive CpuRecord
  | control (record : TraceEvent)
  | called (operation : ControlOperation) (reply : Option ℕ)
  | instructionRetired (now epoch id cycle : ℕ) (state : InstructionRetired)
  | cpuStalled (now epoch id : ℕ) (detail : String)
  | pipelineFlushed (now epoch : ℕ)
  | cpuPipelineUpdated (now epoch cycle : ℕ) (state : CpuPipelineState)

instance : Stamped CpuRecord where
  stamp
    | .control record => some record.tick
    | .called _ _ => none
    | .instructionRetired now _ _ _ _ => some now
    | .cpuStalled now _ _ _ => some now
    | .pipelineFlushed now _ => some now
    | .cpuPipelineUpdated now _ _ _ => some now

/-! ## The pipeline -/

/-- Whether a bundle is an instruction. -/
inductive ControlIssue
  | scalar | dualCodeword
  deriving DecidableEq, Repr

namespace InOrderPipeline

structure Fetch where
  id : ℕ
  pc : BitVec 32
  generation : ℕ
  deriving DecidableEq, Repr

structure Frame where
  id : ℕ := 0
  pc : BitVec 32 := 0
  word : BitVec 32 := 0
  lhs : BitVec 32 := 0
  rhs : BitVec 32 := 0
  fault : Option ErrorCode := none
  decoded : Option Rv32.Decoded := none
  effect : Option Rv32.Effect := none
  memoryRequest : ℕ := 0
  bundle : Bool := false
  operations : List ControlOperation := []
  completedLanes : ℕ := 0
  deriving DecidableEq, Repr

end InOrderPipeline

/-- The pipeline reports what is in its stages when that has changed. -/
structure CpuPipelineTrace where
  previous : Option CpuPipelineState := none
  epoch : ℕ := 0
  deriving DecidableEq, Repr

structure InOrderPipeline where
  issue : ControlIssue
  clock : Clock
  pipelineTrace : CpuPipelineTrace := {}
  registers : RegisterFile := fun _ => 0
  pc : BitVec 32
  fetchPc : BitVec 32
  fetchRequest : Option InOrderPipeline.Fetch := none
  fetched : Option InOrderPipeline.Frame := none
  decode : Option InOrderPipeline.Frame := none
  execute : Option InOrderPipeline.Frame := none
  nextFetch : ℕ := 1
  nextData : ℕ := 1
  generation : ℕ := 0
  halted : Bool := false

/-- The pipeline with its ports and with what the control works on. -/
structure CpuState (δ : Type) where
  pipeline : InOrderPipeline
  fetch : MemoryPort
  data : MemoryPort
  device : δ

/-- What the control does with an operation; no value is a refusal. -/
abbrev ControlCallback (δ : Type) : Type := ControlOperation → ℕ → ℕ → Sim δ (Option ℕ)

namespace InOrderPipeline
variable {δ : Type}

/-- A program of the pipeline. -/
abbrev Cpu (δ α : Type) : Type := Proc Fault CpuRecord (CpuState δ) α

def make (issue : ControlIssue) (clock : Clock) (entry : BitVec 32) : InOrderPipeline :=
  { issue, clock, pc := entry, fetchPc := entry }

/-- The epoch of the last report is kept. -/
def reset (p : InOrderPipeline) (entry : BitVec 32) : InOrderPipeline :=
  { make p.issue p.clock entry with
    pipelineTrace := { p.pipelineTrace with previous := none } }

/-- Change the pipeline. -/
def modify (f : InOrderPipeline → InOrderPipeline) : Cpu δ Unit :=
  Proc.modify fun s => { s with pipeline := f s.pipeline }

/-- The cycle of a tick. -/
def cycle (p : InOrderPipeline) (now : ℕ) : ℕ := (now - p.clock.phase) / p.clock.period

/-! ### Fetching -/

/-- The frame of a response. -/
def Fetch.frame (request : Fetch) (response : MemoryResponse) : Frame where
  id := request.id
  pc := request.pc
  word := BitVec.ofNat 32 response.value
  fault := response.fault

/-- Take the response to the fetch. It is discarded when the pipeline has been flushed since. -/
def takeFetch (now epoch : ℕ) : Cpu δ Unit := do
  let s ← Proc.get
  match s.fetch.responses.peek now with
  | none => pure ()
  | some response => do
      Proc.modify fun s =>
        { s with fetch := { s.fetch with responses := s.fetch.responses.taken now } }
      if response.epoch = epoch then
        match s.pipeline.fetchRequest with
        | none => Proc.check (.error ⟨.protocol, "unexpected fetch response"⟩)
        | some request => do
            require (response.value.id = request.id) .protocol "unexpected fetch response"
            (if request.generation = s.pipeline.generation ∧ s.pipeline.halted = false then do
              require (s.pipeline.fetched = none) .protocol "fetch latch overflow"
              modify fun p => { p with fetched := some (request.frame response.value) }
            else pure ())
            modify fun p => { p with fetchRequest := none }
      else pure ()

/-- Fetch the next word. -/
def fetchNext (now epoch : ℕ) : Cpu δ Unit := do
  let s ← Proc.get
  let p := s.pipeline
  if p.fetchRequest = none ∧ p.fetched = none ∧ s.fetch.requests.full = false then do
    let id := p.nextFetch
    let nextFetch ← checkedAdd id 1
    modify fun p => { p with nextFetch }
    let requests ← s.fetch.requests.publish now epoch
      { id, address := p.fetchPc.toNat, instruction := true }
    Proc.modify fun s => { s with fetch := { s.fetch with requests } }
    modify fun p =>
      { p with
        fetchRequest := some { id, pc := p.fetchPc, generation := p.generation }
        fetchPc := p.fetchPc + 4 }
  else pure ()

/-! ### Decoding -/

/-- The frame with its operands, or with the fault of its word. -/
def decodeWord (issue : ControlIssue) (registers : RegisterFile) (frame : Frame) :
    Except Fault Frame :=
  if issue = .dualCodeword ∧ frame.word &&& 127 = Contract.bundleOpcode then do
    let operations ← decodeCwBundle frame.word frame.id registers
    pure { frame with
      operations, bundle := true, decoded := some { op := .quantum, word := frame.word } }
  else do
    let d ← Rv32.decode frame.word
    pure { frame with
      decoded := some d, lhs := registers (d.rs1.setWidth 5), rhs := registers (d.rs2.setWidth 5) }

def Frame.issued (issue : ControlIssue) (registers : RegisterFile) (frame : Frame) : Frame :=
  if frame.fault.isSome then frame
  else
    match decodeWord issue registers frame with
    | .ok frame => frame
    | .error fault => { frame with fault := some fault.code }

/-- Move instructions on to the stages that are free. -/
def advance (p : InOrderPipeline) : InOrderPipeline :=
  let p :=
    if p.execute.isNone then
      { p with decode := none, execute := p.decode.map (·.issued p.issue p.registers) }
    else p
  if p.decode.isNone then { p with decode := p.fetched, fetched := none } else p

/-! ### Executing -/

/-- How an instruction completes. -/
structure Completion where
  value : BitVec 32 := 0
  nextPc : BitVec 32
  flush : Bool := false
  deriving DecidableEq, Repr

/-- Hand an operation to the control. -/
def callControl (control : ControlCallback δ) (operation : ControlOperation) (now epoch : ℕ) :
    Cpu δ (Option ℕ) := do
  let reply ← Proc.zoom CpuState.device (fun device s => { s with device })
    (Proc.translate CpuRecord.control (fun _ => rfl) (control operation now epoch))
  Proc.emit (.called operation reply)
  pure reply

/-- Change the instruction that is executed. -/
def modifyFrame (f : Frame → Frame) : Cpu δ Unit :=
  modify fun p => { p with execute := p.execute.map f }

/-- Hand over the rest of a bundle; tells whether all of it has been accepted. -/
def issueLanes (control : ControlCallback δ) (now epoch : ℕ) : List ControlOperation → Cpu δ Bool
  | [] => pure true
  | operation :: rest => do
      match ← callControl control operation now epoch with
      | none => pure false
      | some _ => do
          modifyFrame fun frame => { frame with completedLanes := frame.completedLanes + 1 }
          issueLanes control now epoch rest

def executeBundle (control : ControlCallback δ) (frame : Frame) (now epoch : ℕ) :
    Cpu δ (Option Completion) := do
  let completed ← issueLanes control now epoch (frame.operations.drop frame.completedLanes)
  pure (if completed then some { nextPc := frame.pc + 4 } else none)

def executeQuantum (control : ControlCallback δ) (d : Rv32.Decoded) (frame : Frame)
    (now epoch : ℕ) : Cpu δ (Option Completion) := do
  let operation ← adaptQuantum d frame.id frame.lhs frame.rhs
  let reply ← callControl control operation now epoch
  pure (reply.map fun value => { value := BitVec.ofNat 32 value, nextPc := frame.pc + 4 })

def executeExit (control : ControlCallback δ) (frame : Frame) (now epoch : ℕ) :
    Cpu δ (Option Completion) := do
  match ← callControl control { instruction := frame.id, command := .halt } now epoch with
  | none => pure none
  | some _ => do
      modify fun p => { p with halted := true }
      pure (some { nextPc := frame.pc + 4, flush := true })

/-- The request of a load or a store. -/
def dataRequest (effect : Rv32.Effect) (id : ℕ) : MemoryRequest where
  id := id
  address := effect.address.toNat
  value := effect.storeValue.toNat
  width := effect.width.toNat
  write := effect.memory = .store
  instruction := false

/-- Send the request of a load or a store, or take its response. -/
def accessData (frame : Frame) (effect : Rv32.Effect) (now epoch : ℕ) :
    Cpu δ (Option Completion) := do
  let s ← Proc.get
  if frame.memoryRequest = 0 then
    if s.data.requests.full then pure none
    else do
      let id := s.pipeline.nextData
      let nextData ← checkedAdd id 1
      modify fun p => { p with nextData }
      let requests ← s.data.requests.publish now epoch (dataRequest effect id)
      Proc.modify fun s => { s with data := { s.data with requests } }
      modifyFrame fun frame => { frame with memoryRequest := id }
      pure none
  else
    match s.data.responses.peek now with
    | none => pure none
    | some response => do
        Proc.modify fun s =>
          { s with data := { s.data with responses := s.data.responses.taken now } }
        require (response.epoch = epoch ∧ response.value.id = frame.memoryRequest) .protocol
          "unexpected data response"
        (match response.value.fault with
          | some code => .error ⟨code, "oldest data access fault"⟩
          | none => pure () : Except Fault Unit)
        let value := BitVec.ofNat 32 response.value.value
        let value ← if effect.signExtendLoad then Rv32.signExtend value (effect.width.toNat * 8)
          else pure value
        pure (some { value, nextPc := effect.nextPc })

def executePlain (d : Rv32.Decoded) (frame : Frame) (now epoch : ℕ) :
    Cpu δ (Option Completion) := do
  let effect ← match frame.effect with
    | some effect => pure effect
    | none => Rv32.evaluate d frame.pc frame.lhs frame.rhs
  modifyFrame fun frame => { frame with effect := some effect }
  if effect.memory = .none then
    pure (some { value := effect.value, nextPc := effect.nextPc, flush := effect.branchTaken })
  else accessData frame effect now epoch

/-- Execute one edge of an instruction. -/
def executeFrame (control : ControlCallback δ) (d : Rv32.Decoded) (frame : Frame)
    (registers : RegisterFile) (now epoch : ℕ) : Cpu δ (Option Completion) :=
  if frame.bundle then executeBundle control frame now epoch
  else if d.op = .quantum then executeQuantum control d frame now epoch
  else if d.op = .ecall ∧ registers 17 = 93 then executeExit control frame now epoch
  else executePlain d frame now epoch

/-- The registers after an instruction. -/
def written (registers : RegisterFile) (d : Rv32.Decoded) (value : BitVec 32) : RegisterFile :=
  Function.update
    (if d.writesRd ∧ d.rd ≠ 0 then Function.update registers (d.rd.setWidth 5) value else registers)
    0 0

def retire (d : Rv32.Decoded) (frame : Frame) (completion : Completion) (now epoch : ℕ) :
    Cpu δ Unit := do
  modify fun p =>
    { p with registers := written p.registers d completion.value, pc := completion.nextPc }
  let s ← Proc.get
  Proc.emit (.instructionRetired now epoch frame.id (s.pipeline.cycle now)
    { pc := frame.pc, word := frame.word, rd := if d.writesRd then d.rd else 0
      nextPc := completion.nextPc, value := completion.value, registers := s.pipeline.registers })
  modify fun p => { p with execute := none }

/-- What an instruction that stalls waits for. -/
def stallDetail (d : Rv32.Decoded) : String :=
  if d.op = .quantum ∨ d.op = .ecall then "timing control or measurement register"
  else "memory response"

/-- The stage that executes; tells whether the pipeline is to be flushed. -/
def executeStage (control : ControlCallback δ) (now epoch : ℕ) : Cpu δ Bool := do
  let s ← Proc.get
  match s.pipeline.execute with
  | none => pure false
  | some frame => do
      (match frame.fault with
        | some code =>
            .error ⟨code, "oldest instruction fault at PC " ++ toString frame.pc.toNat⟩
        | none => pure () : Except Fault Unit)
      match frame.decoded with
      | none => Proc.check (.error ⟨.protocol, "execute stage has no decode"⟩)
      | some d => do
          match ← executeFrame control d frame s.pipeline.registers now epoch with
          | none => do
              Proc.emit (.cpuStalled now epoch frame.id (stallDetail d))
              pure false
          | some completion => do
              retire d frame completion now epoch
              pure completion.flush

/-- Discard what has been fetched. -/
def flush (now epoch : ℕ) : Cpu δ Unit := do
  let s ← Proc.get
  let generation ← checkedAdd s.pipeline.generation 1
  modify fun p => { p with decode := none, fetched := none, generation, fetchPc := p.pc }
  Proc.emit (.pipelineFlushed now epoch)

/-! ### An edge -/

def Frame.instruction (frame : Frame) : CpuPipelineInstruction where
  id := frame.id
  pc := frame.pc
  word := some frame.word

def Fetch.instruction (p : InOrderPipeline) (request : Fetch) : CpuPipelineInstruction where
  id := request.id
  pc := request.pc
  discarded := request.generation ≠ p.generation ∨ p.halted

def stages (p : InOrderPipeline) : CpuPipelineState where
  stages := [p.fetchRequest.map (Fetch.instruction p), p.fetched.map Frame.instruction,
    p.decode.map Frame.instruction, p.execute.map Frame.instruction]
  halted := p.halted

/-- Report what is in the stages. -/
def sample (now epoch : ℕ) : Cpu δ Unit := do
  let s ← Proc.get
  let p := s.pipeline
  if p.pipelineTrace.previous = some p.stages ∧ epoch = p.pipelineTrace.epoch then pure ()
  else do
    Proc.emit (.cpuPipelineUpdated now epoch (p.cycle now) p.stages)
    modify fun p => { p with pipelineTrace := { previous := some p.stages, epoch } }

/-- What the pipeline does on an edge, before it reports. -/
def run (control : ControlCallback δ) (now epoch : ℕ) : Cpu δ Unit := do
  takeFetch now epoch
  let s ← Proc.get
  if s.pipeline.halted then pure ()
  else do
    let flushes ← executeStage control now epoch
    (if flushes then flush now epoch else pure ())
    let s ← Proc.get
    if s.pipeline.halted then pure ()
    else do
      modify advance
      fetchNext now epoch

/-- One edge of the CPU. -/
def step (control : ControlCallback δ) (now epoch : ℕ) : Cpu δ Unit := do
  let s ← Proc.get
  require (s.pipeline.clock.edge now) .protocol "CPU invoked off-edge"
  run control now epoch
  sample now epoch

end InOrderPipeline
end Qsbit

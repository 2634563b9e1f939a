import Qsbit.Image
import Qsbit.Mailbox

/-!
# The memory of a core

A core has one port for instructions and one for data. A request is accepted on an edge of
the memory, is due a number of cycles later, and is then performed on the program image or on
a device that is mapped into the address space. A device may refuse: the request stays and is
tried again on the next edge, as it is while the slot for the response is occupied.

## Main definitions

* `MemoryPort` — requests to the memory and responses to the core.
* `MemoryDevice` — what is mapped into the address space.
* `MemoryModel.step` — one edge of the memory.
-/
namespace Qsbit

structure MemoryRequest where
  id : ℕ := 0
  address : ℕ := 0
  value : ℕ := 0
  width : ℕ := 4
  write : Bool := false
  instruction : Bool := false
  deriving DecidableEq, Repr

structure MemoryResponse where
  id : ℕ := 0
  value : ℕ := 0
  fault : Option ErrorCode := none
  deriving DecidableEq, Repr

structure MemoryPort where
  requests : Mailbox MemoryRequest
  responses : Mailbox MemoryResponse
  deriving DecidableEq, Repr

namespace MemoryPort

def make (clock : Clock) : Except Fault MemoryPort := do
  let requests ← Mailbox.make 1 clock
  let responses ← Mailbox.make 1 clock
  pure { requests, responses }

def reset (p : MemoryPort) : MemoryPort :=
  { requests := p.requests.reset, responses := p.responses.reset }

end MemoryPort

/-- A device with its address range and what an access does; no value is a refusal. -/
structure MemoryDevice (δ : Type) where
  contains : δ → ℕ → Bool
  access : MemoryRequest → ℕ → ℕ → Sim δ (Option ℕ)

namespace MemoryModel

structure Pending where
  request : MemoryRequest
  completion : ℕ
  epoch : ℕ
  deriving DecidableEq, Repr

/-- One port with the request that the memory works on. -/
structure Lane where
  port : MemoryPort
  pending : Option Pending := none
  lastId : ℕ := 0
  deriving DecidableEq, Repr

/-- What both ports work on. -/
structure Bank (δ : Type) where
  image : ProgramImage
  device : δ

end MemoryModel

structure MemoryModel (δ : Type) where
  clock : Clock
  latency : ℕ
  fetch : MemoryModel.Lane
  data : MemoryModel.Lane
  bank : MemoryModel.Bank δ

namespace MemoryModel
variable {δ : Type}

/-- Perform a request on the device or on the image. -/
def perform (d : MemoryDevice δ) (request : MemoryRequest) (now epoch : ℕ) :
    Sim (Bank δ) (Option ℕ) := do
  let bank ← Proc.get
  if d.contains bank.device request.address then
    Proc.zoom Bank.device (fun device bank => { bank with device }) (d.access request now epoch)
  else if request.write then do
    let image ← bank.image.write request.address request.width request.value
    Proc.set { bank with image }
    pure (some 0)
  else do
    let value ← bank.image.read request.address request.width request.instruction
    pure (some value)

/-- The response to a request, if it is not refused. A fault is a response. -/
def respond (d : MemoryDevice δ) (request : MemoryRequest) (now epoch : ℕ) :
    Sim (Bank δ) (Option MemoryResponse) :=
  Proc.handle
    (do
      let result ← perform d request now epoch
      pure (result.map fun value => { id := request.id, value }))
    fun fault => pure (some { id := request.id, fault := some fault.code })

/-- The request of a lane is performed now. -/
def Lane.due (lane : Lane) (now : ℕ) : Option Pending :=
  lane.pending.filter fun p => p.completion ≤ now ∧ lane.port.responses.full = false

/-- Complete the request of a lane. One of an earlier epoch is dropped, and one that is refused
stays. -/
def complete (d : MemoryDevice δ) (now epoch : ℕ) : Sim (Lane × Bank δ) Unit := do
  let s ← Proc.get
  match s.1.due now with
  | none => pure ()
  | some p =>
      if p.epoch = epoch then do
        let response ← Proc.onSnd (respond d p.request now epoch)
        match response with
        | none => pure ()
        | some response => do
            let responses ← s.1.port.responses.publish now epoch response
            Proc.modify fun s =>
              ({ s.1 with port := { s.1.port with responses }, pending := none }, s.2)
      else Proc.modify fun s => ({ s.1 with pending := none }, s.2)

/-- Accept the next request. -/
def accept (clock : Clock) (latency : ℕ) (instruction : Bool) (now epoch : ℕ) :
    Sim (Lane × Bank δ) Unit := do
  let s ← Proc.get
  if s.1.port.responses.full then pure ()
  else
    match s.1.port.requests.peek now with
    | none => pure ()
    | some message => do
        Proc.modify fun s =>
          ({ s.1 with port := { s.1.port with requests := s.1.port.requests.taken now } }, s.2)
        if message.epoch ≠ epoch then pure ()
        else do
          let request := message.value
          require (s.1.lastId < request.id ∧ request.id ≠ 0) .protocol
            "memory request identity reused or reordered"
          require (request.instruction = instruction ∧ ¬ (request.instruction ∧ request.write))
            .protocol "wrong memory request port"
          Proc.modify fun s => ({ s.1 with lastId := request.id }, s.2)
          let cycles ← checkedMul latency clock.period
          let completion ← checkedAdd now cycles
          Proc.modify fun s => ({ s.1 with pending := some { request, completion, epoch } }, s.2)

/-- One port on an edge. A lane that was busy accepts nothing, also where it is busy no more. -/
def stepPort (d : MemoryDevice δ) (clock : Clock) (latency : ℕ) (instruction : Bool)
    (now epoch : ℕ) : Sim (Lane × Bank δ) Unit := do
  let s ← Proc.get
  complete d now epoch
  if s.1.pending.isSome then pure () else accept clock latency instruction now epoch

def step (d : MemoryDevice δ) (now epoch : ℕ) : Sim (MemoryModel δ) Unit := do
  let m ← Proc.get
  require (m.clock.edge now) .protocol "memory invoked off-edge"
  Proc.zoom (fun m => (m.fetch, m.bank)) (fun s m => { m with fetch := s.1, bank := s.2 })
    (stepPort d m.clock m.latency true now epoch)
  Proc.zoom (fun m => (m.data, m.bank)) (fun s m => { m with data := s.1, bank := s.2 })
    (stepPort d m.clock m.latency false now epoch)

def make (image : ProgramImage) (clock : Clock) (latency : ℕ) (device : δ) :
    Except Fault (MemoryModel δ) := do
  clock.validate
  require (0 < latency) .invalidProfile "memory latency must be positive"
  let fetch ← MemoryPort.make clock
  let data ← MemoryPort.make clock
  pure { clock, latency, fetch := { port := fetch }, data := { port := data }
         bank := { image, device } }

/-- The ports are reset by the core. -/
def reset (m : MemoryModel δ) : MemoryModel δ :=
  { m with
    fetch := { port := m.fetch.port.reset }
    data := { port := m.data.port.reset } }

def idle (m : MemoryModel δ) : Bool := m.fetch.pending.isNone && m.data.pending.isNone

end MemoryModel
end Qsbit

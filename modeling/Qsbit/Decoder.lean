import Qsbit.Decoder.Mmio
import Qsbit.Time

/-!
# The decoders

Cores send packets of measurement bits over one link to the decoders. The packets
of a session, which is a core and a decoder, are appended until its window is
complete; the window is decoded, and the result returns over another link and is
added to the results that the core has not consumed yet. A reset overtakes the
queue of packets, but not the link.

## Main definitions

* `DecoderSystem` — sessions, queued requests, the reset request, and running jobs.
* `DecoderSystem.access` — an access of a core to its registers.
* `DecoderSystem.step` — everything that is due on a tick.
* `DecoderSystem.nextBoundary` — the next tick on which something is due.
-/
namespace Qsbit
open Std (ExtTreeMap)

structure DecoderConfig where
  id : ℕ := 0
  measurements : ℕ := 0
  outputs : ℕ := 0
  latency : ℕ := 1
  initiationInterval : ℕ := 1
  decode : List Bool → Except Fault (List Bool)

structure DecoderSystemConfig where
  base : ℕ := 0x40000000
  requestCapacity : ℕ := 16
  resultCapacity : ℕ := 16
  linkLatency : ℕ := 1
  bytesPerTick : ℕ := 1
  packetOverhead : ℕ := 16
  decoders : List DecoderConfig

namespace DecoderSystem

structure Session where
  measurements : List Bool := []
  result : Option ℕ := none
  submitted : Bool := false
  deriving DecidableEq, Repr

structure Request where
  id : ℕ
  core : ℕ
  decoder : ℕ
  count : ℕ
  tag : ℕ
  data : ℕ
  sent : ℕ
  arrival : ℕ
  transmitted : Bool := false
  deriving DecidableEq, Repr

structure Job where
  id : ℕ
  core : ℕ
  decoder : ℕ
  start : ℕ
  completion : ℕ
  result : ℕ
  arrival : Option ℕ := none
  started : Bool := false
  completed : Bool := false
  deriving DecidableEq, Repr

/-- The order of sessions. -/
def order : ℕ × ℕ → ℕ × ℕ → Ordering := compareLex (compareOn Prod.fst) (compareOn Prod.snd)

theorem order_eq_iff {k k' : ℕ × ℕ} : order k k' = .eq ↔ k = k' := by
  rw [order, compareLex_eq_eq, compareOn, compareOn, compare_eq_iff_eq, compare_eq_iff_eq]
  exact Prod.ext_iff.symm

instance : Std.TransCmp order :=
  inferInstanceAs (Std.TransCmp (compareLex (compareOn Prod.fst) (compareOn Prod.snd)))

instance : Std.LawfulEqCmp order where
  eq_of_compare := order_eq_iff.1

end DecoderSystem

structure DecoderSystem where
  config : DecoderSystemConfig
  mmio : DecoderMmio
  sessions : ExtTreeMap (ℕ × ℕ) DecoderSystem.Session DecoderSystem.order := ∅
  available : ExtTreeMap ℕ ℕ := ∅
  requests : List DecoderSystem.Request := []
  resetRequest : Option DecoderSystem.Request := none
  jobs : List DecoderSystem.Job := []
  txAvailable : ℕ := 0
  rxAvailable : ℕ := 0
  next : ℕ := 1

namespace DecoderSystem

def validateDecoders (seen : List ℕ) : List DecoderConfig → Except Fault Unit
  | [] => pure ()
  | d :: rest => do
      require (d.id ∉ seen ∧ 0 < d.measurements ∧ d.measurements ≤ 1048576 ∧ 0 < d.outputs ∧
        d.outputs ≤ 64 ∧ 0 < d.latency ∧ 0 < d.initiationInterval) .invalidProfile
        "invalid decoder configuration"
      validateDecoders (d.id :: seen) rest

def make (config : DecoderSystemConfig) : Except Fault DecoderSystem := do
  let mmio ← DecoderMmio.make config.base (config.decoders.map (·.id))
  require (0 < config.requestCapacity ∧ 0 < config.resultCapacity ∧ 0 < config.bytesPerTick ∧
    0 < config.linkLatency) .invalidProfile "invalid decoder transport configuration"
  validateDecoders [] config.decoders
  pure { config, mmio }

def decoder (s : DecoderSystem) (id : ℕ) : Except Fault DecoderConfig :=
  match s.config.decoders.find? (·.id = id) with
  | some d => pure d
  | none => .error ⟨.invalidOperand, "unknown decoder id"⟩

/-- A session that has not been used is an empty one. -/
def session (s : DecoderSystem) (key : ℕ × ℕ) : Session := s.sessions[key]?.getD {}

def setSession (key : ℕ × ℕ) (session : Session) (s : DecoderSystem) : DecoderSystem :=
  { s with sessions := s.sessions.insert key session }

/-- Looking a session up makes an empty one where there is none. -/
def openSession (key : ℕ × ℕ) (s : DecoderSystem) : DecoderSystem := s.setSession key (s.session key)

def record (s : DecoderSystem) (now epoch : ℕ) (kind : TraceKind) (id core target : ℕ)
    (tag : ℕ := 0) : TraceEvent :=
  { tick := now, epoch, kind, id, core := some core
    decoder := some
      { id := target, tag, requests := s.requests.length, resets := s.resetRequest.toList.length
        jobs := s.jobs.length } }

def event (now epoch : ℕ) (kind : TraceKind) (id core target : ℕ) (tag : ℕ := 0) :
    Sim DecoderSystem Unit := do
  let s ← Proc.get
  Proc.emit (s.record now epoch kind id core target tag)

/-! ## Accesses -/

/-- The ticks that a packet of so many bytes occupies a link. -/
def linkDuration (config : DecoderSystemConfig) (payload : ℕ) : Except Fault ℕ := do
  let bytes ← checkedAdd config.packetOverhead payload
  pure (max 1 ((bytes + config.bytesPerTick - 1) / config.bytesPerTick))

def consume (core decoder now epoch : ℕ) : Sim DecoderSystem (Option ℕ) := do
  Proc.modify (openSession (core, decoder))
  let s ← Proc.get
  let session := s.session (core, decoder)
  require (session.result.isSome ∧ session.submitted = false ∧ session.measurements = []) .protocol
    "decoder result is not ready"
  Proc.modify (setSession (core, decoder) {})
  event now epoch .decoderResultConsumed 0 core decoder
  pure (some 0)

def status (s : DecoderSystem) (core decoder : ℕ) : ℕ :=
  let session := s.session (core, decoder)
  let pending := (s.resetRequest.toList ++ s.requests).any fun p =>
    p.core = core ∧ p.decoder = decoder
  (if session.result.isSome then DecoderRegisters.ready else 0) |||
    (if pending ∨ session.submitted ∨ session.measurements ≠ [] then DecoderRegisters.busy else 0)

def read (core decoder : ℕ) (kind : DecoderReadKind) : Sim DecoderSystem (Option ℕ) := do
  let s ← Proc.get
  match kind with
  | .count => do
      let d ← s.decoder decoder
      pure (some d.outputs)
  | .status => do
      Proc.modify (openSession (core, decoder))
      pure (some (s.status core decoder))
  | .low | .high => do
      Proc.modify (openSession (core, decoder))
      match (s.session (core, decoder)).result with
      | none => Proc.check (.error ⟨.protocol, "decoder result read before completion"⟩)
      | some result => pure (some ((result >>> (if kind = .low then 0 else 32)) % 2 ^ 32))

/-- Put a packet in its place. A reset has its own. -/
def enqueue (reset : Bool) (packet : Request) (s : DecoderSystem) : DecoderSystem :=
  if reset then { s with resetRequest := some packet }
  else { s with requests := s.requests ++ [packet] }

/-- There is no place for another packet. -/
def full (s : DecoderSystem) (reset : Bool) : Bool :=
  if reset then s.resetRequest.isSome else s.config.requestCapacity ≤ s.requests.length

/-- Send a packet of measurements, or a reset, which has none. It is refused while there is no
place for it. -/
def send (core : ℕ) (reset : Bool) (submission : DecoderSubmit) (now epoch : ℕ) :
    Sim DecoderSystem (Option ℕ) := do
  let s ← Proc.get
  if s.full reset then pure none
  else do
    let duration ← linkDuration s.config ((submission.count + 7) / 8)
    let sent := max now s.txAvailable
    let last ← checkedAdd sent duration
    let arrival ← checkedAdd last s.config.linkLatency
    require (s.next ≠ maxTick) .capacity "decoder request id overflow"
    let packet : Request :=
      { id := s.next, core, decoder := submission.decoder, count := submission.count
        tag := submission.tag, data := submission.data, sent, arrival }
    Proc.modify fun s => { s.enqueue reset packet with next := s.next + 1, txAvailable := last }
    event now epoch .decoderRequestSubmitted s.next core submission.decoder submission.tag
    pure (some 0)

/-- An access of a core. A write that is refused is tried again by the memory. -/
def access (core : ℕ) (request : MemoryRequest) (now epoch : ℕ) :
    Sim DecoderSystem (Option ℕ) := do
  let command ← Proc.zoom DecoderSystem.mmio (fun mmio s => { s with mmio })
    (DecoderMmio.access core request)
  match command with
  | none => pure (some 0)
  | some (.consume decoder) => consume core decoder now epoch
  | some (.read decoder kind) => read core decoder kind
  | some (.reset decoder tag) => send core true { decoder, count := 0, tag, data := 0 } now epoch
  | some (.submit submission) => send core false submission now epoch

/-! ## What is due on a tick -/

/-- The transmission of the packet starts. -/
def Request.due (now : ℕ) (p : Request) : Bool := p.transmitted = false ∧ p.sent ≤ now

def Request.transmit (now : ℕ) (p : Request) : Request :=
  if p.due now then { p with transmitted := true } else p

def transmitAll (now : ℕ) (s : DecoderSystem) : DecoderSystem :=
  { s with
    requests := s.requests.map (·.transmit now)
    resetRequest := s.resetRequest.map (·.transmit now) }

/-- The records of the packets whose transmission starts. -/
def requestsSent (s : DecoderSystem) (now epoch : ℕ) : List TraceEvent :=
  ((s.requests ++ s.resetRequest.toList).filter (·.due now)).map fun p =>
    s.record now epoch .decoderRequestSent p.id p.core p.decoder p.tag

/-- The request or job belongs to the session of the reset and is older. -/
def Request.cancels (p : Request) (core decoder id : ℕ) : Bool :=
  core = p.core ∧ decoder = p.decoder ∧ id < p.id

/-- What a reset leaves when it arrives. -/
def cancel (p : Request) (s : DecoderSystem) : DecoderSystem :=
  { s with
    resetRequest := none
    requests := s.requests.filter fun q => ¬ p.cancels q.core q.decoder q.id
    jobs := s.jobs.filter fun j => ¬ p.cancels j.core j.decoder j.id
    sessions := s.sessions.insert (p.core, p.decoder) {} }

def advanceTransmission (now epoch : ℕ) : Sim DecoderSystem Unit := do
  let s ← Proc.get
  Proc.emitAll (s.requestsSent now epoch)
  Proc.modify (transmitAll now)
  Proc.forSome s.resetRequest fun p =>
    if p.arrival ≤ now then do
      Proc.modify (cancel p)
      event now epoch .decoderReset p.id p.core p.decoder p.tag
    else pure ()

/-- Add the result of a job to its session. -/
def returnResult (now epoch : ℕ) (j : Job) : Sim DecoderSystem Unit := do
  let s ← Proc.get
  match s.sessions[(j.core, j.decoder)]? with
  | none => Proc.check (.error ⟨.protocol, "map::at"⟩)
  | some session => do
      Proc.modify (setSession (j.core, j.decoder)
        { session with result := some (session.result.getD 0 ^^^ j.result), submitted := false })
      event now epoch .decoderResultReturned j.id j.core j.decoder

/-- The result of the job has arrived. -/
def Job.arrived (now : ℕ) (j : Job) : Bool := ∃ arrival ∈ j.arrival, arrival ≤ now

def Job.advance (now : ℕ) (j : Job) : Job :=
  { j with
    started := j.started ∨ j.start ≤ now
    completed := j.completed ∨ j.completion ≤ now }

/-- Advance one job; it is dropped when its result has arrived. -/
def advanceJob (now epoch : ℕ) (j : Job) : Sim DecoderSystem (Option Job) := do
  (if j.started = false ∧ j.start ≤ now then
    event now epoch .decoderStarted j.id j.core j.decoder
  else pure ())
  (if j.completed = false ∧ j.completion ≤ now then
    event now epoch .decoderCompleted j.id j.core j.decoder
  else pure ())
  if j.arrived now then do
    returnResult now epoch j
    pure none
  else pure (some (j.advance now))

/-- Advance jobs of which those before have been kept. -/
def advanceFrom (now epoch : ℕ) (kept : List Job) : List Job → Sim DecoderSystem Unit
  | [] => pure ()
  | j :: rest => do
      let j' ← advanceJob now epoch j
      Proc.modify fun s => { s with jobs := kept ++ j'.toList ++ rest }
      advanceFrom now epoch (kept ++ j'.toList) rest

def advanceJobs (now epoch : ℕ) : Sim DecoderSystem Unit := do
  let s ← Proc.get
  advanceFrom now epoch [] s.jobs

/-- The low bits of a packet, the least significant first. -/
def Request.bits (p : Request) : List Bool := (List.range p.count).map p.data.testBit

/-- The number of sessions that hold a result or will. -/
def reserved (s : DecoderSystem) : ℕ :=
  s.sessions.toList.countP fun entry => entry.2.result.isSome ∨ entry.2.submitted

/-- The bits of a result as a number. -/
def ofBits (result : List Bool) : ℕ :=
  result.zipIdx.foldl (fun bits b => bits ||| b.1.toNat <<< b.2) 0

/-- Start a job for the window that a packet has completed. -/
def decodeWindow (now : ℕ) (d : DecoderConfig) (p : Request) (window : List Bool) :
    Sim DecoderSystem Unit := do
  let s ← Proc.get
  let result ← d.decode window
  require (result.length = d.outputs) .backendFailure "decoder returned an incorrect result width"
  let earliest ← checkedAdd now 1
  let start := max earliest (s.available[d.id]?.getD 0)
  let available ← checkedAdd start d.initiationInterval
  Proc.modify fun s => { s with available := s.available.insert d.id available }
  let completion ← checkedAdd start d.latency
  Proc.modify fun s =>
    setSession (p.core, p.decoder)
      { s.session (p.core, p.decoder) with submitted := true, measurements := [] }
      { s with
        jobs := s.jobs ++ [
          { id := p.id, core := p.core, decoder := p.decoder, start, completion
            result := ofBits result }] }

/-- Admit a request that has arrived. It waits while its session has a job and, when it would
complete a window, while there is no room for another result. -/
def admitRequest (now epoch : ℕ) (p : Request) : Sim DecoderSystem Bool := do
  let s ← Proc.get
  let d ← s.decoder p.decoder
  Proc.modify (openSession (p.core, p.decoder))
  let s ← Proc.get
  let session := s.session (p.core, p.decoder)
  if session.submitted then pure false
  else do
    require (session.measurements.length + p.count ≤ d.measurements) .protocol
      "decoder measurement count or session state mismatch"
    if session.measurements.length + p.count = d.measurements ∧ session.result = none ∧
        s.config.resultCapacity ≤ s.reserved then pure false
    else do
      let measurements := session.measurements ++ p.bits
      Proc.modify (setSession (p.core, p.decoder) { session with measurements })
      event now epoch .decoderRequestArrived p.id p.core p.decoder p.tag
      (if measurements.length = d.measurements then decodeWindow now d p measurements else pure ())
      pure true

/-- Admit the requests at the head of the queue. -/
def admitFrom (now epoch : ℕ) : List Request → Sim DecoderSystem Unit
  | [] => pure ()
  | p :: rest =>
      if p.arrival ≤ now then do
        let admitted ← admitRequest now epoch p
        if admitted then do
          Proc.modify fun s => { s with requests := rest }
          admitFrom now epoch rest
        else pure ()
      else pure ()

def admitRequests (now epoch : ℕ) : Sim DecoderSystem Unit := do
  let s ← Proc.get
  admitFrom now epoch s.requests

/-- The job is complete and its result has not been transmitted. -/
def Job.ready (j : Job) : Bool := j.completed = true ∧ j.arrival = none

def Job.before (j j' : Job) : Bool :=
  j.completion < j'.completion ∨ j.completion = j'.completion ∧ j.id < j'.id

def firstReady (ready : Option Job) (j : Job) : Option Job :=
  if j.ready ∧ ∀ r ∈ ready, j.before r = true then some j else ready

/-- The ready job that has completed first. -/
def readyJob (jobs : List Job) : Option Job := jobs.foldl firstReady none

def transmitResult (now : ℕ) : Sim DecoderSystem Unit := do
  let s ← Proc.get
  if s.rxAvailable ≤ now then
    Proc.forSome (readyJob s.jobs) fun ready => do
      let d ← s.decoder ready.decoder
      let duration ← linkDuration s.config ((d.outputs + 7) / 8)
      let last ← checkedAdd now duration
      let arrival ← checkedAdd last s.config.linkLatency
      -- The identities of jobs are those of their requests, which are different.
      Proc.modify fun s =>
        { s with
          jobs := s.jobs.map fun j => if j.id = ready.id then { j with arrival := some arrival } else j
          rxAvailable := last }
  else pure ()

def step (now epoch : ℕ) : Sim DecoderSystem Unit := do
  advanceTransmission now epoch
  advanceJobs now epoch
  admitRequests now epoch
  transmitResult now

/-! ## The end of a run -/

def reset (s : DecoderSystem) : DecoderSystem :=
  { s with
    mmio := s.mmio.reset, sessions := ∅, requests := [], resetRequest := none, jobs := []
    available := ∅, txAvailable := 0, rxAvailable := 0 }

def idle (s : DecoderSystem) : Bool :=
  s.requests = [] ∧ s.resetRequest = none ∧ s.jobs = [] ∧
    ∀ entry ∈ s.sessions.toList, entry.2.measurements = []

/-- The ticks on which something can be due for a request. -/
def requestBoundaries (p : Request) : List ℕ :=
  (if p.transmitted then [] else [p.sent]) ++ [p.arrival]

def jobBoundaries (s : DecoderSystem) (j : Job) : List ℕ :=
  [j.start, j.completion] ++
    match j.arrival with
    | some arrival => [arrival]
    | none => if j.completed then [s.rxAvailable] else []

def nextBoundary (s : DecoderSystem) (now : ℕ) : Option ℕ :=
  (((s.requests ++ s.resetRequest.toList).flatMap requestBoundaries ++
    s.jobs.flatMap s.jobBoundaries).filter (now < ·)).min?

end DecoderSystem
end Qsbit

import Qsbit.Cpu
import Qsbit.Lib.Simulation
import Qsbit.MemoryModel.Step

/-!
# One instruction after the other

What a program means: an instruction is fetched, decoded and executed before the next one is
fetched. There is no pipeline and there are no ports. The control and the devices answer as they
like, and the devices may change between two instructions.

## Main definitions

* `Architecture` — the state that a program sees.
* `CpuEvent` — what is seen of a program.
* `Sequential.Executes`, `Sequential.Faults` — one instruction, and one that cannot be executed.
* `Sequential.Shows` — what is seen of an instruction that has not retired.
* `Sequential.Step` — an instruction, or a change of the devices.
-/
namespace Qsbit
open MemoryModel (Bank Performs answer)

/-- The state that a program sees. -/
structure Architecture (δ : Type) where
  pc : BitVec 32
  registers : RegisterFile := fun _ => 0
  halted : Bool := false
  bank : Bank δ

/-- What is seen of a program: operations that the control has accepted, accesses of the memory,
under no identity, and instructions that have retired. -/
inductive CpuEvent
  | control (command : ControlCommand) (reply : ℕ)
  | access (request : MemoryRequest) (response : MemoryResponse)
  | retired (record : InstructionRetired)

namespace Sequential
variable {δ : Type}

/-- The word that a fetch reads, or the code of its fault. -/
def wordOf : Except Fault ℕ → Except ErrorCode (BitVec 32)
  | .ok value => .ok (BitVec.ofNat 32 value)
  | .error fault => .error fault.code

/-- The word at an address, as the memory answers a fetch. Devices do not answer it. -/
def fetchResult (d : MemoryDevice δ) (b : Bank δ) (pc : BitVec 32) : Except ErrorCode (BitVec 32) :=
  if d.contains b.device pc.toNat then .error .invalidOperand
  else wordOf (b.image.read pc.toNat 4 true)

/-- The word is a bundle and not a single instruction. -/
def Bundled (issue : ControlIssue) (word : BitVec 32) : Prop :=
  issue = .dualCodeword ∧ word &&& 127 = Contract.bundleOpcode

instance (issue : ControlIssue) (word : BitVec 32) : Decidable (Bundled issue word) :=
  inferInstanceAs (Decidable (_ ∧ _))

/-- The program leaves. -/
def Exits (d : Rv32.Decoded) (registers : RegisterFile) : Prop :=
  d.op = .ecall ∧ registers 17 = 93

instance (d : Rv32.Decoded) (registers : RegisterFile) : Decidable (Exits d registers) :=
  inferInstanceAs (Decidable (_ ∧ _))

/-- The value of a load. -/
def loadedValue (e : Rv32.Effect) (value : ℕ) : Except Fault (BitVec 32) :=
  if e.signExtendLoad then Rv32.signExtend (BitVec.ofNat 32 value) (e.width.toNat * 8)
  else pure (BitVec.ofNat 32 value)

end Sequential

namespace Architecture
variable {δ : Type}

/-- The record of an instruction. -/
def record (a : Architecture δ) (word : BitVec 32) (d : Rv32.Decoded) (value nextPc : BitVec 32) :
    InstructionRetired where
  pc := a.pc
  word := word
  rd := if d.writesRd then d.rd else 0
  nextPc := nextPc
  value := value
  registers := InOrderPipeline.written a.registers d value

/-- The state after an instruction. -/
def next (a : Architecture δ) (d : Rv32.Decoded) (value nextPc : BitVec 32) : Architecture δ :=
  { a with pc := nextPc, registers := InOrderPipeline.written a.registers d value }

def lhs (a : Architecture δ) (d : Rv32.Decoded) : BitVec 32 := a.registers (d.rs1.setWidth 5)

def rhs (a : Architecture δ) (d : Rv32.Decoded) : BitVec 32 := a.registers (d.rs2.setWidth 5)

/-- What an instruction of one word does, in terms of its operands. -/
def evaluate (a : Architecture δ) (d : Rv32.Decoded) : Except Fault Rv32.Effect :=
  Rv32.evaluate d a.pc (a.lhs d) (a.rhs d)

end Architecture

namespace Sequential
open InOrderPipeline (dataRequest)
variable {δ : Type}

/-- A word that has been fetched and is a single instruction. -/
structure Fetches (d : MemoryDevice δ) (issue : ControlIssue) (a : Architecture δ)
    (word : BitVec 32) (x : Rv32.Decoded) : Prop where
  running : a.halted = false
  fetched : fetchResult d a.bank a.pc = .ok word
  single : ¬ Bundled issue word
  decoded : Rv32.decode word = .ok x

/-- An instruction of the instruction set, with what it does. -/
structure Evaluates (d : MemoryDevice δ) (issue : ControlIssue) (a : Architecture δ)
    (word : BitVec 32) (x : Rv32.Decoded) (e : Rv32.Effect) : Prop
    extends Fetches d issue a word x where
  plain : x.op ≠ .quantum
  stays : ¬ Exits x a.registers
  evaluated : a.evaluate x = .ok e

/-- The execution of one instruction. -/
inductive Executes (d : MemoryDevice δ) (issue : ControlIssue) (a : Architecture δ) :
    List CpuEvent → Architecture δ → Prop
  | plain {word : BitVec 32} {x : Rv32.Decoded} {e : Rv32.Effect}
      (evaluates : Evaluates d issue a word x e) (quiet : e.memory = .none) :
      Executes d issue a [.retired (a.record word x e.value e.nextPc)] (a.next x e.value e.nextPc)
  | access {word : BitVec 32} {x : Rv32.Decoded} {e : Rv32.Effect} {id now epoch answered : ℕ}
      {bank : Bank δ} {value : BitVec 32} (evaluates : Evaluates d issue a word x e)
      (memory : e.memory ≠ .none)
      (performs : Performs d (dataRequest e id) now epoch a.bank (.ok answered) bank)
      (loaded : loadedValue e answered = .ok value) :
      Executes d issue a
        [.access (dataRequest e 0) { value := answered }, .retired (a.record word x value e.nextPc)]
        { a.next x value e.nextPc with bank }
  | control {word : BitVec 32} {x : Rv32.Decoded} {id reply : ℕ} {operation : ControlOperation}
      (fetches : Fetches d issue a word x) (quantum : x.op = .quantum)
      (adapted : adaptQuantum x id (a.lhs x) (a.rhs x) = .ok operation) :
      Executes d issue a
        [.control operation.command reply,
          .retired (a.record word x (BitVec.ofNat 32 reply) (a.pc + 4))]
        (a.next x (BitVec.ofNat 32 reply) (a.pc + 4))
  | bundle {word : BitVec 32} {id : ℕ} {operations : List ControlOperation} {replies : List ℕ}
      (running : a.halted = false) (fetched : fetchResult d a.bank a.pc = .ok word)
      (bundled : Bundled issue word) (decoded : decodeCwBundle word id a.registers = .ok operations)
      (answered : replies.length = operations.length) :
      Executes d issue a
        (List.zipWith (fun operation reply => .control operation.command reply) operations replies ++
          [.retired (a.record word { op := .quantum, word } 0 (a.pc + 4))])
        (a.next { op := .quantum, word } 0 (a.pc + 4))
  | exit {word : BitVec 32} {x : Rv32.Decoded} {reply : ℕ} (fetches : Fetches d issue a word x)
      (exits : Exits x a.registers) :
      Executes d issue a [.control .halt reply, .retired (a.record word x 0 (a.pc + 4))]
        { a.next x 0 (a.pc + 4) with halted := true }

/-- There is no instruction at the program counter. -/
inductive Invalid (d : MemoryDevice δ) (issue : ControlIssue) (a : Architecture δ) :
    ErrorCode → Prop
  | fetch {code : ErrorCode} (running : a.halted = false)
      (fetched : fetchResult d a.bank a.pc = .error code) : Invalid d issue a code
  | decode {word : BitVec 32} {fault : Fault} (running : a.halted = false)
      (fetched : fetchResult d a.bank a.pc = .ok word) (single : ¬ Bundled issue word)
      (decoded : Rv32.decode word = .error fault) : Invalid d issue a fault.code
  | bundle {word : BitVec 32} {id : ℕ} {fault : Fault} (running : a.halted = false)
      (fetched : fetchResult d a.bank a.pc = .ok word) (bundled : Bundled issue word)
      (decoded : decodeCwBundle word id a.registers = .error fault) : Invalid d issue a fault.code

/-- The instruction that is next cannot be executed. -/
inductive Faults (d : MemoryDevice δ) (issue : ControlIssue) (a : Architecture δ) : ErrorCode → Prop
  | invalid {code : ErrorCode} (h : Invalid d issue a code) : Faults d issue a code
  | evaluate {word : BitVec 32} {x : Rv32.Decoded} {fault : Fault}
      (fetches : Fetches d issue a word x) (plain : x.op ≠ .quantum)
      (stays : ¬ Exits x a.registers) (evaluated : a.evaluate x = .error fault) :
      Faults d issue a fault.code
  | access {word : BitVec 32} {x : Rv32.Decoded} {e : Rv32.Effect} {id now epoch : ℕ}
      {bank : Bank δ} {fault : Fault} (evaluates : Evaluates d issue a word x e)
      (memory : e.memory ≠ .none)
      (performs : Performs d (dataRequest e id) now epoch a.bank (.error fault) bank) :
      Faults d issue a fault.code

/-- What the instruction that is next has shown before it retires: nothing, the first operations of a
bundle, or its access. -/
inductive Shows (d : MemoryDevice δ) (issue : ControlIssue) (a : Architecture δ) :
    List CpuEvent → Prop
  | nothing : Shows d issue a []
  | lanes {word : BitVec 32} {id : ℕ} {operations : List ControlOperation} {replies : List ℕ}
      (fetched : fetchResult d a.bank a.pc = .ok word) (bundled : Bundled issue word)
      (decoded : decodeCwBundle word id a.registers = .ok operations)
      (answered : replies.length ≤ operations.length) :
      Shows d issue a
        (List.zipWith (fun operation reply => .control operation.command reply) operations replies)
  | access {word : BitVec 32} {x : Rv32.Decoded} {e : Rv32.Effect} {id now epoch : ℕ}
      {result : Except Fault ℕ} {bank : Bank δ} (evaluates : Evaluates d issue a word x e)
      (memory : e.memory ≠ .none)
      (performs : Performs d (dataRequest e id) now epoch a.bank result bank) :
      Shows d issue a [.access (dataRequest e 0) (answer (dataRequest e 0) result)]

theorem Shows.unretired {issue : ControlIssue} {d : MemoryDevice δ} {a : Architecture δ}
    {l : List CpuEvent} (h : Shows d issue a l) (record : InstructionRetired) :
    .retired record ∉ l := by
  cases h with
  | nothing => exact List.not_mem_nil
  | access => simp
  | @lanes word id operations replies =>
    intro hmem
    rw [← List.map_uncurry_zip_eq_zipWith] at hmem
    obtain ⟨_, -, hevent⟩ := List.mem_map.1 hmem
    cases hevent

/-- One instruction, or a change of the devices. -/
inductive Step (d : MemoryDevice δ) (issue : ControlIssue) (changes : δ → δ → Prop)
    (a : Architecture δ) : List CpuEvent → Architecture δ → Prop
  | executes {l : List CpuEvent} {a' : Architecture δ} (h : Executes d issue a l a') :
      Step d issue changes a l a'
  | changed (device : δ) (h : changes a.bank.device device) :
      Step d issue changes a [] { a with bank := { a.bank with device } }

/-! ## The memory elsewhere -/

section Bank
variable {d : MemoryDevice δ} {issue : ControlIssue} {a : Architecture δ} {b : Bank δ}
  {word : BitVec 32} {x : Rv32.Decoded} {e : Rv32.Effect} {code : ErrorCode}

theorem Invalid.bank (h : Invalid d issue a code)
    (hsame : fetchResult d b a.pc = fetchResult d a.bank a.pc) :
    Invalid d issue { a with bank := b } code := by
  cases h with
  | fetch running fetched => exact .fetch running (hsame.trans fetched)
  | decode running fetched single decoded =>
    exact .decode running (hsame.trans fetched) single decoded
  | bundle running fetched bundled decoded =>
    exact .bundle running (hsame.trans fetched) bundled decoded

theorem Fetches.bank (h : Fetches d issue a word x)
    (hsame : fetchResult d b a.pc = fetchResult d a.bank a.pc) :
    Fetches d issue { a with bank := b } word x :=
  ⟨h.running, hsame.trans h.fetched, h.single, h.decoded⟩

theorem Evaluates.bank (h : Evaluates d issue a word x e)
    (hsame : fetchResult d b a.pc = fetchResult d a.bank a.pc) :
    Evaluates d issue { a with bank := b } word x e :=
  ⟨h.toFetches.bank hsame, h.plain, h.stays, h.evaluated⟩

end Bank

end Sequential
end Qsbit

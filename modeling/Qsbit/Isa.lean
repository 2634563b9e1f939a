import Qsbit.Error

/-!
# The instruction set

`decode` turns a 32-bit word into an operation with its register fields and its
immediate; `evaluate` computes what a decoded instruction does to the program
counter, its destination register and memory. A control word keeps its function and
its mode in `word`, from which the control command is adapted.

## Main definitions

* `Rv32.Decoded`, `Rv32.Effect` — the two records.
* `Rv32.decode`, `Rv32.evaluate` — the two functions above.
* `Contract.validControlWord` — which control words the decoder admits.
-/
namespace Qsbit
namespace Contract

def controlOpcode : BitVec 32 := 0x0b
def bundleOpcode : BitVec 32 := 0x2b

/-- The mode and the registers that a control function leaves unused are zero. -/
def validControlWord (word : BitVec 32) : Bool :=
  if word &&& 127 ≠ controlOpcode then false
  else
    let rd := (word >>> 7) &&& 31
    let rs2 := (word >>> 20) &&& 31
    let mode := word >>> 25
    match ((word >>> 12) &&& 7).toNat with
    | 0 => mode ≤ 3 ∧ rd = 0
    | 1 => mode = 0 ∧ rd = 0 ∧ rs2 = 0
    | 2 => rd = 0
    | 3 => mode = 0 ∧ rs2 = 0
    | 6 => rd = 0
    | _ => false

end Contract

namespace Rv32

inductive Op
  | lui | auipc | jal | jalr
  | beq | bne | blt | bge | bltu | bgeu
  | lb | lh | lw | lbu | lhu
  | sb | sh | sw
  | addi | slti | sltiu | xori | ori | andi | slli | srli | srai
  | add | sub | sll | slt | sltu | xor | srl | sra | or | and
  | fence | ecall | ebreak | quantum
  deriving DecidableEq, Repr

structure Decoded where
  op : Op
  word : BitVec 32
  immediate : BitVec 32 := 0
  rd : BitVec 8 := 0
  rs1 : BitVec 8 := 0
  rs2 : BitVec 8 := 0
  readsRs1 : Bool := false
  readsRs2 : Bool := false
  writesRd : Bool := false
  deriving DecidableEq, Repr

inductive MemoryKind
  | none | load | store
  deriving DecidableEq, Repr

structure Effect where
  nextPc : BitVec 32 := 0
  value : BitVec 32 := 0
  address : BitVec 32 := 0
  storeValue : BitVec 32 := 0
  writesRd : Bool := false
  branchTaken : Bool := false
  signExtendLoad : Bool := false
  memory : MemoryKind := .none
  width : BitVec 8 := 0
  deriving DecidableEq, Repr

/-! ## Decoding -/

/-- Extend the sign of the lowest `bits` bits. -/
def signExtend (value : BitVec 32) (bits : ℕ) : Except Fault (BitVec 32) := do
  require (0 < bits ∧ bits ≤ 32) .invalidOperand "invalid sign extension width"
  if bits = 32 then pure value
  else
    let mask := (1#32 <<< bits) - 1
    let sign := 1#32 <<< (bits - 1)
    pure (((value &&& mask) ^^^ sign) - sign)

def illegal {α : Type} : Except Fault α :=
  .error ⟨.illegalInstruction, "unsupported RV32 encoding"⟩

def branchOp : ℕ → Except Fault Op
  | 0 => pure .beq
  | 1 => pure .bne
  | 4 => pure .blt
  | 5 => pure .bge
  | 6 => pure .bltu
  | 7 => pure .bgeu
  | _ => illegal

def loadOp : ℕ → Except Fault Op
  | 0 => pure .lb
  | 1 => pure .lh
  | 2 => pure .lw
  | 4 => pure .lbu
  | 5 => pure .lhu
  | _ => illegal

def storeOp : ℕ → Except Fault Op
  | 0 => pure .sb
  | 1 => pure .sh
  | 2 => pure .sw
  | _ => illegal

/-- A shift takes its amount from the second register field, not from the immediate. -/
def immediateOp (f3 f7 : ℕ) (rs2 immediate : BitVec 32) : Except Fault (Op × BitVec 32) :=
  match f3 with
  | 0 => pure (.addi, immediate)
  | 2 => pure (.slti, immediate)
  | 3 => pure (.sltiu, immediate)
  | 4 => pure (.xori, immediate)
  | 6 => pure (.ori, immediate)
  | 7 => pure (.andi, immediate)
  | 1 => if f7 ≠ 0 then illegal else pure (.slli, rs2)
  | 5 => if f7 ≠ 0 ∧ f7 ≠ 32 then illegal else pure (if f7 = 0 then .srli else .srai, rs2)
  | _ => illegal

/-- The last alternative of the source's switch falls through with the operation unset. -/
def registerOp (f3 f7 : ℕ) (unset : Op) : Except Fault Op :=
  if f7 ≠ 0 ∧ ¬ ((f3 = 0 ∨ f3 = 5) ∧ f7 = 32) then illegal
  else
    match f3 with
    | 0 => pure (if f7 = 0 then .add else .sub)
    | 1 => pure .sll
    | 2 => pure .slt
    | 3 => pure .sltu
    | 4 => pure .xor
    | 5 => pure (if f7 = 0 then .srl else .sra)
    | 6 => pure .or
    | 7 => pure .and
    | _ => pure unset

def decode (w : BitVec 32) : Except Fault Decoded :=
  let d : Decoded :=
    { op := .fence, word := w
      rd := ((w >>> 7) &&& 31).setWidth 8
      rs1 := ((w >>> 15) &&& 31).setWidth 8
      rs2 := ((w >>> 20) &&& 31).setWidth 8 }
  let f3 := ((w >>> 12) &&& 7).toNat
  let f7 := (w >>> 25).toNat
  match (w &&& 127).toNat with
  | 0x37 => pure { d with op := .lui, immediate := w &&& 0xfffff000, writesRd := true }
  | 0x17 => pure { d with op := .auipc, immediate := w &&& 0xfffff000, writesRd := true }
  | 0x6f => do
    let immediate ← signExtend (((w >>> 31) <<< 20) ||| (w &&& 0xff000) |||
      (((w >>> 20) &&& 1) <<< 11) ||| (((w >>> 21) &&& 1023) <<< 1)) 21
    pure { d with op := .jal, writesRd := true, immediate }
  | 0x67 =>
    if f3 ≠ 0 then illegal
    else do
      let immediate ← signExtend (w >>> 20) 12
      pure { d with op := .jalr, writesRd := true, readsRs1 := true, immediate }
  | 0x63 => do
    let op ← branchOp f3
    let immediate ← signExtend (((w >>> 31) <<< 12) ||| (((w >>> 7) &&& 1) <<< 11) |||
      (((w >>> 25) &&& 63) <<< 5) ||| (((w >>> 8) &&& 15) <<< 1)) 13
    pure { d with op, readsRs1 := true, readsRs2 := true, immediate }
  | 0x03 => do
    let op ← loadOp f3
    let immediate ← signExtend (w >>> 20) 12
    pure { d with op, readsRs1 := true, writesRd := true, immediate }
  | 0x23 => do
    let op ← storeOp f3
    let immediate ← signExtend (((w >>> 25) <<< 5) ||| ((w >>> 7) &&& 31)) 12
    pure { d with op, readsRs1 := true, readsRs2 := true, immediate }
  | 0x13 => do
    let immediate ← signExtend (w >>> 20) 12
    let (op, immediate) ← immediateOp f3 f7 (d.rs2.setWidth 32) immediate
    pure { d with op, readsRs1 := true, writesRd := true, immediate }
  | 0x33 => do
    let op ← registerOp f3 f7 d.op
    pure { d with op, readsRs1 := true, readsRs2 := true, writesRd := true }
  | 0x0f => if f3 ≠ 0 then illegal else pure { d with op := .fence }
  | 0x73 =>
    if w = 0x00000073 then pure { d with op := .ecall }
    else if w = 0x00100073 then pure { d with op := .ebreak }
    else illegal
  | 0x0b =>
    if Contract.validControlWord w then
      pure { d with
        op := .quantum
        readsRs1 := (f3 = 0 ∧ (w >>> 25) &&& 1 = 0) ∨ f3 = 1
        readsRs2 := f3 = 0 ∧ (w >>> 25) &&& 2 = 0
        writesRd := f3 = 3 }
    else illegal
  | _ => illegal

/-! ## Evaluation -/

/-- An arithmetic right shift; only the lowest five bits of the amount count. -/
def sar (x amount : BitVec 32) : BitVec 32 := x.sshiftRight (amount &&& 31).toNat

/-- The effect of an operation, before its next program counter is checked. -/
def effect (d : Decoded) (pc a b : BitVec 32) : Except Fault Effect :=
  let i := d.immediate
  let e : Effect := { nextPc := pc + 4, writesRd := d.writesRd }
  let branch (taken : Bool) : Effect :=
    { e with branchTaken := taken, nextPc := if taken then pc + i else e.nextPc }
  let load (width : BitVec 8) (signed : Bool) : Effect :=
    { e with memory := .load, address := a + i, width, signExtendLoad := signed }
  let store (width : BitVec 8) : Effect :=
    { e with memory := .store, address := a + i, storeValue := b, width }
  let flag (p : Bool) : BitVec 32 := if p then 1 else 0
  match d.op with
  | .lui => pure { e with value := i }
  | .auipc => pure { e with value := pc + i }
  | .jal => pure { e with value := pc + 4, nextPc := pc + i, branchTaken := true }
  | .jalr => pure { e with value := pc + 4, nextPc := (a + i) &&& ~~~1#32, branchTaken := true }
  | .beq => pure (branch (a = b))
  | .bne => pure (branch (a ≠ b))
  | .blt => pure (branch (a.toInt < b.toInt))
  | .bge => pure (branch (b.toInt ≤ a.toInt))
  | .bltu => pure (branch (a.toNat < b.toNat))
  | .bgeu => pure (branch (b.toNat ≤ a.toNat))
  | .lb => pure (load 1 true)
  | .lh => pure (load 2 true)
  | .lw => pure (load 4 false)
  | .lbu => pure (load 1 false)
  | .lhu => pure (load 2 false)
  | .sb => pure (store 1)
  | .sh => pure (store 2)
  | .sw => pure (store 4)
  | .addi => pure { e with value := a + i }
  | .slti => pure { e with value := flag (a.toInt < i.toInt) }
  | .sltiu => pure { e with value := flag (a.toNat < i.toNat) }
  | .xori => pure { e with value := a ^^^ i }
  | .ori => pure { e with value := a ||| i }
  | .andi => pure { e with value := a &&& i }
  | .slli => pure { e with value := a <<< (i &&& 31) }
  | .srli => pure { e with value := a >>> (i &&& 31) }
  | .srai => pure { e with value := sar a i }
  | .add => pure { e with value := a + b }
  | .sub => pure { e with value := a - b }
  | .sll => pure { e with value := a <<< (b &&& 31) }
  | .slt => pure { e with value := flag (a.toInt < b.toInt) }
  | .sltu => pure { e with value := flag (a.toNat < b.toNat) }
  | .xor => pure { e with value := a ^^^ b }
  | .srl => pure { e with value := a >>> (b &&& 31) }
  | .sra => pure { e with value := sar a b }
  | .or => pure { e with value := a ||| b }
  | .and => pure { e with value := a &&& b }
  | .fence => pure e
  | .ecall => .error ⟨.environmentCall, "RV32I ECALL"⟩
  | .ebreak => .error ⟨.breakpoint, "RV32I EBREAK"⟩
  | .quantum => pure e

def evaluate (d : Decoded) (pc a b : BitVec 32) : Except Fault Effect := do
  require (pc &&& 3 = 0) .instructionMisaligned "unaligned instruction PC"
  let e ← effect d pc a b
  require (e.nextPc &&& 3 = 0) .instructionMisaligned "unaligned taken branch target"
  pure e

end Rv32
end Qsbit

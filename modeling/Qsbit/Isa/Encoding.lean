import Qsbit.Isa.Fields

/-!
# Instruction encodings

The base integer instructions, with the fields that the instruction set gives them, and
their words. The decoder accepts the words of these instructions and the valid control
words, and nothing else; what it returns is enough to write the word again.

## Main definitions

* `Rv32.Instruction` — an instruction with its operands, `encode` its word.
* `Rv32.Decoded.reencode` — the word of a decoded record, by the format of its operation.

## Main results

* `Rv32.decode_encode` — the word of an instruction decodes to the instruction.
* `Rv32.decode_eq_ok` — a decoded word is an instruction's or a valid control word.
-/
namespace Qsbit
namespace Rv32

/-! ## Instructions -/

inductive Branch
  | beq | bne | blt | bge | bltu | bgeu
  deriving DecidableEq, Repr

inductive Load
  | lb | lh | lw | lbu | lhu
  deriving DecidableEq, Repr

inductive Store
  | sb | sh | sw
  deriving DecidableEq, Repr

/-- The operations on a register and a constant. -/
inductive Constant
  | addi | slti | sltiu | xori | ori | andi
  deriving DecidableEq, Repr

/-- The shifts by a constant. -/
inductive Shift
  | slli | srli | srai
  deriving DecidableEq, Repr

/-- The operations on two registers. -/
inductive Arithmetic
  | add | sub | sll | slt | sltu | xor | srl | sra | or | and
  deriving DecidableEq, Repr

/-- The base integer instructions. The offset of a jump or a branch is even; `offset` is half
of it. -/
inductive Instruction
  | lui (rd : BitVec 5) (immediate : BitVec 20)
  | auipc (rd : BitVec 5) (immediate : BitVec 20)
  | jal (rd : BitVec 5) (offset : BitVec 20)
  | jalr (rd rs1 : BitVec 5) (immediate : BitVec 12)
  | branch (kind : Branch) (rs1 rs2 : BitVec 5) (offset : BitVec 12)
  | load (kind : Load) (rd rs1 : BitVec 5) (immediate : BitVec 12)
  | store (kind : Store) (rs1 rs2 : BitVec 5) (immediate : BitVec 12)
  | constant (kind : Constant) (rd rs1 : BitVec 5) (immediate : BitVec 12)
  | shift (kind : Shift) (rd rs1 shamt : BitVec 5)
  | arithmetic (kind : Arithmetic) (rd rs1 rs2 : BitVec 5)
  | fence (fm pred succ : BitVec 4) (rs1 rd : BitVec 5)
  | ecall
  | ebreak
  deriving DecidableEq, Repr

def Branch.funct3 : Branch → BitVec 3
  | .beq => 0 | .bne => 1 | .blt => 4 | .bge => 5 | .bltu => 6 | .bgeu => 7

def Branch.op : Branch → Op
  | .beq => .beq | .bne => .bne | .blt => .blt | .bge => .bge | .bltu => .bltu | .bgeu => .bgeu

def Load.funct3 : Load → BitVec 3
  | .lb => 0 | .lh => 1 | .lw => 2 | .lbu => 4 | .lhu => 5

def Load.op : Load → Op
  | .lb => .lb | .lh => .lh | .lw => .lw | .lbu => .lbu | .lhu => .lhu

def Store.funct3 : Store → BitVec 3
  | .sb => 0 | .sh => 1 | .sw => 2

def Store.op : Store → Op
  | .sb => .sb | .sh => .sh | .sw => .sw

def Constant.funct3 : Constant → BitVec 3
  | .addi => 0 | .slti => 2 | .sltiu => 3 | .xori => 4 | .ori => 6 | .andi => 7

def Constant.op : Constant → Op
  | .addi => .addi | .slti => .slti | .sltiu => .sltiu | .xori => .xori | .ori => .ori
  | .andi => .andi

def Shift.funct3 : Shift → BitVec 3
  | .slli => 1 | .srli => 5 | .srai => 5

def Shift.funct7 : Shift → BitVec 7
  | .slli => 0 | .srli => 0 | .srai => 32

def Shift.op : Shift → Op
  | .slli => .slli | .srli => .srli | .srai => .srai

def Arithmetic.funct3 : Arithmetic → BitVec 3
  | .add => 0 | .sub => 0 | .sll => 1 | .slt => 2 | .sltu => 3 | .xor => 4 | .srl => 5
  | .sra => 5 | .or => 6 | .and => 7

def Arithmetic.funct7 : Arithmetic → BitVec 7
  | .sub => 32 | .sra => 32 | _ => 0

def Arithmetic.op : Arithmetic → Op
  | .add => .add | .sub => .sub | .sll => .sll | .slt => .slt | .sltu => .sltu | .xor => .xor
  | .srl => .srl | .sra => .sra | .or => .or | .and => .and

/-! ## Formats -/

/-- The format of an immediate in the upper twelve bits. -/
def formatI (immediate : BitVec 32) (rs1 : BitVec 5) (funct3 : BitVec 3) (rd : BitVec 5)
    (opcode : BitVec 7) : BitVec 32 :=
  pack (immediate.extractLsb' 5 7) (immediate.extractLsb' 0 5) rs1 funct3 rd opcode

/-- The format of a store: the immediate leaves out the second register. -/
def formatS (immediate : BitVec 32) (rs2 rs1 : BitVec 5) (funct3 : BitVec 3)
    (opcode : BitVec 7) : BitVec 32 :=
  pack (immediate.extractLsb' 5 7) rs2 rs1 funct3 (immediate.extractLsb' 0 5) opcode

/-- The format of a branch. -/
def formatB (immediate : BitVec 32) (rs2 rs1 : BitVec 5) (funct3 : BitVec 3)
    (opcode : BitVec 7) : BitVec 32 :=
  pack (place (immediate.extractLsb' 12 1) 6 ||| place (immediate.extractLsb' 5 6) 0) rs2 rs1
    funct3 (place (immediate.extractLsb' 1 4) 1 ||| place (immediate.extractLsb' 11 1) 0) opcode

/-- The format of an upper immediate. -/
def formatU (immediate : BitVec 32) (rd : BitVec 5) (opcode : BitVec 7) : BitVec 32 :=
  pack (immediate.extractLsb' 25 7) (immediate.extractLsb' 20 5) (immediate.extractLsb' 15 5)
    (immediate.extractLsb' 12 3) rd opcode

/-- The format of a jump. -/
def formatJ (immediate : BitVec 32) (rd : BitVec 5) (opcode : BitVec 7) : BitVec 32 :=
  pack (place (immediate.extractLsb' 20 1) 6 ||| place (immediate.extractLsb' 5 6) 0)
    (place (immediate.extractLsb' 1 4) 1 ||| place (immediate.extractLsb' 11 1) 0)
    (immediate.extractLsb' 15 5) (immediate.extractLsb' 12 3) rd opcode

/-- The value that an instruction's immediate stands for. -/
def Instruction.immediate : Instruction → BitVec 32
  | .lui _ immediate | .auipc _ immediate => place immediate 12
  | .jal _ offset => offset.signExtend 32 <<< 1
  | .branch _ _ _ offset => offset.signExtend 32 <<< 1
  | .jalr _ _ immediate | .load _ _ _ immediate | .store _ _ _ immediate
  | .constant _ _ _ immediate => immediate.signExtend 32
  | .shift _ _ _ shamt => shamt.setWidth 32
  | _ => 0

def Instruction.encode (instruction : Instruction) : BitVec 32 :=
  match instruction with
  | .lui rd _ => formatU instruction.immediate rd 0x37
  | .auipc rd _ => formatU instruction.immediate rd 0x17
  | .jal rd _ => formatJ instruction.immediate rd 0x6f
  | .jalr rd rs1 _ => formatI instruction.immediate rs1 0 rd 0x67
  | .branch kind rs1 rs2 _ => formatB instruction.immediate rs2 rs1 kind.funct3 0x63
  | .load kind rd rs1 _ => formatI instruction.immediate rs1 kind.funct3 rd 0x03
  | .store kind rs1 rs2 _ => formatS instruction.immediate rs2 rs1 kind.funct3 0x23
  | .constant kind rd rs1 _ => formatI instruction.immediate rs1 kind.funct3 rd 0x13
  | .shift kind rd rs1 shamt => pack kind.funct7 shamt rs1 kind.funct3 rd 0x13
  | .arithmetic kind rd rs1 rs2 => pack kind.funct7 rs2 rs1 kind.funct3 rd 0x33
  | .fence fm pred succ rs1 rd =>
    pack (place fm 3 ||| place (pred.extractLsb' 1 3) 0)
      (place (pred.extractLsb' 0 1) 4 ||| place succ 0) rs1 0 rd 0x0f
  | .ecall => pack 0 0 0 0 0 0x73
  | .ebreak => pack 0 1 0 0 0 0x73

def Instruction.op : Instruction → Op
  | .lui .. => .lui
  | .auipc .. => .auipc
  | .jal .. => .jal
  | .jalr .. => .jalr
  | .branch kind .. => kind.op
  | .load kind .. => kind.op
  | .store kind .. => kind.op
  | .constant kind .. => kind.op
  | .shift kind .. => kind.op
  | .arithmetic kind .. => kind.op
  | .fence .. => .fence
  | .ecall => .ecall
  | .ebreak => .ebreak

def Instruction.readsRs1 : Instruction → Bool
  | .jalr .. | .branch .. | .load .. | .store .. | .constant .. | .shift .. | .arithmetic .. => true
  | _ => false

def Instruction.readsRs2 : Instruction → Bool
  | .branch .. | .store .. | .arithmetic .. => true
  | _ => false

def Instruction.writesRd : Instruction → Bool
  | .lui .. | .auipc .. | .jal .. | .jalr .. | .load .. | .constant .. | .shift ..
  | .arithmetic .. => true
  | _ => false

/-! ## Decoded records -/

/-- What the decoder reads of a word before it looks at the opcode. -/
def header (w : BitVec 32) : Decoded :=
  { op := .fence, word := w
    rd := ((w >>> 7) &&& 31).setWidth 8
    rs1 := ((w >>> 15) &&& 31).setWidth 8
    rs2 := ((w >>> 20) &&& 31).setWidth 8 }

/-- The record of an instruction. -/
def Instruction.decoded (instruction : Instruction) : Decoded :=
  { header instruction.encode with
    op := instruction.op
    immediate := instruction.immediate
    readsRs1 := instruction.readsRs1
    readsRs2 := instruction.readsRs2
    writesRd := instruction.writesRd }

/-- The record of a control word. -/
def control (w : BitVec 32) : Decoded :=
  { header w with
    op := .quantum
    readsRs1 := (((w >>> 12) &&& 7).toNat = 0 ∧ (w >>> 25) &&& 1 = 0) ∨
      ((w >>> 12) &&& 7).toNat = 1
    readsRs2 := ((w >>> 12) &&& 7).toNat = 0 ∧ (w >>> 25) &&& 2 = 0
    writesRd := ((w >>> 12) &&& 7).toNat = 3 }

/-- The word of a decoded record, by the format of its operation. The function and the mode
of a control word are taken from the recorded word. -/
def Decoded.reencode (d : Decoded) : BitVec 32 :=
  let rd : BitVec 5 := d.rd.setWidth 5
  let rs1 : BitVec 5 := d.rs1.setWidth 5
  let rs2 : BitVec 5 := d.rs2.setWidth 5
  match d.op with
  | .lui => formatU d.immediate rd 0x37
  | .auipc => formatU d.immediate rd 0x17
  | .jal => formatJ d.immediate rd 0x6f
  | .jalr => formatI d.immediate rs1 0 rd 0x67
  | .beq => formatB d.immediate rs2 rs1 0 0x63
  | .bne => formatB d.immediate rs2 rs1 1 0x63
  | .blt => formatB d.immediate rs2 rs1 4 0x63
  | .bge => formatB d.immediate rs2 rs1 5 0x63
  | .bltu => formatB d.immediate rs2 rs1 6 0x63
  | .bgeu => formatB d.immediate rs2 rs1 7 0x63
  | .lb => formatI d.immediate rs1 0 rd 0x03
  | .lh => formatI d.immediate rs1 1 rd 0x03
  | .lw => formatI d.immediate rs1 2 rd 0x03
  | .lbu => formatI d.immediate rs1 4 rd 0x03
  | .lhu => formatI d.immediate rs1 5 rd 0x03
  | .sb => formatS d.immediate rs2 rs1 0 0x23
  | .sh => formatS d.immediate rs2 rs1 1 0x23
  | .sw => formatS d.immediate rs2 rs1 2 0x23
  | .addi => formatI d.immediate rs1 0 rd 0x13
  | .slti => formatI d.immediate rs1 2 rd 0x13
  | .sltiu => formatI d.immediate rs1 3 rd 0x13
  | .xori => formatI d.immediate rs1 4 rd 0x13
  | .ori => formatI d.immediate rs1 6 rd 0x13
  | .andi => formatI d.immediate rs1 7 rd 0x13
  | .slli => pack 0 (d.immediate.setWidth 5) rs1 1 rd 0x13
  | .srli => pack 0 (d.immediate.setWidth 5) rs1 5 rd 0x13
  | .srai => pack 32 (d.immediate.setWidth 5) rs1 5 rd 0x13
  | .add => pack 0 rs2 rs1 0 rd 0x33
  | .sub => pack 32 rs2 rs1 0 rd 0x33
  | .sll => pack 0 rs2 rs1 1 rd 0x33
  | .slt => pack 0 rs2 rs1 2 rd 0x33
  | .sltu => pack 0 rs2 rs1 3 rd 0x33
  | .xor => pack 0 rs2 rs1 4 rd 0x33
  | .srl => pack 0 rs2 rs1 5 rd 0x33
  | .sra => pack 32 rs2 rs1 5 rd 0x33
  | .or => pack 0 rs2 rs1 6 rd 0x33
  | .and => pack 0 rs2 rs1 7 rd 0x33
  | .fence => pack 0 rs2 rs1 0 rd 0x0f
  | .ecall => pack 0 0 0 0 0 0x73
  | .ebreak => pack 0 1 0 0 0 0x73
  | .quantum =>
    pack ((d.word >>> 25).setWidth 7) rs2 rs1 (((d.word >>> 12) &&& 7).setWidth 3) rd 0x0b

/-! ## Opcodes -/

section Opcodes
variable (funct7 : BitVec 7) (rs2 rs1 : BitVec 5) (funct3 : BitVec 3) (rd : BitVec 5)

theorem decode_lui : decode (pack funct7 rs2 rs1 funct3 rd 0x37) =
    .ok { header (pack funct7 rs2 rs1 funct3 rd 0x37) with
      op := .lui, writesRd := true
      immediate := place (immediateU funct7 rs2 rs1 funct3) 12 } := by
  simp only [decode, pack_opcode, pack_immediateU]
  rfl

theorem decode_auipc : decode (pack funct7 rs2 rs1 funct3 rd 0x17) =
    .ok { header (pack funct7 rs2 rs1 funct3 rd 0x17) with
      op := .auipc, writesRd := true
      immediate := place (immediateU funct7 rs2 rs1 funct3) 12 } := by
  simp only [decode, pack_opcode, pack_immediateU]
  rfl

theorem decode_jal : decode (pack funct7 rs2 rs1 funct3 rd 0x6f) =
    .ok { header (pack funct7 rs2 rs1 funct3 rd 0x6f) with
      op := .jal, writesRd := true
      immediate := (immediateJ funct7 rs2 rs1 funct3).signExtend 32 <<< 1 } := by
  simp only [decode, pack_opcode, signExtend_immediateJ]
  rfl

theorem decode_jalr : decode (pack funct7 rs2 rs1 funct3 rd 0x67) =
    if funct3.toNat ≠ 0 then illegal
    else .ok { header (pack funct7 rs2 rs1 funct3 rd 0x67) with
      op := .jalr, writesRd := true, readsRs1 := true
      immediate := (immediateI funct7 rs2).signExtend 32 } := by
  simp only [decode, pack_opcode, pack_funct3, signExtend_immediateI]
  rfl

theorem decode_branch : decode (pack funct7 rs2 rs1 funct3 rd 0x63) =
    (branchOp funct3.toNat).map fun op => { header (pack funct7 rs2 rs1 funct3 rd 0x63) with
      op, readsRs1 := true, readsRs2 := true
      immediate := (immediateB funct7 rd).signExtend 32 <<< 1 } := by
  simp only [decode, pack_opcode, pack_funct3, signExtend_immediateB]
  rfl

theorem decode_load : decode (pack funct7 rs2 rs1 funct3 rd 0x03) =
    (loadOp funct3.toNat).map fun op => { header (pack funct7 rs2 rs1 funct3 rd 0x03) with
      op, readsRs1 := true, writesRd := true
      immediate := (immediateI funct7 rs2).signExtend 32 } := by
  simp only [decode, pack_opcode, pack_funct3, signExtend_immediateI]
  rfl

theorem decode_store : decode (pack funct7 rs2 rs1 funct3 rd 0x23) =
    (storeOp funct3.toNat).map fun op => { header (pack funct7 rs2 rs1 funct3 rd 0x23) with
      op, readsRs1 := true, readsRs2 := true
      immediate := (immediateS funct7 rd).signExtend 32 } := by
  simp only [decode, pack_opcode, pack_funct3, signExtend_immediateS]
  rfl

theorem decode_constant : decode (pack funct7 rs2 rs1 funct3 rd 0x13) =
    (immediateOp funct3.toNat funct7.toNat (rs2.setWidth 32)
      ((immediateI funct7 rs2).signExtend 32)).map fun x =>
        { header (pack funct7 rs2 rs1 funct3 rd 0x13) with
          op := x.1, readsRs1 := true, writesRd := true, immediate := x.2 } := by
  have hamount : (((pack funct7 rs2 rs1 funct3 rd 0x13 >>> 20) &&& 31).setWidth 8).setWidth 32 =
      rs2.setWidth 32 := by
    rw [pack_rs2]
    apply BitVec.eq_of_toNat_eq
    have hlt := rs2.isLt
    simp only [BitVec.toNat_setWidth]
    omega
  simp only [decode, pack_opcode, pack_funct3, pack_funct7, signExtend_immediateI, hamount]
  rfl

theorem decode_register : decode (pack funct7 rs2 rs1 funct3 rd 0x33) =
    (registerOp funct3.toNat funct7.toNat .fence).map fun op =>
      { header (pack funct7 rs2 rs1 funct3 rd 0x33) with
        op, readsRs1 := true, readsRs2 := true, writesRd := true } := by
  simp only [decode, pack_opcode, pack_funct3, pack_funct7]
  rfl

theorem decode_fence : decode (pack funct7 rs2 rs1 funct3 rd 0x0f) =
    if funct3.toNat ≠ 0 then illegal
    else .ok (header (pack funct7 rs2 rs1 funct3 rd 0x0f)) := by
  simp only [decode, pack_opcode, pack_funct3]
  rfl

theorem decode_system : decode (pack funct7 rs2 rs1 funct3 rd 0x73) =
    if pack funct7 rs2 rs1 funct3 rd 0x73 = 0x00000073 then
      .ok { header (pack funct7 rs2 rs1 funct3 rd 0x73) with op := .ecall }
    else if pack funct7 rs2 rs1 funct3 rd 0x73 = 0x00100073 then
      .ok { header (pack funct7 rs2 rs1 funct3 rd 0x73) with op := .ebreak }
    else illegal := by
  simp only [decode, pack_opcode]
  rfl

theorem decode_control : decode (pack funct7 rs2 rs1 funct3 rd 0x0b) =
    if Contract.validControlWord (pack funct7 rs2 rs1 funct3 rd 0x0b) then
      .ok (control (pack funct7 rs2 rs1 funct3 rd 0x0b))
    else illegal := by
  simp only [decode, pack_opcode]
  rfl

end Opcodes

/-! ## Words and instructions -/

section Formats
variable (funct7 : BitVec 7) (rs2 rs1 : BitVec 5) (funct3 : BitVec 3) (rd : BitVec 5)
  (opcode : BitVec 7)

/-- An immediate in two pieces gives both of them back. -/
theorem extract_pieces (high : BitVec 7) (low : BitVec 5) :
    ((place high 5 ||| place low 0 : BitVec 12).signExtend 32).extractLsb' 5 7 = high ∧
      ((place high 5 ||| place low 0 : BitVec 12).signExtend 32).extractLsb' 0 5 = low := by
  constructor
  · apply BitVec.eq_of_getLsbD_eq
    intro i hi
    interval_cases i <;> simp [getLsbD_place, BitVec.getLsbD_signExtend,
      BitVec.getLsbD_of_ge, -BitVec.getLsbD_eq_getElem]
  · apply BitVec.eq_of_getLsbD_eq
    intro i hi
    interval_cases i <;>
      simp [getLsbD_place, BitVec.getLsbD_signExtend, -BitVec.getLsbD_eq_getElem]

theorem formatI_immediateI : formatI ((immediateI funct7 rs2).signExtend 32) rs1 funct3 rd opcode =
    pack funct7 rs2 rs1 funct3 rd opcode := by
  rw [formatI, immediateI, (extract_pieces funct7 rs2).1, (extract_pieces funct7 rs2).2]

theorem formatS_immediateS : formatS ((immediateS funct7 rd).signExtend 32) rs2 rs1 funct3 opcode =
    pack funct7 rs2 rs1 funct3 rd opcode := by
  rw [formatS, immediateS, (extract_pieces funct7 rd).1, (extract_pieces funct7 rd).2]

theorem formatB_immediateB :
    formatB ((immediateB funct7 rd).signExtend 32 <<< 1) rs2 rs1 funct3 opcode =
      pack funct7 rs2 rs1 funct3 rd opcode := by
  have hhigh : (place (((immediateB funct7 rd).signExtend 32 <<< 1).extractLsb' 12 1) 6 |||
      place (((immediateB funct7 rd).signExtend 32 <<< 1).extractLsb' 5 6) 0 : BitVec 7) =
        funct7 := by
    apply BitVec.eq_of_getLsbD_eq
    intro i hi
    interval_cases i <;> simp [immediateB, getLsbD_place, BitVec.getLsbD_signExtend,
      BitVec.getLsbD_of_ge, -BitVec.getLsbD_eq_getElem]
  have hlow : (place (((immediateB funct7 rd).signExtend 32 <<< 1).extractLsb' 1 4) 1 |||
      place (((immediateB funct7 rd).signExtend 32 <<< 1).extractLsb' 11 1) 0 : BitVec 5) =
        rd := by
    apply BitVec.eq_of_getLsbD_eq
    intro i hi
    interval_cases i <;> simp [immediateB, getLsbD_place, BitVec.getLsbD_signExtend,
      BitVec.getLsbD_of_ge, -BitVec.getLsbD_eq_getElem]
  rw [formatB, hhigh, hlow]

theorem formatU_immediateU :
    formatU (place (immediateU funct7 rs2 rs1 funct3) 12 : BitVec 32) rd opcode =
      pack funct7 rs2 rs1 funct3 rd opcode := by
  have h7 :
      (place (immediateU funct7 rs2 rs1 funct3) 12 : BitVec 32).extractLsb' 25 7 = funct7 := by
    apply BitVec.eq_of_getLsbD_eq
    intro i hi
    interval_cases i <;>
      simp [immediateU, getLsbD_place, BitVec.getLsbD_of_ge, -BitVec.getLsbD_eq_getElem]
  have h2 :
      (place (immediateU funct7 rs2 rs1 funct3) 12 : BitVec 32).extractLsb' 20 5 = rs2 := by
    apply BitVec.eq_of_getLsbD_eq
    intro i hi
    interval_cases i <;>
      simp [immediateU, getLsbD_place, BitVec.getLsbD_of_ge, -BitVec.getLsbD_eq_getElem]
  have h1 :
      (place (immediateU funct7 rs2 rs1 funct3) 12 : BitVec 32).extractLsb' 15 5 = rs1 := by
    apply BitVec.eq_of_getLsbD_eq
    intro i hi
    interval_cases i <;>
      simp [immediateU, getLsbD_place, BitVec.getLsbD_of_ge, -BitVec.getLsbD_eq_getElem]
  have h3 :
      (place (immediateU funct7 rs2 rs1 funct3) 12 : BitVec 32).extractLsb' 12 3 = funct3 := by
    apply BitVec.eq_of_getLsbD_eq
    intro i hi
    interval_cases i <;>
      simp [immediateU, getLsbD_place, -BitVec.getLsbD_eq_getElem]
  rw [formatU, h7, h2, h1, h3]

theorem formatJ_immediateJ :
    formatJ ((immediateJ funct7 rs2 rs1 funct3).signExtend 32 <<< 1) rd opcode =
      pack funct7 rs2 rs1 funct3 rd opcode := by
  have h7 : (place (((immediateJ funct7 rs2 rs1 funct3).signExtend 32 <<< 1).extractLsb' 20 1) 6 |||
      place (((immediateJ funct7 rs2 rs1 funct3).signExtend 32 <<< 1).extractLsb' 5 6) 0 : BitVec 7) =
        funct7 := by
    apply BitVec.eq_of_getLsbD_eq
    intro i hi
    interval_cases i <;> simp [immediateJ, getLsbD_place, BitVec.getLsbD_signExtend,
      BitVec.getLsbD_of_ge, -BitVec.getLsbD_eq_getElem]
  have h2 : (place (((immediateJ funct7 rs2 rs1 funct3).signExtend 32 <<< 1).extractLsb' 1 4) 1 |||
      place (((immediateJ funct7 rs2 rs1 funct3).signExtend 32 <<< 1).extractLsb' 11 1) 0 : BitVec 5) =
        rs2 := by
    apply BitVec.eq_of_getLsbD_eq
    intro i hi
    interval_cases i <;> simp [immediateJ, getLsbD_place, BitVec.getLsbD_signExtend,
      BitVec.getLsbD_of_ge, -BitVec.getLsbD_eq_getElem]
  have h1 : ((immediateJ funct7 rs2 rs1 funct3).signExtend 32 <<< 1).extractLsb' 15 5 = rs1 := by
    apply BitVec.eq_of_getLsbD_eq
    intro i hi
    interval_cases i <;> simp [immediateJ, getLsbD_place, BitVec.getLsbD_signExtend,
      BitVec.getLsbD_of_ge, -BitVec.getLsbD_eq_getElem]
  have h3 : ((immediateJ funct7 rs2 rs1 funct3).signExtend 32 <<< 1).extractLsb' 12 3 = funct3 := by
    apply BitVec.eq_of_getLsbD_eq
    intro i hi
    interval_cases i <;> simp [immediateJ, getLsbD_place, BitVec.getLsbD_signExtend,
      BitVec.getLsbD_of_ge, -BitVec.getLsbD_eq_getElem]
  rw [formatJ, h7, h2, h1, h3]

end Formats

/-- The pieces of an immediate make it up again. -/
theorem immediateI_formatI (immediate : BitVec 12) :
    immediateI ((immediate.signExtend 32).extractLsb' 5 7)
      ((immediate.signExtend 32).extractLsb' 0 5) = immediate := by
  apply BitVec.eq_of_getLsbD_eq
  intro i hi
  interval_cases i <;> simp [immediateI, getLsbD_place, BitVec.getLsbD_signExtend,
    BitVec.getLsbD_of_ge, -BitVec.getLsbD_eq_getElem]

theorem immediateS_formatS (immediate : BitVec 12) :
    immediateS ((immediate.signExtend 32).extractLsb' 5 7)
      ((immediate.signExtend 32).extractLsb' 0 5) = immediate := immediateI_formatI immediate

theorem immediateB_formatB (offset : BitVec 12) :
    immediateB
      (place ((offset.signExtend 32 <<< 1).extractLsb' 12 1) 6 |||
        place ((offset.signExtend 32 <<< 1).extractLsb' 5 6) 0)
      (place ((offset.signExtend 32 <<< 1).extractLsb' 1 4) 1 |||
        place ((offset.signExtend 32 <<< 1).extractLsb' 11 1) 0) = offset := by
  apply BitVec.eq_of_getLsbD_eq
  intro i hi
  interval_cases i <;> simp [immediateB, getLsbD_place, BitVec.getLsbD_signExtend,
    BitVec.getLsbD_of_ge, -BitVec.getLsbD_eq_getElem]

theorem immediateU_formatU (immediate : BitVec 20) :
    immediateU ((place immediate 12 : BitVec 32).extractLsb' 25 7)
      ((place immediate 12 : BitVec 32).extractLsb' 20 5)
      ((place immediate 12 : BitVec 32).extractLsb' 15 5)
      ((place immediate 12 : BitVec 32).extractLsb' 12 3) = immediate := by
  apply BitVec.eq_of_getLsbD_eq
  intro i hi
  interval_cases i <;> simp [immediateU, getLsbD_place, BitVec.getLsbD_of_ge, -BitVec.getLsbD_eq_getElem]

theorem immediateJ_formatJ (offset : BitVec 20) :
    immediateJ
      (place ((offset.signExtend 32 <<< 1).extractLsb' 20 1) 6 |||
        place ((offset.signExtend 32 <<< 1).extractLsb' 5 6) 0)
      (place ((offset.signExtend 32 <<< 1).extractLsb' 1 4) 1 |||
        place ((offset.signExtend 32 <<< 1).extractLsb' 11 1) 0)
      ((offset.signExtend 32 <<< 1).extractLsb' 15 5)
      ((offset.signExtend 32 <<< 1).extractLsb' 12 3) = offset := by
  apply BitVec.eq_of_getLsbD_eq
  intro i hi
  interval_cases i <;> simp [immediateJ, getLsbD_place, BitVec.getLsbD_signExtend,
    BitVec.getLsbD_of_ge, -BitVec.getLsbD_eq_getElem]
/-! ## The decoder -/

theorem branchOp_funct3 (kind : Branch) : branchOp kind.funct3.toNat = .ok kind.op := by
  cases kind <;> rfl

theorem loadOp_funct3 (kind : Load) : loadOp kind.funct3.toNat = .ok kind.op := by
  cases kind <;> rfl

theorem storeOp_funct3 (kind : Store) : storeOp kind.funct3.toNat = .ok kind.op := by
  cases kind <;> rfl

theorem immediateOp_constant (kind : Constant) (f7 : ℕ) (rs2 immediate : BitVec 32) :
    immediateOp kind.funct3.toNat f7 rs2 immediate = .ok (kind.op, immediate) := by
  cases kind <;> rfl

theorem immediateOp_shift (kind : Shift) (rs2 immediate : BitVec 32) :
    immediateOp kind.funct3.toNat kind.funct7.toNat rs2 immediate = .ok (kind.op, rs2) := by
  cases kind <;> rfl

theorem registerOp_arithmetic (kind : Arithmetic) (unset : Op) :
    registerOp kind.funct3.toNat kind.funct7.toNat unset = .ok kind.op := by
  cases kind <;> rfl

/-- The word of an instruction decodes to the instruction. -/
theorem decode_encode (i : Instruction) : decode i.encode = .ok i.decoded := by
  cases i with
  | lui rd immediate =>
    rw [Instruction.decoded, Instruction.encode, formatU, decode_lui]
    simp only [Instruction.immediate, immediateU_formatU]
    rfl
  | auipc rd immediate =>
    rw [Instruction.decoded, Instruction.encode, formatU, decode_auipc]
    simp only [Instruction.immediate, immediateU_formatU]
    rfl
  | jal rd offset =>
    rw [Instruction.decoded, Instruction.encode, formatJ, decode_jal]
    simp only [Instruction.immediate, immediateJ_formatJ]
    rfl
  | jalr rd rs1 immediate =>
    rw [Instruction.decoded, Instruction.encode, formatI, decode_jalr]
    simp only [Instruction.immediate, immediateI_formatI]
    rfl
  | branch kind rs1 rs2 offset =>
    rw [Instruction.decoded, Instruction.encode, formatB, decode_branch, branchOp_funct3]
    simp only [Instruction.immediate, immediateB_formatB]
    rfl
  | load kind rd rs1 immediate =>
    rw [Instruction.decoded, Instruction.encode, formatI, decode_load, loadOp_funct3]
    simp only [Instruction.immediate, immediateI_formatI]
    rfl
  | store kind rs1 rs2 immediate =>
    rw [Instruction.decoded, Instruction.encode, formatS, decode_store, storeOp_funct3]
    simp only [Instruction.immediate, immediateS_formatS]
    rfl
  | constant kind rd rs1 immediate =>
    rw [Instruction.decoded, Instruction.encode, formatI, decode_constant, immediateOp_constant]
    simp only [Instruction.immediate, immediateI_formatI]
    rfl
  | shift kind rd rs1 shamt =>
    rw [Instruction.decoded, Instruction.encode, decode_constant, immediateOp_shift]
    rfl
  | arithmetic kind rd rs1 rs2 =>
    rw [Instruction.decoded, Instruction.encode, decode_register, registerOp_arithmetic]
    rfl
  | fence fm pred succ rs1 rd =>
    rw [Instruction.decoded, Instruction.encode, decode_fence]
    rfl
  | ecall => rfl
  | ebreak => rfl

theorem branchOp_eq_ok {n : ℕ} {op : Op} (h : branchOp n = .ok op) :
    ∃ kind : Branch, kind.funct3.toNat = n ∧ kind.op = op := by
  unfold branchOp at h
  split at h
  · exact ⟨.beq, rfl, Except.ok.inj h⟩
  · exact ⟨.bne, rfl, Except.ok.inj h⟩
  · exact ⟨.blt, rfl, Except.ok.inj h⟩
  · exact ⟨.bge, rfl, Except.ok.inj h⟩
  · exact ⟨.bltu, rfl, Except.ok.inj h⟩
  · exact ⟨.bgeu, rfl, Except.ok.inj h⟩
  · cases h

theorem loadOp_eq_ok {n : ℕ} {op : Op} (h : loadOp n = .ok op) :
    ∃ kind : Load, kind.funct3.toNat = n ∧ kind.op = op := by
  unfold loadOp at h
  split at h
  · exact ⟨.lb, rfl, Except.ok.inj h⟩
  · exact ⟨.lh, rfl, Except.ok.inj h⟩
  · exact ⟨.lw, rfl, Except.ok.inj h⟩
  · exact ⟨.lbu, rfl, Except.ok.inj h⟩
  · exact ⟨.lhu, rfl, Except.ok.inj h⟩
  · cases h

theorem storeOp_eq_ok {n : ℕ} {op : Op} (h : storeOp n = .ok op) :
    ∃ kind : Store, kind.funct3.toNat = n ∧ kind.op = op := by
  unfold storeOp at h
  split at h
  · exact ⟨.sb, rfl, Except.ok.inj h⟩
  · exact ⟨.sh, rfl, Except.ok.inj h⟩
  · exact ⟨.sw, rfl, Except.ok.inj h⟩
  · cases h

theorem immediateOp_eq_ok {f3 f7 : ℕ} {rs2 immediate : BitVec 32} {x : Op × BitVec 32}
    (h : immediateOp f3 f7 rs2 immediate = .ok x) :
    (∃ kind : Constant, kind.funct3.toNat = f3 ∧ (kind.op, immediate) = x) ∨
      ∃ kind : Shift, kind.funct3.toNat = f3 ∧ kind.funct7.toNat = f7 ∧ (kind.op, rs2) = x := by
  unfold immediateOp at h
  split at h
  · exact .inl ⟨.addi, rfl, Except.ok.inj h⟩
  · exact .inl ⟨.slti, rfl, Except.ok.inj h⟩
  · exact .inl ⟨.sltiu, rfl, Except.ok.inj h⟩
  · exact .inl ⟨.xori, rfl, Except.ok.inj h⟩
  · exact .inl ⟨.ori, rfl, Except.ok.inj h⟩
  · exact .inl ⟨.andi, rfl, Except.ok.inj h⟩
  · by_cases hzero : f7 = 0
    · rw [if_neg (not_not.2 hzero)] at h
      exact .inr ⟨.slli, rfl, hzero.symm, Except.ok.inj h⟩
    · rw [if_pos hzero] at h
      cases h
  · by_cases hzero : f7 = 0
    · subst hzero
      exact .inr ⟨.srli, rfl, rfl, Except.ok.inj h⟩
    · by_cases hhigh : f7 = 32
      · subst hhigh
        exact .inr ⟨.srai, rfl, rfl, Except.ok.inj h⟩
      · rw [if_pos ⟨hzero, hhigh⟩] at h
        cases h
  · cases h

theorem registerOp_eq_ok {f3 f7 : ℕ} {unset op : Op} (hf3 : f3 < 8)
    (h : registerOp f3 f7 unset = .ok op) :
    ∃ kind : Arithmetic, kind.funct3.toNat = f3 ∧ kind.funct7.toNat = f7 ∧ kind.op = op := by
  unfold registerOp at h
  by_cases hzero : f7 = 0
  · subst hzero
    rw [if_neg (by simp)] at h
    interval_cases f3
    · exact ⟨.add, rfl, rfl, Except.ok.inj h⟩
    · exact ⟨.sll, rfl, rfl, Except.ok.inj h⟩
    · exact ⟨.slt, rfl, rfl, Except.ok.inj h⟩
    · exact ⟨.sltu, rfl, rfl, Except.ok.inj h⟩
    · exact ⟨.xor, rfl, rfl, Except.ok.inj h⟩
    · exact ⟨.srl, rfl, rfl, Except.ok.inj h⟩
    · exact ⟨.or, rfl, rfl, Except.ok.inj h⟩
    · exact ⟨.and, rfl, rfl, Except.ok.inj h⟩
  · by_cases halternative : (f3 = 0 ∨ f3 = 5) ∧ f7 = 32
    · obtain ⟨rfl | rfl, rfl⟩ := halternative
      · exact ⟨.sub, rfl, rfl, Except.ok.inj h⟩
      · exact ⟨.sra, rfl, rfl, Except.ok.inj h⟩
    · rw [if_pos ⟨hzero, halternative⟩] at h
      cases h

/-- The predecessor set of a fence. -/
def predecessors (funct7 : BitVec 7) (rs2 : BitVec 5) : BitVec 4 :=
  place (funct7.extractLsb' 0 3) 1 ||| place (rs2.extractLsb' 4 1) 0

theorem fence_fields (funct7 : BitVec 7) (rs2 rs1 rd : BitVec 5) :
    (Instruction.fence (funct7.extractLsb' 3 4) (predecessors funct7 rs2) (rs2.extractLsb' 0 4)
      rs1 rd).encode = pack funct7 rs2 rs1 0 rd 0x0f := by
  have h7 : (place (funct7.extractLsb' 3 4) 3 |||
      place ((predecessors funct7 rs2).extractLsb' 1 3) 0 : BitVec 7) = funct7 := by
    apply BitVec.eq_of_getLsbD_eq
    intro i hi
    interval_cases i <;> simp [predecessors, getLsbD_place, -BitVec.getLsbD_eq_getElem]
  have h2 : (place ((predecessors funct7 rs2).extractLsb' 0 1) 4 |||
      place (rs2.extractLsb' 0 4) 0 : BitVec 5) = rs2 := by
    apply BitVec.eq_of_getLsbD_eq
    intro i hi
    interval_cases i <;> simp [predecessors, getLsbD_place, -BitVec.getLsbD_eq_getElem]
  rw [Instruction.encode, h7, h2]

/-- A decoded word is the word of an instruction or a valid control word. -/
theorem decode_eq_ok {w : BitVec 32} {d : Decoded} (h : decode w = .ok d) :
    (∃ i : Instruction, i.encode = w ∧ i.decoded = d) ∨
      Contract.validControlWord w ∧ control w = d := by
  obtain ⟨funct7, rs2, rs1, funct3, rd, opcode, rfl⟩ : ∃ funct7 rs2 rs1 funct3 rd opcode,
      pack funct7 rs2 rs1 funct3 rd opcode = w := ⟨_, _, _, _, _, _, pack_fields w⟩
  -- an instruction whose word this is decodes to the record that the decoder returned
  have hfound : (∃ i : Instruction, i.encode = pack funct7 rs2 rs1 funct3 rd opcode) →
      (∃ i : Instruction, i.encode = pack funct7 rs2 rs1 funct3 rd opcode ∧ i.decoded = d) := by
    intro ⟨i, hi⟩
    refine ⟨i, hi, ?_⟩
    rw [← hi, decode_encode] at h
    exact Except.ok.inj h
  have hopcode (code : BitVec 7) (hcode : (opcode.setWidth 32).toNat = code.toNat) :
      opcode = code := by
    apply BitVec.eq_of_toNat_eq
    rw [← hcode, BitVec.toNat_setWidth_of_le (by decide)]
  have hcases := h
  simp only [decode, pack_opcode] at hcases
  split at hcases
  · rename_i hcode
    obtain rfl := hopcode 0x37 hcode
    exact .inl (hfound ⟨.lui rd _, formatU_immediateU ..⟩)
  · rename_i hcode
    obtain rfl := hopcode 0x17 hcode
    exact .inl (hfound ⟨.auipc rd _, formatU_immediateU ..⟩)
  · rename_i hcode
    obtain rfl := hopcode 0x6f hcode
    exact .inl (hfound ⟨.jal rd _, formatJ_immediateJ ..⟩)
  · rename_i hcode
    obtain rfl := hopcode 0x67 hcode
    rw [decode_jalr] at h
    by_cases hf3 : funct3.toNat = 0
    · obtain rfl : funct3 = 0 := BitVec.eq_of_toNat_eq hf3
      exact .inl (hfound ⟨.jalr rd rs1 _, formatI_immediateI ..⟩)
    · rw [if_pos hf3] at h
      cases h
  · rename_i hcode
    obtain rfl := hopcode 0x63 hcode
    rw [decode_branch] at h
    cases hop : branchOp funct3.toNat with
    | error f => rw [hop] at h; cases h
    | ok op =>
      obtain ⟨kind, hkind, -⟩ := branchOp_eq_ok hop
      obtain rfl := BitVec.eq_of_toNat_eq hkind
      exact .inl (hfound ⟨.branch kind rs1 rs2 _, formatB_immediateB ..⟩)
  · rename_i hcode
    obtain rfl := hopcode 0x03 hcode
    rw [decode_load] at h
    cases hop : loadOp funct3.toNat with
    | error f => rw [hop] at h; cases h
    | ok op =>
      obtain ⟨kind, hkind, -⟩ := loadOp_eq_ok hop
      obtain rfl := BitVec.eq_of_toNat_eq hkind
      exact .inl (hfound ⟨.load kind rd rs1 _, formatI_immediateI ..⟩)
  · rename_i hcode
    obtain rfl := hopcode 0x23 hcode
    rw [decode_store] at h
    cases hop : storeOp funct3.toNat with
    | error f => rw [hop] at h; cases h
    | ok op =>
      obtain ⟨kind, hkind, -⟩ := storeOp_eq_ok hop
      obtain rfl := BitVec.eq_of_toNat_eq hkind
      exact .inl (hfound ⟨.store kind rs1 rs2 _, formatS_immediateS ..⟩)
  · rename_i hcode
    obtain rfl := hopcode 0x13 hcode
    rw [decode_constant] at h
    cases hop : immediateOp funct3.toNat funct7.toNat (rs2.setWidth 32)
        ((immediateI funct7 rs2).signExtend 32) with
    | error f => rw [hop] at h; cases h
    | ok x =>
      rcases immediateOp_eq_ok hop with ⟨kind, hkind, -⟩ | ⟨kind, hkind, hseven, -⟩
      · obtain rfl := BitVec.eq_of_toNat_eq hkind
        exact .inl (hfound ⟨.constant kind rd rs1 _, formatI_immediateI ..⟩)
      · obtain rfl := BitVec.eq_of_toNat_eq hkind
        obtain rfl := BitVec.eq_of_toNat_eq hseven
        exact .inl (hfound ⟨.shift kind rd rs1 rs2, rfl⟩)
  · rename_i hcode
    obtain rfl := hopcode 0x33 hcode
    rw [decode_register] at h
    cases hop : registerOp funct3.toNat funct7.toNat .fence with
    | error f => rw [hop] at h; cases h
    | ok op =>
      obtain ⟨kind, hkind, hseven, -⟩ := registerOp_eq_ok funct3.isLt hop
      obtain rfl := BitVec.eq_of_toNat_eq hkind
      obtain rfl := BitVec.eq_of_toNat_eq hseven
      exact .inl (hfound ⟨.arithmetic kind rd rs1 rs2, rfl⟩)
  · rename_i hcode
    obtain rfl := hopcode 0x0f hcode
    rw [decode_fence] at h
    by_cases hf3 : funct3.toNat = 0
    · obtain rfl : funct3 = 0 := BitVec.eq_of_toNat_eq hf3
      exact .inl (hfound ⟨.fence (funct7.extractLsb' 3 4) (predecessors funct7 rs2)
        (rs2.extractLsb' 0 4) rs1 rd, fence_fields ..⟩)
    · rw [if_pos hf3] at h
      cases h
  · rename_i hcode
    obtain rfl := hopcode 0x73 hcode
    rw [decode_system] at h
    split at h
    · rename_i hword
      exact .inl (hfound ⟨.ecall, hword.symm⟩)
    · split at h
      · rename_i hword
        exact .inl (hfound ⟨.ebreak, hword.symm⟩)
      · cases h
  · rename_i hcode
    obtain rfl := hopcode 0x0b hcode
    rw [decode_control] at h
    split at h
    · rename_i hvalid
      exact .inr ⟨hvalid, Except.ok.inj h⟩
    · cases h
  · cases hcases

/-! ## Writing a word again -/

section Header
variable (funct7 : BitVec 7) (rs2 rs1 : BitVec 5) (funct3 : BitVec 3) (rd : BitVec 5)
  (opcode : BitVec 7)

theorem setWidth_register (x : BitVec 5) : ((x.setWidth 32).setWidth 8).setWidth 5 = x := by
  rw [BitVec.setWidth_setWidth_of_le _ (by decide), BitVec.setWidth_setWidth_of_le _ (by decide),
    BitVec.setWidth_eq]

theorem header_word (w : BitVec 32) : (header w).word = w := rfl

theorem header_rd : (header (pack funct7 rs2 rs1 funct3 rd opcode)).rd.setWidth 5 = rd := by
  rw [header, pack_rd, setWidth_register]

theorem header_rs1 : (header (pack funct7 rs2 rs1 funct3 rd opcode)).rs1.setWidth 5 = rs1 := by
  rw [header, pack_rs1, setWidth_register]

theorem header_rs2 : (header (pack funct7 rs2 rs1 funct3 rd opcode)).rs2.setWidth 5 = rs2 := by
  rw [header, pack_rs2, setWidth_register]

end Header

/-- Apart from a fence, the record of an instruction gives its word back. -/
theorem reencode_decoded (i : Instruction) (h : i.op ≠ .fence) :
    i.decoded.reencode = i.encode := by
  cases i with
  | lui rd immediate =>
    simp only [Decoded.reencode, Instruction.decoded, Instruction.op, Instruction.encode,
      formatU, header_rd]
  | auipc rd immediate =>
    simp only [Decoded.reencode, Instruction.decoded, Instruction.op, Instruction.encode,
      formatU, header_rd]
  | jal rd offset =>
    simp only [Decoded.reencode, Instruction.decoded, Instruction.op, Instruction.encode,
      formatJ, header_rd]
  | jalr rd rs1 immediate =>
    simp only [Decoded.reencode, Instruction.decoded, Instruction.op, Instruction.encode,
      formatI, header_rd, header_rs1]
  | branch kind rs1 rs2 offset =>
    cases kind <;>
      simp only [Decoded.reencode, Instruction.decoded, Instruction.op, Instruction.encode,
        Branch.op, Branch.funct3, formatB, header_rs1, header_rs2]
  | load kind rd rs1 immediate =>
    cases kind <;>
      simp only [Decoded.reencode, Instruction.decoded, Instruction.op, Instruction.encode,
        Load.op, Load.funct3, formatI, header_rd, header_rs1]
  | store kind rs1 rs2 immediate =>
    cases kind <;>
      simp only [Decoded.reencode, Instruction.decoded, Instruction.op, Instruction.encode,
        Store.op, Store.funct3, formatS, header_rs1, header_rs2]
  | constant kind rd rs1 immediate =>
    cases kind <;>
      simp only [Decoded.reencode, Instruction.decoded, Instruction.op, Instruction.encode,
        Constant.op, Constant.funct3, formatI, header_rd, header_rs1]
  | shift kind rd rs1 shamt =>
    have hshamt : (shamt.setWidth 32).setWidth 5 = shamt := by
      rw [BitVec.setWidth_setWidth_of_le _ (by decide), BitVec.setWidth_eq]
    cases kind <;>
      simp only [Decoded.reencode, Instruction.decoded, Instruction.op, Instruction.encode,
        Shift.op, Shift.funct3, Shift.funct7, Instruction.immediate, hshamt, header_rd,
        header_rs1]
  | arithmetic kind rd rs1 rs2 =>
    cases kind <;>
      simp only [Decoded.reencode, Instruction.decoded, Instruction.op, Instruction.encode,
        Arithmetic.op, Arithmetic.funct3, Arithmetic.funct7, header_rd, header_rs1, header_rs2]
  | fence fm pred succ rs1 rd => exact absurd rfl h
  | ecall => rfl
  | ebreak => rfl

theorem validControlWord_opcode {w : BitVec 32} (h : Contract.validControlWord w) :
    w &&& 127 = Contract.controlOpcode := by
  by_contra hne
  rw [Contract.validControlWord, if_pos hne] at h
  cases h

theorem reencode_control {w : BitVec 32} (h : Contract.validControlWord w) :
    (control w).reencode = w := by
  have hopcode := validControlWord_opcode h
  obtain ⟨funct7, rs2, rs1, funct3, rd, opcode, rfl⟩ : ∃ funct7 rs2 rs1 funct3 rd opcode,
      pack funct7 rs2 rs1 funct3 rd opcode = w := ⟨_, _, _, _, _, _, pack_fields w⟩
  rw [pack_opcode] at hopcode
  obtain rfl : opcode = 0x0b := by
    have hnat := congrArg BitVec.toNat hopcode
    rw [BitVec.toNat_setWidth_of_le (by decide)] at hnat
    exact BitVec.eq_of_toNat_eq hnat
  have hmode : ((pack funct7 rs2 rs1 funct3 rd 0x0b) >>> 25).setWidth 7 = funct7 := by
    rw [pack_funct7, BitVec.setWidth_setWidth_of_le _ (by decide), BitVec.setWidth_eq]
  have hfunction : ((pack funct7 rs2 rs1 funct3 rd 0x0b >>> 12) &&& 7).setWidth 3 = funct3 := by
    rw [pack_funct3, BitVec.setWidth_setWidth_of_le _ (by decide), BitVec.setWidth_eq]
  simp only [Decoded.reencode, control, header_rd, header_rs1, header_rs2, header_word, hmode,
    hfunction]

end Rv32
end Qsbit

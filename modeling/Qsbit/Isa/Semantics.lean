import Qsbit.Isa.Encoding

/-!
# Instruction semantics

What the base integer instructions do, in integer arithmetic modulo the word size, and
that the evaluation of a decoded word does the same: the next program counter, the value
for the destination register, the memory access, and the fault of a transfer to a target
that is not aligned.

## Main definitions

* `Rv32.Execution` — what an instruction does.
* `Rv32.Instruction.execute` — the instruction set's semantics.

## Main results

* `Rv32.evaluate_decoded` — the evaluation of an instruction's record is its semantics.
* `Rv32.decoder_exact` — acceptance, writing again and evaluation, for every word.
-/
namespace Qsbit
namespace Rv32

/-! ## The instruction set's semantics -/

/-- An integer modulo the word size. -/
def word (x : ℤ) : BitVec 32 := BitVec.ofInt 32 x

/-- What the destination register receives. -/
inductive Result
  | none
  | value (value : BitVec 32)
  | loaded
  deriving DecidableEq, Repr

inductive Access
  | none
  | load (address : BitVec 32) (width : ℕ) (signed : Bool)
  | store (address : BitVec 32) (width : ℕ) (value : BitVec 32)
  deriving DecidableEq, Repr

/-- What an instruction does: the next program counter and whether it was jumped to, the
destination register and memory. -/
structure Execution where
  nextPc : BitVec 32
  taken : Bool
  result : Result
  access : Access
  deriving DecidableEq, Repr

def Branch.taken (a b : BitVec 32) : Branch → Bool
  | .beq => a.toNat = b.toNat
  | .bne => a.toNat ≠ b.toNat
  | .blt => a.toInt < b.toInt
  | .bge => b.toInt ≤ a.toInt
  | .bltu => a.toNat < b.toNat
  | .bgeu => b.toNat ≤ a.toNat

def Load.width : Load → ℕ
  | .lb | .lbu => 1
  | .lh | .lhu => 2
  | .lw => 4

def Load.signed : Load → Bool
  | .lb | .lh => true
  | .lw | .lbu | .lhu => false

def Store.width : Store → ℕ
  | .sb => 1
  | .sh => 2
  | .sw => 4

/-- Shifts use the lowest five bits of the second operand; a right shift divides. -/
def Arithmetic.value (a b : BitVec 32) : Arithmetic → BitVec 32
  | .add => word (a.toInt + b.toInt)
  | .sub => word (a.toInt - b.toInt)
  | .sll => word (a.toNat * 2 ^ (b.toNat % 32))
  | .slt => if a.toInt < b.toInt then 1 else 0
  | .sltu => if a.toNat < b.toNat then 1 else 0
  | .xor => a ^^^ b
  | .srl => word (a.toNat / 2 ^ (b.toNat % 32))
  | .sra => word (a.toInt / 2 ^ (b.toNat % 32))
  | .or => a ||| b
  | .and => a &&& b

/-- The operation on two registers that a constant is an operand of. -/
def Constant.arithmetic : Constant → Arithmetic
  | .addi => .add | .slti => .slt | .sltiu => .sltu | .xori => .xor | .ori => .or | .andi => .and

def Shift.arithmetic : Shift → Arithmetic
  | .slli => .sll | .srli => .srl | .srai => .sra

/-- Where the instruction jumps to, if it does. A jump to a register clears the lowest bit. -/
def Instruction.target (pc a b : BitVec 32) : Instruction → Option (BitVec 32)
  | .jal _ offset => some (word (pc.toNat + 2 * offset.toInt))
  | .jalr _ _ immediate =>
    some (word (2 * ((word (a.toInt + immediate.toInt)).toNat / 2 : ℕ)))
  | .branch kind _ _ offset =>
    if kind.taken a b then some (word (pc.toNat + 2 * offset.toInt)) else none
  | _ => none

def Instruction.result (pc a b : BitVec 32) : Instruction → Result
  | .lui _ immediate => .value (word (immediate.toNat * 2 ^ 12))
  | .auipc _ immediate => .value (word (pc.toNat + immediate.toNat * 2 ^ 12))
  | .jal .. | .jalr .. => .value (word (pc.toNat + 4))
  | .load .. => .loaded
  | .constant kind _ _ immediate => .value (kind.arithmetic.value a (word immediate.toInt))
  | .shift kind _ _ shamt => .value (kind.arithmetic.value a (word shamt.toNat))
  | .arithmetic kind .. => .value (kind.value a b)
  | _ => .none

def Instruction.access (a b : BitVec 32) : Instruction → Access
  | .load kind _ _ immediate => .load (word (a.toInt + immediate.toInt)) kind.width kind.signed
  | .store kind _ _ immediate => .store (word (a.toInt + immediate.toInt)) kind.width b
  | _ => .none

/-- The semantics of an instruction at `pc` with the operands `a` and `b`, as the code of
its fault or what it does. -/
def Instruction.execute (pc a b : BitVec 32) (i : Instruction) : Except ErrorCode Execution :=
  match i with
  | .ecall => .error .environmentCall
  | .ebreak => .error .breakpoint
  | _ =>
    match i.target pc a b with
    | some target =>
      if target.toNat % 4 = 0 then .ok ⟨target, true, i.result pc a b, i.access a b⟩
      else .error .instructionMisaligned
    | none => .ok ⟨word (pc.toNat + 4), false, i.result pc a b, i.access a b⟩

/-! ## The evaluator -/

/-- What an effect stands for. -/
def Effect.execution (e : Effect) : Execution :=
  { nextPc := e.nextPc
    taken := e.branchTaken
    result :=
      if e.writesRd then if e.memory = .load then .loaded else .value e.value else .none
    access :=
      match e.memory with
      | .none => .none
      | .load => .load e.address e.width.toNat e.signExtendLoad
      | .store => .store e.address e.width.toNat e.storeValue }

/-- An evaluation as the code of its fault or what the instruction does. -/
def outcome (x : Except Fault Effect) : Except ErrorCode Execution :=
  match x with
  | .ok e => .ok e.execution
  | .error f => .error f.code

/-! ## Words as integers -/

theorem word_add (x y : ℤ) : word (x + y) = word x + word y := BitVec.ofInt_add x y

theorem word_toInt (x : BitVec 32) : word x.toInt = x := BitVec.ofInt_toInt

theorem word_toNat (x : BitVec 32) : word x.toNat = x := by
  rw [word, BitVec.ofInt_natCast, BitVec.ofNat_toNat, BitVec.setWidth_eq]

theorem word_signExtend {n : ℕ} (x : BitVec n) : word x.toInt = x.signExtend 32 := rfl

theorem word_place (x : BitVec 20) : word (x.toNat * 2 ^ 12) = place x 12 := by
  rw [word, BitVec.ofInt_mul, place, BitVec.shiftLeft_eq_mul_twoPow, BitVec.ofInt_natCast,
    BitVec.ofNat_toNat]
  rfl

theorem word_four (pc : BitVec 32) : word (pc.toNat + 4) = pc + 4 := by
  rw [word_add, word_toNat]
  rfl

/-- The target of a jump or a branch. -/
theorem word_jump {n : ℕ} (pc : BitVec 32) (offset : BitVec n) :
    word (pc.toNat + 2 * offset.toInt) = pc + offset.signExtend 32 <<< 1 := by
  rw [word_add, word_toNat, word, BitVec.ofInt_mul, BitVec.shiftLeft_eq_mul_twoPow,
    BitVec.mul_comm]
  rfl

/-- The address that a register and an immediate make. -/
theorem word_address (a : BitVec 32) (immediate : BitVec 12) :
    word (a.toInt + immediate.toInt) = a + immediate.signExtend 32 := by
  rw [word_add, word_toInt, word_signExtend]

theorem word_shamt (x : BitVec 5) : word x.toNat = x.setWidth 32 := by
  rw [word, BitVec.ofInt_natCast, BitVec.ofNat_toNat]

theorem toNat_amount (x : BitVec 32) : (x &&& 31).toNat = x.toNat % 32 := by
  rw [BitVec.toNat_and]
  exact Nat.and_two_pow_sub_one_eq_mod _ 5

theorem aligned_iff (x : BitVec 32) : x &&& 3 = 0 ↔ x.toNat % 4 = 0 := by
  rw [← BitVec.toNat_inj, BitVec.toNat_and]
  exact Eq.congr (Nat.and_two_pow_sub_one_eq_mod _ 2) rfl

/-- Clearing the lowest bit rounds down to an even address. -/
theorem clear_lowest (x : BitVec 32) : x &&& ~~~1#32 = word (2 * (x.toNat / 2 : ℕ)) := by
  have hone : x &&& ~~~1#32 = (x >>> 1) <<< 1 := by
    apply BitVec.eq_of_getLsbD_eq
    intro i hi
    by_cases h : i = 0
    · subst h
      simp
    · have hback : 1 + (i - 1) = i := by omega
      have hkeep : (~~~1#32).getLsbD i = true := by
        rw [BitVec.getLsbD_not, BitVec.getLsbD_one]
        simp [hi, h]
      rw [BitVec.getLsbD_and, hkeep]
      simp [hi, h, hback, -BitVec.getLsbD_eq_getElem]
  rw [hone, BitVec.shiftLeft_eq_mul_twoPow, word, BitVec.ofInt_mul, BitVec.mul_comm,
    BitVec.ofInt_natCast]
  congr 1
  apply BitVec.eq_of_toNat_eq
  have hlt := x.isLt
  simp only [BitVec.toNat_ushiftRight, Nat.shiftRight_eq_div_pow, BitVec.toNat_ofNat]
  omega

theorem shiftLeft_amount (a b : BitVec 32) :
    a <<< (b &&& 31) = word (a.toNat * 2 ^ (b.toNat % 32)) := by
  rw [BitVec.shiftLeft_eq', toNat_amount]
  apply BitVec.eq_of_toNat_eq
  have hcast : ((a.toNat : ℤ) * 2 ^ (b.toNat % 32)) = ((a.toNat * 2 ^ (b.toNat % 32) : ℕ) : ℤ) := by
    push_cast
    rfl
  rw [word, hcast, BitVec.ofInt_natCast, BitVec.toNat_shiftLeft, BitVec.toNat_ofNat,
    Nat.shiftLeft_eq]

theorem ushiftRight_amount (a b : BitVec 32) :
    a >>> (b &&& 31) = word (a.toNat / 2 ^ (b.toNat % 32)) := by
  rw [BitVec.ushiftRight_eq', toNat_amount]
  apply BitVec.eq_of_toNat_eq
  have hcast : ((a.toNat : ℤ) / 2 ^ (b.toNat % 32)) = ((a.toNat / 2 ^ (b.toNat % 32) : ℕ) : ℤ) := by
    push_cast
    rfl
  have hlt : a.toNat / 2 ^ (b.toNat % 32) < 2 ^ 32 :=
    lt_of_le_of_lt (Nat.div_le_self _ _) a.isLt
  rw [word, hcast, BitVec.ofInt_natCast, BitVec.toNat_ushiftRight, BitVec.toNat_ofNat,
    Nat.shiftRight_eq_div_pow, Nat.mod_eq_of_lt hlt]

theorem sar_amount (a b : BitVec 32) : sar a b = word (a.toInt / 2 ^ (b.toNat % 32)) := by
  have hsame : (a.sshiftRight (b.toNat % 32)).toInt = a.toInt / 2 ^ (b.toNat % 32) := by
    rw [BitVec.toInt_sshiftRight, Int.shiftRight_eq_div_pow]
    push_cast
    rfl
  rw [sar, toNat_amount, ← hsame, word_toInt]

/-- Subtraction is that of the integers. -/
theorem word_sub (a b : BitVec 32) : word (a.toInt - b.toInt) = a - b := by
  have hsum : word (a.toInt - b.toInt) + b = a := by
    conv_lhs => rw [← word_toInt b, ← word_add]
    rw [word_toInt b, Int.sub_add_cancel, word_toInt]
  exact BitVec.eq_sub_iff_add_eq.2 hsum

/-- Evaluation ends with the check of the next program counter. -/
def finish (e : Effect) : Except ErrorCode Execution :=
  if e.nextPc.toNat % 4 = 0 then .ok e.execution else .error .instructionMisaligned

/-- At an aligned program counter only the next one is checked. -/
theorem outcome_evaluate {d : Decoded} {pc a b : BitVec 32} {e : Effect} (h : pc.toNat % 4 = 0)
    (heffect : effect d pc a b = .ok e) : outcome (evaluate d pc a b) = finish e := by
  have hpc : require (pc &&& 3 = 0) .instructionMisaligned "unaligned instruction PC" = .ok () :=
    require_eq_ok_iff.2 ((aligned_iff pc).2 h)
  rw [evaluate, hpc, heffect, finish]
  simp only [bind, Except.bind, require]
  by_cases hnext : e.nextPc.toNat % 4 = 0
  · rw [if_pos hnext, if_pos ((aligned_iff _).2 hnext)]
    rfl
  · rw [if_neg hnext, if_neg (mt (aligned_iff _).1 hnext)]
    rfl

/-- An operation that goes on to the next word of memory meets no fault there. -/
theorem finish_next {pc : BitVec 32} {e : Effect} (h : pc.toNat % 4 = 0)
    (hnext : e.nextPc = pc + 4) : finish e = .ok e.execution := by
  rw [finish, hnext, BitVec.toNat_add, if_pos]
  change (pc.toNat + 4) % 2 ^ 32 % 4 = 0
  omega

theorem effect_fault {d : Decoded} {pc a b : BitVec 32} {f : Fault} (h : pc.toNat % 4 = 0)
    (heffect : effect d pc a b = .error f) : outcome (evaluate d pc a b) = .error f.code := by
  have hpc : require (pc &&& 3 = 0) .instructionMisaligned "unaligned instruction PC" = .ok () :=
    require_eq_ok_iff.2 ((aligned_iff pc).2 h)
  rw [evaluate, hpc, heffect]
  rfl

theorem value_arithmetic (kind : Arithmetic) (a b : BitVec 32) : kind.value a b =
    match kind with
    | .add => a + b
    | .sub => a - b
    | .sll => a <<< (b &&& 31)
    | .slt => if decide (a.toInt < b.toInt) then 1 else 0
    | .sltu => if decide (a.toNat < b.toNat) then 1 else 0
    | .xor => a ^^^ b
    | .srl => a >>> (b &&& 31)
    | .sra => sar a b
    | .or => a ||| b
    | .and => a &&& b := by
  cases kind with
  | add => simp only [Arithmetic.value, word_add, word_toInt]
  | sub => simp only [Arithmetic.value, word_sub]
  | sll => simp only [Arithmetic.value, shiftLeft_amount]
  | srl => simp only [Arithmetic.value, ushiftRight_amount]
  | sra => simp only [Arithmetic.value, sar_amount]
  | slt => simp only [Arithmetic.value, decide_eq_true_eq]
  | sltu => simp only [Arithmetic.value, decide_eq_true_eq]
  | xor => rfl
  | or => rfl
  | and => rfl

theorem effect_branch (kind : Branch) (rs1 rs2 : BitVec 5) (offset : BitVec 12)
    {pc a b : BitVec 32} : effect (Instruction.branch kind rs1 rs2 offset).decoded pc a b =
      .ok { nextPc := if kind.taken a b then pc + offset.signExtend 32 <<< 1 else pc + 4
            branchTaken := kind.taken a b } := by
  have heq : decide (a = b) = decide (a.toNat = b.toNat) := by
    rw [decide_eq_decide, BitVec.toNat_inj]
  have hne : decide (a ≠ b) = decide (a.toNat ≠ b.toNat) := by
    rw [decide_eq_decide, ne_eq, ne_eq, BitVec.toNat_inj]
  cases kind with
  | beq =>
    simp only [Branch.taken, ← heq]
    rfl
  | bne =>
    simp only [Branch.taken, ← hne]
    rfl
  | blt => rfl
  | bge => rfl
  | bltu => rfl
  | bgeu => rfl

/-- The evaluation of an instruction's record is its semantics. -/
theorem evaluate_decoded (i : Instruction) {pc : BitVec 32} (a b : BitVec 32)
    (h : pc.toNat % 4 = 0) : outcome (evaluate i.decoded pc a b) = i.execute pc a b := by
  cases i with
  | lui rd immediate =>
    rw [outcome_evaluate h rfl, finish_next h rfl]
    simp only [Instruction.execute, Instruction.target, Instruction.result, word_four, word_place]
    rfl
  | auipc rd immediate =>
    rw [outcome_evaluate h rfl, finish_next h rfl]
    simp only [Instruction.execute, Instruction.target, Instruction.result, word_four]
    rw [word_add, word_toNat, word_place]
    rfl
  | jal rd offset =>
    rw [outcome_evaluate h rfl]
    simp only [Instruction.execute, Instruction.target, Instruction.result, word_four, word_jump]
    rfl
  | jalr rd rs1 immediate =>
    rw [outcome_evaluate h rfl]
    simp only [Instruction.execute, Instruction.target, Instruction.result, word_four,
      ← clear_lowest, word_address]
    rfl
  | branch kind rs1 rs2 offset =>
    rw [outcome_evaluate h (effect_branch kind rs1 rs2 offset)]
    by_cases htaken : kind.taken a b
    · simp only [Instruction.execute, Instruction.target, htaken, if_true, word_jump]
      rfl
    · rw [finish_next h (if_neg htaken)]
      simp only [Instruction.execute, Instruction.target, htaken, word_four]
      rfl
  | load kind rd rs1 immediate =>
    cases kind <;>
      (rw [outcome_evaluate h rfl, finish_next h rfl]
       simp only [Instruction.execute, Instruction.target, Instruction.access, word_four,
         word_address]
       rfl)
  | store kind rs1 rs2 immediate =>
    cases kind <;>
      (rw [outcome_evaluate h rfl, finish_next h rfl]
       simp only [Instruction.execute, Instruction.target, Instruction.access, word_four,
         word_address]
       rfl)
  | constant kind rd rs1 immediate =>
    cases kind <;>
      (rw [outcome_evaluate h rfl, finish_next h rfl]
       simp only [Instruction.execute, Instruction.target, Instruction.result, word_four,
         word_signExtend, value_arithmetic, Constant.arithmetic]
       rfl)
  | shift kind rd rs1 shamt =>
    cases kind <;>
      (rw [outcome_evaluate h rfl, finish_next h rfl]
       simp only [Instruction.execute, Instruction.target, Instruction.result, word_four,
         word_shamt, value_arithmetic, Shift.arithmetic]
       rfl)
  | arithmetic kind rd rs1 rs2 =>
    cases kind <;>
      (rw [outcome_evaluate h rfl, finish_next h rfl]
       simp only [Instruction.execute, Instruction.target, Instruction.result, word_four,
         value_arithmetic]
       rfl)
  | fence fm pred succ rs1 rd =>
    rw [outcome_evaluate h rfl, finish_next h rfl]
    simp only [Instruction.execute, Instruction.target, word_four]
    rfl
  | ecall =>
    have heffect : effect Instruction.ecall.decoded pc a b =
        .error ⟨.environmentCall, "RV32I ECALL"⟩ := rfl
    rw [effect_fault h heffect]
    rfl
  | ebreak =>
    have heffect : effect Instruction.ebreak.decoded pc a b =
        .error ⟨.breakpoint, "RV32I EBREAK"⟩ := rfl
    rw [effect_fault h heffect]
    rfl

/-- A control word goes on to the next word of memory and leaves memory alone. -/
theorem evaluate_control (w : BitVec 32) {pc : BitVec 32} (a b : BitVec 32)
    (h : pc.toNat % 4 = 0) : outcome (evaluate (control w) pc a b) =
      .ok ⟨word (pc.toNat + 4), false, if (control w).writesRd then .value 0 else .none, .none⟩ := by
  rw [outcome_evaluate h rfl, finish_next h rfl, word_four]
  rfl

theorem decode_validControlWord {w : BitVec 32} (h : Contract.validControlWord w) :
    decode w = .ok (control w) := by
  have hopcode := validControlWord_opcode h
  rw [decode, hopcode]
  exact if_pos h

/-! ## The decoder is exact -/

/-- The decoder accepts the words of the base integer instructions and the valid control
words. Apart from a fence, a word is written again from its record; a control word takes its
function and mode from the word in the record. At an aligned program counter the evaluation
of the record is the instruction's semantics. -/
theorem decoder_exact (w : BitVec 32) :
    ((∃ d, decode w = .ok d) ↔ (∃ i : Instruction, i.encode = w) ∨ Contract.validControlWord w) ∧
      (∀ d, decode w = .ok d → d.op ≠ .fence → d.reencode = w) ∧
      (∀ i : Instruction, i.encode = w → ∃ d, decode w = .ok d ∧ d.op = i.op ∧
        ∀ pc a b : BitVec 32, pc.toNat % 4 = 0 →
          outcome (evaluate d pc a b) = i.execute pc a b) ∧
      (Contract.validControlWord w → ∃ d, decode w = .ok d ∧ d.op = .quantum ∧
        ∀ pc a b : BitVec 32, pc.toNat % 4 = 0 → outcome (evaluate d pc a b) =
          .ok ⟨word (pc.toNat + 4), false, if d.writesRd then .value 0 else .none, .none⟩) := by
  refine ⟨⟨?_, ?_⟩, ?_, ?_, ?_⟩
  · intro ⟨d, hd⟩
    rcases decode_eq_ok hd with ⟨i, hi, -⟩ | ⟨hvalid, -⟩
    · exact .inl ⟨i, hi⟩
    · exact .inr hvalid
  · rintro (⟨i, rfl⟩ | hvalid)
    · exact ⟨_, decode_encode i⟩
    · exact ⟨_, decode_validControlWord hvalid⟩
  · intro d hd hfence
    rcases decode_eq_ok hd with ⟨i, rfl, rfl⟩ | ⟨hvalid, rfl⟩
    · exact reencode_decoded i hfence
    · exact reencode_control hvalid
  · rintro i rfl
    exact ⟨_, decode_encode i, rfl, fun pc a b h => evaluate_decoded i a b h⟩
  · intro hvalid
    exact ⟨_, decode_validControlWord hvalid, rfl, fun pc a b h => evaluate_control w a b h⟩

/-- No function of the operation, the registers and the immediate alone writes every control
word again: a wait and a synchronization of the same number differ in their function only. -/
theorem control_function_lost : ¬ ∃ encode : Op → BitVec 8 → BitVec 8 → BitVec 8 → BitVec 32 →
    BitVec 32, ∀ w d, decode w = .ok d → d.op ≠ .fence →
      encode d.op d.rd d.rs1 d.rs2 d.immediate = w := by
  rintro ⟨encode, h⟩
  have hwait := h 0x200b (control 0x200b) (decode_validControlWord (by decide)) (by decide)
  have hsync := h 0x600b (control 0x600b) (decode_validControlWord (by decide)) (by decide)
  have hsame : (0x200b : BitVec 32) = 0x600b := hwait.symm.trans hsync
  exact absurd hsame (by decide)

end Rv32
end Qsbit

import Qsbit.Cpu
import Qsbit.Isa.Semantics

/-!
# Bundles

A bundle is a word of two slots. A slot has the fields of a codeword: the port, the codeword, and
for each of them whether it is meant itself or names the register that holds it. The same fields
are found in the scalar control word, at other places.

## Main definitions

* `Slot`, `Slot.scalar`, `bundleWord` — the fields, and the two words that hold them.
* `Slot.operation` — the operation that they stand for.
* `decodeCwBundle_eq` — a bundle is decoded into the operations of its two scalar words.
-/
namespace Qsbit
open Rv32 (pack place)

/-- The fields of a codeword. -/
structure Slot where
  port : BitVec 5
  codeword : BitVec 5
  mode : BitVec 2
  deriving DecidableEq, Repr

namespace Slot

/-- The scalar control word. -/
def scalar (s : Slot) : BitVec 32 := pack (s.mode.setWidth 7) s.codeword s.port 0 0 0x0b

/-- The twelve bits of a slot. -/
def bits (s : Slot) : BitVec 12 := place s.mode 10 ||| place s.codeword 5 ||| place s.port 0

/-- The operation of a codeword. -/
def operation (s : Slot) (instruction : ℕ) (registers : RegisterFile) : ControlOperation where
  instruction := instruction
  command := .codeword
    (if s.mode.getLsbD 0 then s.port.toNat else (registers s.port).toNat)
    (if s.mode.getLsbD 1 then s.codeword.toNat else (registers s.codeword).toNat)

end Slot

/-- The word of a bundle. -/
def bundleWord (first second : Slot) : BitVec 32 :=
  place second.bits 19 ||| place first.bits 7 ||| place (0x2b : BitVec 7) 0

/-! ## The scalar word -/

section Scalar
variable (s : Slot)

theorem scalar_mode : s.scalar >>> 25 = s.mode.setWidth 32 := by
  have hwiden : ∀ m : BitVec 2, (m.setWidth 7).setWidth 32 = m.setWidth 32 := by decide
  rw [Slot.scalar, Rv32.pack_funct7, hwiden]

theorem scalar_function : ((s.scalar >>> 12) &&& 7).toNat = 0 := by
  rw [Slot.scalar, Rv32.pack_funct3]
  rfl

theorem validControlWord_scalar : Contract.validControlWord s.scalar := by
  have hmode : ∀ m : BitVec 2, m.setWidth 32 ≤ 3 := by decide
  have hopcode : s.scalar &&& 127 = Contract.controlOpcode := Rv32.pack_opcode ..
  have hrd : (s.scalar >>> 7) &&& 31 = 0 := by
    rw [Slot.scalar, Rv32.pack_rd]
    rfl
  rw [Contract.validControlWord, if_neg (not_not_intro hopcode)]
  simp only [scalar_function, hrd, scalar_mode]
  simpa using hmode s.mode

theorem decode_scalar : Rv32.decode s.scalar = .ok (Rv32.control s.scalar) :=
  Rv32.decode_validControlWord (validControlWord_scalar s)

theorem rs1_scalar : (Rv32.control s.scalar).rs1 = s.port.setWidth 8 := by
  change ((s.scalar >>> 15) &&& 31).setWidth 8 = _
  rw [Slot.scalar, Rv32.pack_rs1, BitVec.setWidth_setWidth_of_le _ (by decide)]

theorem rs2_scalar : (Rv32.control s.scalar).rs2 = s.codeword.setWidth 8 := by
  change ((s.scalar >>> 20) &&& 31).setWidth 8 = _
  rw [Slot.scalar, Rv32.pack_rs2, BitVec.setWidth_setWidth_of_le _ (by decide)]

/-- A codeword writes no register. -/
theorem writesRd_scalar : (Rv32.control s.scalar).writesRd = false := by
  change decide (((s.scalar >>> 12) &&& 7).toNat = 3) = false
  rw [scalar_function]
  rfl

theorem mode_flag_zero (m : BitVec 2) :
    (m.setWidth 32 &&& 1 ≠ 0) ↔ m.getLsbD 0 = true := by
  revert m
  decide

theorem mode_flag_one (m : BitVec 2) :
    (m.setWidth 32 &&& 2 ≠ 0) ↔ m.getLsbD 1 = true := by
  revert m
  decide

/-- The adapter makes the slot's operation of the scalar word. -/
theorem adaptQuantum_scalar (instruction : ℕ) (registers : RegisterFile) :
    adaptQuantum (Rv32.control s.scalar) instruction (registers s.port) (registers s.codeword) =
      .ok (s.operation instruction registers) := by
  have hword : (Rv32.control s.scalar).word = s.scalar := rfl
  have hop : (Rv32.control s.scalar).op = .quantum := rfl
  have hport : (s.port.setWidth 8).toNat = s.port.toNat := BitVec.toNat_setWidth_of_le (by decide)
  have hcodeword : (s.codeword.setWidth 8).toNat = s.codeword.toNat :=
    BitVec.toNat_setWidth_of_le (by decide)
  simp only [adaptQuantum, hop, hword, scalar_function, scalar_mode, mode_flag_zero, mode_flag_one,
    rs1_scalar, rs2_scalar, hport, hcodeword]
  rfl

end Scalar

/-! ## The word of two slots -/

section Word
variable (first second : Slot)

theorem lane_first : (bundleWord first second >>> 7) &&& 0xfff = first.bits.setWidth 32 := by
  apply BitVec.eq_of_getLsbD_eq
  intro i hi
  interval_cases i <;>
    simp [bundleWord, Rv32.getLsbD_place, BitVec.getLsbD_of_ge, -BitVec.getLsbD_eq_getElem]

theorem lane_second : (bundleWord first second >>> 19) &&& 0xfff = second.bits.setWidth 32 := by
  apply BitVec.eq_of_getLsbD_eq
  intro i hi
  interval_cases i <;>
    simp [bundleWord, Rv32.getLsbD_place, BitVec.getLsbD_of_ge, -BitVec.getLsbD_eq_getElem]

end Word

section Bits
variable (s : Slot)

theorem bits_port : s.bits.setWidth 32 &&& 31 = s.port.setWidth 32 := by
  apply BitVec.eq_of_getLsbD_eq
  intro i hi
  interval_cases i <;>
    simp [Slot.bits, Rv32.getLsbD_place, BitVec.getLsbD_of_ge, -BitVec.getLsbD_eq_getElem]

theorem bits_codeword : (s.bits.setWidth 32 >>> 5) &&& 31 = s.codeword.setWidth 32 := by
  apply BitVec.eq_of_getLsbD_eq
  intro i hi
  interval_cases i <;>
    simp [Slot.bits, Rv32.getLsbD_place, BitVec.getLsbD_of_ge, -BitVec.getLsbD_eq_getElem]

theorem bits_mode : s.bits.setWidth 32 >>> 10 = s.mode.setWidth 32 := by
  apply BitVec.eq_of_getLsbD_eq
  intro i hi
  interval_cases i <;>
    simp [Slot.bits, Rv32.getLsbD_place, BitVec.getLsbD_of_ge, -BitVec.getLsbD_eq_getElem]

theorem scalar_eq : 0x0b ||| (s.port.setWidth 32 <<< 15) |||
    (s.codeword.setWidth 32 <<< 20) ||| (s.mode.setWidth 32 <<< 25) = s.scalar := by
  apply BitVec.eq_of_getLsbD_eq
  intro i hi
  interval_cases i <;>
    simp [Slot.scalar, pack, Rv32.getLsbD_place, BitVec.getLsbD_of_ge, -BitVec.getLsbD_eq_getElem]

end Bits

/-! ## Decoding -/

/-- A slot is decoded into the operation of its scalar word. -/
theorem decodeLane_of_bits {word : BitVec 32} {lane : ℕ} {s : Slot} (instruction : ℕ)
    (registers : RegisterFile) (h : (word >>> (7 + 12 * lane)) &&& 0xfff = s.bits.setWidth 32) :
    decodeLane word instruction registers lane = .ok (s.operation instruction registers) := by
  have hregister : ∀ x : BitVec 5, (x.setWidth 32).setWidth 5 = x := by decide
  calc decodeLane word instruction registers lane
      = Rv32.decode (0x0b ||| (s.port.setWidth 32 <<< 15) ||| (s.codeword.setWidth 32 <<< 20) |||
          (s.mode.setWidth 32 <<< 25)) >>= fun d =>
            adaptQuantum d instruction (registers s.port) (registers s.codeword) := by
        simp only [decodeLane, h, bits_port, bits_codeword, bits_mode, hregister]
    _ = .ok (s.operation instruction registers) := by
        rw [scalar_eq, decode_scalar]
        exact adaptQuantum_scalar s instruction registers

/-- The words that are bundles. -/
theorem exists_bundleWord_iff (word : BitVec 32) :
    (∃ first second, bundleWord first second = word) ↔
      word &&& 0x8000007f = Contract.bundleOpcode := by
  constructor
  · rintro ⟨first, second, rfl⟩
    apply BitVec.eq_of_getLsbD_eq
    intro i hi
    interval_cases i <;>
      simp [bundleWord, Contract.bundleOpcode, Rv32.getLsbD_place, BitVec.getLsbD_of_ge,
        -BitVec.getLsbD_eq_getElem]
  · intro h
    refine ⟨⟨word.extractLsb' 7 5, word.extractLsb' 12 5, word.extractLsb' 17 2⟩,
      ⟨word.extractLsb' 19 5, word.extractLsb' 24 5, word.extractLsb' 29 2⟩, ?_⟩
    have hbit : ∀ i, (word &&& 0x8000007f).getLsbD i = Contract.bundleOpcode.getLsbD i :=
      fun i => congrArg (BitVec.getLsbD · i) h
    apply BitVec.eq_of_getLsbD_eq
    intro i hi
    have hi' := hbit i
    interval_cases i <;>
      simp [bundleWord, Slot.bits, Contract.bundleOpcode, Rv32.getLsbD_place,
        -BitVec.getLsbD_eq_getElem] at hi' ⊢ <;> exact hi'

/-- A bundle is decoded into the operations of its two scalar words. -/
theorem decodeCwBundle_eq (first second : Slot) (instruction : ℕ) (registers : RegisterFile) :
    decodeCwBundle (bundleWord first second) instruction registers =
      .ok [first.operation instruction registers, second.operation instruction registers] := by
  have hopcode := (exists_bundleWord_iff _).1 ⟨first, second, rfl⟩
  have hfirst : decodeLane (bundleWord first second) instruction registers 0 =
      .ok (first.operation instruction registers) :=
    decodeLane_of_bits instruction registers (lane_first first second)
  have hsecond : decodeLane (bundleWord first second) instruction registers 1 =
      .ok (second.operation instruction registers) :=
    decodeLane_of_bits instruction registers (lane_second first second)
  rw [decodeCwBundle, require, if_pos hopcode]
  simp only [List.mapM_cons, List.mapM_nil, hfirst, hsecond]
  rfl

/-- Every other word is refused. -/
theorem decodeCwBundle_eq_error {word : BitVec 32} (instruction : ℕ) (registers : RegisterFile)
    (h : word &&& 0x8000007f ≠ Contract.bundleOpcode) :
    decodeCwBundle word instruction registers =
      .error ⟨.illegalInstruction, "invalid cw bundle encoding"⟩ := by
  rw [decodeCwBundle, require, if_neg h]
  rfl

end Qsbit

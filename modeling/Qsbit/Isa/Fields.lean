import Qsbit.Isa
import Mathlib.Tactic.IntervalCases

/-!
# Instruction fields

Every word is its six fields side by side, and every format spreads its immediate over
some of them. The decoder reads fields with shifts and masks and puts an immediate
together from pieces; here each such expression is given by the fields of the word.

## Main definitions

* `Rv32.place`, `Rv32.pack` — a field at its place, and a word from its fields.
* `Rv32.immediateI`, … — the immediates of a word, by the format.

## Main results

* `Rv32.signExtend_eq` — the source's sign extension is that of the lowest bits.
* `Rv32.pack_fields` — every word is packed.
-/
namespace Qsbit
namespace Rv32

/-! ## Sign extension -/

/-- The mask of a sign extension keeps the bits below its width. -/
theorem getLsbD_mask (n i : ℕ) :
    ((1#32 <<< n) - 1#32).getLsbD i = (decide (i < 32) && decide (i < n)) := by
  rw [← BitVec.not_neg, ← BitVec.shiftLeft_neg, BitVec.getLsbD_not, BitVec.getLsbD_shiftLeft,
    BitVec.neg_one_eq_allOnes, BitVec.getLsbD_allOnes]
  by_cases hi : i < 32
  · by_cases hn : i < n
    · simp [hi, hn]
    · have hlt : i - n < 32 := by omega
      simp [hi, hn, hlt]
  · simp [hi]

theorem getLsbD_sign (n i : ℕ) :
    (1#32 <<< n).getLsbD i = (decide (i < 32) && decide (i = n)) := by
  rw [BitVec.getLsbD_shiftLeft, BitVec.getLsbD_one]
  by_cases hn : i = n
  · simp [hn]
  · by_cases hlt : i < n
    · simp [hn, hlt]
    · have hsub : i - n ≠ 0 := by omega
      simp [hn, hsub]

/-- Subtracting the sign fills a value with ones from the sign's bit on. -/
theorem getLsbD_neg_sign (n i : ℕ) :
    (-(1#32 <<< n)).getLsbD i = (decide (i < 32) && decide (n ≤ i)) := by
  rw [← BitVec.shiftLeft_neg, BitVec.getLsbD_shiftLeft, BitVec.neg_one_eq_allOnes,
    BitVec.getLsbD_allOnes]
  by_cases hi : i < 32
  · by_cases hn : n ≤ i
    · have hlt : i - n < 32 := by omega
      simp [hi, hn, hlt]
    · have hlt : i < n := by omega
      simp [hn, hlt]
  · simp [hi]

/-- Subtracting the sign undoes the flip of its bit where the bit was clear, and sets all
the bits from it on where it was set. -/
theorem flip_sub_sign (v : BitVec 32) {mask sign : BitVec 32} {n : ℕ} (hn : 0 < n) (hle : n ≤ 32)
    (hmask : ∀ i < 32, mask.getLsbD i = decide (i < n))
    (hsign : ∀ i < 32, sign.getLsbD i = decide (i = n - 1))
    (hneg : ∀ i < 32, (-sign).getLsbD i = decide (n - 1 ≤ i)) :
    ((v &&& mask) ^^^ sign) - sign = (v.setWidth n).signExtend 32 := by
  cases hbit : v.getLsbD (n - 1) with
  | false =>
    have hclear : (v &&& mask) &&& sign = 0#32 := by
      apply BitVec.eq_of_getLsbD_eq
      intro i hi
      by_cases h : i = n - 1
      · simp only [BitVec.getLsbD_and, h, hbit, Bool.false_and, BitVec.getLsbD_zero]
      · simp only [BitVec.getLsbD_and, hsign i hi, h, decide_false, Bool.and_false,
          BitVec.getLsbD_zero]
    have hflip : (v &&& mask) ^^^ sign = (v &&& mask) + sign := by
      rw [BitVec.add_eq_or_of_and_eq_zero _ _ hclear]
      apply BitVec.eq_of_getLsbD_eq
      intro i hi
      by_cases h : i = n - 1
      · simp only [BitVec.getLsbD_xor, BitVec.getLsbD_or, BitVec.getLsbD_and, h, hbit,
          Bool.false_and, Bool.false_xor, Bool.false_or]
      · simp only [BitVec.getLsbD_xor, BitVec.getLsbD_or, BitVec.getLsbD_and, hsign i hi, h,
          decide_false, Bool.xor_false, Bool.or_false]
    rw [hflip, BitVec.add_sub_cancel]
    apply BitVec.eq_of_getLsbD_eq
    intro i hi
    rw [BitVec.getLsbD_and, hmask i hi, BitVec.getLsbD_signExtend, BitVec.msb_setWidth]
    by_cases h : i < n
    · simp [h, hi, -BitVec.getLsbD_eq_getElem]
    · simp [h, hbit, -BitVec.getLsbD_eq_getElem]
  | true =>
    have hclear : ((v &&& mask) ^^^ sign) &&& -sign = 0#32 := by
      apply BitVec.eq_of_getLsbD_eq
      intro i hi
      rw [BitVec.getLsbD_and, BitVec.getLsbD_xor, BitVec.getLsbD_and, hmask i hi, hsign i hi,
        hneg i hi, BitVec.getLsbD_zero]
      by_cases h : i = n - 1
      · have hlast : n - 1 < n := by omega
        simp [h, hbit, hlast]
      · by_cases hless : i < n
        · have hbelow : ¬ n - 1 ≤ i := by omega
          simp [hbelow]
        · simp [h, hless]
    rw [BitVec.sub_eq_add_neg, BitVec.add_eq_or_of_and_eq_zero _ _ hclear]
    apply BitVec.eq_of_getLsbD_eq
    intro i hi
    rw [BitVec.getLsbD_or, BitVec.getLsbD_xor, BitVec.getLsbD_and, hmask i hi, hsign i hi,
      hneg i hi, BitVec.getLsbD_signExtend, BitVec.msb_setWidth]
    by_cases h : i < n
    · by_cases hless : i < n - 1
      · have hne : i ≠ n - 1 := by omega
        have hbelow : ¬ n - 1 ≤ i := by omega
        simp [h, hi, hne, hbelow, -BitVec.getLsbD_eq_getElem]
      · have hlast : i = n - 1 := by omega
        have hbelow : n - 1 < 32 := by omega
        simp [hlast, hbit, hbelow, hn, -BitVec.getLsbD_eq_getElem]
    · have habove : n - 1 ≤ i := by omega
      simp [h, hi, habove, hbit, hn, -BitVec.getLsbD_eq_getElem]

theorem signExtend_eq (v : BitVec 32) {n : ℕ} (hn : 0 < n) (hle : n ≤ 32) :
    signExtend v n = .ok ((v.setWidth n).signExtend 32) := by
  have hwidth : require (0 < n ∧ n ≤ 32) .invalidOperand "invalid sign extension width" = .ok () :=
    require_eq_ok_iff.2 ⟨hn, hle⟩
  rw [signExtend, hwidth]
  simp only [bind, Except.bind, pure, Except.pure]
  by_cases hfull : n = 32
  · subst hfull
    simp
  · rw [if_neg hfull, Except.ok.injEq]
    refine flip_sub_sign v hn hle ?_ ?_ ?_
    · intro i hi
      simpa [hi] using getLsbD_mask n i
    · intro i hi
      simpa [hi] using getLsbD_sign (n - 1) i
    · intro i hi
      simpa [hi] using getLsbD_neg_sign (n - 1) i

/-! ## Fields -/

/-- A field at its place in a word of another width. -/
def place {n k : ℕ} (field : BitVec n) (position : ℕ) : BitVec k := field.setWidth k <<< position

/-- An instruction word from its six fields. -/
def pack (funct7 : BitVec 7) (rs2 rs1 : BitVec 5) (funct3 : BitVec 3) (rd : BitVec 5)
    (opcode : BitVec 7) : BitVec 32 :=
  place funct7 25 ||| place rs2 20 ||| place rs1 15 ||| place funct3 12 ||| place rd 7 |||
    place opcode 0

theorem getLsbD_place {n k : ℕ} (field : BitVec n) (position i : ℕ) :
    (place field position : BitVec k).getLsbD i =
      (decide (i < k) && decide (position ≤ i) && field.getLsbD (i - position)) := by
  simp only [place, BitVec.getLsbD_shiftLeft, BitVec.getLsbD_setWidth]
  by_cases h : i < k
  · by_cases hle : position ≤ i
    · have hlt : i - position < k := by omega
      simp [h, hle, hlt]
    · simp [h, hle]
  · simp [h]

section Pack
variable (funct7 : BitVec 7) (rs2 rs1 : BitVec 5) (funct3 : BitVec 3) (rd : BitVec 5)
  (opcode : BitVec 7)

theorem pack_fields (w : BitVec 32) : pack (w.extractLsb' 25 7) (w.extractLsb' 20 5)
    (w.extractLsb' 15 5) (w.extractLsb' 12 3) (w.extractLsb' 7 5) (w.extractLsb' 0 7) = w := by
  apply BitVec.eq_of_getLsbD_eq
  intro i hi
  interval_cases i <;> simp [pack, getLsbD_place, -BitVec.getLsbD_eq_getElem]

theorem pack_opcode : pack funct7 rs2 rs1 funct3 rd opcode &&& 127 = opcode.setWidth 32 := by
  apply BitVec.eq_of_getLsbD_eq
  intro i hi
  interval_cases i <;>
    simp [pack, getLsbD_place, BitVec.getLsbD_of_ge, -BitVec.getLsbD_eq_getElem]

theorem pack_funct7 : pack funct7 rs2 rs1 funct3 rd opcode >>> 25 = funct7.setWidth 32 := by
  apply BitVec.eq_of_getLsbD_eq
  intro i hi
  interval_cases i <;>
    simp [pack, getLsbD_place, BitVec.getLsbD_of_ge, -BitVec.getLsbD_eq_getElem]

theorem pack_funct3 :
    (pack funct7 rs2 rs1 funct3 rd opcode >>> 12) &&& 7 = funct3.setWidth 32 := by
  apply BitVec.eq_of_getLsbD_eq
  intro i hi
  interval_cases i <;>
    simp [pack, getLsbD_place, BitVec.getLsbD_of_ge, -BitVec.getLsbD_eq_getElem]

theorem pack_rd : (pack funct7 rs2 rs1 funct3 rd opcode >>> 7) &&& 31 = rd.setWidth 32 := by
  apply BitVec.eq_of_getLsbD_eq
  intro i hi
  interval_cases i <;>
    simp [pack, getLsbD_place, BitVec.getLsbD_of_ge, -BitVec.getLsbD_eq_getElem]

theorem pack_rs1 : (pack funct7 rs2 rs1 funct3 rd opcode >>> 15) &&& 31 = rs1.setWidth 32 := by
  apply BitVec.eq_of_getLsbD_eq
  intro i hi
  interval_cases i <;>
    simp [pack, getLsbD_place, BitVec.getLsbD_of_ge, -BitVec.getLsbD_eq_getElem]

theorem pack_rs2 : (pack funct7 rs2 rs1 funct3 rd opcode >>> 20) &&& 31 = rs2.setWidth 32 := by
  apply BitVec.eq_of_getLsbD_eq
  intro i hi
  interval_cases i <;>
    simp [pack, getLsbD_place, BitVec.getLsbD_of_ge, -BitVec.getLsbD_eq_getElem]

/-! ## Immediates -/

/-- The immediate of a load, a jump to a register or an operation with a constant. -/
def immediateI : BitVec 12 := place funct7 5 ||| place rs2 0

/-- The immediate of a store. -/
def immediateS : BitVec 12 := place funct7 5 ||| place rd 0

/-- Half the offset of a branch. -/
def immediateB : BitVec 12 :=
  place (funct7.extractLsb' 6 1) 11 ||| place (rd.extractLsb' 0 1) 10 |||
    place (funct7.extractLsb' 0 6) 4 ||| place (rd.extractLsb' 1 4) 0

/-- The upper part of a word. -/
def immediateU : BitVec 20 := place funct7 13 ||| place rs2 8 ||| place rs1 3 ||| place funct3 0

/-- Half the offset of a jump. -/
def immediateJ : BitVec 20 :=
  place (funct7.extractLsb' 6 1) 19 ||| place rs1 14 ||| place funct3 11 |||
    place (rs2.extractLsb' 0 1) 10 ||| place (funct7.extractLsb' 0 6) 4 |||
    place (rs2.extractLsb' 1 4) 0

/-- Doubling an offset and extending its sign commute. -/
theorem signExtend_doubled {n : ℕ} (offset : BitVec n) (hn : 0 < n) :
    (place offset 1 : BitVec (n + 1)).signExtend 32 = offset.signExtend 32 <<< 1 := by
  have hmsb : (place offset 1 : BitVec (n + 1)).msb = offset.msb := by
    rw [BitVec.msb_eq_getLsbD_last, BitVec.msb_eq_getLsbD_last, getLsbD_place]
    have hle : 1 ≤ n := hn
    simp [hle, -BitVec.getLsbD_eq_getElem]
  apply BitVec.eq_of_getLsbD_eq
  intro i hi
  rw [BitVec.getLsbD_signExtend, hmsb, BitVec.getLsbD_shiftLeft, BitVec.getLsbD_signExtend,
    getLsbD_place]
  by_cases hzero : i = 0
  · subst hzero
    simp
  · have hle : 1 ≤ i := by omega
    have hlt : i - 1 < 32 := by omega
    have hnot : ¬ i < 1 := by omega
    by_cases hfits : i < n + 1
    · have hinside : i - 1 < n := by omega
      simp [hi, hle, hlt, hfits, hinside, hzero, -BitVec.getLsbD_eq_getElem]
    · have houtside : ¬ i - 1 < n := by omega
      simp [hi, hlt, hfits, houtside, hzero]

theorem signExtend_immediateI : signExtend (pack funct7 rs2 rs1 funct3 rd opcode >>> 20) 12 =
    .ok ((immediateI funct7 rs2).signExtend 32) := by
  rw [signExtend_eq _ (by decide) (by decide)]
  congr 2
  apply BitVec.eq_of_getLsbD_eq
  intro i hi
  interval_cases i <;>
    simp [pack, immediateI, getLsbD_place, BitVec.getLsbD_of_ge, -BitVec.getLsbD_eq_getElem]

theorem signExtend_immediateS :
    signExtend (((pack funct7 rs2 rs1 funct3 rd opcode >>> 25) <<< 5) |||
      ((pack funct7 rs2 rs1 funct3 rd opcode >>> 7) &&& 31)) 12 =
      .ok ((immediateS funct7 rd).signExtend 32) := by
  rw [signExtend_eq _ (by decide) (by decide), pack_rd, pack_funct7]
  congr 2
  apply BitVec.eq_of_getLsbD_eq
  intro i hi
  interval_cases i <;>
    simp [immediateS, getLsbD_place, BitVec.getLsbD_of_ge, -BitVec.getLsbD_eq_getElem]

theorem signExtend_immediateB :
    signExtend (((pack funct7 rs2 rs1 funct3 rd opcode >>> 31) <<< 12) |||
      (((pack funct7 rs2 rs1 funct3 rd opcode >>> 7) &&& 1) <<< 11) |||
      (((pack funct7 rs2 rs1 funct3 rd opcode >>> 25) &&& 63) <<< 5) |||
      (((pack funct7 rs2 rs1 funct3 rd opcode >>> 8) &&& 15) <<< 1)) 13 =
      .ok ((immediateB funct7 rd).signExtend 32 <<< 1) := by
  rw [signExtend_eq _ (by decide) (by decide), ← signExtend_doubled _ (by decide)]
  congr 2
  apply BitVec.eq_of_getLsbD_eq
  intro i hi
  interval_cases i <;>
    simp [pack, immediateB, getLsbD_place, BitVec.getLsbD_of_ge, -BitVec.getLsbD_eq_getElem]

theorem pack_sign :
    pack funct7 rs2 rs1 funct3 rd opcode >>> 31 = place (funct7.extractLsb' 6 1) 0 := by
  apply BitVec.eq_of_getLsbD_eq
  intro i hi
  interval_cases i <;>
    simp [pack, getLsbD_place, BitVec.getLsbD_of_ge, -BitVec.getLsbD_eq_getElem]

theorem pack_jumpMiddle : pack funct7 rs2 rs1 funct3 rd opcode &&& 0xff000 =
    place rs1 15 ||| place funct3 12 := by
  apply BitVec.eq_of_getLsbD_eq
  intro i hi
  interval_cases i <;>
    simp [pack, getLsbD_place, BitVec.getLsbD_of_ge, -BitVec.getLsbD_eq_getElem]

theorem pack_jumpLow : (pack funct7 rs2 rs1 funct3 rd opcode >>> 21) &&& 1023 =
    place (funct7.extractLsb' 0 6) 4 ||| place (rs2.extractLsb' 1 4) 0 := by
  apply BitVec.eq_of_getLsbD_eq
  intro i hi
  interval_cases i <;>
    simp [pack, getLsbD_place, BitVec.getLsbD_of_ge, -BitVec.getLsbD_eq_getElem]

theorem pack_jumpBit : (pack funct7 rs2 rs1 funct3 rd opcode >>> 20) &&& 1 =
    place (rs2.extractLsb' 0 1) 0 := by
  apply BitVec.eq_of_getLsbD_eq
  intro i hi
  interval_cases i <;>
    simp [pack, getLsbD_place, BitVec.getLsbD_of_ge, -BitVec.getLsbD_eq_getElem]

theorem signExtend_immediateJ :
    signExtend (((pack funct7 rs2 rs1 funct3 rd opcode >>> 31) <<< 20) |||
      (pack funct7 rs2 rs1 funct3 rd opcode &&& 0xff000) |||
      (((pack funct7 rs2 rs1 funct3 rd opcode >>> 20) &&& 1) <<< 11) |||
      (((pack funct7 rs2 rs1 funct3 rd opcode >>> 21) &&& 1023) <<< 1)) 21 =
      .ok ((immediateJ funct7 rs2 rs1 funct3).signExtend 32 <<< 1) := by
  have hmask : ((0xff000 : ℕ) : BitVec 32) = 0xff000 := rfl
  rw [signExtend_eq _ (by decide) (by decide), ← signExtend_doubled _ (by decide), hmask, pack_sign,
    pack_jumpMiddle, pack_jumpBit, pack_jumpLow]
  congr 2
  apply BitVec.eq_of_getLsbD_eq
  intro i hi
  interval_cases i <;>
    simp [immediateJ, getLsbD_place, BitVec.getLsbD_of_ge, -BitVec.getLsbD_eq_getElem]

theorem pack_immediateU : pack funct7 rs2 rs1 funct3 rd opcode &&& 0xfffff000 =
    place (immediateU funct7 rs2 rs1 funct3) 12 := by
  apply BitVec.eq_of_getLsbD_eq
  intro i hi
  interval_cases i <;>
    simp [pack, immediateU, getLsbD_place, BitVec.getLsbD_of_ge, -BitVec.getLsbD_eq_getElem]

end Pack
end Rv32
end Qsbit

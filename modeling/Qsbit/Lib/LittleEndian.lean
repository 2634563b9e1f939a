import Mathlib.Data.Nat.Digits.Lemmas

/-!
# Little-endian numbers

The number that a list of bytes stands for, its first byte lowest, and a reader that
collects it with shifts: it keeps the bytes read so far below the next one.

## Main definitions

* `littleEndian` — the number of a list of bytes.

## Main results

* `or_shiftLeft_byte` — the next byte is added above the bytes read so far.
-/
namespace Qsbit

/-- The number of a list of bytes, the first one lowest. -/
def littleEndian (bytes : List (BitVec 8)) : ℕ := Nat.ofDigits 256 (bytes.map BitVec.toNat)

@[simp] theorem littleEndian_nil : littleEndian [] = 0 := rfl

theorem littleEndian_cons (b : BitVec 8) (rest : List (BitVec 8)) :
    littleEndian (b :: rest) = b.toNat + 256 * littleEndian rest := by
  simp [littleEndian, Nat.ofDigits_cons]

theorem littleEndian_lt (bytes : List (BitVec 8)) : littleEndian bytes < 256 ^ bytes.length := by
  have hdigits : ∀ d ∈ bytes.map BitVec.toNat, d < 256 := by
    intro d hd
    obtain ⟨b, -, rfl⟩ := List.mem_map.1 hd
    exact b.isLt
  have hlt := Nat.ofDigits_lt_base_pow_length (by decide : 1 < 256) hdigits
  rwa [List.length_map] at hlt

/-- Above `i` bytes, the next one is added with its weight. -/
theorem or_shiftLeft_byte {value i : ℕ} (b : BitVec 8) (h : value < 256 ^ i) :
    value ||| (b.toNat <<< (8 * i)) = value + 256 ^ i * b.toNat := by
  have hpow : 256 ^ i = 2 ^ (8 * i) := by rw [Nat.pow_mul]
  rw [hpow] at h ⊢
  rw [Nat.or_comm, ← Nat.shiftLeft_add_eq_or_of_lt h, Nat.shiftLeft_eq]
  ring

theorem add_byte_lt {value i : ℕ} (b : BitVec 8) (h : value < 256 ^ i) :
    value + 256 ^ i * b.toNat < 256 ^ (i + 1) := by
  have hb : b.toNat + 1 ≤ 256 := b.isLt
  calc value + 256 ^ i * b.toNat < 256 ^ i + 256 ^ i * b.toNat := Nat.add_lt_add_right h _
    _ = 256 ^ i * (b.toNat + 1) := by ring
    _ ≤ 256 ^ i * 256 := Nat.mul_le_mul_left _ hb
    _ = 256 ^ (i + 1) := (pow_succ _ _).symm

end Qsbit

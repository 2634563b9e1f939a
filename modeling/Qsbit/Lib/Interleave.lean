import Mathlib.Data.List.Basic
import Mathlib.Tactic.Linarith

/-!
# Lanes and blocks

Two ways in which several sources share the naturals. With `n` lanes, source `i`
numbers its `k`-th item `k * n + i`, and both can be read off the number. With blocks,
each source has a size, and its items are numbered from the sum of the sizes before it.

## Main definitions

* `lane` — item `k` of lane `i` among `n`.
* `runningSums` — where the blocks begin.
-/
namespace Interleave

/-- Item `k` of lane `i` among `n`. -/
def lane (n i k : ℕ) : ℕ := k * n + i

section Lanes
variable {n i j k l : ℕ}

theorem lane_mod (h : i < n) : lane n i k % n = i := by
  rw [lane, Nat.mul_add_mod_self_right, Nat.mod_eq_of_lt h]

theorem lane_div (h : i < n) : lane n i k / n = k := by
  have hpos : 0 < n := by omega
  rw [lane, Nat.add_comm, Nat.add_mul_div_right i k hpos, Nat.div_eq_of_lt h, Nat.zero_add]

theorem lane_injective (hi : i < n) (hj : j < n) (h : lane n i k = lane n j l) :
    i = j ∧ k = l := by
  constructor
  · rw [← lane_mod (k := k) hi, h, lane_mod hj]
  · rw [← lane_div (k := k) hi, h, lane_div hj]

end Lanes

/-- The sums of the sizes before each block. -/
def runningSums (start : ℕ) : List ℕ → List ℕ
  | [] => []
  | size :: rest => start :: runningSums (start + size) rest

section Blocks
variable {start : ℕ} {sizes : List ℕ}

@[simp] theorem length_runningSums : (runningSums start sizes).length = sizes.length := by
  induction sizes generalizing start with
  | nil => rfl
  | cons size rest ih => simp [runningSums, ih]

end Blocks
end Interleave

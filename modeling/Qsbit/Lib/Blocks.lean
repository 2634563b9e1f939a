import Mathlib.Data.List.Basic
import Mathlib.Tactic.Common

/-!
# Cutting a list into blocks

`blocks m xs` is the list of the consecutive blocks of exactly `m` elements from
the front of `xs`; what is left at the end and is shorter than a block is dropped.

## Main results

* `blocks_flatten_append` — a list put together from blocks is cut into them again.
* `blocks_prefix` — the blocks of a list are the first ones of a longer list.
-/

namespace List
variable {α : Type*} {m : ℕ}

def blocks (m : ℕ) (xs : List α) : List (List α) :=
  (List.range (xs.length / m)).map fun i => (xs.drop (i * m)).take m

@[simp] theorem length_blocks {xs : List α} : (blocks m xs).length = xs.length / m := by
  simp [blocks]

theorem blocks_of_length_lt {xs : List α} (h : xs.length < m) : blocks m xs = [] := by
  simp [blocks, Nat.div_eq_of_lt h]

theorem blocks_append {xs ys : List α} (hm : 0 < m) (h : xs.length = m) :
    blocks m (xs ++ ys) = xs :: blocks m ys := by
  have hlength : (xs ++ ys).length / m = ys.length / m + 1 := by
    rw [length_append, h, Nat.add_div_left _ hm]
  rw [blocks, hlength, range_succ_eq_map, map_cons, map_map]
  congr 1
  · rw [Nat.zero_mul, drop_zero, ← h, take_left]
  · apply map_congr_left
    intro i _
    have hdrop : (i + 1) * m = xs.length + i * m := by rw [h, Nat.succ_mul, Nat.add_comm]
    rw [Function.comp_apply, Nat.succ_eq_add_one, hdrop, drop_length_add_append]

theorem blocks_flatten_append {gs : List (List α)} {ys : List α} (hm : 0 < m)
    (h : ∀ g ∈ gs, g.length = m) : blocks m (gs.flatten ++ ys) = gs ++ blocks m ys := by
  induction gs with
  | nil => rfl
  | cons g gs ih =>
    rw [forall_mem_cons] at h
    rw [flatten_cons, append_assoc, blocks_append hm h.1, ih h.2, cons_append]

/-- A longer list has the same blocks first. -/
theorem blocks_prefix {xs ys : List α} (h : xs <+: ys) : blocks m xs <+: blocks m ys := by
  obtain ⟨t, rfl⟩ := h
  have hle : xs.length / m ≤ (xs ++ t).length / m := by
    rw [length_append]
    exact Nat.div_le_div_right (Nat.le_add_right _ _)
  have htake : (range ((xs ++ t).length / m)).take (xs.length / m) = range (xs.length / m) := by
    rw [take_range, Nat.min_eq_left hle]
  have heq : blocks m xs = (blocks m (xs ++ t)).take (xs.length / m) := by
    rw [blocks, blocks, ← map_take, htake]
    apply map_congr_left
    intro i hi
    rw [mem_range] at hi
    have hend : (i + 1) * m ≤ xs.length :=
      Nat.le_trans (Nat.mul_le_mul_right m hi) (Nat.div_mul_le_self _ _)
    rw [Nat.succ_mul] at hend
    rw [drop_append_of_le_length (by omega), take_append_of_le_length]
    rw [length_drop]
    omega
  rw [heq]
  exact take_prefix _ _

end List

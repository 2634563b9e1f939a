import Mathlib.Order.Basic

/-!
# A resource that is used by one at a time

Each use occupies an interval of ticks. A resource that is handed over only once it
is free is never used twice on a tick.

## Main definitions

* `Serial` — uses one after the other, and the tick from which the resource is free.
-/
/-- Uses, from their first tick up to but without their last, in order and without overlap. The
resource is free from the tick `free` on. -/
structure Serial {τ : Type} [Preorder τ] (uses : List (τ × τ)) (free : τ) : Prop where
  apart : uses.Pairwise fun x y => x.2 ≤ y.1
  bound : ∀ x ∈ uses, x.2 ≤ free

namespace Serial
variable {τ : Type} [Preorder τ] {uses : List (τ × τ)} {free start last : τ}

theorem nil : Serial [] free := ⟨.nil, by simp⟩

/-- The resource is used once it is free. -/
theorem use (h : Serial uses free) (hstart : free ≤ start) (hlast : start ≤ last) :
    Serial (uses ++ [(start, last)]) last where
  apart := by
    refine List.pairwise_append.2 ⟨h.apart, List.pairwise_singleton _ _, ?_⟩
    intro x hx y hy
    rw [List.mem_singleton.1 hy]
    exact (h.bound x hx).trans hstart
  bound := by
    intro x hx
    rcases List.mem_append.1 hx with hx | hx
    · exact (h.bound x hx).trans (hstart.trans hlast)
    · rw [List.mem_singleton.1 hx]

end Serial

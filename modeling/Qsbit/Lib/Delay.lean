import Mathlib.Data.List.Basic
import Mathlib.Order.Nat
import Mathlib.Tactic.Common

/-!
# Messages that are due after a delay

Messages wait in a queue until they are due. Only the oldest can be taken, and only
once it is due. When later messages are never due earlier and the receiver empties
the queue of what is due on each of its ticks, order of posting and order of dues
are one and nothing waits longer than it has to.

## Main definitions

* `Delay.Run` — posts, takes and the passing of time; a receiver that polls on its ticks.
* `Delay.Kept` — what such a run keeps; `kept` says that it does.
-/
namespace Delay
variable {α : Type} {due : α → ℕ} {polls : ℕ → Prop} {now : ℕ} {posted waiting : List α}
  {taken : List (ℕ × α)}

/-- A run with its history. Time passes one tick only when the receiver, if it polls on that
tick, has left nothing due at the head of the queue. -/
inductive Run (due : α → ℕ) (polls : ℕ → Prop) : ℕ → List α → List (ℕ × α) → List α → Prop
  | start (now : ℕ) : Run due polls now [] [] []
  | post {now : ℕ} {posted waiting : List α} {taken : List (ℕ × α)} {a : α}
      (run : Run due polls now posted taken waiting) (later : now < due a) (polled : polls (due a))
      (ordered : ∀ b ∈ waiting, due b ≤ due a) :
      Run due polls now (posted ++ [a]) taken (waiting ++ [a])
  | take {now : ℕ} {posted waiting : List α} {taken : List (ℕ × α)} {a : α}
      (run : Run due polls now posted taken (a :: waiting)) (ready : due a ≤ now) :
      Run due polls now posted (taken ++ [(now, a)]) waiting
  | tick {now : ℕ} {posted waiting : List α} {taken : List (ℕ × α)}
      (run : Run due polls now posted taken waiting)
      (drained : polls now → ∀ a ∈ waiting.head?, now < due a) :
      Run due polls (now + 1) posted taken waiting

/-- Everything posted has been taken in order when it was due, or still waits for that. -/
structure Kept (due : α → ℕ) (polls : ℕ → Prop) (now : ℕ) (posted : List α)
    (taken : List (ℕ × α)) (waiting : List α) : Prop where
  order : posted = taken.map Prod.snd ++ waiting
  punctual : ∀ x ∈ taken, x.1 = due x.2
  ahead : ∀ a ∈ waiting, now ≤ due a
  sorted : waiting.Pairwise fun a b => due a ≤ due b
  polled : ∀ a ∈ waiting, polls (due a)

/-- If the head is not due, nothing is. -/
theorem lt_due_of_head (hsorted : waiting.Pairwise fun a b => due a ≤ due b)
    (hhead : ∀ a ∈ waiting.head?, now < due a) : ∀ a ∈ waiting, now < due a := by
  cases waiting with
  | nil => simp
  | cons first rest =>
    have hfirst : now < due first := hhead first rfl
    intro a ha
    rcases List.mem_cons.1 ha with rfl | ha
    · exact hfirst
    · exact hfirst.trans_le ((List.pairwise_cons.1 hsorted).1 a ha)

theorem Kept.tick (h : Kept due polls now posted taken waiting)
    (hdrained : polls now → ∀ a ∈ waiting.head?, now < due a) :
    Kept due polls (now + 1) posted taken waiting := by
  refine { h with ahead := fun a ha => ?_ }
  rcases (h.ahead a ha).lt_or_eq with hlt | heq
  · exact hlt
  · have hpolls : polls now := heq ▸ h.polled a ha
    exact lt_due_of_head h.sorted (hdrained hpolls) a ha

theorem kept (run : Run due polls now posted taken waiting) :
    Kept due polls now posted taken waiting := by
  induction run with
  | start now => exact ⟨rfl, by simp, by simp, List.Pairwise.nil, by simp⟩
  | @post now posted waiting taken a run later polled ordered ih =>
    refine
      { order := by rw [ih.order, List.append_assoc]
        punctual := ih.punctual
        ahead := ?_
        sorted := ?_
        polled := ?_ }
    · intro b hb
      rcases List.mem_append.1 hb with hb | hb
      · exact ih.ahead b hb
      · rw [List.mem_singleton.1 hb]
        exact later.le
    · rw [List.pairwise_append]
      refine ⟨ih.sorted, List.pairwise_singleton .., fun b hb c hc => ?_⟩
      rw [List.mem_singleton.1 hc]
      exact ordered b hb
    · intro b hb
      rcases List.mem_append.1 hb with hb | hb
      · exact ih.polled b hb
      · rw [List.mem_singleton.1 hb]
        exact polled
  | @take now posted waiting taken a run ready ih =>
    have hdue : due a = now := le_antisymm ready (ih.ahead a List.mem_cons_self)
    refine
      { order := by rw [ih.order, List.map_append, List.append_assoc]; rfl
        punctual := ?_
        ahead := fun b hb => ih.ahead b (List.mem_cons_of_mem _ hb)
        sorted := (List.pairwise_cons.1 ih.sorted).2
        polled := fun b hb => ih.polled b (List.mem_cons_of_mem _ hb) }
    intro x hx
    rcases List.mem_append.1 hx with hx | hx
    · exact ih.punctual x hx
    · rw [List.mem_singleton.1 hx]
      exact hdue.symm
  | tick run drained ih => exact ih.tick drained

end Delay

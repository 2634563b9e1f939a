import Mathlib.Data.List.Basic

/-!
# Simulation with events that are seen early

A machine makes steps, and of each of them some events are seen. One machine simulates another
when every step of the other can be answered with steps of its own. Here the events of the
machine that is simulated may be ahead: those that the simulating machine still owes are a
parameter of the relation, and it catches up when it can.

## Main definitions

* `Runs` — the steps of a machine, with the events that are seen of all of them.
* `Simulates` — a relation that every step keeps, up to the events that are owed.
* `Simulates.runs` — what is seen of a run is seen of a run of the simulating machine.
-/
namespace Qsbit

/-- A run of a machine. -/
inductive Runs {ε σ : Type*} (step : σ → List ε → σ → Prop) (s : σ) : List ε → σ → Prop
  | start : Runs step s [] s
  | next {l l' : List ε} {s₁ s₂ : σ} (run : Runs step s l s₁) (last : step s₁ l' s₂) :
      Runs step s (l ++ l') s₂

namespace Runs
variable {ε σ : Type*} {step : σ → List ε → σ → Prop} {s s₁ s₂ : σ} {l l' : List ε}

theorem single (h : step s l s₁) : Runs step s l s₁ := by
  have run := Runs.start.next h
  rwa [List.nil_append] at run

theorem append (run : Runs step s l s₁) (run' : Runs step s₁ l' s₂) :
    Runs step s (l ++ l') s₂ := by
  induction run' with
  | start => rwa [List.append_nil]
  | next _ last ih =>
    rw [← List.append_assoc]
    exact ih.next last

/-- What every step keeps, a run keeps. -/
theorem keeps {P : σ → Prop} (hstep : ∀ {s l s'}, step s l s' → P s → P s')
    (run : Runs step s l s₁) (h : P s) : P s₁ := by
  induction run with
  | start => exact h
  | next _ last ih => exact hstep last ih

end Runs

/-- Steps of the first machine are answered by runs of the second. -/
def Simulates {ε σ τ : Type*} (step : σ → List ε → σ → Prop) (step' : τ → List ε → τ → Prop)
    (R : List ε → σ → τ → Prop) : Prop :=
  ∀ ⦃owed : List ε⦄ ⦃s s' : σ⦄ ⦃t : τ⦄ ⦃l : List ε⦄, R owed s t → step s l s' →
    ∃ seen owed' t', Runs step' t seen t' ∧ owed ++ l = seen ++ owed' ∧ R owed' s' t'

namespace Simulates
variable {ε σ τ : Type*} {step : σ → List ε → σ → Prop} {step' : τ → List ε → τ → Prop}
  {R : List ε → σ → τ → Prop} {s s' : σ} {t : τ} {l owed : List ε}

/-- The events of a run are those of a run of the simulating machine, and what it still owes. -/
theorem runs (h : Simulates step step' R) (hrel : R owed s t) (run : Runs step s l s') :
    ∃ seen owed' t', Runs step' t seen t' ∧ owed ++ l = seen ++ owed' ∧ R owed' s' t' := by
  induction run with
  | start => exact ⟨[], owed, t, .start, List.append_nil _, hrel⟩
  | next _ last ih =>
    obtain ⟨seen, owed₁, t₁, hrun, hevents, hrel₁⟩ := ih
    obtain ⟨seen', owed₂, t₂, hrun', hevents', hrel₂⟩ := h hrel₁ last
    refine ⟨seen ++ seen', owed₂, t₂, hrun.append hrun', ?_, hrel₂⟩
    rw [← List.append_assoc, hevents, List.append_assoc, hevents', List.append_assoc]

end Simulates
end Qsbit

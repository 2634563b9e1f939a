import Qsbit.Time

/-!
# Faults outside a list

A claim that some faults are unreachable is about all the checks that a procedure
makes. A check is harmless when its own fault is not among them; what is left are
the few checks whose condition has to be known, and the faults of code that is a
parameter.

## Main definitions

* `Outside` — a fault that is not in the list, unless it comes from elsewhere.
-/
namespace Qsbit

/-- A fault that is not in the list, unless it comes from elsewhere. -/
def Outside (faults : List Fault) (elsewhere : Fault → Prop) (f : Fault) : Prop :=
  f ∈ faults → elsewhere f

theorem require_faultsIn {P : Fault → Prop} {p : Prop} [Decidable p] {code : ErrorCode}
    {message : String} (h : p) : (require p code message).FaultsIn P :=
  .of_ok (a := ()) (require_eq_ok_iff.2 h)

namespace Outside
variable {faults : List Fault} {elsewhere : Fault → Prop}

theorem of_code {f : Fault} (h : ∀ g ∈ faults, g.code ≠ f.code) : Outside faults elsewhere f :=
  fun hf => absurd rfl (h f hf)

theorem require {p : Prop} [Decidable p] {code : ErrorCode} {message : String}
    (h : ⟨code, message⟩ ∉ faults) : (require p code message).FaultsIn (Outside faults elsewhere) := by
  intro f hf
  obtain ⟨-, rfl⟩ := require_eq_error_iff.1 hf
  exact fun hmem => absurd hmem h

theorem error {α : Type} {f : Fault} (h : f ∉ faults) :
    (.error f : Except Fault α).FaultsIn (Outside faults elsewhere) := by
  intro g hg
  obtain rfl := Except.error.inj hg
  exact fun hmem => absurd hmem h

theorem checkedAdd {a b : ℕ} (h : ⟨.timeOverflow, "tick addition overflow"⟩ ∉ faults) :
    (checkedAdd a b).FaultsIn (Outside faults elsewhere) := by
  intro f hf
  rw [code_of_checkedAdd hf]
  exact fun hmem => absurd hmem h

end Outside
end Qsbit

import Qsbit.Error
import Mathlib.Tactic.Ring
import Mathlib.Tactic.Linarith

/-!
# Ticks, clocks and checked arithmetic

The source's `Tick`, `Id`, `Epoch` and `TcuCycle` are 64-bit. They are naturals
here: `checkedAdd` and `checkedMul` fault where the source's do, and the plain
unsigned subtractions of the source are `wrapSub`, which goes through `2 ^ 64`
when it underflows.

## Main definitions

* `checkedAdd`, `checkedMul`, `wrapSub` — 64-bit arithmetic.
* `Clock` — a period and a phase; `Clock.edge`, `Clock.after`.
* `Clock.Valid` — what `Clock.validate` accepts.
-/
namespace Qsbit

/-- `std::numeric_limits<Tick>::max()`. -/
def maxTick : ℕ := 2 ^ 64 - 1

def checkedAdd (a b : ℕ) : Except Fault ℕ := do
  require (b ≤ maxTick - a) .timeOverflow "tick addition overflow"
  pure (a + b)

def checkedMul (a b : ℕ) : Except Fault ℕ := do
  require (a = 0 ∨ b ≤ maxTick / a) .timeOverflow "tick multiplication overflow"
  pure (a * b)

/-- Unsigned subtraction, of 64 bits unless told otherwise. -/
def wrapSub (a b : ℕ) (width : ℕ := 64) : ℕ := if b ≤ a then a - b else a + 2 ^ width - b

theorem wrapSub_of_le {a b w : ℕ} (h : b ≤ a) : wrapSub a b w = a - b := if_pos h

theorem eq_of_checkedAdd {a b c : ℕ} (h : checkedAdd a b = .ok c) : c = a + b := by
  simp only [checkedAdd, Except.bind_eq_ok_iff, Except.pure_eq_ok_iff] at h
  obtain ⟨_, _, h⟩ := h
  exact h.symm

theorem eq_of_checkedMul {a b c : ℕ} (h : checkedMul a b = .ok c) : c = a * b := by
  simp only [checkedMul, Except.bind_eq_ok_iff, Except.pure_eq_ok_iff] at h
  obtain ⟨_, _, h⟩ := h
  exact h.symm

/-- Checked arithmetic raises one fault code only. -/
theorem code_of_checkedAdd {a b : ℕ} {f : Fault} (h : checkedAdd a b = .error f) :
    f = ⟨.timeOverflow, "tick addition overflow"⟩ := by
  simp only [checkedAdd, Except.bind_eq_error_iff, require_eq_error_iff, Except.pure_ne_error,
    and_false, exists_false, or_false] at h
  exact h.2.symm

theorem code_of_checkedMul {a b : ℕ} {f : Fault} (h : checkedMul a b = .error f) :
    f = ⟨.timeOverflow, "tick multiplication overflow"⟩ := by
  simp only [checkedMul, Except.bind_eq_error_iff, require_eq_error_iff, Except.pure_ne_error,
    and_false, exists_false, or_false] at h
  exact h.2.symm

/-- A periodic clock: its edges are `phase`, `phase + period`, … -/
structure Clock where
  period : ℕ := 1
  phase : ℕ := 0
  deriving DecidableEq, Repr

namespace Clock

def validate (c : Clock) : Except Fault Unit :=
  require (0 < c.period ∧ c.phase < c.period) .invalidProfile "invalid clock period or phase"

/-- Whether the tick is an edge of the clock. -/
def edge (c : Clock) (t : ℕ) : Prop := c.phase ≤ t ∧ (t - c.phase) % c.period = 0

instance (c : Clock) (t : ℕ) : Decidable (c.edge t) :=
  inferInstanceAs (Decidable (c.phase ≤ t ∧ (t - c.phase) % c.period = 0))

/-- The `latency`-th edge strictly after the publication tick. -/
def after (c : Clock) (publication : ℕ) (latency : ℕ := 1) : Except Fault ℕ := do
  c.validate
  require (0 < latency) .invalidProfile "receiver-edge latency must be positive"
  let first ← (if c.phase ≤ publication then do
      let edges ← checkedAdd ((publication - c.phase) / c.period) 1
      checkedAdd c.phase (← checkedMul edges c.period)
    else pure c.phase)
  checkedAdd first (← checkedMul (latency - 1) c.period)

/-- A clock that `validate` accepts. -/
structure Valid (c : Clock) : Prop where
  period_pos : 0 < c.period
  phase_lt : c.phase < c.period

theorem validate_eq_ok_iff {c : Clock} : c.validate = .ok () ↔ c.Valid := by
  simp only [validate, require_eq_ok_iff]
  exact ⟨fun h => ⟨h.1, h.2⟩, fun h => ⟨h.1, h.2⟩⟩

/-! ## Edges -/

theorem edge_iff {c : Clock} {t : ℕ} : c.edge t ↔ ∃ n, t = c.phase + c.period * n := by
  constructor
  · rintro ⟨hp, hm⟩
    obtain ⟨n, hn⟩ := Nat.dvd_of_mod_eq_zero hm
    exact ⟨n, by omega⟩
  · rintro ⟨n, rfl⟩
    exact ⟨by omega, by simp⟩

theorem edge_add {c : Clock} {t : ℕ} (h : c.edge t) (n : ℕ) : c.edge (t + c.period * n) := by
  obtain ⟨m, rfl⟩ := edge_iff.1 h
  exact edge_iff.2 ⟨m + n, by ring⟩

/-- `after` yields an edge strictly later than the publication. -/
theorem edge_of_after {c : Clock} {p t : ℕ} {n : ℕ} (h : c.after p n = .ok t) :
    c.edge t ∧ p < t := by
  simp only [after, Except.bind_eq_ok_iff, require_eq_ok_iff] at h
  obtain ⟨_, hv, _, -, first, hf, d, hd, ht⟩ := h
  have hvalid := validate_eq_ok_iff.1 hv
  have hd' := eq_of_checkedMul hd
  have ht' := eq_of_checkedAdd ht
  have hfirst : c.edge first ∧ p < first := by
    split at hf
    · rename_i hp
      simp only [Except.bind_eq_ok_iff] at hf
      obtain ⟨e, he, m, hm, hfm⟩ := hf
      have he' := eq_of_checkedAdd he
      have hm' := eq_of_checkedMul hm
      have hf' := eq_of_checkedAdd hfm
      refine ⟨edge_iff.2 ⟨e, by rw [hf', hm', Nat.mul_comm]⟩, ?_⟩
      have hlt : p - c.phase < c.period * ((p - c.phase) / c.period + 1) := by
        have := Nat.div_add_mod (p - c.phase) c.period
        have := Nat.mod_lt (p - c.phase) hvalid.period_pos
        rw [Nat.mul_add]
        omega
      rw [hf', hm', he', Nat.mul_comm]
      omega
    · rename_i hp
      simp only [Except.pure_eq_ok_iff] at hf
      exact ⟨edge_iff.2 ⟨0, by omega⟩, by omega⟩
  have hdm : t = first + c.period * (n - 1) := by rw [ht', hd', Nat.mul_comm]
  subst hdm
  exact ⟨edge_add hfirst.1 _, by omega⟩

end Clock
end Qsbit

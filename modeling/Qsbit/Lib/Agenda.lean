import Mathlib.Data.List.Basic
import Mathlib.Data.List.Induction
import Mathlib.Order.Nat
import Mathlib.Tactic.Common

/-!
# An agenda that can be frozen

An agenda is a clock and a list of waiting entries, each with a key. On a tick
that is not frozen the head fires if its key is the clock, and the clock moves
on. On a frozen tick nothing fires and the clock stands still. On any tick an
entry may be added behind the others; it must not be due already, except that it
may be due now while the clock is frozen.

An entry then fires on exactly one tick, the one that is not frozen and at which
the clock is its key, whatever the pattern of frozen ticks.

## Main definitions

* `Agenda`, `Tick` — the state, and what happens on one tick.
* `Agenda.Advance`, `Agenda.Trace` — one tick, and a sequence of ticks.
* `Agenda.Trace.conserve` — entries are neither lost nor made up nor reordered.
* `Agenda.Trace.fired_iff` — when an entry fires.
-/

structure Agenda (α : Type) where
  clock : ℕ
  waiting : List α

namespace Agenda
variable {α : Type}

/-- What happens on one tick. -/
structure Tick (α : Type) where
  frozen : Bool
  fired : Option α
  added : Option α

/-- One tick of an agenda. -/
structure Advance (key : α → ℕ) (a : Agenda α) (r : Tick α) (b : Agenda α) : Prop where
  fires : ∀ x, r.fired = some x ↔ r.frozen = false ∧ a.waiting.head? = some x ∧ key x = a.clock
  behind : ∀ x ∈ r.added, ∀ y ∈ a.waiting, key y < key x
  ahead : ∀ x ∈ r.added, a.clock < key x ∨ r.frozen = true ∧ a.clock = key x
  waiting : b.waiting = (if r.fired.isSome then a.waiting.tail else a.waiting) ++ r.added.toList
  clock : b.clock = if r.frozen then a.clock else a.clock + 1

/-- A sequence of ticks. -/
inductive Trace (key : α → ℕ) (a : Agenda α) : List (Tick α) → Agenda α → Prop
  | nil : Trace key a [] a
  | snoc {rs : List (Tick α)} {b c : Agenda α} {r : Tick α} (h : Trace key a rs b)
      (hr : Advance key b r c) : Trace key a (rs ++ [r]) c

/-- The waiting entries stand in the order of their keys, and none is overdue. -/
structure Ready (key : α → ℕ) (a : Agenda α) : Prop where
  sorted : a.waiting.Pairwise fun x y => key x < key y
  clock_le : ∀ x ∈ a.waiting, a.clock ≤ key x

theorem ready_nil (key : α → ℕ) (clock : ℕ) : Ready key ⟨clock, []⟩ := ⟨.nil, by simp⟩

variable {key : α → ℕ} {a b c : Agenda α} {r : Tick α} {rs : List (Tick α)} {x : α}

namespace Ready

/-- Everything behind the head is due later than the head. -/
theorem lt_of_mem_tail (h : Ready key a) : ∀ x ∈ a.waiting.tail, a.clock < key x := by
  intro x hx
  cases hw : a.waiting with
  | nil => simp [hw] at hx
  | cons y ys =>
    rw [hw, List.tail_cons] at hx
    have hsorted := h.sorted
    rw [hw, List.pairwise_cons] at hsorted
    have hle := h.clock_le y (by simp [hw])
    have hlt := hsorted.1 x hx
    omega

/-- An entry that is due now is the head. -/
theorem head_of_due (h : Ready key a) (hx : x ∈ a.waiting) (hk : key x = a.clock) :
    a.waiting.head? = some x := by
  cases hw : a.waiting with
  | nil => simp [hw] at hx
  | cons y ys =>
    rw [hw, List.mem_cons] at hx
    rcases hx with rfl | hx
    · rfl
    · have := h.lt_of_mem_tail x (by simpa [hw] using hx)
      omega

/-- A tick leaves an agenda ready. -/
theorem advance (h : Ready key a) (hr : Advance key a r b) : Ready key b := by
  have hkept : ∀ x ∈ (if r.fired.isSome then a.waiting.tail else a.waiting), x ∈ a.waiting := by
    intro x hx
    split at hx
    · exact List.mem_of_mem_tail hx
    · exact hx
  constructor
  · rw [hr.waiting, List.pairwise_append]
    refine ⟨?_, ?_, fun x hx y hy => hr.behind y (by simpa using hy) x (hkept x hx)⟩
    · split
      · exact h.sorted.sublist (List.tail_sublist _)
      · exact h.sorted
    · cases r.added <;> simp
  · intro x hx
    rw [hr.waiting, List.mem_append] at hx
    rw [hr.clock]
    rcases hx with hx | hx
    · have hle := h.clock_le x (hkept x hx)
      split
      · exact hle
      · rename_i hfrozen
        rw [Bool.not_eq_true] at hfrozen
        -- The clock moves on: an entry that was due now has fired.
        rcases Nat.lt_or_eq_of_le hle with hlt | heq
        · exact hlt
        · have hhead := h.head_of_due (hkept x hx) heq.symm
          have hfired : r.fired = some x := (hr.fires x).2 ⟨hfrozen, hhead, heq.symm⟩
          rw [hfired, Option.isSome_some, if_pos rfl] at hx
          exact h.lt_of_mem_tail x hx
    · have hadded : x ∈ r.added := by simpa using hx
      rcases hr.ahead x hadded with hlt | ⟨hfrozen, heq⟩
      · split <;> omega
      · rw [if_pos hfrozen]
        exact heq.le

end Ready

namespace Trace

theorem ready (ht : Trace key a rs b) (h : Ready key a) : Ready key b := by
  induction ht with
  | nil => exact h
  | snoc _ hr ih => exact ih.advance hr

/-- The clock counts the ticks that are not frozen. -/
theorem clock (ht : Trace key a rs b) : b.clock = a.clock + rs.countP (!·.frozen) := by
  induction ht with
  | nil => simp
  | snoc _ hr ih =>
    rename_i rs b c r _
    rw [hr.clock, ih, List.countP_append, List.countP_singleton]
    cases r.frozen <;> simp [Nat.add_assoc]

/-- Entries leave in the order in which they arrived, and none is lost. -/
theorem conserve (ht : Trace key a rs b) :
    a.waiting ++ rs.filterMap (·.added) = rs.filterMap (·.fired) ++ b.waiting := by
  induction ht with
  | nil => simp
  | snoc _ hr ih =>
    rename_i rs b c r _
    have hsplit : b.waiting = r.fired.toList ++
        (if r.fired.isSome then b.waiting.tail else b.waiting) := by
      cases hf : r.fired with
      | none => simp
      | some x =>
        obtain ⟨-, hhead, -⟩ := (hr.fires x).1 hf
        cases hw : b.waiting with
        | nil => simp [hw] at hhead
        | cons y ys =>
          rw [hw, List.head?_cons, Option.some.injEq] at hhead
          simp [hhead]
    have hfired : [r].filterMap (·.fired) = r.fired.toList := by cases h : r.fired <;> simp [h]
    have hadded : [r].filterMap (·.added) = r.added.toList := by cases h : r.added <;> simp [h]
    rw [List.filterMap_append, List.filterMap_append, ← List.append_assoc, ih, hr.waiting, hfired,
      hadded]
    conv_lhs => rw [hsplit]
    simp only [List.append_assoc]

/-- What has fired was due before the clock. -/
theorem key_lt_of_fired (ht : Trace key a rs b) : ∀ x ∈ rs.filterMap (·.fired), key x < b.clock := by
  induction ht with
  | nil => simp
  | snoc _ hr ih =>
    rename_i rs b c r _
    intro x hx
    rw [List.filterMap_append, List.mem_append] at hx
    have hle : b.clock ≤ c.clock := by rw [hr.clock]; split <;> omega
    rcases hx with hx | hx
    · exact (ih x hx).trans_le hle
    · have hfired : r.fired = some x := by simpa using hx
      obtain ⟨hfrozen, -, hkey⟩ := (hr.fires x).1 hfired
      rw [hr.clock, hfrozen, hkey]
      simp

/-- What is added is not overdue when it is added. -/
theorem clock_le_of_added (ht : Trace key a rs b) : ∀ x ∈ rs.filterMap (·.added), a.clock ≤ key x := by
  induction ht with
  | nil => simp
  | snoc h hr ih =>
    rename_i rs b c r
    intro x hx
    rw [List.filterMap_append, List.mem_append] at hx
    rcases hx with hx | hx
    · exact ih x hx
    · have hadded : x ∈ r.added := by simpa using hx
      have := h.clock
      rcases hr.ahead x hadded with hlt | ⟨-, heq⟩ <;> omega

/-- A trace splits wherever its ticks split. -/
theorem of_append {rs₁ rs₂ : List (Tick α)} (ht : Trace key a (rs₁ ++ rs₂) c) :
    ∃ b, Trace key a rs₁ b ∧ Trace key b rs₂ c := by
  induction rs₂ using List.reverseRecOn generalizing c with
  | nil => exact ⟨c, by simpa using ht, .nil⟩
  | append_singleton rs₂ r ih =>
    rw [← List.append_assoc] at ht
    generalize hrs : rs₁ ++ rs₂ ++ [r] = rs at ht
    cases ht with
    | nil => simp at hrs
    | snoc h hr =>
      obtain ⟨rfl, hr'⟩ := List.append_inj' hrs rfl
      obtain rfl := List.singleton_inj.1 hr'
      obtain ⟨b, h₁, h₂⟩ := ih h
      exact ⟨b, h₁, .snoc h₂ hr⟩

/-- A trace passes through every one of its ticks. -/
theorem of_append_cons {pre post : List (Tick α)} (ht : Trace key a (pre ++ r :: post) c) :
    ∃ b b', Trace key a pre b ∧ Advance key b r b' ∧ Trace key b' post c := by
  obtain ⟨b, hpre, hrest⟩ := ht.of_append
  obtain ⟨b', hone, hpost⟩ : ∃ b', Trace key b [r] b' ∧ Trace key b' post c := of_append hrest
  refine ⟨b, b', hpre, ?_, hpost⟩
  generalize hrs : [r] = rs at hone
  cases hone with
  | nil => simp at hrs
  | snoc h₁ h₂ =>
    obtain ⟨hnil, hr'⟩ := List.append_inj' (show [] ++ [r] = _ from hrs) rfl
    obtain rfl := List.singleton_inj.1 hr'
    subst hnil
    generalize hnil : ([] : List (Tick α)) = rs at h₁
    cases h₁ with
    | nil => exact h₂
    | snoc => simp at hnil

/-- An entry fires only on a tick after the one on which it was added. -/
theorem mem_of_fired {pre post : List (Tick α)} (ht : Trace key a (pre ++ r :: post) c)
    (hf : r.fired = some x) : x ∈ a.waiting ++ pre.filterMap (·.added) := by
  obtain ⟨b, b', hpre, hr, -⟩ := ht.of_append_cons
  obtain ⟨-, hhead, -⟩ := (hr.fires x).1 hf
  rw [hpre.conserve]
  exact List.mem_append_right _ (List.mem_of_mem_head? hhead)

/-- An entry fires on a tick exactly when the tick is not frozen and the clock is its key:
neither on another tick nor, if it is in the agenda at any time, never. -/
theorem fired_iff {pre post : List (Tick α)} (ht : Trace key a (pre ++ r :: post) c)
    (h : Ready key a) (x : α) :
    r.fired = some x ↔ r.frozen = false ∧
      x ∈ a.waiting ++ (pre ++ r :: post).filterMap (·.added) ∧
      key x = a.clock + pre.countP (!·.frozen) := by
  obtain ⟨b, b', hpre, hr, hpost⟩ := ht.of_append_cons
  rw [← hpre.clock]
  have hready := hpre.ready h
  constructor
  · intro hf
    obtain ⟨hfrozen, -, hkey⟩ := (hr.fires x).1 hf
    refine ⟨hfrozen, ?_, hkey⟩
    rw [List.filterMap_append, ← List.append_assoc]
    exact List.mem_append_left _ (ht.mem_of_fired hf)
  · rintro ⟨hfrozen, hmem, hkey⟩
    rw [List.filterMap_append, ← List.append_assoc, hpre.conserve, List.mem_append,
      List.mem_append] at hmem
    rcases hmem with (hfired | hwaiting) | hlater
    · have := hpre.key_lt_of_fired x hfired
      omega
    · exact (hr.fires x).2 ⟨hfrozen, hready.head_of_due hwaiting hkey, hkey⟩
    · -- Whatever arrives from this tick on is due later.
      have hnext := hr.clock
      rw [hfrozen] at hnext
      simp only [Bool.false_eq_true, if_false] at hnext
      rw [← List.singleton_append, List.filterMap_append, List.mem_append] at hlater
      rcases hlater with hadded | hadded
      · have hx : x ∈ r.added := by simpa using hadded
        rcases hr.ahead x hx with hlt | ⟨hf, -⟩
        · omega
        · simp [hfrozen] at hf
      · have := hpost.clock_le_of_added x hadded
        omega

/-- An entry whose key has passed has fired. -/
theorem fired_of_key_lt (ht : Trace key a rs b) (h : Ready key a)
    (hx : x ∈ a.waiting ++ rs.filterMap (·.added)) (hk : key x < b.clock) :
    x ∈ rs.filterMap (·.fired) := by
  rw [ht.conserve, List.mem_append] at hx
  rcases hx with hx | hx
  · exact hx
  · have := (ht.ready h).clock_le x hx
    omega

end Trace
end Agenda

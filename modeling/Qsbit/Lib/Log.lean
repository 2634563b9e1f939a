import Mathlib.Order.Nat
import Mathlib.Tactic.Common

/-!
# A log whose stamps do not decrease

Records may carry a time stamp. A log takes a record when its stamp is not below the stamp
of the last record that has one; a record without a stamp is always taken. What a log takes
depends on what is in it through that last stamp alone.

## Main definitions

* `Stamped` — records with a time stamp, if they carry one.
* `Log.Allowed` — a record may follow a stamp.
* `Log.latest` — the last stamp after some more records.
* `Log.Ordered` — records that a log takes one after the other.
-/

/-- Records that may carry a time stamp. -/
class Stamped (ρ : Type) where
  stamp : ρ → Option ℕ

namespace Log
variable {ρ ρ' : Type} [Stamped ρ] [Stamped ρ'] {last now : ℕ} {r : ρ} {l l' : List ρ}

/-- The record may follow a record with the given stamp. -/
def Allowed (last : ℕ) (r : ρ) : Prop := ∀ t ∈ Stamped.stamp r, last ≤ t

instance : Decidable (Allowed last r) :=
  inferInstanceAs (Decidable (∀ t ∈ Stamped.stamp r, last ≤ t))

/-- The last stamp after one more record. -/
def after (last : ℕ) (r : ρ) : ℕ := (Stamped.stamp r).getD last

/-- The last stamp after some more records. -/
def latest (last : ℕ) (l : List ρ) : ℕ := l.foldl after last

/-- The records may follow the stamp one after the other. -/
def Ordered (last : ℕ) : List ρ → Prop
  | [] => True
  | r :: rest => Allowed last r ∧ Ordered (after last r) rest

@[simp] theorem latest_nil : latest last ([] : List ρ) = last := rfl

theorem latest_cons : latest last (r :: l) = latest (after last r) l := rfl

theorem latest_append : latest last (l ++ l') = latest (latest last l) l' := List.foldl_append

@[simp] theorem ordered_nil : Ordered last ([] : List ρ) := trivial

theorem ordered_cons : Ordered last (r :: l) ↔ Allowed last r ∧ Ordered (after last r) l := Iff.rfl

theorem ordered_append : Ordered last (l ++ l') ↔ Ordered last l ∧ Ordered (latest last l) l' := by
  induction l generalizing last with
  | nil => simp
  | cons r rest ih => simp [ordered_cons, ih, latest_cons, and_assoc]

/-- A change of the records that keeps their stamps keeps their order. -/
theorem ordered_map {f : ρ → ρ'} (hf : ∀ r, Stamped.stamp (f r) = Stamped.stamp r) :
    Ordered last (l.map f) ↔ Ordered last l := by
  induction l generalizing last with
  | nil => exact Iff.rfl
  | cons r rest ih =>
    simp only [List.map_cons, ordered_cons, Allowed, after, hf, ih]

/-- Whatever carries a stamp carries this one. -/
def At (now : ℕ) (r : ρ) : Prop := ∀ t ∈ Stamped.stamp r, t = now

theorem At.of_stamp (h : Stamped.stamp r = some now) : At now r := by
  intro t ht
  rw [h] at ht
  exact (Option.some.inj ht).symm

theorem Allowed.of_at (h : At now r) (hlast : last ≤ now) : Allowed last r := by
  intro t ht
  rwa [h t ht]

theorem after_le (h : At now r) (hlast : last ≤ now) : after last r ≤ now := by
  unfold after
  cases hstamp : Stamped.stamp r with
  | none => exact hlast
  | some t => exact (h t hstamp).le

/-- Records of one time that is not in the past are in order. -/
theorem Ordered.of_at (h : ∀ r ∈ l, At now r) (hlast : last ≤ now) : Ordered last l := by
  induction l generalizing last with
  | nil => trivial
  | cons r rest ih =>
    obtain ⟨hr, hrest⟩ := List.forall_mem_cons.1 h
    exact ⟨.of_at hr hlast, ih hrest (after_le hr hlast)⟩

/-- The last stamp does not pass the time of the records. -/
theorem latest_le (h : ∀ r ∈ l, At now r) (hlast : last ≤ now) : latest last l ≤ now := by
  induction l generalizing last with
  | nil => exact hlast
  | cons r rest ih =>
    obtain ⟨hr, hrest⟩ := List.forall_mem_cons.1 h
    exact ih hrest (after_le hr hlast)

theorem le_after (h : Allowed last r) : last ≤ after last r := by
  unfold after
  cases hstamp : Stamped.stamp r with
  | none => exact le_rfl
  | some t => exact h t hstamp

theorem le_latest (h : Ordered last l) : last ≤ latest last l := by
  induction l generalizing last with
  | nil => exact le_rfl
  | cons r rest ih => exact (le_after h.1).trans (ih h.2)

/-- The last stamp is the greatest. -/
theorem stamp_le_latest (h : Ordered last l) (hr : r ∈ l) {t : ℕ} (ht : t ∈ Stamped.stamp r) :
    t ≤ latest last l := by
  induction l generalizing last with
  | nil => simp at hr
  | cons first rest ih =>
    rcases List.mem_cons.1 hr with rfl | hr
    · have hafter : after last r = t := by rw [after, ht, Option.getD_some]
      rw [latest_cons, ← hafter]
      exact le_latest h.2
    · exact ih h.2 hr

end Log

/-- Nothing is logged, so nothing carries a stamp. -/
instance : Stamped Empty where
  stamp r := r.elim

import Mathlib.Data.List.Basic
import Mathlib.Data.Int.Notation

/-!
# JSON values

Values as a JSON library keeps them in memory: integers with and without sign apart, the
members of an object in the order of their names, each name once. What a double is does not
matter here, so it is a parameter.

## Main definitions

* `Json` — the values.
* `Json.make` — an object of the given members; the first one of a name counts.
* `Json.find?` — the member of a name.

## Main results

* `Json.find?_make` — a member is found as it was given.
* `Json.mem_make` — an object has no members but those it was given.
* `List.mapM_map_eq_ok` — elements written one by one are read back one by one.
-/
variable {φ : Type}

/-- A JSON value with doubles `φ`. -/
inductive Json (φ : Type)
  | null
  | boolean (value : Bool)
  | unsigned (value : ℕ)
  | integer (value : ℤ)
  | float (value : φ)
  | string (value : String)
  | array (values : List (Json φ))
  | object (members : List (String × Json φ))

namespace Json

/-- The member of an object that has the name. -/
def find? : Json φ → String → Option (Json φ)
  | .object members, key => (members.find? (·.1 = key)).map Prod.snd
  | _, _ => none

/-- Whether the value is an object that has a member of the name. -/
def contains (j : Json φ) (key : String) : Bool := (j.find? key).isSome

/-- Put a member in its place among the members of an object. -/
def assign (key : String) (value : Json φ) : List (String × Json φ) → List (String × Json φ)
  | [] => [(key, value)]
  | m :: rest =>
      if key = m.1 then (key, value) :: rest
      else if key.toList < m.1.toList then (key, value) :: m :: rest
      else m :: assign key value rest

/-- An object of the given members. -/
def make (members : List (String × Json φ)) : Json φ :=
  .object (members.foldr (fun m rest => assign m.1 m.2 rest) [])

theorem find?_assign (key name : String) (value : Json φ) (members : List (String × Json φ)) :
    ((assign key value members).find? (·.1 = name)).map Prod.snd =
      if key = name then some value else (members.find? (·.1 = name)).map Prod.snd := by
  induction members with
  | nil => by_cases h : key = name <;> simp [assign, h]
  | cons m rest ih =>
    rw [assign]
    by_cases hsame : key = m.1
    · rw [if_pos hsame]
      by_cases h : key = name
      · simp [h]
      · have hm : ¬ m.1 = name := hsame ▸ h
        simp [h, hm]
    · rw [if_neg hsame]
      by_cases hbefore : key.toList < m.1.toList
      · rw [if_pos hbefore]
        by_cases h : key = name <;> simp [h]
      · rw [if_neg hbefore]
        by_cases hm : m.1 = name
        · have h : ¬ key = name := fun heq => hsame (heq.trans hm.symm)
          simp [h, hm]
        · rw [List.find?_cons_of_neg (by simpa using hm),
            List.find?_cons_of_neg (by simpa using hm)]
          exact ih

/-- A member is found as it was given. -/
theorem find?_make (members : List (String × Json φ)) (name : String) :
    (make members).find? name = (members.find? (·.1 = name)).map Prod.snd := by
  induction members with
  | nil => rfl
  | cons m rest ih =>
    refine (find?_assign m.1 name m.2 _).trans ?_
    by_cases h : m.1 = name
    · simp [h]
    · rw [if_neg h, List.find?_cons_of_neg (by simpa using h)]
      exact ih

theorem mem_assign {key : String} {value : Json φ} {members : List (String × Json φ)}
    {m : String × Json φ} (h : m ∈ assign key value members) : m = (key, value) ∨ m ∈ members := by
  induction members with
  | nil => simpa [assign] using h
  | cons n rest ih =>
    rw [assign] at h
    by_cases hsame : key = n.1
    · rw [if_pos hsame] at h
      rcases List.mem_cons.1 h with h | h
      · exact .inl h
      · exact .inr (List.mem_cons_of_mem _ h)
    · rw [if_neg hsame] at h
      by_cases hbefore : key.toList < n.1.toList
      · rw [if_pos hbefore] at h
        exact List.mem_cons.1 h
      · rw [if_neg hbefore] at h
        rcases List.mem_cons.1 h with h | h
        · exact .inr (h ▸ List.mem_cons_self)
        · rcases ih h with h | h
          · exact .inl h
          · exact .inr (List.mem_cons_of_mem _ h)

/-- An object has no members but those it was given. -/
theorem mem_make {members : List (String × Json φ)} {m : String × Json φ}
    (h : m ∈ members.foldr (fun m rest => assign m.1 m.2 rest) []) : m ∈ members := by
  induction members with
  | nil => exact h
  | cons n rest ih =>
    rcases mem_assign h with h | h
    · exact h ▸ List.mem_cons_self
    · exact List.mem_cons_of_mem _ (ih h)

end Json

/-- Elements that are written one by one and read back one by one. -/
theorem List.mapM_map_eq_ok {ε α β : Type} {write : α → β} {read : β → Except ε α} (xs : List α)
    (h : ∀ x ∈ xs, read (write x) = .ok x) : (xs.map write).mapM read = .ok xs := by
  induction xs with
  | nil => rfl
  | cons x xs ih =>
    rw [List.map_cons, List.mapM_cons, h x List.mem_cons_self,
      ih fun y hy => h y (List.mem_cons_of_mem _ hy)]
    rfl

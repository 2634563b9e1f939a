import Mathlib.Data.List.Perm.Basic
import Mathlib.Data.List.Nodup
import Std.Data.ExtTreeMap

/-!
# A ledger of what is in flight

Items are entered into a map under their keys and then handed from place to place
until they are settled. The ledger says that the items in all places together are
exactly those of the map, each once. Whether an item is still owed can then be
read off the map, and the places can never hold more than the map does.

## Main definitions

* `Ledger` — the items in flight are the entries of a map.
* `Ledger.enter`, `Ledger.settle` — an item is entered, and settled.
* `Ledger.length_eq` — there are as many items as entries.
-/
open Std (ExtTreeMap TransCmp LawfulEqCmp)

/-- The items in flight are the entries of the map, each under its key. -/
structure Ledger {κ ρ : Type} {cmp : κ → κ → Ordering} [TransCmp cmp] (key : ρ → κ)
    (entries : ExtTreeMap κ ρ cmp) (flight : List ρ) : Prop where
  keyed : ∀ k r, entries[k]? = some r → key r = k
  nodup : (flight.map key).Nodup
  mem_iff : ∀ r, r ∈ flight ↔ entries[key r]? = some r

namespace Ledger
variable {κ ρ : Type} {cmp : κ → κ → Ordering} [TransCmp cmp] {key : ρ → κ}
  {entries : ExtTreeMap κ ρ cmp} {flight flight' : List ρ} {r : ρ}

theorem empty : Ledger key (∅ : ExtTreeMap κ ρ cmp) [] := by
  refine ⟨?_, List.nodup_nil, ?_⟩
  · intro k r h
    simp at h
  · intro r
    simp

/-- Handing items over changes nothing. -/
theorem perm (h : Ledger key entries flight) (hperm : flight.Perm flight') :
    Ledger key entries flight' where
  keyed := h.keyed
  nodup := (hperm.map key).nodup_iff.1 h.nodup
  mem_iff := fun r => hperm.mem_iff.symm.trans (h.mem_iff r)

theorem getElem? (h : Ledger key entries flight) (hr : r ∈ flight) : entries[key r]? = some r :=
  (h.mem_iff r).1 hr

section Update
variable [LawfulEqCmp cmp]

theorem enter (h : Ledger key entries flight) (hnew : key r ∉ entries) :
    Ledger key (entries.insertIfNew (key r) r) (r :: flight) := by
  have hnone : entries[key r]? = none := ExtTreeMap.getElem?_eq_none hnew
  have hself : (entries.insertIfNew (key r) r)[key r]? = some r := by
    rw [ExtTreeMap.getElem?_insertIfNew, if_pos ⟨Std.ReflCmp.compare_self, hnew⟩]
  have hother : ∀ k, k ≠ key r → (entries.insertIfNew (key r) r)[k]? = entries[k]? := by
    intro k hk
    rw [ExtTreeMap.getElem?_insertIfNew, if_neg]
    rintro ⟨heq, -⟩
    exact hk (Std.LawfulEqCmp.eq_of_compare heq).symm
  refine ⟨?_, ?_, ?_⟩
  · intro k r' hget
    by_cases hk : k = key r
    · subst hk
      rw [hself] at hget
      rw [Option.some.inj hget]
    · rw [hother k hk] at hget
      exact h.keyed k r' hget
  · rw [List.map_cons, List.nodup_cons]
    refine ⟨?_, h.nodup⟩
    intro hmem
    obtain ⟨r', hr', heq⟩ := List.mem_map.1 hmem
    have hsome := h.getElem? hr'
    rw [heq, hnone] at hsome
    simp at hsome
  · intro r'
    by_cases hk : key r' = key r
    · rw [hk, hself]
      have hold : r' ∉ flight := by
        intro hr'
        have hsome := h.getElem? hr'
        rw [hk, hnone] at hsome
        simp at hsome
      simp [hold, eq_comm]
    · rw [hother _ hk, List.mem_cons, h.mem_iff]
      have hne : r' ≠ r := fun heq => hk (by rw [heq])
      simp [hne]

/-- Enter items under new and different keys. -/
theorem enterAll {items : List ρ} (h : Ledger key entries flight)
    (hnew : ∀ r ∈ items, key r ∉ entries) (hnodup : (items.map key).Nodup) :
    Ledger key (items.foldl (fun es r => es.insertIfNew (key r) r) entries) (items ++ flight) := by
  induction items generalizing entries flight with
  | nil => exact h
  | cons r rest ih =>
    obtain ⟨hr, hrest⟩ := List.forall_mem_cons.1 hnew
    rw [List.map_cons, List.nodup_cons] at hnodup
    refine (ih (h.enter hr) ?_ hnodup.2).perm List.perm_middle
    intro r' hr' hmem
    rcases ExtTreeMap.mem_insertIfNew.1 hmem with heq | hmem
    · apply hnodup.1
      rw [Std.LawfulEqCmp.eq_of_compare heq]
      exact List.mem_map_of_mem hr'
    · exact hrest r' hr' hmem

theorem settle (h : Ledger key entries (r :: flight)) : Ledger key (entries.erase (key r)) flight := by
  have hnodup := h.nodup
  rw [List.map_cons, List.nodup_cons] at hnodup
  refine ⟨?_, hnodup.2, ?_⟩
  · intro k r' hget
    rw [ExtTreeMap.getElem?_erase] at hget
    split at hget
    · simp at hget
    · exact h.keyed k r' hget
  · intro r'
    rw [ExtTreeMap.getElem?_erase]
    by_cases hk : key r' = key r
    · have hold : r' ∉ flight := fun hr' => hnodup.1 (hk ▸ List.mem_map_of_mem hr')
      simp [hk, hold]
    · have hne : r' ≠ r := fun heq => hk (by rw [heq])
      have hcmp : cmp (key r) (key r') ≠ .eq := fun heq =>
        hk (Std.LawfulEqCmp.eq_of_compare heq).symm
      rw [if_neg hcmp, ← h.mem_iff, List.mem_cons]
      simp [hne]

end Update

/-- There are as many items in flight as entries. -/
theorem length_eq [LawfulEqCmp cmp] (h : Ledger key entries flight) : flight.length = entries.size := by
  have hperm : (flight.map key).Perm entries.keys := by
    rw [List.perm_ext_iff_of_nodup h.nodup ExtTreeMap.nodup_keys]
    intro k
    rw [ExtTreeMap.mem_keys, ExtTreeMap.mem_iff_isSome_getElem?, Option.isSome_iff_exists,
      List.mem_map]
    constructor
    · rintro ⟨r, hr, rfl⟩
      exact ⟨r, h.getElem? hr⟩
    · rintro ⟨r, hr⟩
      obtain rfl := h.keyed k r hr
      exact ⟨r, (h.mem_iff r).2 hr, rfl⟩
  rw [← List.length_map key, hperm.length_eq, ExtTreeMap.length_keys]

/-- No place holds more items than there are entries. -/
theorem length_le [LawfulEqCmp cmp] (h : Ledger key entries flight) {place : List ρ}
    (hplace : place.Sublist flight) : place.length ≤ entries.size :=
  h.length_eq ▸ hplace.length_le

end Ledger

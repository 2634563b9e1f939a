import Mathlib.Data.List.Basic
import Mathlib.Data.List.TakeWhile
import Mathlib.Tactic.Common

/-!
# A queue stored as one list per bucket

`spread n k l` distributes a list over `n` buckets by a key, keeping the order in
each bucket. Appending to the list is appending to the buckets of the new
elements, and removing a leading segment that a predicate recognises is removing
the leading elements it recognises from every bucket.

## Main definitions

* `spread` — the buckets of a list.
* `spread_append`, `map_dropWhile_spread`, `flatten_spread_perm` — the laws above, and that
  the buckets together hold the list.
-/
namespace Buckets
variable {α : Type}

/-- The buckets of `l` under the key `k`. -/
def spread (n : ℕ) (k : α → ℕ) (l : List α) : List (List α) :=
  (List.range n).map fun p => l.filter fun x => k x = p

variable {n : ℕ} {k : α → ℕ}

@[simp] theorem length_spread (l : List α) : (spread n k l).length = n := by simp [spread]

@[simp] theorem spread_nil : spread n k [] = List.replicate n [] := by
  simp [spread, List.map_const']

theorem mem_spread {l b : List α} :
    b ∈ spread n k l ↔ ∃ p < n, l.filter (fun x => k x = p) = b := by
  simp [spread]

/-- Every bucket stands at its own key. -/
theorem mem_zipIdx_spread {l : List α} {p : ℕ} (hp : p < n) :
    (l.filter (fun x => k x = p), p) ∈ (spread n k l).zipIdx := by
  rw [List.mk_mem_zipIdx_iff_getElem?]
  simp [spread, hp]

/-- Appending one element changes its own bucket. -/
theorem modify_spread (l : List α) (x : α) :
    (spread n k l).modify (k x) (· ++ [x]) = spread n k (l ++ [x]) := by
  refine List.ext_getElem (by simp) fun i hi _ => ?_
  rw [List.getElem_modify]
  simp only [spread, List.getElem_map, List.getElem_range, List.filter_append]
  split
  · rename_i h
    simp [h]
  · rename_i h
    simp [h]

/-- Appending a list one element at a time. -/
theorem foldl_modify_spread (l xs : List α) :
    xs.foldl (fun bs x => bs.modify (k x) (· ++ [x])) (spread n k l) = spread n k (l ++ xs) := by
  induction xs generalizing l with
  | nil => simp
  | cons x xs ih => rw [List.foldl_cons, modify_spread, ih, List.append_assoc, List.singleton_append]

/-- Dropping a recognised leading segment, bucket by bucket. -/
theorem map_dropWhile_spread {P : α → Bool} {xs ys : List α} (hx : ∀ x ∈ xs, P x)
    (hy : ∀ y ∈ ys, P y = false) :
    (spread n k (xs ++ ys)).map (·.dropWhile P) = spread n k ys := by
  simp only [spread, List.map_map]
  refine List.map_congr_left fun p _ => ?_
  simp only [Function.comp_apply, List.filter_append]
  rw [List.dropWhile_append_of_pos fun x hx' => hx x (List.mem_of_mem_filter hx')]
  rw [List.dropWhile_eq_self_iff]
  intro hl
  have hmem : (ys.filter fun x => decide (k x = p))[0] ∈ ys :=
    List.mem_of_mem_filter (List.getElem_mem hl)
  simp [hy _ hmem]

/-- In a concatenation of segments with distinct keys, a segment is what carries its key. -/
theorem filter_flatMap_of_mem {β : Type} {f : β → ℕ} {g : β → List α} {l : List β} {b : β}
    (hnodup : (l.map f).Nodup) (hkey : ∀ c ∈ l, ∀ x ∈ g c, k x = f c) (hb : b ∈ l) :
    (l.flatMap g).filter (fun x => k x = f b) = g b := by
  induction l with
  | nil => simp at hb
  | cons c l ih =>
    rw [List.map_cons, List.nodup_cons] at hnodup
    rw [List.flatMap_cons, List.filter_append]
    rcases List.mem_cons.1 hb with rfl | hb
    · have hown : (g b).filter (fun x => k x = f b) = g b :=
        List.filter_eq_self.2 fun x hx => by simpa using hkey b (List.mem_cons_self ..) x hx
      have hrest : (l.flatMap g).filter (fun x => k x = f b) = [] := by
        refine List.filter_eq_nil_iff.2 fun x hx => ?_
        obtain ⟨d, hd, hxd⟩ := List.mem_flatMap.1 hx
        rw [hkey d (List.mem_cons_of_mem _ hd) x hxd, decide_eq_true_eq]
        exact fun heq => hnodup.1 (heq ▸ List.mem_map_of_mem hd)
      rw [hown, hrest, List.append_nil]
    · have hother : (g c).filter (fun x => k x = f b) = [] := by
        refine List.filter_eq_nil_iff.2 fun x hx => ?_
        rw [hkey c (List.mem_cons_self ..) x hx, decide_eq_true_eq]
        exact fun heq => hnodup.1 (heq ▸ List.mem_map_of_mem hb)
      rw [hother, List.nil_append]
      exact ih hnodup.2 (fun d hd => hkey d (List.mem_cons_of_mem _ hd)) hb

/-- The buckets together hold exactly the elements of the list whose key is a bucket. -/
theorem flatten_spread_perm (l : List α) :
    (spread n k l).flatten.Perm (l.filter fun x => k x < n) := by
  induction n with
  | zero => simp [spread]
  | succ n ih =>
    have hsplit : (spread (n + 1) k l).flatten =
        (spread n k l).flatten ++ l.filter fun x => k x = n := by
      simp [spread, List.range_succ]
    have hlow : (l.filter fun x => k x < n + 1).filter (fun x => k x < n) =
        l.filter fun x => k x < n := by
      rw [List.filter_filter]
      refine List.filter_congr fun x _ => ?_
      rw [Bool.eq_iff_iff]
      simp only [Bool.and_eq_true, decide_eq_true_eq]
      omega
    have hhigh : (l.filter fun x => k x < n + 1).filter (fun x => !decide (k x < n)) =
        l.filter fun x => k x = n := by
      rw [List.filter_filter]
      refine List.filter_congr fun x _ => ?_
      rw [Bool.eq_iff_iff]
      simp only [Bool.and_eq_true, Bool.not_eq_true', decide_eq_false_iff_not, decide_eq_true_eq]
      omega
    have hboth := List.filter_append_perm (fun x => decide (k x < n))
      (l.filter fun x => k x < n + 1)
    rw [hlow, hhigh] at hboth
    rw [hsplit]
    exact (ih.append_right _).trans hboth

theorem flatten_spread_perm_of_lt {l : List α} (h : ∀ x ∈ l, k x < n) :
    (spread n k l).flatten.Perm l := by
  have hall : (l.filter fun x => k x < n) = l :=
    List.filter_eq_self.2 fun x hx => by simpa using h x hx
  have hperm := flatten_spread_perm (n := n) (k := k) l
  rwa [hall] at hperm

end Buckets

import Qsbit.Replay
import Mathlib.Data.List.TakeWhile
import Mathlib.Data.List.Range

/-!
# The rounds of a recording

Recorded calls follow each other in time without a gap. The partition cuts them where the
last instruction of the region has retired, which need not be where a batch ends: each
call belongs to the first round that ends no earlier than the call.

## Main definitions

* `Contiguous` — operations that follow each other in time.
* `Rounds` — what the partition makes of the calls.
* `rounds_of_partition` — it makes this of all calls that are in order.
-/
namespace Qsbit
namespace Replay
open TraceModel (Record)

/-! ## Time -/

section Time
variable {α ρ : Type} {a b c : ℤ} {xs ys : List (Operation α ρ)} {x : Operation α ρ}

/-- When the operation starts. -/
def Operation.start : Operation α ρ → ℤ
  | evolve start _ _ _ => start
  | apply tick _ => tick
  | measure tick _ => tick

/-- The operations lead from one tick to another: an evolution starts on the tick of the operation
before it and takes time, the others take none. -/
def Contiguous : ℤ → List (Operation α ρ) → ℤ → Prop
  | a, [], b => a = b
  | a, x :: rest, b => x.start = a ∧ a ≤ x.tick ∧ Contiguous x.tick rest b

@[simp] theorem contiguous_nil : Contiguous a ([] : List (Operation α ρ)) b ↔ a = b := Iff.rfl

@[simp] theorem contiguous_cons :
    Contiguous a (x :: xs) b ↔ x.start = a ∧ a ≤ x.tick ∧ Contiguous x.tick xs b := Iff.rfl

theorem contiguous_append :
    Contiguous a (xs ++ ys) c ↔ ∃ b, Contiguous a xs b ∧ Contiguous b ys c := by
  induction xs generalizing a with
  | nil => simp
  | cons x xs ih =>
    simp only [List.cons_append, contiguous_cons, ih]
    constructor
    · rintro ⟨hstart, hle, b, hxs, hys⟩
      exact ⟨b, ⟨hstart, hle, hxs⟩, hys⟩
    · rintro ⟨b, ⟨hstart, hle, hxs⟩, hys⟩
      exact ⟨hstart, hle, b, hxs, hys⟩

theorem Contiguous.le (h : Contiguous a xs b) : a ≤ b := by
  induction xs generalizing a with
  | nil => exact h.le
  | cons x xs ih => exact h.2.1.trans (ih h.2.2)

theorem Contiguous.mem (h : Contiguous a xs b) (hx : x ∈ xs) : a ≤ x.tick ∧ x.tick ≤ b := by
  induction xs generalizing a with
  | nil => simp at hx
  | cons y ys ih =>
    obtain ⟨-, hle, hys⟩ := h
    rcases List.mem_cons.1 hx with rfl | hx
    · exact ⟨hle, hys.le⟩
    · obtain ⟨hstart, hend⟩ := ih hys hx
      exact ⟨hle.trans hstart, hend⟩

theorem Contiguous.pairwise (h : Contiguous a xs b) : xs.Pairwise fun x y => x.tick ≤ y.tick := by
  induction xs generalizing a with
  | nil => exact List.Pairwise.nil
  | cons x xs ih =>
    obtain ⟨-, -, hxs⟩ := h
    exact List.pairwise_cons.2 ⟨fun y hy => (hxs.mem hy).1, ih hxs⟩

theorem Contiguous.start_le (h : Contiguous a xs b) (hx : x ∈ xs) : x.start ≤ x.tick := by
  induction xs generalizing a with
  | nil => simp at hx
  | cons y ys ih =>
    obtain ⟨rfl, hle, hys⟩ := h
    rcases List.mem_cons.1 hx with rfl | hx
    · exact hle
    · exact ih hys hx

end Time

/-! ## Keys in order -/

section Keys
variable {α : Type} {xs : List α} {key : α → ℕ} {n : ℕ}

/-- A list that is in the order of its keys is cut by a bound on the keys. -/
theorem filter_append_filter_of_pairwise (h : xs.Pairwise fun x y => key x ≤ key y) :
    (xs.filter fun x => key x < n) ++ (xs.filter fun x => n ≤ key x) = xs := by
  induction xs with
  | nil => rfl
  | cons x xs ih =>
    obtain ⟨hx, hxs⟩ := List.pairwise_cons.1 h
    by_cases hlt : key x < n
    · have hnle : ¬ n ≤ key x := by omega
      simp only [List.filter_cons, hlt, hnle, decide_true, decide_false, if_true, List.cons_append,
        ih hxs, Bool.false_eq_true, if_false]
    · have hnone : (x :: xs).filter (fun x => key x < n) = [] := by
        rw [List.filter_eq_nil_iff]
        rintro y hy
        simp only [decide_eq_true_eq]
        rcases List.mem_cons.1 hy with rfl | hy
        · exact hlt
        · have := hx y hy
          omega
      have hall : (x :: xs).filter (fun x => n ≤ key x) = x :: xs := by
        rw [List.filter_eq_self]
        rintro y hy
        simp only [decide_eq_true_eq]
        rcases List.mem_cons.1 hy with rfl | hy
        · omega
        · have := hx y hy
          omega
      rw [hnone, hall]
      rfl

/-- The elements with key zero, then those with key one, and so on. -/
theorem flatMap_filter_of_pairwise (h : xs.Pairwise fun x y => key x ≤ key y)
    (hlt : ∀ x ∈ xs, key x < n) :
    ((List.range n).flatMap fun k => xs.filter fun x => key x = k) = xs := by
  induction n generalizing xs with
  | zero =>
    cases xs with
    | nil => rfl
    | cons x xs => simpa using hlt x List.mem_cons_self
  | succ n ih =>
    have hlast : (xs.filter fun x => n ≤ key x) = xs.filter fun x => key x = n := by
      refine List.filter_congr fun x hx => ?_
      have := hlt x hx
      simp only [decide_eq_decide]
      omega
    have hcut := filter_append_filter_of_pairwise (n := n) h
    have hfirst : ((List.range n).flatMap fun k =>
        (xs.filter fun x => key x < n).filter fun x => key x = k) = xs.filter fun x => key x < n :=
      ih (h.sublist List.filter_sublist) fun x hx => by simpa using (List.mem_filter.1 hx).2
    rw [List.range_succ, List.flatMap_append, List.flatMap_singleton, ← hlast]
    conv_rhs => rw [← hcut, ← hfirst]
    congr 1
    refine List.flatMap_congr fun k hk => ?_
    have hk : k < n := by simpa using hk
    rw [List.filter_filter]
    refine List.filter_congr fun x _ => ?_
    by_cases hx : key x = k
    · simp [hx, hk]
    · simp [hx]

end Keys

/-! ## Where a tick is inserted -/

section Bisect
variable {ticks : List ℤ} {s t : ℤ} {k : ℕ}

theorem bisectLeft_le : bisectLeft ticks t ≤ ticks.length :=
  (List.takeWhile_sublist _).length_le

theorem bisectLeft_cons {tick : ℤ} : bisectLeft (tick :: ticks) t =
    if tick < t then bisectLeft ticks t + 1 else 0 := by
  unfold bisectLeft
  rw [List.takeWhile_cons]
  split <;> simp_all

theorem bisectLeft_mono (h : s ≤ t) : bisectLeft ticks s ≤ bisectLeft ticks t := by
  induction ticks with
  | nil => exact le_rfl
  | cons tick ticks ih =>
    rw [bisectLeft_cons, bisectLeft_cons]
    split
    · rename_i hs
      rw [if_pos (by omega)]
      omega
    · omega

/-- What is before the place is less. -/
theorem lt_of_lt_bisectLeft {tick : ℤ} (hk : k < bisectLeft ticks t) (h : ticks[k]? = some tick) :
    tick < t := by
  induction ticks generalizing k with
  | nil => simp at h
  | cons first ticks ih =>
    rw [bisectLeft_cons] at hk
    split at hk
    · rename_i hfirst
      cases k with
      | zero =>
        obtain rfl := Option.some.inj h
        exact hfirst
      | succ k => exact ih (by omega) h
    · omega

/-- A tick that is not later than an entry is not inserted after it. -/
theorem bisectLeft_le_of_le {tick : ℤ} (h : ticks[k]? = some tick) (hle : t ≤ tick) :
    bisectLeft ticks t ≤ k := by
  by_contra hlt
  have := lt_of_lt_bisectLeft (not_le.1 hlt) h
  omega

end Bisect

/-! ## The partition -/

/-- The round of a call: its place among the ends of the rounds. -/
def Call.round (ends : List ℤ) (call : Call) : ℕ := bisectLeft ends call.operation.tick

/-- The calls of each round, and what is left after the last. -/
structure Rounds (calls : List Call) (trace : List Record) (ends : List ℤ)
    (groups : List (List Call)) (finalIdle : Option Call) : Prop where
  rounds : groups = (List.range ends.length).map fun k => calls.filter fun c => c.round ends = k
  flatten : groups.flatten ++ finalIdle.toList = calls
  final : ∀ call ∈ finalIdle, call.operation.undriven ∧ call.round ends = ends.length
  /-- What the device starts in a round, it ends there. -/
  started : ∀ e : TraceEvent, .event e ∈ trace → e.kind = .operationStart →
    ∃ last ∈ ends[bisectLeft ends e.tick]?, (e.tick : ℤ) + e.value ≤ last
  nonempty : ∀ group ∈ groups, group ≠ []

section Partition
variable {ends : List ℤ} {trace : List Record} {calls : List Call} {groups groups' : List (List Call)}
  {finalIdle finalIdle' : Option Call}

/-- The final idle interval, if there is one, is the last call. -/
inductive Idles (ends : List ℤ) (finalIdle : Option Call) : List Call → Option Call → Prop
  | none {calls : List Call} (h : ∀ c ∈ calls, c.round ends < ends.length) :
      Idles ends finalIdle calls finalIdle
  | some {before : List Call} {call : Call} (h : ∀ c ∈ before, c.round ends < ends.length)
      (undriven : call.operation.undriven) (round : call.round ends = ends.length) :
      Idles ends finalIdle (before ++ [call]) (some call)

theorem assign_spec (h : assign ends trace calls groups finalIdle = .ok (groups', finalIdle')) :
    (∀ k < ends.length, groups'[k]? =
      groups[k]?.map (· ++ calls.filter fun c => c.round ends = k)) ∧
      groups'.length = groups.length ∧ Idles ends finalIdle calls finalIdle' := by
  induction calls generalizing groups finalIdle with
  | nil =>
    obtain ⟨rfl, rfl⟩ := Prod.mk.inj (Except.pure_eq_ok_iff.1 h)
    exact ⟨by simp, rfl, .none (by simp)⟩
  | cons call rest ih =>
    rw [assign] at h
    split at h
    · rename_i hround
      simp only [Except.bind_eq_ok_iff, require_eq_ok_iff, exists_const] at h
      obtain ⟨⟨hrest, hundriven, -⟩, h⟩ := h
      obtain rfl := List.isEmpty_iff.1 hrest
      obtain ⟨rfl, rfl⟩ := Prod.mk.inj (Except.pure_eq_ok_iff.1 h)
      refine ⟨fun k hk => ?_, rfl, .some (List.forall_mem_nil _) hundriven hround⟩
      have hne : call.round ends ≠ k := by
        have : call.round ends = ends.length := hround
        omega
      simp [hne]
    · rename_i hround
      have hlt : call.round ends < ends.length := lt_of_le_of_ne bisectLeft_le hround
      obtain ⟨hgroups, hlength, hidles⟩ := ih h
      refine ⟨fun k hk => ?_, hlength.trans (List.length_modify ..), ?_⟩
      · rw [hgroups k hk, List.getElem?_modify]
        by_cases hk' : call.round ends = k
        · have hk'' : bisectLeft ends call.operation.tick = k := hk'
          cases groups[k]? <;> simp [hk', hk'']
        · have hk'' : bisectLeft ends call.operation.tick ≠ k := hk'
          cases groups[k]? <;> simp [hk', hk'']
      · cases hidles with
        | none hrest => exact .none (List.forall_mem_cons.2 ⟨hlt, hrest⟩)
        | @some before last hbefore undriven round =>
          have hcons : ∀ c ∈ call :: before, c.round ends < ends.length :=
            List.forall_mem_cons.2 ⟨hlt, hbefore⟩
          exact .some hcons undriven round

theorem checkStarts_eq_ok_iff {u : Unit} : checkStarts ends trace = .ok u ↔
    ∀ e : TraceEvent, .event e ∈ trace → e.kind = .operationStart →
      ∃ last ∈ ends[bisectLeft ends e.tick]?, (e.tick : ℤ) + e.value ≤ last := by
  induction trace with
  | nil => simp [checkStarts]
  | cons r rest ih =>
    cases r with
    | cpu tick epoch core t => simp [checkStarts, ih]
    | event e =>
      simp only [checkStarts, Except.bind_eq_ok_iff, ih, List.mem_cons, Record.event.injEq]
      by_cases hkind : e.kind = .operationStart
      · rw [if_pos hkind]
        simp only [require_eq_ok_iff, exists_const]
        constructor
        · rintro ⟨he, hrest⟩ e' (rfl | hmem) hkind'
          · exact he
          · exact hrest e' hmem hkind'
        · intro hall
          exact ⟨hall e (.inl rfl) hkind, fun e' he' => hall e' (.inr he')⟩
      · rw [if_neg hkind]
        simp only [Except.pure_eq_ok_iff, exists_const, true_and]
        constructor
        · rintro hrest e' (rfl | hmem) hkind'
          · exact absurd hkind' hkind
          · exact hrest e' hmem hkind'
        · intro hall e' he'
          exact hall e' (.inr he')

/-- The partition of calls that are in order of time. -/
theorem rounds_of_partition {regionEnd : BitVec 32} {rounds : ℕ}
    (h : partition calls trace regionEnd rounds = .ok (groups, finalIdle))
    (hordered : calls.Pairwise fun c c' => c.operation.tick ≤ c'.operation.tick) :
    ∃ ends, ends.length = rounds ∧ Rounds calls trace ends groups finalIdle := by
  unfold partition at h
  simp only [Except.bind_eq_ok_iff, require_eq_ok_iff, exists_const, Except.pure_eq_ok_iff] at h
  obtain ⟨hrounds, ⟨groups', finalIdle'⟩, hassign, _, hstarts, hnonempty, hresult⟩ := h
  obtain ⟨rfl, rfl⟩ := Prod.mk.inj hresult
  obtain ⟨hgroups, hlength, hidles⟩ := assign_spec hassign
  generalize trace.filterMap (retirement regionEnd) = ends at *
  have hgroups' : groups' = (List.range ends.length).map fun k =>
      calls.filter fun c => c.round ends = k := by
    refine List.ext_getElem? fun k => ?_
    by_cases hk : k < ends.length
    · simp [hgroups k hk, hk]
    · have hk' : ends.length ≤ k := by omega
      rw [List.getElem?_eq_none (by simpa [hlength] using hk'),
        List.getElem?_eq_none (by simpa using hk')]
  have hround : calls.Pairwise fun c c' => c.round ends ≤ c'.round ends :=
    hordered.imp bisectLeft_mono
  refine ⟨ends, hrounds, hgroups', ?_, ?_, checkStarts_eq_ok_iff.1 hstarts, ?_⟩
  · rw [hgroups', ← List.flatMap_def]
    cases hidles with
    | none h => simpa using flatMap_filter_of_pairwise hround h
    | @some before call h undriven round =>
      have hbefore := flatMap_filter_of_pairwise (hround.sublist (List.sublist_append_left ..)) h
      conv_rhs => rw [← hbefore]
      rw [Option.toList_some]
      congr 1
      refine List.flatMap_congr fun k hk => ?_
      have hne : ends.length ≠ k := by
        have : k < ends.length := by simpa using hk
        omega
      rw [List.filter_append, List.filter_singleton, round]
      simp [hne]
  · intro call hcall
    cases hidles with
    | none h => simp at hcall
    | some h undriven round =>
      obtain rfl := Option.some.inj hcall
      exact ⟨undriven, round⟩
  · intro group hgroup hnil
    have := List.all_eq_true.1 hnonempty group hgroup
    simp [hnil] at this

end Partition
end Replay
end Qsbit

import Qsbit.Replay.Stream

/-!
# Replay extends the recording

The check that the second and the third round agree up to the period makes both of them
last exactly one period. Therefore the copies of the second round follow each other
without a gap, and the final idle interval follows the last of them. Three repetitions
are the recorded run again.

## Main definitions

* `Same` — operations that Python does not tell apart.
* `Extends` — the batches of a replay extend the recording.
* `extends_of_rounds` — those of every replay of a sound recording do.
-/
namespace Qsbit
namespace Replay
open TraceModel (Record)

/-! ## Comparison -/

/-- Operations that Python does not tell apart: they are identical, or equal when their floating
point numbers are compared by value. -/
def Same (x y : Operation Interval ℕ) : Prop := x = y ∨ (x == y) = true

/-- The operation at another time. -/
def Operation.later (d : ℤ) : Operation Interval ℕ → Operation Interval ℕ
  | .evolve start tick drives acquisitions =>
      .evolve (start + d) (tick + d) (drives.map (·.shift d)) (acquisitions.map (·.shift d))
  | .apply tick gates => .apply (tick + d) gates
  | .measure tick targets => .measure (tick + d) targets

section Comparison
variable {x y : Operation Interval ℕ} {xs ys : List (Operation Interval ℕ)} {d shift : ℤ}

theorem beq_map {α β : Type} [BEq α] [BEq β] {f : α → β}
    (hf : ∀ a b, (a == b) = true → (f a == f b) = true) {as bs : List α}
    (h : (as == bs) = true) : (as.map f == bs.map f) = true := by
  induction as generalizing bs with
  | nil =>
    cases bs with
    | nil => rfl
    | cons b bs => exact absurd h (by simp)
  | cons a as ih =>
    cases bs with
    | nil => exact absurd h (by simp)
    | cons b bs =>
      simp only [List.cons_beq_cons, Bool.and_eq_true] at h
      simp only [List.map_cons, List.cons_beq_cons, Bool.and_eq_true]
      exact ⟨hf a b h.1, ih h.2⟩

theorem forall₂_of_beq {α : Type} [BEq α] {as bs : List α} (h : (as == bs) = true) :
    List.Forall₂ (fun a b => (a == b) = true) as bs := by
  induction as generalizing bs with
  | nil =>
    cases bs with
    | nil => exact .nil
    | cons b bs => exact absurd h (by simp)
  | cons a as ih =>
    cases bs with
    | nil => exact absurd h (by simp)
    | cons b bs =>
      simp only [List.cons_beq_cons, Bool.and_eq_true] at h
      exact .cons h.1 (ih h.2)

theorem Interval.beq_shift {a b : Interval} (h : (a == b) = true) :
    (a.shift d == b.shift d) = true := by
  cases a
  cases b
  simp only [BEq.beq, instBEqInterval.beq, Bool.and_eq_true, Interval.shift] at h ⊢
  simp_all

theorem evolve_beq {s t s' t' : ℤ} {ds as ds' as' : List Interval} :
    ((.evolve s t ds as : Operation Interval ℕ) == .evolve s' t' ds' as') =
      (s == s' && (t == t' && (ds == ds' && as == as'))) := rfl

theorem apply_beq {t t' : ℤ} {gates gates' : List Descriptor} :
    ((.apply t gates : Operation Interval ℕ) == .apply t' gates') = (t == t' && gates == gates') :=
  rfl

theorem measure_beq {t t' : ℤ} {targets targets' : List ℕ} :
    ((.measure t targets : Operation Interval ℕ) == .measure t' targets') =
      (t == t' && targets == targets') := rfl

/-- Operations that are equal start and end together. -/
theorem time_of_beq (h : (x == y) = true) : x.start = y.start ∧ x.tick = y.tick := by
  cases x <;> cases y <;> try exact absurd h Bool.false_ne_true
  · simp only [evolve_beq, Bool.and_eq_true, beq_iff_eq] at h
    exact ⟨h.1, h.2.1⟩
  · simp only [apply_beq, Bool.and_eq_true, beq_iff_eq] at h
    exact ⟨h.1, h.1⟩
  · simp only [measure_beq, Bool.and_eq_true, beq_iff_eq] at h
    exact ⟨h.1, h.1⟩

/-- They are equal at another time, too. -/
theorem beq_later (h : (x == y) = true) : (x.later d == y.later d) = true := by
  cases x <;> cases y <;> try exact absurd h Bool.false_ne_true
  · simp only [evolve_beq, Bool.and_eq_true, beq_iff_eq] at h
    simp only [Operation.later, evolve_beq, Bool.and_eq_true, beq_iff_eq]
    exact ⟨by rw [h.1], by rw [h.2.1], beq_map (fun _ _ => Interval.beq_shift) h.2.2.1,
      beq_map (fun _ _ => Interval.beq_shift) h.2.2.2⟩
  · simp only [apply_beq, Bool.and_eq_true, beq_iff_eq] at h
    simp only [Operation.later, apply_beq, Bool.and_eq_true, beq_iff_eq]
    exact ⟨by rw [h.1], h.2⟩
  · simp only [measure_beq, Bool.and_eq_true, beq_iff_eq] at h
    simp only [Operation.later, measure_beq, Bool.and_eq_true, beq_iff_eq]
    exact ⟨by rw [h.1], h.2⟩

theorem later_normalized {x : Request} :
    (x.normalized shift).later d = x.normalized (shift - d) := by
  have hinterval : ∀ ys : List Activity,
      (ys.map fun y => y.toInterval.shift (-shift)).map (·.shift d) =
        ys.map fun y => y.toInterval.shift (-(shift - d)) := by
    intro ys
    rw [List.map_map]
    refine List.map_congr_left fun y _ => ?_
    simp only [Function.comp, Interval.shift, Interval.mk.injEq, true_and]
    omega
  cases x with
  | evolve start tick drives acquisitions =>
    simp only [Operation.normalized, Operation.later, hinterval, Operation.evolve.injEq, and_true]
    omega
  | apply tick gates =>
    simp only [Operation.normalized, Operation.later, Operation.apply.injEq, and_true]
    omega
  | measure tick references =>
    simp only [Operation.normalized, Operation.later, Operation.measure.injEq, and_true]
    omega

theorem Contiguous.normalized {a b : ℤ} {xs : List Request} (h : Contiguous a xs b) :
    Contiguous (a - d) (xs.map (Operation.normalized d)) (b - d) := by
  induction xs generalizing a with
  | nil =>
    obtain rfl : a = b := h
    rfl
  | cons x xs ih =>
    obtain ⟨rfl, hle, hxs⟩ := h
    have htick : (x.normalized d).tick = x.tick - d := by cases x <;> rfl
    have hstart : (x.normalized d).start = x.start - d := by cases x <;> rfl
    refine ⟨hstart, ?_, ?_⟩
    · rw [htick]
      omega
    · rw [htick]
      exact ih hxs

/-- Equal operations that follow each other take the same time. -/
theorem Contiguous.span_eq {a b a' b' : ℤ}
    (hsame : List.Forall₂ (fun x y => (x == y) = true) xs ys) (hne : xs ≠ [])
    (h : Contiguous a xs b) (h' : Contiguous a' ys b') : a = a' ∧ b = b' := by
  induction hsame generalizing a a' with
  | nil => exact absurd rfl hne
  | @cons x y xs ys hxy hrest ih =>
    obtain ⟨rfl, -, hxs⟩ := h
    obtain ⟨rfl, -, hys⟩ := h'
    obtain ⟨hstart, htick⟩ := time_of_beq hxy
    refine ⟨hstart, ?_⟩
    cases hrest with
    | nil =>
      obtain rfl : x.tick = b := hxs
      obtain rfl : y.tick = b' := hys
      exact htick
    | cons hxy' hrest' => exact (ih (by simp) hxs hys).2

end Comparison

/-! ## One iteration -/

section Round
variable {group : List Call} {identity : ℕ} {d : ℤ}

theorem flatten_roundSent : (roundSent group identity d).flatten =
    group.map fun call =>
      call.operation.renamed (numbering (group.flatMap (·.operation.references)) identity) d := by
  unfold roundSent
  rw [← List.map_flatten, List.flatten_splitBy]

theorem flatten_roundSent_map : (roundSent group identity d).flatten =
    (group.map (·.operation)).map
      (Operation.renamed (numbering (group.flatMap (·.operation.references)) identity) d) := by
  rw [flatten_roundSent, List.map_map]
  rfl

/-- A batch is never cut before its measurement. -/
theorem SoundRound.whole (h : SoundRound group) {batch : List Request}
    (hbatch : batch ∈ roundSent group identity d) :
    ∀ x ∈ batch.dropLast, x.isMeasure = false := by
  obtain ⟨recorded, hrecorded, rfl⟩ := List.mem_map.1 hbatch
  have hsublist : recorded.Sublist group := by
    rw [← List.flatten_splitBy (fun call next : Call => call.batch == next.batch) group]
    exact List.sublist_flatten_of_mem hrecorded
  have hsame : recorded.Pairwise fun c c' => c.batch = c'.batch := by
    have hchain := List.isChain_of_mem_splitBy hrecorded
    exact (hchain.imp fun c c' h => beq_iff_eq.1 h).pairwise
  have hboth := (h.batched.sublist hsublist).and hsame
  intro x hx
  rw [List.map_dropLast.symm] at hx
  obtain ⟨c, hc, rfl⟩ := List.mem_map.1 hx
  rw [isMeasure_renamed]
  cases hlast : recorded.getLast? with
  | none =>
    rw [List.getLast?_eq_none_iff] at hlast
    simp [hlast] at hc
  | some last =>
    obtain ⟨before, rfl⟩ := List.getLast?_eq_some_iff.1 hlast
    rw [List.dropLast_concat] at hc
    obtain ⟨hmeasure, hbatch⟩ := (List.pairwise_append.1 hboth).2.2 c hc last (by simp)
    exact hmeasure hbatch

theorem SoundRound.paired_roundSent (h : SoundRound group) :
    Paired (roundSent group identity d).flatten := by
  rw [flatten_roundSent_map]
  refine h.paired.renamed fun r hr r' hr' => ?_
  rw [List.flatMap_map] at hr
  exact numbering_inj (List.mem_map_of_mem hr)

/-- The references are numbered consecutively. -/
theorem SoundRound.references_roundSent (h : SoundRound group) :
    ((roundSent group identity d).flatten.flatMap (·.references)).map (·.measurement) =
      List.range' (identity + 1) (group.flatMap (·.operation.references)).length := by
  rw [← map_numbering h.distinct, flatten_roundSent, List.flatMap_map, List.map_flatMap,
    List.map_flatMap]
  refine List.flatMap_congr fun call _ => ?_
  rw [references_renamed, List.map_map]
  rfl

theorem epoch_roundSent {x : Request} (hx : x ∈ (roundSent group identity d).flatten) :
    ∀ r ∈ x.references, r.epoch = 1 := by
  rw [flatten_roundSent_map] at hx
  obtain ⟨y, -, rfl⟩ := List.mem_map.1 hx
  rw [references_renamed]
  intro r hr
  obtain ⟨r', -, rfl⟩ := List.mem_map.1 hr
  rfl

theorem later_normalized_calls {shift : ℤ} :
    (normalized group shift).map (Operation.later d) = normalized group (shift - d) := by
  rw [normalized, List.map_map]
  exact List.map_congr_left fun call _ => later_normalized

/-- The batches of a round, each in the form in which identities do not matter. -/
def roundBatches (group : List Call) : List (List (Operation Interval ℕ)) :=
  (group.splitBy fun call next => call.batch == next.batch).map fun recorded => normalized recorded

theorem flatten_roundBatches : (roundBatches group).flatten = normalized group := by
  have hcalls : roundBatches group = (group.splitBy fun call next => call.batch == next.batch).map
      (List.map fun call => call.operation.normalized 0) := rfl
  rw [hcalls, ← List.map_flatten, List.flatten_splitBy]
  rfl

/-- Up to identities, the batches of an iteration are those of its round at another time. -/
theorem normalized_roundSent :
    (roundSent group identity d).map (List.map (Operation.normalized 0)) =
      (roundBatches group).map (List.map (Operation.later d)) := by
  rw [roundSent, roundBatches, List.map_map, List.map_map]
  refine List.map_congr_left fun recorded _ => ?_
  simp only [Function.comp, later_normalized_calls, List.map_map]
  exact List.map_congr_left fun call _ => normalized_renamed

/-- Up to identities and batches, an iteration is its round at another time. -/
theorem normalized_flatten_roundSent :
    (roundSent group identity d).flatten.map (Operation.normalized 0) = normalized group (0 - d) := by
  rw [List.map_flatten, normalized_roundSent, ← List.map_flatten, flatten_roundBatches,
    later_normalized_calls]

end Round

/-- The measurement identities in operations: of acquisitions and of references. -/
def identitiesOf (operations : List Request) : List ℕ :=
  operations.flatMap fun x =>
    x.acquisitions.filterMap (·.measurement) ++ x.references.map (·.measurement)

/-- Acquisitions that are paired have the identities of references. -/
theorem Paired.identitiesOf_subset {operations : List Request} (h : Paired operations) :
    identitiesOf operations ⊆ (operations.flatMap (·.references)).map (·.measurement) := by
  intro m hm
  obtain ⟨x, hx, hm⟩ := List.mem_flatMap.1 hm
  rcases List.mem_append.1 hm with hm | hm
  · obtain ⟨y, hy, hmeasurement⟩ := List.mem_filterMap.1 hm
    obtain ⟨r, hr, hr'⟩ := h.mem_references hx hy
    rw [hr'] at hmeasurement
    obtain rfl := Option.some.inj hmeasurement
    exact List.mem_map_of_mem hr
  · obtain ⟨r, hr, rfl⟩ := List.mem_map.1 hm
    exact List.mem_map_of_mem (List.mem_flatMap.2 ⟨x, hx, hr⟩)

/-! ## All iterations -/

/-- The batches of a replay extend the recorded calls, which have been cut into rounds. -/
structure Extends (calls : List Call) (groups : List (List Call)) (finalIdle : Option Call)
    (period : ℤ) (repetitions : ℕ) (iterations : List (List (List Request)))
    (idle : List (List Request)) : Prop where
  count : iterations.length = repetitions
  /-- Up to identities, the first iteration is the first round, and each further one is the second
  round, later by one period more than the iteration before it. -/
  iteration : ∀ k sent, iterations[k]? = some sent → ∃ group ∈ groups[min k 1]?,
    sent.map (List.map (Operation.normalized 0)) =
      (roundBatches group).map (List.map (Operation.later ((k - 1 : ℕ) * period)))
  /-- The final idle interval comes as much later as there are more iterations than rounds. -/
  final : idle.flatten.map (Operation.normalized 0) =
    (normalized finalIdle.toList).map (Operation.later ((repetitions - groups.length) * period))
  /-- Each evolution starts on the tick of the operation before it, from the first to the last. -/
  contiguous : ∃ final, Contiguous 0 (iterations.flatten ++ idle).flatten final
  /-- In an iteration, acquisitions and references agree. -/
  paired : ∀ iteration ∈ iterations, Paired iteration.flatten
  distinct : ((iterations.flatten.flatten.flatMap (·.references)).map (·.measurement)).Nodup
  /-- No two iterations share an identity. -/
  unique : iterations.Pairwise fun i j => (identitiesOf i.flatten).Disjoint (identitiesOf j.flatten)
  /-- The recorded references and those that are sent are of the first epoch. -/
  epoch : ∀ x ∈ calls.map (·.operation) ++ iterations.flatten.flatten,
    ∀ r ∈ x.references, r.epoch = 1
  undriven : ∀ batch ∈ idle, ∃ start tick, batch = [.evolve start tick [] []]
  /-- A measurement is the last operation of its batch. -/
  whole : ∀ batch ∈ iterations.flatten ++ idle, ∀ x ∈ batch.dropLast, x.isMeasure = false
  recorded : repetitions = 3 → List.Forall₂ Same
    ((iterations.flatten ++ idle).flatten.map (Operation.normalized 0)) (normalized calls)

section Iterations
variable {calls first steady third : List Call} {trace : List Record} {ends : List ℤ}
  {finalIdle : Option Call} {period : ℤ}

/-- When an iteration starts. -/
def iterationStart (steadyStart period : ℤ) : ℕ → ℤ
  | 0 => 0
  | k + 1 => steadyStart + k * period

theorem contiguous_iterationSent {steadyStart : ℤ}
    (hfirst : Contiguous 0 (first.map (·.operation)) steadyStart)
    (hsteady : Contiguous steadyStart (steady.map (·.operation)) (steadyStart + period)) (k : ℕ) :
    Contiguous (iterationStart steadyStart period k) (iterationSent first steady period k).flatten
      (iterationStart steadyStart period (k + 1)) := by
  unfold iterationSent
  rw [flatten_roundSent_map]
  cases k with
  | zero =>
    have hnext : iterationStart steadyStart period (0 + 1) = steadyStart + 0 := by
      simp [iterationStart]
    rw [hnext]
    exact hfirst.renamed (d := 0)
  | succ k =>
    have hnext : iterationStart steadyStart period (k + 1 + 1) =
        steadyStart + period + k * period := by
      simp only [iterationStart, Nat.cast_add, Nat.cast_one]
      ring
    rw [hnext]
    exact hsteady.renamed (d := k * period)

theorem contiguous_iterations {steadyStart : ℤ}
    (hfirst : Contiguous 0 (first.map (·.operation)) steadyStart)
    (hsteady : Contiguous steadyStart (steady.map (·.operation)) (steadyStart + period)) (n : ℕ) :
    Contiguous 0 ((List.range n).flatMap (iterationSent first steady period)).flatten
      (iterationStart steadyStart period n) := by
  induction n with
  | zero => rfl
  | succ n ih =>
    rw [List.range_succ, List.flatMap_append, List.flatMap_singleton, List.flatten_append]
    exact contiguous_append.2 ⟨_, ih, contiguous_iterationSent hfirst hsteady n⟩

theorem iterationIdentity_succ (n : ℕ) :
    iterationIdentity first steady (n + 1) = iterationIdentity first steady n +
      ((iterationGroup first steady n).flatMap (·.operation.references)).length := by
  cases n with
  | zero => simp [iterationIdentity, iterationGroup]
  | succ n =>
    simp only [iterationIdentity, iterationGroup]
    rw [Nat.succ_mul, Nat.add_assoc]

theorem iterationIdentity_mono : Monotone (iterationIdentity first steady) :=
  monotone_nat_of_le_succ fun n => by rw [iterationIdentity_succ]; omega

/-- The references of all iterations are numbered from one. -/
theorem references_iterations (hsound : ∀ k, SoundRound (iterationGroup first steady k)) (n : ℕ) :
    (((List.range n).flatMap (iterationSent first steady period)).flatten.flatMap
      (·.references)).map (·.measurement) = List.range' 1 (iterationIdentity first steady n) := by
  induction n with
  | zero => rfl
  | succ n ih =>
    rw [List.range_succ, List.flatMap_append, List.flatMap_singleton, List.flatten_append,
      List.flatMap_append, List.map_append, ih, iterationSent, (hsound n).references_roundSent,
      iterationIdentity_succ, Nat.add_comm (iterationIdentity first steady n) 1,
      List.range'_append_1]

/-- The identities of an iteration are its own. -/
theorem mem_identitiesOf (hsound : ∀ k, SoundRound (iterationGroup first steady k)) {k m : ℕ}
    (hm : m ∈ identitiesOf (iterationSent first steady period k).flatten) :
    iterationIdentity first steady k < m ∧ m ≤ iterationIdentity first steady (k + 1) := by
  have hmem := (hsound k).paired_roundSent.identitiesOf_subset hm
  rw [(hsound k).references_roundSent, List.mem_range'_1] at hmem
  rw [iterationIdentity_succ]
  omega

theorem disjoint_iterations (hsound : ∀ k, SoundRound (iterationGroup first steady k)) (n : ℕ) :
    ((List.range n).map (iterationSent first steady period)).Pairwise
      fun i j => (identitiesOf i.flatten).Disjoint (identitiesOf j.flatten) := by
  rw [List.pairwise_map]
  refine List.pairwise_lt_range.imp fun {i j} hij m hi hj => ?_
  have hlast := (mem_identitiesOf hsound hi).2
  have hfirst := (mem_identitiesOf hsound hj).1
  have hle : iterationIdentity first steady (i + 1) ≤ iterationIdentity first steady j :=
    iterationIdentity_mono hij
  omega

/-- The rounds of a sound recording follow each other; the last two take one period. -/
theorem Rounds.spans (rounds : Rounds calls trace ends [first, steady, third] finalIdle)
    (sound : Sound calls trace)
    (periodic : (normalized steady period == normalized third (2 * period)) = true) :
    ∃ t final, Contiguous 0 (first.map (·.operation)) t ∧
      Contiguous t (steady.map (·.operation)) (t + period) ∧
      Contiguous (t + 2 * period) (finalIdle.toList.map (·.operation)) final := by
  obtain ⟨final, hcontiguous⟩ := sound.contiguous
  have hcalls : calls = first ++ (steady ++ (third ++ finalIdle.toList)) := by
    have h := rounds.flatten
    simp only [List.flatten_cons, List.flatten_nil, List.append_nil, List.append_assoc] at h
    exact h.symm
  rw [hcalls, List.map_append, List.map_append, List.map_append] at hcontiguous
  obtain ⟨t, hfirst, hrest⟩ := contiguous_append.1 hcontiguous
  obtain ⟨t₁, hsteady, hrest⟩ := contiguous_append.1 hrest
  obtain ⟨t₂, hthird, hidle⟩ := contiguous_append.1 hrest
  have hsteady' : Contiguous (t - period) (normalized steady period) (t₁ - period) := by
    have h := hsteady.normalized (d := period)
    rwa [List.map_map] at h
  have hthird' : Contiguous (t₁ - 2 * period) (normalized third (2 * period)) (t₂ - 2 * period) := by
    have h := hthird.normalized (d := 2 * period)
    rwa [List.map_map] at h
  have hne : normalized steady period ≠ [] := by
    have h := rounds.nonempty steady (by simp)
    simpa [normalized] using h
  obtain ⟨hstart, hend⟩ := Contiguous.span_eq (forall₂_of_beq periodic) hne hsteady' hthird'
  refine ⟨t, final, hfirst, ?_, ?_⟩
  · have ht : t + period = t₁ := by omega
    rw [ht]
    exact hsteady
  · have ht : t + 2 * period = t₂ := by omega
    rw [ht]
    exact hidle

/-- The final idle interval as it is sent. -/
inductive IdleSent (d : ℤ) : Option Call → List (List Request) → Prop
  | none : IdleSent d none []
  | some {start tick : ℤ} {call : Call} (h : call.operation = .evolve start tick [] []) :
      IdleSent d (some call) [[.evolve (start + d) (tick + d) [] []]]

/-- Up to identities, it is the recorded one at another time. -/
theorem IdleSent.normalized {d : ℤ} {idle : List (List Request)} (h : IdleSent d finalIdle idle) :
    idle.flatten.map (Operation.normalized 0) =
      (Replay.normalized finalIdle.toList).map (Operation.later d) := by
  rw [later_normalized_calls]
  cases h with
  | none => rfl
  | some h => simp [Replay.normalized, h, Operation.normalized]

theorem Rounds.idleSent {groups : List (List Call)} (rounds : Rounds calls trace ends groups finalIdle)
    (sound : Sound calls trace) {d : ℤ} : IdleSent d finalIdle (idleSent d finalIdle) := by
  cases hcall : finalIdle with
  | none => exact .none
  | some call =>
    obtain ⟨start, tick, hoperation⟩ := rounds.idle sound hcall
    simp only [Replay.idleSent, hoperation]
    exact .some hoperation

/-- Calls that are equal up to the period are equal at their own times, up to the period. -/
theorem same_of_periodic
    (periodic : (normalized steady period == normalized third (2 * period)) = true) :
    List.Forall₂ Same (normalized steady (0 - 1 * period)) (normalized third 0) := by
  have h := forall₂_of_beq (beq_map (fun _ _ => beq_later (d := 2 * period)) periodic)
  rw [later_normalized_calls, later_normalized_calls] at h
  have hsteady : period - 2 * period = 0 - 1 * period := by ring
  have hthird : 2 * period - 2 * period = 0 := by ring
  rw [hsteady, hthird] at h
  exact h.imp fun _ _ => .inr

theorem forall₂_append {α γ : Type} {R : α → γ → Prop} {as as' : List α} {bs bs' : List γ}
    (h : List.Forall₂ R as bs) (h' : List.Forall₂ R as' bs') :
    List.Forall₂ R (as ++ as') (bs ++ bs') := by
  induction h with
  | nil => exact h'
  | cons hab _ ih => exact .cons hab ih

/-- Three iterations and the final idle interval are the recorded calls. -/
theorem Rounds.recorded (rounds : Rounds calls trace ends [first, steady, third] finalIdle)
    (sound : Sound calls trace)
    (periodic : (normalized steady period == normalized third (2 * period)) = true) :
    List.Forall₂ Same
      (((List.range 3).flatMap (iterationSent first steady period) ++
        Replay.idleSent (((3 : ℕ) - 3) * period) finalIdle).flatten.map (Operation.normalized 0))
      (normalized calls) := by
  have hiteration : ∀ k, (iterationSent first steady period k).flatten.map (Operation.normalized 0) =
      normalized (iterationGroup first steady k) (0 - iterationShift period k) :=
    fun k => normalized_flatten_roundSent
  have hidle : (Replay.idleSent (((3 : ℕ) - 3) * period) finalIdle).flatten.map
      (Operation.normalized 0) = normalized finalIdle.toList 0 := by
    have hnow : 0 - (((3 : ℕ) : ℤ) - 3) * period = 0 := by ring
    rw [(rounds.idleSent sound).normalized, later_normalized_calls, hnow]
  have hcalls : normalized calls = normalized first 0 ++ (normalized steady 0 ++
      (normalized third 0 ++ normalized finalIdle.toList 0)) := by
    rw [← rounds.flatten]
    simp [normalized]
  have hrefl : ∀ xs : List (Operation Interval ℕ), List.Forall₂ Same xs xs :=
    fun xs => List.forall₂_same.2 fun _ _ => .inl rfl
  have hrange : (List.range 3).flatMap (iterationSent first steady period) =
      iterationSent first steady period 0 ++ (iterationSent first steady period 1 ++
        iterationSent first steady period 2) := by
    simp [List.range_succ]
  rw [hcalls, hrange, List.flatten_append, List.flatten_append, List.flatten_append,
    List.map_append, List.map_append, List.map_append, hiteration, hiteration, hiteration, hidle,
    List.append_assoc, List.append_assoc]
  refine forall₂_append (hrefl _) (forall₂_append ?_ (forall₂_append ?_ (hrefl _)))
  · have h : 0 - iterationShift period 1 = 0 := by simp [iterationShift]
    rw [h]
    exact hrefl _
  · have h : 0 - iterationShift period 2 = 0 - 1 * period := by simp [iterationShift]
    rw [h]
    exact same_of_periodic periodic

/-- Up to identities, an iteration is one of the first two rounds at another time. -/
theorem normalized_iterationSent (k : ℕ) : ∃ group ∈ [first, steady, third][min k 1]?,
    (iterationSent first steady period k).map (List.map (Operation.normalized 0)) =
      (roundBatches group).map (List.map (Operation.later ((k - 1 : ℕ) * period))) := by
  cases k with
  | zero =>
    have hshift : iterationShift period 0 = ((0 - 1 : ℕ) : ℤ) * period := by simp [iterationShift]
    refine ⟨first, rfl, ?_⟩
    rw [iterationSent, normalized_roundSent, hshift]
    rfl
  | succ k =>
    have hgroup : [first, steady, third][min (k + 1) 1]? = some steady := by simp
    refine ⟨steady, hgroup, ?_⟩
    rw [iterationSent, normalized_roundSent, Nat.add_sub_cancel]
    rfl

/-- Every replay of a sound recording extends it. -/
theorem extends_of_rounds {n : ℕ} (sound : Sound calls trace)
    (rounds : Rounds calls trace ends [first, steady, third] finalIdle)
    (periodic : (normalized steady period == normalized third (2 * period)) = true) (hn : 0 < n) :
    Extends calls [first, steady, third] finalIdle period n
      ((List.range n).map (iterationSent first steady period))
      (idleSent (((n : ℤ) - 3) * period) finalIdle) := by
  have hsound := rounds.soundIterations sound
  obtain ⟨t, final, hfirst, hsteady, hfinal⟩ := rounds.spans sound periodic
  have hiterations : ((List.range n).map (iterationSent first steady period)).flatten =
      (List.range n).flatMap (iterationSent first steady period) := List.flatMap_def.symm
  have hidle := rounds.idleSent sound (d := ((n : ℤ) - 3) * period)
  constructor
  case count => simp
  case iteration =>
    intro k sent hk
    rw [List.getElem?_map, Option.map_eq_some_iff] at hk
    obtain ⟨k', hk', rfl⟩ := hk
    obtain ⟨hlt, rfl⟩ := List.getElem?_eq_some_iff.1 hk'
    rw [List.getElem_range]
    exact normalized_iterationSent k
  case final => exact hidle.normalized
  case contiguous =>
    rw [hiterations, List.flatten_append]
    have hall := contiguous_iterations hfirst hsteady n
    generalize idleSent (((n : ℤ) - 3) * period) finalIdle = idle at hidle ⊢
    cases hidle with
    | none =>
      rw [List.flatten_nil, List.append_nil]
      exact ⟨_, hall⟩
    | @some start tick call hoperation =>
      rw [Option.toList_some, List.map_singleton, hoperation] at hfinal
      obtain ⟨hstart, hle, -⟩ := hfinal
      have hstart : start = t + 2 * period := hstart
      have hle : t + 2 * period ≤ tick := hle
      have hend : iterationStart t period n = start + ((n : ℤ) - 3) * period := by
        obtain ⟨k, rfl⟩ := Nat.exists_eq_succ_of_ne_zero hn.ne'
        rw [hstart, iterationStart, Nat.cast_succ]
        ring
      refine ⟨tick + ((n : ℤ) - 3) * period, contiguous_append.2 ⟨_, hall, ?_⟩⟩
      rw [hend]
      refine ⟨rfl, ?_, rfl⟩
      change start + _ ≤ tick + _
      omega
  case paired =>
    intro iteration hiteration
    obtain ⟨k, -, rfl⟩ := List.mem_map.1 hiteration
    exact (hsound k).paired_roundSent
  case distinct =>
    rw [hiterations, references_iterations hsound]
    exact List.nodup_range'
  case unique => exact disjoint_iterations hsound n
  case epoch =>
    intro x hx
    rcases List.mem_append.1 hx with hx | hx
    · obtain ⟨c, hc, rfl⟩ := List.mem_map.1 hx
      exact sound.epoch c hc
    · rw [hiterations] at hx
      obtain ⟨batch, hbatch, hx⟩ := List.mem_flatten.1 hx
      obtain ⟨k, -, hk⟩ := List.mem_flatMap.1 hbatch
      exact epoch_roundSent (List.mem_flatten.2 ⟨batch, hk, hx⟩)
  case undriven =>
    intro batch hbatch
    generalize idleSent (((n : ℤ) - 3) * period) finalIdle = idle at hidle hbatch
    cases hidle with
    | none => simp at hbatch
    | some _ => exact ⟨_, _, List.mem_singleton.1 hbatch⟩
  case whole =>
    intro batch hbatch
    rw [hiterations] at hbatch
    rcases List.mem_append.1 hbatch with hbatch | hbatch
    · obtain ⟨k, -, hk⟩ := List.mem_flatMap.1 hbatch
      exact (hsound k).whole hk
    · generalize idleSent (((n : ℤ) - 3) * period) finalIdle = idle at hidle hbatch
      cases hidle with
      | none => simp at hbatch
      | some _ =>
        rw [List.mem_singleton.1 hbatch]
        simp
  case recorded =>
    rintro rfl
    rw [hiterations]
    exact rounds.recorded sound periodic

end Iterations
end Replay
end Qsbit

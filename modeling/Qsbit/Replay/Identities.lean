import Qsbit.Replay.Rounds
import Mathlib.Data.List.Nodup

/-!
# Identities of an iteration

An iteration numbers the references of its round in order, after the numbers of the
iterations before. The acquisitions take the numbers of the references that they are
measured with, and everything is moved in time. As long as no reference is recorded twice
in a round, nothing is looked up in vain and the numbers are consecutive.

## Main definitions

* `numbering` — the number of a measurement.
* `Operation.renamed` — an operation of an iteration.
* `Paired` — acquisitions and references agree.
-/
namespace Qsbit
namespace Replay

/-! ## Numbers -/

/-- The number of a measurement after those that have been numbered: its place in the references. -/
def numbering (references : List MeasurementReference) (identity measurement : ℕ) : ℕ :=
  identity + 1 + (references.map (·.measurement)).idxOf measurement

section Numbers
variable {references : List MeasurementReference} {identity measurement : ℕ}
  {identities : List (ℕ × ℕ)}

theorem identify_append {more : List MeasurementReference} :
    identify (references ++ more) identity identities =
      identify more (identify references identity identities).1
        (identify references identity identities).2 := by
  simp [identify, List.foldl_append]

theorem identifyAll_eq {calls : List Call} : identifyAll calls identity identities =
    identify (calls.flatMap (·.operation.references)) identity identities := by
  induction calls generalizing identity identities with
  | nil => rfl
  | cons call rest ih => rw [identifyAll, ih, List.flatMap_cons, identify_append]

theorem identify_cons {r : MeasurementReference} :
    identify (r :: references) identity identities =
      identify references (identity + 1) ((r.measurement, identity + 1) :: identities) := rfl

theorem identify_fst :
    (identify references identity identities).1 = identity + references.length := by
  induction references generalizing identity identities with
  | nil => rfl
  | cons r references ih =>
    rw [identify_cons, ih, List.length_cons]
    omega

theorem numbering_cons {r : MeasurementReference} : numbering (r :: references) identity measurement =
    if r.measurement = measurement then identity + 1
    else numbering references (identity + 1) measurement := by
  unfold numbering
  rw [List.map_cons, List.idxOf_cons]
  by_cases h : r.measurement = measurement
  · simp [h]
  · simp only [beq_iff_eq, h, if_false, Bool.cond_eq_ite]
    omega

/-- The number of every reference is found. -/
theorem lookup_identify (hnodup : (references.map (·.measurement)).Nodup) :
    (identify references identity identities).2.lookup measurement =
      if measurement ∈ references.map (·.measurement) then
        some (numbering references identity measurement)
      else identities.lookup measurement := by
  induction references generalizing identity identities with
  | nil => rfl
  | cons r references ih =>
    obtain ⟨hr, hrest⟩ := List.nodup_cons.1 hnodup
    rw [identify_cons, ih hrest, numbering_cons]
    by_cases h : r.measurement = measurement
    · subst h
      simp only [if_neg hr, List.map_cons, List.mem_cons_self, if_true, List.lookup_cons_self]
    · have hne : (measurement == r.measurement) = false := by simpa using Ne.symm h
      simp only [List.lookup_cons, hne, List.map_cons, List.mem_cons, Ne.symm h, false_or, h,
        if_false]

/-- The references are numbered consecutively. -/
theorem map_numbering (hnodup : (references.map (·.measurement)).Nodup) :
    (references.map fun r => numbering references identity r.measurement) =
      List.range' (identity + 1) references.length := by
  refine List.ext_getElem (by simp) fun i h h' => ?_
  have hi : i < references.length := by simpa using h
  have hidx : (references.map (·.measurement)).idxOf references[i].measurement = i := by
    have := hnodup.idxOf_getElem i (by simpa using hi)
    simpa using this
  rw [List.getElem_map, numbering, hidx, List.getElem_range']
  omega

theorem numbering_inj {m m' : ℕ} (hm : m ∈ references.map (·.measurement))
    (h : numbering references identity m = numbering references identity m') : m = m' := by
  have hidx : (references.map (·.measurement)).idxOf m =
      (references.map (·.measurement)).idxOf m' := by
    unfold numbering at h
    omega
  exact (List.idxOf_inj hm).1 hidx

end Numbers

/-! ## Operations of an iteration -/

/-- The activity at another time; an acquisition has another measurement. -/
def Activity.renamed (number : ℕ → ℕ) (d : ℤ) (x : Activity) : Activity :=
  { x with
    start := x.start + d, «end» := x.end + d
    measurement := if x.kind = .acquire then x.measurement.map number else x.measurement }

def renamedReference (number : ℕ → ℕ) (r : MeasurementReference) : MeasurementReference :=
  { r with epoch := 1, measurement := number r.measurement }

def Operation.renamed (number : ℕ → ℕ) (d : ℤ) : Request → Request
  | .evolve start tick drives acquisitions =>
      .evolve (start + d) (tick + d) (drives.map (Activity.renamed number d))
        (acquisitions.map (Activity.renamed number d))
  | .apply tick gates => .apply (tick + d) gates
  | .measure tick references => .measure (tick + d) (references.map (renamedReference number))

section Renamed
variable {number : ℕ → ℕ} {d shift : ℤ} {x : Request}

@[simp] theorem tick_renamed : (x.renamed number d).tick = x.tick + d := by cases x <;> rfl

@[simp] theorem start_renamed : (x.renamed number d).start = x.start + d := by cases x <;> rfl

@[simp] theorem isMeasure_renamed : (x.renamed number d).isMeasure = x.isMeasure := by
  cases x <;> rfl

@[simp] theorem references_renamed :
    (x.renamed number d).references = x.references.map (renamedReference number) := by
  cases x <;> rfl

@[simp] theorem acquisitions_renamed :
    (x.renamed number d).acquisitions = x.acquisitions.map (Activity.renamed number d) := by
  cases x <;> rfl

/-- Up to identities, only the time is another. -/
theorem normalized_renamed :
    (x.renamed number d).normalized shift = x.normalized (shift - d) := by
  cases x with
  | evolve start tick drives acquisitions =>
    have hinterval : ∀ y : Activity, (y.renamed number d).toInterval.shift (-shift) =
        y.toInterval.shift (-(shift - d)) := by
      intro y
      simp only [Activity.renamed, Interval.shift, Interval.mk.injEq, true_and]
      omega
    have hlist : ∀ ys : List Activity,
        (ys.map (Activity.renamed number d)).map (fun y => y.toInterval.shift (-shift)) =
          ys.map fun y => y.toInterval.shift (-(shift - d)) := by
      intro ys
      rw [List.map_map]
      exact List.map_congr_left fun y _ => hinterval y
    simp only [Operation.renamed, Operation.normalized, hlist, Operation.evolve.injEq, and_true]
    omega
  | apply tick gates =>
    simp only [Operation.renamed, Operation.normalized, Operation.apply.injEq, and_true]
    omega
  | measure tick references =>
    have htargets : (references.map (renamedReference number)).map (·.target) =
        references.map (·.target) := by
      rw [List.map_map]
      rfl
    simp only [Operation.renamed, Operation.normalized, htargets, Operation.measure.injEq, and_true]
    omega

theorem Contiguous.renamed {a b : ℤ} {xs : List Request} (h : Contiguous a xs b) :
    Contiguous (a + d) (xs.map (Operation.renamed number d)) (b + d) := by
  induction xs generalizing a with
  | nil =>
    obtain rfl : a = b := h
    rfl
  | cons x xs ih =>
    obtain ⟨rfl, hle, hxs⟩ := h
    refine ⟨start_renamed, ?_, ?_⟩
    · rw [tick_renamed]
      omega
    · rw [tick_renamed]
      exact ih hxs

end Renamed

/-! ## Looking up -/

theorem mapM_eq_ok {ε α β : Type} {f : α → Except ε β} {g : α → β} {xs : List α}
    (h : ∀ x ∈ xs, f x = .ok (g x)) : xs.mapM f = .ok (xs.map g) := by
  induction xs with
  | nil => rfl
  | cons x xs ih =>
    obtain ⟨hx, hxs⟩ := List.forall_mem_cons.1 h
    rw [List.mapM_cons, hx, ih hxs]
    rfl

/-- Acquisitions and references agree: each acquisition is measured when it ends with a reference
to its target, each reference belongs to an acquisition that ends with it, and only one does. -/
structure Paired (operations : List Request) : Prop where
  measured : ∀ operation ∈ operations, ∀ x ∈ operation.acquisitions, x.kind = .acquire ∧
    ∃ references, .measure x.end references ∈ operations ∧
      ∃ r ∈ references, x.measurement = some r.measurement ∧ x.targets = [r.target]
  acquired : ∀ tick references, .measure tick references ∈ operations → ∀ r ∈ references,
    ∃ operation ∈ operations, ∃ x ∈ operation.acquisitions,
      x.end = tick ∧ x.measurement = some r.measurement ∧ x.targets = [r.target]
  single : ∀ operation ∈ operations, ∀ operation' ∈ operations, ∀ x ∈ operation.acquisitions,
    ∀ x' ∈ operation'.acquisitions, x.measurement = x'.measurement → x = x'

/-- The drives of an operation acquire nothing. -/
def Operation.Driven : Request → Prop
  | .evolve _ _ drives _ => ∀ x ∈ drives, x.kind ≠ .acquire
  | _ => True

section Lookup
variable {operations : List Request} {x : Request} {identities : List (ℕ × ℕ)} {identity : ℕ}
  {number : ℕ → ℕ} {d : ℤ}

theorem Paired.mem_references (h : Paired operations) (hx : x ∈ operations) {y : Activity}
    (hy : y ∈ x.acquisitions) :
    ∃ r ∈ operations.flatMap (·.references), y.measurement = some r.measurement := by
  obtain ⟨-, references, hmeasure, r, hr, hmeasurement, -⟩ := h.measured x hx y hy
  exact ⟨r, List.mem_flatMap.2 ⟨_, hmeasure, hr⟩, hmeasurement⟩

/-- Nothing is looked up in vain. -/
theorem Paired.rename (h : Paired operations) (hx : x ∈ operations) (hdriven : x.Driven)
    (hlookup : ∀ r ∈ operations.flatMap (·.references),
      identities.lookup r.measurement = some (number r.measurement)) :
    Replay.rename identities d x = .ok (x.renamed number d) := by
  cases x with
  | evolve start tick drives acquisitions =>
    have hdrives : drives.mapM (renameActivity identities d) =
        .ok (drives.map (Activity.renamed number d)) := by
      refine mapM_eq_ok fun y hy => ?_
      have hkind : y.kind ≠ .acquire := hdriven y hy
      simp only [renameActivity, Activity.renamed, if_neg hkind]
      rfl
    have hacquisitions : acquisitions.mapM (renameActivity identities d) =
        .ok (acquisitions.map (Activity.renamed number d)) := by
      refine mapM_eq_ok fun y hy => ?_
      have hkind : y.kind = .acquire := (h.measured _ hx y hy).1
      obtain ⟨r, hr, hmeasurement⟩ := h.mem_references hx hy
      simp only [renameActivity, Activity.renamed, if_pos hkind, hmeasurement, identityOf,
        hlookup r hr, Option.map_some]
      rfl
    simp only [Replay.rename, hdrives, hacquisitions]
    rfl
  | apply tick gates => rfl
  | measure tick references =>
    have hreferences : references.mapM (renameReference identities) =
        .ok (references.map (renamedReference number)) := by
      refine mapM_eq_ok fun r hr => ?_
      have hmem : r ∈ operations.flatMap (·.references) := List.mem_flatMap.2 ⟨_, hx, hr⟩
      simp only [renameReference, identityOf, hlookup r hmem]
      rfl
    simp only [Replay.rename, hreferences]
    rfl

/-- Renaming keeps the pairs, if it does not confuse references. -/
theorem Paired.renamed (h : Paired operations)
    (hinj : ∀ r ∈ operations.flatMap (·.references), ∀ r' ∈ operations.flatMap (·.references),
      number r.measurement = number r'.measurement → r.measurement = r'.measurement) :
    Paired (operations.map (Operation.renamed number d)) := by
  refine ⟨?_, ?_, ?_⟩
  · intro operation hoperation x hx
    obtain ⟨y, hy, rfl⟩ := List.mem_map.1 hoperation
    rw [acquisitions_renamed] at hx
    obtain ⟨z, hz, rfl⟩ := List.mem_map.1 hx
    obtain ⟨hkind, references, hmeasure, r, hr, hmeasurement, htargets⟩ := h.measured y hy z hz
    refine ⟨hkind, references.map (renamedReference number), ?_, renamedReference number r,
      List.mem_map_of_mem hr, ?_, htargets⟩
    · exact List.mem_map.2 ⟨_, hmeasure, rfl⟩
    · simp [Activity.renamed, hkind, hmeasurement, renamedReference]
  · intro tick references hmeasure r hr
    obtain ⟨y, hy, heq⟩ := List.mem_map.1 hmeasure
    cases y with
    | evolve start tick drives acquisitions => simp [Operation.renamed] at heq
    | apply tick gates => simp [Operation.renamed] at heq
    | measure tick' references' =>
      obtain ⟨rfl, rfl⟩ := Operation.measure.inj heq
      obtain ⟨r', hr', rfl⟩ := List.mem_map.1 hr
      obtain ⟨operation, hoperation, x, hx, rfl, hmeasurement, htargets⟩ :=
        h.acquired tick' references' hy r' hr'
      have hkind := (h.measured operation hoperation x hx).1
      refine ⟨_, List.mem_map_of_mem hoperation, x.renamed number d, ?_, rfl, ?_, htargets⟩
      · rw [acquisitions_renamed]
        exact List.mem_map_of_mem hx
      · simp [Activity.renamed, hkind, hmeasurement, renamedReference]
  · intro operation hoperation operation' hoperation' x hx x' hx' hsame
    obtain ⟨y, hy, rfl⟩ := List.mem_map.1 hoperation
    obtain ⟨y', hy', rfl⟩ := List.mem_map.1 hoperation'
    rw [acquisitions_renamed] at hx hx'
    obtain ⟨z, hz, rfl⟩ := List.mem_map.1 hx
    obtain ⟨z', hz', rfl⟩ := List.mem_map.1 hx'
    obtain ⟨r, hr, hmeasurement⟩ := h.mem_references hy hz
    obtain ⟨r', hr', hmeasurement'⟩ := h.mem_references hy' hz'
    have hkind := (h.measured y hy z hz).1
    have hkind' := (h.measured y' hy' z' hz').1
    simp only [Activity.renamed, if_pos hkind, if_pos hkind', hmeasurement, hmeasurement',
      Option.map_some, Option.some.injEq] at hsame
    have hmeasurements := hinj r hr r' hr' hsame
    obtain rfl := h.single y hy y' hy' z hz z' hz' (by rw [hmeasurement, hmeasurement', hmeasurements])
    rfl

end Lookup
end Replay
end Qsbit

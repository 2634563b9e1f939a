import Qsbit.TimingControl.Results

/-!
# The law of the measurement registers

The registers serve reservations, results, credits and reads in any order. The
history of a run says what they have accepted since the last reset. A register can
be read once all that has been reserved for it has been delivered, and then shows
the latest.

## Main definitions

* `RegisterCall`, `RegisterHistory`, `RegisterRun` — the calls, what they have done, and runs.
* `Mirrored` — the registers hold what has been reserved and not delivered.
* `register_law` — counts, capacities, identities, reads and rejections.
-/
namespace Qsbit
open Std (ExtTreeMap)
open MeasurementRegisters (emplaceAll countPending)
open TimingControl (prepareReservation_eq_ok)

/-- A call of the registers. -/
inductive RegisterCall
  | prepare (epoch : ℕ) (targets : List ℕ)
  | commit (references : List MeasurementReference)
  | deliver (completion : Completion) (epoch : ℕ)
  | acknowledge (reference : MeasurementReference) (epoch : ℕ)
  | read (target : ℕ)

/-- What the registers have accepted since the last reset. -/
structure RegisterHistory where
  reserved : List MeasurementReference := []
  delivered : List Completion := []
  credited : List MeasurementReference := []

namespace RegisterCall

def run : RegisterCall → Sim MeasurementRegisters Unit
  | .prepare epoch targets => do
      let m ← Proc.get
      let _ ← m.prepareReservation epoch targets
      pure ()
  | .commit references => MeasurementRegisters.commitReservation references
  | .deliver completion epoch => do
      let m ← Proc.get
      Proc.set (← m.deliver completion epoch)
  | .acknowledge reference epoch => do
      let m ← Proc.get
      Proc.set (← m.acknowledgeFast reference epoch)
  | .read target => do
      let m ← Proc.get
      let _ ← m.read target
      pure ()

/-- What an accepted call adds. A result or a credit of another epoch is dropped. -/
def record (history : RegisterHistory) : RegisterCall → RegisterHistory
  | .commit references => { history with reserved := history.reserved ++ references }
  | .deliver completion epoch =>
      if completion.reference.epoch = epoch then
        { history with delivered := history.delivered ++ [completion] }
      else history
  | .acknowledge reference epoch =>
      if reference.epoch = epoch then { history with credited := history.credited ++ [reference] }
      else history
  | .prepare _ _ | .read _ => history

end RegisterCall

/-- The runs of the registers, with calls that are accepted and calls that are rejected. -/
inductive RegisterRun (config : FeedbackConfig) : RegisterHistory → MeasurementRegisters → Prop
  | make : RegisterRun config {} (MeasurementRegisters.make config)
  | reset {history : RegisterHistory} {m : MeasurementRegisters} (run : RegisterRun config history m) :
      RegisterRun config {} m.reset
  | accepted {history : RegisterHistory} {m m' : MeasurementRegisters} {l : List TraceEvent}
      (run : RegisterRun config history m) (call : RegisterCall) (h : call.run.Returns m () m' l) :
      RegisterRun config (call.record history) m'
  | rejected {history : RegisterHistory} {m m' : MeasurementRegisters} {f : Fault}
      {l : List TraceEvent} (run : RegisterRun config history m) (call : RegisterCall)
      (h : call.run.Raises m f m' l) : RegisterRun config history m'

/-! ## Rejections -/

section Rejections
variable {m m' : MeasurementRegisters} {f : Fault} {l : List TraceEvent}

/-- A reservation that is not the one prepared is rejected before anything is changed. -/
theorem commitReservation_raises {references : List MeasurementReference}
    (h : (MeasurementRegisters.commitReservation references).Raises m f m' l) : m' = m ∧ l = [] := by
  unfold MeasurementRegisters.commitReservation at h
  split at h
  · simp at h
  · rename_i first rest
    simp only [Proc.raises_get_bind_iff, Proc.raises_lift_bind_iff, require_eq_error_iff,
      require_eq_ok_iff, Proc.raises_set_bind_iff, Proc.not_raises_modify, and_false, exists_false,
      or_false] at h
    rcases h with ⟨-, rfl, rfl⟩ | ⟨expected, hexpected, h⟩
    · exact ⟨rfl, rfl⟩
    rcases h with ⟨-, rfl, rfl⟩ | ⟨_, -, hadd, -⟩
    · exact ⟨rfl, rfl⟩
    -- The sum has been checked when the reservation was prepared.
    · simp only [MeasurementRegisters.prepareReservation, Except.bind_eq_ok_iff, require_eq_ok_iff,
        exists_const, List.length_map] at hexpected
      obtain ⟨-, sum, hsum, -⟩ := hexpected
      rw [hsum] at hadd
      simp at hadd

theorem RegisterCall.raises {call : RegisterCall} (h : call.run.Raises m f m' l) :
    m' = m ∧ l = [] := by
  cases call with
  | prepare epoch targets =>
    simp only [run, Proc.raises_get_bind_iff, Proc.raises_lift_bind_iff, Proc.not_raises_pure,
      and_false, exists_false, or_false] at h
    exact ⟨h.2.1.symm, h.2.2.symm⟩
  | commit references => exact commitReservation_raises h
  | deliver completion epoch =>
    simp only [run, Proc.raises_get_bind_iff, Proc.raises_lift_bind_iff, Proc.not_raises_set,
      and_false, exists_false, or_false] at h
    exact ⟨h.2.1.symm, h.2.2.symm⟩
  | acknowledge reference epoch =>
    simp only [run, Proc.raises_get_bind_iff, Proc.raises_lift_bind_iff, Proc.not_raises_set,
      and_false, exists_false, or_false] at h
    exact ⟨h.2.1.symm, h.2.2.symm⟩
  | read target =>
    simp only [run, Proc.raises_get_bind_iff, Proc.raises_lift_bind_iff, Proc.not_raises_pure,
      and_false, exists_false, or_false] at h
    exact ⟨h.2.1.symm, h.2.2.symm⟩

end Rejections

/-! ## What the registers hold -/

/-- The value of a target is that of its latest delivery. -/
def RegisterHistory.value (history : RegisterHistory) (target : ℕ) : Bool :=
  ((history.delivered.filter (·.reference.target = target)).getLast?.map (·.value)).getD false

/-- What is pending has been reserved and not delivered, and each target gets its results in the
order of their reservation. -/
structure Mirrored (config : FeedbackConfig) (history : RegisterHistory)
    (flight : List MeasurementReference) (m : MeasurementRegisters) : Prop where
  same : m.config = config
  length : m.registers.length = config.qubits
  ids : history.reserved.map (·.measurement) = List.range' 1 history.reserved.length
  next : m.nextMeasurement = history.reserved.length + 1
  valid : ∀ r ∈ history.reserved, r.target < config.qubits
  ledger : Ledger (·.measurement) m.pending flight
  order : flight.Sublist history.reserved
  split : ∀ t, history.reserved.filter (·.target = t) =
    (history.delivered.map (·.reference)).filter (·.target = t) ++ flight.filter (·.target = t)
  registers : ∀ t < config.qubits, m.registers[t]? =
    some { pending := flight.countP (·.target = t), value := history.value t }
  counts : ∀ t, flight.countP (·.target = t) < 2 ^ 32
  room : m.pending.size ≤ config.resultCapacity
  fastRoom : m.fastPending.size ≤ config.resultCapacity
  fastIssued : ∀ k ∈ m.fastPending, k < m.nextMeasurement

section Steps
variable {config : FeedbackConfig} {history : RegisterHistory} {flight : List MeasurementReference}
  {m m' : MeasurementRegisters} {l : List TraceEvent}

theorem registered_make : Mirrored config {} [] (MeasurementRegisters.make config) where
  same := rfl
  length := by simp [MeasurementRegisters.make]
  ids := rfl
  next := rfl
  valid := by simp
  ledger := .empty
  order := .refl _
  split := by simp
  registers := by
    intro t ht
    simp [MeasurementRegisters.make, RegisterHistory.value, ht]
  counts := by simp
  room := by simp [MeasurementRegisters.make]
  fastRoom := by simp [MeasurementRegisters.make]
  fastIssued := by simp [MeasurementRegisters.make]

/-- A reset leaves the registers as they have been made. -/
theorem Mirrored.reset (h : Mirrored config history flight m) :
    m.reset = MeasurementRegisters.make config := by
  have hregisters : (m.registers.map fun _ => ({} : MeasurementRegisters.Register)) =
      List.replicate config.qubits {} := by
    rw [List.map_const', h.length]
  rw [MeasurementRegisters.reset, hregisters, h.same]
  rfl

theorem getElem?_countPending {registers : List MeasurementRegisters.Register} {targets : List ℕ}
    {t : ℕ} : (countPending registers targets)[t]? =
      registers[t]?.map fun r => { r with pending := r.pending + targets.count t } := by
  induction targets generalizing registers with
  | nil => simp [countPending]
  | cons target rest ih =>
    have hcons : countPending registers (target :: rest) =
        countPending (registers.modify target fun r => { r with pending := r.pending + 1 }) rest := rfl
    rw [hcons, ih, List.getElem?_modify, List.count_cons]
    by_cases ht : target = t
    · cases registers[t]? with
      | none => simp
      | some r =>
        simp only [ht, if_true, Option.map_eq_map, Option.map_some, beq_self_eq_true]
        rw [Nat.add_assoc, Nat.add_comm 1]
    · simp [ht]

theorem length_countPending {registers : List MeasurementRegisters.Register} {targets : List ℕ} :
    (countPending registers targets).length = registers.length := by
  induction targets generalizing registers with
  | nil => rfl
  | cons target rest ih =>
    have hcons : countPending registers (target :: rest) =
        countPending (registers.modify target fun r => { r with pending := r.pending + 1 }) rest := rfl
    rw [hcons, ih, List.length_modify]

theorem size_emplaceAll_le (entries : ExtTreeMap ℕ MeasurementReference)
    (references : List MeasurementReference) :
    (emplaceAll entries references).size ≤ entries.size + references.length := by
  induction references generalizing entries with
  | nil => simp [emplaceAll]
  | cons r rest ih =>
    have hcons : emplaceAll entries (r :: rest) =
        emplaceAll (entries.insertIfNew r.measurement r) rest := rfl
    have hone := ExtTreeMap.size_insertIfNew_le (t := entries) (k := r.measurement) (v := r)
    have hrest := ih (entries.insertIfNew r.measurement r)
    rw [hcons, List.length_cons]
    omega

theorem mem_emplaceAll {entries : ExtTreeMap ℕ MeasurementReference}
    {references : List MeasurementReference} {k : ℕ} : k ∈ emplaceAll entries references ↔
      k ∈ entries ∨ ∃ r ∈ references, r.measurement = k := by
  induction references generalizing entries with
  | nil => simp [emplaceAll]
  | cons r rest ih =>
    have hcons : emplaceAll entries (r :: rest) =
        emplaceAll (entries.insertIfNew r.measurement r) rest := rfl
    rw [hcons, ih, ExtTreeMap.mem_insertIfNew, compare_eq_iff_eq, List.exists_mem_cons_iff]
    tauto

/-- What is in flight has been handed out, in increasing order. -/
theorem Mirrored.sorted (h : Mirrored config history flight m) :
    flight.Pairwise (·.measurement < ·.measurement) ∧
      ∀ r ∈ flight, 1 ≤ r.measurement ∧ r.measurement < m.nextMeasurement := by
  constructor
  · have hall : (history.reserved.map (·.measurement)).Pairwise (· < ·) := by
      rw [h.ids]
      exact List.pairwise_lt_range'
    exact (List.pairwise_map.1 hall).sublist h.order
  · intro r hr
    have hmem : r.measurement ∈ history.reserved.map (·.measurement) :=
      List.mem_map_of_mem (h.order.subset hr)
    rw [h.ids, List.mem_range'_1] at hmem
    rw [h.next]
    omega

theorem valid_of_referencesFor {epoch made : ℕ} {targets rest : List ℕ}
    {found : List MeasurementReference} (h : m.referencesFor epoch targets made rest = .ok found) :
    ∀ t ∈ rest, t < m.registers.length ∧
      targets.count t ≤ 2 ^ 32 - 1 - (m.registers[t]?.getD {}).pending := by
  induction rest generalizing made found with
  | nil => simp
  | cons t rest ih =>
    simp only [MeasurementRegisters.referencesFor, Except.bind_eq_ok_iff, require_eq_ok_iff,
      exists_const, Except.pure_eq_ok_iff] at h
    obtain ⟨hvalid, hcount, _, -, tail, htail, -⟩ := h
    exact List.forall_mem_cons.2 ⟨⟨hvalid, hcount⟩, ih htail⟩

/-- A reservation follows those before it. -/
theorem Mirrored.commit {epoch : ℕ} {targets : List ℕ} {references : List MeasurementReference}
    (h : Mirrored config history flight m)
    (prepared : m.prepareReservation epoch targets = .ok references) :
    Mirrored config { history with reserved := history.reserved ++ references }
      (flight ++ references) (m.enlist references) := by
  have hreferences := prepareReservation_eq_ok prepared
  simp only [MeasurementRegisters.prepareReservation, Except.bind_eq_ok_iff, require_eq_ok_iff,
    exists_const] at prepared
  obtain ⟨hcapacity, _, -, hmade⟩ := prepared
  have hvalid := valid_of_referencesFor hmade
  simp only [MeasurementRegisters.hasCapacity, decide_eq_true_eq, h.same] at hcapacity
  have hlength : references.length = targets.length := by simp [hreferences, Staging.references]
  have htargets : references.map (·.target) = targets := by
    rw [hreferences]
    exact map_target_references
  have hids : references.map (·.measurement) = List.range' m.nextMeasurement targets.length := by
    rw [hreferences]
    exact map_measurement_references
  have hcount : ∀ t, references.countP (·.target = t) = targets.count t := by
    intro t
    rw [← htargets, List.count, List.countP_map]
    refine List.countP_congr ?_
    simp
  have hnew : ∀ r ∈ references, r.measurement ∉ m.pending := by
    intro r hr hmem
    have hle : r.measurement ∈ List.range' m.nextMeasurement targets.length :=
      hids ▸ List.mem_map_of_mem hr
    rw [List.mem_range'_1] at hle
    obtain ⟨r', hr'⟩ := Option.isSome_iff_exists.1 (ExtTreeMap.mem_iff_isSome_getElem?.1 hmem)
    have hkey := h.ledger.keyed _ _ hr'
    have hlt := (h.sorted.2 r' ((h.ledger.mem_iff r').2 (hkey ▸ hr'))).2
    omega
  have hfits : ∀ t, flight.countP (·.target = t) + targets.count t < 2 ^ 32 := by
    intro t
    by_cases ht : t ∈ targets
    · obtain ⟨hbound, hle⟩ := hvalid t ht
      rw [h.length] at hbound
      rw [h.registers t hbound, Option.getD_some] at hle
      change _ ≤ 2 ^ 32 - 1 - flight.countP (·.target = t) at hle
      have hold := h.counts t
      omega
    · rw [List.count_eq_zero_of_not_mem ht]
      exact h.counts t
  refine
    { same := h.same
      length := length_countPending.trans h.length
      ids := ?_
      next := ?_
      valid := ?_
      ledger := ?_
      order := h.order.append (.refl _)
      split := ?_
      registers := ?_
      counts := ?_
      room := ?_
      fastRoom := ?_
      fastIssued := ?_ }
  · rw [List.map_append, h.ids, hids, h.next, List.length_append, hlength,
      Nat.add_comm history.reserved.length 1, List.range'_append_1]
  · change m.nextMeasurement + references.length = _
    rw [h.next, List.length_append]
    omega
  · intro r hr
    rcases List.mem_append.1 hr with hr | hr
    · exact h.valid r hr
    · rw [← h.length]
      exact (hvalid r.target (htargets ▸ List.mem_map_of_mem hr)).1
  · refine (h.ledger.enterAll hnew ?_).perm List.perm_append_comm
    rw [hids]
    exact List.nodup_range'
  · intro t
    simp only [List.filter_append, h.split t, List.append_assoc]
  · intro t ht
    change (countPending m.registers (references.map (·.target)))[t]? = _
    rw [getElem?_countPending, h.registers t ht, htargets, Option.map_some, List.countP_append, hcount]
    rfl
  · intro t
    rw [List.countP_append, hcount]
    exact hfits t
  · have hsize := size_emplaceAll_le m.pending references
    have hroom := h.room
    rw [wrapSub_of_le hroom] at hcapacity
    change (emplaceAll m.pending references).size ≤ _
    omega
  · change (if m.config.fastFeedback then emplaceAll m.fastPending references
      else m.fastPending).size ≤ _
    have hroom := h.fastRoom
    split
    · rename_i hfast
      have hsize := size_emplaceAll_le m.fastPending references
      have hcapacity := hcapacity.2 (h.same ▸ hfast)
      rw [wrapSub_of_le hroom] at hcapacity
      omega
    · exact hroom
  · intro k hk
    change k ∈ (if m.config.fastFeedback then emplaceAll m.fastPending references
      else m.fastPending) at hk
    change k < m.nextMeasurement + references.length
    have hold : k ∈ m.fastPending → k < m.nextMeasurement + references.length := by
      intro hmem
      have hlt := h.fastIssued k hmem
      omega
    split at hk
    · rcases mem_emplaceAll.1 hk with hk | ⟨r, hr, rfl⟩
      · exact hold hk
      · have hle : r.measurement ∈ List.range' m.nextMeasurement targets.length :=
          hids ▸ List.mem_map_of_mem hr
        rw [List.mem_range'_1] at hle
        omega
    · exact hold hk

/-- A result that is accepted is that of the oldest measurement of its target. -/
theorem Mirrored.first {r : MeasurementReference} (h : Mirrored config history flight m)
    (hpending : m.pending[r.measurement]? = some r)
    (holdest : ∀ entry ∈ m.pending.toList, entry.1 < r.measurement → entry.2.target ≠ r.target) :
    ∃ rest, flight.filter (·.target = r.target) = r :: rest := by
  have hmem : r ∈ flight := (h.ledger.mem_iff r).2 hpending
  have hsorted := h.sorted.1.filter (·.target = r.target)
  cases hfilter : flight.filter (·.target = r.target) with
  | nil =>
    have hin : r ∈ flight.filter (·.target = r.target) := List.mem_filter.2 ⟨hmem, by simp⟩
    simp [hfilter] at hin
  | cons x rest =>
    have hx : x ∈ flight.filter (·.target = r.target) := by simp [hfilter]
    have hr : r ∈ x :: rest := hfilter ▸ List.mem_filter.2 ⟨hmem, by simp⟩
    obtain ⟨hxflight, hxtarget⟩ := List.mem_filter.1 hx
    rcases List.mem_cons.1 hr with rfl | hr
    · exact ⟨rest, rfl⟩
    · rw [hfilter, List.pairwise_cons] at hsorted
      have hlt := hsorted.1 r hr
      have hentry : (x.measurement, x) ∈ m.pending.toList :=
        ExtTreeMap.mem_toList_iff_getElem?_eq_some.2 (h.ledger.getElem? hxflight)
      exact absurd (by simpa using hxtarget) (holdest _ hentry hlt)

theorem Mirrored.deliver {c : Completion} {epoch : ℕ} (h : Mirrored config history flight m)
    (hepoch : c.reference.epoch = epoch) (hd : m.deliver c epoch = .ok m') :
    Mirrored config { history with delivered := history.delivered ++ [c] }
      (flight.erase c.reference) m' := by
  have holdest : ∀ entry ∈ m.pending.toList, entry.1 < c.reference.measurement →
      entry.2.target ≠ c.reference.target := by
    simp only [MeasurementRegisters.deliver, hepoch, ne_eq, not_true_eq_false, if_false,
      Except.bind_eq_ok_iff, require_eq_ok_iff, exists_const] at hd
    exact hd.2.2.1
  obtain ⟨hpending, rfl⟩ := MeasurementRegisters.deliver_eq_ok hepoch hd
  obtain ⟨rest, hrest⟩ := h.first hpending holdest
  have hmem : c.reference ∈ flight := (h.ledger.mem_iff _).2 hpending
  have hnodup : flight.Nodup := h.ledger.nodup.of_map _
  have hself : (flight.erase c.reference).filter (·.target = c.reference.target) = rest := by
    rw [← List.erase_filter, hrest, List.erase_cons_head]
  have hother : ∀ t, t ≠ c.reference.target →
      (flight.erase c.reference).filter (·.target = t) = flight.filter (·.target = t) := by
    intro t ht
    rw [← List.erase_filter, List.erase_of_not_mem]
    simp [Ne.symm ht]
  have hvalue : ∀ t, ({ history with delivered := history.delivered ++ [c] } : RegisterHistory).value t =
      if t = c.reference.target then c.value else history.value t := by
    intro t
    by_cases ht : t = c.reference.target
    · simp [RegisterHistory.value, List.filter_append, ht]
    · have hne : ¬ c.reference.target = t := fun heq => ht heq.symm
      simp [RegisterHistory.value, List.filter_append, ht, hne]
  have hcount : ∀ t, (flight.erase c.reference).countP (·.target = t) =
      if t = c.reference.target then flight.countP (·.target = t) - 1 else flight.countP (·.target = t) := by
    intro t
    rw [List.countP_eq_length_filter, List.countP_eq_length_filter]
    by_cases ht : t = c.reference.target
    · rw [if_pos ht, ht, hself, hrest]
      rfl
    · rw [if_neg ht, hother t ht]
  refine
    { same := h.same
      length := (List.length_modify ..).trans h.length
      ids := h.ids
      next := h.next
      valid := h.valid
      ledger := (h.ledger.perm (List.perm_cons_erase hmem)).settle
      order := List.erase_sublist.trans h.order
      split := ?_
      registers := ?_
      counts := ?_
      room := ExtTreeMap.size_erase_le.trans h.room
      fastRoom := h.fastRoom
      fastIssued := h.fastIssued }
  · intro t
    rw [h.split t, List.map_append, List.filter_append, List.append_assoc]
    by_cases ht : t = c.reference.target
    · rw [ht, hself, hrest]
      simp
    · have hne : ¬ c.reference.target = t := fun heq => ht heq.symm
      rw [hother t ht]
      simp [hne]
  · intro t hbound
    rw [hvalue, hcount, List.getElem?_modify, h.registers t hbound]
    by_cases ht : t = c.reference.target
    · have hpos : 1 ≤ flight.countP (·.target = t) := by
        rw [List.countP_eq_length_filter, ht, hrest]
        simp
      rw [if_pos ht, if_pos ht]
      simp only [if_pos ht.symm, Option.map_eq_map, Option.map_some, wrapSub_of_le hpos]
    · rw [if_neg ht, if_neg ht]
      simp only [if_neg (Ne.symm ht)]
      rfl
  · intro t
    have hold := h.counts t
    rw [hcount]
    split <;> omega

theorem Mirrored.acknowledge {r : MeasurementReference} {epoch : ℕ}
    (h : Mirrored config history flight m) (hepoch : r.epoch = epoch)
    (ha : m.acknowledgeFast r epoch = .ok m') :
    Mirrored config { history with credited := history.credited ++ [r] } flight m' := by
  obtain ⟨-, rfl⟩ := MeasurementRegisters.acknowledgeFast_eq_ok hepoch ha
  exact
    { h with
      fastRoom := ExtTreeMap.size_erase_le.trans h.fastRoom
      fastIssued := fun k hk => h.fastIssued k (ExtTreeMap.mem_of_mem_erase hk) }

/-- Every call keeps the registers as they should be. -/
theorem Mirrored.call {call : RegisterCall} (h : Mirrored config history flight m)
    (hr : call.run.Returns m () m' l) : ∃ flight', Mirrored config (call.record history) flight' m' := by
  cases call with
  | prepare epoch targets =>
    simp only [RegisterCall.run, Proc.returns_get_bind_iff, Proc.returns_lift_bind_iff,
      Proc.returns_pure_iff] at hr
    obtain ⟨_, -, -, rfl, -⟩ := hr
    exact ⟨flight, h⟩
  | commit references =>
    obtain rfl := commitReservation_returns hr
    cases references with
    | nil =>
      refine ⟨flight, ?_⟩
      have hnone : m.enlist [] = m := by
        simp [MeasurementRegisters.enlist, emplaceAll, countPending]
      rw [hnone, RegisterCall.record, List.append_nil]
      exact h
    | cons first rest =>
      change (MeasurementRegisters.commitReservation (first :: rest)).Returns _ _ _ _ at hr
      simp only [MeasurementRegisters.commitReservation, Proc.returns_get_bind_iff,
        Proc.returns_lift_bind_iff, require_eq_ok_iff, exists_const] at hr
      obtain ⟨expected, hexpected, rfl, -⟩ := hr
      exact ⟨_, h.commit hexpected⟩
  | deliver completion epoch =>
    simp only [RegisterCall.run, Proc.returns_get_bind_iff, Proc.returns_lift_bind_iff,
      Proc.returns_set_iff] at hr
    obtain ⟨m', hdeliver, rfl, -⟩ := hr
    by_cases hepoch : completion.reference.epoch = epoch
    · rw [RegisterCall.record, if_pos hepoch]
      exact ⟨_, h.deliver hepoch hdeliver⟩
    · rw [RegisterCall.record, if_neg hepoch]
      simp only [MeasurementRegisters.deliver, ne_eq, hepoch, not_false_eq_true, if_true,
        Except.pure_eq_ok_iff] at hdeliver
      exact ⟨flight, hdeliver ▸ h⟩
  | acknowledge reference epoch =>
    simp only [RegisterCall.run, Proc.returns_get_bind_iff, Proc.returns_lift_bind_iff,
      Proc.returns_set_iff] at hr
    obtain ⟨m', hacknowledge, rfl, -⟩ := hr
    by_cases hepoch : reference.epoch = epoch
    · rw [RegisterCall.record, if_pos hepoch]
      exact ⟨flight, h.acknowledge hepoch hacknowledge⟩
    · rw [RegisterCall.record, if_neg hepoch]
      simp only [MeasurementRegisters.acknowledgeFast, ne_eq, hepoch, not_false_eq_true, if_true,
        Except.pure_eq_ok_iff] at hacknowledge
      exact ⟨flight, hacknowledge ▸ h⟩
  | read target =>
    simp only [RegisterCall.run, Proc.returns_get_bind_iff, Proc.returns_lift_bind_iff,
      Proc.returns_pure_iff] at hr
    obtain ⟨_, -, -, rfl, -⟩ := hr
    exact ⟨flight, h⟩

theorem RegisterRun.registered (run : RegisterRun config history m) :
    ∃ flight, Mirrored config history flight m := by
  induction run with
  | make => exact ⟨[], registered_make⟩
  | reset run ih =>
    obtain ⟨flight, h⟩ := ih
    exact ⟨[], h.reset ▸ registered_make⟩
  | accepted run call h ih =>
    obtain ⟨flight, hold⟩ := ih
    exact hold.call h
  | rejected run call h ih =>
    obtain ⟨rfl, -⟩ := RegisterCall.raises h
    exact ih

end Steps

/-! ## Reading -/

/-- Everything that has been reserved for the target has been delivered. -/
def RegisterHistory.Complete (history : RegisterHistory) (target : ℕ) : Prop :=
  ∀ r ∈ history.reserved, r.target = target → ∃ c ∈ history.delivered, c.reference = r

/-- The value is what has been delivered for the latest reservation of the target. -/
def RegisterHistory.Latest (history : RegisterHistory) (target : ℕ) (value : Bool) : Prop :=
  match (history.reserved.filter (·.target = target)).getLast? with
  | none => value = false
  | some r => ∃ c ∈ history.delivered, c.reference = r ∧ c.value = value

section Law
variable {config : FeedbackConfig} {history : RegisterHistory} {flight : List MeasurementReference}
  {m : MeasurementRegisters}

/-- Nothing is pending for a target exactly when all of it has been delivered. -/
theorem Mirrored.complete_iff (h : Mirrored config history flight m) (t : ℕ) :
    flight.filter (·.target = t) = [] ↔ history.Complete t := by
  have hnodup : history.reserved.Nodup := by
    refine List.Nodup.of_map (·.measurement) ?_
    rw [h.ids]
    exact List.nodup_range'
  constructor
  · intro hempty r hr ht
    have hmem : r ∈ history.reserved.filter (·.target = t) := List.mem_filter.2 ⟨hr, by simpa using ht⟩
    rw [h.split t, hempty, List.append_nil] at hmem
    exact List.mem_map.1 (List.mem_filter.1 hmem).1
  · intro hcomplete
    by_contra hne
    obtain ⟨r, rest, hr⟩ := List.exists_cons_of_ne_nil hne
    have hflight : r ∈ flight.filter (·.target = t) := by simp [hr]
    obtain ⟨hmem, ht⟩ := List.mem_filter.1 hflight
    obtain ⟨c, hc, heq⟩ := hcomplete r (h.order.subset hmem) (by simpa using ht)
    -- It would stand twice among the reservations, as delivered and as pending.
    have hdelivered : r ∈ (history.delivered.map (·.reference)).filter (·.target = t) :=
      List.mem_filter.2 ⟨heq ▸ List.mem_map_of_mem hc, ht⟩
    have hdisjoint := hnodup.filter (·.target = t)
    rw [h.split t, List.nodup_append] at hdisjoint
    exact hdisjoint.2.2 r hdelivered r hflight rfl

/-- The value of a complete target is that of its latest reservation. -/
theorem Mirrored.latest_iff (h : Mirrored config history flight m) {t : ℕ}
    (hcomplete : history.Complete t) (v : Bool) : history.value t = v ↔ history.Latest t v := by
  have hnodup : ((history.delivered.filter (·.reference.target = t)).map (·.reference)).Nodup := by
    have hall : (history.reserved.filter (·.target = t)).Nodup := by
      refine List.Nodup.filter _ (List.Nodup.of_map (·.measurement) ?_)
      rw [h.ids]
      exact List.nodup_range'
    rw [h.split t, (h.complete_iff t).2 hcomplete, List.append_nil, List.filter_map] at hall
    exact hall
  have hsame : history.reserved.filter (·.target = t) =
      (history.delivered.filter (·.reference.target = t)).map (·.reference) := by
    rw [h.split t, (h.complete_iff t).2 hcomplete, List.append_nil, List.filter_map]
    rfl
  rw [RegisterHistory.Latest, RegisterHistory.value, hsame, List.getLast?_map]
  cases hlast : (history.delivered.filter (·.reference.target = t)).getLast? with
  | none => simp [eq_comm]
  | some c =>
    have hc := List.mem_of_getLast? hlast
    obtain ⟨hmem, htarget⟩ := List.mem_filter.1 hc
    simp only [Option.map_some, Option.getD_some]
    constructor
    · intro hv
      exact ⟨c, hmem, rfl, hv⟩
    · rintro ⟨c', hmem', heq, hv⟩
      have hc' : c' ∈ history.delivered.filter (·.reference.target = t) :=
        List.mem_filter.2 ⟨hmem', by rw [heq]; exact htarget⟩
      rw [List.inj_on_of_nodup_map hnodup hc hc' heq.symm]
      exact hv

theorem Mirrored.read_iff (h : Mirrored config history flight m) (t : ℕ) (v : Bool) :
    m.read t = .ok (some v) ↔ t < config.qubits ∧ history.Complete t ∧ history.Latest t v := by
  simp only [MeasurementRegisters.read, Except.bind_eq_ok_iff, require_eq_ok_iff, exists_const,
    Except.pure_eq_ok_iff, h.length]
  refine and_congr_right ?_
  intro ht
  rw [h.registers t ht, Option.getD_some]
  have hnone : flight.countP (·.target = t) = 0 ↔ history.Complete t := by
    rw [← h.complete_iff t, List.countP_eq_length_filter, List.length_eq_zero_iff]
  change (if flight.countP (·.target = t) ≠ 0 then none else some (history.value t)) = some v ↔ _
  by_cases hcomplete : history.Complete t
  · rw [if_neg (not_not.2 (hnone.2 hcomplete)), Option.some.injEq, h.latest_iff hcomplete]
    simp [hcomplete]
  · rw [if_pos (fun hzero => hcomplete (hnone.1 hzero))]
    simp [hcomplete]

/-- The pending count of a target is the number of its pending entries. -/
theorem Mirrored.pending_count (h : Mirrored config history flight m) {t : ℕ}
    (ht : t < config.qubits) : (m.registers[t]?.map (·.pending)) =
      some (m.pending.toList.countP fun entry => entry.2.target = t) := by
  have hperm : (m.pending.toList.map (·.2)).Perm flight := by
    have hkeys : (m.pending.toList.map (·.1)).Nodup := by
      rw [ExtTreeMap.map_fst_toList_eq_keys]
      exact ExtTreeMap.nodup_keys
    have hvalues : m.pending.toList.map (·.1) = (m.pending.toList.map (·.2)).map (·.measurement) := by
      rw [List.map_map]
      refine List.map_congr_left ?_
      rintro ⟨k, r⟩ hmem
      exact (h.ledger.keyed k r (ExtTreeMap.mem_toList_iff_getElem?_eq_some.1 hmem)).symm
    rw [hvalues] at hkeys
    rw [List.perm_ext_iff_of_nodup (hkeys.of_map _) (h.ledger.nodup.of_map _)]
    intro r
    rw [h.ledger.mem_iff, List.mem_map]
    constructor
    · rintro ⟨⟨k, r'⟩, hmem, rfl⟩
      have hget := ExtTreeMap.mem_toList_iff_getElem?_eq_some.1 hmem
      rw [h.ledger.keyed k r' hget]
      exact hget
    · intro hget
      exact ⟨⟨_, r⟩, ExtTreeMap.mem_toList_iff_getElem?_eq_some.2 hget, rfl⟩
  rw [h.registers t ht, Option.map_some, ← hperm.countP_eq, List.countP_map]
  rfl

/-- The law of the registers, in every run and whatever is called: the counts are those of the
entries, the capacity is kept, identities are consecutive, a register shows its latest result once
all of its results are there, and a rejected call changes nothing. -/
theorem register_law (run : RegisterRun config history m) :
    (∀ t < config.qubits, m.registers[t]?.map (·.pending) =
      some (m.pending.toList.countP fun entry => entry.2.target = t)) ∧
    m.pending.size ≤ config.resultCapacity ∧ m.fastPending.size ≤ config.resultCapacity ∧
    (∀ count, m.hasCapacity count = true ↔ m.pending.size + count ≤ config.resultCapacity ∧
      (config.fastFeedback = true → m.fastPending.size + count ≤ config.resultCapacity)) ∧
    history.reserved.map (·.measurement) = List.range' 1 history.reserved.length ∧
    m.nextMeasurement = history.reserved.length + 1 ∧
    (∀ t v, m.read t = .ok (some v) ↔
      t < config.qubits ∧ history.Complete t ∧ history.Latest t v) ∧
    ∀ (call : RegisterCall) f m' l, call.run.Raises m f m' l → m' = m ∧ l = [] := by
  obtain ⟨flight, h⟩ := run.registered
  refine ⟨fun t ht => h.pending_count ht, h.room, h.fastRoom, ?_, h.ids, h.next, h.read_iff,
    fun call f m' l hr => RegisterCall.raises hr⟩
  intro count
  have hroom := h.room
  have hfast := h.fastRoom
  rw [MeasurementRegisters.hasCapacity, decide_eq_true_eq, h.same, wrapSub_of_le hroom,
    wrapSub_of_le hfast]
  constructor
  · rintro ⟨hslow, hfits⟩
    refine ⟨by omega, ?_⟩
    intro hon
    have hcount := hfits hon
    omega
  · rintro ⟨hslow, hfits⟩
    refine ⟨by omega, ?_⟩
    intro hon
    have hcount := hfits hon
    omega

end Law

def probeFeedback : FeedbackConfig := { qubits := 2, resultCapacity := 2, fastFeedback := true }

/-- Two measurements of one target, of which the second cannot overtake the first. -/
def probeCalls : List RegisterCall :=
  [.commit [⟨1, 1, 0⟩, ⟨1, 2, 0⟩], .deliver ⟨⟨1, 1, 0⟩, true⟩ 1, .deliver ⟨⟨1, 2, 0⟩, false⟩ 1]

def probeRegisters (count : ℕ) : MeasurementRegisters :=
  (probeCalls.take count).foldl (fun m call => (call.run m).state) (.make probeFeedback)

theorem register_law_probe : ∃ history, RegisterRun probeFeedback history (probeRegisters 3) ∧
    (∀ t v, (probeRegisters 3).read t = .ok (some v) ↔
      t < 2 ∧ history.Complete t ∧ history.Latest t v) ∧
    (probeRegisters 3).read 0 = .ok (some false) := by
  have h₁ : RegisterRun probeFeedback _ (probeRegisters 1) :=
    .accepted .make (.commit [⟨1, 1, 0⟩, ⟨1, 2, 0⟩]) (Proc.returns_of_isSome (by decide +kernel))
  have h₂ : RegisterRun probeFeedback _ (probeRegisters 2) :=
    .accepted h₁ (.deliver ⟨⟨1, 1, 0⟩, true⟩ 1) (Proc.returns_of_isSome (by decide +kernel))
  have h₃ : RegisterRun probeFeedback _ (probeRegisters 3) :=
    .accepted h₂ (.deliver ⟨⟨1, 2, 0⟩, false⟩ 1) (Proc.returns_of_isSome (by decide +kernel))
  refine ⟨_, h₃, (register_law h₃).2.2.2.2.2.2.1, ?_⟩
  exact Except.eq_ok_get (by decide +kernel) |>.trans (by decide +kernel)

end Qsbit

import Qsbit.Records
import Qsbit.TimingControl.Registers

/-!
# A codeword is staged whole or not at all

A codeword changes two things: it stages events and reserves measurements for
them. All checks of all its actions come before either, and the reservation is
checked twice, so that neither can happen without the other. Last it is traced,
which only a record of a later tick prevents.

## Main definitions

* `codeword_clean` — a codeword that faults has done nothing.
* `StagedBy` — what a codeword that completes has done.
* `codeword_atomic` — one of the two.
-/
namespace Qsbit
open Std (ExtTreeMap)
open MeasurementRegisters (emplaceAll countPending)
open TimingControl

section Faults
variable {validate : EventSpec → Except Fault Unit} {s : ControlState}

/-- A reservation that has just been prepared is accepted. -/
theorem not_raises_commitReservation {m m' : MeasurementRegisters} {epoch : ℕ} {targets : List ℕ}
    {references : List MeasurementReference} {f : Fault} {l : List TraceEvent}
    (prepared : m.prepareReservation epoch targets = .ok references) :
    ¬ (MeasurementRegisters.commitReservation references).Raises m f m' l := by
  have hreferences := prepareReservation_eq_ok prepared
  have htargets : references.map (·.target) = targets := by
    rw [hreferences]
    exact map_target_references
  intro h
  unfold MeasurementRegisters.commitReservation at h
  split at h
  · simp at h
  · rename_i first rest
    have hepoch : first.epoch = epoch :=
      (mem_references (hreferences ▸ List.mem_cons_self (a := first) (l := rest))).1
    simp only [htargets, hepoch, prepared, Proc.raises_get_bind_iff, Proc.raises_lift_bind_iff,
      require_eq_error_iff, require_eq_ok_iff, Proc.raises_set_bind_iff, Proc.not_raises_modify,
      and_false, exists_false, or_false, reduceCtorEq, false_and, Except.ok.injEq, exists_const,
      exists_eq_left', not_true_eq_false, true_and, false_or] at h
    obtain ⟨hadd, -⟩ := h
    simp only [MeasurementRegisters.prepareReservation, Except.bind_eq_ok_iff] at prepared
    obtain ⟨-, -, sum, hsum, -⟩ := prepared
    rw [← htargets, List.length_map] at hsum
    rw [hsum] at hadd
    simp at hadd

/-- A codeword that faults has done nothing. -/
theorem codeword_clean {instruction port word now epoch : ℕ} :
    (codeword validate instruction port word now epoch).Clean s := by
  refine .get_bind <| .lift_bind fun _ _ => .lift_bind fun map _ => .lift_bind fun targets _ =>
    .lift_bind fun count _ => .lift_bind fun _ _ => .lift_bind fun _ _ => .lift_bind fun next _ =>
    .lift_bind fun references hreferences => .lift_bind fun events _ => .bind (.of_not_raises ?_) ?_
  · intro e s' l h
    obtain ⟨m, hm, -⟩ := Proc.raises_zoom_iff.1 h
    exact not_raises_commitReservation hreferences hm
  · intro _ s₁ l _ e s' l' h
    simp [Proc.raises_bind_iff] at h

/-- An operation that faults in a codeword has only been noted as the one being executed. -/
theorem execute_codeword_raises {validateSync : Option (ℕ → Except Fault Unit)}
    {instruction port word now epoch : ℕ} {f : Fault} {s' : ControlState} {l : List TraceEvent}
    (h : (execute validate validateSync ⟨instruction, .codeword port word⟩ now epoch).Raises s f s' l) :
    l = [] ∧ ∃ held, s' = { s with control := { s.control with held } } := by
  simp only [execute, setControl, Proc.raises_get_bind_iff, Proc.raises_lift_bind_iff,
    require_eq_error_iff, require_eq_ok_iff, exists_const, Proc.raises_modify_bind_iff] at h
  rcases h with ⟨-, rfl, rfl⟩ | ⟨-, ⟨-, rfl, rfl⟩ | ⟨-, h⟩⟩
  · exact ⟨rfl, s.control.held, rfl⟩
  · exact ⟨rfl, s.control.held, rfl⟩
  · rcases Proc.raises_bind_iff.1 h with h | ⟨result, s₁, l₁, l₂, -, h, -⟩
    · obtain ⟨rfl, rfl⟩ := codeword_clean _ _ _ h
      exact ⟨rfl, _, rfl⟩
    · split at h
      · simp at h
      · simp at h

end Faults

/-! ## What a codeword does -/

theorem getElem?_emplaceAll {entries : ExtTreeMap ℕ MeasurementReference}
    {references : List MeasurementReference} {k : ℕ} {r : MeasurementReference}
    (hnew : ∀ r ∈ references, r.measurement ∉ entries)
    (hnodup : (references.map (·.measurement)).Nodup) :
    (emplaceAll entries references)[k]? = some r ↔
      entries[k]? = some r ∨ r ∈ references ∧ r.measurement = k := by
  induction references generalizing entries with
  | nil => simp [emplaceAll]
  | cons first rest ih =>
    have hcons : emplaceAll entries (first :: rest) =
        emplaceAll (entries.insertIfNew first.measurement first) rest := rfl
    obtain ⟨hfirst, hrest⟩ := List.forall_mem_cons.1 hnew
    rw [List.map_cons, List.nodup_cons] at hnodup
    have hnew' : ∀ r ∈ rest, r.measurement ∉ entries.insertIfNew first.measurement first := by
      intro r hr hmem
      rcases ExtTreeMap.mem_insertIfNew.1 hmem with heq | hmem
      · exact hnodup.1 (compare_eq_iff_eq.1 heq ▸ List.mem_map_of_mem hr)
      · exact hrest r hr hmem
    rw [hcons, ih hnew' hnodup.2, ExtTreeMap.getElem?_insertIfNew, List.mem_cons]
    by_cases hk : first.measurement = k
    · subst hk
      have hnone : entries[first.measurement]? = none := ExtTreeMap.getElem?_eq_none hfirst
      rw [if_pos ⟨Std.ReflCmp.compare_self, hfirst⟩, hnone]
      constructor
      · rintro (heq | ⟨hr, hkey⟩)
        · exact .inr ⟨.inl (Option.some.inj heq).symm, (congrArg _ (Option.some.inj heq)).symm⟩
        · exact absurd (hkey ▸ List.mem_map_of_mem hr) hnodup.1
      · rintro (heq | ⟨rfl | hr, hkey⟩)
        · simp at heq
        · exact .inl rfl
        · exact absurd (hkey ▸ List.mem_map_of_mem hr) hnodup.1
    · rw [if_neg fun h => hk (compare_eq_iff_eq.1 h.1)]
      constructor
      · rintro (heq | ⟨hr, hkey⟩)
        · exact .inl heq
        · exact .inr ⟨.inr hr, hkey⟩
      · rintro (heq | ⟨rfl | hr, hkey⟩)
        · exact .inl heq
        · exact absurd hkey hk
        · exact .inr ⟨hr, hkey⟩

/-- What a codeword that completes has staged and reserved. -/
structure StagedBy (instruction port word epoch : ℕ) (actions : List EventSpec)
    (references : List MeasurementReference) (events : List OperationEvent) (s s' : ControlState) :
    Prop where
  decoded : events = actions.mapIdx fun i action =>
    { epoch, id := s.control.nextEvent + i, instruction, sourcePort := port, codeword := word, action
      reference := referenceOf references action }
  staged : s'.control.pendingEvents = s.control.pendingEvents ++ events
  point : s'.control.pendingPoint = true
  nextEvent : s'.control.nextEvent = s.control.nextEvent + actions.length
  reserved : references = Staging.references epoch s.registers.nextMeasurement (acquireTargets actions)
  nextMeasurement : s'.registers.nextMeasurement = s.registers.nextMeasurement + references.length
  taken : acquired events = references
  readouts : ∀ e ∈ events, isReadout e.action = true → ∃ r ∈ references, e.reference = some r ∧
    e.action.targets = [r.target]
  paired : ∀ e ∈ events, ∀ e' ∈ events, isReadout e.action = true → isReadout e'.action = true →
    e.action.targets = e'.action.targets → e.reference = e'.reference
  counts : ∀ t : ℕ, s'.registers.registers[t]? = s.registers.registers[t]?.map fun r =>
    { r with pending := r.pending + references.countP (·.target = t) }
  fresh : ∀ r ∈ references, r.measurement ∉ s.registers.pending ∧ r.measurement ∉ s.registers.fastPending
  pending : ∀ k r, s'.registers.pending[k]? = some r ↔
    s.registers.pending[k]? = some r ∨ r ∈ references ∧ r.measurement = k
  fastPending : ∀ k r, s'.registers.fastPending[k]? = some r ↔ s.registers.fastPending[k]? = some r ∨
    s.registers.config.fastFeedback = true ∧ r ∈ references ∧ r.measurement = k

section Completion
variable {validate : EventSpec → Except Fault Unit} {s s' : ControlState}

theorem readout_of_decodeActions {config : TimingConfig}
    {port word epoch instruction first count : ℕ} {references : List MeasurementReference}
    {actions : List EventSpec} {events : List OperationEvent}
    (h : decodeActions config port word epoch instruction references first count actions = .ok events) :
    ∀ e ∈ events, e.reference = referenceOf references e.action ∧
      (isReadout e.action = true → ∃ r ∈ references, e.reference = some r ∧
        e.action.targets = [r.target]) := by
  induction actions generalizing count events with
  | nil =>
    obtain rfl := Except.pure_eq_ok_iff.1 h
    simp
  | cons a rest ih =>
    simp only [decodeActions, Except.bind_eq_ok_iff, require_eq_ok_iff, exists_const,
      Except.pure_eq_ok_iff] at h
    obtain ⟨hreference, -, id, hid, tail, htail, rfl⟩ := h
    refine List.forall_mem_cons.2 ⟨⟨rfl, ?_⟩, ih htail⟩
    intro hreadout
    obtain ⟨r, hr⟩ := Option.isSome_iff_exists.1 (hreference hreadout)
    obtain ⟨-, hmem, htargets⟩ := referenceOf_eq_some hr
    exact ⟨r, hmem, hr, htargets⟩

theorem execute_codeword_returns {validateSync : Option (ℕ → Except Fault Unit)}
    {instruction port word now epoch : ℕ} {result : Option ℕ} {l : List TraceEvent}
    {config : FeedbackConfig} {history : RegisterHistory}
    (run : RegisterRun config history s.registers)
    (h : (execute validate validateSync ⟨instruction, .codeword port word⟩ now epoch).Returns s result
      s' l) : ∃ map references events, s.control.profile.mapping port word = .ok map ∧
      result = some 0 ∧ StagedBy instruction port word epoch map.actions references events s s' := by
  obtain ⟨flight, registered⟩ := run.registered
  obtain ⟨-, -, hexecutes⟩ := TimingControl.execute_returns h
  cases hexecutes with
  | codeword port' word' map references events registers log command free idle mapped reserved decoded
      committed =>
    obtain ⟨rfl, rfl⟩ := ControlCommand.codeword.inj command
    have hreferences := prepareReservation_eq_ok reserved
    have hevents := decoded
    simp only [decodeCodeword, mapped, Except.bind_eq_ok_iff, require_eq_ok_iff, exists_const,
      Except.ok.injEq, exists_eq_left'] at hevents
    obtain ⟨-, _, hcheck, hdecode⟩ := hevents
    have htargets : references.map (·.target) = acquireTargets map.actions := by
      rw [hreferences]
      exact map_target_references
    have hids : references.map (·.measurement) =
        List.range' s.registers.nextMeasurement (acquireTargets map.actions).length := by
      rw [hreferences]
      exact map_measurement_references
    have hnodup : (references.map (·.measurement)).Nodup := by
      rw [hids]
      exact List.nodup_range'
    have hfresh : ∀ r ∈ references, r.measurement ∉ s.registers.pending ∧
        r.measurement ∉ s.registers.fastPending := by
      intro r hr
      have hle := (mem_references (hreferences ▸ hr)).2.1
      constructor
      · intro hmem
        obtain ⟨r', hr'⟩ := Option.isSome_iff_exists.1 (ExtTreeMap.mem_iff_isSome_getElem?.1 hmem)
        have hkey := registered.ledger.keyed _ _ hr'
        have hlt := (registered.sorted.2 r' ((registered.ledger.mem_iff r').2 (hkey ▸ hr'))).2
        omega
      · intro hmem
        have hlt := registered.fastIssued _ hmem
        omega
    obtain rfl := commitReservation_returns committed
    refine ⟨map, references, events, mapped, rfl, ?_⟩
    have hreadouts := readout_of_decodeActions hdecode
    refine
      { decoded := decodeActions_eq_ok hdecode
        staged := rfl
        point := rfl
        nextEvent := rfl
        reserved := hreferences
        nextMeasurement := rfl
        taken :=
          acquired_of_decodeActions (nodup_of_checkReferences hcheck).1 (List.nil_append _).symm
            htargets hdecode
        readouts := fun e he => (hreadouts e he).2
        paired := ?_
        counts := ?_
        fresh := hfresh
        pending := ?_
        fastPending := ?_ }
    · intro e he e' he' hr hr' heq
      rw [(hreadouts e he).1, (hreadouts e' he').1, referenceOf, referenceOf, hr, hr', heq]
    · intro t
      change (countPending _ (references.map (·.target)))[t]? = _
      rw [getElem?_countPending]
      have hcount : (references.map (·.target)).count t = references.countP (·.target = t) := by
        rw [List.count, List.countP_map]
        exact List.countP_congr (by simp)
      rw [hcount]
    · intro k r
      exact getElem?_emplaceAll (fun r hr => (hfresh r hr).1) hnodup
    · intro k r
      change (if s.registers.config.fastFeedback then emplaceAll s.registers.fastPending references
        else s.registers.fastPending)[k]? = some r ↔ _
      cases hfast : s.registers.config.fastFeedback with
      | false => simp
      | true =>
        rw [if_pos rfl, getElem?_emplaceAll (fun r hr => (hfresh r hr).2) hnodup]
        simp
  | synchronized target command => simp at command
  | blocked s₁ flushes h' => simp [ControlCommand.flushes] at flushes
  | waited s₁ command h' => simp at command
  | advanced cycles s₁ command => simp at command
  | unread qubit s₁ command => simp at command
  | read qubit value s₁ command => simp at command
  | halted eligible s₁ command => simp at command

end Completion

/-- A codeword on a tick that is not before the last record of the trace is all or nothing. If it
faults, for whatever reason, nothing has been staged or reserved and nothing is traced; all that can
differ is which operation is being executed. If it completes, all of its actions have been staged in
order under consecutive identities, each acquisition has one new measurement, which its arm shares,
and what had been reserved before remains. -/
theorem codeword_atomic (validate : EventSpec → Except Fault Unit)
    (validateSync : Option (ℕ → Except Fault Unit)) (instruction port word now epoch last : ℕ)
    (s : ControlState) (hlast : last ≤ now) :
    (∀ f s' l, (execute validate validateSync ⟨instruction, .codeword port word⟩ now epoch).RaisesAfter
        last s f s' l →
      l = [] ∧ s'.registers = s.registers ∧ s'.links = s.links ∧
        s'.control.pendingEvents = s.control.pendingEvents ∧
        s'.control.pendingPoint = s.control.pendingPoint ∧
        s'.control.nextEvent = s.control.nextEvent ∧
        ∃ held, s'.control = { s.control with held }) ∧
    ∀ config history, RegisterRun config history s.registers → ∀ result s' l,
      (execute validate validateSync ⟨instruction, .codeword port word⟩ now epoch).ReturnsAfter last s
        result s' l →
      ∃ map references events, s.control.profile.mapping port word = .ok map ∧ result = some 0 ∧
        StagedBy instruction port word epoch map.actions references events s s' := by
  have hlogs : (execute validate validateSync ⟨instruction, .codeword port word⟩ now epoch).Logs
      (Log.At now) s :=
    execute_records.mono fun _ hr => hr.at
  constructor
  · intro f s' l h
    obtain ⟨hlog, held, rfl⟩ := execute_codeword_raises ((hlogs.raisesAfter_iff hlast).1 h)
    exact ⟨hlog, rfl, rfl, rfl, rfl, rfl, held, rfl⟩
  · intro config history run result s' l h
    exact execute_codeword_returns run ((hlogs.returnsAfter_iff hlast).1 h)

section Probe

def everyKindFeedback : FeedbackConfig :=
  { qubits := everyKind.qubits, resultCapacity := everyKind.resultCapacity
    fastFeedback := everyKind.fastFeedback }

/-- A timing control before its first operation. -/
def everyKindStart : ControlState where
  control :=
    { profile := (timingConfig "" everyKind).toOption.get (by decide) }
  registers := .make everyKindFeedback
  links := (ControlLinks.make (transportConfig everyKind)).toOption.get (by decide)

/-- A readout with an arm of its own, at the tick of the last record: it is refused when the backend
does not take it, and staged with one measurement when it does. -/
theorem codeword_atomic_readout :
    (∃ f s', (execute (fun _ => .error ⟨.unsupportedCapability, "readout"⟩) none
        ⟨5, .codeword 2 2⟩ 100 1).RaisesAfter 100 everyKindStart f s' [] ∧
      s'.registers = everyKindStart.registers ∧ s'.control.pendingEvents = []) ∧
    ∃ s' l actions events, (execute (fun _ => pure ()) none ⟨5, .codeword 2 2⟩ 100 1).ReturnsAfter 100
        everyKindStart (some 0) s' l ∧
      StagedBy 5 2 2 1 actions [⟨1, 1, 0⟩] events everyKindStart s' ∧
        events.map (·.reference) = [some ⟨1, 1, 0⟩, some ⟨1, 1, 0⟩] := by
  constructor
  · have hraises : ∃ f s' l, (execute (fun _ => .error ⟨.unsupportedCapability, "readout"⟩) none
        ⟨5, .codeword 2 2⟩ 100 1).RaisesAfter 100 everyKindStart f s' l := ⟨_, _, _, rfl⟩
    obtain ⟨f, s', l, hraises⟩ := hraises
    obtain ⟨rfl, hregisters, -, hevents, -⟩ := (codeword_atomic
      (fun _ => .error ⟨.unsupportedCapability, "readout"⟩) none 5 2 2 100 1 100 everyKindStart
      (le_refl _)).1 f s' l hraises
    exact ⟨f, s', hraises, hregisters, hevents⟩
  · have hreturns : ∃ s' l, (execute (fun _ => pure ()) none ⟨5, .codeword 2 2⟩ 100 1).ReturnsAfter 100
        everyKindStart (some 0) s' l := ⟨_, _, rfl⟩
    obtain ⟨s', l, hreturns⟩ := hreturns
    obtain ⟨map, references, events, hmap, -, hstaged⟩ := (codeword_atomic (fun _ => pure ()) none 5 2 2
      100 1 100 everyKindStart (le_refl _)).2 everyKindFeedback {} .make (some 0) s' l hreturns
    obtain rfl := Except.ok.inj hmap
    obtain rfl := hstaged.reserved
    exact ⟨s', l, _, events, hreturns, hstaged, hstaged.decoded ▸ rfl⟩

/-- On a tick before the last record of the trace a codeword faults after it has been staged. -/
theorem codeword_out_of_order : ∃ s' l,
    (execute (fun _ => pure ()) none ⟨5, .codeword 2 2⟩ 100 1).RaisesAfter 200 everyKindStart
      ⟨.protocol, "trace time decreased"⟩ s' l ∧
    s'.control.pendingEvents.length = 2 ∧ s'.registers.nextMeasurement = 2 ∧
      everyKindStart.control.pendingEvents = [] ∧ everyKindStart.registers.nextMeasurement = 1 :=
  ⟨_, _, rfl, by decide +kernel, by decide +kernel, rfl, rfl⟩

end Probe
end Qsbit

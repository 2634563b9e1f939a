import Qsbit.Lib.Ledger
import Qsbit.TimingControl.Run

/-!
# Measurements in flight

A codeword reserves a measurement for each of its acquisitions. From then on the
measurement travels with the event: it is staged, submitted in a request, away
from the CPU side, and comes back as a result, which the registers take. At every
moment it is in exactly one of these places, and it is there if and only if the
registers have it as pending. With fast feedback the same holds of what the fast
path owes, which is credited back instead.

## Main definitions

* `acquired` — the measurements of events.
* `Stems` — an event of a codeword of the core.
* `Accounts` — the ledgers of a core's measurements.
-/
namespace Qsbit
open Std (ExtTreeMap)

/-- The measurements of the acquisitions among events. -/
def acquired (events : List OperationEvent) : List MeasurementReference :=
  events.filterMap fun e => if e.action.kind = .acquire then e.reference else none

theorem acquired_append (events events' : List OperationEvent) :
    acquired (events ++ events') = acquired events ++ acquired events' := List.filterMap_append

theorem acquired_label (events : List OperationEvent) (label : ℕ) :
    acquired (events.map fun e => { e with label }) = acquired events := by
  simp only [acquired, List.filterMap_map]
  rfl

/-! ## Reservations -/

section Reservations
variable {config : TimingConfig} {epoch next : ℕ} {targets : List ℕ}
  {m m' : MeasurementRegisters} {reserved : List MeasurementReference} {l : List TraceEvent}

/-- What a reservation does to the registers. -/
def MeasurementRegisters.enlist (m : MeasurementRegisters) (references : List MeasurementReference) :
    MeasurementRegisters :=
  { m with
    pending := emplaceAll m.pending references
    fastPending := if m.config.fastFeedback then emplaceAll m.fastPending references
      else m.fastPending
    registers := countPending m.registers (references.map (·.target))
    nextMeasurement := m.nextMeasurement + references.length }

theorem commitReservation_returns {u : Unit}
    (h : (MeasurementRegisters.commitReservation reserved).Returns m u m' l) :
    m' = m.enlist reserved := by
  unfold MeasurementRegisters.commitReservation at h
  split at h
  · obtain ⟨-, rfl, -⟩ := Proc.returns_pure_iff.1 h
    simp [MeasurementRegisters.enlist, MeasurementRegisters.emplaceAll,
      MeasurementRegisters.countPending]
  · simp only [Proc.returns_get_bind_iff, Proc.returns_lift_bind_iff, Proc.returns_set_bind_iff,
      Proc.returns_modify_iff] at h
    obtain ⟨_, -, _, -, next, hnext, rfl, -⟩ := h
    rw [eq_of_checkedAdd hnext]
    rfl

theorem mem_references {r : MeasurementReference}
    (h : r ∈ Staging.references epoch next targets) :
    r.epoch = epoch ∧ next ≤ r.measurement ∧ r.measurement < next + targets.length ∧
      r.target ∈ targets := by
  obtain ⟨i, hi, rfl⟩ := List.mem_iff_getElem.1 h
  have hlt : i < targets.length := by simpa [Staging.references] using hi
  simp only [Staging.references, List.getElem_mapIdx]
  exact ⟨trivial, by omega, by omega, List.getElem_mem _⟩

theorem map_measurement_references : (Staging.references epoch next targets).map (·.measurement) =
    List.range' next targets.length := by
  refine List.ext_getElem (by simp [Staging.references]) ?_
  intro i hi _
  simp [Staging.references]

theorem map_target_references : (Staging.references epoch next targets).map (·.target) = targets := by
  refine List.ext_getElem (by simp [Staging.references]) ?_
  intro i hi _
  simp [Staging.references]

/-- The targets of checked references are different. -/
theorem nodup_of_checkReferences {seen references : List MeasurementReference}
    (h : checkReferences epoch seen references = .ok ()) :
    (references.map (·.target)).Nodup ∧ ∀ r ∈ references, ∀ s ∈ seen, s.target ≠ r.target := by
  induction references generalizing seen with
  | nil => simp
  | cons r rest ih =>
    simp only [checkReferences, Except.bind_eq_ok_iff, require_eq_ok_iff, exists_const] at h
    obtain ⟨⟨-, -, hseen, -⟩, hrest⟩ := h
    obtain ⟨hnodup, hother⟩ := ih hrest
    constructor
    · rw [List.map_cons, List.nodup_cons]
      refine ⟨?_, hnodup⟩
      intro hmem
      obtain ⟨s, hs, heq⟩ := List.mem_map.1 hmem
      exact hother s hs r (List.mem_cons_self ..) heq.symm
    · intro x hx s hs
      rcases List.mem_cons.1 hx with rfl | hx
      · exact hseen s hs
      · exact hother x hx s (List.mem_cons_of_mem _ hs)

/-- The reference of a readout is one of those reserved, for its only target. -/
theorem referenceOf_eq_some {references : List MeasurementReference} {a : EventSpec}
    {r : MeasurementReference} (h : referenceOf references a = some r) :
    isReadout a = true ∧ r ∈ references ∧ a.targets = [r.target] := by
  unfold referenceOf at h
  split at h
  · rename_i hreadout
    obtain ⟨hkind, hlength⟩ := hreadout
    have hmem := List.mem_of_getLast? h
    simp only [List.mem_filter, decide_eq_true_eq] at hmem
    obtain ⟨target, htargets⟩ := List.length_eq_one_iff.1 hlength
    rw [htargets] at hmem ⊢
    exact ⟨hkind, hmem.1, by simp [hmem.2]⟩
  · simp at h

/-- The acquisitions of a codeword take its references, each one. -/
theorem acquired_of_decodeActions {port word instruction first count : ℕ}
    {references before after : List MeasurementReference} {actions : List EventSpec}
    {events : List OperationEvent} (hnodup : (references.map (·.target)).Nodup)
    (hsplit : references = before ++ after)
    (htargets : after.map (·.target) = TimingControl.acquireTargets actions)
    (h : decodeActions config port word epoch instruction references first count actions =
      .ok events) : acquired events = after := by
  induction actions generalizing count events before after with
  | nil =>
    obtain rfl := Except.pure_eq_ok_iff.1 h
    have hnil : after = [] := by simpa [TimingControl.acquireTargets] using htargets
    rw [hnil]
    rfl
  | cons a rest ih =>
    simp only [decodeActions, Except.bind_eq_ok_iff, require_eq_ok_iff, exists_const,
      Except.pure_eq_ok_iff] at h
    obtain ⟨hreference, -, id, -, tail, htail, rfl⟩ := h
    by_cases hkind : a.kind = .acquire
    · have hcons : TimingControl.acquireTargets (a :: rest) =
          a.targets.headD 0 :: TimingControl.acquireTargets rest := by
        simp [TimingControl.acquireTargets, hkind]
      rw [hcons] at htargets
      obtain ⟨r, after, rfl⟩ : ∃ r after', after = r :: after' := by
        cases after with
        | nil => simp at htargets
        | cons r after => exact ⟨r, after, rfl⟩
      rw [List.map_cons, List.cons.injEq] at htargets
      obtain ⟨r', hr'⟩ := Option.isSome_iff_exists.1 (hreference (by simp [isReadout, hkind]))
      obtain ⟨-, hmem, hone⟩ := referenceOf_eq_some hr'
      have hsame : r' = r := by
        refine List.inj_on_of_nodup_map hnodup hmem (by simp [hsplit]) ?_
        rw [htargets.1, hone]
        rfl
      have happend : references = (before ++ [r]) ++ after := by simp [hsplit]
      have hrest := ih happend htargets.2 htail
      rw [acquired, List.filterMap_cons_some (b := r)]
      · rw [← hrest]
        rfl
      · simp [hkind, hr', hsame]
    · have hskip : TimingControl.acquireTargets (a :: rest) = TimingControl.acquireTargets rest := by
        simp [TimingControl.acquireTargets, hkind]
      rw [hskip] at htargets
      rw [acquired, List.filterMap_cons_none (by simp [hkind])]
      exact ih hsplit htargets htail

end Reservations

/-! ## Events -/

/-- An event of a codeword of the core, with a reservation of its registers if it is a readout. -/
structure Stems (config : TimingConfig) (epoch next : ℕ) (e : OperationEvent) : Prop where
  unnamed : e.core = none
  mapping : ∃ m ∈ config.mappings, m.port = e.sourcePort ∧ m.codeword = e.codeword ∧
    e.action ∈ m.actions
  current : e.epoch = epoch
  id : 0 < e.id
  reference : ∀ r ∈ e.reference, r.epoch = epoch ∧ 0 < r.measurement ∧ r.measurement < next ∧
    e.action.targets = [r.target]
  readout : isReadout e.action = e.reference.isSome

section Events
variable {config : TimingConfig} {epoch next next' : ℕ} {e : OperationEvent}

theorem Stems.mono (h : Stems config epoch next e) (hle : next ≤ next') :
    Stems config epoch next' e where
  unnamed := h.unnamed
  mapping := h.mapping
  current := h.current
  id := h.id
  reference := fun r hr => by
    obtain ⟨hepoch, hpos, hlt, htargets⟩ := h.reference r hr
    exact ⟨hepoch, hpos, by omega, htargets⟩
  readout := h.readout

theorem Stems.label (h : Stems config epoch next e) (label : ℕ) :
    Stems config epoch next { e with label } :=
  ⟨h.unnamed, h.mapping, h.current, h.id, h.reference, h.readout⟩

end Events

/-! ## What is owed -/

/-- What a path of results owes: reservations of the epoch, for which there is room. -/
structure Owed (epoch next capacity : ℕ) (entries : ExtTreeMap ℕ MeasurementReference)
    (flight : List MeasurementReference) : Prop where
  ledger : Ledger (·.measurement) entries flight
  issued : ∀ r ∈ flight, r.epoch = epoch ∧ 0 < r.measurement ∧ r.measurement < next
  room : entries.size ≤ capacity

namespace Owed
variable {epoch next capacity : ℕ} {entries : ExtTreeMap ℕ MeasurementReference}
  {flight flight' : List MeasurementReference} {r : MeasurementReference}

theorem empty : Owed epoch next capacity ∅ [] where
  ledger := .empty
  issued := by simp
  room := by simp

theorem perm (h : Owed epoch next capacity entries flight) (hperm : flight.Perm flight') :
    Owed epoch next capacity entries flight' where
  ledger := h.ledger.perm hperm
  issued := fun r hr => h.issued r (hperm.mem_iff.2 hr)
  room := h.room

theorem mono (h : Owed epoch next capacity entries flight) {next' : ℕ} (hle : next ≤ next') :
    Owed epoch next' capacity entries flight where
  ledger := h.ledger
  issued := fun r hr => by
    obtain ⟨hepoch, hpos, hlt⟩ := h.issued r hr
    exact ⟨hepoch, hpos, by omega⟩
  room := h.room

theorem getElem? (h : Owed epoch next capacity entries flight) (hr : r ∈ flight) :
    entries[r.measurement]? = some r := h.ledger.getElem? hr

/-- What is on one way is not more than there is room for. -/
theorem length_le (h : Owed epoch next capacity entries flight) {place : List MeasurementReference}
    (hplace : place.Sublist flight) : place.length ≤ capacity :=
  (h.ledger.length_le hplace).trans h.room

theorem settle (h : Owed epoch next capacity entries (r :: flight)) :
    Owed epoch next capacity (entries.erase r.measurement) flight where
  ledger := h.ledger.settle
  issued := fun r' hr' => h.issued r' (List.mem_cons_of_mem _ hr')
  room := ExtTreeMap.size_erase_le.trans h.room

/-- New references are owed from now on. -/
theorem reserve (h : Owed epoch next capacity entries flight) {targets : List ℕ} (hpos : 0 < next)
    (hfit : targets.length ≤ wrapSub capacity entries.size) :
    Owed epoch (next + targets.length) capacity
      (MeasurementRegisters.emplaceAll entries (Staging.references epoch next targets))
      (Staging.references epoch next targets ++ flight) := by
  have hnew : ∀ r ∈ Staging.references epoch next targets, r.measurement ∉ entries := by
    intro r hr hmem
    obtain ⟨-, hle, -, -⟩ := mem_references hr
    obtain ⟨r', hr'⟩ := Option.isSome_iff_exists.1 (ExtTreeMap.mem_iff_isSome_getElem?.1 hmem)
    have hkey := h.ledger.keyed _ _ hr'
    have hlt := (h.issued r' ((h.ledger.mem_iff r').2 (hkey ▸ hr'))).2.2
    omega
  have hnodup : ((Staging.references epoch next targets).map (·.measurement)).Nodup := by
    rw [map_measurement_references]
    exact List.nodup_range'
  have hledger := h.ledger.enterAll hnew hnodup
  refine ⟨hledger, ?_, ?_⟩
  · intro r hr
    rcases List.mem_append.1 hr with hr | hr
    · obtain ⟨hepoch, hle, hlt, -⟩ := mem_references hr
      exact ⟨hepoch, by omega, hlt⟩
    · obtain ⟨hepoch, hpos, hlt⟩ := h.issued r hr
      exact ⟨hepoch, hpos, by omega⟩
  · have hsize := hledger.length_eq
    have hold := h.ledger.length_eq
    have hroom := h.room
    rw [wrapSub_of_le hroom] at hfit
    rw [List.length_append, Staging.references, List.length_mapIdx] at hsize
    change (MeasurementRegisters.emplaceAll entries _).size ≤ _
    unfold MeasurementRegisters.emplaceAll Staging.references
    omega

end Owed

/-! ## Where the measurements are -/

namespace ControlState

/-- Those of the staged events that have not been submitted. -/
def staged (s : ControlState) : List MeasurementReference :=
  if s.control.enqueueRequest = none then acquired s.control.pendingEvents else []

/-- Those that are on their way to the timing control unit. -/
def submitted (s : ControlState) : List MeasurementReference :=
  s.links.timingEvents.entries.flatMap fun request => acquired request.value.events

/-- Those of which the result has not come back; some are away from the CPU side. -/
def travelling (away : List MeasurementReference) (s : ControlState) : List MeasurementReference :=
  s.staged ++ s.submitted ++ away

def returned (s : ControlState) : List MeasurementReference :=
  s.links.cpuResults.entries.map (·.value.reference)

def returnedFast (s : ControlState) : List MeasurementReference :=
  s.links.fastResults.entries.map (·.value.reference)

def credited (s : ControlState) : List MeasurementReference := s.links.fastCredits.entries.map (·.value)

end ControlState

/-- Both paths owe what is in flight, and what has come back is of the epoch. -/
structure Accounts (epoch : ℕ) (away : List MeasurementReference) (s : ControlState) : Prop where
  slow : Owed epoch s.registers.nextMeasurement s.registers.config.resultCapacity
    s.registers.pending (s.travelling away ++ s.returned)
  fast : Owed epoch s.registers.nextMeasurement s.registers.config.resultCapacity
    s.registers.fastPending ((if s.registers.config.fastFeedback then s.travelling away else []) ++
      (s.returnedFast ++ s.credited))
  results : ∀ e ∈ s.links.cpuResults.entries, e.epoch = epoch
  fastResults : ∀ e ∈ s.links.fastResults.entries, e.epoch = epoch
  credits : ∀ e ∈ s.links.fastCredits.entries, e.epoch = epoch
  positive : 0 < s.registers.nextMeasurement

/-! ## Taking in what comes back -/

namespace TimingControl
variable {now epoch : ℕ} {s s' : ControlState} {u : Unit} {l : List TraceEvent}

/-- The record of a result that has been taken in. -/
def registerUpdated (now epoch : ℕ) (c : Completion) : TraceEvent :=
  { tick := now, epoch, kind := .measurementRegisterUpdated, id := c.reference.measurement
    targets := [c.reference.target], value := c.value.toNat }

/-- The results that are taken in, up to the first that has not arrived, with their records. -/
inductive Takes (now epoch : ℕ) : List (Mailbox.Envelope Completion) → MeasurementRegisters →
    List (Mailbox.Envelope Completion) → MeasurementRegisters → List TraceEvent → Prop
  | done {entries : List (Mailbox.Envelope Completion)} {m : MeasurementRegisters}
      (h : ∀ reply ∈ entries.head?, now < reply.eligible) : Takes now epoch entries m entries m []
  | stale {reply : Mailbox.Envelope Completion} {rest rest' : List (Mailbox.Envelope Completion)}
      {m m' : MeasurementRegisters} {l : List TraceEvent} (arrived : reply.eligible ≤ now)
      (h : reply.epoch ≠ epoch) (later : Takes now epoch rest m rest' m' l) :
      Takes now epoch (reply :: rest) m rest' m'
        ({ tick := now, epoch, kind := .staleCompletionDiscarded } :: l)
  | delivered {reply : Mailbox.Envelope Completion}
      {rest rest' : List (Mailbox.Envelope Completion)} {m m₁ m' : MeasurementRegisters}
      {l : List TraceEvent} (arrived : reply.eligible ≤ now) (h : reply.epoch = epoch)
      (delivers : m.deliver reply.value epoch = .ok m₁) (later : Takes now epoch rest m₁ rest' m' l) :
      Takes now epoch (reply :: rest) m rest' m' (registerUpdated now epoch reply.value :: l)

theorem takes_of_receiveResults {entries : List (Mailbox.Envelope Completion)}
    (hentries : s.links.cpuResults.entries = entries)
    (h : (receiveResults now epoch entries).Returns s u s' l) :
    ∃ rest m, Takes now epoch entries s.registers rest m l ∧ s' =
      { s with
        registers := m
        links := { s.links with cpuResults := { s.links.cpuResults with entries := rest } } } := by
  induction entries generalizing s l with
  | nil =>
    obtain ⟨-, rfl, rfl⟩ := Proc.returns_pure_iff.1 h
    refine ⟨[], s.registers, .done (by simp), ?_⟩
    rw [← hentries]
  | cons reply rest ih =>
    unfold receiveResults at h
    by_cases harrived : now < reply.eligible
    · rw [if_pos harrived] at h
      obtain ⟨-, rfl, rfl⟩ := Proc.returns_pure_iff.1 h
      refine ⟨reply :: rest, s.registers, .done ?_, by rw [← hentries]⟩
      simpa using harrived
    · rw [if_neg harrived, Proc.returns_modify_bind_iff] at h
      obtain ⟨_, s₁, l₁, l₂, hdeliver, hrest, rfl⟩ := Proc.returns_bind_iff.1 h
      by_cases hepoch : reply.epoch = epoch
      · rw [if_neg (not_not.2 hepoch)] at hdeliver
        simp only [Proc.returns_get_bind_iff, Proc.returns_lift_bind_iff, Proc.returns_set_bind_iff,
          Proc.returns_emit_iff] at hdeliver
        obtain ⟨registers, hregisters, rfl, rfl⟩ := hdeliver
        obtain ⟨rest', m, htakes, rfl⟩ := ih rfl hrest
        exact ⟨rest', m, .delivered (by omega) hepoch hregisters htakes, rfl⟩
      · rw [if_pos hepoch] at hdeliver
        obtain ⟨rfl, rfl⟩ := Proc.returns_emit_iff.1 hdeliver
        obtain ⟨rest', m, htakes, rfl⟩ := ih rfl hrest
        exact ⟨rest', m, .stale (by omega) hepoch htakes, rfl⟩

/-- The credits that are taken in, up to the first that has not arrived. -/
inductive Credits (now epoch : ℕ) : List (Mailbox.Envelope MeasurementReference) →
    MeasurementRegisters → List (Mailbox.Envelope MeasurementReference) → MeasurementRegisters → Prop
  | done {entries : List (Mailbox.Envelope MeasurementReference)} {m : MeasurementRegisters}
      (h : ∀ credit ∈ entries.head?, now < credit.eligible) : Credits now epoch entries m entries m
  | stale {credit : Mailbox.Envelope MeasurementReference}
      {rest rest' : List (Mailbox.Envelope MeasurementReference)} {m m' : MeasurementRegisters}
      (arrived : credit.eligible ≤ now) (h : credit.epoch ≠ epoch)
      (later : Credits now epoch rest m rest' m') : Credits now epoch (credit :: rest) m rest' m'
  | acknowledged {credit : Mailbox.Envelope MeasurementReference}
      {rest rest' : List (Mailbox.Envelope MeasurementReference)} {m m₁ m' : MeasurementRegisters}
      (arrived : credit.eligible ≤ now) (h : credit.epoch = epoch)
      (settles : m.acknowledgeFast credit.value epoch = .ok m₁)
      (later : Credits now epoch rest m₁ rest' m') : Credits now epoch (credit :: rest) m rest' m'

theorem credits_of_receiveCredits {entries : List (Mailbox.Envelope MeasurementReference)}
    (hentries : s.links.fastCredits.entries = entries)
    (h : (receiveCredits now epoch entries).Returns s u s' l) :
    ∃ rest m, Credits now epoch entries s.registers rest m ∧ l = [] ∧ s' =
      { s with
        registers := m
        links := { s.links with fastCredits := { s.links.fastCredits with entries := rest } } } := by
  induction entries generalizing s l with
  | nil =>
    obtain ⟨-, rfl, rfl⟩ := Proc.returns_pure_iff.1 h
    refine ⟨[], s.registers, .done (by simp), rfl, ?_⟩
    rw [← hentries]
  | cons credit rest ih =>
    unfold receiveCredits at h
    by_cases harrived : now < credit.eligible
    · rw [if_pos harrived] at h
      obtain ⟨-, rfl, rfl⟩ := Proc.returns_pure_iff.1 h
      refine ⟨credit :: rest, s.registers, .done ?_, rfl, by rw [← hentries]⟩
      simpa using harrived
    · rw [if_neg harrived, Proc.returns_modify_bind_iff] at h
      obtain ⟨_, s₁, l₁, l₂, hcredit, hrest, rfl⟩ := Proc.returns_bind_iff.1 h
      by_cases hepoch : credit.epoch = epoch
      · rw [if_pos hepoch] at hcredit
        simp only [Proc.returns_get_bind_iff, Proc.returns_lift_bind_iff, Proc.returns_set_iff]
          at hcredit
        obtain ⟨registers, hregisters, rfl, rfl⟩ := hcredit
        obtain ⟨rest', m, hcredits, rfl, rfl⟩ := ih rfl hrest
        exact ⟨rest', m, .acknowledged (by omega) hepoch hregisters hcredits, rfl, rfl⟩
      · rw [if_neg hepoch] at hcredit
        obtain ⟨-, rfl, rfl⟩ := Proc.returns_pure_iff.1 hcredit
        obtain ⟨rest', m, hcredits, rfl, rfl⟩ := ih rfl hrest
        exact ⟨rest', m, .stale (by omega) hepoch hcredits, rfl, rfl⟩

end TimingControl

theorem MeasurementRegisters.deliver_eq_ok {m m' : MeasurementRegisters} {c : Completion} {epoch : ℕ}
    (hepoch : c.reference.epoch = epoch) (h : m.deliver c epoch = .ok m') :
    m.pending[c.reference.measurement]? = some c.reference ∧ m' =
      { m with
        registers := m.registers.modify c.reference.target fun r =>
          { value := c.value, pending := wrapSub r.pending 1 32 }
        pending := m.pending.erase c.reference.measurement } := by
  simp only [deliver, hepoch, ne_eq, not_true_eq_false, if_false, Except.bind_eq_ok_iff,
    require_eq_ok_iff, exists_const, Except.pure_eq_ok_iff] at h
  obtain ⟨-, hpending, -, -, rfl⟩ := h
  exact ⟨hpending, rfl⟩

theorem MeasurementRegisters.acknowledgeFast_eq_ok {m m' : MeasurementRegisters}
    {r : MeasurementReference} {epoch : ℕ} (hepoch : r.epoch = epoch)
    (h : m.acknowledgeFast r epoch = .ok m') : m.fastPending[r.measurement]? = some r ∧
      m' = { m with fastPending := m.fastPending.erase r.measurement } := by
  simp only [acknowledgeFast, hepoch, ne_eq, not_true_eq_false, if_false, Except.bind_eq_ok_iff,
    require_eq_ok_iff, exists_const, Except.pure_eq_ok_iff] at h
  obtain ⟨hpending, rfl⟩ := h
  exact ⟨hpending, rfl⟩

/-! ## The accounts are kept -/

section Accounts
open TimingControl
variable {epoch now : ℕ} {away away' : List MeasurementReference} {s s' : ControlState}
  {u : Unit} {l : List TraceEvent}

/-- The accounts depend on the registers, the ways and what is on them only. -/
theorem Accounts.of_perm (h : Accounts epoch away s) (hregisters : s'.registers = s.registers)
    (hcpu : s'.links.cpuResults = s.links.cpuResults)
    (hfast : s'.links.fastResults = s.links.fastResults)
    (hcredits : s'.links.fastCredits = s.links.fastCredits)
    (hperm : (s.travelling away).Perm (s'.travelling away')) : Accounts epoch away' s' where
  slow := by
    rw [hregisters, ControlState.returned, hcpu]
    exact h.slow.perm (hperm.append_right _)
  fast := by
    rw [hregisters, ControlState.returnedFast, ControlState.credited, hfast, hcredits]
    refine h.fast.perm (List.Perm.append_right _ ?_)
    split
    · exact hperm
    · exact .refl _
  results := by rw [hcpu]; exact h.results
  fastResults := by rw [hfast]; exact h.fastResults
  credits := by rw [hcredits]; exact h.credits
  positive := by rw [hregisters]; exact h.positive

theorem Accounts.takeResult (h : Accounts epoch away s) {reply : Mailbox.Envelope Completion}
    {rest : List (Mailbox.Envelope Completion)} {m : MeasurementRegisters}
    (hentries : s.links.cpuResults.entries = reply :: rest)
    (hdeliver : s.registers.deliver reply.value epoch = .ok m) :
    Accounts epoch away
      { s with
        registers := m
        links := { s.links with cpuResults := { s.links.cpuResults with entries := rest } } } := by
  have hslow := h.slow
  have hreturned : s.returned = reply.value.reference :: rest.map (·.value.reference) := by
    simp [ControlState.returned, hentries]
  rw [hreturned] at hslow
  have hmem := hslow.issued reply.value.reference (by simp)
  obtain ⟨-, rfl⟩ := MeasurementRegisters.deliver_eq_ok hmem.1 hdeliver
  have hresults := h.results
  rw [hentries] at hresults
  exact
    { slow := (hslow.perm List.perm_middle).settle
      fast := h.fast
      results := (List.forall_mem_cons.1 hresults).2
      fastResults := h.fastResults
      credits := h.credits
      positive := h.positive }

theorem Accounts.takeCredit (h : Accounts epoch away s)
    {credit : Mailbox.Envelope MeasurementReference}
    {rest : List (Mailbox.Envelope MeasurementReference)} {m : MeasurementRegisters}
    (hentries : s.links.fastCredits.entries = credit :: rest)
    (hsettle : s.registers.acknowledgeFast credit.value epoch = .ok m) :
    Accounts epoch away
      { s with
        registers := m
        links := { s.links with fastCredits := { s.links.fastCredits with entries := rest } } } := by
  have hfast := h.fast
  have hcredited : s.credited = credit.value :: rest.map (·.value) := by
    simp [ControlState.credited, hentries]
  rw [hcredited] at hfast
  have hmem := hfast.issued credit.value (by simp)
  obtain ⟨-, rfl⟩ := MeasurementRegisters.acknowledgeFast_eq_ok hmem.1 hsettle
  have hcredits := h.credits
  rw [hentries] at hcredits
  have hperm : ∀ xs : List MeasurementReference,
      (xs ++ (s.returnedFast ++ credit.value :: rest.map (·.value))).Perm
        (credit.value :: (xs ++ (s.returnedFast ++ rest.map (·.value)))) := by
    intro xs
    rw [← List.append_assoc, ← List.append_assoc]
    exact List.perm_middle
  exact
    { slow := h.slow
      fast := (hfast.perm (hperm _)).settle
      results := h.results
      fastResults := h.fastResults
      credits := (List.forall_mem_cons.1 hcredits).2
      positive := h.positive }

theorem Accounts.takes (h : Accounts epoch away s) {entries rest : List (Mailbox.Envelope Completion)}
    {m m' : MeasurementRegisters} (ht : Takes now epoch entries m rest m' l)
    (hentries : s.links.cpuResults.entries = entries) (hm : s.registers = m) :
    Accounts epoch away
      { s with
        registers := m'
        links := { s.links with cpuResults := { s.links.cpuResults with entries := rest } } } := by
  induction ht generalizing s with
  | done =>
    rw [← hentries, ← hm]
    exact h
  | stale arrived hstale later ih => exact absurd (h.results _ (by simp [hentries])) hstale
  | delivered arrived hepoch delivers later ih =>
    rw [← hm] at delivers
    have hlater := ih (h.takeResult hentries delivers) rfl rfl
    exact hlater

theorem Accounts.takesCredits (h : Accounts epoch away s)
    {entries rest : List (Mailbox.Envelope MeasurementReference)} {m m' : MeasurementRegisters}
    (ht : Credits now epoch entries m rest m') (hentries : s.links.fastCredits.entries = entries)
    (hm : s.registers = m) :
    Accounts epoch away
      { s with
        registers := m'
        links := { s.links with fastCredits := { s.links.fastCredits with entries := rest } } } := by
  induction ht generalizing s with
  | done =>
    rw [← hentries, ← hm]
    exact h
  | stale arrived hstale later ih => exact absurd (h.credits _ (by simp [hentries])) hstale
  | acknowledged arrived hepoch settles later ih =>
    rw [← hm] at settles
    have hlater := ih (h.takeCredit hentries settles) rfl rfl
    exact hlater

/-- An acknowledgment clears events that have been submitted. -/
theorem Accounts.receives (h : Accounts epoch away s) (hr : Receives epoch s s') :
    Accounts epoch away s' := by
  cases hr with
  | nothing => exact h
  | stale reply rest entries epoch_ne => exact h.of_perm rfl rfl rfl rfl (.refl _)
  | acknowledged reply rest request entries epoch_eq outstanding label =>
    refine h.of_perm rfl rfl rfl rfl ?_
    have hstaged : s.staged = [] := by simp [ControlState.staged, outstanding]
    rw [ControlState.travelling, hstaged]
    exact .refl _

theorem Accounts.receive (h : Accounts epoch away s) (hr : (receive now epoch).Returns s u s' l) :
    Accounts epoch away s' := by
  obtain ⟨_, s₁, l₁, _, hreply, hr, -⟩ := Proc.returns_bind_iff.1 hr
  rw [Proc.returns_get_bind_iff] at hr
  obtain ⟨_, s₂, l₂, _, hresults, hr, -⟩ := Proc.returns_bind_iff.1 hr
  rw [Proc.returns_get_bind_iff] at hr
  obtain ⟨rest, m, htakes, rfl⟩ := takes_of_receiveResults rfl hresults
  obtain ⟨rest', m', hcredits, -, rfl⟩ := credits_of_receiveCredits rfl hr
  exact ((h.receives (receiveReply_returns hreply)).takes htakes rfl rfl).takesCredits hcredits rfl rfl

/-- A submission moves what is staged onto its way. -/
theorem Accounts.enqueues {b : Bool} (h : Accounts epoch away s) (he : Enqueues now epoch s b s') :
    Accounts epoch away s' := by
  cases he with
  | waiting request hrequest => exact h
  | done idle point => exact h.of_perm rfl rfl rfl rfl (.refl _)
  | submitted request eligible idle point made valid space =>
    refine h.of_perm rfl rfl rfl rfl ?_
    simp only [TimingControl.request, Except.bind_eq_ok_iff, Except.pure_eq_ok_iff] at made
    obtain ⟨label, -, rfl⟩ := made
    simp only [ControlState.travelling, ControlState.staged, ControlState.submitted, idle, if_true,
      reduceCtorEq, if_false, List.flatMap_append, List.flatMap_cons, List.flatMap_nil,
      acquired_label, List.append_nil, List.nil_append]
    exact List.Perm.append_right _ List.perm_append_comm

theorem travelling_prepared (c : ControlOperation) :
    ({ s with control := s.control.prepared c } : ControlState).travelling away =
      s.travelling away := by
  simp only [ControlState.travelling, ControlState.staged, ControlState.submitted,
    TimingControl.prepared, TimingControl.waitForNext]
  split
  · split <;> rfl
  · rfl

/-- A codeword stages what it reserves. -/
theorem Accounts.codeword {port word instruction : ℕ} {map : Mapping}
    {references : List MeasurementReference} {events : List OperationEvent}
    {registers : MeasurementRegisters} {log : List TraceEvent} {control : TimingControl}
    (h : Accounts epoch away s) (idle : s.control.enqueueRequest = none)
    (mapped : s.control.profile.mapping port word = .ok map)
    (reserved : s.registers.prepareReservation epoch (acquireTargets map.actions) = .ok references)
    (decoded : decodeCodeword s.control.profile port word epoch instruction s.control.nextEvent
      references = .ok events)
    (committed : (MeasurementRegisters.commitReservation references).Returns s.registers () registers
      log)
    (idle' : control.enqueueRequest = none)
    (hevents : control.pendingEvents = s.control.pendingEvents ++ events) :
    Accounts epoch away { s with control, registers } := by
  obtain rfl := commitReservation_returns committed
  have hreferences := prepareReservation_eq_ok reserved
  simp only [MeasurementRegisters.prepareReservation, Except.bind_eq_ok_iff, require_eq_ok_iff,
    exists_const] at reserved
  obtain ⟨hcapacity, -⟩ := reserved
  simp only [MeasurementRegisters.hasCapacity, decide_eq_true_eq] at hcapacity
  simp only [decodeCodeword, mapped, Except.bind_eq_ok_iff, require_eq_ok_iff, exists_const,
    Except.ok.injEq, exists_eq_left'] at decoded
  obtain ⟨-, _, hcheck, hdecode⟩ := decoded
  have hacquired : acquired events = references :=
    acquired_of_decodeActions (nodup_of_checkReferences hcheck).1 (List.nil_append _).symm
      (by rw [hreferences]; exact map_target_references) hdecode
  have hperm : (Staging.references epoch s.registers.nextMeasurement (acquireTargets map.actions) ++
      s.travelling away).Perm (acquired (s.control.pendingEvents ++ events) ++ s.submitted ++ away) := by
    simp only [ControlState.travelling, ControlState.staged, idle, if_true, acquired_append,
      hacquired, hreferences, ← List.append_assoc]
    exact (List.perm_append_comm.append_right _).append_right _
  have htravelling :
      ({ s with control, registers := s.registers.enlist references } : ControlState).travelling away =
        acquired (s.control.pendingEvents ++ events) ++ s.submitted ++ away := by
    simp only [ControlState.travelling, ControlState.staged, ControlState.submitted, idle', if_true,
      hevents]
  have hlength : references.length = (acquireTargets map.actions).length := by
    simp [hreferences, Staging.references]
  refine
    { slow := ?_
      fast := ?_
      results := h.results
      fastResults := h.fastResults
      credits := h.credits
      positive := ?_ }
  · rw [htravelling]
    have hslow := h.slow.reserve h.positive hcapacity.1
    rw [← List.append_assoc] at hslow
    have hnew := hslow.perm (hperm.append_right _)
    rw [← hlength, ← hreferences] at hnew
    exact hnew
  · rw [htravelling]
    cases hfast : s.registers.config.fastFeedback with
    | false =>
      have hold := h.fast.mono (Nat.le_add_right _ references.length)
      simp only [hfast, Bool.false_eq_true, if_false] at hold
      simp only [MeasurementRegisters.enlist, hfast, Bool.false_eq_true, if_false]
      exact hold
    | true =>
      have hold := h.fast.reserve h.positive (hcapacity.2 hfast)
      simp only [hfast, if_true] at hold
      rw [← List.append_assoc] at hold
      have hnew := hold.perm (hperm.append_right _)
      rw [← hlength, ← hreferences] at hnew
      simp only [MeasurementRegisters.enlist, hfast, if_true]
      exact hnew
  · exact Nat.add_pos_left h.positive _

theorem Accounts.executes {operation : ControlOperation} {result : Option ℕ}
    (h : Accounts epoch away s) (he : Executes operation now epoch s result s') :
    Accounts epoch away s' := by
  have hprepared : Accounts epoch away { s with control := s.control.prepared operation } :=
    h.of_perm rfl rfl rfl rfl (by rw [travelling_prepared])
  cases he with
  | codeword port word map references events registers log command free idle mapped reserved decoded
      committed => exact h.codeword idle mapped reserved decoded committed idle rfl
  | synchronized target command free idle single => exact h.of_perm rfl rfl rfl rfl (.refl _)
  | blocked s₁ flushes h' => exact hprepared.enqueues h'
  | waited s₁ command h' => exact (hprepared.enqueues h').of_perm rfl rfl rfl rfl (.refl _)
  | advanced cycles s₁ command positive h' =>
    exact (hprepared.enqueues h').of_perm rfl rfl rfl rfl (.refl _)
  | unread qubit s₁ command h' => exact hprepared.enqueues h'
  | read qubit value s₁ command h' => exact (hprepared.enqueues h').of_perm rfl rfl rfl rfl (.refl _)
  | halted eligible s₁ command h' space =>
    exact (hprepared.enqueues h').of_perm rfl rfl rfl rfl (.refl _)

end Accounts

end Qsbit

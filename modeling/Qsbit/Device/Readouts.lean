import Qsbit.Device.Resources
import Qsbit.Trace
import Std.Data.ExtTreeMap

/-!
# Readouts

A readout is one acquisition with the tick on which its result is ready. It is
pending from the acceptance of its batch until the result has been delivered.

## Main definitions

* `Readout`, `Readouts` — one readout, and those that are pending by measurement.
* `Readouts.prepare` — the readouts of a batch.
* `Prepares` — what `prepare` makes of an acquisition.
-/
namespace Qsbit
open Std (ExtTreeMap)

structure Readout where
  reference : MeasurementReference
  «end» : ℕ := 0
  arm : ℕ := 0
  ready : ℕ := 0
  sample : Option Bool := none
  core : Option ℕ := none
  deriving DecidableEq, Repr

structure Readouts where
  pending : ExtTreeMap ℕ Readout := ∅

namespace Readouts

/-- An acquisition of the measurement. -/
def acquires (id : ℕ) (a : ScheduledEvent) : Bool :=
  a.event.action.kind = .acquire ∧ a.event.reference.map (·.measurement) = some id

/-- A discriminator arm of the measurement. -/
def arms (id : ℕ) (a : ScheduledEvent) : Bool :=
  isArm a.event.action ∧ a.event.reference.map (·.measurement) = some id

/-- Acquisitions and arms have references of the epoch, and those of one measurement agree. -/
def checkMembers (epoch : ℕ) (seen : List MeasurementReference) :
    List ScheduledEvent → Except Fault Unit
  | [] => pure ()
  | a :: rest =>
      if isReadout a.event.action then
        match a.event.reference with
        | none => .error ⟨.invalidMeasurement, "readout reference missing or stale"⟩
        | some r => do
            require (r.epoch = epoch) .invalidMeasurement "readout reference missing or stale"
            require (a.event.action.targets = [r.target]) .invalidMeasurement
              "readout target and reference differ"
            require (∀ s ∈ seen, s.measurement = r.measurement → s = r) .invalidMeasurement
              "readout members disagree on reference identity"
            checkMembers epoch (r :: seen) rest
      else checkMembers epoch seen rest

/-- When the discriminator is armed: with the acquisition, or by the last separate arm. -/
def armStart (actions : List ScheduledEvent) (a : ScheduledEvent) (separateArm : Bool) : ℕ :=
  if separateArm then
    ((actions.filter fun other =>
      isArm other.event.action ∧ other.event.reference = a.event.reference).getLast?.map
        (·.start)).getD a.start
  else a.start

def prepareFrom (r : Readouts) (actions : List ScheduledEvent) :
    List ScheduledEvent → Except Fault (List Readout)
  | [] => pure []
  | a :: rest =>
      match a.event.action.spec, a.event.reference with
      | .acquire value, some reference => do
          let id := reference.measurement
          require (actions.countP (acquires id) = 1 ∧ id ∉ r.pending ∧
              actions.countP (arms id) = if value.separateArm then 1 else 0)
            .protocol "invalid acquisition and arm pairing"
          let arm := armStart actions a value.separateArm
          let ready ← checkedAdd (max a.end arm) value.discriminatorDelay
          let readouts ← prepareFrom r actions rest
          pure ({ reference, «end» := a.end, arm, ready, core := a.event.core } :: readouts)
      -- An acquisition without a reference has been refused before.
      | _, _ => prepareFrom r actions rest

def prepare (r : Readouts) (actions : List ScheduledEvent) (epoch : ℕ) :
    Except Fault (List Readout) := do
  checkMembers epoch [] actions
  let readouts ← r.prepareFrom actions actions
  require (∀ a ∈ actions, isArm a.event.action → ∀ reference ∈ a.event.reference,
      actions.countP (acquires reference.measurement) = 1)
    .protocol "orphan discriminator arm"
  pure readouts

def insert (readout : Readout) : Sim Readouts Unit := do
  let r ← Proc.get
  require (readout.reference.measurement ∉ r.pending) .protocol "duplicate pending readout"
  Proc.set { r with pending := r.pending.insert readout.reference.measurement readout }

def insertAll : List Readout → Sim Readouts Unit
  | [] => pure ()
  | readout :: rest => do
      insert readout
      insertAll rest

def «at» (r : Readouts) (measurement : ℕ) : Except Fault Readout :=
  match r.pending[measurement]? with
  | some readout => pure readout
  | none => .error ⟨.protocol, "map::at"⟩

def sample (measurement : ℕ) (value : Bool) : Sim Readouts Unit := do
  let r ← Proc.get
  let readout ← r.at measurement
  Proc.set { r with pending := r.pending.insert measurement { readout with sample := some value } }

def result (r : Readouts) (measurement : ℕ) : Except Fault Completion := do
  let readout ← r.at measurement
  match readout.sample with
  | some value => pure { reference := readout.reference, value }
  | none => .error ⟨.protocol, "result is ready before sampling"⟩

def erase (measurement : ℕ) (r : Readouts) : Readouts :=
  { r with pending := r.pending.erase measurement }

/-! ## What the operations do -/

/-- The readouts are pending under their measurements. -/
def Keyed (r : Readouts) : Prop :=
  ∀ (m : ℕ) (readout : Readout), r.pending[m]? = some readout → readout.reference.measurement = m

theorem at_eq_ok_iff {r : Readouts} {measurement : ℕ} {readout : Readout} :
    r.at measurement = .ok readout ↔ r.pending[measurement]? = some readout := by
  unfold Readouts.at
  cases r.pending[measurement]? <;> simp

theorem result_eq_ok_iff {r : Readouts} {measurement : ℕ} {c : Completion} :
    r.result measurement = .ok c ↔ ∃ readout value, r.pending[measurement]? = some readout ∧
      readout.sample = some value ∧ c = { reference := readout.reference, value } := by
  simp only [result, Except.bind_eq_ok_iff, at_eq_ok_iff]
  constructor
  · rintro ⟨readout, hreadout, h⟩
    cases hs : readout.sample with
    | none => simp [hs] at h
    | some value =>
      simp only [hs, Except.pure_eq_ok_iff] at h
      exact ⟨readout, value, hreadout, hs, h.symm⟩
  · rintro ⟨readout, value, hreadout, hs, rfl⟩
    exact ⟨readout, hreadout, by simp [hs]⟩

/-- When the result of an acquisition of the batch is ready. -/
def readyTick (actions : List ScheduledEvent) (a : ScheduledEvent) : ℕ :=
  match a.event.action.spec with
  | .acquire value => max a.end (armStart actions a value.separateArm) + value.discriminatorDelay
  | _ => a.end

/-- The readout of an action of the batch, if it is an acquisition. -/
def readoutOf (actions : List ScheduledEvent) (a : ScheduledEvent) : Option Readout :=
  match a.event.action.spec, a.event.reference with
  | .acquire value, some reference => some
      { reference, «end» := a.end, arm := armStart actions a value.separateArm
        ready := readyTick actions a, core := a.event.core }
  | _, _ => none

/-- An acquisition is the only one of its measurement, which is not pending, and has its arms. -/
structure Paired (r : Readouts) (actions : List ScheduledEvent) (value : AcquireSpec)
    (reference : MeasurementReference) : Prop where
  acquired : actions.countP (acquires reference.measurement) = 1
  fresh : reference.measurement ∉ r.pending
  armed : actions.countP (arms reference.measurement) = if value.separateArm then 1 else 0

theorem prepareFrom_spec {r : Readouts} {actions rest : List ScheduledEvent}
    {readouts : List Readout} : r.prepareFrom actions rest = .ok readouts →
      readouts = rest.filterMap (readoutOf actions) ∧
        ∀ a ∈ rest, ∀ value reference, a.event.action.spec = .acquire value →
          a.event.reference = some reference → Paired r actions value reference := by
  intro h
  fun_induction prepareFrom r actions rest generalizing readouts with
  | case1 => simp_all
  | case2 a rest value reference href hspec =>
    rename_i ih
    simp only [Except.bind_eq_ok_iff, require_eq_ok_iff, exists_const,
      Except.pure_eq_ok_iff] at h
    obtain ⟨⟨hone, hfresh, harmed⟩, ready, hready, later, hlater, rfl⟩ := h
    obtain ⟨rfl, hrest⟩ := ih hlater
    refine ⟨?_, ?_⟩
    · have hof : readoutOf actions a = some
          { reference, «end» := a.end, arm := armStart actions a value.separateArm
            ready, core := a.event.core } := by
        simp only [readoutOf, readyTick, hspec, href, eq_of_checkedAdd hready]
      rw [List.filterMap_cons_some hof]
    · intro b hb value' reference' hspec' href'
      rcases List.mem_cons.1 hb with rfl | hb
      · obtain rfl : value = value' := by
          rw [hspec] at hspec'
          exact ActionSpec.acquire.inj hspec'
        obtain rfl : reference = reference' := Option.some.inj (href.symm.trans href')
        exact ⟨hone, hfresh, harmed⟩
      · exact hrest b hb value' reference' hspec' href'
  | case3 a rest hnone ih =>
    obtain ⟨rfl, hrest⟩ := ih h
    refine ⟨?_, ?_⟩
    · have hof : readoutOf actions a = none := by
        unfold readoutOf
        split
        · exact absurd ‹_› (fun h' => hnone _ _ ‹_› h')
        · rfl
      rw [List.filterMap_cons_none hof]
    · intro b hb value reference hspec href
      rcases List.mem_cons.1 hb with rfl | hb
      · exact absurd href (fun h' => hnone _ _ hspec h')
      · exact hrest b hb value reference hspec href

/-- The readout members of a batch have references of the epoch that agree by measurement. -/
structure Members (epoch : ℕ) (actions : List ScheduledEvent) : Prop where
  reference : ∀ a ∈ actions, isReadout a.event.action → ∃ r, a.event.reference = some r ∧
    r.epoch = epoch ∧ a.event.action.targets = [r.target]
  agree : ∀ a ∈ actions, ∀ b ∈ actions, isReadout a.event.action → isReadout b.event.action →
    ∀ r s, a.event.reference = some r → b.event.reference = some s →
      r.measurement = s.measurement → r = s

/-- The check with the references seen before, which the members agree with as well. -/
theorem checkMembers_spec {epoch : ℕ} {seen : List MeasurementReference}
    {actions : List ScheduledEvent} {u : Unit} (h : checkMembers epoch seen actions = .ok u) :
    Members epoch actions ∧ ∀ a ∈ actions, isReadout a.event.action → ∀ r,
      a.event.reference = some r → ∀ s ∈ seen, s.measurement = r.measurement → s = r := by
  induction actions generalizing seen with
  | nil => exact ⟨⟨by simp, by simp⟩, by simp⟩
  | cons a rest ih =>
    by_cases ha : isReadout a.event.action = true
    · cases href : a.event.reference with
      | none => simp [checkMembers, ha, href] at h
      | some r =>
        simp only [checkMembers, ha, if_true, href, Except.bind_eq_ok_iff, require_eq_ok_iff,
          exists_const] at h
        obtain ⟨hepoch, htarget, hseen, hrest⟩ := h
        obtain ⟨members, hagree⟩ := ih hrest
        have hhead : ∀ b ∈ rest, isReadout b.event.action → ∀ s, b.event.reference = some s →
            r.measurement = s.measurement → r = s :=
          fun b hb hread s hs => hagree b hb hread s hs r List.mem_cons_self
        refine ⟨⟨?_, ?_⟩, ?_⟩
        · intro b hb hread
          rcases List.mem_cons.1 hb with rfl | hb
          · exact ⟨r, href, hepoch, htarget⟩
          · exact members.reference b hb hread
        · intro b hb c hc hreadb hreadc s t hs ht hst
          rcases List.mem_cons.1 hb with rfl | hb <;> rcases List.mem_cons.1 hc with rfl | hc
          · exact Option.some.inj (hs.symm.trans ht)
          · obtain rfl : r = s := Option.some.inj (href.symm.trans hs)
            exact hhead c hc hreadc t ht hst
          · obtain rfl : r = t := Option.some.inj (href.symm.trans ht)
            exact (hhead b ‹_› hreadb s hs hst.symm).symm
          · exact members.agree b hb c hc hreadb hreadc s t hs ht hst
        · intro b hb hread s hs t ht hts
          rcases List.mem_cons.1 hb with rfl | hb
          · obtain rfl : r = s := Option.some.inj (href.symm.trans hs)
            exact hseen t ht hts
          · exact hagree b hb hread s hs t (List.mem_cons_of_mem _ ht) hts
    · simp only [checkMembers, ha, if_false, Bool.false_eq_true] at h
      obtain ⟨members, hagree⟩ := ih h
      refine ⟨⟨?_, ?_⟩, ?_⟩
      · intro b hb hread
        rcases List.mem_cons.1 hb with rfl | hb
        · exact absurd hread ha
        · exact members.reference b hb hread
      · intro b hb c hc hreadb hreadc
        rcases List.mem_cons.1 hb with rfl | hb
        · exact absurd hreadb ha
        · rcases List.mem_cons.1 hc with rfl | hc
          · exact absurd hreadc ha
          · exact members.agree b hb c hc hreadb hreadc
      · intro b hb hread
        rcases List.mem_cons.1 hb with rfl | hb
        · exact absurd hread ha
        · exact hagree b hb hread

/-- What is known of a batch whose readouts have been prepared. -/
structure Prepared (r : Readouts) (actions : List ScheduledEvent) (epoch : ℕ)
    (readouts : List Readout) : Prop where
  members : Members epoch actions
  readouts : readouts = actions.filterMap (readoutOf actions)
  paired : ∀ a ∈ actions, ∀ value reference, a.event.action.spec = .acquire value →
    a.event.reference = some reference → Paired r actions value reference

theorem prepare_spec {r : Readouts} {actions : List ScheduledEvent} {epoch : ℕ}
    {readouts : List Readout} (h : r.prepare actions epoch = .ok readouts) :
    Prepared r actions epoch readouts := by
  simp only [prepare, Except.bind_eq_ok_iff, require_eq_ok_iff, exists_const,
    Except.pure_eq_ok_iff] at h
  obtain ⟨_, hmembers, readouts, hfrom, -, rfl⟩ := h
  obtain ⟨hreadouts, hpaired⟩ := prepareFrom_spec hfrom
  exact ⟨(checkMembers_spec hmembers).1, hreadouts, hpaired⟩

theorem insertAll_returns {readouts : List Readout} {r r' : Readouts} {u : Unit}
    {l : List TraceEvent} (h : (insertAll readouts).Returns r u r' l) :
    r'.pending = readouts.foldl (fun m x => m.insert x.reference.measurement x) r.pending ∧
      (readouts.map (·.reference.measurement)).Nodup ∧
      (∀ x ∈ readouts, x.reference.measurement ∉ r.pending) ∧ l = [] := by
  induction readouts generalizing r l with
  | nil =>
    obtain ⟨-, rfl, rfl⟩ := Proc.returns_pure_iff.1 h
    simp
  | cons x rest ih =>
    obtain ⟨_, r₁, l₁, l₂, hx, hrest, rfl⟩ := Proc.returns_bind_iff.1 h
    simp only [insert, Proc.returns_get_bind_iff, Proc.returns_lift_bind_iff, require_eq_ok_iff,
      exists_const, Proc.returns_set_iff] at hx
    obtain ⟨hfresh, rfl, rfl⟩ := hx
    obtain ⟨hpending, hnodup, hnew, rfl⟩ := ih hrest
    refine ⟨hpending, List.nodup_cons.2 ⟨?_, hnodup⟩, ?_, rfl⟩
    · intro hmem
      obtain ⟨y, hy, hxy⟩ := List.mem_map.1 hmem
      exact hnew y hy (by simp [hxy])
    · intro y hy
      rcases List.mem_cons.1 hy with rfl | hy
      · exact hfresh
      · intro hmem
        exact hnew y hy (by simp [hmem])

end Readouts
end Qsbit

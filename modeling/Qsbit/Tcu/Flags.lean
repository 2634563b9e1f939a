import Qsbit.Tcu.Atomic
import Qsbit.Tcu.Queue

/-!
# Conditional execution

The execution flags of a target are kept up to date with each result: two show the
latest value and one whether the latest two agree. They are a function of the
values committed for the target since the session has begun. A step launches by
the flags as it finds them, so the results of the same edge come too late.

## Main definitions

* `valuesOf`, `flagAfter` — what has been committed for a target, and what its flags are then.
* `Remembers` — the flags are those of the committed results.
* `FlagRun` — the runs of a unit, with the results committed in the session.
* `conditional_execution` — a launch splits its manifest by the flags.
-/
namespace Qsbit
namespace TcuCycleModel

/-- The values committed for a target, in order. -/
def valuesOf (committed : List Completion) (target : ℕ) : List Bool :=
  (committed.filter (·.reference.target = target)).map (·.value)

/-- Whether a flag is set after these values. -/
def flagAfter (values : List Bool) : ExecutionFlag → Bool
  | .always => true
  | .lastOne => values.getLast? = some true
  | .lastZero => values.getLast? = some false
  | .equal => 2 ≤ values.length ∧ values[values.length - 1]? = values[values.length - 2]?

/-- Whether an event is launched after these results. -/
def launches (committed : List Completion) (e : OperationEvent) : Bool :=
  flagAfter (valuesOf committed (e.action.targets.headD 0)) e.action.executionFlag

/-! ## Flags -/

/-- The register of a target after these values. -/
structure Shows (values : List Bool) (r : ExecutionFlags.Register) : Prop where
  seen : r.lastMeasurement ≠ 0 ↔ values ≠ []
  lastOne : r.lastOne = flagAfter values .lastOne
  lastZero : r.lastZero = flagAfter values .lastZero
  equal : r.equal = flagAfter values .equal

/-- The flags of all targets after these results. -/
structure Remembers (qubits : ℕ) (committed : List Completion) (f : ExecutionFlags) : Prop where
  length : f.registers.length = qubits
  shows : ∀ t r, f.registers[t]? = some r → Shows (valuesOf committed t) r

section Flags
variable {qubits epoch : ℕ} {committed : List Completion} {f f' : ExecutionFlags}

theorem shows_nil : Shows [] {} where
  seen := by simp
  lastOne := rfl
  lastZero := rfl
  equal := rfl

theorem Shows.append {values : List Bool} {r : ExecutionFlags.Register} {value : Bool}
    {measurement : ℕ} (h : Shows values r) (hpos : measurement ≠ 0) :
    Shows (values ++ [value])
      { equal := r.lastMeasurement ≠ 0 ∧ r.lastOne = value
        lastOne := value, lastZero := !value, lastMeasurement := measurement } where
  seen := by simp [hpos]
  lastOne := by simp [flagAfter]
  lastZero := by simp [flagAfter]
  equal := by
    rcases List.eq_nil_or_concat values with rfl | ⟨earlier, last, rfl⟩
    · have hnone : r.lastMeasurement = 0 := by
        by_contra hne
        exact h.seen.1 hne rfl
      simp [flagAfter, hnone]
    · rw [List.concat_eq_append] at h ⊢
      have hsome : r.lastMeasurement ≠ 0 := h.seen.2 (by simp)
      have hlast : r.lastOne = last := by
        rw [h.lastOne, flagAfter]
        simp
      have hprevious : (earlier ++ [last] ++ [value])[earlier.length]? = some last := by
        rw [List.getElem?_append_left (by simp)]
        simp
      have hlength : (earlier ++ [last] ++ [value]).length = earlier.length + 2 := by simp
      simp only [flagAfter, hlength]
      rw [show earlier.length + 2 - 2 = earlier.length from rfl, hprevious,
        show earlier.length + 2 - 1 = (earlier ++ [last]).length by simp,
        List.getElem?_concat_length, hlast]
      simp [hsome, eq_comm]

theorem valuesOf_append {c : Completion} {t : ℕ} : valuesOf (committed ++ [c]) t =
    if c.reference.target = t then valuesOf committed t ++ [c.value] else valuesOf committed t := by
  by_cases ht : c.reference.target = t
  · simp [valuesOf, List.filter_append, ht]
  · simp [valuesOf, List.filter_append, ht]

theorem remembers_make : Remembers qubits [] (.make qubits) where
  length := by simp [ExecutionFlags.make]
  shows := by
    intro t r hr
    rw [ExecutionFlags.make, List.getElem?_replicate] at hr
    split at hr
    · rw [← Option.some.inj hr]
      exact shows_nil
    · simp at hr

theorem Remembers.reset (h : Remembers qubits committed f) : Remembers qubits [] f.reset where
  length := by rw [ExecutionFlags.reset, List.length_map, h.length]
  shows := by
    intro t r hr
    rw [ExecutionFlags.reset, List.getElem?_map, Option.map_eq_some_iff] at hr
    obtain ⟨-, -, rfl⟩ := hr
    exact shows_nil

/-- Results of the epoch are remembered, others are dropped. -/
theorem Remembers.commit {c : Completion} (h : Remembers qubits committed f)
    (hc : f.commit c epoch = .ok f') :
    Remembers qubits (committed ++ [c].filter (·.reference.epoch = epoch)) f' := by
  unfold ExecutionFlags.commit at hc
  by_cases hepoch : c.reference.epoch = epoch
  · simp only [hepoch, ne_eq, not_true_eq_false, if_false, Except.bind_eq_ok_iff, require_eq_ok_iff,
      exists_const, Except.pure_eq_ok_iff] at hc
    obtain ⟨htarget, hlater, rfl⟩ := hc
    rw [List.filter_cons_of_pos (by simpa using hepoch), List.filter_nil]
    constructor
    · rw [List.length_set, h.length]
    · intro t r hr
      rw [List.getElem?_set] at hr
      rw [valuesOf_append]
      split at hr
      · rename_i ht
        rw [if_pos ht]
        rw [Option.some.injEq] at hr
        obtain ⟨r', hr'⟩ : ∃ r', f.registers[c.reference.target]? = some r' :=
          ⟨_, List.getElem?_eq_getElem htarget⟩
        rw [hr', Option.getD_some] at hr hlater
        subst ht hr
        exact (h.shows _ r' hr').append (by omega)
      · rename_i ht
        rw [if_neg ht]
        exact h.shows t r hr
  · simp only [hepoch, ne_eq, not_false_eq_true, if_true, Except.pure_eq_ok_iff] at hc
    rw [List.filter_cons_of_neg (by simpa using hepoch), List.filter_nil, List.append_nil, ← hc]
    exact h

theorem Remembers.commitAll {results : List Completion} (h : Remembers qubits committed f)
    (hc : f.commitAll results epoch = .ok f') :
    Remembers qubits (committed ++ results.filter (·.reference.epoch = epoch)) f' := by
  induction results generalizing f committed with
  | nil =>
    obtain rfl := Except.pure_eq_ok_iff.1 hc
    simpa using h
  | cons c rest ih =>
    simp only [ExecutionFlags.commitAll, List.foldlM_cons, Except.bind_eq_ok_iff] at hc
    obtain ⟨f₁, hfirst, hrest⟩ := hc
    have hnext := ih (h.commit hfirst) hrest
    rw [List.append_assoc, ← List.filter_append, List.singleton_append] at hnext
    exact hnext

/-- The flags answer by what has been committed. -/
theorem Remembers.evaluate {target : ℕ} {flag : ExecutionFlag} {b : Bool}
    (h : Remembers qubits committed f) (he : f.evaluate target flag = .ok b) :
    b = flagAfter (valuesOf committed target) flag := by
  simp only [ExecutionFlags.evaluate, Except.bind_eq_ok_iff, require_eq_ok_iff, exists_const,
    Except.pure_eq_ok_iff] at he
  obtain ⟨htarget, rfl⟩ := he
  have hget : f.registers[target]? = some f.registers[target] := List.getElem?_eq_getElem htarget
  have hshows := h.shows target _ hget
  rw [hget, Option.getD_some]
  cases flag with
  | always => rfl
  | lastOne => exact hshows.lastOne
  | lastZero => exact hshows.lastZero
  | equal => exact hshows.equal

end Flags

/-! ## The manifest -/

section Manifest
variable {qubits epoch label : ℕ} {committed : List Completion} {flags : ExecutionFlags}

theorem mem_of_gatherQueue {gathered queue found : List OperationEvent}
    (h : gatherQueue epoch label gathered queue = .ok found) :
    ∀ e ∈ found, e ∈ gathered ∨ e ∈ queue ∧ e.label = label := by
  induction queue generalizing gathered with
  | nil =>
    obtain rfl := Except.pure_eq_ok_iff.1 h
    exact fun e he => .inl he
  | cons event rest ih =>
    unfold gatherQueue at h
    by_cases hlabel : event.label = label
    · simp only [hlabel, ne_eq, not_true_eq_false, if_false, Except.bind_eq_ok_iff, require_eq_ok_iff,
        exists_const] at h
      intro e he
      rcases ih h.2 e he with hmem | ⟨hmem, hl⟩
      · rcases List.mem_append.1 hmem with hmem | hmem
        · exact .inl hmem
        · rw [List.mem_singleton.1 hmem]
          exact .inr ⟨List.mem_cons_self .., hlabel⟩
      · exact .inr ⟨List.mem_cons_of_mem _ hmem, hl⟩
    · simp only [hlabel, ne_eq, not_false_eq_true, if_true, Except.pure_eq_ok_iff] at h
      exact fun e he => .inl (h ▸ he)

/-- What has been gathered for a label stands under it in the queues of the ports. -/
theorem mem_of_gather {gathered found : List OperationEvent} {queues : List (List OperationEvent)}
    (h : gather epoch label gathered queues = .ok found) :
    ∀ e ∈ found, e ∈ gathered ∨ ∃ queue ∈ queues, e ∈ queue ∧ e.label = label := by
  induction queues generalizing gathered with
  | nil =>
    obtain rfl := Except.pure_eq_ok_iff.1 h
    exact fun e he => .inl he
  | cons queue rest ih =>
    simp only [gather, Except.bind_eq_ok_iff] at h
    obtain ⟨_, -, next, hqueue, hrest⟩ := h
    intro e he
    rcases ih hrest e he with hmem | ⟨other, hother, hmem⟩
    · rcases mem_of_gatherQueue hqueue e hmem with hmem | hmem
      · exact .inl hmem
      · exact .inr ⟨queue, List.mem_cons_self .., hmem⟩
    · exact .inr ⟨other, List.mem_cons_of_mem _ hother, hmem⟩

/-- The events of a manifest are split by the flags, in the order of the manifest. -/
theorem evaluateManifest_spec {gathered launched cancelled : List OperationEvent} {manifest : List ℕ}
    (hflags : Remembers qubits committed flags)
    (h : evaluateManifest flags gathered manifest = .ok (launched, cancelled)) :
    ∃ events : List OperationEvent, events.map (·.id) = manifest ∧ (∀ e ∈ events, e ∈ gathered) ∧
      launched = events.filter (launches committed) ∧
      cancelled = events.filter (!launches committed ·) := by
  induction manifest generalizing launched cancelled with
  | nil =>
    obtain ⟨rfl, rfl⟩ := Prod.mk.inj (Except.pure_eq_ok_iff.1 h)
    exact ⟨[], rfl, by simp, rfl, rfl⟩
  | cons id rest ih =>
    unfold evaluateManifest at h
    cases hfind : gathered.find? (·.id = id) with
    | none => simp [hfind] at h
    | some event =>
      simp only [hfind, Except.bind_eq_ok_iff, Except.pure_eq_ok_iff, Prod.exists] at h
      obtain ⟨decision, hdecision, events', cancelled', hrest, heq⟩ := h
      obtain ⟨events, hids, hmem, rfl, rfl⟩ := ih hrest
      have hid := List.find?_some hfind
      simp only [decide_eq_true_eq] at hid
      have hsame : decision = launches committed event := by
        by_cases hflag : event.action.executionFlag = .always
        · rw [if_neg (not_not.2 hflag)] at hdecision
          rw [← Except.pure_eq_ok_iff.1 hdecision, launches, hflag]
          rfl
        · rw [if_pos hflag] at hdecision
          exact hflags.evaluate hdecision
      refine ⟨event :: events, by rw [List.map_cons, hids, hid], ?_, ?_⟩
      · exact List.forall_mem_cons.2 ⟨List.mem_of_find?_eq_some hfind, hmem⟩
      · rw [hsame] at heq
        cases hlaunches : launches committed event with
        | true =>
          rw [hlaunches, if_pos rfl, Prod.mk.injEq] at heq
          obtain ⟨rfl, rfl⟩ := heq
          simp [hlaunches]
        | false =>
          rw [hlaunches, if_neg Bool.false_ne_true, Prod.mk.injEq] at heq
          obtain ⟨rfl, rfl⟩ := heq
          simp [hlaunches]

end Manifest

/-! ## Runs -/

/-- The runs of a unit, on any edges, with the results of the current session that it has committed.
A step that faults commits nothing. -/
inductive FlagRun (profile : TcuConfig) (syncCapacity : ℕ) :
    ℕ → List Completion → TcuCycleModel → Prop
  | make {m : TcuCycleModel} (epoch : ℕ) (h : make profile syncCapacity = .ok m) :
      FlagRun profile syncCapacity epoch [] m
  | reset {epoch origin : ℕ} {committed : List Completion} {m m' : TcuCycleModel} {u : Unit}
      {l : List TraceEvent} (epoch' : ℕ) (run : FlagRun profile syncCapacity epoch committed m)
      (h : (reset origin).Returns m u m' l) : FlagRun profile syncCapacity epoch' [] m'
  | step {epoch now : ℕ} {committed : List Completion} {m m' : TcuCycleModel} {χ : Type}
      {candidate : Option TimingEvents} {results : List Completion}
      {preflight : TriggeredEvents → Except Fault Unit} {synchronizationPaused : Bool}
      {syncPreflight : Option (List ℕ → Sim χ Unit)} {c c' : χ} {out : TcuOutput}
      {l : List TraceEvent} (run : FlagRun profile syncCapacity epoch committed m)
      (h : (step now epoch candidate results preflight synchronizationPaused syncPreflight).Returns
        (m, c) out (m', c') l) :
      FlagRun profile syncCapacity epoch (committed ++ results.filter (·.reference.epoch = epoch)) m'
  | refused {epoch now : ℕ} {committed : List Completion} {m m' : TcuCycleModel} {χ : Type}
      {candidate : Option TimingEvents} {results : List Completion}
      {preflight : TriggeredEvents → Except Fault Unit} {synchronizationPaused : Bool}
      {syncPreflight : Option (List ℕ → Sim χ Unit)} {c c' : χ} {f : Fault} {l : List TraceEvent}
      (run : FlagRun profile syncCapacity epoch committed m)
      (h : (step now epoch candidate results preflight synchronizationPaused syncPreflight).Raises
        (m, c) f (m', c') l) : FlagRun profile syncCapacity epoch committed m'
  | close {epoch : ℕ} {committed : List Completion} {m m' : TcuCycleModel} {terminal : EndOfStream}
      {u : Unit} {l : List TraceEvent} (run : FlagRun profile syncCapacity epoch committed m)
      (h : (close terminal).Returns m u m' l) : FlagRun profile syncCapacity epoch committed m'

section Runs
variable {profile : TcuConfig} {syncCapacity epoch : ℕ} {committed : List Completion}
  {m m' : TcuCycleModel}

theorem FlagRun.remembers (run : FlagRun profile syncCapacity epoch committed m) :
    Remembers profile.timing.qubits committed m.executionFlags := by
  induction run with
  | make epoch h =>
    simp only [TcuCycleModel.make, Except.bind_eq_ok_iff, Except.pure_eq_ok_iff] at h
    obtain ⟨_, -, rfl⟩ := h
    exact remembers_make
  | reset epoch' run h ih =>
    obtain ⟨start, -, rfl⟩ := reset_returns h
    exact ih.reset
  | step run h ih =>
    obtain ⟨trigger, admission, hs⟩ := stepped_of_returns h
    obtain ⟨flags, hflags, rfl⟩ := hs.state
    exact ih.commitAll hflags
  | refused run h ih =>
    obtain ⟨rfl, -⟩ := raises_of_step h
    exact ih
  | close run h ih =>
    simp only [TcuCycleModel.close, Proc.returns_get_bind_iff, Proc.returns_lift_bind_iff,
      Proc.returns_set_iff] at h
    obtain ⟨_, -, rfl, -⟩ := h
    exact ih

/-- The record of an event that has been cancelled. -/
def conditionCancelled (now epoch label cycle : ℕ) (e : OperationEvent) : TraceEvent :=
  { tick := now, epoch, kind := .conditionCancelled, id := e.id, label, cycle, port := e.action.port
    operation := e.action.operation, targets := e.action.targets }

/-- A trigger commits with the records of what it has cancelled. -/
theorem cancelled_of_commit {now : ℕ} {candidate : Option TimingEvents} {results : List Completion}
    {p : Prepared} {trigger : Trigger} {point : Point} {rest : List Point} {out : TcuOutput}
    {l : List TraceEvent} (htrigger : p.trigger = some trigger) (htiming : m.timing = point :: rest)
    (h : (commit now epoch candidate results p).Returns m out m' l) :
    trigger.cancelled.map (conditionCancelled now epoch point.point.label p.state.cycle) <:+: l := by
  obtain ⟨_, m₁, l₁, l₂, hfire, -, rfl⟩ := Proc.returns_bind_iff.1 h
  rw [htrigger] at hfire
  simp only [Proc.forSome_some, commitTrigger, Proc.returns_get_bind_iff, htiming,
    Proc.returns_set_bind_iff] at hfire
  obtain ⟨_, m₂, k₁, k₂, -, hrecords, rfl⟩ := Proc.returns_bind_iff.1 hfire
  simp only [Proc.returns_set_bind_iff, Proc.returns_emit_bind_iff, Proc.returns_emitAll_iff]
    at hrecords
  obtain ⟨k, ⟨-, rfl⟩, rfl⟩ := hrecords
  refine List.IsInfix.trans ?_ (List.prefix_append _ l₂).isInfix
  refine List.IsInfix.trans ?_ (List.suffix_append k₁ _).isInfix
  exact (List.suffix_cons _ _).isInfix

/-- Conditional execution follows the history. A launch splits the events of its manifest, which
stand in the queues, into those whose flag is set by the results committed before this edge and those
whose flag is not, both in the order of the manifest; the latter are recorded as cancelled. Nothing
depends on the results that come with the edge itself. -/
theorem conditional_execution (run : FlagRun profile syncCapacity epoch committed m) {χ : Type}
    {now : ℕ} {candidate : Option TimingEvents} {results : List Completion}
    {preflight : TriggeredEvents → Except Fault Unit} {synchronizationPaused : Bool}
    {syncPreflight : Option (List ℕ → Sim χ Unit)} {c c' : χ} {out : TcuOutput}
    {l : List TraceEvent} {batch : TriggeredEvents}
    (h : (step now epoch candidate results preflight synchronizationPaused syncPreflight).Returns
      (m, c) out (m', c') l) (launched : out.launch = some batch) :
    ∃ (point : Point) (rest : List Point) (events : List OperationEvent) (cycle : ℕ),
      m.timing = point :: rest ∧ events.map (·.id) = point.point.manifest ∧
      (∀ e ∈ events, ∃ queue ∈ m.events, e ∈ queue ∧ e.label = point.point.label) ∧
      batch.events = events.filter (launches committed) ∧
      (events.filter (!launches committed ·)).map
        (conditionCancelled now epoch point.point.label cycle) <:+: l := by
  rw [step_eq_commit] at h
  obtain ⟨p, ⟨m₁, c₁⟩, l₁, l₂, hprepare, hcommit, rfl⟩ := Proc.returns_bind_iff.1 h
  obtain ⟨rfl, ⟨c₂, l₃, htrigger⟩, -⟩ := prepare_parts hprepare
  obtain ⟨hunit, rfl⟩ := Proc.returns_onFst_iff.1 hcommit
  have hout : out.launch = p.trigger.map (·.batch) := by
    obtain ⟨_, m₁, k₁, k₂, -, hrest, -⟩ := Proc.returns_bind_iff.1 hunit
    obtain ⟨_, m₂, k₃, k₄, -, hrest, -⟩ := Proc.returns_bind_iff.1 hrest
    obtain ⟨_, m₃, k₅, k₆, -, hrest, -⟩ := Proc.returns_bind_iff.1 hrest
    obtain ⟨_, m₄, k₇, k₈, -, hrest, -⟩ := Proc.returns_bind_iff.1 hrest
    rw [← (Proc.returns_pure_iff.1 hrest).1]
  rw [hout, Option.map_eq_some_iff] at launched
  obtain ⟨trigger, hp, rfl⟩ := launched
  rw [hp] at htrigger
  cases prepareTrigger_returns htrigger with
  | head point rest trigger htiming running unpaused due assembled =>
    simp only [assembleTrigger, Except.bind_eq_ok_iff, require_eq_ok_iff, exists_const,
      Except.pure_eq_ok_iff, Prod.exists] at assembled
    obtain ⟨-, gathered, hgather, -, events', cancelled, hmanifest, rfl⟩ := assembled
    obtain ⟨events, hids, hmem, rfl, rfl⟩ := evaluateManifest_spec run.remembers hmanifest
    refine ⟨point, rest, events, p.state.cycle, htiming, hids, ?_, rfl, ?_⟩
    · intro e he
      rcases mem_of_gather hgather e (hmem e he) with hnil | hqueue
      · simp at hnil
      · exact hqueue
    · exact (cancelled_of_commit hp htiming hunit).trans (List.suffix_append l₁ l₂).isInfix

end Runs

/-- A gate that is applied if the latest result of its target is one. -/
def conditionalGate : Profile :=
  { mappings := [{ codeword := 1, actions :=
      [{ spec := .gate { operands := { targets := [0] }, executionFlag := .lastOne } }] }] }

def conditionalConfig : TcuConfig := (tcuConfig "" conditionalGate).toOption.get (by decide)

def conditionalUnit : TcuCycleModel := (make conditionalConfig).toOption.get (by decide)

def conditionalRequest : TimingEvents :=
  { point := { epoch := 1, label := 1, interval := 1, underflowPolicy := .strict, manifest := [1] }
    events := [{ epoch := 1, id := 1, label := 1, codeword := 1, action :=
      { spec := .gate { operands := { targets := [0] }, executionFlag := .lastOne } } }] }

/-- The unit after the request has been admitted together with a first result. -/
def conditionalAdmitted : TcuCycleModel :=
  (step (χ := Unit) 980 1 (some conditionalRequest) [⟨⟨1, 1, 0⟩, true⟩] (fun _ => pure ()) false none
    (conditionalUnit, ())).state.1

/-- The gate is launched for the result of an earlier edge, although one of the same edge differs. -/
theorem conditional_execution_probe : ∃ (out : TcuOutput) (batch : TriggeredEvents)
    (m' : TcuCycleModel) (l : List TraceEvent) (events : List OperationEvent),
    (step (χ := Unit) 1020 1 none [⟨⟨1, 2, 0⟩, false⟩] (fun _ => pure ()) false none).Returns
      (conditionalAdmitted, ()) out (m', ()) l ∧
    out.launch = some batch ∧ events.map (·.id) = [1] ∧
    batch.events = events.filter (launches [⟨⟨1, 1, 0⟩, true⟩]) ∧ batch.events.length = 1 := by
  have hunit : FlagRun conditionalConfig 8 1 [] conditionalUnit := .make 1 rfl
  have hfirst : ∃ out c l, (step (χ := Unit) 980 1 (some conditionalRequest) [⟨⟨1, 1, 0⟩, true⟩]
      (fun _ => pure ()) false none).Returns (conditionalUnit, ()) out (conditionalAdmitted, c) l :=
    ⟨_, _, _, rfl⟩
  obtain ⟨out, _, _, hfirst⟩ := hfirst
  have hadmitted : FlagRun conditionalConfig 8 1 [⟨⟨1, 1, 0⟩, true⟩] conditionalAdmitted :=
    hunit.step hfirst
  have hlaunch : ∃ out c l batch, (step (χ := Unit) 1020 1 none [⟨⟨1, 2, 0⟩, false⟩]
      (fun _ => pure ()) false none).Returns (conditionalAdmitted, ()) out c l ∧
        out.launch = some batch ∧ batch.events.length = 1 := ⟨_, _, _, _, rfl, rfl, rfl⟩
  obtain ⟨out, ⟨m', _⟩, l, batch, hstep, hsome, hlength⟩ := hlaunch
  obtain ⟨point, rest, events, cycle, htiming, hids, -, hbatch, -⟩ :=
    conditional_execution hadmitted hstep hsome
  refine ⟨out, batch, m', l, events, hstep, hsome, ?_, hbatch, hlength⟩
  have hpoint : conditionalAdmitted.timing.map (·.point.manifest) = [[1]] := by decide +kernel
  rw [htiming, List.map_cons, List.cons.injEq] at hpoint
  rw [hids, hpoint.1]

end TcuCycleModel
end Qsbit

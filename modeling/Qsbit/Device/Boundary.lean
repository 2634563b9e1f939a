import Qsbit.Device.Step

/-!
# The checks of a boundary

Before a boundary changes the backend its starting actions are checked and the
outputs of the two-qubit gates among them are grouped by gate. A gate is resolved
when its outputs are one for each of its inputs and all end with it.

## Main definitions

* `outputsOf` — the outputs of a gate among some actions.
* `Complete` — the outputs of a gate are those that its inputs ask for.
* `resolveGateOutputs_spec`, `resolveGateOutputs_of_fits` — which outputs are resolved, and to what.
-/
namespace Qsbit
open Std (ExtTreeMap)

namespace ControlElectronics
variable {β : Type} {backend : QuantumBackend β} {p : DeviceProfile} {now epoch : ℕ}

/-! ## Grouping -/

/-- The outputs of a gate among some actions. -/
def outputsOf (name : String) (actions : List ScheduledEvent) : List ScheduledEvent :=
  actions.filter (·.event.action.spec = .gateOutput { gate := name })

theorem getElem?_addOutput {m : ExtTreeMap String (List ScheduledEvent)} {a : ScheduledEvent}
    {name : String} : (addOutput m a)[name]? =
      if a.event.action.spec = .gateOutput { gate := name } then some (m[name]?.getD [] ++ [a])
      else m[name]? := by
  unfold addOutput
  split
  · rename_i value hspec
    rw [ExtTreeMap.getElem?_alter, hspec]
    by_cases hname : value.gate = name
    · subst hname
      simp
    · have hne : ActionSpec.gateOutput value ≠ .gateOutput { gate := name } := by
        rintro heq
        exact hname (congrArg GateOutputSpec.gate (ActionSpec.gateOutput.inj heq))
      rw [if_neg hne, if_neg (by simpa using hname)]
  · rename_i hspec
    rw [if_neg (hspec _)]

/-- The outputs are grouped by gate, each gate with those it has, in their order. -/
theorem getElem?_gateOutputs {starts : List ScheduledEvent} {name : String} :
    (gateOutputs starts)[name]? =
      if outputsOf name starts = [] then none else some (outputsOf name starts) := by
  have hfold : ∀ m : ExtTreeMap String (List ScheduledEvent), (starts.foldl addOutput m)[name]? =
      if outputsOf name starts = [] then m[name]?
      else some (m[name]?.getD [] ++ outputsOf name starts) := by
    induction starts with
    | nil =>
      intro m
      rfl
    | cons a rest ih =>
      intro m
      rw [List.foldl_cons, ih, getElem?_addOutput]
      unfold outputsOf
      by_cases ha : a.event.action.spec = .gateOutput { gate := name }
      · simp only [ha, decide_true, List.filter_cons_of_pos, if_true, Option.getD_some,
          List.append_assoc, List.singleton_append, reduceCtorEq, if_false]
        split <;> simp [*]
      · simp only [ha, decide_false, Bool.false_eq_true, not_false_eq_true,
          List.filter_cons_of_neg, if_false]
  rw [gateOutputs, hfold]
  simp

theorem mem_gateOutputs {starts : List ScheduledEvent} {name : String}
    {outputs : List ScheduledEvent} : (name, outputs) ∈ (gateOutputs starts).toList ↔
      outputs = outputsOf name starts ∧ outputs ≠ [] := by
  rw [ExtTreeMap.mem_toList_iff_getElem?_eq_some, getElem?_gateOutputs]
  split
  · rename_i hnone
    rw [hnone]
    simp
  · rename_i hne
    simp only [Option.some.injEq]
    constructor
    · rintro rfl
      exact ⟨rfl, hne⟩
    · rintro ⟨rfl, -⟩
      rfl

/-! ## The actions that start -/

/-- What is known of an action that starts when its boundary has been planned. -/
structure Starts (backend : QuantumBackend β) (p : DeviceProfile) (epoch : ℕ) (sampled : List ℕ)
    (a : ScheduledEvent) : Prop where
  epoch : a.event.epoch = epoch
  valid : ControlElectronics.validate backend p a.event.action = .ok ()
  apart : isGate a.event.action → ∀ target ∈ a.resolved.targets, target ∉ sampled

theorem checkStarts_eq_ok_iff {sampled : List ℕ} {starts : List ScheduledEvent} {u : Unit} :
    checkStarts backend p epoch sampled starts = .ok u ↔
      ∀ a ∈ starts, Starts backend p epoch sampled a := by
  induction starts with
  | nil => simp [checkStarts]
  | cons a rest ih =>
    simp only [checkStarts, Except.bind_eq_ok_iff, require_eq_ok_iff, exists_const, ih,
      List.forall_mem_cons]
    constructor
    · rintro ⟨hepoch, _, hvalid, hapart, hrest⟩
      exact ⟨⟨hepoch, hvalid, hapart⟩, hrest⟩
    · rintro ⟨⟨hepoch, hvalid, hapart⟩, hrest⟩
      exact ⟨hepoch, (), hvalid, hapart, hrest⟩

/-! ## Resolution -/

/-- The outputs of a gate are one for each of its inputs, and end with the gate. -/
structure Complete (now : ℕ) (gate : TwoQubitGate) (outputs : List ScheduledEvent) : Prop where
  length : outputs.length = gate.inputs.length
  once : ∀ input ∈ gate.inputs,
    outputs.countP (fun o => inputOf o.event = input ∧ o.end = now + gate.duration) = 1

instance {gate : TwoQubitGate} {outputs : List ScheduledEvent} :
    Decidable (Complete now gate outputs) :=
  decidable_of_iff (outputs.length = gate.inputs.length ∧ ∀ input ∈ gate.inputs,
      outputs.countP (fun o => inputOf o.event = input ∧ o.end = now + gate.duration) = 1)
    ⟨fun h => ⟨h.1, h.2⟩, fun h => ⟨h.length, h.once⟩⟩

theorem countInputs_eq {gate : TwoQubitGate} {input : GateInput} {outputs : List ScheduledEvent}
    {n : ℕ} (h : countInputs now gate input outputs = .ok n) :
    n = outputs.countP fun o => inputOf o.event = input ∧ o.end = now + gate.duration := by
  induction outputs generalizing n with
  | nil =>
    rw [← Except.pure_eq_ok_iff.1 h]
    rfl
  | cons o rest ih =>
    simp only [countInputs, Except.bind_eq_ok_iff, Except.pure_eq_ok_iff] at h
    obtain ⟨counts, hcounts, count, hrest, rfl⟩ := h
    rw [List.countP_cons, ← ih hrest]
    by_cases hinput : input = inputOf o.event
    · rw [if_pos hinput] at hcounts
      simp only [Except.bind_eq_ok_iff, Except.pure_eq_ok_iff] at hcounts
      obtain ⟨last, hlast, rfl⟩ := hcounts
      rw [eq_of_checkedAdd hlast]
      by_cases hend : o.end = now + gate.duration
      · simp [hinput, hend]
      · simp [hend]
    · rw [if_neg hinput] at hcounts
      rw [← Except.pure_eq_ok_iff.1 hcounts]
      simp [Ne.symm hinput]

theorem checkInputs_spec {gate : TwoQubitGate} {outputs : List ScheduledEvent}
    {inputs : List GateInput} {u : Unit} (h : checkInputs now gate outputs inputs = .ok u) :
    ∀ input ∈ inputs,
      outputs.countP (fun o => inputOf o.event = input ∧ o.end = now + gate.duration) = 1 := by
  induction inputs with
  | nil => simp
  | cons input rest ih =>
    simp only [checkInputs, Except.bind_eq_ok_iff, require_eq_ok_iff, exists_const] at h
    obtain ⟨count, hcount, hone, hrest⟩ := h
    rw [List.forall_mem_cons]
    exact ⟨(countInputs_eq hcount).symm.trans hone, ih hrest⟩

/-- Each gate that is resolved is known and complete, and is applied once. -/
theorem resolveGateOutputs_spec {outputs : List (String × List ScheduledEvent)}
    {gates : List EventSpec} (h : resolveGateOutputs p now outputs = .ok gates) :
    (∀ output ∈ outputs, ∃ g, p.gate output.1 = .ok g ∧ Complete now g output.2) ∧
      gates = outputs.filterMap fun output => (gateAction p output.1).toOption := by
  induction outputs generalizing gates with
  | nil =>
    rw [← Except.pure_eq_ok_iff.1 h]
    simp
  | cons output rest ih =>
    simp only [resolveGateOutputs, Except.bind_eq_ok_iff, require_eq_ok_iff, exists_const,
      Except.pure_eq_ok_iff] at h
    obtain ⟨g, hg, hlength, _, hinputs, action, haction, actions, hrest, rfl⟩ := h
    obtain ⟨hcomplete, rfl⟩ := ih hrest
    refine ⟨List.forall_mem_cons.2 ⟨⟨g, hg, hlength, checkInputs_spec hinputs⟩, hcomplete⟩, ?_⟩
    rw [List.filterMap_cons_some]
    rw [haction]
    rfl

section Decides
variable {gate : TwoQubitGate} (hfits : checkedAdd now gate.duration = .ok (now + gate.duration))
include hfits

theorem countInputs_of_fits (input : GateInput) (outputs : List ScheduledEvent) :
    ∃ n, countInputs now gate input outputs = .ok n := by
  induction outputs with
  | nil => exact ⟨0, rfl⟩
  | cons o rest ih =>
    obtain ⟨n, hn⟩ := ih
    by_cases hinput : input = inputOf o.event
    · exact ⟨_, by simp only [countInputs, if_pos hinput, hfits, hn]; rfl⟩
    · exact ⟨_, by simp only [countInputs, if_neg hinput, hn]; rfl⟩

/-- When the end of the gate is a tick, its inputs are refused for one reason only. -/
theorem checkInputs_of_fits (outputs : List ScheduledEvent) (inputs : List GateInput) :
    checkInputs now gate outputs inputs = .ok () ∨
      (∃ input ∈ inputs, outputs.countP
        (fun o => inputOf o.event = input ∧ o.end = now + gate.duration) ≠ 1) ∧
        checkInputs now gate outputs inputs =
          .error ⟨.gateInputMismatch, "missing or duplicate two-qubit gate input"⟩ := by
  induction inputs with
  | nil => exact .inl rfl
  | cons input rest ih =>
    obtain ⟨n, hn⟩ := countInputs_of_fits hfits input outputs
    have hcount := countInputs_eq hn
    by_cases hone : n = 1
    · have hstep : checkInputs now gate outputs (input :: rest) =
          checkInputs now gate outputs rest := by
        simp only [checkInputs, hn, require, bind, Except.bind, if_pos hone]
      rw [hstep]
      refine ih.imp_right ?_
      rintro ⟨⟨input', hinput', hne⟩, herror⟩
      exact ⟨⟨input', List.mem_cons_of_mem _ hinput', hne⟩, herror⟩
    · refine .inr ⟨⟨input, List.mem_cons_self, by rwa [← hcount]⟩, ?_⟩
      simp only [checkInputs, hn, require, bind, Except.bind, if_neg hone]

end Decides

/-- Known gates whose ends are ticks are resolved, or one of them is not complete. -/
theorem resolveGateOutputs_of_fits {outputs : List (String × List ScheduledEvent)}
    (hfits : ∀ output ∈ outputs, ∃ gate, p.gate output.1 = .ok gate ∧
      checkedAdd now gate.duration = .ok (now + gate.duration)) :
    (∃ gates, resolveGateOutputs p now outputs = .ok gates) ∨
      (∃ output ∈ outputs, ∃ gate, p.gate output.1 = .ok gate ∧ ¬ Complete now gate output.2) ∧
        ∃ message, resolveGateOutputs p now outputs = .error ⟨.gateInputMismatch, message⟩ := by
  induction outputs with
  | nil => exact .inl ⟨[], rfl⟩
  | cons output rest ih =>
    obtain ⟨name, os⟩ := output
    obtain ⟨⟨gate, hgate, hlast⟩, hrest⟩ := List.forall_mem_cons.1 hfits
    by_cases hlength : os.length = gate.inputs.length
    · rcases checkInputs_of_fits hlast os gate.inputs with hok | ⟨hne, herror⟩
      · have haction : ∃ action, gateAction p name = .ok action := by
          rw [gateAction, hgate]
          exact ⟨_, rfl⟩
        obtain ⟨action, haction⟩ := haction
        rcases ih hrest with ⟨gates, hgates⟩ | ⟨⟨output, houtput, hincomplete⟩, message, herror⟩
        · refine .inl ⟨action :: gates, ?_⟩
          simp only [resolveGateOutputs, hgate, hok, haction, hgates, require, bind, Except.bind,
            if_pos hlength]
          rfl
        · refine .inr ⟨⟨output, List.mem_cons_of_mem _ houtput, hincomplete⟩, message, ?_⟩
          simp only [resolveGateOutputs, hgate, hok, haction, herror, require, bind, Except.bind,
            if_pos hlength]
      · obtain ⟨input, hinput, hcount⟩ := hne
        refine .inr ⟨⟨(name, os), List.mem_cons_self, gate, hgate, fun h => ?_⟩,
          "missing or duplicate two-qubit gate input", ?_⟩
        · exact hcount (h.once input hinput)
        · simp only [resolveGateOutputs, hgate, herror, require, bind, Except.bind, if_pos hlength]
    · refine .inr ⟨⟨(name, os), List.mem_cons_self, gate, hgate, fun h => hlength h.length⟩,
        "two-qubit gate requires both outputs at the same physical start tick: " ++ name, ?_⟩
      simp only [resolveGateOutputs, hgate, require, bind, Except.bind, if_neg hlength]

/-! ## The plan -/

/-- What the plan of a boundary consists of, and what has been checked for it. -/
structure Planned (backend : QuantumBackend β) (d : ControlElectronics β) (boundary : Boundary)
    (now epoch : ℕ) (p : Plan) : Prop where
  samples : d.samplesOf boundary.ends = .ok p.samples
  targets : (p.samples.map (·.target)).Nodup
  starts : ∀ a ∈ boundary.starts,
    Starts backend d.profile epoch (p.samples.map (·.target)) a
  outputs : p.outputs = (gateOutputs boundary.starts).toList
  gates : ∃ paired, resolveGateOutputs d.profile now p.outputs = .ok paired ∧
    p.gates = gatesOf boundary.starts ++ paired

theorem plan_spec {d : ControlElectronics β} {boundary : Boundary} {p : Plan}
    (h : d.plan backend boundary now epoch = .ok p) : Planned backend d boundary now epoch p := by
  simp only [plan, Except.bind_eq_ok_iff, require_eq_ok_iff, exists_const,
    Except.pure_eq_ok_iff] at h
  obtain ⟨samples, hsamples, htargets, _, hstarts, paired, hpaired, rfl⟩ := h
  exact
    { samples := hsamples
      targets := htargets
      starts := checkStarts_eq_ok_iff.1 hstarts
      outputs := rfl
      gates := ⟨paired, hpaired, rfl⟩ }

/-- The gates of a plan are supported by the backend. -/
theorem Planned.valid {d : ControlElectronics β} {boundary : Boundary} {p : Plan}
    (h : Planned backend d boundary now epoch p) : ∀ gate ∈ p.gates, backend.validate gate = .ok () := by
  intro gate hgate
  obtain ⟨paired, hpaired, hgates⟩ := h.gates
  rw [hgates] at hgate
  rcases List.mem_append.1 hgate with hgate | hgate
  · obtain ⟨a, ha, rfl⟩ := List.mem_map.1 hgate
    obtain ⟨ha, hkind⟩ := List.mem_filter.1 ha
    have hvalid := (h.starts a ha).valid
    unfold ControlElectronics.validate at hvalid
    split at hvalid
    · rename_i hspec
      simp [EventSpec.kind, hspec] at hkind
    · exact hvalid
  · rw [(resolveGateOutputs_spec hpaired).2] at hgate
    obtain ⟨output, houtput, haction⟩ := List.mem_filterMap.1 hgate
    rw [h.outputs] at houtput
    obtain ⟨houtputs, hne⟩ := mem_gateOutputs.1 houtput
    rw [houtputs] at hne
    obtain ⟨a, ha⟩ := List.exists_mem_of_ne_nil _ hne
    obtain ⟨ha, hspec⟩ := List.mem_filter.1 ha
    have hvalid := (h.starts a ha).valid
    rw [decide_eq_true_eq] at hspec
    simp only [ControlElectronics.validate, hspec, Except.bind_eq_ok_iff] at hvalid
    obtain ⟨gate', hgate', hvalid⟩ := hvalid
    rw [hgate'] at haction
    obtain rfl := Option.some.inj haction
    exact hvalid

end ControlElectronics
end Qsbit

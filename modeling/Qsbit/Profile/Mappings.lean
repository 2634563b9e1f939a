import Qsbit.Profile

/-!
# Validated gates and mappings

What the checks of a profile establish of its two-qubit gates and of the actions
of its mappings, as facts that can be used without going through the checks again.

## Main definitions

* `GateValid`, `ActionValid`, `MappingValid` — what is known of a gate, an action and a mapping.
* `gates_of_validate`, `mappings_of_validate` — a validated profile satisfies them.
-/
namespace Qsbit
namespace Profile
variable {p : Profile} {u : Unit}

/-- A two-qubit gate has a duration, two targets and two inputs on different ports. -/
structure GateValid (p : Profile) (g : TwoQubitGate) : Prop where
  duration : 0 < g.duration
  targets : g.targets.length = 2 ∧ ∀ q ∈ g.targets, q < p.qubits
  inputs : g.inputs.length = 2
  ports : (g.inputs.map fun i => (i.core, i.port)).Nodup

theorem validateGates_spec {names : List String} {inputs : List GateInput} {gates : List TwoQubitGate}
    (h : p.validateGates names inputs gates = .ok u) :
    (∀ g ∈ gates, GateValid p g ∧ g.name ∉ names) ∧ (gates.map (·.name)).Nodup := by
  induction gates generalizing names inputs with
  | nil => simp
  | cons g rest ih =>
    simp only [validateGates, Except.bind_eq_ok_iff, require_eq_ok_iff, exists_const] at h
    obtain ⟨⟨-, hname, -, hduration, htargets, -, hqubits, hinputs⟩, hports, -, -, hrest⟩ := h
    obtain ⟨hgates, hnodup⟩ := ih hrest
    constructor
    · intro g' hg'
      rcases List.mem_cons.1 hg' with rfl | hg'
      · exact ⟨⟨hduration, ⟨htargets, hqubits⟩, hinputs, hports⟩, hname⟩
      · exact ⟨(hgates g' hg').1, fun hmem => (hgates g' hg').2 (List.mem_cons_of_mem _ hmem)⟩
    · rw [List.map_cons, List.nodup_cons]
      refine ⟨fun hmem => ?_, hnodup⟩
      obtain ⟨g', hg', heq⟩ := List.mem_map.1 hmem
      exact (hgates g' hg').2 (heq ▸ List.mem_cons_self)

/-- What is known of an action of a mapping. -/
structure ActionValid (p : Profile) (map : Mapping) (a : EventSpec) : Prop where
  port : a.port < p.ports
  duration : 0 < a.duration
  output : ∀ value, a.spec = .gateOutput value → map.actions.length = 1 ∧ a.port = map.port ∧
    ∃ gate, p.gate value.gate = .ok gate ∧ a.duration = gate.duration
  readout : a.kind = .acquire ∨ a.kind = .discriminatorArm → a.targets.length = 1

theorem validateAction_spec {map : Mapping} {a : EventSpec} (h : p.validateAction map a = .ok u) :
    ActionValid p map a := by
  unfold validateAction at h
  cases hspec : a.spec <;>
    simp only [hspec, Except.bind_eq_ok_iff, require_eq_ok_iff, exists_const,
      Except.pure_eq_ok_iff] at h
  all_goals
    refine ⟨h.1.1, h.1.2.2, fun value hvalue => ?_, fun hkind => ?_⟩
  case gateOutput.refine_1 output =>
    obtain ⟨-, hmap, gate, hgate, hduration, -⟩ := h
    obtain rfl : output = value := ActionSpec.gateOutput.inj (hspec.symm.trans hvalue)
    exact ⟨hmap.1, hmap.2, gate, hgate, hduration⟩
  case acquire.refine_2 => exact h.2.2.2.2
  case discriminatorArm.refine_2 => exact h.2.2.2.2
  all_goals
    simp_all [EventSpec.kind]

theorem validateActions_spec {map : Mapping} {acquired : List ℕ} {actions : List EventSpec}
    (h : p.validateActions map acquired actions = .ok u) :
    (∀ a ∈ actions, ActionValid p map a) ∧
      (∀ a ∈ actions, a.kind = .acquire → a.targets.headD 0 ∉ acquired) ∧
      ((actions.filter (·.kind = .acquire)).map (·.targets.headD 0)).Nodup := by
  induction actions generalizing acquired with
  | nil => simp
  | cons a rest ih =>
    simp only [validateActions, Except.bind_eq_ok_iff, require_eq_ok_iff, exists_const] at h
    obtain ⟨_, ha, hacquired, hrest⟩ := h
    obtain ⟨hactions, hfresh, hnodup⟩ := ih hrest
    refine ⟨List.forall_mem_cons.2 ⟨validateAction_spec ha, hactions⟩,
      List.forall_mem_cons.2 ⟨hacquired, fun b hb hkind hmem => ?_⟩, ?_⟩
    · apply hfresh b hb hkind
      split
      · exact List.mem_cons_of_mem _ hmem
      · exact hmem
    · by_cases hkind : a.kind = .acquire
      · rw [List.filter_cons_of_pos (by simpa using hkind), List.map_cons, List.nodup_cons]
        refine ⟨fun hmem => ?_, hnodup⟩
        obtain ⟨b, hb, heq⟩ := List.mem_map.1 hmem
        obtain ⟨hb, hbkind⟩ := List.mem_filter.1 hb
        apply hfresh b hb (by simpa using hbkind)
        rw [if_pos hkind, heq]
        exact List.mem_cons_self
      · rw [List.filter_cons_of_neg (by simpa using hkind)]
        exact hnodup

/-- What is known of a mapping: an acquisition and its arm come together, once for each target. -/
structure MappingValid (p : Profile) (map : Mapping) : Prop where
  port : map.port < p.ports
  actions : ∀ a ∈ map.actions, ActionValid p map a
  acquired : ((map.actions.filter (·.kind = .acquire)).map (·.targets.headD 0)).Nodup
  paired : ∀ a ∈ acquisitions map, arms map a.1 = if a.2 then 1 else 0
  armed : ∀ a ∈ map.actions, a.kind = .discriminatorArm →
    a.targets.headD 0 ∈ (acquisitions map).map Prod.fst

theorem validateMappings_spec {keys : List (ℕ × ℕ)} {mappings : List Mapping}
    (h : p.validateMappings keys mappings = .ok u) :
    (∀ map ∈ mappings, MappingValid p map ∧ (map.port, map.codeword) ∉ keys) ∧
      (mappings.map fun map => (map.port, map.codeword)).Nodup := by
  induction mappings generalizing keys with
  | nil => simp
  | cons map rest ih =>
    simp only [validateMappings, Except.bind_eq_ok_iff, require_eq_ok_iff, exists_const] at h
    obtain ⟨⟨hport, hkey⟩, -, _, hactions, hpaired, harmed, hrest⟩ := h
    obtain ⟨hmappings, hnodup⟩ := ih hrest
    obtain ⟨hvalid, -, hacquired⟩ := validateActions_spec hactions
    constructor
    · intro map' hmap'
      rcases List.mem_cons.1 hmap' with rfl | hmap'
      · exact ⟨⟨hport, hvalid, hacquired, hpaired, harmed⟩, hkey⟩
      · exact ⟨(hmappings map' hmap').1,
          fun hmem => (hmappings map' hmap').2 (List.mem_cons_of_mem _ hmem)⟩
    · rw [List.map_cons, List.nodup_cons]
      refine ⟨fun hmem => ?_, hnodup⟩
      obtain ⟨map', hmap', heq⟩ := List.mem_map.1 hmem
      exact (hmappings map' hmap').2 (heq ▸ List.mem_cons_self)

theorem gates_of_validate (h : p.validate = .ok u) :
    (∀ g ∈ p.twoQubitGates, GateValid p g) ∧ (p.twoQubitGates.map (·.name)).Nodup := by
  simp only [validate, Except.bind_eq_ok_iff, require_eq_ok_iff, exists_const] at h
  obtain ⟨_, -, _, -, -, -, -, _, hgates, -⟩ := h
  obtain ⟨hvalid, hnodup⟩ := validateGates_spec hgates
  exact ⟨fun g hg => (hvalid g hg).1, hnodup⟩

theorem mappings_of_validate (h : p.validate = .ok u) :
    (∀ map ∈ p.mappings, MappingValid p map) ∧
      (p.mappings.map fun map => (map.port, map.codeword)).Nodup := by
  simp only [validate, Except.bind_eq_ok_iff, require_eq_ok_iff, exists_const] at h
  obtain ⟨_, -, _, -, -, -, -, _, -, hmappings⟩ := h
  obtain ⟨hvalid, hnodup⟩ := validateMappings_spec hmappings
  exact ⟨fun map hmap => (hvalid map hmap).1, hnodup⟩

/-- Every action of a validated profile takes time. -/
theorem duration_pos_of_validate (h : p.validate = .ok u) {map : Mapping} (hmap : map ∈ p.mappings)
    {a : EventSpec} (ha : a ∈ map.actions) : 0 < a.duration :=
  (((mappings_of_validate h).1 map hmap).actions a ha).duration

/-- Every action of a validated profile has passed its own checks. -/
theorem validateAction_of_validate (h : p.validate = .ok u) {map : Mapping} (hmap : map ∈ p.mappings)
    {a : EventSpec} (ha : a ∈ map.actions) : p.validateAction map a = .ok () := by
  have hactions : ∀ {acquired : List ℕ} {actions : List EventSpec} {v : Unit},
      p.validateActions map acquired actions = .ok v →
        ∀ b ∈ actions, p.validateAction map b = .ok () := by
    intro acquired actions
    induction actions generalizing acquired with
    | nil => simp
    | cons b rest ih =>
      intro v hrun
      simp only [validateActions, Except.bind_eq_ok_iff, require_eq_ok_iff, exists_const] at hrun
      obtain ⟨_, hb, -, hrest⟩ := hrun
      exact List.forall_mem_cons.2 ⟨hb, ih hrest⟩
  have hmappings : ∀ {keys : List (ℕ × ℕ)} {mappings : List Mapping} {v : Unit},
      p.validateMappings keys mappings = .ok v → map ∈ mappings →
        p.validateAction map a = .ok () := by
    intro keys mappings
    induction mappings generalizing keys with
    | nil => simp
    | cons m rest ih =>
      intro v hrun hmem
      simp only [validateMappings, Except.bind_eq_ok_iff, require_eq_ok_iff, exists_const] at hrun
      obtain ⟨-, -, _, hm, -, -, hrest⟩ := hrun
      rcases List.mem_cons.1 hmem with rfl | hmem
      · exact hactions hm a ha
      · exact ih hrest hmem
  simp only [validate, Except.bind_eq_ok_iff, require_eq_ok_iff, exists_const] at h
  obtain ⟨_, -, _, -, -, -, -, _, -, hall⟩ := h
  exact hmappings hall hmap

end Profile
end Qsbit

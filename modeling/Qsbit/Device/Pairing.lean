import Qsbit.Device.Atomic
import Qsbit.Simulator.Config

/-!
# Two-qubit gates over whole runs

The two outputs of a gate are accepted independently, by different cores, on
different ticks and with different delays. They are brought together on the tick on
which they start.

What makes this work are two facts about accepted actions. Outputs of one gate that
overlap have one interval, and they are of different inputs, as an output occupies
its port. So the outputs of a gate that start on a tick are some of its inputs, each
once, and the gate is complete when there is one for each.

## Main definitions

* `Routed` — the launches of configured cores, in time and of the current epoch.
* `Feeds` — an accepted output of a gate.
* `gatesAt` — what the backend is asked to apply on a tick.
* `two_port_gates` — the gates fire exactly when both of their inputs do.
-/
namespace Qsbit
open Std (ExtTreeMap)
open ControlElectronics

variable {β χ : Type}

/-- An event that a core makes of one of its mappings. -/
structure Mapped (core : CoreConfig) (event : OperationEvent) : Prop where
  unnamed : event.core = none
  mapping : ∃ m ∈ core.profile.mappings, m.port = event.sourcePort ∧
    m.codeword = event.codeword ∧ event.action ∈ m.actions

/-- The launches of configured cores are of the current epoch and not in the past of the device;
boundaries are processed in order. -/
def Routed (cores : List CoreConfig) (epoch : ℕ) (d : ControlElectronics β) : DeviceCall → Prop
  | .accept batch => batch.epoch = epoch ∧ d.lastTick ≤ batch.fireTick ∧
      ∃ i core sent, cores[i]? = some core ∧ (∀ event ∈ sent.events, Mapped core event) ∧
        deviceEvents (cores.map (·.id)) (portOffsets cores) i sent = .ok batch
  | .process now => d.nextBoundary = some now

/-! ## Outputs -/

section Outputs
variable {cores : List CoreConfig} {first : Profile} {p : DeviceProfile} {core : CoreConfig} {i : ℕ}
  {batch sent : TriggeredEvents} {event image : OperationEvent}

theorem mem_of_deviceGate {name : String} {gate : TwoQubitGate} (h : p.gate name = .ok gate) :
    gate ∈ p.gates ∧ gate.name = name := by
  unfold DeviceProfile.gate at h
  split at h
  · rename_i found hfind
    obtain rfl := Except.pure_eq_ok_iff.1 h
    exact ⟨List.mem_of_find?_eq_some hfind, by simpa using List.find?_some hfind⟩
  · simp at h

/-- Every action of a validated mapping takes time. -/
theorem Configured.duration_pos (h : Configured cores first) (hi : cores[i]? = some core)
    (hmapped : Mapped core event) : 0 < event.action.duration := by
  obtain ⟨m, hm, -, -, haction⟩ := hmapped.mapping
  exact Profile.duration_pos_of_validate (h.profiles core (List.mem_of_getElem? hi)) hm haction

/-- What configured cores launch keeps the rule of the runs of the device. -/
theorem Routed.timely (h : Configured cores first) {epoch : ℕ} {d : ControlElectronics β}
    {call : DeviceCall} (hr : Routed cores epoch d call) : Timely d call := by
  cases call with
  | process now => exact hr
  | accept batch =>
    obtain ⟨-, -, i, core, sent, hi, hmapped, hsent⟩ := hr
    obtain ⟨-, -, -, hevents⟩ := renamed_of_deviceEvents hi hsent
    intro image himage
    obtain ⟨event, hevent, hrenamed⟩ := exists_of_image hevents himage
    obtain ⟨offset, -, haction⟩ := hrenamed.port
    rw [haction]
    exact h.duration_pos hi (hmapped event hevent)

/-- An output of a gate: it is one of the inputs, lasts as long as the gate, and its port is that of
the input behind the ports of the cores before. -/
structure Feeds (cores : List CoreConfig) (gate : TwoQubitGate) (a : ScheduledEvent) : Prop where
  input : inputOf a.event ∈ gate.inputs
  interval : checkedAdd a.start gate.duration = .ok a.end
  port : ∃ (i : ℕ) (core : CoreConfig) (offset : ℕ), cores[i]? = some core ∧
    (portOffsets cores)[i]? = some offset ∧ core.id = (inputOf a.event).core ∧
    a.resolved.port = (inputOf a.event).port + offset

theorem Configured.feeds (h : Configured cores first) (hi : cores[i]? = some core)
    (hmapped : Mapped core event) (hrenamed : Renamed cores core i event image)
    {backend : QuantumBackend β} {a : ScheduledEvent} (ha : resolveEvent backend p batch image = .ok a)
    {name : String} (hspec : a.event.action.spec = .gateOutput { gate := name }) :
    ∃ gate, p.gate name = .ok gate ∧ Feeds cores gate a := by
  simp only [resolveEvent, Except.bind_eq_ok_iff, require_eq_ok_iff, exists_const,
    Except.pure_eq_ok_iff] at ha
  obtain ⟨-, _, -, start, -, resolved, hresolved, last, hlast, rfl⟩ := ha
  change image.action.spec = .gateOutput { gate := name } at hspec
  simp only [resolveAction, hspec, Except.bind_eq_ok_iff, require_eq_ok_iff, exists_const,
    Except.pure_eq_ok_iff] at hresolved
  obtain ⟨gate, hgate, ⟨hinput, hduration⟩, action, -, rfl⟩ := hresolved
  obtain ⟨offset, hoffset, haction⟩ := hrenamed.port
  obtain ⟨m, hm, hport, -, hmem⟩ := hmapped.mapping
  have hvalid := ((Profile.mappings_of_validate
    (h.profiles core (List.mem_of_getElem? hi))).1 m hm).actions _ hmem
  have hevent : event.action.spec = .gateOutput { gate := name } := by
    rw [haction] at hspec
    exact hspec
  obtain ⟨-, hsame, -⟩ := hvalid.output _ hevent
  refine ⟨gate, hgate, hinput, ?_, i, core, offset, hi, hoffset, ?_, ?_⟩
  · rw [← hduration]
    exact hlast
  · exact (hrenamed.core hmapped.unnamed).symm
  · change image.action.port = image.sourcePort + offset
    rw [haction, hrenamed.rest.2.2.1, ← hport, ← hsame]

/-- Outputs of the same core and port have the same port of the device. -/
theorem Configured.port_eq (h : Configured cores first) {gate : TwoQubitGate} {a b : ScheduledEvent}
    (ha : Feeds cores gate a) (hb : Feeds cores gate b)
    (hinput : inputOf a.event = inputOf b.event) : a.resolved.port = b.resolved.port := by
  obtain ⟨i, core, offset, hi, hoffset, hid, hport⟩ := ha.port
  obtain ⟨j, core', offset', hj, hoffset', hid', hport'⟩ := hb.port
  rw [hinput] at hid hport
  have hij : i = j := by
    have hids := h.ids
    rw [List.nodup_iff_getElem?_ne_getElem?] at hids
    have hlt := (List.getElem?_eq_some_iff.1 hi).1
    have hlt' := (List.getElem?_eq_some_iff.1 hj).1
    have hsame : (cores.map (·.id))[i]? = (cores.map (·.id))[j]? := by
      rw [List.getElem?_map, List.getElem?_map, hi, hj, Option.map_some, Option.map_some, hid, hid']
    rcases Nat.lt_trichotomy i j with hlt | heq | hgt
    · exact absurd hsame (hids i j hlt (by rwa [List.length_map]))
    · exact heq
    · exact absurd hsame.symm (hids j i hgt (by rwa [List.length_map]))
  subst hij
  obtain rfl := Option.some.inj (hoffset.symm.trans hoffset')
  rw [hport, hport']

end Outputs

/-! ## Runs -/

/-- What holds of the accepted actions of a routed run, and of the boundaries that are left. -/
structure Gathers (cores : List CoreConfig) (epoch : ℕ) (history : DeviceHistory)
    (d : ControlElectronics β) : Prop where
  due : ∀ t ∈ d.boundaries, d.lastTick ≤ t
  epoch : ∀ a ∈ history.accepted, a.event.epoch = epoch
  feeds : ∀ a ∈ history.accepted, ∀ name, a.event.action.spec = .gateOutput { gate := name } →
    ∃ gate, d.profile.gate name = .ok gate ∧ Feeds cores gate a

section Runs
variable {backend : QuantumBackend β} {cores : List CoreConfig} {first : Profile}
  {epoch origin now : ℕ} {history : DeviceHistory} {d d' : ControlElectronics β}
  {bit : ℕ → MeasurementReference → Bool}

theorem Gathers.start (h : Begins backend epoch origin d) : Gathers cores epoch {} d := by
  refine ⟨?_, by simp [DeviceHistory.accepted], by simp [DeviceHistory.accepted]⟩
  rw [h.empty.1]
  simp

theorem Gathers.accept (h : Gathers cores epoch history d) (hc : Configured cores first)
    {batch : TriggeredEvents} {actions : List ScheduledEvent} {readouts : List Readout}
    {l : List TraceEvent} (hrouted : Routed cores epoch d (.accept batch))
    (haccepted : Accepted backend batch actions readouts d d') :
    Gathers cores epoch
      { history with
        fired := history.fired ++ [batch], batches := history.batches ++ [actions]
        log := history.log ++ l } d' := by
  obtain ⟨hepoch, hfire, i, core, sent, hi, hmapped, hsent⟩ := hrouted
  obtain ⟨-, -, -, hevents⟩ := renamed_of_deviceEvents hi hsent
  have hresolved := resolve_spec haccepted.resolved
  rw [haccepted.device]
  refine ⟨?_, ?_, ?_⟩
  · intro t ht
    change d.lastTick ≤ t
    rw [mem_scheduleActions, mem_scheduleReadouts] at ht
    rcases ht with (ht | ⟨r, hr, rfl⟩) | ⟨a, ha, ht⟩
    · exact h.due t ht
    · rw [(Readouts.prepare_spec haccepted.prepared).readouts] at hr
      obtain ⟨a, ha, hof⟩ := mem_readouts hr
      obtain ⟨-, -, hend, hready, -⟩ := readoutOf_spec hof
      obtain ⟨hresolves, hstart⟩ := hresolved a ha
      have hinterval := hresolves.interval
      have hle : a.end ≤ Readouts.readyTick actions a := end_le_readyTick
      omega
    · obtain ⟨hresolves, hstart⟩ := hresolved a ha
      have hinterval := hresolves.interval
      omega
  · rw [accepted_append]
    intro a ha
    rcases List.mem_append.1 ha with ha | ha
    · exact h.epoch a ha
    · obtain ⟨event, -, hevent⟩ := resolveAll_mem haccepted.resolved ha
      obtain ⟨rfl, hbatch, -⟩ := resolveEvent_spec hevent
      exact hbatch.trans hepoch
  · rw [accepted_append]
    intro a ha name hspec
    rcases List.mem_append.1 ha with ha | ha
    · exact h.feeds a ha name hspec
    · obtain ⟨image, himage, hevent⟩ := resolveAll_mem haccepted.resolved ha
      obtain ⟨event, hmem, hrenamed⟩ := exists_of_image hevents himage
      exact hc.feeds hi (hmapped event hmem) hrenamed hevent hspec

theorem Gathers.process (h : Gathers cores epoch history d) (hnext : d.nextBoundary = some now)
    {cs : List Completion} {l : List TraceEvent} {delivered : List (ℕ × Completion)}
    (hp : (process backend now epoch recordDelivery).Returns (d, []) () (d', cs) l) :
    Gathers cores epoch { history with delivered, log := history.log ++ l } d' := by
  rcases process_frame hp with ⟨-, rfl⟩ | ⟨-, hframe⟩
  · exact ⟨h.due, h.epoch, h.feeds⟩
  · simp only [frame, complete, Prod.mk.injEq] at hframe
    obtain ⟨hprofile, -, hboundaries, hlast, -⟩ := hframe
    refine ⟨?_, h.epoch, ?_⟩
    · rw [hboundaries, hlast]
      intro t ht
      exact (mem_of_nextBoundary hnext).2 t (ExtTreeMap.mem_of_mem_erase ht)
    · rw [hprofile]
      exact h.feeds

/-- A routed run is timely, and its outputs are those of configured cores. -/
theorem DeviceRun.gathers (hc : Configured cores first)
    (run : DeviceRun backend epoch origin (Routed cores epoch) history d) :
    DeviceRun backend epoch origin Timely history d ∧ Gathers cores epoch history d := by
  refine ⟨run.imp fun _ _ => Routed.timely hc, ?_⟩
  induction run with
  | start h => exact .start h
  | accept run obeys h resolved fresh ih =>
    obtain ⟨actions, readouts, haccepted, rfl⟩ := accept_returns h
    obtain rfl : actions = _ := Except.ok.inj (haccepted.resolved.symm.trans resolved)
    exact ih.accept hc obeys haccepted
  | process run obeys h ih => exact ih.process obeys h

/-! ## The outputs of a gate -/

/-- The outputs of a gate that start on a tick. -/
def DeviceHistory.outputsAt (history : DeviceHistory) (name : String) (tick : ℕ) :
    List ScheduledEvent := outputsOf name (history.accepted.filter (·.start = tick))

/-- The gate has an output for each of its inputs that starts on the tick. -/
def DeviceHistory.Fires (history : DeviceHistory) (gate : TwoQubitGate) (tick : ℕ) : Prop :=
  ∀ input ∈ gate.inputs, ∃ a ∈ history.accepted, a.event.action.spec = .gateOutput { gate := gate.name } ∧
    a.start = tick ∧ inputOf a.event = input

theorem mem_outputsAt {name : String} {tick : ℕ} {a : ScheduledEvent} :
    a ∈ history.outputsAt name tick ↔ a ∈ history.accepted ∧
      a.event.action.spec = .gateOutput { gate := name } ∧ a.start = tick := by
  simp only [DeviceHistory.outputsAt, outputsOf, List.mem_filter, decide_eq_true_eq]
  tauto

/-- Two outputs of a gate that overlap have the same interval and are of different inputs. -/
theorem Gathers.apart (h : Gathers cores epoch history d) (hc : Configured cores first)
    (reserves : Reserves history d) {a b : ScheduledEvent} (ha : a ∈ history.accepted)
    (hb : b ∈ history.accepted) (hid : a.event.id ≠ b.event.id) {name : String}
    (hspec : a.event.action.spec = .gateOutput { gate := name })
    (hspec' : b.event.action.spec = .gateOutput { gate := name }) (hab : a.start < b.end)
    (hba : b.start < a.end) :
    a.start = b.start ∧ a.end = b.end ∧ inputOf a.event ≠ inputOf b.event := by
  have hexcludes := reserves.excludes ha hb hid
  obtain ⟨gate, hgate, hfeeds⟩ := h.feeds a ha name hspec
  obtain ⟨gate', hgate', hfeeds'⟩ := h.feeds b hb name hspec'
  obtain rfl := Except.ok.inj (hgate.symm.trans hgate')
  have hsame : sameGate a.event.action b.event.action = true := by simp [sameGate, hspec, hspec']
  obtain ⟨hstart, hend⟩ := hexcludes.gate hab hba hsame
  refine ⟨hstart, hend, fun hinput => ?_⟩
  exact hexcludes.port hab hba (hc.port_eq hfeeds hfeeds' hinput)

/-- The outputs of a gate that start on a tick are of different inputs, and end with the gate. -/
theorem Gathers.outputs (h : Gathers cores epoch history d) (hc : Configured cores first)
    (reserves : Reserves history d) (tracks : Tracks epoch history d bit) {gate : TwoQubitGate}
    {name : String} (tick : ℕ) (hgate : d.profile.gate name = .ok gate) :
    ((history.outputsAt name tick).map fun a => inputOf a.event).Nodup ∧
      ∀ a ∈ history.outputsAt name tick, Feeds cores gate a ∧ a.start = tick := by
  constructor
  · have hnodup : (history.outputsAt name tick).Nodup :=
      (tracks.nodup.of_map _).sublist (List.filter_sublist.trans List.filter_sublist)
    refine List.Nodup.map_on ?_ hnodup
    intro a ha b hb hinput
    obtain ⟨hamem, hspec, hstart⟩ := mem_outputsAt.1 ha
    obtain ⟨hbmem, hspec', hstart'⟩ := mem_outputsAt.1 hb
    by_contra hne
    have hid : a.event.id ≠ b.event.id := fun hid => hne (tracks.unique hamem hbmem hid)
    have hlt := tracks.interval a hamem
    have hlt' := tracks.interval b hbmem
    exact (h.apart hc reserves hamem hbmem hid hspec hspec' (by omega) (by omega)).2.2 hinput
  · intro a ha
    obtain ⟨hamem, hspec, hstart⟩ := mem_outputsAt.1 ha
    obtain ⟨gate', hgate', hfeeds⟩ := h.feeds a hamem name hspec
    obtain rfl := Except.ok.inj (hgate.symm.trans hgate')
    exact ⟨hfeeds, hstart⟩

/-- Outputs of different inputs that end with the gate are complete when there is one for each. -/
theorem complete_iff {gate : TwoQubitGate} {outputs : List ScheduledEvent}
    (hnodup : (outputs.map fun a => inputOf a.event).Nodup) (hinputs : gate.inputs.Nodup)
    (hmem : ∀ a ∈ outputs, inputOf a.event ∈ gate.inputs)
    (hend : ∀ a ∈ outputs, a.end = now + gate.duration) :
    Complete now gate outputs ↔ ∀ input ∈ gate.inputs, ∃ a ∈ outputs, inputOf a.event = input := by
  have hcount : ∀ input, outputs.countP
      (fun o => inputOf o.event = input ∧ o.end = now + gate.duration) =
        (outputs.map fun a => inputOf a.event).count input := by
    intro input
    rw [List.count, List.countP_map]
    refine List.countP_congr fun a ha => ?_
    simp [hend a ha]
  constructor
  · intro hcomplete input hinput
    have hone := hcomplete.once input hinput
    rw [hcount] at hone
    have hmem : input ∈ outputs.map fun a => inputOf a.event :=
      List.count_pos_iff.1 (by omega)
    obtain ⟨a, ha, heq⟩ := List.mem_map.1 hmem
    exact ⟨a, ha, heq⟩
  · intro hall
    have hperm : (outputs.map fun a => inputOf a.event).Perm gate.inputs := by
      rw [List.perm_ext_iff_of_nodup hnodup hinputs]
      intro input
      rw [List.mem_map]
      constructor
      · rintro ⟨a, ha, rfl⟩
        exact hmem a ha
      · exact hall input
    refine ⟨?_, fun input hinput => ?_⟩
    · rw [← hperm.length_eq, List.length_map]
    · rw [hcount, hperm.count_eq]
      exact List.count_eq_one_of_mem hinputs hinput

theorem Configured.gate_inputs (hc : Configured cores first) (hgates : d.profile.gates = first.twoQubitGates)
    {gate : TwoQubitGate} (hgate : gate ∈ d.profile.gates) :
    gate.inputs.Nodup ∧ d.profile.gate gate.name = .ok gate := by
  rw [hgates] at hgate
  obtain ⟨core, hcore⟩ := List.exists_mem_of_ne_nil _ hc.nonempty
  obtain ⟨hvalid, hnames⟩ := Profile.gates_of_validate (hc.profiles core hcore)
  rw [hc.gates core hcore] at hvalid hnames
  refine ⟨(hvalid gate hgate).ports.of_map _, ?_⟩
  unfold DeviceProfile.gate
  rw [hgates]
  cases hfind : first.twoQubitGates.find? (·.name = gate.name) with
  | none =>
    have hnot := List.find?_eq_none.1 hfind gate hgate
    simp at hnot
  | some found =>
    have hname : found.name = gate.name := by simpa using List.find?_some hfind
    rw [List.inj_on_of_nodup_map hnames (List.mem_of_find?_eq_some hfind) hgate hname]
    rfl

/-- The outputs of a gate that start on a tick are complete when both inputs have one. -/
theorem Gathers.complete_iff_fires (h : Gathers cores epoch history d) (hc : Configured cores first)
    (hgates : d.profile.gates = first.twoQubitGates) (reserves : Reserves history d)
    (tracks : Tracks epoch history d bit) {gate : TwoQubitGate} {name : String} {tick : ℕ}
    (hgate : d.profile.gate name = .ok gate) :
    Complete tick gate (history.outputsAt name tick) ↔ history.Fires gate tick := by
  obtain ⟨hmem, rfl⟩ := mem_of_deviceGate hgate
  obtain ⟨hnodup, houtputs⟩ := h.outputs hc reserves tracks tick hgate
  rw [complete_iff hnodup (hc.gate_inputs hgates hmem).1 fun a ha => (houtputs a ha).1.input]
  · refine forall₂_congr fun input _ => exists_congr fun a => ?_
    rw [mem_outputsAt]
    tauto
  · intro a ha
    obtain ⟨hfeeds, rfl⟩ := houtputs a ha
    exact eq_of_checkedAdd hfeeds.interval

end Runs

/-! ## The plan of a boundary -/

section Planning
variable {backend : QuantumBackend β} {cores : List CoreConfig} {first : Profile}
  {epoch origin now : ℕ} {history : DeviceHistory}
  {d d' : ControlElectronics (β × List (List BackendOperation))}
  {bit : ℕ → MeasurementReference → Bool} {ticks : List ℕ} {ops : List BackendOperation}

/-- Acquisitions that end together have different targets. -/
theorem Emits.targets_nodup (emits : Emits backend epoch origin history d ticks ops)
    (reserves : Reserves history d) (tracks : Tracks epoch history d bit) (tick : ℕ) :
    ((endingReferences history.accepted tick).map (·.target)).Nodup := by
  rw [List.Nodup, List.pairwise_map, endingReferences, List.pairwise_flatMap]
  constructor
  · intro a _
    cases a.event.reference <;> simp
  have hnodup : ((history.accepted.filter (·.end = tick)).filter
      (·.event.action.kind = .acquire)).Nodup :=
    (tracks.nodup.of_map _).sublist (List.filter_sublist.trans List.filter_sublist)
  refine hnodup.imp_of_mem ?_
  intro a b ha hb hne r hr r' hr' htarget
  simp only [List.mem_filter, decide_eq_true_eq] at ha hb
  obtain ⟨⟨ha, hend⟩, hkind⟩ := ha
  obtain ⟨⟨hb, hend'⟩, hkind'⟩ := hb
  have hid : a.event.id ≠ b.event.id := fun hid => hne (tracks.unique ha hb hid)
  have hlt := tracks.interval a ha
  have hlt' := tracks.interval b hb
  have htargets := emits.target a ha hkind r (Option.mem_toList.1 hr)
  have htargets' := emits.target b hb hkind' r' (Option.mem_toList.1 hr')
  have hresolved := (reserves.resolves a ha).other (by simp [hkind])
  have hresolved' := (reserves.resolves b hb).other (by simp [hkind'])
  have hother : sameGate a.event.action b.event.action = false := by
    by_contra hsame
    rw [Bool.not_eq_false] at hsame
    rw [(gateOutput_of_sameGate hsame).1] at hkind
    simp at hkind
  have hshared := (reserves.excludes ha hb hid).target (by omega) (by omega) hother r.target
    (by rw [hresolved, htargets]; exact List.mem_singleton_self _)
    (by rw [hresolved', htargets', htarget]; exact List.mem_singleton_self _)
  rw [hresolved, hresolved', hkind, hkind'] at hshared
  simp at hshared

theorem isGate_resolved {a : ScheduledEvent} (h : Resolves a) (hgate : isGate a.event.action = true) :
    isGate a.resolved = true := by
  by_cases hkind : a.event.action.kind = .gateOutput
  · simp [isGate, h.output hkind]
  · rw [h.other hkind]
    exact hgate

/-- A gate that starts does not share a target with an acquisition that ends. -/
theorem Emits.gate_apart (emits : Emits backend epoch origin history d ticks ops)
    (reserves : Reserves history d) (tracks : Tracks epoch history d bit) {a : ScheduledEvent}
    (ha : a ∈ history.accepted) (hgate : isGate a.event.action = true) :
    ∀ target ∈ a.resolved.targets,
      target ∉ (endingReferences history.accepted a.start).map (·.target) := by
  intro target htarget hmem
  obtain ⟨r, hr, rfl⟩ := List.mem_map.1 hmem
  obtain ⟨b, hb, hr⟩ := List.mem_flatMap.1 hr
  simp only [List.mem_filter, decide_eq_true_eq] at hb
  obtain ⟨⟨hb, hend⟩, hkind⟩ := hb
  have hid : b.event.id ≠ a.event.id := by
    intro hid
    rw [tracks.unique hb ha hid] at hkind
    simp [isGate, hkind] at hgate
  have hresolved := (reserves.resolves b hb).other (by simp [hkind])
  have htargets := emits.target b hb hkind r (Option.mem_toList.1 hr)
  refine ((reserves.excludes hb ha hid).sample r.target ?_ htarget).1 ?_ ?_ hend
  · rw [hresolved, htargets]
    exact List.mem_singleton_self _
  · rw [hresolved]
    exact hkind
  · exact isGate_resolved (reserves.resolves a ha) hgate

/-- The checks of the next boundary succeed, unless a gate has an output and does not fire. -/
theorem Gathers.plan (h : Gathers cores epoch history d) (hc : Configured cores first)
    (hgates : d.profile.gates = first.twoQubitGates) (reserves : Reserves history d)
    (tracks : Tracks epoch history d bit) (emits : Emits backend epoch origin history d ticks ops)
    (hnext : d.nextBoundary = some now) {boundary : Boundary}
    (hb : d.boundaries[now]? = some boundary) :
    (∃ p, d.plan backend.recording boundary now epoch = .ok p) ∨
      (∃ gate ∈ d.profile.gates, history.outputsAt gate.name now ≠ [] ∧ ¬ history.Fires gate now) ∧
        ∃ message, d.plan backend.recording boundary now epoch =
          .error ⟨.gateInputMismatch, message⟩ := by
  have hsamples : d.samplesOf boundary.ends = .ok (endingReferences history.accepted now) := by
    rw [tracks.boundary_next hnext hb, tracks.samplesOf_next hnext]
    exact congrArg Except.ok references_of_readouts
  have hstarts : checkStarts backend.recording d.profile epoch
      ((endingReferences history.accepted now).map (·.target)) boundary.starts = .ok () := by
    rw [checkStarts_eq_ok_iff, tracks.boundary_next hnext hb]
    intro a hmem
    obtain ⟨ha, hstart⟩ := List.mem_filter.1 hmem
    obtain rfl : a.start = now := by simpa using hstart
    exact ⟨h.epoch a ha, emits.valid a ha, emits.gate_apart reserves tracks ha⟩
  have houtputs : ∀ output ∈ (gateOutputs boundary.starts).toList, ∃ gate,
      d.profile.gate output.1 = .ok gate ∧ output.2 = history.outputsAt output.1 now ∧
        output.2 ≠ [] := by
    rintro ⟨name, os⟩ houtput
    rw [tracks.boundary_next hnext hb] at houtput
    obtain ⟨hos, hne⟩ := mem_gateOutputs.1 houtput
    obtain ⟨a, ha⟩ := List.exists_mem_of_ne_nil _ hne
    rw [hos] at ha
    obtain ⟨ha, hspec, -⟩ := mem_outputsAt.1 ha
    obtain ⟨gate, hgate, -⟩ := h.feeds a ha name hspec
    exact ⟨gate, hgate, hos, hne⟩
  have hfits : ∀ output ∈ (gateOutputs boundary.starts).toList, ∃ gate,
      d.profile.gate output.1 = .ok gate ∧
        checkedAdd now gate.duration = .ok (now + gate.duration) := by
    intro output houtput
    obtain ⟨gate, hgate, hos, hne⟩ := houtputs output houtput
    obtain ⟨a, ha⟩ := List.exists_mem_of_ne_nil _ hne
    rw [hos] at ha
    obtain ⟨hfeeds, rfl⟩ := (h.outputs hc reserves tracks now hgate).2 a ha
    refine ⟨gate, hgate, ?_⟩
    rw [← eq_of_checkedAdd hfeeds.interval]
    exact hfeeds.interval
  have hnodup := emits.targets_nodup reserves tracks now
  rcases resolveGateOutputs_of_fits hfits with ⟨gates, hresolve⟩ | ⟨hincomplete, message, hresolve⟩
  · left
    simp only [ControlElectronics.plan, hsamples, hstarts, hresolve, require, bind, Except.bind,
      if_pos hnodup]
    exact ⟨_, rfl⟩
  · right
    refine ⟨?_, message, ?_⟩
    · obtain ⟨output, houtput, gate, hgate, hincomplete⟩ := hincomplete
      obtain ⟨-, -, hos, hne⟩ := houtputs output houtput
      obtain ⟨hmem, hname⟩ := mem_of_deviceGate hgate
      rw [hos, h.complete_iff_fires hc hgates reserves tracks hgate] at hincomplete
      rw [hos, ← hname] at hne
      exact ⟨gate, hmem, hne, hincomplete⟩
    · simp only [ControlElectronics.plan, hsamples, hstarts, hresolve, require, bind, Except.bind,
        if_pos hnodup]

end Planning

/-! ## What is applied -/

/-- A two-qubit gate as the action that is applied. -/
def TwoQubitGate.action (g : TwoQubitGate) : EventSpec :=
  { duration := g.duration
    spec := .gate
      { operation := g.operation, operands := { targets := g.targets, resources := g.resources } } }

/-- The gates that have an output that starts on a tick. -/
def DeviceHistory.drivenAt (history : DeviceHistory) (p : DeviceProfile) (tick : ℕ) :
    List TwoQubitGate :=
  (gateOutputs (history.accepted.filter (·.start = tick))).toList.filterMap
    fun output => (p.gate output.1).toOption

/-- The record of a two-qubit gate that has been applied. -/
def gateApplied (now epoch : ℕ) (g : TwoQubitGate) : TraceEvent :=
  { tick := now, epoch, kind := .gateApplied, operation := g.operation, targets := g.targets
    value := g.duration, detail := g.name }

/-- What the backend is asked to apply on a tick. -/
def gatesAt (ops : List BackendOperation) (tick : ℕ) : List EventSpec :=
  ops.flatMap fun operation =>
    match operation with
    | .gates t gates => if t = tick then gates else []
    | _ => []

section Applied
variable {p : DeviceProfile} {accepted : List ScheduledEvent} {origin prev now last tick : ℕ}
  {history : DeviceHistory} {ticks : List ℕ} {ops new : List BackendOperation}

theorem gateAction_eq {name : String} : gateAction p name = (p.gate name).map TwoQubitGate.action := by
  unfold gateAction
  cases p.gate name <;> rfl

theorem mem_drivenAt {gate : TwoQubitGate} (hfound : gate ∈ p.gates → p.gate gate.name = .ok gate) :
    gate ∈ history.drivenAt p tick ↔ gate ∈ p.gates ∧ history.outputsAt gate.name tick ≠ [] := by
  simp only [DeviceHistory.drivenAt, List.mem_filterMap, Prod.exists, mem_gateOutputs]
  constructor
  · rintro ⟨name, outputs, ⟨rfl, hne⟩, hgate⟩
    cases hg : p.gate name with
    | error f => simp [hg, Except.toOption] at hgate
    | ok g =>
      simp only [hg, Except.toOption, Option.some.injEq] at hgate
      obtain rfl := hgate
      obtain ⟨hmem, rfl⟩ := mem_of_deviceGate hg
      exact ⟨hmem, hne⟩
  · rintro ⟨hmem, hne⟩
    exact ⟨gate.name, _, ⟨rfl, hne⟩, by rw [hfound hmem]; rfl⟩

theorem nodup_drivenAt : (history.drivenAt p tick).Nodup := by
  have hkeys : ((gateOutputs (history.accepted.filter (·.start = tick))).toList.map
      Prod.fst).Nodup := by
    rw [ExtTreeMap.map_fst_toList_eq_keys]
    exact ExtTreeMap.nodup_keys
  rw [DeviceHistory.drivenAt, List.Nodup, List.pairwise_filterMap]
  refine (List.pairwise_map.1 hkeys).imp ?_
  intro output output' hne gate hgate gate' hgate' heq
  apply hne
  cases hg : p.gate output.1 with
  | error f => simp [hg, Except.toOption] at hgate
  | ok g =>
    cases hg' : p.gate output'.1 with
    | error f => simp [hg', Except.toOption] at hgate'
    | ok g' =>
      simp only [hg, hg', Except.toOption, Option.some.injEq] at hgate hgate'
      rw [← (mem_of_deviceGate hg).2, ← (mem_of_deviceGate hg').2, hgate, hgate', heq]

/-- On a tick on which nothing starts, no gate is driven. -/
theorem drivenAt_of_none (h : history.accepted.filter (·.start = tick) = []) :
    history.drivenAt p tick = [] := by
  rw [DeviceHistory.drivenAt, h]
  rfl

/-- The resolution applies the driven gates. -/
theorem resolved_drivenAt {paired : List EventSpec}
    (h : resolveGateOutputs p tick
      (gateOutputs (history.accepted.filter (·.start = tick))).toList = .ok paired) :
    paired = (history.drivenAt p tick).map TwoQubitGate.action := by
  rw [(resolveGateOutputs_spec h).2, DeviceHistory.drivenAt, List.map_filterMap]
  refine List.filterMap_congr fun output _ => ?_
  rw [gateAction_eq]
  cases p.gate output.1 <;> rfl

theorem gatesAt_append : gatesAt (ops ++ new) tick = gatesAt ops tick ++ gatesAt new tick :=
  List.flatMap_append

theorem BoundaryOps.gatesAt (h : BoundaryOps p accepted prev now new) :
    StartingGates p accepted now (gatesAt new now) ∧ ∀ t ≠ now, Qsbit.gatesAt new t = [] := by
  cases h with
  | @intro drives acquisitions gates _ _ gates_start _ =>
    have hat : ∀ t, Qsbit.gatesAt ((if prev < now then [.evolution prev now drives acquisitions] else []) ++
        (if endingReferences accepted now = [] then []
          else [.measurement now (endingReferences accepted now)]) ++
        (if gates = [] then [] else [.gates now gates])) t = if now = t then gates else [] := by
      intro t
      rw [gatesAt_append, gatesAt_append]
      have hfirst : Qsbit.gatesAt
          (if prev < now then [.evolution prev now drives acquisitions] else []) t = [] := by
        split <;> rfl
      have hsecond : Qsbit.gatesAt (if endingReferences accepted now = [] then []
          else [.measurement now (endingReferences accepted now)]) t = [] := by
        split <;> rfl
      rw [hfirst, hsecond, List.nil_append, List.nil_append]
      by_cases hnone : gates = []
      · simp [hnone, Qsbit.gatesAt]
      · simp [hnone, Qsbit.gatesAt]
    constructor
    · rw [hat, if_pos rfl]
      exact gates_start
    · intro t ht
      rw [hat, if_neg (Ne.symm ht)]

/-- On each tick that has been processed the gates that start there are applied. -/
theorem Streams.gatesAt (h : Streams p accepted origin ticks ops last) (tick : ℕ) :
    (tick ∈ ticks → StartingGates p accepted tick (gatesAt ops tick)) ∧
      (tick ∉ ticks → Qsbit.gatesAt ops tick = []) := by
  induction h with
  | start => exact ⟨by simp, fun _ => rfl⟩
  | @boundary ticks _ _ _ now _ _ later at_now ih =>
    obtain ⟨hstarting, hother⟩ := at_now.gatesAt
    rw [gatesAt_append]
    by_cases hnow : tick = now
    · subst hnow
      have hnew : tick ∉ ticks := fun hmem => lt_irrefl _ (later tick hmem)
      rw [ih.2 hnew, List.nil_append]
      exact ⟨fun _ => hstarting, fun hnot => absurd (by simp) hnot⟩
    · rw [hother tick hnow, List.append_nil, List.mem_append, List.mem_singleton, or_iff_left hnow]
      exact ih

end Applied

/-! ## Records -/

section Records
variable {backend : QuantumBackend β} {cores : List CoreConfig} {first : Profile}
  {epoch origin now : ℕ} {history : DeviceHistory} {d d' : ControlElectronics β}
  {bit : ℕ → MeasurementReference → Bool} {l : List TraceEvent}

theorem gatesApplied_log {outputs : List (String × List ScheduledEvent)}
    (h : (gatesApplied now epoch outputs).Returns d () d' l) :
    l = (outputs.filterMap fun output => (d.profile.gate output.1).toOption).map
      (gateApplied now epoch) := by
  induction outputs generalizing l with
  | nil =>
    obtain ⟨-, -, rfl⟩ := Proc.returns_pure_iff.1 h
    rfl
  | cons output rest ih =>
    simp only [gatesApplied, Proc.returns_get_bind_iff, Proc.returns_lift_bind_iff,
      Proc.returns_emit_bind_iff] at h
    obtain ⟨gate, hgate, l', hrest, rfl⟩ := h
    rw [ih hrest, List.filterMap_cons_some (b := gate) (by rw [hgate]; rfl), List.map_cons]
    rw [gateApplied, (mem_of_deviceGate hgate).2]

theorem sampleAll_logs {pairs : List (MeasurementReference × Bool)} :
    (sampleAll now epoch pairs).Logs (·.kind = .measurementSampled) d := by
  induction pairs generalizing d with
  | nil => exact .pure _
  | cons pair rest ih =>
    exact .bind (.zoom <| .get_bind <| .lift_bind fun _ _ => .of_quiet fun _ => rfl)
      fun _ _ _ _ => .get_bind <| .lift_bind fun _ _ => .emit_bind rfl ih

theorem endAll_logs {ids : List ℕ} : (endAll now epoch ids).Logs (·.kind = .operationEnd) d := by
  induction ids generalizing d with
  | nil => exact .pure _
  | cons id rest ih =>
    refine .get_bind ?_
    split
    · exact .check _
    · exact .emit_bind rfl <| .set_bind ih

theorem startAll_logs {starts : List ScheduledEvent} :
    (startAll now epoch starts).Logs (·.kind = .operationStart) d := by
  induction starts generalizing d with
  | nil => exact .pure _
  | cons a rest ih =>
    exact .get_bind <| .lift_bind fun _ _ => .set_bind <| .emit_bind rfl ih

theorem deliverAll_logs {deliver : Completion → Sim χ Unit} {ids : List ℕ} {x : χ}
    (hdeliver : ∀ c x, (deliver c).Logs (·.kind = .resultReady) x) :
    (deliverAll now epoch deliver ids).Logs (·.kind = .resultReady) (d, x) := by
  induction ids generalizing d x with
  | nil => exact .pure _
  | cons id rest ih =>
    exact .get_bind <| .lift_bind fun _ _ => .lift_bind fun _ _ =>
      .bind (.zoom (hdeliver _ _)) fun _ _ _ _ => .emit_bind rfl <|
        .bind (.zoom <| .zoom <| .modify _) fun _ _ _ _ => ih

/-- The records of one kind among those of a procedure that appends another. -/
theorem filter_logs {σ α : Type} {x : Sim σ α} {s s' : σ} {a : α} {k k' : TraceKind}
    (hx : x.Logs (·.kind = k) s) (h : x.Returns s a s' l) (hne : k ≠ k') :
    l.filter (·.kind = k') = [] := filter_kind_of_ne (hx.returns h) hne

/-- The two-qubit gates of a boundary are recorded. -/
theorem enact_applied {boundary : Boundary} {p : Plan}
    (h : (enact backend now epoch boundary p).Returns d () d' l) :
    l.filter (·.kind = .gateApplied) = (p.outputs.filterMap fun output =>
      (d.profile.gate output.1).toOption).map (gateApplied now epoch) := by
  rw [enact, Proc.returns_get_bind_iff] at h
  obtain ⟨_, d₁, l₁, k₁, hevolve, h₁, rfl⟩ := Proc.returns_bind_iff.1 h
  obtain ⟨bits, d₂, l₂, k₂, hmeasure, h₂, rfl⟩ := Proc.returns_bind_iff.1 h₁
  obtain ⟨_, d₃, l₃, k₃, hsample, h₃, rfl⟩ := Proc.returns_bind_iff.1 h₂
  obtain ⟨_, d₄, l₄, k₄, hend, h₄, rfl⟩ := Proc.returns_bind_iff.1 h₃
  obtain ⟨_, d₅, l₅, k₅, happly, h₅, rfl⟩ := Proc.returns_bind_iff.1 h₄
  obtain ⟨_, d₆, l₆, k₆, happlied, hstart, rfl⟩ := Proc.returns_bind_iff.1 h₅
  have hevolved : d₁.profile = d.profile ∧ l₁ = [] := by
    split at hevolve
    · obtain ⟨x, hx, rfl⟩ := returns_onExecution_iff.1 hevolve
      exact ⟨rfl, BackendExecution.quiet_evolve.returns hx⟩
    · obtain ⟨-, rfl, rfl⟩ := Proc.returns_pure_iff.1 hevolve
      exact ⟨rfl, rfl⟩
  obtain ⟨x, hx, rfl⟩ := returns_onExecution_iff.1 hmeasure
  obtain rfl := BackendExecution.quiet_measure.returns hx
  obtain ⟨y, hy, rfl⟩ := returns_onExecution_iff.1 happly
  obtain rfl := BackendExecution.quiet_apply.returns hy
  have hprofile : d₄.profile = d.profile :=
    (Prod.mk.inj ((keeps_endAll.returns hend).trans (keeps_sampleAll.returns hsample))).1.trans
      hevolved.1
  have hothers : l₃.filter (·.kind = .gateApplied) = [] ∧ l₄.filter (·.kind = .gateApplied) = [] ∧
      k₆.filter (·.kind = .gateApplied) = [] :=
    ⟨filter_logs sampleAll_logs hsample (by decide), filter_logs endAll_logs hend (by decide),
      filter_logs startAll_logs hstart (by decide)⟩
  have hl := gatesApplied_log happlied
  have hself : l₆.filter (·.kind = .gateApplied) = l₆ := by
    rw [hl, List.filter_map, List.filter_eq_self.2 fun _ _ => by rfl]
  rw [hevolved.2, ← hprofile]
  simp only [List.nil_append, List.filter_append, hothers.1, hothers.2.1, hothers.2.2, hself,
    List.append_nil]
  exact hl

/-- What is recorded of two-qubit gates on a tick: those driven there, once it is past. -/
def Records (epoch : ℕ) (history : DeviceHistory) (d : ControlElectronics β) : Prop :=
  ∀ tick, history.log.filter (fun r => r.kind = .gateApplied ∧ r.tick = tick) =
    (if d.Past tick then history.drivenAt d.profile tick else []).map (gateApplied tick epoch)

theorem Records.start (h : Begins backend epoch origin d) : Records epoch {} d := by
  intro tick
  rw [if_neg (not_past_of_begins h tick)]
  rfl

theorem Records.accept (h : Records epoch history d) {batch : TriggeredEvents}
    {actions : List ScheduledEvent} {readouts : List Readout}
    (haccepted : Accepted backend batch actions readouts d d') :
    Records epoch
      { history with
        fired := history.fired ++ [batch], batches := history.batches ++ [actions]
        log := history.log ++ actions.map (codewordTriggered batch) } d' := by
  intro tick
  have hnone : (actions.map (codewordTriggered batch)).filter
      (fun r => r.kind = .gateApplied ∧ r.tick = tick) = [] := by
    rw [List.filter_eq_nil_iff]
    intro r hr
    obtain ⟨a, -, rfl⟩ := List.mem_map.1 hr
    simp [codewordTriggered]
  have hpast : d'.Past tick ↔ d.Past tick := by
    rw [haccepted.device]
    rfl
  rw [List.filter_append, hnone, List.append_nil, h tick, haccepted.device]
  change _ = (if d.Past tick then _ else _ : List TwoQubitGate).map _
  by_cases hp : d.Past tick
  · rw [if_pos hp, if_pos hp]
    unfold DeviceHistory.drivenAt
    rw [accepted_append, filter_append_later]
    · rfl
    · intro a ha
      obtain ⟨processed, hprocessed, hle⟩ := hp
      have hafter := haccepted.after processed hprocessed
      have hstart := (resolve_spec haccepted.resolved a ha).2
      simp only [decide_eq_false_iff_not]
      omega
  · rw [if_neg hp, if_neg hp]

theorem Records.process (h : Records epoch history d) (tracks : Tracks epoch history d bit)
    (hnext : d.nextBoundary = some now) {cs : List Completion} {delivered : List (ℕ × Completion)}
    (hp : (process backend now epoch recordDelivery).Returns (d, []) () (d', cs) l) :
    Records epoch { history with delivered, log := history.log ++ l } d' := by
  have hframe := process_frame hp
  obtain ⟨-, ⟨hnone, -⟩ | ⟨boundary, p, d₁, d₂, l₁, l₂, hb, hplan, henact, hdeliver, rfl, rfl⟩⟩ :=
    process_returns hp
  · have hmem := (mem_of_nextBoundary hnext).1
    simp [ExtTreeMap.mem_iff_isSome_getElem?, hnone] at hmem
  rcases hframe with ⟨hnone, -⟩ | ⟨-, hframe⟩
  · simp [hb] at hnone
  have hprofile : (complete now d₂).profile = d.profile := (Prod.mk.inj hframe).1
  have happlied := enact_applied henact
  have hready : l₂.filter (·.kind = .gateApplied) = [] :=
    filter_logs (deliverAll_logs fun _ _ => .modify _) hdeliver (by decide)
  have hnew : ∀ tick, (l₁ ++ l₂).filter (fun r => r.kind = .gateApplied ∧ r.tick = tick) =
      if tick = now then (history.drivenAt d.profile now).map (gateApplied now epoch) else [] := by
    intro tick
    have hsplit : (l₁ ++ l₂).filter (fun r => r.kind = .gateApplied ∧ r.tick = tick) =
        ((l₁ ++ l₂).filter (·.kind = .gateApplied)).filter (·.tick = tick) := by
      rw [List.filter_filter]
      refine List.filter_congr fun r _ => ?_
      simp [and_comm]
    rw [hsplit, List.filter_append, happlied, hready, List.append_nil, (plan_spec hplan).outputs,
      tracks.boundary_next hnext hb, List.filter_map]
    by_cases hnow : tick = now
    · subst hnow
      rw [if_pos rfl, List.filter_eq_self.2 fun _ _ => by simp [gateApplied]]
      rfl
    · rw [if_neg hnow, List.filter_eq_nil_iff.2, List.map_nil]
      intro g _
      simp [gateApplied, Ne.symm hnow]
  intro tick
  rw [List.filter_append, h tick, hnew tick, hprofile]
  change _ = (if (complete now d₂).Past tick then history.drivenAt d.profile tick else []).map _
  by_cases hnow : tick = now
  · subst hnow
    rw [if_neg (tracks.not_past_next hnext), if_pos rfl, if_pos (past_complete.2 le_rfl)]
    rfl
  · rw [if_neg hnow, List.append_nil]
    by_cases hpast : d.Past tick
    · have hlt : tick ≤ now := by
        by_contra hgt
        exact tracks.not_past_next hnext (past_of_le hpast (by omega))
      rw [if_pos hpast, if_pos (past_complete.2 hlt)]
    · rw [if_neg hpast]
      split
      · rename_i hle
        rw [drivenAt_of_none]
        rw [List.filter_eq_nil_iff]
        intro a ha hstart
        have hstart : a.start = tick := by simpa using hstart
        have hor := (tracks.le_next_iff hnext (.inl ⟨a, ha, .inl hstart⟩)).1 (past_complete.1 hle)
        exact hor.elim hpast hnow
      · rfl

theorem DeviceRun.records (run : DeviceRun backend epoch origin Timely history d) :
    Records epoch history d := by
  induction run with
  | start h => exact .start h
  | accept run obeys h resolved fresh ih =>
    obtain ⟨actions, readouts, haccepted, rfl⟩ := accept_returns h
    obtain rfl : actions = _ := Except.ok.inj (haccepted.resolved.symm.trans resolved)
    exact ih.accept haccepted
  | process run obeys h ih =>
    obtain ⟨bit, tracks⟩ := run.tracks
    exact ih.process tracks obeys h

end Records

/-! ## The gates of a run -/

/-- What a run does with the outputs of two-qubit gates. -/
structure TwoPorts (backend : QuantumBackend β) (cores : List CoreConfig) (epoch : ℕ)
    (history : DeviceHistory) (d : ControlElectronics (β × List (List BackendOperation))) : Prop where
  /-- The outputs of a gate that start on a tick are of its inputs, none of them twice. -/
  inputs : ∀ tick, ∀ gate ∈ d.profile.gates,
    ((history.outputsAt gate.name tick).map fun a => inputOf a.event).Nodup ∧
      ∀ a ∈ history.outputsAt gate.name tick, inputOf a.event ∈ gate.inputs
  /-- Overlapping outputs of a gate with different intervals or the same input are refused. -/
  refused : ∀ batch actions, Routed cores epoch d (.accept batch) →
    d.resolve backend.recording batch = .ok actions →
    ∀ a ∈ actions, ∀ b ∈ history.accepted ++ actions, a.event.id ≠ b.event.id → ∀ name,
      a.event.action.spec = .gateOutput { gate := name } →
      b.event.action.spec = .gateOutput { gate := name } → a.start < b.end → b.start < a.end →
      (a.start ≠ b.start ∨ a.end ≠ b.end ∨ inputOf a.event = inputOf b.event) →
      ∃ f, (accept backend.recording batch).Raises d f d []
  /-- The gates that fire on a tick are applied once, on that tick, when it has been processed. -/
  applied : ∀ tick, ∃ fired : List TwoQubitGate, fired.Nodup ∧
    (∀ gate, gate ∈ fired ↔ gate ∈ d.profile.gates ∧ d.Past tick ∧ history.Fires gate tick) ∧
    (d.Past tick → ∀ gate ∈ d.profile.gates, history.outputsAt gate.name tick ≠ [] → gate ∈ fired) ∧
    gatesAt d.backend.stream tick =
      (if d.Past tick then gatesOf (history.accepted.filter (·.start = tick)) else []) ++
        fired.map TwoQubitGate.action ∧
    history.log.filter (fun r => r.kind = .gateApplied ∧ r.tick = tick) =
      fired.map (gateApplied tick epoch)
  /-- A tick on which an output starts and its gate does not fire is refused and changes nothing. -/
  mismatch : ∀ now, d.nextBoundary = some now →
    (∃ gate ∈ d.profile.gates, history.outputsAt gate.name now ≠ [] ∧ ¬ history.Fires gate now) →
    ∀ (χ : Type) (deliver : Completion → Sim χ Unit) x, ∃ message,
      (process backend.recording now epoch deliver).Raises (d, x) ⟨.gateInputMismatch, message⟩ (d, x) []
  /-- Any other tick faults only from outside, where the log takes its records. -/
  goes_on : ∀ now, d.nextBoundary = some now →
    (∀ gate ∈ d.profile.gates, history.outputsAt gate.name now ≠ [] → history.Fires gate now) →
    ∀ (χ : Type) (deliver : Completion → Sim χ Unit) x,
      (process backend.recording now epoch deliver).FaultsIn (FromOutside backend.recording deliver)
        (d, x)

section Main
variable {backend : QuantumBackend β} {cores : List CoreConfig} {first : Profile}
  {epoch origin now tick : ℕ} {history : DeviceHistory}
  {d d' : ControlElectronics (β × List (List BackendOperation))}
  {bit : ℕ → MeasurementReference → Bool} {ticks : List ℕ} {ops : List BackendOperation}

/-- On a tick that has been processed the gates that have an output are those that fire. -/
theorem Gathers.fires_of_driven (h : Gathers cores epoch history d) (hc : Configured cores first)
    (hgates : d.profile.gates = first.twoQubitGates) (reserves : Reserves history d)
    (tracks : Tracks epoch history d bit) (emits : Emits backend epoch origin history d ticks ops)
    (hpast : d.Past tick) {gate : TwoQubitGate} (hgate : gate ∈ d.profile.gates) :
    history.outputsAt gate.name tick ≠ [] ↔ history.Fires gate tick := by
  obtain ⟨-, hfound⟩ := hc.gate_inputs hgates hgate
  constructor
  · intro hne
    obtain ⟨a, ha⟩ := List.exists_mem_of_ne_nil _ hne
    obtain ⟨ha, -, hstart⟩ := mem_outputsAt.1 ha
    have htick := (emits.due tick).2 ⟨hpast, .inl ⟨a, ha, .inl hstart⟩⟩
    obtain ⟨paired, hpaired, -⟩ := (emits.streams.gatesAt tick).1 htick
    obtain ⟨gate', hgate', hcomplete⟩ := (resolveGateOutputs_spec hpaired).1
      (gate.name, history.outputsAt gate.name tick) (mem_gateOutputs.2 ⟨rfl, hne⟩)
    obtain rfl := Except.ok.inj (hfound.symm.trans hgate')
    exact (h.complete_iff_fires hc hgates reserves tracks hfound).1 hcomplete
  · intro hfires hnil
    obtain ⟨core, hcore⟩ := List.exists_mem_of_ne_nil _ hc.nonempty
    have hvalid := (Profile.gates_of_validate (hc.profiles core hcore)).1
    rw [hc.gates core hcore, ← hgates] at hvalid
    have hinputs := (hvalid gate hgate).inputs
    obtain ⟨input, hinput⟩ : ∃ input, input ∈ gate.inputs :=
      List.exists_mem_of_length_pos (by omega)
    obtain ⟨a, ha, hspec, hstart, -⟩ := hfires input hinput
    have hmem := mem_outputsAt.2 ⟨ha, hspec, hstart⟩
    rw [hnil] at hmem
    exact absurd hmem List.not_mem_nil

theorem Gathers.applied (h : Gathers cores epoch history d) (hc : Configured cores first)
    (hgates : d.profile.gates = first.twoQubitGates) (reserves : Reserves history d)
    (tracks : Tracks epoch history d bit) (emits : Emits backend epoch origin history d ticks ops)
    (records : Records epoch history d) (tick : ℕ) :
    ∃ fired : List TwoQubitGate, fired.Nodup ∧
      (∀ gate, gate ∈ fired ↔ gate ∈ d.profile.gates ∧ d.Past tick ∧ history.Fires gate tick) ∧
      (d.Past tick → ∀ gate ∈ d.profile.gates, history.outputsAt gate.name tick ≠ [] →
        gate ∈ fired) ∧
      gatesAt d.backend.stream tick =
        (if d.Past tick then gatesOf (history.accepted.filter (·.start = tick)) else []) ++
          fired.map TwoQubitGate.action ∧
      history.log.filter (fun r => r.kind = .gateApplied ∧ r.tick = tick) =
        fired.map (gateApplied tick epoch) := by
  have hstream : d.backend.stream = ops := emits.batched.committed
  by_cases hpast : d.Past tick
  · have hmem : ∀ gate, gate ∈ history.drivenAt d.profile tick ↔
        gate ∈ d.profile.gates ∧ history.Fires gate tick := by
      intro gate
      rw [mem_drivenAt fun hgate => (hc.gate_inputs hgates hgate).2]
      exact and_congr_right fun hgate =>
        h.fires_of_driven hc hgates reserves tracks emits hpast hgate
    have hrecords := records tick
    rw [if_pos hpast] at hrecords
    refine ⟨history.drivenAt d.profile tick, nodup_drivenAt, ?_, ?_, ?_, hrecords⟩
    · intro gate
      rw [hmem]
      tauto
    · intro _ gate hgate hne
      exact (hmem gate).2 ⟨hgate, (h.fires_of_driven hc hgates reserves tracks emits hpast hgate).1 hne⟩
    · rw [hstream, if_pos hpast]
      obtain ⟨hstarting, hnone⟩ := emits.streams.gatesAt tick
      by_cases hdue : history.Due tick
      · obtain ⟨paired, hpaired, heq⟩ := hstarting ((emits.due tick).2 ⟨hpast, hdue⟩)
        rw [heq, resolved_drivenAt hpaired]
      · have hempty : history.accepted.filter (·.start = tick) = [] := by
          rw [List.filter_eq_nil_iff]
          intro a ha hstart
          exact hdue (.inl ⟨a, ha, .inl (by simpa using hstart)⟩)
        rw [hnone fun hmem => hdue ((emits.due tick).1 hmem).2, drivenAt_of_none hempty, hempty]
        rfl
  · have hrecords := records tick
    rw [if_neg hpast] at hrecords
    refine ⟨[], List.nodup_nil, ?_, fun hp => absurd hp hpast, ?_, hrecords⟩
    · intro gate
      simp [hpast]
    · rw [hstream, if_neg hpast]
      exact (emits.streams.gatesAt tick).2 fun hmem => hpast ((emits.due tick).1 hmem).1

/-- What starts the processing of the next boundary succeeds. -/
theorem Gathers.enters (h : Gathers cores epoch history d) (tracks : Tracks epoch history d bit)
    (hnext : d.nextBoundary = some now) : d.lastTick ≤ now ∧ ∀ processed ∈ d.processedTick,
      processed < now := by
  refine ⟨h.due now (mem_of_nextBoundary hnext).1, fun processed hprocessed => ?_⟩
  by_contra hle
  exact tracks.not_past_next hnext ⟨processed, hprocessed, by omega⟩

theorem Gathers.inputs (h : Gathers cores epoch history d) (hc : Configured cores first)
    (hgates : d.profile.gates = first.twoQubitGates) (reserves : Reserves history d)
    (tracks : Tracks epoch history d bit) {gate : TwoQubitGate} (hgate : gate ∈ d.profile.gates) :
    ((history.outputsAt gate.name tick).map fun a => inputOf a.event).Nodup ∧
      ∀ a ∈ history.outputsAt gate.name tick, inputOf a.event ∈ gate.inputs := by
  obtain ⟨hnodup, houtputs⟩ :=
    h.outputs hc reserves tracks tick (hc.gate_inputs hgates hgate).2
  exact ⟨hnodup, fun a ha => (houtputs a ha).1.input⟩

/-- An accepted action excludes the actions of its batch and those before. -/
theorem ControlElectronics.Accepted.excludes {batch : TriggeredEvents}
    {actions : List ScheduledEvent} {readouts : List Readout}
    (haccepted : Accepted backend.recording batch actions readouts d d') (reserves : Reserves history d)
    {a b : ScheduledEvent} (ha : a ∈ actions) (hb : b ∈ history.accepted ++ actions)
    (hid : a.event.id ≠ b.event.id) (hoverlap : a.start < b.end) :
    ResourceReservations.Excludes a b := by
  obtain ⟨hreserved, hbatch⟩ := ResourceReservations.check_eq_ok_iff.1 haccepted.checked
  have hresolves := resolve_spec haccepted.resolved
  have hexcludes : ∀ x ∈ actions, ∀ y, Resolves y → ResourceReservations.Compatible x y →
      ResourceReservations.Excludes x y := by
    intro x hx y hy hcompatible
    refine ResourceReservations.excludes_of_pair hcompatible.pair fun hsame => ?_
    obtain ⟨hkind, hkind'⟩ := gateOutput_of_sameGate hsame
    rw [(hresolves x hx).1.output hkind, hy.output hkind']
    exact ⟨by simp, by simp⟩
  rcases List.mem_append.1 hb with hb | hb
  · refine hexcludes a ha b (reserves.resolves b hb) (hreserved a ha b (reserves.mem.2 ⟨hb, ?_⟩))
    intro processed hprocessed
    have hafter := haccepted.after processed hprocessed
    have hstart := (hresolves a ha).2
    omega
  · have hpairwise : actions.Pairwise fun x y => x.event.id ≠ y.event.id →
        ResourceReservations.Excludes x y := by
      refine hbatch.imp_of_mem ?_
      intro x y hx hy hcompatible _
      exact (hexcludes y hy x (hresolves x hx).1 hcompatible).symm
    refine List.Pairwise.forall_of_forall_of_flip ?_ hpairwise ?_ ha hb hid
    · intro x _ hne
      exact absurd rfl hne
    · exact hpairwise.imp fun hxy hne => (hxy hne.symm).symm

/-- Overlapping outputs of a gate that are not accepted together are refused. -/
theorem Gathers.refused (h : Gathers cores epoch history d) (hc : Configured cores first)
    (reserves : Reserves history d) {batch : TriggeredEvents} {actions : List ScheduledEvent}
    (hrouted : Routed cores epoch d (.accept batch))
    (hresolve : d.resolve backend.recording batch = .ok actions) {a b : ScheduledEvent}
    (ha : a ∈ actions) (hb : b ∈ history.accepted ++ actions) (hid : a.event.id ≠ b.event.id)
    {name : String} (hspec : a.event.action.spec = .gateOutput { gate := name })
    (hspec' : b.event.action.spec = .gateOutput { gate := name }) (hab : a.start < b.end)
    (hba : b.start < a.end)
    (hdiffer : a.start ≠ b.start ∨ a.end ≠ b.end ∨ inputOf a.event = inputOf b.event) :
    ∃ f, (ControlElectronics.accept backend.recording batch).Raises d f d [] := by
  cases hprepare : d.prepare backend.recording batch with
  | error f =>
    refine ⟨f, ?_⟩
    rw [ControlElectronics.accept, Proc.raises_get_bind_iff, Proc.raises_lift_bind_iff]
    exact .inl ⟨hprepare, rfl, rfl⟩
  | ok prepared =>
    exfalso
    obtain ⟨d', hd'⟩ := accept_of_prepare hprepare
    obtain ⟨actions', readouts, haccepted, -⟩ := accept_returns hd'
    obtain rfl := Except.ok.inj (hresolve.symm.trans haccepted.resolved)
    have hnew := (h.accept hc (l := []) hrouted haccepted).feeds
    rw [accepted_append] at hnew
    obtain ⟨gate, hgate, hfeeds⟩ := hnew a (List.mem_append_right _ ha) name hspec
    obtain ⟨gate', hgate', hfeeds'⟩ := hnew b hb name hspec'
    obtain rfl := Except.ok.inj (hgate.symm.trans hgate')
    have hexcludes := haccepted.excludes reserves ha hb hid hab
    have hsame : sameGate a.event.action b.event.action = true := by simp [sameGate, hspec, hspec']
    obtain ⟨hstart, hend⟩ := hexcludes.gate hab hba hsame
    rcases hdiffer with hne | hne | heq
    · exact hne hstart
    · exact hne hend
    · exact hexcludes.port hab hba (hc.port_eq hfeeds hfeeds' heq)

/-- On the next boundary the gates that have an output fire, or the checks fail. -/
theorem Gathers.plan_iff (h : Gathers cores epoch history d) (hc : Configured cores first)
    (hgates : d.profile.gates = first.twoQubitGates) (reserves : Reserves history d)
    (tracks : Tracks epoch history d bit) (emits : Emits backend epoch origin history d ticks ops)
    (hnext : d.nextBoundary = some now) {boundary : Boundary}
    (hb : d.boundaries[now]? = some boundary) :
    (∃ p, d.plan backend.recording boundary now epoch = .ok p) ↔
      ∀ gate ∈ d.profile.gates, history.outputsAt gate.name now ≠ [] → history.Fires gate now := by
  constructor
  · rintro ⟨p, hp⟩ gate hgate hne
    obtain ⟨paired, hpaired, -⟩ := (plan_spec hp).gates
    have hfound := (hc.gate_inputs hgates hgate).2
    rw [(plan_spec hp).outputs, tracks.boundary_next hnext hb] at hpaired
    obtain ⟨gate', hgate', hcomplete⟩ := (resolveGateOutputs_spec hpaired).1
      (gate.name, history.outputsAt gate.name now) (mem_gateOutputs.2 ⟨rfl, hne⟩)
    obtain rfl := Except.ok.inj (hfound.symm.trans hgate')
    exact (h.complete_iff_fires hc hgates reserves tracks hfound).1 hcomplete
  · intro hall
    rcases h.plan hc hgates reserves tracks emits hnext hb with hok | ⟨⟨gate, hgate, hne, hnot⟩, -⟩
    · exact hok
    · exact absurd (hall gate hgate hne) hnot

/-- A boundary whose checks fail is refused and changes nothing. -/
theorem process_of_error {x : χ} {deliver : Completion → Sim χ Unit} {boundary : Boundary} {f : Fault}
    (henters : d.lastTick ≤ now ∧ ∀ processed ∈ d.processedTick, processed < now)
    (hb : d.boundaries[now]? = some boundary)
    (hplan : d.plan backend.recording boundary now epoch = .error f) :
    (process backend.recording now epoch deliver).Raises (d, x) f (d, x) [] := by
  rw [process, Proc.raises_get_bind_iff, Proc.raises_lift_bind_iff]
  refine .inr ⟨(), require_eq_ok_iff.2 henters, ?_⟩
  simp only [hb]
  exact Proc.raises_lift_bind_iff.2 (.inl ⟨hplan, rfl, rfl⟩)

end Main

/-- Two-qubit gates over whole runs of the device, for the launches of configured cores in any
order. A gate is applied on a tick, once, if both of its inputs have an accepted output that starts
on it. A tick on which one output starts and the gate does not fire is refused before anything is
changed. Overlapping outputs that cannot be brought together are refused as they are launched. -/
theorem two_port_gates {backend : QuantumBackend β} {cores : List CoreConfig}
    {links : List SyncConnection} {first : Profile} {epoch origin : ℕ} {history : DeviceHistory}
    {d : ControlElectronics (β × List (List BackendOperation))}
    (valid : validated cores links = .ok first) (built : deviceProfile first = .ok d.profile)
    (run : DeviceRun backend.recording epoch origin (Routed cores epoch) history d) :
    TwoPorts backend cores epoch history d := by
  have hc := configured_of_validated valid
  obtain ⟨timely, h⟩ := run.gathers hc
  obtain ⟨bit, tracks⟩ := timely.tracks
  obtain ⟨ticks, ops, emits⟩ := timely.emits
  have reserves := timely.reserves
  have hgates : d.profile.gates = first.twoQubitGates := by
    simp only [deviceProfile, Except.bind_eq_ok_iff, Except.pure_eq_ok_iff] at built
    obtain ⟨-, -, hprofile⟩ := built
    rw [← hprofile]
  refine
    { inputs := fun tick gate hgate => h.inputs hc hgates reserves tracks hgate
      refused := ?_, mismatch := ?_, goes_on := ?_
      applied := h.applied hc hgates reserves tracks emits timely.records }
  · intro batch actions hrouted hresolve a ha b hb hid name hspec hspec' hab hba hdiffer
    exact h.refused hc reserves hrouted hresolve ha hb hid hspec hspec' hab hba hdiffer
  · rintro now hnext ⟨gate, hgate, hne, hnot⟩ χ deliver x
    obtain ⟨boundary, hb⟩ := ExtTreeMap.mem_iff_isSome_getElem?.1 (mem_of_nextBoundary hnext).1
      |> Option.isSome_iff_exists.1
    rcases h.plan hc hgates reserves tracks emits hnext hb with hok | ⟨-, message, hplan⟩
    · exact absurd ((h.plan_iff hc hgates reserves tracks emits hnext hb).1 hok gate hgate hne) hnot
    · exact ⟨message, process_of_error (h.enters tracks hnext) hb hplan⟩
  · intro now hnext hall χ deliver x
    obtain ⟨boundary, hb⟩ := ExtTreeMap.mem_iff_isSome_getElem?.1 (mem_of_nextBoundary hnext).1
      |> Option.isSome_iff_exists.1
    obtain ⟨p, hp⟩ := (h.plan_iff hc hgates reserves tracks emits hnext hb).2 hall
    have henters := h.enters tracks hnext
    rw [process]
    refine .get_bind <| .lift_bind (.of_ok (a := ()) (require_eq_ok_iff.2 henters))
      fun _ _ => ?_
    simp only [hb]
    exact .lift_bind (.of_ok hp) fun p' hp' =>
      timely.aligned.carry_faultsIn tracks hnext henters.1 hb hp'

section Probe

/-- A gate with an input from each of two cores. -/
def probeGate : TwoQubitGate :=
  { name := "cz", operation := "cz", targets := [0, 1], duration := 40
    inputs := [{ core := 0, codeword := 1 }, { core := 1, codeword := 1 }] }

def probeOutput (delay : ℕ) : EventSpec :=
  { delay, duration := 40, spec := .gateOutput { gate := "cz" } }

/-- A core whose output of the gate is delayed. -/
def probeCore (id delay : ℕ) : CoreConfig :=
  { id
    profile :=
      { mappings := [{ codeword := 1, actions := [probeOutput delay] }], twoQubitGates := [probeGate] } }

def probeCores : List CoreConfig := [probeCore 0 20, probeCore 1 0]

/-- What a core of the two launches, and what the device sees of it. -/
def probeSent (delay fireTick : ℕ) : TriggeredEvents :=
  { epoch := 1, label := 1, fireTick
    events := [{ epoch := 1, id := 1, label := 1, codeword := 1, action := probeOutput delay }] }

def probeLaunch (core delay fireTick : ℕ) : TriggeredEvents :=
  { epoch := 1, label := 1, fireTick
    events :=
      [{ epoch := 1, id := core + 1, label := 1, codeword := 1, core := some core
         action := { probeOutput delay with port := 8 * core } }] }

def probeScheduled (core delay : ℕ) : ScheduledEvent :=
  { event :=
      { epoch := 1, id := core + 1, label := 1, codeword := 1, core := some core
        action := { probeOutput delay with port := 8 * core } }
    start := 120, «end» := 160
    resolved := { port := 8 * core, delay, duration := 40, spec := probeGate.action.spec } }

def pairedDevice : ControlElectronics (List BackendOperation × List (List BackendOperation)) :=
  { profile := { qubits := 2, seed := 1, gates := [probeGate] }
    backend := { backend := ([], []), epoch := 1 } }

def pairedAfter (batches : List TriggeredEvents) :
    ControlElectronics (List BackendOperation × List (List BackendOperation)) :=
  batches.foldl (fun d batch => (ControlElectronics.accept registerTape.recording batch d).state)
    pairedDevice

theorem mapped_probe {id delay fireTick : ℕ} :
    ∀ event ∈ (probeSent delay fireTick).events, Mapped (probeCore id delay) event := by
  intro event hevent
  obtain rfl := List.mem_singleton.1 hevent
  exact ⟨rfl, _, List.mem_singleton_self _, rfl, rfl, List.mem_singleton_self _⟩

/-- The device after the launches and the boundary on tick 120. -/
def pairedProcessed : ControlElectronics (List BackendOperation × List (List BackendOperation)) :=
  (process registerTape.recording 120 1 recordDelivery
    (pairedAfter [probeLaunch 0 20 100, probeLaunch 1 0 120], [])).state.1

/-- The gate is applied when both of its outputs have been launched, on different ticks, and the tick
is refused when there is only one of them. -/
theorem two_port_gates_probe :
    (∃ fired : List TwoQubitGate, probeGate ∈ fired ∧ fired.Nodup ∧
      gatesAt pairedProcessed.backend.stream 120 = fired.map TwoQubitGate.action) ∧
    ∃ message, (process registerTape.recording 120 1 recordDelivery).Raises
      (pairedAfter [probeLaunch 0 20 100], []) ⟨.gateInputMismatch, message⟩
      (pairedAfter [probeLaunch 0 20 100], []) [] := by
  have hvalid : validated probeCores [] = .ok (probeCore 0 20).profile := rfl
  have hmake : ControlElectronics.make registerTape.recording pairedDevice.profile ([], []) 1024 =
      .ok pairedDevice := rfl
  have hstart : DeviceRun registerTape.recording 1 0 (Routed probeCores 1) {} pairedDevice :=
    .start (.make hmake)
  have hrouted : Routed probeCores 1 pairedDevice (.accept (probeLaunch 0 20 100)) :=
    ⟨rfl, by decide, 0, probeCore 0 20, probeSent 20 100, rfl, mapped_probe, rfl⟩
  have hrouted' : Routed probeCores 1 (pairedAfter [probeLaunch 0 20 100])
      (.accept (probeLaunch 1 0 120)) :=
    ⟨rfl, by decide, 1, probeCore 1 0, probeSent 0 120, rfl, mapped_probe, rfl⟩
  have hresolve : pairedDevice.resolve registerTape.recording (probeLaunch 0 20 100) =
      .ok [probeScheduled 0 20] := rfl
  have hresolve' : (pairedAfter [probeLaunch 0 20 100]).resolve registerTape.recording
      (probeLaunch 1 0 120) = .ok [probeScheduled 1 0] := rfl
  have h₀ := hstart.accept hrouted (Proc.returns_of_isSome (by decide +kernel)) hresolve
    (by simp [DeviceHistory.accepted])
  have h₁ := h₀.accept hrouted' (Proc.returns_of_isSome (by decide +kernel)) hresolve'
    (by simp [DeviceHistory.accepted, probeScheduled])
  have hnext : (pairedAfter [probeLaunch 0 20 100]).nextBoundary = some 120 :=
    (ExtTreeMap.minKey?_eq_head?_keys).trans (by decide +kernel)
  have hnext' : (pairedAfter [probeLaunch 0 20 100, probeLaunch 1 0 120]).nextBoundary = some 120 :=
    (ExtTreeMap.minKey?_eq_head?_keys).trans (by decide +kernel)
  obtain ⟨history, hbatches, h₂⟩ : ∃ history : DeviceHistory,
      history.batches = [[probeScheduled 0 20], [probeScheduled 1 0]] ∧
        DeviceRun registerTape.recording 1 0 (Routed probeCores 1) history pairedProcessed :=
    ⟨_, rfl, h₁.process hnext' (Proc.returns_of_isSome (by decide +kernel))⟩
  constructor
  · have hpast : pairedProcessed.Past 120 := ⟨120, by decide +kernel, le_rfl⟩
    have hports := two_port_gates hvalid rfl h₂
    obtain ⟨fired, hnodup, -, hdriven, hgates, -⟩ := hports.applied 120
    refine ⟨fired, hdriven hpast probeGate (List.mem_singleton_self _) ?_, hnodup, ?_⟩
    · simp [DeviceHistory.outputsAt, DeviceHistory.accepted, hbatches, outputsOf, probeScheduled,
        probeGate, probeOutput]
    · rw [hgates, if_pos hpast, DeviceHistory.accepted, hbatches]
      rfl
  · have hports := two_port_gates hvalid rfl h₀
    refine hports.mismatch 120 hnext ⟨probeGate, List.mem_singleton_self _, ?_, ?_⟩ _ _ _
    · simp [DeviceHistory.outputsAt, DeviceHistory.accepted, outputsOf, probeScheduled, probeGate,
        probeOutput]
    · intro hfires
      obtain ⟨a, ha, -, -, hinput⟩ := hfires { core := 1, codeword := 1 } (by decide)
      obtain rfl : a = probeScheduled 0 20 := by simpa [DeviceHistory.accepted] using ha
      simp [inputOf, probeScheduled] at hinput

end Probe

end Qsbit

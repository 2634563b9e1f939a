import Qsbit.Backend.Batch
import Qsbit.TraceModel.Methods

/-!
# The player and the timing control units

In every run of a simulator, with any number of cores, resets and pauses, the queue that the
player shows for a core is the queue of its unit whenever a step of the unit has ended. Each
entry has the codewords of its point, and the staging area has those that have not been
submitted. The records of the processors may stand anywhere among those of the simulator.

## Main definitions

* `TracedRun` — the runs of a simulator, with what they record.
* `StepEnds` — the step of a unit ends, and what has been recorded before.
* `Mirrors` — what the player shows of a core, against its unit.
* `player_mirrors_tcu` — it does so in every run.
-/
namespace Qsbit
namespace TraceModel
open Simulator
open Std (ExtTreeMap)

/-! ## Runs -/

/-- The records of the simulator with those of the processors among them. -/
structure Interleaves (epoch : ℕ) (l : List TraceEvent) (rs : List Record) : Prop where
  events : rs.filterMap Record.event? = l
  processors : ∀ r ∈ rs, r.event? = none → r.epoch = epoch

/-- The runs of a simulator from its construction, with the trace of each. -/
inductive TracedRun {β : Type} (backend : QuantumBackend β) : Simulator β → List Record → Prop
  | start {fingerprint : Profile → String} {configs : List CoreConfig}
      {connections : List SyncConnection} {state : β} {resets : List ℕ} {reverse : Bool}
      {maxBatchOperations : ℕ} {decoding : DecoderSystemConfig} {s s' : Simulator β}
      {l : List TraceEvent}
      (made : Simulator.make backend fingerprint configs connections state resets reverse
        maxBatchOperations decoding = .ok s)
      (started : (Simulator.start fingerprint).Returns s () s' l) :
      TracedRun backend s' (l.map .event)
  | activate {s s' : Simulator β} {trace rs : List Record} {now : ℕ} {a : Activation}
      {launched : List (ℕ × TriggeredEvents)} {l : List TraceEvent}
      (run : TracedRun backend s trace)
      (activated : (Simulator.activate backend now a).Returns s launched s' l)
      (recorded : Interleaves s'.epoch l rs) : TracedRun backend s' (trace ++ rs)

section Run
variable {β : Type} {backend : QuantumBackend β} {s s' : Simulator β} {trace rs : List Record}
  {l : List TraceEvent} {now epoch : ℕ}

theorem EndsIn.of_concat {r : Record} (h : EndsIn epoch (trace ++ [r]))
    (hr : r.startsSession = false) : EndsIn epoch trace ∧ Within epoch r := by
  have htake : (trace ++ [r]).rtakeWhile (fun r => !r.startsSession) =
      trace.rtakeWhile (fun r => !r.startsSession) ++ [r] :=
    List.rtakeWhile_concat_pos _ _ _ (by simp [hr])
  obtain ⟨⟨before, first, hsplit, hstarts, hfirst⟩, hepoch⟩ := h
  rw [htake] at hsplit hepoch
  refine ⟨⟨⟨before, first, ?_, hstarts, hfirst⟩, fun x hx => hepoch x (List.mem_append_left _ hx)⟩,
    hr, hepoch r (by simp)⟩
  rw [← List.cons_append, ← List.append_assoc] at hsplit
  exact List.append_cancel_right hsplit

theorem EndsIn.epoch_of_starts {r : Record} (h : EndsIn epoch (trace ++ [r]))
    (hr : r.startsSession = true) : r.epoch = epoch := by
  have htake : (trace ++ [r]).rtakeWhile (fun r => !r.startsSession) = [] :=
    List.rtakeWhile_concat_neg _ _ _ (by simp [hr])
  obtain ⟨before, first, hsplit, -, hfirst⟩ := h.split
  rw [htake] at hsplit
  rw [(List.append_inj' hsplit rfl).2 |> List.cons.inj |>.1]
  exact hfirst

/-- The records of the processors change nothing in the session. -/
theorem Interleaves.session (hrs : Interleaves epoch l rs)
    (h : EndsIn epoch (trace ++ l.map .event)) : EndsIn epoch (trace ++ rs) ∧
      ∀ id, sessionRecords id (trace ++ rs) = sessionRecords id (trace ++ l.map .event) := by
  obtain ⟨rfl, hprocessors⟩ := hrs
  induction rs using List.reverseRecOn with
  | nil => exact ⟨h, fun _ => rfl⟩
  | append_singleton rs r ih =>
    have hprocessors' : ∀ x ∈ rs, x.event? = none → x.epoch = epoch :=
      fun x hx => hprocessors x (List.mem_append_left _ hx)
    rw [← List.append_assoc]
    cases r with
    | cpu tick epoch' core t =>
      have hwithin : Within epoch (.cpu tick epoch' core t) :=
        ⟨rfl, hprocessors (.cpu tick epoch' core t) (by simp) rfl⟩
      have hnone : (rs ++ [Record.cpu tick epoch' core t]).filterMap Record.event? =
          rs.filterMap Record.event? := by simp [Record.event?]
      rw [hnone] at h ⊢
      obtain ⟨hends, hrecords⟩ := ih hprocessors' h
      obtain ⟨hends', hrecords'⟩ := hends.append (List.forall_mem_singleton.2 hwithin)
      refine ⟨hends', fun id => ?_⟩
      rw [hrecords', hrecords]
      exact List.append_nil _
    | event e =>
      have hone : ((rs ++ [Record.event e]).filterMap Record.event?).map Record.event =
          (rs.filterMap Record.event?).map Record.event ++ [Record.event e] := by
        simp [Record.event?]
      rw [hone, ← List.append_assoc] at h ⊢
      cases hstarts : Record.startsSession (.event e) with
      | true =>
        obtain ⟨hends, hrecords⟩ := EndsIn.starts (trace ++ rs) hstarts
        rw [h.epoch_of_starts hstarts] at hends
        exact ⟨hends, fun id => by rw [hrecords, (EndsIn.starts _ hstarts).2]⟩
      | false =>
        obtain ⟨hbefore, hwithin⟩ := h.of_concat hstarts
        obtain ⟨hends, hrecords⟩ := ih hprocessors' hbefore
        have hone' := List.forall_mem_singleton.2 hwithin
        refine ⟨(hends.append hone').1, fun id => ?_⟩
        rw [(hends.append hone').2, (hbefore.append hone').2, hrecords]

theorem Played.interleave (h : Played s (trace ++ l.map .event)) (hrs : Interleaves s.epoch l rs) :
    Played s (trace ++ rs) := by
  obtain ⟨hsession, hrecords⟩ := hrs.session h.session
  refine ⟨hsession, h.ids, fun c hc => ?_⟩
  rw [hrecords]
  exact h.follows c hc

/-! ## The invariant -/

theorem makeCores_spec {fingerprint : Profile → String} {configs : List CoreConfig}
    {cores : List Core} (h : makeCores fingerprint configs = .ok cores) :
    cores.map (·.id) = configs.map (·.id) ∧ ∀ c ∈ cores, Follows epoch [] c := by
  induction configs generalizing cores with
  | nil =>
    obtain rfl := Except.pure_eq_ok_iff.1 h
    exact ⟨rfl, by simp⟩
  | cons config rest ih =>
    simp only [makeCores, Except.bind_eq_ok_iff, Except.pure_eq_ok_iff] at h
    obtain ⟨core, hcore, others, hothers, rfl⟩ := h
    obtain ⟨hids, hfollows⟩ := ih hothers
    have hid : core.id = config.id := by
      simp only [Core.make, Except.bind_eq_ok_iff, Except.pure_eq_ok_iff] at hcore
      obtain ⟨_, -, _, -, _, -, _, -, _, -, rfl⟩ := hcore
      rfl
    exact ⟨by rw [List.map_cons, List.map_cons, hids, hid],
      List.forall_mem_cons.2 ⟨Follows.make hcore, hfollows⟩⟩

theorem stopped_of_fail {f : Fault} {launched : List (ℕ × TriggeredEvents)}
    (h : (do
      Simulator.fail now f
      pure [] : Sim (Simulator β) (List (ℕ × TriggeredEvents))).Returns s launched s' l) :
    s'.stopped = true := by
  obtain ⟨_, s₁, l₁, l₂, hfail, hpure, -⟩ := Proc.returns_bind_iff.1 h
  obtain ⟨-, rfl, -⟩ := Proc.returns_pure_iff.1 hpure
  simp only [Simulator.fail, Proc.returns_get_bind_iff] at hfail
  split at hfail
  · rename_i hstopped
    obtain ⟨-, rfl, -⟩ := Proc.returns_pure_iff.1 hfail
    exact hstopped
  · rw [Proc.returns_set_bind_iff] at hfail
    obtain ⟨rfl, -⟩ := Proc.returns_emit_iff.1 hfail
    rfl

/-- In every run the player is in step with the simulator until it stops. -/
theorem TracedRun.played (run : TracedRun backend s trace) (running : s.stopped = false) :
    Played s trace := by
  induction run with
  | @start fingerprint configs connections state resets reverse maxBatchOperations decoding s s' l
      made started =>
    simp only [Simulator.make, Except.bind_eq_ok_iff, Except.pure_eq_ok_iff] at made
    obtain ⟨profile, hprofile, _, -, _, -, _, -, _, -, _, -, _, -, cores, hcores, rfl⟩ := made
    obtain ⟨hids, hfollows⟩ := makeCores_spec hcores
    simp only [Simulator.start, Simulator.scheduleWakeup, Proc.returns_get_bind_iff,
      Proc.returns_emit_bind_iff, Proc.returns_lift_bind_iff] at started
    obtain ⟨l', ⟨_, -, hwake⟩, rfl⟩ := started
    obtain ⟨rfl, rfl⟩ := Proc.returns_modify_iff.1 hwake
    obtain ⟨hsession, hrecords⟩ := EndsIn.starts [] (r := Record.event
      { tick := 0, epoch := 1, kind := .sessionStarted, detail := fingerprint profile }) rfl
    refine ⟨hsession, ?_, fun c hc => ?_⟩
    · change (cores.map (·.id)).Nodup
      rw [hids]
      exact (configured_of_validated hprofile).ids
    · have hnone : ∀ id, sessionRecords id [Record.event
          { tick := 0, epoch := 1, kind := .sessionStarted, detail := fingerprint profile }] = [] :=
        hrecords
      change Follows 1 ((sessionRecords _ [_]).filter _) c
      rw [hnone]
      exact hfollows c hc
  | @activate s s' trace rs now a launched l run activated recorded ih =>
    simp only [Simulator.activate, Proc.returns_get_bind_iff] at activated
    split at activated
    · rename_i hstopped
      obtain ⟨-, rfl, -⟩ := Proc.returns_pure_iff.1 activated
      simp [hstopped] at running
    · rename_i hrunning
      rcases Proc.returns_handle_iff.1 activated with hbody | ⟨f, s₁, l₁, l₂, -, hfail, -⟩
      · exact (plays_body _ _ _ _ (ih (by simpa using hrunning)) hbody).interleave recorded
      · have hstopped : s'.stopped = true := stopped_of_fail hfail
        simp [hstopped] at running

/-! ## The end of a step -/

/-- The step of the unit of a core ends on an edge of the simulator. The cores before it have
had their edges; `l` is what has been recorded since the edge began, and `c` is the core. -/
inductive StepEnds (backend : QuantumBackend β) (now : ℕ) (s : Simulator β) :
    List TraceEvent → Core → Prop
  | intro {before after : List ℕ} {i : ℕ} {s₁ : Simulator β}
      {launched : List (ℕ × TriggeredEvents)} {l₁ l₂ : List TraceEvent} {c c' : Core}
      {n' : SyncNetwork} {out : TcuOutput} (noReset : now ∉ s.resets)
      (order : s.order = before ++ i :: after)
      (earlier : (tcuEdges backend now before).Returns s launched s₁ l₁)
      (core : s₁.cores[i]? = some c)
      (step : (Core.tcuStep (fun batch => do s₁.device.preflight backend (← s₁.deviceEvents i batch))
        now s₁.epoch).Returns (c, s₁.network) out (c', n') l₂) :
      StepEnds backend now s (l₁ ++ l₂.map (s₁.tag c)) c'

/-- What the player shows of a core, against its unit. -/
structure Mirrors (epoch id : ℕ) (trace : List Record) (c : Core) : Prop where
  labels : ((play trace).core id).queue.map (·.label) = c.tcu.timing.map (·.point.label)
  occupancy : ∀ e ∈ ((play trace).core id).occupancy, e.value = c.tcu.timing.length
  /-- The codewords of an entry are those between its submission and the one before. -/
  codewords : ∀ item ∈ ((play trace).core id).queue,
    item.codewords = pointCodewords (sessionRecords id trace) item.label
  /-- The unit holds what these codewords stand for. -/
  requests : ∃ q, c.tcu.Holds epoch q ∧
    List.Forall₂ (fun item a => item.label = a.request.point.label ∧
      Decodes c.timingControl.profile item.codewords a.request.events) ((play trace).core id).queue q
  staged : ((play trace).core id).staged = openCodewords (sessionRecords id trace)
  pending : c.timingControl.enqueueRequest = none →
    Decodes c.timingControl.profile ((play trace).core id).staged c.timingControl.pendingEvents

theorem forall_of_forall₂ {α γ : Type} {R : α → γ → Prop} {P : α → Prop} {as : List α}
    {bs : List γ} (hP : ∀ a b, R a b → P a) (h : List.Forall₂ R as bs) : ∀ a ∈ as, P a := by
  induction h with
  | nil => simp
  | cons hab _ ih => exact List.forall_mem_cons.2 ⟨hP _ _ hab, ih⟩

/-- What the player folds from the records that move something, it shows. -/
theorem mirrors_of_queues {id : ℕ} {c : Core} {q : List TcuCycleModel.Admission}
    (hsession : EndsIn epoch trace) (hholds : c.tcu.Holds epoch q)
    (hqueues : Queues c.timingControl.profile ((sessionRecords id trace).filter (·.kind.moves)) q)
    (hstages : ∃ requests,
      Stages ((sessionRecords id trace).filter (·.kind.moves)) c.timingControl requests) :
    Mirrors epoch id trace c := by
  obtain ⟨requests, hstages⟩ := hstages
  have hbuffers : ((play trace).core id).buffers =
      Buffers.ofRecords ((sessionRecords id trace).filter (·.kind.moves)) := by
    rw [buffers_play hsession, Buffers.ofRecords_filter]
  have hstaged : ((play trace).core id).staged = openCodewords (sessionRecords id trace) := by
    rw [← openCodewords_filter, ← hstages.staged, ← hbuffers]
    rfl
  obtain ⟨hitems, hoccupancy⟩ := hqueues
  rw [← hbuffers] at hitems hoccupancy
  have hlength : q.length = c.tcu.timing.length := by rw [hholds.timing, List.length_map]
  refine
    { labels := ?_
      occupancy := hlength ▸ hoccupancy
      codewords := ?_
      requests := ⟨q, hholds, hitems.imp fun _ _ hshows => ⟨hshows.label, hshows.decodes⟩⟩
      staged := hstaged
      pending := fun hidle => ?_ }
  · rw [hholds.timing, List.map_map]
    exact labels_of_shows hitems
  · refine forall_of_forall₂ (fun item a hshows => ?_) hitems
    rw [hshows.codewords, hshows.label, pointCodewords_filter]
  · rw [hstaged, ← openCodewords_filter]
    exact hstages.decodes hidle

theorem frame_tcuEdges {is : List ℕ} {launched : List (ℕ × TriggeredEvents)}
    (h : (tcuEdges backend now is).Returns s launched s' l) :
    s'.epoch = s.epoch ∧ s'.cores.length = s.cores.length := by
  induction is generalizing s launched l with
  | nil =>
    obtain ⟨-, rfl, -⟩ := Proc.returns_pure_iff.1 h
    exact ⟨rfl, rfl⟩
  | cons i rest ih =>
    simp only [tcuEdges, Proc.returns_get_bind_iff] at h
    obtain ⟨out, s₁, l₁, k₁, hcore, h, -⟩ := Proc.returns_bind_iff.1 h
    obtain ⟨_, s₂, l₂, k₂, haccept, h, -⟩ := Proc.returns_bind_iff.1 h
    obtain ⟨others, s₃, l₃, k₃, hrest, hpure, -⟩ := Proc.returns_bind_iff.1 h
    obtain ⟨-, rfl, -⟩ := Proc.returns_pure_iff.1 hpure
    obtain ⟨c, c', n', l₀, -, -, rfl, -⟩ := returns_onCore hcore
    obtain ⟨hepoch, hlength⟩ := ih hrest
    have haccepted : s₂.epoch = s.epoch ∧ s₂.cores.length = s.cores.length := by
      cases hlaunch : out.launch with
      | none =>
        rw [hlaunch] at haccept
        obtain ⟨-, rfl, -⟩ := Proc.returns_pure_iff.1 haccept
        exact ⟨rfl, List.length_set ..⟩
      | some batch =>
        rw [hlaunch, Proc.forSome_some, Proc.returns_lift_bind_iff] at haccept
        obtain ⟨events, -, haccept⟩ := haccept
        obtain ⟨device, -, rfl⟩ := Proc.returns_zoom_iff.1 haccept
        exact ⟨rfl, List.length_set ..⟩
    exact ⟨hepoch.trans haccepted.1, hlength.trans haccepted.2⟩

/-- The queue of the player is that of the unit whenever a step of the unit has ended, in every
run of every system: each point is there once, with its own codewords. -/
theorem player_mirrors_tcu {c : Core} (run : TracedRun backend s trace)
    (running : s.stopped = false) (ends : StepEnds backend now s l c) :
    Mirrors s.epoch (s.shownAs c) (trace ++ l.map .event) c := by
  cases ends with
  | @intro before after i s₁ launched l₁ l₂ c₀ c n' out noReset order earlier core step =>
    have hplayed₁ := plays_tcuEdges _ _ _ _ (run.played running) earlier
    obtain ⟨hepoch, hlength⟩ := frame_tcuEdges earlier
    obtain ⟨hid, moved, hrecorded, ⟨requests, hstages⟩, q, hholds, hqueues⟩ :=
      (hplayed₁.follows c₀ (List.mem_of_getElem? core)).tcuStep
        (if 1 < s₁.cores.length then some c₀.id else none) step
    obtain ⟨hsession, hrecords⟩ := hplayed₁.records (c := c₀) hrecorded
    have hshown : s₁.shownAs c₀ = s.shownAs c := shownAs_of_length hlength hid.symm
    rw [List.map_append, ← List.append_assoc, ← hepoch, ← hshown]
    refine mirrors_of_queues hsession hholds ?_ ⟨requests, ?_⟩
    · rw [hrecords, if_pos rfl]
      exact hqueues
    · rw [hrecords, if_pos rfl]
      exact hstages

end Run

/-! ## Two cores -/

section Probe

/-- Evaluate activations, with no records of processors. -/
def drive {β : Type} (backend : QuantumBackend β) (s : Simulator β) (trace : List Record) :
    List (ℕ × Activation) → Simulator β × List Record
  | [] => (s, trace)
  | (now, a) :: rest =>
      let outcome := Simulator.activate backend now a s
      drive backend outcome.state (trace ++ outcome.log.map .event) rest

/-- An activation handles its own fault. -/
theorem activate_returns {β : Type} (backend : QuantumBackend β) (s : Simulator β) (now : ℕ)
    (a : Activation) : ∃ launched, (Simulator.activate backend now a).Returns s launched
      (Simulator.activate backend now a s).state (Simulator.activate backend now a s).log := by
  rcases h : Simulator.activate backend now a s with ⟨f | launched, s', l⟩
  · have hraises : (Simulator.activate backend now a).Raises s f s' l := h
    simp only [Simulator.activate, Proc.raises_get_bind_iff] at hraises
    split at hraises
    · simp at hraises
    · obtain ⟨f', s₁, l₁, l₂, -, hfail, -⟩ := Proc.raises_handle_iff.1 hraises
      rcases Proc.raises_bind_iff.1 hfail with hfail | ⟨_, _, _, _, -, hpure, -⟩
      · simp only [Simulator.fail, Proc.raises_get_bind_iff] at hfail
        split at hfail <;> simp at hfail
      · simp at hpure
  · exact ⟨launched, h⟩

theorem tracedRun_drive {β : Type} {backend : QuantumBackend β} {s : Simulator β}
    {trace : List Record} {inputs : List (ℕ × Activation)} (run : TracedRun backend s trace) :
    TracedRun backend (drive backend s trace inputs).1 (drive backend s trace inputs).2 := by
  induction inputs generalizing s trace with
  | nil => exact run
  | cons input rest ih =>
    obtain ⟨launched, hactivate⟩ := activate_returns backend s input.1 input.2
    refine ih (run.activate hactivate ⟨?_, ?_⟩)
    · simp [List.filterMap_map, Function.comp_def, Record.event?]
    · simp [Record.event?]

/-- Two cores with one gate each, the first of which submits a point. -/
def makeTwoCores : Except Fault (Simulator (List BackendOperation)) :=
  Simulator.make (tape false) (fun _ => "")
    [{ id := 7, profile := oneGate }, { id := 3, profile := oneGate }] [] [] [] false 1024
    { decoders := [] }

theorem isSome_twoCores : makeTwoCores.toOption.isSome = true := by decide +kernel

def twoCores : Simulator (List BackendOperation) := makeTwoCores.toOption.get isSome_twoCores

def twoCoresInputs : List (ℕ × Activation) :=
  [(0, .cpuEdge fun i => if i = 0 then [{ command := .codeword 0 1 }] else []),
    (10, .cpuEdge fun i => if i = 0 then [{ command := .wait 3 }] else [])]

/-- The simulator after these edges, and its trace. -/
def twoCoresRun : Simulator (List BackendOperation) × List Record :=
  drive (tape false) { twoCores with wake := some 1000000 }
    [.event { tick := 0, epoch := 1, kind := .sessionStarted, detail := "" }] twoCoresInputs

theorem tracedRun_twoCores : TracedRun (tape false) twoCoresRun.1 twoCoresRun.2 := by
  have hstart : (Simulator.start fun _ => "").Returns twoCores ()
      { twoCores with wake := some 1000000 }
      [{ tick := 0, epoch := 1, kind := .sessionStarted, detail := "" }] := by
    have hempty : twoCores.device.boundaries.isEmpty = true := by decide +kernel
    have hdevice : twoCores.device.nextBoundary = none := by
      rw [ControlElectronics.nextBoundary, ExtTreeMap.isEmpty_iff.1 hempty, ExtTreeMap.minKey?_empty]
    have hdecoders : twoCores.decoders.nextBoundary 0 = none := by decide +kernel
    have hresets : twoCores.resets = [] := by decide +kernel
    have hwatchdog : twoCores.profile.watchdog = 1000000 := by decide +kernel
    have hepoch : twoCores.epoch = 1 := by decide +kernel
    simp [Simulator.start, Simulator.scheduleWakeup, hdevice, hdecoders, hresets, hwatchdog, hepoch]
  exact tracedRun_drive (.start (Except.eq_ok_get isSome_twoCores) hstart)

theorem isSome_twoCoresCore : twoCoresRun.1.cores[0]?.isSome = true := by decide +kernel

def twoCoresCore : Core := twoCoresRun.1.cores[0]?.get isSome_twoCoresCore

/-- The step of the first core on the next edge of the units. -/
def twoCoresStep : Outcome Fault TraceEvent (Core × SyncNetwork) TcuOutput :=
  Core.tcuStep (fun batch => do
    twoCoresRun.1.device.preflight (tape false) (← twoCoresRun.1.deviceEvents 0 batch)) 20
    twoCoresRun.1.epoch (twoCoresCore, twoCoresRun.1.network)

theorem player_mirrors_tcu_twoCores : twoCoresStep.state.1.tcu.timing.length = 1 ∧
    Mirrors 1 7 (twoCoresRun.2 ++
      ([] ++ twoCoresStep.log.map (twoCoresRun.1.tag twoCoresCore)).map .event) twoCoresStep.state.1 := by
  have hepoch : twoCoresRun.1.epoch = 1 := by decide +kernel
  have hshown : twoCoresRun.1.shownAs twoCoresStep.state.1 = 7 := by decide +kernel
  have hrunning : twoCoresRun.1.stopped = false := by decide +kernel
  refine ⟨by decide +kernel, ?_⟩
  rw [← hepoch, ← hshown]
  have hordered : twoCoresRun.1.order = [] ++ 0 :: [1] := by decide +kernel
  have hresets : 20 ∉ twoCoresRun.1.resets := by decide +kernel
  obtain ⟨out, hout⟩ := Option.isSome_iff_exists.1
    (show twoCoresStep.result.toOption.isSome = true by decide +kernel)
  exact player_mirrors_tcu tracedRun_twoCores hrunning
    (.intro hresets hordered (Proc.returns_pure_iff.2 ⟨rfl, rfl, rfl⟩)
      (Option.some_get isSome_twoCoresCore).symm (Proc.returns_of_result hout))

end Probe

end TraceModel
end Qsbit

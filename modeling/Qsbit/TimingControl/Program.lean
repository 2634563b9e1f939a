import Qsbit.TimingControl.Step
import Mathlib.Data.List.Range

/-!
# What a program submits

A program is the list of operations it completes. `submissions` computes from it
alone which requests are submitted, and by which operation. The timing control,
driven with any acknowledgments, retries and results, submits exactly these.

## Main definitions

* `Staging` — what a program has staged and submitted so far.
* `Staging.step`, `Staging.submissions` — the meaning of an operation and of a program.
* `timedRequests`, `timedOperations` — contents with their times, on either side.
* `timedRequests_submissions`, `ids_submissions`, `labels_submissions` — time, order, identity.
-/
namespace Qsbit

/-- The time point a program is at, and what it has staged there. -/
structure Staging where
  time : ℕ := 0
  lastTime : ℕ := 0
  label : ℕ := 0
  nextEvent : ℕ := 1
  nextMeasurement : ℕ := 1
  events : List OperationEvent := []
  synchronizations : List ℕ := []
  staged : Bool := false
  deriving DecidableEq, Repr

/-- The actions of a codeword. -/
def TimingConfig.actions (config : TimingConfig) (port word : ℕ) : List EventSpec :=
  match config.mapping port word with
  | .ok map => map.actions
  | .error _ => []

namespace Staging
open TimingControl (acquireTargets)

/-- The references reserved for the targets, with consecutive identities. -/
def references (epoch next : ℕ) (targets : List ℕ) : List MeasurementReference :=
  targets.mapIdx fun i target => { epoch, measurement := next + i, target }

/-- The events of a codeword, with consecutive identities. -/
def codewordEvents (config : TimingConfig) (epoch instruction port word : ℕ) (g : Staging) :
    List OperationEvent :=
  let actions := config.actions port word
  let references := references epoch g.nextMeasurement (acquireTargets actions)
  actions.mapIdx fun i action =>
    { epoch, id := g.nextEvent + i, instruction, sourcePort := port, codeword := word, action
      reference := referenceOf references action }

/-- The staged point as a request; `waits` if it is closed by a `wait 0`. -/
def point (config : TimingConfig) (epoch : ℕ) (waits : Bool) (g : Staging) : TimingEvents :=
  { point :=
      { epoch, label := g.label + 1, interval := g.time - g.lastTime
        manifest := g.events.map (·.id), synchronizations := g.synchronizations
        underflowPolicy :=
          if waits then .pauseWhenEmpty else if 0 < g.time - g.lastTime then .strict else .inherit }
    events := g.events.map fun e => { e with label := g.label + 1 }
    configuration := config.configuration }

/-- Submit the staged point, if there is one. -/
def flush (config : TimingConfig) (epoch : ℕ) (waits : Bool) (g : Staging) :
    Staging × List TimingEvents :=
  if g.staged then
    ({ g with
        lastTime := g.time, label := g.label + 1, events := [], synchronizations := []
        staged := false }, [g.point config epoch waits])
  else (g, [])

/-- A `wait 0` submits a point even if nothing has been staged. -/
def before (g : Staging) (operation : ControlOperation) : Staging :=
  if operation.command = .wait 0 then { g with staged := true } else g

def flushFor (config : TimingConfig) (epoch : ℕ) (operation : ControlOperation) (g : Staging) :
    Staging × List TimingEvents :=
  (g.before operation).flush config epoch (operation.command = .wait 0)

/-- What an operation stages and submits. -/
def step (config : TimingConfig) (epoch : ℕ) (g : Staging) (operation : ControlOperation) :
    Staging × List TimingEvents :=
  match operation.command with
  | .codeword port word =>
      ({ g with
          events := g.events ++ g.codewordEvents config epoch operation.instruction port word
          nextEvent := g.nextEvent + (config.actions port word).length
          nextMeasurement :=
            g.nextMeasurement + (acquireTargets (config.actions port word)).length
          staged := true }, [])
  | .synchronize target =>
      ({ g with synchronizations := g.synchronizations ++ [target], staged := true }, [])
  | .wait cycles =>
      let (flushed, requests) := g.flushFor config epoch operation
      (if cycles = 0 then flushed
        else { flushed with time := flushed.time + cycles, staged := true }, requests)
  | .fetchMeasurement _ | .halt => g.flushFor config epoch operation

/-- Where a program leaves off. -/
def after (config : TimingConfig) (epoch : ℕ) (g : Staging) (program : List ControlOperation) :
    Staging :=
  program.foldl (fun g operation => (g.step config epoch operation).1) g

/-- The requests a program submits, each with the operation that submits it. -/
def submissions (config : TimingConfig) (epoch : ℕ) (g : Staging) :
    List ControlOperation → List (ControlOperation × TimingEvents)
  | [] => []
  | operation :: rest =>
      (g.step config epoch operation).2.map (operation, ·) ++
        submissions config epoch (g.step config epoch operation).1 rest

variable {config : TimingConfig} {epoch : ℕ}

theorem actions_codewordEvents (instruction port word : ℕ) (g : Staging) :
    (g.codewordEvents config epoch instruction port word).map (·.action) =
      config.actions port word := by
  refine List.ext_getElem (by simp [codewordEvents]) ?_
  intro i hi _
  simp [codewordEvents]

theorem ids_codewordEvents (instruction port word : ℕ) (g : Staging) :
    (g.codewordEvents config epoch instruction port word).map (·.id) =
      List.range' g.nextEvent (config.actions port word).length := by
  refine List.ext_getElem (by simp [codewordEvents]) ?_
  intro i hi _
  simp [codewordEvents]

theorem after_concat (g : Staging) (program : List ControlOperation)
    (operation : ControlOperation) : g.after config epoch (program ++ [operation]) =
      ((g.after config epoch program).step config epoch operation).1 := by
  rw [after, List.foldl_append]
  rfl

theorem submissions_concat (g : Staging) (program : List ControlOperation)
    (operation : ControlOperation) : g.submissions config epoch (program ++ [operation]) =
      g.submissions config epoch program ++
        ((g.after config epoch program).step config epoch operation).2.map (operation, ·) := by
  induction program generalizing g with
  | nil => simp [submissions, after]
  | cons x rest ih =>
    rw [List.cons_append, submissions, ih, submissions, List.append_assoc]
    rfl

/-! ## Time, order and identity -/

/-- The contents of requests with the times of their points, the first one after time `last`. -/
def timedRequests {α : Type} (carried : TimingEvents → List α) (last : ℕ) :
    List TimingEvents → List (ℕ × α)
  | [] => []
  | r :: rest =>
      (carried r).map (last + r.point.interval, ·) ++
        timedRequests carried (last + r.point.interval) rest

/-- The contents of operations, each with the sum of the waits before it. -/
def timedOperations {α : Type} (content : ControlOperation → List α) (time : ℕ) :
    List ControlOperation → List (ℕ × α)
  | [] => []
  | operation :: rest =>
      (content operation).map (time, ·) ++
        timedOperations content (time + operation.command.cycles) rest

/-- The actions of an operation's codeword. -/
def actionsOf (config : TimingConfig) (operation : ControlOperation) : List EventSpec :=
  match operation.command with
  | .codeword port word => config.actions port word
  | _ => []

/-- The target of an operation's synchronization. -/
def synchronizationsOf (operation : ControlOperation) : List ℕ :=
  match operation.command with
  | .synchronize target => [target]
  | _ => []

/-- What holds of a staging at any point of a program. -/
structure Sound (g : Staging) : Prop where
  time : g.lastTime ≤ g.time
  events : g.staged = false → g.events = []
  synchronizations : g.staged = false → g.synchronizations = []

theorem sound_initial : Sound {} := ⟨le_rfl, fun _ => rfl, fun _ => rfl⟩

theorem Sound.before {g : Staging} (h : Sound g) (operation : ControlOperation) :
    Sound (g.before operation) := by
  unfold Staging.before
  split
  · exact ⟨h.time, by simp, by simp⟩
  · exact h

theorem Sound.flush {g : Staging} (h : Sound g) (waits : Bool) :
    Sound (g.flush config epoch waits).1 := by
  unfold Staging.flush
  split
  · exact ⟨le_rfl, fun _ => rfl, fun _ => rfl⟩
  · exact h

theorem Sound.step {g : Staging} (h : Sound g) (operation : ControlOperation) :
    Sound (g.step config epoch operation).1 := by
  have hflush : Sound (g.flushFor config epoch operation).1 := (h.before operation).flush _
  unfold Staging.step
  split
  · exact ⟨h.time, by simp, by simp⟩
  · exact ⟨h.time, by simp, by simp⟩
  · dsimp only
    split
    · exact hflush
    · exact ⟨le_add_right hflush.time, by simp, by simp⟩
  · exact hflush
  · exact hflush

theorem Sound.after {g : Staging} (h : Sound g) (program : List ControlOperation) :
    Sound (g.after config epoch program) := by
  induction program generalizing g with
  | nil => exact h
  | cons operation rest ih => exact ih (h.step operation)

theorem flush_time (g : Staging) (waits : Bool) : (g.flush config epoch waits).1.time = g.time := by
  unfold Staging.flush
  split <;> rfl

theorem flush_staged (g : Staging) (waits : Bool) :
    (g.flush config epoch waits).1.staged = false := by
  unfold Staging.flush
  split
  · rfl
  · rename_i h
    simpa using h

theorem step_time (config : TimingConfig) (epoch : ℕ) (g : Staging) (operation : ControlOperation) :
    (g.step config epoch operation).1.time = g.time + operation.command.cycles := by
  have hflush : (g.flushFor config epoch operation).1.time = g.time := by
    rw [flushFor, flush_time, Staging.before]
    split <;> rfl
  unfold Staging.step
  split
  · rename_i h
    simp [h, ControlCommand.cycles]
  · rename_i h
    simp [h, ControlCommand.cycles]
  · rename_i cycles h
    dsimp only
    split
    · rename_i hz
      simp [h, hz, ControlCommand.cycles, hflush]
    · simp [h, ControlCommand.cycles, hflush]
  · rename_i h
    simp [h, ControlCommand.cycles, hflush]
  · rename_i h
    simp [h, ControlCommand.cycles, hflush]

/-- A kind of content that operations stage and requests carry away. -/
structure Carries {α : Type} (config : TimingConfig) (epoch : ℕ)
    (content : ControlOperation → List α) (staged : Staging → List α)
    (carried : TimingEvents → List α) : Prop where
  of_point : ∀ g waits, carried (point config epoch waits g) = staged g
  of_stage : ∀ g operation, operation.command.flushes = false →
    staged (step config epoch g operation).1 = staged g ++ content operation
  of_flush : ∀ operation, operation.command.flushes = true → content operation = []
  of_empty : ∀ g, Sound g → g.staged = false → staged g = []
  of_same : ∀ g g' : Staging, g'.events = g.events → g'.synchronizations = g.synchronizations →
    staged g' = staged g

/-- An operation that flushes moves on in time after the flush, if at all. -/
theorem step_of_flushes (config : TimingConfig) (epoch : ℕ) (g : Staging)
    {operation : ControlOperation} (h : operation.command.flushes = true) :
    (g.step config epoch operation).2 = (g.flushFor config epoch operation).2 ∧
      ∃ time staged, (g.step config epoch operation).1 =
        { (g.flushFor config epoch operation).1 with time, staged } := by
  unfold Staging.step
  split
  · rename_i hc
    simp [hc, ControlCommand.flushes] at h
  · rename_i hc
    simp [hc, ControlCommand.flushes] at h
  · dsimp only
    split <;> exact ⟨rfl, _, _, rfl⟩
  · exact ⟨rfl, _, _, rfl⟩
  · exact ⟨rfl, _, _, rfl⟩

/-- An operation that only stages submits nothing. -/
theorem step_of_not_flushes (config : TimingConfig) (epoch : ℕ) (g : Staging)
    {operation : ControlOperation} (h : operation.command.flushes = false) :
    (g.step config epoch operation).2 = [] ∧
      (g.step config epoch operation).1.lastTime = g.lastTime ∧
      (g.step config epoch operation).1.label = g.label ∧ operation.command.cycles = 0 := by
  unfold Staging.step
  cases hc : operation.command with
  | codeword => exact ⟨rfl, rfl, rfl, rfl⟩
  | synchronize => exact ⟨rfl, rfl, rfl, rfl⟩
  | _ => simp [hc, ControlCommand.flushes] at h

section Carries
variable {α : Type} {content : ControlOperation → List α} {staged : Staging → List α}
  {carried : TimingEvents → List α}

/-- Flushing carries the staged content away at the current time. -/
theorem timedRequests_flush (hc : Carries config epoch content staged carried) {g : Staging}
    (h : Sound g) (waits : Bool) (rest : List TimingEvents) :
    timedRequests carried g.lastTime ((g.flush config epoch waits).2 ++ rest) =
      (staged g).map (g.time, ·) ++
        timedRequests carried (g.flush config epoch waits).1.lastTime rest := by
  by_cases hs : g.staged = true
  · have hinterval : g.lastTime + (point config epoch waits g).point.interval = g.time := by
      have hle := h.time
      change g.lastTime + (g.time - g.lastTime) = g.time
      omega
    simp only [flush, hs, if_true, List.cons_append, List.nil_append, timedRequests, hc.of_point,
      hinterval]
  · have hstaged := hc.of_empty g h (by simpa using hs)
    simp [flush, hs, hstaged]

/-- Every content of a program's operations is carried away once, in order and at its time,
apart from what is still staged at the end. -/
theorem timedRequests_submissions (hc : Carries config epoch content staged carried)
    (program : List ControlOperation) {g : Staging} (h : Sound g) :
    timedRequests carried g.lastTime ((g.submissions config epoch program).map Prod.snd) ++
        (staged (g.after config epoch program)).map ((g.after config epoch program).time, ·) =
      (staged g).map (g.time, ·) ++ timedOperations content g.time program := by
  induction program generalizing g with
  | nil => simp [submissions, after, timedRequests, timedOperations]
  | cons operation rest ih =>
    have hnext := ih (g := (g.step config epoch operation).1) (h.step operation)
    have hafter : g.after config epoch (operation :: rest) =
        (g.step config epoch operation).1.after config epoch rest := rfl
    have hsnd : ((g.step config epoch operation).2.map (operation, ·)).map Prod.snd =
        (g.step config epoch operation).2 := by
      rw [List.map_map]
      exact List.map_id _
    rw [hafter, submissions, List.map_append, hsnd, timedOperations, ← step_time config epoch]
    cases hf : operation.command.flushes with
    | false =>
      obtain ⟨hout, hlast, -, hcycles⟩ := step_of_not_flushes config epoch g hf
      have htime : (g.step config epoch operation).1.time = g.time := by
        rw [step_time, hcycles, Nat.add_zero]
      rw [hout, List.nil_append, ← hlast, hnext, hc.of_stage g operation hf, List.map_append, htime,
        List.append_assoc]
    | true =>
      obtain ⟨hout, time, staged', hstep⟩ := step_of_flushes config epoch g hf
      have hbefore := h.before operation
      have hflush := timedRequests_flush hc hbefore (operation.command = .wait 0)
        (((g.step config epoch operation).1.submissions config epoch rest).map Prod.snd)
      have hstaged : staged (g.step config epoch operation).1 = [] := by
        rw [hc.of_same (g.flushFor config epoch operation).1 _ (by rw [hstep]) (by rw [hstep])]
        exact hc.of_empty _ (hbefore.flush _) (flush_staged _ _)
      have hsame : staged (g.before operation) = staged g := by
        refine hc.of_same _ _ ?_ ?_ <;> (unfold before; split <;> rfl)
      have htimes : (g.before operation).time = g.time ∧
          (g.before operation).lastTime = g.lastTime := by
        unfold before
        split <;> exact ⟨rfl, rfl⟩
      rw [htimes.1, htimes.2, hsame] at hflush
      rw [hstaged, List.map_nil, List.nil_append] at hnext
      rw [hout, flushFor, hflush, hc.of_flush operation hf, List.map_nil, List.nil_append,
        List.append_assoc, ← hnext, hstep]
      rfl

end Carries

theorem carries_actions :
    Carries config epoch (actionsOf config) (fun g => g.events.map (·.action))
      (fun r => r.events.map (·.action)) where
  of_point g waits := by
    show (g.events.map fun e => _).map _ = _
    rw [List.map_map]
    rfl
  of_stage g operation h := by
    cases hc : operation.command with
    | codeword port word =>
      simp only [step, hc, actionsOf, List.map_append, actions_codewordEvents]
    | synchronize target => simp [step, hc, actionsOf]
    | _ => simp [hc, ControlCommand.flushes] at h
  of_flush operation h := by
    cases hc : operation.command with
    | codeword => simp [hc, ControlCommand.flushes] at h
    | _ => simp [actionsOf, hc]
  of_empty g h hs := by simp [h.events hs]
  of_same g g' he _ := by rw [he]

theorem carries_synchronizations :
    Carries config epoch synchronizationsOf (·.synchronizations) (·.point.synchronizations) where
  of_point g waits := rfl
  of_stage g operation h := by
    cases hc : operation.command with
    | codeword port word => simp [step, hc, synchronizationsOf]
    | synchronize target => simp [step, hc, synchronizationsOf]
    | _ => simp [hc, ControlCommand.flushes] at h
  of_flush operation h := by
    cases hc : operation.command with
    | synchronize => simp [hc, ControlCommand.flushes] at h
    | _ => simp [synchronizationsOf, hc]
  of_empty g h hs := h.synchronizations hs
  of_same g g' _ hs := hs

/-- A flush submits all staged events and numbers none. -/
theorem flushFor_ids (config : TimingConfig) (epoch : ℕ) {g : Staging} (h : Sound g)
    (operation : ControlOperation) :
    (g.flushFor config epoch operation).2.flatMap (fun r => r.events.map (·.id)) =
        g.events.map (·.id) ∧
      (g.flushFor config epoch operation).1.events = [] ∧
      (g.flushFor config epoch operation).1.nextEvent = g.nextEvent := by
  have hevents : (g.before operation).events = g.events ∧
      (g.before operation).nextEvent = g.nextEvent := by
    unfold before
    split <;> exact ⟨rfl, rfl⟩
  unfold flushFor flush
  by_cases hs : (g.before operation).staged = true
  · rw [if_pos hs, ← hevents.1, ← hevents.2]
    refine ⟨?_, rfl, rfl⟩
    simp [point]
  · have hempty := (h.before operation).events (by simpa using hs)
    rw [if_neg hs, ← hevents.1, hempty]
    exact ⟨rfl, rfl, hevents.2⟩

/-- Events are numbered in the order in which their codewords were executed. -/
theorem ids_submissions (program : List ControlOperation) (g : Staging) (h : Sound g) :
    (g.submissions config epoch program).flatMap (fun x => x.2.events.map (·.id)) ++
        (g.after config epoch program).events.map (·.id) =
      g.events.map (·.id) ++
        List.range' g.nextEvent (program.flatMap (actionsOf config)).length := by
  induction program generalizing g with
  | nil => simp [submissions, after]
  | cons operation rest ih =>
    have hnext := ih (g.step config epoch operation).1 (h.step operation)
    have hafter : g.after config epoch (operation :: rest) =
        (g.step config epoch operation).1.after config epoch rest := rfl
    rw [hafter, submissions, List.flatMap_append, List.append_assoc, hnext, List.flatMap_cons,
      List.length_append]
    cases hf : operation.command.flushes with
    | false =>
      cases hc : operation.command with
      | codeword port word =>
        simp only [step, hc, actionsOf, List.map_nil, List.flatMap_nil, List.nil_append,
          List.map_append, ids_codewordEvents, List.append_assoc]
        rw [← List.range'_append, Nat.one_mul]
      | synchronize target => simp [step, hc, actionsOf]
      | _ => simp [hc, ControlCommand.flushes] at hf
    | true =>
      obtain ⟨hout, time, staged, hstep⟩ := step_of_flushes config epoch g hf
      obtain ⟨hids, hempty, hsame⟩ := flushFor_ids config epoch h operation
      have hnone : actionsOf config operation = [] := by
        cases hc : operation.command with
        | codeword => simp [hc, ControlCommand.flushes] at hf
        | _ => simp [actionsOf, hc]
      have hmap : ((g.step config epoch operation).2.map (operation, ·)).flatMap
          (fun x => x.2.events.map (·.id)) = g.events.map (·.id) := by
        rw [hout, List.flatMap_map]
        exact hids
      rw [hmap, hstep, hempty, hsame, hnone, List.map_nil, List.nil_append, List.length_nil,
        Nat.zero_add]

/-- Every submitted request is the point of some staging, closed as its operation says. -/
theorem mem_submissions {program : List ControlOperation} {g : Staging}
    {x : ControlOperation × TimingEvents} (hx : x ∈ g.submissions config epoch program) :
    ∃ g' : Staging, x.2 = g'.point config epoch (x.1.command = .wait 0) := by
  induction program generalizing g with
  | nil => simp [submissions] at hx
  | cons operation rest ih =>
    rw [submissions, List.mem_append] at hx
    rcases hx with hx | hx
    · obtain ⟨r, hr, rfl⟩ := List.mem_map.1 hx
      cases hf : operation.command.flushes with
      | false =>
        rw [(step_of_not_flushes config epoch g hf).1] at hr
        simp at hr
      | true =>
        rw [(step_of_flushes config epoch g hf).1, flushFor, flush] at hr
        split at hr
        · exact ⟨_, List.mem_singleton.1 hr⟩
        · simp at hr
    · exact ih hx

/-- Requests are labelled in the order in which they are submitted. -/
theorem labels_submissions (program : List ControlOperation) (g : Staging) :
    (g.submissions config epoch program).map (·.2.point.label) =
        List.range' (g.label + 1) (g.submissions config epoch program).length ∧
      (g.after config epoch program).label =
        g.label + (g.submissions config epoch program).length := by
  induction program generalizing g with
  | nil => simp [submissions, after]
  | cons operation rest ih =>
    obtain ⟨hlabels, hlast⟩ := ih (g.step config epoch operation).1
    have hafter : g.after config epoch (operation :: rest) =
        (g.step config epoch operation).1.after config epoch rest := rfl
    have hstep : (g.step config epoch operation).2.map (·.point.label) =
        List.range' (g.label + 1) (g.step config epoch operation).2.length ∧
        (g.step config epoch operation).1.label =
          g.label + (g.step config epoch operation).2.length := by
      cases hf : operation.command.flushes with
      | false =>
        obtain ⟨hout, -, hlabel, -⟩ := step_of_not_flushes config epoch g hf
        simp [hout, hlabel]
      | true =>
        obtain ⟨hout, time, staged, heq⟩ := step_of_flushes config epoch g hf
        have hbefore : (g.before operation).label = g.label := by
          unfold before
          split <;> rfl
        rw [hout, heq]
        unfold flushFor flush
        split <;> simp [hbefore, point]
    rw [hafter, hlast, submissions, List.map_append, hlabels, hstep.2, List.length_append,
      List.length_map, List.map_map]
    refine ⟨?_, by omega⟩
    rw [← List.range'_append_1, ← hstep.1, Nat.add_right_comm]
    rfl

end Staging
end Qsbit

import Qsbit.Records
import Qsbit.Simulator.Punctual

/-!
# The trace of a simulator

The trace refuses a record that is earlier than its last one. Everything that is recorded on a
tick carries the tick, whether a method faults or not, and the ticks of a run increase. So the
trace takes every record of a run, and with the trace the methods do what they do without it.

## Main definitions

* `Simulator.LoggedRun` — the runs of a simulator with their trace.
* `trace_takes_all` — they are the runs without it.
-/
namespace Qsbit
namespace Simulator
variable {β : Type} {backend : QuantumBackend β} {s s' : Simulator β} {now last : ℕ}

theorem at_of_records {epoch : ℕ} {kinds : TraceKind → Bool} {r : TraceEvent}
    (h : r.Of now epoch kinds) : Log.At now r := TraceEvent.at_of_tick h.tick

/-! ## The records of the methods -/

theorem onCore_at {α : Type} {i : ℕ} {x : Core → Sim (Core × SyncNetwork) α}
    (hx : ∀ c n, (x c).Logs (Log.At now) (c, n)) : (onCore i x).Logs (Log.At now) s := by
  refine .get_bind ?_
  split
  · exact .check _
  · exact .translate (.zoom (hx _ _))

theorem reset_at {epoch : ℕ} {d : ControlElectronics β} :
    (ControlElectronics.reset backend now epoch).Logs (Log.At now) d := by
  refine .get_bind <| .bind (.emitAll fun r hr => ?_) fun _ _ _ _ => .modify_bind <|
    .bind (.zoom (.of_quiet BackendExecution.quiet_reset)) fun _ _ _ _ => .modify _
  obtain ⟨a, -, rfl⟩ := List.mem_map.1 hr
  exact .of_stamp rfl

theorem forEach_at {f : ℕ → Sim (Simulator β) Unit} {is : List ℕ}
    (hf : ∀ i s, (f i).Logs (Log.At now) s) : (Proc.forEach f is).Logs (Log.At now) s :=
  .forEach (Q := fun _ => True) (fun i _ s _ => hf i s) (fun _ _ _ _ _ _ _ => trivial) trivial

theorem resetAt_at : (resetAt backend now).Logs (Log.At now) s := by
  refine .get_bind ?_
  split
  · exact .pure _
  · refine .bind ?_ fun _ _ _ _ => .pure _
    split
    · exact .lift_bind fun _ _ => .modify_bind <|
        .bind (forEach_at fun _ _ => onCore_at fun _ _ => .zoom (.of_quiet Core.quiet_reset))
          fun _ _ _ _ => .bind (.zoom reset_at) fun _ _ _ _ => .modify_bind <| .emit (.of_stamp rfl)
    · exact .pure _

theorem cpuEdge_at {operations : ℕ → List ControlOperation} :
    (cpuEdge backend operations now).Logs (Log.At now) s := by
  refine .bind resetAt_at fun reset _ _ _ => .bind ?_ fun _ _ _ _ => .modify _
  split
  · exact .pure _
  · refine .get_bind <| forEach_at fun i s => onCore_at fun c n => ?_
    split
    · exact .bind (Core.cpuEdge_records.mono fun _ => at_of_records) fun _ _ _ _ => .pure _
    · exact .pure _

theorem memoryEdge_at {accesses : ℕ → List MemoryRequest} :
    (memoryEdge backend accesses now).Logs (Log.At now) s := by
  refine .bind resetAt_at fun reset _ _ _ => .bind ?_ fun _ _ _ _ => .modify _
  split
  · exact .pure _
  · refine .get_bind <| forEach_at fun i s => ?_
    split
    · exact .pure _
    · split
      · refine .zoom <| .forEach (Q := fun _ => True) (fun request _ d _ => .handle ?_ fun _ _ => .pure _)
          (fun _ _ _ _ _ _ _ => trivial) trivial
        exact .bind (DecoderSystem.access_records.mono fun _ => at_of_records) fun _ _ _ _ => .pure _
      · exact .pure _

theorem tcuEdges_at {is : List ℕ} : (tcuEdges backend now is).Logs (Log.At now) s := by
  induction is generalizing s with
  | nil => exact .pure _
  | cons i rest ih =>
    refine .get_bind <| .bind (onCore_at fun _ _ => Core.tcuEdge_records.mono fun _ => at_of_records)
      fun output s₁ l₁ houtput => .bind ?_ fun _ _ _ _ => .bind ih fun _ _ _ _ => .pure _
    cases hlaunch : output.launch with
    | none => exact .pure _
    | some batch =>
      -- A launch is fired on the tick.
      refine .lift_bind fun events hevents => .zoom ?_
      obtain ⟨c, c', n', l, -, hedge, -, -⟩ := returns_onCore houtput
      have hfire : events.fireTick = now :=
        (fireTick_of_deviceEvents hevents).trans (fireTick_of_launch hedge hlaunch)
      exact ControlElectronics.accept_records.mono fun r hr =>
        TraceEvent.at_of_tick (hr.tick.trans hfire)

theorem tcuEdge_at : (tcuEdge backend now).Logs (Log.At now) s := by
  refine .bind resetAt_at fun reset _ _ _ => .bind ?_ fun _ _ _ _ => .modify_bind <| .pure _
  split
  · exact .pure _
  · exact .get_bind tcuEdges_at

theorem quiet_deliver {epoch : ℕ} {result : Completion} : (deliver now epoch result).Quiet := by
  refine .get_bind fun cores => .bind (.check _) fun x => ?_
  obtain ⟨i, result⟩ := x
  dsimp only
  split
  · exact .check _
  · exact .zoom Core.quiet_deliver

theorem barrier_at {idle : ℕ → Bool} : (barrier backend idle now).Logs (Log.At now) s := by
  refine .get_bind ?_
  split
  · exact .pure _
  · refine .bind ?_ fun _ _ _ _ => .bind resetAt_at fun _ _ _ _ => .get_bind <|
      .bind ?_ fun _ _ _ _ => .get_bind ?_
    · split
      · exact .zoom (DecoderSystem.step_records.mono fun _ => at_of_records)
      · exact .pure _
    · split
      · exact .zoom <| ControlElectronics.process_logs (fun _ => at_of_records)
          fun _ _ => .of_quiet quiet_deliver
      · exact .pure _
    · split
      · exact .bind (.zoom (.of_quiet ControlElectronics.quiet_finalize)) fun _ _ _ _ =>
          .modify_bind <| .emit (.of_stamp rfl)
      · exact .lift_bind fun _ _ => .get_bind <| .lift_bind fun _ _ => .modify _

theorem body_at {a : Activation} : (body backend now a).Logs (Log.At now) s := by
  cases a with
  | cpuEdge operations => exact .bind cpuEdge_at fun _ _ _ _ => .pure _
  | memoryEdge accesses => exact .bind memoryEdge_at fun _ _ _ _ => .pure _
  | tcuEdge => exact tcuEdge_at
  | wakeup => exact .bind (.bind resetAt_at fun _ _ _ _ => .pure _) fun _ _ _ _ => .pure _
  | barrier idle => exact .bind barrier_at fun _ _ _ _ => .pure _

theorem activate_at {a : Activation} : (activate backend now a).Logs (Log.At now) s := by
  refine .get_bind ?_
  split
  · exact .pure _
  · refine .handle body_at fun f s => .bind (.get_bind ?_) fun _ _ _ _ => .pure _
    split
    · exact .pure _
    · exact .set_bind <| .emit (.of_stamp rfl)

/-- What is recorded on a tick carries the tick. -/
theorem activateAll_at {acts : List Activation} :
    (activateAll backend now acts).Logs (Log.At now) s := by
  induction acts generalizing s with
  | nil => exact .pure _
  | cons a rest ih => exact .bind activate_at fun _ _ _ _ => .bind ih fun _ _ _ _ => .pure _

/-! ## Runs with their trace -/

/-- The runs of a simulator with the records that its trace has taken. -/
inductive LoggedRun (backend : QuantumBackend β) :
    Option ℕ → Simulator β → List TraceEvent → Prop
  | start {fingerprint : Profile → String} {configs : List CoreConfig}
      {connections : List SyncConnection} {state : β} {resets : List ℕ} {reverse : Bool}
      {maxBatchOperations : ℕ} {decoding : DecoderSystemConfig} {s s' : Simulator β}
      {l : List TraceEvent}
      (made : Simulator.make backend fingerprint configs connections state resets reverse
        maxBatchOperations decoding = .ok s)
      (started : (Simulator.start fingerprint).ReturnsAfter 0 s () s' l) :
      LoggedRun backend none s' l
  | tick {last : Option ℕ} {now : ℕ} {idle : ℕ → Bool} {acts : List Activation}
      {s s' : Simulator β} {launched : List (ℕ × TriggeredEvents)} {trace l : List TraceEvent}
      (run : LoggedRun backend last s trace) (running : s.stopped = false) (next : s.Next last now)
      (scheduled : s.Scheduled now idle acts)
      (activated : (activateAll backend now acts).ReturnsAfter (Log.latest 0 trace) s launched s' l) :
      LoggedRun backend (some now) s' (trace ++ l)

theorem start_at {fingerprint : Profile → String} :
    (start fingerprint).Logs (Log.At 0) s := by
  refine .get_bind <| .emit_bind (.of_stamp rfl) <| .get_bind <| .lift_bind fun _ _ => .modify _

variable {lastTick : Option ℕ} {trace : List TraceEvent}

/-- The trace is in order, and its last record is not later than the last tick. -/
theorem LoggedRun.ordered (run : LoggedRun backend lastTick s trace) :
    Log.Ordered 0 trace ∧ Log.latest 0 trace ≤ lastTick.getD 0 := by
  induction run with
  | start made started =>
    rw [start_at.returnsAfter_iff le_rfl] at started
    exact ⟨.of_at (start_at.returns started) le_rfl, Log.latest_le (start_at.returns started) le_rfl⟩
  | @tick last now idle acts s s' launched trace l run running next scheduled activated ih =>
    obtain ⟨hordered, hlatest⟩ := ih
    have hle : Log.latest 0 trace ≤ now := by
      cases last with
      | none => exact hlatest.trans (Nat.zero_le now)
      | some t => exact hlatest.trans (next.later t rfl).le
    rw [activateAll_at.returnsAfter_iff hle] at activated
    have hnow := activateAll_at.returns activated
    refine ⟨Log.ordered_append.2 ⟨hordered, .of_at hnow hle⟩, ?_⟩
    rw [Log.latest_append]
    exact Log.latest_le hnow hle

/-- On a tick that is not before the last one, activations do with the trace what they do
without it. -/
theorem LoggedRun.run_eq (run : LoggedRun backend lastTick s trace) (hlater : ∀ t ∈ lastTick, t ≤ now)
    (acts : List Activation) : (activateAll backend now acts).run (some (Log.latest 0 trace)) s =
      activateAll backend now acts s := by
  refine activateAll_at.run_eq (run.ordered.2.trans ?_)
  cases lastTick with
  | none => exact Nat.zero_le now
  | some t => exact hlater t rfl

theorem LoggedRun.run (run : LoggedRun backend lastTick s trace) : SimulatorRun backend lastTick s := by
  induction run with
  | start made started => exact .start made ((start_at.returnsAfter_iff le_rfl).1 started)
  | @tick last now idle acts s s' launched trace l run running next scheduled activated ih =>
    have hsame := run.run_eq (fun t ht => (next.later t ht).le) acts
    rw [Proc.ReturnsAfter, hsame] at activated
    exact .tick ih running next scheduled activated

theorem exists_loggedRun (run : SimulatorRun backend lastTick s) :
    ∃ trace, LoggedRun backend lastTick s trace := by
  induction run with
  | start made started => exact ⟨_, .start made ((start_at.returnsAfter_iff le_rfl).2 started)⟩
  | @tick last now idle acts s s' launched l run running next scheduled activated ih =>
    obtain ⟨trace, logged⟩ := ih
    have hsame := logged.run_eq (fun t ht => (next.later t ht).le) acts
    have hactivated : (activateAll backend now acts).ReturnsAfter (Log.latest 0 trace) s launched
        s' l := hsame.trans activated
    exact ⟨trace ++ l, .tick logged running next scheduled hactivated⟩

end Simulator

open Simulator

section Results
variable {β : Type} {backend : QuantumBackend β} {last : Option ℕ} {s : Simulator β}

/-- The trace takes every record of a run: the runs with it are the runs without it. It is in order
up to the last tick, and no later activation does anything else because of it. -/
theorem trace_takes_all :
    (SimulatorRun backend last s ↔ ∃ trace, LoggedRun backend last s trace) ∧
      ∀ trace, LoggedRun backend last s trace → Log.Ordered 0 trace ∧
        (∀ r ∈ trace, r.tick ≤ last.getD 0) ∧
        ∀ now acts, (∀ t ∈ last, t ≤ now) →
          (activateAll backend now acts).run (some (Log.latest 0 trace)) s =
            activateAll backend now acts s := by
  refine ⟨⟨exists_loggedRun, fun ⟨_, run⟩ => run.run⟩, fun trace run => ?_⟩
  obtain ⟨hordered, hlatest⟩ := run.ordered
  refine ⟨hordered, fun r hr => ?_, fun now acts hlater => run.run_eq hlater acts⟩
  exact (Log.stamp_le_latest hordered hr rfl).trans hlatest

theorem trace_takes_all_delayed : ∃ trace, LoggedRun (tape false) (some 90) delayedStart trace ∧
    Log.Ordered 0 trace ∧ (∀ r ∈ trace, r.tick ≤ 90) ∧
      (activateAll (tape false) 120 (edges [])).run (some (Log.latest 0 trace)) delayedStart =
        activateAll (tape false) 120 (edges []) delayedStart := by
  obtain ⟨hruns, htakes⟩ := trace_takes_all (s := delayedStart)
  obtain ⟨trace, logged⟩ := hruns.1 simulatorRun_delayed.1
  obtain ⟨hordered, hticks, hsame⟩ := htakes trace logged
  exact ⟨trace, logged, hordered, hticks, hsame 120 _ (by simp)⟩

end Results
end Qsbit

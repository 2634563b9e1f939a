import Qsbit.Backend.Batch
import Qsbit.Decoder.Quiet
import Qsbit.Device.Step
import Qsbit.Simulator.Schedule

/-!
# The barrier of a tick

A barrier does nothing until all edges of its tick have been seen. One that waits for nothing
leaves nothing to be done on the tick, so that others after it do nothing again. It follows
that the kernel may activate the barrier as often as it likes: a tick is its other methods in
their order, and then one barrier.

## Main definitions

* `Simulator.Barrier`, `Simulator.Completes` — what a barrier that waits for nothing has done, if the
  simulation goes on and if it ends.
* `Simulator.Remaining` — what is left of the activations of a tick.
* `barriers_coalesce` — a tick is its other methods and then one barrier.
* `Simulator.TicksAll` — runs that can be evaluated, tick by tick.
-/
namespace Qsbit
namespace Simulator
open Std (ExtTreeMap)
variable {β : Type} {backend : QuantumBackend β} {s s' : Simulator β} {now : ℕ} {u : Unit}
  {idle : ℕ → Bool} {l : List TraceEvent} {launched : List (ℕ × TriggeredEvents)}
  {a : Activation} {acts rest : List Activation} {m : Method}

/-! ## The other methods -/

/-- What the methods write down. -/
def Control.stamp (c : Control) (now : ℕ) : Method → Control
  | .cpuEdge => { c with cpuDone := some now }
  | .memoryEdge => { c with memoryDone := some now }
  | .tcuEdge => { c with tcuDone := some now }
  | .wakeup | .barrier => c

theorem resets_of_stamp (hcontrol : s'.control = s.control.stamp now m) : s'.resets = s.resets := by
  have hsame := congrArg Control.resets hcontrol
  cases m <;> exact hsame

/-- An edge asks for the reset, does its work if there is none, and writes down that it has been
seen. -/
theorem cpuEdge_returns {operations : ℕ → List ControlOperation}
    (h : (cpuEdge backend operations now).Returns s u s' l) :
    ∃ (reset : Bool) (s₁ s₂ : Simulator β) (l₁ : List TraceEvent),
      ResetAt backend now s reset s₁ l₁ ∧ s₂.around = s₁.around ∧
        s' = { s₂ with cpuDone := some now } := by
  obtain ⟨reset, s₁, l₁, l₂, hreset, hrest, rfl⟩ := Proc.returns_bind_iff.1 h
  obtain ⟨_, s₂, l₃, l₄, hloop, hlast, rfl⟩ := Proc.returns_bind_iff.1 hrest
  obtain ⟨rfl, -⟩ := Proc.returns_modify_iff.1 hlast
  refine ⟨reset, s₁, s₂, l₁, resetAt_returns hreset, ?_, rfl⟩
  split at hloop
  · obtain ⟨-, rfl, -⟩ := Proc.returns_pure_iff.1 hloop
    rfl
  · rw [Proc.returns_get_bind_iff] at hloop
    refine Proc.Keeps.returns (.forEach fun i _ s => keeps_onCore fun c n => ?_) hloop
    split
    · exact .bind keeps_core_cpuEdge fun _ _ => .pure ()
    · exact .pure ()

theorem memoryEdge_returns {accesses : ℕ → List MemoryRequest}
    (h : (memoryEdge backend accesses now).Returns s u s' l) :
    ∃ (reset : Bool) (s₁ s₂ : Simulator β) (l₁ : List TraceEvent),
      ResetAt backend now s reset s₁ l₁ ∧ s₂.beside = s₁.beside ∧
        (reset = true → s₂ = s₁) ∧ s' = { s₂ with memoryDone := some now } := by
  obtain ⟨reset, s₁, l₁, l₂, hreset, hrest, rfl⟩ := Proc.returns_bind_iff.1 h
  obtain ⟨_, s₂, l₃, l₄, hloop, hlast, rfl⟩ := Proc.returns_bind_iff.1 hrest
  obtain ⟨rfl, -⟩ := Proc.returns_modify_iff.1 hlast
  refine ⟨reset, s₁, s₂, l₁, resetAt_returns hreset, ?_⟩
  split at hloop
  · obtain ⟨-, rfl, -⟩ := Proc.returns_pure_iff.1 hloop
    exact ⟨rfl, fun _ => rfl, rfl⟩
  · rename_i hnone
    rw [Proc.returns_get_bind_iff] at hloop
    refine ⟨?_, fun hreset => absurd hreset hnone, rfl⟩
    refine Proc.Keeps.returns (.forEach fun i _ s => ?_) hloop
    split
    · exact .pure ()
    · split
      · exact .zoom fun _ => rfl
      · exact .pure ()

theorem tcuEdge_returns (h : (tcuEdge backend now).Returns s launched s' l) :
    ∃ (reset : Bool) (s₁ s₂ : Simulator β) (l₁ l₂ : List TraceEvent),
      ResetAt backend now s reset s₁ l₁ ∧ s₂.outside = s₁.outside ∧
      (reset = true → s₂ = s₁) ∧
        (reset = false → (tcuEdges backend now s₁.order).Returns s₁ launched s₂ l₂) ∧
          s' = { s₂ with tcuDone := some now } := by
  obtain ⟨reset, s₁, l₁, l₂, hreset, hrest, rfl⟩ := Proc.returns_bind_iff.1 h
  obtain ⟨launched', s₂, l₃, l₄, hloop, hlast, rfl⟩ := Proc.returns_bind_iff.1 hrest
  rw [Proc.returns_modify_bind_iff] at hlast
  obtain ⟨rfl, rfl, -⟩ := Proc.returns_pure_iff.1 hlast
  refine ⟨reset, s₁, s₂, l₁, l₃, resetAt_returns hreset, ?_⟩
  split at hloop
  · rename_i hreset
    obtain ⟨-, rfl, -⟩ := Proc.returns_pure_iff.1 hloop
    exact ⟨rfl, fun _ => rfl, fun hnot => by simp [hreset] at hnot, rfl⟩
  · rename_i hnone
    rw [Proc.returns_get_bind_iff] at hloop
    exact ⟨keeps_tcuEdges.returns hloop, fun hreset => absurd hreset hnone, fun _ => hloop, rfl⟩

theorem wakeup_returns (h : (wakeup backend now).Returns s u s' l) :
    ∃ reset, ResetAt backend now s reset s' l := by
  obtain ⟨reset, s₁, l₁, l₂, hreset, hpure, rfl⟩ := Proc.returns_bind_iff.1 h
  obtain ⟨-, rfl, rfl⟩ := Proc.returns_pure_iff.1 hpure
  rw [List.append_nil]
  exact ⟨reset, resetAt_returns hreset⟩

theorem body_barrier_returns_iff : (body backend now (.barrier idle)).Returns s launched s' l ↔
    (barrier backend idle now).Returns s () s' l ∧ launched = [] := by
  constructor
  · intro h
    obtain ⟨_, s₁, l₁, l₂, hbarrier, hpure, rfl⟩ := Proc.returns_bind_iff.1 h
    obtain ⟨rfl, rfl, rfl⟩ := Proc.returns_pure_iff.1 hpure
    exact ⟨by rwa [List.append_nil], rfl⟩
  · rintro ⟨h, rfl⟩
    exact Proc.returns_bind_iff.2
      ⟨(), s', l, [], h, Proc.returns_pure_iff.2 ⟨rfl, rfl, rfl⟩, List.append_nil l⟩

/-- What each method does, read off its body. -/
theorem body_cases (h : (body backend now a).Returns s launched s' l) :
    (∃ operations, a = .cpuEdge operations ∧ (cpuEdge backend operations now).Returns s () s' l) ∨
      (∃ accesses, a = .memoryEdge accesses ∧
        (memoryEdge backend accesses now).Returns s () s' l) ∨
      (a = .tcuEdge ∧ (tcuEdge backend now).Returns s launched s' l) ∨
      (a = .wakeup ∧ (wakeup backend now).Returns s () s' l) ∨
      ∃ idle, a = .barrier idle ∧ (barrier backend idle now).Returns s () s' l := by
  cases a with
  | cpuEdge operations =>
    obtain ⟨_, s₁, l₁, l₂, hedge, hpure, rfl⟩ := Proc.returns_bind_iff.1 h
    obtain ⟨-, rfl, rfl⟩ := Proc.returns_pure_iff.1 hpure
    exact .inl ⟨operations, rfl, by rwa [List.append_nil]⟩
  | memoryEdge accesses =>
    obtain ⟨_, s₁, l₁, l₂, hedge, hpure, rfl⟩ := Proc.returns_bind_iff.1 h
    obtain ⟨-, rfl, rfl⟩ := Proc.returns_pure_iff.1 hpure
    exact .inr (.inl ⟨accesses, rfl, by rwa [List.append_nil]⟩)
  | tcuEdge => exact .inr (.inr (.inl ⟨rfl, h⟩))
  | wakeup =>
    obtain ⟨_, s₁, l₁, l₂, hwakeup, hpure, rfl⟩ := Proc.returns_bind_iff.1 h
    obtain ⟨-, rfl, rfl⟩ := Proc.returns_pure_iff.1 hpure
    exact .inr (.inr (.inr (.inl ⟨rfl, by rwa [List.append_nil]⟩)))
  | barrier asked =>
    exact .inr (.inr (.inr (.inr ⟨asked, rfl, (body_barrier_returns_iff.1 h).1⟩)))

/-- A method other than the barrier writes down that it has been seen, and applies the reset. -/
theorem body_control (hm : a.method ≠ .barrier)
    (h : (body backend now a).Returns s launched s' l) :
    s'.control = s.control.stamp now a.method ∧ (now ∈ s.resets → s'.lastReset = some now) := by
  rcases body_cases h with ⟨operations, rfl, hedge⟩ | ⟨accesses, rfl, hedge⟩ | ⟨rfl, hedge⟩ |
    ⟨rfl, hwakeup⟩ | ⟨asked, rfl, -⟩
  · obtain ⟨reset, s₁, s₂, l₁, hreset, hkept, rfl⟩ := cpuEdge_returns hedge
    simp only [around, outside, Prod.mk.injEq] at hkept
    rw [← hreset.control, ← hkept.1.1]
    exact ⟨rfl, fun hmem => hkept.1.2.2.trans (hreset.lastReset hmem)⟩
  · obtain ⟨reset, s₁, s₂, l₁, hreset, hkept, -, rfl⟩ := memoryEdge_returns hedge
    simp only [beside, outside, Prod.mk.injEq] at hkept
    rw [← hreset.control, ← hkept.1.1]
    exact ⟨rfl, fun hmem => hkept.1.2.2.trans (hreset.lastReset hmem)⟩
  · obtain ⟨reset, s₁, s₂, l₁, l₂, hreset, hkept, -, -, rfl⟩ := tcuEdge_returns hedge
    simp only [outside, Prod.mk.injEq] at hkept
    rw [← hreset.control, ← hkept.1]
    exact ⟨rfl, fun hmem => hkept.2.2.trans (hreset.lastReset hmem)⟩
  · obtain ⟨reset, hreset⟩ := wakeup_returns hwakeup
    exact ⟨hreset.control, hreset.lastReset⟩
  · exact absurd rfl hm

/-! ## Waiting -/

/-- The methods that are due, and those that have been seen, are read off the settings. -/
def Control.due (c : Control) (now : ℕ) : Method → Bool
  | .cpuEdge | .memoryEdge => c.cores.any (·.2.cpu.edge now)
  | .tcuEdge => c.profile.tcu.edge now
  | .wakeup => c.wake = some now
  | .barrier => false

def Control.done (c : Control) : Method → Option ℕ
  | .cpuEdge => c.cpuDone
  | .memoryEdge => c.memoryDone
  | .tcuEdge => c.tcuDone
  | .wakeup | .barrier => none

theorem due_control : s.due now m = s.control.due now m := by
  cases m with
  | cpuEdge | memoryEdge =>
    simp only [due, Control.due, control, List.any_map]
    rfl
  | tcuEdge | wakeup | barrier => rfl

theorem done_control : s.done m = s.control.done m := by
  cases m <;> rfl

theorem waits_iff : s.waits now = true ↔
    ∃ m : Method, m.isEdge = true ∧ s.due now m = true ∧ s.done m ≠ some now := by
  simp only [waits, Bool.or_eq_true, Bool.and_eq_true, decide_eq_true_eq]
  constructor
  · rintro (⟨hdue, hcpu | hmemory⟩ | ⟨hdue, htcu⟩)
    · exact ⟨.cpuEdge, rfl, hdue, hcpu⟩
    · exact ⟨.memoryEdge, rfl, hdue, hmemory⟩
    · exact ⟨.tcuEdge, rfl, decide_eq_true hdue, htcu⟩
  · rintro ⟨m, hedge, hdue, hdone⟩
    cases m with
    | cpuEdge => exact .inl ⟨hdue, .inl hdone⟩
    | memoryEdge => exact .inl ⟨hdue, .inr hdone⟩
    | tcuEdge => exact .inr ⟨of_decide_eq_true hdue, hdone⟩
    | wakeup | barrier => simp [Method.isEdge] at hedge

/-- Whether a barrier waits does not depend on when the simulator wakes up. -/
theorem waits_congr {wake : Option ℕ} {stopped : Bool}
    (h : s'.control = { s.control with wake, stopped }) : s'.waits now = s.waits now := by
  rw [Bool.eq_iff_iff, waits_iff, waits_iff]
  refine exists_congr fun m => and_congr_right fun hedge => ?_
  rw [due_control, done_control, h, due_control, done_control]
  cases m with
  | cpuEdge | memoryEdge | tcuEdge => rfl
  | wakeup | barrier => simp [Method.isEdge] at hedge

/-! ## A barrier that waits for nothing -/

theorem barrier_waits (h : s.waits now = true) : (barrier backend idle now).Returns s () s [] := by
  simp [barrier, h]

/-- What a barrier that waits for nothing does before it looks at what is left. -/
inductive Advances (backend : QuantumBackend β) (now : ℕ) (s : Simulator β) :
    Simulator β → List TraceEvent → Prop
  | intro {decoders : DecoderSystem} {reset : Bool} {s₁ s₂ : Simulator β} {l₁ l₂ l₃ : List TraceEvent}
      (stepped : if s.lastReset = some now then decoders = s.decoders ∧ l₁ = []
        else (DecoderSystem.step now s.epoch).Returns s.decoders () decoders l₁)
      (asked : (resetAt backend now).Returns { s with decoders } reset s₁ l₂)
      (processed : if reset = false ∧ s₁.device.nextBoundary = some now then
        (processDevice backend now s₁.epoch).Returns s₁ () s₂ l₃ else s₂ = s₁ ∧ l₃ = []) :
      Advances backend now s s₂ (l₁ ++ (l₂ ++ l₃))

/-- What a barrier that waits for nothing has done, unless it has ended the simulation. -/
inductive Barrier (backend : QuantumBackend β) (idle : ℕ → Bool) (now : ℕ) (s : Simulator β) :
    Simulator β → List TraceEvent → Prop
  | intro {s₁ : Simulator β} {l : List TraceEvent} (advances : Advances backend now s s₁ l)
      (goesOn : s₁.drained idle = false) (watchdog : now < s₁.profile.watchdog)
      (later : now < s₁.nextWake now) :
      Barrier backend idle now s { s₁ with wake := some (s₁.nextWake now) } l

/-- What a barrier has done that has completed the simulation. -/
inductive Completes (backend : QuantumBackend β) (idle : ℕ → Bool) (now : ℕ) (s : Simulator β) :
    Simulator β → List TraceEvent → Prop
  | intro {s₁ : Simulator β} {device : ControlElectronics β} {l₁ l₂ : List TraceEvent}
      (advances : Advances backend now s s₁ l₁) (drained : s₁.drained idle = true)
      (finalized : (ControlElectronics.finalize backend now).Returns s₁.device () device l₂) :
      Completes backend idle now s { s₁ with device, success := true, stopped := true }
        (l₁ ++ (l₂ ++ [{ tick := now, epoch := s₁.epoch, kind := .simulationCompleted }]))

theorem returns_advance_bind_iff {g : Simulator β → Sim (Simulator β) Unit} :
    (do
      (if s.lastReset ≠ some now then onDecoders (DecoderSystem.step now s.epoch) else pure ())
      let reset ← resetAt backend now
      let s ← Proc.get
      (if reset = false ∧ s.device.nextBoundary = some now then processDevice backend now s.epoch
      else pure ())
      let s ← Proc.get
      g s : Sim (Simulator β) Unit).Returns s u s' l ↔
    ∃ s₁ l₁ l₂, Advances backend now s s₁ l₁ ∧ (g s₁).Returns s₁ u s' l₂ ∧ l₁ ++ l₂ = l := by
  constructor
  · intro h
    obtain ⟨_, s₀, l₁, k₁, hstep, h₁, rfl⟩ := Proc.returns_bind_iff.1 h
    obtain ⟨reset, s₁, l₂, k₂, hreset, h₂, rfl⟩ := Proc.returns_bind_iff.1 h₁
    rw [Proc.returns_get_bind_iff] at h₂
    obtain ⟨_, s₂, l₃, k₃, hprocess, h₃, rfl⟩ := Proc.returns_bind_iff.1 h₂
    rw [Proc.returns_get_bind_iff] at h₃
    obtain ⟨decoders, hstepped, rfl⟩ : ∃ decoders, (if s.lastReset = some now then
        decoders = s.decoders ∧ l₁ = [] else
          (DecoderSystem.step now s.epoch).Returns s.decoders () decoders l₁) ∧
        s₀ = { s with decoders } := by
      by_cases hlast : s.lastReset = some now
      · rw [if_neg (not_not.2 hlast)] at hstep
        obtain ⟨-, rfl, rfl⟩ := Proc.returns_pure_iff.1 hstep
        exact ⟨s.decoders, by simp [hlast], rfl⟩
      · rw [if_pos hlast] at hstep
        obtain ⟨decoders, hdecoders, rfl⟩ := Proc.returns_zoom_iff.1 hstep
        exact ⟨decoders, by simpa [hlast] using hdecoders, rfl⟩
    have hprocessed : if reset = false ∧ s₁.device.nextBoundary = some now then
        (processDevice backend now s₁.epoch).Returns s₁ () s₂ l₃ else s₂ = s₁ ∧ l₃ = [] := by
      split at hprocess
      · rw [if_pos ‹_›]
        exact hprocess
      · rw [if_neg ‹_›]
        obtain ⟨-, rfl, rfl⟩ := Proc.returns_pure_iff.1 hprocess
        exact ⟨rfl, rfl⟩
    exact ⟨s₂, l₁ ++ (l₂ ++ l₃), k₃, .intro hstepped hreset hprocessed, h₃, by simp⟩
  · rintro ⟨s₂, _, l₄, @⟨decoders, reset, s₁, _, l₁, l₂, l₃, stepped, asked, processed⟩, hrest, rfl⟩
    refine Proc.returns_bind_iff.2 ⟨(), { s with decoders }, l₁, l₂ ++ (l₃ ++ l₄), ?_, ?_, by simp⟩
    · by_cases hlast : s.lastReset = some now
      · rw [if_pos hlast] at stepped
        obtain ⟨rfl, rfl⟩ := stepped
        rw [if_neg (not_not.2 hlast)]
        exact Proc.returns_pure_iff.2 ⟨rfl, rfl, rfl⟩
      · rw [if_neg hlast] at stepped
        rw [if_pos hlast]
        exact Proc.returns_zoom_iff.2 ⟨decoders, stepped, rfl⟩
    refine Proc.returns_bind_iff.2 ⟨reset, s₁, l₂, l₃ ++ l₄, asked, ?_, rfl⟩
    rw [Proc.returns_get_bind_iff]
    refine Proc.returns_bind_iff.2 ⟨(), s₂, l₃, l₄, ?_, Proc.returns_get_bind_iff.2 hrest, rfl⟩
    split
    · rwa [if_pos ‹_›] at processed
    · rw [if_neg ‹_›] at processed
      obtain ⟨rfl, rfl⟩ := processed
      exact Proc.returns_pure_iff.2 ⟨rfl, rfl, rfl⟩

/-- A barrier that waits for nothing and does not fault goes on or completes the simulation. -/
theorem barrier_cases (hwaits : s.waits now = false) : (barrier backend idle now).Returns s u s' l ↔
    Barrier backend idle now s s' l ∨ Completes backend idle now s s' l := by
  simp only [barrier, Proc.returns_get_bind_iff, hwaits, Bool.false_eq_true, if_false]
  rw [returns_advance_bind_iff]
  constructor
  · rintro ⟨s₁, l₁, l₂, advances, hend, rfl⟩
    cases hdrained : s₁.drained idle with
    | true =>
      rw [if_pos hdrained] at hend
      obtain ⟨_, s₂, l₃, k₃, hfinalize, hlast, rfl⟩ := Proc.returns_bind_iff.1 hend
      obtain ⟨device, finalized, rfl⟩ := Proc.returns_zoom_iff.1 hfinalize
      rw [Proc.returns_modify_bind_iff] at hlast
      obtain ⟨rfl, rfl⟩ := Proc.returns_emit_iff.1 hlast
      exact .inr (@Completes.intro β backend idle now s s₁ device l₁ l₃ advances hdrained finalized)
    | false =>
      simp only [hdrained, Bool.false_eq_true, if_false, Proc.returns_lift_bind_iff,
        require_eq_ok_iff, exists_const] at hend
      obtain ⟨hwatchdog, hschedule⟩ := hend
      obtain ⟨hlater, rfl, rfl⟩ := scheduleWakeup_returns_iff.1 hschedule
      rw [List.append_nil]
      exact .inl (.intro advances hdrained hwatchdog hlater)
  · rintro (⟨advances, goesOn, watchdog, later⟩ | @⟨s₁, device, l₁, l₂, advances, drained, finalized⟩)
    · refine ⟨_, l, [], advances, ?_, List.append_nil l⟩
      simp only [goesOn, Bool.false_eq_true, if_false, Proc.returns_lift_bind_iff,
        require_eq_ok_iff, exists_const]
      exact ⟨watchdog, scheduleWakeup_returns_iff.2 ⟨later, rfl, rfl⟩⟩
    · refine ⟨s₁, l₁, _, advances, ?_, rfl⟩
      rw [if_pos drained]
      refine Proc.returns_bind_iff.2 ⟨(), { s₁ with device }, l₂, _,
        Proc.returns_zoom_iff.2 ⟨device, finalized, rfl⟩, ?_, rfl⟩
      exact Proc.returns_modify_bind_iff.2 (Proc.returns_emit_iff.2 ⟨rfl, rfl⟩)

theorem barrier_returns_iff (hwaits : s.waits now = false) (hrunning : s'.stopped = false) :
    (barrier backend idle now).Returns s u s' l ↔ Barrier backend idle now s s' l := by
  rw [barrier_cases hwaits, or_iff_left]
  rintro ⟨⟩
  simp at hrunning

theorem processDevice_kept {epoch : ℕ} (h : (processDevice backend now epoch).Returns s u s' l) :
    s'.decoders = s.decoders ∧ s'.lastReset = s.lastReset ∧ s'.resets = s.resets ∧
      s'.device.nextBoundary ≠ some now := by
  obtain ⟨⟨device, cores⟩, hprocess, rfl⟩ := Proc.returns_zoom_iff.1 h
  refine ⟨rfl, rfl, rfl, fun hnext => ?_⟩
  have hmem : now ∈ device.boundaries := ExtTreeMap.minKey?_mem hnext
  obtain ⟨hnone, rfl⟩ | ⟨-, hframe⟩ := ControlElectronics.process_frame hprocess
  · rw [ExtTreeMap.mem_iff_isSome_getElem?, hnone] at hmem
    simp at hmem
  · simp only [ControlElectronics.frame, ControlElectronics.complete, Prod.mk.injEq] at hframe
    rw [hframe.2.2.1] at hmem
    simp at hmem

/-- Advancing keeps what only the methods change, and applies the reset. -/
theorem Advances.control (h : Advances backend now s s' l) :
    s'.control = s.control ∧ (now ∈ s.resets → s'.lastReset = some now) := by
  cases h with
  | @intro decoders reset s₁ s₂ l₁ l₂ l₃ stepped asked processed =>
    have hasked := resetAt_returns asked
    have hprocessed : s'.outside = s₁.outside := by
      split at processed
      · exact keeps_processDevice.returns processed
      · rw [processed.1]
    simp only [outside, Prod.mk.injEq] at hprocessed
    obtain ⟨hcontrol, -, hlast⟩ := hprocessed
    exact ⟨hcontrol.trans hasked.control, fun hmem => hlast.trans (hasked.lastReset hmem)⟩

/-- To advance once more on the tick changes nothing. -/
theorem Advances.again (h : Advances backend now s s' l) (wake : Option ℕ) :
    Advances backend now { s' with wake } { s' with wake } [] := by
  obtain ⟨hcontrol, hlast⟩ := h.control
  have hresets : s'.resets = s.resets := congrArg Control.resets hcontrol
  cases h with
  | @intro decoders reset s₁ s₂ l₁ l₂ l₃ stepped asked processed =>
    have hasked := resetAt_returns asked
    obtain ⟨hdecoders, hsame, hnext⟩ : s'.decoders = s₁.decoders ∧ s'.lastReset = s₁.lastReset ∧
        (reset = false → s'.device.nextBoundary ≠ some now) := by
      split at processed
      · obtain ⟨hdecoders, hsame, -, hnext⟩ := processDevice_kept processed
        exact ⟨hdecoders, hsame, fun _ => hnext⟩
      · rename_i hnot
        obtain ⟨rfl, -⟩ := processed
        exact ⟨rfl, rfl, fun hreset hnext => hnot ⟨hreset, hnext⟩⟩
    refine @Advances.intro β backend now _ s'.decoders reset { s' with wake } { s' with wake } [] [] []
      ?_ ?_ ?_
    · -- The decoders have been stepped, or reset and so not to be stepped.
      split
      · exact ⟨rfl, rfl⟩
      · rename_i hnew
        change s'.lastReset ≠ some now at hnew
        have hsettled : DecoderSystem.Settled now s'.decoders := by
          cases hasked with
          | none hmem =>
            rw [hsame] at hnew
            rw [if_neg hnew] at stepped
            rw [hdecoders]
            exact DecoderSystem.settled_of_step stepped
          | applied hmem last => exact absurd (hsame.trans last) hnew
          | applies hmem last cores reset => exact absurd hsame hnew
        exact hsettled.step
    · by_cases hmem : now ∈ s.resets
      · obtain rfl : reset = true := hasked.mem_iff.1 hmem
        refine resetAt_applied ?_ (hlast hmem)
        change now ∈ s'.resets
        rwa [hresets]
      · obtain rfl : reset = false := by
          rw [← Bool.not_eq_true]
          exact mt hasked.mem_iff.2 hmem
        refine resetAt_none ?_
        change now ∉ s'.resets
        rwa [hresets]
    · rw [if_neg fun h => hnext h.1 h.2]
      exact ⟨rfl, rfl⟩

/-- A barrier keeps everything but the tick of the next wakeup, and applies the reset. -/
theorem Barrier.control (h : Barrier backend idle now s s' l) :
    (∃ wake, s'.control = { s.control with wake }) ∧ (now ∈ s.resets → s'.lastReset = some now) := by
  cases h with
  | @intro s₁ l advances goesOn watchdog later =>
    obtain ⟨hcontrol, hlast⟩ := advances.control
    refine ⟨⟨some (s₁.nextWake now), ?_⟩, hlast⟩
    rw [← hcontrol]
    rfl

/-- A barrier leaves nothing to be done on the tick. -/
theorem Barrier.again (h : Barrier backend idle now s s' l) : Barrier backend idle now s' s' [] := by
  cases h with
  | @intro s₁ l advances goesOn watchdog later =>
    exact @Barrier.intro β backend idle now _ { s₁ with wake := some (s₁.nextWake now) } []
      (advances.again _) goesOn watchdog later

/-! ## One activation -/

theorem fail_stops (f : Fault) :
    ∃ s' l, (fail now f).Returns s () s' l ∧ s'.stopped = true := by
  by_cases hstopped : s.stopped = true
  · exact ⟨s, [], by simp [fail, hstopped], hstopped⟩
  · refine ⟨{ s with fault := some f, stopped := true },
      [{ tick := now, epoch := s.epoch, kind := .fault, operation := f.code.name
         detail := f.message }], ?_, rfl⟩
    simp only [fail, Proc.returns_get_bind_iff, hstopped, Bool.false_eq_true, if_false]
    exact Proc.returns_set_bind_iff.2 (Proc.returns_emit_iff.2 ⟨rfl, rfl⟩)

/-- An activation ends in what its method has done, or it stops the simulator. -/
theorem activate_cases (backend : QuantumBackend β) (now : ℕ) (a : Activation)
    (h : s.stopped = false) : ∃ launched s' l,
    (activate backend now a).Returns s launched s' l ∧
      (s'.stopped = true ∨ (body backend now a).Returns s launched s' l) := by
  simp only [activate, Proc.returns_get_bind_iff, h, Bool.false_eq_true, if_false]
  rcases hbody : body backend now a s with ⟨f | launched, s₁, l₁⟩
  · obtain ⟨s', l, hfail, hstopped⟩ : ∃ s' l, (fail now f).Returns s₁ () s' l ∧ s'.stopped = true :=
      fail_stops f
    refine ⟨[], s', l₁ ++ (l ++ []), Proc.returns_handle_iff.2 (.inr ⟨f, s₁, l₁, _, hbody, ?_, rfl⟩),
      .inl hstopped⟩
    exact Proc.returns_bind_iff.2 ⟨(), s', l, [], hfail, Proc.returns_pure_iff.2 ⟨rfl, rfl, rfl⟩, rfl⟩
  · exact ⟨launched, s₁, l₁, Proc.returns_handle_iff.2 (.inl hbody), .inr hbody⟩

/-- While the simulator goes on, an activation is what its method does. -/
theorem body_of_activate (hrunning : s.stopped = false)
    (h : (activate backend now a).Returns s launched s' l) (hrunning' : s'.stopped = false) :
    (body backend now a).Returns s launched s' l := by
  obtain ⟨launched₁, s₁, l₁, hactivate, hcases⟩ :=
    activate_cases backend now a hrunning
  have hsame := hactivate.symm.trans h
  simp only [Outcome.mk.injEq, Except.ok.injEq] at hsame
  obtain ⟨rfl, rfl, rfl⟩ := hsame
  rcases hcases with hstopped | hbody
  · simp [hrunning'] at hstopped
  · exact hbody

/-- An activation that changes nothing. -/
def Idles (backend : QuantumBackend β) (now : ℕ) (s : Simulator β) (a : Activation) : Prop :=
  (activate backend now a).Returns s [] s []

theorem idles_of_stopped (h : s.stopped = true) : Idles backend now s a := by
  simp [Idles, activate, h]

theorem activate_of_body (hrunning : s.stopped = false)
    (h : (body backend now a).Returns s launched s' l) :
    (activate backend now a).Returns s launched s' l := by
  rw [activate, Proc.returns_get_bind_iff, if_neg (by simp [hrunning])]
  exact Proc.returns_handle_iff.2 (.inl h)

/-- A wakeup changes nothing when the reset of the tick has been applied. -/
theorem idles_wakeup (hrunning : s.stopped = false) (h : now ∈ s.resets → s.lastReset = some now) :
    Idles backend now s .wakeup := by
  have hreset : ∃ reset, (resetAt backend now).Returns s reset s [] := by
    by_cases hmem : now ∈ s.resets
    · exact ⟨true, resetAt_applied hmem (h hmem)⟩
    · exact ⟨false, resetAt_none hmem⟩
  obtain ⟨reset, hreset⟩ := hreset
  have hpure : (pure () : Sim (Simulator β) Unit).Returns s () s [] :=
    Proc.returns_pure_iff.2 ⟨rfl, rfl, rfl⟩
  have hwakeup : (wakeup backend now).Returns s () s [] :=
    Proc.returns_bind_iff.2 ⟨reset, s, [], [], hreset, hpure, rfl⟩
  exact activate_of_body hrunning <| Proc.returns_bind_iff.2
    ⟨(), s, [], [], hwakeup, Proc.returns_pure_iff.2 ⟨rfl, rfl, rfl⟩, rfl⟩

theorem idles_barrier_of_waits (hrunning : s.stopped = false) (h : s.waits now = true) :
    Idles backend now s (.barrier idle) :=
  activate_of_body hrunning (body_barrier_returns_iff.2 ⟨barrier_waits h, rfl⟩)

/-- A barrier keeps what the methods keep, whether it has waited or not. -/
theorem barrier_control (h : (barrier backend idle now).Returns s u s' l)
    (hrunning' : s'.stopped = false) : (∃ wake, s'.control = { s.control with wake }) ∧
      ((now ∈ s.resets → s.lastReset = some now) → now ∈ s.resets → s'.lastReset = some now) := by
  cases hwaits : s.waits now with
  | true =>
    have hsame := (barrier_waits hwaits).symm.trans h
    simp only [Outcome.mk.injEq] at hsame
    obtain ⟨-, rfl, -⟩ := hsame
    exact ⟨⟨s.control.wake, rfl⟩, id⟩
  | false =>
    obtain ⟨hcontrol, hlast⟩ := ((barrier_returns_iff hwaits hrunning').1 h).control
    exact ⟨hcontrol, fun _ => hlast⟩

/-- After a barrier that has waited for nothing, wakeups and barriers change nothing. -/
theorem Barrier.idles (h : Barrier backend idle now s s' l) (hwaits : s.waits now = false)
    (hrunning : s'.stopped = false) (ha : a = .wakeup ∨ a = .barrier idle) :
    Idles backend now s' a := by
  obtain ⟨⟨wake, hcontrol⟩, hlast⟩ := h.control
  rcases ha with rfl | rfl
  · have hresets : s'.resets = s.resets := congrArg Control.resets hcontrol
    exact idles_wakeup hrunning (by rwa [hresets])
  · have hwaits' : s'.waits now = false := by
      rw [← hwaits]
      exact waits_congr hcontrol
    have hagain : (barrier backend idle now).Returns s' () s' [] :=
      (barrier_returns_iff hwaits' hrunning).2 h.again
    exact activate_of_body hrunning (body_barrier_returns_iff.2 ⟨hagain, rfl⟩)

/-! ## The activations of a tick -/

theorem activateAll_cons (h : (activate backend now a).Returns s launched s' l) :
    activateAll backend now (a :: acts) s =
      ⟨(activateAll backend now acts s').result.map (launched ++ ·),
        (activateAll backend now acts s').state, l ++ (activateAll backend now acts s').log⟩ := by
  rcases hrest : activateAll backend now acts s' with ⟨f | later, s₁, l₁⟩
  · exact Proc.raises_bind_iff.2 (.inr ⟨launched, s', l, l₁, h, Proc.raises_bind_iff.2 (.inl hrest),
      rfl⟩)
  · refine Proc.returns_bind_iff.2 ⟨launched, s', l, l₁, h, ?_, rfl⟩
    exact Proc.returns_bind_iff.2
      ⟨later, s₁, l₁, [], hrest, Proc.returns_pure_iff.2 ⟨rfl, rfl, rfl⟩, List.append_nil l₁⟩

theorem activateAll_cons_congr (h : (activate backend now a).Returns s launched s' l)
    (hrest : activateAll backend now acts s' = activateAll backend now rest s') :
    activateAll backend now (a :: acts) s = activateAll backend now (a :: rest) s := by
  rw [activateAll_cons h, activateAll_cons h, hrest]

theorem activateAll_skip (h : Idles backend now s a) :
    activateAll backend now (a :: acts) s = activateAll backend now acts s := by
  rw [activateAll_cons h]
  rcases activateAll backend now acts s with ⟨f | later, s₁, l₁⟩ <;> rfl

/-- Activations that change nothing may be left out at the front. -/
theorem activateAll_append_idles (h : ∀ a ∈ acts, Idles backend now s a) :
    activateAll backend now (acts ++ rest) s = activateAll backend now rest s := by
  induction acts with
  | nil => rfl
  | cons a acts ih =>
    obtain ⟨ha, hacts⟩ := List.forall_mem_cons.1 h
    rw [List.cons_append, activateAll_skip ha, ih hacts]

theorem activateAll_idles (h : ∀ a ∈ acts, Idles backend now s a) :
    activateAll backend now acts s = activateAll backend now [] s := by
  have happend : activateAll backend now (acts ++ []) s = activateAll backend now [] s :=
    activateAll_append_idles h
  rwa [List.append_nil] at happend

/-- What is left of the activations of a tick, up to the last barrier. -/
structure Remaining (now : ℕ) (idle : ℕ → Bool) (s : Simulator β) (acts : List Activation) :
    Prop where
  awaited : ∀ m : Method, m.isEdge = true →
    (acts.map (·.method)).count m = (s.due now m && decide (s.done m ≠ some now)).toNat
  asks : ∀ asked, .barrier asked ∈ acts → asked = idle
  begun : (∀ a ∈ acts.head?, a.method ≠ .barrier) ∨ (now ∈ s.resets → s.lastReset = some now)

/-- The barrier waits for every edge that is left. -/
theorem Remaining.waits (h : Remaining now idle s acts) (ha : a ∈ acts)
    (hedge : a.method.isEdge = true) : s.waits now = true := by
  have hpos : 0 < (acts.map (·.method)).count a.method :=
    List.count_pos_iff.2 (List.mem_map_of_mem ha)
  have hdue : (s.due now a.method && decide (s.done a.method ≠ some now)) = true := by
    by_contra hnot
    rw [Bool.not_eq_true] at hnot
    rw [h.awaited a.method hedge, hnot] at hpos
    simp at hpos
  simp only [Bool.and_eq_true, decide_eq_true_eq] at hdue
  exact waits_iff.2 ⟨a.method, hedge, hdue⟩

theorem Remaining.asked (h : Remaining now idle s acts) (ha : a ∈ acts) (hm : a.method = .barrier) :
    a = .barrier idle := by
  cases a with
  | barrier asked => rw [h.asks asked ha]
  | cpuEdge operations | memoryEdge accesses | tcuEdge | wakeup => simp [Activation.method] at hm

/-- Once the barrier waits for nothing, only wakeups and barriers are left. -/
theorem Remaining.settled (h : Remaining now idle s acts) (hwaits : s.waits now = false) :
    ∀ a ∈ acts, a = .wakeup ∨ a = .barrier idle := by
  intro a ha
  have hedge : a.method.isEdge = false := by
    by_contra hedge
    rw [Bool.not_eq_false] at hedge
    simp [h.waits ha hedge] at hwaits
  by_cases hm : a.method = .barrier
  · exact .inr (h.asked ha hm)
  · cases a with
    | wakeup => exact .inl rfl
    | barrier asked => exact absurd rfl hm
    | cpuEdge operations | memoryEdge accesses | tcuEdge => simp [Activation.method, Method.isEdge] at hedge

theorem Remaining.tail (h : Remaining now idle s (a :: acts)) (hm : a.method ≠ .barrier)
    (hcontrol : s'.control = s.control.stamp now a.method)
    (hlast : now ∈ s.resets → s'.lastReset = some now) : Remaining now idle s' acts := by
  refine ⟨fun m hedge => ?_, fun asked hmem => h.asks asked (List.mem_cons_of_mem a hmem), .inr ?_⟩
  · have hcount := h.awaited m hedge
    have hdue : s'.due now m = s.due now m := by
      rw [due_control, due_control, hcontrol]
      cases hmethod : a.method <;> cases m <;> rfl
    rw [List.map_cons, List.count_cons] at hcount
    rw [hdue]
    by_cases hsame : a.method = m
    · have hdone : s'.done m = some now := by
        rw [done_control, hcontrol, hsame]
        cases m with
        | cpuEdge | memoryEdge | tcuEdge => rfl
        | wakeup | barrier => simp [Method.isEdge] at hedge
      have hle := Bool.toNat_le (s.due now m && decide (s.done m ≠ some now))
      simp only [hsame, beq_self_eq_true, if_true] at hcount
      simp only [hdone, ne_eq, not_true_eq_false, decide_false, Bool.and_false, Bool.toNat_false]
      omega
    · have hdone : s'.done m = s.done m := by
        rw [done_control, done_control, hcontrol]
        cases hmethod : a.method <;> cases m <;> simp_all [Control.stamp, Control.done]
      rw [hdone, ← hcount, if_neg (by simpa using hsame), Nat.add_zero]
  · rwa [resets_of_stamp hcontrol]

/-- A barrier that is left may be left out. -/
theorem Remaining.skip (h : Remaining now idle s (a :: acts)) (hm : a.method = .barrier) :
    (now ∈ s.resets → s.lastReset = some now) ∧ Remaining now idle s acts := by
  have hbegun : now ∈ s.resets → s.lastReset = some now := by
    rcases h.begun with hhead | hlast
    · exact absurd hm (hhead a rfl)
    · exact hlast
  refine ⟨hbegun, fun m hedge => ?_, fun asked hmem => h.asks asked (List.mem_cons_of_mem _ hmem),
    .inr hbegun⟩
  rw [← h.awaited m hedge, List.map_cons, List.count_cons_of_ne]
  rintro rfl
  simp [hm, Method.isEdge] at hedge

/-- A barrier leaves what is left. -/
theorem Remaining.congr (h : Remaining now idle s acts) {wake : Option ℕ}
    (hcontrol : s'.control = { s.control with wake })
    (hlast : now ∈ s.resets → s'.lastReset = some now) : Remaining now idle s' acts := by
  refine ⟨fun m hedge => ?_, h.asks, .inr ?_⟩
  · rw [h.awaited m hedge, due_control, done_control, due_control, done_control, hcontrol]
    cases m with
    | cpuEdge | memoryEdge | tcuEdge => rfl
    | wakeup | barrier => simp [Method.isEdge] at hedge
  · have hresets : s'.resets = s.resets := congrArg Control.resets hcontrol
    rwa [hresets]

theorem Remaining.step (h : Remaining now idle s (a :: acts)) (hrunning' : s'.stopped = false)
    (hbody : (body backend now a).Returns s launched s' l) : Remaining now idle s' acts := by
  by_cases hm : a.method = .barrier
  · obtain ⟨hbegun, hleft⟩ := h.skip hm
    rw [h.asked List.mem_cons_self hm] at hbody
    obtain ⟨⟨wake, hcontrol⟩, hlast⟩ :=
      barrier_control (body_barrier_returns_iff.1 hbody).1 hrunning'
    exact hleft.congr hcontrol (hlast hbegun)
  · obtain ⟨hcontrol, hlast⟩ := body_control hm hbody
    exact h.tail hm hcontrol hlast

/-- The activations that are left may be rid of their barriers but the last. -/
theorem Remaining.coalesce (hrunning : s.stopped = false) (h : Remaining now idle s acts) :
    activateAll backend now (acts ++ [.barrier idle]) s =
      activateAll backend now (acts.filter (·.method ≠ .barrier) ++ [.barrier idle]) s := by
  induction acts generalizing s with
  | nil => rfl
  | cons a acts ih =>
    by_cases hm : a.method = .barrier
    · obtain rfl : a = .barrier idle := h.asked List.mem_cons_self hm
      obtain ⟨hbegun, hleft⟩ := h.skip hm
      rw [List.filter_cons_of_neg (by simp [Activation.method])]
      cases hwaits : s.waits now with
      | true =>
        rw [List.cons_append, activateAll_skip (idles_barrier_of_waits hrunning hwaits)]
        exact ih hrunning hleft
      | false =>
        have hrest := hleft.settled hwaits
        -- Of the other methods only wakeups are left, and the reset has been applied.
        have hright : ∀ a ∈ acts.filter (·.method ≠ .barrier), Idles backend now s a := by
          intro a ha
          obtain ⟨ha, hm⟩ := List.mem_filter.1 ha
          rcases hrest a ha with rfl | rfl
          · exact idles_wakeup hrunning hbegun
          · simp [Activation.method] at hm
        rw [activateAll_append_idles hright]
        obtain ⟨launched, s', l, hactivate, hcases⟩ :=
          activate_cases backend now (.barrier idle) hrunning
        refine activateAll_cons_congr hactivate ?_
        have hleft : ∀ a ∈ acts ++ [.barrier idle], Idles backend now s' a := by
          intro a ha
          have ha : a = .wakeup ∨ a = .barrier idle := by
            rcases List.mem_append.1 ha with ha | ha
            · exact hrest a ha
            · exact .inr (List.mem_singleton.1 ha)
          cases hstopped : s'.stopped with
          | true => exact idles_of_stopped hstopped
          | false =>
            have hbody := body_of_activate hrunning hactivate hstopped
            have hbarrier := (barrier_returns_iff hwaits hstopped).1 (body_barrier_returns_iff.1 hbody).1
            exact hbarrier.idles hwaits hstopped ha
        exact activateAll_idles hleft
    · rw [List.filter_cons_of_pos (by simpa using hm), List.cons_append, List.cons_append]
      obtain ⟨launched, s', l, hactivate, -⟩ :=
        activate_cases backend now a hrunning
      refine activateAll_cons_congr hactivate ?_
      cases hstopped : s'.stopped with
      | true =>
        have hidles : ∀ acts : List Activation,
            activateAll backend now acts s' = activateAll backend now [] s' :=
          fun _ => activateAll_idles fun _ _ => idles_of_stopped hstopped
        exact (hidles _).trans (hidles _).symm
      | false =>
        obtain ⟨hcontrol, hlast⟩ := body_control hm (body_of_activate hrunning hactivate hstopped)
        exact ih hstopped (h.tail hm hcontrol hlast)

/-! ## Runs -/

/-- The last activation of a tick, and what comes before it. -/
theorem activateAll_concat (h : (activateAll backend now (acts ++ [a])).Returns s launched s' l) :
    ∃ before s₁ l₁ last l₂, (activateAll backend now acts).Returns s before s₁ l₁ ∧
      (activate backend now a).Returns s₁ last s' l₂ := by
  induction acts generalizing s launched l with
  | nil =>
    obtain ⟨first, s₁, l₁, l₂, hactivate, hrest, -⟩ := Proc.returns_bind_iff.1 h
    obtain ⟨later, s₂, l₃, l₄, hlater, hpure, -⟩ := Proc.returns_bind_iff.1 hrest
    obtain ⟨-, rfl, -⟩ := Proc.returns_pure_iff.1 hpure
    obtain ⟨-, rfl, -⟩ := Proc.returns_pure_iff.1 hlater
    exact ⟨[], s, [], first, l₁, Proc.returns_pure_iff.2 ⟨rfl, rfl, rfl⟩, hactivate⟩
  | cons b acts ih =>
    obtain ⟨first, s₁, l₁, l₂, hactivate, hrest, -⟩ := Proc.returns_bind_iff.1 h
    obtain ⟨later, s₂, l₃, l₄, hlater, hpure, -⟩ := Proc.returns_bind_iff.1 hrest
    obtain ⟨-, rfl, -⟩ := Proc.returns_pure_iff.1 hpure
    obtain ⟨before, s₃, l₅, last, l₆, hbefore, hlast⟩ := ih hlater
    refine ⟨first ++ before, s₃, l₁ ++ (l₅ ++ []), last, l₆, ?_, hlast⟩
    refine Proc.returns_bind_iff.2 ⟨first, s₁, l₁, _, hactivate, ?_, rfl⟩
    exact Proc.returns_bind_iff.2
      ⟨before, s₃, l₅, [], hbefore, Proc.returns_pure_iff.2 ⟨rfl, rfl, rfl⟩, rfl⟩

theorem activateAll_snoc {first last : List (ℕ × TriggeredEvents)} {s₁ : Simulator β}
    {l₁ l₂ : List TraceEvent} (h : (activateAll backend now acts).Returns s first s₁ l₁)
    (hlast : (activate backend now a).Returns s₁ last s' l₂) :
    (activateAll backend now (acts ++ [a])).Returns s (first ++ last) s' (l₁ ++ l₂) := by
  induction acts generalizing s first l₁ with
  | nil =>
    obtain ⟨rfl, rfl, rfl⟩ := Proc.returns_pure_iff.1 h
    refine Proc.returns_bind_iff.2 ⟨last, s', l₂, [], hlast, ?_, by simp⟩
    exact Proc.returns_bind_iff.2 ⟨[], s', [], [], Proc.returns_pure_iff.2 ⟨rfl, rfl, rfl⟩,
      Proc.returns_pure_iff.2 ⟨by simp, rfl, rfl⟩, rfl⟩
  | cons b acts ih =>
    obtain ⟨now₁, s₂, l₃, l₄, hactivate, hrest, rfl⟩ := Proc.returns_bind_iff.1 h
    obtain ⟨later, s₃, l₅, l₆, hlater, hpure, rfl⟩ := Proc.returns_bind_iff.1 hrest
    obtain ⟨rfl, rfl, rfl⟩ := Proc.returns_pure_iff.1 hpure
    refine Proc.returns_bind_iff.2 ⟨now₁, s₂, l₃, l₅ ++ l₂, hactivate, ?_, by simp⟩
    exact Proc.returns_bind_iff.2 ⟨later ++ last, s', l₅ ++ l₂, [], ih hlater,
      Proc.returns_pure_iff.2 ⟨by simp, rfl, rfl⟩, by simp⟩

theorem running_of_activateAll (h : (activateAll backend now acts).Returns s launched s' l)
    (hrunning : s'.stopped = false) : s.stopped = false := by
  by_contra hstopped
  rw [Bool.not_eq_false] at hstopped
  have hidles : activateAll backend now acts s = activateAll backend now [] s :=
    activateAll_idles fun _ _ => idles_of_stopped hstopped
  obtain ⟨-, rfl, -⟩ := Proc.returns_pure_iff.1 (hidles.symm.trans h)
  simp [hrunning] at hstopped

/-- What each activation preserves while the simulator goes on, a tick does. -/
theorem activateAll_preserves {P : Simulator β → Prop}
    (hstep : ∀ a ∈ acts, ∀ s s' launched l, s.stopped = false → s'.stopped = false →
      (body backend now a).Returns s launched s' l → P s → P s')
    (h : (activateAll backend now acts).Returns s launched s' l) (hrunning : s'.stopped = false)
    (hs : P s) : P s' := by
  induction acts generalizing s launched l with
  | nil =>
    obtain ⟨-, rfl, -⟩ := Proc.returns_pure_iff.1 h
    exact hs
  | cons a acts ih =>
    obtain ⟨first, s₁, l₁, l₂, hactivate, hrest, -⟩ := Proc.returns_bind_iff.1 h
    obtain ⟨later, s₂, l₃, l₄, hlater, hpure, -⟩ := Proc.returns_bind_iff.1 hrest
    obtain ⟨-, rfl, -⟩ := Proc.returns_pure_iff.1 hpure
    obtain ⟨ha, hacts⟩ := List.forall_mem_cons.1 hstep
    have hrunning₁ := running_of_activateAll hlater hrunning
    have hrunning₀ := running_of_activateAll h hrunning
    refine ih hacts hlater (ha s s₁ first l₁ hrunning₀ hrunning₁ ?_ hs)
    exact body_of_activate hrunning₀ hactivate hrunning₁

/-- An edge is seen on the tick only. -/
theorem body_done (hrunning' : s'.stopped = false)
    (h : (body backend now a).Returns s launched s' l) (m : Method) :
    s'.done m = s.done m ∨ s'.done m = some now := by
  by_cases hm : a.method = .barrier
  · rcases body_cases h with ⟨operations, rfl, -⟩ | ⟨accesses, rfl, -⟩ | ⟨rfl, -⟩ | ⟨rfl, -⟩ |
      ⟨asked, rfl, hbarrier⟩
    · simp [Activation.method] at hm
    · simp [Activation.method] at hm
    · simp [Activation.method] at hm
    · simp [Activation.method] at hm
    · obtain ⟨⟨wake, hcontrol⟩, -⟩ := barrier_control hbarrier hrunning'
      left
      rw [done_control, done_control, hcontrol]
      cases m <;> rfl
  · obtain ⟨hcontrol, -⟩ := body_control hm h
    rw [done_control, done_control, hcontrol]
    cases a.method <;> cases m <;> simp [Control.stamp, Control.done]

/-- What each activation preserves while the simulator goes on, a part of a tick does. -/
theorem Remaining.run {P : Simulator β → Prop}
    (hstep : ∀ a s s' launched l, (a.method.isEdge = true → s.waits now = true) →
      (a.method = .barrier → a = .barrier idle) → s'.stopped = false →
        (body backend now a).Returns s launched s' l → P s → P s')
    (h : Remaining now idle s (acts ++ rest))
    (activated : (activateAll backend now acts).Returns s launched s' l)
    (hrunning : s'.stopped = false) (hs : P s) : P s' ∧ Remaining now idle s' rest := by
  induction acts generalizing s launched l with
  | nil =>
    obtain ⟨-, rfl, -⟩ := Proc.returns_pure_iff.1 activated
    exact ⟨hs, h⟩
  | cons a acts ih =>
    obtain ⟨first, s₁, l₁, l₂, hactivate, hrest, -⟩ := Proc.returns_bind_iff.1 activated
    obtain ⟨later, s₂, l₃, l₄, hlater, hpure, -⟩ := Proc.returns_bind_iff.1 hrest
    obtain ⟨-, rfl, -⟩ := Proc.returns_pure_iff.1 hpure
    have hrunning₁ := running_of_activateAll hlater hrunning
    have hbody := body_of_activate (running_of_activateAll activated hrunning) hactivate hrunning₁
    have hmem : a ∈ a :: acts ++ rest := List.mem_cons_self
    exact ih (h.step hrunning₁ hbody) hlater
      (hstep a s s₁ first l₁ (h.waits hmem) (h.asked hmem) hrunning₁ hbody hs)

/-- No edge has been seen after the last tick. -/
theorem done_le_last {last : Option ℕ} (run : SimulatorRun backend last s)
    (hrunning : s.stopped = false) : ∀ m, ∀ t ∈ s.done m, ∃ t' ∈ last, t ≤ t' := by
  induction run with
  | @start fingerprint configs connections state resets reverse maxBatchOperations decoding s s' l
      made started =>
    intro m t ht
    simp [(started_of_make made started).done m] at ht
  | @tick last now idle acts s s' launched l run running next scheduled activated ih =>
    have hstep : ∀ s s' launched l, ∀ a ∈ acts, s'.stopped = false →
        (body backend now a).Returns s launched s' l → (∀ m, ∀ t ∈ s.done m, t ≤ now) →
          ∀ m, ∀ t ∈ s'.done m, t ≤ now := by
      intro s s' launched l a ha hrunning h hle m t ht
      rcases body_done hrunning h m with hdone | hdone
      · exact hle m t (hdone ▸ ht)
      · rw [hdone, Option.mem_some] at ht
        exact ht.ge
    have hle : ∀ m, ∀ t ∈ s.done m, t ≤ now := by
      intro m t ht
      obtain ⟨t', ht', hle⟩ := ih running m t ht
      exact hle.trans (next.later t' ht').le
    have hle' := activateAll_preserves
      (fun a ha s s' launched l _ hrunning' h => hstep s s' launched l a ha hrunning' h) activated hrunning hle
    exact fun m t ht => ⟨now, rfl, hle' m t ht⟩

theorem Scheduled.remaining (scheduled : s.Scheduled now idle acts) {last : Option ℕ}
    (run : SimulatorRun backend last s) (running : s.stopped = false) (next : s.Next last now) :
    Remaining now idle s acts := by
  have hlater : ∀ m, s.done m ≠ some now := by
    intro m hdone
    obtain ⟨t, ht, hle⟩ := done_le_last run running m now hdone
    have := next.later t ht
    omega
  refine ⟨fun m hedge => ?_, scheduled.asks, .inl scheduled.notified⟩
  have hm : m ≠ .barrier := by
    rintro rfl
    simp [Method.isEdge] at hedge
  simp only [scheduled.once m hm, hlater m, ne_eq, not_false_eq_true, decide_true, Bool.and_true]

theorem Remaining.init (h : Remaining now idle s (acts ++ [.barrier idle])) :
    Remaining now idle s acts := by
  refine ⟨fun m hedge => ?_, fun asked ha => h.asks asked (List.mem_append_left _ ha), ?_⟩
  · rw [← h.awaited m hedge, List.map_append, List.count_append]
    cases m with
    | cpuEdge | memoryEdge | tcuEdge => rfl
    | wakeup | barrier => simp [Method.isEdge] at hedge
  · cases acts with
    | nil => exact .inl (by simp)
    | cons a acts => exact h.begun

end Simulator

open Simulator

/-- A tick is its other methods in their order, and then one barrier: the barriers between them
change nothing, and neither do those after one that has waited for nothing. -/
theorem barriers_coalesce {β : Type} {backend : QuantumBackend β} {last : Option ℕ} {now : ℕ}
    {idle : ℕ → Bool} {acts : List Activation} {s : Simulator β}
    (run : SimulatorRun backend last s) (running : s.stopped = false) (next : s.Next last now)
    (scheduled : s.Scheduled now idle acts) :
    activateAll backend now acts s =
      activateAll backend now (acts.filter (·.method ≠ .barrier) ++ [.barrier idle]) s := by
  have hleft := scheduled.remaining run running next
  obtain ⟨before, rfl⟩ := scheduled.last
  rw [hleft.init.coalesce running, List.filter_append]
  simp [Activation.method]

namespace Simulator
open Std (ExtTreeMap)

/-! ## Ticks that can be evaluated -/

section Evaluation
variable {β : Type} {backend : QuantumBackend β} {s : Simulator β} {now : ℕ} {idle : ℕ → Bool}
  {acts : List Activation} {last : Option ℕ}

/-- Nothing is under way in the decoders. -/
def asleep (s : Simulator β) : Bool :=
  s.decoders.requests.isEmpty && s.decoders.resetRequest.isNone && s.decoders.jobs.isEmpty

theorem asleep_iff : s.asleep = true ↔
    s.decoders.requests = [] ∧ s.decoders.resetRequest = none ∧ s.decoders.jobs = [] := by
  simp [asleep, and_assoc]

/-- The first boundary of the device, read off the list of all. -/
def firstBoundary (s : Simulator β) : Option ℕ := s.device.boundaries.keys.head?

/-- When the simulator wakes up next, if the decoders are asleep. -/
def firstWake (s : Simulator β) (now : ℕ) : ℕ :=
  (s.firstBoundary.toList ++ (s.resets.find? (now < ·)).toList).foldl min s.profile.watchdog

theorem nextBoundary_eq_firstBoundary : s.device.nextBoundary = s.firstBoundary :=
  ExtTreeMap.minKey?_eq_head?_keys

theorem nextWake_eq_firstWake (h : s.asleep = true) : s.nextWake now = s.firstWake now := by
  obtain ⟨hrequests, hreset, hjobs⟩ := asleep_iff.1 h
  have hdecoders : s.decoders.nextBoundary now = none := by
    simp [DecoderSystem.nextBoundary, hrequests, hreset, hjobs]
  rw [nextWake, firstWake, hdecoders, nextBoundary_eq_firstBoundary]
  rfl

variable (backend now)

/-- What a barrier advances to, if it waits for nothing and the decoders are asleep. -/
def advanced (s : Simulator β) : Outcome Fault TraceEvent (Simulator β) Unit :=
  if now ∉ s.resets ∧ s.firstBoundary = some now then processDevice backend now s.epoch s
  else ⟨.ok (), s, []⟩

/-- What a barrier leaves that goes on. -/
def awaiting (s : Simulator β) : Simulator β :=
  { (advanced backend now s).state with wake := some ((advanced backend now s).state.firstWake now) }

/-- What a tick leaves of which only the last activation is a barrier. -/
def ticked (acts : List Activation) (s : Simulator β) : Simulator β :=
  awaiting backend now (activateAll backend now acts s).state

/-- What can be evaluated of a barrier that waits for nothing. -/
@[mk_iff]
structure Evaluates (s : Simulator β) : Prop where
  waits : s.waits now = false
  reset : now ∈ s.resets → s.lastReset = some now
  asleep : s.asleep = true
  returns : (advanced backend now s).result.toOption.isSome = true

/-- The barrier goes on. -/
@[mk_iff]
structure GoesOn (idle : ℕ → Bool) (s : Simulator β) : Prop where
  evaluates : Evaluates backend now s
  running : s.stopped = false
  goesOn : (advanced backend now s).state.drained idle = false
  watchdog : now < (advanced backend now s).state.profile.watchdog
  later : now < (advanced backend now s).state.firstWake now

/-- The tick is the next one, and the activations are those of its methods but the barrier. -/
@[mk_iff]
structure Due (last : Option ℕ) (acts : List Activation) (s : Simulator β) : Prop where
  later : ∀ t ∈ last, t < now
  due : ∃ m ∈ [Method.cpuEdge, .memoryEdge, .tcuEdge, .wakeup], s.due now m = true
  first : ∀ u < now, (∀ t ∈ last, t < u) →
    ∀ m ∈ [Method.cpuEdge, .memoryEdge, .tcuEdge, .wakeup], s.due u m = false
  once : ∀ m ∈ [Method.cpuEdge, .memoryEdge, .tcuEdge, .wakeup],
    (acts.map (·.method)).count m = (s.due now m).toNat
  others : ∀ a ∈ acts, a.method ≠ .barrier

/-- A tick after which the simulation goes on. -/
@[mk_iff]
structure Ticks (idle : ℕ → Bool) (last : Option ℕ) (acts : List Activation) (s : Simulator β) : Prop
    where
  running : s.stopped = false
  due : Due now last acts s
  returns : (activateAll backend now acts s).result.toOption.isSome = true
  goesOn : GoesOn backend now idle (activateAll backend now acts s).state

instance : Decidable (Evaluates backend now s) :=
  decidable_of_iff' _ (evaluates_iff backend now s)

instance : Decidable (GoesOn backend now idle s) :=
  decidable_of_iff' _ (goesOn_iff backend now idle s)

instance : Decidable (Due now last acts s) :=
  decidable_of_iff' _ (due_iff now last acts s)

instance : Decidable (Ticks backend now idle last acts s) :=
  decidable_of_iff' _ (ticks_iff backend now idle last acts s)

/-- Ticks one after the other, with the activations of each but the barrier. -/
def TicksAll (idle : ℕ → Bool) :
    Option ℕ → List (ℕ × List Activation) → Simulator β → Prop
  | _, [], _ => True
  | last, tick :: rest, s => Ticks backend tick.1 idle last tick.2 s ∧
      TicksAll idle (some tick.1) rest (ticked backend tick.1 tick.2 s)

instance decidableTicksAll : ∀ last ticks s, Decidable (TicksAll backend idle last ticks s)
  | _, [], _ => .isTrue trivial
  | last, tick :: rest, s =>
      haveI := decidableTicksAll (some tick.1) rest (ticked backend tick.1 tick.2 s)
      inferInstanceAs (Decidable (Ticks backend tick.1 idle last tick.2 s ∧ _))

/-- What these ticks leave. -/
def tickedAll (ticks : List (ℕ × List Activation)) (s : Simulator β) : Simulator β :=
  ticks.foldl (fun s tick => ticked backend tick.1 tick.2 s) s

variable {backend now}

theorem Evaluates.advances (h : Evaluates backend now s) :
    Advances backend now s (advanced backend now s).state (advanced backend now s).log := by
  have hsettled : DecoderSystem.Settled now s.decoders := by
    obtain ⟨hrequests, hreset, hjobs⟩ := asleep_iff.1 h.asleep
    exact (DecoderSystem.sleeps_of_empty hrequests hreset hjobs).2 now le_rfl (by simp)
  have hreturns := h.returns
  refine @Advances.intro β backend now s s.decoders (now ∈ s.resets) s (advanced backend now s).state
    [] [] (advanced backend now s).log ?_ ?_ ?_
  · split
    · exact ⟨rfl, rfl⟩
    · exact hsettled.step
  · by_cases hmem : now ∈ s.resets
    · rw [decide_eq_true hmem]
      exact resetAt_applied hmem (h.reset hmem)
    · rw [decide_eq_false hmem]
      exact resetAt_none hmem
  · simp only [decide_eq_false_iff_not, nextBoundary_eq_firstBoundary]
    unfold advanced at hreturns ⊢
    split
    · rw [if_pos ‹_›] at hreturns
      exact Proc.returns_of_isSome hreturns
    · exact ⟨rfl, rfl⟩

/-- The decoders are still asleep. -/
theorem Evaluates.asleep_advanced (h : Evaluates backend now s) :
    (advanced backend now s).state.asleep = true := by
  have hreturns := h.returns
  have hasleep := asleep_iff.1 h.asleep
  rw [asleep_iff]
  unfold advanced at hreturns ⊢
  split
  · rw [if_pos ‹_›] at hreturns
    rwa [(processDevice_kept (Proc.returns_of_isSome hreturns)).1]
  · exact hasleep

theorem GoesOn.returns_barrier (h : GoesOn backend now idle s) :
    (barrier backend idle now).Returns s () (awaiting backend now s) (advanced backend now s).log := by
  have hasleep := h.evaluates.asleep_advanced
  rw [awaiting, ← nextWake_eq_firstWake hasleep]
  refine (barrier_cases h.evaluates.waits).2
    (.inl (.intro h.evaluates.advances h.goesOn h.watchdog ?_))
  rw [nextWake_eq_firstWake hasleep]
  exact h.later

theorem Due.next (h : Due now last acts s) : s.Next last now where
  later := h.later
  due := by
    obtain ⟨m, -, hm⟩ := h.due
    exact ⟨m, hm⟩
  first := by
    intro u hu hlater m
    cases m with
    | barrier => rfl
    | cpuEdge | memoryEdge | tcuEdge | wakeup => exact h.first u hu hlater _ (by simp)

theorem Due.scheduled (h : Due now last acts s) (idle : ℕ → Bool) :
    s.Scheduled now idle (acts ++ [.barrier idle]) where
  once := by
    intro m hm
    have hcount : ((acts ++ [Activation.barrier idle]).map Activation.method).count m =
        (acts.map Activation.method).count m := by
      rw [List.map_append, List.count_append, List.map_singleton, List.count_singleton]
      simp [Activation.method, hm.symm]
    rw [hcount]
    cases m with
    | barrier => exact absurd rfl hm
    | cpuEdge | memoryEdge | tcuEdge | wakeup => exact h.once _ (by simp)
  asks := by
    intro asked hasked
    rcases List.mem_append.1 hasked with hasked | hasked
    · exact absurd rfl (h.others _ hasked)
    · exact (Activation.barrier.inj (List.mem_singleton.1 hasked))
  notified := by
    intro a ha
    cases acts with
    | nil =>
      -- Some method is due, so that there are activations before the barrier.
      obtain ⟨m, hm, hdue⟩ := h.due
      have hcount := h.once m hm
      simp [hdue] at hcount
    | cons first rest =>
      obtain rfl := Option.some.inj ha
      exact h.others _ List.mem_cons_self
  last := ⟨acts, rfl⟩

theorem Ticks.activated (h : Ticks backend now idle last acts s) : ∃ launched l,
    (activateAll backend now (acts ++ [.barrier idle])).Returns s launched (ticked backend now acts s) l := by
  obtain ⟨launched, hlaunched⟩ := Option.isSome_iff_exists.1 h.returns
  have hbody := body_barrier_returns_iff.2 ⟨h.goesOn.returns_barrier, rfl⟩
  exact ⟨launched ++ [], _, activateAll_snoc (Proc.returns_of_result hlaunched)
    (activate_of_body h.goesOn.running hbody)⟩

/-- What is evaluated of a tick is a tick of the run. -/
theorem Ticks.run (h : Ticks backend now idle last acts s) (run : SimulatorRun backend last s) :
    SimulatorRun backend (some now) (ticked backend now acts s) := by
  obtain ⟨launched, l, activated⟩ := h.activated
  exact .tick run h.running h.due.next (h.due.scheduled idle) activated

theorem TicksAll.run {ticks : List (ℕ × List Activation)} (h : TicksAll backend idle last ticks s)
    (run : SimulatorRun backend last s) :
    SimulatorRun backend (ticks.foldl (fun _ tick => some tick.1) last) (tickedAll backend ticks s) := by
  induction ticks generalizing last s with
  | nil => exact run
  | cons tick rest ih => exact ih h.2 (h.1.run run)

end Evaluation

section Probe

/-- A profile whose clocks start after the fifth tick. -/
def lateClocks : Profile :=
  { oneGate with
    cpu := { period := 10, phase := 7 }, tcu := { period := 20, phase := 9 }, start := 1009 }

/-- A core with a reset on the fifth tick. -/
def makeLate : Except Fault (Simulator (List BackendOperation)) :=
  make (tape false) (fun _ => "") [{ id := 0, profile := lateClocks }] [] [] [5] false 1024
    { decoders := [] }

theorem isSome_late : makeLate.toOption.isSome = true := by decide +kernel

def late : Simulator (List BackendOperation) := makeLate.toOption.get isSome_late

/-- The start of a simulator that wakes up when it first can. -/
theorem simulatorRun_started {backend : QuantumBackend β} {fingerprint : Profile → String}
    {configs : List CoreConfig} {connections : List SyncConnection} {state : β} {resets : List ℕ}
    {reverse : Bool} {maxBatchOperations : ℕ} {decoding : DecoderSystemConfig} {s : Simulator β}
    (made : make backend fingerprint configs connections state resets reverse maxBatchOperations
      decoding = .ok s)
    (hasleep : s.asleep = true) (later : 0 < s.firstWake 0) :
    SimulatorRun backend none { s with wake := some (s.firstWake 0) } := by
  rw [← nextWake_eq_firstWake hasleep] at later ⊢
  have hwake : (scheduleWakeup 0).Returns s () { s with wake := some (s.nextWake 0) } [] :=
    scheduleWakeup_returns_iff.2 ⟨later, rfl, rfl⟩
  have hstart : (start fingerprint).Returns s () { s with wake := some (s.nextWake 0) }
      [{ tick := 0, epoch := s.epoch, kind := .sessionStarted, detail := fingerprint s.profile }] :=
    Proc.returns_get_bind_iff.2 (Proc.returns_emit_bind_iff.2 ⟨[], hwake, rfl⟩)
  exact .start made hstart

/-- The simulator after the fifth tick. -/
def lateReset : Simulator (List BackendOperation) :=
  ticked (tape false) 5 [.wakeup] { late with wake := some (late.firstWake 0) }

theorem simulatorRun_lateReset : SimulatorRun (tape false) (some 5) lateReset := by
  have hstart : late.asleep = true ∧ 0 < late.firstWake 0 := by decide +kernel
  have htick : Ticks (tape false) 5 (fun _ => false) none [.wakeup]
      { late with wake := some (late.firstWake 0) } := by decide +kernel
  exact htick.run (simulatorRun_started (Except.eq_ok_get isSome_late) hstart.1 hstart.2)

/-- The edges of the next tick after the reset. -/
def lateEdges : List Activation :=
  [.memoryEdge fun _ => [], .barrier fun _ => false, .cpuEdge fun _ => [], .barrier fun _ => false,
    .barrier fun _ => false]

/-- What is evaluated of the simulator after the fifth tick. -/
theorem lateReset_facts : lateReset.stopped = false ∧ lateReset.epoch = 2 ∧
    Due 7 (some 5) [.memoryEdge fun _ => [], .cpuEdge fun _ => []] lateReset := by
  decide +kernel

theorem scheduled_lateReset : lateReset.Scheduled 7 (fun _ => false) lateEdges where
  once := by
    intro m hm
    rw [← (lateReset_facts.2.2.scheduled fun _ => false).once m hm]
    cases m with
    | barrier => exact absurd rfl hm
    | cpuEdge | memoryEdge | tcuEdge | wakeup => rfl
  asks := by simp [lateEdges]
  notified := by simp [lateEdges, Activation.method]
  last := ⟨lateEdges.dropLast, rfl⟩

theorem barriers_coalesce_lateReset : activateAll (tape false) 7 lateEdges lateReset =
    activateAll (tape false) 7
      [.memoryEdge fun _ => [], .cpuEdge fun _ => [], .barrier fun _ => false] lateReset :=
  barriers_coalesce simulatorRun_lateReset lateReset_facts.1 lateReset_facts.2.2.next
    scheduled_lateReset

end Probe

end Simulator
end Qsbit

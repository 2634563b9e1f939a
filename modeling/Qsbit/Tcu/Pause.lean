import Qsbit.Tcu.Run

/-!
# The pause arithmetic of the timing control unit

The unit computes its cycle from its start and from the ticks it has been paused,
with two unsigned subtractions that nothing checks. Neither of them wraps: the
start is an edge, the ticks paused are whole periods, and no edge before the
start is paused. Steps may leave out any edges, and may fault.

## Main definitions

* `CycleRecord`, `CycleRun` — what the unit computes on each edge of a run.
* `PauseArithmetic` — what holds on every edge, and from each edge to the later ones.
* `Paced` — the invariant: every later edge is `Timed` with the same pauses.
* `pause_arithmetic` — every run from a started unit has it.
-/
namespace Qsbit
namespace TcuCycleModel

/-- What the unit reads and computes on an edge, and whether its step is completed. -/
structure CycleRecord where
  tick : ℕ
  start : ℕ
  pausedTicks : ℕ
  /-- The unsigned `now - start_ - paused_ticks_`. -/
  elapsed : ℕ
  cycle : ℕ
  paused : Bool
  completed : Bool
  deriving DecidableEq, Repr

def cycleRecord (m : TcuCycleModel) (now : ℕ) (synchronizationPaused completed : Bool) :
    CycleRecord :=
  { tick := now
    start := m.start
    pausedTicks := m.pausedTicks
    elapsed := wrapSub (wrapSub now m.start) m.pausedTicks
    cycle := (m.currentTimingState now synchronizationPaused).cycle
    paused := (m.currentTimingState now synchronizationPaused).pause.paused
    completed }

/-- Steps on increasing edges, of which any may be left out. The stream may be closed between
any two of them. -/
inductive CycleRun (m₀ : TcuCycleModel) : List CycleRecord → TcuCycleModel → Prop
  | start : CycleRun m₀ [] m₀
  | step {records : List CycleRecord} {m m' : TcuCycleModel} (run : CycleRun m₀ records m)
      {χ : Type} {now epoch : ℕ} {candidate : Option TimingEvents} {results : List Completion}
      {preflight : TriggeredEvents → Except Fault Unit} {sp : Bool}
      {syncPreflight : Option (List ℕ → Sim χ Unit)} {c c' : χ} {out : TcuOutput}
      {l : List TraceEvent} (later : ∀ r ∈ records.getLast?, r.tick < now)
      (h : (step now epoch candidate results preflight sp syncPreflight).Returns (m, c) out
        (m', c') l) : CycleRun m₀ (records ++ [cycleRecord m now sp true]) m'
  | fault {records : List CycleRecord} {m m' : TcuCycleModel} (run : CycleRun m₀ records m)
      {χ : Type} {now epoch : ℕ} {candidate : Option TimingEvents} {results : List Completion}
      {preflight : TriggeredEvents → Except Fault Unit} {sp : Bool}
      {syncPreflight : Option (List ℕ → Sim χ Unit)} {c c' : χ} {f : Fault}
      {l : List TraceEvent} (later : ∀ r ∈ records.getLast?, r.tick < now)
      (edge : m.profile.clock.edge now)
      (h : (step now epoch candidate results preflight sp syncPreflight).Raises (m, c) f
        (m', c') l) : CycleRun m₀ (records ++ [cycleRecord m now sp false]) m'
  | close {records : List CycleRecord} {m : TcuCycleModel} (run : CycleRun m₀ records m)
      (terminal : EndOfStream) : CycleRun m₀ records (close terminal m).state

/-- The cycle of an edge is computed without wrapping, it never decreases, and from an edge to
the next it moves on unless the edge is paused. -/
structure PauseArithmetic (period : ℕ) (records : List CycleRecord) : Prop where
  paused : ∀ r ∈ records, r.start ≤ r.tick →
    period ∣ r.pausedTicks ∧ r.pausedTicks ≤ r.tick - r.start
  elapsed : ∀ r ∈ records, r.start ≤ r.tick →
    r.elapsed = r.tick - r.start - r.pausedTicks ∧ period ∣ r.elapsed ∧
      r.cycle * period = r.elapsed
  monotone : (records.map (·.cycle)).Pairwise (· ≤ ·)
  consecutive : ∀ pre r s post, records = pre ++ r :: s :: post → r.start ≤ r.tick →
    r.completed = true → s.tick = r.tick + period →
      s.cycle = if r.paused then r.cycle else r.cycle + 1

/-! ## Edges that are left out -/

namespace Timed
variable {m : TcuCycleModel} {now next i j s k : ℕ}

/-- Edges that are left out are neither cycles lost nor pauses. -/
theorem later (h : Timed m now i s k) (hij : i ≤ j)
    (hnext : next = m.profile.clock.phase + m.profile.clock.period * j) : Timed m next j s k where
  now_eq := hnext
  start_eq := h.start_eq
  paused_eq := h.paused_eq
  lag := by
    have := h.lag
    omega

/-- Also before the start, when nothing has been paused, the cycle is a difference. -/
theorem cycle_sub (h : Timed m now i s k) (hp : 0 < m.profile.clock.period) (sp : Bool) :
    (m.currentTimingState now sp).cycle = i - s - k := by
  rcases Nat.lt_or_ge i s with hlt | hle
  · have hstart : ¬ m.start ≤ now := by
      rw [h.start_le_iff hp]
      omega
    simp only [currentTimingState, hstart, decide_false, Bool.false_eq_true, if_false]
    omega
  · exact h.cycle_eq hp hle sp

/-- The two subtractions are exact. -/
theorem elapsed_eq (h : Timed m now i s k) (hp : 0 < m.profile.clock.period)
    (hle : m.start ≤ now) :
    m.pausedTicks ≤ now - m.start ∧
      wrapSub (wrapSub now m.start) m.pausedTicks = now - m.start - m.pausedTicks ∧
      now - m.start - m.pausedTicks = (i - s - k) * m.profile.clock.period := by
  have hs : s ≤ i := (h.start_le_iff hp).1 hle
  have hk : k ≤ i - s := by
    have := h.lag
    omega
  have helapsed : now - m.start = m.profile.clock.period * (i - s) := by
    rw [h.now_eq, h.start_eq, Nat.mul_sub]
    omega
  have hpaused : m.pausedTicks ≤ now - m.start := by
    rw [helapsed, h.paused_eq]
    exact Nat.mul_le_mul_left _ hk
  refine ⟨hpaused, ?_, ?_⟩
  · rw [wrapSub_of_le hle, wrapSub_of_le hpaused]
  · rw [helapsed, h.paused_eq, ← Nat.mul_sub, Nat.mul_comm]

end Timed

/-! ## The invariant of a run -/

namespace PauseArithmetic
variable {period : ℕ} {records : List CycleRecord} {x : CycleRecord}

/-- One more edge. -/
theorem concat (h : PauseArithmetic period records)
    (hpaused : x.start ≤ x.tick → period ∣ x.pausedTicks ∧ x.pausedTicks ≤ x.tick - x.start)
    (helapsed : x.start ≤ x.tick → x.elapsed = x.tick - x.start - x.pausedTicks ∧
      period ∣ x.elapsed ∧ x.cycle * period = x.elapsed)
    (hmonotone : ∀ r ∈ records, r.cycle ≤ x.cycle)
    (hlast : ∀ r ∈ records.getLast?, r.start ≤ r.tick → r.completed = true →
      x.tick = r.tick + period → x.cycle = if r.paused then r.cycle else r.cycle + 1) :
    PauseArithmetic period (records ++ [x]) where
  paused := by
    intro r hr
    rcases List.mem_append.1 hr with hr | hr
    · exact h.paused r hr
    · rw [List.mem_singleton.1 hr]
      exact hpaused
  elapsed := by
    intro r hr
    rcases List.mem_append.1 hr with hr | hr
    · exact h.elapsed r hr
    · rw [List.mem_singleton.1 hr]
      exact helapsed
  monotone := by
    rw [List.map_append, List.pairwise_append]
    refine ⟨h.monotone, List.pairwise_singleton .., fun a ha b hb => ?_⟩
    obtain ⟨r, hr, rfl⟩ := List.mem_map.1 ha
    rw [List.mem_singleton.1 hb]
    exact hmonotone r hr
  consecutive := by
    intro pre r y post hsplit
    rcases List.eq_nil_or_concat post with rfl | ⟨init, last, rfl⟩
    · -- The new edge is the second of the two.
      have hends : records ++ [x] = (pre ++ [r]) ++ [y] := by rw [hsplit, List.append_assoc]; rfl
      obtain ⟨hrecords, hy⟩ := List.append_inj' hends rfl
      obtain rfl : x = y := by simpa using hy
      exact hlast r (by simp [hrecords])
    · have hends : records ++ [x] = (pre ++ r :: y :: init) ++ [last] := by
        rw [hsplit, List.concat_eq_append, List.append_assoc]
        rfl
      obtain ⟨hrecords, -⟩ := List.append_inj' hends rfl
      exact h.consecutive pre r y init hrecords

end PauseArithmetic

/-- From edge number `i` on the unit has been paused for `k` edges since edge number `s`. The next
edge of the run is not earlier, and its cycle goes on from those recorded. -/
structure Paced (m₀ m : TcuCycleModel) (records : List CycleRecord) (t i s k : ℕ) : Prop where
  profile : m.profile = m₀.profile
  timed : Timed m t i s k
  ahead : ∀ now j, now = m.profile.clock.phase + m.profile.clock.period * j →
    (∀ r ∈ records.getLast?, r.tick < now) → i ≤ j
  reached : ∀ r ∈ records, r.cycle ≤ i - s - k
  last : ∀ r ∈ records.getLast?, r.start ≤ r.tick → r.completed = true →
    r.tick + m.profile.clock.period = t ∧ i - s - k = if r.paused then r.cycle else r.cycle + 1
  arithmetic : PauseArithmetic m.profile.clock.period records

namespace Paced
variable {m₀ m m' : TcuCycleModel} {records : List CycleRecord} {now t i j s k : ℕ}

theorem start (hstart : m₀.profile.clock.edge m₀.start) (hpaused : m₀.pausedTicks = 0) :
    ∃ s, Paced m₀ m₀ [] m₀.profile.clock.phase 0 s 0 := by
  obtain ⟨s, hs⟩ := Clock.edge_iff.1 hstart
  refine ⟨s, rfl, ⟨by simp, hs, by simpa using hpaused, .inl rfl⟩, by simp, by simp, by simp, ?_⟩
  exact ⟨by simp, by simp, List.Pairwise.nil, by simp⟩

/-- What the unit computes on the next edge fits what it has computed before. -/
theorem record (h : Paced m₀ m records t i s k) (hp : 0 < m.profile.clock.period)
    (hnow : now = m.profile.clock.phase + m.profile.clock.period * j)
    (hlater : ∀ r ∈ records.getLast?, r.tick < now) (sp completed : Bool) :
    PauseArithmetic m.profile.clock.period (records ++ [cycleRecord m now sp completed]) := by
  have htimed := h.timed.later (h.ahead now j hnow hlater) hnow
  have hcycle := htimed.cycle_sub hp sp
  have hij := h.ahead now j hnow hlater
  refine h.arithmetic.concat ?_ ?_ ?_ ?_
  · intro hle
    exact ⟨⟨k, htimed.paused_eq⟩, (htimed.elapsed_eq hp hle).1⟩
  · intro hle
    obtain ⟨-, hexact, hperiods⟩ := htimed.elapsed_eq hp hle
    have hcomputed : (cycleRecord m now sp completed).elapsed =
        (j - s - k) * m.profile.clock.period := hexact.trans hperiods
    exact ⟨hexact, hcomputed ▸ Nat.dvd_mul_left .., by rw [hcomputed]; exact congrArg (· * _) hcycle⟩
  · intro r hr
    have hreached := h.reached r hr
    show r.cycle ≤ (m.currentTimingState now sp).cycle
    omega
  · intro r hr hrunning hcompleted hnext
    obtain ⟨ht, hlast⟩ := h.last r hr hrunning hcompleted
    have hsame : m.profile.clock.period * i = m.profile.clock.period * j := by
      have hi := h.timed.now_eq
      have hnext' : now = r.tick + m.profile.clock.period := hnext
      omega
    obtain rfl := Nat.eq_of_mul_eq_mul_left hp hsame
    show (m.currentTimingState now sp).cycle = _
    rw [hcycle, hlast]

theorem stepped {epoch : ℕ} {candidate : Option TimingEvents} {results : List Completion}
    {sp : Bool} {out : TcuOutput} {trigger : Option Trigger} {admission : Option Admission}
    (h : Paced m₀ m records t i s k) (hp : 0 < m.profile.clock.period)
    (hlater : ∀ r ∈ records.getLast?, r.tick < now)
    (hs : Stepped m now epoch candidate results sp out m' trigger admission) :
    ∃ t' i' k', Paced m₀ m' (records ++ [cycleRecord m now sp true]) t' i' s k' := by
  obtain ⟨j, hnow⟩ := Clock.edge_iff.1 hs.edge
  have hij := h.ahead now j hnow hlater
  have htimed := h.timed.later hij hnow
  have hcycle := htimed.cycle_sub hp sp
  have harithmetic := h.record hp hnow hlater sp true
  have hlag := htimed.lag
  obtain ⟨flags, -, rfl⟩ := hs.state
  have hnext := htimed.next hp sp trigger admission flags
  have hprofile : (m.next trigger admission flags (m.currentTimingState now sp).pause).profile =
      m.profile := next_profile
  refine ⟨_, _, _, hprofile.trans h.profile, hnext, ?_, ?_, ?_, hprofile ▸ harithmetic⟩
  · intro next j' hj' hafter
    have hlt : now < next := hafter _ (by rw [List.getLast?_concat]; rfl)
    rw [hnow, hj', hprofile, Nat.add_lt_add_iff_left, Nat.mul_lt_mul_left hp] at hlt
    exact hlt
  · intro r hr
    have hle : r.cycle ≤ j - s - k := by
      rcases List.mem_append.1 hr with hr | hr
      · have := h.reached r hr
        omega
      · rw [List.mem_singleton.1 hr]
        exact hcycle.le
    split <;> omega
  · intro r hr hrunning _
    obtain rfl : cycleRecord m now sp true = r := by simpa using hr
    have hsj : s ≤ j := (htimed.start_le_iff hp).1 hrunning
    refine ⟨by rw [hprofile]; rfl, ?_⟩
    show _ = if (m.currentTimingState now sp).pause.paused = true
      then (m.currentTimingState now sp).cycle else (m.currentTimingState now sp).cycle + 1
    rw [hcycle]
    split <;> omega

/-- An edge whose step faults is left out but for its record. -/
theorem faulted {sp : Bool} (h : Paced m₀ m records t i s k) (hp : 0 < m.profile.clock.period)
    (hlater : ∀ r ∈ records.getLast?, r.tick < now) (hedge : m.profile.clock.edge now) :
    ∃ t' i', Paced m₀ m (records ++ [cycleRecord m now sp false]) t' i' s k := by
  obtain ⟨j, hnow⟩ := Clock.edge_iff.1 hedge
  have hij := h.ahead now j hnow hlater
  have htimed := h.timed.later hij hnow
  have hcycle := htimed.cycle_sub hp sp
  refine ⟨_, j + 1, h.profile, htimed.later (Nat.le_succ j) rfl, ?_, ?_, ?_,
    h.record hp hnow hlater sp false⟩
  · intro next j' hj' hafter
    have hlt : now < next := hafter _ (by rw [List.getLast?_concat]; rfl)
    rw [hnow, hj', Nat.add_lt_add_iff_left, Nat.mul_lt_mul_left hp] at hlt
    exact hlt
  · intro r hr
    have hle : r.cycle ≤ j - s - k := by
      rcases List.mem_append.1 hr with hr | hr
      · have := h.reached r hr
        omega
      · rw [List.mem_singleton.1 hr]
        exact hcycle.le
    omega
  · intro r hr _ hcompleted
    obtain rfl : cycleRecord m now sp false = r := by simpa using hr
    simp [cycleRecord] at hcompleted

theorem closed (h : Paced m₀ m records t i s k) (terminal : EndOfStream) :
    Paced m₀ (TcuCycleModel.close terminal m).state records t i s k := by
  rw [close_state]
  exact
    { profile := h.profile
      timed := ⟨h.timed.now_eq, h.timed.start_eq, h.timed.paused_eq, h.timed.lag⟩
      ahead := h.ahead
      reached := h.reached
      last := h.last
      arithmetic := h.arithmetic }

end Paced

theorem CycleRun.paced {m₀ m : TcuCycleModel} {records : List CycleRecord}
    (hp : 0 < m₀.profile.clock.period) (hstart : m₀.profile.clock.edge m₀.start)
    (hpaused : m₀.pausedTicks = 0) (run : CycleRun m₀ records m) :
    ∃ t i s k, Paced m₀ m records t i s k := by
  induction run with
  | start =>
    obtain ⟨s, h⟩ := Paced.start hstart hpaused
    exact ⟨_, _, s, _, h⟩
  | step run later hstep ih =>
    obtain ⟨t, i, s, k, h⟩ := ih
    obtain ⟨trigger, admission, hstepped⟩ := stepped_of_returns hstep
    obtain ⟨t', i', k', h'⟩ := h.stepped (h.profile ▸ hp) later hstepped
    exact ⟨t', i', s, k', h'⟩
  | fault run later edge hstep ih =>
    obtain ⟨t, i, s, k, h⟩ := ih
    obtain ⟨rfl, -⟩ := raises_of_step hstep
    obtain ⟨t', i', h'⟩ := h.faulted (h.profile ▸ hp) later edge
    exact ⟨t', i', s, k, h'⟩
  | close run terminal ih =>
    obtain ⟨t, i, s, k, h⟩ := ih
    exact ⟨t, i, s, k, h.closed terminal⟩

section Runs
variable {p : Profile} {fingerprint : String} {config : TcuConfig} {syncCapacity : ℕ}
  {m₀ m : TcuCycleModel} {records : List CycleRecord}

/-- The cycle of a started unit is computed without wrapping in every run. -/
theorem pause_arithmetic (hvalid : p.validate = .ok ()) (hconfig : tcuConfig fingerprint p = .ok config)
    (hstarted : Started config syncCapacity m₀) (run : CycleRun m₀ records m) :
    PauseArithmetic config.clock.period records := by
  have hp := Profile.valid_of_validate hvalid
  simp only [tcuConfig, Except.bind_eq_ok_iff, Except.pure_eq_ok_iff] at hconfig
  obtain ⟨timing, -, rfl⟩ := hconfig
  obtain ⟨hprofile, hcleared⟩ := cleared_of_started hp.start hstarted 0
  have hperiod : 0 < m₀.profile.clock.period := by
    rw [hprofile]
    exact hp.tcu.period_pos
  obtain ⟨t, i, s, k, h⟩ := run.paced hperiod hcleared.start hcleared.pausedTicks
  have harithmetic := h.arithmetic
  rwa [h.profile, hprofile] at harithmetic

/-- The edge of the start is paused and the next one is left out: one cycle has passed on the
third. -/
theorem pause_arithmetic_leftOut : ∃ records : List CycleRecord,
    records.map (fun r => (r.tick, r.pausedTicks, r.cycle)) = [(1000, 0, 0), (1040, 20, 1)] ∧
      PauseArithmetic 20 records := by
  have hconfig : tcuConfig "" oneGate = .ok oneGateConfig := rfl
  have hunit : Started oneGateConfig 8 oneGateUnit := .make rfl
  have hpaused := CycleRun.start.step (by simp) (show (step 1000 1 none [] (fun _ => pure ()) true
    (none : Option (List ℕ → Sim Unit Unit))).Returns (oneGateUnit, ()) _ (_, ()) _ from rfl)
  have hlater := hpaused.step (by decide) (show (step 1040 1 none [] (fun _ => pure ()) false
    (none : Option (List ℕ → Sim Unit Unit))).Returns (_, ()) _ (_, ()) _ from rfl)
  exact ⟨_, by decide, pause_arithmetic (by decide) hconfig hunit hlater⟩

end Runs

end TcuCycleModel
end Qsbit

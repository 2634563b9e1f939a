import Qsbit.Tcu.Queue
import Qsbit.Lib.Agenda

/-!
# Runs of the timing control unit

The unit is driven edge by edge. A `Run` records what the caller sees of each
edge. The run refines an agenda: the agenda's clock is the number of the edge
less the number of paused edges, an admitted point waits for the number of the
start edge plus its due cycle, and both kinds of pause freeze the agenda.

## Main definitions

* `EdgeRecord`, `Run` — what is seen of an edge, and consecutive edges.
* `Timed` — where an edge stands relative to the start and to the pauses.
* `advance_of_stepped` — a step is a tick of the agenda.
* `Tracks`, `exists_tracks` — a run is a trace of the agenda.
-/
namespace Qsbit
namespace TcuCycleModel

/-- What the caller sees of one edge. -/
structure EdgeRecord where
  tick : ℕ
  paused : Bool
  launched : Option ℕ := none
  admitted : Option TimingEvents := none
  deriving DecidableEq, Repr

/-- The record of a step from its inputs, its output and the pause it leaves. -/
def edgeRecord (now : ℕ) (candidate : Option TimingEvents) (out : TcuOutput)
    (m' : TcuCycleModel) : EdgeRecord :=
  { tick := now
    paused := m'.pause.paused
    launched := out.launch.map (·.label)
    admitted := if out.admitted then candidate else none }

/-- Steps on consecutive edges from `t₀` on, in one epoch and without a fault. The stream may
be closed between any two of them. -/
inductive Run (epoch : ℕ) (m₀ : TcuCycleModel) (t₀ : ℕ) :
    List EdgeRecord → TcuCycleModel → ℕ → Prop
  | start (h : m₀.profile.clock.edge t₀) : Run epoch m₀ t₀ [] m₀ t₀
  | step {records : List EdgeRecord} {m m' : TcuCycleModel} {t : ℕ}
      (h : Run epoch m₀ t₀ records m t) {χ : Type} {candidate : Option TimingEvents}
      {results : List Completion} {preflight : TriggeredEvents → Except Fault Unit}
      {synchronizationPaused : Bool} {syncPreflight : Option (List ℕ → Sim χ Unit)} {c c' : χ}
      {out : TcuOutput} {l : List TraceEvent}
      (hstep : (step t epoch candidate results preflight synchronizationPaused
        syncPreflight).Returns (m, c) out (m', c') l) :
      Run epoch m₀ t₀ (records ++ [edgeRecord t candidate out m']) m'
        (t + m.profile.clock.period)
  | close {records : List EdgeRecord} {m m' : TcuCycleModel} {t : ℕ}
      (h : Run epoch m₀ t₀ records m t) {terminal : EndOfStream} {u : Unit} {l : List TraceEvent}
      (hclose : (close terminal).Returns m u m' l) : Run epoch m₀ t₀ records m' t

/-- What the caller supplies on an edge, with callbacks that accept everything. -/
structure EdgeInput where
  candidate : Option TimingEvents := none
  results : List Completion := []
  synchronizationPaused : Bool := false

/-- Evaluate consecutive edges. -/
def drive (epoch : ℕ) (m : TcuCycleModel) (t : ℕ) :
    List EdgeInput → Except Fault (List EdgeRecord × TcuCycleModel × ℕ)
  | [] => pure ([], m, t)
  | i :: rest => do
      let outcome := step t epoch i.candidate i.results (fun _ => pure ()) i.synchronizationPaused
        (some fun _ => pure ()) (m, ())
      let out ← outcome.result
      let (records, last) ← drive epoch outcome.state.1 (t + m.profile.clock.period) rest
      pure (edgeRecord t i.candidate out outcome.state.1 :: records, last)

theorem run_of_drive {epoch t₀ t t' : ℕ} {m₀ m m' : TcuCycleModel} {before records : List EdgeRecord}
    {inputs : List EdgeInput} (h : Run epoch m₀ t₀ before m t)
    (hd : drive epoch m t inputs = .ok (records, m', t')) :
    Run epoch m₀ t₀ (before ++ records) m' t' := by
  induction inputs generalizing before records m t with
  | nil =>
    simp only [drive, Except.pure_eq_ok_iff, Prod.mk.injEq] at hd
    obtain ⟨rfl, rfl, rfl⟩ := hd
    simpa using h
  | cons i rest ih =>
    simp only [drive, Except.bind_eq_ok_iff, Except.pure_eq_ok_iff, Prod.mk.injEq,
      Prod.exists] at hd
    obtain ⟨out, hout, records', _, _, hrest, rfl, rfl, rfl⟩ := hd
    rcases hstep : step (χ := Unit) t epoch i.candidate i.results (fun _ => pure ())
      i.synchronizationPaused (some fun _ => pure ()) (m, ()) with ⟨result, ⟨m₁, c⟩, l⟩
    rw [hstep] at hout hrest
    obtain rfl : result = .ok out := hout
    have hnext := ih (h.step hstep) hrest
    rwa [List.append_assoc, List.singleton_append] at hnext

/-- A unit that has just been constructed or reset. -/
inductive Started (profile : TcuConfig) (syncCapacity : ℕ) : TcuCycleModel → Prop
  | make {m : TcuCycleModel} (h : make profile syncCapacity = .ok m) :
      Started profile syncCapacity m
  | reset {epoch origin : ℕ} {m m' : TcuCycleModel} {u : Unit} {l : List TraceEvent}
      (h : Reachable profile syncCapacity epoch m) (hr : (reset origin).Returns m u m' l) :
      Started profile syncCapacity m'

/-- Everything a started unit holds is cleared, and its start is an edge. -/
structure Cleared (epoch : ℕ) (m : TcuCycleModel) : Prop where
  holds : Holds epoch m []
  start : m.profile.clock.edge m.start
  pausedTicks : m.pausedTicks = 0
  lastLabel : m.lastLabel = 0
  lastDue : m.lastDue = 0
  triggeredPolicy : m.triggeredPolicy = .strict

theorem cleared_of_started {profile : TcuConfig} {syncCapacity : ℕ} {m : TcuCycleModel}
    (hstart : profile.clock.edge profile.start) (h : Started profile syncCapacity m)
    (epoch : ℕ) : m.profile = profile ∧ Cleared epoch m := by
  cases h with
  | make h =>
    have hholds : Holds epoch m [] := Holds.make h
    simp only [make, Except.bind_eq_ok_iff, Except.pure_eq_ok_iff] at h
    obtain ⟨_, -, rfl⟩ := h
    exact ⟨rfl, hholds, hstart, rfl, rfl, rfl, rfl⟩
  | reset h hr =>
    obtain ⟨hprofile, -, q, hq⟩ := exists_holds h
    obtain ⟨start, hedge, rfl⟩ := reset_returns hr
    exact ⟨hprofile, hq.cleared start, hedge, rfl, rfl, rfl, rfl⟩

/-! ## Time -/

/-- The edge `now` is number `i`, the unit started on edge number `s`, and `k` edges since
have been paused. -/
structure Timed (m : TcuCycleModel) (now i s k : ℕ) : Prop where
  now_eq : now = m.profile.clock.phase + m.profile.clock.period * i
  start_eq : m.start = m.profile.clock.phase + m.profile.clock.period * s
  paused_eq : m.pausedTicks = m.profile.clock.period * k
  lag : k = 0 ∨ s + k ≤ i

namespace Timed
variable {m : TcuCycleModel} {now i s k : ℕ}

theorem start_le_iff (h : Timed m now i s k) (hp : 0 < m.profile.clock.period) :
    m.start ≤ now ↔ s ≤ i := by
  rw [h.now_eq, h.start_eq, Nat.add_le_add_iff_left, Nat.mul_le_mul_left_iff hp]

/-- A running unit's cycle is the number of edges since the start less the paused ones. -/
theorem cycle_eq (h : Timed m now i s k) (hp : 0 < m.profile.clock.period) (hs : s ≤ i)
    (sp : Bool) : (m.currentTimingState now sp).cycle = i - s - k := by
  have hle : m.start ≤ now := (h.start_le_iff hp).2 hs
  have hk : s + k ≤ i := by rcases h.lag with rfl | hk <;> omega
  have helapsed : now - m.start = m.profile.clock.period * (i - s) := by
    rw [h.now_eq, h.start_eq, Nat.mul_sub]
    omega
  have hpaused : m.pausedTicks ≤ now - m.start := by
    rw [helapsed, h.paused_eq]
    exact Nat.mul_le_mul_left _ (by omega)
  simp only [currentTimingState, hle, decide_true, if_true]
  rw [wrapSub_of_le hle, wrapSub_of_le hpaused, helapsed, h.paused_eq, ← Nat.mul_sub,
    Nat.mul_div_cancel_left _ hp]

/-- The tick of a due cycle, compared with the edge. -/
theorem dueTick_eq (h : Timed m now i s k) (due : ℕ) :
    m.start + m.pausedTicks + due * m.profile.clock.period =
      m.profile.clock.phase + m.profile.clock.period * (s + k + due) := by
  rw [h.start_eq, h.paused_eq, Nat.mul_add, Nat.mul_add, Nat.mul_comm due]
  omega

theorem lt_dueTick_iff (h : Timed m now i s k) (hp : 0 < m.profile.clock.period) (due : ℕ) :
    now < m.start + m.pausedTicks + due * m.profile.clock.period ↔ i < s + k + due := by
  rw [h.dueTick_eq due, h.now_eq, Nat.add_lt_add_iff_left, Nat.mul_lt_mul_left hp]

theorem eq_dueTick_iff (h : Timed m now i s k) (hp : 0 < m.profile.clock.period) (due : ℕ) :
    now = m.start + m.pausedTicks + due * m.profile.clock.period ↔ i = s + k + due := by
  rw [h.dueTick_eq due, h.now_eq, Nat.add_left_cancel_iff, Nat.mul_right_inj hp.ne']

/-- Pauses of either kind need a running unit. -/
theorem running_of_paused {sp : Bool}
    (hpaused : (m.currentTimingState now sp).pause.paused = true) : m.start ≤ now := by
  simp only [currentTimingState, PauseState.paused, Bool.or_eq_true, Bool.and_eq_true,
    decide_eq_true_eq] at hpaused
  tauto

/-- Time moves on by one edge, and the pauses by this edge's. -/
theorem next (h : Timed m now i s k) (hp : 0 < m.profile.clock.period) (sp : Bool)
    (trigger : Option Trigger) (admission : Option Admission) (flags : ExecutionFlags) :
    Timed (m.next trigger admission flags (m.currentTimingState now sp).pause)
      (now + m.profile.clock.period) (i + 1) s
      (if (m.currentTimingState now sp).pause.paused then k + 1 else k) where
  now_eq := by rw [next_profile, h.now_eq, Nat.mul_add, Nat.mul_one, Nat.add_assoc]
  start_eq := by rw [next_start, next_profile, h.start_eq]
  paused_eq := by
    rw [next_pausedTicks, next_profile, h.paused_eq]
    split
    · rw [Nat.mul_add, Nat.mul_one]
    · rfl
  lag := by
    have hlag := h.lag
    split
    · rename_i hpaused
      have := (h.start_le_iff hp).1 (running_of_paused hpaused)
      omega
    · omega

end Timed

/-! ## A step is a tick of the agenda -/

/-- The edge on which an admitted point fires if there is no pause. -/
def edgeOf (s : ℕ) (a : Admission) : ℕ := s + a.due

/-- What a step means to the agenda. -/
def tickOf (q : List Admission) (paused : Bool) (trigger : Option Trigger)
    (admission : Option Admission) : Agenda.Tick Admission :=
  { frozen := paused
    fired := if trigger.isSome then q.head? else none
    added := admission }

/-- A step is a tick of the agenda. -/
theorem advance_of_stepped {m m' : TcuCycleModel} {epoch now i s k : ℕ} {q : List Admission}
    {candidate : Option TimingEvents} {results : List Completion} {sp : Bool} {out : TcuOutput}
    {trigger : Option Trigger} {admission : Option Admission} (hq : Holds epoch m q)
    (ht : Timed m now i s k) (hp : 0 < m.profile.clock.period)
    (hs : Stepped m now epoch candidate results sp out m' trigger admission) :
    let paused := (m.currentTimingState now sp).pause.paused
    Agenda.Advance (edgeOf s) ⟨i - k, q⟩ (tickOf q paused trigger admission)
      ⟨i + 1 - (if paused then k + 1 else k),
        (if trigger.isSome then q.tail else q) ++ admission.toList⟩ := by
  intro paused
  have hlag := ht.lag
  refine
    { fires := ?_
      behind := fun a ha b hb => ?_
      ahead := fun a ha => ?_
      waiting := ?_
      clock := ?_ }
  · intro x
    cases htrigger : trigger with
    | none =>
      simp only [tickOf, Option.isSome_none, Bool.false_eq_true, if_false, reduceCtorEq, false_iff,
        not_and]
      intro hunpaused hhead hdue
      have hfires := hs.fires
      rw [htrigger] at hfires
      obtain ⟨hidle⟩ := hfires
      have hstored : x.stored ∈ m.timing.head? := by
        rw [hq.timing, List.head?_map, hhead]
        rfl
      -- The head would be due on this very edge.
      have hdue' : s + x.due = i - k := hdue
      have hsi : s ≤ i := by omega
      have hlt := hidle _ hstored (by simpa [currentTimingState] using (ht.start_le_iff hp).2 hsi)
        hunpaused
      rw [ht.cycle_eq hp hsi] at hlt
      have hstoredDue : x.stored.due = x.due := rfl
      omega
    | some t =>
      have hfires := hs.fires
      rw [htrigger] at hfires
      obtain ⟨y, rest, rfl, -, hdue, -⟩ := hq.eq_cons_of_fires hfires
      obtain _ | ⟨_, _, _, -, hrunning, hunpaused, -, -⟩ := hfires
      have hsi : s ≤ i := (ht.start_le_iff hp).1 (by simpa [currentTimingState] using hrunning)
      rw [ht.cycle_eq hp hsi] at hdue
      have hkey : edgeOf s y = i - k := by
        show s + y.due = i - k
        omega
      simp only [tickOf, Option.isSome_some, if_true, List.head?_cons, Option.some.injEq]
      constructor
      · rintro rfl
        exact ⟨hunpaused, rfl, hkey⟩
      · exact fun h => h.2.1
  · have hlt := hq.due_lt (hs.admits a ha).2 b hb
    show s + b.due < s + a.due
    omega
  · have hdeadline := (hs.admits a ha).2.deadline
    simp only [meetsDeadline, Bool.or_eq_true, Bool.and_eq_true, decide_eq_true_eq] at hdeadline
    rcases hdeadline with hlt | ⟨⟨-, hsupply⟩, heq⟩
    · left
      have := (ht.lt_dueTick_iff hp a.due).1 hlt
      show i - k < s + a.due
      omega
    · right
      have := (ht.eq_dueTick_iff hp a.due).1 heq
      refine ⟨by simp [tickOf, paused, PauseState.paused, hsupply], ?_⟩
      show i - k = s + a.due
      omega
  · cases htrigger : trigger with
    | none => simp [tickOf]
    | some t =>
      have hfires := hs.fires
      rw [htrigger] at hfires
      obtain ⟨y, rest, rfl, -⟩ := hq.eq_cons_of_fires hfires
      simp [tickOf]
  · show i + 1 - (if paused then k + 1 else k) = if paused then i - k else i - k + 1
    split <;> omega

/-! ## A run is a trace of the agenda -/

/-- Due cycles of requests after a point that is due at `last`. -/
def duesAfter (last : ℕ) : List TimingEvents → List ℕ
  | [] => []
  | r :: rest => (last + max 1 r.point.interval) :: duesAfter (last + max 1 r.point.interval) rest

/-- Due cycles of all requests admitted since the start. -/
def dues : List TimingEvents → List ℕ
  | [] => []
  | r :: rest => r.point.interval :: duesAfter r.point.interval rest

theorem duesAfter_concat (last : ℕ) (rs : List TimingEvents) (r : TimingEvents) :
    duesAfter last (rs ++ [r]) =
      duesAfter last rs ++ [(duesAfter last rs).getLastD last + max 1 r.point.interval] := by
  induction rs generalizing last with
  | nil => rfl
  | cons x rs ih =>
    rw [List.cons_append, duesAfter, ih, duesAfter, List.cons_append, List.getLastD_cons]

theorem dues_concat (rs : List TimingEvents) (r : TimingEvents) :
    dues (rs ++ [r]) = dues rs ++ [(dues rs).getLastD 0 +
      if rs = [] then r.point.interval else max 1 r.point.interval] := by
  cases rs with
  | nil => simp [dues, duesAfter]
  | cons x rs =>
    rw [List.cons_append, dues, duesAfter_concat, dues, List.cons_append, List.getLastD_cons,
      if_neg (List.cons_ne_nil _ _)]

/-- What the unit remembers of all admissions since the start. -/
structure History (m : TcuCycleModel) (admissions : List Admission) : Prop where
  labels : admissions.map (·.request.point.label) = List.range' 1 admissions.length
  lastLabel : m.lastLabel = admissions.length
  dues : admissions.map (·.due) = dues (admissions.map (·.request))
  lastDue : m.lastDue = (admissions.map (·.due)).getLastD 0

theorem History.step {m m' : TcuCycleModel} {epoch now : ℕ} {admissions : List Admission}
    {candidate : Option TimingEvents} {results : List Completion} {sp : Bool} {out : TcuOutput}
    {trigger : Option Trigger} {admission : Option Admission} (h : History m admissions)
    (hs : Stepped m now epoch candidate results sp out m' trigger admission) :
    History m' (admissions ++ admission.toList) := by
  obtain ⟨flags, -, rfl⟩ := hs.state
  cases ha : admission with
  | none =>
    have hlabel : (m.next trigger none flags (m.currentTimingState now sp).pause).lastLabel =
        m.lastLabel := fire_lastLabel
    have hdue : (m.next trigger none flags (m.currentTimingState now sp).pause).lastDue =
        m.lastDue := fire_lastDue
    rw [Option.toList_none, List.append_nil]
    exact ⟨h.labels, hlabel.trans h.lastLabel, h.dues, hdue.trans h.lastDue⟩
  | some a =>
    obtain ⟨-, had⟩ := hs.admits a ha
    have hempty : m.lastLabel = 0 ↔ admissions.map (·.request) = [] := by
      rw [h.lastLabel, List.length_eq_zero_iff, List.map_eq_nil_iff]
    refine
      { labels := ?_
        lastLabel := ?_
        dues := ?_
        lastDue := ?_ }
    · rw [Option.toList_some, List.map_append, h.labels, List.map_singleton, had.label, h.lastLabel,
        List.length_append, List.length_singleton, List.range'_concat, Nat.one_mul, Nat.add_comm 1]
    · show a.request.point.label = _
      rw [had.label, h.lastLabel]
      simp
    · rw [Option.toList_some, List.map_append, List.map_append, h.dues, List.map_singleton,
        List.map_singleton, dues_concat, had.due_eq, h.lastDue, h.dues]
      by_cases hz : m.lastLabel = 0
      · rw [if_pos hz, if_pos (hempty.1 hz)]
      · rw [if_neg hz, if_neg fun hnil => hz (hempty.2 hnil)]
    · show a.due = _
      rw [Option.toList_some, List.map_append, List.map_singleton, List.getLastD_concat]

/-- The record of a tick of the agenda. -/
def toRecord (tick : ℕ) (r : Agenda.Tick Admission) : EdgeRecord :=
  { tick
    paused := r.frozen
    launched := r.fired.map (·.request.point.label)
    admitted := r.added.map (·.request) }

/-- The records of consecutive ticks from `t₀` on. -/
def replay (t₀ period : ℕ) (ticks : List (Agenda.Tick Admission)) : List EdgeRecord :=
  ticks.mapIdx fun j r => toRecord (t₀ + period * j) r

theorem replay_concat (t₀ period : ℕ) (ticks : List (Agenda.Tick Admission))
    (r : Agenda.Tick Admission) : replay t₀ period (ticks ++ [r]) =
      replay t₀ period ticks ++ [toRecord (t₀ + period * ticks.length) r] := by
  rw [replay, List.mapIdx_concat]
  rfl

/-- The run seen as a trace: it began on edge number `i₀` of an agenda with nothing waiting,
and the unit has started on edge number `s`. -/
structure Tracks (epoch : ℕ) (m₀ : TcuCycleModel) (t₀ i₀ s : ℕ) (records : List EdgeRecord)
    (m : TcuCycleModel) (t : ℕ) (ticks : List (Agenda.Tick Admission)) (q : List Admission) :
    Prop where
  profile : m.profile = m₀.profile
  replayed : records = replay t₀ m.profile.clock.period ticks
  holds : Holds epoch m q
  timed : Timed m t (i₀ + ticks.length) s (ticks.countP (·.frozen))
  trace : Agenda.Trace (edgeOf s) ⟨i₀, []⟩ ticks
    ⟨i₀ + ticks.length - ticks.countP (·.frozen), q⟩
  running : ∀ r ∈ records, r.paused = true → m.start ≤ r.tick
  history : History m (ticks.filterMap (·.added))
  /-- Once the queue has run empty under `pauseWhenEmpty`, the agenda stands one cycle after
  the last due. -/
  supply : m.triggeredPolicy = .pauseWhenEmpty → m.timing = [] → m.closed = false →
    m.lastLabel ≠ 0 ∧
      i₀ + ticks.length - ticks.countP (·.frozen) = s + m.lastDue + 1

namespace Tracks
variable {epoch t₀ i₀ s t : ℕ} {m₀ m m' : TcuCycleModel} {records : List EdgeRecord}
  {ticks : List (Agenda.Tick Admission)} {q : List Admission}

theorem start (h : Cleared epoch m₀)
    (ht₀ : t₀ = m₀.profile.clock.phase + m₀.profile.clock.period * i₀)
    (hs : m₀.start = m₀.profile.clock.phase + m₀.profile.clock.period * s) :
    Tracks epoch m₀ t₀ i₀ s [] m₀ t₀ [] [] where
  profile := rfl
  replayed := rfl
  holds := h.holds
  timed := ⟨ht₀, hs, by simp [h.pausedTicks], .inl rfl⟩
  trace := .nil
  running := by simp
  history := ⟨rfl, h.lastLabel, rfl, h.lastDue⟩
  supply := by simp [h.triggeredPolicy]

/-- The pause that a supply needs is a pause of the agenda. -/
theorem supply_next {now : ℕ} {candidate : Option TimingEvents} {results : List Completion}
    {sp : Bool} {out : TcuOutput} {trigger : Option Trigger} {admission : Option Admission}
    (h : Tracks epoch m₀ t₀ i₀ s records m now ticks q) (hp : 0 < m.profile.clock.period)
    (hs : Stepped m now epoch candidate results sp out m' trigger admission)
    (hpolicy : m'.triggeredPolicy = .pauseWhenEmpty) (hempty : m'.timing = [])
    (hopen : m'.closed = false) : m'.lastLabel ≠ 0 ∧
      i₀ + ticks.length + 1 - (if (m.currentTimingState now sp).pause.paused then
        ticks.countP (·.frozen) + 1 else ticks.countP (·.frozen)) = s + m'.lastDue + 1 := by
  obtain ⟨flags, -, rfl⟩ := hs.state
  have hlag := h.timed.lag
  cases ha : admission with
  | some a =>
    -- Whatever is admitted on this edge is queued after it.
    rw [ha] at hempty
    simp [next, push, enqueue] at hempty
  | none =>
    rw [ha] at hpolicy hempty hopen
    cases htrigger : trigger with
    | none =>
      rw [htrigger] at hpolicy hempty hopen
      have hpolicy' : m.triggeredPolicy = .pauseWhenEmpty := hpolicy
      have hempty' : m.timing = [] := hempty
      have hopen' : m.closed = false := hopen
      obtain ⟨hlabel, hclock⟩ := h.supply hpolicy' hempty' hopen'
      have hrunning : m.start ≤ now := (h.timed.start_le_iff hp).2 (by omega)
      have hpaused : (m.currentTimingState now sp).pause.paused = true := by
        simp [currentTimingState, PauseState.paused, hrunning, hpolicy', hempty', hopen']
      refine ⟨hlabel, ?_⟩
      rw [if_pos hpaused]
      show _ = s + m.lastDue + 1
      omega
    | some tr =>
      have hfires := hs.fires
      rw [htrigger] at hfires hempty
      obtain ⟨x, rest, rfl, htiming, hdue, -⟩ := h.holds.eq_cons_of_fires hfires
      obtain _ | ⟨_, _, _, -, hrunning, hunpaused, -, -⟩ := hfires
      have hfire : m.fire (some tr) = m.popHead x.stored (rest.map Admission.stored) := by
        simp [fire, htiming]
      have hrest : rest = [] := by
        have hnil : (m.fire (some tr)).timing = [] := hempty
        rw [hfire] at hnil
        exact List.map_eq_nil_iff.1 hnil
      subst hrest
      have hlast : x.due = m.lastDue := h.holds.due_last x rfl
      have hlen : 1 ≤ m.lastLabel := h.holds.length_le
      have hsi : s ≤ i₀ + ticks.length :=
        (h.timed.start_le_iff hp).1 (by simpa [currentTimingState] using hrunning)
      rw [h.timed.cycle_eq hp hsi] at hdue
      have hlastLabel : (m.next (some tr) none flags (m.currentTimingState now sp).pause).lastLabel =
          m.lastLabel := fire_lastLabel
      have hlastDue : (m.next (some tr) none flags (m.currentTimingState now sp).pause).lastDue =
          m.lastDue := fire_lastDue
      rw [hlastLabel, hlastDue, hunpaused]
      simp only [Bool.false_eq_true, if_false]
      omega

theorem step {candidate : Option TimingEvents} {results : List Completion} {sp : Bool}
    {out : TcuOutput} {trigger : Option Trigger} {admission : Option Admission}
    (h : Tracks epoch m₀ t₀ i₀ s records m t ticks q) (hp : 0 < m.profile.clock.period)
    (ht₀ : t₀ = m.profile.clock.phase + m.profile.clock.period * i₀)
    (hs : Stepped m t epoch candidate results sp out m' trigger admission) :
    Tracks epoch m₀ t₀ i₀ s (records ++ [edgeRecord t candidate out m']) m'
      (t + m.profile.clock.period)
      (ticks ++ [tickOf q (m.currentTimingState t sp).pause.paused trigger admission])
      ((if trigger.isSome then q.tail else q) ++ admission.toList) := by
  have hsupply := h.supply_next hp hs
  have hholds := h.holds.step hs
  have hhistory := h.history.step hs
  have hadvance := advance_of_stepped h.holds h.timed hp hs
  obtain ⟨flags, -, hm'⟩ := hs.state
  have hprofile : m'.profile = m.profile := by simp [hm']
  have hpause : m'.pause = (m.currentTimingState t sp).pause := by rw [hm']; rfl
  have hcount : (ticks ++ [tickOf q (m.currentTimingState t sp).pause.paused trigger
      admission]).countP (·.frozen) = if (m.currentTimingState t sp).pause.paused then
        ticks.countP (·.frozen) + 1 else ticks.countP (·.frozen) := by
    rw [List.countP_append, List.countP_singleton]
    cases (m.currentTimingState t sp).pause.paused <;> simp [tickOf]
  have htick : t = t₀ + m.profile.clock.period * ticks.length := by
    rw [h.timed.now_eq, ht₀, Nat.mul_add]
    omega
  have hrecord : edgeRecord t candidate out m' = toRecord t
      (tickOf q (m.currentTimingState t sp).pause.paused trigger admission) := by
    have hlaunched : out.launch.map (·.label) =
        (if trigger.isSome then q.head? else none).map (·.request.point.label) := by
      rw [hs.launch]
      cases htrigger : trigger with
      | none => rfl
      | some tr =>
        have hfires := hs.fires
        rw [htrigger] at hfires
        obtain ⟨x, rest, rfl, -, -, hassembled⟩ := h.holds.eq_cons_of_fires hfires
        simp [(batch_of_assembleTrigger hassembled).2.1, Admission.stored]
    have hadmitted : (if out.admitted then candidate else none) =
        admission.map (·.request) := by
      rw [hs.admitted]
      cases ha : admission with
      | none => rfl
      | some a => simpa using (hs.admits a ha).1
    simp only [edgeRecord, toRecord, tickOf, hpause, hlaunched, hadmitted]
  refine
    { profile := hprofile.trans h.profile
      replayed := ?_
      holds := hholds
      timed := ?_
      trace := ?_
      running := ?_
      history := ?_
      supply := ?_ }
  · rw [replay_concat, hprofile, ← h.replayed, ← htick, hrecord]
  · rw [hcount, List.length_append, List.length_singleton, ← Nat.add_assoc, hm']
    exact h.timed.next hp sp trigger admission flags
  · refine .snoc h.trace ?_
    rw [hcount, List.length_append, List.length_singleton, ← Nat.add_assoc]
    exact hadvance
  · intro r hr hpaused
    have hstart : m'.start = m.start := by simp [hm']
    rw [hstart]
    rcases List.mem_append.1 hr with hr | hr
    · exact h.running r hr hpaused
    · rw [List.mem_singleton.1 hr] at hpaused ⊢
      simp only [edgeRecord, hpause] at hpaused
      exact Timed.running_of_paused hpaused
  · rw [List.filterMap_append]
    have hadded : [tickOf q (m.currentTimingState t sp).pause.paused trigger
        admission].filterMap (·.added) = admission.toList := by
      cases admission <;> rfl
    rw [hadded]
    exact hhistory
  · intro hpolicy hempty hopen
    rw [hcount, List.length_append, List.length_singleton, ← Nat.add_assoc]
    exact hsupply hpolicy hempty hopen

theorem close {terminal : EndOfStream} {u : Unit} {l : List TraceEvent}
    (h : Tracks epoch m₀ t₀ i₀ s records m t ticks q)
    (hclose : (close terminal).Returns m u m' l) :
    Tracks epoch m₀ t₀ i₀ s records m' t ticks q := by
  have hm' : m' = { m with closed := true } := by
    simp only [TcuCycleModel.close, Proc.returns_bind_iff, Proc.returns_get_iff,
      Proc.returns_lift_iff, Proc.returns_set_iff] at hclose
    obtain ⟨_, _, _, _, ⟨rfl, rfl, -⟩, ⟨_, _, _, _, ⟨-, rfl, -⟩, ⟨rfl, -⟩, -⟩, -⟩ := hclose
    rfl
  have hholds : Holds epoch (TcuCycleModel.close terminal m).state q := h.holds.close
  rw [show (TcuCycleModel.close terminal m).state = m' by rw [hclose]] at hholds
  subst hm'
  exact
    { profile := h.profile
      replayed := h.replayed
      holds := hholds
      timed := ⟨h.timed.now_eq, h.timed.start_eq, h.timed.paused_eq, h.timed.lag⟩
      trace := h.trace
      running := h.running
      history := ⟨h.history.labels, h.history.lastLabel, h.history.dues, h.history.lastDue⟩
      supply := by simp }

end Tracks

/-- Every run of a cleared unit is a trace of the agenda. -/
theorem exists_tracks {epoch t₀ i₀ s t : ℕ} {m₀ m : TcuCycleModel} {records : List EdgeRecord}
    (hp : 0 < m₀.profile.clock.period) (h : Cleared epoch m₀)
    (ht₀ : t₀ = m₀.profile.clock.phase + m₀.profile.clock.period * i₀)
    (hs : m₀.start = m₀.profile.clock.phase + m₀.profile.clock.period * s)
    (hrun : Run epoch m₀ t₀ records m t) :
    ∃ ticks q, Tracks epoch m₀ t₀ i₀ s records m t ticks q := by
  induction hrun with
  | start => exact ⟨[], [], .start h ht₀ hs⟩
  | step _ hstep ih =>
    obtain ⟨ticks, q, htracks⟩ := ih
    obtain ⟨trigger, admission, hstepped⟩ := stepped_of_returns hstep
    have hprofile := htracks.profile
    exact ⟨_, _, htracks.step (hprofile ▸ hp) (hprofile ▸ ht₀) hstepped⟩
  | close _ hclose ih =>
    obtain ⟨ticks, q, htracks⟩ := ih
    exact ⟨ticks, q, htracks.close hclose⟩

end TcuCycleModel
end Qsbit

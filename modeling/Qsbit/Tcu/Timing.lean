import Qsbit.Tcu.Manifest
import Qsbit.Tcu.Run

/-!
# Exact triggering and the wait-0 guarantee

Read through the agenda, a run of the timing control unit launches every admitted
point on one edge: the one whose number since the start, less the paused edges,
is the point's due cycle. A pause for want of instructions stands exactly one
cycle after the last due, so whatever arrives during it is in time. Where an edge of the
pause is left out, the cycle goes on.

## Main definitions

* `ExactTriggering` — what the records of a run say about launches.
* `exact_triggering` — every run from a started unit has it, and meets no overdue point.
* `Starved`, `SupplyPaused` — what holds during a supply pause, and if no edge is left out.
* `wait_zero_guarantee` — every reachable unit has the one, every run the other.
-/
namespace Qsbit
namespace TcuCycleModel
open Buckets

/-- The requests admitted in a run. -/
def admitted (records : List EdgeRecord) : List TimingEvents := records.filterMap (·.admitted)

/-- The labels launched in a run. -/
def launched (records : List EdgeRecord) : List ℕ := records.filterMap (·.launched)

/-- The number of paused edges from tick `first` on and before tick `last`. -/
def pausedIn (records : List EdgeRecord) (first last : ℕ) : ℕ :=
  records.countP fun r => r.paused ∧ first ≤ r.tick ∧ r.tick < last

/-- Every admitted point launches once, in order and on its edge. Point number `n + 1` has
its due cycle at position `n` of `dues`. -/
structure ExactTriggering (start period : ℕ) (records : List EdgeRecord) (t : ℕ) : Prop where
  labels : (admitted records).map (·.point.label) = List.range' 1 (admitted records).length
  order : ∃ n, launched records = List.range' 1 n
  exact : ∀ r ∈ records, ∀ n due, (dues (admitted records))[n]? = some due →
    (r.launched = some (n + 1) ↔
      r.paused = false ∧ r.tick = start + period * (due + pausedIn records start r.tick))
  earlier : ∀ pre r post n, records = pre ++ r :: post → r.launched = some n →
    1 ≤ n ∧ n ≤ (admitted pre).length
  passed : ∀ n due, (dues (admitted records))[n]? = some due →
    start + period * (due + pausedIn records start t) < t → n + 1 ∈ launched records

section Replay
variable {t₀ period start : ℕ} {ticks : List (Agenda.Tick Admission)}

theorem admitted_replay :
    admitted (replay t₀ period ticks) = (ticks.filterMap (·.added)).map (·.request) := by
  induction ticks using List.reverseRecOn with
  | nil => rfl
  | append_singleton ticks r ih =>
    rw [replay_concat, admitted, List.filterMap_append, List.filterMap_append, List.map_append]
    rw [admitted] at ih
    rw [ih]
    cases h : r.added <;> simp [toRecord, h]

theorem launched_replay :
    launched (replay t₀ period ticks) =
      (ticks.filterMap (·.fired)).map (·.request.point.label) := by
  induction ticks using List.reverseRecOn with
  | nil => rfl
  | append_singleton ticks r ih =>
    rw [replay_concat, launched, List.filterMap_append, List.filterMap_append, List.map_append]
    rw [launched] at ih
    rw [ih]
    cases h : r.fired <;> simp [toRecord, h]

/-- Wherever the records split, the ticks do. -/
theorem replay_eq_append {pre post : List EdgeRecord} {r : EdgeRecord}
    (h : replay t₀ period ticks = pre ++ r :: post) :
    ∃ xs x ys, ticks = xs ++ x :: ys ∧ pre = replay t₀ period xs ∧
      r = toRecord (t₀ + period * xs.length) x := by
  have hlen : ticks.length = pre.length + (post.length + 1) := by
    have := congrArg List.length h
    simpa [replay] using this
  obtain ⟨x, ys, hdrop⟩ : ∃ x ys, ticks.drop pre.length = x :: ys := by
    cases hd : ticks.drop pre.length with
    | nil =>
      have := List.drop_eq_nil_iff.1 hd
      omega
    | cons x ys => exact ⟨x, ys, rfl⟩
  have hsplit : ticks = ticks.take pre.length ++ x :: ys := by
    rw [← hdrop, List.take_append_drop]
  have htake : (ticks.take pre.length).length = pre.length := by
    rw [List.length_take]
    omega
  rw [hsplit, replay, List.mapIdx_append, List.mapIdx_cons] at h
  obtain ⟨hpre, hrest⟩ := List.append_inj h (by rw [List.length_mapIdx, htake])
  refine ⟨_, x, ys, hsplit, hpre.symm, ?_⟩
  rw [← (List.cons.inj hrest).1, Nat.zero_add]

/-- Counting the paused edges before an edge counts the frozen ticks before it. -/
theorem pausedIn_replay (hp : 0 < period)
    (hrunning : ∀ r ∈ replay t₀ period ticks, r.paused = true → start ≤ r.tick) (j : ℕ) :
    pausedIn (replay t₀ period ticks) start (t₀ + period * j) =
      (ticks.take j).countP (·.frozen) := by
  induction ticks using List.reverseRecOn with
  | nil => simp [replay, pausedIn]
  | append_singleton ticks r ih =>
    rw [replay_concat] at hrunning ⊢
    have hinit := ih fun r hr => hrunning r (List.mem_append_left _ hr)
    have hlast := hrunning _ (List.mem_append_right _ (List.mem_singleton_self _))
    simp only [toRecord] at hlast
    rw [pausedIn, List.countP_append, ← pausedIn, hinit, List.countP_singleton]
    simp only [toRecord]
    rcases Nat.lt_or_ge ticks.length j with hj | hj
    · have htick : t₀ + period * ticks.length < t₀ + period * j :=
        Nat.add_lt_add_left (Nat.mul_lt_mul_of_pos_left hj hp) _
      rw [List.take_of_length_le (l := ticks) (by omega),
        List.take_of_length_le (by simp; omega), List.countP_append, List.countP_singleton]
      by_cases hf : r.frozen = true
      · simp [hf, hlast hf, htick]
      · simp [hf]
    · have htick : ¬ t₀ + period * ticks.length < t₀ + period * j :=
        Nat.not_lt.2 (Nat.add_le_add_left (Nat.mul_le_mul_left _ hj) _)
      rw [List.take_append_of_le_length hj]
      simp [htick]

end Replay

namespace Tracks
variable {epoch t₀ i₀ s t : ℕ} {m₀ m : TcuCycleModel} {records : List EdgeRecord}
  {ticks : List (Agenda.Tick Admission)} {q : List Admission}

/-- Positions of admissions are their labels. -/
theorem label_of_getElem (h : Tracks epoch m₀ t₀ i₀ s records m t ticks q) {n : ℕ}
    {a : Admission} (ha : (ticks.filterMap (·.added))[n]? = some a) :
    a.request.point.label = n + 1 := by
  obtain ⟨hn, -⟩ := List.getElem?_eq_some_iff.1 ha
  have hlabel := congrArg (·[n]?) h.history.labels
  simp only [List.getElem?_map, ha, Option.map_some, List.getElem?_range' hn,
    Option.some.injEq] at hlabel
  omega

/-- The admission behind a due cycle of the run. -/
theorem admission_of_due (h : Tracks epoch m₀ t₀ i₀ s records m t ticks q) {n due : ℕ}
    (hdue : (dues (admitted records))[n]? = some due) :
    ∃ a, (ticks.filterMap (·.added))[n]? = some a ∧ a.due = due := by
  rw [h.replayed, admitted_replay, ← h.history.dues, List.getElem?_map,
    Option.map_eq_some_iff] at hdue
  exact hdue

theorem exactTriggering (h : Tracks epoch m₀ t₀ i₀ s records m t ticks q)
    (hp : 0 < m.profile.clock.period)
    (ht₀ : t₀ = m.profile.clock.phase + m.profile.clock.period * i₀) :
    ExactTriggering m.start m.profile.clock.period records t := by
  have hready := Agenda.ready_nil (edgeOf s) i₀
  have hconserve := h.trace.conserve
  rw [List.nil_append] at hconserve
  have hlag := h.timed.lag
  -- What an edge tick says in terms of edge numbers.
  have hscale : ∀ j due k, t₀ + m.profile.clock.period * j =
      m.start + m.profile.clock.period * (due + k) ↔ i₀ + j = s + (due + k) := by
    intro j due k
    rw [ht₀, h.timed.start_eq, Nat.add_assoc, Nat.add_assoc, ← Nat.mul_add, ← Nat.mul_add,
      Nat.add_left_cancel_iff, Nat.mul_right_inj hp.ne']
  refine
    { labels := ?_
      order := ?_
      exact := ?_
      earlier := ?_
      passed := ?_ }
  · rw [h.replayed, admitted_replay, List.map_map, List.length_map]
    exact h.history.labels
  · have hprefix : launched records <+: List.range' 1 (ticks.filterMap (·.added)).length := by
      rw [h.replayed, launched_replay, ← h.history.labels, hconserve, List.map_append]
      exact List.prefix_append ..
    refine ⟨(launched records).length, ?_⟩
    have hlen := hprefix.length_le
    rw [List.length_range'] at hlen
    rw [List.prefix_iff_eq_take.1 hprefix, List.take_range'_of_length_ge hlen]
    simp
  · intro r hr n due hdue
    obtain ⟨a, ha, rfl⟩ := h.admission_of_due hdue
    obtain ⟨pre, post, hsplit⟩ := List.append_of_mem hr
    have hrecords := h.replayed
    rw [hsplit] at hrecords
    obtain ⟨xs, x, ys, rfl, -, rfl⟩ := replay_eq_append hrecords.symm
    have hpaused : pausedIn records m.start (t₀ + m.profile.clock.period * xs.length) =
        xs.countP (·.frozen) := by
      have hrunning := h.running
      rw [h.replayed] at hrunning ⊢
      rw [pausedIn_replay hp hrunning, List.take_left']
      rfl
    have hcount := List.length_eq_countP_add_countP (·.frozen) (l := xs)
    have hfired := h.trace.fired_iff hready a
    have hmem : a ∈ ([] : List Admission) ++ (xs ++ x :: ys).filterMap (·.added) :=
      List.mem_of_getElem? ha
    have hkey : edgeOf s a = i₀ + xs.countP (!·.frozen) ↔
        t₀ + m.profile.clock.period * xs.length =
          m.start + m.profile.clock.period * (a.due + xs.countP (·.frozen)) := by
      rw [hscale]
      simp only [edgeOf, Bool.not_eq_true, Bool.decide_eq_false] at hcount ⊢
      omega
    simp only [toRecord] at *
    rw [hpaused, ← hkey, Option.map_eq_some_iff]
    constructor
    · rintro ⟨b, hb, hlabel⟩
      -- Two admissions with one label are one admission.
      obtain ⟨hfrozen, hbmem, hbkey⟩ := (h.trace.fired_iff hready b).1 hb
      obtain ⟨k, hk⟩ := List.mem_iff_getElem?.1 hbmem
      have hklabel := h.label_of_getElem hk
      obtain rfl : k = n := by omega
      obtain rfl : a = b := Option.some.inj (ha.symm.trans hk)
      exact ⟨hfrozen, hbkey⟩
    · rintro ⟨hfrozen, hedge⟩
      exact ⟨a, hfired.2 ⟨hfrozen, hmem, hedge⟩, h.label_of_getElem ha⟩
  · intro pre r post n hsplit hlaunched
    have hrecords := h.replayed
    rw [hsplit] at hrecords
    obtain ⟨xs, x, ys, rfl, rfl, rfl⟩ := replay_eq_append hrecords.symm
    rw [admitted_replay, List.length_map]
    obtain ⟨a, ha, rfl⟩ := Option.map_eq_some_iff.1 hlaunched
    have hmem := h.trace.mem_of_fired ha
    rw [List.nil_append] at hmem
    obtain ⟨k, hk⟩ := List.mem_iff_getElem?.1 hmem
    obtain ⟨hlt, -⟩ := List.getElem?_eq_some_iff.1 hk
    have hall : ((xs ++ x :: ys).filterMap (·.added))[k]? = some a := by
      rw [List.filterMap_append, List.getElem?_append_left hlt, hk]
    have hlabel := h.label_of_getElem hall
    omega
  · intro n due hdue hpassed
    obtain ⟨a, ha, rfl⟩ := h.admission_of_due hdue
    have ht : t = t₀ + m.profile.clock.period * ticks.length := by
      rw [h.timed.now_eq, ht₀, Nat.mul_add]
      omega
    have hpaused : pausedIn records m.start t = ticks.countP (·.frozen) := by
      have hrunning := h.running
      rw [h.replayed] at hrunning ⊢
      rw [ht, pausedIn_replay hp hrunning, List.take_length]
    rw [hpaused, h.timed.now_eq, h.timed.start_eq, Nat.add_assoc, Nat.add_lt_add_iff_left,
      ← Nat.mul_add, Nat.mul_lt_mul_left hp] at hpassed
    have hfired := h.trace.fired_of_key_lt hready (List.mem_of_getElem? ha)
      (show s + a.due < i₀ + ticks.length - ticks.countP (·.frozen) by omega)
    rw [h.replayed, launched_replay, ← h.label_of_getElem ha]
    exact List.mem_map_of_mem hfired

/-- No point is overdue: the head of the queue is due now or later. -/
theorem cycle_le_due (h : Tracks epoch m₀ t₀ i₀ s records m t ticks q)
    (hp : 0 < m.profile.clock.period) {sp : Bool} {point : Point}
    (hpoint : point ∈ m.timing.head?)
    (hrunning : (m.currentTimingState t sp).running = true) :
    (m.currentTimingState t sp).cycle ≤ point.due := by
  rw [h.holds.timing, List.head?_map] at hpoint
  obtain ⟨a, ha, rfl⟩ := Option.map_eq_some_iff.1 hpoint
  have hready := h.trace.ready (Agenda.ready_nil (edgeOf s) i₀)
  have hkey : i₀ + ticks.length - ticks.countP (·.frozen) ≤ s + a.due :=
    hready.clock_le a (List.mem_of_mem_head? ha)
  have hsi : s ≤ i₀ + ticks.length :=
    (h.timed.start_le_iff hp).1 (by simpa [currentTimingState] using hrunning)
  rw [h.timed.cycle_eq hp hsi]
  show _ ≤ a.due
  omega

/-- A fault of the next step is never an overdue point, unless a callback says so. -/
theorem not_overdue (h : Tracks epoch m₀ t₀ i₀ s records m t ticks q)
    (hp : 0 < m.profile.clock.period) {χ : Type} {candidate : Option TimingEvents}
    {results : List Completion} {preflight : TriggeredEvents → Except Fault Unit} {sp : Bool}
    {syncPreflight : Option (List ℕ → Sim χ Unit)} {c c' : χ} {m' : TcuCycleModel}
    {l : List TraceEvent} (hpreflight : ∀ batch f, preflight batch ≠ .error f)
    (hsync : ∀ check ∈ syncPreflight, ∀ targets c f c' l, ¬ (check targets).Raises c f c' l) :
    ¬ (TcuCycleModel.step t epoch candidate results preflight sp syncPreflight).Raises (m, c)
      ⟨.lateAdmission, "queued point missed its firing edge"⟩ (m', c') l := by
  intro hr
  obtain ⟨-, hf | ⟨_, _, hf⟩ | ⟨a, -, hf⟩ | hf | hf⟩ := raises_of_step hr
  · simp at hf
  · obtain ⟨point, hpoint, hrunning, -, hdue, hf | ⟨batch, hf⟩ | hf | ⟨check, targets, c₁, l₁,
      hcheck, hf⟩⟩ := prepareTrigger_raises hf
    · have hdue' : point.due = (m.currentTimingState t sp).cycle :=
        le_antisymm hdue (h.cycle_le_due hp hpoint hrunning)
      rcases h.holds.assembleTrigger_error hpoint hf with ⟨hne, -⟩ | hcode
      · exact hne hdue'
      · simp at hcode
    · exact hpreflight batch _ hf
    · simp at hf
    · exact hsync check hcheck targets _ _ _ _ hf
  · have := (prepareAdmission_eq_error hf).message rfl
    simp at this
  · have := ExecutionFlags.code_of_commitAll hf
    simp at this
  · simp at hf

end Tracks

section Runs
variable {p : Profile} {fingerprint : String} {config : TcuConfig} {syncCapacity epoch t₀ t : ℕ}
  {m₀ m : TcuCycleModel} {records : List EdgeRecord}

/-- A run from a started unit of a validated profile can be tracked. -/
theorem tracks_of_started (hvalid : p.validate = .ok ())
    (hconfig : tcuConfig fingerprint p = .ok config) (hstarted : Started config syncCapacity m₀)
    (hrun : Run epoch m₀ t₀ records m t) :
    m.profile = config ∧ m.start = m₀.start ∧ 0 < config.clock.period ∧
      ∃ i₀ s ticks q, t₀ = config.clock.phase + config.clock.period * i₀ ∧
        Tracks epoch m₀ t₀ i₀ s records m t ticks q := by
  have hp := Profile.valid_of_validate hvalid
  simp only [tcuConfig, Except.bind_eq_ok_iff, Except.pure_eq_ok_iff] at hconfig
  obtain ⟨timing, -, rfl⟩ := hconfig
  obtain ⟨hprofile, hcleared⟩ := cleared_of_started hp.start hstarted epoch
  obtain ⟨s, hs⟩ := Clock.edge_iff.1 hcleared.start
  obtain ⟨i₀, ht₀⟩ : ∃ i₀, t₀ = m₀.profile.clock.phase + m₀.profile.clock.period * i₀ := by
    refine Clock.edge_iff.1 ?_
    clear hs
    induction hrun with
    | start h => exact h
    | step _ _ ih => exact ih
    | close _ _ ih => exact ih
  have hperiod : 0 < m₀.profile.clock.period := by
    rw [hprofile]
    exact hp.tcu.period_pos
  obtain ⟨ticks, q, h⟩ := exists_tracks hperiod hcleared ht₀ hs hrun
  refine ⟨h.profile.trans hprofile, ?_, hp.tcu.period_pos, i₀, s, ticks, q, ?_, h⟩
  · rw [h.timed.start_eq, h.profile, ← hs]
  · rw [ht₀, hprofile]

/-- Every point admitted in a run launches exactly on its edge, and no point is ever found
to be overdue. -/
theorem exact_triggering (hvalid : p.validate = .ok ())
    (hconfig : tcuConfig fingerprint p = .ok config) (hstarted : Started config syncCapacity m₀)
    (hrun : Run epoch m₀ t₀ records m t) :
    ExactTriggering m₀.start config.clock.period records t ∧
      ∀ {χ : Type} (candidate : Option TimingEvents) (results : List Completion)
        (preflight : TriggeredEvents → Except Fault Unit) (synchronizationPaused : Bool)
        (syncPreflight : Option (List ℕ → Sim χ Unit)) (c c' : χ) (m' : TcuCycleModel)
        (l : List TraceEvent),
        (∀ batch f, preflight batch ≠ .error f) →
        (∀ check ∈ syncPreflight, ∀ targets c f c' l, ¬ (check targets).Raises c f c' l) →
        ¬ (step t epoch candidate results preflight synchronizationPaused syncPreflight).Raises
          (m, c) ⟨.lateAdmission, "queued point missed its firing edge"⟩ (m', c') l := by
  obtain ⟨hprofile, hstart, hp, i₀, s, ticks, q, ht₀, h⟩ :=
    tracks_of_started hvalid hconfig hstarted hrun
  rw [← hprofile] at hp ht₀
  have hexact := h.exactTriggering hp ht₀
  rw [hprofile, hstart] at hexact
  refine ⟨hexact, ?_⟩
  intro χ candidate results preflight sp syncPreflight c c' m' l hpreflight hsync
  exact h.not_overdue hp hpreflight hsync

/-- A point due one cycle after the start launches one edge late, because the edge of the
start is paused. -/
theorem exact_triggering_paused : ∃ records : List EdgeRecord,
    records.map (·.launched) = [none, none, none, some 1] ∧
      records.map (·.paused) = [false, true, false, false] ∧
      ExactTriggering 1000 20 records 1060 := by
  have hconfig : tcuConfig "" oneGate = .ok oneGateConfig := rfl
  have hunit : Started oneGateConfig 8 oneGateUnit := .make rfl
  have hdrive : drive 1 oneGateUnit 980 [{ candidate := some oneGateRequest },
      { synchronizationPaused := true }, {}, {}] = .ok _ := rfl
  refine ⟨_, ?_, ?_, (exact_triggering (by decide) hconfig hunit
    (run_of_drive (.start (by decide)) hdrive)).1⟩
  · decide
  · decide

/-- What holds whenever the unit waits for instructions. -/
structure Starved (m : TcuCycleModel) (t epoch : ℕ) (state : TimingState) : Prop where
  timing : m.timing = []
  events : ∀ queue ∈ m.events, queue = []
  triggeredPolicy : m.triggeredPolicy = .pauseWhenEmpty
  admittedPolicy : m.admittedPolicy = .pauseWhenEmpty
  fresh : ∀ candidate : TimingEvents, validateTimingEvents candidate m.profile.timing = .ok () →
    ∀ f, m.prepareAdmission t epoch candidate state.pause = .error f →
      f.message ≠ "duplicate logical time point"

/-- What holds on an edge on which the unit waits for instructions, if no edge has been left out. -/
structure SupplyPaused (m : TcuCycleModel) (t epoch : ℕ) (state : TimingState) : Prop where
  timing : m.timing = []
  events : ∀ queue ∈ m.events, queue = []
  cycle : state.cycle = m.lastDue + 1
  triggeredPolicy : m.triggeredPolicy = .pauseWhenEmpty
  admittedPolicy : m.admittedPolicy = .pauseWhenEmpty
  in_time : ∀ candidate : TimingEvents, candidate.point.epoch = epoch →
    candidate.point.label = m.lastLabel + 1 →
    validateTimingEvents candidate m.profile.timing = .ok () →
    ∀ f, m.prepareAdmission t epoch candidate state.pause = .error f →
      f.code ≠ .lateAdmission ∧ f.message ≠ "duplicate logical time point"

theorem starved_of_supply {t : ℕ} {sp : Bool} {q : List Admission} (h : Holds epoch m q)
    (hsupply : (m.currentTimingState t sp).pause.instructionSupply = true) :
    Starved m t epoch (m.currentTimingState t sp) := by
  simp only [currentTimingState, Bool.and_eq_true, decide_eq_true_eq, List.isEmpty_iff,
    Bool.not_eq_true'] at hsupply
  obtain ⟨⟨⟨-, htriggered⟩, htiming⟩, -⟩ := hsupply
  have hq : q = [] := by
    have := h.timing
    rw [htiming] at this
    exact List.map_eq_nil_iff.1 this.symm
  have hpolicy : m.admittedPolicy = .pauseWhenEmpty := by
    rw [h.policy, hq]
    exact htriggered
  refine ⟨htiming, fun queue hqueue => ?_, htriggered, hpolicy, fun candidate hvalidated f hf => ?_⟩
  · rw [h.events, hq, List.flatMap_nil, spread_nil] at hqueue
    exact List.eq_of_mem_replicate hqueue
  · cases prepareAdmission_eq_error hf with
    | closed hclosed => simp
    | invalid hinvalid => simp [hvalidated] at hinvalid
    | identity hidentity => simp
    | duplicate _ _ hadmitted => exact absurd hpolicy hadmitted
    | overflow hoverflow => rcases hoverflow with rfl | rfl <;> simp
    | late due hdue hdeadline => simp
    | synchronizations => simp

/-- The admitted policy is what the queue makes of the triggered one, and while the unit waits for
instructions its queues are empty. If no edge has been left out, nothing it could be sent is late. -/
theorem wait_zero_guarantee (hvalid : p.validate = .ok ())
    (hconfig : tcuConfig fingerprint p = .ok config) :
    (∀ epoch m, Reachable config syncCapacity epoch m →
      m.admittedPolicy =
          m.timing.foldl (fun policy x => policyAfter x.point policy) m.triggeredPolicy ∧
        ∀ t synchronizationPaused,
        (m.currentTimingState t synchronizationPaused).pause.instructionSupply = true →
        Starved m t epoch (m.currentTimingState t synchronizationPaused)) ∧
      ∀ m₀ epoch t₀ records m t, Started config syncCapacity m₀ →
        Run epoch m₀ t₀ records m t → ∀ synchronizationPaused,
        (m.currentTimingState t synchronizationPaused).pause.instructionSupply = true →
        SupplyPaused m t epoch (m.currentTimingState t synchronizationPaused) := by
  constructor
  · intro epoch m h
    obtain ⟨-, -, q, hq⟩ := exists_holds h
    refine ⟨?_, fun t sp hsupply => starved_of_supply hq hsupply⟩
    rw [hq.policy, hq.timing, List.foldl_map]
    rfl
  · intro m₀ epoch t₀ records m t hstarted hrun sp hsupply
    obtain ⟨hprofile, -, hp, i₀, s, ticks, q, -, h⟩ :=
      tracks_of_started hvalid hconfig hstarted hrun
    rw [← hprofile] at hp
    obtain ⟨htiming, hevents, htriggered, hpolicy, hfresh⟩ := starved_of_supply h.holds hsupply
    have hpause := hsupply
    simp only [currentTimingState, Bool.and_eq_true, decide_eq_true_eq, List.isEmpty_iff,
      Bool.not_eq_true'] at hpause
    obtain ⟨⟨⟨hrunning, -⟩, -⟩, hopen⟩ := hpause
    obtain ⟨hlabel, hclock⟩ := h.supply htriggered htiming hopen
    have hsi : s ≤ i₀ + ticks.length := (h.timed.start_le_iff hp).1 hrunning
    refine
      { timing := htiming
        events := hevents
        cycle := ?_
        triggeredPolicy := htriggered
        admittedPolicy := hpolicy
        in_time := ?_ }
    · rw [h.timed.cycle_eq hp hsi]
      omega
    · intro candidate hepoch hnext hvalidated f hf
      refine ⟨?_, hfresh candidate hvalidated f hf⟩
      have hlag := h.timed.lag
      cases prepareAdmission_eq_error hf with
      | closed hclosed => simp
      | invalid hinvalid => simp [hvalidated] at hinvalid
      | identity hidentity => simp
      | duplicate => simp
      | overflow hoverflow => rcases hoverflow with rfl | rfl <;> simp
      | late due hdue hdeadline =>
        -- The frozen cycle is the earliest due a successor can have.
        rw [if_neg hlabel] at hdue
        have hin : m.meetsDeadline t (m.start + m.pausedTicks + due * m.profile.clock.period)
            (m.currentTimingState t sp).pause = true := by
          simp only [meetsDeadline, hpolicy, hsupply, Bool.or_eq_true, Bool.and_eq_true,
            decide_eq_true_eq, true_and, and_true, decide_true, h.timed.lt_dueTick_iff hp,
            h.timed.eq_dueTick_iff hp]
          omega
        simp [hin] at hdeadline
      | synchronizations => simp

/-- The request of a gate after which the unit waits for instructions. -/
def pausingRequest : TimingEvents :=
  { oneGateRequest with point := { oneGateRequest.point with underflowPolicy := .pauseWhenEmpty } }

/-- After a point that pauses the unit has launched, the next edge waits for instructions. -/
theorem wait_zero_guarantee_paused : ∃ m : TcuCycleModel,
    SupplyPaused m 1040 1 (m.currentTimingState 1040 false) ∧
      (m.currentTimingState 1040 false).cycle = 2 := by
  have hconfig : tcuConfig "" oneGate = .ok oneGateConfig := rfl
  have hunit : Started oneGateConfig 8 oneGateUnit := .make rfl
  have hdrive : drive 1 oneGateUnit 980 [{ candidate := some pausingRequest }, {}, {}] = .ok _ := rfl
  refine ⟨_, (wait_zero_guarantee (by decide) hconfig).2 _ _ _ _ _ _ hunit
    (run_of_drive (.start (by decide)) hdrive) false (by decide), ?_⟩
  decide

/-- Where the edge at tick 1040 is left out, the cycle goes on during the pause, and the next request
is late on the edge at tick 1060. -/
theorem wait_zero_guarantee_skipped : ∃ m : TcuCycleModel, Reachable oneGateConfig 8 1 m ∧
    m.profile.clock.edge 1060 ∧
    (m.currentTimingState 1060 false).pause.instructionSupply = true ∧
    (m.currentTimingState 1060 false).cycle = 3 ∧ m.lastDue = 1 ∧
    nextGateRequest.point.epoch = 1 ∧ nextGateRequest.point.label = m.lastLabel + 1 ∧
    validateTimingEvents nextGateRequest m.profile.timing = .ok () ∧
    m.prepareAdmission 1060 1 nextGateRequest (m.currentTimingState 1060 false).pause =
      .error ⟨.lateAdmission, "request arrived on or after its original deadline"⟩ := by
  have hunit : Reachable oneGateConfig 8 1 oneGateUnit := .make 1 rfl
  have hadmitted := hunit.step (χ := Unit) 980 (some pausingRequest) [] (fun _ => pure ()) false none ()
  have hwaited := hadmitted.step (χ := Unit) 1000 none [] (fun _ => pure ()) false none ()
  have hlaunched := hwaited.step (χ := Unit) 1020 none [] (fun _ => pure ()) false none ()
  exact ⟨_, hlaunched, by decide, by decide, by decide, by decide, rfl, by decide, rfl, rfl⟩

end Runs

end TcuCycleModel
end Qsbit

import Qsbit.Device.Lifecycle
import Qsbit.Simulator.Barrier

/-!
# Nothing is missed

A barrier sets the wakeup to the next tick on which something is due: a boundary of the device
or of the decoders, or a reset. So nothing is ever overdue. A tick that is left out would have
changed nothing, every reset is applied once, and a boundary of the device is processed on its
own tick after all edges of the tick.

## Main definitions

* `Simulator.Ahead` — what is left after a tick is ahead of it.
* `Simulator.OnTick` — what holds while the methods of a tick are activated.
* `Simulator.Answered` — what the processors have answered on the last tick.
* `Simulator.Punctual` — what an activation finds that is on time.
* `skipped_ticks`, `resets_once`, `boundaries_on_time` — what follows.
-/
namespace Qsbit
namespace Simulator
open Std (ExtTreeMap)
variable {β : Type} {backend : QuantumBackend β} {s s' : Simulator β} {now t u : ℕ} {v : Unit}
  {idle : ℕ → Bool} {l : List TraceEvent} {launched : List (ℕ × TriggeredEvents)}
  {a : Activation} {acts rest : List Activation} {last : Option ℕ}

/-! ## The next wakeup -/

theorem le_foldl_min_iff {w first : ℕ} {ticks : List ℕ} :
    w ≤ ticks.foldl min first ↔ w ≤ first ∧ ∀ tick ∈ ticks, w ≤ tick := by
  induction ticks generalizing first with
  | nil => simp
  | cons tick rest ih =>
    rw [List.foldl_cons, ih, List.forall_mem_cons, Nat.le_min, and_assoc]

theorem le_find_iff {w : ℕ} {resets : List ℕ} (hsorted : resets.Pairwise (· < ·)) :
    (∀ r ∈ resets.find? (t < ·), w ≤ r) ↔ ∀ r ∈ resets, t < r → w ≤ r := by
  induction resets with
  | nil => simp
  | cons r rest ih =>
    obtain ⟨hfirst, hrest⟩ := List.pairwise_cons.1 hsorted
    by_cases hlt : t < r
    · simp only [List.find?_cons, hlt, decide_true, Option.mem_some, forall_eq', List.forall_mem_cons,
        forall_const]
      exact ⟨fun hle => ⟨hle, fun r' hr' _ => hle.trans (hfirst r' hr').le⟩, fun h => h.1⟩
    · simp only [List.find?_cons, hlt, decide_false, ih hrest, List.forall_mem_cons, false_implies,
        true_and]

theorem le_boundary_iff {w : ℕ} {d : ControlElectronics β} :
    (∀ b ∈ d.nextBoundary, w ≤ b) ↔ ∀ b ∈ d.boundaries, w ≤ b := by
  constructor
  · intro h b hb
    obtain ⟨first, hfirst⟩ := Option.isSome_iff_exists.1 (ExtTreeMap.isSome_minKey?_of_mem hb)
    have hle := (ExtTreeMap.minKey?_eq_some_iff_mem_and_forall.1 hfirst).2 b hb
    rw [Nat.isLE_compare] at hle
    exact (h first hfirst).trans hle
  · intro h b hb
    exact h b (ExtTreeMap.minKey?_mem hb)

/-- The next wakeup is the first of what lies ahead. -/
theorem le_nextWake_iff {w : ℕ} (hsorted : s.resets.Pairwise (· < ·)) : w ≤ s.nextWake t ↔
    w ≤ s.profile.watchdog ∧ (∀ b ∈ s.decoders.nextBoundary t, w ≤ b) ∧
      (∀ b ∈ s.device.boundaries, w ≤ b) ∧ ∀ r ∈ s.resets, t < r → w ≤ r := by
  rw [nextWake, le_foldl_min_iff, ← le_boundary_iff, ← le_find_iff hsorted]
  simp only [List.mem_append, Option.mem_toList, Option.mem_def, or_imp, forall_and, and_assoc]

/-! ## Between two ticks -/

/-- Every reset up to a tick has been applied once. -/
structure Applied (t : ℕ) (s : Simulator β) : Prop where
  sorted : s.resets.Pairwise (· < ·)
  positive : ∀ r ∈ s.resets, 0 < r
  reached : ∀ r ∈ s.resets, r < t → r ≤ s.lastReset.getD 0
  proper : ∀ r ∈ s.lastReset, r ∈ s.resets ∧ r ≤ t
  epoch : s.epoch = 1 + s.resets.countP (· ≤ s.lastReset.getD 0)

/-- What is left after a tick is ahead of it. -/
structure Ahead (last : Option ℕ) (s : Simulator β) : Prop where
  applied : Applied (last.getD 0) s
  reset : last.getD 0 ∈ s.resets → s.lastReset = some (last.getD 0)
  wake : s.wake = some (s.nextWake (last.getD 0))
  later : last.getD 0 < s.nextWake (last.getD 0)
  boundaries : ∀ b ∈ s.device.boundaries, last.getD 0 < b
  decoders : DecoderSystem.Settled (last.getD 0) s.decoders
  lastTick : s.device.lastTick ≤ last.getD 0
  processed : ∀ p ∈ s.device.processedTick, ∃ t ∈ last, p ≤ t

/-- While the methods of a tick are activated, nothing is overdue, and a boundary of the tick has
not been processed before its last edge. -/
structure OnTick (now : ℕ) (s : Simulator β) : Prop where
  applied : Applied now s
  boundaries : ∀ b ∈ s.device.boundaries, now ≤ b
  lastTick : s.device.lastTick ≤ now
  processed : ∀ p ∈ s.device.processedTick, p ≤ now
  before : s.waits now = true ∨ now ∈ s.device.boundaries → ∀ p ∈ s.device.processedTick, p < now
  cleared : now ∈ s.resets → s.lastReset = some now → s.device.boundaries = ∅
  decoders : now ∈ s.resets → s.lastReset = some now → DecoderSystem.Settled now s.decoders

/-- A run starts with nothing to be done. -/
theorem Started.ahead (h : Started backend s) : Ahead none s := by
  obtain ⟨decoding, hdecoders⟩ := h.decoders
  obtain ⟨profile, state, limit, hdevice⟩ := h.device
  obtain ⟨hboundaries, -, -, -, hlast, hprocessed⟩ := (Begins.make hdevice).empty
  simp only [DecoderSystem.make, Except.bind_eq_ok_iff, require_eq_ok_iff, exists_const,
    Except.pure_eq_ok_iff] at hdecoders
  obtain ⟨mmio, -, -, _, -, hdecoders⟩ := hdecoders
  have hpositive : ∀ r ∈ s.resets, 0 < r := fun r hr => (h.inside r hr).1
  refine
    { applied := ⟨h.sorted, hpositive, by simp, by simp [h.lastReset], ?_⟩
      reset := fun hmem => absurd (hpositive 0 hmem) (lt_irrefl 0)
      wake := h.wake
      later := h.later
      boundaries := by simp [hboundaries]
      decoders := ?_
      lastTick := hlast.le
      processed := by simp [hprocessed] }
  · rw [h.epoch, h.lastReset, List.countP_eq_zero.2]
    intro r hr
    simpa using (hpositive r hr).ne'
  · rw [← hdecoders]
    exact (DecoderSystem.sleeps_of_empty rfl rfl rfl).2 0 le_rfl (by simp)

/-- The next tick is not after anything that lies ahead. -/
theorem Ahead.next_le (h : Ahead last s) (next : s.Next last now) :
    now ≤ s.nextWake (last.getD 0) := by
  by_contra hlt
  rw [not_le] at hlt
  have hlater : ∀ t ∈ last, t < s.nextWake (last.getD 0) := by
    intro t ht
    rw [Option.mem_def] at ht
    have hlater := h.later
    rwa [ht, Option.getD_some] at hlater ⊢
  have hnot := next.first _ hlt hlater .wakeup
  simp [due, h.wake] at hnot

theorem Ahead.onTick (h : Ahead last s) (next : s.Next last now) : OnTick now s := by
  have hle := h.next_le next
  obtain ⟨-, -, hboundaries, hresets⟩ := (le_nextWake_iff h.applied.sorted).1 hle
  have hnow : last.getD 0 ≤ now := by
    cases last with
    | none => exact Nat.zero_le now
    | some t => exact (next.later t rfl).le
  have hprocessed : ∀ p ∈ s.device.processedTick, p < now := by
    intro p hp
    obtain ⟨t, ht, hle⟩ := h.processed p hp
    exact hle.trans_lt (next.later t ht)
  have hnew : now ∈ s.resets → s.lastReset ≠ some now := by
    intro hmem hlast
    have hle := (h.applied.proper now hlast).2
    cases last with
    | none => exact absurd (h.applied.positive now hmem) (by simpa using hle)
    | some t => exact absurd (next.later t rfl) (by simpa using hle)
  exact
    { applied :=
        { h.applied with
          reached := by
            intro r hr hlt
            rcases lt_trichotomy r (last.getD 0) with hbefore | hsame | hafter
            · exact h.applied.reached r hr hbefore
            · rw [h.reset (hsame ▸ hr), Option.getD_some, hsame]
            · exact absurd (hresets r hr hafter) (not_le.2 hlt)
          proper := fun r hr => ⟨(h.applied.proper r hr).1, (h.applied.proper r hr).2.trans hnow⟩ }
      boundaries := hboundaries
      lastTick := h.lastTick.trans hnow
      processed := fun p hp => (hprocessed p hp).le
      before := fun _ => hprocessed
      cleared := fun hmem hlast => absurd hlast (hnew hmem)
      decoders := fun hmem hlast => absurd hlast (hnew hmem) }

/-! ## The reset of a tick -/

theorem countP_le_of_next {resets : List ℕ} {applied : ℕ} (hnodup : resets.Nodup)
    (hmem : now ∈ resets) (hlt : applied < now) (hnone : ∀ r ∈ resets, r < now → r ≤ applied) :
    resets.countP (· ≤ now) = resets.countP (· ≤ applied) + 1 := by
  have hsplit : ∀ resets : List ℕ, (∀ r ∈ resets, r < now → r ≤ applied) →
      resets.countP (· ≤ now) = resets.countP (· ≤ applied) + resets.count now := by
    intro resets hnone
    induction resets with
    | nil => rfl
    | cons r rest ih =>
      obtain ⟨hr, hrest⟩ := List.forall_mem_cons.1 hnone
      rw [List.countP_cons, List.countP_cons, List.count_cons, ih hrest]
      rcases lt_trichotomy r now with hbefore | rfl | hafter
      · simp only [hbefore.le, hr hbefore, hbefore.ne, decide_true, beq_iff_eq, if_true, if_false]
        omega
      · simp only [le_refl, not_le.2 hlt, decide_true, decide_false, beq_self_eq_true, if_true,
          Bool.false_eq_true, if_false]
        omega
      · simp only [not_le.2 hafter, not_le.2 (hlt.trans hafter), hafter.ne', decide_false, beq_iff_eq,
          Bool.false_eq_true, if_false]
        omega
  rw [hsplit resets hnone, hnodup.count, if_pos hmem]

theorem reset_frame {epoch : ℕ} {d d' : ControlElectronics β}
    (h : (ControlElectronics.reset backend now epoch).Returns d v d' l) :
    d'.boundaries = ∅ ∧ d'.lastTick = now ∧ d'.processedTick = none := by
  simp only [ControlElectronics.reset, Proc.returns_get_bind_iff] at h
  obtain ⟨_, d₁, _, _, hemit, h₁, -⟩ := Proc.returns_bind_iff.1 h
  rw [Proc.returns_modify_bind_iff] at h₁
  obtain ⟨_, d₂, _, _, hreset, h₂, -⟩ := Proc.returns_bind_iff.1 h₁
  obtain ⟨b, -, rfl⟩ := ControlElectronics.returns_onExecution_iff.1 hreset
  obtain ⟨rfl, -⟩ := Proc.returns_modify_iff.1 h₂
  exact ⟨rfl, rfl, rfl⟩

theorem ResetAt.onTick {reset : Bool} (h : ResetAt backend now s reset s' l) (ht : OnTick now s) :
    OnTick now s' := by
  have hcontrol := h.control
  cases h with
  | none h | applied h last => exact ht
  | @applies s₁ device l₁ l₂ hmem hnew cores reset =>
    have hkept := keeps_forEach_reset.returns cores
    simp only [around, outside, Prod.mk.injEq] at hkept
    obtain ⟨⟨-, hepoch, -⟩, -, hdecoders⟩ := hkept
    obtain ⟨hboundaries, hlast, hprocessed⟩ := reset_frame reset
    have hresets : s₁.resets = s.resets := congrArg Control.resets hcontrol
    have hgap : s.lastReset.getD 0 < now := by
      cases hr : s.lastReset with
      | none => exact ht.applied.positive now hmem
      | some r =>
        have hle := (ht.applied.proper r hr).2
        have hne : r ≠ now := fun heq => hnew (by rw [hr, heq])
        exact lt_of_le_of_ne hle hne
    refine
      { applied :=
          { sorted := ?_
            positive := ?_
            reached := fun r _ hlt => hlt.le
            proper := ?_
            epoch := ?_ }
        boundaries := by simp [hboundaries]
        lastTick := hlast.le
        processed := by simp [hprocessed]
        before := by simp [hprocessed]
        cleared := fun _ _ => hboundaries
        decoders := fun _ _ => ?_ }
    · change s₁.resets.Pairwise (· < ·)
      rw [hresets]
      exact ht.applied.sorted
    · change ∀ r ∈ s₁.resets, 0 < r
      rw [hresets]
      exact ht.applied.positive
    · intro r hr
      obtain rfl := Option.some.inj hr
      change now ∈ s₁.resets ∧ now ≤ now
      rw [hresets]
      exact ⟨hmem, le_rfl⟩
    · change s₁.epoch = 1 + s₁.resets.countP (· ≤ now)
      rw [hepoch, hresets, countP_le_of_next (ht.applied.sorted.imp ne_of_lt) hmem hgap
        ht.applied.reached, ht.applied.epoch, Nat.add_assoc]
    · change DecoderSystem.Settled now s₁.decoders
      rw [hdecoders]
      exact (DecoderSystem.sleeps_of_empty rfl rfl rfl).2 now le_rfl (by simp)

/-! ## The edges of a tick -/

theorem waits_of_stamp {m : Method} (hcontrol : s'.control = s.control.stamp now m)
    (h : s'.waits now = true) : s.waits now = true := by
  obtain ⟨m', hedge, hdue, hdone⟩ := waits_iff.1 h
  refine waits_iff.2 ⟨m', hedge, ?_, ?_⟩
  · rw [due_control, hcontrol] at hdue
    rw [due_control]
    cases m <;> cases m' <;> exact hdue
  · rw [done_control, hcontrol] at hdone
    rw [done_control]
    cases m <;> cases m' <;> simp_all [Control.stamp, Control.done]

theorem Applied.congr (h : Applied t s) (hresets : s'.resets = s.resets)
    (hepoch : s'.epoch = s.epoch) (hlast : s'.lastReset = s.lastReset) : Applied t s' where
  sorted := hresets ▸ h.sorted
  positive := hresets ▸ h.positive
  reached := by rw [hresets, hlast]; exact h.reached
  proper := by rw [hresets, hlast]; exact h.proper
  epoch := by rw [hepoch, hresets, hlast]; exact h.epoch

/-- What a method does not touch stays as it should be on the tick. -/
theorem OnTick.congr (h : OnTick now s) {m : Method} (hcontrol : s'.control = s.control.stamp now m)
    (hepoch : s'.epoch = s.epoch) (hlast : s'.lastReset = s.lastReset)
    (hdevice : s'.device = s.device)
    (hdecoders : now ∈ s.resets → s.lastReset = some now → s'.decoders = s.decoders) :
    OnTick now s' := by
  have hresets : s'.resets = s.resets := resets_of_stamp hcontrol
  refine
    { applied := h.applied.congr hresets hepoch hlast
      boundaries := by rw [hdevice]; exact h.boundaries
      lastTick := by rw [hdevice]; exact h.lastTick
      processed := by rw [hdevice]; exact h.processed
      before := ?_
      cleared := by rw [hresets, hlast, hdevice]; exact h.cleared
      decoders := ?_ }
  · rw [hdevice]
    exact fun hor => h.before (hor.imp_left (waits_of_stamp hcontrol))
  · rw [hresets, hlast]
    intro hmem hreset
    rw [hdecoders hmem hreset]
    exact h.decoders hmem hreset

theorem fireTick_of_deviceEvents {ids offsets : List ℕ} {i : ℕ} {batch image : TriggeredEvents}
    (h : Qsbit.deviceEvents ids offsets i batch = .ok image) : image.fireTick = batch.fireTick := by
  unfold Qsbit.deviceEvents at h
  split at h
  · obtain rfl := Except.pure_eq_ok_iff.1 h
    split <;> rfl
  · simp only [Except.bind_eq_ok_iff, Except.pure_eq_ok_iff] at h
    obtain ⟨events, -, rfl⟩ := h
    rfl

theorem fireTick_of_launch {preflight : TriggeredEvents → Except Fault Unit} {epoch : ℕ} {c c' : Core}
    {n n' : SyncNetwork} {out : TcuOutput} {batch : TriggeredEvents}
    (h : (Core.tcuEdge preflight now epoch).Returns (c, n) out (c', n') l)
    (hlaunch : out.launch = some batch) : batch.fireTick = now := by
  cases Core.tcuEdge_returns h with
  | intro sync step =>
    obtain ⟨trigger, admission, hstep⟩ := TcuCycleModel.stepped_of_returns step
    rw [hstep.launch, Option.map_eq_some_iff] at hlaunch
    obtain ⟨trigger', rfl, rfl⟩ := hlaunch
    cases hstep.fires with
    | head point rest trigger timing running unpaused due assembled =>
      exact (TcuCycleModel.batch_of_assembleTrigger assembled).2.2.1

/-- The edges of the units change the device by the launches of the tick only. -/
theorem tcuEdges_device {P : ControlElectronics β → Prop} {is : List ℕ}
    (hP : ∀ batch d d' l, batch.fireTick = now →
      (ControlElectronics.accept backend batch).Returns d () d' l → P d → P d')
    (h : (tcuEdges backend now is).Returns s launched s' l) (hs : P s.device) :
    P s'.device ∧ s'.decoders = s.decoders := by
  induction is generalizing s launched l with
  | nil =>
    obtain ⟨-, rfl, -⟩ := Proc.returns_pure_iff.1 h
    exact ⟨hs, rfl⟩
  | cons i rest ih =>
    rw [tcuEdges, Proc.returns_get_bind_iff] at h
    obtain ⟨out, s₁, l₁, k₁, hcore, h₁, -⟩ := Proc.returns_bind_iff.1 h
    obtain ⟨_, s₂, l₂, k₂, haccept, h₂, -⟩ := Proc.returns_bind_iff.1 h₁
    obtain ⟨launched', s₃, l₃, k₃, hrest, hpure, -⟩ := Proc.returns_bind_iff.1 h₂
    obtain ⟨-, rfl, -⟩ := Proc.returns_pure_iff.1 hpure
    have hkept := (keeps_onCore fun _ _ => keeps_core_tcuEdge).returns hcore
    simp only [around, Prod.mk.injEq] at hkept
    obtain ⟨c, c', n', l₀, -, hedge, -, -⟩ := returns_onCore hcore
    have haccepted : P s₂.device ∧ s₂.decoders = s₁.decoders := by
      cases hlaunch : out.launch with
      | none =>
        rw [hlaunch, Proc.forSome_none] at haccept
        obtain ⟨-, rfl, -⟩ := Proc.returns_pure_iff.1 haccept
        rw [hkept.2.1]
        exact ⟨hs, rfl⟩
      | some batch =>
        rw [hlaunch, Proc.forSome_some, Proc.returns_lift_bind_iff] at haccept
        obtain ⟨events, hevents, haccept⟩ := haccept
        obtain ⟨d, hdevice, rfl⟩ := Proc.returns_zoom_iff.1 haccept
        refine ⟨hP events s₁.device d _ ?_ hdevice (hkept.2.1 ▸ hs), rfl⟩
        rw [fireTick_of_deviceEvents hevents, fireTick_of_launch hedge hlaunch]
    obtain ⟨hdevice, hdecoders⟩ := ih hrest haccepted.1
    exact ⟨hdevice, by rw [hdecoders, haccepted.2, hkept.2.2]⟩

/-- The device has not processed the boundary of the tick yet. -/
structure Unprocessed (now : ℕ) (d : ControlElectronics β) : Prop where
  boundaries : ∀ b ∈ d.boundaries, now ≤ b
  lastTick : d.lastTick ≤ now
  processed : ∀ p ∈ d.processedTick, p < now

/-- A launch of the tick adds boundaries that are not before it. -/
theorem Unprocessed.accept {batch : TriggeredEvents} {d d' : ControlElectronics β}
    (hd : Unprocessed now d) (hfire : batch.fireTick = now)
    (h : (ControlElectronics.accept backend batch).Returns d v d' l) : Unprocessed now d' := by
  obtain ⟨actions, readouts, haccepted, -⟩ := ControlElectronics.accept_returns h
  obtain ⟨hresolved, -, hprepared, -, -, rfl⟩ := haccepted
  refine ⟨fun b hb => ?_, hd.lastTick, hd.processed⟩
  have hactions : ∀ a ∈ actions, now ≤ a.start ∧ a.start ≤ a.end := by
    intro a ha
    obtain ⟨hresolves, hstart⟩ := resolve_spec hresolved a ha
    exact ⟨hfire ▸ hstart, hresolves.interval⟩
  rw [ControlElectronics.mem_scheduleActions, ControlElectronics.mem_scheduleReadouts] at hb
  rcases hb with (hb | ⟨r, hr, rfl⟩) | ⟨a, ha, hb⟩
  · exact hd.boundaries b hb
  · rw [(Readouts.prepare_spec hprepared).readouts] at hr
    obtain ⟨a, ha, hof⟩ := mem_readouts hr
    obtain ⟨-, -, -, hready, -⟩ := readoutOf_spec hof
    have hle : a.end ≤ Readouts.readyTick actions a := end_le_readyTick
    have := hactions a ha
    omega
  · have := hactions a ha
    omega

/-- What an edge does keeps what holds on the tick. The barrier still waits for the edge. -/
theorem OnTick.body (h : OnTick now s) (hwaits : a.method.isEdge = true → s.waits now = true)
    (hm : a.method ≠ .barrier) (hbody : (body backend now a).Returns s launched s' l) :
    OnTick now s' := by
  have hcontrol := (body_control hm hbody).1
  rcases body_cases hbody with ⟨operations, rfl, hedge⟩ | ⟨accesses, rfl, hedge⟩ | ⟨rfl, hedge⟩ |
    ⟨rfl, hwakeup⟩ | ⟨asked, rfl, -⟩
  · obtain ⟨reset, s₁, s₂, l₁, hreset, hkept, rfl⟩ := cpuEdge_returns hedge
    simp only [around, outside, Prod.mk.injEq] at hkept
    obtain ⟨⟨-, hepoch, hlast⟩, hdevice, hdecoders⟩ := hkept
    rw [← hreset.control] at hcontrol
    exact (hreset.onTick h).congr hcontrol hepoch hlast hdevice fun _ _ => hdecoders
  · obtain ⟨reset, s₁, s₂, l₁, hreset, hkept, hsame, rfl⟩ := memoryEdge_returns hedge
    simp only [beside, outside, Prod.mk.injEq] at hkept
    obtain ⟨⟨-, hepoch, hlast⟩, hdevice⟩ := hkept
    have hresets : s₁.resets = s.resets := congrArg Control.resets hreset.control
    rw [← hreset.control] at hcontrol
    refine (hreset.onTick h).congr hcontrol hepoch hlast hdevice fun hmem _ => ?_
    rw [hsame (hreset.mem_iff.1 (hresets ▸ hmem))]
  · obtain ⟨reset, s₁, s₂, l₁, l₂, hreset, hkept, hsame, hedges, rfl⟩ := tcuEdge_returns hedge
    have h₁ := hreset.onTick h
    rw [← hreset.control] at hcontrol
    cases reset with
    | true =>
      obtain rfl := hsame rfl
      exact h₁.congr hcontrol rfl rfl rfl fun _ _ => rfl
    | false =>
      simp only [outside, Prod.mk.injEq] at hkept
      obtain ⟨-, hepoch, hlast⟩ := hkept
      obtain ⟨hnone, rfl⟩ : now ∉ s.resets ∧ s₁ = s := by
        cases hreset with
        | none hnone => exact ⟨hnone, rfl⟩
      have hresets := resets_of_stamp hcontrol
      have hbefore := h.before (.inl (hwaits rfl))
      have hdevice : Unprocessed now s₂.device := by
        refine (tcuEdges_device (fun batch d d' l hfire haccept hd => ?_) (hedges rfl)
          ⟨h.boundaries, h.lastTick, hbefore⟩).1
        exact hd.accept hfire haccept
      exact
        { applied := h.applied.congr hresets hepoch hlast
          boundaries := hdevice.boundaries
          lastTick := hdevice.lastTick
          processed := fun p hp => (hdevice.processed p hp).le
          before := fun _ => hdevice.processed
          cleared := fun hmem => absurd (hresets ▸ hmem) hnone
          decoders := fun hmem => absurd (hresets ▸ hmem) hnone }
  · obtain ⟨reset, hreset⟩ := wakeup_returns hwakeup
    exact hreset.onTick h
  · exact absurd rfl hm

/-! ## The barrier of a tick -/

theorem nextBoundary_eq {d : ControlElectronics β} (hboundaries : ∀ b ∈ d.boundaries, now ≤ b)
    (hmem : now ∈ d.boundaries) : d.nextBoundary = some now := by
  refine ExtTreeMap.minKey?_eq_some_iff_mem_and_forall.2 ⟨hmem, fun k hk => ?_⟩
  rw [Nat.isLE_compare]
  exact hboundaries k hk

theorem processDevice_frame {epoch : ℕ} (h : (processDevice backend now epoch).Returns s v s' l)
    (hboundaries : ∀ b ∈ s.device.boundaries, now ≤ b) (hnext : s.device.nextBoundary = some now) :
    (∀ b ∈ s'.device.boundaries, now < b) ∧ s'.device.lastTick = now ∧
      s'.device.processedTick = some now := by
  obtain ⟨⟨device, cores⟩, hprocess, rfl⟩ := Proc.returns_zoom_iff.1 h
  have hmem : now ∈ s.device.boundaries := ExtTreeMap.minKey?_mem hnext
  obtain ⟨hnone, -⟩ | ⟨-, hframe⟩ := ControlElectronics.process_frame hprocess
  · rw [ExtTreeMap.mem_iff_isSome_getElem?, hnone] at hmem
    simp at hmem
  · simp only [ControlElectronics.frame, ControlElectronics.complete, Prod.mk.injEq] at hframe
    obtain ⟨-, -, herased, hlast, hprocessed⟩ := hframe
    refine ⟨fun b hb => ?_, hlast, hprocessed⟩
    change b ∈ device.boundaries at hb
    rw [herased, ExtTreeMap.mem_erase] at hb
    have hne : b ≠ now := fun heq => hb.1 (by simp [heq])
    exact lt_of_le_of_ne (hboundaries b hb.2) hne.symm

theorem finalize_frame {d d' : ControlElectronics β}
    (h : (ControlElectronics.finalize backend now).Returns d v d' l) :
    d'.boundaries = d.boundaries ∧ d'.processedTick = d.processedTick := by
  have hkeeps : (ControlElectronics.finalize backend now).Keeps
      (fun d : ControlElectronics β => (d.boundaries, d.processedTick)) d := by
    refine .get_bind <| .lift_bind fun _ => .lift_bind fun _ => .bind ?_ fun _ _ =>
      .modify_bind rfl <| .zoom fun _ => rfl
    split
    · exact .zoom fun _ => rfl
    · exact .pure ()
  exact Prod.mk.inj (hkeeps.returns h)

/-- A barrier that waits for nothing has only later boundaries left, and has processed the one of
the tick unless there is a reset. -/
theorem Advances.boundaries (h : Advances backend now s s' l) (ht : OnTick now s) :
    (∀ b ∈ s'.device.boundaries, now < b) ∧
      (now ∈ s.device.boundaries → now ∉ s.resets → s'.device.processedTick = some now) := by
  cases h with
  | @intro decoders reset s₁ s₂ l₁ l₂ l₃ stepped asked processed =>
    cases resetAt_returns asked with
    | none hnone =>
      split at processed
      · rename_i hdue
        obtain ⟨hlate, -, hprocessed⟩ := processDevice_frame processed ht.boundaries hdue.2
        exact ⟨hlate, fun _ _ => hprocessed⟩
      · rename_i hnot
        obtain ⟨rfl, -⟩ := processed
        have hmem : now ∉ s.device.boundaries := fun hmem =>
          hnot ⟨rfl, nextBoundary_eq ht.boundaries hmem⟩
        refine ⟨fun b hb => lt_of_le_of_ne (ht.boundaries b hb) ?_, fun h => absurd h hmem⟩
        rintro rfl
        exact hmem hb
    | applied hm last =>
      rw [if_neg (by simp)] at processed
      obtain ⟨rfl, -⟩ := processed
      refine ⟨fun b hb => ?_, fun _ hnone => absurd hm hnone⟩
      -- The reset of the tick has cleared the device.
      change b ∈ s.device.boundaries at hb
      rw [ht.cleared hm last] at hb
      simp at hb
    | applies hm last cores reset =>
      rw [if_neg (by simp)] at processed
      obtain ⟨rfl, -⟩ := processed
      refine ⟨fun b hb => ?_, fun _ hnone => absurd hm hnone⟩
      change b ∈ ControlElectronics.boundaries _ at hb
      rw [(reset_frame reset).1] at hb
      simp at hb

theorem Advances.onTick (h : Advances backend now s s' l) (hwaits : s.waits now = false)
    (ht : OnTick now s) : OnTick now s' ∧ DecoderSystem.Settled now s'.decoders := by
  obtain ⟨hboundaries, -⟩ := h.boundaries ht
  obtain ⟨hcontrol', hlast'⟩ := h.control
  have hwaits' : s'.waits now = false := by
    have hsame : s'.control = { s.control with wake := s.wake, stopped := s.stopped } := hcontrol'
    rw [← hwaits]
    exact waits_congr hsame
  cases h with
  | @intro decoders reset s₁ s₂ l₁ l₂ l₃ stepped asked processed =>
    have hasked := resetAt_returns asked
    have hnew : s.lastReset = some now → decoders = s.decoders := by
      intro hlast
      rw [if_pos hlast] at stepped
      exact stepped.1
    have h₀ : OnTick now { s with decoders } :=
      ht.congr (m := .barrier) rfl rfl rfl rfl fun _ hlast => hnew hlast
    have h₁ := hasked.onTick h₀
    have hresets₁ : s₁.resets = s.resets := congrArg Control.resets hasked.control
    obtain ⟨hkept, hdecoders, hsame, hlastTick, hprocessed⟩ : s'.outside = s₁.outside ∧
        s'.decoders = s₁.decoders ∧ (reset = true → s'.device = s₁.device) ∧
          s'.device.lastTick ≤ now ∧ ∀ p ∈ s'.device.processedTick, p ≤ now := by
      split at processed
      · rename_i hdue
        obtain ⟨hdecoders, -, -, -⟩ := processDevice_kept processed
        obtain ⟨-, hlastTick, hprocessed⟩ := processDevice_frame processed h₁.boundaries hdue.2
        exact ⟨keeps_processDevice.returns processed, hdecoders, fun hr => by simp [hr] at hdue,
          hlastTick.le, by simp [hprocessed]⟩
      · obtain ⟨rfl, -⟩ := processed
        exact ⟨rfl, rfl, fun _ => rfl, h₁.lastTick, h₁.processed⟩
    simp only [outside, Prod.mk.injEq] at hkept
    obtain ⟨hcontrol, hepoch, hlast⟩ := hkept
    have hresets : s'.resets = s₁.resets := congrArg Control.resets hcontrol
    have hlast₁ : now ∈ s.resets → s₁.lastReset = some now := hasked.lastReset
    have hsettled : DecoderSystem.Settled now s'.decoders := by
      rw [hdecoders]
      by_cases hm : now ∈ s.resets
      · exact h₁.decoders (hresets₁ ▸ hm) (hlast₁ hm)
      · cases hasked with
        | none _ =>
          have hfirst : s.lastReset ≠ some now := fun hr => hm (ht.applied.proper now hr).1
          rw [if_neg hfirst] at stepped
          exact DecoderSystem.settled_of_step stepped
        | applied hmem last | applies hmem last cores reset => exact absurd hmem hm
    refine ⟨?_, hsettled⟩
    exact
      { applied := h₁.applied.congr hresets hepoch hlast
        boundaries := fun b hb => (hboundaries b hb).le
        lastTick := hlastTick
        processed := hprocessed
        before := by
          rintro (hwait | hlate)
          · simp [hwaits'] at hwait
          · exact absurd (hboundaries now hlate) (lt_irrefl now)
        cleared := fun hm _ => by
          have hm : now ∈ s.resets := by rwa [hresets, hresets₁] at hm
          rw [hsame (hasked.mem_iff.1 hm)]
          exact h₁.cleared (hresets₁ ▸ hm) (hlast₁ hm)
        decoders := fun _ _ => hsettled }

/-- A barrier that waits for nothing leaves only what is ahead. -/
theorem Barrier.ahead (h : Barrier backend idle now s s' l) (hwaits : s.waits now = false)
    (ht : OnTick now s) : OnTick now s' ∧ Ahead (some now) s' := by
  cases h with
  | @intro s₁ l advances goesOn watchdog later =>
    obtain ⟨h₁, hsettled⟩ := advances.onTick hwaits ht
    obtain ⟨hcontrol, hlast⟩ := advances.control
    have hresets : s₁.resets = s.resets := congrArg Control.resets hcontrol
    exact
      ⟨{ h₁ with applied := h₁.applied.congr rfl rfl rfl },
        { applied := h₁.applied.congr rfl rfl rfl
          reset := fun hm => hlast (hresets ▸ hm)
          wake := rfl
          later := later
          boundaries := (advances.boundaries ht).1
          decoders := hsettled
          lastTick := h₁.lastTick
          processed := fun p hp => ⟨now, rfl, h₁.processed p hp⟩ }⟩

theorem Barrier.goesOn (h : Barrier backend idle now s s' l) : s'.drained idle = false := by
  cases h with
  | intro advances goesOn watchdog later => exact goesOn

theorem barrier_onTick (h : (barrier backend idle now).Returns s v s' l)
    (hrunning' : s'.stopped = false) (ht : OnTick now s) : OnTick now s' := by
  cases hwaits : s.waits now with
  | true =>
    have hsame := (barrier_waits hwaits).symm.trans h
    simp only [Outcome.mk.injEq] at hsame
    obtain ⟨-, rfl, -⟩ := hsame
    exact ht
  | false => exact (((barrier_returns_iff hwaits hrunning').1 h).ahead hwaits ht).1

/-- A barrier that waits for nothing has only later boundaries left and has processed the one of the
tick, unless there is a reset, also when it completes the simulation. -/
theorem barrier_boundaries (h : (barrier backend idle now).Returns s v s' l)
    (hwaits : s.waits now = false) (ht : OnTick now s) :
    (∀ b ∈ s'.device.boundaries, now < b) ∧
      (now ∈ s.device.boundaries → now ∉ s.resets → s'.device.processedTick = some now) := by
  rcases (barrier_cases hwaits).1 h with ⟨advances, -, -, -⟩ | ⟨advances, -, finalized⟩
  · exact advances.boundaries ht
  · obtain ⟨hboundaries, hprocessed⟩ := finalize_frame finalized
    rw [hboundaries, hprocessed]
    exact advances.boundaries ht

/-- Every activation of a tick keeps what holds on it. -/
theorem OnTick.run (ht : OnTick now s) (hleft : Remaining now idle s (acts ++ rest))
    (activated : (activateAll backend now acts).Returns s launched s' l)
    (hrunning : s'.stopped = false) : OnTick now s' ∧ Remaining now idle s' rest := by
  refine hleft.run (fun a s s' launched l hwaits hasked hrunning hbody ht => ?_) activated hrunning ht
  by_cases hm : a.method = .barrier
  · rw [hasked hm] at hbody
    exact barrier_onTick (body_barrier_returns_iff.1 hbody).1 hrunning ht
  · exact ht.body hwaits hm hbody

/-- After the last barrier of a tick everything that is left is ahead, and something is. -/
theorem ahead_of_tick (ht : OnTick now s) (hleft : Remaining now idle s (acts ++ [.barrier idle]))
    (activated : (activateAll backend now (acts ++ [.barrier idle])).Returns s launched s' l)
    (hrunning : s'.stopped = false) : Ahead (some now) s' ∧ s'.drained idle = false := by
  obtain ⟨before, s₁, l₁, last, l₂, hbefore, hlast⟩ := activateAll_concat activated
  have hrunning₁ : s₁.stopped = false := by
    by_contra hstopped
    rw [Bool.not_eq_false] at hstopped
    have hsame := (idles_of_stopped (a := .barrier idle) hstopped).symm.trans hlast
    simp only [Outcome.mk.injEq] at hsame
    rw [hsame.2.1, hrunning] at hstopped
    simp at hstopped
  obtain ⟨ht₁, hleft₁⟩ := ht.run hleft hbefore hrunning₁
  have hwaits : s₁.waits now = false := by
    by_contra hwaits
    rw [Bool.not_eq_false] at hwaits
    obtain ⟨m, hedge, hdue, hdone⟩ := waits_iff.1 hwaits
    have hcount := hleft₁.awaited m hedge
    rw [hdue, decide_eq_true hdone] at hcount
    cases m with
    | cpuEdge | memoryEdge | tcuEdge => simp [Activation.method] at hcount
    | wakeup | barrier => simp [Method.isEdge] at hedge
  have hbody := body_of_activate hrunning₁ hlast hrunning
  have hbarrier := (barrier_returns_iff hwaits hrunning).1 (body_barrier_returns_iff.1 hbody).1
  exact ⟨(hbarrier.ahead hwaits ht₁).2, hbarrier.goesOn⟩

/-- In every run everything that is left after a tick is ahead of it. -/
theorem ahead_of_run (run : SimulatorRun backend last s) (running : s.stopped = false) :
    Ahead last s := by
  induction run with
  | start made started => exact (started_of_make made started).ahead
  | @tick last now idle acts s s' launched l run running' next scheduled activated ih =>
    have hleft := scheduled.remaining run running' next
    obtain ⟨before, rfl⟩ := scheduled.last
    exact (ahead_of_tick ((ih running').onTick next) hleft activated running).1

/-! ## Ticks that are left out -/

/-- What the processors have answered on the last tick of a run. Before the first tick they have not
been asked, and may answer anything. -/
inductive Answered (backend : QuantumBackend β) : Option ℕ → Simulator β → (ℕ → Bool) → Prop
  | start {s : Simulator β} {idle : ℕ → Bool} (run : SimulatorRun backend none s) :
      Answered backend none s idle
  | tick {last : Option ℕ} {now : ℕ} {idle : ℕ → Bool} {acts : List Activation} {s s' : Simulator β}
      {launched : List (ℕ × TriggeredEvents)} {l : List TraceEvent}
      (run : SimulatorRun backend last s) (running : s.stopped = false) (next : s.Next last now)
      (scheduled : s.Scheduled now idle acts)
      (activated : (activateAll backend now acts).Returns s launched s' l) :
      Answered backend (some now) s' idle

theorem Answered.run (h : Answered backend last s idle) : SimulatorRun backend last s := by
  cases h with
  | start run => exact run
  | tick run running next scheduled activated => exact .tick run running next scheduled activated

/-- The timing controls of a simulator that starts are open. -/
theorem Started.goesOn (h : Started backend s) : s.drained idle = false := by
  obtain ⟨fingerprint, configs, connections, hvalidated, hcores, -, -⟩ := h.cores
  cases configs with
  | nil => simp [validated] at hvalidated
  | cons config rest =>
    simp only [makeCores, Except.bind_eq_ok_iff, Except.pure_eq_ok_iff] at hcores
    obtain ⟨core, hcore, cores, -, hcores⟩ := hcores
    simp only [Core.make, Except.bind_eq_ok_iff, Except.pure_eq_ok_iff] at hcore
    obtain ⟨_, -, _, -, _, -, _, -, _, -, rfl⟩ := hcore
    simp [drained, Core.drained, ← hcores]

/-- The last barrier has found that something is left. -/
theorem Answered.goesOn (h : Answered backend last s idle) (running : s.stopped = false) :
    s.drained idle = false := by
  cases h with
  | start run =>
    cases run with
    | start made started => exact (started_of_make made started).goesOn
  | tick run running' next scheduled activated =>
    have hleft := scheduled.remaining run running' next
    obtain ⟨before, rfl⟩ := scheduled.last
    exact (ahead_of_tick ((ahead_of_run run running').onTick next) hleft activated running).2

theorem Ahead.lt_of_skipped (h : Ahead last s) (next : s.Next last now) (hafter : ∀ t ∈ last, t < u)
    (hskipped : u < now) : last.getD 0 ≤ u ∧ u < s.nextWake (last.getD 0) := by
  refine ⟨?_, hskipped.trans_le (h.next_le next)⟩
  cases last with
  | none => exact Nat.zero_le u
  | some t => exact (hafter t rfl).le

/-- Nothing becomes due on a tick before the wakeup. -/
theorem Ahead.nextWake_eq (h : Ahead last s) (hle : last.getD 0 ≤ u)
    (hlt : u < s.nextWake (last.getD 0)) : s.nextWake u = s.nextWake (last.getD 0) := by
  obtain ⟨-, hdecoders, -, hresets⟩ := (le_nextWake_iff h.applied.sorted).1 (Nat.succ_le_of_lt hlt)
  have hboundary : s.decoders.nextBoundary u = s.decoders.nextBoundary (last.getD 0) := by
    have hfilter : ∀ tick ∈ (s.decoders.requests ++ s.decoders.resetRequest.toList).flatMap
        DecoderSystem.requestBoundaries ++ s.decoders.jobs.flatMap s.decoders.jobBoundaries,
          u < tick ↔ last.getD 0 < tick := by
      intro tick htick
      exact ⟨fun hlate => hle.trans_lt hlate, fun hlate =>
        DecoderSystem.lt_of_boundary hdecoders htick hlate⟩
    rw [DecoderSystem.nextBoundary, DecoderSystem.nextBoundary, List.filter_congr fun tick htick => ?_]
    simpa using hfilter tick htick
  refine eq_of_forall_le_iff fun w => ?_
  rw [le_nextWake_iff h.applied.sorted, le_nextWake_iff h.applied.sorted, hboundary]
  refine and_congr_right fun _ => and_congr_right fun _ => and_congr_right fun _ =>
    forall₂_congr fun r hr => ?_
  have hsame : u < r ↔ last.getD 0 < r :=
    ⟨fun hlate => hle.trans_lt hlate, fun hlate => hresets r hr hlate⟩
  rw [hsame]

/-- A barrier on a tick that is left out would do nothing. -/
theorem Ahead.barrier_skipped (h : Ahead last s) (next : s.Next last now)
    (running : s.stopped = false) (goesOn : s.drained idle = false) (hafter : ∀ t ∈ last, t < u)
    (hskipped : u < now) : (barrier backend idle u).Returns s () s [] := by
  obtain ⟨hle, hlt⟩ := h.lt_of_skipped next hafter hskipped
  obtain ⟨hwatchdog, hdecoders, hboundaries, hresets⟩ :=
    (le_nextWake_iff h.applied.sorted).1 (Nat.succ_le_of_lt hlt)
  have hwaits : s.waits u = false := by
    by_contra hwaits
    rw [Bool.not_eq_false] at hwaits
    obtain ⟨m, -, hdue, -⟩ := waits_iff.1 hwaits
    simp [next.first u hskipped hafter m] at hdue
  have hnone : u ∉ s.resets := by
    intro hmem
    rcases hle.lt_or_eq with hlate | rfl
    · exact absurd (hresets u hmem hlate) (lt_irrefl u)
    · cases last with
      | none => exact absurd (h.applied.positive _ hmem) (lt_irrefl 0)
      | some t => exact absurd (hafter t rfl) (lt_irrefl t)
  have hnew : s.lastReset ≠ some u := fun hr => hnone (h.applied.proper u hr).1
  have hwake : { s with wake := some (s.nextWake u) } = s := by
    rw [h.nextWake_eq hle hlt, ← h.wake]
  have hadvances : Advances backend u s s ([] ++ ([] ++ [])) := by
    refine @Advances.intro β backend u s s.decoders false s s [] [] [] ?_ (resetAt_none hnone) ?_
    · rw [if_neg hnew]
      exact (h.decoders.later hdecoders).step
    · rw [if_neg fun hdue => ?_]
      · exact ⟨rfl, rfl⟩
      · exact absurd (hboundaries u (ExtTreeMap.minKey?_mem hdue.2)) (lt_irrefl u)
  have hbarrier : Barrier backend idle u s { s with wake := some (s.nextWake u) } [] := by
    refine .intro hadvances goesOn hwatchdog ?_
    rwa [h.nextWake_eq hle hlt]
  rw [hwake] at hbarrier
  exact (barrier_returns_iff hwaits running).2 hbarrier

section Probe

/-- A gate that starts and ends between the edges of the clocks. -/
def delayedGate : Profile :=
  { oneGate with
    cpu := { period := 40, phase := 0 }, tcu := { period := 40, phase := 0 }, start := 80
    mappings :=
      [{ codeword := 1
         actions := [{ spec := .gate { operands := { targets := [0] } }, delay := 10, duration := 40 }] }] }

def makeDelayed : Except Fault (Simulator (List BackendOperation)) :=
  make (tape false) (fun _ => "") [{ id := 0, profile := delayedGate }] [] [] [] false 1024
    { decoders := [] }

theorem isSome_delayed : makeDelayed.toOption.isSome = true := by decide +kernel

/-- The simulator when it starts. -/
def delayed : Simulator (List BackendOperation) :=
  let s := makeDelayed.toOption.get isSome_delayed
  { s with wake := some (s.firstWake 0) }

/-- The edges of a tick on which the processor issues the operations. -/
def edges (operations : List ControlOperation) : List Activation :=
  [.cpuEdge fun _ => operations, .memoryEdge fun _ => [], .tcuEdge]

/-- Exit, until the point that has been staged is acknowledged. -/
def exit : ControlOperation := { instruction := 1, command := .halt }

/-- The ticks of a program that plays the gate and exits. -/
def delayedTicks : List (ℕ × List Activation) :=
  [(0, edges [{ command := .codeword 0 1 }, exit]), (40, edges []), (80, edges [exit]),
    (90, [.wakeup])]

/-- The simulator when the gate has started. -/
def delayedStart : Simulator (List BackendOperation) := tickedAll (tape false) delayedTicks delayed

/-- The simulator when everything has been done but the end of the gate. -/
def delayedEnd : Simulator (List BackendOperation) :=
  ticked (tape false) 120 (edges []) delayedStart

/-- The last tick, before its barrier. -/
def delayedWakeup : Outcome Fault TraceEvent (Simulator (List BackendOperation))
    (List (ℕ × TriggeredEvents)) :=
  activateAll (tape false) 130 [.wakeup] delayedEnd

/-- What the last barrier advances to, and the device that it finalizes. -/
def delayedBarrier : Outcome Fault TraceEvent (Simulator (List BackendOperation)) Unit :=
  advanced (tape false) 130 delayedWakeup.state

def delayedFinal : Outcome Fault TraceEvent (ControlElectronics (List BackendOperation)) Unit :=
  ControlElectronics.finalize (tape false) 130 delayedBarrier.state.device

theorem simulatorRun_delayed : SimulatorRun (tape false) (some 90) delayedStart ∧
    Ticks (tape false) 120 (fun _ => true) (some 90) (edges []) delayedStart := by
  have hstart : makeDelayed.toOption.isSome = true ∧
      (makeDelayed.toOption.get isSome_delayed).asleep = true ∧
        0 < (makeDelayed.toOption.get isSome_delayed).firstWake 0 := by decide +kernel
  have hticks : TicksAll (tape false) (fun _ => true) none delayedTicks delayed ∧
      Ticks (tape false) 120 (fun _ => true) (some 90) (edges []) delayedStart := by decide +kernel
  exact ⟨hticks.1.run (simulatorRun_started (Except.eq_ok_get isSome_delayed) hstart.2.1 hstart.2.2),
    hticks.2⟩

/-- What is evaluated of the last tick. -/
theorem delayedEnd_facts : delayedEnd.stopped = false ∧ Due 130 (some 120) [.wakeup] delayedEnd ∧
    130 ∈ delayedWakeup.state.device.boundaries ∧ 130 ∉ delayedWakeup.state.resets ∧
    delayedWakeup.result.toOption.isSome = true ∧ delayedWakeup.state.stopped = false ∧
    Evaluates (tape false) 130 delayedWakeup.state ∧
    delayedBarrier.state.drained (fun _ => true) = true ∧
    delayedFinal.result.toOption.isSome = true := by
  decide +kernel

end Probe

end Simulator

open Simulator

section Results
variable {β : Type} {backend : QuantumBackend β} {last : Option ℕ} {now : ℕ} {s : Simulator β}

/-- Every reset is applied once and on its tick, and none is passed over. -/
theorem resets_once (run : SimulatorRun backend last s) (running : s.stopped = false) :
    s.epoch = 1 + s.resets.countP (· ≤ last.getD 0) ∧
      (∀ now, s.Next last now → ∀ r ∈ s.resets, r ≤ last.getD 0 ∨ now ≤ r) := by
  have h := ahead_of_run run running
  constructor
  · rw [h.applied.epoch]
    refine congrArg (1 + ·) (List.countP_congr fun r hr => ?_)
    simp only [decide_eq_true_eq]
    constructor
    · intro hle
      cases hlast : s.lastReset with
      | none =>
        rw [hlast, Option.getD_none] at hle
        exact absurd (h.applied.positive r hr) (not_lt.2 hle)
      | some r' =>
        rw [hlast, Option.getD_some] at hle
        exact hle.trans (h.applied.proper r' hlast).2
    · intro hle
      rcases hle.lt_or_eq with hlt | rfl
      · exact h.applied.reached r hr hlt
      · rw [h.reset hr, Option.getD_some]
  · intro now next r hr
    obtain ⟨-, -, -, hresets⟩ := (le_nextWake_iff h.applied.sorted).1 (h.next_le next)
    rw [or_iff_not_imp_left, not_le]
    exact hresets r hr

theorem resets_once_lateReset : lateReset.epoch = 2 ∧
    lateReset.epoch = 1 + lateReset.resets.countP (· ≤ 5) ∧
      ∀ r ∈ lateReset.resets, r ≤ 5 ∨ 7 ≤ r := by
  obtain ⟨hrunning, htwo, htick⟩ := lateReset_facts
  obtain ⟨hepoch, hresets⟩ := resets_once simulatorRun_lateReset hrunning
  exact ⟨htwo, hepoch, hresets 7 htick.next⟩

/-- On a tick that is left out nothing is due: what the processors have answered last still leaves
something to be done, and a barrier that finds so changes nothing. -/
theorem skipped_ticks {idle : ℕ → Bool} {u : ℕ} (answered : Answered backend last s idle)
    (running : s.stopped = false) (next : s.Next last now) (after : ∀ t ∈ last, t < u)
    (skipped : u < now) : s.drained idle = false ∧
      ∀ asked, s.drained asked = false → (barrier backend asked u).Returns s () s [] :=
  ⟨answered.goesOn running, fun _ goesOn =>
    (ahead_of_run answered.run running).barrier_skipped next running goesOn after skipped⟩

theorem skipped_ticks_delayed : 130 ∈ delayedEnd.device.boundaries ∧
    (barrier (tape false) (fun _ => true) 125).Returns delayedEnd () delayedEnd [] := by
  obtain ⟨run, htick⟩ := simulatorRun_delayed
  obtain ⟨launched, l, activated⟩ := htick.activated
  have answered : Answered (tape false) (some 120) delayedEnd fun _ => true :=
    .tick run htick.running htick.due.next (htick.due.scheduled _) activated
  obtain ⟨goesOn, hskipped⟩ :=
    skipped_ticks answered delayedEnd_facts.1 delayedEnd_facts.2.1.next (u := 125) (by simp) (by decide)
  exact ⟨by decide +kernel, hskipped _ goesOn⟩

/-- What an activation finds: nothing is overdue, an edge comes before the boundary of its tick, and
a barrier that waits for nothing and does not fault processes that boundary, which no barrier has
processed before, unless there is a reset. -/
structure Punctual (backend : QuantumBackend β) (now : ℕ) (a : Activation) (s : Simulator β) :
    Prop where
  overdue : ∀ b ∈ s.device.boundaries, now ≤ b
  lastTick : s.device.lastTick ≤ now
  edge : a.method.isEdge = true → ∀ p ∈ s.device.processedTick, p < now
  boundary : now ∈ s.device.boundaries → ∀ p ∈ s.device.processedTick, p < now
  processed : ∀ idle s' l, a = .barrier idle → s.waits now = false →
    (barrier backend idle now).Returns s () s' l →
      (∀ b ∈ s'.device.boundaries, now < b) ∧
        (now ∈ s.device.boundaries → now ∉ s.resets → s'.device.processedTick = some now)

/-- In every run each activation of each tick is on time. -/
theorem boundaries_on_time {idle : ℕ → Bool} {before rest : List Activation} {a : Activation}
    {launched : List (ℕ × TriggeredEvents)} {s₁ : Simulator β} {l : List TraceEvent}
    (run : SimulatorRun backend last s) (running : s.stopped = false) (next : s.Next last now)
    (scheduled : s.Scheduled now idle (before ++ a :: rest))
    (activated : (activateAll backend now before).Returns s launched s₁ l)
    (running₁ : s₁.stopped = false) : Punctual backend now a s₁ := by
  have hleft := scheduled.remaining run running next
  obtain ⟨ht, hleft₁⟩ := ((ahead_of_run run running).onTick next).run hleft activated running₁
  exact
    { overdue := ht.boundaries
      lastTick := ht.lastTick
      edge := fun hedge => ht.before (.inl (hleft₁.waits List.mem_cons_self hedge))
      boundary := fun hmem => ht.before (.inr hmem)
      processed := fun _ _ _ _ hwaits hbarrier => barrier_boundaries hbarrier hwaits ht }

/-- The barrier that completes the simulation has processed the last boundary. -/
theorem boundaries_on_time_delayed : ∃ s' l, 130 ∈ delayedWakeup.state.device.boundaries ∧
    (barrier (tape false) (fun _ => true) 130).Returns delayedWakeup.state () s' l ∧
      s'.success = true ∧ s'.device.processedTick = some 130 ∧
        Punctual (tape false) 130 (.barrier fun _ => true) delayedWakeup.state := by
  obtain ⟨run, htick⟩ := simulatorRun_delayed
  obtain ⟨hrunning, hdue, hmem, hnone, hreturns, hrunning', hevaluates, hdrained, hfinal⟩ :=
    delayedEnd_facts
  obtain ⟨launched, hlaunched⟩ := Option.isSome_iff_exists.1 hreturns
  have hpunctual := boundaries_on_time (htick.run run) hrunning hdue.next
    (hdue.scheduled fun _ => true) (Proc.returns_of_result hlaunched) hrunning'
  have hbarrier := (barrier_cases (u := ()) hevaluates.waits).2
    (.inr (.intro hevaluates.advances hdrained (Proc.returns_of_isSome hfinal)))
  exact ⟨_, _, hmem, hbarrier, rfl, (hpunctual.processed _ _ _ rfl hevaluates.waits hbarrier).2 hmem hnone,
    hpunctual⟩

end Results
end Qsbit

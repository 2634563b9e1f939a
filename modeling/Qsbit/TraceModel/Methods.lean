import Qsbit.TraceModel.Played

/-!
# The methods of the simulator, for the player

Each method that is activated keeps the player in step with the simulator, if it returns. The
record of a reset is the last one of its method, and the first one of a session.
-/
namespace Qsbit
namespace TraceModel
open Simulator

section Methods
variable {β : Type} {backend : QuantumBackend β} {s s' : Simulator β} {l : List TraceEvent} {now : ℕ}

/-! ## Resets -/

/-- A core that can be reset. -/
def Resettable (c : Core) : Prop := ∃ epoch rs, Follows epoch rs c

theorem id_reset {c c' : Core} {u : Unit} (h : (Core.reset now).Returns c u c' l) :
    c'.id = c.id := by
  simp only [Core.reset, Proc.returns_modify_bind_iff] at h
  obtain ⟨_, c₁, _, _, hzoom, hlast, -⟩ := Proc.returns_bind_iff.1 h
  obtain ⟨tcu, -, rfl⟩ := Proc.returns_zoom_iff.1 hzoom
  obtain ⟨rfl, -⟩ := Proc.returns_modify_iff.1 hlast
  rfl

theorem id_cpuEdge {c c' : Core} {n n' : SyncNetwork} {epoch : ℕ}
    {validate : EventSpec → Except Fault Unit} {operations : List ControlOperation}
    {results : List (Option ℕ)}
    (h : (Core.cpuEdge validate operations now epoch).Returns (c, n) results (c', n') l) :
    c'.id = c.id := by
  obtain ⟨s₁, s₂, l₁, l₂, -, -, rfl, -⟩ := Core.cpuEdge_returns h
  rfl

theorem id_tcuEdge {c c' : Core} {n n' : SyncNetwork} {out : TcuOutput} {epoch : ℕ}
    {preflight : TriggeredEvents → Except Fault Unit}
    (h : (Core.tcuEdge preflight now epoch).Returns (c, n) out (c', n') l) : c'.id = c.id := by
  cases Core.tcuEdge_returns h
  rfl

/-- The cores that have been reset, and those that had been before. -/
theorem forEach_reset (epoch : ℕ) {is : List ℕ} {u : Unit}
    (hs : ∀ c ∈ s.cores, Resettable c)
    (h : (Proc.forEach (fun i => onCore (β := β) i fun _ => Proc.onFst (Core.reset now)) is).Returns
      s u s' l) :
    s'.epoch = s.epoch ∧ s'.ids = s.ids ∧ ∀ j c', s'.cores[j]? = some c' →
      (j ∈ is ∨ ∀ c ∈ s.cores[j]?, Follows epoch [] c) → Follows epoch [] c' := by
  induction is generalizing s l with
  | nil =>
    obtain ⟨-, rfl, -⟩ := Proc.returns_pure_iff.1 h
    exact ⟨rfl, rfl, fun j c' hj hdone => (hdone.resolve_left (by simp)) c' hj⟩
  | cons i rest ih =>
    obtain ⟨_, s₁, l₁, l₂, hfirst, hrest, -⟩ := Proc.returns_bind_iff.1 h
    obtain ⟨c, c₁, n₁, l₀, hi, hreset, rfl, -⟩ := returns_onCore hfirst
    obtain ⟨hreset', -⟩ := Proc.returns_onFst_iff.1 hreset
    obtain ⟨epoch₀, rs, hfollows⟩ := hs c (List.mem_of_getElem? hi)
    have hdone₁ : Follows epoch [] c₁ := hfollows.reset hreset'
    have hlt := (List.getElem?_eq_some_iff.1 hi).1
    have hs₁ : ∀ c' ∈ s.cores.set i c₁, Resettable c' := by
      intro c' hc'
      rcases List.mem_or_eq_of_mem_set hc' with hc' | rfl
      · exact hs c' hc'
      · exact ⟨_, _, hdone₁⟩
    obtain ⟨hepoch, hids, hall⟩ := ih hs₁ hrest
    refine ⟨hepoch, hids.trans (ids_set hi (id_reset hreset')), fun j c' hj hdone => ?_⟩
    refine hall j c' hj (or_iff_not_imp_left.2 fun hnot => ?_)
    intro c₀ hc₀
    by_cases hij : j = i
    · subst hij
      change (s.cores.set j c₁)[j]? = some c₀ at hc₀
      rw [List.getElem?_set_self hlt] at hc₀
      obtain rfl := Option.some.inj hc₀
      exact hdone₁
    · change (s.cores.set i c₁)[j]? = some c₀ at hc₀
      rw [List.getElem?_set_ne (Ne.symm hij)] at hc₀
      rcases hdone with hmem | hbefore
      · exact absurd hmem (by simp [hij, hnot])
      · exact hbefore c₀ hc₀

/-- A reset begins a session, in which the player knows nothing of any core. -/
theorem plays_resetAt : Plays (resetAt backend now) s := by
  refine .get_bind ?_
  split
  · exact .pure _
  · refine .bind ?_ fun _ _ _ _ => .pure _
    split
    · intro trace u s' l hplayed h
      simp only [Proc.returns_lift_bind_iff, Proc.returns_modify_bind_iff] at h
      obtain ⟨epoch, -, h⟩ := h
      obtain ⟨_, s₁, l₁, k₁, hcores, h₁, rfl⟩ := Proc.returns_bind_iff.1 h
      obtain ⟨_, s₂, l₂, k₂, hdevice, h₂, rfl⟩ := Proc.returns_bind_iff.1 h₁
      obtain ⟨device, -, rfl⟩ := Proc.returns_zoom_iff.1 hdevice
      simp only [Proc.returns_modify_bind_iff] at h₂
      obtain ⟨rfl, rfl⟩ := Proc.returns_emit_iff.1 h₂
      obtain ⟨hepoch, hids, hreset⟩ := forEach_reset epoch
        (by exact fun c hc => ⟨_, _, hplayed.follows c hc⟩) hcores
      have hlength : s₁.cores.length = s.cores.length := by
        simpa [Simulator.ids] using congrArg List.length hids
      have hstarts : Record.startsSession
          (.event { tick := now, epoch, kind := .sessionReset }) = true := rfl
      obtain ⟨hsession, hrecords⟩ := EndsIn.starts
        (trace ++ (l₁ ++ l₂).map Record.event) hstarts
      have htrace : ∀ e : TraceEvent, trace ++ (l₁ ++ (l₂ ++ [e])).map Record.event =
          trace ++ (l₁ ++ l₂).map Record.event ++ [.event e] := by simp
      rw [htrace]
      refine ⟨hepoch ▸ hsession, hids ▸ hplayed.ids, fun c hc => ?_⟩
      rw [hrecords, List.filter_nil]
      obtain ⟨j, hj⟩ := List.mem_iff_getElem?.1 hc
      have hlt := (List.getElem?_eq_some_iff.1 hj).1
      rw [hepoch]
      refine hreset j c hj (.inl ?_)
      rw [List.mem_range]
      exact hlength ▸ hlt
    · exact .pure _

/-! ## Edges -/

theorem epoch_onCore {α : Type} {i : ℕ} {x : Core → Sim (Core × SyncNetwork) α} {a : α}
    (h : (onCore i x).Returns s a s' l) : s'.epoch = s.epoch := by
  obtain ⟨c, c', n', l₀, -, -, rfl, -⟩ := returns_onCore h
  rfl

theorem plays_cpuEdge {operations : ℕ → List ControlOperation} :
    Plays (Simulator.cpuEdge backend operations now) s := by
  refine .bind plays_resetAt fun reset s₁ _ _ => .bind ?_ fun _ _ _ _ => .modify rfl rfl
  split
  · exact .pure _
  · refine .get_bind <| .forEach (Q := fun s => s.epoch = s₁.epoch) ?_ ?_ rfl
    · intro i _ s₂ hepoch
      refine .onCore fun c _ rs core u c' n' l hfollows h => ?_
      rw [hepoch] at hfollows ⊢
      split at h
      · obtain ⟨results, ⟨c₁, n₁⟩, l₁, l₂, hedge, hpure, rfl⟩ := Proc.returns_bind_iff.1 h
        obtain ⟨-, heq, rfl⟩ := Proc.returns_pure_iff.1 hpure
        obtain ⟨rfl, rfl⟩ := Prod.mk.inj heq
        obtain ⟨moved, hrecorded, hfollows'⟩ := hfollows.cpuEdge hedge
        rw [List.append_nil]
        exact ⟨id_cpuEdge hedge, moved, hrecorded, hfollows'⟩
      · obtain ⟨-, heq, rfl⟩ := Proc.returns_pure_iff.1 h
        obtain ⟨rfl, rfl⟩ := Prod.mk.inj heq
        exact ⟨rfl, [], .nil, by simpa using hfollows⟩
    · intro i _ s₂ s₃ l hepoch h
      exact (epoch_onCore h).trans hepoch

theorem plays_memoryEdge {accesses : ℕ → List MemoryRequest} :
    Plays (Simulator.memoryEdge backend accesses now) s := by
  refine .bind plays_resetAt fun reset s₁ _ _ => .bind ?_ fun _ _ _ _ => .modify rfl rfl
  split
  · exact .pure _
  · refine .get_bind <| .forEach (Q := fun s => s.epoch = s₁.epoch) ?_ ?_ rfl
    · intro i _ s₂ hepoch
      split
      · exact .pure _
      · split
        · refine .onDecoders ?_
          rw [hepoch]
          refine .forEach (Q := fun _ => True) (fun request _ decoders _ => ?_)
            (fun _ _ _ _ _ _ _ => trivial) trivial
          exact .handle (.bind (DecoderSystem.access_records.mono fun _ => .of plain_of_decoders) fun _ _ _ _ => .pure _) fun _ _ => .pure _
        · exact .pure _
    · intro i _ s₂ s₃ l hepoch h
      split at h
      · obtain ⟨-, rfl, -⟩ := Proc.returns_pure_iff.1 h
        exact hepoch
      · split at h
        · obtain ⟨decoders, -, rfl⟩ := Proc.returns_zoom_iff.1 h
          exact hepoch
        · obtain ⟨-, rfl, -⟩ := Proc.returns_pure_iff.1 h
          exact hepoch

/-- What is launched belongs to the session. -/
theorem epoch_of_launch {c c' : Core} {n n' : SyncNetwork} {out : TcuOutput} {epoch : ℕ}
    {preflight : TriggeredEvents → Except Fault Unit} {batch : TriggeredEvents}
    (h : (Core.tcuEdge preflight now epoch).Returns (c, n) out (c', n') l)
    (hlaunch : out.launch = some batch) : batch.epoch = epoch := by
  cases Core.tcuEdge_returns h with
  | intro synced stepped =>
    obtain ⟨trigger, admission, hs⟩ := TcuCycleModel.stepped_of_returns stepped
    rw [hs.launch] at hlaunch
    obtain ⟨t, rfl, rfl⟩ := Option.map_eq_some_iff.1 hlaunch
    cases hs.fires with
    | head point rest trigger timing running unpaused due assembled =>
      simp only [TcuCycleModel.assembleTrigger, Except.bind_eq_ok_iff, Except.pure_eq_ok_iff]
        at assembled
      obtain ⟨_, -, _, -, _, -, _, -, rfl⟩ := assembled
      rfl

theorem epoch_of_deviceEvents {ids offsets : List ℕ} {i : ℕ} {batch image : TriggeredEvents}
    (h : Qsbit.deviceEvents ids offsets i batch = .ok image) : image.epoch = batch.epoch := by
  unfold Qsbit.deviceEvents at h
  split at h
  · rw [← Except.pure_eq_ok_iff.1 h]
    split <;> rfl
  · simp only [Except.bind_eq_ok_iff, Except.pure_eq_ok_iff] at h
    obtain ⟨events, -, rfl⟩ := h
    rfl

theorem plays_tcuEdges {is : List ℕ} : Plays (tcuEdges backend now is) s := by
  induction is generalizing s with
  | nil => exact .pure _
  | cons i rest ih =>
    refine .get_bind <| .bind ?_ fun out s₁ l₁ h₁ => .bind ?_ fun _ _ _ _ => .bind ih
      fun _ _ _ _ => .pure _
    · refine .onCore fun c _ rs core out c' n' l hfollows h => ?_
      obtain ⟨moved, hrecorded, hfollows'⟩ := hfollows.tcuEdge h
      exact ⟨id_tcuEdge h, moved, hrecorded, hfollows'⟩
    · obtain ⟨c, c', n', l₀, -, hedge, rfl, -⟩ := returns_onCore h₁
      cases hlaunch : out.launch with
      | none => exact .pure _
      | some batch =>
        rw [Proc.forSome_some]
        refine .lift_bind fun events hevents => .onDevice ?_
        rw [← epoch_of_launch hedge hlaunch, ← epoch_of_deviceEvents hevents]
        exact ControlElectronics.accept_records.mono fun _ => .of plain_of_device

theorem plays_tcuEdge : Plays (Simulator.tcuEdge backend now) s := by
  refine .bind plays_resetAt fun reset s₁ _ _ => .bind ?_ fun _ _ _ _ =>
    .bind (.modify rfl rfl) fun _ _ _ _ => .pure _
  split
  · exact .pure _
  · exact .get_bind plays_tcuEdges

/-! ## The barrier -/

theorem quiet_deliver {epoch : ℕ} {result : Completion} :
    (Simulator.deliver now epoch result).Quiet := by
  refine .get_bind fun cores => .bind (.check _) fun ⟨i, result'⟩ => ?_
  dsimp only
  split
  · exact .check _
  · exact .zoom Core.quiet_deliver

/-- Deliveries change the links of cores only, which the player does not see. -/
structure Delivered (cores cores' : List Core) : Prop where
  ids : cores'.map (·.id) = cores.map (·.id)
  follows : ∀ c' ∈ cores', ∃ c ∈ cores, c'.id = c.id ∧
    ∀ epoch rs, Follows epoch rs c → Follows epoch rs c'

theorem Delivered.refl (cores : List Core) : Delivered cores cores :=
  ⟨rfl, fun c hc => ⟨c, hc, rfl, fun _ _ h => h⟩⟩

theorem Delivered.deliver {epoch : ℕ} {result : Completion} {cores₀ cores cores' : List Core}
    {u : Unit} (hbefore : Delivered cores₀ cores)
    (h : (Simulator.deliver now epoch result).Returns cores u cores' l) :
    Delivered cores₀ cores' := by
  simp only [Simulator.deliver, Proc.returns_get_bind_iff, Proc.returns_lift_bind_iff] at h
  obtain ⟨⟨i, result'⟩, -, h⟩ := h
  dsimp only at h
  cases hi : cores[i]? with
  | none =>
    rw [hi] at h
    simp at h
  | some c =>
    rw [hi] at h
    obtain ⟨c', hdeliver, rfl⟩ := Proc.returns_zoom_iff.1 h
    have hid : c'.id = c.id := by
      obtain ⟨cpuResults, fastResults, rfl⟩ := Core.deliver_returns hdeliver
      rfl
    refine ⟨(map_id_set hi hid).trans hbefore.ids, fun c₁ hc₁ => ?_⟩
    rcases List.mem_or_eq_of_mem_set hc₁ with hc₁ | rfl
    · exact hbefore.follows c₁ hc₁
    · obtain ⟨c₀, hc₀, hid₀, hfollows₀⟩ := hbefore.follows c (List.mem_of_getElem? hi)
      exact ⟨c₀, hc₀, hid.trans hid₀, fun epoch rs h₀ => (hfollows₀ epoch rs h₀).deliver hdeliver⟩

/-- What every delivery preserves, a boundary does. -/
theorem deliverAll_preserves {χ : Type} {P : χ → Prop} {epoch : ℕ}
    {deliver : Completion → Sim χ Unit} {ids : List ℕ} {d d' : ControlElectronics β} {x x' : χ}
    {u : Unit} (hstep : ∀ result x x' l, P x → (deliver result).Returns x () x' l → P x')
    (hx : P x)
    (h : (ControlElectronics.deliverAll now epoch deliver ids).Returns (d, x) u (d', x') l) :
    P x' := by
  induction ids generalizing d x l with
  | nil =>
    obtain ⟨-, heq, -⟩ := Proc.returns_pure_iff.1 h
    rwa [← (Prod.mk.inj heq).2]
  | cons id rest ih =>
    simp only [ControlElectronics.deliverAll, Proc.returns_get_bind_iff,
      Proc.returns_lift_bind_iff] at h
    obtain ⟨readout, -, result, -, h⟩ := h
    obtain ⟨_, ⟨d₁, x₁⟩, l₁, l₂, hdeliver, h, -⟩ := Proc.returns_bind_iff.1 h
    rw [Proc.returns_emit_bind_iff] at h
    obtain ⟨l₃, h, -⟩ := h
    obtain ⟨_, ⟨d₂, x₂⟩, l₄, l₅, herase, hrest, -⟩ := Proc.returns_bind_iff.1 h
    obtain ⟨hdeliver', rfl⟩ := Proc.returns_onSnd_iff.1 hdeliver
    obtain ⟨-, rfl⟩ := Proc.returns_onFst_iff.1 herase
    exact ih (hstep result x x₁ l₁ hx hdeliver') hrest

theorem process_preserves {χ : Type} {P : χ → Prop} {epoch : ℕ}
    {deliver : Completion → Sim χ Unit} {d d' : ControlElectronics β} {x x' : χ} {u : Unit}
    (hstep : ∀ result x x' l, P x → (deliver result).Returns x () x' l → P x') (hx : P x)
    (h : (ControlElectronics.process backend now epoch deliver).Returns (d, x) u (d', x') l) :
    P x' := by
  simp only [ControlElectronics.process, Proc.returns_get_bind_iff,
    Proc.returns_lift_bind_iff] at h
  obtain ⟨_, -, h⟩ := h
  split at h
  · obtain ⟨-, heq, -⟩ := Proc.returns_pure_iff.1 h
    rwa [← (Prod.mk.inj heq).2]
  · simp only [Proc.returns_lift_bind_iff] at h
    obtain ⟨p, -, h⟩ := h
    obtain ⟨_, ⟨d₁, x₁⟩, l₁, l₂, henact, h₁, -⟩ := Proc.returns_bind_iff.1 h
    obtain ⟨-, rfl⟩ := Proc.returns_onFst_iff.1 henact
    obtain ⟨_, ⟨d₂, x₂⟩, l₃, l₄, hdeliver, hlast, -⟩ := Proc.returns_bind_iff.1 h₁
    obtain ⟨-, rfl⟩ := Proc.returns_onFst_iff.1 hlast
    exact deliverAll_preserves hstep hx hdeliver

theorem plays_processDevice : Plays (processDevice backend now s.epoch) s := by
  intro trace u s' l hplayed h
  obtain ⟨⟨device, cores⟩, hprocess, rfl⟩ := Proc.returns_zoom_iff.1 h
  have hdelivered : Delivered s.cores cores :=
    process_preserves (fun _ _ _ _ => Delivered.deliver) (.refl _) hprocess
  have hlogs : ∀ e ∈ l, Plain s.epoch e :=
    (ControlElectronics.process_logs (fun _ => .of plain_of_device) fun _ _ =>
      .of_quiet quiet_deliver).returns hprocess
  obtain ⟨hsession, hids, hfollows⟩ := hplayed.plain hlogs
  have hlength : cores.length = s.cores.length := by
    simpa using congrArg List.length hdelivered.ids
  refine ⟨hsession, ?_, fun c' hc' => ?_⟩
  · change (cores.map (·.id)).Nodup
    rw [hdelivered.ids]
    exact hids
  obtain ⟨c, hc, hid, hdeliver⟩ := hdelivered.follows c' hc'
  rw [shownAs_of_length hlength hid]
  exact hdeliver _ _ (hfollows c hc)

theorem plays_scheduleWakeup : Plays (scheduleWakeup now) s :=
  .get_bind <| .lift_bind fun _ _ => .modify rfl rfl

theorem plays_barrier {idle : ℕ → Bool} : Plays (Simulator.barrier backend idle now) s := by
  refine .get_bind ?_
  split
  · exact .pure _
  · refine .bind ?_ fun _ s₁ _ _ => .bind plays_resetAt fun reset s₂ _ _ => .get_bind <|
      .bind ?_ fun _ s₃ _ _ => .get_bind ?_
    · split
      · exact .onDecoders <| DecoderSystem.step_records.mono fun _ => .of plain_of_decoders
      · exact .pure _
    · split
      · exact plays_processDevice
      · exact .pure _
    · split
      · refine .bind (.onDevice (.of_quiet ControlElectronics.quiet_finalize)) fun _ s₄ _ h₄ =>
          .bind (.modify rfl rfl) fun _ s₅ _ h₅ => .emit ⟨⟨rfl, ?_⟩, rfl⟩
        obtain ⟨device, -, rfl⟩ := Proc.returns_zoom_iff.1 h₄
        obtain ⟨rfl, -⟩ := Proc.returns_modify_iff.1 h₅
        rfl
      · exact .lift_bind fun _ _ => plays_scheduleWakeup

theorem plays_body {a : Activation} : Plays (body backend now a) s := by
  cases a with
  | cpuEdge operations => exact .bind plays_cpuEdge fun _ _ _ _ => .pure _
  | memoryEdge accesses => exact .bind plays_memoryEdge fun _ _ _ _ => .pure _
  | tcuEdge => exact plays_tcuEdge
  | wakeup => exact .bind (.bind plays_resetAt fun _ _ _ _ => .pure _) fun _ _ _ _ => .pure _
  | barrier idle => exact .bind plays_barrier fun _ _ _ _ => .pure _

end Methods

end TraceModel
end Qsbit

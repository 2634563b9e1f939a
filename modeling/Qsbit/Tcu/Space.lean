import Qsbit.Tcu.Atomic
import Qsbit.Tcu.Queue
import Qsbit.TimingControl.Step

/-!
# Space for a candidate

A candidate that is well formed fits an empty unit, so it is refused for lack of
space only while the unit has points that will still trigger. A step that refuses
it is a step without it.

## Main results

* `countP_le_of_validate` — a valid request fits empty port queues.
* `back_pressure` — when a candidate is refused, and what that does.
-/
namespace Qsbit

/-- The events of a valid request fit the queue of each port. -/
theorem countP_le_of_validateEvents {profile : TimingConfig} {point : TimingPoint}
    {pairs : List (OperationEvent × ℕ)} {seen : List OperationEvent} {port : ℕ}
    (h : validateEvents profile point seen pairs = .ok ())
    (hseen : seen.countP (·.action.port = port) ≤ profile.eventCapacity) :
    (seen ++ pairs.map Prod.fst).countP (·.action.port = port) ≤ profile.eventCapacity := by
  induction pairs generalizing seen with
  | nil => simpa using hseen
  | cons p rest ih =>
    obtain ⟨e, id⟩ := p
    simp only [validateEvents, Except.bind_eq_ok_iff, require_eq_ok_iff, exists_const] at h
    obtain ⟨-, -, ⟨-, hcapacity⟩, map, -, -, hrest⟩ := h
    have hstep : (seen ++ [e]).countP (·.action.port = port) ≤ profile.eventCapacity := by
      rw [List.countP_append, List.countP_singleton]
      by_cases hport : e.action.port = port
      · rw [← hport]
        simpa using hcapacity
      · simpa [hport] using hseen
    have hall := ih hrest hstep
    rwa [List.append_assoc, List.singleton_append] at hall

theorem countP_le_of_validate {profile : TimingConfig} {request : TimingEvents} {port : ℕ}
    (h : validateTimingEvents request profile = .ok ()) :
    request.events.countP (·.action.port = port) ≤ profile.eventCapacity := by
  simp only [validateTimingEvents, Except.bind_eq_ok_iff, require_eq_ok_iff, exists_const] at h
  obtain ⟨-, -, hcount, -, -, -, -, hevents⟩ := h
  have hfst : (request.events.zip request.point.manifest).map Prod.fst = request.events :=
    List.map_fst_zip (by omega)
  have hall : (([] : List OperationEvent) ++
      (request.events.zip request.point.manifest).map Prod.fst).countP
        (·.action.port = port) ≤ profile.eventCapacity :=
    countP_le_of_validateEvents hevents (Nat.zero_le _)
  rwa [List.nil_append, hfst] at hall

/-- The timing control with this configuration, in some state, submits the request. -/
def TimingControl.Submits (profile : TimingConfig) (request : TimingEvents) : Prop :=
  ∃ s s' now epoch l, s.control.profile = profile ∧ s.control.enqueueRequest = none ∧
    (TimingControl.enqueue now epoch).Returns s false s' l ∧
    s'.control.enqueueRequest = some request

/-- A submitted request has been validated. -/
theorem TimingControl.Submits.valid {profile : TimingConfig} {request : TimingEvents}
    (h : TimingControl.Submits profile request) : validateTimingEvents request profile = .ok () := by
  obtain ⟨s, s', now, epoch, l, rfl, hnone, hreturns, hrequest⟩ := h
  cases enqueue_returns hreturns with
  | waiting r hsome =>
    rw [hnone] at hsome
    simp at hsome
  | submitted r eligible idle point made valid space =>
    obtain rfl := Option.some.inj hrequest
    exact valid

namespace TcuCycleModel
variable {χ : Type}

section Space
variable {m : TcuCycleModel} {now epoch : ℕ} {request : TimingEvents} {pause : PauseState}

theorem syncCapacity_pos {profile : TcuConfig} {syncCapacity : ℕ}
    (h : Reachable profile syncCapacity epoch m) : 0 < syncCapacity := by
  induction h with
  | make epoch h =>
    simp only [make, Except.bind_eq_ok_iff, require_eq_ok_iff, exists_const] at h
    exact h.1
  | step h now candidate results preflight paused syncPreflight c ih => exact ih
  | close h terminal ih => exact ih
  | reset h origin epoch' ih => exact ih

/-- A valid candidate that is in time fits an empty unit. -/
theorem Holds.space {epoch' : ℕ} (h : Holds epoch' m []) (htiming : 0 < m.profile.timingCapacity)
    (hnone : m.prepareAdmission now epoch request pause = .ok none) : False := by
  simp only [prepareAdmission, Except.bind_eq_ok_iff, require_eq_ok_iff, exists_const,
    Except.pure_eq_ok_iff] at hnone
  obtain ⟨-, _, hvalid, -, label, -, -, -, due, -, base, -, ticks, -, tick, -, -, hbound, hspace⟩ :=
    hnone
  split at hspace
  · simp at hspace
  · rename_i hfull
    apply hfull
    have hempty : m.timing = [] := h.timing
    have hsize : m.syncSize = 0 := h.syncSize
    have hqueues : ∀ q ∈ m.events.zipIdx, q.1 = [] := by
      intro q hq
      have hmem : q.1 ∈ m.events := (List.mem_zipIdx' hq).2 ▸ List.getElem_mem _
      rw [h.events, List.flatMap_nil, Buckets.spread_nil] at hmem
      exact List.eq_of_mem_replicate hmem
    simp only [decide_eq_true_eq]
    refine ⟨by rw [hempty]; exact htiming, ?_, ?_⟩
    · rw [hsize, wrapSub_of_le (Nat.zero_le _)]
      exact hbound
    · intro q hq
      rw [hqueues q hq]
      simpa using countP_le_of_validate hvalid

/-- A valid candidate is not refused with a capacity fault. -/
theorem code_of_prepareAdmission {f : Fault} (hcapacity : 0 < m.syncCapacity)
    (hvalid : validateTimingEvents request m.profile.timing = .ok ())
    (h : m.prepareAdmission now epoch request pause = .error f) : f.code ≠ .capacity := by
  cases prepareAdmission_eq_error h with
  | invalid hinvalid =>
    rw [hvalid] at hinvalid
    simp at hinvalid
  | overflow h => rcases h with rfl | rfl <;> simp
  | synchronizations hlong =>
    have := (wellFormed_of_validate hvalid).synchronizations
    omega
  | _ => simp

end Space

section Offers
variable {m m' : TcuCycleModel} {now epoch : ℕ} {c c' : χ} {request : TimingEvents}

/-- What comes in on an edge of the unit besides a candidate. -/
structure Edge (χ : Type) where
  now : ℕ
  results : List Completion
  preflight : TriggeredEvents → Except Fault Unit
  synchronizationPaused : Bool
  syncPreflight : Option (List ℕ → Sim χ Unit)

def Edge.step (epoch : ℕ) (candidate : Option TimingEvents) (e : Edge χ) :
    Sim (TcuCycleModel × χ) TcuOutput :=
  TcuCycleModel.step e.now epoch candidate e.results e.preflight e.synchronizationPaused e.syncPreflight

/-- Steps on which one candidate is offered again and again, or none is. -/
def offers (epoch : ℕ) (candidate : Option TimingEvents) :
    List (Edge χ) → Sim (TcuCycleModel × χ) (List TcuOutput)
  | [] => pure []
  | e :: rest => do
      let out ← e.step epoch candidate
      let outs ← offers epoch candidate rest
      pure (out :: outs)

/-- A step that refuses a candidate is a step without it. -/
theorem step_of_refused {e : Edge χ} (h : m.prepareAdmission e.now epoch request
    (m.currentTimingState e.now e.synchronizationPaused).pause = .ok none) :
    e.step epoch (some request) (m, c) = e.step epoch none (m, c) := by
  unfold Edge.step TcuCycleModel.step
  change Proc.bind Proc.get _ _ = Proc.bind Proc.get _ _
  simp only [Proc.bind, Proc.get, h]
  rfl

theorem refused_of_step {e : Edge χ} {out : TcuOutput} {s : TcuCycleModel × χ}
    {l : List TraceEvent} (h : (e.step epoch (some request)).Returns (m, c) out s l)
    (hout : out.admitted = false) : m.prepareAdmission e.now epoch request
      (m.currentTimingState e.now e.synchronizationPaused).pause = .ok none := by
  rw [Edge.step, step_eq_commit] at h
  obtain ⟨p, ⟨m₁, c₁⟩, l₁, l₂, hprepare, hcommit, -⟩ := Proc.returns_bind_iff.1 h
  have hcommits := (Proc.returns_onFst_iff.1 hcommit).1
  have hnone : p.due = none := by
    have hadmitted := commit_admitted hcommits
    rw [hout] at hadmitted
    simpa using hadmitted.symm
  have hdue := (prepare_parts hprepare).2.2 request rfl
  rwa [hnone] at hdue

theorem offers_of_refused {edges : List (Edge χ)} {outs : List TcuOutput} {s : TcuCycleModel × χ}
    {l : List TraceEvent} (h : (offers epoch (some request) edges).Returns (m, c) outs s l)
    (houts : ∀ out ∈ outs, out.admitted = false) :
    (offers epoch none edges).Returns (m, c) outs s l := by
  induction edges generalizing m c outs l with
  | nil => exact h
  | cons e rest ih =>
    obtain ⟨out, ⟨m₁, c₁⟩, l₁, k₁, hstep, hrest, rfl⟩ := Proc.returns_bind_iff.1 h
    obtain ⟨outs', s₂, l₂, k₂, hoffers, hpure, rfl⟩ := Proc.returns_bind_iff.1 hrest
    obtain ⟨rfl, rfl, rfl⟩ := Proc.returns_pure_iff.1 hpure
    rw [List.forall_mem_cons] at houts
    have hrefused := refused_of_step hstep houts.1
    refine Proc.returns_bind_iff.2 ⟨out, (m₁, c₁), l₁, l₂ ++ [], ?_, ?_, rfl⟩
    · rw [Proc.Returns, ← step_of_refused hrefused]
      exact hstep
    · exact Proc.returns_bind_iff.2 ⟨outs', s₂, l₂, [], ih hoffers houts.2,
        Proc.returns_pure_iff.2 ⟨rfl, rfl, rfl⟩, rfl⟩

end Offers
/-- A candidate of the timing control is refused for lack of space only while points are queued, so
never during an instruction-supply pause, and offering it in vain, however often, has no effect. -/
theorem back_pressure {p : Profile} {fingerprint : String} {profile : TcuConfig}
    {syncCapacity epoch : ℕ} {m : TcuCycleModel} {request : TimingEvents}
    (hp : p.validate = .ok ()) (hprofile : tcuConfig fingerprint p = .ok profile)
    (hreach : Reachable profile syncCapacity epoch m)
    (hsubmits : TimingControl.Submits profile.timing request) :
    (∀ now pause, m.prepareAdmission now epoch request pause = .ok none → m.timing ≠ []) ∧
    (∀ now pause f, m.prepareAdmission now epoch request pause = .error f → f.code ≠ .capacity) ∧
    (∀ now synchronizationPaused,
      (m.currentTimingState now synchronizationPaused).pause.instructionSupply = true →
        m.prepareAdmission now epoch request
          (m.currentTimingState now synchronizationPaused).pause ≠ .ok none) ∧
    (∀ (e : Edge χ) (c : χ), m.prepareAdmission e.now epoch request
        (m.currentTimingState e.now e.synchronizationPaused).pause = .ok none →
      e.step epoch (some request) (m, c) = e.step epoch none (m, c)) ∧
    ∀ (edges : List (Edge χ)) (c : χ) outs s l,
      (offers epoch (some request) edges).Returns (m, c) outs s l →
      (∀ out ∈ outs, out.admitted = false) → (offers epoch none edges).Returns (m, c) outs s l := by
  obtain ⟨rfl, rfl, q, hq⟩ := exists_holds hreach
  have htiming : 0 < m.profile.timingCapacity := by
    simp only [tcuConfig, Except.bind_eq_ok_iff, Except.pure_eq_ok_iff] at hprofile
    obtain ⟨timing, -, hconfig⟩ := hprofile
    rw [← hconfig]
    exact (Profile.valid_of_validate hp).timingCapacity
  have hempty : ∀ now pause, m.prepareAdmission now epoch request pause = .ok none →
      m.timing ≠ [] := by
    intro now pause hnone htimingEmpty
    have hnil : q = [] := by
      have hlength := congrArg List.length hq.timing
      rw [htimingEmpty, List.length_map] at hlength
      exact List.eq_nil_of_length_eq_zero hlength.symm
    subst hnil
    exact hq.space htiming hnone
  refine ⟨hempty, ?_, ?_, fun e c hnone => step_of_refused hnone,
    fun edges c outs s l h houts => offers_of_refused h houts⟩
  · intro now pause f herror
    exact code_of_prepareAdmission (syncCapacity_pos hreach) hsubmits.valid herror
  · intro now synchronizationPaused hsupply hnone
    apply hempty now _ hnone
    simp only [currentTimingState, Bool.and_eq_true, List.isEmpty_iff] at hsupply
    exact hsupply.1.2

section Probe

/-- A queue of one point. -/
def oneSlot : Profile := { oneGate with timingCapacity := 1 }

def oneSlotConfig : TcuConfig := (tcuConfig "" oneSlot).toOption.get (by decide)

def oneSlotUnit : TcuCycleModel := (make oneSlotConfig).toOption.get (by decide)

/-- The timing control with this request staged. -/
def nextGateControl : ControlState where
  control :=
    { profile := oneSlotConfig.timing, lastLabel := 1, timePoint := 1, pendingPoint := true
      nextEvent := 3, pendingEvents := nextGateRequest.events }
  registers := .make { qubits := 2, resultCapacity := 8, fastFeedback := true }
  links := (ControlLinks.make (transportConfig oneSlot)).toOption.get (by decide)

theorem submits_nextGateRequest : TimingControl.Submits oneSlotConfig.timing nextGateRequest :=
  ⟨nextGateControl, _, 0, 1, _, rfl, rfl, rfl, rfl⟩

/-- The second request is refused while the first one is queued. -/
theorem back_pressure_probe :
    let m := (step 980 1 (some oneGateRequest) [] (fun _ => pure ()) false
      (none : Option (List ℕ → Sim Unit Unit)) (oneSlotUnit, ())).state.1
    m.prepareAdmission 980 1 nextGateRequest {} = .ok none ∧ m.timing ≠ [] ∧
      step 980 1 (some nextGateRequest) [] (fun _ => pure ()) false
          (none : Option (List ℕ → Sim Unit Unit)) (m, ()) =
        step 980 1 none [] (fun _ => pure ()) false none (m, ()) := by
  have hunit : Reachable oneSlotConfig 8 1 oneSlotUnit := .make 1 rfl
  have hreach := hunit.step (χ := Unit) 980 (some oneGateRequest) [] (fun _ => pure ()) false none ()
  have hvalid : oneSlot.validate = .ok () := rfl
  have hconfig : tcuConfig "" oneSlot = .ok oneSlotConfig := rfl
  have hpressure := back_pressure (χ := Unit) hvalid hconfig hreach submits_nextGateRequest
  refine ⟨by decide, hpressure.1 980 {} (by decide), ?_⟩
  exact hpressure.2.2.2.1 ⟨980, [], fun _ => pure (), false, none⟩ () (by decide)

end Probe

end TcuCycleModel
end Qsbit

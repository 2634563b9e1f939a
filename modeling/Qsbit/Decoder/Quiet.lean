import Qsbit.Decoder.Step

/-!
# Steps between boundaries

A step leaves nothing that could be done on its tick, and names the next tick on
which something can be. Steps on the ticks between do nothing, so the decoders need
to be stepped only on the ticks that they name and when a core has accessed them.

## Main definitions

* `DecoderSystem.Settled` — nothing can be done on a tick.
* `DecoderSystem.everyTick`, `DecoderSystem.eventDriven` — the two ways to step.
* `event_driven` — they agree.
-/
namespace Qsbit
open Std (ExtTreeMap)

namespace DecoderSystem

/-- Nothing can be done on the tick: what is left is due later, or waits for an access. -/
structure Settled (now : ℕ) (s : DecoderSystem) : Prop where
  unsent : ∀ p ∈ s.requests ++ s.resetRequest.toList, p.transmitted = false → now < p.sent
  reset : ∀ p ∈ s.resetRequest, now < p.arrival
  job : ∀ j ∈ s.jobs, (j.started = false → now < j.start) ∧
    (j.completed = false → now < j.completion) ∧ ∀ arrival ∈ j.arrival, now < arrival
  head : ∀ p rest, s.requests = p :: rest → p.arrival ≤ now → ∃ d, Blocked s p d
  ready : ∀ j ∈ s.jobs, j.ready = true → now < s.rxAvailable

section Settled
variable {s s' : DecoderSystem} {now epoch t : ℕ} {u : Unit} {l : List TraceEvent}

theorem lt_of_boundary (h : ∀ b ∈ s.nextBoundary now, t < b) {tick : ℕ}
    (hmem : tick ∈ (s.requests ++ s.resetRequest.toList).flatMap requestBoundaries ++
      s.jobs.flatMap s.jobBoundaries) (hlt : now < tick) : t < tick := by
  have hfilter : tick ∈ ((s.requests ++ s.resetRequest.toList).flatMap requestBoundaries ++
      s.jobs.flatMap s.jobBoundaries).filter (now < ·) :=
    List.mem_filter.2 ⟨hmem, by simpa using hlt⟩
  cases hnext : s.nextBoundary now with
  | none =>
    rw [nextBoundary, List.min?_eq_none_iff] at hnext
    rw [hnext] at hfilter
    simp at hfilter
  | some b =>
    have hmin := (List.min?_eq_some_iff.1 hnext).2 tick hfilter
    exact (h b hnext).trans_le hmin

/-- What is settled stays so up to the next boundary. -/
theorem Settled.later (h : Settled now s) (hnext : ∀ b ∈ s.nextBoundary now, t < b) :
    Settled t s := by
  have hrequest : ∀ p ∈ s.requests ++ s.resetRequest.toList, ∀ tick ∈ requestBoundaries p,
      now < tick → t < tick := by
    intro p hp tick htick hlt
    refine lt_of_boundary hnext (List.mem_append_left _ ?_) hlt
    exact List.mem_flatMap.2 ⟨p, hp, htick⟩
  have hjob : ∀ j ∈ s.jobs, ∀ tick ∈ s.jobBoundaries j, now < tick → t < tick := by
    intro j hj tick htick hlt
    refine lt_of_boundary hnext (List.mem_append_right _ ?_) hlt
    exact List.mem_flatMap.2 ⟨j, hj, htick⟩
  refine ⟨?_, ?_, ?_, ?_, ?_⟩
  · intro p hp hunsent
    exact hrequest p hp _ (by simp [requestBoundaries, hunsent]) (h.unsent p hp hunsent)
  · intro p hp
    refine hrequest p (List.mem_append_right _ (Option.mem_toList.2 hp)) _ ?_ (h.reset p hp)
    simp [requestBoundaries]
  · intro j hj
    obtain ⟨hstart, hcompletion, harrival⟩ := h.job j hj
    refine ⟨fun hnot => hjob j hj _ (by simp [jobBoundaries]) (hstart hnot),
      fun hnot => hjob j hj _ (by simp [jobBoundaries]) (hcompletion hnot), fun arrival ha => ?_⟩
    have hmem : arrival ∈ s.jobBoundaries j := by
      rw [Option.mem_def] at ha
      simp [jobBoundaries, ha]
    exact hjob j hj _ hmem (harrival arrival ha)
  · intro p rest hrequests harrival
    apply h.head p rest hrequests
    by_contra hlate
    have hp : p ∈ s.requests ++ s.resetRequest.toList := by simp [hrequests]
    have := hrequest p hp p.arrival (by simp [requestBoundaries]) (by omega)
    omega
  · intro j hj hready
    refine hjob j hj _ ?_ (h.ready j hj hready)
    simp only [Job.ready, decide_eq_true_eq] at hready
    simp [jobBoundaries, hready]

/-! ## Settled decoders -/

theorem Settled.transmitAll (h : Settled now s) :
    s.transmitAll now = s ∧ s.requestsSent now epoch = [] := by
  have hdue : ∀ p ∈ s.requests ++ s.resetRequest.toList, p.due now = false := by
    intro p hp
    cases htransmitted : p.transmitted with
    | true => simp [Request.due, htransmitted]
    | false =>
      have := h.unsent p hp htransmitted
      simp only [Request.due, decide_eq_false_iff_not]
      omega
  have hsame : ∀ p ∈ s.requests ++ s.resetRequest.toList, p.transmit now = p := by
    intro p hp
    rw [Request.transmit, hdue p hp, if_neg (by simp)]
  constructor
  · have hrequests : s.requests.map (·.transmit now) = s.requests := by
      conv_rhs => rw [← List.map_id s.requests]
      exact List.map_congr_left fun p hp => hsame p (List.mem_append_left _ hp)
    have hreset : s.resetRequest.map (·.transmit now) = s.resetRequest := by
      cases hs : s.resetRequest with
      | none => rfl
      | some p => simp [hsame p (by simp [hs])]
    rw [DecoderSystem.transmitAll, hrequests, hreset]
  · rw [requestsSent, List.filter_eq_nil_iff.2, List.map_nil]
    intro p hp
    simp [hdue p hp]

theorem Settled.advanceTransmission (h : Settled now s) :
    (advanceTransmission now epoch).Returns s () s [] := by
  obtain ⟨hsame, hsent⟩ : s.transmitAll now = s ∧ s.requestsSent now epoch = [] := h.transmitAll
  rw [DecoderSystem.advanceTransmission, Proc.returns_get_bind_iff, hsent]
  refine Proc.returns_bind_iff.2 ⟨(), s, [], [], Proc.returns_emitAll_iff.2 ⟨rfl, rfl⟩, ?_, rfl⟩
  rw [Proc.returns_modify_bind_iff, hsame]
  cases hreset : s.resetRequest with
  | none => exact Proc.returns_pure_iff.2 ⟨rfl, rfl, rfl⟩
  | some p =>
    have := h.reset p hreset
    rw [Proc.forSome_some, if_neg (by omega)]
    exact Proc.returns_pure_iff.2 ⟨rfl, rfl, rfl⟩

theorem Settled.advanceJob (h : Settled now s) {j : Job} (hj : j ∈ s.jobs) :
    (advanceJob now epoch j).Returns s (some j) s [] := by
  obtain ⟨hstart, hcompletion, harrival⟩ := h.job j hj
  have hstarted : ¬ (j.started = false ∧ j.start ≤ now) := fun ⟨hnot, hle⟩ => by
    have := hstart hnot
    omega
  have hcompleted : ¬ (j.completed = false ∧ j.completion ≤ now) := fun ⟨hnot, hle⟩ => by
    have := hcompletion hnot
    omega
  have harrived : j.arrived now = false := by
    simp only [Job.arrived, decide_eq_false_iff_not]
    rintro ⟨arrival, ha, hle⟩
    have := harrival arrival ha
    omega
  have hsame : j.advance now = j := by
    have h₁ : (decide (j.started = true ∨ j.start ≤ now)) = j.started := by
      cases hs : j.started <;> simp_all
    have h₂ : (decide (j.completed = true ∨ j.completion ≤ now)) = j.completed := by
      cases hs : j.completed <;> simp_all
    rw [Job.advance, h₁, h₂]
  rw [DecoderSystem.advanceJob, if_neg hstarted, if_neg hcompleted, harrived, if_neg (by simp), hsame]
  exact Proc.returns_pure_iff.2 ⟨rfl, rfl, rfl⟩

theorem Settled.advanceFrom (h : Settled now s) {kept jobs : List Job} (hjobs : s.jobs = kept ++ jobs) :
    (advanceFrom now epoch kept jobs).Returns s () s [] := by
  induction jobs generalizing kept with
  | nil => exact Proc.returns_pure_iff.2 ⟨rfl, rfl, rfl⟩
  | cons j rest ih =>
    refine Proc.returns_bind_iff.2 ⟨some j, s, [], [], h.advanceJob (by simp [hjobs]), ?_, rfl⟩
    have hsame : { s with jobs := kept ++ (some j).toList ++ rest } = s := by
      have hlist : kept ++ (some j).toList ++ rest = s.jobs := by simp [hjobs]
      rw [hlist]
    rw [Proc.returns_modify_bind_iff, hsame]
    exact ih (by simp [hjobs])

theorem Settled.admitRequests (h : Settled now s) :
    (admitRequests now epoch).Returns s () s [] := by
  rw [DecoderSystem.admitRequests, Proc.returns_get_bind_iff]
  cases hrequests : s.requests with
  | nil => exact Proc.returns_pure_iff.2 ⟨rfl, rfl, rfl⟩
  | cons p rest =>
    rw [admitFrom]
    by_cases harrival : p.arrival ≤ now
    · obtain ⟨d, hblocked⟩ := h.head p rest hrequests harrival
      rw [if_pos harrival]
      refine Proc.returns_bind_iff.2 ⟨false, s, [], [], ?_, Proc.returns_pure_iff.2 ⟨rfl, rfl, rfl⟩,
        rfl⟩
      simp only [admitRequest, Proc.returns_get_bind_iff, Proc.returns_lift_bind_iff,
        Proc.returns_modify_bind_iff]
      refine ⟨d, hblocked.decoder, ?_⟩
      rw [hblocked.opened]
      rcases hblocked.waits with hsubmitted | ⟨hlength, hresult, hcapacity⟩
      · rw [if_pos hsubmitted]
        exact Proc.returns_pure_iff.2 ⟨rfl, rfl, rfl⟩
      · split
        · exact Proc.returns_pure_iff.2 ⟨rfl, rfl, rfl⟩
        · simp only [Proc.returns_lift_bind_iff, require_eq_ok_iff, exists_const]
          refine ⟨hlength.le, ?_⟩
          rw [if_pos ⟨hlength, hresult, hcapacity⟩]
          exact Proc.returns_pure_iff.2 ⟨rfl, rfl, rfl⟩
    · rw [if_neg harrival]
      exact Proc.returns_pure_iff.2 ⟨rfl, rfl, rfl⟩

theorem Settled.transmitResult (h : Settled now s) : (transmitResult now).Returns s () s [] := by
  rw [DecoderSystem.transmitResult, Proc.returns_get_bind_iff]
  by_cases hfree : s.rxAvailable ≤ now
  · have hnone : readyJob s.jobs = none := by
      rw [readyJob_eq_none_iff]
      intro j hj
      by_contra hready
      have := h.ready j hj (by simpa using hready)
      omega
    rw [if_pos hfree, hnone, Proc.forSome_none]
    exact Proc.returns_pure_iff.2 ⟨rfl, rfl, rfl⟩
  · rw [if_neg hfree]
    exact Proc.returns_pure_iff.2 ⟨rfl, rfl, rfl⟩

/-- A step of settled decoders does nothing. -/
theorem Settled.step (h : Settled now s) : (step now epoch).Returns s () s [] := by
  refine Proc.returns_bind_iff.2 ⟨(), s, [], [], h.advanceTransmission, ?_, rfl⟩
  refine Proc.returns_bind_iff.2 ⟨(), s, [], [], h.advanceFrom (List.nil_append _).symm, ?_, rfl⟩
  exact Proc.returns_bind_iff.2 ⟨(), s, [], [], h.admitRequests, h.transmitResult, rfl⟩

/-! ## A step settles -/

theorem transmit_unsent {p : Request} (h : (p.transmit now).transmitted = false) :
    now < (p.transmit now).sent := by
  unfold Request.transmit at h ⊢
  split at h
  · simp at h
  · rename_i hdue
    rw [if_neg hdue]
    simp only [Request.due, decide_eq_true_eq, not_and, not_le] at hdue
    exact hdue h

theorem sent_of_transmission (h : (DecoderSystem.advanceTransmission now epoch).Returns s u s' l) :
    (∀ p ∈ s'.requests ++ s'.resetRequest.toList, p.transmitted = false → now < p.sent) ∧
      ∀ p ∈ s'.resetRequest, now < p.arrival := by
  have hall : ∀ p ∈ (s.transmitAll now).requests ++ (s.transmitAll now).resetRequest.toList,
      p.transmitted = false → now < p.sent := by
    intro p hp hunsent
    simp only [DecoderSystem.transmitAll, List.mem_append, List.mem_map, Option.mem_toList,
      Option.map_eq_some_iff] at hp
    obtain ⟨q, -, rfl⟩ | ⟨q, -, rfl⟩ := hp
    · exact transmit_unsent hunsent
    · exact transmit_unsent hunsent
  rcases advanceTransmission_returns h with ⟨r, hr, -, rfl, -⟩ | ⟨hlate, rfl, -⟩
  · refine ⟨fun p hp => hall p ?_, by simp [cancel]⟩
    simp only [cancel, Option.toList_none, List.append_nil] at hp
    exact List.mem_append_left _ ((List.mem_filter.1 hp).1)
  · refine ⟨hall, fun p hp => ?_⟩
    simp only [DecoderSystem.transmitAll, Option.mem_def, Option.map_eq_some_iff] at hp
    obtain ⟨q, hq, rfl⟩ := hp
    have harrival : (q.transmit now).arrival = q.arrival := by
      unfold Request.transmit
      split <;> rfl
    rw [harrival]
    exact hlate q hq

/-- What a settled job looks like. -/
def JobSettled (now : ℕ) (j : Job) : Prop :=
  (j.started = false → now < j.start) ∧ (j.completed = false → now < j.completion) ∧
    ∀ arrival ∈ j.arrival, now < arrival

theorem jobSettled_advance {j : Job} (h : j.arrived now = false) : JobSettled now (j.advance now) := by
  simp only [Job.arrived, decide_eq_false_iff_not, not_exists, not_and, not_le] at h
  simp only [JobSettled, Job.advance, decide_eq_false_iff_not, not_or, not_le]
  exact ⟨fun hnot => hnot.2, fun hnot => hnot.2, h⟩

theorem jobSettled_of_advanceFrom {jobs : List Job}
    (h : (DecoderSystem.advanceFrom now epoch [] jobs).Returns s u s' l) (hjobs : s.jobs = jobs) :
    (s'.requests = s.requests ∧ s'.resetRequest = s.resetRequest) ∧
      ∀ j ∈ s'.jobs, JobSettled now j := by
  have hkeeps := advanceFrom_induction
    (P := fun x _ => x.requests = s.requests ∧ x.resetRequest = s.resetRequest) h
    (by simpa using hjobs) [] ⟨rfl, rfl⟩ ?_
  · refine ⟨hkeeps.1, fun j hj => ?_⟩
    rw [hkeeps.2, List.nil_append] at hj
    obtain ⟨j₀, hj₀, rfl⟩ := List.mem_map.1 hj
    exact jobSettled_advance (by simpa using (List.mem_filter.1 hj₀).2)
  · intro kept j rest x x' j' before k _ hx hstep
    rcases advanceJob_returns hstep with ⟨-, -, rfl, -⟩ | ⟨-, -, rfl, -⟩
    · exact hx
    · exact hx

theorem jobSettled_of_admits {d : DecoderConfig} {p : Request} {window : List Bool}
    (h : Admits now d p window s s') (hjobs : ∀ j ∈ s.jobs, JobSettled now j) :
    ∀ j ∈ s'.jobs, JobSettled now j := by
  rcases h.outcome with ⟨-, hsame, -⟩ | ⟨-, -, result, start, completion, -, hschedule, hnew⟩
  · rw [hsame]
    exact hjobs
  · rw [hnew]
    intro j hj
    rcases List.mem_append.1 hj with hj | hj
    · exact hjobs j hj
    · rw [List.mem_singleton.1 hj]
      have hstart := hschedule.earliest
      have hcompletion := hschedule.latency
      have hlate : now < start := by omega
      exact ⟨fun _ => hlate, fun _ => by simpa using hlate.trans_le (by omega), by simp⟩

/-- A step leaves nothing that could be done on its tick. -/
theorem settled_of_step (h : (DecoderSystem.step now epoch).Returns s u s' l) : Settled now s' := by
  obtain ⟨s₁, s₂, s₃, l₁, l₂, l₃, h₁, h₂, h₃, h₄, -⟩ := step_returns h
  obtain ⟨hunsent, hreset⟩ := sent_of_transmission h₁
  obtain ⟨⟨hrequests₂, hreset₂⟩, hjobs₂⟩ := jobSettled_of_advanceFrom h₂ rfl
  obtain ⟨⟨hrequests₃, hreset₃, hjobs₃⟩, hhead⟩ := admitFrom_induction
    (P := fun x _ => (∀ p ∈ x.requests, p ∈ s₂.requests) ∧ x.resetRequest = s₂.resetRequest ∧
      ∀ j ∈ x.jobs, JobSettled now j) h₃ rfl [] ⟨fun _ hp => hp, rfl, hjobs₂⟩
    (fun _ _ _ hx => hx) (by
      intro p rest x x' before k hrequests _ hx hadmission
      obtain ⟨d, -, ⟨hfalse, -⟩ | ⟨-, ⟨window, hadmits⟩, -⟩⟩ := admitRequest_returns hadmission
      · simp at hfalse
      · obtain ⟨hsub, hsame, hjobs⟩ := hx
        have hsettled := jobSettled_of_admits hadmits hjobs
        obtain ⟨sessions, available, jobs, rfl⟩ := hadmits.rest
        refine ⟨fun q hq => hsub q ?_, hsame, hsettled⟩
        rw [hrequests]
        exact List.mem_cons_of_mem _ hq)
  have hrequest : ∀ p ∈ s₃.requests ++ s₃.resetRequest.toList,
      p ∈ s₁.requests ++ s₁.resetRequest.toList := by
    intro p hp
    rw [hreset₃, hreset₂] at hp
    rcases List.mem_append.1 hp with hp | hp
    · exact List.mem_append_left _ (hrequests₂ ▸ hrequests₃ p hp)
    · exact List.mem_append_right _ hp
  have hreset' : ∀ p ∈ s₃.resetRequest, now < p.arrival := by
    rw [hreset₃, hreset₂]
    exact hreset
  obtain ⟨-, ⟨rfl, hnone⟩ | ⟨ready, last, arrival, htransmits, rfl⟩⟩ := transmitResult_returns h₄
  · refine ⟨fun p hp => hunsent p (hrequest p hp), hreset', hjobs₃, hhead, fun j hj hjready => ?_⟩
    by_contra hfree
    have := readyJob_eq_none_iff.1 (hnone (by omega)) j hj
    simp [hjready] at this
  · refine ⟨fun p hp => hunsent p (hrequest p hp), hreset', ?_, ?_,
      fun _ _ _ => htransmits.transmission⟩
    · intro j hj
      obtain ⟨j₀, hj₀, rfl⟩ := List.mem_map.1 hj
      obtain ⟨hstart, hcompletion, hlate⟩ := hjobs₃ j₀ hj₀
      split
      · refine ⟨hstart, hcompletion, fun a ha => ?_⟩
        obtain rfl := Option.some.inj ha
        have := htransmits.transmission
        have := htransmits.arrival
        omega
      · exact ⟨hstart, hcompletion, hlate⟩
    · intro p rest hp hle
      obtain ⟨d, hblocked⟩ := hhead p rest hp hle
      refine ⟨d, hblocked.decoder, ?_, hblocked.waits⟩
      have hopened := congrArg DecoderSystem.sessions hblocked.opened
      simp only [openSession, setSession, DecoderSystem.session] at hopened ⊢
      rw [hopened]

end Settled

/-! ## The two ways to step -/

/-- What an access is answered with; its fault goes to the core and does not stop the decoders. -/
def answer (core : ℕ) (request : MemoryRequest) (now epoch : ℕ) :
    Sim DecoderSystem (Except Fault (Option ℕ)) :=
  Proc.handle (do
    let reply ← access core request now epoch
    pure (.ok reply)) fun error => pure (.error error)

def answerAll (now epoch : ℕ) :
    List (ℕ × MemoryRequest) → Sim DecoderSystem (List (Except Fault (Option ℕ)))
  | [] => pure []
  | (core, request) :: rest => do
      let reply ← answer core request now epoch
      let replies ← answerAll now epoch rest
      pure (reply :: replies)

/-- The accesses of a tick, and the step after them. -/
def tick (accesses : ℕ → List (ℕ × MemoryRequest)) (epoch now : ℕ) :
    Sim DecoderSystem (List (Except Fault (Option ℕ))) := do
  let replies ← answerAll now epoch (accesses now)
  step now epoch
  pure replies

/-- Step on each of so many ticks. -/
def everyTick (accesses : ℕ → List (ℕ × MemoryRequest)) (epoch now : ℕ) :
    ℕ → Sim DecoderSystem (List (List (Except Fault (Option ℕ))))
  | 0 => pure []
  | count + 1 => do
      let replies ← tick accesses epoch now
      let rest ← everyTick accesses epoch (now + 1) count
      pure (replies :: rest)

/-- Step on the ticks that have an access or that the last step has named. -/
def eventDriven (accesses : ℕ → List (ℕ × MemoryRequest)) (epoch : ℕ) (wake : Option ℕ) (now : ℕ) :
    ℕ → Sim DecoderSystem (List (List (Except Fault (Option ℕ))))
  | 0 => pure []
  | count + 1 =>
      if accesses now ≠ [] ∨ wake = some now then do
        let replies ← tick accesses epoch now
        let s ← Proc.get
        let rest ← eventDriven accesses epoch (s.nextBoundary now) (now + 1) count
        pure (replies :: rest)
      else do
        let rest ← eventDriven accesses epoch wake (now + 1) count
        pure ([] :: rest)

/-- Until the decoders are woken up they are settled. -/
def Sleeps (s : DecoderSystem) (wake : Option ℕ) (now : ℕ) : Prop :=
  (∀ b ∈ wake, now ≤ b) ∧ ∀ t, now ≤ t → (∀ b ∈ wake, t < b) → Settled t s

section Agree
variable {s s' : DecoderSystem} {wake : Option ℕ} {now epoch t count : ℕ} {l : List TraceEvent}
  {accesses : ℕ → List (ℕ × MemoryRequest)}

theorem lt_nextBoundary {b : ℕ} (h : s.nextBoundary now = some b) : now < b := by
  have hmem := List.min?_mem h
  simpa using (List.mem_filter.1 hmem).2

theorem sleeps_of_settled (h : Settled now s) : Sleeps s (s.nextBoundary now) (now + 1) :=
  ⟨fun _ hb => lt_nextBoundary hb, fun _ _ hlt => h.later hlt⟩

theorem Sleeps.later (h : Sleeps s wake now) (hwake : wake ≠ some now) : Sleeps s wake (now + 1) := by
  refine ⟨fun b hb => ?_, fun t ht => h.2 t (by omega)⟩
  have hle := h.1 b hb
  have hne : b ≠ now := by
    rintro rfl
    exact hwake hb
  omega

/-- A new or reset system sleeps until it is accessed. -/
theorem sleeps_of_empty (hrequests : s.requests = []) (hreset : s.resetRequest = none)
    (hjobs : s.jobs = []) : Sleeps s none now := by
  refine ⟨by simp, fun t _ _ => ⟨?_, ?_, ?_, ?_, ?_⟩⟩
  · simp [hrequests, hreset]
  · simp [hreset]
  · simp [hjobs]
  · simp [hrequests]
  · simp [hjobs]

theorem settled_of_tick {replies : List (Except Fault (Option ℕ))}
    (h : (tick accesses epoch now).Returns s replies s' l) : Settled now s' := by
  obtain ⟨replies', s₁, l₁, k₁, -, h₁, -⟩ := Proc.returns_bind_iff.1 h
  obtain ⟨_, s₂, l₂, k₂, hstep, hpure, -⟩ := Proc.returns_bind_iff.1 h₁
  obtain ⟨-, rfl, -⟩ := Proc.returns_pure_iff.1 hpure
  exact settled_of_step hstep

theorem Sleeps.tick (h : Sleeps s wake now) (hwake : wake ≠ some now) (hnone : accesses now = []) :
    (DecoderSystem.tick accesses epoch now).Returns s [] s [] := by
  have hsettled : Settled now s := by
    refine h.2 now le_rfl fun b hb => ?_
    have hlater := (h.later hwake).1 b hb
    omega
  rw [DecoderSystem.tick, hnone]
  refine Proc.returns_bind_iff.2 ⟨[], s, [], [], Proc.returns_pure_iff.2 ⟨rfl, rfl, rfl⟩, ?_, rfl⟩
  exact Proc.returns_bind_iff.2 ⟨(), s, [], [], hsettled.step, Proc.returns_pure_iff.2 ⟨rfl, rfl, rfl⟩,
    rfl⟩

theorem Sleeps.agree (h : Sleeps s wake now) :
    everyTick accesses epoch now count s = eventDriven accesses epoch wake now count s := by
  induction count generalizing s wake now with
  | zero => rfl
  | succ count ih =>
    rw [everyTick, eventDriven]
    by_cases hawake : accesses now ≠ [] ∨ wake = some now
    · rw [if_pos hawake]
      rcases htick : DecoderSystem.tick accesses epoch now s with ⟨_ | replies, s₁, l₁⟩
      · simp only [Proc.bind_apply, htick]
      · have hrest := ih (sleeps_of_settled (settled_of_tick htick))
        simp only [Proc.bind_apply, htick, hrest, Proc.get, List.nil_append]
    · rw [not_or, not_not] at hawake
      rw [if_neg (by simp [hawake])]
      have htick : DecoderSystem.tick accesses epoch now s = ⟨.ok [], s, []⟩ :=
        h.tick hawake.2 hawake.1
      have hrest := ih (h.later hawake.2)
      simp only [Proc.bind_apply, htick, hrest, List.nil_append]

end Agree
end DecoderSystem

/-- Steps between boundaries do nothing, also the one that repeats a step; a new system that is
stepped when it is accessed and on the boundaries that it names returns the same replies, ends in
the same state and leaves the same records as one that is stepped on every tick. -/
theorem event_driven {config : DecoderSystemConfig} {s : DecoderSystem}
    (hmake : DecoderSystem.make config = .ok s) :
    (∀ (s s' : DecoderSystem) (now epoch t epoch' : ℕ) (l : List TraceEvent),
      (DecoderSystem.step now epoch).Returns s () s' l → now ≤ t →
        (∀ b ∈ s'.nextBoundary now, t < b) → (DecoderSystem.step t epoch').Returns s' () s' []) ∧
      ∀ (accesses : ℕ → List (ℕ × MemoryRequest)) (epoch origin count : ℕ),
        DecoderSystem.everyTick accesses epoch origin count s =
          DecoderSystem.eventDriven accesses epoch none origin count s := by
  refine ⟨?_, ?_⟩
  · intro s s' now epoch t epoch' l hstep _ hnext
    exact ((DecoderSystem.settled_of_step hstep).later hnext).step
  · intro accesses epoch origin count
    simp only [DecoderSystem.make, Except.bind_eq_ok_iff, require_eq_ok_iff, exists_const,
      Except.pure_eq_ok_iff] at hmake
    obtain ⟨mmio, -, -, _, -, rfl⟩ := hmake
    exact (DecoderSystem.sleeps_of_empty rfl rfl rfl).agree

section Probe

/-- A decoder that tells whether two bits differ. -/
def parityConfig : DecoderSystemConfig :=
  { requestCapacity := 1, resultCapacity := 1, linkLatency := 3, packetOverhead := 0
    decoders := [
      { id := 7, measurements := 2, outputs := 1, latency := 10, initiationInterval := 20
        decode := fun bits => .ok [bits[0]? != bits[1]?] }] }

def parityDecoders : DecoderSystem :=
  { config := parityConfig, mmio := { base := 0x40000000, decoders := [7] } }

def decoderWrite (offset value : ℕ) : ℕ × MemoryRequest :=
  (0, { address := 0x40000000 + offset, value, write := true })

/-- Submit two bits on the first tick, and read the result on tick 19 and on tick 20. -/
def parityAccesses (now : ℕ) : List (ℕ × MemoryRequest) :=
  if now = 0 then [decoderWrite 0 7, decoderWrite 4 2, decoderWrite 8 1, decoderWrite 20 1]
  else if now = 19 ∨ now = 20 then [(0, { address := 0x40000000 + 24 })]
  else []

theorem event_driven_parity :
    (DecoderSystem.eventDriven parityAccesses 1 none 0 21 parityDecoders).log.map (·.tick) =
        [0, 0, 4, 5, 15, 19] ∧
      (DecoderSystem.everyTick parityAccesses 1 0 21 parityDecoders).log.map (·.tick) =
        [0, 0, 4, 5, 15, 19] := by
  have hmake : DecoderSystem.make parityConfig = .ok parityDecoders := rfl
  have hlog : (DecoderSystem.eventDriven parityAccesses 1 none 0 21 parityDecoders).log.map (·.tick) =
      [0, 0, 4, 5, 15, 19] := by decide +kernel
  refine ⟨hlog, ?_⟩
  rw [(event_driven hmake).2]
  exact hlog

end Probe
end Qsbit

import Qsbit.Backend

/-!
# Batches

The batch limit decides when operations reach the backend, not which and not in
which order. What the backend is given is observed with a backend that records
its batches; what a call commits is read off the call.

## Main definitions

* `BackendCall`, `BackendRun` — the calls on a `BackendExecution`, in any order, also after faults.
* `Batched` — the batches so far and the pending operations are what has been committed.
* `Compositional`, `Initializes` — what two runs with different limits need of a backend.
* `batch_limits` — the batches of one run, and the replies of two.
-/
namespace Qsbit
variable {β : Type}

namespace QuantumBackend

/-- The backend together with the batches it has been given since its last reset. -/
def recording (backend : QuantumBackend β) :
    QuantumBackend (β × List (List BackendOperation)) where
  validate := backend.validate
  reset qubits seed := do
    Proc.modify fun s => (s.1, [])
    Proc.onFst (backend.reset qubits seed)
  execute epoch operations := do
    Proc.modify fun s => (s.1, s.2 ++ [operations])
    Proc.onFst (backend.execute epoch operations)
  state s := backend.state s.1
  densityMatrix s := backend.densityMatrix s.1

/-- Executing a batch is executing its parts in order. Only the last part may measure. -/
def Compositional (backend : QuantumBackend β) : Prop :=
  ∀ epoch a b, a ≠ [] → b ≠ [] → (∀ operation ∈ a, operation.isMeasurement = false) →
    backend.execute epoch (a ++ b) = do
      let x ← backend.execute epoch a
      let y ← backend.execute epoch b
      pure (x ++ y)

/-- A reset does not depend on what the backend has done before. -/
def Initializes (backend : QuantumBackend β) : Prop :=
  ∀ qubits seed s s', backend.reset qubits seed s = backend.reset qubits seed s'

end QuantumBackend

open BackendExecution

/-! ## Calls -/

inductive BackendCall
  | reset (qubits seed epoch now : ℕ)
  | evolve (start tick : ℕ) (drives acquisitions : List BackendActivity)
  | apply (now : ℕ) (gates : List EventSpec)
  | measure (now : ℕ) (references : List MeasurementReference)
  | flush
  | state
  | densityMatrix

/-- What a call returns. -/
inductive BackendReply
  | done
  | bits (values : List Bool)
  | state (amplitudes : List (Double × Double))
  | densityMatrix (entries : List (List (Double × Double)))

namespace BackendCall

def run (backend : QuantumBackend β) : BackendCall → Sim (BackendExecution β) BackendReply
  | reset qubits seed epoch now => do
      BackendExecution.reset backend qubits seed epoch now
      pure .done
  | evolve start tick drives acquisitions => do
      BackendExecution.evolve backend start tick drives acquisitions
      pure .done
  | apply now gates => do
      BackendExecution.apply backend now gates
      pure .done
  | measure now references => do
      let values ← BackendExecution.measure backend now references
      pure (.bits values)
  | flush => do
      BackendExecution.flush backend
      pure .done
  | state => do
      let amplitudes ← BackendExecution.state backend
      pure (.state amplitudes)
  | densityMatrix => do
      let entries ← BackendExecution.densityMatrix backend
      pure (.densityMatrix entries)

/-- What a call commits, if it passes its checks. -/
def commits (backend : QuantumBackend β) (x : BackendExecution β) :
    BackendCall → List BackendOperation
  | evolve start tick drives acquisitions =>
      if start = x.committedTick ∧ start < tick then [.evolution start tick drives acquisitions]
      else []
  | apply now gates =>
      if validateAll backend gates = .ok () ∧ gates ≠ [] ∧ x.committedTick ≤ now then
        [.gates now gates] else []
  | measure now references =>
      if references ≠ [] ∧ x.committedTick ≤ now ∧ (∀ r ∈ references, r.epoch = x.epoch) ∧
        (references.map (·.target)).Nodup then [.measurement now references] else []
  | _ => []

/-- The operations committed since the last reset, after a call. -/
def history (backend : QuantumBackend β) (x : BackendExecution β)
    (committed : List BackendOperation) : BackendCall → List BackendOperation
  | reset _ _ _ _ => []
  | call => committed ++ call.commits backend x

/-- Make calls in order. -/
def runAll (backend : QuantumBackend β) :
    List BackendCall → Sim (BackendExecution β) (List BackendReply)
  | [] => pure []
  | call :: rest => do
      let reply ← call.run backend
      let replies ← runAll backend rest
      pure (reply :: replies)

end BackendCall

/-- Any calls on a fresh execution whose backend records its batches; a call that faults does not
end the run. With it goes what has been committed since the last reset. -/
inductive BackendRun (backend : QuantumBackend β) (limit : ℕ) :
    List BackendOperation → BackendExecution (β × List (List BackendOperation)) → Prop
  | make {s : β} {x : BackendExecution (β × List (List BackendOperation))}
      (h : BackendExecution.make (s, []) limit = .ok x) : BackendRun backend limit [] x
  | call {committed : List BackendOperation}
      {x : BackendExecution (β × List (List BackendOperation))} (call : BackendCall)
      (run : BackendRun backend limit committed x) :
      BackendRun backend limit (call.history backend.recording x committed)
        (call.run backend.recording x).state

/-! ## One hand-over -/

section Execute
variable {backend : QuantumBackend β} {expected : ℕ} {x y : BackendExecution β} {bits : List Bool}
  {l : List TraceEvent} {f : Fault}

theorem execute_returns (h : (execute backend expected).Returns x bits y l) :
    (x.pending = [] ∧ bits = [] ∧ y = x) ∨ (x.pending ≠ [] ∧ bits.length = expected ∧
      ∃ s, (backend.execute x.epoch x.pending).Returns x.backend bits s [] ∧
        y = { x with backend := s, pending := [] }) := by
  rw [execute, Proc.returns_get_bind_iff] at h
  by_cases hpending : x.pending = []
  · rw [if_pos hpending] at h
    obtain ⟨rfl, rfl, -⟩ := Proc.returns_pure_iff.1 h
    exact .inl ⟨hpending, rfl, rfl⟩
  · rw [if_neg hpending, Proc.returns_handle_iff] at h
    rcases h with h | ⟨_, _, _, _, -, h, -⟩
    · obtain ⟨results, x₁, _, _, hresults, hrest, -⟩ := Proc.returns_bind_iff.1 h
      obtain ⟨s, hs, rfl⟩ := Proc.returns_zoom_iff.1 hresults
      simp only [clear, Proc.returns_lift_bind_iff, require_eq_ok_iff, exists_const,
        Proc.returns_modify_bind_iff, Proc.returns_pure_iff] at hrest
      obtain ⟨hcount, rfl, rfl, -⟩ := hrest
      exact .inr ⟨hpending, hcount, s, (Proc.returns_silent_iff.1 hs).1, rfl⟩
    · simp [clear] at h

/-- A measurement has as many bits as references. -/
theorem length_of_measure {now : ℕ} {references : List MeasurementReference}
    (h : (measure backend now references).Returns x bits y l) : bits.length = references.length := by
  rw [BackendExecution.measure, Proc.returns_get_bind_iff] at h
  by_cases hnone : references = []
  · rw [if_pos hnone] at h
    obtain ⟨rfl, -, -⟩ := Proc.returns_pure_iff.1 h
    simp [hnone]
  · simp only [if_neg hnone, Proc.returns_lift_bind_iff, Proc.returns_modify_bind_iff] at h
    obtain ⟨_, -, _, -, hexecute⟩ := h
    rcases execute_returns hexecute with ⟨hpending, -⟩ | ⟨-, hcount, -⟩
    · simp at hpending
    · exact hcount

theorem execute_raises (h : (execute backend expected).Raises x f y l) :
    x.pending ≠ [] ∧ y =
      { x with
        backend := (backend.execute x.epoch x.pending x.backend).state, pending := [] } := by
  rw [execute, Proc.raises_get_bind_iff] at h
  by_cases hpending : x.pending = []
  · rw [if_pos hpending] at h
    exact absurd h Proc.not_raises_pure
  · rw [if_neg hpending, Proc.raises_handle_iff] at h
    obtain ⟨error, x₁, _, _, hraises, hhandler, -⟩ := h
    simp only [clear, Proc.raises_modify_bind_iff, Proc.raises_check_iff] at hhandler
    obtain ⟨-, rfl, -⟩ := hhandler
    refine ⟨hpending, ?_⟩
    rcases Proc.raises_bind_iff.1 hraises with hfail | ⟨results, x₂, _, _, hresults, hrest, -⟩
    · obtain ⟨s, hs, rfl⟩ := Proc.raises_zoom_iff.1 hfail
      rw [(Proc.raises_silent_iff.1 hs).1]
    · obtain ⟨s, hs, rfl⟩ := Proc.returns_zoom_iff.1 hresults
      simp only [clear, Proc.raises_lift_bind_iff, Proc.raises_modify_bind_iff,
        Proc.not_raises_pure, and_false, exists_false, or_false] at hrest
      obtain ⟨-, rfl, -⟩ := hrest
      rw [(Proc.returns_silent_iff.1 hs).1]

/-- Whether it fails or not, the backend has been given the pending operations. -/
theorem state_execute (h : x.pending ≠ []) : (execute backend expected x).state =
    { x with
      backend := (backend.execute x.epoch x.pending x.backend).state, pending := [] } := by
  rcases hx : execute backend expected x with ⟨_ | bits, y, l⟩
  · exact (execute_raises hx).2
  · rcases execute_returns hx with ⟨hnone, -⟩ | ⟨-, -, s, hs, rfl⟩
    · exact absurd hnone h
    · rw [hs]

theorem state_execute_nil (h : x.pending = []) : (execute backend expected x).state = x := by
  rw [execute, Proc.state_get_bind, if_pos h]
  rfl

theorem state_flush : (flush backend x).state = (execute backend 0 x).state := Proc.state_map

theorem state_state : (state backend x).state = (execute backend 0 x).state := by
  rw [← state_flush, state, Proc.state_bind]
  split <;> rfl

theorem state_densityMatrix : (densityMatrix backend x).state = (execute backend 0 x).state := by
  rw [← state_flush, densityMatrix, Proc.state_bind]
  split <;> rfl

end Execute

/-! ## What is given to the backend -/

/-- The batches and the pending operations are exactly what has been committed, in order; a
measurement ends its batch and no batch exceeds the limit. -/
structure Given (limit : ℕ) (committed : List BackendOperation)
    (x : BackendExecution (β × List (List BackendOperation))) : Prop where
  bound : x.maxBatchOperations = limit
  committed : x.backend.2.flatten ++ x.pending = committed
  small : ∀ batch ∈ x.backend.2, batch.length ≤ limit
  nonempty : ∀ batch ∈ x.backend.2, batch ≠ []
  measurement_last : ∀ batch ∈ x.backend.2, ∀ operation ∈ batch.dropLast,
    operation.isMeasurement = false

/-- Between two calls, less than a batch is pending and no measurement. -/
structure Batched (limit : ℕ) (committed : List BackendOperation)
    (x : BackendExecution (β × List (List BackendOperation))) : Prop extends
    Given limit committed x where
  pending_small : x.pending.length < limit
  pending : ∀ operation ∈ x.pending, operation.isMeasurement = false

section Batched
variable {backend : QuantumBackend β} {limit expected : ℕ} {committed : List BackendOperation}
  {x : BackendExecution (β × List (List BackendOperation))}

theorem recording_state {epoch : ℕ} {operations : List BackendOperation}
    {s : β × List (List BackendOperation)} :
    (backend.recording.execute epoch operations s).state.2 = s.2 ++ [operations] := rfl

/-- Handing over a batch that is not too large and ends with its only measurement. -/
theorem Given.execute (h : Given limit committed x) (hpending : x.pending ≠ [])
    (hsmall : x.pending.length ≤ limit) (hpos : 0 < limit)
    (hlast : ∀ operation ∈ x.pending.dropLast, operation.isMeasurement = false) :
    Batched limit committed (BackendExecution.execute backend.recording expected x).state := by
  rw [state_execute hpending]
  exact
    { bound := h.bound
      committed := by simpa [recording_state] using h.committed
      small := by
        intro batch hbatch
        rw [recording_state] at hbatch
        rcases List.mem_append.1 hbatch with hb | hb
        · exact h.small batch hb
        · rw [List.mem_singleton.1 hb]
          exact hsmall
      nonempty := by
        intro batch hbatch
        rcases List.mem_append.1 hbatch with hb | hb
        · exact h.nonempty batch hb
        · rw [List.mem_singleton.1 hb]
          exact hpending
      measurement_last := by
        intro batch hbatch
        rcases List.mem_append.1 hbatch with hb | hb
        · exact h.measurement_last batch hb
        · rw [List.mem_singleton.1 hb]
          exact hlast
      pending_small := hpos
      pending := by simp }

theorem Batched.execute (h : Batched limit committed x) :
    Batched limit committed (BackendExecution.execute backend.recording expected x).state := by
  by_cases hpending : x.pending = []
  · rw [state_execute_nil hpending]
    exact h
  · refine h.toGiven.execute hpending h.pending_small.le (by have := h.pending_small; omega) ?_
    intro operation hoperation
    exact h.pending operation (List.dropLast_subset _ hoperation)

/-- An operation other than a measurement, committed. -/
theorem Batched.commit {operation : BackendOperation} (h : Batched limit committed x)
    (hm : operation.isMeasurement = false) (htick : x.committedTick ≤ operation.tick) :
    Batched limit (committed ++ [operation])
      (BackendExecution.commit backend.recording operation x).state := by
  have hgiven : Given limit (committed ++ [operation])
      { x with committedTick := operation.tick, pending := x.pending ++ [operation] } :=
    { h.toGiven with committed := by simp [← h.committed] }
  have hsmall := h.pending_small
  have hpending : ∀ o ∈ x.pending ++ [operation], o.isMeasurement = false := by
    intro o ho
    rcases List.mem_append.1 ho with ho | ho
    · exact h.pending o ho
    · rw [List.mem_singleton.1 ho]
      exact hm
  simp only [BackendExecution.commit, Proc.state_get_bind, Proc.state_lift_bind, require,
    if_pos htick, Proc.state_modify_bind]
  split
  · rename_i hfull
    rw [state_flush]
    refine hgiven.execute (by simp) (by simp; omega) (by omega) ?_
    intro o ho
    exact hpending o (List.dropLast_subset _ ho)
  · rename_i hroom
    rw [h.bound] at hroom
    have hroom' : (x.pending ++ [operation]).length < limit := by
      simp only [List.length_append, List.length_singleton] at hroom ⊢
      omega
    exact { hgiven with pending_small := hroom', pending := hpending }

/-- A reset starts anew, whatever has been before. -/
theorem batched_reset {qubits seed epoch now : ℕ} (hpos : 0 < x.maxBatchOperations) :
    Batched x.maxBatchOperations []
      (BackendExecution.reset backend.recording qubits seed epoch now x).state where
  bound := rfl
  committed := rfl
  small := fun _ hb => absurd hb List.not_mem_nil
  nonempty := fun _ hb => absurd hb List.not_mem_nil
  measurement_last := fun _ hb => absurd hb List.not_mem_nil
  pending_small := hpos
  pending := fun _ ho => absurd ho List.not_mem_nil

theorem Batched.reset {qubits seed epoch now : ℕ} (h : Batched limit committed x) :
    Batched limit [] (BackendExecution.reset backend.recording qubits seed epoch now x).state := by
  rw [← h.bound]
  have hsmall := h.pending_small
  have hbound := h.bound
  exact batched_reset (by omega)

theorem Batched.evolve {start tick : ℕ} {drives acquisitions : List BackendActivity}
    (h : Batched limit committed x) :
    Batched limit
      (committed ++ (BackendCall.evolve start tick drives acquisitions).commits backend.recording x)
      (BackendExecution.evolve backend.recording start tick drives acquisitions x).state := by
  simp only [BackendExecution.evolve, BackendCall.commits, Proc.state_get_bind,
    Proc.state_lift_bind, require]
  by_cases hstart : start = x.committedTick ∧ start ≤ tick
  · rw [if_pos hstart]
    by_cases hlt : start < tick
    · rw [if_pos ⟨hstart.1, hlt⟩, if_pos hlt]
      exact h.commit rfl (by simp only [BackendOperation.tick]; omega)
    · rw [if_neg (by omega), if_neg hlt, List.append_nil]
      exact h
  · rw [if_neg hstart, if_neg (by omega), List.append_nil]
    exact h

theorem Batched.apply {now : ℕ} {gates : List EventSpec} (h : Batched limit committed x) :
    Batched limit (committed ++ (BackendCall.apply now gates).commits backend.recording x)
      (BackendExecution.apply backend.recording now gates x).state := by
  simp only [BackendExecution.apply, BackendCall.commits, Proc.state_lift_bind]
  cases hvalid : validateAll backend.recording gates with
  | error f =>
    rw [if_neg (by simp), List.append_nil]
    exact h
  | ok u =>
    by_cases hgates : gates = []
    · simp only [if_pos hgates]
      rw [if_neg (by simp [hgates]), List.append_nil]
      exact h
    · simp only [if_neg hgates]
      by_cases htick : x.committedTick ≤ now
      · rw [if_pos ⟨trivial, hgates, htick⟩]
        exact h.commit rfl htick
      · rw [if_neg (by simp [htick]), List.append_nil]
        have htick' : ¬ x.committedTick ≤ (BackendOperation.gates now gates).tick := htick
        simp only [BackendExecution.commit, Proc.state_get_bind, Proc.state_lift_bind, require,
          if_neg htick']
        exact h

theorem Batched.measure {now : ℕ} {references : List MeasurementReference}
    (h : Batched limit committed x) :
    Batched limit (committed ++ (BackendCall.measure now references).commits backend.recording x)
      (BackendExecution.measure backend.recording now references x).state := by
  simp only [BackendExecution.measure, BackendCall.commits, Proc.state_get_bind]
  by_cases hnone : references = []
  · rw [if_pos hnone, if_neg (by simp [hnone]), List.append_nil]
    exact h
  · rw [if_neg hnone]
    simp only [Proc.state_lift_bind, require]
    by_cases htick : x.committedTick ≤ now
    · rw [if_pos htick]
      by_cases hvalid : (∀ r ∈ references, r.epoch = x.epoch) ∧ (references.map (·.target)).Nodup
      · rw [if_pos ⟨hnone, htick, hvalid⟩]
        simp only [if_pos hvalid, Proc.state_modify_bind]
        have hsmall := h.pending_small
        have hgiven : Given limit (committed ++ [.measurement now references])
            { x with
              committedTick := now, pending := x.pending ++ [.measurement now references] } :=
          { h.toGiven with committed := by simp [← h.committed] }
        refine hgiven.execute (by simp) (by simp; omega) (by omega) ?_
        intro o ho
        rw [List.dropLast_concat] at ho
        exact h.pending o ho
      · rw [if_neg (by tauto), List.append_nil]
        simp only [if_neg hvalid]
        exact h
    · rw [if_neg htick, if_neg (by tauto), List.append_nil]
      exact h

/-- Any call keeps the batches in order, whether it faults or not. -/
theorem Batched.call (h : Batched limit committed x) (call : BackendCall) :
    Batched limit (call.history backend.recording x committed)
      (call.run backend.recording x).state := by
  cases call with
  | reset qubits seed epoch now =>
    simp only [BackendCall.run, BackendCall.history, Proc.state_map]
    exact h.reset
  | evolve start tick drives acquisitions =>
    simp only [BackendCall.run, BackendCall.history, Proc.state_map]
    exact h.evolve
  | apply now gates =>
    simp only [BackendCall.run, BackendCall.history, Proc.state_map]
    exact h.apply
  | measure now references =>
    simp only [BackendCall.run, BackendCall.history, Proc.state_map]
    exact h.measure
  | flush =>
    simp only [BackendCall.run, BackendCall.history, BackendCall.commits, List.append_nil,
      Proc.state_map, state_flush]
    exact h.execute
  | state =>
    simp only [BackendCall.run, BackendCall.history, BackendCall.commits, List.append_nil,
      Proc.state_map, state_state]
    exact h.execute
  | densityMatrix =>
    simp only [BackendCall.run, BackendCall.history, BackendCall.commits, List.append_nil,
      Proc.state_map, state_densityMatrix]
    exact h.execute

theorem BackendRun.batched (run : BackendRun backend limit committed x) :
    Batched limit committed x := by
  induction run with
  | make h =>
    simp only [BackendExecution.make, Except.bind_eq_ok_iff, require_eq_ok_iff, exists_const,
      Except.pure_eq_ok_iff] at h
    obtain ⟨hpos, rfl⟩ := h
    exact ⟨⟨rfl, rfl, by simp, by simp, by simp⟩, hpos, by simp⟩
  | call call run ih => exact ih.call call

end Batched

/-! ## Two limits -/

section Limits
variable {backend : QuantumBackend β} {x y : BackendExecution β} {s : β} {epoch : ℕ}
  {committed done : List BackendOperation} {bits : List Bool} {l : List TraceEvent} {u : Unit}

/-- The backend has executed these operations, which had no results. -/
inductive Ran (backend : QuantumBackend β) (epoch : ℕ) (s : β) : List BackendOperation → β → Prop
  | nothing : Ran backend epoch s [] s
  | executed {done : List BackendOperation} {s' : β} (nonempty : done ≠ [])
      (h : (backend.execute epoch done).Returns s [] s' []) : Ran backend epoch s done s'

theorem Ran.unique {s₁ s₂ : β} (h₁ : Ran backend epoch s done s₁) (h₂ : Ran backend epoch s done s₂) :
    s₁ = s₂ := by
  cases h₁ with
  | nothing =>
    cases h₂ with
    | nothing => rfl
    | executed nonempty => exact absurd rfl nonempty
  | executed nonempty h₁ =>
    cases h₂ with
    | nothing => exact absurd rfl nonempty
    | executed _ h₂ =>
      have heq := h₁.symm.trans h₂
      simpa using heq

/-- What is executed next follows what has been executed. -/
theorem Ran.execute {s' s'' : β} {batch : List BackendOperation} (hc : backend.Compositional)
    (h : Ran backend epoch s done s') (hdone : ∀ operation ∈ done, operation.isMeasurement = false)
    (hbatch : batch ≠ [])
    (hb : (backend.execute epoch batch).Returns s' bits s'' []) :
    (backend.execute epoch (done ++ batch)).Returns s bits s'' [] := by
  cases h with
  | nothing => exact hb
  | executed nonempty h =>
    rw [hc epoch done batch nonempty hbatch hdone, Proc.returns_bind_iff]
    refine ⟨[], s', [], [], h, ?_, rfl⟩
    rw [Proc.returns_bind_iff]
    exact ⟨bits, s'', [], [], hb, Proc.returns_pure_iff.2 ⟨rfl, rfl, rfl⟩, rfl⟩

/-- From `s`, some of the committed operations have been executed and the others are pending. None of
them measures. -/
structure Settles (backend : QuantumBackend β) (s : β) (committed : List BackendOperation)
    (x : BackendExecution β) : Prop where
  unmeasured : ∀ operation ∈ committed, operation.isMeasurement = false
  split : ∃ done, committed = done ++ x.pending ∧ Ran backend x.epoch s done x.backend

/-- Nothing has been committed since. -/
theorem Settles.refl (hnone : x.pending = []) : Settles backend x.backend [] x :=
  ⟨by simp, [], by rw [hnone, List.append_nil], .nothing⟩

theorem Settles.done_unmeasured (h : Settles backend s (done ++ x.pending) x) :
    ∀ operation ∈ done, operation.isMeasurement = false :=
  fun operation hmem => h.unmeasured operation (List.mem_append_left _ hmem)

/-- Two executions that have committed the same operations since they agreed last. -/
structure InStep (backend : QuantumBackend β) (x x' : BackendExecution β) : Prop where
  epoch : x'.epoch = x.epoch
  tick : x'.committedTick = x.committedTick
  settles : ∃ s committed, Settles backend s committed x ∧ Settles backend s committed x'

/-- Nothing has been committed since the two agreed. -/
theorem InStep.of_settled {x' : BackendExecution β} (hepoch : x'.epoch = x.epoch)
    (htick : x'.committedTick = x.committedTick) (hbackend : x'.backend = x.backend)
    (hnone : x.pending = []) (hnone' : x'.pending = []) : InStep backend x x' :=
  ⟨hepoch, htick, x.backend, [], .refl hnone, hbackend ▸ .refl hnone'⟩

theorem Settles.flush (hc : backend.Compositional) (h : Settles backend s committed x)
    (hf : (flush backend).Returns x u y l) :
    Ran backend x.epoch s committed y.backend ∧ y = { x with backend := y.backend, pending := [] } := by
  obtain ⟨bits, y', _, _, hexecute, hpure, -⟩ := Proc.returns_bind_iff.1 hf
  obtain ⟨-, rfl, -⟩ := Proc.returns_pure_iff.1 hpure
  obtain ⟨done, rfl, hran⟩ := h.split
  rcases execute_returns hexecute with ⟨hnone, -, rfl⟩ | ⟨hpending, hcount, s', hs', rfl⟩
  · rw [hnone, List.append_nil]
    refine ⟨hran, ?_⟩
    rw [← hnone]
  · obtain rfl := List.eq_nil_of_length_eq_zero hcount
    exact ⟨.executed (by simp [hpending]) (hran.execute hc h.done_unmeasured hpending hs'), rfl⟩

theorem Settles.commit {operation : BackendOperation} (hc : backend.Compositional)
    (h : Settles backend s committed x) (hdrives : operation.isMeasurement = false) (hr : (commit backend operation).Returns x u y l) :
    Settles backend s (committed ++ [operation]) y ∧ y.epoch = x.epoch ∧
      y.committedTick = operation.tick := by
  simp only [BackendExecution.commit, Proc.returns_get_bind_iff, Proc.returns_lift_bind_iff,
    require_eq_ok_iff, exists_const, Proc.returns_modify_bind_iff] at hr
  obtain ⟨-, hr⟩ := hr
  obtain ⟨done, rfl, hran⟩ := h.split
  have hunmeasured : ∀ o ∈ done ++ x.pending ++ [operation], o.isMeasurement = false := by
    intro o ho
    rcases List.mem_append.1 ho with ho | ho
    · exact h.unmeasured o ho
    · rw [List.mem_singleton.1 ho]
      exact hdrives
  have hpushed : Settles backend s (done ++ x.pending ++ [operation])
      { x with committedTick := operation.tick, pending := x.pending ++ [operation] } :=
    ⟨hunmeasured, done, by simp, hran⟩
  split at hr
  · obtain ⟨hran', hy⟩ := hpushed.flush hc hr
    rw [hy]
    exact ⟨⟨hunmeasured, _, (List.append_nil _).symm, hran'⟩, rfl, rfl⟩
  · obtain ⟨-, rfl, -⟩ := Proc.returns_pure_iff.1 hr
    exact ⟨hpushed, rfl, rfl⟩

/-- A measurement brings the backend to where executing everything at once would. -/
theorem Settles.measure {now : ℕ} {references : List MeasurementReference}
    (hc : backend.Compositional) (h : Settles backend s committed x) (hne : references ≠ [])
    (hr : (measure backend now references).Returns x bits y l) :
    (backend.execute x.epoch (committed ++ [.measurement now references])).Returns s bits
        y.backend [] ∧
      y = { x with backend := y.backend, committedTick := now, pending := [] } := by
  simp only [BackendExecution.measure, Proc.returns_get_bind_iff, if_neg hne,
    Proc.returns_lift_bind_iff, exists_const, require_eq_ok_iff,
    Proc.returns_modify_bind_iff] at hr
  obtain ⟨-, -, hr⟩ := hr
  obtain ⟨done, rfl, hran⟩ := h.split
  rcases execute_returns hr with ⟨hnone, -⟩ | ⟨hpending, -, s', hs', rfl⟩
  · simp at hnone
  · rw [List.append_assoc]
    exact ⟨hran.execute hc h.done_unmeasured hpending hs', rfl⟩

theorem evolve_returns {start tick : ℕ} {drives acquisitions : List BackendActivity}
    (h : (evolve backend start tick drives acquisitions).Returns x u y l) :
    if start < tick then ∃ l',
      (commit backend (.evolution start tick drives acquisitions)).Returns x () y l' else y = x := by
  simp only [evolve, Proc.returns_get_bind_iff, Proc.returns_lift_bind_iff] at h
  obtain ⟨_, -, h⟩ := h
  split at h
  · rw [if_pos ‹_›]
    exact ⟨l, h⟩
  · rw [if_neg ‹_›]
    exact (Proc.returns_pure_iff.1 h).2.1.symm

theorem apply_returns {now : ℕ} {gates : List EventSpec}
    (h : (apply backend now gates).Returns x u y l) :
    if gates = [] then y = x else ∃ l', (commit backend (.gates now gates)).Returns x () y l' := by
  simp only [apply, Proc.returns_lift_bind_iff] at h
  obtain ⟨_, -, h⟩ := h
  split at h
  · rw [if_pos ‹_›]
    exact (Proc.returns_pure_iff.1 h).2.1.symm
  · rw [if_neg ‹_›]
    exact ⟨l, h⟩

section InStep
variable {x' y' : BackendExecution β} {u' : Unit} {l' : List TraceEvent}

theorem InStep.commit {operation : BackendOperation} (hc : backend.Compositional)
    (h : InStep backend x x') (hdrives : operation.isMeasurement = false) (hr : (commit backend operation).Returns x u y l)
    (hr' : (commit backend operation).Returns x' u' y' l') : InStep backend y y' := by
  obtain ⟨s, committed, hs, hs'⟩ := h.settles
  obtain ⟨hy, hepoch, htick⟩ := hs.commit hc hdrives hr
  obtain ⟨hy', hepoch', htick'⟩ := hs'.commit hc hdrives hr'
  exact ⟨by rw [hepoch', hepoch, h.epoch], htick'.trans htick.symm, s, _, hy, hy'⟩

/-- Once nothing is pending, the backends are in the same state. -/
theorem InStep.flush (hc : backend.Compositional) (h : InStep backend x x')
    (hr : (flush backend).Returns x u y l) (hr' : (flush backend).Returns x' u' y' l') :
    y'.backend = y.backend ∧ InStep backend y y' := by
  obtain ⟨s, committed, hs, hs'⟩ := h.settles
  obtain ⟨hran, hy⟩ := hs.flush hc hr
  obtain ⟨hran', hy'⟩ := hs'.flush hc hr'
  have hbackend : y'.backend = y.backend := by
    rw [h.epoch] at hran'
    exact hran'.unique hran
  refine ⟨hbackend, .of_settled ?_ ?_ hbackend ?_ ?_⟩
  · rw [hy, hy', h.epoch]
  · rw [hy, hy', h.tick]
  · rw [hy]
  · rw [hy']

theorem InStep.measure {now : ℕ} {references : List MeasurementReference} {bits' : List Bool}
    (hc : backend.Compositional) (h : InStep backend x x')
    (hr : (measure backend now references).Returns x bits y l)
    (hr' : (measure backend now references).Returns x' bits' y' l') :
    bits' = bits ∧ InStep backend y y' := by
  by_cases hnone : references = []
  · simp only [BackendExecution.measure, Proc.returns_get_bind_iff, if_pos hnone,
      Proc.returns_pure_iff] at hr hr'
    obtain ⟨rfl, rfl, -⟩ := hr
    obtain ⟨rfl, rfl, -⟩ := hr'
    exact ⟨rfl, h⟩
  · obtain ⟨s, committed, hs, hs'⟩ := h.settles
    obtain ⟨hbits, hy⟩ := hs.measure hc hnone hr
    obtain ⟨hbits', hy'⟩ := hs'.measure hc hnone hr'
    rw [h.epoch] at hbits'
    have heq := hbits.symm.trans hbits'
    simp only [Outcome.mk.injEq, Except.ok.injEq, and_true] at heq
    obtain ⟨rfl, hbackend⟩ := heq
    refine ⟨rfl, .of_settled ?_ ?_ hbackend.symm ?_ ?_⟩
    · rw [hy, hy', h.epoch]
    · rw [hy, hy']
    · rw [hy]
    · rw [hy']

theorem InStep.reset {qubits seed epoch now : ℕ} (hi : backend.Initializes)
    (hr : (reset backend qubits seed epoch now).Returns x u y l)
    (hr' : (reset backend qubits seed epoch now).Returns x' u' y' l') : InStep backend y y' := by
  simp only [BackendExecution.reset, onBackend, Proc.returns_modify_bind_iff,
    Proc.returns_zoom_iff, Proc.returns_silent_iff] at hr hr'
  obtain ⟨t, ⟨ht, -⟩, rfl⟩ := hr
  obtain ⟨t', ⟨ht', -⟩, rfl⟩ := hr'
  have heq := (ht.symm.trans (hi qubits seed x.backend x'.backend)).trans ht'
  obtain rfl : t = t' := by simpa using heq
  exact .of_settled rfl rfl rfl rfl rfl

/-- The same call on two executions in step. -/
theorem InStep.call {reply reply' : BackendReply} {call : BackendCall} (hc : backend.Compositional)
    (hi : backend.Initializes) (h : InStep backend x x')
    (hr : (call.run backend).Returns x reply y l) (hr' : (call.run backend).Returns x' reply' y' l') :
    reply' = reply ∧ InStep backend y y' := by
  cases call with
  | reset qubits seed epoch now =>
    obtain ⟨_, _, _, _, hx, hpure, -⟩ := Proc.returns_bind_iff.1 hr
    obtain ⟨rfl, rfl, -⟩ := Proc.returns_pure_iff.1 hpure
    obtain ⟨_, _, _, _, hx', hpure', -⟩ := Proc.returns_bind_iff.1 hr'
    obtain ⟨rfl, rfl, -⟩ := Proc.returns_pure_iff.1 hpure'
    exact ⟨rfl, InStep.reset hi hx hx'⟩
  | evolve start tick drives acquisitions =>
    obtain ⟨_, _, _, _, hx, hpure, -⟩ := Proc.returns_bind_iff.1 hr
    obtain ⟨rfl, rfl, -⟩ := Proc.returns_pure_iff.1 hpure
    obtain ⟨_, _, _, _, hx', hpure', -⟩ := Proc.returns_bind_iff.1 hr'
    obtain ⟨rfl, rfl, -⟩ := Proc.returns_pure_iff.1 hpure'
    have hcommit := evolve_returns hx
    have hcommit' := evolve_returns hx'
    split at hcommit
    · rw [if_pos ‹_›] at hcommit'
      obtain ⟨_, hcommit⟩ := hcommit
      obtain ⟨_, hcommit'⟩ := hcommit'
      exact ⟨rfl, h.commit hc rfl hcommit hcommit'⟩
    · rw [if_neg ‹_›] at hcommit'
      rw [hcommit, hcommit']
      exact ⟨rfl, h⟩
  | apply now gates =>
    obtain ⟨_, _, _, _, hx, hpure, -⟩ := Proc.returns_bind_iff.1 hr
    obtain ⟨rfl, rfl, -⟩ := Proc.returns_pure_iff.1 hpure
    obtain ⟨_, _, _, _, hx', hpure', -⟩ := Proc.returns_bind_iff.1 hr'
    obtain ⟨rfl, rfl, -⟩ := Proc.returns_pure_iff.1 hpure'
    have hcommit := apply_returns hx
    have hcommit' := apply_returns hx'
    split at hcommit
    · rw [if_pos ‹_›] at hcommit'
      rw [hcommit, hcommit']
      exact ⟨rfl, h⟩
    · rw [if_neg ‹_›] at hcommit'
      obtain ⟨_, hcommit⟩ := hcommit
      obtain ⟨_, hcommit'⟩ := hcommit'
      exact ⟨rfl, h.commit hc rfl hcommit hcommit'⟩
  | measure now references =>
    obtain ⟨bits, _, _, _, hx, hpure, -⟩ := Proc.returns_bind_iff.1 hr
    obtain ⟨rfl, rfl, -⟩ := Proc.returns_pure_iff.1 hpure
    obtain ⟨bits', _, _, _, hx', hpure', -⟩ := Proc.returns_bind_iff.1 hr'
    obtain ⟨rfl, rfl, -⟩ := Proc.returns_pure_iff.1 hpure'
    obtain ⟨rfl, hstep⟩ := h.measure hc hx hx'
    exact ⟨rfl, hstep⟩
  | flush =>
    obtain ⟨_, _, _, _, hx, hpure, -⟩ := Proc.returns_bind_iff.1 hr
    obtain ⟨rfl, rfl, -⟩ := Proc.returns_pure_iff.1 hpure
    obtain ⟨_, _, _, _, hx', hpure', -⟩ := Proc.returns_bind_iff.1 hr'
    obtain ⟨rfl, rfl, -⟩ := Proc.returns_pure_iff.1 hpure'
    exact ⟨rfl, (h.flush hc hx hx').2⟩
  | state =>
    obtain ⟨_, _, _, _, hx, hpure, -⟩ := Proc.returns_bind_iff.1 hr
    obtain ⟨rfl, rfl, -⟩ := Proc.returns_pure_iff.1 hpure
    obtain ⟨_, _, _, _, hx', hpure', -⟩ := Proc.returns_bind_iff.1 hr'
    obtain ⟨rfl, rfl, -⟩ := Proc.returns_pure_iff.1 hpure'
    obtain ⟨_, _, _, _, hflush, hread, -⟩ := Proc.returns_bind_iff.1 hx
    obtain ⟨_, _, _, _, hflush', hread', -⟩ := Proc.returns_bind_iff.1 hx'
    simp only [Proc.returns_get_bind_iff, Proc.returns_pure_iff] at hread hread'
    obtain ⟨rfl, rfl, -⟩ := hread
    obtain ⟨rfl, rfl, -⟩ := hread'
    obtain ⟨hbackend, hstep⟩ := h.flush hc hflush hflush'
    exact ⟨by rw [hbackend], hstep⟩
  | densityMatrix =>
    obtain ⟨_, _, _, _, hx, hpure, -⟩ := Proc.returns_bind_iff.1 hr
    obtain ⟨rfl, rfl, -⟩ := Proc.returns_pure_iff.1 hpure
    obtain ⟨_, _, _, _, hx', hpure', -⟩ := Proc.returns_bind_iff.1 hr'
    obtain ⟨rfl, rfl, -⟩ := Proc.returns_pure_iff.1 hpure'
    obtain ⟨_, _, _, _, hflush, hread, -⟩ := Proc.returns_bind_iff.1 hx
    obtain ⟨_, _, _, _, hflush', hread', -⟩ := Proc.returns_bind_iff.1 hx'
    simp only [Proc.returns_get_bind_iff, Proc.returns_pure_iff] at hread hread'
    obtain ⟨rfl, rfl, -⟩ := hread
    obtain ⟨rfl, rfl, -⟩ := hread'
    obtain ⟨hbackend, hstep⟩ := h.flush hc hflush hflush'
    exact ⟨by rw [hbackend], hstep⟩

theorem InStep.runAll {replies replies' : List BackendReply} {calls : List BackendCall}
    (hc : backend.Compositional) (hi : backend.Initializes) (h : InStep backend x x')
    (hr : (BackendCall.runAll backend calls).Returns x replies y l)
    (hr' : (BackendCall.runAll backend calls).Returns x' replies' y' l') :
    replies' = replies ∧ InStep backend y y' := by
  induction calls generalizing x x' replies replies' l l' with
  | nil =>
    obtain ⟨rfl, rfl, -⟩ := Proc.returns_pure_iff.1 hr
    obtain ⟨rfl, rfl, -⟩ := Proc.returns_pure_iff.1 hr'
    exact ⟨rfl, h⟩
  | cons call rest ih =>
    obtain ⟨reply, _, _, _, hcall, hmore, -⟩ := Proc.returns_bind_iff.1 hr
    obtain ⟨_, _, _, _, hrest, hpure, -⟩ := Proc.returns_bind_iff.1 hmore
    obtain ⟨rfl, rfl, -⟩ := Proc.returns_pure_iff.1 hpure
    obtain ⟨reply', _, _, _, hcall', hmore', -⟩ := Proc.returns_bind_iff.1 hr'
    obtain ⟨_, _, _, _, hrest', hpure', -⟩ := Proc.returns_bind_iff.1 hmore'
    obtain ⟨rfl, rfl, -⟩ := Proc.returns_pure_iff.1 hpure'
    obtain ⟨rfl, hstep⟩ := h.call hc hi hcall hcall'
    obtain ⟨rfl, hstep'⟩ := ih hstep hrest hrest'
    exact ⟨rfl, hstep'⟩

end InStep
end Limits

/-- What a measurement returns: as many bits as it has references, the results of one batch of
which it is the last operation and the only measurement. -/
def MeasuresOwn (backend : QuantumBackend β)
    (x : BackendExecution (β × List (List BackendOperation))) : Prop :=
  ∀ now references bits y l, references ≠ [] →
    (measure backend.recording now references).Returns x bits y l →
      bits.length = references.length ∧
      y.backend.2 = x.backend.2 ++ [x.pending ++ [.measurement now references]] ∧
      (∀ operation ∈ x.pending, operation.isMeasurement = false) ∧
      (backend.execute x.epoch (x.pending ++ [.measurement now references])).Returns x.backend.1
        bits y.backend.1 []

section Main
variable {backend : QuantumBackend β}

theorem Batched.measuresOwn {limit : ℕ} {committed : List BackendOperation}
    {x : BackendExecution (β × List (List BackendOperation))} (h : Batched limit committed x) :
    MeasuresOwn backend x := by
  intro now references bits y l hne hr
  simp only [BackendExecution.measure, Proc.returns_get_bind_iff, if_neg hne,
    Proc.returns_lift_bind_iff, exists_const, require_eq_ok_iff, Proc.returns_modify_bind_iff] at hr
  obtain ⟨-, -, hr⟩ := hr
  rcases execute_returns hr with ⟨hnone, -⟩ | ⟨-, hcount, ⟨t, batches⟩, hs, rfl⟩
  · simp at hnone
  · simp only [QuantumBackend.recording, Proc.returns_modify_bind_iff,
      Proc.returns_onFst_iff] at hs
    obtain ⟨ht, rfl⟩ := hs
    exact ⟨hcount, rfl, h.pending, ht⟩

/-- Batching does not change what is executed. In one run the batches since the last reset and the
pending operations are the committed operations, also after failures. If the backend is compositional
and its reset initializes it, two runs of the same calls that differ in their limit have the same
replies and leave it in the same state. -/
theorem batch_limits :
    (∀ limit committed x, BackendRun backend limit committed x →
        Batched limit committed x ∧ MeasuresOwn backend x) ∧
      (backend.Compositional → backend.Initializes →
        ∀ limit limit' s calls x x' replies replies' l l',
          (BackendCall.runAll backend calls).Returns { backend := s, maxBatchOperations := limit }
              replies x l →
            (BackendCall.runAll backend calls).Returns { backend := s, maxBatchOperations := limit' }
                replies' x' l' →
              replies' = replies ∧ ∀ y y' k k', (flush backend).Returns x () y k →
                (flush backend).Returns x' () y' k' → y'.backend = y.backend) := by
  refine ⟨?_, ?_⟩
  · intro limit committed x run
    exact ⟨run.batched, run.batched.measuresOwn⟩
  · intro hc hi limit limit' s calls x x' replies replies' l l' hr hr'
    have hstart : InStep backend { backend := s, maxBatchOperations := limit }
        { backend := s, maxBatchOperations := limit' } :=
      .of_settled rfl rfl rfl rfl rfl
    obtain ⟨hreplies, hstep⟩ := hstart.runAll hc hi hr hr'
    refine ⟨hreplies, ?_⟩
    intro y y' k k' hy hy'
    exact (hstep.flush hc hy hy').1

end Main

/-- A backend that writes down what it executes and measures one on the second target only. Its
reset starts the tape anew, or keeps it. -/
def tape (keep : Bool) : QuantumBackend (List BackendOperation) where
  validate _ := pure ()
  reset _ _ := Proc.modify fun written => if keep then written else []
  execute _ operations := do
    Proc.modify fun written => written ++ operations
    pure (operations.flatMap fun operation =>
      match operation with
      | .measurement _ references => references.map (·.target == 1)
      | _ => [])
  state _ := []
  densityMatrix _ := []

theorem compositional_tape (keep : Bool) : (tape keep).Compositional := by
  intro epoch a b _ _ _
  ext place written
  simp [tape, Bind.bind, Proc.bind, Pure.pure, Proc.modify]

theorem initializes_tape : (tape false).Initializes := fun _ _ _ _ => rfl

/-- Evolve, measure both targets and evolve again. -/
def tapedCalls : List BackendCall :=
  [.reset 2 1 7 0, .evolve 0 10 [] [],
    .measure 10 [{ epoch := 7, measurement := 1, target := 1 },
      { epoch := 7, measurement := 2, target := 0 }], .evolve 10 20 [] []]

theorem batch_limits_tape :
    ∃ replies x x', (BackendCall.runAll (tape false) tapedCalls).Returns
        { backend := [], maxBatchOperations := 1 } replies x [] ∧
      (BackendCall.runAll (tape false) tapedCalls).Returns
        { backend := [], maxBatchOperations := 3 } replies x' [] ∧
      x.pending = [] ∧ x'.pending = [.evolution 10 20 [] []] ∧
      ∀ y y' k k', (flush (tape false)).Returns x () y k →
        (flush (tape false)).Returns x' () y' k' → y'.backend = y.backend := by
  have hr : (BackendCall.runAll (tape false) tapedCalls).Returns
      { backend := [], maxBatchOperations := 1 } _ _ _ := rfl
  have hr' : (BackendCall.runAll (tape false) tapedCalls).Returns
      { backend := [], maxBatchOperations := 3 } _ _ _ := rfl
  obtain ⟨hreplies, hflush⟩ :=
    batch_limits.2 (compositional_tape false) initializes_tape 1 3 [] _ _ _ _ _ _ _ hr hr'
  exact ⟨_, _, _, hr, hreplies ▸ hr', rfl, rfl, hflush⟩

/-- A reset discards what is pending: with the limit 2 the committed evolution never reaches the
backend, with the limit 1 it does. -/
theorem reset_discards :
    (BackendCall.evolve 0 10 [] []).commits (tape true) { backend := [] } =
        [.evolution 0 10 [] []] ∧
      (BackendCall.runAll (tape true) [.evolve 0 10 [] [], .reset 2 1 1 10, .flush]).Returns
        { backend := [], maxBatchOperations := 2 } [.done, .done, .done]
        { backend := [], maxBatchOperations := 2, epoch := 1, committedTick := 10 } [] ∧
      (BackendCall.runAll (tape true) [.evolve 0 10 [] [], .reset 2 1 1 10, .flush]).Returns
        { backend := [], maxBatchOperations := 1 } [.done, .done, .done]
        { backend := [.evolution 0 10 [] []], maxBatchOperations := 1, epoch := 1,
          committedTick := 10 } [] :=
  ⟨rfl, rfl, rfl⟩

end Qsbit

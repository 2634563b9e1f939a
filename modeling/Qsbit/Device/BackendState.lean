import Qsbit.Device.Stream

/-!
# What the state of the backend keeps

A property of the state of the backend that its reset establishes and that it keeps when it
executes a batch holds at the end of every run of the device.

## Main definitions

* `QuantumBackend.Maintains` — the property is established and kept.
* `DeviceRun.executed_of_process` — what a boundary asks of the backend.
* `DeviceRun.maintains` — the property holds after every run.
-/
namespace Qsbit
open ControlElectronics

variable {β : Type}

/-- A reset establishes the property, and whatever is executed keeps it. -/
structure QuantumBackend.Maintains (backend : QuantumBackend β) (P : β → Prop) : Prop where
  reset : ∀ qubits seed s s', (backend.reset qubits seed).Returns s () s' [] → P s'
  execute : ∀ epoch operations s bits s', P s →
    (backend.execute epoch operations).Returns s bits s' [] → P s'

section Execution
variable {backend : QuantumBackend β} {P : β → Prop} {x y : BackendExecution β} {l : List TraceEvent}

theorem maintains_execute (h : backend.Maintains P) {expected : ℕ} {bits : List Bool}
    (hx : P x.backend) (hr : (BackendExecution.execute backend expected).Returns x bits y l) :
    P y.backend := by
  rcases execute_returns hr with ⟨-, -, rfl⟩ | ⟨-, -, s, hs, rfl⟩
  · exact hx
  · exact h.execute _ _ _ _ _ hx hs

theorem maintains_flush (h : backend.Maintains P) (hx : P x.backend)
    (hr : (BackendExecution.flush backend).Returns x () y l) : P y.backend := by
  obtain ⟨bits, y', _, _, hexecute, hpure, -⟩ := Proc.returns_bind_iff.1 hr
  obtain ⟨-, rfl, -⟩ := Proc.returns_pure_iff.1 hpure
  exact maintains_execute h hx hexecute

theorem maintains_commit (h : backend.Maintains P) {operation : BackendOperation}
    (hx : P x.backend) (hr : (BackendExecution.commit backend operation).Returns x () y l) :
    P y.backend := by
  simp only [BackendExecution.commit, Proc.returns_get_bind_iff, Proc.returns_lift_bind_iff,
    Proc.returns_modify_bind_iff] at hr
  obtain ⟨_, -, hr⟩ := hr
  split at hr
  · exact maintains_flush h (by exact hx) hr
  · obtain ⟨-, rfl, -⟩ := Proc.returns_pure_iff.1 hr
    exact hx

theorem maintains_evolve (h : backend.Maintains P) {start tick : ℕ}
    {drives acquisitions : List BackendActivity} (hx : P x.backend)
    (hr : (BackendExecution.evolve backend start tick drives acquisitions).Returns x () y l) :
    P y.backend := by
  have hreturns := evolve_returns hr
  split at hreturns
  · obtain ⟨l', hcommit⟩ := hreturns
    exact maintains_commit h hx hcommit
  · rw [hreturns]
    exact hx

theorem maintains_apply (h : backend.Maintains P) {now : ℕ} {gates : List EventSpec}
    (hx : P x.backend) (hr : (BackendExecution.apply backend now gates).Returns x () y l) :
    P y.backend := by
  have hreturns := apply_returns hr
  split at hreturns
  · rw [hreturns]
    exact hx
  · obtain ⟨l', hcommit⟩ := hreturns
    exact maintains_commit h hx hcommit

theorem maintains_measure (h : backend.Maintains P) {now : ℕ}
    {references : List MeasurementReference} {bits : List Bool} (hx : P x.backend)
    (hr : (BackendExecution.measure backend now references).Returns x bits y l) : P y.backend := by
  simp only [BackendExecution.measure, Proc.returns_get_bind_iff] at hr
  split at hr
  · obtain ⟨-, rfl, -⟩ := Proc.returns_pure_iff.1 hr
    exact hx
  · simp only [Proc.returns_lift_bind_iff, Proc.returns_modify_bind_iff] at hr
    obtain ⟨_, -, _, -, hr⟩ := hr
    exact maintains_execute h (by exact hx) hr

/-- What a boundary asks of the backend keeps the property. -/
theorem maintains_executed (h : backend.Maintains P) {now lastTick : ℕ} {p : Plan}
    {bits : List Bool} (hx : P x.backend) (he : Executed backend now lastTick p bits x y) :
    P y.backend := by
  cases he with
  | @intro b₁ b₂ _ evolve measure apply =>
    have hevolved : P b₁.backend := by
      split at evolve
      · exact maintains_evolve h hx evolve
      · rw [evolve]
        exact hx
    exact maintains_apply h (maintains_measure h hevolved measure) apply

theorem maintains_reset (h : backend.Maintains P) {qubits seed epoch now : ℕ} {u : Unit}
    (hr : (BackendExecution.reset backend qubits seed epoch now).Returns x u y l) :
    P y.backend := by
  simp only [BackendExecution.reset, BackendExecution.onBackend, Proc.returns_modify_bind_iff] at hr
  obtain ⟨s, hs, rfl⟩ := Proc.returns_zoom_iff.1 hr
  exact h.reset _ _ _ _ (Proc.returns_silent_iff.1 hs).1

end Execution

section Run
variable {backend : QuantumBackend β} {P : β → Prop} {epoch origin final : ℕ}
  {history : DeviceHistory} {d d' : ControlElectronics β} {l : List TraceEvent}

theorem Begins.maintains (h : Begins backend epoch origin d) (hm : backend.Maintains P) :
    P d.backend.backend := by
  cases h with
  | @make profile state limit _ h =>
    simp only [ControlElectronics.make, Except.bind_eq_ok_iff, Except.pure_eq_ok_iff] at h
    obtain ⟨x, -, _, hresult, rfl⟩ := h
    exact maintains_reset hm (Proc.returns_of_result (by rw [hresult]; rfl))
  | reset built h =>
    simp only [ControlElectronics.reset, Proc.returns_get_bind_iff] at h
    obtain ⟨_, d₁, _, _, hemit, h₁, -⟩ := Proc.returns_bind_iff.1 h
    obtain ⟨rfl, -⟩ := Proc.returns_emitAll_iff.1 hemit
    rw [Proc.returns_modify_bind_iff] at h₁
    obtain ⟨_, d₂, _, _, hreset, h₂, -⟩ := Proc.returns_bind_iff.1 h₁
    obtain ⟨b, hb, rfl⟩ := returns_onExecution_iff.1 hreset
    obtain ⟨rfl, -⟩ := Proc.returns_modify_iff.1 h₂
    exact maintains_reset hm hb

/-- What the next boundary of a run asks of the backend; it samples what ends there. -/
theorem DeviceRun.executed_of_process (run : DeviceRun backend epoch origin Timely history d)
    {now : ℕ} {cs : List Completion} (hnext : d.nextBoundary = some now)
    (h : (ControlElectronics.process backend now epoch recordDelivery).Returns (d, []) () (d', cs) l) :
    ∃ p bits, Executed backend now d.lastTick p bits d.backend d'.backend ∧
      p.samples = endingReferences history.accepted now ∧ ∀ t, d'.Past t ↔ t ≤ now := by
  obtain ⟨bit, tracks⟩ := run.tracks
  obtain ⟨-, ⟨hnone, -⟩ | ⟨boundary, p, d₁, d₂, l₁, l₂, hb, hplan, henact, hdeliver, rfl, -⟩⟩ :=
    process_returns h
  · have hmem := (mem_of_nextBoundary hnext).1
    simp [Std.ExtTreeMap.mem_iff_isSome_getElem?, hnone] at hmem
  have hsamples := tracks.samples_of_plan hnext hb hplan
  have hnodup := tracks.nodup_samples hnext
  rw [← hsamples] at hnodup
  obtain ⟨bits, he⟩ := enact_returns henact hnodup
  have hbackend : d₂.backend = d₁.backend := keepsBackend_deliverAll.returns hdeliver
  refine ⟨p, bits, ?_, hsamples.trans references_of_readouts, fun t => past_complete⟩
  change Executed backend now d.lastTick p bits d.backend d₂.backend
  rw [hbackend]
  exact he.executed

/-- The property holds after every run. -/
theorem DeviceRun.maintains (run : DeviceRun backend epoch origin Timely history d)
    (hm : backend.Maintains P) : P d.backend.backend := by
  induction run with
  | start h => exact h.maintains hm
  | accept run obeys h resolved fresh ih =>
    obtain ⟨actions, readouts, haccepted, -⟩ := accept_returns h
    rw [haccepted.device]
    exact ih
  | process run obeys h ih =>
    obtain ⟨p, bits, he, -, -⟩ := run.executed_of_process obeys h
    exact maintains_executed hm ih he

theorem finalize_maintains (hm : backend.Maintains P) (hd : P d.backend.backend)
    (h : (finalize backend final).Returns d () d' l) : P d'.backend.backend := by
  obtain ⟨-, -, x, l₁, l₂, hevolve, hflush⟩ := finalize_returns h
  have hx : P x.backend := by
    split at hevolve
    · exact maintains_evolve hm hd hevolve
    · rw [hevolve]
      exact hd
  exact maintains_flush hm hx hflush

end Run
end Qsbit

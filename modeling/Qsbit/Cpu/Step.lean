import Qsbit.Cpu

/-!
# What an edge of the CPU does

An edge takes a fetched word, executes one edge of the oldest instruction, moves the others on
and fetches the next word. The control is only called for the instruction that is executed.

## Main definitions

* `calls`, `retired` — what has been asked of the control, and the instructions that have retired.
* `Called` — what the control has done on one edge.
* `Works` — one edge of the instruction that is executed.
* `Executed`, `Stepped` — what the stage that executes has done, and the edge as a whole.
* `step_returns` — the inversion of an edge.
-/
namespace Qsbit

/-! ## The log -/

/-- An operation that the control has been given, with its reply. -/
def CpuRecord.call : CpuRecord → Option (ControlOperation × Option ℕ)
  | .called operation reply => some (operation, reply)
  | _ => none

/-- An instruction that has retired, with its identity. -/
def CpuRecord.retirement : CpuRecord → Option (ℕ × InstructionRetired)
  | .instructionRetired _ _ id _ state => some (id, state)
  | _ => none

namespace InOrderPipeline

/-- The operations that the control has been given, in order. -/
def calls (l : List CpuRecord) : List (ControlOperation × Option ℕ) := l.filterMap CpuRecord.call

/-- The instructions that have retired, in order. -/
def retired (l : List CpuRecord) : List (ℕ × InstructionRetired) :=
  l.filterMap CpuRecord.retirement

@[simp] theorem calls_nil : calls [] = [] := rfl

@[simp] theorem calls_append (l l' : List CpuRecord) : calls (l ++ l') = calls l ++ calls l' :=
  List.filterMap_append

@[simp] theorem retired_nil : retired [] = [] := rfl

@[simp] theorem retired_append (l l' : List CpuRecord) :
    retired (l ++ l') = retired l ++ retired l' := List.filterMap_append

@[simp] theorem calls_control (l : List TraceEvent) : calls (l.map CpuRecord.control) = [] := by
  simp [calls, CpuRecord.call]

@[simp] theorem retired_control (l : List TraceEvent) : retired (l.map CpuRecord.control) = [] := by
  simp [retired, CpuRecord.retirement]

/-! ## The control -/

variable {δ : Type} {control : ControlCallback δ} {now epoch : ℕ}

/-- The control has been given these operations on one edge, one after the other. -/
inductive Called (control : ControlCallback δ) (now epoch : ℕ) :
    δ → List (ControlOperation × Option ℕ) → δ → Prop
  | nil (d : δ) : Called control now epoch d [] d
  | cons {d d₁ d' : δ} {operation : ControlOperation} {reply : Option ℕ} {l : List TraceEvent}
      {rest : List (ControlOperation × Option ℕ)}
      (call : (control operation now epoch).Returns d reply d₁ l)
      (after : Called control now epoch d₁ rest d') :
      Called control now epoch d ((operation, reply) :: rest) d'

theorem Called.append {d d₁ d' : δ} {first second : List (ControlOperation × Option ℕ)}
    (h : Called control now epoch d first d₁) (h' : Called control now epoch d₁ second d') :
    Called control now epoch d (first ++ second) d' := by
  induction h with
  | nil => exact h'
  | cons call _ ih => exact .cons call (ih h')

/-! ## The instruction that is executed -/

/-- A frame without its progress. -/
def Frame.erase (frame : Frame) : Frame :=
  { frame with effect := none, memoryRequest := 0, completedLanes := 0 }

/-- The pipeline without the progress of the instruction that is executed. -/
def identity (p : InOrderPipeline) : InOrderPipeline :=
  { p with execute := p.execute.map Frame.erase, nextData := 0, halted := false }

/-- One edge of an instruction: it makes progress, and calls the control on its own behalf. -/
structure Works (control : ControlCallback δ) (now epoch id : ℕ) (s s' : CpuState δ)
    (l : List CpuRecord) : Prop where
  kept : s'.pipeline.identity = s.pipeline.identity
  called : Called control now epoch s.device (calls l) s'.device
  named : ∀ c ∈ calls l, c.1.instruction = id
  unretired : retired l = []

section Works
variable {id : ℕ} {s s₁ s' : CpuState δ} {l l' : List CpuRecord}

theorem Works.refl (s : CpuState δ) : Works control now epoch id s s [] :=
  ⟨rfl, .nil _, by simp, rfl⟩

theorem Works.trans (h : Works control now epoch id s s₁ l)
    (h' : Works control now epoch id s₁ s' l') : Works control now epoch id s s' (l ++ l') where
  kept := h'.kept.trans h.kept
  called := by
    rw [calls_append]
    exact h.called.append h'.called
  named := by
    rw [calls_append]
    exact List.forall_mem_append.2 ⟨h.named, h'.named⟩
  unretired := by rw [retired_append, h.unretired, h'.unretired, List.append_nil]

/-- A change of the progress alone. -/
theorem Works.of_kept (hpipeline : s'.pipeline.identity = s.pipeline.identity)
    (hdevice : s'.device = s.device) : Works control now epoch id s s' [] :=
  ⟨hpipeline, hdevice ▸ .nil _, by simp, rfl⟩

theorem identity_modifyFrame (p : InOrderPipeline) {f : Frame → Frame}
    (hf : ∀ frame, (f frame).erase = frame.erase) :
    ({ p with execute := p.execute.map f } : InOrderPipeline).identity = p.identity := by
  simp [identity, Function.comp_def, hf]

theorem Works.modifyFrame (s : CpuState δ) {f : Frame → Frame}
    (hf : ∀ frame, (f frame).erase = frame.erase) :
    Works control now epoch id s
      { s with pipeline := { s.pipeline with execute := s.pipeline.execute.map f } } [] :=
  .of_kept (identity_modifyFrame s.pipeline hf) rfl

end Works

section Execution
variable {s s' : CpuState δ} {l : List CpuRecord} {frame : Frame} {c : Option Completion}

theorem callControl_returns {operation : ControlOperation} {reply : Option ℕ}
    (h : (callControl control operation now epoch).Returns s reply s' l) :
    Works control now epoch operation.instruction s s' l ∧ s'.pipeline = s.pipeline ∧
      calls l = [(operation, reply)] := by
  simp only [callControl] at h
  obtain ⟨reply', s₁, l₁, l₂, hcall, hrest, rfl⟩ := Proc.returns_bind_iff.1 h
  obtain ⟨device, htranslate, rfl⟩ := Proc.returns_zoom_iff.1 hcall
  obtain ⟨l₀, hcontrol, rfl⟩ := Proc.returns_translate_iff.1 htranslate
  simp only [Proc.returns_emit_bind_iff, Proc.returns_pure_iff] at hrest
  obtain ⟨_, ⟨rfl, rfl, rfl⟩, rfl⟩ := hrest
  have hcalls : calls (l₀.map CpuRecord.control ++ [.called operation reply']) =
      [(operation, reply')] := by
    rw [calls_append, calls_control]
    rfl
  refine ⟨⟨rfl, ?_, ?_, ?_⟩, rfl, hcalls⟩
  · rw [hcalls]
    exact .cons hcontrol (.nil _)
  · rw [hcalls]
    simp
  · rw [retired_append, retired_control]
    rfl

theorem adaptQuantum_instruction {d : Rv32.Decoded} {id : ℕ} {lhs rhs : BitVec 32}
    {operation : ControlOperation} (h : adaptQuantum d id lhs rhs = .ok operation) :
    operation.instruction = id := by
  simp only [adaptQuantum, Except.bind_eq_ok_iff, require_eq_ok_iff, exists_const] at h
  obtain ⟨-, h⟩ := h
  split at h
  all_goals first
    | rw [← Except.pure_eq_ok_iff.1 h]
    | cases h

theorem issueLanes_works {operations : List ControlOperation} {b : Bool} {id : ℕ}
    (hid : ∀ operation ∈ operations, operation.instruction = id)
    (h : (issueLanes control now epoch operations).Returns s b s' l) :
    Works control now epoch id s s' l := by
  induction operations generalizing s l with
  | nil =>
    obtain ⟨-, rfl, rfl⟩ := Proc.returns_pure_iff.1 h
    exact .refl s
  | cons operation rest ih =>
    obtain ⟨hoperation, hrest⟩ := List.forall_mem_cons.1 hid
    simp only [issueLanes] at h
    obtain ⟨reply, s₁, l₁, l₂, hcall, h, rfl⟩ := Proc.returns_bind_iff.1 h
    have hworks := (callControl_returns hcall).1
    rw [hoperation] at hworks
    cases reply with
    | none =>
      obtain ⟨-, rfl, rfl⟩ := Proc.returns_pure_iff.1 h
      simpa using hworks
    | some value =>
      simp only [modifyFrame, modify, Proc.returns_modify_bind_iff] at h
      exact hworks.trans ((Works.modifyFrame s₁ (by intro; rfl)).trans (ih hrest h))

theorem executeQuantum_works {d : Rv32.Decoded}
    (h : (executeQuantum control d frame now epoch).Returns s c s' l) :
    Works control now epoch frame.id s s' l := by
  simp only [executeQuantum, Proc.returns_lift_bind_iff] at h
  obtain ⟨operation, hadapt, h⟩ := h
  obtain ⟨reply, s₁, l₁, l₂, hcall, hpure, rfl⟩ := Proc.returns_bind_iff.1 h
  obtain ⟨-, rfl, rfl⟩ := Proc.returns_pure_iff.1 hpure
  rw [List.append_nil, ← adaptQuantum_instruction hadapt]
  exact (callControl_returns hcall).1

theorem executeExit_works (h : (executeExit control frame now epoch).Returns s c s' l) :
    Works control now epoch frame.id s s' l := by
  simp only [executeExit] at h
  obtain ⟨reply, s₁, l₁, l₂, hcall, h, rfl⟩ := Proc.returns_bind_iff.1 h
  have hworks : Works control now epoch frame.id s s₁ l₁ := (callControl_returns hcall).1
  cases reply with
  | none =>
    obtain ⟨-, rfl, rfl⟩ := Proc.returns_pure_iff.1 h
    simpa using hworks
  | some value =>
    simp only [modify, Proc.returns_modify_bind_iff, Proc.returns_pure_iff] at h
    obtain ⟨-, rfl, rfl⟩ := h
    exact hworks.trans (.of_kept rfl rfl)

theorem accessData_works {effect : Rv32.Effect}
    (h : (accessData frame effect now epoch).Returns s c s' l) :
    Works control now epoch frame.id s s' l := by
  simp only [accessData, Proc.returns_get_bind_iff] at h
  split at h
  · split at h
    · obtain ⟨-, rfl, rfl⟩ := Proc.returns_pure_iff.1 h
      exact .refl s
    · simp only [modify, modifyFrame, Proc.returns_lift_bind_iff, Proc.returns_modify_bind_iff,
        Proc.returns_pure_iff] at h
      obtain ⟨_, -, _, -, -, rfl, rfl⟩ := h
      exact .of_kept (identity_modifyFrame { s.pipeline with nextData := _ } fun _ => rfl) rfl
  · split at h
    · obtain ⟨-, rfl, rfl⟩ := Proc.returns_pure_iff.1 h
      exact .refl s
    · simp only [Proc.returns_modify_bind_iff, Proc.returns_lift_bind_iff] at h
      obtain ⟨_, -, _, -, h⟩ := h
      split at h
      · simp only [Proc.returns_lift_bind_iff, Proc.returns_pure_iff] at h
        obtain ⟨_, -, -, rfl, rfl⟩ := h
        exact .of_kept rfl rfl
      · simp only [Proc.returns_bind_iff, Proc.returns_pure_iff] at h
        obtain ⟨_, _, _, _, ⟨-, rfl, rfl⟩, ⟨-, rfl, rfl⟩, rfl⟩ := h
        exact .of_kept rfl rfl

theorem executePlain_works {d : Rv32.Decoded}
    (h : (executePlain d frame now epoch).Returns s c s' l) :
    Works control now epoch frame.id s s' l := by
  simp only [executePlain] at h
  have hevaluated : ∃ effect : Rv32.Effect,
      (InOrderPipeline.modifyFrame (fun frame => { frame with effect := some effect }) >>= fun _ =>
        if effect.memory = .none then
          pure (some
            { value := effect.value, nextPc := effect.nextPc, flush := effect.branchTaken })
        else accessData frame effect now epoch).Returns s c s' l := by
    split at h
    · exact ⟨_, h⟩
    · rw [Proc.returns_lift_bind_iff] at h
      obtain ⟨effect, -, h⟩ := h
      exact ⟨effect, h⟩
  obtain ⟨effect, h⟩ := hevaluated
  simp only [modifyFrame, modify, Proc.returns_modify_bind_iff] at h
  refine (Works.modifyFrame s (f := fun frame => { frame with effect := some effect })
    fun _ => rfl).trans (l := []) ?_
  split at h
  · obtain ⟨-, rfl, rfl⟩ := Proc.returns_pure_iff.1 h
    exact .refl _
  · exact accessData_works h

/-- One edge of any instruction. -/
theorem executeFrame_works {d : Rv32.Decoded} {registers : RegisterFile}
    (hid : ∀ operation ∈ frame.operations, operation.instruction = frame.id)
    (h : (executeFrame control d frame registers now epoch).Returns s c s' l) :
    Works control now epoch frame.id s s' l := by
  simp only [executeFrame] at h
  split at h
  · simp only [executeBundle] at h
    obtain ⟨b, s₁, l₁, l₂, hlanes, hpure, rfl⟩ := Proc.returns_bind_iff.1 h
    obtain ⟨-, rfl, rfl⟩ := Proc.returns_pure_iff.1 hpure
    rw [List.append_nil]
    exact issueLanes_works (fun o ho => hid o (List.mem_of_mem_drop ho)) hlanes
  · split at h
    · exact executeQuantum_works h
    · split at h
      · exact executeExit_works h
      · exact executePlain_works h

end Execution

/-! ## The stage that executes -/

/-- The pipeline once an instruction has retired. -/
def retiredWith (p : InOrderPipeline) (d : Rv32.Decoded) (completion : Completion) :
    InOrderPipeline :=
  { p with
    registers := written p.registers d completion.value, pc := completion.nextPc, execute := none }

/-- What the stage that executes has done. -/
inductive Executed (control : ControlCallback δ) (now epoch : ℕ) (s : CpuState δ) :
    Bool → CpuState δ → List CpuRecord → Prop
  | idle (empty : s.pipeline.execute = none) : Executed control now epoch s false s []
  | stalled {frame : Frame} {d : Rv32.Decoded} {s' : CpuState δ} {l : List CpuRecord}
      (execute : s.pipeline.execute = some frame) (sound : frame.fault = none)
      (decoded : frame.decoded = some d)
      (work : (executeFrame control d frame s.pipeline.registers now epoch).Returns s none s' l) :
      Executed control now epoch s false s'
        (l ++ [.cpuStalled now epoch frame.id (stallDetail d)])
  | completed {frame : Frame} {d : Rv32.Decoded} {completion : Completion} {s' : CpuState δ}
      {l : List CpuRecord} {cycle : ℕ} (execute : s.pipeline.execute = some frame)
      (sound : frame.fault = none) (decoded : frame.decoded = some d)
      (work : (executeFrame control d frame s.pipeline.registers now epoch).Returns s
        (some completion) s' l) :
      Executed control now epoch s completion.flush
        { s' with pipeline := s'.pipeline.retiredWith d completion }
        (l ++ [.instructionRetired now epoch frame.id cycle
          { pc := frame.pc, word := frame.word, rd := if d.writesRd then d.rd else 0
            nextPc := completion.nextPc, value := completion.value
            registers := written s'.pipeline.registers d completion.value }])

theorem executeStage_returns {s s' : CpuState δ} {flushes : Bool} {l : List CpuRecord}
    (h : (executeStage control now epoch).Returns s flushes s' l) :
    Executed control now epoch s flushes s' l := by
  simp only [executeStage, Proc.returns_get_bind_iff] at h
  cases hexecute : s.pipeline.execute with
  | none =>
    simp only [hexecute, Proc.returns_pure_iff] at h
    obtain ⟨rfl, rfl, rfl⟩ := h
    exact .idle hexecute
  | some frame =>
    simp only [hexecute, Proc.returns_lift_bind_iff] at h
    obtain ⟨_, hfault, h⟩ := h
    have hsound : frame.fault = none := by
      cases hcode : frame.fault with
      | none => rfl
      | some code => simp [hcode] at hfault
    cases hdecoded : frame.decoded with
    | none => simp [hdecoded] at h
    | some d =>
      simp only [hdecoded] at h
      obtain ⟨c, s₁, l₁, l₂, hwork, h, rfl⟩ := Proc.returns_bind_iff.1 h
      cases c with
      | none =>
        simp only [Proc.returns_emit_bind_iff, Proc.returns_pure_iff] at h
        obtain ⟨_, ⟨rfl, rfl, rfl⟩, rfl⟩ := h
        exact .stalled hexecute hsound hdecoded hwork
      | some completion =>
        simp only [retire, modify] at h
        obtain ⟨_, s₂, l₃, l₄, hretire, hpure, rfl⟩ := Proc.returns_bind_iff.1 h
        obtain ⟨rfl, rfl, rfl⟩ := Proc.returns_pure_iff.1 hpure
        simp only [Proc.returns_modify_bind_iff, Proc.returns_get_bind_iff,
          Proc.returns_emit_bind_iff, Proc.returns_modify_iff] at hretire
        obtain ⟨_, ⟨rfl, rfl⟩, rfl⟩ := hretire
        rw [List.append_nil]
        exact .completed hexecute hsound hdecoded hwork

/-- The control has only been called by the instruction that was executed. -/
theorem Executed.works {s s' : CpuState δ} {flushes : Bool} {l : List CpuRecord}
    (h : Executed control now epoch s flushes s' l)
    (hid : ∀ frame ∈ s.pipeline.execute, ∀ operation ∈ frame.operations,
      operation.instruction = frame.id) :
    Called control now epoch s.device (calls l) s'.device ∧
      ∀ c ∈ calls l, ∃ frame ∈ s.pipeline.execute, c.1.instruction = frame.id := by
  cases h with
  | idle empty => exact ⟨.nil _, by simp⟩
  | stalled execute sound decoded work =>
    have hworks := executeFrame_works (hid _ execute) work
    rw [calls_append]
    simp only [calls, List.filterMap_cons, List.filterMap_nil, CpuRecord.call, List.append_nil]
    exact ⟨hworks.called, fun c hc => ⟨_, execute, hworks.named c hc⟩⟩
  | completed execute sound decoded work =>
    have hworks := executeFrame_works (hid _ execute) work
    rw [calls_append]
    simp only [calls, List.filterMap_cons, List.filterMap_nil, CpuRecord.call, List.append_nil]
    exact ⟨hworks.called, fun c hc => ⟨_, execute, hworks.named c hc⟩⟩

/-! ## The other stages -/

/-- What the response to the fetch has done. -/
inductive Taken (p : InOrderPipeline) : InOrderPipeline → Prop
  | nothing : Taken p p
  | discarded : Taken p { p with fetchRequest := none }
  | latched (request : Fetch) (response : MemoryResponse) (pending : p.fetchRequest = some request)
      (empty : p.fetched = none) :
      Taken p { p with fetched := some (request.frame response), fetchRequest := none }

theorem takeFetch_returns {s s' : CpuState δ} {u : Unit} {l : List CpuRecord}
    (h : (takeFetch now epoch).Returns s u s' l) :
    ∃ p fetch, Taken s.pipeline p ∧ s' = { s with pipeline := p, fetch } ∧ l = [] := by
  simp only [takeFetch, Proc.returns_get_bind_iff] at h
  split at h
  · obtain ⟨-, rfl, rfl⟩ := Proc.returns_pure_iff.1 h
    exact ⟨_, _, .nothing, rfl, rfl⟩
  · rename_i response _
    rw [Proc.returns_modify_bind_iff] at h
    split at h
    · split at h
      · simp at h
      · rename_i request hrequest
        simp only [Proc.returns_lift_bind_iff, require_eq_ok_iff, exists_const] at h
        obtain ⟨-, h⟩ := h
        split at h
        · simp only [Proc.bind_assoc, modify, Proc.returns_lift_bind_iff, require_eq_ok_iff,
            exists_const, Proc.returns_modify_bind_iff, Proc.returns_modify_iff] at h
          obtain ⟨hempty, rfl, rfl⟩ := h
          exact ⟨_, _, .latched request response.value hrequest hempty, rfl, rfl⟩
        · obtain ⟨_, s₁, l₁, l₂, hpure, hmodify, rfl⟩ := Proc.returns_bind_iff.1 h
          obtain ⟨-, rfl, rfl⟩ := Proc.returns_pure_iff.1 hpure
          obtain ⟨rfl, rfl⟩ := Proc.returns_modify_iff.1 hmodify
          exact ⟨_, _, .discarded, rfl, rfl⟩
    · obtain ⟨-, rfl, rfl⟩ := Proc.returns_pure_iff.1 h
      exact ⟨_, _, .nothing, rfl, rfl⟩

/-- What fetching has done. -/
inductive Refilled (p : InOrderPipeline) : InOrderPipeline → Prop
  | nothing : Refilled p p
  | requested (idle : p.fetchRequest = none) (empty : p.fetched = none) :
      Refilled p
        { p with
          nextFetch := p.nextFetch + 1
          fetchRequest := some { id := p.nextFetch, pc := p.fetchPc, generation := p.generation }
          fetchPc := p.fetchPc + 4 }

theorem fetchNext_returns {s s' : CpuState δ} {u : Unit} {l : List CpuRecord}
    (h : (fetchNext now epoch).Returns s u s' l) :
    ∃ p fetch, Refilled s.pipeline p ∧ s' = { s with pipeline := p, fetch } ∧ l = [] := by
  simp only [fetchNext, Proc.returns_get_bind_iff] at h
  split at h
  · rename_i hfree
    simp only [modify, Proc.returns_lift_bind_iff, Proc.returns_modify_bind_iff,
      Proc.returns_modify_iff] at h
    obtain ⟨next, hnext, _, -, rfl, rfl⟩ := h
    rw [eq_of_checkedAdd hnext]
    exact ⟨_, _, .requested hfree.1 hfree.2.1, rfl, rfl⟩
  · obtain ⟨-, rfl, rfl⟩ := Proc.returns_pure_iff.1 h
    exact ⟨_, _, .nothing, rfl, rfl⟩

/-- The pipeline once it has been flushed, if that was asked for. -/
inductive Flushed (p : InOrderPipeline) : Bool → InOrderPipeline → Prop
  | kept : Flushed p false p
  | discarded (generation : ℕ) :
      Flushed p true { p with decode := none, fetched := none, generation, fetchPc := p.pc }

/-- How the instructions have moved on; what has been reported does not matter. -/
inductive Moved (flushes : Bool) (p : InOrderPipeline) : InOrderPipeline → Prop
  | halted {q : InOrderPipeline} (trace : CpuPipelineTrace) (flushed : Flushed p flushes q) :
      Moved flushes p { q with pipelineTrace := trace }
  | advanced {q r : InOrderPipeline} (trace : CpuPipelineTrace) (flushed : Flushed p flushes q)
      (refilled : Refilled q.advance r) : Moved flushes p { r with pipelineTrace := trace }

/-- What an edge has done. -/
inductive Stepped (control : ControlCallback δ) (now epoch : ℕ) (s s' : CpuState δ)
    (l : List CpuRecord) : Prop
  | halted {p : InOrderPipeline} (trace : CpuPipelineTrace) (taken : Taken s.pipeline p)
      (pipeline : s'.pipeline = { p with pipelineTrace := trace }) (device : s'.device = s.device)
      (uncalled : calls l = []) (unretired : retired l = [])
  | ran {p : InOrderPipeline} {fetch : MemoryPort} {flushes : Bool} {s₁ : CpuState δ}
      {l₁ : List CpuRecord} (taken : Taken s.pipeline p)
      (executed : Executed control now epoch { s with pipeline := p, fetch } flushes s₁ l₁)
      (moved : Moved flushes s₁.pipeline s'.pipeline) (device : s'.device = s₁.device)
      (called : calls l = calls l₁) (retires : retired l = retired l₁)

theorem sample_returns {s s' : CpuState δ} {u : Unit} {l : List CpuRecord}
    (h : (sample now epoch).Returns s u s' l) :
    ∃ trace, s' = { s with pipeline := { s.pipeline with pipelineTrace := trace } } ∧
      calls l = [] ∧ retired l = [] := by
  simp only [sample, Proc.returns_get_bind_iff] at h
  split at h
  · obtain ⟨-, rfl, rfl⟩ := Proc.returns_pure_iff.1 h
    exact ⟨_, rfl, rfl, rfl⟩
  · simp only [modify, Proc.returns_emit_bind_iff, Proc.returns_modify_iff] at h
    obtain ⟨_, ⟨rfl, rfl⟩, rfl⟩ := h
    exact ⟨_, rfl, rfl, rfl⟩

theorem flush_returns {s s' : CpuState δ} {u : Unit} {l : List CpuRecord} {flushes : Bool}
    (h : (if flushes then flush now epoch else pure () : Cpu δ Unit).Returns s u s' l) :
    ∃ p, Flushed s.pipeline flushes p ∧ s' = { s with pipeline := p } ∧ calls l = [] ∧
      retired l = [] := by
  cases flushes with
  | false =>
    obtain ⟨-, rfl, rfl⟩ := Proc.returns_pure_iff.1 h
    exact ⟨_, .kept, rfl, rfl, rfl⟩
  | true =>
    simp only [if_true, flush, modify, Proc.returns_get_bind_iff, Proc.returns_lift_bind_iff,
      Proc.returns_modify_bind_iff, Proc.returns_emit_iff] at h
    obtain ⟨generation, -, rfl, rfl⟩ := h
    exact ⟨_, .discarded generation, rfl, rfl, rfl⟩

/-- The inversion of an edge. -/
theorem step_returns {s s' : CpuState δ} {u : Unit} {l : List CpuRecord}
    (h : (step control now epoch).Returns s u s' l) : Stepped control now epoch s s' l := by
  simp only [step, run, Proc.returns_get_bind_iff, Proc.returns_lift_bind_iff] at h
  obtain ⟨-, -, h⟩ := h
  obtain ⟨_, s₃, l₁, l₂, hrun, hsample, rfl⟩ := Proc.returns_bind_iff.1 h
  obtain ⟨trace, rfl, hcalls, hretired⟩ := sample_returns hsample
  obtain ⟨_, s₁, l₃, l₄, htake, hbody, rfl⟩ := Proc.returns_bind_iff.1 hrun
  obtain ⟨p, fetch, htaken, rfl, rfl⟩ := takeFetch_returns htake
  rw [Proc.returns_get_bind_iff] at hbody
  split at hbody
  · obtain ⟨-, rfl, rfl⟩ := Proc.returns_pure_iff.1 hbody
    exact .halted trace htaken rfl rfl (by simpa using hcalls) (by simpa using hretired)
  · obtain ⟨flushes, s₂, l₅, l₆, hstage, hrest, rfl⟩ := Proc.returns_bind_iff.1 hbody
    have hexecuted := executeStage_returns hstage
    obtain ⟨_, s₄, l₇, l₈, hflush, hlast, rfl⟩ := Proc.returns_bind_iff.1 hrest
    obtain ⟨q, hflushed, rfl, hcalls', hretired'⟩ := flush_returns hflush
    rw [Proc.returns_get_bind_iff] at hlast
    split at hlast
    · obtain ⟨-, rfl, rfl⟩ := Proc.returns_pure_iff.1 hlast
      refine .ran htaken hexecuted (.halted trace hflushed) rfl ?_ ?_
      · simp [hcalls, hcalls']
      · simp [hretired, hretired']
    · simp only [modify, Proc.returns_modify_bind_iff] at hlast
      obtain ⟨r, fetch', hrefilled, rfl, rfl⟩ := fetchNext_returns hlast
      refine .ran htaken hexecuted (.advanced trace hflushed hrefilled) rfl ?_ ?_
      · simp [hcalls, hcalls']
      · simp [hretired, hretired']

end InOrderPipeline
end Qsbit

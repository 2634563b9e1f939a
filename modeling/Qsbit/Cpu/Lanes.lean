import Qsbit.Cpu.Run

/-!
# Control instructions in the pipeline

An instruction that controls time has one operation, or two if it is a bundle. The operations are
given to the control in order, each until it is accepted; then the instruction retires.

## Main definitions

* `Lanes` — operations are given to the control in order, each until it is accepted.
* `Controls` — what is left of the operations of a frame.
* `Stepped.controls` — one edge of a control instruction.
* `lanes_of_run` — the operations of a control instruction in a run.
-/
namespace Qsbit
namespace InOrderPipeline

/-- The control has been given operations in order, each until it was accepted; the last of them
are left. -/
inductive Lanes : List ControlOperation → List (ControlOperation × Option ℕ) →
    List ControlOperation → Prop
  | stop (operations : List ControlOperation) : Lanes operations [] operations
  | refused {operation : ControlOperation} {rest left : List ControlOperation}
      {calls : List (ControlOperation × Option ℕ)} (after : Lanes (operation :: rest) calls left) :
      Lanes (operation :: rest) ((operation, none) :: calls) left
  | accepted {operation : ControlOperation} {rest left : List ControlOperation}
      {calls : List (ControlOperation × Option ℕ)} (value : ℕ) (after : Lanes rest calls left) :
      Lanes (operation :: rest) ((operation, some value) :: calls) left

/-- The operations that have been accepted. -/
def granted (calls : List (ControlOperation × Option ℕ)) : List ControlOperation :=
  (calls.filter (·.2.isSome)).map (·.1)

@[simp] theorem granted_append (first second : List (ControlOperation × Option ℕ)) :
    granted (first ++ second) = granted first ++ granted second := by
  simp [granted]

section Lanes
variable {operations middle rest : List ControlOperation}
  {first second : List (ControlOperation × Option ℕ)}

theorem Lanes.append (h : Lanes operations first middle) (h' : Lanes middle second rest) :
    Lanes operations (first ++ second) rest := by
  induction h with
  | stop => exact h'
  | refused _ ih => exact .refused (ih h')
  | accepted value _ ih => exact .accepted value (ih h')

/-- What has been accepted and what is left are the operations. -/
theorem Lanes.granted_append (h : Lanes operations first rest) :
    granted first ++ rest = operations := by
  induction h with
  | stop => rfl
  | refused _ ih => exact ih
  | accepted value _ ih => exact congrArg (_ :: ·) ih

end Lanes

/-! ## One edge -/

/-- What is left of the operations of a frame. -/
inductive Controls (frame : Frame) (d : Rv32.Decoded) : List ControlOperation → Prop
  | bundle (bundle : frame.bundle = true) :
      Controls frame d (frame.operations.drop frame.completedLanes)
  | scalar {operation : ControlOperation} (scalar : frame.bundle = false) (control : d.op = .quantum)
      (adapted : adaptQuantum d frame.id frame.lhs frame.rhs = .ok operation) :
      Controls frame d [operation]

section Edge
variable {δ : Type} {control : ControlCallback δ} {now epoch : ℕ} {s s' : CpuState δ}
  {l : List CpuRecord} {frame : Frame} {d : Rv32.Decoded} {operations : List ControlOperation}

theorem issueLanes_returns {b : Bool}
    (h : (issueLanes control now epoch operations).Returns s b s' l) :
    ∃ n, n ≤ operations.length ∧ Lanes operations (calls l) (operations.drop n) ∧
      (b = true ↔ n = operations.length) ∧
      s'.pipeline.execute = s.pipeline.execute.map fun frame =>
        { frame with completedLanes := frame.completedLanes + n } := by
  induction operations generalizing s l with
  | nil =>
    obtain ⟨rfl, rfl, rfl⟩ := Proc.returns_pure_iff.1 h
    exact ⟨0, le_rfl, .stop [], by simp, by simp⟩
  | cons operation rest ih =>
    simp only [issueLanes] at h
    obtain ⟨reply, s₁, l₁, l₂, hcall, h, rfl⟩ := Proc.returns_bind_iff.1 h
    obtain ⟨-, hpipeline, hcalls⟩ := callControl_returns hcall
    cases reply with
    | none =>
      obtain ⟨rfl, rfl, rfl⟩ := Proc.returns_pure_iff.1 h
      refine ⟨0, Nat.zero_le _, ?_, by simp, by simp [hpipeline]⟩
      rw [List.append_nil, hcalls]
      exact .refused (.stop _)
    | some value =>
      simp only [modifyFrame, modify, Proc.returns_modify_bind_iff] at h
      obtain ⟨n, hn, hlanes, hb, hexecute⟩ := ih h
      refine ⟨n + 1, Nat.succ_le_succ hn, ?_, by simp [hb], ?_⟩
      · rw [calls_append, hcalls]
        exact .accepted value hlanes
      · rw [hexecute, hpipeline, Option.map_map]
        congr 1
        funext f
        simp [Nat.add_assoc, Nat.add_comm 1 n]

/-- One edge of a control instruction: it goes on with its operations, and is completed when none
is left. -/
theorem executeFrame_controls {registers : RegisterFile} {c : Option Completion}
    (hexecute : s.pipeline.execute = some frame) (hcontrols : Controls frame d operations)
    (h : (executeFrame control d frame registers now epoch).Returns s c s' l) :
    ∃ rest, Lanes operations (calls l) rest ∧
      (c = none ∧ rest ≠ [] ∧ (∃ frame', s'.pipeline.execute = some frame' ∧ Controls frame' d rest) ∨
        rest = [] ∧ ∃ completion, c = some completion ∧ completion.flush = false) := by
  cases hcontrols with
  | bundle bundle =>
    simp only [executeFrame, bundle, if_true, executeBundle] at h
    obtain ⟨b, s₁, l₁, l₂, hlanes, hpure, rfl⟩ := Proc.returns_bind_iff.1 h
    obtain ⟨rfl, rfl, rfl⟩ := Proc.returns_pure_iff.1 hpure
    obtain ⟨n, hn, hlanes, hb, hexecute'⟩ := issueLanes_returns hlanes
    rw [List.append_nil]
    refine ⟨_, hlanes, ?_⟩
    cases b with
    | true =>
      rw [hb.1 rfl, List.drop_length]
      exact .inr ⟨rfl, _, rfl, rfl⟩
    | false =>
      have hlt : n < (frame.operations.drop frame.completedLanes).length :=
        lt_of_le_of_ne hn fun heq => Bool.false_ne_true (hb.2 heq)
      have hsome : s₁.pipeline.execute =
          some { frame with completedLanes := frame.completedLanes + n } := by
        rw [hexecute', hexecute]
        rfl
      refine .inl ⟨rfl, ?_, _, hsome, ?_⟩
      · rw [ne_eq, List.drop_eq_nil_iff]
        omega
      · rw [List.drop_drop]
        exact .bundle bundle
  | @scalar operation scalar quantum adapted =>
    simp only [executeFrame, scalar, Bool.false_eq_true, if_false, quantum, if_true, executeQuantum,
      adapted, Proc.returns_lift_bind_iff, Except.ok.injEq, exists_eq_left'] at h
    obtain ⟨reply, s₁, l₁, l₂, hcall, hpure, rfl⟩ := Proc.returns_bind_iff.1 h
    obtain ⟨rfl, rfl, rfl⟩ := Proc.returns_pure_iff.1 hpure
    obtain ⟨-, hpipeline, hcalls⟩ := callControl_returns hcall
    rw [List.append_nil, hcalls]
    cases reply with
    | none =>
      refine ⟨_, .refused (.stop _), .inl ⟨rfl, by simp, frame, ?_, .scalar scalar quantum adapted⟩⟩
      rw [hpipeline, hexecute]
    | some value => exact ⟨_, .accepted value (.stop _), .inr ⟨rfl, _, rfl, rfl⟩⟩

/-- An edge of a control instruction gives its operations to the control; once none is left, the
instruction retires. -/
theorem Proceeds.controls (hproceeds : Proceeds control now epoch s s' l)
    (hexecute : s.pipeline.execute = some frame) (hdecoded : frame.decoded = some d)
    (hcontrols : Controls frame d operations) (hne : operations ≠ []) :
    ∃ rest, Lanes operations (calls l) rest ∧
      (rest ≠ [] ∧ retired l = [] ∧ s'.pipeline.registers = s.pipeline.registers ∧
          (∃ frame', s'.pipeline.execute = some frame' ∧ frame'.erase = frame.erase ∧
            Controls frame' d rest) ∨
        rest = [] ∧ frame.id ∉ s'.pipeline.inFlight ∧ frame.id < s'.pipeline.nextFetch ∧
          (∀ frame ∈ s'.pipeline.execute, Fresh s'.pipeline frame) ∧
          ∃ record value, retired l = [(frame.id, record)] ∧ record.word = frame.word ∧
            record.rd = (if d.writesRd then d.rd else 0) ∧
            record.registers = written s.pipeline.registers d value ∧
            s'.pipeline.registers = record.registers) := by
  cases hproceeds with
  | none empty => simp [empty] at hexecute
  | waits execute same uncalled unretired registers =>
    obtain rfl := Option.some.inj (execute.symm.trans hexecute)
    rw [uncalled]
    exact ⟨operations, .stop _, .inl ⟨hne, unretired, registers, _, same, rfl, hcontrols⟩⟩
  | stalls execute sound decoded before work after same erase called unretired registers =>
    obtain rfl := Option.some.inj (execute.symm.trans hexecute)
    obtain rfl := Option.some.inj (decoded.symm.trans hdecoded)
    obtain ⟨rest, hlanes, hcases⟩ := executeFrame_controls before hcontrols work
    rw [called]
    refine ⟨rest, hlanes, .inl ?_⟩
    rcases hcases with ⟨-, hrest, frame', hframe', hcontrols'⟩ | ⟨-, _, hcompleted, -⟩
    · obtain rfl := Option.some.inj (after.symm.trans hframe')
      exact ⟨hrest, unretired, registers, _, same, erase, hcontrols'⟩
    · cases hcompleted
  | retires execute sound decoded before work called retired word rd written registers gone bounded next =>
    obtain rfl := Option.some.inj (execute.symm.trans hexecute)
    obtain rfl := Option.some.inj (decoded.symm.trans hdecoded)
    obtain ⟨rest, hlanes, hcases⟩ := executeFrame_controls before hcontrols work
    rw [called]
    refine ⟨rest, hlanes, .inr ?_⟩
    rcases hcases with ⟨hnone, -⟩ | ⟨hrest, -⟩
    · cases hnone
    · exact ⟨hrest, gone, bounded, next, _, _, retired, word, rd, written, registers⟩

end Edge

/-! ## Runs -/

/-- The calls on behalf of an instruction. -/
def callsOf (id : ℕ) (l : List CpuRecord) : List (ControlOperation × Option ℕ) :=
  (calls l).filter (·.1.instruction = id)

/-- The records of the retirement of an instruction. -/
def retirementsOf (id : ℕ) (l : List CpuRecord) : List InstructionRetired :=
  ((retired l).filter (·.1 = id)).map (·.2)

section Run
variable {δ : Type} {epoch : ℕ} {controls : ControlCallback δ → Prop} {changes : δ → δ → Prop}
  {s s' : CpuState δ} {l l' : List CpuRecord} {frame : Frame} {d : Rv32.Decoded}
  {operations : List ControlOperation} {id : ℕ}

theorem callsOf_append : callsOf id (l ++ l') = callsOf id l ++ callsOf id l' := by
  simp [callsOf]

theorem retirementsOf_append :
    retirementsOf id (l ++ l') = retirementsOf id l ++ retirementsOf id l' := by
  simp [retirementsOf]

/-- An edge that executes another instruction does not concern this one. -/
theorem not_of_gone {control : ControlCallback δ} {now : ℕ} (h : Sequenced s.pipeline)
    (hstepped : Stepped control now epoch s s' l) (hgone : id ∉ s.pipeline.inFlight) :
    callsOf id l = [] ∧ retirementsOf id l = [] := by
  have hne : ∀ frame ∈ s.pipeline.execute, frame.id ≠ id := by
    rintro frame hframe rfl
    refine hgone ?_
    rw [inFlight, Option.mem_def.1 hframe]
    simp
  constructor
  · rw [callsOf, List.filter_eq_nil_iff]
    intro c hc
    obtain ⟨frame, hframe, hid⟩ := (hstepped.called h).2 c hc
    simpa [hid] using hne frame hframe
  · rw [retirementsOf, List.map_eq_nil_iff, List.filter_eq_nil_iff]
    intro r hr
    obtain ⟨frame, hframe, hid, -⟩ := hstepped.retires h r hr
    simpa [hid] using hne frame hframe

/-- Where a run is with a control instruction: it is still executed, or it has retired. -/
inductive Handed (s : CpuState δ) (frame : Frame) (d : Rv32.Decoded)
    (l : List CpuRecord) (s' : CpuState δ) : List ControlOperation → Prop
  | underway {frame' : Frame} {rest : List ControlOperation} (left : rest ≠ [])
      (only : callsOf frame.id l = calls l) (unretired : retired l = [])
      (registers : s'.pipeline.registers = s.pipeline.registers)
      (execute : s'.pipeline.execute = some frame') (same : frame'.erase = frame.erase)
      (controls : Controls frame' d rest) : Handed s frame d l s' rest
  | done {record : InstructionRetired} {value : BitVec 32}
      (gone : frame.id ∉ s'.pipeline.inFlight) (bounded : frame.id < s'.pipeline.nextFetch)
      (retired : retirementsOf frame.id l = [record]) (word : record.word = frame.word)
      (rd : record.rd = if d.writesRd then d.rd else 0)
      (registers : record.registers = written s.pipeline.registers d value) :
      Handed s frame d l s' []

/-- In a run the operations of a control instruction are given to the control in order, each until
it is accepted, and the instruction retires once, with the last of them. -/
theorem lanes_of_run (run : CpuRun epoch controls changes s l s') (h : Sequenced s.pipeline)
    (hexecute : s.pipeline.execute = some frame) (hdecoded : frame.decoded = some d)
    (hcontrols : Controls frame d operations) (hne : operations ≠ []) :
    ∃ rest, Lanes operations (callsOf frame.id l) rest ∧ Handed s frame d l s' rest := by
  induction run with
  | start => exact ⟨operations, .stop _, .underway hne rfl rfl rfl hexecute rfl hcontrols⟩
  | @exchange l s₁ fetch data device run changed ih =>
    obtain ⟨rest, hlanes, hhanded⟩ := ih
    refine ⟨rest, hlanes, ?_⟩
    cases hhanded with
    | underway left only unretired registers execute same controls =>
      exact .underway left only unretired registers execute same controls
    | done gone bounded retired word rd registers =>
      exact .done gone bounded retired word rd registers
  | @edge control now l l' s₁ s₂ run admitted step ih =>
    obtain ⟨rest, hlanes, hhanded⟩ := ih
    have hwell := run.sequenced h
    have hstepped := step_returns step
    cases hhanded with
    | done gone bounded retired word rd registers =>
      obtain ⟨hcalls, hretired⟩ := not_of_gone hwell hstepped gone
      obtain ⟨hgone, hbounded⟩ := (hstepped.flows hwell).gone gone bounded
      refine ⟨[], ?_, .done hgone hbounded ?_ word rd registers⟩
      · rw [callsOf_append, hcalls, List.append_nil]
        exact hlanes
      · rw [retirementsOf_append, hretired, List.append_nil]
        exact retired
    | @underway frame' _ left only unretired registers execute same controls =>
      have hid : frame'.id = frame.id := (congrArg Frame.id same :)
      have hword : frame'.word = frame.word := (congrArg Frame.word same :)
      have hdecoded' : frame'.decoded = some d := (congrArg Frame.decoded same :).trans hdecoded
      have hown : callsOf frame.id l' = calls l' := by
        rw [callsOf, List.filter_eq_self]
        intro c hc
        obtain ⟨frame'', hframe'', hc⟩ := (hstepped.called hwell).2 c hc
        obtain rfl := Option.some.inj (execute.symm.trans hframe'')
        simp [hc, hid]
      obtain ⟨rest', hlanes', hcases⟩ :=
        (hstepped.proceeds hwell).controls execute hdecoded' controls left
      refine ⟨rest', ?_, ?_⟩
      · rw [callsOf_append, hown]
        exact hlanes.append hlanes'
      · rcases hcases with ⟨hleft, hretired, hregisters, frame'', hframe'', herase, hcontrols'⟩ |
          ⟨rfl, hgone, hbounded, -, record, value, hretired, hrecord, hrd, hwritten, -⟩
        · refine .underway hleft ?_ ?_ (hregisters.trans registers) hframe'' (herase.trans same)
            hcontrols'
          · rw [callsOf_append, hown, only, calls_append]
          · rw [retired_append, unretired, hretired]
            rfl
        · rw [hid] at hgone hbounded hretired
          rw [registers] at hwritten
          refine .done hgone hbounded ?_ (hrecord.trans hword) hrd hwritten
          simp [retirementsOf, unretired, hretired]

end Run
end InOrderPipeline
end Qsbit

import Qsbit.Cpu.Lanes
import Qsbit.TimingControl.Results

/-!
# Codewords in bundles and on their own

A program of codewords stages the same, however its codewords are packed into bundles: the
operations that the control accepts have the same commands, and neither kind of instruction writes
a register.

## Main definitions

* `Encodes` — the codewords of an instruction word.
* `codewords_of_run` — the operations that have been accepted when some words have retired.
-/
namespace Qsbit
open InOrderPipeline

/-- The codewords of an instruction word. -/
inductive Encodes : BitVec 32 → List Slot → Prop
  | scalar (s : Slot) : Encodes s.scalar [s]
  | bundle (first second : Slot) : Encodes (bundleWord first second) [first, second]

theorem Encodes.ne_nil {word : BitVec 32} {slots : List Slot} (h : Encodes word slots) :
    slots ≠ [] := by
  cases h <;> simp

namespace InOrderPipeline

/-! ## Decoding -/

section Decoding
variable {issue : ControlIssue} {registers : RegisterFile} {raw : Frame}

theorem decodeWord_scalar {s : Slot} (h : raw.word = s.scalar) :
    decodeWord issue registers raw = .ok { raw with
      decoded := some (Rv32.control s.scalar)
      lhs := registers s.port, rhs := registers s.codeword } := by
  have hnarrow : ∀ x : BitVec 5, (x.setWidth 8).setWidth 5 = x := by decide
  have hopcode : s.scalar &&& 127 ≠ Contract.bundleOpcode := by
    rw [show s.scalar &&& 127 = Contract.controlOpcode from Rv32.pack_opcode ..]
    decide
  rw [decodeWord, h, if_neg fun hbundle => hopcode hbundle.2, decode_scalar]
  change Except.ok _ = _
  rw [rs1_scalar, rs2_scalar, hnarrow, hnarrow]

theorem bundleWord_opcode (first second : Slot) :
    bundleWord first second &&& 127 = Contract.bundleOpcode := by
  apply BitVec.eq_of_getLsbD_eq
  intro i hi
  interval_cases i <;>
    simp [bundleWord, Contract.bundleOpcode, Rv32.getLsbD_place, BitVec.getLsbD_of_ge,
      -BitVec.getLsbD_eq_getElem]

/-- Without bundles the word of a bundle is no instruction. -/
theorem decodeWord_bundle {first second : Slot} (h : raw.word = bundleWord first second) :
    decodeWord issue registers raw =
      if issue = .dualCodeword then
        .ok { raw with
          operations := [first.operation raw.id registers, second.operation raw.id registers]
          bundle := true, decoded := some { op := .quantum, word := raw.word } }
      else Rv32.illegal := by
  rw [decodeWord, h]
  by_cases hissue : issue = .dualCodeword
  · rw [if_pos ⟨hissue, bundleWord_opcode first second⟩, if_pos hissue, decodeCwBundle_eq]
    rfl
  · rw [if_neg fun hbundle => hissue hbundle.1, if_neg hissue]
    have hdecode : Rv32.decode (bundleWord first second) = Rv32.illegal := by
      rw [Rv32.decode, bundleWord_opcode]
      rfl
    rw [hdecode]
    rfl

end Decoding

/-- What a codeword instruction gives to the control, with the registers as they are. -/
theorem controls_of_encodes {p : InOrderPipeline} {frame : Frame} {slots : List Slot}
    (h : Sequenced p) (hframe : frame ∈ p.execute) (hsound : frame.fault = none)
    (hstart : frame.completedLanes = 0) (hencodes : Encodes frame.word slots) :
    ∃ d, frame.decoded = some d ∧ d.writesRd = false ∧
      Controls frame d (slots.map (·.operation frame.id p.registers)) := by
  obtain ⟨raw, hraw, herase⟩ := h.issued frame hframe
  have hid : frame.id = raw.id :=
    (congrArg Frame.id herase).trans (id_issued p.issue p.registers raw)
  have hword : frame.word = raw.word :=
    (congrArg Frame.word herase).trans (issued_returns hraw).2.1
  have hfault : (raw.issued p.issue p.registers).fault = none := by
    rw [← herase]
    exact hsound
  have hissued : decodeWord p.issue p.registers raw = .ok frame.erase := by
    rw [herase]
    rw [Frame.issued] at hfault ⊢
    split at hfault
    · rename_i hsome
      simp [hfault] at hsome
    · rename_i hnone
      rw [if_neg hnone]
      split at hfault
      · rename_i frame' hframe'
        rw [hframe']
      · cases hfault
  rw [hword] at hencodes
  generalize hw : raw.word = word at hencodes
  cases hencodes with
  | scalar s =>
    rw [decodeWord_scalar hw] at hissued
    have heq := Except.ok.inj hissued
    have hdecoded : frame.decoded = some (Rv32.control s.scalar) := (congrArg Frame.decoded heq).symm
    have hlhs : frame.lhs = p.registers s.port := (congrArg Frame.lhs heq).symm
    have hrhs : frame.rhs = p.registers s.codeword := (congrArg Frame.rhs heq).symm
    have hbundle : frame.bundle = false := by
      have hsame : raw.bundle = frame.bundle := (congrArg Frame.bundle heq :)
      rw [← hsame, hraw]
    refine ⟨_, hdecoded, writesRd_scalar s, .scalar hbundle rfl ?_⟩
    rw [hlhs, hrhs]
    exact adaptQuantum_scalar s frame.id p.registers
  | bundle first second =>
    rw [decodeWord_bundle hw] at hissued
    split at hissued
    · have heq := Except.ok.inj hissued
      have hoperations : frame.operations = _ := (congrArg Frame.operations heq).symm
      have hbundle : frame.bundle = true := (congrArg Frame.bundle heq).symm
      have hcontrols := Controls.bundle (d := { op := .quantum, word := raw.word }) hbundle
      rw [hstart, hoperations] at hcontrols
      rw [hid]
      exact ⟨_, (congrArg Frame.decoded heq).symm, rfl, hcontrols⟩
    · cases hissued

/-! ## Runs -/

/-- The commands of codewords. -/
def commands (slots : List Slot) (registers : RegisterFile) : List ControlCommand :=
  slots.map fun s => (s.operation 0 registers).command

/-- The commands that have been accepted. -/
def grantedCommands (l : List CpuRecord) : List ControlCommand :=
  (granted (calls l)).map (·.command)

/-- Only codewords have been given to the control. -/
def OnlyCodewords (calls : List (ControlOperation × Option ℕ)) : Prop :=
  ∀ c ∈ calls, ∃ port word, c.1.command = .codeword port word

@[simp] theorem commands_append (first second : List Slot) (registers : RegisterFile) :
    commands (first ++ second) registers = commands first registers ++ commands second registers :=
  List.map_append

@[simp] theorem grantedCommands_append (l l' : List CpuRecord) :
    grantedCommands (l ++ l') = grantedCommands l ++ grantedCommands l' := by
  simp [grantedCommands]

theorem command_of_mem {slots : List Slot} {registers : RegisterFile} {c : ControlCommand}
    (h : c ∈ commands slots registers) : ∃ port word, c = .codeword port word := by
  obtain ⟨s, -, rfl⟩ := List.mem_map.1 h
  exact ⟨_, _, rfl⟩

/-- An instruction that writes no register leaves them alone. -/
theorem written_eq {registers : RegisterFile} {d : Rv32.Decoded} {value : BitVec 32}
    (hd : d.writesRd = false) (hzero : registers 0 = 0) : written registers d value = registers := by
  rw [written, if_neg (by simp [hd]), Function.update_eq_self_iff]
  exact hzero.symm

theorem Lanes.operation_mem {operations rest : List ControlOperation}
    {calls : List (ControlOperation × Option ℕ)} (h : Lanes operations calls rest) :
    ∀ c ∈ calls, c.1 ∈ operations := by
  induction h with
  | stop => simp
  | refused _ ih => exact List.forall_mem_cons.2 ⟨List.mem_cons_self, ih⟩
  | accepted value _ ih =>
    exact List.forall_mem_cons.2 ⟨List.mem_cons_self, fun c hc => List.mem_cons_of_mem _ (ih c hc)⟩

section Run
variable {δ : Type} {epoch : ℕ} {controls : ControlCallback δ → Prop} {changes : δ → δ → Prop}
  {s s₁ s' : CpuState δ} {l l' : List CpuRecord} {program : List (BitVec 32 × List Slot)}
  {registers : RegisterFile} {slots : List Slot}

/-- Where a program of codewords is: the ones before have been accepted, and these are left of the
instruction that is executed, if it is the next one. -/
structure Issues (before : List Slot) (registers : RegisterFile) (l : List CpuRecord)
    (p : InOrderPipeline) : Prop where
  unwritten : p.registers = registers
  done : p.execute = none → OnlyCodewords (calls l) ∧
    grantedCommands l = commands before registers
  current : ∀ frame ∈ p.execute, ∀ slots, frame.fault = none → Encodes frame.word slots →
    OnlyCodewords (calls l) ∧ ∃ d rest, frame.decoded = some d ∧ d.writesRd = false ∧
      Controls frame d rest ∧ rest ≠ [] ∧
      grantedCommands l ++ rest.map (·.command) = commands (before ++ slots) registers

/-- An instruction that has just been decoded is at its beginning. -/
theorem Issues.of_fresh {p : InOrderPipeline} {before : List Slot} (h : Sequenced p)
    (hregisters : p.registers = registers)
    (hfresh : ∀ frame ∈ p.execute, frame.completedLanes = 0) (honly : OnlyCodewords (calls l))
    (hgranted : grantedCommands l = commands before registers) : Issues before registers l p where
  unwritten := hregisters
  done := fun _ => ⟨honly, hgranted⟩
  current := by
    intro frame hframe slots hsound hencodes
    obtain ⟨d, hdecoded, hwrites, hcontrols⟩ :=
      controls_of_encodes h hframe hsound (hfresh frame hframe) hencodes
    refine ⟨honly, d, _, hdecoded, hwrites, hcontrols, by simpa using hencodes.ne_nil, ?_⟩
    rw [hgranted, commands_append, hregisters, List.map_map]
    rfl

theorem lanes_of_fresh {p : InOrderPipeline} {frame : Frame} (h : Fresh p frame) :
    frame.completedLanes = 0 := by
  obtain ⟨raw, hraw, rfl⟩ := h
  exact (congrArg Frame.completedLanes (issued_returns hraw).1).symm

theorem Issues.nothing {p p' : InOrderPipeline} {before : List Slot}
    (h : Issues before registers l p) (hregisters : p'.registers = p.registers)
    (hexecute : p'.execute = p.execute) (huncalled : calls l' = []) :
    Issues before registers (l ++ l') p' := by
  have hcalls : calls (l ++ l') = calls l := by simp [huncalled]
  constructor
  · exact hregisters.trans h.unwritten
  · rw [hexecute, grantedCommands, hcalls]
    exact h.done
  · rw [hexecute, grantedCommands, hcalls]
    exact h.current

/-- One edge: nothing has retired, or the next instruction has. -/
theorem Issues.proceeds {control : ControlCallback δ} {now : ℕ} {before : List Slot}
    (h : Issues before registers l s.pipeline) (hwell : Sequenced s.pipeline)
    (hwell' : Sequenced s'.pipeline) (hproceeds : Proceeds control now epoch s s' l') :
    (retired l' = [] ∧ Issues before registers (l ++ l') s'.pipeline) ∨
      ∃ id record, retired l' = [(id, record)] ∧ ∀ slots, Encodes record.word slots →
        s'.pipeline.registers = registers ∧ OnlyCodewords (calls (l ++ l')) ∧
          grantedCommands (l ++ l') = commands (before ++ slots) registers ∧
          ∀ frame ∈ s'.pipeline.execute, Fresh s'.pipeline frame := by
  have hproceeds' := hproceeds
  -- The lanes of one edge go on from what is left.
  have hlanes : ∀ {rest operations : List ControlOperation} {slots : List Slot},
      OnlyCodewords (calls l) →
      grantedCommands l ++ operations.map (·.command) = commands (before ++ slots) registers →
      Lanes operations (calls l') rest → OnlyCodewords (calls (l ++ l')) ∧
        grantedCommands (l ++ l') ++ rest.map (·.command) =
          commands (before ++ slots) registers := by
    intro rest operations slots honly hgranted hlanes
    constructor
    · rw [calls_append]
      refine List.forall_mem_append.2 ⟨honly, fun c hc => ?_⟩
      have hmem : c.1.command ∈ commands (before ++ slots) registers := by
        rw [← hgranted]
        exact List.mem_append_right _ (List.mem_map_of_mem (hlanes.operation_mem c hc))
      exact command_of_mem hmem
    · rw [← hgranted, ← hlanes.granted_append]
      simp [grantedCommands]
  cases hproceeds with
  | none empty uncalled unretired unwritten next =>
    obtain ⟨honly, hgranted⟩ := h.done empty
    refine .inl ⟨unretired, .of_fresh hwell' (unwritten.trans h.unwritten)
      (fun frame hframe => lanes_of_fresh (next frame hframe)) ?_ ?_⟩
    · simpa [uncalled] using honly
    · simpa [grantedCommands, uncalled] using hgranted
  | waits execute same uncalled unretired unwritten =>
    exact .inl ⟨unretired, h.nothing unwritten (same.trans execute.symm) uncalled⟩
  | @stalls frame frame' d s₀ s₁ l₁ execute sound decoded before' work after same erase called unretired
      unwritten =>
    refine .inl ⟨unretired, unwritten.trans h.unwritten, ?_, ?_⟩
    · intro hnone
      simp [same] at hnone
    · intro frame'' hframe'' slots hsound hencodes
      obtain rfl := Option.some.inj (same.symm.trans hframe'')
      have hword : frame'.word = frame.word := (congrArg Frame.word erase :)
      obtain ⟨honly, d', rest, hdecoded, hwrites, hcontrols, hne, hgranted⟩ :=
        h.current frame execute slots sound (hword ▸ hencodes)
      obtain ⟨rest', hlanes', hcases⟩ := hproceeds'.controls execute hdecoded hcontrols hne
      obtain ⟨honly', hgranted'⟩ := hlanes honly hgranted hlanes'
      rcases hcases with ⟨hleft, -, -, frame₂, hframe₂, herase, hcontrols'⟩ |
        ⟨-, -, -, -, _, _, hretired, -⟩
      · obtain rfl := Option.some.inj (same.symm.trans hframe₂)
        have hdecoded' : frame'.decoded = some d' :=
          (congrArg Frame.decoded herase :).trans hdecoded
        exact ⟨honly', d', rest', hdecoded', hwrites, hcontrols', hleft, hgranted'⟩
      · rw [unretired] at hretired
        cases hretired
  | @retires frame d completion s₀ s₁ l₁ record execute sound decoded before' work called retired word =>
    refine .inr ⟨_, _, retired, ?_⟩
    intro slots hencodes
    obtain ⟨honly, d', rest, hdecoded, hwrites, hcontrols, hne, hgranted⟩ :=
      h.current frame execute slots sound (word ▸ hencodes)
    obtain ⟨rest', hlanes', hcases⟩ := hproceeds'.controls execute hdecoded hcontrols hne
    obtain ⟨honly', hgranted'⟩ := hlanes honly hgranted hlanes'
    rcases hcases with ⟨-, hnone, -⟩ | ⟨rfl, -, -, hnext, record', value, hretired, -, -, hwritten, hregisters⟩
    · rw [retired] at hnone
      cases hnone
    · have hunwritten : s'.pipeline.registers = registers := by
        rw [hregisters, hwritten, written_eq hwrites hwell.zero, h.unwritten]
      exact ⟨hunwritten, honly', by simpa using hgranted', hnext⟩

/-- When some codeword instructions have retired, their codewords have been accepted in order, and
the registers are as before. -/
theorem issues_of_run (run : CpuRun epoch controls changes s l s') (h : Sequenced s.pipeline)
    (hstart : ∀ frame ∈ s.pipeline.execute, frame.completedLanes = 0)
    (hencodes : ∀ p ∈ program, Encodes p.1 p.2)
    (hwords : (retired l).map (·.2.word) = program.map (·.1)) :
    Issues (program.flatMap (·.2)) s.pipeline.registers l s'.pipeline := by
  induction run generalizing program with
  | start =>
    obtain rfl := List.map_eq_nil_iff.1 hwords.symm
    exact .of_fresh h rfl hstart (by simp [OnlyCodewords]) rfl
  | exchange fetch data device run changed ih =>
    have hissues := ih hencodes hwords
    exact ⟨hissues.unwritten, hissues.done, hissues.current⟩
  | @edge control now l l' s₁ s₂ run admitted step ih =>
    have hwell := run.sequenced h
    have hstepped := step_returns step
    have hwell' := hwell.stepped hstepped
    have hproceeds := hstepped.proceeds hwell
    rw [retired_append, List.map_append, eq_comm, List.map_eq_append_iff] at hwords
    obtain ⟨first, second, rfl, hfirst, hsecond⟩ := hwords
    obtain ⟨hencodes, hlast⟩ := List.forall_mem_append.1 hencodes
    rcases (ih hencodes hfirst.symm).proceeds hwell hwell' hproceeds with
      ⟨hretired, hissues⟩ | ⟨id, record, hretired, hnext⟩
    · rw [hretired, List.map_nil, List.map_eq_nil_iff] at hsecond
      rw [hsecond, List.append_nil]
      exact hissues
    · rw [hretired, List.map_singleton, List.map_eq_singleton_iff] at hsecond
      obtain ⟨p, rfl, hp⟩ := hsecond
      rw [List.forall_mem_singleton, hp] at hlast
      obtain ⟨hunwritten, honly, hgranted, hfresh⟩ := hnext p.2 hlast
      rw [List.flatMap_append, List.flatMap_singleton]
      exact .of_fresh hwell' hunwritten (fun frame hframe => lanes_of_fresh (hfresh frame hframe))
        honly hgranted

end Run
end InOrderPipeline
end Qsbit

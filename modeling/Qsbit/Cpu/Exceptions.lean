import Qsbit.Cpu.Program
import Qsbit.Fault
import Qsbit.Records

/-!
# Faults of a core

A fault of the pipeline is a fault of the instruction that is next in the program, once all
instructions before it have retired. What has been fetched ahead and is discarded later never
faults. Apart from that the control may fault, and time may run out; the protocol between the
pipeline, its ports and the memory is never broken. This is so on every edge that is not before
the last record of the trace.

## Main definitions

* `InOrderPipeline.Attributed` — where a fault of the pipeline may come from.
* `CpuCore.fault_precise` — every fault that an edge of a core raises is of this kind.
-/
namespace Qsbit
open MemoryModel (Bank Lane LaneStep Carries Performs answer)
open Qsbit.Sequential

namespace Mailbox
variable {α : Type} {b : Mailbox α} {now epoch : ℕ} {value : α} {f : Fault} {P : Fault → Prop}

theorem faultsIn_of_time (hP : ∀ f : Fault, f.code = .timeOverflow → P f) (hsound : b.Sound)
    (hfull : b.full = false) (hempty : b.entries = []) : (b.publish now epoch value).FaultsIn P := by
  have hadd : ∀ {x y : ℕ}, (checkedAdd x y).FaultsIn P := by
    intro x y f hf
    rw [code_of_checkedAdd hf]
    exact hP _ rfl
  have hmul : ∀ {x y : ℕ}, (checkedMul x y).FaultsIn P := by
    intro x y f hf
    rw [code_of_checkedMul hf]
    exact hP _ rfl
  have hafter : (b.receiver.after now b.latency).FaultsIn P := by
    refine .bind (.of_ok (Clock.validate_eq_ok_iff.2 hsound.receiver)) fun _ _ =>
      .bind (require_faultsIn hsound.latency) fun _ _ => .bind ?_ fun _ _ =>
        .bind hmul fun _ _ => hadd
    split
    · exact .bind hadd fun _ _ => .bind hmul fun _ _ => hadd
    · exact .pure _
  exact .bind (require_faultsIn hfull) fun _ _ => .bind hafter fun _ _ =>
    .bind (require_faultsIn (by simp [hempty])) fun _ _ => .pure _

end Mailbox

namespace MemoryModel
variable {δ : Type} {d : MemoryDevice δ} {clock : Clock} {latency now epoch : ℕ}
  {instruction : Bool} {lane : Lane} {b : Bank δ} {request : Option MemoryRequest}
  {response : Option MemoryResponse}

theorem not_raises_respond {r : MemoryRequest} {f : Fault} {b' : Bank δ} {l : List TraceEvent} :
    ¬ (respond d r now epoch).Raises b f b' l := by
  intro h
  obtain ⟨_, _, _, _, -, hpure, -⟩ := Proc.raises_handle_iff.1 h
  exact Proc.not_raises_pure hpure

theorem complete_overflows (hsound : lane.port.Sound)
    (hcarries : Carries epoch lane request response) :
    (complete d now epoch).FaultsIn (fun f => f.code = .timeOverflow) (lane, b) := by
  refine .get_bind ?_
  cases hdue : lane.due now with
  | none => exact .pure _
  | some p =>
    obtain ⟨hpending, -, hfull⟩ := Lane.due_eq_some hdue
    have hempty : lane.port.responses.entries = [] := by
      cases hcarries with
      | accepted _ _ responses => exact responses
      | nothing _ pending | asked _ pending | answered _ pending =>
        rw [pending] at hpending
        cases hpending
    by_cases hepoch : p.epoch = epoch
    · simp only [if_pos hepoch]
      refine .bind (.of_not_raises fun f s' l h => ?_) fun reply _ _ _ => ?_
      · obtain ⟨_, hrespond, -⟩ := Proc.raises_zoom_iff.1 h
        exact not_raises_respond hrespond
      · cases reply with
        | none => exact .pure _
        | some reply =>
          exact .lift_bind (Mailbox.faultsIn_of_time (fun _ h => h) hsound.responses hfull hempty)
            fun _ _ => .modify _
    · simp only [if_neg hepoch]
      exact .modify _

theorem accept_overflows (hcarries : Carries epoch lane request response)
    (hrequest : ∀ r ∈ request, r.instruction = instruction ∧ ¬ (r.instruction ∧ r.write)) :
    (accept clock latency instruction now epoch).FaultsIn (fun f => f.code = .timeOverflow)
      (lane, b) := by
  refine .get_bind ?_
  by_cases hfull : lane.port.responses.full = true
  · simp only [if_pos hfull]
    exact .pure _
  · simp only [if_neg hfull]
    cases hpeek : lane.port.requests.peek now with
    | none => exact .pure _
    | some message =>
      cases hcarries with
      | nothing requests | accepted requests | answered requests =>
        rw [peek_nil requests] at hpeek
        cases hpeek
      | asked requests _ _ current value newer =>
        obtain ⟨rfl, -⟩ := peek_singleton requests hpeek
        subst value
        refine .modify_bind ?_
        rw [if_neg (not_not.2 current)]
        refine .lift_bind (require_faultsIn ⟨newer, Nat.ne_of_gt (Nat.zero_lt_of_lt newer)⟩) fun _ _ =>
          .lift_bind (require_faultsIn (hrequest _ rfl)) fun _ _ => .modify_bind <|
            .lift_bind (fun f hf => ?_) fun _ _ => .lift_bind (fun f hf => ?_) fun _ _ => .modify _
        · rw [code_of_checkedMul hf]
        · rw [code_of_checkedAdd hf]

/-- An edge of a lane faults only when time runs out. -/
theorem stepPort_overflows (hsound : lane.port.Sound) (hcarries : Carries epoch lane request response)
    (hrequest : ∀ r ∈ request, r.instruction = instruction ∧ ¬ (r.instruction ∧ r.write)) :
    (stepPort d clock latency instruction now epoch).FaultsIn (fun f => f.code = .timeOverflow)
      (lane, b) := by
  refine .get_bind <| .bind (complete_overflows hsound hcarries) fun _ s l hcomplete => ?_
  by_cases hbusy : lane.pending.isSome = true
  · simp only [if_pos hbusy]
    exact .pure _
  · simp only [if_neg hbusy]
    obtain rfl := complete_vacant (by simpa using hbusy) hcomplete
    exact accept_overflows hcarries hrequest

end MemoryModel

/-- A control word that has been decoded is an operation. -/
theorem adaptQuantum_of_decode {word : BitVec 32} {x : Rv32.Decoded}
    (h : Rv32.decode word = .ok x) (hquantum : x.op = .quantum) (id : ℕ) (lhs rhs : BitVec 32) :
    ∃ operation, adaptQuantum x id lhs rhs = .ok operation := by
  rcases Rv32.decode_eq_ok h with ⟨i, rfl, rfl⟩ | ⟨hvalid, rfl⟩
  · cases i with
    | branch kind | load kind | store kind | constant kind | shift kind | arithmetic kind =>
      cases kind <;> cases hquantum
    | lui | auipc | jal | jalr | fence | ecall | ebreak => cases hquantum
  · have hfunction : ((word >>> 12) &&& 7).toNat ∈ [0, 1, 2, 3, 6] := by
      rw [Contract.validControlWord] at hvalid
      generalize ((word >>> 12) &&& 7).toNat = function at hvalid
      split at hvalid
      · cases hvalid
      · simp only at hvalid
        split at hvalid
        all_goals first
          | cases hvalid
          | simp
    have hword : (Rv32.control word).word = word := rfl
    rw [adaptQuantum, hword]
    generalize ((word >>> 12) &&& 7).toNat = function at hfunction
    simp only [List.mem_cons, List.not_mem_nil, or_false] at hfunction
    have hop : require ((Rv32.control word).op = .quantum) .protocol
        "non-quantum operation sent to adapter" = .ok () := require_eq_ok_iff.2 hquantum
    rw [hop]
    rcases hfunction with rfl | rfl | rfl | rfl | rfl <;> exact ⟨_, rfl⟩

/-- The sign of a loaded value is always extended. -/
theorem loadedValue_of_evaluate {δ : Type} {a : Architecture δ} {x : Rv32.Decoded} {e : Rv32.Effect}
    (h : a.evaluate x = .ok e) (value : ℕ) : ∃ loaded, loadedValue e value = .ok loaded := by
  simp only [Architecture.evaluate, Rv32.evaluate, Except.bind_eq_ok_iff, require_eq_ok_iff,
    exists_const, Except.pure_eq_ok_iff] at h
  obtain ⟨-, _, heffect, -, rfl⟩ := h
  rw [Rv32.effect] at heffect
  cases hop : x.op <;> simp only [hop] at heffect <;> cases heffect <;> exact ⟨_, rfl⟩

namespace InOrderPipeline
variable {γ δ : Type} {d : MemoryDevice δ} {changes : δ → δ → Prop} {issue : ControlIssue}
  {control : ControlCallback γ} {now epoch : ℕ} {a : Architecture δ} {lane : Lane} {b : Bank δ}
  {s s' : CpuState γ} {l : List CpuRecord} {frame : Frame} {owed : List CpuEvent}
  {x : Rv32.Decoded} {e : Rv32.Effect} {replies : List ℕ}

/-- Where a fault of an edge may come from. -/
inductive Attributed (d : MemoryDevice δ) (issue : ControlIssue) (control : ControlCallback γ)
    (now epoch : ℕ) (a : Architecture δ) (f : Fault) : Prop
  | program (faults : Faults d issue a f.code)
  | control {operation : ControlOperation} {device device' : γ} {l : List TraceEvent}
      (raises : (control operation now epoch).Raises device f device' l)
  | time (code : f.code = .timeOverflow)

theorem attributed_checkedAdd {n m : ℕ} :
    (checkedAdd n m).FaultsIn (Attributed d issue control now epoch a) := by
  intro f hf
  rw [code_of_checkedAdd hf]
  exact .time rfl

theorem callControl_attributed {operation : ControlOperation} :
    (callControl control operation now epoch).FaultsIn (Attributed d issue control now epoch a) s := by
  refine .bind ?_ fun _ _ _ _ => .bind (.emit _) fun _ _ _ _ => .pure _
  refine .zoom fun f device l h => ?_
  have hcontrol : (control operation now epoch).Raises s.device f
      (control operation now epoch s.device).state (control operation now epoch s.device).log := by
    have hresult := congrArg Outcome.result h
    exact congrArg (fun r => (⟨r, _, _⟩ : Outcome _ _ _ _)) hresult
  exact .control hcontrol

theorem issueLanes_attributed {operations : List ControlOperation} :
    (issueLanes control now epoch operations).FaultsIn (Attributed d issue control now epoch a) s := by
  induction operations generalizing s with
  | nil => exact .pure _
  | cons operation rest ih =>
    refine .bind callControl_attributed fun reply _ _ _ => ?_
    cases reply with
    | none => exact .pure _
    | some value => exact .modify_bind ih

/-- An access faults as the memory does. -/
theorem accessData_attributed (hport : lane.port = s.data) (hsound : s.data.Sound)
    (hprogress : UnderWay d changes epoch issue a lane b (some frame) owed)
    (effect : ∀ e' ∈ frame.effect, e' = e) (evaluates : Evaluates d issue a frame.word x e)
    (memory : e.memory ≠ .none) :
    (accessData frame e now epoch).FaultsIn (Attributed d issue control now epoch a) s := by
  refine .get_bind ?_
  by_cases hunasked : frame.memoryRequest = 0
  · rw [if_pos hunasked]
    by_cases hfull : s.data.requests.full = true
    · rw [if_pos hfull]
      exact .pure _
    · have hempty : s.data.requests.entries = [] := by
        rw [← hport]
        cases hprogress with
        | asked h | performed h => exact absurd hunasked h.request
        | issuing h =>
          cases h.carries with
          | nothing requests => exact requests
      rw [if_neg hfull]
      refine .lift_bind attributed_checkedAdd fun _ _ => .modify_bind <| .lift_bind ?_ fun _ _ =>
        .modify_bind <| .modify_bind <| .pure _
      exact Mailbox.faultsIn_of_time (fun _ => .time) hsound.requests (by simpa using hfull) hempty
  · rw [if_neg hunasked]
    cases hpeek : s.data.responses.peek now with
    | none => exact .pure _
    | some message =>
      rw [← hport] at hpeek
      cases hprogress with
      | issuing h => exact absurd h.unasked hunasked
      | asked _ carries =>
        rw [carries.peek_none] at hpeek
        cases hpeek
      | @performed _ _ e' result _ _ bank h carries performs =>
        obtain rfl : e = e' := (effect e' h.effect).symm
        obtain ⟨hvalue, hepoch, -, -⟩ := carries.taken hpeek
        have hanswer := (Option.some.inj hvalue).symm
        have hid : message.value.id = frame.memoryRequest := by
          rw [hanswer, MemoryModel.answer_id]
          rfl
        refine .modify_bind <| .lift_bind (require_faultsIn ⟨hepoch, hid⟩) fun _ _ => ?_
        rw [hanswer]
        cases result with
        | error fault =>
          refine .lift_bind ?_ fun _ h => absurd h (by simp [answer])
          intro f hf
          obtain rfl := Except.error.inj hf
          have hfaults : Faults d issue a fault.code := .access evaluates memory performs
          exact .program hfaults
        | ok answered =>
          refine .lift_bind (.pure _) fun _ _ => ?_
          obtain ⟨loaded, hloaded⟩ := loadedValue_of_evaluate evaluates.evaluated answered
          rw [loadedValue] at hloaded
          by_cases hsigned : e.signExtendLoad = true
          · rw [if_pos hsigned] at hloaded ⊢
            exact .lift_bind (.of_ok hloaded) fun _ _ => .pure _
          · rw [if_neg hsigned]
            exact .pure _

/-- A single instruction, with its operands. -/
theorem Issued.fetches (h : Issued d issue a frame) (sound : frame.fault = none)
    (flag : frame.bundle = false) (decoded : frame.decoded = some x) :
    Fetches d issue a frame.word x ∧ frame.lhs = a.lhs x ∧ frame.rhs = a.rhs x := by
  cases h with
  | fault raised =>
    rw [sound] at raised
    cases raised
  | bundle _ set =>
    rw [flag] at set
    cases set
  | scalar _ _ fetches decoded' lhs rhs =>
    obtain rfl := Option.some.inj (decoded.symm.trans decoded')
    exact ⟨fetches, lhs, rhs⟩

/-- The effect that is kept in the frame is that of the instruction. -/
theorem UnderWay.evaluated (h : UnderWay d changes epoch issue a lane b (some frame) owed)
    (effect : frame.effect = some e) (decoded : frame.decoded = some x) : a.evaluate x = .ok e := by
  cases h with
  | issuing h => exact h.effect e effect x decoded
  | asked h | performed h =>
    obtain rfl := Option.some.inj (effect.symm.trans h.effect)
    obtain rfl := Option.some.inj (decoded.symm.trans h.decoded)
    exact h.evaluates.evaluated

/-- An instruction of the instruction set faults where it cannot be evaluated. -/
theorem executePlain_attributed (hport : lane.port = s.data) (hsound : s.data.Sound)
    (hprogress : UnderWay d changes epoch issue a lane b (some frame) owed)
    (sound : frame.fault = none) (decoded : frame.decoded = some x) (flag : frame.bundle = false)
    (plain : x.op ≠ .quantum) (stays : ¬ Exits x a.registers) :
    (executePlain x frame now epoch).FaultsIn (Attributed d issue control now epoch a) s := by
  obtain ⟨fetches, lhs, rhs⟩ := hprogress.issued.fetches sound flag decoded
  have hrest : ∀ {e : Rv32.Effect}, (∀ e' ∈ frame.effect, e' = e) → a.evaluate x = .ok e →
      (modifyFrame (fun frame => { frame with effect := some e }) >>= fun _ =>
        if e.memory = .none then
          pure (some { value := e.value, nextPc := e.nextPc, flush := e.branchTaken })
        else accessData frame e now epoch : Cpu γ (Option Completion)).FaultsIn
          (Attributed d issue control now epoch a) s := by
    intro e heffect hevaluated
    refine .modify_bind ?_
    split
    · exact .pure _
    · exact accessData_attributed hport hsound hprogress heffect
        ⟨fetches, plain, stays, hevaluated⟩ ‹_›
  rw [executePlain]
  cases heffect : frame.effect with
  | some e =>
    have hkept := hprogress.evaluated heffect decoded
    exact .bind (.pure _) fun e' _ _ h => by
      obtain ⟨rfl, rfl, -⟩ := Proc.returns_pure_iff.1 h
      refine hrest ?_ hkept
      simp [heffect]
  | none =>
    rw [lhs, rhs, hprogress.pc]
    refine .lift_bind (fun f hf => .program (.evaluate fetches plain stays hf)) fun e he => ?_
    refine hrest ?_ he
    simp [heffect]

/-- One edge of the instruction that is next in the program faults as the instruction does. -/
theorem executeFrame_attributed (hport : lane.port = s.data) (hsound : s.data.Sound)
    (hprogress : UnderWay d changes epoch issue a lane b (some frame) owed)
    (sound : frame.fault = none) (decoded : frame.decoded = some x) :
    (executeFrame control x frame a.registers now epoch).FaultsIn
      (Attributed d issue control now epoch a) s := by
  rw [executeFrame]
  split
  · exact .bind issueLanes_attributed fun _ _ _ _ => .pure _
  · rename_i flag
    rw [Bool.not_eq_true] at flag
    obtain ⟨fetches, -, -⟩ := hprogress.issued.fetches sound flag decoded
    split
    · rename_i quantum
      obtain ⟨operation, hoperation⟩ :=
        adaptQuantum_of_decode fetches.decoded quantum frame.id frame.lhs frame.rhs
      exact .lift_bind (.of_ok hoperation) fun _ _ => .bind callControl_attributed fun _ _ _ _ =>
        .pure _
    · split
      · refine .bind callControl_attributed fun reply _ _ _ => ?_
        cases reply with
        | none => exact .pure _
        | some value => exact .modify_bind (.pure _)
      · exact executePlain_attributed hport hsound hprogress sound decoded flag ‹_› ‹_›

/-- The stage that executes. -/
theorem executeStage_attributed (hport : lane.port = s.data) (hsound : s.data.Sound)
    (hregisters : s.pipeline.registers = a.registers)
    (hprogress : UnderWay d changes epoch issue a lane b s.pipeline.execute owed) :
    (executeStage control now epoch).FaultsIn (Attributed d issue control now epoch a) s := by
  refine .get_bind ?_
  cases hexecute : s.pipeline.execute with
  | none => exact .pure _
  | some frame =>
    rw [hexecute] at hprogress
    have hissued := hprogress.issued
    refine .lift_bind ?_ fun _ hfault => ?_
    · cases hissued with
      | @fault code raised invalid =>
        rw [raised]
        intro f hf
        obtain rfl := Except.error.inj hf
        have hfaults : Faults d issue a code := .invalid invalid
        exact .program hfaults
      | bundle sound | scalar sound =>
        rw [sound]
        exact .pure _
    · have hsome : frame.fault = none ∧ ∃ x, frame.decoded = some x := by
        cases hissued with
        | fault raised =>
          rw [raised] at hfault
          cases hfault
        | bundle sound _ _ _ _ decoded => exact ⟨sound, _, decoded⟩
        | scalar sound _ _ decoded => exact ⟨sound, _, decoded⟩
      obtain ⟨sound, x, decoded⟩ := hsome
      rw [decoded, hregisters]
      refine .bind (executeFrame_attributed hport hsound hprogress sound decoded) fun c _ _ _ => ?_
      cases c with
      | none => exact .bind (.emit _) fun _ _ _ _ => .pure _
      | some completion =>
        refine .bind (.modify_bind <| .get_bind <| .bind (.emit _) fun _ _ _ _ => .modify _)
          fun _ _ _ _ => .pure _

theorem fetchNext_attributed (hfront : FrontEnd d epoch s.pipeline lane b)
    (hport : lane.port = s.fetch) (hsound : s.fetch.Sound) :
    (fetchNext now epoch).FaultsIn (Attributed d issue control now epoch a) s := by
  refine .get_bind ?_
  by_cases hfree : s.pipeline.fetchRequest = none ∧ s.pipeline.fetched = none ∧
      s.fetch.requests.full = false
  · have hempty : s.fetch.requests.entries = [] := by
      obtain ⟨response, hcarries, -⟩ := hfront.request
      rw [hfree.1] at hcarries
      rw [← hport]
      cases hcarries with
      | nothing requests => exact requests
    simp only [if_pos hfree]
    refine .lift_bind attributed_checkedAdd fun _ _ => .modify_bind <| .lift_bind ?_ fun _ _ =>
      .modify_bind <| .modify _
    exact Mailbox.faultsIn_of_time (fun _ => .time) hsound.requests hfree.2.2 hempty
  · simp only [if_neg hfree]
    exact .pure _

end InOrderPipeline

namespace CpuCore
open InOrderPipeline
variable {γ δ : Type} {d : MemoryDevice δ} {changes : δ → δ → Prop} {issue : ControlIssue}
  {control : ControlCallback γ} {now epoch : ℕ} {s s' : CpuCore γ δ} {a : Architecture δ}
  {l owed : List CpuEvent}

/-- An edge of the pipeline. -/
theorem Refines.cpuEdge_attributed (h : Refines d changes epoch issue owed s a)
    (hedge : s.pipeline.clock.edge now) :
    (CpuCore.cpuEdge control now epoch).FaultsIn (Attributed d issue control now epoch a) s := by
  refine .zoom <| .get_bind <| .lift_bind (require_faultsIn hedge) fun _ _ =>
    .bind ?_ fun _ _ _ _ => ?_
  · obtain ⟨x, htakes, htaken⟩ := h.front.takes (s := s.cpu) rfl
    refine .bind (.of_not_raises fun _ _ _ => htakes.not_raises) fun _ x' l' htakes' => ?_
    obtain ⟨rfl, rfl⟩ : x = x' ∧ l' = [] := by
      have hsame := htakes.symm.trans htakes'
      simpa using hsame
    have hrefines := h.taken htaken
    refine .get_bind ?_
    split
    · exact .pure _
    · rename_i hhalted
      rw [Bool.not_eq_true] at hhalted
      have hrunning : a.halted = false := hrefines.halted.symm.trans hhalted
      refine .bind (executeStage_attributed (rfl : (s.withCpu x).memory.data.port = _) hrefines.sound.2
        hrefines.registers hrefines.progress) fun flushes y ly hstage => ?_
      refine .bind ?_ fun _ z lz hflush => ?_
      · split
        · exact .get_bind <| .lift_bind attributed_checkedAdd fun _ _ => .modify_bind (.emit _)
        · exact .pure _
      · obtain ⟨p, hclears, rfl, -⟩ := clears_of_flush hflush
        obtain ⟨_, _, a', -, -, hrefines'⟩ :=
          hrefines.executed hrunning (executeStage_returns hstage) hclears
        refine .get_bind ?_
        split
        · exact .pure _
        · rename_i hgoes
          rw [Bool.not_eq_true] at hgoes
          have hadvanced := hrefines'.advanced (hrefines'.halted.symm.trans hgoes)
          exact .modify_bind <| fetchNext_attributed hadvanced.front rfl hadvanced.sound.1
  · refine .get_bind ?_
    dsimp only
    split
    · exact .pure _
    · exact .bind (.emit _) fun _ _ _ _ => .modify _

/-- An edge of the memory. -/
theorem Refines.memoryEdge_overflows (h : Refines d changes epoch issue owed s a)
    (hedge : s.memory.clock.edge now) :
    (CpuCore.memoryEdge d now epoch).FaultsIn (fun f => f.code = .timeOverflow) s := by
  obtain ⟨response, hfetch, -⟩ := h.front.request
  obtain ⟨request, response', hdata, hrequest⟩ := h.progress.request h.asked
  have hinstruction : ∀ r ∈ s.pipeline.fetchRequest.map Fetch.request,
      r.instruction = true ∧ ¬ (r.instruction ∧ r.write) := by
    intro r hr
    obtain ⟨r', -, rfl⟩ := Option.map_eq_some_iff.1 hr
    exact ⟨rfl, by simp [Fetch.request]⟩
  refine .zoom <| .get_bind <| .lift_bind (require_faultsIn hedge) fun _ _ =>
    .bind (.zoom (MemoryModel.stepPort_overflows h.sound.1 hfetch hinstruction)) fun _ m l hm => ?_
  obtain ⟨x, -, rfl⟩ := Proc.returns_zoom_iff.1 hm
  exact .zoom (MemoryModel.stepPort_overflows h.sound.2 hdata fun r hr => (hrequest r hr).2)

/-- The faults of a core, on edges that are not before the last record of the trace, are those of its
program, of its control, and that time runs out. -/
theorem fault_precise (hd : d.Steady changes) (hstart : Started s)
    (run : Runs (CleanStep d changes epoch) s l s') :
    ∃ seen owed a, Follows d changes s s' l seen owed a ∧
      (∀ {control : ControlCallback γ} {now last : ℕ} {f : Fault} {s'' : CpuCore γ δ}
        {l' : List CpuRecord}, s'.pipeline.clock.edge now → last ≤ now →
          (∀ operation device, (control operation now epoch).Logs (Log.At now) device) →
          (CpuCore.cpuEdge control now epoch).RaisesAfter last s' f s'' l' →
            Attributed d s.pipeline.issue control now epoch a f) ∧
      ∀ {now last : ℕ} {f : Fault} {s'' : CpuCore γ δ} {l' : List TraceEvent},
        s'.memory.clock.edge now → last ≤ now →
        (∀ request device, (d.access request now epoch).Logs (Log.At now) device) →
        (CpuCore.memoryEdge d now epoch).RaisesAfter last s' f s'' l' → f.code = .timeOverflow := by
  obtain ⟨seen, owed, a, hruns, hevents, hrefines⟩ :=
    Simulates.runs (simulates hd) (hstart.refines : Refines d changes epoch _ _ _ _) run
  rw [List.nil_append] at hevents
  rw [hevents]
  refine ⟨seen, owed, a, hrefines.follows hruns, ?_, ?_⟩
  · intro control now last f s'' l' hedge hlast hcontrol hraises
    have hlogs : (CpuCore.cpuEdge control now epoch).Logs (Log.At now) s' :=
      .zoom (InOrderPipeline.step_at hcontrol)
    exact hrefines.cpuEdge_attributed hedge _ _ _ ((hlogs.raisesAfter_iff hlast).1 hraises)
  · intro now last f s'' l' hedge hlast haccess hraises
    have hlogs : (CpuCore.memoryEdge d now epoch).Logs (Log.At now) s' :=
      .zoom (MemoryModel.step_logs haccess)
    exact hrefines.memoryEdge_overflows hedge _ _ _ ((hlogs.raisesAfter_iff hlast).1 hraises)

/-- The decoders record on the tick of an access. -/
theorem access_at {core now : ℕ} {request : MemoryRequest} {decoders : DecoderSystem} :
    ((decoderDevice core).access request now epoch).Logs (Log.At now) decoders :=
  DecoderSystem.access_records.mono fun _ hr => hr.at

section Probe

/-- A jump over a word that is no instruction, to a breakpoint. -/
def breakImage : ProgramImage where
  base := 0
  bytes := [0x63, 0x04, 0x00, 0x00, 0xff, 0xff, 0xff, 0xff, 0x73, 0x00, 0x10, 0x00]
  segments := [⟨0, 12, true, false, true⟩]

def breakMade : Except Fault (CpuCore Unit DecoderSystem) :=
  make .scalar {} breakImage 1 MemoryModel.freeDecoders ()

theorem isSome_breakMade : breakMade.toOption.isSome = true := by decide +kernel

def breakCore : CpuCore Unit DecoderSystem := breakMade.toOption.get isSome_breakMade

theorem started_breakCore : Started breakCore ∧
    breakCore.memory.bank = { image := breakImage, device := MemoryModel.freeDecoders } :=
  started_make (Except.eq_ok_get isSome_breakMade)

def acceptAll : ControlCallback Unit := fun _ _ _ => pure (some 0)

def breakDriven : Except Fault (List CpuEvent × CpuCore Unit DecoderSystem) :=
  drive (decoderDevice 0) acceptAll 1 breakCore (List.range' 1 11)

theorem isSome_breakDriven : breakDriven.toOption.isSome = true := by decide +kernel

def breakRun : List CpuEvent × CpuCore Unit DecoderSystem :=
  breakDriven.toOption.get isSome_breakDriven

theorem clean_breakRun :
    Runs (CleanStep (decoderDevice 0) SameRegisters 1) breakCore breakRun.1 breakRun.2 := by
  have hsep : breakCore.memory.bank.image.Separated := by
    rw [started_breakCore.2]
    decide
  exact (clean_of_separated (decoderDevice_steady 0) hsep
    (runs_drive (Except.eq_ok_get isSome_breakDriven))).1

/-- The word that was jumped over has been fetched and does not fault; the breakpoint does. The memory
goes on, on the tick of the last record. -/
theorem fault_precise_probe : ∃ seen owed a f s'' l',
    Follows (decoderDevice 0) SameRegisters breakCore breakRun.2 breakRun.1 seen owed a ∧
      (CpuCore.cpuEdge acceptAll 12 1).RaisesAfter 11 breakRun.2 f s'' l' ∧
        Attributed (decoderDevice 0) breakCore.pipeline.issue acceptAll 12 1 a f ∧
          ∀ f s'' l', (CpuCore.memoryEdge (decoderDevice 0) 12 1).RaisesAfter 12 breakRun.2 f s'' l' →
            f.code = .timeOverflow := by
  obtain ⟨seen, owed, a, hfollows, hcpu, hmemory⟩ :=
    fault_precise (decoderDevice_steady 0) started_breakCore.1 clean_breakRun
  obtain ⟨f, hraises⟩ : ∃ f, (CpuCore.cpuEdge acceptAll 12 1).RaisesAfter 11 breakRun.2 f _ _ :=
    Proc.raisesAfter_of_isNone (by decide +kernel)
  refine ⟨seen, owed, a, f, _, _, hfollows, hraises, ?_, fun f s'' l' hfault => ?_⟩
  · exact hcpu (by decide +kernel) (by decide) (fun _ _ => .pure _) hraises
  · exact hmemory (by decide +kernel) (by decide) (fun _ _ => access_at) hfault

end Probe

end CpuCore
end Qsbit

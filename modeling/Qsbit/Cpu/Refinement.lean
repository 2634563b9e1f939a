import Qsbit.Cpu.Execution

/-!
# The pipeline executes the program

A core has a pipeline and a memory, which meet in two ports, and the pipeline calls a control.
Edges of the pipeline and of the memory come in any order, and at any time; between them the
devices change as they are allowed to, and what the control works on changes at will. What is seen
of a core is what is seen of a program that executes one instruction after the other, but for the
instruction that is under way: of that one a part may have been seen.

The memory may be changed by the program itself. A word that has been fetched ahead must not be
changed before it is executed: the pipeline would execute what it has fetched.

## Main definitions

* `CpuCore` — a pipeline with its memory; `CpuCore.cpuEdge`, `CpuCore.memoryEdge` are its edges.
* `CpuCore.Step` — what can happen to a core.
* `CpuCore.Refines` — a core and the program that it executes.
* `CpuCore.simulates` — every step of a core keeps this relation.
-/
namespace Qsbit
open InOrderPipeline
open MemoryModel (Bank Lane LaneStep Carries Handles Performs answer)
open Qsbit.Sequential (fetchResult)

/-- A pipeline with its memory, and what its control works on. -/
structure CpuCore (γ δ : Type) where
  pipeline : InOrderPipeline
  memory : MemoryModel δ
  control : γ

namespace CpuCore
variable {γ δ : Type}

/-- The side of the pipeline, with the ports. -/
def cpu (s : CpuCore γ δ) : CpuState γ where
  pipeline := s.pipeline
  fetch := s.memory.fetch.port
  data := s.memory.data.port
  device := s.control

def withCpu (s : CpuCore γ δ) (x : CpuState γ) : CpuCore γ δ where
  pipeline := x.pipeline
  memory :=
    { s.memory with
      fetch := { s.memory.fetch with port := x.fetch }
      data := { s.memory.data with port := x.data } }
  control := x.device

/-- An edge of the pipeline. -/
def cpuEdge (control : ControlCallback γ) (now epoch : ℕ) :
    Proc Fault CpuRecord (CpuCore γ δ) Unit :=
  Proc.zoom cpu (fun x s => s.withCpu x) (InOrderPipeline.step control now epoch)

/-- An edge of the memory. -/
def memoryEdge (d : MemoryDevice δ) (now epoch : ℕ) : Sim (CpuCore γ δ) Unit :=
  Proc.zoom CpuCore.memory (fun memory s => { s with memory }) (MemoryModel.step d now epoch)

/-- The addresses of the words that have been fetched and have not been decoded. -/
def prefetched (s : CpuCore γ δ) : List (BitVec 32) :=
  (s.pipeline.decode.map Frame.pc).toList ++ (s.pipeline.fetched.map Frame.pc).toList ++
    if s.memory.fetch.port.responses.entries = [] then []
    else (s.pipeline.fetchRequest.map Fetch.pc).toList

/-- What can happen to a core, and what is seen of it. -/
inductive Step (d : MemoryDevice δ) (changes : δ → δ → Prop) (epoch : ℕ) (s : CpuCore γ δ) :
    List CpuEvent → CpuCore γ δ → Prop
  | cpu {control : ControlCallback γ} {now : ℕ} {s' : CpuCore γ δ} {l : List CpuRecord}
      (edge : (cpuEdge control now epoch).Returns s () s' l) : Step d changes epoch s (events l) s'
  | memory {now : ℕ} {s' : CpuCore γ δ} {l : List TraceEvent}
      (edge : (memoryEdge d now epoch).Returns s () s' l) :
      Step d changes epoch s (accesses s.memory.data s'.memory.data) s'
  | devices (device : δ) (change : changes s.memory.bank.device device) :
      Step d changes epoch s []
        { s with memory := { s.memory with bank := { s.memory.bank with device } } }
  | control (control : γ) : Step d changes epoch s [] { s with control }

/-- No word that has been fetched ahead has been changed. -/
def Unmodified (d : MemoryDevice δ) (s s' : CpuCore γ δ) : Prop :=
  ∀ pc ∈ s'.prefetched, fetchResult d s'.memory.bank pc = fetchResult d s.memory.bank pc

/-- A step that does not change words that have been fetched ahead. -/
def CleanStep (d : MemoryDevice δ) (changes : δ → δ → Prop) (epoch : ℕ) (s : CpuCore γ δ)
    (l : List CpuEvent) (s' : CpuCore γ δ) : Prop :=
  Step d changes epoch s l s' ∧ Unmodified d s s'

/-- The state that the program sees between two instructions. -/
def architecture (s : CpuCore γ δ) : Architecture δ where
  pc := s.pipeline.pc
  registers := s.pipeline.registers
  halted := s.pipeline.halted
  bank := s.memory.bank

/-- Nothing is under way in the pipeline and in the ports. -/
structure Started (s : CpuCore γ δ) : Prop where
  pipeline : ∃ pipelineTrace, s.pipeline =
    { InOrderPipeline.make s.pipeline.issue s.pipeline.clock s.pipeline.pc with pipelineTrace }
  fetch : ∃ requests responses : Mailbox _, s.memory.fetch = { port := { requests, responses } } ∧
    requests.entries = [] ∧ responses.entries = []
  data : ∃ requests responses : Mailbox _, s.memory.data = { port := { requests, responses } } ∧
    requests.entries = [] ∧ responses.entries = []
  sound : s.memory.fetch.port.Sound ∧ s.memory.data.port.Sound

/-- A core and the program that it executes. -/
structure Refines (d : MemoryDevice δ) (changes : δ → δ → Prop) (epoch : ℕ) (issue : ControlIssue)
    (owed : List CpuEvent) (s : CpuCore γ δ) (a : Architecture δ) : Prop where
  mode : s.pipeline.issue = issue
  front : FrontEnd d epoch s.pipeline s.memory.fetch s.memory.bank
  pc : s.pipeline.pc = a.pc
  registers : s.pipeline.registers = a.registers
  halted : s.pipeline.halted = a.halted
  path : a.halted = false → Consecutive a.pc s.pipeline.path s.pipeline.fetchPc
  stopped : a.halted = true → s.pipeline.execute = none
  sound : s.memory.fetch.port.Sound ∧ s.memory.data.port.Sound
  last : s.memory.data.lastId < s.pipeline.nextData
  asked : ∀ frame ∈ s.pipeline.execute, frame.memoryRequest < s.pipeline.nextData
  progress : UnderWay d changes epoch issue a s.memory.data s.memory.bank s.pipeline.execute owed

section Phases
variable {d : MemoryDevice δ} {changes : δ → δ → Prop} {issue : ControlIssue} {now epoch : ℕ}
  {s s' : CpuCore γ δ} {x y : CpuState γ} {a a' : Architecture δ} {owed : List CpuEvent}
  {l : List CpuRecord} {control : ControlCallback γ} {flushes : Bool}

/-! ## An edge of the pipeline -/

theorem Refines.taken (h : Refines d changes epoch issue owed s a) (htaken : TakesFetch now s.cpu x) :
    Refines d changes epoch issue owed (s.withCpu x) a := by
  have hfront := htaken.frontEnd h.front (rfl : s.memory.fetch.port = _)
  have hpath := htaken.path h.front
  have hsound := htaken.sound h.sound.1
  obtain ⟨fetched, fetchRequest, fetch, rfl⟩ := htaken.same
  refine ⟨h.mode, hfront, h.pc, h.registers, h.halted, ?_, h.stopped, ⟨hsound, h.sound.2⟩, h.last,
    h.asked, h.progress⟩
  intro hrunning
  have hsame := hpath (h.halted.trans hrunning)
  exact hsame ▸ h.path hrunning

/-- What the pipeline does between two instructions: it discards what has been fetched, or not. -/
inductive Clears (p : InOrderPipeline) : Bool → InOrderPipeline → Prop
  | kept : Clears p false p
  | discarded :
      Clears p true
        { p with decode := none, fetched := none, generation := p.generation + 1, fetchPc := p.pc }

theorem clears_of_flush {u : Unit}
    (h : (if flushes then InOrderPipeline.flush now epoch else pure () : Cpu γ Unit).Returns x u y l) :
    ∃ p, Clears x.pipeline flushes p ∧ y = { x with pipeline := p } ∧ events l = [] := by
  cases flushes with
  | false =>
    obtain ⟨-, rfl, rfl⟩ := Proc.returns_pure_iff.1 h
    exact ⟨_, .kept, rfl, rfl⟩
  | true =>
    simp only [if_true, InOrderPipeline.flush, InOrderPipeline.modify, Proc.returns_get_bind_iff,
      Proc.returns_lift_bind_iff, Proc.returns_modify_bind_iff, Proc.returns_emit_iff] at h
    obtain ⟨generation, hgeneration, rfl, rfl⟩ := h
    rw [eq_of_checkedAdd hgeneration]
    exact ⟨_, .discarded, rfl, rfl⟩

/-- The oldest instruction has not been completed. -/
theorem Refines.stalls {frame frame' : Frame} {owed' : List CpuEvent}
    (h : Refines d changes epoch issue owed s a) (hrunning : a.halted = false)
    (execute : s.pipeline.execute = some frame) (htouches : Touches s.cpu x)
    (execute' : x.pipeline.execute = some frame')
    (progress : UnderWay d changes epoch issue a { s.memory.data with port := x.data }
      s.memory.bank (some frame') owed')
    (asked : frame'.memoryRequest < x.pipeline.nextData) (halted : x.pipeline.halted = a.halted) :
    Refines d changes epoch issue owed' (s.withCpu x) a := by
  have hpc : frame.pc = a.pc := (execute ▸ h.progress).pc
  have hpath := h.path hrunning
  have hlast := h.last
  have hports := h.sound
  obtain ⟨execute₁, _, _, data, device, hle, hsound, rfl⟩ := htouches
  obtain rfl : execute₁ = some frame' := execute'
  refine ⟨h.mode, h.front.of_eq rfl rfl rfl rfl rfl, h.pc, h.registers, halted, fun _ => ?_,
    fun hhalted => ?_, ⟨hports.1, hsound hports.2⟩, lt_of_lt_of_le hlast hle, fun f hf => ?_, progress⟩
  · rw [InOrderPipeline.path, execute, Option.map_some, hpc] at hpath
    rw [InOrderPipeline.path]
    change Consecutive a.pc ((Option.map Frame.pc (some frame')).toList ++ _ ++ _ ++ _) _
    rw [Option.map_some, progress.pc]
    exact hpath
  · rw [hrunning] at hhalted
    cases hhalted
  · obtain rfl := Option.some.inj hf
    exact asked

/-- The oldest instruction has retired. -/
theorem Refines.completes {frame : Frame} {w : Rv32.Decoded} {completion : InOrderPipeline.Completion}
    {p : InOrderPipeline} (h : Refines d changes epoch issue owed s a) (hrunning : a.halted = false)
    (execute : s.pipeline.execute = some frame) (htouches : Touches s.cpu x)
    (pc : a'.pc = completion.nextPc) (registers : a'.registers = written a.registers w completion.value)
    (halted : a'.halted = x.pipeline.halted) (bank : a'.bank = s.memory.bank)
    (carries : Carries epoch { s.memory.data with port := x.data } none none)
    (straight : completion.flush = false → completion.nextPc = a.pc + 4)
    (hclears : Clears (x.pipeline.retiredWith w completion) completion.flush p) :
    Refines d changes epoch issue [] (s.withCpu { x with pipeline := p }) a' := by
  have hpc : frame.pc = a.pc := (execute ▸ h.progress).pc
  have hpath := h.path hrunning
  rw [InOrderPipeline.path, execute, Option.map_some, hpc] at hpath
  have hlast := h.last
  have hregisters := h.registers
  have hports := h.sound
  obtain ⟨_, _, _, data, device, hle, hsound, hx⟩ := htouches
  have hfront : FrontEnd d epoch (x.pipeline.retiredWith w completion) s.memory.fetch
      s.memory.bank := by
    rw [hx]
    exact h.front.of_eq rfl rfl rfl rfl rfl
  subst hx
  have hwritten : a'.registers = written s.pipeline.registers w completion.value := by
    rw [registers, h.registers]
  generalize hflush : completion.flush = flushes at hclears
  cases hclears with
  | kept =>
    refine ⟨h.mode, hfront, pc.symm, hwritten.symm, halted.symm, fun _ => ?_, fun _ => rfl,
      ⟨hports.1, hsound hports.2⟩, lt_of_lt_of_le hlast hle, by simp [withCpu, retiredWith],
      .empty carries bank.symm⟩
    rw [pc, straight hflush]
    exact hpath.2
  | discarded =>
    refine ⟨h.mode, hfront.flushed, pc.symm, hwritten.symm, halted.symm, fun _ => ?_,
      fun _ => rfl, ⟨hports.1, hsound hports.2⟩, lt_of_lt_of_le hlast hle,
      by simp [withCpu, retiredWith], .empty carries bank.symm⟩
    have hempty := hfront.path_flushed rfl
    rw [withCpu, hempty]
    exact pc.symm

/-- The stage that executes, and the flush after it. -/
theorem Refines.executed {p : InOrderPipeline} (h : Refines d changes epoch issue owed s a)
    (hrunning : a.halted = false) (hexecuted : Executed control now epoch s.cpu flushes x l)
    (hclears : Clears x.pipeline flushes p) :
    ∃ seen owed' a', Runs (Sequential.Step d issue changes) a seen a' ∧
      owed ++ events l = seen ++ owed' ∧
        Refines d changes epoch issue owed' (s.withCpu { x with pipeline := p }) a' := by
  have hprogress := h.progress
  cases hexecuted with
  | idle empty =>
    cases hclears with
    | kept => exact ⟨[], owed, a, .start, by simp, h⟩
  | @stalled frame _ _ l₁ execute sound decoded work =>
    change s.pipeline.execute = some frame at execute
    rw [execute] at hprogress
    have hs : Executing a s.memory.data s.cpu frame :=
      ⟨execute, h.halted, hrunning, rfl, h.last, h.asked _ execute⟩
    obtain ⟨htouches, hattempt⟩ :=
      executeFrame_progress hs sound decoded h.registers hprogress work
    cases hclears with
    | kept =>
      cases hattempt with
      | stalls execute' progress' asked' halted' =>
        exact ⟨[], owed ++ events l₁, a, .start, by simp [events, CpuRecord.event],
          h.stalls hrunning execute htouches execute' progress' asked' halted'⟩
  | @completed frame w completion x₁ l₁ cycle execute sound decoded work =>
    change s.pipeline.execute = some frame at execute
    rw [execute] at hprogress
    have hs : Executing a s.memory.data s.cpu frame :=
      ⟨execute, h.halted, hrunning, rfl, h.last, h.asked _ execute⟩
    obtain ⟨htouches, hattempt⟩ :=
      executeFrame_progress hs sound decoded h.registers hprogress work
    cases hattempt with
    | completes runs pc registers halted bank carries straight =>
      have hrefines := h.completes (x := x₁) hrunning execute htouches pc registers halted bank
        carries straight hclears
      refine ⟨_, [], _, runs, ?_, hrefines⟩
      obtain ⟨_, _, _, _, _, _, _, rfl⟩ := htouches
      have hsame : s.cpu.pipeline.registers = a.registers := h.registers
      rw [events_append, List.append_nil, List.append_assoc]
      simp [events, CpuRecord.event, Architecture.record, hprogress.pc, hsame]

/-- The instruction that is decoded is the next one of the program. -/
theorem Refines.starts (h : Refines d changes epoch issue owed s a) (hrunning : a.halted = false) :
    UnderWay d changes epoch issue a s.memory.data s.memory.bank s.pipeline.advance.execute owed ∧
      ∀ frame ∈ s.pipeline.advance.execute, frame.memoryRequest < s.pipeline.nextData := by
  have hprogress := h.progress
  have hasked := h.asked
  rw [execute_advance]
  cases hexecute : s.pipeline.execute with
  | some frame =>
    rw [hexecute] at hprogress hasked
    exact ⟨hprogress, hasked⟩
  | none =>
    rw [hexecute] at hprogress
    cases hprogress with
    | empty carries same =>
    cases hdecode : s.pipeline.decode with
    | none => exact ⟨.empty carries same, by simp⟩
    | some raw =>
      have hpath := h.path hrunning
      rw [InOrderPipeline.path, hexecute, hdecode] at hpath
      have hpc : raw.pc = a.pc := hpath.1
      have hmatches : raw = Frame.ofFetch raw.id a.pc (fetchResult d a.bank a.pc) := by
        rw [← same, ← hpc]
        exact h.front.decode raw hdecode
      have hissued : Issued d issue a (raw.issued s.pipeline.issue s.pipeline.registers) := by
        rw [h.mode, h.registers, hmatches]
        exact issued_ofFetch hrunning raw.id
      have herase : (raw.issued s.pipeline.issue s.pipeline.registers).erase =
          raw.issued s.pipeline.issue s.pipeline.registers := by
        rw [hmatches]
        exact (issued_returns (Frame.raw_ofFetch _ _ _)).1
      have heffect : (raw.issued s.pipeline.issue s.pipeline.registers).effect = none :=
        (congrArg Frame.effect herase).symm
      have hrequest : (raw.issued s.pipeline.issue s.pipeline.registers).memoryRequest = 0 :=
        (congrArg Frame.memoryRequest herase).symm
      have hlanes : (raw.issued s.pipeline.issue s.pipeline.registers).completedLanes = 0 :=
        (congrArg Frame.completedLanes herase).symm
      have hunderWay : UnderWay d changes epoch _ _ s.memory.data s.memory.bank (some _) _ :=
        .issuing ⟨hissued, (pc_issued _ _ raw).trans hpc, hrequest, by simp [heffect],
          List.length_nil.trans hlanes.symm, hlanes.trans_le (Nat.zero_le _), carries, same⟩
      rw [List.zipWith_nil_right] at hunderWay
      refine ⟨hunderWay, fun frame hframe => ?_⟩
      obtain rfl := Option.some.inj hframe
      exact hrequest.trans_lt (Nat.zero_lt_of_lt h.last)

theorem Refines.advanced (h : Refines d changes epoch issue owed s a) (hrunning : a.halted = false) :
    Refines d changes epoch issue owed { s with pipeline := s.pipeline.advance } a := by
  have hsame : s.pipeline.advance.issue = s.pipeline.issue ∧ s.pipeline.advance.pc = s.pipeline.pc ∧
      s.pipeline.advance.registers = s.pipeline.registers ∧
        s.pipeline.advance.halted = s.pipeline.halted ∧
          s.pipeline.advance.fetchPc = s.pipeline.fetchPc ∧
            s.pipeline.advance.nextData = s.pipeline.nextData := by
    simp only [InOrderPipeline.advance]
    split <;> split <;> exact ⟨rfl, rfl, rfl, rfl, rfl, rfl⟩
  obtain ⟨hmode, hpc, hregisters, hhalted, hfetchPc, hnextData⟩ := hsame
  have hlast := h.last
  have hpath := h.path hrunning
  have hprogress := h.progress
  have hstarts := h.starts hrunning
  refine ⟨hmode.trans h.mode, h.front.advanced, hpc.trans h.pc, hregisters.trans h.registers,
    hhalted.trans h.halted, fun _ => ?_, fun hstopped => ?_, h.sound, ?_, ?_, hstarts.1⟩
  · rw [path_advance, hfetchPc]
    exact hpath
  · rw [hrunning] at hstopped
    cases hstopped
  · rw [hnextData]
    exact hlast
  · rw [hnextData]
    exact hstarts.2

theorem Refines.asks (h : Refines d changes epoch issue owed s a)
    (hasks : InOrderPipeline.Asks now epoch s.cpu x) :
    Refines d changes epoch issue owed (s.withCpu x) a := by
  have hfront := hasks.frontEnd h.front (rfl : s.memory.fetch.port = _)
  have hconsecutive := hasks.consecutive
  have hsound := hasks.sound h.sound.1
  have hpath := h.path
  rw [← h.pc] at hpath
  cases hasks with
  | nothing => exact h
  | requested =>
    refine ⟨h.mode, hfront, h.pc, h.registers, h.halted, fun hrunning => ?_, h.stopped,
      ⟨hsound, h.sound.2⟩, h.last, h.asked, h.progress⟩
    rw [← h.pc]
    exact hconsecutive (hpath hrunning)

theorem Refines.traced (h : Refines d changes epoch issue owed s a) (trace : CpuPipelineTrace) :
    Refines d changes epoch issue owed
      { s with pipeline := { s.pipeline with pipelineTrace := trace } } a :=
  ⟨h.mode, h.front.of_eq rfl rfl rfl rfl rfl, h.pc, h.registers, h.halted, h.path, h.stopped,
    h.sound, h.last, h.asked, h.progress⟩

theorem sample_events {u : Unit} (h : (InOrderPipeline.sample now epoch).Returns x u y l) :
    (∃ trace, y = { x with pipeline := { x.pipeline with pipelineTrace := trace } }) ∧
      events l = [] := by
  simp only [InOrderPipeline.sample, Proc.returns_get_bind_iff] at h
  split at h
  · obtain ⟨-, rfl, rfl⟩ := Proc.returns_pure_iff.1 h
    exact ⟨⟨_, rfl⟩, rfl⟩
  · simp only [InOrderPipeline.modify, Proc.returns_emit_bind_iff, Proc.returns_modify_iff] at h
    obtain ⟨_, ⟨rfl, rfl⟩, rfl⟩ := h
    exact ⟨⟨_, rfl⟩, rfl⟩

/-- An edge of the pipeline makes a step of the program, or none. -/
theorem Refines.cpuEdge {u : Unit} (h : Refines d changes epoch issue owed s a)
    (hedge : (cpuEdge control now epoch).Returns s u s' l) :
    ∃ seen owed' a', Runs (Sequential.Step d issue changes) a seen a' ∧
      owed ++ events l = seen ++ owed' ∧ Refines d changes epoch issue owed' s' a' := by
  obtain ⟨x, hstep, rfl⟩ := Proc.returns_zoom_iff.1 hedge
  simp only [InOrderPipeline.step, InOrderPipeline.run, Proc.returns_get_bind_iff,
    Proc.returns_lift_bind_iff] at hstep
  obtain ⟨-, -, hstep⟩ := hstep
  obtain ⟨_, x₃, l₁, l₂, hrun, hsample, rfl⟩ := Proc.returns_bind_iff.1 hstep
  obtain ⟨⟨trace, rfl⟩, hsampled⟩ := sample_events hsample
  obtain ⟨_, x₁, l₃, l₄, htake, hbody, rfl⟩ := Proc.returns_bind_iff.1 hrun
  obtain ⟨x₁', htake', htaken⟩ := h.front.takes (s := s.cpu) rfl
  obtain ⟨rfl, rfl⟩ : x₁' = x₁ ∧ l₃ = [] := by
    have hsame := htake'.symm.trans htake
    simpa using hsame
  have htaken' := h.taken htaken
  rw [Proc.returns_get_bind_iff] at hbody
  split at hbody
  · obtain ⟨-, rfl, rfl⟩ := Proc.returns_pure_iff.1 hbody
    exact ⟨[], owed, a, .start, by simp [hsampled], htaken'.traced trace⟩
  · rename_i hhalted
    rw [Bool.not_eq_true] at hhalted
    obtain ⟨flushes, x₂, l₅, l₆, hstage, hrest, rfl⟩ := Proc.returns_bind_iff.1 hbody
    obtain ⟨_, x₄, l₇, l₈, hflush, hlast, rfl⟩ := Proc.returns_bind_iff.1 hrest
    obtain ⟨p, hclears, rfl, hcleared⟩ := clears_of_flush hflush
    have hrunning : a.halted = false := htaken'.halted.symm.trans hhalted
    obtain ⟨seen, owed', a', hruns, hevents, hrefines⟩ :=
      htaken'.executed hrunning (executeStage_returns hstage) hclears
    rw [Proc.returns_get_bind_iff] at hlast
    split at hlast
    · obtain ⟨-, rfl, rfl⟩ := Proc.returns_pure_iff.1 hlast
      exact ⟨seen, owed', a', hruns, by simp [hsampled, hcleared, hevents], hrefines.traced trace⟩
    · rename_i hgoes
      rw [Bool.not_eq_true] at hgoes
      simp only [InOrderPipeline.modify, Proc.returns_modify_bind_iff] at hlast
      obtain ⟨hasks, rfl⟩ := asks_of_fetchNext hlast
      have hadvanced := hrefines.advanced (hrefines.halted.symm.trans hgoes)
      exact ⟨seen, owed', a', hruns, by simp [hsampled, hcleared, hevents],
        (hadvanced.asks hasks).traced trace⟩

/-! ## Other steps -/

/-- An edge of the memory is no step of the program. -/
theorem Refines.memoryEdge {u : Unit} {l : List TraceEvent} (hd : d.Steady changes)
    (h : Refines d changes epoch issue owed s a)
    (hedge : (memoryEdge d now epoch).Returns s u s' l) (hunmodified : Unmodified d s s') :
    Refines d changes epoch issue (owed ++ accesses s.memory.data s'.memory.data) s' a := by
  obtain ⟨m, hstep, rfl⟩ := Proc.returns_zoom_iff.1 hedge
  obtain ⟨middle, hfetch, hdata⟩ := MemoryModel.step_lanes hstep
  obtain ⟨rfl, hfront⟩ := h.front.served hd hfetch
  have hprogress := h.progress.served hd hdata
  obtain ⟨request, response, hcarries, hbounded⟩ := h.progress.request h.asked
  refine ⟨h.mode, hfront.bank ?_ ?_ ?_, h.pc, h.registers, h.halted, h.path, h.stopped,
    ⟨hfetch.sound h.sound.1, hdata.sound h.sound.2⟩, hdata.lastId_lt hcarries h.last
      fun r hr => (hbounded r hr).1, h.asked, hprogress⟩
  · intro frame hframe
    refine hunmodified frame.pc ?_
    simp [prefetched, Option.mem_def.1 hframe]
  · intro frame hframe
    refine hunmodified frame.pc ?_
    simp [prefetched, Option.mem_def.1 hframe]
  · intro hsome r hr
    refine hunmodified r.pc ?_
    simp [prefetched, Option.mem_def.1 hr, hsome]

/-- The devices change. -/
theorem Refines.devices {device : δ} (hd : d.Steady changes)
    (h : Refines d changes epoch issue owed s a) (hchange : changes s.memory.bank.device device) :
    ∃ a', Runs (Sequential.Step d issue changes) a [] a' ∧ Refines d changes epoch issue owed
      { s with memory := { s.memory with bank := { s.memory.bank with device } } } a' := by
  obtain ⟨a', hruns, hpc, hregisters, hhalted, hprogress⟩ := h.progress.changed hd hchange
  have hsame : ∀ pc, fetchResult d { s.memory.bank with device } pc =
      fetchResult d s.memory.bank pc :=
    fun _ => Sequential.fetchResult_congr (hd.changed hchange) rfl
  refine ⟨a', hruns, h.mode, h.front.bank (fun _ _ => hsame _) (fun _ _ => hsame _)
    (fun _ _ _ => hsame _), h.pc.trans hpc.symm, h.registers.trans hregisters.symm,
    h.halted.trans hhalted.symm, ?_, ?_, h.sound, h.last, h.asked, hprogress⟩
  · rw [hhalted, hpc]
    exact h.path
  · rw [hhalted]
    exact h.stopped

/-- A core that is started is at the beginning of its program. -/
theorem Started.refines (h : Started s) :
    Refines d changes epoch s.pipeline.issue [] s s.architecture := by
  obtain ⟨⟨trace, hpipeline⟩, ⟨_, _, hfetch, hfetch₁, hfetch₂⟩, ⟨_, _, hdata, hdata₁, hdata₂⟩,
    hsound⟩ := h
  constructor
  · rfl
  · rw [hpipeline, hfetch]
    exact ⟨⟨none, .nothing hfetch₁ rfl hfetch₂, by simp⟩, Nat.zero_lt_one, by simp [make],
      by simp [make], by simp [make], by simp [make]⟩
  · rfl
  · rfl
  · rfl
  · intro
    rw [hpipeline]
    exact rfl
  · intro
    rw [hpipeline]
    rfl
  · exact hsound
  · rw [hpipeline, hdata]
    exact Nat.zero_lt_one
  · rw [hpipeline]
    simp [make]
  · rw [hdata, hpipeline]
    exact .empty (.nothing hdata₁ rfl hdata₂) rfl

end Phases

section Runs
variable {d : MemoryDevice δ} {changes : δ → δ → Prop} {issue : ControlIssue} {epoch : ℕ}
  {s s' : CpuCore γ δ} {l : List CpuEvent}

/-- Every step of a core is answered by the program. -/
theorem simulates (hd : d.Steady changes) :
    Simulates (CleanStep (γ := γ) d changes epoch) (Sequential.Step d issue changes)
      (Refines d changes epoch issue) := by
  rintro owed s s' a l h ⟨hstep, hunmodified⟩
  cases hstep with
  | cpu edge => exact h.cpuEdge edge
  | memory edge =>
    exact ⟨[], _, a, .start, rfl, h.memoryEdge hd edge hunmodified⟩
  | devices device change =>
    obtain ⟨a', hruns, hrefines⟩ := h.devices hd change
    exact ⟨[], owed, a', hruns, List.append_nil _, hrefines⟩
  | control control =>
    exact ⟨[], owed, a, .start, List.append_nil _, h.mode, h.front, h.pc, h.registers, h.halted,
      h.path, h.stopped, h.sound, h.last, h.asked, h.progress⟩

/-- What has been seen of a core is what is seen of its program, and what the instruction that is next
has shown so far, which has not retired. -/
structure Follows (d : MemoryDevice δ) (changes : δ → δ → Prop) (s s' : CpuCore γ δ)
    (l seen owed : List CpuEvent) (a : Architecture δ) : Prop where
  runs : Runs (Sequential.Step d s.pipeline.issue changes) s.architecture seen a
  events : l = seen ++ owed
  owes : Sequential.Shows d s.pipeline.issue a owed
  unretired : ∀ record, .retired record ∉ owed
  pc : s'.pipeline.pc = a.pc
  registers : s'.pipeline.registers = a.registers
  halted : s'.pipeline.halted = a.halted
  idle : s'.pipeline.execute = none → owed = [] ∧ s'.architecture = a

theorem Refines.follows {seen owed : List CpuEvent} {a : Architecture δ}
    (h : Refines d changes epoch s.pipeline.issue owed s' a)
    (runs : Runs (Sequential.Step d s.pipeline.issue changes) s.architecture seen a) :
    Follows d changes s s' (seen ++ owed) seen owed a where
  runs := runs
  events := rfl
  owes := h.progress.shows
  unretired := h.progress.shows.unretired
  pc := h.pc
  registers := h.registers
  halted := h.halted
  idle hidle := by
    have hprogress := h.progress
    rw [hidle] at hprogress
    cases hprogress with
    | empty carries same =>
      refine ⟨rfl, ?_⟩
      rw [architecture, h.pc, h.registers, h.halted, same]

/-- A core executes its program, if it does not change words that it has fetched ahead. -/
theorem runs_program (hd : d.Steady changes) (hstart : Started s)
    (run : Runs (CleanStep d changes epoch) s l s') :
    ∃ seen owed a, Follows d changes s s' l seen owed a := by
  obtain ⟨seen, owed, a, hruns, hevents, hrefines⟩ :=
    (simulates hd).runs (hstart.refines : Refines d changes epoch _ _ _ _) run
  rw [List.nil_append] at hevents
  rw [hevents]
  exact ⟨seen, owed, a, hrefines.follows hruns⟩

end Runs
end CpuCore
end Qsbit

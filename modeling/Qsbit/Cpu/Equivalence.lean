import Qsbit.Cpu.Codewords

/-!
# A bundle is two codewords

What the timing control has staged depends on the commands that it has accepted, not on the
instructions that they belong to. So a bundle leaves behind what its two codewords leave behind
when they are executed one after the other.

## Main definitions

* `ControlState.content` — what has been staged, whichever instructions it belongs to.
* `stageCodeword` — what a codeword adds to that.
* `Gates` — a control that refuses as it likes and otherwise executes.
* `Completes` — a run up to the edge on which the last of some words retires.
* `bundle_equals_scalars` — a bundle is decoded, issued and staged like its two codewords.
-/
namespace Qsbit
open TimingControl (acquireTargets)

/-! ## What is staged -/

/-- The event, whichever instruction it belongs to. -/
def OperationEvent.anonymous (e : OperationEvent) : OperationEvent := { e with instruction := 0 }

/-- What the timing control has staged, whichever instructions that belongs to, and the next
measurement. -/
def ControlState.content (s : ControlState) : TimingControl × ℕ :=
  ({ s.control with
      held := none, pendingEvents := s.control.pendingEvents.map OperationEvent.anonymous },
    s.registers.nextMeasurement)

/-- What an accepted command adds to what has been staged. -/
def stageCodeword (epoch : ℕ) (x : TimingControl × ℕ) : ControlCommand → TimingControl × ℕ
  | .codeword port word =>
      let staging : Staging := { nextEvent := x.1.nextEvent, nextMeasurement := x.2 }
      let actions := x.1.profile.actions port word
      ({ x.1 with
          pendingEvents :=
            x.1.pendingEvents ++ staging.codewordEvents x.1.profile epoch 0 port word
          pendingPoint := true
          nextEvent := x.1.nextEvent + actions.length },
        x.2 + (acquireTargets actions).length)
  | _ => x

/-- A point has been submitted, so that no codeword can be staged. -/
def Sealed (s : ControlState) : Prop :=
  s.control.enqueued = true ∨ s.control.enqueueRequest ≠ none

theorem anonymous_codewordEvents (config : TimingConfig) (epoch instruction port word : ℕ)
    (g : Staging) : (g.codewordEvents config epoch instruction port word).map
      OperationEvent.anonymous = g.codewordEvents config epoch 0 port word := by
  refine List.ext_getElem (by simp [Staging.codewordEvents]) ?_
  intro i hi _
  simp [Staging.codewordEvents, OperationEvent.anonymous]

section Codeword
variable {validate : EventSpec → Except Fault Unit}
  {validateSync : Option (ℕ → Except Fault Unit)} {epoch now : ℕ} {s s' : ControlState}
  {l : List TraceEvent}

/-- A codeword is accepted unless it faults, and adds its events to what has been staged. -/
theorem content_of_execute {operation : ControlOperation} {reply : Option ℕ} {port word : ℕ}
    (hcommand : operation.command = .codeword port word)
    (h : (TimingControl.execute validate validateSync operation now epoch).Returns s reply s' l) :
    reply = some 0 ∧ ¬ Sealed s ∧ ¬ Sealed s' ∧
      s'.content = stageCodeword epoch s.content operation.command := by
  obtain ⟨-, -, hexecutes⟩ := TimingControl.execute_returns h
  cases hexecutes with
  | codeword port' word' map references events registers log command free idle mapped reserved decoded
      committed =>
    obtain ⟨rfl, rfl⟩ := ControlCommand.codeword.inj (command.symm.trans hcommand)
    have hreferences := TimingControl.prepareReservation_eq_ok reserved
    have hactions : s.control.profile.actions port' word' = map.actions := by
      simp [TimingConfig.actions, mapped]
    have hevents := TimingControl.decodeCodeword_eq_ok (g :=
      { nextEvent := s.control.nextEvent, nextMeasurement := s.registers.nextMeasurement })
      mapped hreferences decoded
    have hnext := TimingControl.nextMeasurement_of_commitReservation committed
    have hlength : references.length = (acquireTargets map.actions).length := by
      simp [hreferences, Staging.references]
    have hfree : ¬ Sealed s := by simp [Sealed, free, idle]
    refine ⟨rfl, hfree, by simpa [Sealed] using hfree, ?_⟩
    rw [hcommand]
    simp only [ControlState.content, stageCodeword, hactions, List.map_append, hevents,
      anonymous_codewordEvents, hnext, hlength]
  | synchronized target command => simp [hcommand] at command
  | blocked s₁ flushes => simp [hcommand, ControlCommand.flushes] at flushes
  | waited s₁ command => simp [hcommand] at command
  | advanced cycles s₁ command => simp [hcommand] at command
  | unread qubit s₁ command => simp [hcommand] at command
  | read qubit value s₁ command => simp [hcommand] at command
  | halted eligible s₁ command => simp [hcommand] at command

/-- Receiving does not touch what is being staged. -/
theorem content_of_receive {u : Unit} (h : (TimingControl.receive now epoch).Returns s u s' l) :
    (Sealed s → Sealed s') ∧ (¬ Sealed s → ¬ Sealed s' ∧ s'.content = s.content) := by
  obtain ⟨s₁, hreceives, hsame⟩ := TimingControl.receive_returns h
  have hcontent : s'.content = s₁.content := by
    rw [ControlState.content, hsame.control, hsame.nextMeasurement, ControlState.content]
  have hsealed : Sealed s' ↔ Sealed s₁ := by rw [Sealed, hsame.control, Sealed]
  rw [hcontent, hsealed]
  cases hreceives with
  | nothing => exact ⟨id, fun hfree => ⟨hfree, rfl⟩⟩
  | stale reply rest entries epoch_ne => exact ⟨id, fun hfree => ⟨hfree, rfl⟩⟩
  | acknowledged reply rest request entries epoch_eq outstanding label =>
    refine ⟨fun _ => .inl rfl, fun hfree => absurd ?_ hfree⟩
    exact .inr (by simp [outstanding])

end Codeword

namespace InOrderPipeline

/-! ## Runs with the timing control -/

/-- The control refuses an operation or executes it. -/
def Gates {δ : Type} (execute control : ControlCallback δ) : Prop :=
  ∀ {operation : ControlOperation} {now epoch : ℕ} {d d' : δ} {reply : Option ℕ}
    {l : List TraceEvent}, (control operation now epoch).Returns d reply d' l →
      (reply = none ∧ d' = d) ∨ (execute operation now epoch).Returns d reply d' l

/-- Messages are exchanged, or taken in. -/
inductive Exchanges (epoch : ℕ) (s : ControlState) : ControlState → Prop
  | links (links : ControlLinks) : Exchanges epoch s { s with links }
  | receive {s' : ControlState} {now : ℕ} {l : List TraceEvent}
      (h : (TimingControl.receive now epoch).Returns s () s' l) : Exchanges epoch s s'

section Run
variable {validate : EventSpec → Except Fault Unit}
  {validateSync : Option (ℕ → Except Fault Unit)} {epoch now : ℕ}

/-- How the staged point has changed by commands that have been accepted. -/
structure Adds (epoch : ℕ) (commands : List ControlCommand) (d d' : ControlState) : Prop where
  isSealed : Sealed d → Sealed d' ∧ commands = []
  content : ¬ Sealed d → ¬ Sealed d' ∧
    d'.content = commands.foldl (stageCodeword epoch) d.content

theorem Adds.refl (d : ControlState) : Adds epoch [] d d :=
  ⟨fun h => ⟨h, rfl⟩, fun h => ⟨h, rfl⟩⟩

theorem Adds.trans {first second : List ControlCommand} {d d₁ d' : ControlState}
    (h : Adds epoch first d d₁) (h' : Adds epoch second d₁ d') :
    Adds epoch (first ++ second) d d' where
  isSealed := by
    intro hd
    obtain ⟨hd₁, rfl⟩ := h.isSealed hd
    exact h'.isSealed hd₁
  content := by
    intro hd
    obtain ⟨hd₁, hcontent⟩ := h.content hd
    obtain ⟨hd', hcontent'⟩ := h'.content hd₁
    rw [List.foldl_append, ← hcontent]
    exact ⟨hd', hcontent'⟩

theorem adds_of_called {control : ControlCallback ControlState}
    {calls : List (ControlOperation × Option ℕ)} {d d' : ControlState}
    (hgates : Gates (TimingControl.execute validate validateSync) control)
    (hcalled : Called control now epoch d calls d') (honly : OnlyCodewords calls) :
    Adds epoch ((granted calls).map (·.command)) d d' := by
  induction hcalled with
  | nil => exact .refl _
  | @cons d d₁ d' operation reply l rest call after ih =>
    obtain ⟨⟨port, word, hcommand⟩, honly⟩ := List.forall_mem_cons.1 honly
    have hfirst : Adds epoch ((granted [(operation, reply)]).map (·.command)) d d₁ := by
      rcases hgates call with ⟨rfl, rfl⟩ | hexecute
      · exact .refl _
      · obtain ⟨rfl, hfree, hfree', hcontent⟩ := content_of_execute hcommand hexecute
        exact ⟨fun h => absurd h hfree, fun _ => ⟨hfree', hcontent⟩⟩
    have hgranted : granted ((operation, reply) :: rest) =
        granted [(operation, reply)] ++ granted rest := granted_append [(operation, reply)] rest
    rw [hgranted, List.map_append]
    exact hfirst.trans (ih honly)

theorem adds_of_exchange {d d' : ControlState} (h : Exchanges epoch d d') :
    Adds epoch [] d d' := by
  cases h with
  | links links => exact ⟨fun hd => ⟨hd, rfl⟩, fun hd => ⟨hd, rfl⟩⟩
  | receive h =>
    obtain ⟨hsealed, hfree⟩ := content_of_receive h
    exact ⟨fun hd => ⟨hsealed hd, rfl⟩, hfree⟩

/-- As long as only codewords are executed, what is staged follows from the accepted commands. -/
theorem adds_of_run {s s' : CpuState ControlState} {l : List CpuRecord}
    (run : CpuRun epoch (Gates (TimingControl.execute validate validateSync)) (Exchanges epoch) s l s')
    (h : Sequenced s.pipeline) (honly : OnlyCodewords (calls l)) :
    Adds epoch (grantedCommands l) s.device s'.device := by
  induction run with
  | start => exact .refl _
  | exchange fetch data device run changed ih =>
    have hadds := (ih honly).trans (adds_of_exchange changed)
    rwa [List.append_nil] at hadds
  | edge run gates step ih =>
    rw [calls_append] at honly
    obtain ⟨hbefore, hedge⟩ := List.forall_mem_append.1 honly
    rw [grantedCommands_append]
    refine (ih hbefore).trans ?_
    exact adds_of_called gates ((step_returns step).called (run.sequenced h)).1 hedge

end Run

/-! ## Programs of codewords -/

section Program
variable {δ : Type} {epoch : ℕ} {controls : ControlCallback δ → Prop} {changes : δ → δ → Prop}

/-- A run up to the edge on which the last of these words retires. -/
inductive Completes (epoch : ℕ) (controls : ControlCallback δ → Prop) (changes : δ → δ → Prop)
    (s : CpuState δ) (words : List (BitVec 32)) : List CpuRecord → CpuState δ → Prop
  | intro {l l' : List CpuRecord} {s₁ s' : CpuState δ} {control : ControlCallback δ} {now : ℕ}
      (run : CpuRun epoch controls changes s l s₁) (admitted : controls control)
      (step : (step control now epoch).Returns s₁ () s' l')
      (before : (retired l).map (·.2.word) = words.dropLast)
      (after : (retired (l ++ l')).map (·.2.word) = words) :
      Completes epoch controls changes s words (l ++ l') s'

theorem Completes.run {s s' : CpuState δ} {words : List (BitVec 32)} {l : List CpuRecord}
    (h : Completes epoch controls changes s words l s') :
    CpuRun epoch controls changes s l s' := by
  obtain ⟨run, admitted, step, -, -⟩ := h
  exact run.edge admitted step

/-- When codeword instructions have retired, exactly their codewords have been accepted, and no
register has been written. -/
theorem granted_of_completes {s s' : CpuState δ} {l : List CpuRecord}
    {program : List (BitVec 32 × List Slot)} (hne : program ≠ [])
    (hencodes : ∀ p ∈ program, Encodes p.1 p.2) (h : Sequenced s.pipeline)
    (hstart : ∀ frame ∈ s.pipeline.execute, frame.completedLanes = 0)
    (hcompletes : Completes epoch controls changes s (program.map (·.1)) l s') :
    s'.pipeline.registers = s.pipeline.registers ∧ OnlyCodewords (calls l) ∧
      grantedCommands l = commands (program.flatMap (·.2)) s.pipeline.registers := by
  obtain ⟨run, -, step, hbefore, hwords⟩ := hcompletes
  obtain ⟨first, p, rfl⟩ : ∃ first p, program = first ++ [p] :=
    ⟨_, _, (List.dropLast_append_getLast hne).symm⟩
  obtain ⟨hencodes, hlast⟩ := List.forall_mem_append.1 hencodes
  rw [List.map_append, List.map_singleton, List.dropLast_concat] at hbefore
  have hsequenced := run.sequenced h
  have hstepped := step_returns step
  rcases (issues_of_run run h hstart hencodes hbefore).proceeds hsequenced
      (hsequenced.stepped hstepped) (hstepped.proceeds hsequenced) with
    ⟨hretired, -⟩ | ⟨id, record, hretired, hnext⟩
  · rw [retired_append, hretired, List.append_nil, hbefore] at hwords
    simp at hwords
  · rw [retired_append, hretired, List.map_append, hbefore, List.map_append] at hwords
    have hword : record.word = p.1 := by simpa using hwords
    obtain ⟨hunwritten, honly, hgranted, -⟩ := hnext p.2 (hword ▸ hlast p List.mem_cons_self)
    rw [List.flatMap_append, List.flatMap_singleton]
    exact ⟨hunwritten, honly, hgranted⟩

end Program

/-- What a program of codewords leaves staged does not depend on how its codewords are packed into
instructions. -/
theorem adds_of_completes {validate : EventSpec → Except Fault Unit}
    {validateSync : Option (ℕ → Except Fault Unit)} {epoch : ℕ} {s s' : CpuState ControlState}
    {l : List CpuRecord} (program : List (BitVec 32 × List Slot)) (hne : program ≠ [])
    (hencodes : ∀ p ∈ program, Encodes p.1 p.2) (h : Sequenced s.pipeline)
    (hstart : ∀ frame ∈ s.pipeline.execute, frame.completedLanes = 0)
    (hcompletes : Completes epoch (Gates (TimingControl.execute validate validateSync))
      (Exchanges epoch) s (program.map (·.1)) l s') :
    s'.pipeline.registers = s.pipeline.registers ∧ s'.device.content =
      (commands (program.flatMap (·.2)) s.pipeline.registers).foldl (stageCodeword epoch)
        s.device.content := by
  obtain ⟨hunwritten, honly, hgranted⟩ := granted_of_completes hne hencodes h hstart hcompletes
  have hadds := adds_of_run hcompletes.run h honly
  rw [hgranted] at hadds
  have hfree : ¬ Sealed s.device := by
    intro hsealed
    have hnothing := (hadds.isSealed hsealed).2
    rw [commands, List.map_eq_nil_iff, List.flatMap_eq_nil_iff] at hnothing
    obtain ⟨p, hp⟩ := List.exists_mem_of_ne_nil program hne
    exact (hencodes p hp).ne_nil (hnothing p hp)
  exact ⟨hunwritten, (hadds.content hfree).2⟩

/-! ## The equivalence -/

/-- The operation of the scalar codeword. -/
def scalarOperation (s : Slot) (instruction : ℕ) (registers : RegisterFile) :
    Except Fault ControlOperation := do
  let d ← Rv32.decode s.scalar
  adaptQuantum d instruction (registers (d.rs1.setWidth 5)) (registers (d.rs2.setWidth 5))

theorem scalarOperation_eq (s : Slot) (instruction : ℕ) (registers : RegisterFile) :
    scalarOperation s instruction registers = .ok (s.operation instruction registers) := by
  have hnarrow : ∀ x : BitVec 5, (x.setWidth 8).setWidth 5 = x := by decide
  calc scalarOperation s instruction registers
      = adaptQuantum (Rv32.control s.scalar) instruction
          (registers ((Rv32.control s.scalar).rs1.setWidth 5))
          (registers ((Rv32.control s.scalar).rs2.setWidth 5)) := by
        rw [scalarOperation, decode_scalar]
        rfl
    _ = .ok (s.operation instruction registers) := by
        rw [rs1_scalar, rs2_scalar, hnarrow, hnarrow]
        exact adaptQuantum_scalar s instruction registers

/-- A state that the CPU can get into, whatever the control has done. -/
def Reached {δ : Type} (epoch : ℕ) (s : CpuState δ) : Prop :=
  ∃ issue clock entry l, ∃ s₀ : CpuState δ, s₀.pipeline = make issue clock entry ∧
    CpuRun epoch (fun _ => True) (fun _ _ => True) s₀ l s

theorem Reached.sequenced {δ : Type} {epoch : ℕ} {s : CpuState δ} (h : Reached epoch s) :
    Sequenced s.pipeline := by
  obtain ⟨issue, clock, entry, l, s₀, hmake, run⟩ := h
  refine run.sequenced ?_
  rw [hmake]
  exact sequenced_make issue clock entry

section Equivalence
variable {δ : Type} {epoch : ℕ} {s s' : CpuState δ} {l : List CpuRecord} {frame : Frame}

theorem bundle_lanes {operations : List ControlOperation} (h : Reached epoch s)
    (hexecute : s.pipeline.execute = some frame) (hsound : frame.fault = none)
    (hstart : frame.completedLanes = 0)
    (hdecode : decodeCwBundle frame.word frame.id s.pipeline.registers = .ok operations)
    (run : CpuRun epoch (fun _ => True) (fun _ _ => True) s l s') :
    ∃ rest, Lanes operations (callsOf frame.id l) rest ∧
      if rest = [] then
        frame.id ∉ s'.pipeline.inFlight ∧ ∃ record, retirementsOf frame.id l = [record] ∧
          record.word = frame.word ∧ record.rd = 0 ∧ record.registers = s.pipeline.registers
      else
        retirementsOf frame.id l = [] ∧ s'.pipeline.registers = s.pipeline.registers ∧
          ∃ frame' ∈ s'.pipeline.execute, frame'.id = frame.id := by
  have hvalid : frame.word &&& 0x8000007f = Contract.bundleOpcode := by
    by_contra hne
    rw [decodeCwBundle_eq_error _ _ hne] at hdecode
    cases hdecode
  obtain ⟨first, second, hword⟩ := (exists_bundleWord_iff _).2 hvalid
  rw [← hword, decodeCwBundle_eq] at hdecode
  obtain rfl := Except.ok.inj hdecode
  have hencodes : Encodes frame.word [first, second] := hword ▸ .bundle first second
  obtain ⟨d, hdecoded, hwrites, hcontrols⟩ :=
    controls_of_encodes h.sequenced hexecute hsound hstart hencodes
  obtain ⟨rest, hlanes, hhanded⟩ :=
    lanes_of_run run h.sequenced hexecute hdecoded hcontrols (by simp)
  refine ⟨rest, hlanes, ?_⟩
  cases hhanded with
  | underway left only unretired registers execute same =>
    rw [if_neg left]
    refine ⟨?_, registers, _, execute, (congrArg Frame.id same :)⟩
    rw [retirementsOf, unretired]
    rfl
  | done gone bounded retired word rd registers =>
    rw [if_pos rfl]
    rw [written_eq hwrites h.sequenced.zero] at registers
    rw [hwrites] at rd
    exact ⟨gone, _, retired, word, rd, registers⟩

end Equivalence

/-- A bundle is decoded into the operations of its two scalar words, and no other word is a bundle.
Whatever the control accepts and refuses from edge to edge, it is given the first operation until it
accepts that, then the second, and with that the bundle retires, once and without having written a
register. What it leaves staged and in the registers is what the two scalar instructions leave. -/
theorem bundle_equals_scalars :
    (∀ (word : BitVec 32) (instruction : ℕ) (registers : RegisterFile),
      if word &&& 0x8000007f = Contract.bundleOpcode then
        ∃ first second o₁ o₂, bundleWord first second = word ∧
          scalarOperation first instruction registers = .ok o₁ ∧
          scalarOperation second instruction registers = .ok o₂ ∧
          decodeCwBundle word instruction registers = .ok [o₁, o₂]
      else ∃ message, decodeCwBundle word instruction registers =
        .error ⟨.illegalInstruction, message⟩) ∧
    (∀ {δ : Type} {epoch : ℕ} {s s' : CpuState δ} {l : List CpuRecord} {frame : Frame}
      {operations : List ControlOperation}, Reached epoch s → s.pipeline.execute = some frame →
      frame.fault = none → frame.completedLanes = 0 →
      decodeCwBundle frame.word frame.id s.pipeline.registers = .ok operations →
      CpuRun epoch (fun _ => True) (fun _ _ => True) s l s' →
      ∃ rest, Lanes operations (callsOf frame.id l) rest ∧
        if rest = [] then
          frame.id ∉ s'.pipeline.inFlight ∧ ∃ record, retirementsOf frame.id l = [record] ∧
            record.word = frame.word ∧ record.rd = 0 ∧ record.registers = s.pipeline.registers
        else
          retirementsOf frame.id l = [] ∧ s'.pipeline.registers = s.pipeline.registers ∧
            ∃ frame' ∈ s'.pipeline.execute, frame'.id = frame.id) ∧
    ∀ {validate : EventSpec → Except Fault Unit} {validateSync : Option (ℕ → Except Fault Unit)}
      {epoch : ℕ} {s s' t t' : CpuState ControlState} {l l' : List CpuRecord} {first second : Slot},
      Reached epoch s → Reached epoch t → (∀ frame ∈ s.pipeline.execute, frame.completedLanes = 0) →
      (∀ frame ∈ t.pipeline.execute, frame.completedLanes = 0) →
      s.pipeline.registers = t.pipeline.registers → s.device.content = t.device.content →
      Completes epoch (Gates (TimingControl.execute validate validateSync)) (Exchanges epoch) s
        [bundleWord first second] l s' →
      Completes epoch (Gates (TimingControl.execute validate validateSync)) (Exchanges epoch) t
        [first.scalar, second.scalar] l' t' →
      s'.device.content = t'.device.content ∧ s'.pipeline.registers = t'.pipeline.registers := by
  refine ⟨?_, ?_, ?_⟩
  · intro word instruction registers
    split
    · rename_i hvalid
      obtain ⟨first, second, rfl⟩ := (exists_bundleWord_iff _).2 hvalid
      exact ⟨first, second, _, _, rfl, scalarOperation_eq first instruction registers,
        scalarOperation_eq second instruction registers,
        decodeCwBundle_eq first second instruction registers⟩
    · rename_i hinvalid
      exact ⟨_, decodeCwBundle_eq_error instruction registers hinvalid⟩
  · intro δ epoch s s' l frame operations h hexecute hsound hstart hdecode run
    exact bundle_lanes h hexecute hsound hstart hdecode run
  · intro validate validateSync epoch s s' t t' l l' first second hs ht hstart hstart' hregisters
      hcontent hbundle hscalars
    obtain ⟨hunwritten, hadds⟩ := adds_of_completes
      [(bundleWord first second, [first, second])] (by simp)
      (by simpa using Encodes.bundle first second) hs.sequenced hstart hbundle
    obtain ⟨hunwritten', hadds'⟩ := adds_of_completes
      [(first.scalar, [first]), (second.scalar, [second])] (by simp)
      (by simpa using ⟨Encodes.scalar first, Encodes.scalar second⟩) ht.sequenced hstart' hscalars
    rw [List.flatMap_singleton] at hadds
    rw [List.flatMap_cons, List.flatMap_singleton, List.singleton_append] at hadds'
    refine ⟨?_, hunwritten.trans (hregisters.trans hunwritten'.symm)⟩
    rw [hadds, hadds', hregisters, hcontent]

/-! A run with a bundle, and one with its two codewords. -/

theorem CpuRun.mono {δ : Type} {epoch : ℕ} {controls controls' : ControlCallback δ → Prop}
    {changes changes' : δ → δ → Prop} {s s' : CpuState δ} {l : List CpuRecord}
    (run : CpuRun epoch controls changes s l s') (hcontrols : ∀ c, controls c → controls' c)
    (hchanges : ∀ d d', changes d d' → changes' d d') : CpuRun epoch controls' changes' s l s' := by
  induction run with
  | start => exact .start
  | edge _ admitted step ih => exact ih.edge (hcontrols _ admitted) step
  | exchange fetch data device _ changed ih => exact ih.exchange fetch data device (hchanges _ _ changed)

/-- What happens to the CPU: an edge, or a change of the port for instructions. -/
inductive CpuInput
  | edge (now : ℕ)
  | fetch (f : MemoryPort → MemoryPort)

/-- The timing control, with every action and target accepted. -/
def openControl : ControlCallback ControlState := TimingControl.execute (fun _ => pure ()) none

/-- Evaluate a run with the timing control. -/
def drive (epoch : ℕ) (s : CpuState ControlState) :
    List CpuInput → Except Fault (List CpuRecord × CpuState ControlState)
  | [] => pure ([], s)
  | .edge now :: rest => do
      let outcome := step openControl now epoch s
      outcome.result
      let (l, s') ← drive epoch outcome.state rest
      pure (outcome.log ++ l, s')
  | .fetch f :: rest => drive epoch { s with fetch := f s.fetch } rest

theorem gates_self {δ : Type} (execute : ControlCallback δ) : Gates execute execute :=
  fun h => .inr h

theorem run_of_drive {epoch : ℕ} {s₀ s s' : CpuState ControlState} {l₀ l : List CpuRecord}
    {inputs : List CpuInput}
    (run : CpuRun epoch (Gates openControl) (Exchanges epoch) s₀ l₀ s)
    (h : drive epoch s inputs = .ok (l, s')) :
    CpuRun epoch (Gates openControl) (Exchanges epoch) s₀ (l₀ ++ l) s' := by
  induction inputs generalizing s l₀ l with
  | nil =>
    obtain ⟨rfl, rfl⟩ := Prod.mk.inj (Except.pure_eq_ok_iff.1 h)
    rwa [List.append_nil]
  | cons input rest ih =>
    cases input with
    | fetch f => exact ih (run.exchange (f s.fetch) s.data s.device (.links s.device.links)) h
    | edge now =>
      simp only [drive, Except.bind_eq_ok_iff, Except.pure_eq_ok_iff, Prod.mk.injEq] at h
      obtain ⟨_, hresult, ⟨l', s₁⟩, hrest, rfl, rfl⟩ := h
      have hstep := Proc.returns_of_isSome (x := step openControl now epoch) (s := s)
        (by rw [hresult]; rfl)
      rw [← List.append_assoc]
      exact ih (run.edge (gates_self openControl) hstep) hrest

theorem run_of_start {epoch : ℕ} {s : CpuState ControlState} {inputs : List CpuInput}
    {x : List CpuRecord × CpuState ControlState} (h : drive epoch s inputs = .ok x) :
    CpuRun epoch (Gates openControl) (Exchanges epoch) s x.1 x.2 := by
  have run := run_of_drive CpuRun.start h
  rwa [List.nil_append] at run

/-- A CPU with a timing control that takes two gates on one port. -/
def probeStart (issue : ControlIssue) : CpuState ControlState where
  pipeline := make issue {} 0
  fetch :=
    { requests := { capacity := 1, receiver := {} }, responses := { capacity := 1, receiver := {} } }
  data :=
    { requests := { capacity := 1, receiver := {} }, responses := { capacity := 1, receiver := {} } }
  device :=
    { control := { profile := { oneGateConfig.timing with firingWidth := 2 } }
      registers := MeasurementRegisters.make { qubits := 2, resultCapacity := 8, fastFeedback := true }
      links := TimingControl.oneGateLinks }

/-- The memory answers a fetch. -/
def answer (word : BitVec 32) (id : ℕ) : CpuInput :=
  .fetch fun port =>
    { requests := port.requests.reset
      responses :=
        { port.responses with
          entries :=
            [{ published := 0, eligible := 0, epoch := 1, value := { id, value := word.toNat } }] } }

def probeSlot : Slot := { port := 0, codeword := 1, mode := 3 }

/-- A bundle comes into the stage that executes. -/
def bundleInputs : List CpuInput :=
  [.edge 0, answer (bundleWord probeSlot probeSlot) 1, .edge 1, .edge 2]

/-- Two codewords come into the pipeline, and the first of them is executed. -/
def scalarInputs : List CpuInput :=
  [.edge 0, answer probeSlot.scalar 1, .edge 1, answer probeSlot.scalar 2, .edge 2, .edge 3]

theorem isSome_bundle : (drive 1 (probeStart .dualCodeword) bundleInputs).toOption.isSome = true := by
  decide +kernel

theorem isSome_scalars : (drive 1 (probeStart .scalar) scalarInputs).toOption.isSome = true := by
  decide +kernel

/-- The CPU before the edge on which the bundle retires. -/
def probeBundle : List CpuRecord × CpuState ControlState :=
  (drive 1 (probeStart .dualCodeword) bundleInputs).toOption.get isSome_bundle

/-- The CPU before the edge on which the second codeword retires. -/
def probeScalars : List CpuRecord × CpuState ControlState :=
  (drive 1 (probeStart .scalar) scalarInputs).toOption.get isSome_scalars

/-- The edge after a run. -/
def lastEdge (x : List CpuRecord × CpuState ControlState) (now : ℕ) :
    List CpuRecord × CpuState ControlState :=
  (x.1 ++ (step openControl now 1 x.2).log, (step openControl now 1 x.2).state)

theorem returns_lastEdge {x : List CpuRecord × CpuState ControlState} {now : ℕ}
    (hlast : (step openControl now 1 x.2).result.toOption.isSome = true) :
    (step openControl now 1).Returns x.2 () (lastEdge x now).2 (step openControl now 1 x.2).log :=
  Proc.returns_of_isSome hlast

theorem completes_of_drive {s : CpuState ControlState} {inputs : List CpuInput} {now : ℕ}
    {words : List (BitVec 32)} {x : List CpuRecord × CpuState ControlState}
    (h : drive 1 s inputs = .ok x)
    (hlast : (step openControl now 1 x.2).result.toOption.isSome = true)
    (hbefore : (retired x.1).map (·.2.word) = words.dropLast)
    (hafter : (retired (lastEdge x now).1).map (·.2.word) = words) :
    Completes 1 (Gates openControl) (Exchanges 1) s words (lastEdge x now).1 (lastEdge x now).2 :=
  .intro (run_of_start h) (gates_self openControl) (returns_lastEdge hlast) hbefore hafter

theorem completes_bundle : Completes 1 (Gates openControl) (Exchanges 1)
    (probeStart .dualCodeword) [bundleWord probeSlot probeSlot] (lastEdge probeBundle 3).1
    (lastEdge probeBundle 3).2 :=
  completes_of_drive (Except.eq_ok_get isSome_bundle) (by decide +kernel) (by decide +kernel)
    (by decide +kernel)

theorem completes_scalars : Completes 1 (Gates openControl) (Exchanges 1) (probeStart .scalar)
    [probeSlot.scalar, probeSlot.scalar] (lastEdge probeScalars 4).1 (lastEdge probeScalars 4).2 :=
  completes_of_drive (Except.eq_ok_get isSome_scalars) (by decide +kernel) (by decide +kernel)
    (by decide +kernel)

theorem isSome_probeFrame : probeBundle.2.pipeline.execute.isSome = true := by decide +kernel

/-- The bundle in the stage that executes. -/
def probeFrame : Frame := probeBundle.2.pipeline.execute.get isSome_probeFrame

theorem reached_probeStart (issue : ControlIssue) : Reached 1 (probeStart issue) :=
  ⟨issue, {}, 0, [], probeStart issue, rfl, .start⟩

theorem reached_probeBundle : Reached 1 probeBundle.2 :=
  ⟨.dualCodeword, {}, 0, _, probeStart .dualCodeword, rfl,
    (run_of_start (Except.eq_ok_get isSome_bundle)).mono (fun _ _ => trivial) fun _ _ _ => trivial⟩

theorem probeFrame_spec : probeFrame.fault = none ∧ probeFrame.completedLanes = 0 ∧
    probeFrame.word = bundleWord probeSlot probeSlot := by
  decide +kernel

theorem execute_probeBundle : probeBundle.2.pipeline.execute = some probeFrame :=
  (Option.some_get isSome_probeFrame).symm

theorem isSome_step_probeBundle :
    (step openControl 3 1 probeBundle.2).result.toOption.isSome = true := by
  decide +kernel

theorem run_lastEdge {x : List CpuRecord × CpuState ControlState} {now : ℕ}
    (hlast : (step openControl now 1 x.2).result.toOption.isSome = true) :
    CpuRun 1 (fun _ => True) (fun _ _ => True) x.2 (step openControl now 1 x.2).log
      (lastEdge x now).2 := by
  have run₀ : CpuRun 1 (fun _ => True) (fun _ _ => True) x.2 [] x.2 := .start
  have run := run₀.edge trivial (returns_lastEdge hlast)
  rwa [List.nil_append] at run

theorem bundle_equals_scalars_probe :
    (∃ first second o₁ o₂, bundleWord first second = 0x6106102b ∧
      scalarOperation first 1 (fun _ => 0) = .ok o₁ ∧
      scalarOperation second 1 (fun _ => 0) = .ok o₂ ∧
      decodeCwBundle 0x6106102b 1 (fun _ => 0) = .ok [o₁, o₂]) ∧
    (∃ rest, Lanes [probeSlot.operation probeFrame.id probeBundle.2.pipeline.registers,
        probeSlot.operation probeFrame.id probeBundle.2.pipeline.registers]
      (callsOf probeFrame.id (step openControl 3 1 probeBundle.2).log) rest) ∧
    (lastEdge probeBundle 3).2.device.control.pendingEvents.length = 2 ∧
    (lastEdge probeBundle 3).2.device.content = (lastEdge probeScalars 4).2.device.content ∧
    (lastEdge probeBundle 3).2.pipeline.registers =
      (lastEdge probeScalars 4).2.pipeline.registers := by
  refine ⟨?_, ?_, by decide +kernel, ?_⟩
  · have hbundle := bundle_equals_scalars.1 0x6106102b 1 fun _ => 0
    rwa [if_pos (by decide)] at hbundle
  · obtain ⟨hsound, hstart, hword⟩ := probeFrame_spec
    have hdecode := decodeCwBundle_eq probeSlot probeSlot probeFrame.id
      probeBundle.2.pipeline.registers
    rw [← hword] at hdecode
    obtain ⟨rest, hrest, -⟩ := bundle_equals_scalars.2.1 reached_probeBundle execute_probeBundle
      hsound hstart hdecode (run_lastEdge isSome_step_probeBundle)
    exact ⟨rest, hrest⟩
  · exact bundle_equals_scalars.2.2 (reached_probeStart .dualCodeword) (reached_probeStart .scalar)
      (by simp [probeStart, make]) (by simp [probeStart, make]) rfl rfl completes_bundle
      completes_scalars

end InOrderPipeline
end Qsbit

import Qsbit.Cpu.Bundle
import Qsbit.Cpu.Step

/-!
# Runs of the CPU

Instructions move through the pipeline in the order in which they have been fetched, under
identities that increase, so that one that has left it does not come back. What is executed was
decoded with the registers as they still are, since nothing is written before it retires.

## Main definitions

* `inFlight` — the identities of the instructions in the pipeline, from the oldest on.
* `Flows` — instructions leave the pipeline, and the next one enters it.
* `Sequenced` — the invariant of a run.
* `CpuRun` — edges of the CPU, with anything else happening in between.
-/
namespace Qsbit
namespace InOrderPipeline

/-- The instructions in the pipeline, from the oldest on. -/
def inFlight (p : InOrderPipeline) : List ℕ :=
  (p.execute.map Frame.id).toList ++ (p.decode.map Frame.id).toList ++
    (p.fetched.map Frame.id).toList ++ (p.fetchRequest.map Fetch.id).toList

/-- Instructions may have left the pipeline, and the next one may have entered it. -/
inductive Flows (p p' : InOrderPipeline) : Prop
  | intro (old new : List ℕ) (sublist : old.Sublist p.inFlight) (inFlight : p'.inFlight = old ++ new)
      (next : p'.nextFetch = p.nextFetch + new.length) (fresh : ∀ id ∈ new, id = p.nextFetch)
      (single : new.length ≤ 1)

/-- Identities increase from the oldest instruction on. -/
structure Numbered (p : InOrderPipeline) : Prop where
  increasing : p.inFlight.Pairwise (· < ·)
  bounded : ∀ id ∈ p.inFlight, id < p.nextFetch

section Flows
variable {p q r : InOrderPipeline} {id : ℕ}

theorem Flows.of_sublist (h : q.inFlight.Sublist p.inFlight) (hnext : q.nextFetch = p.nextFetch) :
    Flows p q :=
  .intro q.inFlight [] h (List.append_nil _).symm hnext (by simp) (by simp)

theorem Flows.refl (p : InOrderPipeline) : Flows p p := .of_sublist (List.Sublist.refl _) rfl

/-- Instructions that leave first do not matter to what enters. -/
theorem Flows.of_sublist_left (h : q.inFlight.Sublist p.inFlight)
    (hnext : q.nextFetch = p.nextFetch) (hflows : Flows q r) : Flows p r := by
  obtain ⟨old, new, sublist, inFlight, next, fresh, single⟩ := hflows
  rw [hnext] at next fresh
  exact .intro old new (sublist.trans h) inFlight next fresh single

theorem Numbered.flows (h : Numbered p) (hflows : Flows p q) : Numbered q := by
  obtain ⟨old, new, sublist, inFlight, next, fresh, single⟩ := hflows
  have hold : ∀ id ∈ old, id < p.nextFetch := fun id hid => h.bounded id (sublist.subset hid)
  constructor
  · rw [inFlight, List.pairwise_append]
    refine ⟨h.increasing.sublist sublist, ?_, ?_⟩
    · match new, single with
      | [], _ => exact .nil
      | [_], _ => exact List.pairwise_singleton _ _
    · intro id hid id' hid'
      rw [fresh id' hid']
      exact hold id hid
  · intro id hid
    rw [inFlight, List.mem_append] at hid
    rcases hid with hid | hid
    · have := hold id hid
      omega
    · have hpos := List.length_pos_of_mem hid
      rw [fresh id hid]
      omega

/-- An instruction that has left the pipeline does not come back. -/
theorem Flows.gone (hflows : Flows p q) (hid : id ∉ p.inFlight) (hlt : id < p.nextFetch) :
    id ∉ q.inFlight ∧ id < q.nextFetch := by
  obtain ⟨old, new, sublist, inFlight, next, fresh, single⟩ := hflows
  constructor
  · rw [inFlight, List.mem_append]
    rintro (hold | hnew)
    · exact hid (sublist.subset hold)
    · exact absurd (fresh id hnew) (by omega)
  · omega

/-! ### One stage after the other -/

theorem Taken.sublist (h : Taken p q) :
    q.inFlight.Sublist p.inFlight ∧ q.nextFetch = p.nextFetch := by
  cases h with
  | nothing => exact ⟨List.Sublist.refl _, rfl⟩
  | discarded => exact ⟨by simp [inFlight], rfl⟩
  | latched request response pending empty =>
    exact ⟨by simp [inFlight, pending, empty, Fetch.frame], rfl⟩

theorem Flushed.sublist {flushes : Bool} (h : Flushed p flushes q) :
    q.inFlight.Sublist p.inFlight ∧ q.nextFetch = p.nextFetch := by
  cases h with
  | kept => exact ⟨List.Sublist.refl _, rfl⟩
  | discarded => exact ⟨by simp [inFlight], rfl⟩

theorem id_issued (issue : ControlIssue) (registers : RegisterFile) (frame : Frame) :
    (frame.issued issue registers).id = frame.id := by
  simp only [Frame.issued, decodeWord]
  split
  · rfl
  · split
    · rename_i hdecoded
      split at hdecoded
      · simp only [Except.bind_eq_ok_iff, Except.pure_eq_ok_iff] at hdecoded
        obtain ⟨_, -, rfl⟩ := hdecoded
        rfl
      · simp only [Except.bind_eq_ok_iff, Except.pure_eq_ok_iff] at hdecoded
        obtain ⟨_, -, rfl⟩ := hdecoded
        rfl
    · rfl

theorem inFlight_advance (p : InOrderPipeline) : p.advance.inFlight = p.inFlight := by
  cases hexecute : p.execute <;> cases hdecode : p.decode <;>
    simp [inFlight, advance, hexecute, hdecode, id_issued]

theorem Refilled.flows (h : Refilled p q) : Flows p q := by
  cases h with
  | nothing => exact .refl p
  | requested idle empty =>
    refine .intro p.inFlight [p.nextFetch] (List.Sublist.refl _) ?_ rfl (by simp) (by simp)
    simp [inFlight, idle]

theorem nextFetch_advance (p : InOrderPipeline) : p.advance.nextFetch = p.nextFetch := by
  simp only [advance]
  split <;> split <;> rfl

theorem execute_advance (p : InOrderPipeline) : p.advance.execute =
    if p.execute.isNone then p.decode.map (·.issued p.issue p.registers) else p.execute := by
  cases hexecute : p.execute <;> cases hdecode : p.decode <;> simp [advance, hexecute, hdecode]

theorem Moved.flows {flushes : Bool} (h : Moved flushes p q) : Flows p q := by
  cases h with
  | halted trace flushed => exact .of_sublist flushed.sublist.1 flushed.sublist.2
  | @advanced q r trace flushed refilled =>
    have hadvanced : q.advance.inFlight.Sublist p.inFlight := by
      rw [inFlight_advance]
      exact flushed.sublist.1
    have hflows := Flows.of_sublist_left hadvanced
      ((nextFetch_advance q).trans flushed.sublist.2) refilled.flows
    obtain ⟨old, new, sublist, inFlight, next, fresh, single⟩ := hflows
    exact .intro old new sublist inFlight next fresh single

end Flows

/-! ## What is executed -/

/-- A frame as it has been fetched. -/
def Frame.Raw (frame : Frame) : Prop :=
  frame = { id := frame.id, pc := frame.pc, word := frame.word, fault := frame.fault }

/-- The operations of a word that is decoded belong to its frame. -/
theorem decodeWord_returns {issue : ControlIssue} {registers : RegisterFile} {raw frame : Frame}
    (hraw : raw.Raw) (h : decodeWord issue registers raw = .ok frame) :
    frame.erase = frame ∧ frame.word = raw.word ∧
      ∀ operation ∈ frame.operations, operation.instruction = raw.id := by
  rw [Frame.Raw] at hraw
  rw [decodeWord] at h
  split at h
  · simp only [Except.bind_eq_ok_iff, Except.pure_eq_ok_iff] at h
    obtain ⟨operations, hdecode, rfl⟩ := h
    have hvalid : raw.word &&& 0x8000007f = Contract.bundleOpcode := by
      by_contra hne
      rw [decodeCwBundle_eq_error _ _ hne] at hdecode
      cases hdecode
    obtain ⟨first, second, hword⟩ := (exists_bundleWord_iff _).2 hvalid
    rw [← hword, decodeCwBundle_eq] at hdecode
    obtain rfl := Except.ok.inj hdecode
    rw [hraw]
    refine ⟨rfl, rfl, ?_⟩
    simp [Slot.operation]
  · simp only [Except.bind_eq_ok_iff, Except.pure_eq_ok_iff] at h
    obtain ⟨d, -, rfl⟩ := h
    rw [hraw]
    exact ⟨rfl, rfl, by simp⟩

theorem issued_returns {issue : ControlIssue} {registers : RegisterFile} {raw : Frame}
    (hraw : raw.Raw) :
    (raw.issued issue registers).erase = raw.issued issue registers ∧
      (raw.issued issue registers).word = raw.word ∧
      ∀ operation ∈ (raw.issued issue registers).operations, operation.instruction = raw.id := by
  have hself : raw.erase = raw ∧ raw.operations = [] := by
    rw [hraw]
    exact ⟨rfl, rfl⟩
  rw [Frame.issued]
  split
  · exact ⟨hself.1, rfl, by simp [hself.2]⟩
  · split
    · exact decodeWord_returns hraw ‹_›
    · refine ⟨?_, rfl, by simp [hself.2]⟩
      rw [hraw]
      rfl

/-- The invariant of a run. -/
structure Sequenced (p : InOrderPipeline) : Prop where
  numbered : Numbered p
  fetched : ∀ frame ∈ p.fetched, frame.Raw
  decode : ∀ frame ∈ p.decode, frame.Raw
  issued : ∀ frame ∈ p.execute, ∃ raw : Frame, raw.Raw ∧
    frame.erase = raw.issued p.issue p.registers
  zero : p.registers 0 = 0

section Sequenced
variable {δ : Type} {control : ControlCallback δ} {now epoch : ℕ} {p q : InOrderPipeline}

/-- An instruction calls the control under its own identity. -/
theorem Sequenced.operations (h : Sequenced p) {frame : Frame} (hframe : frame ∈ p.execute) :
    ∀ operation ∈ frame.operations, operation.instruction = frame.id := by
  obtain ⟨raw, hraw, herase⟩ := h.issued frame hframe
  have hid : frame.id = raw.id :=
    (congrArg Frame.id herase).trans (id_issued p.issue p.registers raw)
  have hoperations : frame.operations = (raw.issued p.issue p.registers).operations :=
    (congrArg Frame.operations herase :)
  rw [hid, hoperations]
  exact (issued_returns hraw).2.2

theorem Sequenced.taken (h : Sequenced p) (htaken : Taken p q) : Sequenced q := by
  have hnumbered := h.numbered.flows (.of_sublist htaken.sublist.1 htaken.sublist.2)
  cases htaken with
  | nothing => exact h
  | discarded => exact ⟨hnumbered, h.fetched, h.decode, h.issued, h.zero⟩
  | latched request response pending empty =>
    refine ⟨hnumbered, ?_, h.decode, h.issued, h.zero⟩
    rintro frame hframe
    obtain rfl := Option.some.inj hframe
    rfl

theorem inFlight_of_identity (hidentity : q.identity = p.identity) :
    q.inFlight = p.inFlight ∧ q.nextFetch = p.nextFetch := by
  have hfetched : q.fetched = p.fetched := (congrArg InOrderPipeline.fetched hidentity :)
  have hdecode : q.decode = p.decode := (congrArg InOrderPipeline.decode hidentity :)
  have hrequest : q.fetchRequest = p.fetchRequest :=
    (congrArg InOrderPipeline.fetchRequest hidentity :)
  have hexecute : q.execute.map Frame.erase = p.execute.map Frame.erase :=
    congrArg InOrderPipeline.execute hidentity
  have hids : q.execute.map Frame.id = p.execute.map Frame.id := by
    have := congrArg (Option.map Frame.id) hexecute
    simpa [Function.comp_def, Frame.erase] using this
  refine ⟨?_, (congrArg InOrderPipeline.nextFetch hidentity :)⟩
  rw [inFlight, hids, hdecode, hfetched, hrequest, inFlight]

/-- Progress of the instruction that is executed keeps the invariant. -/
theorem Sequenced.of_identity (h : Sequenced p) (hidentity : q.identity = p.identity) :
    Sequenced q := by
  have hregisters : q.registers = p.registers := (congrArg InOrderPipeline.registers hidentity :)
  have hissue : q.issue = p.issue := (congrArg InOrderPipeline.issue hidentity :)
  have hfetched : q.fetched = p.fetched := (congrArg InOrderPipeline.fetched hidentity :)
  have hdecode : q.decode = p.decode := (congrArg InOrderPipeline.decode hidentity :)
  have hexecute : q.execute.map Frame.erase = p.execute.map Frame.erase :=
    congrArg InOrderPipeline.execute hidentity
  obtain ⟨hflight, hnext⟩ := inFlight_of_identity hidentity
  constructor
  · exact h.numbered.flows (.of_sublist (hflight ▸ List.Sublist.refl _) hnext)
  · rw [hfetched]
    exact h.fetched
  · rw [hdecode]
    exact h.decode
  · rintro frame hframe
    have hsome : p.execute.map Frame.erase = some frame.erase := by
      rw [← hexecute, Option.mem_def.1 hframe]
      rfl
    obtain ⟨frame', hframe', herase⟩ := Option.map_eq_some_iff.1 hsome
    obtain ⟨raw, hraw, heq⟩ := h.issued frame' hframe'
    rw [hissue, hregisters]
    exact ⟨raw, hraw, herase ▸ heq⟩
  · rw [hregisters]
    exact h.zero

theorem Sequenced.retiredWith (h : Sequenced p) (d : Rv32.Decoded) (completion : Completion) :
    Sequenced (p.retiredWith d completion) where
  numbered := by
    refine h.numbered.flows (.of_sublist ?_ rfl)
    simp [inFlight, InOrderPipeline.retiredWith]
  fetched := h.fetched
  decode := h.decode
  issued := by simp [InOrderPipeline.retiredWith]
  zero := by simp [InOrderPipeline.retiredWith, written]

theorem Sequenced.executed {s s' : CpuState δ} {flushes : Bool} {l : List CpuRecord}
    (h : Sequenced s.pipeline) (hexecuted : Executed control now epoch s flushes s' l) :
    Sequenced s'.pipeline := by
  cases hexecuted with
  | idle empty => exact h
  | stalled execute sound decoded work =>
    exact h.of_identity (executeFrame_works (h.operations execute) work).kept
  | completed execute sound decoded work =>
    exact (h.of_identity (executeFrame_works (h.operations execute) work).kept).retiredWith _ _

theorem Sequenced.flushed {flushes : Bool} (h : Sequenced p) (hflushed : Flushed p flushes q) :
    Sequenced q := by
  have hnumbered := h.numbered.flows (.of_sublist hflushed.sublist.1 hflushed.sublist.2)
  cases hflushed with
  | kept => exact h
  | discarded => exact ⟨hnumbered, by simp, by simp, h.issued, h.zero⟩

theorem Sequenced.advance (h : Sequenced p) : Sequenced p.advance := by
  have hnumbered : Numbered p.advance := h.numbered.flows
    (.of_sublist (inFlight_advance p ▸ List.Sublist.refl _) (nextFetch_advance p))
  cases hexecute : p.execute with
  | some frame =>
    cases hdecode : p.decode with
    | some next =>
      have heq : p.advance = p := by simp [InOrderPipeline.advance, hexecute, hdecode]
      exact heq.symm ▸ h
    | none =>
      have heq : p.advance = { p with decode := p.fetched, fetched := none } := by
        simp [InOrderPipeline.advance, hexecute, hdecode]
      rw [heq] at hnumbered ⊢
      exact ⟨hnumbered, by simp, h.fetched, h.issued, h.zero⟩
  | none =>
    have heq : p.advance =
        { p with
          decode := p.fetched, fetched := none
          execute := p.decode.map (·.issued p.issue p.registers) } := by
      simp [InOrderPipeline.advance, hexecute]
    rw [heq] at hnumbered ⊢
    refine ⟨hnumbered, by simp, h.fetched, ?_, h.zero⟩
    intro frame hframe
    obtain ⟨raw, hmem, rfl⟩ := Option.map_eq_some_iff.1 hframe
    have hraw := h.decode raw hmem
    exact ⟨raw, hraw, (issued_returns hraw).1⟩

theorem Sequenced.refilled (h : Sequenced p) (hrefilled : Refilled p q) : Sequenced q := by
  have hnumbered := h.numbered.flows hrefilled.flows
  cases hrefilled with
  | nothing => exact h
  | requested idle empty => exact ⟨hnumbered, h.fetched, h.decode, h.issued, h.zero⟩

theorem Sequenced.moved {flushes : Bool} (h : Sequenced p) (hmoved : Moved flushes p q) :
    Sequenced q := by
  cases hmoved with
  | halted trace flushed =>
    have hflushed := h.flushed flushed
    exact ⟨⟨hflushed.numbered.increasing, hflushed.numbered.bounded⟩, hflushed.fetched,
      hflushed.decode, hflushed.issued, hflushed.zero⟩
  | advanced trace flushed refilled =>
    have hrefilled := (h.flushed flushed).advance.refilled refilled
    exact ⟨⟨hrefilled.numbered.increasing, hrefilled.numbered.bounded⟩, hrefilled.fetched,
      hrefilled.decode, hrefilled.issued, hrefilled.zero⟩

theorem Sequenced.stepped {s s' : CpuState δ} {l : List CpuRecord} (h : Sequenced s.pipeline)
    (hstepped : Stepped control now epoch s s' l) : Sequenced s'.pipeline := by
  cases hstepped with
  | halted trace taken pipeline =>
    have htaken := h.taken taken
    rw [pipeline]
    exact ⟨⟨htaken.numbered.increasing, htaken.numbered.bounded⟩, htaken.fetched, htaken.decode,
      htaken.issued, htaken.zero⟩
  | ran taken executed moved =>
    have htaken := h.taken taken
    exact (htaken.executed executed).moved moved

/-! ## Where the instructions are after an edge -/

theorem Executed.sublist {s s' : CpuState δ} {flushes : Bool} {l : List CpuRecord}
    (hexecuted : Executed control now epoch s flushes s' l) (h : Sequenced s.pipeline) :
    s'.pipeline.inFlight.Sublist s.pipeline.inFlight ∧
      s'.pipeline.nextFetch = s.pipeline.nextFetch := by
  cases hexecuted with
  | idle empty => exact ⟨List.Sublist.refl _, rfl⟩
  | stalled execute sound decoded work =>
    obtain ⟨hflight, hnext⟩ :=
      inFlight_of_identity (executeFrame_works (h.operations execute) work).kept
    exact ⟨hflight ▸ List.Sublist.refl _, hnext⟩
  | completed execute sound decoded work =>
    obtain ⟨hflight, hnext⟩ :=
      inFlight_of_identity (executeFrame_works (h.operations execute) work).kept
    refine ⟨?_, hnext⟩
    rw [← hflight]
    simp [inFlight, InOrderPipeline.retiredWith]

theorem Stepped.flows {s s' : CpuState δ} {l : List CpuRecord}
    (hstepped : Stepped control now epoch s s' l) (h : Sequenced s.pipeline) :
    Flows s.pipeline s'.pipeline := by
  cases hstepped with
  | halted trace taken pipeline =>
    rw [pipeline]
    exact .of_sublist taken.sublist.1 taken.sublist.2
  | ran taken executed moved =>
    have hexecuted := executed.sublist (h.taken taken)
    exact .of_sublist_left taken.sublist.1 taken.sublist.2
      (.of_sublist_left hexecuted.1 hexecuted.2 moved.flows)

/-- The control has only been called by the instruction that was executed. -/
theorem Stepped.called {s s' : CpuState δ} {l : List CpuRecord}
    (hstepped : Stepped control now epoch s s' l) (h : Sequenced s.pipeline) :
    Called control now epoch s.device (calls l) s'.device ∧
      ∀ c ∈ calls l, ∃ frame ∈ s.pipeline.execute, c.1.instruction = frame.id := by
  cases hstepped with
  | halted trace taken pipeline device uncalled =>
    rw [uncalled, device]
    exact ⟨.nil _, by simp⟩
  | @ran p fetch flushes s₁ l₁ taken executed moved device called =>
    have hworks := executed.works fun frame hframe => (h.taken taken).operations hframe
    have hexecute : p.execute = s.pipeline.execute := by cases taken <;> rfl
    rw [called, device]
    refine ⟨hworks.1, ?_⟩
    intro c hc
    obtain ⟨frame, hframe, hid⟩ := hworks.2 c hc
    exact ⟨frame, hexecute ▸ hframe, hid⟩

/-- Only the instruction that was executed has retired. -/
theorem Stepped.retires {s s' : CpuState δ} {l : List CpuRecord}
    (hstepped : Stepped control now epoch s s' l) (h : Sequenced s.pipeline) :
    ∀ r ∈ retired l, ∃ frame ∈ s.pipeline.execute, r.1 = frame.id ∧ r.2.word = frame.word := by
  cases hstepped with
  | halted trace taken pipeline device uncalled unretired => simp [unretired]
  | @ran p fetch flushes s₁ l₁ taken executed moved device called retires =>
    have hexecute : p.execute = s.pipeline.execute := by cases taken <;> rfl
    have hoperations : ∀ frame ∈ p.execute, ∀ operation ∈ frame.operations,
        operation.instruction = frame.id := fun frame hframe => (h.taken taken).operations hframe
    rw [retires]
    cases executed with
    | idle empty => simp
    | stalled execute sound decoded work =>
      rw [retired_append, (executeFrame_works (hoperations _ execute) work).unretired]
      simp [retired, CpuRecord.retirement]
    | @completed frame d completion s' l cycle execute sound decoded work =>
      rw [retired_append, (executeFrame_works (hoperations _ execute) work).unretired]
      simp only [retired, CpuRecord.retirement, List.filterMap_cons, List.filterMap_nil,
        List.nil_append, List.mem_singleton, forall_eq]
      exact ⟨frame, hexecute ▸ execute, rfl, rfl⟩

/-- What is executed stays, and what comes after it has been decoded with the registers as they
are. -/
theorem Moved.execute {flushes : Bool} (h : Sequenced p) (hmoved : Moved flushes p q) :
    q.registers = p.registers ∧ q.issue = p.issue ∧
      (∀ frame ∈ p.execute, q.execute = some frame) ∧
      (p.execute = none → ∀ frame ∈ q.execute, ∃ raw : Frame, raw.Raw ∧
        frame = raw.issued p.issue p.registers) := by
  have hflushed : ∀ {r : InOrderPipeline}, Flushed p flushes r → r.registers = p.registers ∧
      r.issue = p.issue ∧ r.execute = p.execute ∧ ∀ frame ∈ r.decode, frame.Raw := by
    intro r hr
    cases hr with
    | kept => exact ⟨rfl, rfl, rfl, h.decode⟩
    | discarded => exact ⟨rfl, rfl, rfl, by simp⟩
  cases hmoved with
  | halted trace flushed =>
    obtain ⟨hregisters, hissue, hexecute, -⟩ := hflushed flushed
    refine ⟨hregisters, hissue, fun frame hframe => hexecute.trans hframe, ?_⟩
    intro hnone frame hframe
    rw [show _ = p.execute from hexecute, hnone] at hframe
    cases hframe
  | @advanced q r trace flushed refilled =>
    obtain ⟨hregisters, hissue, hexecute, hdecode⟩ := hflushed flushed
    have hrefilled : r.registers = q.advance.registers ∧ r.issue = q.advance.issue ∧
        r.execute = q.advance.execute := by
      cases refilled <;> exact ⟨rfl, rfl, rfl⟩
    have hadvanced : q.advance.registers = q.registers ∧ q.advance.issue = q.issue := by
      simp only [InOrderPipeline.advance]
      split <;> split <;> exact ⟨rfl, rfl⟩
    refine ⟨hrefilled.1.trans (hadvanced.1.trans hregisters),
      hrefilled.2.1.trans (hadvanced.2.trans hissue), ?_, ?_⟩
    · intro frame hframe
      have hsome : q.execute = some frame := hexecute.trans hframe
      have hkept : q.advance.execute = some frame := by simp [execute_advance, hsome]
      exact hrefilled.2.2.trans hkept
    · intro hnone frame hframe
      have hempty : q.execute = none := hexecute.trans hnone
      have hissued : q.advance.execute = q.decode.map (·.issued q.issue q.registers) := by
        simp [execute_advance, hempty]
      have hmem : q.decode.map (·.issued q.issue q.registers) = some frame := by
        rw [← hissued, ← hrefilled.2.2]
        exact hframe
      obtain ⟨raw, hraw, rfl⟩ := Option.map_eq_some_iff.1 hmem
      rw [hregisters, hissue]
      exact ⟨raw, hdecode raw hraw, rfl⟩

/-! ## The oldest instruction -/

/-- The frame has just been decoded. -/
def Fresh (p : InOrderPipeline) (frame : Frame) : Prop :=
  ∃ raw : Frame, raw.Raw ∧ frame = raw.issued p.issue p.registers

/-- What an edge has done with the oldest instruction. -/
inductive Proceeds (control : ControlCallback δ) (now epoch : ℕ) (s s' : CpuState δ)
    (l : List CpuRecord) : Prop
  | none (empty : s.pipeline.execute = none) (uncalled : calls l = []) (unretired : retired l = [])
      (registers : s'.pipeline.registers = s.pipeline.registers)
      (next : ∀ frame ∈ s'.pipeline.execute, Fresh s'.pipeline frame)
  | waits {frame : Frame} (execute : s.pipeline.execute = some frame)
      (same : s'.pipeline.execute = some frame) (uncalled : calls l = [])
      (unretired : retired l = []) (registers : s'.pipeline.registers = s.pipeline.registers)
  | stalls {frame frame' : Frame} {d : Rv32.Decoded} {s₀ s₁ : CpuState δ} {l₁ : List CpuRecord}
      (execute : s.pipeline.execute = some frame) (sound : frame.fault = .none)
      (decoded : frame.decoded = some d) (before : s₀.pipeline.execute = some frame)
      (work : (executeFrame control d frame s₀.pipeline.registers now epoch).Returns s₀ none s₁ l₁)
      (after : s₁.pipeline.execute = some frame') (same : s'.pipeline.execute = some frame')
      (erase : frame'.erase = frame.erase) (called : calls l = calls l₁)
      (unretired : retired l = []) (registers : s'.pipeline.registers = s.pipeline.registers)
  | retires {frame : Frame} {d : Rv32.Decoded} {completion : Completion} {s₀ s₁ : CpuState δ}
      {l₁ : List CpuRecord} {record : InstructionRetired}
      (execute : s.pipeline.execute = some frame) (sound : frame.fault = .none)
      (decoded : frame.decoded = some d) (before : s₀.pipeline.execute = some frame)
      (work : (executeFrame control d frame s₀.pipeline.registers now epoch).Returns s₀
        (some completion) s₁ l₁)
      (called : calls l = calls l₁) (retired : retired l = [(frame.id, record)])
      (word : record.word = frame.word) (rd : record.rd = if d.writesRd then d.rd else 0)
      (written : record.registers = written s.pipeline.registers d completion.value)
      (registers : s'.pipeline.registers = record.registers)
      (gone : frame.id ∉ s'.pipeline.inFlight) (bounded : frame.id < s'.pipeline.nextFetch)
      (next : ∀ frame ∈ s'.pipeline.execute, Fresh s'.pipeline frame)

theorem Moved.fresh {flushes : Bool} (h : Sequenced p) (hmoved : Moved flushes p q)
    (hempty : p.execute = none) : ∀ frame ∈ q.execute, Fresh q frame := by
  obtain ⟨hregisters, hissue, -, hnext⟩ := hmoved.execute h
  intro frame hframe
  obtain ⟨raw, hraw, heq⟩ := hnext hempty frame hframe
  rw [Fresh, hregisters, hissue]
  exact ⟨raw, hraw, heq⟩

/-- The oldest instruction is gone once it has retired. -/
theorem Sequenced.gone_retiredWith (h : Sequenced p) {frame : Frame}
    (hexecute : p.execute = some frame) (d : Rv32.Decoded) (completion : Completion) :
    frame.id ∉ (p.retiredWith d completion).inFlight ∧
      frame.id < (p.retiredWith d completion).nextFetch := by
  have hflight : p.inFlight = frame.id :: (p.retiredWith d completion).inFlight := by
    simp [inFlight, InOrderPipeline.retiredWith, hexecute]
  have hincreasing := h.numbered.increasing
  rw [hflight, List.pairwise_cons] at hincreasing
  refine ⟨fun hmem => lt_irrefl _ (hincreasing.1 _ hmem), h.numbered.bounded _ ?_⟩
  rw [hflight]
  exact List.mem_cons_self

theorem Stepped.proceeds {s s' : CpuState δ} {l : List CpuRecord} (h : Sequenced s.pipeline)
    (hstepped : Stepped control now epoch s s' l) : Proceeds control now epoch s s' l := by
  cases hstepped with
  | @halted p trace taken pipeline device uncalled unretired =>
    have hsame : s'.pipeline.execute = s.pipeline.execute ∧
        s'.pipeline.registers = s.pipeline.registers := by
      rw [pipeline]
      cases taken <;> exact ⟨rfl, rfl⟩
    cases hexecute : s.pipeline.execute with
    | none =>
      refine .none hexecute uncalled unretired hsame.2 ?_
      rw [hsame.1, hexecute]
      simp
    | some frame =>
      exact .waits hexecute (hsame.1.trans hexecute) uncalled unretired hsame.2
  | @ran p fetch flushes s₁ l₁ taken executed moved device called retires =>
    have htaken := h.taken taken
    have hexecuted := htaken.executed executed
    have hexecute : p.execute = s.pipeline.execute := by cases taken <;> rfl
    have hregisters : p.registers = s.pipeline.registers := by cases taken <;> rfl
    obtain ⟨hmoved, -, hkept, -⟩ := moved.execute hexecuted
    cases executed with
    | idle empty =>
      exact .none (hexecute ▸ empty) called retires (hmoved.trans hregisters)
        (moved.fresh hexecuted empty)
    | @stalled frame d s₁ l₁ execute sound decoded work =>
      have hworks := executeFrame_works (htaken.operations execute) work
      have herase : s₁.pipeline.execute.map Frame.erase = some frame.erase := by
        have hmap : s₁.pipeline.execute.map Frame.erase = p.execute.map Frame.erase :=
          congrArg InOrderPipeline.execute hworks.kept
        rw [hmap, show p.execute = some frame from execute]
        rfl
      obtain ⟨frame', hframe', heq⟩ := Option.map_eq_some_iff.1 herase
      have hsame : s₁.pipeline.registers = p.registers :=
        (congrArg InOrderPipeline.registers hworks.kept :)
      have hcalls : calls l = calls l₁ := by
        rw [called, calls_append]
        exact List.append_nil _
      have hretired : retired l = [] := by
        rw [retires, retired_append, hworks.unretired]
        rfl
      exact .stalls (hexecute ▸ execute) sound decoded execute work hframe' (hkept _ hframe') heq hcalls
        hretired (hmoved.trans (hsame.trans hregisters))
    | @completed frame d completion s₁ l₁ cycle execute sound decoded work =>
      have hworks := executeFrame_works (htaken.operations execute) work
      have hsame : s₁.pipeline.registers = p.registers :=
        (congrArg InOrderPipeline.registers hworks.kept :)
      have hcalls : calls l = calls l₁ := by
        rw [called, calls_append]
        exact List.append_nil _
      have hretired : retired l = [(frame.id,
          { pc := frame.pc, word := frame.word, rd := if d.writesRd then d.rd else 0
            nextPc := completion.nextPc, value := completion.value
            registers := written s₁.pipeline.registers d completion.value })] := by
        rw [retires, retired_append, hworks.unretired]
        rfl
      have hworked := htaken.of_identity hworks.kept
      have herase : s₁.pipeline.execute.map Frame.erase = some frame.erase := by
        have hmap : s₁.pipeline.execute.map Frame.erase = p.execute.map Frame.erase :=
          congrArg InOrderPipeline.execute hworks.kept
        rw [hmap, show p.execute = some frame from execute]
        rfl
      obtain ⟨frame', hframe', heq⟩ := Option.map_eq_some_iff.1 herase
      have hid : frame'.id = frame.id := (congrArg Frame.id heq :)
      obtain ⟨hgone, hbound⟩ := hworked.gone_retiredWith hframe' d completion
      rw [hid] at hgone hbound
      obtain ⟨hgone, hbound⟩ := moved.flows.gone hgone hbound
      refine .retires (hexecute ▸ execute) sound decoded execute work hcalls hretired rfl rfl ?_ hmoved
        hgone hbound (moved.fresh hexecuted rfl)
      rw [hsame, hregisters]

/-! ## Runs -/

/-- Edges of the CPU within one epoch. On each of them the control may be another one of those
that are admitted; in between the ports may change in any way, and what the control works on may
change as allowed. -/
inductive CpuRun (epoch : ℕ) (controls : ControlCallback δ → Prop) (changes : δ → δ → Prop)
    (s : CpuState δ) : List CpuRecord → CpuState δ → Prop
  | start : CpuRun epoch controls changes s [] s
  | edge {control : ControlCallback δ} {now : ℕ} {l l' : List CpuRecord} {s₁ s₂ : CpuState δ}
      (run : CpuRun epoch controls changes s l s₁) (admitted : controls control)
      (step : (step control now epoch).Returns s₁ () s₂ l') :
      CpuRun epoch controls changes s (l ++ l') s₂
  | exchange {l : List CpuRecord} {s₁ : CpuState δ} (fetch data : MemoryPort) (device : δ)
      (run : CpuRun epoch controls changes s l s₁) (changed : changes s₁.device device) :
      CpuRun epoch controls changes s l { s₁ with fetch, data, device }

theorem CpuRun.sequenced {controls : ControlCallback δ → Prop} {changes : δ → δ → Prop}
    {s s' : CpuState δ} {l : List CpuRecord} (run : CpuRun epoch controls changes s l s')
    (h : Sequenced s.pipeline) : Sequenced s'.pipeline := by
  induction run with
  | start => exact h
  | edge _ _ step ih => exact ih.stepped (step_returns step)
  | exchange _ _ _ _ _ ih => exact ih

theorem sequenced_make (issue : ControlIssue) (clock : Clock) (entry : BitVec 32) :
    Sequenced (make issue clock entry) := by
  constructor <;> simp [make]
  constructor <;> simp [inFlight]

end Sequenced
end InOrderPipeline
end Qsbit

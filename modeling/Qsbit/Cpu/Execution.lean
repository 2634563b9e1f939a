import Qsbit.Cpu.BackEnd

/-!
# Executing the instruction that is next

The oldest instruction of the pipeline is the one that is next in the program, with the operands
that the program has at that point. It is executed on one edge or on several. What of it is seen
before it retires, lanes of a bundle that have been accepted or an access that the memory has
performed, is what is seen of it in the program.

## Main definitions

* `Issued` — the frame of the instruction that is next in the program.
* `UnderWay` — how far it has come, and what of it has been seen.
* `executeFrame_progress` — what one edge does to it.
-/
namespace Qsbit
open MemoryModel (Bank Lane Carries Performs answer)
open Relation (ReflTransGen)
open Qsbit.Sequential

/-- What is seen of a record. -/
def CpuRecord.event : CpuRecord → Option CpuEvent
  | .called operation (some reply) => some (.control operation.command reply)
  | .instructionRetired _ _ _ _ state => some (.retired state)
  | _ => none

/-- An operation that has been accepted. -/
def ControlOperation.event (operation : ControlOperation) (reply : ℕ) : CpuEvent :=
  .control operation.command reply

namespace InOrderPipeline
variable {γ δ : Type} {d : MemoryDevice δ} {changes : δ → δ → Prop} {issue : ControlIssue}
  {control : ControlCallback γ} {now epoch : ℕ} {a : Architecture δ} {lane : Lane} {b : Bank δ}
  {s s' : CpuState γ} {l : List CpuRecord} {frame frame' : Frame} {owed : List CpuEvent}

/-- What is seen of a log. -/
def events (l : List CpuRecord) : List CpuEvent := l.filterMap CpuRecord.event

@[simp] theorem events_nil : events [] = [] := rfl

@[simp] theorem events_append (l l' : List CpuRecord) : events (l ++ l') = events l ++ events l' :=
  List.filterMap_append

@[simp] theorem events_control (l : List TraceEvent) : events (l.map CpuRecord.control) = [] := by
  simp [events, CpuRecord.event]

/-! ## The frame -/

/-- The frame of the instruction that is next in the program. -/
inductive Issued (d : MemoryDevice δ) (issue : ControlIssue) (a : Architecture δ) (frame : Frame) :
    Prop
  | fault {code : ErrorCode} (raised : frame.fault = some code) (invalid : Invalid d issue a code)
      (single : frame.operations = [])
  | bundle (sound : frame.fault = none) (flag : frame.bundle = true)
      (fetched : fetchResult d a.bank a.pc = .ok frame.word) (bundled : Bundled issue frame.word)
      (operations : decodeCwBundle frame.word frame.id a.registers = .ok frame.operations)
      (decoded : frame.decoded = some { op := .quantum, word := frame.word })
  | scalar {x : Rv32.Decoded} (sound : frame.fault = none) (flag : frame.bundle = false)
      (fetches : Fetches d issue a frame.word x) (decoded : frame.decoded = some x)
      (lhs : frame.lhs = a.lhs x) (rhs : frame.rhs = a.rhs x) (single : frame.operations = [])

/-- UnderWay does not matter to what has been issued. -/
theorem Issued.of_erase (h : Issued d issue a frame) (herase : frame'.erase = frame.erase) :
    Issued d issue a frame' := by
  have hword : frame'.word = frame.word := (congrArg Frame.word herase :)
  have hid : frame'.id = frame.id := (congrArg Frame.id herase :)
  have hfault : frame'.fault = frame.fault := (congrArg Frame.fault herase :)
  have hbundle : frame'.bundle = frame.bundle := (congrArg Frame.bundle herase :)
  have hoperations : frame'.operations = frame.operations := (congrArg Frame.operations herase :)
  have hdecoded : frame'.decoded = frame.decoded := (congrArg Frame.decoded herase :)
  have hlhs : frame'.lhs = frame.lhs := (congrArg Frame.lhs herase :)
  have hrhs : frame'.rhs = frame.rhs := (congrArg Frame.rhs herase :)
  cases h with
  | fault raised invalid single =>
    exact .fault (hfault.trans raised) invalid (hoperations.trans single)
  | bundle sound flag fetched bundled operations decoded =>
    refine .bundle (hfault.trans sound) (hbundle.trans flag) ?_ ?_ ?_ ?_
    · rwa [hword]
    · rwa [hword]
    · rwa [hword, hid, hoperations]
    · rwa [hdecoded, hword]
  | scalar sound flag fetches decoded lhs rhs single =>
    exact .scalar (hfault.trans sound) (hbundle.trans flag) (hword ▸ fetches)
      (hdecoded.trans decoded) (hlhs.trans lhs) (hrhs.trans rhs) (hoperations.trans single)

/-- The memory elsewhere does not matter to what has been issued. -/
theorem Issued.bank {bank : Bank δ} (h : Issued d issue a frame)
    (hsame : fetchResult d bank a.pc = fetchResult d a.bank a.pc) :
    Issued d issue { a with bank } frame := by
  cases h with
  | fault raised invalid single => exact .fault raised (invalid.bank hsame) single
  | bundle sound flag fetched bundled operations decoded =>
    exact .bundle sound flag (hsame.trans fetched) bundled operations decoded
  | scalar sound flag fetches decoded lhs rhs single =>
    exact .scalar sound flag (fetches.bank hsame) decoded lhs rhs single

/-- A word that is decoded with the registers of the program is the instruction that is next. -/
theorem issued_ofFetch (hrunning : a.halted = false) (id : ℕ) :
    Issued d issue a
      ((Frame.ofFetch id a.pc (fetchResult d a.bank a.pc)).issued issue a.registers) := by
  cases hfetch : fetchResult d a.bank a.pc with
  | error code => exact .fault rfl (.fetch hrunning hfetch) rfl
  | ok word =>
    by_cases hbundled : Bundled issue word
    · have hdecode : decodeWord issue a.registers (Frame.ofFetch id a.pc (.ok word)) =
          (decodeCwBundle word id a.registers >>= fun operations => pure
            { Frame.ofFetch id a.pc (.ok word) with
              operations, bundle := true, decoded := some { op := .quantum, word } }) :=
        if_pos hbundled
      cases hoperations : decodeCwBundle word id a.registers with
      | error fault =>
        rw [hoperations] at hdecode
        have hfault : (Frame.ofFetch id a.pc (.ok word)).issued issue a.registers =
            { Frame.ofFetch id a.pc (.ok word) with fault := some fault.code } := by
          simp only [Frame.issued, hdecode]
          rfl
        rw [hfault]
        exact .fault rfl (.bundle hrunning hfetch hbundled hoperations) rfl
      | ok operations =>
        rw [hoperations] at hdecode
        have hframe : (Frame.ofFetch id a.pc (.ok word)).issued issue a.registers =
            { Frame.ofFetch id a.pc (.ok word) with
              operations, bundle := true, decoded := some { op := .quantum, word } } := by
          simp only [Frame.issued, hdecode]
          rfl
        rw [hframe]
        exact .bundle rfl rfl hfetch hbundled hoperations rfl
    · have hdecode : decodeWord issue a.registers (Frame.ofFetch id a.pc (.ok word)) =
          (Rv32.decode word >>= fun x => pure
            { Frame.ofFetch id a.pc (.ok word) with
              decoded := some x, lhs := a.lhs x, rhs := a.rhs x }) :=
        if_neg hbundled
      cases hdecoded : Rv32.decode word with
      | error fault =>
        rw [hdecoded] at hdecode
        have hfault : (Frame.ofFetch id a.pc (.ok word)).issued issue a.registers =
            { Frame.ofFetch id a.pc (.ok word) with fault := some fault.code } := by
          simp only [Frame.issued, hdecode]
          rfl
        rw [hfault]
        exact .fault rfl (.decode hrunning hfetch hbundled hdecoded) rfl
      | ok x =>
        rw [hdecoded] at hdecode
        have hframe : (Frame.ofFetch id a.pc (.ok word)).issued issue a.registers =
            { Frame.ofFetch id a.pc (.ok word) with
              decoded := some x, lhs := a.lhs x, rhs := a.rhs x } := by
          simp only [Frame.issued, hdecode]
          rfl
        rw [hframe]
        exact .scalar rfl rfl ⟨hrunning, hfetch, hbundled, hdecoded⟩ rfl rfl rfl rfl

/-! ## UnderWay -/

/-- The instruction has not sent a request. Some lanes of it may have been accepted. -/
structure Issuing (d : MemoryDevice δ) (epoch : ℕ) (issue : ControlIssue) (a : Architecture δ)
    (lane : Lane) (b : Bank δ) (frame : Frame) (replies : List ℕ) : Prop where
  issued : Issued d issue a frame
  pc : frame.pc = a.pc
  unasked : frame.memoryRequest = 0
  effect : ∀ e ∈ frame.effect, ∀ x ∈ frame.decoded, a.evaluate x = .ok e
  lanes : replies.length = frame.completedLanes
  bound : frame.completedLanes ≤ frame.operations.length
  carries : Carries epoch lane none none
  same : b = a.bank

/-- The instruction has sent a request. -/
structure Asked (d : MemoryDevice δ) (issue : ControlIssue) (a : Architecture δ) (frame : Frame)
    (x : Rv32.Decoded) (e : Rv32.Effect) : Prop where
  issued : Issued d issue a frame
  pc : frame.pc = a.pc
  request : frame.memoryRequest ≠ 0
  effect : frame.effect = some e
  decoded : frame.decoded = some x
  flag : frame.bundle = false
  evaluates : Evaluates d issue a frame.word x e
  memory : e.memory ≠ .none

/-- How far the oldest instruction has come, and what of it has been seen. -/
inductive UnderWay (d : MemoryDevice δ) (changes : δ → δ → Prop) (epoch : ℕ) (issue : ControlIssue)
    (a : Architecture δ) (lane : Lane) (b : Bank δ) : Option Frame → List CpuEvent → Prop
  | empty (carries : Carries epoch lane none none) (same : b = a.bank) :
      UnderWay d changes epoch issue a lane b none []
  | issuing {frame : Frame} {replies : List ℕ}
      (h : Issuing d epoch issue a lane b frame replies) :
      UnderWay d changes epoch issue a lane b (some frame)
        (List.zipWith ControlOperation.event frame.operations replies)
  | asked {frame : Frame} {x : Rv32.Decoded} {e : Rv32.Effect} (h : Asked d issue a frame x e)
      (carries : Carries epoch lane (some (dataRequest e frame.memoryRequest)) none)
      (same : b = a.bank) :
      UnderWay d changes epoch issue a lane b (some frame) []
  | performed {frame : Frame} {x : Rv32.Decoded} {e : Rv32.Effect} {result : Except Fault ℕ}
      {at' epoch' : ℕ} {bank : Bank δ} (h : Asked d issue a frame x e)
      (carries : Carries epoch lane (some (dataRequest e frame.memoryRequest))
        (some (answer (dataRequest e frame.memoryRequest) result)))
      (performs : Performs d (dataRequest e frame.memoryRequest) at' epoch' a.bank result bank)
      (image : b.image = bank.image) (device : ReflTransGen changes bank.device b.device) :
      UnderWay d changes epoch issue a lane b (some frame)
        [.access (dataRequest e 0) (answer (dataRequest e 0) result)]

theorem Asked.bank {bank : Bank δ} {x : Rv32.Decoded} {e : Rv32.Effect} (h : Asked d issue a frame x e)
    (hsame : fetchResult d bank a.pc = fetchResult d a.bank a.pc) :
    Asked d issue { a with bank } frame x e :=
  ⟨h.issued.bank hsame, h.pc, h.request, h.effect, h.decoded, h.flag, h.evaluates.bank hsame,
    h.memory⟩

theorem UnderWay.pc (h : UnderWay d changes epoch issue a lane b (some frame) owed) :
    frame.pc = a.pc := by
  cases h with
  | issuing h | asked h | performed h => exact h.pc

/-- The request that is in the lane has been sent by the instruction. -/
theorem UnderWay.request {execute : Option Frame} {n : ℕ}
    (h : UnderWay d changes epoch issue a lane b execute owed)
    (hasked : ∀ frame ∈ execute, frame.memoryRequest < n) : ∃ request response,
      Carries epoch lane request response ∧
        ∀ r ∈ request, r.id < n ∧ r.instruction = false ∧ ¬ (r.instruction ∧ r.write) := by
  cases h with
  | empty carries => exact ⟨_, _, carries, by simp⟩
  | issuing h => exact ⟨_, _, h.carries, by simp⟩
  | asked h carries | performed h carries =>
    refine ⟨_, _, carries, fun r hr => ?_⟩
    obtain rfl := Option.some.inj hr
    exact ⟨hasked _ rfl, rfl, by simp [dataRequest]⟩

/-- What has been seen of an instruction that is under way is what it shows before it retires. -/
theorem UnderWay.shows {execute : Option Frame}
    (h : UnderWay d changes epoch issue a lane b execute owed) : Shows d issue a owed := by
  cases h with
  | empty | asked => exact .nothing
  | performed h _ performs => exact .access h.evaluates h.memory performs
  | @issuing frame replies h =>
    have hreplies : replies.length ≤ frame.operations.length := h.lanes.trans_le h.bound
    cases h.issued with
    | fault _ _ single | scalar _ _ _ _ _ _ single =>
      rw [single]
      exact .nothing
    | bundle _ _ fetched bundled operations => exact .lanes fetched bundled operations hreplies

theorem UnderWay.issued (h : UnderWay d changes epoch issue a lane b (some frame) owed) :
    Issued d issue a frame := by
  cases h with
  | issuing h | asked h | performed h => exact h.issued

/-- The devices change; once the access has been performed, they do so after it. -/
theorem UnderWay.changed {execute : Option Frame} {device : δ} (hd : d.Steady changes)
    (h : UnderWay d changes epoch issue a lane b execute owed)
    (hchange : changes b.device device) : ∃ a',
      Runs (Step d issue changes) a [] a' ∧ a'.pc = a.pc ∧ a'.registers = a.registers ∧
        a'.halted = a.halted ∧
        UnderWay d changes epoch issue a' lane { b with device } execute owed := by
  have hcongr : ∀ {bank : Bank δ} {pc : BitVec 32}, changes bank.device device →
      fetchResult d { bank with device } pc = fetchResult d bank pc :=
    fun h => fetchResult_congr (hd.changed h) rfl
  cases h with
  | empty carries same =>
    subst same
    exact ⟨_, .single (.changed device hchange), rfl, rfl, rfl, .empty carries rfl⟩
  | issuing h =>
    obtain ⟨issued, pc, unasked, effect, lanes, bound, carries, same⟩ := h
    subst same
    exact ⟨_, .single (.changed device hchange), rfl, rfl, rfl,
      .issuing ⟨issued.bank (hcongr hchange), pc, unasked, effect, lanes, bound, carries, rfl⟩⟩
  | asked h carries same =>
    subst same
    exact ⟨_, .single (.changed device hchange), rfl, rfl, rfl,
      .asked (h.bank (hcongr hchange)) carries rfl⟩
  | performed h carries performs image hdevice =>
    exact ⟨a, .start, rfl, rfl, rfl, .performed h carries performs image (hdevice.tail hchange)⟩

/-- The accesses that an edge of the memory has answered. -/
def accesses (lane lane' : Lane) : List CpuEvent :=
  lane.pending.toList.flatMap fun p =>
    (lane'.port.responses.entries.drop lane.port.responses.entries.length).map fun message =>
      .access { p.request with id := 0 } { message.value with id := 0 }

theorem accesses_of_quiet {lane' : Lane} (h : lane'.port.responses = lane.port.responses) :
    accesses lane lane' = [] := by
  simp [accesses, h]

/-- An edge of the memory on the port for data. -/
theorem UnderWay.served {execute : Option Frame} {clock : Clock} {latency : ℕ} {lane' : Lane}
    {b' : Bank δ} (hd : d.Steady changes)
    (h : UnderWay d changes epoch issue a lane b execute owed)
    (hstep : MemoryModel.LaneStep d clock latency now epoch (lane, b) (lane', b')) :
    UnderWay d changes epoch issue a lane' b' execute (owed ++ accesses lane lane') := by
  cases h with
  | empty carries same =>
    cases hstep.carries carries with
    | kept carries' same' quiet =>
      rw [accesses_of_quiet quiet, List.append_nil]
      exact .empty carries' (same'.trans same)
  | issuing h =>
    obtain ⟨issued, pc, unasked, effect, lanes, bound, carries, same⟩ := h
    cases hstep.carries carries with
    | kept carries' same' quiet =>
      rw [accesses_of_quiet quiet, List.append_nil]
      exact .issuing ⟨issued, pc, unasked, effect, lanes, bound, carries', same'.trans same⟩
  | @asked frame x e h carries same =>
    have hhandles := hstep.carries carries
    generalize hrequest : dataRequest e frame.memoryRequest = request at hhandles
    cases hhandles with
    | kept carries' same' quiet =>
      rw [accesses_of_quiet quiet, List.append_nil]
      exact .asked h (hrequest ▸ carries') (same'.trans same)
    | refused carries' refuses quiet =>
      rw [accesses_of_quiet quiet, List.append_nil]
      exact .asked h (hrequest ▸ carries') ((refuses_same hd refuses).trans same)
    | @performed p result message carries' performs pending responses value =>
      have haccesses : accesses lane lane' =
          [.access (dataRequest e 0) (answer (dataRequest e 0) result)] := by
        simp only [accesses, pending, Option.toList_some, List.flatMap_cons, List.flatMap_nil,
          responses, List.drop_left, List.map_cons, value, ← hrequest]
        cases result <;> rfl
      rw [haccesses]
      rw [← hrequest] at carries' performs
      rw [same] at performs
      exact .performed h carries' performs rfl .refl
  | @performed frame x e result at' epoch' bank h carries performs image device =>
    have hhandles := hstep.carries carries
    generalize hrequest : dataRequest e frame.memoryRequest = request at hhandles
    cases hhandles with
    | kept carries' same' quiet =>
      rw [← hrequest] at carries'
      rw [accesses_of_quiet quiet, List.append_nil, same']
      exact .performed h carries' performs image device

/-! ## Operations of the control -/

theorem callControl_events {operation : ControlOperation} {reply : Option ℕ}
    (h : (callControl control operation now epoch).Returns s reply s' l) :
    (∃ device, s' = { s with device }) ∧ events l = (reply.map operation.event).toList := by
  simp only [callControl] at h
  obtain ⟨reply', s₁, l₁, l₂, hcall, hrest, rfl⟩ := Proc.returns_bind_iff.1 h
  obtain ⟨device, htranslate, rfl⟩ := Proc.returns_zoom_iff.1 hcall
  obtain ⟨l₀, hcontrol, rfl⟩ := Proc.returns_translate_iff.1 htranslate
  simp only [Proc.returns_emit_bind_iff, Proc.returns_pure_iff] at hrest
  obtain ⟨_, ⟨rfl, rfl, rfl⟩, rfl⟩ := hrest
  refine ⟨⟨device, rfl⟩, ?_⟩
  rw [events_append, events_control, List.nil_append]
  cases reply' <;> rfl

/-- Operations are accepted in order, and those that have been accepted are counted. -/
theorem issueLanes_events {operations : List ControlOperation} {completed : Bool}
    (h : (issueLanes control now epoch operations).Returns s completed s' l) :
    ∃ replies : List ℕ, replies.length ≤ operations.length ∧
      (completed = true ↔ replies.length = operations.length) ∧
      events l = List.zipWith ControlOperation.event operations replies ∧
      ∃ device, s' = { s with
        device
        pipeline := { s.pipeline with
          execute := s.pipeline.execute.map fun frame =>
            { frame with completedLanes := frame.completedLanes + replies.length } } } := by
  induction operations generalizing s l with
  | nil =>
    obtain ⟨rfl, rfl, rfl⟩ := Proc.returns_pure_iff.1 h
    exact ⟨[], le_rfl, by simp, rfl, s.device, by simp⟩
  | cons operation rest ih =>
    simp only [issueLanes] at h
    obtain ⟨reply, s₁, l₁, l₂, hcall, h, rfl⟩ := Proc.returns_bind_iff.1 h
    obtain ⟨⟨device, rfl⟩, hevents⟩ := callControl_events hcall
    cases reply with
    | none =>
      obtain ⟨rfl, rfl, rfl⟩ := Proc.returns_pure_iff.1 h
      exact ⟨[], Nat.zero_le _, by simp, by simpa using hevents, device, by simp⟩
    | some value =>
      simp only [modifyFrame, modify, Proc.returns_modify_bind_iff] at h
      obtain ⟨replies, hle, hcompleted, hrest, device', rfl⟩ := ih h
      refine ⟨value :: replies, Nat.succ_le_succ hle, by simpa using hcompleted, ?_, device', ?_⟩
      · rw [events_append, hevents, hrest]
        rfl
      · simp [Function.comp_def, Nat.add_assoc, Nat.add_comm 1]

/-! ## One edge -/

/-- What one edge leaves as it is. -/
def Touches (s s' : CpuState γ) : Prop :=
  ∃ execute nextData halted data device, s.pipeline.nextData ≤ nextData ∧
    (s.data.Sound → data.Sound) ∧ s' = { s with pipeline := { s.pipeline with execute, nextData, halted }, data, device }

/-- The instruction that is executed is the next one of the program. -/
structure Executing (a : Architecture δ) (lane : Lane) (s : CpuState γ) (frame : Frame) : Prop where
  execute : s.pipeline.execute = some frame
  halted : s.pipeline.halted = a.halted
  running : a.halted = false
  port : lane.port = s.data
  last : lane.lastId < s.pipeline.nextData
  asked : frame.memoryRequest < s.pipeline.nextData

/-- What one edge does to the instruction that is next in the program: it goes on with it, or the
program has made a step. -/
inductive Attempt (d : MemoryDevice δ) (changes : δ → δ → Prop) (epoch : ℕ) (issue : ControlIssue)
    (a : Architecture δ) (lane : Lane) (b : Bank δ) (word : BitVec 32) (x : Rv32.Decoded)
    (s' : CpuState γ) : Option Completion → List CpuEvent → Prop
  | stalls {frame : Frame} {owed : List CpuEvent} (execute : s'.pipeline.execute = some frame)
      (progress : UnderWay d changes epoch issue a { lane with port := s'.data } b (some frame) owed)
      (asked : frame.memoryRequest < s'.pipeline.nextData) (halted : s'.pipeline.halted = a.halted) :
      Attempt d changes epoch issue a lane b word x s' none owed
  | completes {seen : List CpuEvent} {completion : Completion} {a' : Architecture δ}
      (runs : Runs (Step d issue changes) a
        (seen ++ [.retired (a.record word x completion.value completion.nextPc)]) a')
      (pc : a'.pc = completion.nextPc)
      (registers : a'.registers = written a.registers x completion.value)
      (halted : a'.halted = s'.pipeline.halted) (bank : a'.bank = b)
      (carries : Carries epoch { lane with port := s'.data } none none)
      (straight : completion.flush = false → completion.nextPc = a.pc + 4) :
      Attempt d changes epoch issue a lane b word x s' (some completion) seen

/-- The lane is as the core has left it. -/
theorem Executing.lane_eq (hs : Executing a lane s frame) :
    ({ lane with port := s.data } : Lane) = lane := by
  rw [← hs.port]

theorem zipWith_append_drop {ι κ ρ : Type} (f : ι → κ → ρ) (l : List ι) (m m' : List κ) :
    List.zipWith f l (m ++ m') = List.zipWith f l m ++ List.zipWith f (l.drop m.length) m' := by
  induction m generalizing l with
  | nil => simp
  | cons y m ih =>
    cases l with
    | nil => simp
    | cons x l => simp [ih]

section Edge
variable {x : Rv32.Decoded} {e : Rv32.Effect} {c : Option Completion} {replies : List ℕ}

/-- One edge of a bundle. -/
theorem executeBundle_attempt (hs : Executing a lane s frame)
    (hissuing : Issuing d epoch issue a lane b frame replies)
    (fetched : fetchResult d a.bank a.pc = .ok frame.word) (bundled : Bundled issue frame.word)
    (operations : decodeCwBundle frame.word frame.id a.registers = .ok frame.operations)
    (h : (executeBundle control frame now epoch).Returns s c s' l) :
    Touches s s' ∧ Attempt d changes epoch issue a lane b frame.word
      { op := .quantum, word := frame.word } s' c
      (List.zipWith ControlOperation.event frame.operations replies ++ events l) := by
  simp only [executeBundle] at h
  obtain ⟨completed, s₁, l₁, l₂, hlanes, hpure, rfl⟩ := Proc.returns_bind_iff.1 h
  obtain ⟨rfl, rfl, rfl⟩ := Proc.returns_pure_iff.1 hpure
  obtain ⟨replies', hle, hcompleted, hevents, device, rfl⟩ := issueLanes_events hlanes
  have hbound := hissuing.bound
  rw [List.length_drop] at hle hcompleted
  rw [List.append_nil, hevents, ← hissuing.lanes, ← zipWith_append_drop]
  refine ⟨⟨_, _, _, _, device, le_rfl, id, rfl⟩, ?_⟩
  have hlength : (replies ++ replies').length = frame.completedLanes + replies'.length := by
    rw [List.length_append, hissuing.lanes]
  cases completed with
  | false =>
    have hexecute := congrArg (Option.map fun frame : Frame =>
      { frame with completedLanes := frame.completedLanes + replies'.length }) hs.execute
    refine .stalls hexecute (.issuing ?_) hs.asked hs.halted
    refine ⟨hissuing.issued.of_erase rfl, hissuing.pc, hissuing.unasked, hissuing.effect, hlength,
      ?_, ?_, hissuing.same⟩
    · simp only
      omega
    · rw [hs.lane_eq]
      exact hissuing.carries
  | true =>
    have hall : (replies ++ replies').length = frame.operations.length := by
      have hrest := hcompleted.1 rfl
      omega
    rw [if_pos rfl, hissuing.pc]
    refine .completes (.single (.executes (.bundle hs.running fetched bundled operations hall)))
      rfl rfl hs.halted.symm hissuing.same.symm ?_ fun _ => rfl
    rw [hs.lane_eq]
    exact hissuing.carries

/-- One edge of a control instruction. -/
theorem executeQuantum_attempt (hs : Executing a lane s frame)
    (hissuing : Issuing d epoch issue a lane b frame replies)
    (fetches : Fetches d issue a frame.word x) (quantum : x.op = .quantum)
    (lhs : frame.lhs = a.lhs x) (rhs : frame.rhs = a.rhs x) (single : frame.operations = [])
    (h : (executeQuantum control x frame now epoch).Returns s c s' l) :
    Touches s s' ∧ Attempt d changes epoch issue a lane b frame.word x s' c (events l) := by
  simp only [executeQuantum, Proc.returns_lift_bind_iff] at h
  obtain ⟨operation, hadapt, h⟩ := h
  obtain ⟨reply, s₁, l₁, l₂, hcall, hpure, rfl⟩ := Proc.returns_bind_iff.1 h
  obtain ⟨rfl, rfl, rfl⟩ := Proc.returns_pure_iff.1 hpure
  obtain ⟨⟨device, rfl⟩, hevents⟩ := callControl_events hcall
  rw [List.append_nil, hevents]
  refine ⟨⟨_, _, _, _, device, le_rfl, id, rfl⟩, ?_⟩
  rw [lhs, rhs] at hadapt
  cases reply with
  | none =>
    refine .stalls hs.execute ?_ hs.asked hs.halted
    have hprogress : UnderWay d changes epoch issue a lane b (some frame) _ := .issuing hissuing
    rwa [single, List.zipWith_nil_left, ← hs.lane_eq] at hprogress
  | some value =>
    rw [Option.map_some, hissuing.pc]
    refine .completes (.single (.executes (.control fetches quantum hadapt))) rfl rfl
      hs.halted.symm hissuing.same.symm ?_ fun _ => rfl
    rw [hs.lane_eq]
    exact hissuing.carries

/-- One edge of the instruction that leaves. -/
theorem executeExit_attempt (hs : Executing a lane s frame)
    (hissuing : Issuing d epoch issue a lane b frame replies)
    (fetches : Fetches d issue a frame.word x) (exits : Exits x a.registers)
    (single : frame.operations = [])
    (h : (executeExit control frame now epoch).Returns s c s' l) :
    Touches s s' ∧ Attempt d changes epoch issue a lane b frame.word x s' c (events l) := by
  simp only [executeExit] at h
  obtain ⟨reply, s₁, l₁, l₂, hcall, h, rfl⟩ := Proc.returns_bind_iff.1 h
  obtain ⟨⟨device, rfl⟩, hevents⟩ := callControl_events hcall
  cases reply with
  | none =>
    obtain ⟨rfl, rfl, rfl⟩ := Proc.returns_pure_iff.1 h
    refine ⟨⟨_, _, _, _, device, le_rfl, id, rfl⟩, .stalls hs.execute ?_ hs.asked hs.halted⟩
    have hprogress : UnderWay d changes epoch issue a lane b (some frame) _ := .issuing hissuing
    rw [List.append_nil, hevents]
    rwa [single, List.zipWith_nil_left, ← hs.lane_eq] at hprogress
  | some value =>
    simp only [modify, Proc.returns_modify_bind_iff, Proc.returns_pure_iff] at h
    obtain ⟨rfl, rfl, rfl⟩ := h
    rw [List.append_nil, hevents, hissuing.pc]
    refine ⟨⟨_, _, _, _, device, le_rfl, id, rfl⟩,
      .completes (.single (.executes (.exit fetches exits))) rfl rfl rfl hissuing.same.symm ?_
        fun _ => rfl⟩
    rw [hs.lane_eq]
    exact hissuing.carries

/-- An instruction that does not jump is followed by the next word. -/
theorem nextPc_of_evaluate (h : a.evaluate x = .ok e)
    (hstraight : e.branchTaken = false ∨ e.memory ≠ .none) : e.nextPc = a.pc + 4 := by
  simp only [Architecture.evaluate, Rv32.evaluate, Except.bind_eq_ok_iff, require_eq_ok_iff,
    exists_const, Except.pure_eq_ok_iff] at h
  obtain ⟨-, _, heffect, -, rfl⟩ := h
  rw [Rv32.effect] at heffect
  cases hop : x.op <;> simp only [hop] at heffect <;> cases heffect <;> first | rfl | simp_all

/-- An access is sent when there is room for it. -/
theorem accessData_sends (hs : Executing a lane s frame)
    (hissuing : Issuing d epoch issue a lane b frame replies) (single : frame.operations = [])
    (effect : frame.effect = some e) (decoded : frame.decoded = some x)
    (flag : frame.bundle = false) (evaluates : Evaluates d issue a frame.word x e)
    (memory : e.memory ≠ .none) (h : (accessData frame e now epoch).Returns s c s' l) :
    Touches s s' ∧ Attempt d changes epoch issue a lane b frame.word x s' c (events l) := by
  simp only [accessData, Proc.returns_get_bind_iff, if_pos hissuing.unasked] at h
  by_cases hfull : s.data.requests.full = true
  · rw [if_pos hfull] at h
    obtain ⟨rfl, rfl, rfl⟩ := Proc.returns_pure_iff.1 h
    refine ⟨⟨_, _, _, _, s.device, le_rfl, id, rfl⟩, .stalls hs.execute ?_ hs.asked hs.halted⟩
    have hprogress : UnderWay d changes epoch issue a lane b (some frame) _ := .issuing hissuing
    rwa [single, List.zipWith_nil_left, ← hs.lane_eq] at hprogress
  · rw [if_neg hfull] at h
    simp only [modify, modifyFrame, Proc.returns_lift_bind_iff, Proc.returns_modify_bind_iff,
      Proc.returns_pure_iff] at h
    obtain ⟨next, hnext, requests, hpublish, rfl, rfl, rfl⟩ := h
    rw [eq_of_checkedAdd hnext]
    have hnewer : lane.lastId < (dataRequest e s.pipeline.nextData).id := hs.last
    have hsent := hpublish
    rw [← hs.port] at hpublish
    have hcarries := hissuing.carries.published hnewer hpublish
    rw [hs.port] at hcarries
    have hexecute := congrArg (Option.map fun frame : Frame =>
      { frame with memoryRequest := s.pipeline.nextData }) hs.execute
    refine ⟨⟨_, _, _, { s.data with requests }, s.device, Nat.le_succ _,
        fun hsound => ⟨hsound.requests.publish hsent, hsound.responses⟩, rfl⟩,
      .stalls hexecute (.asked (x := x) (e := e) ?_ hcarries hissuing.same) (Nat.lt_succ_self _)
        hs.halted⟩
    have hpositive : s.pipeline.nextData ≠ 0 := by
      have hlast := hs.last
      omega
    exact ⟨hissuing.issued.of_erase rfl, hissuing.pc, hpositive, effect, decoded, flag, evaluates,
      memory⟩

/-- The response to an access is taken when it is there. -/
theorem accessData_takes (hs : Executing a lane s frame) (hasked : Asked d issue a frame x e)
    (hprogress : UnderWay d changes epoch issue a lane b (some frame) owed)
    (h : (accessData frame e now epoch).Returns s c s' l) :
    Touches s s' ∧ Attempt d changes epoch issue a lane b frame.word x s' c (owed ++ events l) := by
  simp only [accessData, Proc.returns_get_bind_iff, if_neg hasked.request] at h
  cases hpeek : s.data.responses.peek now with
  | none =>
    simp only [hpeek] at h
    obtain ⟨rfl, rfl, rfl⟩ := Proc.returns_pure_iff.1 h
    rw [events_nil, List.append_nil]
    refine ⟨⟨_, _, _, _, s.device, le_rfl, id, rfl⟩, .stalls hs.execute ?_ hs.asked hs.halted⟩
    rw [hs.lane_eq]
    exact hprogress
  | some message =>
    simp only [hpeek, Proc.returns_modify_bind_iff, Proc.returns_lift_bind_iff] at h
    obtain ⟨-, -, _, hfault, h⟩ := h
    rw [← hs.port] at hpeek
    cases hprogress with
    | issuing hissuing => exact absurd hissuing.unasked hasked.request
    | asked _ carries =>
      rw [carries.peek_none] at hpeek
      cases hpeek
    | @performed _ _ e' result _ _ bank hasked' carries performs image device =>
      obtain rfl := Option.some.inj (hasked.effect.symm.trans hasked'.effect)
      obtain ⟨hvalue, -, -, hempty⟩ := carries.taken hpeek
      rw [hs.port] at hempty
      rw [← Option.some.inj hvalue] at hfault h
      cases result with
      | error fault => cases hfault
      | ok answered =>
        obtain ⟨value, hloaded, rfl, rfl, rfl⟩ : ∃ value, loadedValue e answered = .ok value ∧
            some { value, nextPc := e.nextPc } = c ∧
            { s with data := { s.data with responses := s.data.responses.taken now } } = s' ∧
            [] = l := by
          by_cases hsigned : e.signExtendLoad = true
          · simp only [if_pos hsigned, Proc.returns_lift_bind_iff, Proc.returns_pure_iff] at h
            obtain ⟨value, hvalue, hrest⟩ := h
            exact ⟨value, by rwa [loadedValue, if_pos hsigned], hrest⟩
          · rw [if_neg hsigned] at h
            obtain ⟨hc, hs', hl⟩ := Proc.returns_pure_iff.1 h
            exact ⟨BitVec.ofNat 32 answered, by rw [loadedValue, if_neg hsigned]; rfl, hc, hs', hl⟩
        refine ⟨⟨_, _, _, { s.data with responses := s.data.responses.taken now }, s.device, le_rfl,
          fun hsound => ⟨hsound.requests, hsound.responses.taken⟩, rfl⟩, ?_⟩
        have hexecutes := Executes.access hasked.evaluates hasked.memory performs hloaded
        have hruns := (Runs.single (Step.executes hexecutes)).append (runs_of_reflTransGen device)
        refine .completes hruns rfl rfl hs.halted.symm ?_ hempty fun _ => ?_
        · change ({ image := bank.image, device := b.device } : Bank δ) = b
          rw [← image]
        · exact nextPc_of_evaluate hasked.evaluates.evaluated (.inr hasked.memory)

/-- The first edge of an instruction of the instruction set, or one on which there is no room. -/
theorem executePlain_issuing (hs : Executing a lane s frame)
    (hissuing : Issuing d epoch issue a lane b frame replies) (decoded : frame.decoded = some x)
    (flag : frame.bundle = false) (fetches : Fetches d issue a frame.word x)
    (lhs : frame.lhs = a.lhs x) (rhs : frame.rhs = a.rhs x) (single : frame.operations = [])
    (plain : x.op ≠ .quantum) (stays : ¬ Exits x a.registers)
    (h : (executePlain x frame now epoch).Returns s c s' l) :
    Touches s s' ∧ Attempt d changes epoch issue a lane b frame.word x s' c (events l) := by
  obtain ⟨e, hevaluated, h⟩ : ∃ e, a.evaluate x = .ok e ∧
      (InOrderPipeline.modifyFrame (fun frame => { frame with effect := some e }) >>= fun _ =>
        if e.memory = .none then
          pure (some { value := e.value, nextPc := e.nextPc, flush := e.branchTaken })
        else accessData frame e now epoch).Returns s c s' l := by
    simp only [executePlain] at h
    cases heffect : frame.effect with
    | some e =>
      rw [heffect] at h
      exact ⟨e, hissuing.effect e heffect x decoded, h⟩
    | none =>
      rw [heffect, lhs, rhs, hissuing.pc] at h
      simp only [Proc.returns_lift_bind_iff] at h
      exact h
  simp only [modifyFrame, modify, Proc.returns_modify_bind_iff] at h
  have hevaluates : Evaluates d issue a frame.word x e := ⟨fetches, plain, stays, hevaluated⟩
  by_cases hmemory : e.memory = .none
  · rw [if_pos hmemory] at h
    obtain ⟨rfl, rfl, rfl⟩ := Proc.returns_pure_iff.1 h
    refine ⟨⟨_, _, _, _, s.device, le_rfl, id, rfl⟩,
      .completes (.single (.executes (.plain hevaluates hmemory))) rfl rfl hs.halted.symm
        hissuing.same.symm ?_ fun hstraight => nextPc_of_evaluate hevaluated (.inl hstraight)⟩
    rw [hs.lane_eq]
    exact hissuing.carries
  · rw [if_neg hmemory] at h
    have hs₁ : Executing a lane
        { s with pipeline := { s.pipeline with
          execute := s.pipeline.execute.map fun frame => { frame with effect := some e } } }
        { frame with effect := some e } :=
      ⟨by simp [hs.execute], hs.halted, hs.running, hs.port, hs.last, hs.asked⟩
    have heffect : ∀ e' ∈ some e, ∀ x' ∈ frame.decoded, a.evaluate x' = .ok e' := by
      intro e' he' x' hx'
      obtain rfl := Option.some.inj he'
      obtain rfl := Option.some.inj (decoded.symm.trans hx')
      exact hevaluated
    have hissuing₁ : Issuing d epoch issue a lane b { frame with effect := some e } replies :=
      ⟨hissuing.issued.of_erase rfl, hissuing.pc, hissuing.unasked, heffect, hissuing.lanes,
        hissuing.bound, hissuing.carries, hissuing.same⟩
    obtain ⟨⟨_, _, _, _, _, hle, hsound, hs'⟩, houtcome⟩ :=
      accessData_sends hs₁ hissuing₁ single rfl decoded flag hevaluates hmemory h
    exact ⟨⟨_, _, _, _, _, hle, hsound, hs'⟩, houtcome⟩

/-- A later edge of an access. -/
theorem executePlain_asked (hs : Executing a lane s frame) (hasked : Asked d issue a frame x e)
    (hprogress : UnderWay d changes epoch issue a lane b (some frame) owed)
    (h : (executePlain x frame now epoch).Returns s c s' l) :
    Touches s s' ∧ Attempt d changes epoch issue a lane b frame.word x s' c (owed ++ events l) := by
  have hsame : { frame with effect := some e } = frame := by rw [← hasked.effect]
  have hs₁ : Executing a lane
      { s with pipeline := { s.pipeline with
        execute := s.pipeline.execute.map fun frame => { frame with effect := some e } } } frame :=
    ⟨by simp [hs.execute, hsame], hs.halted, hs.running, hs.port, hs.last, hs.asked⟩
  simp only [executePlain, hasked.effect, Proc.pure_bind, modifyFrame, modify,
    Proc.returns_modify_bind_iff, if_neg hasked.memory] at h
  obtain ⟨⟨_, _, _, _, _, hle, hsound, hs'⟩, houtcome⟩ := accessData_takes hs₁ hasked hprogress h
  exact ⟨⟨_, _, _, _, _, hle, hsound, hs'⟩, houtcome⟩

/-- One edge of the instruction that is next in the program. -/
theorem executeFrame_progress (hs : Executing a lane s frame) (sound : frame.fault = none)
    (decoded : frame.decoded = some x) (hregisters : s.pipeline.registers = a.registers)
    (hprogress : UnderWay d changes epoch issue a lane b (some frame) owed)
    (h : (executeFrame control x frame s.pipeline.registers now epoch).Returns s c s' l) :
    Touches s s' ∧ Attempt d changes epoch issue a lane b frame.word x s' c (owed ++ events l) := by
  have hasked : ∀ {x' : Rv32.Decoded} {e : Rv32.Effect}, Asked d issue a frame x' e →
      Touches s s' ∧ Attempt d changes epoch issue a lane b frame.word x s' c (owed ++ events l) := by
    intro x' e hasked
    obtain rfl := Option.some.inj (decoded.symm.trans hasked.decoded)
    have hstays : ¬ (x.op = .ecall ∧ s.pipeline.registers 17 = 93) := by
      rw [hregisters]
      exact hasked.evaluates.stays
    rw [executeFrame, if_neg (by simp [hasked.flag]), if_neg hasked.evaluates.plain,
      if_neg hstays] at h
    exact executePlain_asked hs hasked hprogress h
  cases hprogress with
  | asked h' | performed h' => exact hasked h'
  | issuing hissuing =>
    cases hissuing.issued with
    | fault raised =>
      rw [sound] at raised
      cases raised
    | bundle _ flag fetched bundled operations decoded' =>
      obtain rfl := Option.some.inj (decoded.symm.trans decoded')
      rw [executeFrame, if_pos flag] at h
      exact executeBundle_attempt hs hissuing fetched bundled operations h
    | scalar _ flag fetches decoded' lhs rhs single =>
      obtain rfl := Option.some.inj (decoded.symm.trans decoded')
      rw [executeFrame, if_neg (by simp [flag]), hregisters] at h
      rw [single, List.zipWith_nil_left, List.nil_append]
      split at h
      · exact executeQuantum_attempt hs hissuing fetches ‹_› lhs rhs single h
      · split at h
        · exact executeExit_attempt hs hissuing fetches ‹_› single h
        · exact executePlain_issuing hs hissuing decoded flag fetches lhs rhs single ‹_› ‹_› h

end Edge

end InOrderPipeline
end Qsbit

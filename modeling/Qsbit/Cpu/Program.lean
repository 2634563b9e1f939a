import Qsbit.Cpu.Refinement
import Qsbit.Image.Separation

/-!
# Programs of a core

The memory of a core holds its program, and the decoders are mapped into it. Where no segment of
the program is writable and executable, nothing that a core does changes a word that it has
fetched ahead, so that the core executes its program whatever the program stores.

## Main definitions

* `decoderDevice_steady` — the decoders are devices on which a core can rely.
* `CpuCore.program_executed` — a core executes the program in its memory.
-/
namespace Qsbit
open MemoryModel (Bank Lane LaneStep Performs)

/-! ## The decoders -/

namespace DecoderSystem
variable {s s' : DecoderSystem} {core now epoch : ℕ} {request : MemoryRequest} {reply : Option ℕ}
  {l : List TraceEvent}

theorem decoders_access (h : (access core request now epoch).Returns s reply s' l) :
    s'.mmio.decoders = s.mmio.decoders := by
  obtain ⟨c, mmio, hmmio, hcommand⟩ := access_returns_iff.1 h
  have hsame := (DecoderMmio.access_returns hmmio).2.decoders
  have hsend : ∀ {reset : Bool} {x : DecoderSubmit},
      (send core reset x now epoch).Returns { s with mmio } reply s' l →
        s'.mmio.decoders = s.mmio.decoders := by
    intro reset x h
    rcases send_returns h with ⟨-, rfl, -⟩ | ⟨packet, last, -, -, -, rfl, -⟩
    · exact hsame
    · cases reset <;> exact hsame
  rcases c with _ | submission | ⟨decoder, tag⟩ | decoder | ⟨decoder, kind⟩
  · obtain ⟨-, rfl, -⟩ := Proc.returns_pure_iff.1 hcommand
    exact hsame
  · exact hsend hcommand
  · exact hsend hcommand
  · obtain ⟨-, rfl, -⟩ := consume_returns hcommand
    exact hsame
  · obtain ⟨rfl | rfl, -, -⟩ := read_returns hcommand
    · exact hsame
    · exact hsame

/-- The decoders do not answer a fetch. -/
theorem access_fetch (h : request.instruction = true) : (access core request now epoch).Raises s
    ⟨.invalidOperand, "decoder MMIO requires aligned data words"⟩ s [] := by
  have hmmio : (DecoderMmio.access core request).Raises s.mmio
      ⟨.invalidOperand, "decoder MMIO requires aligned data words"⟩ s.mmio [] := by
    rw [DecoderMmio.access, Proc.raises_get_bind_iff, Proc.raises_lift_bind_iff]
    exact .inl ⟨by simp [require, h], rfl, rfl⟩
  rw [access_eq, Proc.raises_bind_iff]
  exact .inl (Proc.raises_zoom_iff.2 ⟨s.mmio, hmmio, rfl⟩)

end DecoderSystem

/-- The registers of the decoders stay where they are. -/
def SameRegisters (s s' : DecoderSystem) : Prop := s'.mmio.contains = s.mmio.contains

theorem SameRegisters.contains {core : ℕ} {s s' : DecoderSystem} (h : SameRegisters s s') :
    (decoderDevice core).contains s' = (decoderDevice core).contains s := by
  funext address
  exact decide_eq_decide.2 (iff_of_eq (congrFun h address))

theorem decoderDevice_steady (core : ℕ) : (decoderDevice core).Steady SameRegisters where
  fetch hinstruction h := h.not_raises (DecoderSystem.access_fetch hinstruction)
  faulted hinstruction h := by
    have hsame := h.symm.trans (DecoderSystem.access_fetch hinstruction)
    simp only [Outcome.mk.injEq, Except.error.injEq] at hsame
    obtain ⟨rfl, rfl, -⟩ := hsame
    exact ⟨rfl, rfl⟩
  refused := DecoderSystem.access_refused
  returned h := by
    refine SameRegisters.contains (funext fun address => ?_)
    simp only [DecoderMmio.contains, (DecoderSystem.mmio_access h).1,
      DecoderSystem.decoders_access h]
  raised h := by
    refine SameRegisters.contains (funext fun address => ?_)
    rw [(DecoderSystem.unaffected_raises h).mmio]
  changed := SameRegisters.contains

/-! ## Words that have been fetched ahead -/

section Separated
variable {δ : Type} {d : MemoryDevice δ} {changes : δ → δ → Prop} {clock : Clock}
  {latency now epoch : ℕ} {request : MemoryRequest} {result : Except Fault ℕ} {b b' : Bank δ}
  {lane lane' : Lane}

/-- A bank of which what is fetched is that of another one. -/
structure SameCode (d : MemoryDevice δ) (b b' : Bank δ) : Prop where
  separated : b'.image.Separated
  fetched : ∀ pc, Sequential.fetchResult d b' pc = Sequential.fetchResult d b pc

theorem SameCode.refl (h : b.image.Separated) : SameCode d b b := ⟨h, fun _ => rfl⟩

theorem SameCode.trans {b'' : Bank δ} (h : SameCode d b b') (h' : SameCode d b' b'') :
    SameCode d b b'' :=
  ⟨h'.separated, fun pc => (h'.fetched pc).trans (h.fetched pc)⟩

theorem sameCode_of_performs (hd : d.Steady changes) (hsep : b.image.Separated)
    (h : Performs d request now epoch b result b') : SameCode d b b' := by
  have hcontains := Sequential.contains_of_performs hd h
  have himage : b'.image.Separated ∧ ∀ pc, b'.image.read pc 4 true = b.image.read pc 4 true := by
    by_cases hdevice : d.contains b.device request.address = true
    · cases h with
      | value h =>
        obtain ⟨device, -, rfl⟩ := (MemoryModel.perform_device hdevice).1 h
        exact ⟨hsep, fun _ => rfl⟩
      | fault h =>
        obtain ⟨device, -, rfl⟩ := (MemoryModel.perform_device_raises hdevice).1 h
        exact ⟨hsep, fun _ => rfl⟩
    · rw [Bool.not_eq_true] at hdevice
      cases h with
      | value h =>
        have hresult := (Sequential.perform_image hdevice h).2
        split at hresult
        · exact ⟨hsep.write hresult, ProgramImage.fetch_of_write hsep hresult⟩
        · rw [hresult.2]
          exact ⟨hsep, fun _ => rfl⟩
      | fault h =>
        rw [MemoryModel.perform_image_raises hdevice h]
        exact ⟨hsep, fun _ => rfl⟩
  exact ⟨himage.1, fun pc => Sequential.fetchResult_congr hcontains (himage.2 _)⟩

theorem sameCode_of_laneStep (hd : d.Steady changes) (hsep : b.image.Separated)
    (h : LaneStep d clock latency now epoch (lane, b) (lane', b')) : SameCode d b b' := by
  cases h with
  | vacant | stale | accepted | early | dropped => exact .refl hsep
  | refused _ _ refuses =>
    rw [Sequential.refuses_same hd refuses]
    exact .refl hsep
  | answered _ _ performs => exact sameCode_of_performs hd hsep performs

end Separated

namespace CpuCore
variable {γ δ : Type} {d : MemoryDevice δ} {changes : δ → δ → Prop} {epoch : ℕ}
  {s s' : CpuCore γ δ} {l : List CpuEvent}

/-- No step changes what is fetched. -/
theorem Step.sameCode (hd : d.Steady changes) (hsep : s.memory.bank.image.Separated)
    (h : Step d changes epoch s l s') : SameCode d s.memory.bank s'.memory.bank := by
  cases h with
  | cpu edge =>
    obtain ⟨x, -, rfl⟩ := Proc.returns_zoom_iff.1 edge
    exact .refl hsep
  | memory edge =>
    obtain ⟨m, hstep, rfl⟩ := Proc.returns_zoom_iff.1 edge
    obtain ⟨middle, hfetch, hdata⟩ := MemoryModel.step_lanes hstep
    have hfirst := sameCode_of_laneStep hd hsep hfetch
    exact hfirst.trans (sameCode_of_laneStep hd hfirst.separated hdata)
  | devices device change =>
    exact ⟨hsep, fun _ => Sequential.fetchResult_congr (hd.changed change) rfl⟩
  | control => exact .refl hsep

/-- A program that does not write its code runs without changing what has been fetched ahead. -/
theorem clean_of_separated (hd : d.Steady changes) (hsep : s.memory.bank.image.Separated)
    (run : Runs (Step d changes epoch) s l s') :
    Runs (CleanStep d changes epoch) s l s' ∧ s'.memory.bank.image.Separated := by
  induction run with
  | start => exact ⟨.start, hsep⟩
  | next _ last ih =>
    have hsame := last.sameCode hd ih.2
    exact ⟨ih.1.next ⟨last, fun _ _ => hsame.fetched _⟩, hsame.separated⟩

/-! ## Cores that are started -/

/-- A core as it is constructed. -/
def make (issue : ControlIssue) (clock : Clock) (image : ProgramImage) (latency : ℕ) (device : δ)
    (control : γ) : Except Fault (CpuCore γ δ) := do
  let memory ← MemoryModel.make image clock latency device
  pure
    { pipeline := InOrderPipeline.make issue clock (BitVec.ofNat 32 memory.bank.image.entry)
      memory, control }

/-- A core that starts a new session. What its program has stored stays. -/
def reset (s : CpuCore γ δ) : CpuCore γ δ :=
  { s with
    pipeline := s.pipeline.reset (BitVec.ofNat 32 s.memory.bank.image.entry)
    memory := s.memory.reset }

theorem port_make {clock : Clock} {port : MemoryPort} (h : MemoryPort.make clock = .ok port) :
    port.Sound ∧ port.requests.entries = [] ∧ port.responses.entries = [] := by
  simp only [MemoryPort.make, Mailbox.make, Except.bind_eq_ok_iff, Except.pure_eq_ok_iff,
    require_eq_ok_iff, exists_const] at h
  obtain ⟨_, ⟨-, _, hclock, -, rfl⟩, _, ⟨-, _, -, -, rfl⟩, rfl⟩ := h
  have hvalid := Clock.validate_eq_ok_iff.1 hclock
  exact ⟨⟨⟨hvalid, Nat.zero_lt_one⟩, ⟨hvalid, Nat.zero_lt_one⟩⟩, rfl, rfl⟩

theorem started_make {issue : ControlIssue} {clock : Clock} {image : ProgramImage} {latency : ℕ}
    {device : δ} {control : γ} (h : make issue clock image latency device control = .ok s) :
    Started s ∧ s.memory.bank = { image, device } := by
  simp only [make, MemoryModel.make, Except.bind_eq_ok_iff, Except.pure_eq_ok_iff] at h
  obtain ⟨_, ⟨-, -, -, -, fetch, hfetch, data, hdata, rfl⟩, rfl⟩ := h
  obtain ⟨hfetchSound, hfetchRequests, hfetchResponses⟩ := port_make hfetch
  obtain ⟨hdataSound, hdataRequests, hdataResponses⟩ := port_make hdata
  exact ⟨⟨⟨_, rfl⟩, ⟨_, _, rfl, hfetchRequests, hfetchResponses⟩,
    ⟨_, _, rfl, hdataRequests, hdataResponses⟩, hfetchSound, hdataSound⟩, rfl⟩

/-- A core executes the program in its memory, whatever it stores, if no segment of the program is
writable and executable. -/
theorem program_executed (hd : d.Steady changes) (hstart : Started s)
    (hsep : s.memory.bank.image.Separated) (run : Runs (Step d changes epoch) s l s') :
    ∃ seen owed a, Follows d changes s s' l seen owed a :=
  runs_program hd hstart (clean_of_separated hd hsep run).1

section Probe

/-- Both edges of a core on each tick. -/
def drive (d : MemoryDevice δ) (control : ControlCallback γ) (epoch : ℕ) (s : CpuCore γ δ) :
    List ℕ → Except Fault (List CpuEvent × CpuCore γ δ)
  | [] => pure ([], s)
  | now :: rest => do
    let cpu := cpuEdge control now epoch s
    cpu.result
    let memory := memoryEdge d now epoch cpu.state
    memory.result
    let (l, s') ← drive d control epoch memory.state rest
    pure (InOrderPipeline.events cpu.log ++
      InOrderPipeline.accesses cpu.state.memory.data memory.state.memory.data ++ l, s')

theorem runs_drive {control : ControlCallback γ} {ticks : List ℕ} {x : List CpuEvent × CpuCore γ δ}
    (h : drive d control epoch s ticks = .ok x) : Runs (Step d changes epoch) s x.1 x.2 := by
  induction ticks generalizing s x with
  | nil =>
    obtain rfl := Except.pure_eq_ok_iff.1 h
    exact .start
  | cons now rest ih =>
    simp only [drive, Except.bind_eq_ok_iff, Except.pure_eq_ok_iff] at h
    obtain ⟨_, hcpu, _, hmemory, y, hrest, rfl⟩ := h
    have hfirst : Step d changes epoch _ _ _ :=
      .cpu (Proc.returns_of_result (congrArg Except.toOption hcpu))
    have hsecond : Step d changes epoch _ _ _ :=
      .memory (Proc.returns_of_result (congrArg Except.toOption hmemory))
    exact ((Runs.single hfirst).next hsecond).append (ih hrest)

/-- A program that stores a number, loads it and leaves. -/
def probeImage : ProgramImage where
  base := 0
  bytes := [0x93, 0x00, 0x50, 0x00, 0x23, 0x20, 0x10, 0x02, 0x03, 0x21, 0x00, 0x02,
    0x93, 0x08, 0xd0, 0x05, 0x73, 0x00, 0x00, 0x00] ++ List.replicate 20 0
  segments := [⟨0, 20, true, false, true⟩, ⟨32, 8, true, true, false⟩]

def probeMade : Except Fault (CpuCore Unit DecoderSystem) :=
  make .scalar {} probeImage 1 MemoryModel.freeDecoders ()

theorem isSome_probeMade : probeMade.toOption.isSome = true := by decide +kernel

def probe : CpuCore Unit DecoderSystem := probeMade.toOption.get isSome_probeMade

theorem started_probe : Started probe ∧
    probe.memory.bank = { image := probeImage, device := MemoryModel.freeDecoders } :=
  started_make (Except.eq_ok_get isSome_probeMade)

def probeDriven : Except Fault (List CpuEvent × CpuCore Unit DecoderSystem) :=
  drive (decoderDevice 0) (fun _ _ _ => pure (some 0)) 1 probe (List.range' 1 45)

theorem isSome_probeDriven : probeDriven.toOption.isSome = true := by decide +kernel

def probeRun : List CpuEvent × CpuCore Unit DecoderSystem :=
  probeDriven.toOption.get isSome_probeDriven

theorem runs_probe : Runs (Step (decoderDevice 0) SameRegisters 1) probe probeRun.1 probeRun.2 :=
  runs_drive (Except.eq_ok_get isSome_probeDriven)

theorem separated_probe : probe.memory.bank.image.Separated := by
  rw [started_probe.2]
  decide

/-- The program has left, and has made five instructions. -/
theorem program_executed_probe : probeRun.2.pipeline.halted = true ∧ probeRun.1.length = 8 ∧
    ∃ seen owed a, Follows (decoderDevice 0) SameRegisters probe probeRun.2 probeRun.1 seen owed a :=
  ⟨by decide +kernel, by decide +kernel,
    program_executed (decoderDevice_steady 0) started_probe.1 separated_probe runs_probe⟩

/-- It does not change what has been fetched ahead. -/
theorem runs_program_probe :
    ∃ seen owed a, Follows (decoderDevice 0) SameRegisters probe probeRun.2 probeRun.1 seen owed a :=
  runs_program (decoderDevice_steady 0) started_probe.1
    (clean_of_separated (decoderDevice_steady 0) separated_probe runs_probe).1

end Probe

end CpuCore
end Qsbit

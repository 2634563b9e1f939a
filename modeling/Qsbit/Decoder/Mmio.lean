import Qsbit.MemoryModel
import Mathlib.Data.Nat.Bitwise
import Std.Data.ExtTreeMap

/-!
# The registers of the decoders

Each core has its own registers at one address. Writing the command register gives
a command to the selected decoder, and reading asks for its width, status or
result; all other writes are kept for a later command.
-/
namespace Qsbit
open Std (ExtTreeMap)

namespace DecoderRegisters

def registerBytes : ℕ := 32
def select : ℕ := 0
def count : ℕ := 4
def dataLow : ℕ := 8
def dataHigh : ℕ := 12
def tag : ℕ := 16
def command : ℕ := 20
def resultLow : ℕ := 24
def resultHigh : ℕ := 28
def submit : ℕ := 1
def reset : ℕ := 2
def consume : ℕ := 3
def ready : ℕ := 1
def busy : ℕ := 2

end DecoderRegisters

structure DecoderSubmit where
  decoder : ℕ
  count : ℕ
  tag : ℕ
  data : ℕ
  deriving DecidableEq, Repr

inductive DecoderReadKind
  | count | status | low | high
  deriving DecidableEq, Repr

inductive DecoderCommand
  | submit (submission : DecoderSubmit)
  | reset (decoder tag : ℕ)
  | consume (decoder : ℕ)
  | read (decoder : ℕ) (kind : DecoderReadKind)
  deriving DecidableEq, Repr

namespace DecoderMmio

/-- What a core has written for its next commands. -/
structure Registers where
  decoder : ℕ := 0
  count : ℕ := 0
  low : ℕ := 0
  high : ℕ := 0
  tag : ℕ := 0
  deriving DecidableEq, Repr

end DecoderMmio

structure DecoderMmio where
  base : ℕ
  decoders : List ℕ
  registers : ExtTreeMap ℕ DecoderMmio.Registers := ∅

namespace DecoderMmio

def make (base : ℕ) (decoders : List ℕ) : Except Fault DecoderMmio := do
  require (base % 4 = 0 ∧ base ≤ 2 ^ 32 - 1 - (DecoderRegisters.registerBytes - 1)) .invalidProfile
    "invalid decoder MMIO address"
  pure { base, decoders }

def contains (m : DecoderMmio) (address : ℕ) : Prop :=
  m.decoders ≠ [] ∧ m.base ≤ address ∧ address < m.base + DecoderRegisters.registerBytes

instance (m : DecoderMmio) (address : ℕ) : Decidable (m.contains address) :=
  inferInstanceAs (Decidable (_ ∧ _ ∧ _))

/-- The registers of a core, which are zero before its first access. -/
def registersOf (m : DecoderMmio) (core : ℕ) : Registers := m.registers[core]?.getD {}

def write (core : ℕ) (r : Registers) : Sim DecoderMmio (Option DecoderCommand) := do
  Proc.modify fun m => { m with registers := m.registers.insert core r }
  pure none

/-- The command of a core whose registers are `r`. -/
def commandOf (m : DecoderMmio) (r : Registers) (value : ℕ) : Except Fault DecoderCommand := do
  require (r.decoder ∈ m.decoders) .invalidOperand "unknown decoder id"
  if value = DecoderRegisters.consume then pure (.consume r.decoder)
  else if value = DecoderRegisters.reset then pure (.reset r.decoder r.tag)
  else if value = DecoderRegisters.submit then do
    require (0 < r.count ∧ r.count ≤ 64) .invalidOperand "decoder packet must contain 1 to 64 bits"
    pure (.submit
      { decoder := r.decoder, count := r.count, tag := r.tag, data := r.low ||| r.high <<< 32 })
  else .error ⟨.invalidOperand, "invalid decoder command"⟩

def readOf (m : DecoderMmio) (r : Registers) (offset : ℕ) : Except Fault DecoderCommand := do
  require (r.decoder ∈ m.decoders) .invalidOperand "unknown decoder id"
  if offset = DecoderRegisters.count then pure (.read r.decoder .count)
  else if offset = DecoderRegisters.command then pure (.read r.decoder .status)
  else if offset = DecoderRegisters.resultLow then pure (.read r.decoder .low)
  else if offset = DecoderRegisters.resultHigh then pure (.read r.decoder .high)
  else .error ⟨.protocol, "decoder result read before completion"⟩

def access (core : ℕ) (request : MemoryRequest) : Sim DecoderMmio (Option DecoderCommand) := do
  let m ← Proc.get
  require (m.contains request.address ∧ request.width = 4 ∧ request.address % 4 = 0 ∧
    request.instruction = false) .invalidOperand "decoder MMIO requires aligned data words"
  let r := m.registersOf core
  let offset := request.address - m.base
  if request.write then
    if offset = DecoderRegisters.select then do
      require (request.value ∈ m.decoders) .invalidOperand "unknown decoder id"
      write core { r with decoder := request.value }
    else if offset = DecoderRegisters.count then write core { r with count := request.value }
    else if offset = DecoderRegisters.dataLow then write core { r with low := request.value }
    else if offset = DecoderRegisters.dataHigh then write core { r with high := request.value }
    else if offset = DecoderRegisters.tag then write core { r with tag := request.value }
    else if offset = DecoderRegisters.command then do
      let command ← commandOf m r request.value
      pure (some command)
    else Proc.check (.error ⟨.invalidOperand, "read-only decoder register"⟩)
  else do
    let command ← readOf m r offset
    pure (some command)

def reset (m : DecoderMmio) : DecoderMmio := { m with registers := ∅ }

/-! ## What an access does -/

/-- The registers after an access of their core, which has returned. -/
def stage (base : ℕ) (r : Registers) (request : MemoryRequest) : Registers :=
  let offset := request.address - base
  if request.write then
    if offset = DecoderRegisters.select then { r with decoder := request.value }
    else if offset = DecoderRegisters.count then { r with count := request.value }
    else if offset = DecoderRegisters.dataLow then { r with low := request.value }
    else if offset = DecoderRegisters.dataHigh then { r with high := request.value }
    else if offset = DecoderRegisters.tag then { r with tag := request.value }
    else r
  else r

/-- The packet that a core has put together in its registers. -/
def Registers.submission (r : Registers) : DecoderSubmit :=
  { decoder := r.decoder, count := r.count, tag := r.tag, data := r.low ||| r.high <<< 32 }

section Access
variable {m m' : DecoderMmio} {core : ℕ} {request : MemoryRequest} {command : Option DecoderCommand}
  {l : List TraceEvent}

theorem registersOf_write {r : Registers} {core' : ℕ} :
    registersOf { m with registers := m.registers.insert core r } core' =
      if core = core' then r else m.registersOf core' := by
  simp only [registersOf, ExtTreeMap.getElem?_insert, Nat.compare_eq_eq]
  split <;> rfl

theorem commandOf_spec {r : Registers} {value : ℕ} {c : DecoderCommand}
    (h : m.commandOf r value = .ok c) : r.decoder ∈ m.decoders ∧
      (c = .consume r.decoder ∨ c = .reset r.decoder r.tag ∨ c = .submit r.submission) := by
  simp only [commandOf, Except.bind_eq_ok_iff, require_eq_ok_iff, exists_const] at h
  obtain ⟨hdecoder, h⟩ := h
  refine ⟨hdecoder, ?_⟩
  split at h
  · exact .inl (Except.pure_eq_ok_iff.1 h).symm
  split at h
  · exact .inr (.inl (Except.pure_eq_ok_iff.1 h).symm)
  split at h
  · simp only [Except.bind_eq_ok_iff, require_eq_ok_iff, exists_const, Except.pure_eq_ok_iff] at h
    exact .inr (.inr h.2.symm)
  · simp at h

theorem readOf_spec {r : Registers} {offset : ℕ} {c : DecoderCommand}
    (h : m.readOf r offset = .ok c) : ∃ kind, c = .read r.decoder kind ∧
      (offset = DecoderRegisters.resultLow → kind = .low) ∧
      (offset = DecoderRegisters.resultHigh → kind = .high) := by
  simp only [readOf, Except.bind_eq_ok_iff, require_eq_ok_iff, exists_const] at h
  obtain ⟨-, h⟩ := h
  split at h
  · rename_i ho
    exact ⟨.count, (Except.pure_eq_ok_iff.1 h).symm, by simp [ho, DecoderRegisters.count,
      DecoderRegisters.resultLow, DecoderRegisters.resultHigh]⟩
  split at h
  · rename_i ho
    exact ⟨.status, (Except.pure_eq_ok_iff.1 h).symm, by simp [ho, DecoderRegisters.command,
      DecoderRegisters.resultLow, DecoderRegisters.resultHigh]⟩
  split at h
  · rename_i ho
    exact ⟨.low, (Except.pure_eq_ok_iff.1 h).symm, by simp [ho, DecoderRegisters.resultLow,
      DecoderRegisters.resultHigh]⟩
  split at h
  · rename_i hnot ho
    exact ⟨.high, (Except.pure_eq_ok_iff.1 h).symm, fun hlow => absurd hlow hnot, fun _ => rfl⟩
  · simp at h

/-- An access that returns has no effect but on the registers of its core. -/
structure Accesses (core : ℕ) (request : MemoryRequest) (command : Option DecoderCommand)
    (m m' : DecoderMmio) : Prop where
  base : m'.base = m.base
  decoders : m'.decoders = m.decoders
  registers : ∀ core', m'.registersOf core' =
    if core = core' then stage m.base (m.registersOf core) request else m.registersOf core'
  same : ∀ c ∈ command, m' = m
  write : request.write = true → ∀ c ∈ command, (m.registersOf core).decoder ∈ m.decoders ∧
    (c = .consume (m.registersOf core).decoder ∨
      c = .reset (m.registersOf core).decoder (m.registersOf core).tag ∨
      c = .submit (m.registersOf core).submission)
  read : request.write = false → ∃ kind, command = some (.read (m.registersOf core).decoder kind) ∧
    (request.address - m.base = DecoderRegisters.resultLow → kind = .low) ∧
    (request.address - m.base = DecoderRegisters.resultHigh → kind = .high)

theorem accesses_write {r : Registers} (hwrite : request.write = true)
    (hr : stage m.base (m.registersOf core) request = r)
    (h : (write core r).Returns m command m' l) : l = [] ∧ Accesses core request command m m' := by
  simp only [write, Proc.returns_modify_bind_iff] at h
  obtain ⟨rfl, rfl, rfl⟩ := Proc.returns_pure_iff.1 h
  refine ⟨rfl, rfl, rfl, fun core' => ?_, by simp, by simp, by simp [hwrite]⟩
  rw [registersOf_write, hr]

theorem access_returns (h : (access core request).Returns m command m' l) :
    l = [] ∧ Accesses core request command m m' := by
  simp only [access, Proc.returns_get_bind_iff, Proc.returns_lift_bind_iff, require_eq_ok_iff,
    exists_const] at h
  obtain ⟨-, h⟩ := h
  cases hwrite : request.write with
  | true =>
    rw [hwrite, if_pos rfl] at h
    split at h
    · rename_i hoffset
      simp only [Proc.returns_lift_bind_iff, require_eq_ok_iff, exists_const] at h
      exact accesses_write hwrite (by simp [stage, hwrite, hoffset]) h.2
    split at h
    · rename_i hselect hoffset
      exact accesses_write hwrite (by rw [stage, if_pos hwrite, if_neg hselect, if_pos hoffset]) h
    split at h
    · rename_i hselect hcount hoffset
      exact accesses_write hwrite
        (by rw [stage, if_pos hwrite, if_neg hselect, if_neg hcount, if_pos hoffset]) h
    split at h
    · rename_i hselect hcount hlow hoffset
      exact accesses_write hwrite
        (by rw [stage, if_pos hwrite, if_neg hselect, if_neg hcount, if_neg hlow, if_pos hoffset]) h
    split at h
    · rename_i hselect hcount hlow hhigh hoffset
      exact accesses_write hwrite
        (by rw [stage, if_pos hwrite, if_neg hselect, if_neg hcount, if_neg hlow, if_neg hhigh,
          if_pos hoffset]) h
    split at h
    · rename_i hselect hcount hlow hhigh htag hoffset
      simp only [Proc.returns_lift_bind_iff] at h
      obtain ⟨c, hc, h⟩ := h
      obtain ⟨rfl, rfl, rfl⟩ := Proc.returns_pure_iff.1 h
      refine ⟨rfl, rfl, rfl, fun core' => ?_, fun _ _ => rfl, fun _ c' hc' => ?_, by simp [hwrite]⟩
      · rw [stage, if_pos hwrite, if_neg hselect, if_neg hcount, if_neg hlow, if_neg hhigh,
          if_neg htag]
        split
        · rename_i heq
          rw [heq]
        · rfl
      · obtain rfl := Option.some.inj hc'
        exact commandOf_spec hc
    · simp at h
  | false =>
    rw [hwrite, if_neg (by simp)] at h
    simp only [Proc.returns_lift_bind_iff] at h
    obtain ⟨c, hc, h⟩ := h
    obtain ⟨rfl, rfl, rfl⟩ := Proc.returns_pure_iff.1 h
    obtain ⟨kind, rfl, hlow, hhigh⟩ := readOf_spec hc
    refine ⟨rfl, rfl, rfl, fun core' => ?_, fun _ _ => rfl, by simp [hwrite],
      fun _ => ⟨kind, rfl, hlow, hhigh⟩⟩
    have hread : ¬ request.write = true := by simp [hwrite]
    rw [stage, if_neg hread]
    split
    · rename_i heq
      rw [heq]
    · rfl

theorem not_raises_write {r : Registers} {f : Fault} : ¬ (write core r).Raises m f m' l := by
  rw [write, Proc.raises_modify_bind_iff]
  exact Proc.not_raises_pure

/-- An access that faults has no effect. -/
theorem access_raises {f : Fault} (h : (access core request).Raises m f m' l) : m' = m ∧ l = [] := by
  rw [access, Proc.raises_get_bind_iff] at h
  rcases Proc.raises_lift_bind_iff.1 h with ⟨-, rfl, rfl⟩ | ⟨_, -, h⟩
  · exact ⟨rfl, rfl⟩
  dsimp only at h
  split at h
  · split at h
    · rcases Proc.raises_lift_bind_iff.1 h with ⟨-, rfl, rfl⟩ | ⟨_, -, h⟩
      · exact ⟨rfl, rfl⟩
      · exact absurd h not_raises_write
    iterate 4
      split at h
      · exact absurd h not_raises_write
    split at h
    · rcases Proc.raises_lift_bind_iff.1 h with ⟨-, rfl, rfl⟩ | ⟨_, -, h⟩
      · exact ⟨rfl, rfl⟩
      · exact absurd h Proc.not_raises_pure
    · obtain ⟨-, rfl, rfl⟩ := Proc.raises_check_iff.1 h
      exact ⟨rfl, rfl⟩
  · rcases Proc.raises_lift_bind_iff.1 h with ⟨-, rfl, rfl⟩ | ⟨_, -, h⟩
    · exact ⟨rfl, rfl⟩
    · exact absurd h Proc.not_raises_pure

/-- A command that is no read comes from a write and is put together from the registers. -/
theorem Accesses.of_write {c : DecoderCommand} (h : Accesses core request (some c) m m')
    (hread : ∀ decoder kind, c ≠ .read decoder kind) :
    (m.registersOf core).decoder ∈ m.decoders ∧
      (c = .consume (m.registersOf core).decoder ∨
        c = .reset (m.registersOf core).decoder (m.registersOf core).tag ∨
        c = .submit (m.registersOf core).submission) := by
  cases hwrite : request.write with
  | true => exact h.write hwrite c rfl
  | false =>
    obtain ⟨kind, hkind, -⟩ := h.read hwrite
    exact absurd (Option.some.inj hkind) (hread _ kind)

end Access
end DecoderMmio
end Qsbit

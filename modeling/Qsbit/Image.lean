import Qsbit.Error
import Mathlib.Tactic.Ring

/-!
# Program images

An image is the memory of a core with the segments of the program in it. It is made of an
ELF file or of raw machine words; afterwards it checks every access against its segments.

The loader reads a file that may hold anything. Its model keeps apart what the program
raises itself from what it must never do: a read or a write outside of a buffer, and an
unsigned computation that wraps.

## Main definitions

* `ProgramImage` — base, entry, bytes and segments.
* `ProgramImage.elf`, `ProgramImage.raw` — the two ways to make one.
* `ProgramImage.offset`, `ProgramImage.read`, `ProgramImage.write` — the accesses.
-/
namespace Qsbit

abbrev Byte := BitVec 8

structure Segment where
  address : ℕ := 0
  size : ℕ := 0
  readable : Bool := false
  writable : Bool := false
  executable : Bool := false
  deriving DecidableEq, Repr

structure ProgramImage where
  base : ℕ
  entry : ℕ := 0
  bytes : List Byte
  segments : List Segment := []
  deriving DecidableEq, Repr

/-! ## Computations of the loader -/

/-- Why the loader stops: it raises a fault, or it would leave a buffer or wrap. -/
inductive Halt
  | fault (fault : Fault)
  | outOfBounds
  | wrapped
  deriving DecidableEq, Repr

namespace Loader

def check (condition : Bool) (message : String) : Except Halt Unit :=
  if condition then .ok () else .error (.fault ⟨.invalidImage, message⟩)

/-- A conjunction that evaluates no further than to its first false condition. -/
def conj : List (Except Halt Bool) → Except Halt Bool
  | [] => .ok true
  | c :: rest => do if ← c then conj rest else pure false

/-- Addition of 64-bit numbers. -/
def add (a b : ℕ) : Except Halt ℕ := if a + b < 2 ^ 64 then .ok (a + b) else .error .wrapped

/-- Multiplication of 64-bit numbers. -/
def mul (a b : ℕ) : Except Halt ℕ := if a * b < 2 ^ 64 then .ok (a * b) else .error .wrapped

def sub (a b : ℕ) : Except Halt ℕ := if b ≤ a then .ok (a - b) else .error .wrapped

/-- A read of a buffer. -/
def byteAt (bytes : List Byte) (p : ℕ) : Except Halt Byte :=
  match bytes[p]? with
  | some b => .ok b
  | none => .error .outOfBounds

/-- Copy `count` bytes of the file from `p` to `q`. -/
def copyN (file : List Byte) (p count : ℕ) (bytes : List Byte) (q : ℕ) : Except Halt (List Byte) :=
  if p + count ≤ file.length ∧ q + count ≤ bytes.length then
    .ok (bytes.take q ++ (file.drop p).take count ++ bytes.drop (q + count))
  else .error .outOfBounds

end Loader

open Loader

/-- The bytes from `p + i` on, the first one lowest. -/
def fieldFrom (b : List Byte) (p width i value : ℕ) : Except Halt ℕ :=
  match width with
  | 0 => pure value
  | width + 1 => do
    let byte ← byteAt b (← add p i)
    fieldFrom b p width (i + 1) (value ||| (byte.toNat <<< (8 * i)))

def field (b : List Byte) (p width : ℕ) : Except Halt ℕ := do
  check (← conj [pure (p ≤ b.length), do pure (width ≤ (← sub b.length p))]) "truncated ELF field"
  fieldFrom b p width 0 0

namespace ProgramImage

def make (base size : ℕ) : Except Halt ProgramImage := do
  check (← conj [pure (0 < size), do pure ((← add base size) ≤ 2 ^ 32)])
    "memory map exceeds RV32 address space"
  pure { base, bytes := List.replicate size 0 }

def raw (file : List Byte) (address base size : BitVec 32) : Except Halt ProgramImage := do
  check (file ≠ [] ∧ file.length % 4 = 0 ∧ address.toNat % 4 = 0)
    "raw image must contain aligned RV32 words"
  check (← conj [pure (base.toNat ≤ address.toNat),
      do pure ((← add (← sub address.toNat base.toNat) file.length) ≤ size.toNat)])
    "raw image is outside memory"
  let image ← make base.toNat size.toNat
  let bytes ← copyN file 0 file.length image.bytes (← sub address.toNat base.toNat)
  pure { image with
    entry := address.toNat
    bytes
    segments := image.segments ++ [⟨address.toNat, file.length % 2 ^ 32, true, true, true⟩] }

/-- The new segment meets none of the earlier ones. -/
def checkOverlap (address size : ℕ) : List Segment → Except Halt Unit
  | [] => pure ()
  | other :: rest => do
    let below ← add address size
    let above ← add other.address other.size
    check (below ≤ other.address ∨ above ≤ address) "overlapping ELF segments"
    checkOverlap address size rest

/-- The alignment is a power of two that the two places of a segment agree on. -/
def testAlignment (off addr align : ℕ) : Except Halt Bool :=
  if align ≤ 1 then pure true
  else conj [do pure (align &&& (← sub align 1) = 0), pure (addr % align = off % align)]

/-- A loadable segment. Its checks are made for an empty one, too. -/
def placeSegment (file : List Byte) (base size : ℕ) (image : ProgramImage)
    (off addr filesz memsz flags align : ℕ) : Except Halt ProgramImage := do
  check (← conj [pure (filesz ≤ memsz), do pure ((← add off filesz) ≤ file.length),
      pure (base ≤ addr), do pure ((← add (← sub addr base) memsz) ≤ size)])
    "ELF segment is out of bounds"
  check (← testAlignment off addr align) "invalid ELF segment alignment"
  if memsz = 0 then pure image
  else
    checkOverlap addr memsz image.segments
    let bytes ← copyN file off filesz image.bytes (← sub addr base)
    pure { image with
      segments := image.segments ++
        [⟨addr, memsz, flags &&& 4 ≠ 0, flags &&& 2 ≠ 0, flags &&& 1 ≠ 0⟩]
      bytes }

/-- One program header; what is not loadable is passed over. -/
def loadSegment (file : List Byte) (base size phoff : ℕ) (image : ProgramImage) (n : ℕ) :
    Except Halt ProgramImage := do
  let p ← add phoff (← mul n 32)
  if (← field file p 4) ≠ 1 then pure image
  else
    let off ← field file (← add p 4) 4
    let addr ← field file (← add p 8) 4
    let filesz ← field file (← add p 16) 4
    let memsz ← field file (← add p 20) 4
    let flags ← field file (← add p 24) 4
    let align ← field file (← add p 28) 4
    placeSegment file base size image off addr filesz memsz flags align

/-- The program headers from `n` on. -/
def loadSegments (file : List Byte) (base size phoff : ℕ) (image : ProgramImage) (n : ℕ) :
    ℕ → Except Halt ProgramImage
  | 0 => pure image
  | count + 1 => do
    let image ← loadSegment file base size phoff image n
    loadSegments file base size phoff image (n + 1) count

/-- The entry lies in an executable segment. -/
def executableEntry (entry : ℕ) : List Segment → Except Halt Bool
  | [] => pure false
  | s :: rest => do
    let inside ← conj [pure s.executable, pure (s.address ≤ entry),
      do pure ((← add entry 4) ≤ (← add s.address s.size))]
    if inside then pure true else executableEntry entry rest

def equals (x : Except Halt ℕ) (value : ℕ) : Except Halt Bool := do pure ((← x) = value)

/-- A little-endian ELF32 file. -/
def testIdentification (file : List Byte) : Except Halt Bool :=
  let byte (p : ℕ) : Except Halt ℕ := do pure (← byteAt file p).toNat
  conj [pure (52 ≤ file.length), equals (field file 0 4) 0x464c457f, equals (byte 4) 1,
    equals (byte 5) 1, equals (byte 6) 1]

/-- An executable for this machine, without compressed instructions. -/
def testMachine (file : List Byte) : Except Halt Bool :=
  conj [equals (field file 16 2) 2, equals (field file 18 2) 243, equals (field file 20 4) 1,
    equals (field file 40 2) 52, equals (field file 36 4) 0]

/-- The table of program headers lies in the file. -/
def testTable (file : List Byte) (phoff count : ℕ) : Except Halt Bool :=
  conj [equals (field file 42 2) 32, pure (0 < count),
    do pure ((← add phoff (← mul count 32)) ≤ file.length)]

def elf (file : List Byte) (base size : BitVec 32) : Except Halt ProgramImage := do
  check (← testIdentification file) "expected little-endian ELF32"
  check (← testMachine file) "expected an uncompressed RV32I executable"
  let phoff ← field file 28 4
  let count ← field file 44 2
  check (← testTable file phoff count) "invalid ELF program header table"
  let image ← make base.toNat size.toNat
  let entry ← field file 24 4
  let image ← loadSegments file base.toNat size.toNat phoff { image with entry } 0 count
  check (← conj [pure (image.entry % 4 = 0), executableEntry image.entry image.segments])
    "entry is not an aligned executable word"
  pure image

/-! ## Accesses -/

def accessCode (store instruction : Bool) : ErrorCode :=
  if instruction then .instructionAccess else if store then .storeAccess else .loadAccess

def misalignedCode (store instruction : Bool) : ErrorCode :=
  if instruction then .instructionMisaligned else if store then .storeMisaligned else .loadMisaligned

/-- The segments that an access meets contain it and permit it; the result says whether the
last of them is executable. -/
def checkSegments (address width : ℕ) (store instruction : Bool) :
    Bool → List Segment → Except Fault Bool
  | executable, [] => pure executable
  | executable, s :: rest =>
    if address < s.address + s.size ∧ s.address < address + width then do
      require (s.address ≤ address ∧ address + width ≤ s.address + s.size)
        (accessCode store instruction) "memory access straddles segment boundary"
      require (if instruction then s.executable else if store then s.writable else s.readable)
        (accessCode store instruction) "segment permission violation"
      checkSegments address width store instruction s.executable rest
    else checkSegments address width store instruction executable rest

def offset (image : ProgramImage) (address width : ℕ) (store instruction : Bool) :
    Except Fault ℕ := do
  let access := accessCode store instruction
  require (width = 1 ∨ width = 2 ∨ width = 4) access "invalid memory access width"
  require (address % width = 0) (misalignedCode store instruction) "misaligned memory access"
  require (image.base ≤ address ∧ address - image.base + width ≤ image.bytes.length) access
    "memory access outside configured RAM"
  let executable ← checkSegments address width store instruction false image.segments
  require (instruction → executable) access "instruction fetch outside executable segments"
  pure (address - image.base)

/-- The value of `width` bytes from `p` on, the first one lowest. -/
def readFrom (bytes : List Byte) (p : ℕ) : ℕ → ℕ → ℕ → ℕ
  | _, 0, value => value
  | n, width + 1, value =>
    readFrom bytes p (n + 1) width (value ||| ((bytes.getD (p + n) 0).toNat <<< (n * 8)))

def read (image : ProgramImage) (address width : ℕ) (instruction : Bool) : Except Fault ℕ := do
  let p ← image.offset address width false instruction
  pure (readFrom image.bytes p 0 width 0)

def writeFrom (value p : ℕ) : ℕ → ℕ → List Byte → List Byte
  | _, 0, bytes => bytes
  | n, width + 1, bytes =>
    writeFrom value p (n + 1) width (bytes.set (p + n) (BitVec.ofNat 8 (value >>> (n * 8))))

def write (image : ProgramImage) (address width value : ℕ) : Except Fault ProgramImage := do
  let p ← image.offset address width true false
  pure { image with bytes := writeFrom value p 0 width image.bytes }

end ProgramImage
end Qsbit

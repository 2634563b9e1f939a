import Qsbit.Image
import Qsbit.Lib.LittleEndian

/-!
# The ELF loader

A file is accepted exactly when its header is that of an ELF32 file for this machine, its
loadable segments lie in the file and in memory, the nonempty ones do not overlap and the
entry is an executable word. Whatever the file holds, the loader reads and writes inside
its buffers and no computation wraps: all it raises is an invalid image.

## Main definitions

* `ElfHeader`, `ProgramHeader` — what the file has to say.
* `ProgramHeader.Fits` — a loadable segment lies in the file and in memory.
* `Decides` — a computation of the loader that tests a condition.
* `Holds` — the image of the program headers so far.

## Main results

* `ProgramImage.elf_exact` — soundness, the loaded image, and acceptance.
-/
namespace Qsbit
open Loader

/-! ## Tests -/

/-- A computation of the loader that has a value if a condition holds, and stops with an
invalid image otherwise. It never leaves a buffer, and it never wraps. -/
structure Decides {α : Type} (x : Except Halt α) (p : Prop) (a : α) : Prop where
  accepts : p → x = .ok a
  rejects : ¬ p → ∃ message, x = .error (.fault ⟨.invalidImage, message⟩)

section Tests
variable {α β : Type} {p q : Prop}

/-- The last condition decides. -/
theorem conj_last [Decidable p] {c : Except Halt Bool} (hc : c = .ok (decide p)) :
    conj [c] = .ok (decide p) := by
  rw [conj, hc]
  by_cases hp : p
  · simp [hp, bind, Except.bind, conj]
  · simp [hp, bind, Except.bind, pure, Except.pure]

/-- A condition is evaluated only after the ones before it hold. -/
theorem conj_cons [Decidable p] [Decidable q] {c : Except Halt Bool} {rest : List (Except Halt Bool)}
    (hc : c = .ok (decide p)) (hrest : p → conj rest = .ok (decide q)) :
    conj (c :: rest) = .ok (decide (p ∧ q)) := by
  rw [conj, hc]
  by_cases hp : p
  · simp [hp, hrest hp, bind, Except.bind]
  · simp [hp, bind, Except.bind, pure, Except.pure]

namespace Decides

theorem of_ok {x : Except Halt α} {a : α} (h : x = .ok a) : Decides x True a :=
  ⟨fun _ => h, fun hfalse => absurd trivial hfalse⟩

theorem congr {x : Except Halt α} {a : α} (h : Decides x p a) (hpq : p ↔ q) : Decides x q a :=
  ⟨fun hq => h.accepts (hpq.2 hq), fun hq => h.rejects (mt hpq.1 hq)⟩

theorem bind {x : Except Halt α} {f : α → Except Halt β} {a : α} {b : β} (hx : Decides x p a)
    (hf : p → Decides (f a) q b) : Decides (x >>= f) (p ∧ q) b := by
  constructor
  · rintro ⟨hp, hq⟩
    rw [hx.accepts hp]
    exact (hf hp).accepts hq
  · intro hnot
    by_cases hp : p
    · rw [hx.accepts hp]
      exact (hf hp).rejects fun hq => hnot ⟨hp, hq⟩
    · obtain ⟨message, hfault⟩ := hx.rejects hp
      rw [hfault]
      exact ⟨message, rfl⟩

/-- A value that is known is put in its place. -/
theorem bind_ok {x : Except Halt α} {f : α → Except Halt β} {a : α} {b : β} (hx : x = .ok a)
    (hf : Decides (f a) q b) : Decides (x >>= f) q b := by
  rw [hx]
  exact hf

theorem check [Decidable p] {message : String} : Decides (Loader.check (decide p) message) p () := by
  constructor
  · intro hp
    simp [Loader.check, hp]
  · intro hp
    exact ⟨message, by simp [Loader.check, hp]⟩

/-- What follows a check may rely on its condition. -/
theorem test [Decidable p] {c : Except Halt Bool} {message : String} {k : Except Halt α} {a : α}
    (hc : c = .ok (decide p)) (hk : p → Decides k q a) :
    Decides (do Loader.check (← c) message; k) (p ∧ q) a :=
  bind_ok hc (bind check hk)

end Decides

variable {a b c : ℕ}

theorem add_eq (h : a + b < 2 ^ 64) : add a b = .ok (a + b) := if_pos h

theorem mul_eq (h : a * b < 2 ^ 64) : mul a b = .ok (a * b) := if_pos h

theorem sub_eq (h : b ≤ a) : sub a b = .ok (a - b) := if_pos h

end Tests

/-! ## Fields -/

/-- The number in `width` bytes of the file from `p` on. -/
def word (file : List Byte) (p width : ℕ) : ℕ := littleEndian ((file.drop p).take width)

section Fields
variable {file : List Byte} {p width : ℕ}

theorem word_lt : word file p width < 256 ^ width := by
  refine lt_of_lt_of_le (littleEndian_lt _) (Nat.pow_le_pow_right (by decide) ?_)
  exact List.length_take_le _ _

theorem byteAt_eq (h : p < file.length) : byteAt file p = .ok file[p] := by
  rw [byteAt, List.getElem?_eq_getElem h]

/-- Inside the file the reader adds the bytes from `p + i` on to what it has. -/
theorem fieldFrom_eq {i value : ℕ} (hfile : p + i + width ≤ file.length)
    (hwrap : p + i + width < 2 ^ 64) (hvalue : value < 256 ^ i) :
    fieldFrom file p width i value = .ok (value + 256 ^ i * word file (p + i) width) := by
  induction width generalizing i value with
  | zero => simp [fieldFrom, word, pure, Except.pure]
  | succ width ih =>
    have hlt : p + i < file.length := by omega
    have hadd : add p i = .ok (p + i) := add_eq (by omega)
    have hsplit : word file (p + i) (width + 1) =
        file[p + i].toNat + 256 * word file (p + (i + 1)) width := by
      rw [word, List.drop_eq_getElem_cons hlt, List.take_succ_cons, littleEndian_cons]
      rfl
    rw [fieldFrom, hadd]
    simp only [bind, Except.bind, byteAt_eq hlt]
    rw [or_shiftLeft_byte _ hvalue, ih (by omega) (by omega) (add_byte_lt _ hvalue), hsplit,
      pow_succ]
    congr 1
    ring

/-- Inside the file a field is read as it is. -/
theorem field_eq (hfile : p + width ≤ file.length) (hwrap : p + width < 2 ^ 64) :
    field file p width = .ok (word file p width) := by
  have hle : p ≤ file.length := by omega
  have hwidth : width ≤ file.length - p := by omega
  have hcs : conj [pure (p ≤ file.length), do pure (width ≤ (← sub file.length p))] =
      .ok (decide (p ≤ file.length ∧ width ≤ file.length - p)) := by
    refine conj_cons rfl fun _ => conj_last ?_
    rw [sub_eq hle]
    rfl
  have hread := fieldFrom_eq (i := 0) hfile hwrap (by decide : 0 < 256 ^ 0)
  rw [field]
  refine (Decides.test (q := True) hcs fun _ => .of_ok (hread.trans ?_)).accepts ?_
  · simp
  · exact ⟨⟨hle, hwidth⟩, trivial⟩

end Fields

/-! ## Program headers -/

structure ProgramHeader where
  kind : ℕ
  offset : ℕ
  address : ℕ
  fileSize : ℕ
  memorySize : ℕ
  flags : ℕ
  align : ℕ
  deriving DecidableEq, Repr

/-- Two segments have no byte in common. -/
def Segment.Apart (s t : Segment) : Prop :=
  s.address + s.size ≤ t.address ∨ t.address + t.size ≤ s.address

instance (s t : Segment) : Decidable (s.Apart t) := inferInstanceAs (Decidable (_ ∨ _))

namespace ProgramHeader

/-- The program header at `p`. -/
def ofFile (file : List Byte) (p : ℕ) : ProgramHeader :=
  { kind := word file p 4
    offset := word file (p + 4) 4
    address := word file (p + 8) 4
    fileSize := word file (p + 16) 4
    memorySize := word file (p + 20) 4
    flags := word file (p + 24) 4
    align := word file (p + 28) 4 }

/-- The header of a loadable segment. -/
def Loadable (h : ProgramHeader) : Prop := h.kind = 1

/-- The header of a loadable segment that is not empty. -/
def Occupied (h : ProgramHeader) : Prop := h.kind = 1 ∧ h.memorySize ≠ 0

instance (h : ProgramHeader) : Decidable h.Loadable := inferInstanceAs (Decidable (_ = _))
instance (h : ProgramHeader) : Decidable h.Occupied := inferInstanceAs (Decidable (_ ∧ _))

def segment (h : ProgramHeader) : Segment :=
  ⟨h.address, h.memorySize, h.flags &&& 4 ≠ 0, h.flags &&& 2 ≠ 0, h.flags &&& 1 ≠ 0⟩

/-- The segment lies in the file and in memory, and its alignment is a power of two that its
two places agree on. -/
structure Fits (file : List Byte) (base size : ℕ) (h : ProgramHeader) : Prop where
  stored : h.fileSize ≤ h.memorySize
  inFile : h.offset + h.fileSize ≤ file.length
  above : base ≤ h.address
  inMemory : h.address + h.memorySize ≤ base + size
  aligned : h.align ≤ 1 ∨ h.align.isPowerOfTwo ∧ h.address % h.align = h.offset % h.align

end ProgramHeader

namespace ProgramImage

/-- The image with one more segment in it. -/
def install (image : ProgramImage) (file : List Byte) (h : ProgramHeader) : ProgramImage :=
  if h.Occupied then
    { image with
      segments := image.segments ++ [h.segment]
      bytes := image.bytes.take (h.address - image.base) ++ (file.drop h.offset).take h.fileSize ++
        image.bytes.drop (h.address - image.base + h.fileSize) }
  else image

/-- What the loader asks of the next program header. -/
def Admits (image : ProgramImage) (file : List Byte) (size : ℕ) (h : ProgramHeader) : Prop :=
  (h.Loadable → h.Fits file image.base size) ∧
    (h.Occupied → ∀ s ∈ image.segments, h.segment.Apart s)

section Segments
variable {file : List Byte} {image : ProgramImage} {base size phoff n : ℕ}

theorem decides_checkOverlap {address size : ℕ} {segments : List Segment} {s : Segment}
    (hs : s.address = address ∧ s.size = size) (hwrap : address + size < 2 ^ 64)
    (hsegments : ∀ t ∈ segments, t.address + t.size < 2 ^ 64) :
    Decides (checkOverlap address size segments) (∀ t ∈ segments, s.Apart t) () := by
  induction segments with
  | nil => exact (Decides.of_ok rfl).congr (by simp)
  | cons other rest ih =>
    rw [List.forall_mem_cons] at hsegments
    obtain ⟨rfl, rfl⟩ := hs
    refine (Decides.bind_ok (add_eq hwrap) (.bind_ok (add_eq hsegments.1)
      (.bind .check fun _ => ih hsegments.2))).congr ?_
    rw [List.forall_mem_cons]
    rfl

/-- The alignment test is that of a power of two. -/
theorem aligned_eq (h : ProgramHeader) :
    testAlignment h.offset h.address h.align =
      .ok (decide (h.align ≤ 1 ∨
        h.align &&& (h.align - 1) = 0 ∧ h.address % h.align = h.offset % h.align)) := by
  rw [testAlignment]
  by_cases hone : h.align ≤ 1
  · simp [hone, pure, Except.pure]
  · have hle : 1 ≤ h.align := by omega
    have hcs : conj [do pure (h.align &&& (← sub h.align 1) = 0),
        pure (h.address % h.align = h.offset % h.align)] =
        .ok (decide (h.align &&& (h.align - 1) = 0 ∧
          h.address % h.align = h.offset % h.align)) := by
      refine conj_cons ?_ fun _ => conj_last rfl
      rw [sub_eq hle]
      rfl
    rw [if_neg hone, hcs]
    simp [hone]

/-- The bounds of a segment, as the loader tests them. -/
theorem bounds_eq {h : ProgramHeader} (hoffset : h.offset < 2 ^ 32) (hfile : h.fileSize < 2 ^ 32)
    (hmemory : h.memorySize < 2 ^ 32) (haddress : h.address < 2 ^ 32) :
    conj [pure (h.fileSize ≤ h.memorySize),
        do pure ((← add h.offset h.fileSize) ≤ file.length), pure (base ≤ h.address),
        do pure ((← add (← sub h.address base) h.memorySize) ≤ size)] =
      .ok (decide (h.fileSize ≤ h.memorySize ∧ h.offset + h.fileSize ≤ file.length ∧
        base ≤ h.address ∧ h.address - base + h.memorySize ≤ size)) := by
  refine conj_cons rfl fun _ => conj_cons ?_ fun _ => conj_cons rfl fun habove => conj_last ?_
  · rw [add_eq (by omega)]
    rfl
  · rw [sub_eq habove]
    simp only [bind, Except.bind]
    rw [add_eq (by omega)]
    rfl

/-- A segment that fits is copied inside its two buffers. -/
theorem copyN_eq {h : ProgramHeader} (hsize : image.bytes.length = size)
    (hfits : h.Fits file image.base size) :
    copyN file h.offset h.fileSize image.bytes (h.address - image.base) =
      .ok (image.bytes.take (h.address - image.base) ++ (file.drop h.offset).take h.fileSize ++
        image.bytes.drop (h.address - image.base + h.fileSize)) := by
  have hin := hfits.inFile
  have hstored := hfits.stored
  have habove := hfits.above
  have hmemory := hfits.inMemory
  exact if_pos ⟨hin, by omega⟩

theorem fits_iff {h : ProgramHeader} : h.Fits file base size ↔
    (h.fileSize ≤ h.memorySize ∧ h.offset + h.fileSize ≤ file.length ∧ base ≤ h.address ∧
      h.address - base + h.memorySize ≤ size) ∧
    (h.align ≤ 1 ∨ h.align &&& (h.align - 1) = 0 ∧ h.address % h.align = h.offset % h.align) := by
  have hpower : (h.align ≤ 1 ∨ h.align.isPowerOfTwo ∧ h.address % h.align = h.offset % h.align) ↔
      (h.align ≤ 1 ∨
        h.align &&& (h.align - 1) = 0 ∧ h.address % h.align = h.offset % h.align) := by
    by_cases hone : h.align ≤ 1
    · simp [hone]
    · rw [Nat.and_sub_one_eq_zero_iff_isPowerOfTwo (by omega)]
  constructor
  · intro hfits
    have habove := hfits.above
    have hmemory := hfits.inMemory
    exact ⟨⟨hfits.stored, hfits.inFile, habove, by omega⟩, hpower.1 hfits.aligned⟩
  · rintro ⟨⟨hstored, hfile, habove, hmemory⟩, haligned⟩
    exact ⟨hstored, hfile, habove, by omega, hpower.2 haligned⟩

/-- A loadable segment is tested and installed. -/
theorem decides_placeSegment {h : ProgramHeader} (hsize : image.bytes.length = size)
    (hsegments : ∀ s ∈ image.segments, s.address + s.size < 2 ^ 64) (hload : h.Loadable)
    (hoffset : h.offset < 2 ^ 32) (hfile : h.fileSize < 2 ^ 32) (hmemory : h.memorySize < 2 ^ 32)
    (haddress : h.address < 2 ^ 32) :
    Decides (placeSegment file image.base size image h.offset h.address h.fileSize h.memorySize
      h.flags h.align) (image.Admits file size h) (image.install file h) := by
  by_cases hempty : h.memorySize = 0
  · have hoccupied : ¬ h.Occupied := fun ho => ho.2 hempty
    rw [placeSegment, install, if_neg hoccupied, if_pos hempty]
    refine Decides.congr (.test (bounds_eq hoffset hfile hmemory haddress) fun _ =>
      .test (aligned_eq h) fun _ => .of_ok rfl) ?_
    simp only [and_true]
    rw [← fits_iff]
    exact ⟨fun hfits => ⟨fun _ => hfits, fun ho => absurd ho hoccupied⟩, fun hadmits => hadmits.1 hload⟩
  · have hoccupied : h.Occupied := ⟨hload, hempty⟩
    have hwrap : h.address + h.memorySize < 2 ^ 64 := by omega
    rw [placeSegment, install, if_pos hoccupied, if_neg hempty]
    refine Decides.congr (.test (bounds_eq hoffset hfile hmemory haddress) fun hbounds =>
      .test (aligned_eq h) fun haligned =>
        .bind (decides_checkOverlap (s := h.segment) ⟨rfl, rfl⟩ hwrap hsegments) fun _ =>
          .bind_ok (sub_eq hbounds.2.2.1)
            (.bind_ok (copyN_eq hsize (fits_iff.2 ⟨hbounds, haligned⟩)) (.of_ok rfl))) ?_
    simp only [and_true]
    rw [← and_assoc, ← fits_iff]
    exact ⟨fun hfits => ⟨fun _ => hfits.1, fun _ => hfits.2⟩,
      fun hadmits => ⟨hadmits.1 hload, hadmits.2 hoccupied⟩⟩

/-- One program header is tested and its segment installed. -/
theorem decides_loadSegment (hsize : image.bytes.length = size)
    (hsegments : ∀ s ∈ image.segments, s.address + s.size < 2 ^ 64)
    (htable : phoff + n * 32 + 32 ≤ file.length) (hphoff : phoff < 2 ^ 32) (hn : n < 2 ^ 16) :
    Decides (loadSegment file image.base size phoff image n)
      (image.Admits file size (.ofFile file (phoff + n * 32)))
      (image.install file (.ofFile file (phoff + n * 32))) := by
  have hadd {k : ℕ} (hk : k ≤ 28) : add (phoff + n * 32) k = .ok (phoff + n * 32 + k) :=
    add_eq (by omega)
  have hfield {k : ℕ} (hk : k ≤ 28) : field file (phoff + n * 32 + k) 4 =
      .ok (word file (phoff + n * 32 + k) 4) := field_eq (by omega) (by omega)
  have hkind : field file (phoff + n * 32) 4 = .ok (word file (phoff + n * 32) 4) :=
    field_eq (by omega) (by omega)
  rw [loadSegment]
  refine .bind_ok (mul_eq (by omega)) (.bind_ok (add_eq (by omega)) (.bind_ok hkind ?_))
  by_cases hload : word file (phoff + n * 32) 4 = 1
  · rw [if_neg (not_not.2 hload)]
    refine .bind_ok (hadd (by decide)) (.bind_ok (hfield (by decide)) (.bind_ok (hadd (by decide))
      (.bind_ok (hfield (by decide)) (.bind_ok (hadd (by decide)) (.bind_ok (hfield (by decide))
      (.bind_ok (hadd (by decide)) (.bind_ok (hfield (by decide)) (.bind_ok (hadd (by decide))
      (.bind_ok (hfield (by decide)) (.bind_ok (hadd (by decide)) (.bind_ok (hfield (by decide))
      ?_)))))))))))
    exact decides_placeSegment (h := .ofFile file (phoff + n * 32)) hsize hsegments hload word_lt
      word_lt word_lt word_lt
  · rw [if_pos hload]
    have hoccupied : ¬ (ProgramHeader.ofFile file (phoff + n * 32)).Occupied := fun h => hload h.1
    rw [install, if_neg hoccupied]
    refine (Decides.of_ok rfl).congr ⟨fun _ => ⟨?_, ?_⟩, fun _ => trivial⟩
    · exact fun h => absurd h hload
    · exact fun h => absurd h hoccupied

end Segments
end ProgramImage

/-! ## The loaded image -/

theorem Segment.Apart.symm {s t : Segment} (h : s.Apart t) : t.Apart s := Or.symm h

/-- The byte of a segment: from the file as far as it goes, and zero from there on. -/
def ProgramHeader.content (file : List Byte) (h : ProgramHeader) (i : ℕ) : Byte :=
  if i < h.fileSize then file.getD (h.offset + i) 0 else 0

/-- The address is in the segment. -/
def Segment.Covers (s : Segment) (address : ℕ) : Prop :=
  s.address ≤ address ∧ address < s.address + s.size

/-- The loadable segments fit, and the nonempty ones are apart from each other. -/
structure Placeable (file : List Byte) (base size : ℕ) (headers : List ProgramHeader) : Prop where
  fits : ∀ h ∈ headers, h.Loadable → h.Fits file base size
  apart : ((headers.filter (·.Occupied)).map (·.segment)).Pairwise Segment.Apart

/-- The image of the program headers so far. -/
structure Holds (file : List Byte) (base size : ℕ) (headers : List ProgramHeader)
    (image : ProgramImage) : Prop where
  placed : image.base = base
  length : image.bytes.length = size
  segments : image.segments = (headers.filter (·.Occupied)).map (·.segment)
  placeable : Placeable file base size headers
  contents : ∀ h ∈ headers, h.Occupied → ∀ i < h.memorySize,
    image.bytes[h.address - base + i]? = some (h.content file i)
  outside : ∀ i < size, (∀ s ∈ image.segments, ¬ s.Covers (base + i)) → image.bytes[i]? = some 0

section Loaded
variable {file : List Byte} {base size : ℕ} {headers rest : List ProgramHeader} {h : ProgramHeader}
  {image : ProgramImage}

theorem Placeable.append (hall : Placeable file base size (headers ++ rest)) :
    Placeable file base size headers := by
  constructor
  · intro h hmem
    exact hall.fits h (List.mem_append_left _ hmem)
  · have hapart := hall.apart
    rw [List.filter_append, List.map_append, List.pairwise_append] at hapart
    exact hapart.1

namespace Holds

theorem mem_segments {s : Segment} (hold : Holds file base size headers image) :
    s ∈ image.segments ↔ ∃ h ∈ headers, h.Occupied ∧ h.segment = s := by
  rw [hold.segments, List.mem_map]
  simp only [List.mem_filter, decide_eq_true_eq, and_assoc]

/-- Every segment lies in memory. -/
theorem inside {s : Segment} (hold : Holds file base size headers image)
    (hs : s ∈ image.segments) : base ≤ s.address ∧ s.address + s.size ≤ base + size := by
  obtain ⟨h, hmem, hoccupied, rfl⟩ := hold.mem_segments.1 hs
  have hfits := hold.placeable.fits h hmem hoccupied.1
  exact ⟨hfits.above, hfits.inMemory⟩

/-- What the loader asks of the next header is what makes the headers placeable. -/
theorem admits_iff (hold : Holds file base size headers image) :
    image.Admits file size h ↔ Placeable file base size (headers ++ [h]) := by
  have hpair : (((headers ++ [h]).filter (·.Occupied)).map (·.segment)).Pairwise Segment.Apart ↔
      (h.Occupied → ∀ s ∈ image.segments, h.segment.Apart s) := by
    rw [List.filter_append, List.map_append, List.pairwise_append, ← hold.segments]
    by_cases hoccupied : h.Occupied
    · simp only [hoccupied, decide_true, List.filter_cons_of_pos, List.filter_nil, List.map_cons,
        List.map_nil, List.pairwise_singleton, List.mem_singleton, forall_eq, true_and, forall_const]
      constructor
      · exact fun hall s hs => (hall.2 s hs).symm
      · exact fun hall => ⟨hold.segments ▸ hold.placeable.apart, fun s hs => (hall s hs).symm⟩
    · simp only [hoccupied, decide_false, Bool.false_eq_true, not_false_eq_true,
        List.filter_cons_of_neg, List.filter_nil, List.map_nil, List.Pairwise.nil, List.not_mem_nil,
        false_implies, implies_true, and_true, iff_true]
      exact hold.segments ▸ hold.placeable.apart
  have hfits : (∀ k ∈ headers ++ [h], k.Loadable → k.Fits file base size) ↔
      (h.Loadable → h.Fits file base size) := by
    constructor
    · exact fun hall => hall h (by simp)
    · intro hone k hk
      rcases List.mem_append.1 hk with hk | hk
      · exact hold.placeable.fits k hk
      · rw [List.mem_singleton.1 hk]
        exact hone
  rw [ProgramImage.Admits, hold.placed, ← hpair, ← hfits]
  exact ⟨fun hall => ⟨hall.1, hall.2⟩, fun hall => ⟨hall.fits, hall.apart⟩⟩

/-- The bytes after a segment has been copied to `q`. -/
theorem getElem?_copied (bytes source : List Byte) {q : ℕ} (h : q + source.length ≤ bytes.length)
    (i : ℕ) : (bytes.take q ++ source ++ bytes.drop (q + source.length))[i]? =
      if q ≤ i ∧ i < q + source.length then source[i - q]? else bytes[i]? := by
  have htake : (bytes.take q).length = q := by
    rw [List.length_take]
    omega
  rw [List.append_assoc, List.getElem?_append, htake, List.getElem?_append, List.getElem?_take,
    List.getElem?_drop]
  by_cases hlow : i < q
  · have hnot : ¬ (q ≤ i ∧ i < q + source.length) := by omega
    rw [if_pos hlow, if_pos hlow, if_neg hnot]
  · rw [if_neg hlow]
    by_cases hmid : i - q < source.length
    · rw [if_pos hmid, if_pos (by omega)]
    · have hback : q + source.length + (i - q - source.length) = i := by omega
      rw [if_neg hmid, if_neg (by omega), hback]

/-- Installing an admitted segment changes the bytes that come from the file. -/
theorem getElem?_install (hold : Holds file base size headers image) (hoccupied : h.Occupied)
    (hfits : h.Fits file base size) (i : ℕ) : (image.install file h).bytes[i]? =
      if h.address - base ≤ i ∧ i < h.address - base + h.fileSize then
        some (h.content file (i - (h.address - base))) else image.bytes[i]? := by
  have hstored := hfits.stored
  have hinFile := hfits.inFile
  have habove := hfits.above
  have hmemory := hfits.inMemory
  have hlength := hold.length
  have hsource : ((file.drop h.offset).take h.fileSize).length = h.fileSize := by
    rw [List.length_take, List.length_drop]
    omega
  have hroom : h.address - base + ((file.drop h.offset).take h.fileSize).length ≤
      image.bytes.length := by
    omega
  have hcopied := getElem?_copied image.bytes _ hroom i
  rw [hsource] at hcopied
  rw [ProgramImage.install, if_pos hoccupied, hold.placed]
  refine hcopied.trans ?_
  by_cases hrange : h.address - base ≤ i ∧ i < h.address - base + h.fileSize
  · have hin : i - (h.address - base) < h.fileSize := by omega
    have hlt : h.offset + (i - (h.address - base)) < file.length := by omega
    rw [if_pos hrange, if_pos hrange, List.getElem?_take, if_pos hin, List.getElem?_drop,
      ProgramHeader.content, if_pos hin, List.getD_eq_getElem?_getD, List.getElem?_eq_getElem hlt,
      Option.getD_some]
  · rw [if_neg hrange, if_neg hrange]

/-- Installing a segment that is admitted keeps the image. -/
theorem install (hold : Holds file base size headers image) (hadmits : image.Admits file size h) :
    Holds file base size (headers ++ [h]) (image.install file h) := by
  have hplaceable := hold.admits_iff.1 hadmits
  by_cases hoccupied : h.Occupied
  · have hfits := hplaceable.fits h (by simp) hoccupied.1
    have hstored := hfits.stored
    have habove := hfits.above
    have hmemory := hfits.inMemory
    have hbytes := hold.getElem?_install hoccupied hfits
    have hsegments : (image.install file h).segments = image.segments ++ [h.segment] := by
      rw [ProgramImage.install, if_pos hoccupied]
    have hnew : image.bytes.length = (image.install file h).bytes.length := by
      have hinFile := hfits.inFile
      have hlength := hold.length
      rw [ProgramImage.install, if_pos hoccupied, hold.placed]
      simp only [List.length_append, List.length_take, List.length_drop]
      omega
    refine ⟨?_, hnew ▸ hold.length, ?_, hplaceable, ?_, ?_⟩
    · rw [ProgramImage.install, if_pos hoccupied]
      exact hold.placed
    · rw [hsegments, hold.segments, List.filter_append, List.map_append]
      simp [hoccupied]
    · intro k hk hkoccupied i hi
      rw [hbytes]
      rcases List.mem_append.1 hk with hk | hk
      · have hkabove := (hold.placeable.fits k hk hkoccupied.1).above
        have hapart := hadmits.2 hoccupied k.segment
          (hold.mem_segments.2 ⟨k, hk, hkoccupied, rfl⟩)
        simp only [Segment.Apart, ProgramHeader.segment] at hapart
        rw [if_neg (by omega)]
        exact hold.contents k hk hkoccupied i hi
      · obtain rfl := List.mem_singleton.1 hk
        by_cases hfile : i < k.fileSize
        · rw [if_pos (by omega), Nat.add_sub_cancel_left]
        · rw [if_neg (by omega), ProgramHeader.content, if_neg hfile]
          refine hold.outside _ (by omega) fun s hs hcovers => ?_
          have hapart := hadmits.2 hoccupied s hs
          have hbelow := hcovers.1
          have htop := hcovers.2
          simp only [Segment.Apart, ProgramHeader.segment] at hapart
          omega
    · intro i hi hnone
      rw [hsegments] at hnone
      have hself := hnone h.segment (by simp)
      simp only [Segment.Covers, ProgramHeader.segment] at hself
      rw [hbytes, if_neg (by omega)]
      exact hold.outside i hi fun s hs => hnone s (by simp [hs])
  · have hsame : image.install file h = image := by rw [ProgramImage.install, if_neg hoccupied]
    have hfilter : (headers ++ [h]).filter (·.Occupied) = headers.filter (·.Occupied) := by
      simp [List.filter_append, hoccupied]
    rw [hsame]
    refine ⟨hold.placed, hold.length, hfilter ▸ hold.segments, hplaceable, ?_, hold.outside⟩
    intro k hk hkoccupied
    rcases List.mem_append.1 hk with hk | hk
    · exact hold.contents k hk hkoccupied
    · rw [List.mem_singleton.1 hk] at hkoccupied
      exact absurd hkoccupied hoccupied

/-- The image before the first program header. -/
theorem zeroed : Holds file base size [] { base, bytes := List.replicate size 0, entry } where
  placed := rfl
  length := List.length_replicate
  segments := rfl
  placeable := ⟨by simp, List.Pairwise.nil⟩
  contents := by simp
  outside := by
    intro i hi _
    rw [List.getElem?_replicate, if_pos hi]

end Holds
end Loaded

/-! ## The loader -/

namespace ProgramImage

/-- The program headers from the `n`-th on. -/
def headersFrom (file : List Byte) (phoff n count : ℕ) : List ProgramHeader :=
  (List.range' n count).map fun n => .ofFile file (phoff + n * 32)

/-- The image with the segments of the headers in it. -/
def installAll (file : List Byte) (image : ProgramImage) (headers : List ProgramHeader) :
    ProgramImage :=
  headers.foldl (fun image h => image.install file h) image

section Loop
variable {file : List Byte} {base size phoff n count : ℕ} {headers : List ProgramHeader}
  {image : ProgramImage}

/-- The loop over the program headers: what it tests, and the image that it leaves. -/
theorem decides_loadSegments (hold : Holds file base size headers image)
    (hmap : base + size ≤ 2 ^ 32) (htable : phoff + (n + count) * 32 ≤ file.length)
    (hphoff : phoff < 2 ^ 32) (hcount : n + count ≤ 2 ^ 16) :
    Decides (loadSegments file base size phoff image n count)
      (Placeable file base size (headers ++ headersFrom file phoff n count))
      (image.installAll file (headersFrom file phoff n count)) := by
  induction count generalizing headers image n with
  | zero =>
    refine (Decides.of_ok rfl).congr ⟨fun _ => ?_, fun _ => trivial⟩
    rw [headersFrom, List.range'_zero, List.map_nil, List.append_nil]
    exact hold.placeable
  | succ count ih =>
    have hsegments : ∀ s ∈ image.segments, s.address + s.size < 2 ^ 64 := by
      intro s hs
      have hinside := hold.inside hs
      omega
    have hsplit : headers ++ headersFrom file phoff n (count + 1) =
        headers ++ [.ofFile file (phoff + n * 32)] ++ headersFrom file phoff (n + 1) count := by
      rw [List.append_assoc, headersFrom, List.range'_succ, List.map_cons]
      rfl
    have hone : Decides (loadSegment file image.base size phoff image n) _ _ :=
      decides_loadSegment hold.length hsegments (by omega) hphoff (by omega)
    rw [hold.placed] at hone
    refine Decides.congr (.bind hone fun hadmits =>
      ih (hold.install hadmits) (by omega) (by omega)) ?_
    rw [hsplit, hold.admits_iff]
    exact ⟨fun hall => hall.2, fun hall => ⟨hall.append, hall⟩⟩

/-- The image after the loop. -/
theorem holds_installAll (hold : Holds file base size headers image) {rest : List ProgramHeader}
    (hall : Placeable file base size (headers ++ rest)) :
    Holds file base size (headers ++ rest) (image.installAll file rest) := by
  induction rest generalizing headers image with
  | nil =>
    rw [List.append_nil]
    exact hold
  | cons h rest ih =>
    rw [List.append_cons] at hall ⊢
    exact ih (hold.install (hold.admits_iff.2 hall.append)) hall

/-- The entry test is that of an executable segment with a word at the entry. -/
theorem executableEntry_eq {entry : ℕ} {segments : List Segment} (hentry : entry < 2 ^ 32)
    (hsegments : ∀ s ∈ segments, s.address + s.size < 2 ^ 64) :
    executableEntry entry segments = .ok (decide (∃ s ∈ segments, s.executable ∧
      s.address ≤ entry ∧ entry + 4 ≤ s.address + s.size)) := by
  induction segments with
  | nil => simp [executableEntry, pure, Except.pure]
  | cons s rest ih =>
    rw [List.forall_mem_cons] at hsegments
    have hinside : conj [pure s.executable, pure (s.address ≤ entry),
        do pure ((← add entry 4) ≤ (← add s.address s.size))] =
        .ok (decide (s.executable = true ∧ s.address ≤ entry ∧ entry + 4 ≤ s.address + s.size)) := by
      refine conj_cons (by simp [pure, Except.pure]) fun _ => conj_cons rfl fun _ => conj_last ?_
      rw [add_eq (by omega), add_eq hsegments.1]
      rfl
    rw [executableEntry, hinside, ih hsegments.2]
    by_cases hs : s.executable = true ∧ s.address ≤ entry ∧ entry + 4 ≤ s.address + s.size
    · simp [hs, bind, Except.bind, pure, Except.pure]
    · simp only [bind, Except.bind, hs, decide_false, Bool.false_eq_true, if_false,
        List.exists_mem_cons_iff, false_or]

end Loop
end ProgramImage

/-- The header of an executable ELF32 file for this machine, with its table of program
headers in the file. -/
structure ElfHeader (file : List Byte) : Prop where
  long : 52 ≤ file.length
  magic : word file 0 4 = 0x464c457f
  wordSize : word file 4 1 = 1
  littleEndian : word file 5 1 = 1
  version : word file 6 1 = 1
  executable : word file 16 2 = 2
  machine : word file 18 2 = 243
  fileVersion : word file 20 4 = 1
  headerSize : word file 40 2 = 52
  uncompressed : word file 36 4 = 0
  entrySize : word file 42 2 = 32
  nonempty : 0 < word file 44 2
  table : word file 28 4 + word file 44 2 * 32 ≤ file.length

/-- The program headers of a file. -/
def programHeaders (file : List Byte) : List ProgramHeader :=
  ProgramImage.headersFrom file (word file 28 4) 0 (word file 44 2)

/-- The entry is an aligned word of an executable segment. -/
def ExecutableEntry (entry : ℕ) (segments : List Segment) : Prop :=
  entry % 4 = 0 ∧ ∃ s ∈ segments, s.executable ∧ s.address ≤ entry ∧ entry + 4 ≤ s.address + s.size

instance (entry : ℕ) (segments : List Segment) : Decidable (ExecutableEntry entry segments) :=
  inferInstanceAs (Decidable (_ ∧ _))

namespace ProgramImage
section Elf
variable {file : List Byte} {base size : BitVec 32}

/-- What the loader accepts. -/
structure Acceptable (file : List Byte) (base size : ℕ) : Prop where
  header : ElfHeader file
  memory : 0 < size ∧ base + size ≤ 2 ^ 32
  placeable : Placeable file base size (programHeaders file)
  entry : ExecutableEntry (word file 24 4)
    (((programHeaders file).filter (·.Occupied)).map (·.segment))

/-- The image of a file. -/
def ofFile (file : List Byte) (base size : ℕ) : ProgramImage :=
  installAll file { base, bytes := List.replicate size 0, entry := word file 24 4 }
    (programHeaders file)

theorem decides_make {base size : ℕ} (hbase : base < 2 ^ 32) (hsize : size < 2 ^ 32) :
    Decides (make base size) (0 < size ∧ base + size ≤ 2 ^ 32)
      { base, bytes := List.replicate size 0 } := by
  have hcs : conj [pure (0 < size), do pure ((← add base size) ≤ 2 ^ 32)] =
      .ok (decide (0 < size ∧ base + size ≤ 2 ^ 32)) := by
    refine conj_cons rfl fun _ => conj_last ?_
    rw [add_eq (by omega)]
    rfl
  exact Decides.congr (.test hcs fun _ => .of_ok rfl) (and_iff_left trivial)

theorem equals_field {p width value : ℕ} (hlong : 52 ≤ file.length) (hp : p + width ≤ 52) :
    equals (field file p width) value = .ok (decide (word file p width = value)) := by
  rw [equals, field_eq (by omega) (by omega)]
  rfl

theorem equals_byte {p value : ℕ} (hlong : 52 ≤ file.length) (hp : p < 52) :
    equals (do pure (← byteAt file p).toNat) value = .ok (decide (word file p 1 = value)) := by
  have hlt : p < file.length := by omega
  have hword : word file p 1 = file[p].toNat := by
    rw [word, List.drop_eq_getElem_cons hlt, List.take_succ_cons, littleEndian_cons,
      List.take_zero, littleEndian_nil, Nat.mul_zero, Nat.add_zero]
  rw [equals, byteAt_eq hlt, hword]
  rfl

theorem testIdentification_eq : testIdentification file = .ok (decide (52 ≤ file.length ∧
    word file 0 4 = 0x464c457f ∧ word file 4 1 = 1 ∧ word file 5 1 = 1 ∧ word file 6 1 = 1)) := by
  refine conj_cons rfl fun hlong => conj_cons (equals_field hlong (by decide)) fun _ =>
    conj_cons (equals_byte hlong (by decide)) fun _ =>
    conj_cons (equals_byte hlong (by decide)) fun _ => conj_last (equals_byte hlong (by decide))

theorem testMachine_eq (hlong : 52 ≤ file.length) : testMachine file = .ok (decide
    (word file 16 2 = 2 ∧ word file 18 2 = 243 ∧ word file 20 4 = 1 ∧ word file 40 2 = 52 ∧
      word file 36 4 = 0)) := by
  refine conj_cons (equals_field hlong (by decide)) fun _ =>
    conj_cons (equals_field hlong (by decide)) fun _ =>
    conj_cons (equals_field hlong (by decide)) fun _ =>
    conj_cons (equals_field hlong (by decide)) fun _ => conj_last (equals_field hlong (by decide))

theorem testTable_eq (hlong : 52 ≤ file.length) {phoff count : ℕ} (hphoff : phoff < 2 ^ 32)
    (hcount : count < 2 ^ 16) : testTable file phoff count = .ok (decide
      (word file 42 2 = 32 ∧ 0 < count ∧ phoff + count * 32 ≤ file.length)) := by
  refine conj_cons (equals_field hlong (by decide)) fun _ => conj_cons rfl fun _ => conj_last ?_
  rw [mul_eq (by omega)]
  simp only [bind, Except.bind]
  rw [add_eq (by omega)]
  rfl

theorem entry_installAll {image : ProgramImage} {headers : List ProgramHeader} :
    (image.installAll file headers).entry = image.entry := by
  induction headers generalizing image with
  | nil => rfl
  | cons h rest ih =>
    rw [installAll, List.foldl_cons]
    refine ih.trans ?_
    rw [install]
    split <;> rfl

theorem holds_ofFile {base size : ℕ} (h : Placeable file base size (programHeaders file)) :
    Holds file base size (programHeaders file) (ofFile file base size) :=
  holds_installAll .zeroed h

theorem entry_ofFile {base size : ℕ} : (ofFile file base size).entry = word file 24 4 :=
  entry_installAll

/-- The loader accepts what is acceptable, and leaves its image. -/
theorem decides_elf : Decides (elf file base size)
    (Acceptable file base.toNat size.toNat) (ofFile file base.toNat size.toNat) := by
  have hphoff : word file 28 4 < 2 ^ 32 := word_lt
  have hcount : word file 44 2 < 2 ^ 16 := word_lt
  have hentry : word file 24 4 < 2 ^ 32 := word_lt
  refine Decides.congr (.test testIdentification_eq fun hid => .test (testMachine_eq hid.1) fun _ =>
    .bind_ok (field_eq (by omega) (by decide)) (.bind_ok (field_eq (by omega) (by decide))
    (.test (testTable_eq hid.1 hphoff hcount) fun htable =>
    .bind (decides_make base.isLt size.isLt) fun hmap =>
    .bind_ok (field_eq (by omega) (by decide))
    (.bind (decides_loadSegments .zeroed hmap.2 (by omega) hphoff (by omega))
      fun hplaceable => .test (conj_cons rfl fun _ => conj_last (executableEntry_eq ?_ ?_))
        fun _ => .of_ok rfl)))) ?_
  · rw [entry_installAll]
    exact hentry
  · intro s hs
    have hinside := (holds_installAll .zeroed hplaceable).inside hs
    omega
  · constructor
    · rintro ⟨⟨hlong, hmagic, hword, hlittle, hversion⟩,
        ⟨hexecutable, hmachine, hfile, hsize, hflags⟩, ⟨hentrySize, hnonempty, htable⟩, hmap,
        hplaceable, ⟨haligned, hinside⟩, -⟩
      refine ⟨⟨hlong, hmagic, hword, hlittle, hversion, hexecutable, hmachine, hfile, hsize, hflags,
        hentrySize, hnonempty, htable⟩, hmap, hplaceable, ?_⟩
      rw [entry_installAll, (holds_installAll .zeroed hplaceable).segments] at *
      exact ⟨haligned, hinside⟩
    · intro haccept
      have hheader := haccept.header
      have hready : ExecutableEntry (ofFile file base.toNat size.toNat).entry
          (ofFile file base.toNat size.toNat).segments := by
        rw [entry_ofFile, (holds_ofFile haccept.placeable).segments]
        exact haccept.entry
      exact ⟨⟨hheader.long, hheader.magic, hheader.wordSize, hheader.littleEndian, hheader.version⟩,
        ⟨hheader.executable, hheader.machine, hheader.fileVersion, hheader.headerSize,
          hheader.uncompressed⟩, ⟨hheader.entrySize, hheader.nonempty, hheader.table⟩,
        haccept.memory, haccept.placeable, hready, trivial⟩

/-- The loader is safe and exact: whatever the file holds it returns an image or raises an
invalid image, so it never reads or writes outside of a buffer and never wraps; the image
holds the loadable segments in memory, apart from each other, with the bytes of the file and
zeros after them and everywhere else, and its entry is an executable word; and it accepts
every file with a valid header whose loadable segments fit, the nonempty ones apart. -/
theorem elf_exact (file : List Byte) (base size : BitVec 32) :
    ((∃ image, elf file base size = .ok image) ∨
      ∃ message, elf file base size = .error (.fault ⟨.invalidImage, message⟩)) ∧
    (∀ image, elf file base size = .ok image →
      Holds file base.toNat size.toNat (programHeaders file) image ∧
      (∀ s ∈ image.segments,
        base.toNat ≤ s.address ∧ s.address + s.size ≤ base.toNat + size.toNat) ∧
      image.segments.Pairwise Segment.Apart ∧ image.entry = word file 24 4 ∧
      ExecutableEntry image.entry image.segments) ∧
    ((∃ image, elf file base size = .ok image) ↔ ElfHeader file ∧
      (0 < size.toNat ∧ base.toNat + size.toNat ≤ 2 ^ 32) ∧
      (∀ h ∈ programHeaders file, h.Loadable → h.Fits file base.toNat size.toNat) ∧
      (((programHeaders file).filter (·.Occupied)).map (·.segment)).Pairwise Segment.Apart ∧
      ExecutableEntry (word file 24 4)
        (((programHeaders file).filter (·.Occupied)).map (·.segment))) := by
  have helf : Decides (elf file base size) _ _ := decides_elf
  have haccepted {image : ProgramImage} (h : elf file base size = .ok image) :
      Acceptable file base.toNat size.toNat := by
    by_contra hnot
    obtain ⟨message, hfault⟩ := helf.rejects hnot
    rw [hfault] at h
    cases h
  refine ⟨?_, ?_, ?_⟩
  · by_cases haccept : Acceptable file base.toNat size.toNat
    · exact .inl ⟨_, helf.accepts haccept⟩
    · exact .inr (helf.rejects haccept)
  · intro image himage
    have haccept := haccepted himage
    have hold := holds_ofFile haccept.placeable
    obtain rfl : ofFile file base.toNat size.toNat = image :=
      Except.ok.inj ((helf.accepts haccept).symm.trans himage)
    refine ⟨hold, fun s hs => hold.inside hs, ?_, entry_ofFile, ?_⟩
    · rw [hold.segments]
      exact haccept.placeable.apart
    · rw [entry_ofFile, hold.segments]
      exact haccept.entry
  · constructor
    · rintro ⟨image, himage⟩
      have haccept := haccepted himage
      exact ⟨haccept.header, haccept.memory, haccept.placeable.fits, haccept.placeable.apart,
        haccept.entry⟩
    · rintro ⟨hheader, hmemory, hfits, hapart, hentry⟩
      exact ⟨_, helf.accepts ⟨hheader, hmemory, ⟨hfits, hapart⟩, hentry⟩⟩

/-- A file with one instruction and, below memory, a loadable segment without any byte. -/
def strayFile : List Byte :=
  [0x7f, 0x45, 0x4c, 0x46, 1, 1, 1, 0, 0, 0, 0, 0, 0, 0, 0, 0,
    2, 0, 243, 0, 1, 0, 0, 0, 0, 0x10, 0, 0, 52, 0, 0, 0, 0, 0, 0, 0,
    0, 0, 0, 0, 52, 0, 32, 0, 2, 0, 0, 0, 0, 0, 0, 0] ++
  [1, 0, 0, 0, 116, 0, 0, 0, 0, 0x10, 0, 0, 0, 0, 0, 0,
    4, 0, 0, 0, 4, 0, 0, 0, 5, 0, 0, 0, 4, 0, 0, 0] ++
  [1, 0, 0, 0, 0, 0, 0, 0, 0, 0, 0, 0, 0, 0, 0, 0,
    0, 0, 0, 0, 0, 0, 0, 0, 4, 0, 0, 0, 0, 0, 0, 0] ++
  [0x13, 0, 0, 0]

/-- The bounds are asked of empty segments, too: a file is rejected whose nonempty segments
fit, apart from each other, because an empty one lies below memory. -/
theorem empty_segment_rejected : ¬ ∀ (file : List Byte) (base size : BitVec 32), ElfHeader file →
    (0 < size.toNat ∧ base.toNat + size.toNat ≤ 2 ^ 32) →
    (∀ h ∈ programHeaders file, h.Occupied → h.Fits file base.toNat size.toNat) →
    (∀ h ∈ programHeaders file, h.Loadable → h.fileSize ≤ h.memorySize ∧
      h.offset + h.fileSize ≤ file.length ∧
      (h.align ≤ 1 ∨ h.align.isPowerOfTwo ∧ h.address % h.align = h.offset % h.align)) →
    (((programHeaders file).filter (·.Occupied)).map (·.segment)).Pairwise Segment.Apart →
    ExecutableEntry (word file 24 4)
      (((programHeaders file).filter (·.Occupied)).map (·.segment)) →
    ∃ image, elf file base size = .ok image := by
  intro h
  have hheaders : programHeaders strayFile =
      [⟨1, 116, 0x1000, 4, 4, 5, 4⟩, ⟨1, 0, 0, 0, 0, 4, 0⟩] := by decide +kernel
  have hheader : ElfHeader strayFile := by
    constructor <;> decide +kernel
  have hpower : (4 : ℕ).isPowerOfTwo := ⟨2, rfl⟩
  have hfits : ProgramHeader.Fits strayFile 0x1000 16 ⟨1, 116, 0x1000, 4, 4, 5, 4⟩ :=
    ⟨by decide, by decide, by decide, by decide, .inr ⟨hpower, by decide⟩⟩
  obtain ⟨image, himage⟩ := h strayFile 0x1000 16 hheader (by decide)
    (by
      rw [hheaders]
      intro h hmem hoccupied
      rcases List.mem_cons.1 hmem with rfl | hmem
      · exact hfits
      · rw [List.mem_singleton.1 hmem] at hoccupied
        exact absurd hoccupied (by decide))
    (by
      rw [hheaders]
      intro h hmem _
      rcases List.mem_cons.1 hmem with rfl | hmem
      · exact ⟨by decide, by decide, .inr ⟨hpower, by decide⟩⟩
      · rw [List.mem_singleton.1 hmem]
        exact ⟨by decide, by decide, .inl (by decide)⟩)
    (by
      rw [hheaders]
      decide)
    (by
      rw [hheaders]
      decide +kernel)
  have hrejected : elf strayFile 0x1000 16 =
      .error (.fault ⟨.invalidImage, "ELF segment is out of bounds"⟩) := by decide +kernel
  rw [hrejected] at himage
  cases himage

end Elf
end ProgramImage
end Qsbit

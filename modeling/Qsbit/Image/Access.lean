import Qsbit.Image
import Qsbit.Lib.LittleEndian

/-!
# Access control of a program image

An image answers an access only inside memory, and only where every segment that the access
meets contains it and permits it. Over any sequence of reads and writes, of any address and
any width, a byte is what was last written to it, and what was loaded before that.

## Main definitions

* `Access` — a read, a fetch or a write; `ProgramImage.access` performs it.
* `ProgramImage.Permits` — what an access has to meet.
* `AccessRun` — an image after a sequence of accesses, with their results.
* `lastWrite` — what was last written to a byte.

## Main results

* `ProgramImage.offset_eq_ok_iff` — which accesses succeed.
* `access_control` — what an access does after any run.
-/
namespace Qsbit

/-! ## Permitted accesses -/

/-- The access has a byte in common with the segment. -/
def Segment.Meets (s : Segment) (address width : ℕ) : Prop :=
  address < s.address + s.size ∧ s.address < address + width

/-- The access lies in the segment. -/
def Segment.Contains (s : Segment) (address width : ℕ) : Prop :=
  s.address ≤ address ∧ address + width ≤ s.address + s.size

/-- The segment permits a fetch, a store or a load. -/
def Segment.Permits (s : Segment) (store instruction : Bool) : Prop :=
  (if instruction then s.executable else if store then s.writable else s.readable) = true

namespace ProgramImage

/-- The access is aligned, in memory, in the segments that it meets and permitted by them; a
fetch meets an executable one. -/
structure Permits (image : ProgramImage) (address width : ℕ) (store instruction : Bool) : Prop where
  sized : width = 1 ∨ width = 2 ∨ width = 4
  aligned : address % width = 0
  inside : image.base ≤ address ∧ address + width ≤ image.base + image.bytes.length
  contained : ∀ s ∈ image.segments, s.Meets address width → s.Contains address width
  permitted : ∀ s ∈ image.segments, s.Meets address width → s.Permits store instruction
  fetched : instruction → ∃ s ∈ image.segments, s.executable ∧ s.Meets address width

section Offset
variable {image : ProgramImage} {address width : ℕ} {store instruction : Bool}

/-- The segments pass the test if they contain and permit what they meet. Of the result it is
enough to know where an executable segment was met. -/
theorem checkSegments_eq_ok {executable result : Bool} {segments : List Segment}
    (h : checkSegments address width store instruction executable segments = .ok result) :
    (∀ s ∈ segments, s.Meets address width →
      s.Contains address width ∧ s.Permits store instruction) ∧
    (result → executable ∨ ∃ s ∈ segments, s.executable ∧ s.Meets address width) := by
  induction segments generalizing executable with
  | nil =>
    obtain rfl := Except.pure_eq_ok_iff.1 h
    exact ⟨by simp, fun hresult => .inl hresult⟩
  | cons s rest ih =>
    rw [checkSegments] at h
    by_cases hmeets : address < s.address + s.size ∧ s.address < address + width
    · rw [if_pos hmeets] at h
      simp only [Except.bind_eq_ok_iff, require_eq_ok_iff, exists_const] at h
      obtain ⟨hcontains, hpermits, hrest⟩ := h
      obtain ⟨hall, hexecutable⟩ := ih hrest
      refine ⟨List.forall_mem_cons.2 ⟨fun _ => ⟨hcontains, hpermits⟩, hall⟩, fun hresult => ?_⟩
      rcases hexecutable hresult with hs | ⟨t, ht, hexec, hmet⟩
      · exact .inr ⟨s, by simp, hs, hmeets⟩
      · exact .inr ⟨t, List.mem_cons_of_mem _ ht, hexec, hmet⟩
    · rw [if_neg hmeets] at h
      obtain ⟨hall, hexecutable⟩ := ih h
      refine ⟨List.forall_mem_cons.2 ⟨fun hmet => absurd hmet hmeets, hall⟩, fun hresult => ?_⟩
      rcases hexecutable hresult with hs | ⟨t, ht, hexec, hmet⟩
      · exact .inl hs
      · exact .inr ⟨t, List.mem_cons_of_mem _ ht, hexec, hmet⟩

/-- An access that succeeds is permitted, and its place is its distance from the base. -/
theorem offset_eq_ok {p : ℕ} (h : image.offset address width store instruction = .ok p) :
    image.Permits address width store instruction ∧ p = address - image.base := by
  simp only [offset, Except.bind_eq_ok_iff, require_eq_ok_iff, exists_const,
    Except.pure_eq_ok_iff] at h
  obtain ⟨hwidth, haligned, ⟨hbase, hin⟩, executable, hsegments, hfetch, rfl⟩ := h
  obtain ⟨hall, hexecutable⟩ := checkSegments_eq_ok hsegments
  refine ⟨⟨hwidth, haligned, ⟨hbase, by omega⟩, fun s hs hmeets => (hall s hs hmeets).1,
    fun s hs hmeets => (hall s hs hmeets).2, fun hinstruction => ?_⟩, rfl⟩
  rcases hexecutable (hfetch hinstruction) with hfalse | hfound
  · cases hfalse
  · exact hfound

end Offset

/-! ## Bytes -/

/-- The byte at an address. -/
def byte (image : ProgramImage) (address : ℕ) : Byte := image.bytes.getD (address - image.base) 0

section Bytes
variable {bytes : List Byte} {p n width value : ℕ}

/-- The reader adds the bytes from `p + n` on to what it has. -/
theorem readFrom_eq (hvalue : value < 256 ^ n) : readFrom bytes p n width value = value +
    256 ^ n * littleEndian ((List.range' n width).map fun k => bytes.getD (p + k) 0) := by
  induction width generalizing n value with
  | zero => simp [readFrom]
  | succ width ih =>
    rw [readFrom, Nat.mul_comm n 8, or_shiftLeft_byte _ hvalue, ih (add_byte_lt _ hvalue),
      List.range'_succ, List.map_cons, littleEndian_cons, pow_succ]
    ring

theorem length_writeFrom : (writeFrom value p n width bytes).length = bytes.length := by
  induction width generalizing n bytes with
  | zero => rfl
  | succ width ih => rw [writeFrom, ih, List.length_set]

/-- The writer sets the bytes from `p + n` on, each to its part of the value. -/
theorem getD_writeFrom {k : ℕ} (hlength : p + n + width ≤ bytes.length) :
    (writeFrom value p n width bytes).getD k 0 =
      if p + n ≤ k ∧ k < p + n + width then BitVec.ofNat 8 (value >>> ((k - p) * 8))
      else bytes.getD k 0 := by
  induction width generalizing n bytes with
  | zero =>
    rw [writeFrom, if_neg (by omega)]
  | succ width ih =>
    rw [writeFrom, ih (by rw [List.length_set]; omega)]
    by_cases hlater : p + (n + 1) ≤ k ∧ k < p + (n + 1) + width
    · rw [if_pos hlater, if_pos (by omega)]
    · rw [if_neg hlater, List.getD_eq_getElem?_getD, List.getElem?_set]
      by_cases hhere : p + n = k
      · have hback : k - p = n := by omega
        rw [if_pos hhere, if_pos (by omega), if_pos (by omega), Option.getD_some, hback]
      · rw [if_neg hhere, if_neg (by omega), List.getD_eq_getElem?_getD]

end Bytes

section Accesses
variable {image image' : ProgramImage} {address width value : ℕ} {instruction : Bool}

/-- A read that succeeds is permitted and composes the bytes it covers. -/
theorem read_eq_ok (h : image.read address width instruction = .ok value) :
    image.Permits address width false instruction ∧
      value = littleEndian ((List.range width).map fun k => image.byte (address + k)) := by
  simp only [read, Except.bind_eq_ok_iff, Except.pure_eq_ok_iff] at h
  obtain ⟨p, hoffset, rfl⟩ := h
  obtain ⟨hpermits, rfl⟩ := offset_eq_ok hoffset
  refine ⟨hpermits, ?_⟩
  have hinside := hpermits.inside
  have hbyte (k : ℕ) : image.bytes.getD (address - image.base + k) 0 = image.byte (address + k) := by
    rw [byte]
    congr 1
    omega
  rw [readFrom_eq (by decide), List.range_eq_range']
  simp only [hbyte, pow_zero, Nat.one_mul, Nat.zero_add]

/-- A write that succeeds is permitted and sets the bytes it covers and no others. -/
theorem write_eq_ok (h : image.write address width value = .ok image') :
    image.Permits address width true false ∧
      image' = { image with bytes := image'.bytes } ∧ image'.bytes.length = image.bytes.length ∧
      ∀ k, image.base ≤ k → image'.byte k =
        if address ≤ k ∧ k < address + width then BitVec.ofNat 8 (value >>> ((k - address) * 8))
        else image.byte k := by
  simp only [write, Except.bind_eq_ok_iff, Except.pure_eq_ok_iff] at h
  obtain ⟨p, hoffset, rfl⟩ := h
  obtain ⟨hpermits, rfl⟩ := offset_eq_ok hoffset
  have hinside := hpermits.inside
  refine ⟨hpermits, rfl, length_writeFrom, fun k hk => ?_⟩
  simp only [byte]
  rw [getD_writeFrom (by omega)]
  by_cases hcovered : address ≤ k ∧ k < address + width
  · have hback : k - image.base - (address - image.base) = k - address := by omega
    rw [if_pos hcovered, if_pos (by omega), hback]
  · rw [if_neg hcovered, if_neg (by omega)]

end Accesses
end ProgramImage

/-! ## Runs -/

/-- One access of the image, by address and width. -/
inductive Access
  | read (address width : ℕ)
  | fetch (address width : ℕ)
  | write (address width value : ℕ)
  deriving DecidableEq, Repr

/-- Perform an access: its result and the image after it. A faulting write stores nothing. -/
def ProgramImage.access (image : ProgramImage) : Access → Except Fault ℕ × ProgramImage
  | .read address width => (image.read address width false, image)
  | .fetch address width => (image.read address width true, image)
  | .write address width value =>
    match image.write address width value with
    | .ok image' => (.ok 0, image')
    | .error f => (.error f, image)

/-- An image after a sequence of accesses, the last one first, with their results. -/
inductive AccessRun (initial : ProgramImage) :
    List (Access × Except Fault ℕ) → ProgramImage → Prop
  | start : AccessRun initial [] initial
  | access {history : List (Access × Except Fault ℕ)} {image : ProgramImage} (access : Access)
      (run : AccessRun initial history image) :
      AccessRun initial ((access, (image.access access).1) :: history) (image.access access).2

/-- What was last written to the byte at `k`, by a write that succeeded. -/
def lastWrite (k : ℕ) : List (Access × Except Fault ℕ) → Option Byte
  | [] => none
  | (.write address width value, .ok _) :: earlier =>
    if address ≤ k ∧ k < address + width then
      some (BitVec.ofNat 8 (value >>> ((k - address) * 8)))
    else lastWrite k earlier
  | _ :: earlier => lastWrite k earlier

def Access.address : Access → ℕ
  | .read address _ | .fetch address _ | .write address _ _ => address

def Access.width : Access → ℕ
  | .read _ width | .fetch _ width | .write _ width _ => width

/-- Whether the access is a store, and whether it is a fetch. -/
def Access.kind : Access → Bool × Bool
  | .read .. => (false, false)
  | .fetch .. => (false, true)
  | .write .. => (true, false)

section Runs
variable {initial image : ProgramImage} {history : List (Access × Except Fault ℕ)}

/-- An access that succeeds is permitted. -/
theorem ProgramImage.permits_of_access {access : Access} {v : ℕ}
    (h : (image.access access).1 = .ok v) :
    image.Permits access.address access.width access.kind.1 access.kind.2 := by
  cases access with
  | read address width => exact (read_eq_ok h).1
  | fetch address width => exact (read_eq_ok h).1
  | write address width value =>
    cases hwrite : image.write address width value with
    | ok image' => exact (write_eq_ok hwrite).1
    | error f =>
      rw [ProgramImage.access, hwrite] at h
      cases h

/-- An access keeps all but the bytes, and each byte is what was last written to it. -/
theorem AccessRun.kept (run : AccessRun initial history image) :
    image = { initial with bytes := image.bytes } ∧ image.bytes.length = initial.bytes.length ∧
      ∀ k, initial.base ≤ k → image.byte k = (lastWrite k history).getD (initial.byte k) := by
  induction run with
  | start => exact ⟨rfl, rfl, fun _ _ => rfl⟩
  | @access history image access run ih =>
    obtain ⟨hsame, hlength, hbytes⟩ := ih
    cases access with
    | read address width => exact ⟨hsame, hlength, hbytes⟩
    | fetch address width => exact ⟨hsame, hlength, hbytes⟩
    | write address width value =>
      cases hwrite : image.write address width value with
      | error f =>
        have haccess : image.access (.write address width value) = (.error f, image) := by
          rw [ProgramImage.access, hwrite]
        rw [haccess]
        exact ⟨hsame, hlength, hbytes⟩
      | ok image' =>
        have haccess : image.access (.write address width value) = (.ok 0, image') := by
          rw [ProgramImage.access, hwrite]
        obtain ⟨-, hsame', hlength', hbytes'⟩ := ProgramImage.write_eq_ok hwrite
        rw [haccess]
        refine ⟨?_, hlength'.trans hlength, fun k hk => ?_⟩
        · rw [hsame', hsame]
        · have hbase : image.base = initial.base := by rw [hsame]
          rw [hbytes' k (hbase ▸ hk), lastWrite]
          by_cases hcovered : address ≤ k ∧ k < address + width
          · rw [if_pos hcovered, if_pos hcovered, Option.getD_some]
          · rw [if_neg hcovered, if_neg hcovered, hbytes k hk]

/-- The value of a read or a fetch that succeeds, from the accesses before it. -/
theorem AccessRun.value (run : AccessRun initial history image) {address width v : ℕ}
    {instruction : Bool} (h : image.read address width instruction = .ok v) :
    v = littleEndian ((List.range width).map fun k =>
      (lastWrite (address + k) history).getD (initial.byte (address + k))) := by
  obtain ⟨hsame, -, hbytes⟩ := run.kept
  obtain ⟨hpermits, hvalue⟩ := ProgramImage.read_eq_ok h
  have hbase : image.base = initial.base := by rw [hsame]
  have hinside := hpermits.inside
  have hall : (fun k => image.byte (address + k)) = fun k =>
      (lastWrite (address + k) history).getD (initial.byte (address + k)) := by
    funext k
    exact hbytes _ (by omega)
  rw [hvalue, hall]

/-- After any sequence of accesses of any image: a faulting access changes nothing; one that
succeeds lies in memory, and in or outside of each segment; a write sets the bytes it covers,
none of them in a segment that is not writable, and nothing else; a fetch lies in an
executable segment; a read meets no segment that is not readable; and what a read or a fetch
returns is made of the values last written to its bytes, and of the loaded ones. -/
theorem access_control (run : AccessRun initial history image) :
    image = { initial with bytes := image.bytes } ∧
    (∀ access f, (image.access access).1 = .error f → (image.access access).2 = image) ∧
    (∀ access v, (image.access access).1 = .ok v →
      initial.base ≤ access.address ∧
      access.address + access.width ≤ initial.base + initial.bytes.length ∧
      ∀ s ∈ initial.segments, s.Contains access.address access.width ∨
        ¬ s.Meets access.address access.width) ∧
    (∀ address width value v, (image.access (.write address width value)).1 = .ok v →
      (∀ s ∈ initial.segments, s.Meets address width → s.writable) ∧
      (image.access (.write address width value)).2 =
        { image with bytes := (image.access (.write address width value)).2.bytes } ∧
      (image.access (.write address width value)).2.bytes.length = image.bytes.length ∧
      ∀ k, initial.base ≤ k → (image.access (.write address width value)).2.byte k =
        if address ≤ k ∧ k < address + width then BitVec.ofNat 8 (value >>> ((k - address) * 8))
        else image.byte k) ∧
    (∀ address width v, (image.access (.fetch address width)).1 = .ok v →
      ∃ s ∈ initial.segments, s.executable ∧ s.Contains address width) ∧
    (∀ address width v, (image.access (.read address width)).1 = .ok v →
      ∀ s ∈ initial.segments, s.Meets address width → s.readable) ∧
    (∀ address width v, (image.access (.read address width)).1 = .ok v ∨
      (image.access (.fetch address width)).1 = .ok v →
      v = littleEndian ((List.range width).map fun k =>
        (lastWrite (address + k) history).getD (initial.byte (address + k)))) := by
  obtain ⟨hsame, hlength, -⟩ := run.kept
  have hbase : image.base = initial.base := by rw [hsame]
  have hsegments : image.segments = initial.segments := by rw [hsame]
  refine ⟨hsame, ?_, ?_, ?_, ?_, ?_, ?_⟩
  · intro access f h
    cases access with
    | read address width => rfl
    | fetch address width => rfl
    | write address width value =>
      cases hwrite : image.write address width value with
      | ok image' =>
        rw [ProgramImage.access, hwrite] at h
        cases h
      | error f => rw [ProgramImage.access, hwrite]
  · intro access v h
    have hpermits := ProgramImage.permits_of_access h
    refine ⟨hbase ▸ hpermits.inside.1, hbase ▸ hlength ▸ hpermits.inside.2, fun s hs => ?_⟩
    by_cases hmeets : s.Meets access.address access.width
    · exact .inl (hpermits.contained s (hsegments ▸ hs) hmeets)
    · exact .inr hmeets
  · intro address width value v h
    have hpermits := ProgramImage.permits_of_access h
    cases hwrite : image.write address width value with
    | error f =>
      rw [ProgramImage.access, hwrite] at h
      cases h
    | ok image' =>
      have haccess : image.access (.write address width value) = (.ok 0, image') := by
        rw [ProgramImage.access, hwrite]
      obtain ⟨-, hsame', hlength', hbytes'⟩ := ProgramImage.write_eq_ok hwrite
      rw [haccess]
      exact ⟨fun s hs hmeets => hpermits.permitted s (hsegments ▸ hs) hmeets, hsame', hlength',
        fun k hk => hbytes' k (hbase ▸ hk)⟩
  · intro address width v h
    have hpermits := ProgramImage.permits_of_access h
    obtain ⟨s, hs, hexecutable, hmeets⟩ := hpermits.fetched rfl
    exact ⟨s, hsegments ▸ hs, hexecutable, hpermits.contained s hs hmeets⟩
  · intro address width v h s hs hmeets
    exact (ProgramImage.permits_of_access h).permitted s (hsegments ▸ hs) hmeets
  · rintro address width v (h | h)
    · exact run.value h
    · exact run.value h

end Runs

/-- One instruction at the lowest address and four unmapped bytes above it. -/
def probeImage : ProgramImage := ⟨0, 0, [0x13, 0, 0, 0, 0, 0, 0, 0], [⟨0, 4, true, true, true⟩]⟩

/-- In a raw image a word is read back from two written bytes and two loaded ones. -/
theorem access_control_probe : ProgramImage.raw [0x13, 0, 0, 0] 0 0 8 = .ok probeImage ∧
    ∃ v, ((probeImage.access (.write 4 2 0xabcd)).2.access (.read 4 4)).1 = .ok v ∧
      v = littleEndian ((List.range 4).map fun k =>
        (lastWrite (4 + k) [(.write 4 2 0xabcd, (probeImage.access (.write 4 2 0xabcd)).1)]).getD
          (probeImage.byte (4 + k))) := by
  have hrun : AccessRun probeImage [(.write 4 2 0xabcd, (probeImage.access (.write 4 2 0xabcd)).1)]
      (probeImage.access (.write 4 2 0xabcd)).2 := .access _ .start
  have hread : ((probeImage.access (.write 4 2 0xabcd)).2.access (.read 4 4)).1 = .ok 0xabcd := by
    decide +kernel
  obtain ⟨-, -, -, -, -, -, hvalue⟩ := access_control hrun
  exact ⟨by decide +kernel, _, hread, hvalue 4 4 _ (.inl hread)⟩

end Qsbit

import Qsbit.Cpu.FrontEnd
import Qsbit.MemoryModel.Decoders
import Mathlib.Logic.Relation

/-!
# The instruction that is executed

The oldest instruction is executed on one edge or on several. What of it has been seen already,
before it retires, is part of what the program does: lanes of a bundle that have been accepted,
or an access that the memory has performed.

## Main definitions

* `MemoryDevice.Steady` — what is relied on of the devices of a core.
* `Issued` — the frame of the instruction that is next in the program.
* `Progress` — how far it has come, and what of it has been seen.
* `executeFrame_returns` — one edge of it.
-/
namespace Qsbit
open MemoryModel (Bank Lane Carries Performs Refuses answer)
open Relation (ReflTransGen)

/-! ## Devices -/

/-- Devices do not answer fetches, a refusal has no effect, and their addresses stay the same. -/
structure MemoryDevice.Steady {δ : Type} (d : MemoryDevice δ) (changes : δ → δ → Prop) : Prop where
  fetch : ∀ {request : MemoryRequest} {now epoch : ℕ} {s s' : δ} {reply : Option ℕ}
    {l : List TraceEvent}, request.instruction = true →
      ¬ (d.access request now epoch).Returns s reply s' l
  faulted : ∀ {request : MemoryRequest} {now epoch : ℕ} {s s' : δ} {f : Fault}
    {l : List TraceEvent}, request.instruction = true →
      (d.access request now epoch).Raises s f s' l → f.code = .invalidOperand ∧ s' = s
  refused : ∀ {request : MemoryRequest} {now epoch : ℕ} {s s' : δ} {l : List TraceEvent},
    (d.access request now epoch).Returns s none s' l → s' = s
  returned : ∀ {request : MemoryRequest} {now epoch : ℕ} {s s' : δ} {reply : Option ℕ}
    {l : List TraceEvent}, (d.access request now epoch).Returns s reply s' l →
      d.contains s' = d.contains s
  raised : ∀ {request : MemoryRequest} {now epoch : ℕ} {s s' : δ} {f : Fault}
    {l : List TraceEvent}, (d.access request now epoch).Raises s f s' l →
      d.contains s' = d.contains s
  changed : ∀ {s s' : δ}, changes s s' → d.contains s' = d.contains s

namespace Sequential
variable {δ : Type} {d : MemoryDevice δ} {changes : δ → δ → Prop} {issue : ControlIssue}
  {now epoch : ℕ} {a : Architecture δ} {b b' : Bank δ} {request : MemoryRequest}
  {result : Except Fault ℕ}

theorem fetchResult_congr {pc : BitVec 32} (hcontains : d.contains b'.device = d.contains b.device)
    (himage : b'.image.read pc.toNat 4 true = b.image.read pc.toNat 4 true) :
    fetchResult d b' pc = fetchResult d b pc := by
  rw [fetchResult, hcontains, himage, fetchResult]

/-- Changes of the devices between two instructions. -/
theorem runs_of_reflTransGen {device : δ} (h : ReflTransGen changes a.bank.device device) :
    Runs (Step d issue changes) a [] { a with bank := { a.bank with device } } := by
  induction h with
  | refl => exact .start
  | tail _ last ih =>
    have hstep := ih.next (.changed _ last)
    rwa [List.nil_append] at hstep

/-- The image answers, and the devices do not take part. -/
theorem perform_image (himage : d.contains b.device request.address = false) {value : ℕ}
    {l : List TraceEvent} (h : (MemoryModel.perform d request now epoch).Returns b (some value) b' l) :
    b'.device = b.device ∧ if request.write then
        b.image.write request.address request.width request.value = .ok b'.image
      else b.image.read request.address request.width request.instruction = .ok value ∧ b' = b := by
  rw [MemoryModel.perform, Proc.returns_get_bind_iff, if_neg (by simp [himage])] at h
  by_cases hwrite : request.write = true
  · rw [if_pos hwrite, Proc.returns_lift_bind_iff] at h
    obtain ⟨image, hok, h⟩ := h
    rw [Proc.returns_set_bind_iff] at h
    obtain ⟨-, rfl, -⟩ := Proc.returns_pure_iff.1 h
    exact ⟨rfl, by rw [if_pos hwrite]; exact hok⟩
  · rw [if_neg hwrite, Proc.returns_lift_bind_iff] at h
    obtain ⟨read, hok, h⟩ := h
    obtain ⟨hvalue, rfl, -⟩ := Proc.returns_pure_iff.1 h
    obtain rfl := Option.some.inj hvalue
    exact ⟨rfl, by rw [if_neg hwrite]; exact ⟨hok, rfl⟩⟩

/-- An access does not move the devices. -/
theorem contains_of_performs (hd : d.Steady changes)
    (h : Performs d request now epoch b result b') :
    d.contains b'.device = d.contains b.device := by
  by_cases hdevice : d.contains b.device request.address = true
  · cases h with
    | value h =>
      obtain ⟨device, haccess, rfl⟩ := (MemoryModel.perform_device hdevice).1 h
      exact hd.returned haccess
    | fault h =>
      obtain ⟨device, haccess, rfl⟩ := (MemoryModel.perform_device_raises hdevice).1 h
      exact hd.raised haccess
  · rw [Bool.not_eq_true] at hdevice
    cases h with
    | value h => rw [(perform_image hdevice h).1]
    | fault h => rw [MemoryModel.perform_image_raises hdevice h]

theorem refuses_same (hd : d.Steady changes) (h : Refuses d request now epoch b b') : b' = b := by
  obtain ⟨l, h⟩ := h
  by_cases hdevice : d.contains b.device request.address = true
  · obtain ⟨device, haccess, rfl⟩ := (MemoryModel.perform_device hdevice).1 h
    rw [hd.refused haccess]
  · rw [Bool.not_eq_true] at hdevice
    exact absurd h (MemoryModel.perform_image_answers hdevice)

/-- A fetch is answered with what is at its address, and changes nothing. -/
theorem performs_fetch (hd : d.Steady changes) {r : InOrderPipeline.Fetch}
    (h : Performs d r.request now epoch b result b') :
    b' = b ∧ (r.frame (answer r.request result)).Matches d b := by
  have hinstruction : r.request.instruction = true := rfl
  have hmatches : fetchResult d b r.pc = wordOf result →
      (r.frame (answer r.request result)).Matches d b := by
    intro hresult
    change r.frame (answer r.request result) = .ofFetch r.id r.pc (fetchResult d b r.pc)
    rw [hresult]
    cases result <;> rfl
  by_cases hdevice : d.contains b.device r.pc.toNat = true
  · cases h with
    | value h =>
      obtain ⟨device, haccess, -⟩ := (MemoryModel.perform_device hdevice).1 h
      exact absurd haccess (hd.fetch hinstruction)
    | fault h =>
      obtain ⟨device, haccess, hsame⟩ := (MemoryModel.perform_device_raises hdevice).1 h
      obtain ⟨hcode, rfl⟩ := hd.faulted hinstruction haccess
      refine ⟨hsame.symm, hmatches ?_⟩
      rw [fetchResult, if_pos hdevice, wordOf, hcode]
  · rw [Bool.not_eq_true] at hdevice
    have hread : fetchResult d b r.pc = wordOf (b.image.read r.pc.toNat 4 true) := by
      rw [fetchResult, if_neg (by simp [hdevice])]
    cases h with
    | @value value _ _ h =>
      obtain ⟨hok, hsame⟩ := (perform_image hdevice h).2
      change b.image.read r.pc.toNat 4 true = .ok value at hok
      exact ⟨hsame, hmatches (by rw [hread, hok])⟩
    | @fault fault _ _ h =>
      have hsame := MemoryModel.perform_image_raises hdevice h
      have himage : ¬ d.contains b.device r.request.address = true := by
        rw [Bool.not_eq_true]
        exact hdevice
      rw [MemoryModel.perform, Proc.raises_get_bind_iff, if_neg himage,
        if_neg (by simp [InOrderPipeline.Fetch.request]), Proc.raises_lift_bind_iff] at h
      rcases h with ⟨herror, -⟩ | ⟨_, -, h⟩
      · change b.image.read r.pc.toNat 4 true = .error fault at herror
        exact ⟨hsame, hmatches (by rw [hread, herror])⟩
      · exact absurd h Proc.not_raises_pure

/-- A fetch is never refused. -/
theorem not_refuses_fetch (hd : d.Steady changes) {r : InOrderPipeline.Fetch} :
    ¬ Refuses d r.request now epoch b b' := by
  rintro ⟨l, h⟩
  by_cases hdevice : d.contains b.device r.request.address = true
  · obtain ⟨device, haccess, -⟩ := (MemoryModel.perform_device hdevice).1 h
    exact hd.fetch (rfl : r.request.instruction = true) haccess
  · rw [Bool.not_eq_true] at hdevice
    exact MemoryModel.perform_image_answers hdevice h

end Sequential

namespace InOrderPipeline
open Qsbit.Sequential (fetchResult)
variable {δ : Type} {d : MemoryDevice δ} {changes : δ → δ → Prop} {clock : Clock}
  {latency now epoch : ℕ} {p : InOrderPipeline} {lane lane' : Lane} {b b' : Bank δ}

/-- An edge of the memory on the port for instructions. -/
theorem FrontEnd.served (hd : d.Steady changes) (h : FrontEnd d epoch p lane b)
    (hstep : MemoryModel.LaneStep d clock latency now epoch (lane, b) (lane', b')) :
    b' = b ∧ FrontEnd d epoch p lane' b := by
  obtain ⟨response, hcarries, hanswers⟩ := h.request
  have hbounded : ∀ request ∈ p.fetchRequest.map Fetch.request, request.id < p.nextFetch := by
    intro request hrequest
    obtain ⟨r, hr, rfl⟩ := Option.map_eq_some_iff.1 hrequest
    exact (h.bounded r hr).1
  have hfresh := hstep.lastId_lt hcarries h.fresh hbounded
  have hkeeps : b' = b ∧ ∃ response, Carries epoch lane' (p.fetchRequest.map Fetch.request) response ∧
      ∀ x ∈ response, ∀ r ∈ p.fetchRequest, x.id = r.id ∧ (r.frame x).Matches d b := by
    have hhandles := hstep.carries hcarries
    generalize hrequest : p.fetchRequest.map Fetch.request = request at hhandles
    cases hhandles with
    | kept carries same => exact ⟨same, _, carries, hanswers⟩
    | refused carries refuses =>
      obtain ⟨r, -, rfl⟩ := Option.map_eq_some_iff.1 hrequest
      exact absurd refuses (Sequential.not_refuses_fetch hd)
    | @performed q result _ carries performs =>
      obtain ⟨r, hr, hq⟩ := Option.map_eq_some_iff.1 hrequest
      rw [← hq] at carries performs ⊢
      obtain ⟨hsame, hmatches⟩ := Sequential.performs_fetch hd performs
      refine ⟨hsame, _, carries, ?_⟩
      intro x hx r' hr'
      obtain rfl := Option.some.inj hx
      obtain rfl := Option.some.inj (hr.symm.trans hr')
      exact ⟨MemoryModel.answer_id _ _, hmatches⟩
  exact ⟨hkeeps.1, hkeeps.2, hfresh, h.bounded, h.latch, h.fetched, h.decode⟩

/-- The memory elsewhere does not matter to what has been fetched. -/
theorem FrontEnd.bank (h : FrontEnd d epoch p lane b)
    (hdecode : ∀ frame ∈ p.decode, fetchResult d b' frame.pc = fetchResult d b frame.pc)
    (hfetched : ∀ frame ∈ p.fetched, fetchResult d b' frame.pc = fetchResult d b frame.pc)
    (hrequest : lane.port.responses.entries ≠ [] →
      ∀ r ∈ p.fetchRequest, fetchResult d b' r.pc = fetchResult d b r.pc) :
    FrontEnd d epoch p lane b' := by
  have hmatches : ∀ {frame : Frame}, fetchResult d b' frame.pc = fetchResult d b frame.pc →
      frame.Matches d b → frame.Matches d b' := by
    intro frame hsame hframe
    rw [Frame.Matches, hsame]
    exact hframe
  obtain ⟨response, hcarries, hanswers⟩ := h.request
  refine ⟨⟨response, hcarries, ?_⟩, h.fresh, h.bounded, h.latch,
    fun frame hframe => hmatches (hfetched frame hframe) (h.fetched frame hframe),
    fun frame hframe => hmatches (hdecode frame hframe) (h.decode frame hframe)⟩
  intro x hx r hr
  have hsome : lane.port.responses.entries ≠ [] := by
    generalize p.fetchRequest.map Fetch.request = request at hcarries
    cases hcarries with
    | nothing | asked | accepted => cases hx
    | answered _ _ responses =>
      rw [responses]
      exact List.cons_ne_nil _ _
  exact ⟨(hanswers x hx r hr).1, hmatches (hrequest hsome r hr) (hanswers x hx r hr).2⟩

end InOrderPipeline
end Qsbit

import Qsbit.Cpu.Sequential
import Qsbit.Cpu.Run
import Qsbit.MemoryModel.Token

/-!
# Fetching ahead

The pipeline fetches the words after the one that is executed, one at a time. What has been
fetched, and not been discarded, are the words that follow in the program, as long as there is no
jump. A flush discards them; a word that is still under way belongs to an earlier generation then.

## Main definitions

* `InOrderPipeline.path` — the addresses of the instructions that are in the pipeline.
* `Consecutive` — addresses that follow one another.
* `FrontEnd` — what the latches and the port for instructions hold.
-/
namespace Qsbit
open MemoryModel (Bank Lane Carries)
open Qsbit.Sequential (fetchResult)

namespace InOrderPipeline

/-- A frame as it is fetched. -/
def Frame.ofFetch (id : ℕ) (pc : BitVec 32) : Except ErrorCode (BitVec 32) → Frame
  | .ok word => { id, pc, word }
  | .error code => { id, pc, fault := some code }

theorem Frame.raw_ofFetch (id : ℕ) (pc : BitVec 32) (x : Except ErrorCode (BitVec 32)) :
    (Frame.ofFetch id pc x).Raw := by
  cases x <;> rfl

/-- The request of a fetch. -/
def Fetch.request (r : Fetch) : MemoryRequest where
  id := r.id
  address := r.pc.toNat
  instruction := true

/-- The addresses of the instructions in the pipeline, without those that have been discarded. -/
def path (p : InOrderPipeline) : List (BitVec 32) :=
  (p.execute.map Frame.pc).toList ++ (p.decode.map Frame.pc).toList ++
    (p.fetched.map Frame.pc).toList ++
      ((p.fetchRequest.filter (·.generation = p.generation)).map Fetch.pc).toList

end InOrderPipeline

/-- Words that follow one another, and the one after them. -/
def Consecutive : BitVec 32 → List (BitVec 32) → BitVec 32 → Prop
  | pc, [], last => last = pc
  | pc, x :: rest, last => x = pc ∧ Consecutive (pc + 4) rest last

theorem Consecutive.snoc {pc last : BitVec 32} {l : List (BitVec 32)} (h : Consecutive pc l last) :
    Consecutive pc (l ++ [last]) (last + 4) := by
  induction l generalizing pc with
  | nil => exact ⟨h, congrArg (· + 4) h⟩
  | cons x rest ih => exact ⟨h.1, ih h.2⟩

namespace InOrderPipeline
variable {γ δ : Type} {d : MemoryDevice δ} {now epoch : ℕ} {p q : InOrderPipeline} {lane : Lane}
  {b b' : Bank δ} {s s' : CpuState γ} {l : List CpuRecord}

/-- A frame is what is at its address. -/
def Frame.Matches (d : MemoryDevice δ) (b : Bank δ) (frame : Frame) : Prop :=
  frame = Frame.ofFetch frame.id frame.pc (fetchResult d b frame.pc)

/-- What the latches and the port for instructions hold. -/
structure FrontEnd (d : MemoryDevice δ) (epoch : ℕ) (p : InOrderPipeline) (lane : Lane)
    (b : Bank δ) : Prop where
  request : ∃ response, Carries epoch lane (p.fetchRequest.map Fetch.request) response ∧
    ∀ x ∈ response, ∀ r ∈ p.fetchRequest, x.id = r.id ∧ (r.frame x).Matches d b
  fresh : lane.lastId < p.nextFetch
  bounded : ∀ r ∈ p.fetchRequest, r.id < p.nextFetch ∧ r.generation ≤ p.generation
  latch : p.fetchRequest.isSome = true → p.fetched = none
  fetched : ∀ frame ∈ p.fetched, frame.Matches d b
  decode : ∀ frame ∈ p.decode, frame.Matches d b

/-! ## Taking a word -/

/-- What becomes of the word that has been fetched. -/
inductive TakesFetch (now : ℕ) (s : CpuState γ) : CpuState γ → Prop
  | nothing (unanswered : s.fetch.responses.peek now = none) : TakesFetch now s s
  | discarded {r : Fetch} {message : Mailbox.Envelope MemoryResponse}
      (pending : s.pipeline.fetchRequest = some r)
      (answered : s.fetch.responses.peek now = some message)
      (old : ¬ (r.generation = s.pipeline.generation ∧ s.pipeline.halted = false)) :
      TakesFetch now s
        { s with
          pipeline := { s.pipeline with fetchRequest := none }
          fetch := { s.fetch with responses := s.fetch.responses.taken now } }
  | latched {r : Fetch} {message : Mailbox.Envelope MemoryResponse}
      (pending : s.pipeline.fetchRequest = some r)
      (answered : s.fetch.responses.peek now = some message)
      (current : r.generation = s.pipeline.generation ∧ s.pipeline.halted = false) :
      TakesFetch now s
        { s with
          pipeline := { s.pipeline with fetched := some (r.frame message.value), fetchRequest := none }
          fetch := { s.fetch with responses := s.fetch.responses.taken now } }

/-- A word that has been fetched is always taken. -/
theorem FrontEnd.takes (h : FrontEnd d epoch s.pipeline lane b) (hport : lane.port = s.fetch) :
    ∃ s', (takeFetch now epoch).Returns s () s' [] ∧ TakesFetch now s s' := by
  obtain ⟨response, hcarries, hanswers⟩ := h.request
  simp only [takeFetch, Proc.returns_get_bind_iff]
  cases hpeek : s.fetch.responses.peek now with
  | none => exact ⟨s, by simp, .nothing hpeek⟩
  | some message =>
    rw [← hport] at hpeek
    obtain ⟨rfl, hepoch, hsome, -⟩ := hcarries.taken hpeek
    rw [hport] at hpeek
    rw [Option.isSome_map] at hsome
    obtain ⟨r, hr⟩ := Option.isSome_iff_exists.1 hsome
    have hid := (hanswers _ rfl r hr).1
    have hlatch := h.latch (by simp [hr])
    by_cases hcurrent : r.generation = s.pipeline.generation ∧ s.pipeline.halted = false
    · refine ⟨_, ?_, .latched hr hpeek hcurrent⟩
      simp only [Proc.returns_modify_bind_iff, hepoch, if_true, hr, Proc.returns_lift_bind_iff,
        require_eq_ok_iff, exists_const, hid, hcurrent, hlatch, Proc.bind_assoc, modify,
        Proc.returns_modify_iff, and_self]
    · refine ⟨_, ?_, .discarded hr hpeek hcurrent⟩
      simp only [Proc.returns_modify_bind_iff, hepoch, if_true, hr, Proc.returns_lift_bind_iff,
        require_eq_ok_iff, exists_const, hid, if_neg hcurrent, Proc.pure_bind, modify,
        Proc.returns_modify_iff, and_self]

/-- Only the latch and the request of a fetch have changed. -/
theorem TakesFetch.same (h : TakesFetch now s s') : ∃ fetched fetchRequest fetch,
    s' = { s with pipeline := { s.pipeline with fetched, fetchRequest }, fetch } := by
  cases h <;> exact ⟨_, _, _, rfl⟩

theorem TakesFetch.sound (h : TakesFetch now s s') (hsound : s.fetch.Sound) : s'.fetch.Sound := by
  cases h with
  | nothing => exact hsound
  | discarded | latched => exact ⟨hsound.requests, hsound.responses.taken⟩

theorem TakesFetch.frontEnd (h : TakesFetch now s s') (hfront : FrontEnd d epoch s.pipeline lane b)
    (hport : lane.port = s.fetch) :
    FrontEnd d epoch s'.pipeline { lane with port := s'.fetch } b := by
  obtain ⟨response, hcarries, hanswers⟩ := hfront.request
  cases h with
  | nothing =>
    rw [← hport]
    exact hfront
  | discarded pending answered =>
    rw [← hport] at answered
    obtain ⟨-, -, -, hempty⟩ := hcarries.taken answered
    rw [hport] at hempty
    exact ⟨⟨none, hempty, by simp⟩, hfront.fresh, by simp, by simp, hfront.fetched, hfront.decode⟩
  | latched pending answered =>
    rw [← hport] at answered
    obtain ⟨rfl, -, -, hempty⟩ := hcarries.taken answered
    rw [hport] at hempty
    refine ⟨⟨none, hempty, by simp⟩, hfront.fresh, by simp, by simp, ?_, hfront.decode⟩
    intro frame hframe
    obtain rfl := Option.some.inj hframe
    exact (hanswers _ rfl _ pending).2

theorem TakesFetch.path (h : TakesFetch now s s') (hfront : FrontEnd d epoch s.pipeline lane b)
    (hrunning : s.pipeline.halted = false) : s'.pipeline.path = s.pipeline.path := by
  cases h with
  | nothing => rfl
  | @discarded r message pending answered old =>
    have hold : r.generation ≠ s.pipeline.generation := fun heq => old ⟨heq, hrunning⟩
    simp [InOrderPipeline.path, pending, Option.filter, hold]
  | latched pending answered current =>
    have hempty := hfront.latch (by simp [pending])
    simp [InOrderPipeline.path, pending, hempty, Option.filter, current.1, Fetch.frame]

/-! ## Moving on -/

theorem FrontEnd.of_eq (h : FrontEnd d epoch p lane b) (hrequest : q.fetchRequest = p.fetchRequest)
    (hfetched : q.fetched = p.fetched) (hdecode : q.decode = p.decode)
    (hnext : q.nextFetch = p.nextFetch) (hgeneration : q.generation = p.generation) :
    FrontEnd d epoch q lane b := by
  obtain ⟨request, fresh, bounded, latch, fetched, decode⟩ := h
  constructor
  · rwa [hrequest]
  · rwa [hnext]
  · rwa [hrequest, hnext, hgeneration]
  · rwa [hrequest, hfetched]
  · rwa [hfetched]
  · rwa [hdecode]

/-- A flush discards what has been fetched. -/
theorem FrontEnd.flushed (h : FrontEnd d epoch p lane b) :
    FrontEnd d epoch
      { p with decode := none, fetched := none, generation := p.generation + 1, fetchPc := p.pc }
      lane b where
  request := h.request
  fresh := h.fresh
  bounded r hr := ⟨(h.bounded r hr).1, (h.bounded r hr).2.trans (Nat.le_succ _)⟩
  latch _ := rfl
  fetched := by simp
  decode := by simp

theorem FrontEnd.path_flushed (h : FrontEnd d epoch p lane b) (hexecute : p.execute = none) :
    path { p with
      decode := none, fetched := none, generation := p.generation + 1, fetchPc := p.pc } = [] := by
  have hold : p.fetchRequest.filter (·.generation = p.generation + 1) = none := by
    rw [Option.filter_eq_none_iff]
    intro r hr
    have hgeneration := (h.bounded r hr).2
    simp only [decide_eq_true_eq]
    omega
  simp [path, hexecute, hold]

/-- Moving on does not change what is in the pipeline. -/
theorem FrontEnd.advanced (h : FrontEnd d epoch p lane b) : FrontEnd d epoch p.advance lane b := by
  have hrequest : p.advance.fetchRequest = p.fetchRequest ∧ p.advance.nextFetch = p.nextFetch ∧
      p.advance.generation = p.generation := by
    simp only [advance]
    split <;> split <;> exact ⟨rfl, rfl, rfl⟩
  have hlatch : ∀ frame ∈ p.advance.fetched, frame ∈ p.fetched := by
    simp only [advance]
    split <;> split <;> simp
  have hdecode : ∀ frame ∈ p.advance.decode, frame ∈ p.decode ∨ frame ∈ p.fetched := by
    intro frame
    simp only [advance]
    split <;> split <;> simp_all
  obtain ⟨hpending, hnext, hgeneration⟩ := hrequest
  refine ⟨?_, ?_, ?_, ?_, ?_, ?_⟩
  · rw [hpending]
    exact h.request
  · rw [hnext]
    exact h.fresh
  · rw [hpending, hnext, hgeneration]
    exact h.bounded
  · intro hsome
    rw [hpending] at hsome
    have hempty := h.latch hsome
    rw [Option.eq_none_iff_forall_not_mem]
    intro frame hframe
    have hmem := hlatch frame hframe
    simp [hempty] at hmem
  · exact fun frame hframe => h.fetched frame (hlatch frame hframe)
  · intro frame hframe
    rcases hdecode frame hframe with hold | hnew
    · exact h.decode frame hold
    · exact h.fetched frame hnew

theorem pc_issued (issue : ControlIssue) (registers : RegisterFile) (frame : Frame) :
    (frame.issued issue registers).pc = frame.pc := by
  simp only [Frame.issued, decodeWord]
  split
  · rfl
  · split
    · rename_i hdecoded
      split at hdecoded
      all_goals
        simp only [Except.bind_eq_ok_iff, Except.pure_eq_ok_iff] at hdecoded
        obtain ⟨_, -, rfl⟩ := hdecoded
        rfl
    · rfl

theorem path_advance (p : InOrderPipeline) : p.advance.path = p.path := by
  cases hexecute : p.execute <;> cases hdecode : p.decode <;>
    simp [path, advance, hexecute, hdecode, pc_issued]

/-! ## Asking for the next word -/

/-- The next word has been asked for, or it cannot be asked for yet. -/
inductive Asks (now epoch : ℕ) (s : CpuState γ) : CpuState γ → Prop
  | nothing : Asks now epoch s s
  | requested {requests : Mailbox MemoryRequest} (idle : s.pipeline.fetchRequest = none)
      (empty : s.pipeline.fetched = none)
      (published : s.fetch.requests.publish now epoch
        { id := s.pipeline.nextFetch, address := s.pipeline.fetchPc.toNat, instruction := true } =
          .ok requests) :
      Asks now epoch s
        { s with
          pipeline :=
            { s.pipeline with
              nextFetch := s.pipeline.nextFetch + 1
              fetchRequest := some
                { id := s.pipeline.nextFetch, pc := s.pipeline.fetchPc
                  generation := s.pipeline.generation }
              fetchPc := s.pipeline.fetchPc + 4 }
          fetch := { s.fetch with requests } }

theorem asks_of_fetchNext {u : Unit} (h : (fetchNext now epoch).Returns s u s' l) :
    Asks now epoch s s' ∧ l = [] := by
  simp only [fetchNext, Proc.returns_get_bind_iff] at h
  split at h
  · rename_i hfree
    simp only [modify, Proc.returns_lift_bind_iff, Proc.returns_modify_bind_iff,
      Proc.returns_modify_iff] at h
    obtain ⟨next, hnext, requests, hpublish, rfl, rfl⟩ := h
    rw [eq_of_checkedAdd hnext]
    exact ⟨.requested hfree.1 hfree.2.1 hpublish, rfl⟩
  · obtain ⟨-, rfl, rfl⟩ := Proc.returns_pure_iff.1 h
    exact ⟨.nothing, rfl⟩

theorem Asks.sound (h : Asks now epoch s s') (hsound : s.fetch.Sound) : s'.fetch.Sound := by
  cases h with
  | nothing => exact hsound
  | requested _ _ published => exact ⟨hsound.requests.publish published, hsound.responses⟩

theorem Asks.frontEnd (h : Asks now epoch s s') (hfront : FrontEnd d epoch s.pipeline lane b)
    (hport : lane.port = s.fetch) :
    FrontEnd d epoch s'.pipeline { lane with port := s'.fetch } b := by
  cases h with
  | nothing =>
    rw [← hport]
    exact hfront
  | @requested requests idle empty published =>
    obtain ⟨response, hcarries, -⟩ := hfront.request
    rw [idle] at hcarries
    rw [← hport] at published
    have hasked := hcarries.published hfront.fresh published
    rw [hport] at hasked
    refine ⟨⟨none, hasked, by simp⟩, hfront.fresh.trans (Nat.lt_succ_self _), ?_, fun _ => empty,
      hfront.fetched, hfront.decode⟩
    intro r hr
    obtain rfl := Option.some.inj hr
    exact ⟨Nat.lt_succ_self _, le_rfl⟩

theorem Asks.consecutive (h : Asks now epoch s s')
    (hpath : Consecutive s.pipeline.pc s.pipeline.path s.pipeline.fetchPc) :
    Consecutive s'.pipeline.pc s'.pipeline.path s'.pipeline.fetchPc := by
  cases h with
  | nothing => exact hpath
  | requested idle empty =>
    have hsnoc := hpath.snoc
    simpa [InOrderPipeline.path, idle, empty, Option.filter] using hsnoc

end InOrderPipeline
end Qsbit

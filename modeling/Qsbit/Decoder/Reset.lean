import Qsbit.Decoder.Results

/-!
# The reset of a session

A reset has its own place and overtakes the queue, but it is sent over the link like
a packet. So what is older than the reset when it arrives is all that has been
admitted of the session, and what is younger is still queued.

## Main results

* `decoder_reset` — what the arrival of a reset does, and that nothing older returns.
-/
namespace Qsbit
open Std (ExtTreeMap)
open Submission

namespace DecoderSystem

/-- What a step does after the transmission has advanced. -/
def serve (now epoch : ℕ) : Sim DecoderSystem Unit := do
  advanceJobs now epoch
  admitRequests now epoch
  transmitResult now

/-- What the arrival of a reset does. Requests of the session that are younger than the reset, and
all of the other sessions, stay as they are; their transmission starts when it is due. -/
structure ResetArrives (p : Request) (now : ℕ) (submissions : List Submission)
    (s s' : DecoderSystem) : Prop where
  gone : s'.resetRequest = none
  session : s'.session (p.core, p.decoder) = {}
  requests : s'.requests = (s.requests.filter fun q =>
    ¬ (q.of (p.core, p.decoder) ∧ q.id < p.id)).map (·.transmit now)
  jobs : s'.jobs = s.jobs.filter fun j => ¬ j.of (p.core, p.decoder)
  older : ∀ j ∈ s.jobs, j.of (p.core, p.decoder) → j.id < p.id
  /-- No packet that has been submitted after the reset had been admitted. -/
  unadmitted : submissions.filter (fun x => x.of (p.core, p.decoder) ∧ p.id < x.id) =
    (s.requests.filter fun q => q.of (p.core, p.decoder) ∧ p.id < q.id).map Request.submission
  other : ∀ key, (p.core, p.decoder) ≠ key → s'.session key = s.session key
  links : s'.txAvailable = s.txAvailable ∧ s'.rxAvailable = s.rxAvailable
  starts : s'.available = s.available
  rest : s'.config = s.config ∧ s'.mmio = s.mmio ∧ s'.next = s.next

/-- Nothing of a session is left that is as old as `id`, and since then nothing so old has
returned. -/
structure Forgets (core decoder id : ℕ) (more : List TraceEvent) (history : DecoderHistory)
    (s : DecoderSystem) : Prop where
  own : ∀ x ∈ history.own core decoder, id < x.id
  requests : ∀ q ∈ s.requests, q.of (core, decoder) = true → id < q.id
  jobs : ∀ j ∈ s.jobs, j.of (core, decoder) = true → id < j.id
  returned : ∀ r ∈ more, r.ofSession (core, decoder) → r.kind = .decoderResultReturned → id < r.id

section Reset
variable {config : DecoderSystemConfig} {submissions : List Submission} {log : List TraceEvent}
  {s : DecoderSystem} {now : ℕ} {p : Request}

theorem Sound.job_older (h : Sound config submissions log s) (hp : s.resetRequest = some p) {j : Job}
    (hj : j ∈ s.jobs) (hof : j.of (p.core, p.decoder) = true) : j.id < p.id := by
  obtain ⟨d, hd⟩ := h.known p (by simp [hp])
  obtain ⟨groups, part, hserves⟩ := h.serves (p.core, p.decoder) d hd
  have hrunning : (j.id, j.result) ∈ (s.view (p.core, p.decoder)).running :=
    List.mem_map_of_mem (List.mem_filter.2 ⟨hj, hof⟩)
  exact (hserves.running_older hrunning).2 p.id (by simp [view, hp])

theorem Sound.resetArrives (h : Sound config submissions log s) (hp : s.resetRequest = some p) :
    ResetArrives p now submissions s ((s.transmitAll now).cancel p) where
  gone := rfl
  session := by
    rw [session_cancel, if_pos (Request.of_iff.2 rfl)]
  requests := by
    change ((s.requests.map (·.transmit now)).filter _) = _
    rw [List.filter_map]
    congr 1
    apply List.filter_congr
    intro q _
    have hiff : p.cancels (q.transmit now).core (q.transmit now).decoder (q.transmit now).id =
        p.cancels q.core q.decoder q.id := by
      rw [transmit_eq]
    rw [Function.comp_apply, hiff]
    simp only [Request.cancels, Request.of, decide_eq_true_eq, and_assoc]
  jobs := by
    change s.jobs.filter _ = _
    apply List.filter_congr
    intro j hj
    have hof := h.job_older hp hj
    simp only [Job.of_iff, Prod.mk.injEq] at hof
    simp only [Request.cancels, Job.of, decide_eq_true_eq, decide_eq_decide]
    tauto
  older := fun j hj hof => h.job_older hp hj hof
  unadmitted := by
    obtain ⟨d, hd⟩ := h.known p (by simp [hp])
    obtain ⟨groups, part, hserves⟩ := h.serves (p.core, p.decoder) d hd
    rw [hserves.unadmitted (by simp [view, hp])]
    change ((s.requests.filter _).map Request.submission).filter _ = _
    rw [List.filter_map, List.filter_filter]
    congr 1
    apply List.filter_congr
    intro q _
    simp only [Request.submission, Function.comp_apply, Bool.decide_and, Bool.decide_eq_true]
    exact Bool.and_comm _ _
  other := by
    intro key hkey
    rw [session_cancel, if_neg (fun hof => hkey (Request.of_iff.1 hof))]
    rfl
  links := ⟨rfl, rfl⟩
  starts := rfl
  rest := ⟨rfl, rfl, rfl⟩

theorem forgets {history : DecoderHistory} {more : List TraceEvent} {core decoder : ℕ}
    {d : DecoderConfig} {r : TraceEvent} {before : List TraceEvent}
    (run : DecoderRun config history s) (hd : s.decoder decoder = .ok d)
    (hlog : history.log = before ++ more) (hr : r ∈ before) (hof : r.ofSession (core, decoder))
    (hkind : r.kind = .decoderReset) : Forgets core decoder r.id more history s := by
  obtain ⟨groups, part, hserves⟩ := run.sound.serves (core, decoder) d hd
  have hreset : r.id ≤ (Progress.of (core, decoder) history.log).reset := by
    refine hserves.resets r ?_ hof hkind
    rw [hlog]
    exact List.mem_append_left _ hr
  have hown : ∀ x ∈ history.own core decoder, r.id < x.id := by
    intro x hx
    have hera := (List.mem_filter.1 hx).2
    simp only [decide_eq_true_eq] at hera
    exact hreset.trans_lt hera.2
  have hera : history.own core decoder =
      groups.flatten ++ part ++ (s.view (core, decoder)).queued := hserves.era
  constructor
  · exact hown
  · intro q hq hofq
    apply hown q.submission
    rw [hera]
    exact List.mem_append_right _ (List.mem_map_of_mem (List.mem_filter.2 ⟨hq, hofq⟩))
  · intro j hj hofj
    have hrunning : (j.id, j.result) ∈ (s.view (core, decoder)).running :=
      List.mem_map_of_mem (List.mem_filter.2 ⟨hj, hofj⟩)
    obtain ⟨-, -, groups', g, rfl, -, hid, -⟩ := hserves.running_eq hrunning
    obtain ⟨x, hx, hlast⟩ := exists_lastId (hserves.ne_nil (g := g) (by simp))
    rw [hid, ← hlast]
    apply hown
    rw [hera]
    simp [hx]
  · intro b hb hofb hkindb
    have hlater := hserves.later
    rw [hlog] at hlater
    exact (List.pairwise_append.1 hlater).2.2 r hr b hb hof hkind hofb hkindb

end Reset
end DecoderSystem

open DecoderSystem in
/-- When a reset arrives, before anything else on its tick, all that is left of its session is the
packets that have been submitted after it. In each later state, only packets after the reset are
there or make up results, and only they have returned since. -/
theorem decoder_reset {config : DecoderSystemConfig} {history : DecoderHistory}
    {s s' : DecoderSystem} {p : DecoderSystem.Request} {now epoch : ℕ} {l : List TraceEvent}
    (run : DecoderRun config history s) (hp : s.resetRequest = some p) (harrival : p.arrival ≤ now)
    (hstep : (DecoderSystem.step now epoch).Returns s () s' l) :
    ∃ s₁ l₁ l₂, (advanceTransmission now epoch).Returns s () s₁ l₁ ∧
      (serve now epoch).Returns s₁ () s' l₂ ∧ l = l₁ ++ l₂ ∧
      ResetArrives p now history.submissions s s₁ ∧
      ∀ history' s'' more, DecoderRun config history' s'' →
        history'.log = history.log ++ l₁ ++ more →
        Forgets p.core p.decoder p.id more history' s'' := by
  obtain ⟨_, s₁, l₁, l₂, h₁, h₂, rfl⟩ := Proc.returns_bind_iff.1 hstep
  refine ⟨s₁, l₁, l₂, h₁, h₂, rfl, ?_⟩
  rcases advanceTransmission_returns h₁ with ⟨p', hp', -, rfl, rfl⟩ | ⟨hlate, -, -⟩
  · obtain rfl := Option.some.inj (hp.symm.trans hp')
    refine ⟨run.sound.resetArrives hp, ?_⟩
    intro history' s'' more run' hlog
    obtain ⟨d, hd⟩ := run.sound.known p (by simp [hp])
    have hd' : s''.decoder p.decoder = .ok d := by
      rw [DecoderSystem.decoder, run'.sound.configured, ← run.sound.configured]
      exact hd
    have hmem : (cancel p (transmitAll now s)).record now epoch .decoderReset p.id p.core p.decoder
        p.tag ∈ history.log ++ (s.requestsSent now epoch ++
          [(cancel p (transmitAll now s)).record now epoch .decoderReset p.id p.core p.decoder
            p.tag]) := by simp
    exact forgets run' hd' hlog hmem (ofSession_record.2 rfl) rfl
  · exact absurd (hlate p hp) (by omega)

section Probe

/-- A core submits a bit, resets its session, and submits another bit before the reset arrives. -/
def resetCalls : List (ℕ × DecoderCall) :=
  let write offset value := DecoderCall.access 0
    { address := 0x40000000 + offset, value, write := true }
  ([write 0 7, write 4 1, write 8 1, write 20 1, write 20 2].map fun call => (0, call)) ++
    ((List.range 5).map fun i => (i, .step)) ++ [(4, write 20 1)]

/-- The reset finds the first bit in its session, and the other one in the queue. -/
theorem decoder_reset_probe : ∃ history s s' p, DecoderRun parityConfig history s ∧
    (s.session (0, 7)).measurements = [true] ∧ s.requests.map (·.id) = [3] ∧ p.id = 2 ∧
    s'.session (0, 7) = {} ∧ DecoderSystem.ResetArrives p 5 history.submissions s s' := by
  have hplay : ((({} : DecoderHistory).play parityDecoders resetCalls).any fun x =>
      (x.2.session (0, 7)).measurements = [true] ∧ x.2.requests.map (·.id) = [3] ∧
        (x.2.resetRequest.any fun p => p.id = 2 ∧ p.core = 0 ∧ p.decoder = 7 ∧ p.arrival = 5) ∧
        (DecoderSystem.step 5 1 x.2).result.toOption.isSome) = true := by decide +kernel
  rw [Option.any_eq_true] at hplay
  obtain ⟨⟨history, s⟩, hplay, hfacts⟩ := hplay
  simp only [decide_eq_true_eq, Option.any_eq_true] at hfacts
  obtain ⟨hmeasurements, hrequests, ⟨p, hp, hid, hcore, hdecoder, harrival⟩, hstep⟩ := hfacts
  have run : DecoderRun parityConfig history s := (DecoderRun.make rfl).play hplay
  obtain ⟨s', l₁, l₂, -, -, -, harrives, -⟩ :=
    decoder_reset run hp harrival.le (Proc.returns_of_isSome hstep)
  have hsession := harrives.session
  rw [hcore, hdecoder] at hsession
  exact ⟨history, s, s', p, run, hmeasurements, hrequests, hid, hsession, harrives⟩

end Probe
end Qsbit

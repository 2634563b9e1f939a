import Mathlib.Algebra.Order.Floor.Div
import Qsbit.Decoder.Capacity
import Qsbit.Lib.Serial

/-!
# Links and pipelines

The link of requests, the link of responses and the pipeline of each decoder are
used by one at a time. When a step is made on every tick that is named and on every
tick with an access, the response link is never idle while a result waits for it.

## Main definitions

* `DecoderTimeline` — what has been sent and decoded, and when.
* `DecoderTimed` — runs that make their steps in time.
* `DecoderTiming` — the laws of the links and pipelines.
-/
namespace Qsbit
open Std (ExtTreeMap)

/-- The ticks that a packet with so many bits of payload occupies a link. -/
def DecoderSystemConfig.transmission (config : DecoderSystemConfig) (bits : ℕ) : ℕ :=
  max 1 ((config.packetOverhead + bits ⌈/⌉ (8 : ℕ)) ⌈/⌉ config.bytesPerTick)

/-- A result that is sent: the tick on which its transmission starts, its job, and the jobs of which
the results are not sent then. -/
structure DecoderResponse where
  start : ℕ
  job : DecoderSystem.Job
  waiting : List DecoderSystem.Job

/-- The end of the transmission of a response. -/
def DecoderResponse.last (config : DecoderSystemConfig) (r : DecoderResponse) : ℕ :=
  r.job.arrival.getD 0 - config.linkLatency

/-- What has happened since a tick. Packets, which include resets, are with the tick of their access,
jobs with that of the admission of their last packet, and there are the decoders at the end of each
tick that has passed. -/
structure DecoderTimeline where
  since : ℕ
  packets : List (ℕ × DecoderSystem.Request) := []
  jobs : List (ℕ × DecoderSystem.Job) := []
  responses : List DecoderResponse := []
  past : List (ℕ × DecoderSystem) := []

namespace DecoderSystem

/-- The packets that have come with a change of the decoders. -/
def packetsSince (s s' : DecoderSystem) : List Request :=
  (s'.requests ++ s'.resetRequest.toList).filter fun p => s.next ≤ p.id

def jobsSince (s s' : DecoderSystem) : List Job := s'.jobs.filter fun j => j.id ∉ s.jobs.map (·.id)

/-- The results that have been sent. -/
def responsesSince (s s' : DecoderSystem) (now : ℕ) : List DecoderResponse :=
  (s'.jobs.filter fun j => j.arrival.isSome ∧ ∀ i ∈ s.jobs, i.id = j.id → i.arrival = none).map
    fun job => { start := now, job, waiting := s'.jobs.filter (·.arrival.isNone) }

end DecoderSystem

/-- Runs in which a step is made on each tick with an access and on each boundary, before the tick
passes. A step is due when it has not been made yet. -/
inductive DecoderTimed (config : DecoderSystemConfig) :
    ℕ → Bool → DecoderTimeline → DecoderSystem → Prop
  | make {s : DecoderSystem} {now : ℕ} (h : DecoderSystem.make config = .ok s) :
      DecoderTimed config now false { since := now } s
  | access {timeline : DecoderTimeline} {s s' : DecoderSystem} {core now epoch : ℕ} {due : Bool}
      {request : MemoryRequest} {reply : Option ℕ} {l : List TraceEvent}
      (run : DecoderTimed config now due timeline s)
      (h : (DecoderSystem.access core request now epoch).Returns s reply s' l) :
      DecoderTimed config now true
        { timeline with
          packets := timeline.packets ++ (s.packetsSince s').map fun p => (now, p) } s'
  | fault {timeline : DecoderTimeline} {s s' : DecoderSystem} {core now epoch : ℕ} {due : Bool}
      {request : MemoryRequest} {f : Fault} {l : List TraceEvent}
      (run : DecoderTimed config now due timeline s)
      (h : (DecoderSystem.access core request now epoch).Raises s f s' l) :
      DecoderTimed config now true timeline s'
  | step {timeline : DecoderTimeline} {s s' : DecoderSystem} {now epoch : ℕ} {due : Bool}
      {l : List TraceEvent} (run : DecoderTimed config now due timeline s)
      (h : (DecoderSystem.step now epoch).Returns s () s' l) :
      DecoderTimed config now false
        { timeline with
          jobs := timeline.jobs ++ (s.jobsSince s').map fun j => (now, j)
          responses := timeline.responses ++ s.responsesSince s' now } s'
  | tick {timeline : DecoderTimeline} {s : DecoderSystem} {now : ℕ}
      (run : DecoderTimed config now false timeline s) :
      DecoderTimed config (now + 1) (s.nextBoundary now = some (now + 1))
        { timeline with past := timeline.past ++ [(now, s)] } s
  | reset {timeline : DecoderTimeline} {s : DecoderSystem} {now : ℕ} {due : Bool}
      (run : DecoderTimed config now due timeline s) :
      DecoderTimed config now false { since := now } s.reset

namespace DecoderSystem

/-! ## Pipelines -/

/-- The jobs that have been admitted to each decoder start one after the other. -/
structure Pipelined (s : DecoderSystem) (now : ℕ) (jobs : List (ℕ × Job)) : Prop where
  schedule : ∀ x ∈ jobs, x.1 ≤ now ∧ x.1 < x.2.start ∧
    ∃ d, s.decoder x.2.decoder = .ok d ∧ x.2.completion = x.2.start + d.latency
  ordered : jobs.Pairwise fun x y => x.1 ≤ y.1
  serial : ∀ id d, s.decoder id = .ok d →
    Serial ((jobs.filter (·.2.decoder = id)).map fun x =>
      (x.2.start, x.2.start + d.initiationInterval)) (s.available[id]?.getD 0)

section Pipeline
variable {s s' x : DecoderSystem} {now epoch : ℕ} {jobs : List (ℕ × Job)} {u : Unit}
  {l : List TraceEvent}

theorem Pipelined.congr (h : Pipelined s now jobs) (hconfig : s'.config = s.config)
    (havailable : s'.available = s.available) : Pipelined s' now jobs := by
  constructor
  · simp only [decoder_congr hconfig]
    exact h.schedule
  · exact h.ordered
  · rw [havailable]
    simp only [decoder_congr hconfig]
    exact h.serial

/-- The job of a window that is completed starts when its decoder is free. -/
theorem Pipelined.schedules (h : Pipelined s now jobs) {d : DecoderConfig} {j : Job}
    (hd : s.decoder j.decoder = .ok d) (hconfig : s'.config = s.config)
    (hschedule : Schedules now d s s' j.start j.completion) :
    Pipelined s' now (jobs ++ [(now, j)]) := by
  have hstart := hschedule.earliest
  obtain ⟨-, hid⟩ := mem_of_decoder hd
  constructor
  · intro y hy
    rw [decoder_congr hconfig]
    rcases List.mem_append.1 hy with hy | hy
    · exact h.schedule y hy
    · rw [List.mem_singleton.1 hy]
      have hlate : now < j.start := by omega
      exact ⟨le_rfl, hlate, d, hd, hschedule.latency⟩
  · refine List.pairwise_append.2 ⟨h.ordered, List.pairwise_singleton _ _, fun y hy z hz => ?_⟩
    rw [List.mem_singleton.1 hz]
    exact (h.schedule y hy).1
  · intro id d' hd'
    rw [decoder_congr hconfig] at hd'
    have hserial := h.serial id d' hd'
    rw [hschedule.available, ExtTreeMap.getElem?_insert, List.filter_append]
    by_cases hsame : j.decoder = id
    · obtain rfl := hsame
      obtain rfl := Except.ok.inj (hd.symm.trans hd')
      rw [if_pos (Nat.compare_eq_eq.2 hid), List.filter_cons_of_pos (by simp), List.map_append]
      refine hserial.use ?_ (Nat.le_add_right _ _)
      rw [hstart, hid]
      exact le_max_right _ _
    · rw [if_neg (fun heq => hsame (hid.symm.trans (Nat.compare_eq_eq.1 heq))),
        List.filter_cons_of_neg (by simpa using hsame), List.filter_nil, List.append_nil]
      exact hserial

/-! ## What a step does to the jobs -/

/-- What admissions have added to the jobs. -/
structure Admitted (now : ℕ) (s x : DecoderSystem) (new : List Job) : Prop where
  config : x.config = s.config
  jobs : x.jobs = s.jobs ++ new
  ids : (new.map (·.id) ++ x.requests.map (·.id)).Sublist (s.requests.map (·.id))
  requests : x.requests.Sublist s.requests
  reset : x.resetRequest = s.resetRequest
  links : x.rxAvailable = s.rxAvailable ∧ x.txAvailable = s.txAvailable ∧ x.next = s.next
  fresh : ∀ j ∈ new, j.arrival = none ∧ j.started = false ∧ j.completed = false ∧ now < j.start ∧
    j.start ≤ j.completion
  pipelined : ∀ jobs, Pipelined s now jobs → Pipelined x now (jobs ++ new.map fun j => (now, j))

theorem Admitted.refl : Admitted now s s [] where
  config := rfl
  jobs := (List.append_nil _).symm
  ids := .refl _
  requests := .refl _
  reset := rfl
  links := ⟨rfl, rfl, rfl⟩
  fresh := by simp
  pipelined := by simp

theorem Admitted.openSession {new : List Job} (h : Admitted now s x new) {key : ℕ × ℕ} :
    Admitted now s (x.openSession key) new where
  config := h.config
  jobs := h.jobs
  ids := h.ids
  requests := h.requests
  reset := h.reset
  links := h.links
  fresh := h.fresh
  pipelined := fun jobs hjobs => (h.pipelined jobs hjobs).congr rfl rfl

/-- A request leaves the queue, and a job may come for it. -/
theorem Admitted.admitRequest {new : List Job} (h : Admitted now s x new) {p : Request}
    {rest : List Request} {x' : DecoderSystem} (hrequests : x.requests = p :: rest)
    (ha : (admitRequest now epoch p).Returns x true x' l) :
    ∃ new, Admitted now s { x' with requests := rest } new := by
  obtain ⟨d, hd, ⟨hfalse, -⟩ | ⟨-, ⟨window, hadmits⟩, -⟩⟩ := admitRequest_returns ha
  · simp at hfalse
  obtain ⟨sessions, available, jobs, heq⟩ := hadmits.rest
  have hconfig : x'.config = x.config := by rw [heq]
  have hids := h.ids
  rw [hrequests] at hids
  have hrest : rest.Sublist s.requests := by
    refine .trans (List.sublist_cons_self p rest) ?_
    rw [← hrequests]
    exact h.requests
  rcases hadmits.outcome with ⟨-, hjobs, havailable, -⟩ |
    ⟨-, -, result, start, completion, -, hschedule, hjobs⟩
  · refine ⟨new, hconfig.trans h.config, hjobs.trans h.jobs, .trans ?_ hids, hrest, ?_, ?_, h.fresh,
      fun jobs hjobs => (h.pipelined jobs hjobs).congr hconfig havailable⟩
    · exact (List.Sublist.refl _).append ((List.sublist_cons_self p rest).map _)
    · rw [← h.reset, heq]
    · rw [heq]
      exact h.links
  · let job : Job :=
      { id := p.id, core := p.core, decoder := p.decoder, start, completion
        result := ofBits result }
    refine ⟨new ++ [job], hconfig.trans h.config, ?_, .trans ?_ hids, hrest, ?_, ?_, ?_, ?_⟩
    · exact hjobs.trans (by rw [h.jobs, List.append_assoc])
    · rw [List.map_append, List.append_assoc]
      exact .refl _
    · rw [← h.reset, heq]
    · rw [heq]
      exact h.links
    · intro j hj
      rcases List.mem_append.1 hj with hj | hj
      · exact h.fresh j hj
      · rw [List.mem_singleton.1 hj]
        have hstart := hschedule.earliest
        have hcompletion := hschedule.latency
        have hlate : now < start := by omega
        exact ⟨rfl, rfl, rfl, hlate, by change start ≤ completion; omega⟩
    · intro jobs hpipelined
      rw [List.map_append, ← List.append_assoc]
      exact ((h.pipelined jobs hpipelined).schedules (d := d) hd hconfig hschedule).congr rfl rfl

/-- What a step does before it sends a result: packets start, results return, and jobs start,
complete and are added. -/
structure Advances (now : ℕ) (s x : DecoderSystem) (old new : List Job) : Prop where
  config : x.config = s.config
  sublist : old.Sublist s.jobs
  jobs : x.jobs = old.map (·.advance now) ++ new
  ids : (new.map (·.id) ++ x.requests.map (·.id)).Sublist (s.requests.map (·.id))
  requests : ∀ p ∈ x.requests ++ x.resetRequest.toList,
    ∃ q ∈ s.requests ++ s.resetRequest.toList, p = q.transmit now
  links : x.rxAvailable = s.rxAvailable ∧ x.txAvailable = s.txAvailable ∧ x.next = s.next
  fresh : ∀ j ∈ new, j.arrival = none ∧ j.started = false ∧ j.completed = false ∧ now < j.start ∧
    j.start ≤ j.completion
  pipelined : ∀ jobs, Pipelined s now jobs → Pipelined x now (jobs ++ new.map fun j => (now, j))

/-- What the transmission of packets leaves alone. -/
theorem transmission_keeps (h : (advanceTransmission now epoch).Returns s u s' l) :
    s'.config = s.config ∧ s'.available = s.available ∧ (s'.rxAvailable = s.rxAvailable ∧
        s'.txAvailable = s.txAvailable ∧ s'.next = s.next) ∧
      s'.jobs.Sublist s.jobs ∧ (s'.requests.map (·.id)).Sublist (s.requests.map (·.id)) ∧
      ∀ p ∈ s'.requests ++ s'.resetRequest.toList,
        ∃ q ∈ s.requests ++ s.resetRequest.toList, p = q.transmit now := by
  have hids : (s.transmitAll now).requests.map (·.id) = s.requests.map (·.id) := by
    rw [transmitAll, List.map_map]
    exact List.map_congr_left fun p _ => id_transmit
  have hrequests : ∀ p ∈ (s.transmitAll now).requests ++ (s.transmitAll now).resetRequest.toList,
      ∃ q ∈ s.requests ++ s.resetRequest.toList, p = q.transmit now := by
    intro p hp
    simp only [transmitAll, List.mem_append, List.mem_map, Option.mem_toList,
      Option.map_eq_some_iff] at hp
    obtain ⟨q, hq, rfl⟩ | ⟨q, hq, rfl⟩ := hp
    · exact ⟨q, List.mem_append_left _ hq, rfl⟩
    · exact ⟨q, List.mem_append_right _ (Option.mem_toList.2 hq), rfl⟩
  rcases advanceTransmission_returns h with ⟨p, -, -, rfl, -⟩ | ⟨-, rfl, -⟩
  · refine ⟨rfl, rfl, ⟨rfl, rfl, rfl⟩, List.filter_sublist, ?_, fun q hq => hrequests q ?_⟩
    · rw [← hids]
      exact List.filter_sublist.map _
    · exact List.mem_append_left _ (mem_of_mem_cancel hq)
  · exact ⟨rfl, rfl, ⟨rfl, rfl, rfl⟩, .refl _, hids ▸ .refl _, hrequests⟩

theorem step_advances (h : (step now epoch).Returns s u s' l) :
    ∃ x old new, Advances now s x old new ∧ (transmitResult now).Returns x () s' [] := by
  obtain ⟨s₁, s₂, s₃, l₁, l₂, l₃, h₁, h₂, h₃, h₄, -⟩ := step_returns h
  obtain ⟨hconfig₁, havailable₁, hlinks₁, hjobs₁, hids₁, hrequests₁⟩ := transmission_keeps h₁
  obtain ⟨⟨hconfig₂, havailable₂, hlinks₂, hrequests₂, hreset₂⟩, hjobs₂⟩ := advanceFrom_induction
    (P := fun x _ => x.config = s₁.config ∧ x.available = s₁.available ∧
      (x.rxAvailable = s.rxAvailable ∧ x.txAvailable = s.txAvailable ∧ x.next = s.next) ∧
      x.requests = s₁.requests ∧ x.resetRequest = s₁.resetRequest)
    h₂ rfl [] ⟨rfl, rfl, hlinks₁, rfl, rfl⟩ (by
      intro kept j rest x x' j' before k _ hx hj
      rcases advanceJob_returns hj with ⟨-, -, rfl, -⟩ | ⟨-, -, rfl, -⟩
      · exact hx
      · exact hx)
  obtain ⟨new, hadmitted⟩ := (admitFrom_induction (P := fun x _ => ∃ new, Admitted now s₂ x new) h₃
    rfl [] ⟨[], .refl⟩ (fun x _ key ⟨new, hx⟩ => ⟨new, hx.openSession⟩)
    (fun p rest x x' _ k hrequests _ ⟨new, hx⟩ ha => hx.admitRequest hrequests ha)).1
  refine ⟨s₃, s₁.jobs.filter fun j => ¬ j.arrived now, new, ?_, h₄⟩
  exact
    { config := hadmitted.config.trans (hconfig₂.trans hconfig₁)
      sublist := List.filter_sublist.trans hjobs₁
      jobs := by rw [hadmitted.jobs, hjobs₂, List.nil_append]
      ids := hadmitted.ids.trans (hrequests₂ ▸ hids₁)
      requests := by
        intro p hp
        apply hrequests₁
        rw [hadmitted.reset, hreset₂] at hp
        rcases List.mem_append.1 hp with hp | hp
        · exact List.mem_append_left _ (hrequests₂ ▸ hadmitted.requests.subset hp)
        · exact List.mem_append_right _ hp
      links := by
        obtain ⟨hrx, htx, hnext⟩ := hadmitted.links
        exact ⟨hrx.trans hlinks₂.1, htx.trans hlinks₂.2.1, hnext.trans hlinks₂.2.2⟩
      fresh := hadmitted.fresh
      pipelined := fun jobs hjobs => hadmitted.pipelined jobs
        (hjobs.congr (hconfig₂.trans hconfig₁) (havailable₂.trans havailable₁)) }

/-- The identities of jobs and queued requests are different. -/
def Numbered (s : DecoderSystem) : Prop := (s.jobs.map (·.id) ++ s.requests.map (·.id)).Nodup

section Advances
variable {old new : List Job}

theorem Advances.old_mem (h : Advances now s x old new) {j : Job}
    (hj : j ∈ old.map (·.advance now)) : ∃ i ∈ s.jobs, j = i.advance now := by
  obtain ⟨i, hi, rfl⟩ := List.mem_map.1 hj
  exact ⟨i, h.sublist.subset hi, rfl⟩

theorem Advances.numbered (h : Advances now s x old new) (hs : Numbered s) : Numbered x := by
  have hold : ((old.map (·.advance now)).map (·.id)).Sublist (s.jobs.map (·.id)) := by
    rw [List.map_map]
    exact h.sublist.map _
  rw [Numbered, h.jobs, List.map_append, List.append_assoc]
  exact hs.sublist (hold.append h.ids)

/-- The identity of a new job is that of a request. -/
theorem Advances.new_id (h : Advances now s x old new) (hs : Numbered s) {j : Job} (hj : j ∈ new) :
    j.id ∉ s.jobs.map (·.id) := by
  intro hid
  refine (List.nodup_append.1 hs).2.2 _ hid _ ?_ rfl
  exact h.ids.subset (List.mem_append_left _ (List.mem_map_of_mem hj))

/-- The new jobs are those that have come, whatever is done to the others. -/
theorem Advances.jobsSince (h : Advances now s x old new) (hs : Numbered s) {f : Job → Job}
    (hid : ∀ j, (f j).id = j.id) (hnew : ∀ j ∈ new, f j = j) (hjobs : s'.jobs = x.jobs.map f) :
    s.jobsSince s' = new := by
  have hold : ((old.map (·.advance now)).map f).filter (fun j => j.id ∉ s.jobs.map (·.id)) = [] := by
    refine List.filter_eq_nil_iff.2 fun k hk => ?_
    obtain ⟨j, hj, rfl⟩ := List.mem_map.1 hk
    obtain ⟨i, hi, rfl⟩ := h.old_mem hj
    rw [hid]
    simpa using ⟨i, hi, rfl⟩
  have hsame : new.map f = new := by
    conv_rhs => rw [← List.map_id new]
    exact List.map_congr_left hnew
  rw [DecoderSystem.jobsSince, hjobs, h.jobs, List.map_append, List.filter_append, hold, hsame,
    List.nil_append, List.filter_eq_self]
  intro j hj
  simpa using h.new_id hs hj

/-- The result of a job that was there has not been sent now, or had been. -/
theorem Advances.not_sent (h : Advances now s x old new) {j : Job} (hj : j ∈ x.jobs) :
    ¬ (j.arrival.isSome = true ∧ ∀ i ∈ s.jobs, i.id = j.id → i.arrival = none) := by
  rintro ⟨hsome, hnone⟩
  rw [h.jobs] at hj
  rcases List.mem_append.1 hj with hj | hj
  · obtain ⟨i, hi, rfl⟩ := h.old_mem hj
    have harrival : (i.advance now).arrival = none := hnone i hi rfl
    simp [harrival] at hsome
  · simp [(h.fresh j hj).1] at hsome

theorem eq_singleton {α : Type} {l : List α} {a : α} (hl : l.Nodup) (hall : ∀ b ∈ l, b = a)
    (ha : a ∈ l) : l = [a] := by
  have hrep := List.eq_replicate_of_mem hall
  rw [hrep, List.nodup_replicate] at hl
  have hpos := List.length_pos_of_mem ha
  have hone : l.length = 1 := by omega
  rw [hrep, hone]
  rfl

/-- The job of which the result is sent. -/
def sentJob (ready : Job) (arrival : ℕ) : Job := { ready with arrival := some arrival }

/-- What has happened to jobs and results in a step. -/
theorem Advances.sends (h : Advances now s x old new) (hs : Numbered s)
    (ht : (transmitResult now).Returns x () s' []) : s.jobsSince s' = new ∧
      ((s' = x ∧ s.responsesSince s' now = []) ∨ ∃ ready last arrival,
        Transmits x now ready last arrival ∧ (∃ i ∈ s.jobs, ready = i.advance now) ∧
        s' = { x with
          jobs := x.jobs.map fun j => if j.id = ready.id then { j with arrival := some arrival } else j
          rxAvailable := last } ∧
        s.responsesSince s' now = [{
          start := now, job := sentJob ready arrival
          waiting := s'.jobs.filter (·.arrival.isNone) }]) := by
  obtain ⟨-, ⟨rfl, -⟩ | ⟨ready, last, arrival, htransmits, rfl⟩⟩ := transmitResult_returns ht
  · refine ⟨h.jobsSince hs (f := id) (fun _ => rfl) (fun _ _ => rfl) (List.map_id _).symm,
      .inl ⟨rfl, ?_⟩⟩
    refine List.map_eq_nil_iff.2 (List.filter_eq_nil_iff.2 fun j hj hsent => ?_)
    exact h.not_sent hj (by simpa using hsent)
  · obtain ⟨hmem, hready⟩ := mem_of_readyJob htransmits.first
    obtain ⟨i, hi, hadvance⟩ : ∃ i ∈ s.jobs, ready = i.advance now := by
      rw [h.jobs] at hmem
      rcases List.mem_append.1 hmem with hmem | hmem
      · exact h.old_mem hmem
      · simp [Job.ready, (h.fresh ready hmem).2.2.1] at hready
    have hid : ∀ j : Job, (if j.id = ready.id then { j with arrival := some arrival } else j).id =
        j.id := by
      intro j
      split <;> rfl
    have hnumbered := (List.nodup_append.1 (h.numbered hs)).1
    refine ⟨h.jobsSince hs hid (fun j hj => ?_) rfl, .inr ⟨ready, last, arrival, htransmits,
      ⟨i, hi, hadvance⟩, rfl, ?_⟩⟩
    · refine if_neg fun heq => h.new_id hs hj ?_
      rw [heq, hadvance]
      exact List.mem_map.2 ⟨i, hi, rfl⟩
    · refine congrArg (List.map _) (eq_singleton (a := sentJob ready arrival) ?_ ?_ ?_)
      · refine List.Nodup.filter _ (List.Nodup.of_map (·.id) ?_)
        rw [List.map_map]
        have hsame : ((·.id) ∘ fun j : Job =>
            if j.id = ready.id then { j with arrival := some arrival } else j) = (·.id) := by
          funext j
          exact hid j
        rw [hsame]
        exact hnumbered
      · intro j hj
        obtain ⟨hj, hsent⟩ := List.mem_filter.1 hj
        obtain ⟨k, hk, rfl⟩ := List.mem_map.1 hj
        by_cases hkid : k.id = ready.id
        · rw [if_pos hkid, List.inj_on_of_nodup_map hnumbered hk hmem hkid]
          rfl
        · rw [if_neg hkid] at hsent
          exact absurd (by simpa using hsent) (h.not_sent hk)
      · refine List.mem_filter.2 ⟨List.mem_map.2 ⟨ready, hmem, if_pos rfl⟩, ?_⟩
        have hnone : ∀ k ∈ s.jobs, k.id = ready.id → k.arrival = none := by
          intro k hk hkid
          have hsame : k = i := by
            refine List.inj_on_of_nodup_map (List.nodup_append.1 hs).1 hk hi ?_
            rw [hkid, hadvance]
            rfl
          have harrival : ready.arrival = none := by
            simp only [Job.ready, decide_eq_true_eq] at hready
            exact hready.2
          rw [hsame]
          rw [hadvance] at harrival
          exact harrival
        simpa [sentJob] using hnone

/-! ## What an access does -/

/-- An access sends at most one packet and leaves the jobs and their links alone. -/
structure Sent (core now : ℕ) (s s' : DecoderSystem) : Prop where
  config : s'.config = s.config
  jobs : s'.jobs = s.jobs
  available : s'.available = s.available
  rx : s'.rxAvailable = s.rxAvailable
  packet : (s'.requests = s.requests ∧ s'.resetRequest = s.resetRequest ∧
      s'.txAvailable = s.txAvailable ∧ s'.next = s.next) ∨
    ∃ reset x mmio packet, ∃ last, Sends { s with mmio } core x now packet last ∧
      s.full reset = false ∧ s'.txAvailable = last ∧ s'.next = s.next + 1 ∧
      s'.requests = (s.enqueue reset packet).requests ∧
      s'.resetRequest = (s.enqueue reset packet).resetRequest

theorem sent_send {core : ℕ} {reset : Bool} {x : DecoderSubmit} {reply : Option ℕ}
    {mmio : DecoderMmio}
    (h : (send core reset x now epoch).Returns { s with mmio } reply s' l) : Sent core now s s' := by
  rcases send_returns h with ⟨-, rfl, -⟩ | ⟨packet, last, -, hsends, hroom, rfl, -⟩
  · exact ⟨rfl, rfl, rfl, rfl, .inl ⟨rfl, rfl, rfl, rfl⟩⟩
  · cases reset
    · exact ⟨rfl, rfl, rfl, rfl, .inr ⟨false, x, mmio, packet, last, hsends, hroom, rfl, rfl, rfl, rfl⟩⟩
    · exact ⟨rfl, rfl, rfl, rfl, .inr ⟨true, x, mmio, packet, last, hsends, hroom, rfl, rfl, rfl, rfl⟩⟩

theorem sent_access {core : ℕ} {request : MemoryRequest} {reply : Option ℕ}
    (h : (access core request now epoch).Returns s reply s' l) : Sent core now s s' := by
  obtain ⟨c, mmio, -, hcommand⟩ := access_returns_iff.1 h
  match c, hcommand with
  | none, hcommand =>
    obtain ⟨-, rfl, -⟩ := Proc.returns_pure_iff.1 hcommand
    exact ⟨rfl, rfl, rfl, rfl, .inl ⟨rfl, rfl, rfl, rfl⟩⟩
  | some (.consume decoder), hcommand =>
    obtain ⟨-, rfl, -⟩ := consume_returns hcommand
    exact ⟨rfl, rfl, rfl, rfl, .inl ⟨rfl, rfl, rfl, rfl⟩⟩
  | some (.read decoder kind), hcommand =>
    obtain ⟨rfl | rfl, -, -⟩ := read_returns hcommand
    · exact ⟨rfl, rfl, rfl, rfl, .inl ⟨rfl, rfl, rfl, rfl⟩⟩
    · exact ⟨rfl, rfl, rfl, rfl, .inl ⟨rfl, rfl, rfl, rfl⟩⟩
  | some (.reset decoder tag), hcommand => exact sent_send hcommand
  | some (.submit x), hcommand => exact sent_send hcommand

/-- The packet that an access has sent is the one that has come. -/
theorem Sent.packetsSince {core : ℕ} (h : Sent core now s s')
    (hids : ∀ p ∈ s.requests ++ s.resetRequest.toList, p.id < s.next) :
    (s.packetsSince s' = [] ∧ s'.requests = s.requests ∧ s'.resetRequest = s.resetRequest ∧
      s'.txAvailable = s.txAvailable ∧ s'.next = s.next) ∨
    ∃ x mmio packet, ∃ last, Sends { s with mmio } core x now packet last ∧
      s.packetsSince s' = [packet] ∧ s'.txAvailable = last ∧ s'.next = s.next + 1 ∧
      (s'.requests = s.requests ∨ s'.requests = s.requests ++ [packet]) ∧
      ∀ p ∈ s'.requests ++ s'.resetRequest.toList,
        p ∈ s.requests ++ s.resetRequest.toList ∨ p = packet := by
  have hold : (s.requests ++ s.resetRequest.toList).filter (fun p => s.next ≤ p.id) = [] := by
    refine List.filter_eq_nil_iff.2 fun p hp => ?_
    have := hids p hp
    simpa using this
  rw [List.filter_append, List.append_eq_nil_iff] at hold
  rcases h.packet with ⟨hrequests, hreset, htx, hnext⟩ |
    ⟨reset, x, mmio, packet, last, hsends, hroom, htx, hnext, hrequests, hreset⟩
  · refine .inl ⟨?_, hrequests, hreset, htx, hnext⟩
    rw [DecoderSystem.packetsSince, hrequests, hreset, List.filter_append, hold.1, hold.2]
    rfl
  · have hpacket : [packet].filter (fun p => s.next ≤ p.id) = [packet] := by
      have hid : packet.id = s.next := hsends.id
      rw [List.filter_cons_of_pos (by simp [hid]), List.filter_nil]
    refine .inr ⟨x, mmio, packet, last, hsends, ?_, htx, hnext, ?_, ?_⟩
    · rw [DecoderSystem.packetsSince, hrequests, hreset]
      cases reset with
      | false =>
        simp only [enqueue, Bool.false_eq_true, if_false]
        rw [List.filter_append, List.filter_append, hold.1, hold.2, hpacket]
        rfl
      | true =>
        simp only [enqueue, if_true, Option.toList_some]
        rw [List.filter_append, hold.1, hpacket]
        rfl
    · rw [hrequests]
      cases reset with
      | false => exact .inr rfl
      | true => exact .inl rfl
    · intro p hp
      rw [hrequests, hreset] at hp
      cases reset with
      | false =>
        simp only [enqueue, Bool.false_eq_true, if_false, List.mem_append, List.mem_singleton] at hp ⊢
        tauto
      | true =>
        simp only [enqueue, if_true, List.mem_append, Option.toList_some, List.mem_singleton] at hp ⊢
        tauto

end Advances

/-! ## The choice of a result -/

theorem Job.before_iff {j k : Job} : j.before k = true ↔
    j.completion < k.completion ∨ j.completion = k.completion ∧ j.id < k.id := by
  simp [Job.before]

/-- No ready job precedes the one of which the result is sent. -/
theorem not_before_readyJob {jobs : List Job} {ready : Job} (h : readyJob jobs = some ready) :
    ∀ j ∈ jobs, j.ready = true → ¬ j.before ready = true := by
  have hall : ∀ (rest : List Job) (start : Option Job), rest.foldl firstReady start = some ready →
      (∀ j ∈ rest, j.ready = true → ¬ j.before ready = true) ∧
        ∀ r ∈ start, ¬ r.before ready = true := by
    intro rest
    induction rest with
    | nil =>
      intro start hstart
      refine ⟨by simp, fun r hr => ?_⟩
      obtain rfl := Option.some.inj (hr.symm.trans hstart)
      simp [Job.before_iff]
    | cons j rest ih =>
      intro start hstart
      obtain ⟨hrest, hfirst⟩ := ih _ hstart
      by_cases hcond : j.ready = true ∧ ∀ r ∈ start, j.before r = true
      · have hj : ¬ j.before ready = true := hfirst j (by rw [firstReady, if_pos hcond]; rfl)
        refine ⟨List.forall_mem_cons.2 ⟨fun _ => hj, hrest⟩, fun r hr => ?_⟩
        have hbefore := hcond.2 r hr
        rw [Job.before_iff] at hbefore hj ⊢
        omega
      · rw [firstReady, if_neg hcond] at hfirst
        refine ⟨List.forall_mem_cons.2 ⟨fun hready hbefore => ?_, hrest⟩, hfirst⟩
        refine hcond ⟨hready, fun r hr => ?_⟩
        have hr' := hfirst r hr
        rw [Job.before_iff] at hbefore hr' ⊢
        omega
  exact (hall jobs none h).1

theorem linkDuration_eq {config : DecoderSystemConfig} {bits duration : ℕ}
    (h : linkDuration config ((bits + 7) / 8) = .ok duration) :
    duration = config.transmission bits := by
  simp only [linkDuration, Except.bind_eq_ok_iff, Except.pure_eq_ok_iff] at h
  obtain ⟨bytes, hbytes, rfl⟩ := h
  obtain rfl := eq_of_checkedAdd hbytes
  rw [DecoderSystemConfig.transmission, Nat.ceilDiv_eq_add_pred_div, Nat.ceilDiv_eq_add_pred_div]
  rfl

end Pipeline
end DecoderSystem

/-! ## Runs -/

open DecoderSystem

/-- The result of a job is sent in full once the job is complete, before those of other complete
jobs. -/
structure DecoderResponse.Lawful (config : DecoderSystemConfig) (r : DecoderResponse) : Prop where
  timing : ∃ d ∈ config.decoders, d.id = r.job.decoder ∧ r.job.arrival =
    some (r.start + config.transmission d.outputs + config.linkLatency)
  completed : r.job.completion ≤ r.start
  first : ∀ j ∈ r.waiting, j.completion ≤ r.start →
    r.job.completion < j.completion ∨ r.job.completion = j.completion ∧ r.job.id < j.id

/-- The decoders at the end of a tick: the response link is in use or no result waits for it, and
what is due has been done. -/
structure TickEnds (config : DecoderSystemConfig) (responses : List DecoderResponse) (tick : ℕ)
    (s : DecoderSystem) : Prop where
  conserving : (∃ r ∈ responses, r.start ≤ tick ∧ tick < r.last config) ∨
    ∀ j ∈ s.jobs, j.arrival = none → tick < j.completion
  packets : ∀ p ∈ s.requests ++ s.resetRequest.toList, (p.transmitted = true ↔ p.sent ≤ tick)
  jobs : ∀ j ∈ s.jobs, (j.started = true ↔ j.start ≤ tick) ∧
    (j.completed = true ↔ j.completion ≤ tick) ∧ ∀ arrival ∈ j.arrival, tick < arrival

/-- What has been sent and decoded up to a tick has been so in time. -/
structure OnTime (config : DecoderSystemConfig) (now : ℕ) (due : Bool) (timeline : DecoderTimeline)
    (s : DecoderSystem) : Prop where
  numbered : Numbered s
  transmitted : ∀ p ∈ s.requests ++ s.resetRequest.toList, p.transmitted = true → p.sent ≤ now
  flags : ∀ j ∈ s.jobs, (j.started = true → j.start ≤ now) ∧
    (j.completed = true → j.completion ≤ now)
  packets : ∀ x ∈ timeline.packets, x.1 ≤ x.2.sent ∧ x.2.id < s.next ∧ x.2.arrival =
    x.2.sent + config.transmission x.2.count + config.linkLatency
  ids : timeline.packets.Pairwise fun x y => x.2.id < y.2.id
  requestLink : Serial (timeline.packets.map fun x => (x.2.sent, x.2.arrival - config.linkLatency))
    s.txAvailable
  pipelined : Pipelined s now timeline.jobs
  running : ∀ j ∈ s.jobs, ∃ x ∈ timeline.jobs,
    x.2 = { j with arrival := none, started := false, completed := false }
  responses : ∀ r ∈ timeline.responses, r.start ≤ now ∧ r.Lawful config
  responseLink : Serial (timeline.responses.map fun r => (r.start, r.last config)) s.rxAvailable
  busy : now < s.rxAvailable → ∃ r ∈ timeline.responses, r.start ≤ now ∧
    r.last config = s.rxAvailable
  settled : due = false → Settled now s
  since : timeline.since ≤ now
  ticks : timeline.past.map Prod.fst = List.range' timeline.since (now - timeline.since)
  past : ∀ x ∈ timeline.past, TickEnds config timeline.responses x.1 x.2

section OnTime
variable {config : DecoderSystemConfig} {now epoch core : ℕ} {due : Bool}
  {timeline : DecoderTimeline} {s s' : DecoderSystem} {l : List TraceEvent} {u : Unit}
  {history : DecoderHistory}

theorem DecoderTimed.run (h : DecoderTimed config now due timeline s) :
    ∃ history, DecoderRun config history s := by
  induction h with
  | make h => exact ⟨_, .make h⟩
  | access run h ih =>
    obtain ⟨history, hrun⟩ := ih
    exact ⟨_, hrun.access h⟩
  | fault run h ih =>
    obtain ⟨history, hrun⟩ := ih
    exact ⟨_, hrun.fault h⟩
  | step run h ih =>
    obtain ⟨history, hrun⟩ := ih
    exact ⟨_, hrun.step h⟩
  | tick run ih => exact ih
  | reset run ih =>
    obtain ⟨history, hrun⟩ := ih
    exact ⟨_, hrun.reset⟩

theorem settled_of_empty (hrequests : s.requests = []) (hreset : s.resetRequest = none)
    (hjobs : s.jobs = []) : Settled now s where
  unsent := by simp [hrequests, hreset]
  reset := by simp [hreset]
  job := by simp [hjobs]
  head := by simp [hrequests]
  ready := by simp [hjobs]

theorem OnTime.initial (hrequests : s.requests = []) (hreset : s.resetRequest = none)
    (hjobs : s.jobs = []) (hrx : s.rxAvailable = 0) :
    OnTime config now false { since := now } s where
  numbered := by simp [Numbered, hjobs, hrequests]
  transmitted := by simp [hrequests, hreset]
  flags := by simp [hjobs]
  packets := by simp
  ids := .nil
  requestLink := .nil
  pipelined := ⟨by simp, .nil, fun _ _ _ => .nil⟩
  running := by simp [hjobs]
  responses := by simp
  responseLink := .nil
  busy := by simp [hrx]
  settled := fun _ => settled_of_empty hrequests hreset hjobs
  since := le_rfl
  ticks := by simp
  past := by simp

/-- Time passes when no step is due. -/
theorem OnTime.tick (h : OnTime config now false timeline s) :
    OnTime config (now + 1) (s.nextBoundary now = some (now + 1))
      { timeline with past := timeline.past ++ [(now, s)] } s := by
  have hsettled := h.settled rfl
  refine
    { h with
      transmitted := ?_, flags := ?_, pipelined := ?_, responses := ?_, busy := ?_, settled := ?_
      since := ?_, ticks := ?_, past := ?_ }
  · exact fun p hp htransmitted => (h.transmitted p hp htransmitted).trans (Nat.le_succ _)
  · intro j hj
    exact ⟨fun hstarted => ((h.flags j hj).1 hstarted).trans (Nat.le_succ _),
      fun hcompleted => ((h.flags j hj).2 hcompleted).trans (Nat.le_succ _)⟩
  · refine { h.pipelined with schedule := fun x hx => ?_ }
    obtain ⟨hle, hrest⟩ := h.pipelined.schedule x hx
    exact ⟨hle.trans (Nat.le_succ _), hrest⟩
  · exact fun r hr => ⟨(h.responses r hr).1.trans (Nat.le_succ _), (h.responses r hr).2⟩
  · intro hlt
    obtain ⟨r, hr, hstart, hlast⟩ := h.busy (by omega)
    exact ⟨r, hr, hstart.trans (Nat.le_succ _), hlast⟩
  · intro hnot
    refine hsettled.later fun b hb => ?_
    have hlate := lt_nextBoundary hb
    rw [Option.mem_def] at hb
    rw [hb, decide_eq_false_iff_not, Option.some_inj] at hnot
    omega
  · exact h.since.trans (Nat.le_succ _)
  · have hsince := h.since
    have hlength : now + 1 - timeline.since = now - timeline.since + 1 := by omega
    rw [List.map_append, h.ticks, hlength, List.range'_concat]
    simp only [List.map_cons, List.map_nil, Nat.one_mul]
    rw [Nat.add_sub_cancel' hsince]
  · intro x hx
    rcases List.mem_append.1 hx with hx | hx
    · exact h.past x hx
    obtain rfl := List.mem_singleton.1 hx
    constructor
    · by_cases hfree : now < s.rxAvailable
      · obtain ⟨r, hr, hstart, hlast⟩ := h.busy hfree
        exact .inl ⟨r, hr, hstart, hlast ▸ hfree⟩
      · refine .inr fun j hj harrival => ?_
        by_contra hcomplete
        have hcompleted : j.completed = true := by
          by_contra hnot
          exact hcomplete ((hsettled.job j hj).2.1 (by simpa using hnot))
        exact hfree (hsettled.ready j hj (by simp [Job.ready, hcompleted, harrival]))
    · intro p hp
      refine ⟨h.transmitted p hp, fun hsent => ?_⟩
      by_contra hnot
      have := hsettled.unsent p hp (by simpa using hnot)
      omega
    · intro j hj
      obtain ⟨hstart, hcompletion, harrival⟩ := hsettled.job j hj
      refine ⟨⟨(h.flags j hj).1, fun hle => ?_⟩, ⟨(h.flags j hj).2, fun hle => ?_⟩, harrival⟩
      · by_contra hnot
        have := hstart (by simpa using hnot)
        omega
      · by_contra hnot
        have := hcompletion (by simpa using hnot)
        omega

theorem job_id_lt (hrun : DecoderRun config history s) : ∀ j ∈ s.jobs, j.id < s.next := by
  intro j hj
  obtain ⟨d, hd⟩ := hrun.bounded.jobs j hj
  obtain ⟨groups, part, hserves⟩ := hrun.sound.serves (j.core, j.decoder) d hd
  have hrunning : (j.id, j.result) ∈ (s.view (j.core, j.decoder)).running :=
    List.mem_map_of_mem (List.mem_filter.2 ⟨hj, Job.of_iff.2 rfl⟩)
  exact (hserves.running_older hrunning).1

/-- A packet is put on the link behind the others. -/
theorem OnTime.access (h : OnTime config now due timeline s) (hrun : DecoderRun config history s)
    (hsent : Sent core now s s') :
    OnTime config now true
      { timeline with
        packets := timeline.packets ++ (s.packetsSince s').map fun p => (now, p) } s' := by
  have hconfig := hrun.sound.configured
  have hids : ∀ p ∈ s.requests ++ s.resetRequest.toList, p.id < s.next :=
    fun p hp => (hrun.sound.bound p hp).1
  have hrest :
      (∀ j ∈ s'.jobs, (j.started = true → j.start ≤ now) ∧ (j.completed = true → j.completion ≤ now)) ∧
      Pipelined s' now timeline.jobs ∧
      (∀ j ∈ s'.jobs, ∃ x ∈ timeline.jobs,
        x.2 = { j with arrival := none, started := false, completed := false }) ∧
      Serial (timeline.responses.map fun r => (r.start, r.last config)) s'.rxAvailable ∧
      (now < s'.rxAvailable → ∃ r ∈ timeline.responses, r.start ≤ now ∧
        r.last config = s'.rxAvailable) := by
    rw [hsent.jobs, hsent.rx]
    exact ⟨h.flags, h.pipelined.congr hsent.config hsent.available, h.running, h.responseLink, h.busy⟩
  obtain ⟨hflags, hpipelined, hrunning, hresponseLink, hbusy⟩ := hrest
  rcases hsent.packetsSince hids with ⟨hnone, hrequests, hreset, htx, hnext⟩ |
    ⟨x, mmio, packet, last, hsends, hpacket, htx, hnext, hrequests, hmem⟩
  · rw [hnone, List.map_nil, List.append_nil]
    refine
      { h with
        numbered := ?_, transmitted := ?_, flags := hflags, packets := ?_, requestLink := ?_
        pipelined := hpipelined, running := hrunning, responseLink := hresponseLink, busy := hbusy
        settled := by simp }
    · rw [Numbered, hsent.jobs, hrequests]
      exact h.numbered
    · rw [hrequests, hreset]
      exact h.transmitted
    · rw [hnext]
      exact h.packets
    · rw [htx]
      exact h.requestLink
  · have hid : packet.id = s.next := hsends.id
    have hstart : packet.sent = max now s.txAvailable := hsends.sent
    have hlast := hsends.transmission
    have harrival : packet.arrival = last + config.linkLatency := hconfig ▸ hsends.arrival
    have hduration : last - packet.sent = config.transmission x.count := by
      have hlink := linkDuration_eq hsends.duration
      rwa [show ({ s with mmio } : DecoderSystem).config = config from hconfig] at hlink
    have hcount : packet.count = x.count := hsends.count
    rw [hpacket]
    refine
      { h with
        numbered := ?_, transmitted := ?_, flags := hflags, packets := ?_, ids := ?_
        requestLink := ?_, pipelined := hpipelined, running := hrunning
        responseLink := hresponseLink, busy := hbusy, settled := by simp }
    · rw [Numbered, hsent.jobs]
      rcases hrequests with hrequests | hrequests
      · rw [hrequests]
        exact h.numbered
      · rw [hrequests, List.map_append, ← List.append_assoc]
        refine List.nodup_append.2 ⟨h.numbered, List.nodup_singleton _, fun a ha b hb => ?_⟩
        obtain rfl : b = packet.id := List.mem_singleton.1 hb
        rw [hid]
        rcases List.mem_append.1 ha with ha | ha
        · obtain ⟨j, hj, rfl⟩ := List.mem_map.1 ha
          exact (job_id_lt hrun j hj).ne
        · obtain ⟨p, hp, rfl⟩ := List.mem_map.1 ha
          exact (hids p (List.mem_append_left _ hp)).ne
    · intro p hp htransmitted
      rcases hmem p hp with hp | rfl
      · exact h.transmitted p hp htransmitted
      · rw [hsends.fresh] at htransmitted
        simp at htransmitted
    · intro y hy
      rw [hnext]
      rcases List.mem_append.1 hy with hy | hy
      · obtain ⟨hle, hlt, heq⟩ := h.packets y hy
        exact ⟨hle, hlt.trans (Nat.lt_succ_self _), heq⟩
      · obtain rfl := List.mem_singleton.1 hy
        refine ⟨hstart.ge.trans' (le_max_left _ _), by rw [hid]; exact Nat.lt_succ_self _, ?_⟩
        change packet.arrival = packet.sent + config.transmission packet.count + _
        rw [hcount, ← hduration, harrival]
        omega
    · refine List.pairwise_append.2 ⟨h.ids, List.pairwise_singleton _ _, fun a ha b hb => ?_⟩
      rw [List.mem_singleton.1 hb]
      exact (h.packets a ha).2.1.trans_eq hid.symm
    · rw [htx, List.map_append]
      have hend : packet.arrival - config.linkLatency = last := by omega
      change Serial (_ ++ [(packet.sent, packet.arrival - config.linkLatency)]) last
      rw [hend]
      exact h.requestLink.use (hstart.ge.trans' (le_max_right _ _)) hlast.le

theorem TickEnds.mono {responses more : List DecoderResponse} {tick : ℕ}
    (h : TickEnds config responses tick s) : TickEnds config (responses ++ more) tick s := by
  refine { h with conserving := ?_ }
  rcases h.conserving with ⟨r, hr, hbusy⟩ | hnone
  · exact .inl ⟨r, List.mem_append_left _ hr, hbusy⟩
  · exact .inr hnone

/-- The state before a result is sent. -/
theorem OnTime.advances (h : OnTime config now due timeline s) {x : DecoderSystem}
    {old new : List Job} (ha : Advances now s x old new) :
    Numbered x ∧
      (∀ p ∈ x.requests ++ x.resetRequest.toList, p.transmitted = true → p.sent ≤ now) ∧
      (∀ j ∈ x.jobs, (j.started = true → j.start ≤ now) ∧
        (j.completed = true → j.completion ≤ now) ∧
        ∃ y ∈ timeline.jobs ++ new.map fun j => (now, j),
          y.2 = { j with arrival := none, started := false, completed := false }) ∧
      ∀ j ∈ x.jobs, j.completion ≤ now → j.completed = true := by
  refine ⟨ha.numbered h.numbered, ?_, ?_, ?_⟩
  · intro p hp
    obtain ⟨q, hq, rfl⟩ := ha.requests p hp
    unfold Request.transmit
    split
    · rename_i hdue
      simp only [Request.due, decide_eq_true_eq] at hdue
      exact fun _ => hdue.2
    · exact h.transmitted q hq
  · intro j hj
    rw [ha.jobs] at hj
    rcases List.mem_append.1 hj with hj | hj
    · obtain ⟨i, hi, rfl⟩ := ha.old_mem hj
      obtain ⟨hstarted, hcompleted⟩ := h.flags i hi
      obtain ⟨y, hy, hsame⟩ := h.running i hi
      refine ⟨fun hflag => ?_, fun hflag => ?_, y, List.mem_append_left _ hy, hsame⟩
      · simp only [Job.advance, decide_eq_true_eq] at hflag
        exact hflag.elim hstarted id
      · simp only [Job.advance, decide_eq_true_eq] at hflag
        exact hflag.elim hcompleted id
    · obtain ⟨harrival, hstarted, hcompleted, -⟩ := ha.fresh j hj
      refine ⟨by simp [hstarted], by simp [hcompleted], (now, j),
        List.mem_append_right _ (List.mem_map.2 ⟨j, hj, rfl⟩), ?_⟩
      cases j
      simp only at harrival hstarted hcompleted
      subst harrival hstarted hcompleted
      rfl
  · intro j hj hle
    rw [ha.jobs] at hj
    rcases List.mem_append.1 hj with hj | hj
    · obtain ⟨i, hi, rfl⟩ := ha.old_mem hj
      simpa [Job.advance] using .inr hle
    · have := (ha.fresh j hj).2.2.2
      omega

/-- The result that is sent is that of the first complete job. -/
theorem lawful_of_transmits {x : DecoderSystem} {ready : Job} {last arrival : ℕ}
    (hconfig : x.config = config) (h : Transmits x now ready last arrival)
    (hcompleted : ∀ j ∈ x.jobs, j.completion ≤ now → j.completed = true)
    (hflags : ∀ j ∈ x.jobs, j.completed = true → j.completion ≤ now) :
    DecoderResponse.Lawful config
      { start := now, job := sentJob ready arrival
        waiting := (x.jobs.map fun j =>
          if j.id = ready.id then { j with arrival := some arrival } else j).filter
            (·.arrival.isNone) } := by
  obtain ⟨hmem, hready⟩ := mem_of_readyJob h.first
  obtain ⟨d, hd, hlink⟩ := h.duration
  obtain ⟨hdecoder, hid⟩ := mem_of_decoder hd
  have hlength := linkDuration_eq hlink
  have htransmission := h.transmission
  rw [hconfig] at hdecoder hlength
  constructor
  · refine ⟨d, hdecoder, hid, ?_⟩
    change some arrival = _
    have harrival := h.arrival
    rw [hconfig] at harrival
    congr 1
    change arrival = now + _ + _
    omega
  · simp only [Job.ready, decide_eq_true_eq] at hready
    exact hflags ready hmem hready.1
  · intro j hj hle
    obtain ⟨hj, hnone⟩ := List.mem_filter.1 hj
    obtain ⟨k, hk, rfl⟩ := List.mem_map.1 hj
    by_cases hkid : k.id = ready.id
    · rw [if_pos hkid] at hnone
      simp at hnone
    · rw [if_neg hkid] at hnone hle ⊢
      have hkready : k.ready = true := by
        simp only [Job.ready, decide_eq_true_eq]
        exact ⟨hcompleted k hk hle, Option.isNone_iff_eq_none.1 hnone⟩
      have hnot := not_before_readyJob h.first k hk hkready
      rw [Job.before_iff] at hnot
      change ready.completion < k.completion ∨ ready.completion = k.completion ∧ ready.id < k.id
      omega

/-- A step is made in time. -/
theorem OnTime.step (h : OnTime config now due timeline s) (hrun : DecoderRun config history s)
    (hstep : (step now epoch).Returns s u s' l) :
    OnTime config now false
      { timeline with
        jobs := timeline.jobs ++ (s.jobsSince s').map fun j => (now, j)
        responses := timeline.responses ++ s.responsesSince s' now } s' := by
  have hconfig := hrun.sound.configured
  have hsettled := settled_of_step hstep
  obtain ⟨x, old, new, hadvances, ht⟩ := step_advances hstep
  obtain ⟨hnumbered, htransmitted, hjobs, hcompleted⟩ := h.advances hadvances
  have hpipelined := hadvances.pipelined _ h.pipelined
  obtain ⟨hrx, htx, hnext⟩ := hadvances.links
  obtain ⟨hnew, hsent⟩ := hadvances.sends h.numbered ht
  have hpackets : (∀ y ∈ timeline.packets, y.1 ≤ y.2.sent ∧ y.2.id < x.next ∧ y.2.arrival =
        y.2.sent + config.transmission y.2.count + config.linkLatency) ∧
      Serial (timeline.packets.map fun y => (y.2.sent, y.2.arrival - config.linkLatency))
        x.txAvailable := by
    rw [hnext, htx]
    exact ⟨h.packets, h.requestLink⟩
  rw [hnew]
  rcases hsent with ⟨rfl, hnone⟩ | ⟨ready, last, arrival, htransmits, -, rfl, hresponse⟩
  · rw [hnone, List.append_nil]
    exact
      { h with
        numbered := hnumbered
        transmitted := htransmitted
        flags := fun j hj => ⟨(hjobs j hj).1, (hjobs j hj).2.1⟩
        packets := hpackets.1
        requestLink := hpackets.2
        pipelined := hpipelined
        running := fun j hj => (hjobs j hj).2.2
        responseLink := hrx ▸ h.responseLink
        busy := hrx ▸ h.busy
        settled := fun _ => hsettled }
  · have hmark : ∀ j ∈ x.jobs.map fun j =>
        if j.id = ready.id then { j with arrival := some arrival } else j,
        ∃ i ∈ x.jobs, ∃ a, j = { i with arrival := a } := by
      intro j hj
      obtain ⟨i, hi, rfl⟩ := List.mem_map.1 hj
      split
      · exact ⟨i, hi, _, rfl⟩
      · exact ⟨i, hi, i.arrival, rfl⟩
    have hlawful := lawful_of_transmits (hadvances.config.trans hconfig) htransmits hcompleted
      fun j hj => (hjobs j hj).2.1
    have hlast : DecoderResponse.last config
        { start := now, job := sentJob ready arrival
          waiting := (x.jobs.map fun j =>
            if j.id = ready.id then { j with arrival := some arrival } else j).filter
              (·.arrival.isNone) } = last := by
      have harrival := htransmits.arrival
      rw [hadvances.config, hconfig] at harrival
      change arrival - config.linkLatency = last
      omega
    have hfree := htransmits.free
    have hbusy := htransmits.transmission
    rw [hresponse]
    refine
      { h with
        numbered := ?_, transmitted := htransmitted, flags := ?_, packets := hpackets.1
        requestLink := hpackets.2, pipelined := hpipelined.congr rfl rfl, running := ?_
        responses := ?_, responseLink := ?_, busy := ?_, settled := fun _ => hsettled, past := ?_ }
    · have hids : (x.jobs.map fun j =>
          if j.id = ready.id then { j with arrival := some arrival } else j).map (·.id) =
            x.jobs.map (·.id) := by
        rw [List.map_map]
        refine List.map_congr_left fun j _ => ?_
        rw [Function.comp_apply]
        split <;> rfl
      change ((x.jobs.map fun j =>
        if j.id = ready.id then { j with arrival := some arrival } else j).map (·.id) ++
          x.requests.map (·.id)).Nodup
      rw [hids]
      exact hnumbered
    · intro j hj
      obtain ⟨i, hi, a, rfl⟩ := hmark j hj
      exact ⟨(hjobs i hi).1, (hjobs i hi).2.1⟩
    · intro j hj
      obtain ⟨i, hi, a, rfl⟩ := hmark j hj
      exact (hjobs i hi).2.2
    · intro r hr
      rcases List.mem_append.1 hr with hr | hr
      · exact h.responses r hr
      · rw [List.mem_singleton.1 hr]
        exact ⟨le_rfl, hlawful⟩
    · rw [List.map_append, List.map_singleton, hlast]
      exact h.responseLink.use (hrx ▸ hfree) hbusy.le
    · exact fun _ => ⟨_, List.mem_append_right _ (List.mem_singleton_self _), le_rfl, hlast⟩
    · exact fun y hy => (h.past y hy).mono

end OnTime

theorem DecoderTimed.onTime {config : DecoderSystemConfig} {now : ℕ} {due : Bool}
    {timeline : DecoderTimeline} {s : DecoderSystem}
    (run : DecoderTimed config now due timeline s) : OnTime config now due timeline s := by
  induction run with
  | make h =>
    simp only [DecoderSystem.make, Except.bind_eq_ok_iff, Except.pure_eq_ok_iff] at h
    obtain ⟨mmio, -, _, -, _, -, rfl⟩ := h
    exact .initial rfl rfl rfl rfl
  | access run h ih =>
    obtain ⟨history, hrun⟩ := run.run
    exact ih.access hrun (sent_access h)
  | fault run h ih =>
    obtain rfl | ⟨key, rfl⟩ := DecoderSystem.access_raises h
    · exact { ih with settled := by simp }
    · exact { ih with settled := by simp, pipelined := ih.pipelined.congr rfl rfl }
  | step run h ih =>
    obtain ⟨history, hrun⟩ := run.run
    exact ih.step hrun h
  | tick run ih => exact ih.tick
  | reset run ih => exact .initial rfl rfl rfl rfl

/-! ## The laws -/

/-- The laws of the links and pipelines in a run up to a tick. -/
structure DecoderTiming (config : DecoderSystemConfig) (now : ℕ) (timeline : DecoderTimeline)
    (s : DecoderSystem) : Prop where
  /-- A packet is sent no earlier than its access, in the ticks that its size takes. -/
  packets : ∀ x ∈ timeline.packets, x.1 ≤ x.2.sent ∧ x.2.arrival =
    x.2.sent + config.transmission x.2.count + config.linkLatency
  /-- Packets are sent one after the other in the order of their identities. -/
  packetsApart : timeline.packets.Pairwise fun x y =>
    x.2.id < y.2.id ∧ x.2.arrival - config.linkLatency ≤ y.2.sent
  /-- Each result that is sent is that of the first complete job, and takes the ticks of its size. -/
  responses : ∀ r ∈ timeline.responses, r.start ≤ now ∧ r.Lawful config
  responsesApart : timeline.responses.Pairwise fun r r' => r.last config ≤ r'.start
  /-- At the end of each tick that has passed the link was in use or there was no complete job. -/
  past : ∀ x ∈ timeline.past, TickEnds config timeline.responses x.1 x.2
  ticks : timeline.past.map Prod.fst = List.range' timeline.since (now - timeline.since)
  /-- A job starts after its admission and is complete after the latency of its decoder. -/
  jobs : ∀ x ∈ timeline.jobs, x.1 ≤ now ∧ x.1 < x.2.start ∧
    ∃ d ∈ config.decoders, d.id = x.2.decoder ∧ x.2.completion = x.2.start + d.latency
  /-- Jobs of a decoder start in the order of their admission, an interval apart. -/
  jobsApart : timeline.jobs.Pairwise fun x y => x.1 ≤ y.1 ∧ ∀ d ∈ config.decoders,
    d.id = x.2.decoder → d.id = y.2.decoder → x.2.start + d.initiationInterval ≤ y.2.start
  /-- Every job that there is has been admitted so. -/
  running : ∀ j ∈ s.jobs, ∃ x ∈ timeline.jobs,
    x.2 = { j with arrival := none, started := false, completed := false }

/-- In every run that makes its steps in time, with any accesses and resets. -/
theorem decoder_timing {config : DecoderSystemConfig} {now : ℕ} {due : Bool}
    {timeline : DecoderTimeline} {s : DecoderSystem}
    (run : DecoderTimed config now due timeline s) : DecoderTiming config now timeline s := by
  have h := run.onTime
  obtain ⟨history, hrun⟩ := run.run
  have hconfig := hrun.sound.configured
  constructor
  · exact fun x hx => ⟨(h.packets x hx).1, (h.packets x hx).2.2⟩
  · have hlink := List.pairwise_map.1 h.requestLink.apart
    exact h.ids.imp₂ (fun x y hid hle => ⟨hid, hle⟩) hlink
  · exact h.responses
  · exact List.pairwise_map.1 h.responseLink.apart
  · exact h.past
  · exact h.ticks
  · intro x hx
    obtain ⟨hle, hstart, d, hd, hcompletion⟩ := h.pipelined.schedule x hx
    obtain ⟨hmem, hid⟩ := mem_of_decoder hd
    exact ⟨hle, hstart, d, hconfig ▸ hmem, hid, hcompletion⟩
  · have hserial : ∀ d ∈ config.decoders, timeline.jobs.Pairwise fun x y =>
        d.id = x.2.decoder → d.id = y.2.decoder → x.2.start + d.initiationInterval ≤ y.2.start := by
      intro d hd
      have hapart := List.pairwise_map.1 (h.pipelined.serial d.id d (hrun.decoder hd)).apart
      rw [List.pairwise_filter] at hapart
      exact hapart.imp fun hxy hx hy => hxy (by simp [hx]) (by simp [hy])
    have hall : timeline.jobs.Pairwise fun x y => ∀ d ∈ config.decoders, d.id = x.2.decoder →
        d.id = y.2.decoder → x.2.start + d.initiationInterval ≤ y.2.start := by
      rw [List.pairwise_iff_getElem]
      intro i j hi hj hij d hd
      exact List.pairwise_iff_getElem.1 (hserial d hd) i j hi hj hij
    exact h.pipelined.ordered.imp₂ (fun x y hle hd => ⟨hle, hd⟩) hall
  · exact h.running

section Probe

/-- What is done to the decoders, or a tick that passes. -/
inductive TimedCall
  | call (call : DecoderCall)
  | tick

/-- Run calls while they do not fault and no step is missed. -/
def DecoderTimeline.play (timeline : DecoderTimeline) (now : ℕ) (due : Bool) (s : DecoderSystem) :
    List TimedCall → Option (ℕ × Bool × DecoderTimeline × DecoderSystem)
  | [] => some (now, due, timeline, s)
  | .call (.access core request) :: rest =>
      match DecoderSystem.access core request now 1 s with
      | ⟨.ok _, s', _⟩ =>
          play
            { timeline with
              packets := timeline.packets ++ (s.packetsSince s').map fun p => (now, p) }
            now true s' rest
      | _ => none
  | .call .step :: rest =>
      match DecoderSystem.step now 1 s with
      | ⟨.ok _, s', _⟩ =>
          play
            { timeline with
              jobs := timeline.jobs ++ (s.jobsSince s').map fun j => (now, j)
              responses := timeline.responses ++ s.responsesSince s' now }
            now false s' rest
      | _ => none
  | .tick :: rest =>
      match due with
      | true => none
      | false =>
          play { timeline with past := timeline.past ++ [(now, s)] } (now + 1)
            (s.nextBoundary now = some (now + 1)) s rest

theorem DecoderTimed.play {config : DecoderSystemConfig} {now now' : ℕ} {due due' : Bool}
    {timeline timeline' : DecoderTimeline} {s s' : DecoderSystem} {calls : List TimedCall}
    (run : DecoderTimed config now due timeline s)
    (h : timeline.play now due s calls = some (now', due', timeline', s')) :
    DecoderTimed config now' due' timeline' s' := by
  induction calls generalizing timeline now due s with
  | nil =>
    simp only [DecoderTimeline.play, Option.some.injEq, Prod.mk.injEq] at h
    obtain ⟨rfl, rfl, rfl, rfl⟩ := h
    exact run
  | cons call rest ih =>
    match call with
    | .call (.access core request) =>
      rw [DecoderTimeline.play] at h
      split at h
      · rename_i reply s₁ l haccess
        exact ih (run.access haccess) h
      · simp at h
    | .call .step =>
      rw [DecoderTimeline.play] at h
      split at h
      · rename_i s₁ l hstep
        exact ih (run.step hstep) h
      · simp at h
    | .tick =>
      cases due with
      | true => simp [DecoderTimeline.play] at h
      | false => exact ih run.tick h

/-- Two cores submit a window, the second while the first is decoded. -/
def timedCalls : List TimedCall :=
  let write core offset value := TimedCall.call (.access core
    { address := 0x40000000 + offset, value, write := true })
  [write 0 0 7, write 0 4 2, write 0 8 1, write 0 20 1, .call .step] ++
    (List.replicate 5 [.tick, .call .step]).flatten ++
    [write 1 0 7, write 1 4 2, write 1 8 3, write 1 20 1, .call .step] ++
    (List.replicate 12 [.tick, .call .step]).flatten

theorem decoder_timing_parity : ∃ now due timeline s,
    DecoderTimed parityConfig now due timeline s ∧
    timeline.packets.map (fun x => (x.2.id, x.1, x.2.sent)) = [(1, 0, 0), (2, 5, 5)] ∧
    timeline.responses.length = 1 ∧ DecoderTiming parityConfig now timeline s := by
  have hplay : ((({ since := 0 } : DecoderTimeline).play 0 false parityDecoders timedCalls).any
      fun x => x.2.2.1.packets.map (fun x => (x.2.id, x.1, x.2.sent)) = [(1, 0, 0), (2, 5, 5)] ∧
        x.2.2.1.responses.length = 1) = true := by decide +kernel
  rw [Option.any_eq_true] at hplay
  obtain ⟨⟨now, due, timeline, s⟩, hplay, hfacts⟩ := hplay
  simp only [decide_eq_true_eq] at hfacts
  have run : DecoderTimed parityConfig now due timeline s := (DecoderTimed.make rfl).play hplay
  exact ⟨now, due, timeline, s, run, hfacts.1, hfacts.2, decoder_timing run⟩

end Probe
end Qsbit

import Qsbit.Decoder.Session

/-!
# Runs of the decoders

The history of a run holds the accesses, the accepted packets and the records. The
packets of each session are where the history says they must be, whatever other
sessions do in between.

## Main definitions

* `DecoderRun` — accesses and steps in any order.
* `Sound` — the packets of each session are in their places.
* `DecoderRun.sound` — so they are in every state of a run.
-/
namespace Qsbit
open Std (ExtTreeMap)
open Submission

structure DecoderHistory where
  accesses : List (ℕ × MemoryRequest) := []
  submissions : List Submission := []
  log : List TraceEvent := []

/-- The packet that is sent for a submission of a core: the low bits of what it has put together. -/
def DecoderSubmit.packet (x : DecoderSubmit) (id core : ℕ) : Submission :=
  { id, core, decoder := x.decoder, bits := (List.range x.count).map x.data.testBit }

namespace DecoderSystem

/-- The packet that an access submits, when it does and is not refused. -/
def submissionOf (s : DecoderSystem) (core : ℕ) (request : MemoryRequest) (reply : Option ℕ) :
    List Submission :=
  match (DecoderMmio.access core request s.mmio).result, reply with
  | .ok (some (.submit x)), some _ => [x.packet s.next core]
  | _, _ => []

end DecoderSystem

/-- Runs of accesses and steps. An access that faults goes back to its core with the fault; a reset
of the simulator starts a new history. -/
inductive DecoderRun (config : DecoderSystemConfig) : DecoderHistory → DecoderSystem → Prop
  | make {s : DecoderSystem} (h : DecoderSystem.make config = .ok s) : DecoderRun config {} s
  | access {history : DecoderHistory} {s s' : DecoderSystem} {core now epoch : ℕ}
      {request : MemoryRequest} {reply : Option ℕ} {l : List TraceEvent}
      (run : DecoderRun config history s)
      (h : (DecoderSystem.access core request now epoch).Returns s reply s' l) :
      DecoderRun config
        { accesses := history.accesses ++ [(core, request)]
          submissions := history.submissions ++ s.submissionOf core request reply
          log := history.log ++ l } s'
  | fault {history : DecoderHistory} {s s' : DecoderSystem} {core now epoch : ℕ}
      {request : MemoryRequest} {f : Fault} {l : List TraceEvent}
      (run : DecoderRun config history s)
      (h : (DecoderSystem.access core request now epoch).Raises s f s' l) :
      DecoderRun config history s'
  | step {history : DecoderHistory} {s s' : DecoderSystem} {now epoch : ℕ} {l : List TraceEvent}
      (run : DecoderRun config history s)
      (h : (DecoderSystem.step now epoch).Returns s () s' l) :
      DecoderRun config { history with log := history.log ++ l } s'
  | reset {history : DecoderHistory} {s : DecoderSystem} (run : DecoderRun config history s) :
      DecoderRun config {} s.reset

namespace DecoderSystem

/-- The first packet has been sent and arrives before the second. -/
def Request.Before (p q : Request) : Prop := p.id < q.id ∧ p.arrival < q.arrival

/-- Packets are in order on the link, and those of each session are in their places. -/
structure Sound (config : DecoderSystemConfig) (submissions : List Submission)
    (log : List TraceEvent) (s : DecoderSystem) : Prop where
  configured : s.config = config
  decoders : s.mmio.decoders = config.decoders.map (·.id)
  positive : 0 < s.next
  sorted : s.requests.Pairwise Request.Before
  apart : ∀ r ∈ s.resetRequest, ∀ q ∈ s.requests, r.Before q ∨ q.Before r
  bound : ∀ q ∈ s.requests ++ s.resetRequest.toList, q.id < s.next ∧
    q.arrival ≤ s.txAvailable + s.config.linkLatency
  known : ∀ q ∈ s.requests ++ s.resetRequest.toList, ∃ d, s.decoder q.decoder = .ok d
  serves : ∀ key d, s.decoder key.2 = .ok d →
    ∃ groups part, Serves d key submissions log (s.view key) groups part

section Views
variable {s s' : DecoderSystem} {key key' : ℕ × ℕ} {now epoch core : ℕ}

theorem ofSession_record {kind : TraceKind} {id target tag : ℕ} :
    (s.record now epoch kind id core target tag).ofSession key ↔ (core, target) = key := by
  simp [TraceEvent.ofSession, record, Prod.ext_iff]

theorem mem_of_decoder {id : ℕ} {d : DecoderConfig} (h : s.decoder id = .ok d) :
    d ∈ s.config.decoders ∧ d.id = id := by
  unfold decoder at h
  split at h
  · rename_i d' hfind
    obtain rfl := Except.pure_eq_ok_iff.1 h
    exact ⟨List.mem_of_find?_eq_some hfind, by simpa using List.find?_some hfind⟩
  · simp at h

theorem decoder_of_mem {id : ℕ} (h : id ∈ s.config.decoders.map (·.id)) :
    ∃ d, s.decoder id = .ok d := by
  obtain ⟨d, hd, rfl⟩ := List.mem_map.1 h
  unfold decoder
  cases hfind : s.config.decoders.find? (·.id = d.id) with
  | none => exact absurd (List.find?_eq_none.1 hfind d hd) (by simp)
  | some d' => exact ⟨d', rfl⟩

theorem transmit_eq (p : Request) (now : ℕ) :
    p.transmit now = { p with transmitted := (p.transmit now).transmitted } := by
  unfold Request.transmit
  split <;> rfl

@[simp] theorem id_transmit {p : Request} : (p.transmit now).id = p.id := by rw [transmit_eq]

@[simp] theorem decoder_transmit {p : Request} : (p.transmit now).decoder = p.decoder := by
  rw [transmit_eq]

@[simp] theorem arrival_transmit {p : Request} : (p.transmit now).arrival = p.arrival := by
  rw [transmit_eq]

@[simp] theorem submission_transmit {p : Request} : (p.transmit now).submission = p.submission := by
  rw [transmit_eq]
  rfl

theorem view_openSession : (s.openSession key').view key = s.view key := by
  rw [view, session_openSession]
  rfl

theorem view_transmitAll : (s.transmitAll now).view key = s.view key := by
  have hqueued : (((s.requests.map (·.transmit now)).filter (·.of key)).map Request.submission) =
      (s.requests.filter (·.of key)).map Request.submission := by
    rw [List.filter_map, List.map_map]
    have hof : ((·.of key) ∘ fun p : Request => p.transmit now) = fun p : Request => p.of key := by
      funext p
      exact Request.of_transmit
    rw [hof]
    exact List.map_congr_left fun p _ => submission_transmit
  have hreset : (s.resetRequest.map (·.transmit now)).map (·.id) = s.resetRequest.map (·.id) := by
    rw [Option.map_map]
    congr 1
    funext p
    exact id_transmit
  simp only [view, transmitAll, hqueued, hreset]
  rfl

theorem cancel_transmit {p : Request} : s.cancel (p.transmit now) = s.cancel p := by
  rw [transmit_eq]
  rfl

theorem cancels_iff {p : Request} {core decoder id : ℕ} (hkey : (core, decoder) = key) :
    p.cancels core decoder id = true ↔ p.of key = true ∧ id < p.id := by
  subst hkey
  simp only [Request.cancels, Request.of, decide_eq_true_eq]
  constructor
  · rintro ⟨hcore, hdecoder, hid⟩
    exact ⟨⟨hcore.symm, hdecoder.symm⟩, hid⟩
  · rintro ⟨⟨hcore, hdecoder⟩, hid⟩
    exact ⟨hcore.symm, hdecoder.symm, hid⟩

theorem mem_of_mem_cancel {p q : Request}
    (hq : q ∈ (s.cancel p).requests ++ (s.cancel p).resetRequest.toList) : q ∈ s.requests := by
  rcases List.mem_append.1 hq with hq | hq
  · exact (List.mem_filter.1 hq).1
  · simp [cancel] at hq

theorem session_cancel {p : Request} :
    (s.cancel p).session key = if p.of key then {} else s.session key := by
  simp only [session, cancel, ExtTreeMap.getElem?_insert, order_eq_iff, Request.of_iff]
  split <;> simp

theorem requests_cancel {p : Request} : (s.cancel p).requests.filter (·.of key) =
    (s.requests.filter (·.of key)).filter fun q => ¬ (p.of key = true ∧ q.id < p.id) := by
  rw [cancel, List.filter_filter, List.filter_filter]
  apply List.filter_congr
  intro q _
  cases hof : q.of key with
  | false => simp
  | true =>
    have hiff : p.cancels q.core q.decoder q.id = true ↔ _ := cancels_iff (Request.of_iff.1 hof)
    simp [hiff]

theorem jobs_cancel {p : Request} : (s.cancel p).jobs.filter (·.of key) =
    (s.jobs.filter (·.of key)).filter fun j => ¬ (p.of key = true ∧ j.id < p.id) := by
  rw [cancel, List.filter_filter, List.filter_filter]
  apply List.filter_congr
  intro j _
  cases hof : j.of key with
  | false => simp
  | true =>
    have hiff : p.cancels j.core j.decoder j.id = true ↔ _ := cancels_iff (Job.of_iff.1 hof)
    simp [hiff]

/-- The arrival of a reset does not concern other sessions. -/
theorem view_cancel_other {p : Request} (hof : p.of key = false) :
    (s.cancel p).view key = { s.view key with resetId := none } := by
  have hrequests : (s.cancel p).requests.filter (·.of key) = s.requests.filter (·.of key) := by
    rw [requests_cancel, List.filter_eq_self]
    simp [hof]
  have hjobs : (s.cancel p).jobs.filter (·.of key) = s.jobs.filter (·.of key) := by
    rw [jobs_cancel, List.filter_eq_self]
    simp [hof]
  rw [view, hrequests, hjobs, session_cancel, hof]
  rfl

end Views

/-! ## One operation -/

section Steps
variable {config : DecoderSystemConfig} {submissions more : List Submission}
  {log l : List TraceEvent} {s s' : DecoderSystem} {now epoch core : ℕ} {u : Unit}

/-- Packets that are taken away keep the others in order. -/
theorem Sound.of_sublist {submissions' : List Submission} {log' : List TraceEvent}
    (h : Sound config submissions log s) (hconfig : s'.config = s.config)
    (hdecoders : s'.mmio.decoders = s.mmio.decoders) (hrequests : s'.requests.Sublist s.requests)
    (hreset : ∀ r ∈ s'.resetRequest, r ∈ s.resetRequest) (hnext : s'.next = s.next)
    (htx : s'.txAvailable = s.txAvailable)
    (hserves : ∀ key d, s.decoder key.2 = .ok d →
      ∃ groups part, Serves d key submissions' log' (s'.view key) groups part) :
    Sound config submissions' log' s' := by
  have hsub : ∀ q ∈ s'.requests ++ s'.resetRequest.toList,
      q ∈ s.requests ++ s.resetRequest.toList := by
    intro q hq
    rcases List.mem_append.1 hq with hq | hq
    · exact List.mem_append_left _ (hrequests.subset hq)
    · exact List.mem_append_right _ (Option.mem_toList.2 (hreset q (Option.mem_toList.1 hq)))
  have hdecoder : ∀ id, s'.decoder id = s.decoder id := by
    intro id
    rw [decoder, hconfig]
    rfl
  exact
    { configured := hconfig.trans h.configured
      decoders := hdecoders.trans h.decoders
      positive := hnext ▸ h.positive
      sorted := h.sorted.sublist hrequests
      apart := fun r hr q hq => h.apart r (hreset r hr) q (hrequests.subset hq)
      bound := by
        rw [hnext, htx, hconfig]
        exact fun q hq => h.bound q (hsub q hq)
      known := by
        simp only [hdecoder]
        exact fun q hq => h.known q (hsub q hq)
      serves := by
        intro key d hd
        rw [hdecoder] at hd
        exact hserves key d hd }

/-- What does not touch the packets and the sessions keeps them in their places. -/
theorem Sound.of_same_view (h : Sound config submissions log s) (hconfig : s'.config = s.config)
    (hdecoders : s'.mmio.decoders = s.mmio.decoders) (hrequests : s'.requests = s.requests)
    (hreset : s'.resetRequest = s.resetRequest) (hnext : s'.next = s.next)
    (htx : s'.txAvailable = s.txAvailable) (hview : ∀ key, s'.view key = s.view key) :
    Sound config submissions log s' := by
  refine h.of_sublist hconfig hdecoders (hrequests ▸ .refl _) (fun r hr => hreset ▸ hr) hnext htx ?_
  intro key d hd
  rw [hview]
  exact h.serves key d hd

/-- Records that tell nothing of any progress. -/
theorem Sound.neutral (h : Sound config submissions log s) (hl : ∀ key, Neutral key l) :
    Sound config submissions (log ++ l) s := by
  refine { h with serves := fun key d hd => ?_ }
  obtain ⟨groups, part, hserves⟩ := h.serves key d hd
  refine ⟨groups, part, ?_⟩
  have hframe : Serves d key (submissions ++ []) (log ++ l) (s.view key) groups part :=
    hserves.frame rfl rfl rfl le_rfl (fun r hr => .inl hr) (hl key) (by simp)
  rwa [List.append_nil] at hframe

theorem Sound.transmitAll (h : Sound config submissions log s) :
    Sound config submissions (log ++ s.requestsSent now epoch) (s.transmitAll now) := by
  have hneutral : ∀ key, Neutral key (s.requestsSent now epoch) := by
    intro key
    refine neutral_of_kind [.decoderRequestSent] ?_ (by decide)
    intro r hr
    obtain ⟨p, -, rfl⟩ := List.mem_map.1 hr
    exact List.mem_singleton_self _
  have hmem : ∀ {P : Request → Prop}, (∀ q, P (q.transmit now) ↔ P q) →
      (∀ q ∈ s.requests ++ s.resetRequest.toList, P q) →
      ∀ q ∈ (s.transmitAll now).requests ++ (s.transmitAll now).resetRequest.toList, P q := by
    intro P hP hall q hq
    simp only [DecoderSystem.transmitAll, List.mem_append, List.mem_map, Option.mem_toList,
      Option.map_eq_some_iff] at hq
    obtain ⟨q, hq, rfl⟩ | ⟨q, hq, rfl⟩ := hq
    · exact (hP q).2 (hall q (List.mem_append_left _ hq))
    · exact (hP q).2 (hall q (List.mem_append_right _ (Option.mem_toList.2 hq)))
  have h := h.neutral hneutral
  exact
    { configured := h.configured
      decoders := h.decoders
      positive := h.positive
      sorted := by
        refine List.pairwise_map.2 (h.sorted.imp fun hpq => ?_)
        simpa [Request.Before] using hpq
      apart := by
        intro r hr q hq
        simp only [DecoderSystem.transmitAll, Option.mem_def, Option.map_eq_some_iff,
          List.mem_map] at hr hq
        obtain ⟨r, hr, rfl⟩ := hr
        obtain ⟨q, hq, rfl⟩ := hq
        simpa [Request.Before] using h.apart r hr q hq
      bound := hmem (by simp) h.bound
      known := hmem (by simp) h.known
      serves := by
        intro key d hd
        rw [view_transmitAll]
        exact h.serves key d hd }

/-- A reset arrives. -/
theorem Sound.cancel (h : Sound config submissions log s) {p : Request}
    (hp : s.resetRequest = some p) {r : TraceEvent}
    (hof : ∀ key, r.ofSession key ↔ (p.core, p.decoder) = key) (hkind : r.kind = .decoderReset)
    (hr : r.id = p.id) : Sound config submissions (log ++ [r]) (s.cancel p) := by
  refine h.of_sublist rfl rfl List.filter_sublist (by simp [DecoderSystem.cancel]) rfl rfl ?_
  intro key d hd
  obtain ⟨groups, part, hserves⟩ := h.serves key d hd
  have hid : (s.view key).resetId = some p.id := by rw [view, hp]; rfl
  by_cases hkey : p.of key = true
  · refine ⟨[], [], hserves.reset_arrives hid ?_ ?_ ?_ ?_ rfl rfl ((hof key).2 ?_) hkind hr⟩
    · exact (h.bound p (by simp [hp])).1
    · change (s.cancel p).session key = {}
      rw [session_cancel, if_pos hkey]
    · change ((s.cancel p).requests.filter (·.of key)).map Request.submission = List.filter _
        ((s.requests.filter (·.of key)).map Request.submission)
      rw [requests_cancel, List.filter_map]
      congr 1
      apply List.filter_congr
      intro q hq
      have hne : q.id ≠ p.id := by
        rcases h.apart p hp q (List.mem_filter.1 hq).1 with hbefore | hbefore
        · exact hbefore.1.ne'
        · exact hbefore.1.ne
      simp only [hkey, true_and, Function.comp_apply, decide_eq_decide]
      change ¬ q.id < p.id ↔ p.id < q.id
      omega
    · change ((s.cancel p).jobs.filter (·.of key)).map _ = []
      rw [jobs_cancel, List.map_eq_nil_iff, List.filter_eq_nil_iff]
      intro j hj
      have hrunning : (j.id, j.result) ∈ (s.view key).running := List.mem_map_of_mem hj
      have holder := (hserves.running_older hrunning).2 p.id hid
      simp [hkey, holder]
    · exact Request.of_iff.1 hkey
  · rw [Bool.not_eq_true] at hkey
    refine ⟨groups, part, ?_⟩
    have hneutral : Neutral key [r] := by
      intro r' hr' hof'
      obtain rfl := List.mem_singleton.1 hr'
      rw [hof, ← Request.of_iff, hkey] at hof'
      simp at hof'
    have hframe : Serves d key (submissions ++ []) (log ++ [r])
        { s.view key with resetId := none } groups part :=
      hserves.frame rfl rfl rfl le_rfl (by simp) hneutral (by simp)
    rwa [List.append_nil, ← view_cancel_other hkey] at hframe

/-- A job goes on, or its result returns. -/
theorem Sound.advanceJob (h : Sound config submissions log s) {kept rest : List Job} {j : Job}
    {j' : Option Job} (hjobs : s.jobs = kept ++ j :: rest)
    (hj : (advanceJob now epoch j).Returns s j' s' l) :
    Sound config submissions (log ++ l) { s' with jobs := kept ++ j'.toList ++ rest } := by
  have hneutral : ∀ key, Neutral key (s.jobRecords now epoch j) := by
    intro key
    refine neutral_of_kind [.decoderStarted, .decoderCompleted] ?_ (by decide)
    intro r hr
    unfold jobRecords at hr
    grind [record]
  rcases advanceJob_returns hj with ⟨-, rfl, rfl, rfl⟩ | ⟨-, rfl, rfl, rfl⟩
  · refine (h.neutral hneutral).of_same_view rfl rfl rfl rfl rfl rfl fun key => ?_
    have hof : (j.advance now).of key = j.of key := rfl
    simp only [view, hjobs, Option.toList_some, List.append_assoc, List.singleton_append,
      List.filter_append, List.filter_cons, hof, List.map_append]
    split <;> rfl
  · rw [← List.append_assoc]
    have h' := h.neutral hneutral
    refine h'.of_sublist rfl rfl (.refl _) (fun r hr => hr) rfl rfl ?_
    intro key d hd
    obtain ⟨groups, part, hserves⟩ := h'.serves key d hd
    have hrunning : (s.view key).running =
        (((kept.filter (·.of key)) ++ (j :: rest).filter (·.of key)).map
          fun j => (j.id, j.result)) := by
      rw [← List.filter_append, ← hjobs]
      rfl
    refine ⟨groups, part, ?_⟩
    by_cases hkey : j.of key = true
    · have hmem : (j.id, j.result) ∈ (s.view key).running := by
        rw [hrunning]
        simp [hkey]
      have hnone : kept.filter (·.of key) ++ rest.filter (·.of key) = [] := by
        have hone := (hserves.running_eq hmem).2.1
        rw [hrunning, List.filter_cons_of_pos (p := fun i : Job => i.of key) hkey] at hone
        have hlength := congrArg List.length hone
        simp only [List.length_map, List.length_append, List.length_cons, List.length_nil] at hlength
        rw [List.eq_nil_iff_length_eq_zero, List.length_append]
        omega
      refine hserves.return_result hmem ?_ rfl ?_ rfl rfl
        (ofSession_record.2 (Job.of_iff.1 hkey)) rfl rfl
      · change (s.returned j).session key = _
        rw [returned, session_setSession, if_pos (Job.of_iff.1 hkey), Job.of_iff.1 hkey]
        rfl
      · change ((kept ++ [] ++ rest).filter fun i : Job => i.of key).map _ = []
        rw [List.append_nil, List.filter_append, hnone]
        rfl
    · have hneutral' : Neutral key
          [(s.returned j).record now epoch .decoderResultReturned j.id j.core j.decoder] := by
        intro r hr hof
        obtain rfl := List.mem_singleton.1 hr
        rw [ofSession_record, ← Job.of_iff] at hof
        exact absurd hof hkey
      have hframe : Serves d key (submissions ++ []) _
          (({ s.returned j with jobs := kept ++ [] ++ rest } : DecoderSystem).view key) groups part :=
        hserves.frame ?_ rfl ?_ le_rfl (fun r hr => .inl hr) hneutral' (by simp)
      · rwa [List.append_nil] at hframe
      · change (s.returned j).session key = _
        rw [returned, session_setSession, if_neg (fun heq => hkey (Job.of_iff.2 heq))]
        rfl
      · rw [hrunning]
        change ((kept ++ [] ++ rest).filter fun i : Job => i.of key).map _ = _
        rw [List.append_nil, List.filter_append,
          List.filter_cons_of_neg (p := fun i : Job => i.of key) hkey]

theorem decoded_eq {d : DecoderConfig} {window result : List Bool}
    (h : d.decode window = .ok result) : d.decoded window = ofBits result := by
  rw [DecoderConfig.decoded, h]

/-- The jobs of a session after an admission. -/
theorem running_of_admits {d : DecoderConfig} {p : Request} {window : List Bool} {key : ℕ × ℕ}
    (h : Admits now d p window s s') : (s'.view key).running = (s.view key).running ++
      if p.of key ∧ window.length = d.measurements then [(p.id, d.decoded window)] else [] := by
  rcases h.outcome with ⟨hshort, hjobs, -⟩ | ⟨hfull, -, result, start, completion, hresult, -, hjobs⟩
  · rw [if_neg (by omega), List.append_nil, view, view, hjobs]
  · simp only [view, hjobs, List.filter_append, List.map_append, hfull, and_true,
      decoded_eq hresult]
    congr 1
    by_cases hkey : p.of key = true
    · have hof : (p.core, p.decoder) = key := Request.of_iff.1 hkey
      simp [hkey, Job.of_iff, hof]
    · have hof : (p.core, p.decoder) ≠ key := fun heq => hkey (Request.of_iff.2 heq)
      simp [hkey, Job.of_iff, hof]

/-- The request at the head of the queue is admitted before any reset arrives. -/
theorem Sound.admitRequest (h : Sound config submissions log s) {p : Request} {rest : List Request}
    (hrequests : s.requests = p :: rest) (harrival : p.arrival ≤ now)
    (hreset : ∀ r ∈ s.resetRequest, now < r.arrival)
    (hadmission : (admitRequest now epoch p).Returns s true s' l) :
    Sound config submissions (log ++ l) { s' with requests := rest } := by
  obtain ⟨d, hd, ⟨hfalse, -⟩ | ⟨-, ⟨window, hadmits⟩, r, rfl, hkind⟩⟩ := admitRequest_returns hadmission
  · simp at hfalse
  have hneutral : ∀ key, Neutral key [r] := by
    intro key
    refine neutral_of_kind [.decoderRequestArrived] ?_ (by decide)
    intro r' hr'
    rw [List.mem_singleton.1 hr', hkind]
    exact List.mem_singleton_self _
  obtain ⟨sessions, available, jobs, heq⟩ := hadmits.rest
  have hconfig : s'.config = s.config := by rw [heq]
  have hnext : s'.next = s.next := by rw [heq]
  have hresetEq : s'.resetRequest = s.resetRequest := by rw [heq]
  have hsub : rest.Sublist s.requests := by
    rw [hrequests]
    exact List.sublist_cons_self _ _
  refine h.of_sublist hconfig (by rw [heq]) hsub (fun r hr => hresetEq ▸ hr) hnext (by rw [heq]) ?_
  intro key d' hd'
  obtain ⟨groups, part, hserves⟩ := h.serves key d' hd'
  have hresetId : (({ s' with requests := rest } : DecoderSystem).view key).resetId =
      (s.view key).resetId := by
    change s'.resetRequest.map _ = s.resetRequest.map _
    rw [hresetEq]
  have hrunning : (s'.view key).running = (s.view key).running ++ _ := running_of_admits hadmits
  by_cases hkey : p.of key = true
  · obtain rfl := Request.of_iff.1 hkey
    obtain rfl := Except.ok.inj (hd.symm.trans hd')
    have hqueue : (s.view (p.core, p.decoder)).queued = p.submission ::
        (rest.filter (·.of (p.core, p.decoder))).map Request.submission := by
      rw [view, hrequests, List.filter_cons_of_pos (p := fun q : Request => q.of _) hkey]
      rfl
    have hid : p.id < s.next ∧ ∀ i ∈ (s.view (p.core, p.decoder)).resetId, p.id < i := by
      refine ⟨(h.bound p (by simp [hrequests])).1, ?_⟩
      intro i hi
      obtain ⟨r', hr', rfl⟩ := Option.map_eq_some_iff.1 hi
      rcases h.apart r' hr' p (by simp [hrequests]) with hbefore | hbefore
      · have := hreset r' hr'
        have := hbefore.2
        omega
      · exact hbefore.1
    have hwindow : window = (s.view (p.core, p.decoder)).session.measurements ++ p.submission.bits :=
      hadmits.appended
    refine hserves.admitRequest hqueue hadmits.idle hid rfl hnext hresetId (hneutral _) ?_
    rw [← hwindow]
    rcases hadmits.outcome with ⟨hshort, -, -, hsession⟩ | ⟨hfull, hsession, result, _, _, hdecode, -⟩
    · rw [if_neg (by omega), List.append_nil] at hrunning
      exact .inl ⟨hshort, hsession, hrunning⟩
    · rw [if_pos ⟨hkey, hfull⟩] at hrunning
      exact .inr ⟨hfull, ⟨result, hdecode⟩, hsession, hrunning⟩
  · refine ⟨groups, part, ?_⟩
    have hqueued : (rest.filter (·.of key)).map Request.submission = (s.view key).queued := by
      rw [view, hrequests, List.filter_cons_of_neg (p := fun q : Request => q.of _) hkey]
    rw [if_neg (fun hof => hkey hof.1), List.append_nil] at hrunning
    have hframe : Serves d' key (submissions ++ []) (log ++ [r])
        (({ s' with requests := rest } : DecoderSystem).view key) groups part := by
      refine hserves.frame ?_ hqueued hrunning hnext.ge (fun i hi => .inl (hresetId ▸ hi))
        (hneutral key) (by simp)
      exact hadmits.other key fun hof => hkey (Request.of_iff.2 hof)
    rwa [List.append_nil] at hframe

theorem Sound.transmitResult (h : Sound config submissions log s)
    (ht : (transmitResult now).Returns s u s' []) : Sound config submissions log s' := by
  obtain ⟨-, ⟨rfl, -⟩ | ⟨ready, last, arrival, -, rfl⟩⟩ := transmitResult_returns ht
  · exact h
  · refine h.of_same_view rfl rfl rfl rfl rfl rfl fun key => ?_
    simp only [view, List.filter_map, List.map_map]
    have hof : (((fun j : Job => j.of key) ∘ fun j : Job =>
        if j.id = ready.id then { j with arrival := some arrival } else j)) = fun j => j.of key := by
      funext j
      rw [Function.comp_apply]
      split <;> rfl
    have hrunning : (((fun j : Job => (j.id, j.result)) ∘ fun j : Job =>
        if j.id = ready.id then { j with arrival := some arrival } else j)) =
          fun j => (j.id, j.result) := by
      funext j
      rw [Function.comp_apply]
      split <;> rfl
    rw [hof, hrunning]
    rfl

/-- The packets are in their places, and no reset is left that has arrived. -/
structure Clear (config : DecoderSystemConfig) (submissions : List Submission) (now : ℕ)
    (s : DecoderSystem) (log : List TraceEvent) : Prop where
  sound : Sound config submissions log s
  clear : ∀ r ∈ s.resetRequest, now < r.arrival

theorem clear_advanceTransmission (h : Sound config submissions log s)
    (ht : (advanceTransmission now epoch).Returns s u s' l) :
    Clear config submissions now s' (log ++ l) := by
  have htransmit : Sound config submissions (log ++ s.requestsSent now epoch) (s.transmitAll now) :=
    h.transmitAll
  rcases advanceTransmission_returns ht with ⟨p, hp, -, rfl, rfl⟩ | ⟨hlate, rfl, rfl⟩
  · constructor
    · have hcancel : (s.transmitAll now).cancel p = (s.transmitAll now).cancel (p.transmit now) :=
        cancel_transmit.symm
      rw [← List.append_assoc, hcancel]
      refine htransmit.cancel ?_ ?_ rfl id_transmit.symm
      · simp [DecoderSystem.transmitAll, hp]
      · intro key
        rw [ofSession_record, transmit_eq]
    · simp [DecoderSystem.cancel]
  · constructor
    · exact htransmit
    · intro r hr
      obtain ⟨p, hp, rfl⟩ := Option.map_eq_some_iff.1 hr
      rw [arrival_transmit]
      exact hlate p hp

theorem Clear.advanceJob {before : List TraceEvent} (h : Clear config submissions now s before)
    {kept rest : List Job} {j : Job} {j' : Option Job} (hjobs : s.jobs = kept ++ j :: rest)
    (hj : (advanceJob now epoch j).Returns s j' s' l) :
    Clear config submissions now { s' with jobs := kept ++ j'.toList ++ rest } (before ++ l) := by
  refine ⟨h.sound.advanceJob hjobs hj, ?_⟩
  rcases advanceJob_returns hj with ⟨-, -, rfl, -⟩ | ⟨-, -, rfl, -⟩
  · exact h.clear
  · exact h.clear

theorem Clear.openSession {before : List TraceEvent} (h : Clear config submissions now s before)
    {key : ℕ × ℕ} : Clear config submissions now (s.openSession key) before :=
  ⟨h.sound.of_same_view rfl rfl rfl rfl rfl rfl fun _ => view_openSession, h.clear⟩

theorem Clear.admitRequest {before : List TraceEvent} (h : Clear config submissions now s before)
    {p : Request} {rest : List Request} (hrequests : s.requests = p :: rest)
    (harrival : p.arrival ≤ now) (ha : (admitRequest now epoch p).Returns s true s' l) :
    Clear config submissions now { s' with requests := rest } (before ++ l) := by
  refine ⟨h.sound.admitRequest hrequests harrival h.clear ha, ?_⟩
  obtain ⟨d, -, ⟨hfalse, -⟩ | ⟨-, ⟨window, hadmits⟩, -⟩⟩ := admitRequest_returns ha
  · simp at hfalse
  · obtain ⟨sessions, available, jobs, rfl⟩ := hadmits.rest
    exact h.clear

theorem Clear.advanceFrom {before : List TraceEvent} (h : Clear config submissions now s before)
    (ha : (advanceFrom now epoch [] s.jobs).Returns s u s' l) :
    Clear config submissions now s' (before ++ l) :=
  (advanceFrom_induction ha rfl before h fun _ _ _ _ _ _ _ _ hjobs hs hj =>
    hs.advanceJob hjobs hj).1

theorem Clear.admitFrom {before : List TraceEvent} (h : Clear config submissions now s before)
    (ha : (admitFrom now epoch s.requests).Returns s u s' l) :
    Clear config submissions now s' (before ++ l) :=
  (admitFrom_induction ha rfl before h (fun _ _ _ hs => hs.openSession)
    fun _ _ _ _ _ _ hrequests harrival hs hadmission =>
      hs.admitRequest hrequests harrival hadmission).1

theorem Sound.step (h : Sound config submissions log s)
    (hstep : (step now epoch).Returns s u s' l) : Sound config submissions (log ++ l) s' := by
  obtain ⟨s₁, s₂, s₃, l₁, l₂, l₃, h₁, h₂, h₃, h₄, rfl⟩ := step_returns hstep
  have hclear := ((clear_advanceTransmission h h₁).advanceFrom h₂).admitFrom h₃
  have hsound := hclear.sound.transmitResult h₄
  rwa [List.append_assoc, List.append_assoc, ← List.append_assoc l₁] at hsound

/-! ## Accesses -/

section Enqueue
variable {reset : Bool} {submission : DecoderSubmit} {packet : Request} {last : ℕ}
  (h : Sound config submissions log s) (hsends : Sends s core submission now packet last)

include h hsends in
/-- A packet that is sent comes after all that are on their way. -/
theorem Sound.before_packet : ∀ q ∈ s.requests ++ s.resetRequest.toList, q.Before packet := by
  intro q hq
  obtain ⟨hid, harrival⟩ := h.bound q hq
  have hpacket := hsends.id
  have hlast := hsends.arrival
  have htransmission := hsends.transmission
  have hsent := hsends.sent
  constructor
  · omega
  · omega

/-- What is on its way after a packet or a reset has been sent. -/
theorem mem_enqueue (hroom : s.full reset = false) {q : Request}
    (hq : q ∈ (s.enqueue reset packet).requests ++ (s.enqueue reset packet).resetRequest.toList) :
    q ∈ s.requests ++ s.resetRequest.toList ∨ q = packet := by
  cases reset with
  | true =>
    have hnone : s.resetRequest = none := by simpa [full] using hroom
    simpa [DecoderSystem.enqueue, hnone, eq_comm] using hq
  | false =>
    simp only [DecoderSystem.enqueue, Bool.false_eq_true, if_false, List.mem_append,
      List.mem_singleton] at hq ⊢
    tauto

include h hsends in
theorem Sound.sorted_enqueue : (s.enqueue reset packet).requests.Pairwise Request.Before := by
  cases reset with
  | true => exact h.sorted
  | false =>
    refine List.pairwise_append.2 ⟨h.sorted, List.pairwise_singleton _ _, ?_⟩
    intro q hq q' hq'
    rw [List.mem_singleton.1 hq']
    exact h.before_packet hsends q (List.mem_append_left _ hq)

include h hsends in
theorem Sound.apart_enqueue : ∀ r ∈ (s.enqueue reset packet).resetRequest,
    ∀ q ∈ (s.enqueue reset packet).requests, r.Before q ∨ q.Before r := by
  intro r hr q hq
  cases reset with
  | true =>
    obtain rfl := Option.some.inj hr
    exact .inr (h.before_packet hsends q (List.mem_append_left _ hq))
  | false =>
    rcases List.mem_append.1 hq with hq | hq
    · exact h.apart r hr q hq
    · rw [List.mem_singleton.1 hq]
      exact .inl (h.before_packet hsends r (List.mem_append_right _ (Option.mem_toList.2 hr)))

include hsends in
/-- A session is served as before, and its packet is queued behind the others. -/
theorem serves_enqueue {d : DecoderConfig} {key : ℕ × ℕ} {groups : List (List Submission)}
    {part : List Submission} (hserves : Serves d key submissions log (s.view key) groups part)
    (hs' : s' = { s.enqueue reset packet with next := s.next + 1, txAvailable := last })
    (hl : Neutral key l) :
    Serves d key (submissions ++ if reset then [] else [packet.submission]) (log ++ l) (s'.view key)
      groups part := by
  subst hs'
  have hle : s.next ≤ s.next + 1 := Nat.le_succ _
  cases reset with
  | true =>
    refine hserves.frame rfl rfl rfl hle (fun r hr => ?_) hl (by simp)
    obtain rfl := Option.some.inj hr
    exact .inr hsends.id.ge
  | false =>
    have hqueued : ((s.requests ++ [packet]).filter (·.of key)).map Request.submission =
        (s.view key).queued ++ if packet.of key then [packet.submission] else [] := by
      rw [List.filter_append, List.map_append]
      cases hof : packet.of key with
      | true => simp [hof, view]
      | false => simp [hof, view]
    cases hof : packet.of key with
    | true =>
      rw [hof, if_pos rfl] at hqueued
      exact hserves.submit hof hsends.id rfl hqueued rfl hle (fun r hr => .inl hr) hl
    | false =>
      rw [hof, if_neg (by simp), List.append_nil] at hqueued
      refine hserves.frame rfl hqueued rfl hle (fun r hr => .inl hr) hl ?_
      intro x hx
      obtain rfl := List.mem_singleton.1 hx
      exact hof

end Enqueue

/-- Sending a packet or a reset. -/
theorem Sound.enqueue (h : Sound config submissions log s) {reset : Bool}
    {submission : DecoderSubmit} {packet : Request} {last : ℕ}
    (hsends : Sends s core submission now packet last) (hroom : s.full reset = false)
    (hdecoder : submission.decoder ∈ s.mmio.decoders)
    (hs' : s' = { s.enqueue reset packet with next := s.next + 1, txAvailable := last })
    (hl : ∀ key, Neutral key l) :
    Sound config (submissions ++ if reset then [] else [packet.submission]) (log ++ l) s' := by
  have hconfig : s'.config = s.config := by
    rw [hs']
    cases reset <;> rfl
  have hdecoders : s'.mmio.decoders = s.mmio.decoders := by
    rw [hs']
    cases reset <;> rfl
  have hnext : s'.next = s.next + 1 := by rw [hs']
  have hmem : ∀ q ∈ s'.requests ++ s'.resetRequest.toList,
      q ∈ s.requests ++ s.resetRequest.toList ∨ q = packet := by
    rw [hs']
    exact fun q hq => mem_enqueue hroom hq
  exact
    { configured := hconfig.trans h.configured
      decoders := hdecoders.trans h.decoders
      positive := by omega
      sorted := by
        rw [hs']
        exact h.sorted_enqueue hsends
      apart := by
        rw [hs']
        exact h.apart_enqueue hsends
      bound := by
        intro q hq
        have hid := hsends.id
        have harrival := hsends.arrival
        have htx : s'.txAvailable = last := by rw [hs']
        rw [hnext, htx, hconfig]
        rcases hmem q hq with hq | rfl
        · obtain ⟨hidq, harrivalq⟩ := h.before_packet hsends q hq
          exact ⟨by omega, by omega⟩
        · exact ⟨by omega, by omega⟩
      known := by
        intro q hq
        simp only [decoder, hconfig]
        rcases hmem q hq with hq | rfl
        · exact h.known q hq
        · apply decoder_of_mem
          rw [hsends.decoder, h.configured, ← h.decoders]
          exact hdecoder
      serves := by
        intro key d hd
        have hd' : s.decoder key.2 = .ok d := by simpa only [decoder, hconfig] using hd
        obtain ⟨groups, part, hserves⟩ := h.serves key d hd'
        exact ⟨groups, part, serves_enqueue hsends hserves hs' (hl key)⟩ }

/-- A core consumes the result of its session. -/
theorem Sound.consume (h : Sound config submissions log s) {decoder : ℕ} {reply : Option ℕ}
    (hconsume : (consume core decoder now epoch).Returns s reply s' l) :
    Sound config submissions (log ++ l) s' := by
  obtain ⟨⟨-, hidle, hempty⟩, rfl, hl⟩ := consume_returns hconsume
  refine h.of_sublist rfl rfl (.refl _) (fun r hr => hr) rfl rfl ?_
  intro key d hd
  obtain ⟨groups, part, hserves⟩ := h.serves key d hd
  refine ⟨groups, part, ?_⟩
  by_cases hkey : (core, decoder) = key
  · subst hkey hl
    refine hserves.consume hidle hempty ?_ rfl rfl rfl rfl (ofSession_record.2 rfl) rfl
    change ((s.openSession (core, decoder)).setSession (core, decoder) {}).session (core, decoder) = {}
    rw [session_setSession, if_pos rfl]
  · have hneutral : Neutral key l := by
      intro r hr hof
      rw [hl, List.mem_singleton] at hr
      subst hr
      exact absurd (ofSession_record.1 hof) hkey
    have hframe : Serves d key (submissions ++ []) (log ++ l)
        (((s.openSession (core, decoder)).setSession (core, decoder) {}).view key) groups part := by
      refine hserves.frame ?_ rfl rfl le_rfl (fun r hr => .inl hr) hneutral (by simp)
      change ((s.openSession (core, decoder)).setSession (core, decoder) {}).session key = _
      rw [session_setSession, if_neg hkey, session_openSession]
      rfl
    rwa [List.append_nil] at hframe

/-- What the command of an access does. -/
def command (core now epoch : ℕ) : Option DecoderCommand → Sim DecoderSystem (Option ℕ)
  | none => pure (some 0)
  | some (.consume decoder) => consume core decoder now epoch
  | some (.read decoder kind) => read core decoder kind
  | some (.reset decoder tag) => send core true { decoder, count := 0, tag, data := 0 } now epoch
  | some (.submit submission) => send core false submission now epoch

theorem access_eq {request : MemoryRequest} : access core request now epoch =
    (Proc.zoom DecoderSystem.mmio (fun mmio s => { s with mmio })
      (DecoderMmio.access core request) >>= command core now epoch) := rfl

theorem access_returns_iff {request : MemoryRequest} {reply : Option ℕ} :
    (access core request now epoch).Returns s reply s' l ↔ ∃ c mmio,
      (DecoderMmio.access core request).Returns s.mmio c mmio [] ∧
      (command core now epoch c).Returns { s with mmio } reply s' l := by
  rw [access_eq, Proc.returns_bind_iff]
  constructor
  · rintro ⟨c, s₁, l₁, l₂, hzoom, hcommand, rfl⟩
    obtain ⟨mmio, hmmio, rfl⟩ := Proc.returns_zoom_iff.1 hzoom
    obtain ⟨rfl, -⟩ := DecoderMmio.access_returns hmmio
    exact ⟨c, mmio, hmmio, hcommand⟩
  · rintro ⟨c, mmio, hmmio, hcommand⟩
    exact ⟨c, _, [], l, Proc.returns_zoom_iff.2 ⟨mmio, hmmio, rfl⟩, hcommand, rfl⟩

theorem Sound.send (h : Sound config submissions log s) {reset : Bool} {x : DecoderSubmit}
    {reply : Option ℕ} (hdecoder : x.decoder ∈ s.mmio.decoders)
    (hsend : (send core reset x now epoch).Returns s reply s' l) :
    Sound config
      (submissions ++ if reset = false ∧ reply.isSome then [x.packet s.next core] else [])
      (log ++ l) s' := by
  rcases send_returns hsend with ⟨rfl, rfl, rfl⟩ | ⟨packet, last, rfl, hsends, hroom, hs', rfl⟩
  · simpa using h
  · have hl : ∀ key,
        Neutral key [s'.record now epoch .decoderRequestSubmitted s.next core x.decoder x.tag] := by
      intro key
      refine neutral_of_kind [.decoderRequestSubmitted] ?_ (by decide)
      intro r hr
      rw [List.mem_singleton.1 hr]
      exact List.mem_singleton_self _
    have hpacket : packet.submission = x.packet s.next core := by
      rw [Request.submission, Request.bits, hsends.id, hsends.core, hsends.decoder, hsends.count,
        hsends.data]
      rfl
    have hsound := h.enqueue hsends hroom hdecoder hs' hl
    rw [hpacket] at hsound
    cases reset with
    | true => simpa using hsound
    | false => simpa using hsound

theorem submissionOf_eq {request : MemoryRequest} {reply : Option ℕ} {c : Option DecoderCommand}
    {mmio : DecoderMmio} (h : (DecoderMmio.access core request).Returns s.mmio c mmio []) :
    s.submissionOf core request reply =
      match c, reply with
      | some (.submit x), some _ => [x.packet s.next core]
      | _, _ => [] := by
  have hresult : (DecoderMmio.access core request s.mmio).result = .ok c := congrArg (·.result) h
  unfold submissionOf
  rw [hresult]
  rcases c with _ | ⟨_ | _ | _ | _⟩ <;> cases reply <;> rfl

theorem Sound.access (h : Sound config submissions log s) {request : MemoryRequest}
    {reply : Option ℕ} (haccess : (access core request now epoch).Returns s reply s' l) :
    Sound config (submissions ++ s.submissionOf core request reply) (log ++ l) s' := by
  obtain ⟨c, mmio, hmmio, hcommand⟩ := access_returns_iff.1 haccess
  have haccesses := (DecoderMmio.access_returns hmmio).2
  have hstaged : Sound config submissions log { s with mmio } :=
    h.of_same_view rfl haccesses.decoders rfl rfl rfl rfl fun _ => rfl
  have hmem := haccesses.decoders
  rw [submissionOf_eq hmmio]
  match c, hcommand with
  | none, hcommand =>
    obtain ⟨rfl, rfl, rfl⟩ := Proc.returns_pure_iff.1 hcommand
    simpa using hstaged
  | some (.consume decoder), hcommand =>
    rw [List.append_nil]
    exact hstaged.consume hcommand
  | some (.read decoder kind), hcommand =>
    obtain ⟨rfl | rfl, rfl, -⟩ := read_returns hcommand
    · simpa using hstaged
    · rw [List.append_nil, List.append_nil]
      exact hstaged.of_same_view rfl rfl rfl rfl rfl rfl fun key => view_openSession
  | some (.reset decoder tag), hcommand =>
    obtain ⟨hdecoder, hc⟩ := haccesses.of_write (by simp)
    obtain ⟨rfl, rfl⟩ : decoder = _ ∧ tag = _ := by simpa using hc
    have hsound := hstaged.send (hmem ▸ hdecoder) hcommand
    simpa using hsound
  | some (.submit x), hcommand =>
    obtain ⟨hdecoder, hc⟩ := haccesses.of_write (by simp)
    obtain rfl : x = _ := by simpa using hc
    have hsound := hstaged.send (hmem ▸ hdecoder) hcommand
    cases reply with
    | none => simpa using hsound
    | some _ => simpa using hsound

/-- A step is no access and sends no packet. -/
theorem kept_step (hstep : (step now epoch).Returns s u s' l) :
    s'.mmio = s.mmio ∧ s'.next = s.next := by
  obtain ⟨s₁, s₂, s₃, l₁, l₂, l₃, h₁, h₂, h₃, h₄, rfl⟩ := step_returns hstep
  have hkept₁ : s₁.mmio = s.mmio ∧ s₁.next = s.next := by
    rcases advanceTransmission_returns h₁ with ⟨p, -, -, rfl, -⟩ | ⟨-, rfl, -⟩
    · exact ⟨rfl, rfl⟩
    · exact ⟨rfl, rfl⟩
  have hkept₂ : s₂.mmio = s.mmio ∧ s₂.next = s.next := by
    have hinduction := advanceFrom_induction (P := fun x _ => x.mmio = s.mmio ∧ x.next = s.next) h₂
      rfl [] hkept₁
    refine (hinduction ?_).1
    intro kept j rest x x' j' before k _ hx hj
    rcases advanceJob_returns hj with ⟨-, -, rfl, -⟩ | ⟨-, -, rfl, -⟩
    · exact hx
    · exact hx
  have hkept₃ : s₃.mmio = s.mmio ∧ s₃.next = s.next := by
    have hinduction := admitFrom_induction (P := fun x _ => x.mmio = s.mmio ∧ x.next = s.next) h₃ rfl
      [] hkept₂ (fun _ _ _ hx => hx)
    refine (hinduction ?_).1
    intro p rest x x' before k _ _ hx hadmission
    obtain ⟨d, -, ⟨hfalse, -⟩ | ⟨-, ⟨window, hadmits⟩, -⟩⟩ := admitRequest_returns hadmission
    · simp at hfalse
    · obtain ⟨sessions, available, jobs, rfl⟩ := hadmits.rest
      exact hx
  obtain ⟨-, ⟨rfl, -⟩ | ⟨ready, last, arrival, -, rfl⟩⟩ := transmitResult_returns h₄
  · exact hkept₃
  · exact hkept₃

/-- Only the registers are changed by an access, and they by its own write. -/
theorem mmio_access {request : MemoryRequest} {reply : Option ℕ}
    (haccess : (access core request now epoch).Returns s reply s' l) :
    s'.mmio.base = s.mmio.base ∧ ∀ core', s'.mmio.registersOf core' =
      if core = core' then DecoderMmio.stage s.mmio.base (s.mmio.registersOf core) request
      else s.mmio.registersOf core' := by
  obtain ⟨c, mmio, hmmio, hcommand⟩ := access_returns_iff.1 haccess
  have haccesses := (DecoderMmio.access_returns hmmio).2
  have hsame : s'.mmio = mmio := by
    have hsend : ∀ {reset : Bool} {x : DecoderSubmit},
        (send core reset x now epoch).Returns { s with mmio } reply s' l → s'.mmio = mmio := by
      intro reset x h
      rcases send_returns h with ⟨-, rfl, -⟩ | ⟨packet, last, -, -, -, rfl, -⟩
      · rfl
      · cases reset <;> rfl
    match c, hcommand with
    | none, hcommand =>
      obtain ⟨-, rfl, -⟩ := Proc.returns_pure_iff.1 hcommand
      rfl
    | some (.consume decoder), hcommand =>
      obtain ⟨-, rfl, -⟩ := consume_returns hcommand
      rfl
    | some (.read decoder kind), hcommand =>
      obtain ⟨rfl | rfl, -, -⟩ := read_returns hcommand
      · rfl
      · rfl
    | some (.reset decoder tag), hcommand => exact hsend hcommand
    | some (.submit x), hcommand => exact hsend hcommand
  rw [hsame]
  exact ⟨haccesses.base, haccesses.registers⟩

/-- A packet takes the next identity. -/
theorem next_access {request : MemoryRequest} {reply : Option ℕ}
    (haccess : (access core request now epoch).Returns s reply s' l) :
    s.next ≤ s'.next ∧
      ∀ x ∈ s.submissionOf core request reply, x.id = s.next ∧ s'.next = s.next + 1 := by
  obtain ⟨c, mmio, hmmio, hcommand⟩ := access_returns_iff.1 haccess
  rw [submissionOf_eq hmmio]
  have hsend : ∀ {reset : Bool} {x : DecoderSubmit},
      (send core reset x now epoch).Returns { s with mmio } reply s' l →
        s.next ≤ s'.next ∧ (reply.isSome → s'.next = s.next + 1) := by
    intro reset x h
    rcases send_returns h with ⟨rfl, rfl, -⟩ | ⟨packet, last, -, -, -, rfl, -⟩
    · exact ⟨le_rfl, by simp⟩
    · exact ⟨Nat.le_succ _, fun _ => rfl⟩
  match c, hcommand with
  | none, hcommand =>
    obtain ⟨-, rfl, -⟩ := Proc.returns_pure_iff.1 hcommand
    exact ⟨le_rfl, by simp⟩
  | some (.consume decoder), hcommand =>
    obtain ⟨-, rfl, -⟩ := consume_returns hcommand
    exact ⟨le_rfl, by simp⟩
  | some (.read decoder kind), hcommand =>
    obtain ⟨rfl | rfl, -, -⟩ := read_returns hcommand
    · exact ⟨le_rfl, by simp⟩
    · exact ⟨le_rfl, by simp⟩
  | some (.reset decoder tag), hcommand => exact ⟨(hsend hcommand).1, by simp⟩
  | some (.submit x), hcommand =>
    refine ⟨(hsend hcommand).1, fun y hy => ?_⟩
    cases reply with
    | none => simp at hy
    | some _ =>
      obtain rfl := List.mem_singleton.1 hy
      exact ⟨rfl, (hsend hcommand).2 rfl⟩

theorem not_raises_event {kind : TraceKind} {id target tag : ℕ} {f : Fault} :
    ¬ (event now epoch kind id core target tag).Raises s f s' l := by
  rw [event, Proc.raises_get_bind_iff]
  exact Proc.not_raises_emit

theorem send_raises {reset : Bool} {x : DecoderSubmit} {f : Fault}
    (h : (send core reset x now epoch).Raises s f s' l) : s' = s := by
  rw [send, Proc.raises_get_bind_iff] at h
  split at h
  · exact absurd h Proc.not_raises_pure
  iterate 4
    rcases Proc.raises_lift_bind_iff.1 h with ⟨-, rfl, -⟩ | ⟨_, -, h⟩
    · rfl
  rw [Proc.raises_modify_bind_iff, Proc.raises_bind_iff] at h
  rcases h with h | ⟨_, _, _, _, -, h, -⟩
  · exact absurd h not_raises_event
  · exact absurd h Proc.not_raises_pure

/-- A command that faults has at most looked its session up. -/
theorem command_raises {c : Option DecoderCommand} {f : Fault}
    (h : (command core now epoch c).Raises s f s' l) :
    c.isSome ∧ (s' = s ∨ ∃ key, s' = s.openSession key) := by
  match c, h with
  | none, h => exact absurd h Proc.not_raises_pure
  | some (.consume decoder), h =>
    refine ⟨rfl, .inr ⟨(core, decoder), ?_⟩⟩
    rw [command, DecoderSystem.consume, Proc.raises_modify_bind_iff, Proc.raises_get_bind_iff] at h
    rcases Proc.raises_lift_bind_iff.1 h with ⟨-, rfl, -⟩ | ⟨_, -, h⟩
    · rfl
    rw [Proc.raises_modify_bind_iff, Proc.raises_bind_iff] at h
    rcases h with h | ⟨_, _, _, _, -, h, -⟩
    · exact absurd h not_raises_event
    · exact absurd h Proc.not_raises_pure
  | some (.read decoder kind), h =>
    refine ⟨rfl, ?_⟩
    rw [command, read, Proc.raises_get_bind_iff] at h
    cases kind with
    | count =>
      rcases Proc.raises_lift_bind_iff.1 h with ⟨-, rfl, -⟩ | ⟨_, -, h⟩
      · exact .inl rfl
      · exact absurd h Proc.not_raises_pure
    | status =>
      rw [Proc.raises_modify_bind_iff] at h
      exact absurd h Proc.not_raises_pure
    | low | high =>
      simp only [Proc.raises_modify_bind_iff] at h
      split at h
      · exact .inr ⟨_, (Proc.raises_check_iff.1 h).2.1.symm⟩
      · exact absurd h Proc.not_raises_pure
  | some (.reset decoder tag), h => exact ⟨rfl, .inl (send_raises h)⟩
  | some (.submit x), h => exact ⟨rfl, .inl (send_raises h)⟩

/-- An access that faults has at most looked its session up. -/
theorem access_raises {request : MemoryRequest} {f : Fault}
    (h : (access core request now epoch).Raises s f s' l) :
    s' = s ∨ ∃ key, s' = s.openSession key := by
  rw [access_eq, Proc.raises_bind_iff] at h
  rcases h with h | ⟨c, s₁, l₁, l₂, hzoom, hcommand, rfl⟩
  · obtain ⟨mmio, hmmio, rfl⟩ := Proc.raises_zoom_iff.1 h
    obtain ⟨rfl, -⟩ := DecoderMmio.access_raises hmmio
    exact .inl rfl
  · obtain ⟨mmio, hmmio, rfl⟩ := Proc.returns_zoom_iff.1 hzoom
    obtain ⟨hsome, hs'⟩ := command_raises hcommand
    obtain ⟨command, rfl⟩ := Option.isSome_iff_exists.1 hsome
    obtain rfl := (DecoderMmio.access_returns hmmio).2.same command rfl
    exact hs'

end Steps

/-! ## Runs -/

section Runs
variable {config : DecoderSystemConfig} {s : DecoderSystem} {history : DecoderHistory}

/-- A valid configuration names each decoder once. -/
theorem find_of_valid {ds : List DecoderConfig} {seen : List ℕ} {d : DecoderConfig}
    (h : validateDecoders seen ds = .ok ()) (hd : d ∈ ds) :
    d.id ∉ seen ∧ ds.find? (·.id = d.id) = some d := by
  induction ds generalizing seen with
  | nil => simp at hd
  | cons d' rest ih =>
    simp only [validateDecoders, Except.bind_eq_ok_iff, require_eq_ok_iff, exists_const] at h
    obtain ⟨⟨hfresh, -⟩, hrest⟩ := h
    rcases List.mem_cons.1 hd with rfl | hd
    · exact ⟨hfresh, List.find?_cons_of_pos (by simp)⟩
    · obtain ⟨hseen, hfind⟩ := ih hrest hd
      rw [List.mem_cons, not_or] at hseen
      refine ⟨hseen.2, ?_⟩
      rw [List.find?_cons_of_neg (by simpa using Ne.symm hseen.1)]
      exact hfind

theorem measurements_pos {ds : List DecoderConfig} {seen : List ℕ}
    (h : validateDecoders seen ds = .ok ()) : ∀ d ∈ ds, 0 < d.measurements := by
  induction ds generalizing seen with
  | nil => simp
  | cons d rest ih =>
    simp only [validateDecoders, Except.bind_eq_ok_iff, require_eq_ok_iff, exists_const] at h
    obtain ⟨⟨-, hpos, -⟩, hrest⟩ := h
    intro d' hd'
    rcases List.mem_cons.1 hd' with rfl | hd'
    · exact hpos
    · exact ih hrest d' hd'

theorem Sound.initial (hconfig : s.config = config)
    (hdecoders : s.mmio.decoders = config.decoders.map (·.id)) (hnext : 0 < s.next)
    (hsessions : s.sessions = ∅) (hrequests : s.requests = []) (hreset : s.resetRequest = none)
    (hjobs : s.jobs = [])
    (hpos : ∀ id d, s.decoder id = .ok d → 0 < d.measurements) : Sound config [] [] s where
  configured := hconfig
  decoders := hdecoders
  positive := hnext
  sorted := by
    rw [hrequests]
    exact List.Pairwise.nil
  apart := by simp [hreset]
  bound := by simp [hrequests, hreset]
  known := by simp [hrequests, hreset]
  serves := by
    intro key d hd
    refine ⟨[], [], .initial (hpos _ d hd) hnext ?_ ?_ ?_ ?_⟩
    · simp [view, session, hsessions]
    · simp [view, hrequests]
    · simp [view, hjobs]
    · simp [view, hreset]

/-- The registers of a core after its accesses. -/
def registersAfter (base core : ℕ) (accesses : List (ℕ × MemoryRequest)) : DecoderMmio.Registers :=
  ((accesses.filter (·.1 = core)).map (·.2)).foldl (DecoderMmio.stage base) {}

theorem registersAfter_append {base core core' : ℕ} {accesses : List (ℕ × MemoryRequest)}
    {request : MemoryRequest} : registersAfter base core (accesses ++ [(core', request)]) =
      if core' = core then DecoderMmio.stage base (registersAfter base core' accesses) request
      else registersAfter base core accesses := by
  rw [registersAfter, List.filter_append]
  by_cases heq : core' = core
  · subst heq
    simp [registersAfter]
  · simp [heq, registersAfter]

end Runs
end DecoderSystem

open DecoderSystem in
theorem DecoderRun.sound {config : DecoderSystemConfig} {history : DecoderHistory}
    {s : DecoderSystem} (run : DecoderRun config history s) :
    Sound config history.submissions history.log s := by
  induction run with
  | make h =>
    simp only [DecoderSystem.make, DecoderMmio.make, Except.bind_eq_ok_iff, require_eq_ok_iff,
      exists_const, Except.pure_eq_ok_iff] at h
    obtain ⟨mmio, ⟨-, rfl⟩, -, _, hvalid, rfl⟩ := h
    refine .initial rfl rfl Nat.one_pos rfl rfl rfl rfl fun id d hd => ?_
    exact measurements_pos hvalid d (mem_of_decoder hd).1
  | access run h ih => exact ih.access h
  | fault run h ih =>
    obtain rfl | ⟨key, rfl⟩ := DecoderSystem.access_raises h
    · exact ih
    · exact ih.of_same_view rfl rfl rfl rfl rfl rfl fun key' => view_openSession
  | step run h ih => exact ih.step h
  | reset run ih =>
    refine .initial ih.configured ih.decoders ih.positive rfl rfl rfl rfl fun id d hd => ?_
    obtain ⟨groups, part, hserves⟩ := ih.serves (0, id) d hd
    exact Nat.zero_lt_of_lt hserves.short

open DecoderSystem in
/-- The registers of a core are what its own accesses have made of them. -/
theorem DecoderRun.registersOf {config : DecoderSystemConfig} {history : DecoderHistory}
    {s : DecoderSystem} (run : DecoderRun config history s) : s.mmio.base = config.base ∧
      ∀ core, s.mmio.registersOf core = registersAfter config.base core history.accesses := by
  induction run with
  | make h =>
    simp only [DecoderSystem.make, DecoderMmio.make, Except.bind_eq_ok_iff, require_eq_ok_iff,
      exists_const, Except.pure_eq_ok_iff] at h
    obtain ⟨mmio, ⟨-, rfl⟩, -, _, -, rfl⟩ := h
    exact ⟨rfl, fun core => rfl⟩
  | access run h ih =>
    obtain ⟨hbase, hregisters⟩ := mmio_access h
    refine ⟨hbase.trans ih.1, fun core => ?_⟩
    rw [hregisters, ih.1, ih.2, ih.2]
    exact registersAfter_append.symm
  | fault run h ih =>
    obtain rfl | ⟨key, rfl⟩ := DecoderSystem.access_raises h
    · exact ih
    · exact ih
  | step run h ih =>
    rw [(kept_step h).1]
    exact ih
  | reset run ih => exact ⟨ih.1, fun core => rfl⟩

open DecoderSystem in
/-- Packets are numbered in the order in which they are accepted. -/
theorem DecoderRun.ordered {config : DecoderSystemConfig} {history : DecoderHistory}
    {s : DecoderSystem} (run : DecoderRun config history s) :
    history.submissions.Pairwise (fun x y => x.id < y.id) ∧
      ∀ x ∈ history.submissions, x.id < s.next := by
  induction run with
  | make h => exact ⟨.nil, by simp⟩
  | @access _ s s' core _ _ request reply _ run h ih =>
    obtain ⟨hnext, hnew⟩ := next_access h
    constructor
    · refine List.pairwise_append.2 ⟨ih.1, ?_, ?_⟩
      · unfold submissionOf
        split
        · exact List.pairwise_singleton _ _
        · exact .nil
      · intro x hx y hy
        rw [(hnew y hy).1]
        exact ih.2 x hx
    · intro x hx
      rcases List.mem_append.1 hx with hx | hx
      · exact (ih.2 x hx).trans_le hnext
      · obtain ⟨hid, hsucc⟩ := hnew x hx
        omega
  | fault run h ih =>
    obtain rfl | ⟨key, rfl⟩ := DecoderSystem.access_raises h
    · exact ih
    · exact ih
  | step run h ih =>
    rw [(kept_step h).2]
    exact ih
  | reset run ih => exact ⟨.nil, by simp⟩

open DecoderSystem in
theorem DecoderRun.valid {config : DecoderSystemConfig} {history : DecoderHistory}
    {s : DecoderSystem} (run : DecoderRun config history s) :
    validateDecoders [] config.decoders = .ok () := by
  induction run with
  | make h =>
    simp only [DecoderSystem.make, Except.bind_eq_ok_iff, require_eq_ok_iff, exists_const] at h
    obtain ⟨mmio, -, -, _, hvalid, -⟩ := h
    exact hvalid
  | access run h ih => exact ih
  | fault run h ih => exact ih
  | step run h ih => exact ih
  | reset run ih => exact ih

theorem DecoderRun.decoder {config : DecoderSystemConfig} {history : DecoderHistory}
    {s : DecoderSystem} (run : DecoderRun config history s) {d : DecoderConfig}
    (hd : d ∈ config.decoders) : s.decoder d.id = .ok d := by
  rw [DecoderSystem.decoder, run.sound.configured, (DecoderSystem.find_of_valid run.valid hd).2]
  rfl

end Qsbit

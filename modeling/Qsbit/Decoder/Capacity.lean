import Mathlib.Data.Finset.Card
import Qsbit.Decoder.Quiet
import Qsbit.Decoder.Results

/-!
# What the decoders hold

A session has a job exactly when it has submitted a window. The queue of requests
and the results that are held or awaited stay within their capacities, and after a
step a later tick is named while anything is on its way.

## Main definitions

* `Session.held` — the session takes one of the places for results.
* `Bounded` — queues and results are within their capacities.
* `Consistent` — what holds in every state of a run.
-/
namespace Qsbit
open Std (ExtTreeMap)

namespace DecoderSystem

/-! ## Places for results -/

/-- The session holds a result, or a job will return one to it. -/
def Session.held (x : Session) : Bool := x.result.isSome ∨ x.submitted

section Places
variable {s s' : DecoderSystem} {key key' : ℕ × ℕ}

/-- The sessions that take a place. -/
def holders (s : DecoderSystem) : Finset (ℕ × ℕ) :=
  ((s.sessions.toList.filter fun entry => entry.2.held).map Prod.fst).toFinset

theorem mem_holders : key ∈ s.holders ↔ (s.session key).held = true := by
  simp only [holders, List.mem_toFinset, List.mem_map, List.mem_filter, Prod.exists,
    session]
  constructor
  · rintro ⟨core, decoder, x, ⟨hentry, hheld⟩, rfl⟩
    rwa [ExtTreeMap.mem_toList_iff_getElem?_eq_some.1 hentry]
  · intro hheld
    cases hentry : s.sessions[key]? with
    | none =>
      rw [hentry] at hheld
      exact absurd hheld (by decide)
    | some x =>
      rw [hentry] at hheld
      exact ⟨_, _, x, ⟨ExtTreeMap.mem_toList_iff_getElem?_eq_some.2 hentry, hheld⟩, rfl⟩

theorem reserved_eq : s.reserved = s.holders.card := by
  have hnodup : ((s.sessions.toList.filter fun entry => entry.2.held).map Prod.fst).Nodup := by
    refine List.pairwise_map.2 ?_
    refine (s.sessions.distinct_keys_toList.sublist List.filter_sublist).imp ?_
    exact fun hne heq => hne (order_eq_iff.2 heq)
  rw [holders, List.toFinset_card_of_nodup hnodup, List.length_map, ← List.countP_eq_length_filter]
  rfl

theorem reserved_le (h : ∀ key, (s'.session key).held = true → (s.session key).held = true) :
    s'.reserved ≤ s.reserved := by
  rw [reserved_eq, reserved_eq]
  apply Finset.card_le_card
  intro key hkey
  exact mem_holders.2 (h key (mem_holders.1 hkey))

/-- One session can take at most one more place. -/
theorem reserved_le_succ
    (h : ∀ key', key ≠ key' → (s'.session key').held = true → (s.session key').held = true) :
    s'.reserved ≤ s.reserved + 1 := by
  rw [reserved_eq, reserved_eq]
  refine le_trans (Finset.card_le_card ?_) (Finset.card_insert_le key s.holders)
  intro key' hkey'
  by_cases hkey : key = key'
  · exact Finset.mem_insert.2 (.inl hkey.symm)
  · exact Finset.mem_insert_of_mem (mem_holders.2 (h key' hkey (mem_holders.1 hkey')))

end Places

/-! ## One operation -/

/-- Requests and results are within their capacities, requests leave one after the other, and only
decoders that exist have sessions and jobs. -/
structure Bounded (s : DecoderSystem) : Prop where
  requests : s.requests.length ≤ s.config.requestCapacity
  reserved : s.reserved ≤ s.config.resultCapacity
  sent : (s.requests.map (·.sent)).Pairwise (· < ·)
  free : ∀ tick ∈ s.requests.map (·.sent), tick < s.txAvailable
  jobs : ∀ j ∈ s.jobs, ∃ d, s.decoder j.decoder = .ok d
  unknown : ∀ key, (s.session key).held = true ∨ (s.session key).measurements ≠ [] →
    ∃ d, s.decoder key.2 = .ok d

section Steps
variable {config : DecoderSystemConfig} {submissions : List Submission} {log l : List TraceEvent}
  {s s' : DecoderSystem} {now epoch core : ℕ} {u : Unit}

theorem decoder_congr (h : s'.config = s.config) (id : ℕ) : s'.decoder id = s.decoder id := by
  rw [decoder, h]
  rfl

/-- Requests and jobs that are taken away leave room. -/
theorem Bounded.of_sublist (h : Bounded s) (hconfig : s'.config = s.config)
    (hrequests : (s'.requests.map (·.sent)).Sublist (s.requests.map (·.sent)))
    (htx : s'.txAvailable = s.txAvailable) (hreserved : s'.reserved ≤ s.config.resultCapacity)
    (hjobs : ∀ j ∈ s'.jobs, ∃ d, s.decoder j.decoder = .ok d)
    (hunknown : ∀ key, (s'.session key).held = true ∨ (s'.session key).measurements ≠ [] →
      ∃ d, s.decoder key.2 = .ok d) : Bounded s' where
  requests := by
    have hlength := hrequests.length_le
    rw [List.length_map, List.length_map] at hlength
    rw [hconfig]
    exact hlength.trans h.requests
  reserved := hconfig ▸ hreserved
  sent := h.sent.sublist hrequests
  free := by
    rw [htx]
    exact fun tick htick => h.free tick (hrequests.subset htick)
  jobs := by
    simp only [decoder_congr hconfig]
    exact hjobs
  unknown := by
    simp only [decoder_congr hconfig]
    exact hunknown

/-- What changes no session keeps the places. -/
theorem Bounded.of_same_sessions (h : Bounded s) (hconfig : s'.config = s.config)
    (hrequests : (s'.requests.map (·.sent)).Sublist (s.requests.map (·.sent)))
    (htx : s'.txAvailable = s.txAvailable)
    (hjobs : ∀ j ∈ s'.jobs, ∃ d, s.decoder j.decoder = .ok d)
    (hsession : ∀ key, s'.session key = s.session key) : Bounded s' := by
  refine h.of_sublist hconfig hrequests htx ?_ hjobs ?_
  · refine le_trans (reserved_le fun key hkey => ?_) h.reserved
    rwa [← hsession]
  · intro key
    rw [hsession]
    exact h.unknown key

theorem Bounded.openSession (h : Bounded s) {key : ℕ × ℕ} : Bounded (s.openSession key) :=
  h.of_same_sessions rfl (.refl _) rfl h.jobs fun _ => session_openSession

theorem Bounded.transmitAll (h : Bounded s) : Bounded (s.transmitAll now) := by
  refine h.of_same_sessions rfl ?_ rfl h.jobs fun _ => rfl
  have hsent : ((s.transmitAll now).requests.map (·.sent)) = s.requests.map (·.sent) := by
    rw [DecoderSystem.transmitAll, List.map_map]
    refine List.map_congr_left fun p _ => ?_
    rw [Function.comp_apply, transmit_eq]
  rw [hsent]

theorem Bounded.cancel (h : Bounded s) {p : Request} : Bounded (s.cancel p) := by
  have hsession : ∀ key, ((s.cancel p).session key).held = true ∨
      ((s.cancel p).session key).measurements ≠ [] → (s.cancel p).session key = s.session key := by
    intro key hkey
    rw [session_cancel] at hkey ⊢
    by_cases hof : p.of key = true
    · rw [if_pos hof] at hkey
      exact absurd hkey (by decide)
    · rw [if_neg hof]
  refine h.of_sublist rfl (List.filter_sublist.map _) rfl ?_ ?_ ?_
  · refine le_trans (reserved_le fun key hkey => ?_) h.reserved
    rwa [← hsession key (.inl hkey)]
  · exact fun j hj => h.jobs j (List.mem_filter.1 hj).1
  · intro key hkey
    rw [hsession key hkey] at hkey
    exact h.unknown key hkey

theorem Bounded.advanceTransmission (h : Bounded s)
    (ht : (advanceTransmission now epoch).Returns s u s' l) : Bounded s' := by
  rcases advanceTransmission_returns ht with ⟨p, -, -, rfl, -⟩ | ⟨-, rfl, -⟩
  · exact h.transmitAll.cancel
  · exact h.transmitAll

/-- A job is the only one of its session, which has submitted a window. -/
theorem Sound.submitted (h : Sound config submissions log s) (hb : Bounded s) (key : ℕ × ℕ) :
    (s.jobs.filter (·.of key)).length = (s.session key).submitted.toNat := by
  by_cases hknown : ∃ d, s.decoder key.2 = .ok d
  · obtain ⟨d, hd⟩ := hknown
    obtain ⟨groups, part, hserves⟩ := h.serves key d hd
    have hrunning := congrArg List.length hserves.running
    have hpending := hserves.pending
    rw [List.length_map, List.length_drop] at hrunning
    simp only [view, List.length_map] at hrunning hpending
    omega
  · have hnone : s.jobs.filter (·.of key) = [] := by
      refine List.filter_eq_nil_iff.2 fun j hj hof => hknown ?_
      obtain rfl := Job.of_iff.1 hof
      exact hb.jobs j hj
    have hsubmitted : (s.session key).submitted = false := by
      by_contra htrue
      rw [Bool.not_eq_false] at htrue
      refine hknown (hb.unknown key (.inl ?_))
      simp [Session.held, htrue]
    rw [hnone, hsubmitted]
    rfl

theorem Sound.submitted_of_job (h : Sound config submissions log s) (hb : Bounded s) {j : Job}
    (hj : j ∈ s.jobs) : (s.session (j.core, j.decoder)).submitted = true := by
  have hmem : j ∈ s.jobs.filter (·.of (j.core, j.decoder)) :=
    List.mem_filter.2 ⟨hj, Job.of_iff.2 rfl⟩
  have hlength := h.submitted hb (j.core, j.decoder)
  by_contra hnot
  rw [Bool.not_eq_true] at hnot
  rw [hnot, Bool.toNat_false, List.length_eq_zero_iff] at hlength
  simp [hlength] at hmem

theorem Bounded.advanceJob (hb : Bounded s) (h : Sound config submissions log s)
    {kept rest : List Job} {j : Job} {j' : Option Job} (hjobs : s.jobs = kept ++ j :: rest)
    (hj : (advanceJob now epoch j).Returns s j' s' l) :
    Bounded { s' with jobs := kept ++ j'.toList ++ rest } := by
  have hmem : ∀ i ∈ kept ++ rest, ∃ d, s.decoder i.decoder = .ok d := by
    intro i hi
    apply hb.jobs
    rw [hjobs]
    rcases List.mem_append.1 hi with hi | hi
    · exact List.mem_append_left _ hi
    · exact List.mem_append_right _ (List.mem_cons_of_mem _ hi)
  have hjob : j ∈ s.jobs := by simp [hjobs]
  rcases advanceJob_returns hj with ⟨-, rfl, rfl, -⟩ | ⟨-, rfl, rfl, -⟩
  · refine hb.of_same_sessions rfl (.refl _) rfl ?_ fun _ => rfl
    intro i hi
    simp only [Option.toList_some, List.append_assoc, List.mem_append, List.mem_singleton] at hi
    rcases hi with hi | rfl | hi
    · exact hmem i (List.mem_append_left _ hi)
    · exact hb.jobs j hjob
    · exact hmem i (List.mem_append_right _ hi)
  · have hsession : ∀ key, (j.core, j.decoder) ≠ key →
        (s.returned j).session key = s.session key := by
      intro key hkey
      rw [returned, session_setSession, if_neg hkey]
    have hheld : (s.session (j.core, j.decoder)).held = true := by
      simp [Session.held, h.submitted_of_job hb hjob]
    refine hb.of_sublist rfl (.refl _) rfl ?_ (by simpa using hmem) ?_
    · refine le_trans (reserved_le fun key hkey => ?_) hb.reserved
      by_cases heq : (j.core, j.decoder) = key
      · rwa [← heq]
      · rw [← hsession key heq]
        exact hkey
    · intro key hkey
      by_cases heq : (j.core, j.decoder) = key
      · rw [← heq]
        exact hb.jobs j hjob
      · apply hb.unknown
        rw [← hsession key heq]
        exact hkey

theorem Bounded.admitRequest (hb : Bounded s) {p : Request} {rest : List Request} (hrequests : s.requests = p :: rest)
    (ha : (admitRequest now epoch p).Returns s true s' l) : Bounded { s' with requests := rest } := by
  obtain ⟨d, hd, ⟨hfalse, -⟩ | ⟨-, ⟨window, hadmits⟩, -⟩⟩ := admitRequest_returns ha
  · simp at hfalse
  obtain ⟨sessions, available, jobs, heq⟩ := hadmits.rest
  have hconfig : s'.config = s.config := by rw [heq]
  have hsub : (rest.map (·.sent)).Sublist (s.requests.map (·.sent)) := by
    rw [hrequests]
    exact (List.sublist_cons_self p rest).map _
  have hother : ∀ key, (p.core, p.decoder) ≠ key → (s'.session key).held = true →
      (s.session key).held = true := by
    intro key hkey
    rw [hadmits.other key hkey]
    exact id
  refine hb.of_sublist hconfig hsub (by rw [heq]) ?_ ?_ ?_
  · change s'.reserved ≤ _
    rcases hadmits.outcome with ⟨-, -, -, hsession⟩ | ⟨hfull, hsession, -⟩
    · refine le_trans (reserved_le fun key hkey => ?_) hb.reserved
      by_cases heq : (p.core, p.decoder) = key
      · rw [← heq, hsession] at hkey
        rw [← heq]
        exact hkey
      · exact hother key heq hkey
    · cases hresult : (s.session (p.core, p.decoder)).result with
      | some result =>
        -- The session has its place already.
        refine le_trans (reserved_le fun key hkey => ?_) hb.reserved
        by_cases heq : (p.core, p.decoder) = key
        · rw [← heq]
          simp [Session.held, hresult]
        · exact hother key heq hkey
      | none =>
        have hroom := hadmits.room hfull hresult
        have hopened : s.reserved ≤ (s.openSession (p.core, p.decoder)).reserved :=
          reserved_le fun key hkey => by rwa [session_openSession]
        have hsucc : s'.reserved ≤ s.reserved + 1 := reserved_le_succ hother
        omega
  · rcases hadmits.outcome with ⟨-, hjobs, -⟩ | ⟨-, -, _, _, _, -, -, hjobs⟩
    · change ∀ j ∈ s'.jobs, _
      rw [hjobs]
      exact hb.jobs
    · change ∀ j ∈ s'.jobs, _
      rw [hjobs]
      intro j hj
      rcases List.mem_append.1 hj with hj | hj
      · exact hb.jobs j hj
      · obtain rfl := List.mem_singleton.1 hj
        exact ⟨d, hd⟩
  · intro key hkey
    by_cases heq : (p.core, p.decoder) = key
    · rw [← heq]
      exact ⟨d, hd⟩
    · apply hb.unknown
      rw [← hadmits.other key heq]
      exact hkey

theorem Bounded.transmitResult (hb : Bounded s)
    (ht : (transmitResult now).Returns s u s' []) : Bounded s' := by
  obtain ⟨-, ⟨rfl, -⟩ | ⟨ready, last, arrival, -, rfl⟩⟩ := transmitResult_returns ht
  · exact hb
  · refine hb.of_same_sessions rfl (.refl _) rfl ?_ fun _ => rfl
    intro j hj
    obtain ⟨i, hi, rfl⟩ := List.mem_map.1 hj
    have hdecoder : (if i.id = ready.id then { i with arrival := some arrival } else i).decoder =
        i.decoder := by
      split <;> rfl
    rw [hdecoder]
    exact hb.jobs i hi

/-- The packets are in their places, and all is within the capacities. -/
def Kept (config : DecoderSystemConfig) (submissions : List Submission) (now : ℕ)
    (s : DecoderSystem) (log : List TraceEvent) : Prop :=
  Clear config submissions now s log ∧ Bounded s

theorem Bounded.step (hb : Bounded s) (h : Sound config submissions log s)
    (hstep : (step now epoch).Returns s u s' l) : Bounded s' := by
  obtain ⟨s₁, s₂, s₃, l₁, l₂, l₃, h₁, h₂, h₃, h₄, rfl⟩ := step_returns hstep
  have hkept₁ : Kept config submissions now s₁ (log ++ l₁) :=
    ⟨clear_advanceTransmission h h₁, hb.advanceTransmission h₁⟩
  have hkept₂ : Kept config submissions now s₂ (log ++ l₁ ++ l₂) :=
    (advanceFrom_induction h₂ rfl _ hkept₁ fun _ _ _ _ _ _ _ _ hjobs hx hj =>
      ⟨hx.1.advanceJob hjobs hj, hx.2.advanceJob hx.1.sound hjobs hj⟩).1
  have hkept₃ : Kept config submissions now s₃ (log ++ l₁ ++ l₂ ++ l₃) :=
    (admitFrom_induction h₃ rfl _ hkept₂
      (fun _ _ _ hx => ⟨hx.1.openSession, hx.2.openSession⟩)
      fun _ _ _ _ _ _ hrequests harrival hx ha =>
        ⟨hx.1.admitRequest hrequests harrival ha, hx.2.admitRequest hrequests ha⟩).1
  exact hkept₃.2.transmitResult h₄

/-- Sending a packet or a reset takes the room that there is. -/
theorem Bounded.enqueue (hb : Bounded s) {reset : Bool} {x : DecoderSubmit} {packet : Request}
    {last : ℕ} (hsends : Sends s core x now packet last) (hroom : s.full reset = false)
    (hs' : s' = { s.enqueue reset packet with next := s.next + 1, txAvailable := last }) :
    Bounded s' := by
  have hsent := hsends.sent
  have hlast := hsends.transmission
  have hlate : ∀ tick ∈ s.requests.map (·.sent), tick < packet.sent := by
    intro tick htick
    have := hb.free tick htick
    omega
  cases reset with
  | true =>
    subst hs'
    refine ⟨hb.requests, hb.reserved, hb.sent, fun tick htick => ?_, hb.jobs, hb.unknown⟩
    exact (hlate tick htick).trans hlast
  | false =>
    have hlength : s.requests.length < s.config.requestCapacity := by simpa [full] using hroom
    have hmap : s'.requests.map (·.sent) = s.requests.map (·.sent) ++ [packet.sent] := by
      rw [hs']
      exact List.map_append
    constructor
    · have hconfig : s'.config = s.config := by rw [hs']; rfl
      have hnew : s'.requests.length = s.requests.length + 1 := by
        rw [hs']
        exact List.length_append
      rw [hconfig, hnew]
      exact hlength
    · rw [hs']
      exact hb.reserved
    · rw [hmap]
      refine List.pairwise_append.2 ⟨hb.sent, List.pairwise_singleton _ _, fun a ha b hb' => ?_⟩
      rw [List.mem_singleton.1 hb']
      exact hlate a ha
    · have htx : s'.txAvailable = last := by rw [hs']
      rw [hmap, htx]
      intro tick htick
      rcases List.mem_append.1 htick with htick | htick
      · exact (hlate tick htick).trans hlast
      · rwa [List.mem_singleton.1 htick]
    · rw [hs']
      exact hb.jobs
    · rw [hs']
      exact hb.unknown

theorem Bounded.send (hb : Bounded s) {reset : Bool} {x : DecoderSubmit} {reply : Option ℕ}
    (hsend : (send core reset x now epoch).Returns s reply s' l) : Bounded s' := by
  rcases send_returns hsend with ⟨-, rfl, -⟩ | ⟨packet, last, -, hsends, hroom, hs', -⟩
  · exact hb
  · exact hb.enqueue hsends hroom hs'

theorem Bounded.consume (hb : Bounded s) {decoder : ℕ} {reply : Option ℕ}
    (hconsume : (consume core decoder now epoch).Returns s reply s' l) : Bounded s' := by
  obtain ⟨-, rfl, -⟩ := consume_returns hconsume
  have hsession : ∀ key,
      (((s.openSession (core, decoder)).setSession (core, decoder) {}).session key).held = true ∨
        (((s.openSession (core, decoder)).setSession (core, decoder) {}).session key).measurements
          ≠ [] →
      ((s.openSession (core, decoder)).setSession (core, decoder) {}).session key =
        s.session key := by
    intro key hkey
    rw [session_setSession] at hkey ⊢
    by_cases heq : (core, decoder) = key
    · rw [if_pos heq] at hkey
      exact absurd hkey (by decide)
    · rw [if_neg heq, session_openSession]
  refine hb.of_sublist rfl (.refl _) rfl ?_ hb.jobs ?_
  · refine le_trans (reserved_le fun key hkey => ?_) hb.reserved
    rwa [← hsession key (.inl hkey)]
  · intro key hkey
    rw [hsession key hkey] at hkey
    exact hb.unknown key hkey

theorem Bounded.access (hb : Bounded s) {request : MemoryRequest} {reply : Option ℕ}
    (haccess : (access core request now epoch).Returns s reply s' l) : Bounded s' := by
  obtain ⟨c, mmio, -, hcommand⟩ := access_returns_iff.1 haccess
  have hstaged : Bounded { s with mmio } :=
    hb.of_same_sessions rfl (.refl _) rfl hb.jobs fun _ => rfl
  match c, hcommand with
  | none, hcommand =>
    obtain ⟨-, rfl, -⟩ := Proc.returns_pure_iff.1 hcommand
    exact hstaged
  | some (.consume decoder), hcommand => exact hstaged.consume hcommand
  | some (.read decoder kind), hcommand =>
    obtain ⟨rfl | rfl, -, -⟩ := read_returns hcommand
    · exact hstaged
    · exact hstaged.openSession
  | some (.reset decoder tag), hcommand => exact hstaged.send hcommand
  | some (.submit x), hcommand => exact hstaged.send hcommand

theorem Bounded.initial (hrequests : s.requests = []) (hsessions : s.sessions = ∅)
    (hjobs : s.jobs = []) : Bounded s where
  requests := by simp [hrequests]
  reserved := by
    rw [DecoderSystem.reserved, hsessions, ExtTreeMap.toList_eq_nil_iff.2 rfl]
    exact Nat.zero_le _
  sent := by simp [hrequests]
  free := by simp [hrequests]
  jobs := by simp [hjobs]
  unknown := by simp [session, hsessions, Session.held]

/-! ## Results that return -/

/-- Where advancing the jobs one after the other faults, advancing one of them does. -/
theorem advanceFrom_raises {P : DecoderSystem → List TraceEvent → Prop} {kept jobs : List Job}
    {f : Fault} (h : (advanceFrom now epoch kept jobs).Raises s f s' l)
    (hjobs : s.jobs = kept ++ jobs) (before : List TraceEvent) (hs : P s before)
    (hstep : ∀ kept j rest s s' j' before k, s.jobs = kept ++ j :: rest → P s before →
      (advanceJob now epoch j).Returns s j' s' k →
      P { s' with jobs := kept ++ j'.toList ++ rest } (before ++ k)) :
    ∃ x before j x' k, P x before ∧ j ∈ x.jobs ∧ (advanceJob now epoch j).Raises x f x' k := by
  induction jobs generalizing kept s l before with
  | nil => exact absurd h Proc.not_raises_pure
  | cons j rest ih =>
    rw [advanceFrom, Proc.raises_bind_iff] at h
    rcases h with h | ⟨j', s₁, l₁, l₂, hj, h, rfl⟩
    · exact ⟨s, before, j, s', l, hs, by simp [hjobs], h⟩
    · rw [Proc.raises_modify_bind_iff] at h
      exact ih h rfl _ (hstep kept j rest s s₁ j' before l₁ hjobs hs hj)

theorem advanceJob_raises {j : Job} {f : Fault} (h : (advanceJob now epoch j).Raises s f s' l) :
    s.sessions[(j.core, j.decoder)]? = none := by
  have hevent : ∀ {c : Prop} [Decidable c] {kind : TraceKind} {x x' : DecoderSystem}
      {k : List TraceEvent},
      ¬ (if c then event now epoch kind j.id j.core j.decoder else pure ()).Raises x f x' k := by
    intro c _ kind x x' k hraises
    split at hraises
    · exact not_raises_event hraises
    · exact Proc.not_raises_pure hraises
  rcases Proc.raises_bind_iff.1 h with h₁ | ⟨_, s₁, l₁, k₁, hstarted, h₁, rfl⟩
  · exact absurd h₁ hevent
  obtain ⟨rfl, rfl⟩ := returns_eventIf_iff.1 hstarted
  rcases Proc.raises_bind_iff.1 h₁ with h₂ | ⟨_, s₂, l₂, k₂, hcompleted, h₂, rfl⟩
  · exact absurd h₂ hevent
  obtain ⟨rfl, rfl⟩ := returns_eventIf_iff.1 hcompleted
  by_cases harrived : j.arrived now = true
  · rw [if_pos harrived, Proc.raises_bind_iff] at h₂
    rcases h₂ with h₃ | ⟨_, _, _, _, -, h₃, -⟩
    · rw [returnResult, Proc.raises_get_bind_iff] at h₃
      cases hsession : s.sessions[(j.core, j.decoder)]? with
      | none => rfl
      | some session =>
        simp only [hsession, Proc.raises_modify_bind_iff] at h₃
        exact absurd h₃ not_raises_event
    · exact absurd h₃ Proc.not_raises_pure
  · rw [if_neg harrived] at h₂
    exact absurd h₂ Proc.not_raises_pure

/-- Every job finds its session. -/
theorem Bounded.not_raises_advanceJobs (hb : Bounded s) (h : Sound config submissions log s)
    {s₁ s₂ : DecoderSystem} {l₁ l₂ : List TraceEvent} {f : Fault}
    (ht : (DecoderSystem.advanceTransmission now epoch).Returns s u s₁ l₁) :
    ¬ (advanceJobs now epoch).Raises s₁ f s₂ l₂ := by
  intro hraises
  rw [advanceJobs, Proc.raises_get_bind_iff] at hraises
  obtain ⟨x, before, j, x', k, hx, hj, hjob⟩ := advanceFrom_raises
    (P := fun x before => Clear config submissions now x before ∧ Bounded x) hraises rfl (log ++ l₁)
    ⟨clear_advanceTransmission h ht, hb.advanceTransmission ht⟩
    fun _ _ _ _ _ _ _ _ hjobs hx hj =>
      ⟨hx.1.advanceJob hjobs hj, hx.2.advanceJob hx.1.sound hjobs hj⟩
  have hsubmitted := hx.1.sound.submitted_of_job hx.2 hj
  rw [session, advanceJob_raises hjob] at hsubmitted
  exact absurd hsubmitted (by decide)

/-! ## The next boundary -/

/-- After a step a later tick is named while anything is on its way. -/
theorem Settled.wakes (h : Settled now s) (hbusy : s.jobs ≠ [] ∨
      ∃ p ∈ s.requests ++ s.resetRequest.toList, now < p.arrival) :
    ∃ b, s.nextBoundary now = some b ∧ now < b := by
  have htick : ∃ tick, tick ∈ (s.requests ++ s.resetRequest.toList).flatMap requestBoundaries ++
      s.jobs.flatMap s.jobBoundaries ∧ now < tick := by
    rcases hbusy with hjobs | ⟨p, hp, harrival⟩
    · obtain ⟨j, hj⟩ := List.exists_mem_of_ne_nil _ hjobs
      have hmem : ∀ tick ∈ s.jobBoundaries j, tick ∈ (s.requests ++
          s.resetRequest.toList).flatMap requestBoundaries ++ s.jobs.flatMap s.jobBoundaries :=
        fun tick htick => List.mem_append_right _ (List.mem_flatMap.2 ⟨j, hj, htick⟩)
      obtain ⟨-, hcompletion, harrival⟩ := h.job j hj
      cases hcompleted : j.completed with
      | false => exact ⟨j.completion, hmem _ (by simp [jobBoundaries]), hcompletion hcompleted⟩
      | true =>
        cases hready : j.arrival with
        | some arrival =>
          exact ⟨arrival, hmem _ (by simp [jobBoundaries, hready]), harrival arrival hready⟩
        | none =>
          refine ⟨s.rxAvailable, hmem _ (by simp [jobBoundaries, hready, hcompleted]), ?_⟩
          exact h.ready j hj (by simp [Job.ready, hcompleted, hready])
    · refine ⟨p.arrival, List.mem_append_left _ (List.mem_flatMap.2 ⟨p, hp, ?_⟩), harrival⟩
      simp [requestBoundaries]
  obtain ⟨tick, hmem, hlate⟩ := htick
  cases hnext : s.nextBoundary now with
  | some b => exact ⟨b, rfl, lt_nextBoundary hnext⟩
  | none => exact absurd (lt_of_boundary (t := tick) (by simp [hnext]) hmem hlate) (lt_irrefl _)

end Steps
end DecoderSystem

/-! ## Runs -/

open DecoderSystem in
theorem DecoderRun.bounded {config : DecoderSystemConfig} {history : DecoderHistory}
    {s : DecoderSystem} (run : DecoderRun config history s) : Bounded s := by
  induction run with
  | make h =>
    simp only [DecoderSystem.make, Except.bind_eq_ok_iff, Except.pure_eq_ok_iff] at h
    obtain ⟨mmio, -, _, -, _, -, rfl⟩ := h
    exact .initial rfl rfl rfl
  | access run h ih => exact ih.access h
  | fault run h ih =>
    obtain rfl | ⟨key, rfl⟩ := DecoderSystem.access_raises h
    · exact ih
    · exact ih.openSession
  | step run h ih => exact ih.step run.sound h
  | reset run ih => exact .initial rfl rfl rfl

open DecoderSystem in
/-- What holds of the sessions, the jobs and the queue in every state of a run. -/
structure Consistent (config : DecoderSystemConfig) (s : DecoderSystem) : Prop where
  /-- A session has submitted a window exactly when it has one job, and has never more. -/
  submitted : ∀ core decoder, ((s.session (core, decoder)).submitted = true ↔
      s.jobs.countP (fun j => j.core = core ∧ j.decoder = decoder) = 1) ∧
    s.jobs.countP (fun j => j.core = core ∧ j.decoder = decoder) ≤ 1
  /-- Whenever the jobs are advanced, each finds its session. -/
  found : ∀ now epoch s₁ l₁, (advanceTransmission now epoch).Returns s () s₁ l₁ →
    ∀ f s₂ l₂, ¬ (advanceJobs now epoch).Raises s₁ f s₂ l₂
  results : (s.sessions.toList.countP fun entry => entry.2.result.isSome ∨ entry.2.submitted) ≤
    config.resultCapacity
  requests : s.requests.length ≤ config.requestCapacity
  ordered : s.requests.Pairwise fun p q => p.id < q.id ∧ p.sent < q.sent ∧ p.arrival < q.arrival
  /-- The window of a session is incomplete, and empty where there is no such decoder. -/
  windows : ∀ core, (∀ d ∈ config.decoders,
      (s.session (core, d.id)).measurements.length < d.measurements) ∧
    ∀ id, id ∉ config.decoders.map (·.id) → (s.session (core, id)).measurements = []
  /-- After a step a later tick is named while there is a job or a request has not arrived. -/
  wakes : ∀ now epoch s' l, (step now epoch).Returns s () s' l →
    (s'.jobs ≠ [] ∨ ∃ p ∈ s'.requests ++ s'.resetRequest.toList, now < p.arrival) →
      ∃ b, s'.nextBoundary now = some b ∧ now < b

/-- In every state of a run of the decoders, with any accesses, steps and resets. -/
theorem decoder_consistent {config : DecoderSystemConfig} {history : DecoderHistory}
    {s : DecoderSystem} (run : DecoderRun config history s) : Consistent config s := by
  have hsound := run.sound
  have hbounded := run.bounded
  have hconfig := hsound.configured
  constructor
  · intro core decoder
    have hcount : s.jobs.countP (fun j => j.core = core ∧ j.decoder = decoder) =
        (s.session (core, decoder)).submitted.toNat := by
      rw [← hsound.submitted hbounded (core, decoder), List.countP_eq_length_filter]
      rfl
    rw [hcount]
    cases (s.session (core, decoder)).submitted <;> simp
  · exact fun now epoch s₁ l₁ ht f s₂ l₂ => hbounded.not_raises_advanceJobs hsound ht
  · exact hconfig ▸ hbounded.reserved
  · exact hconfig ▸ hbounded.requests
  · have hsent := List.pairwise_map.1 hbounded.sent
    exact hsound.sorted.imp₂ (fun p q hbefore hlt => ⟨hbefore.1, hlt, hbefore.2⟩) hsent
  · intro core
    constructor
    · intro d hd
      obtain ⟨groups, part, hserves⟩ := hsound.serves (core, d.id) d (run.decoder hd)
      exact hserves.short
    · intro id hid
      by_contra hne
      obtain ⟨d, hd⟩ := hbounded.unknown (core, id) (.inr hne)
      obtain ⟨hmem, rfl⟩ := DecoderSystem.mem_of_decoder hd
      exact hid (List.mem_map_of_mem (hconfig ▸ hmem))
  · exact fun now epoch s' l hstep => (DecoderSystem.settled_of_step hstep).wakes

/-- A window is decoded while a packet of another core is on its way. -/
theorem decoder_consistent_parity : ∃ history s, DecoderRun parityConfig history s ∧
    s.jobs.length = 1 ∧ s.requests.length = 1 ∧ Consistent parityConfig s := by
  have hplay : ((({} : DecoderHistory).play parityDecoders (parityCalls.take 24)).any fun x =>
      x.2.jobs.length = 1 ∧ x.2.requests.length = 1) = true := by decide +kernel
  rw [Option.any_eq_true] at hplay
  obtain ⟨⟨history, s⟩, hplay, hfacts⟩ := hplay
  simp only [decide_eq_true_eq] at hfacts
  have run : DecoderRun parityConfig history s := (DecoderRun.make rfl).play hplay
  exact ⟨history, s, run, hfacts.1, hfacts.2, decoder_consistent run⟩

end Qsbit

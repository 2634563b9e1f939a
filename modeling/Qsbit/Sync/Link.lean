import Qsbit.Sync.Run

/-!
# The law of a synchronization link

Signals leave a link in the order in which they were sent, each once, and never
before their delay has passed. A signal that has been consumed stays stored until
the sender looks at the link on a later tick, so it takes its place for the rest of
the tick; this makes the verdict on a send independent of what the receiver does on
that tick.

## Main definitions

* `LinkHistory` — what has been sent and received on a link.
* `LinkRun` — calls on any links, with the history of one.
* `LinkLaw` — what holds of the link after any calls.
-/
namespace Qsbit
namespace SyncNetwork

/-- The ticks on which signals were sent, and the arrivals of those received with the ticks on which
they were. -/
structure LinkHistory where
  sent : List ℕ := []
  received : List (ℕ × ℕ) := []

/-- Calls on any links of a network, none before an earlier one, with the history of one link. -/
inductive LinkRun (clock : Clock) (connections : List SyncConnection) (source target : ℕ) :
    ℕ → LinkHistory → SyncNetwork → Prop
  | make {n : SyncNetwork} (h : make clock connections = .ok n) :
      LinkRun clock connections source target 0 {} n
  | preflight {now later s t : ℕ} {history : LinkHistory} {n : SyncNetwork}
      (run : LinkRun clock connections source target now history n) (hlater : now ≤ later) :
      LinkRun clock connections source target later history (preflight s t later n).state
  | send {now later s t : ℕ} {history : LinkHistory} {n n' : SyncNetwork} {l : List TraceEvent}
      (run : LinkRun clock connections source target now history n) (hlater : now ≤ later)
      (h : (send s t later).Returns n () n' l) :
      LinkRun clock connections source target later
        (if s = source ∧ t = target then { history with sent := history.sent ++ [later] }
          else history) n'
  | refused {now later s t : ℕ} {history : LinkHistory} {n n' : SyncNetwork} {f : Fault}
      {l : List TraceEvent} (run : LinkRun clock connections source target now history n)
      (hlater : now ≤ later) (h : (send s t later).Raises n f n' l) :
      LinkRun clock connections source target later history n'
  | receive {now later s t : ℕ} {history : LinkHistory} {n n' : SyncNetwork} {reply : Option ℕ}
      {l : List TraceEvent} (run : LinkRun clock connections source target now history n)
      (hlater : now ≤ later) (h : (receive s t later).Returns n reply n' l) :
      LinkRun clock connections source target later
        (if s = source ∧ t = target then
          { history with received := history.received ++ reply.toList.map fun a => (a, later) }
          else history) n'

/-- What the history of a link says about its signals. -/
structure LinkLaw (history : LinkHistory) (link : Link) : Prop where
  /-- Those received are the first ones sent, in order. -/
  received : history.received.map Prod.fst =
    (history.sent.take history.received.length).map (· + link.delay)
  late : ∀ r ∈ history.received, r.1 ≤ r.2
  /-- Those not consumed are all the others. -/
  unconsumed : link.waiting = (history.sent.drop history.received.length).map (· + link.delay)
  stored : link.signals.length ≤ link.capacity

section Links
variable {history : LinkHistory} {link : Link} {now : ℕ}

theorem LinkLaw.length_le (h : LinkLaw history link) :
    history.received.length ≤ history.sent.length := by
  have hlength := congrArg List.length h.received
  rw [List.length_map, List.length_map, List.length_take] at hlength
  omega

/-- Forgetting consumed signals loses nothing. -/
theorem LinkLaw.prune (h : LinkLaw history link) : LinkLaw history (link.prune now) where
  received := h.received
  late := h.late
  unconsumed := by
    rw [waiting_prune]
    exact h.unconsumed
  stored := (List.length_filter_le _ _).trans h.stored

theorem LinkLaw.send (h : LinkLaw history link) (hroom : link.signals.length < link.capacity) :
    LinkLaw { history with sent := history.sent ++ [now] }
      { link with signals := link.signals ++ [{ arrival := now + link.delay }] } := by
  have hle := h.length_le
  constructor
  · rw [List.take_append_of_le_length hle]
    exact h.received
  · exact h.late
  · have hwaiting := h.unconsumed
    rw [List.drop_append_of_le_length hle, List.map_append, ← hwaiting]
    simp [Link.waiting]
  · rw [List.length_append]
    exact hroom

theorem length_consume {signals signals' : List Signal} {arrival : ℕ}
    (h : consume now signals = some (arrival, signals')) : signals'.length = signals.length ∧
      (signals'.filter fun s => ∀ tick ∈ s.consumed, now ≤ tick).length =
        (signals.filter fun s => ∀ tick ∈ s.consumed, now ≤ tick).length := by
  induction signals generalizing signals' with
  | nil => simp [consume] at h
  | cons s rest ih =>
    rw [consume] at h
    by_cases hs : s.consumed = none ∧ s.arrival ≤ now
    · rw [if_pos hs] at h
      obtain ⟨rfl, rfl⟩ := Prod.mk.inj (Option.some.inj h)
      refine ⟨rfl, ?_⟩
      -- The signal counts while it waits, and still does on the tick of its reception.
      rw [List.filter_cons_of_pos (by simp), List.filter_cons_of_pos (by simp [hs.1])]
      rfl
    · rw [if_neg hs] at h
      simp only [Option.map_eq_some_iff, Prod.mk.injEq, Prod.exists] at h
      obtain ⟨_, found, hfound, rfl, rfl⟩ := h
      obtain ⟨hlength, hkept⟩ := ih hfound
      refine ⟨by rw [List.length_cons, List.length_cons, hlength], ?_⟩
      rw [List.filter_cons, List.filter_cons]
      split
      · rw [List.length_cons, List.length_cons, hkept]
      · exact hkept

/-- The signal received is the first one that is waiting. -/
theorem LinkLaw.receive (h : LinkLaw history link) (hsorted : history.sent.Pairwise (· ≤ ·))
    {arrival : ℕ} {signals : List Signal}
    (hconsume : consume now link.signals = some (arrival, signals)) :
    LinkLaw { history with received := history.received ++ [(arrival, now)] }
      { link with signals } := by
  have hwaiting := h.unconsumed
  have hordered : link.waiting.Pairwise (· ≤ ·) := by
    rw [hwaiting]
    refine List.pairwise_map.2 ((hsorted.sublist (List.drop_sublist _ _)).imp ?_)
    intro a b hab
    omega
  obtain ⟨hfirst, hle⟩ := waiting_of_consume hconsume hordered
  change link.waiting = _ at hfirst
  rw [hfirst] at hwaiting
  cases hdrop : history.sent.drop history.received.length with
  | nil => simp [hdrop] at hwaiting
  | cons tick rest =>
    rw [hdrop, List.map_cons] at hwaiting
    obtain ⟨harrival, hrest⟩ := List.cons.inj hwaiting
    have htake : history.sent.take (history.received.length + 1) =
        history.sent.take history.received.length ++ [tick] := by
      rw [← List.take_append_drop history.received.length history.sent, hdrop]
      have hlength : (history.sent.take history.received.length).length =
          history.received.length := List.length_take_of_le h.length_le
      rw [List.take_append_of_le_length hlength.ge, List.take_append, hlength]
      simp
    have hnext : history.sent.drop (history.received.length + 1) = rest := by
      rw [← List.drop_drop, hdrop]
      rfl
    constructor
    · rw [List.map_append, List.length_append, List.length_singleton, htake, List.map_append,
        ← h.received, harrival]
      rfl
    · intro r hr
      rcases List.mem_append.1 hr with hr | hr
      · exact h.late r hr
      · rw [List.mem_singleton.1 hr]
        exact hle
    · rw [List.length_append, List.length_singleton, hnext]
      exact hrest
    · exact (length_consume hconsume).1.le.trans h.stored

end Links

/-! ## One call -/

section Calls
variable {n n' : SyncNetwork} {s t now : ℕ} {f : Fault} {reply : Option ℕ} {u : Unit}
  {l : List TraceEvent}

/-- The checks on a signal change nothing but that the link may be pruned. -/
theorem preflight_state : (preflight s t now n).state = n ∨
    (preflight s t now n).state = n.modifyLink s t (Link.prune now) := by
  cases hresult : preflight s t now n with
  | mk result n' l =>
    cases result with
    | ok u =>
      have h : (preflight s t now).Returns n u n' l := hresult
      simp only [preflight, Proc.returns_get_bind_iff, Proc.returns_lift_bind_iff,
        Proc.returns_set_bind_iff, Proc.returns_pure_iff] at h
      obtain ⟨-, -, -, -, -, -, -, -, -, -, -, rfl, -⟩ := h
      exact .inr rfl
    | error f =>
      have h : (preflight s t now).Raises n f n' l := hresult
      rw [preflight, Proc.raises_get_bind_iff] at h
      rcases Proc.raises_lift_bind_iff.1 h with ⟨-, rfl, -⟩ | ⟨_, -, h⟩
      · exact .inl rfl
      rcases Proc.raises_lift_bind_iff.1 h with ⟨-, rfl, -⟩ | ⟨_, -, h⟩
      · exact .inl rfl
      rw [Proc.raises_set_bind_iff, Proc.raises_get_bind_iff] at h
      iterate 3
        rcases Proc.raises_lift_bind_iff.1 h with ⟨-, rfl, -⟩ | ⟨_, -, h⟩
        · exact .inr rfl
      exact absurd h Proc.not_raises_pure

/-- A signal is put behind the others where there is room. -/
theorem send_link (h : (send s t now).Returns n u n' l) : ∃ link, n.link s t = some link ∧
    (link.prune now).signals.length < link.capacity ∧
      n' = (n.modifyLink s t (Link.prune now)).modifyLink s t fun x =>
        { x with signals := x.signals ++ [{ arrival := now + link.delay }] } := by
  obtain ⟨_, n₁, l₁, l₂, hpreflight, h, -⟩ := Proc.returns_bind_iff.1 h
  simp only [preflight, Proc.returns_get_bind_iff, Proc.returns_lift_bind_iff, require_eq_ok_iff,
    exists_const, Proc.returns_set_bind_iff, Proc.returns_pure_iff] at hpreflight
  obtain ⟨d, hd, -, hroom, _, -, _, -, -, rfl, -⟩ := hpreflight
  obtain ⟨link, hlink, -⟩ := delay_eq_ok hd
  have hpruned : (n.modifyLink s t (Link.prune now)).link s t = some (link.prune now) := by
    rw [link_modifyLink, if_pos ⟨rfl, rfl⟩, hlink]
    rfl
  refine ⟨link, hlink, hroom _ hpruned, ?_⟩
  simp only [Proc.returns_get_bind_iff, Proc.returns_lift_bind_iff, Proc.returns_set_iff] at h
  obtain ⟨d', hd', arrival, harrival, rfl, -⟩ := h
  obtain ⟨link', hlink', rfl⟩ := delay_eq_ok hd'
  obtain rfl := Option.some.inj (hpruned.symm.trans hlink')
  rw [eq_of_checkedAdd harrival]
  rfl

theorem send_refused (h : (send s t now).Raises n f n' l) :
    n' = n ∨ n' = n.modifyLink s t (Link.prune now) := by
  have hstate : (preflight s t now n).state = n ∨
      (preflight s t now n).state = n.modifyLink s t (Link.prune now) := preflight_state
  rcases Proc.raises_bind_iff.1 h with h | ⟨_, n₁, l₁, l₂, hpreflight, h, -⟩
  · rwa [show (preflight s t now n).state = n' from congrArg (·.state) h] at hstate
  · rw [show (preflight s t now n).state = n₁ from congrArg (·.state) hpreflight] at hstate
    rw [Proc.raises_get_bind_iff] at h
    iterate 2
      rcases Proc.raises_lift_bind_iff.1 h with ⟨-, rfl, -⟩ | ⟨_, -, h⟩
      · exact hstate
    exact absurd h Proc.not_raises_set

theorem receive_link (h : (receive s t now).Returns n reply n' l) : ∃ link, n.link s t = some link ∧
    ((reply = none ∧ n' = n) ∨ ∃ arrival signals, reply = some arrival ∧
      consume now link.signals = some (arrival, signals) ∧
      n' = n.modifyLink s t fun link => { link with signals }) := by
  simp only [receive, Proc.returns_get_bind_iff] at h
  cases hlink : n.link s t with
  | none => simp [hlink] at h
  | some link =>
    refine ⟨link, rfl, ?_⟩
    simp only [hlink] at h
    cases hconsume : consume now link.signals with
    | none =>
      simp only [hconsume, Proc.returns_pure_iff] at h
      exact .inl ⟨h.1.symm, h.2.1.symm⟩
    | some found =>
      obtain ⟨arrival, signals⟩ := found
      simp only [hconsume, Proc.returns_set_bind_iff, Proc.returns_pure_iff] at h
      exact .inr ⟨arrival, signals, h.1.symm, rfl, h.2.1.symm⟩

theorem capacity_prune {link : Link} : (link.prune now).capacity = link.capacity := rfl

theorem result_send {link : Link} (hlink : n.link s t = some link) : (send s t now n).result = (do
    require (n.clock.edge now) .protocol "sync signal sent off-edge"
    require ((link.prune now).signals.length < link.capacity)
      .capacity "synchronization link capacity exceeded"
    let _ ← checkedAdd now link.delay
    pure ()) := by
  have hpruned : (n.modifyLink s t (Link.prune now)).link s t = some (link.prune now) := by
    rw [link_modifyLink, if_pos ⟨rfl, rfl⟩, hlink]
    rfl
  have hdelay : n.delay s t = .ok link.delay := by rw [delay, hlink]; rfl
  have hdelay' : (n.modifyLink s t (Link.prune now)).delay s t = .ok link.delay := by
    rw [delay, hpruned]
    rfl
  unfold send preflight
  simp only [Proc.bind_assoc, Proc.result_get_bind, Proc.result_set_bind, Proc.result_lift_bind,
    Proc.pure_bind, hdelay, hdelay', hpruned, Option.mem_some, forall_eq', capacity_prune]
  cases require (n.clock.edge now) .protocol "sync signal sent off-edge" with
  | error f => rfl
  | ok u =>
    cases require ((link.prune now).signals.length < link.capacity) .capacity
        "synchronization link capacity exceeded" with
    | error f => rfl
    | ok u =>
      simp only [bind, Except.bind]
      cases checkedAdd now link.delay <;> rfl

/-- The verdict on a send depends on its link alone, and there on the signals that are not
forgotten. -/
theorem result_send_congr (hclock : n'.clock = n.clock)
    (hlink : (n'.link s t).map (fun link =>
        (link.delay, link.capacity, (link.prune now).signals.length)) =
      (n.link s t).map fun link => (link.delay, link.capacity, (link.prune now).signals.length)) :
    (send s t now n').result = (send s t now n).result := by
  cases hn : n.link s t with
  | none =>
    cases hn' : n'.link s t with
    | some link' => simp [hn, hn'] at hlink
    | none =>
      unfold send preflight
      simp only [Proc.bind_assoc, Proc.result_get_bind, Proc.result_lift_bind, delay, hn, hn']
      rfl
  | some link =>
    cases hn' : n'.link s t with
    | none => simp [hn, hn'] at hlink
    | some link' =>
      rw [hn, hn', Option.map_some, Option.map_some, Option.some_inj, Prod.mk.injEq,
        Prod.mk.injEq] at hlink
      obtain ⟨hdelay, hcapacity, hlength⟩ := hlink
      rw [result_send hn, result_send hn', hclock, hdelay, hcapacity, hlength]

/-- On the tick of a reception a send has the same verdict before and after it. -/
theorem result_send_of_receive {x y : ℕ} (h : (receive x y now).Returns n reply n' l) :
    (send s t now n').result = (send s t now n).result := by
  obtain ⟨link, hlink, ⟨-, rfl⟩ | ⟨arrival, signals, -, hconsume, rfl⟩⟩ := receive_link h
  · rfl
  · refine result_send_congr rfl ?_
    rw [link_modifyLink]
    by_cases hsame : x = s ∧ y = t
    · obtain ⟨rfl, rfl⟩ := hsame
      rw [if_pos ⟨rfl, rfl⟩, hlink]
      have hlength := (length_consume hconsume).2
      simp only [Option.map_some, Link.prune, hlength]
    · rw [if_neg hsame]

end Calls

/-! ## Runs -/

section Runs
variable {clock : Clock} {connections : List SyncConnection} {source target now : ℕ}
  {history : LinkHistory} {n : SyncNetwork}

/-- Signals were sent one after the other, none later than now. -/
def LinkHistory.Ordered (history : LinkHistory) (now : ℕ) : Prop :=
  history.sent.Pairwise (· ≤ ·) ∧ ∀ tick ∈ history.sent, tick ≤ now

theorem LinkHistory.Ordered.later (h : history.Ordered now) {later : ℕ} (hle : now ≤ later) :
    history.Ordered later := ⟨h.1, fun tick htick => (h.2 tick htick).trans hle⟩

/-- What prunes a link keeps to its law. -/
theorem law_of_pruned {n' : SyncNetwork} {s t later : ℕ}
    (h : ∀ link, n.link source target = some link → LinkLaw history link)
    (hn' : n' = n ∨ n' = n.modifyLink s t (Link.prune later)) :
    ∀ link, n'.link source target = some link → LinkLaw history link := by
  rcases hn' with rfl | rfl
  · exact h
  · intro link hlink
    rw [link_modifyLink] at hlink
    split at hlink
    · obtain ⟨link, hfound, rfl⟩ := Option.map_eq_some_iff.1 hlink
      exact (h link hfound).prune
    · exact h link hlink

theorem LinkRun.law (run : LinkRun clock connections source target now history n) :
    history.Ordered now ∧ ∀ link, n.link source target = some link → LinkLaw history link := by
  induction run with
  | make h =>
    refine ⟨⟨.nil, by simp⟩, fun link hlink => ?_⟩
    have hempty := ((connected_of_make h).1 _ _ _ hlink).empty
    exact ⟨rfl, by simp, by simp [Link.waiting, hempty], by simp [hempty]⟩
  | preflight run hlater ih => exact ⟨ih.1.later hlater, law_of_pruned ih.2 preflight_state⟩
  | refused run hlater h ih => exact ⟨ih.1.later hlater, law_of_pruned ih.2 (send_refused h)⟩
  | @send now later s t history n n' l run hlater h ih =>
    obtain ⟨horder, hlaw⟩ := ih
    obtain ⟨link, hlink, hroom, rfl⟩ := send_link h
    by_cases hsame : s = source ∧ t = target
    · obtain ⟨rfl, rfl⟩ := hsame
      rw [if_pos ⟨rfl, rfl⟩]
      refine ⟨⟨?_, ?_⟩, ?_⟩
      · refine List.pairwise_append.2 ⟨horder.1, List.pairwise_singleton _ _, fun a ha b hb => ?_⟩
        rw [List.mem_singleton.1 hb]
        exact (horder.2 a ha).trans hlater
      · intro tick htick
        rcases List.mem_append.1 htick with htick | htick
        · exact (horder.2 tick htick).trans hlater
        · exact (List.mem_singleton.1 htick).le
      · intro link' hlink'
        rw [link_modifyLink, if_pos ⟨rfl, rfl⟩, link_modifyLink, if_pos ⟨rfl, rfl⟩, hlink] at hlink'
        obtain rfl := Option.some.inj hlink'
        exact (hlaw link hlink).prune.send hroom
    · rw [if_neg hsame]
      refine ⟨horder.later hlater, fun link' hlink' => hlaw link' ?_⟩
      rwa [link_modifyLink, if_neg hsame, link_modifyLink, if_neg hsame] at hlink'
  | @receive now later s t history n n' reply l run hlater h ih =>
    obtain ⟨horder, hlaw⟩ := ih
    obtain ⟨link, hlink, ⟨rfl, rfl⟩ | ⟨arrival, signals, rfl, hconsume, rfl⟩⟩ := receive_link h
    · refine ⟨?_, ?_⟩
      · split
        · simpa using horder.later hlater
        · exact horder.later hlater
      · split
        · simpa using hlaw
        · exact hlaw
    · by_cases hsame : s = source ∧ t = target
      · obtain ⟨rfl, rfl⟩ := hsame
        rw [if_pos ⟨rfl, rfl⟩]
        refine ⟨horder.later hlater, fun link' hlink' => ?_⟩
        rw [link_modifyLink, if_pos ⟨rfl, rfl⟩, hlink] at hlink'
        obtain rfl := Option.some.inj hlink'
        exact (hlaw link hlink).receive horder.1 hconsume
      · rw [if_neg hsame]
        refine ⟨horder.later hlater, fun link' hlink' => hlaw link' ?_⟩
        rwa [link_modifyLink, if_neg hsame] at hlink'

/-- After any calls the signals received are the first ones sent, in order, none before its arrival;
the others are unconsumed, all that are stored fit the capacity, and a reception does not change the
verdict on a send of its tick. -/
theorem link_law (run : LinkRun clock connections source target now history n) :
    (∀ link, n.link source target = some link → LinkLaw history link) ∧
      ∀ tick reply n' l, (receive source target tick).Returns n reply n' l →
        (send source target tick n').result = (send source target tick n).result :=
  ⟨run.law.2, fun _ _ _ _ h => result_send_of_receive h⟩

/-- Two signals are sent, and the first one is received. -/
theorem link_law_uneven : ∃ n link,
    LinkRun { period := 4 } [SyncSystem.unevenLink] 1 2 8
      { sent := [0, 4], received := [(8, 8)] } n ∧
    n.link 1 2 = some link ∧ link.waiting = [12] ∧
      LinkLaw { sent := [0, 4], received := [(8, 8)] } link := by
  let n₁ := (send 1 2 0 SyncSystem.unevenNetwork).state
  let n₂ := (send 1 2 4 n₁).state
  let n₃ := (receive 1 2 8 n₂).state
  have hmade : make { period := 4 } [SyncSystem.unevenLink] = .ok SyncSystem.unevenNetwork :=
    Except.eq_ok_get SyncSystem.isSome_unevenLink
  have h₁ : (send 1 2 0).Returns SyncSystem.unevenNetwork () n₁ _ :=
    Proc.returns_of_isSome (by decide +kernel)
  have h₂ : (send 1 2 4).Returns n₁ () n₂ _ := Proc.returns_of_isSome (by decide +kernel)
  have h₃ : (receive 1 2 8).Returns n₂ (some 8) n₃ _ :=
    Proc.returns_of_result (by decide +kernel)
  have run : LinkRun { period := 4 } [SyncSystem.unevenLink] 1 2 8
      { sent := [0, 4], received := [(8, 8)] } n₃ :=
    (((LinkRun.make hmade).send le_rfl h₁).send (by decide) h₂).receive (by decide) h₃
  have hdelay : (n₃.link 1 2).map (·.delay) = some 8 := by decide +kernel
  obtain ⟨link, hlink, hdelay⟩ := Option.map_eq_some_iff.1 hdelay
  have hlaw := (link_law run).1 link hlink
  refine ⟨n₃, link, run, hlink, ?_, hlaw⟩
  rw [hlaw.unconsumed, hdelay]
  rfl

end Runs
end SyncNetwork
end Qsbit

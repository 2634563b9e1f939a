import Qsbit.Lib.Rendezvous
import Qsbit.Sync

/-!
# Runs of synchronization units

Any number of units share a network. On every tick they are stepped and booked in
any order. What has happened is read off the records the units have traced and the
pauses they have reported. Each of two neighbours, stepped once on every tick, is
one side of a `Rendezvous`.

## Main definitions

* `SyncSystem`, `SyncSystem.Acts` — the units of a network, and one action.
* `SyncRun` — ticks on which two units are stepped once.
* `SyncSystem.side` — a unit's side of its meetings with a neighbour.
* `neighbour_synchronization` — when two neighbours complete and pause.
-/
namespace Qsbit

/-- The units of a network, with what each has traced and the pauses it has reported. -/
structure SyncSystem where
  network : SyncNetwork
  units : ℕ → SyncUnit
  log : ℕ → List TraceEvent := fun _ => []
  pauses : ℕ → List (ℕ × Bool) := fun _ => []

inductive SyncAction
  | preflight (core : ℕ) (targets : List ℕ)
  | book (core : ℕ) (targets : List ℕ)
  | step (core : ℕ)
  deriving DecidableEq, Repr

namespace SyncSystem

/-- The records of a kind that are about a neighbour. -/
def about (kind : TraceKind) (neighbour : ℕ) (log : List TraceEvent) : List TraceEvent :=
  log.filter fun e => e.kind = kind ∧ e.targets = [neighbour]

/-- The ticks on which a unit has booked a neighbour. -/
def bookings (w : SyncSystem) (core neighbour : ℕ) : List ℕ :=
  (about .syncBooked neighbour (w.log core)).map (·.tick)

/-- The ticks on which a unit has received signals of a neighbour, and their arrivals. -/
def receptions (w : SyncSystem) (core neighbour : ℕ) : List (ℕ × ℕ) :=
  (about .syncReceived neighbour (w.log core)).map fun e => (e.tick, e.value)

/-- The ticks on which a unit's bookings of a neighbour have completed. -/
def completions (w : SyncSystem) (core neighbour : ℕ) : List ℕ :=
  (about .syncCompleted neighbour (w.log core)).map (·.tick)

/-- One unit has changed. -/
def update (w : SyncSystem) (core : ℕ) (u : SyncUnit) (network : SyncNetwork)
    (log : List TraceEvent) (pauses : List (ℕ × Bool)) : SyncSystem where
  network := network
  units := Function.update w.units core u
  log := Function.update w.log core (w.log core ++ log)
  pauses := Function.update w.pauses core (w.pauses core ++ pauses)

/-- One action of a unit on tick `now`. -/
inductive Acts (now epoch : ℕ) (w : SyncSystem) : SyncAction → SyncSystem → Prop
  | preflight {core : ℕ} {targets : List ℕ} {u : SyncUnit} {network : SyncNetwork}
      {log : List TraceEvent} (h : (SyncUnit.preflight targets now).Returns (w.units core, w.network)
        () (u, network) log) :
      Acts now epoch w (.preflight core targets) (w.update core u network log [])
  | book {core : ℕ} {targets : List ℕ} {u : SyncUnit} {network : SyncNetwork}
      {log : List TraceEvent} (h : (SyncUnit.book targets now epoch).Returns
        (w.units core, w.network) () (u, network) log) :
      Acts now epoch w (.book core targets) (w.update core u network log [])
  | step {core : ℕ} {paused : Bool} {u : SyncUnit} {network : SyncNetwork} {log : List TraceEvent}
      (h : (SyncUnit.step now epoch).Returns (w.units core, w.network) paused (u, network) log) :
      Acts now epoch w (.step core) (w.update core u network log [(now, paused)])

/-- The actions of one tick, in order. -/
inductive ActsAll (now epoch : ℕ) : SyncSystem → List SyncAction → SyncSystem → Prop
  | nil {w : SyncSystem} : ActsAll now epoch w [] w
  | cons {w w₁ w₂ : SyncSystem} {action : SyncAction} {rest : List SyncAction}
      (h : Acts now epoch w action w₁) (all : ActsAll now epoch w₁ rest w₂) :
      ActsAll now epoch w (action :: rest) w₂

end SyncSystem

open SyncSystem

/-- Ticks from `start` on, up to but not including the last argument; the units `first` and
`second` are stepped once on each of them, the others at will. -/
inductive SyncRun (clock : Clock) (connections : List SyncConnection) (epoch first second start : ℕ) :
    SyncSystem → ℕ → Prop
  | start {network : SyncNetwork} (made : SyncNetwork.make clock connections = .ok network)
      (edge : clock.edge start) :
      SyncRun clock connections epoch first second start { network, units := fun core => { core } }
        start
  | tick {w w' : SyncSystem} {now : ℕ} {actions : List SyncAction}
      (run : SyncRun clock connections epoch first second start w now)
      (acts : ActsAll now epoch w actions w') (stepped : actions.count (.step first) = 1)
      (stepped' : actions.count (.step second) = 1) :
      SyncRun clock connections epoch first second start w' (now + clock.period)

namespace SyncSystem

/-- A unit's side of its meetings with a neighbour. -/
def side (w : SyncSystem) (core neighbour : ℕ) : Rendezvous where
  mine := w.bookings core neighbour
  theirs := w.bookings neighbour core
  received := (w.receptions core neighbour).map Prod.fst
  done := w.completions core neighbour
  polls := w.pauses core

/-- Evaluate one action. -/
def act (now epoch : ℕ) (w : SyncSystem) : SyncAction → Except Fault SyncSystem
  | .preflight core targets => do
      let outcome := SyncUnit.preflight targets now (w.units core, w.network)
      outcome.result
      pure (w.update core outcome.state.1 outcome.state.2 outcome.log [])
  | .book core targets => do
      let outcome := SyncUnit.book targets now epoch (w.units core, w.network)
      outcome.result
      pure (w.update core outcome.state.1 outcome.state.2 outcome.log [])
  | .step core => do
      let outcome := SyncUnit.step now epoch (w.units core, w.network)
      let paused ← outcome.result
      pure (w.update core outcome.state.1 outcome.state.2 outcome.log [(now, paused)])

def actAll (now epoch : ℕ) (w : SyncSystem) : List SyncAction → Except Fault SyncSystem
  | [] => pure w
  | action :: rest => do actAll now epoch (← act now epoch w action) rest

/-- Evaluate consecutive ticks. -/
def drive (period epoch now : ℕ) (w : SyncSystem) :
    List (List SyncAction) → Except Fault (SyncSystem × ℕ)
  | [] => pure (w, now)
  | actions :: rest => do drive period epoch (now + period) (← actAll now epoch w actions) rest

theorem acts_of_act {now epoch : ℕ} {w w' : SyncSystem} {action : SyncAction}
    (h : act now epoch w action = .ok w') : Acts now epoch w action w' := by
  cases action with
  | preflight core targets =>
    simp only [act, Except.bind_eq_ok_iff, Except.pure_eq_ok_iff] at h
    rcases hx : SyncUnit.preflight targets now (w.units core, w.network) with ⟨result, ⟨u, n⟩, l⟩
    rw [hx] at h
    obtain ⟨_, hresult, rfl⟩ := h
    obtain rfl : result = .ok () := hresult
    exact .preflight hx
  | book core targets =>
    simp only [act, Except.bind_eq_ok_iff, Except.pure_eq_ok_iff] at h
    rcases hx : SyncUnit.book targets now epoch (w.units core, w.network) with ⟨result, ⟨u, n⟩, l⟩
    rw [hx] at h
    obtain ⟨_, hresult, rfl⟩ := h
    obtain rfl : result = .ok () := hresult
    exact .book hx
  | step core =>
    simp only [act, Except.bind_eq_ok_iff, Except.pure_eq_ok_iff] at h
    rcases hx : SyncUnit.step now epoch (w.units core, w.network) with ⟨result, ⟨u, n⟩, l⟩
    rw [hx] at h
    obtain ⟨paused, hresult, rfl⟩ := h
    obtain rfl : result = .ok paused := hresult
    exact .step hx

theorem actsAll_of_actAll {now epoch : ℕ} {w w' : SyncSystem} {actions : List SyncAction}
    (h : actAll now epoch w actions = .ok w') : ActsAll now epoch w actions w' := by
  induction actions generalizing w with
  | nil =>
    rw [← Except.pure_eq_ok_iff.1 h]
    exact .nil
  | cons action rest ih =>
    simp only [actAll, Except.bind_eq_ok_iff] at h
    obtain ⟨w₁, hact, hrest⟩ := h
    exact .cons (acts_of_act hact) (ih hrest)

theorem run_of_drive {clock : Clock} {connections : List SyncConnection}
    {epoch first second start now : ℕ} {w : SyncSystem} {last : SyncSystem × ℕ}
    {ticks : List (List SyncAction)}
    (run : SyncRun clock connections epoch first second start w now)
    (hcount : ∀ actions ∈ ticks, actions.count (.step first) = 1 ∧ actions.count (.step second) = 1)
    (h : drive clock.period epoch now w ticks = .ok last) :
    SyncRun clock connections epoch first second start last.1 last.2 := by
  induction ticks generalizing w now with
  | nil =>
    rw [← Except.pure_eq_ok_iff.1 h]
    exact run
  | cons actions rest ih =>
    simp only [drive, Except.bind_eq_ok_iff] at h
    obtain ⟨w₁, hall, hrest⟩ := h
    obtain ⟨hfirst, hsecond⟩ := hcount actions (by simp)
    exact ih (run.tick (actsAll_of_actAll hall) hfirst hsecond)
      (fun a ha => hcount a (by simp [ha])) hrest

/-! ## One action -/

section Update
variable (w : SyncSystem) {core c : ℕ} (neighbour : ℕ) (u : SyncUnit) (network : SyncNetwork)
  (log : List TraceEvent) (pauses : List (ℕ × Bool))

@[simp] theorem network_update :
    (w.update core u network log pauses).network = network := rfl

@[simp] theorem units_update_self :
    (w.update core u network log pauses).units core = u := by simp [update]

@[simp] theorem units_update_of_ne (h : c ≠ core) :
    (w.update core u network log pauses).units c = w.units c := by simp [update, h]

@[simp] theorem pauses_update_self :
    (w.update core u network log pauses).pauses core = w.pauses core ++ pauses := by simp [update]

@[simp] theorem pauses_update_of_ne (h : c ≠ core) :
    (w.update core u network log pauses).pauses c = w.pauses c := by simp [update, h]

@[simp] theorem bookings_update_self :
    (w.update core u network log pauses).bookings core neighbour =
      w.bookings core neighbour ++ (about .syncBooked neighbour log).map (·.tick) := by
  simp [bookings, update, about]

@[simp] theorem bookings_update_of_ne (h : c ≠ core) :
    (w.update core u network log pauses).bookings c neighbour = w.bookings c neighbour := by
  simp [bookings, update, h]

@[simp] theorem receptions_update_self :
    (w.update core u network log pauses).receptions core neighbour = w.receptions core neighbour ++
      (about .syncReceived neighbour log).map fun e => (e.tick, e.value) := by
  simp [receptions, update, about]

@[simp] theorem receptions_update_of_ne (h : c ≠ core) :
    (w.update core u network log pauses).receptions c neighbour = w.receptions c neighbour := by
  simp [receptions, update, h]

@[simp] theorem completions_update_self :
    (w.update core u network log pauses).completions core neighbour =
      w.completions core neighbour ++ (about .syncCompleted neighbour log).map (·.tick) := by
  simp [completions, update, about]

@[simp] theorem completions_update_of_ne (h : c ≠ core) :
    (w.update core u network log pauses).completions c neighbour = w.completions c neighbour := by
  simp [completions, update, h]

end Update

@[simp] theorem about_nil (kind : TraceKind) (neighbour : ℕ) : about kind neighbour [] = [] := rfl

@[simp] theorem about_append (kind : TraceKind) (neighbour : ℕ) (l l' : List TraceEvent) :
    about kind neighbour (l ++ l') = about kind neighbour l ++ about kind neighbour l' :=
  List.filter_append l l'

@[simp] theorem about_singleton (kind : TraceKind) (neighbour : ℕ) (e : TraceEvent) :
    about kind neighbour [e] = if e.kind = kind ∧ e.targets = [neighbour] then [e] else [] := by
  simp [about, List.filter_cons]

/-- What an action has done to the unit `core`. -/
inductive Does (now epoch : ℕ) (w : SyncSystem) (core : ℕ) :
    SyncAction → SyncUnit → SyncNetwork → List TraceEvent → List (ℕ × Bool) → Prop
  | books {action : SyncAction} {targets : List ℕ} {u : SyncUnit} {network : SyncNetwork}
      {log : List TraceEvent} (ne : ∀ c, action ≠ .step c)
      (h : SyncUnit.Books now epoch (w.units core) w.network targets u network log) :
      Does now epoch w core action u network log []
  | steps {paused : Bool} {u : SyncUnit} {network : SyncNetwork} {log : List TraceEvent}
      (h : SyncUnit.Steps now epoch (w.units core) w.network paused u network log) :
      Does now epoch w core (.step core) u network log [(now, paused)]

/-- The units keep their names, the links their delays, and signals arrive in order. -/
structure Orderly (made : SyncNetwork) (now : ℕ) (w : SyncSystem) : Prop where
  core : ∀ c, (w.units c).core = c
  clock : w.network.clock = made.clock
  delay : ∀ s t, w.network.delay s t = made.delay s t
  sorted : ∀ s t, (w.network.waiting s t).Pairwise (· ≤ ·)
  waiting_le : ∀ s t d, made.delay s t = .ok d → ∀ a ∈ w.network.waiting s t, a ≤ now + d

section Action
variable {made : SyncNetwork} {now epoch core : ℕ} {w w' : SyncSystem} {action : SyncAction}
  {u : SyncUnit} {network : SyncNetwork} {log : List TraceEvent} {pauses : List (ℕ × Bool)}

theorem acts_cases (hw : Orderly made now w) (h : Acts now epoch w action w') :
    ∃ core u network log pauses, Does now epoch w core action u network log pauses ∧
      w' = w.update core u network log pauses := by
  cases h with
  | @preflight core targets u network log h =>
    obtain ⟨rfl, hsame, rfl, -⟩ := SyncUnit.preflight_returns h
    exact ⟨core, _, network, [], [], .books (by simp) (.nothing network hsame), rfl⟩
  | @book core targets u network log h =>
    exact ⟨core, u, network, log, [], .books (by simp) (SyncUnit.book_returns h), rfl⟩
  | @step core paused u network log h =>
    have hsteps := SyncUnit.step_returns (fun b _ => hw.sorted b.target (w.units core).core) h
    exact ⟨core, u, network, log, [(now, paused)], .steps hsteps, rfl⟩

theorem Orderly.of_same (hw : Orderly made now w) (hu : u.core = core)
    (h : SyncNetwork.Same w.network network) :
    Orderly made now (w.update core u network log pauses) where
  core c := by
    by_cases hc : c = core
    · rw [hc, units_update_self, hu]
    · rw [units_update_of_ne w u network log pauses hc, hw.core]
  clock := h.clock.trans hw.clock
  delay s t := (h.delay s t).trans (hw.delay s t)
  sorted s t := by
    rw [network_update, h.waiting]
    exact hw.sorted s t
  waiting_le s t d hd a ha := by
    rw [network_update, h.waiting] at ha
    exact hw.waiting_le s t d hd a ha

theorem Orderly.of_changed {source target : ℕ} {f : List ℕ → List ℕ} (hw : Orderly made now w)
    (hu : u.core = core) (h : SyncNetwork.Changed w.network source target f network)
    (hsorted : (f (w.network.waiting source target)).Pairwise (· ≤ ·))
    (hle : ∀ d, made.delay source target = .ok d →
      ∀ a ∈ f (w.network.waiting source target), a ≤ now + d) :
    Orderly made now (w.update core u network log pauses) where
  core c := by
    by_cases hc : c = core
    · rw [hc, units_update_self, hu]
    · rw [units_update_of_ne w u network log pauses hc, hw.core]
  clock := h.clock.trans hw.clock
  delay s t := (h.delay s t).trans (hw.delay s t)
  sorted s t := by
    rw [network_update]
    by_cases hst : source = s ∧ target = t
    · rw [← hst.1, ← hst.2, h.waiting]
      exact hsorted
    · rw [h.other s t hst]
      exact hw.sorted s t
  waiting_le s t d hd a ha := by
    rw [network_update] at ha
    by_cases hst : source = s ∧ target = t
    · rw [← hst.1, ← hst.2] at hd ha
      rw [h.waiting] at ha
      exact hle d hd a ha
    · rw [h.other s t hst] at ha
      exact hw.waiting_le s t d hd a ha

theorem Orderly.receives {b b' : SyncUnit.Booking} (hw : Orderly made now w) (hu : u.core = core)
    (h : SyncUnit.Receives now epoch (w.units core).core b w.network b' network log)
    (log' : List TraceEvent) : Orderly made now (w.update core u network log' pauses) := by
  cases h with
  | already => exact hw.of_same hu (.refl _)
  | missing => exact hw.of_same hu (.refl _)
  | arrived _ arrival _ _ _ changed =>
    refine hw.of_changed hu changed ?_ ?_
    · exact (hw.sorted _ _).sublist (List.tail_sublist _)
    · intro d hd a ha
      exact hw.waiting_le _ _ d hd a (List.mem_of_mem_tail ha)

theorem Orderly.acts (hw : Orderly made now w) (h : Acts now epoch w action w') :
    Orderly made now w' := by
  obtain ⟨core, u, network, log, pauses, hdoes, rfl⟩ := acts_cases hw h
  have hcore := hw.core core
  cases hdoes with
  | books ne hbooks =>
    cases hbooks with
    | nothing _ same => exact hw.of_same hcore same
    | booked target d _ free edge delay sent =>
      have hle := hw.waiting_le (w.units core).core target d ((hw.delay _ _).symm.trans delay)
      refine hw.of_changed hcore sent ?_ ?_
      · rw [List.pairwise_append]
        refine ⟨hw.sorted _ _, List.pairwise_singleton _ _, ?_⟩
        intro a ha b hb
        rw [List.mem_singleton.1 hb]
        exact hle a ha
      · intro d' hd' a ha
        obtain rfl : d' = d := Except.ok.inj (hd'.symm.trans ((hw.delay _ _).symm.trans delay))
        rcases List.mem_append.1 ha with ha | ha
        · exact hle a ha
        · exact (List.mem_singleton.1 ha).le
  | steps hsteps =>
    cases hsteps with
    | idle => exact hw.of_same hcore (.refl _)
    | completed b b' _ log pending received =>
      refine hw.receives ?_ received _
      exact hcore
    | waited b b' _ log pending received =>
      refine hw.receives ?_ received _
      exact hcore

/-! ## One unit -/

theorem same_of_receives {b b' : SyncUnit.Booking} {n : SyncNetwork}
    (h : SyncUnit.Receives now epoch core b n b' network log) :
    b'.target = b.target ∧ b'.deadline = b.deadline ∧
      (∀ t, about .syncBooked t log = []) ∧ (∀ t, about .syncCompleted t log = []) ∧
      ∀ t, t ≠ b.target → about .syncReceived t log = [] := by
  cases h with
  | already => simp
  | missing => simp
  | arrived =>
    refine ⟨rfl, rfl, ?_, ?_, ?_⟩
    · simp
    · simp
    · intro t ht
      simp [ht.symm]

/-- What holds of a unit, whatever its neighbours do: it has one booking at a time, and is paused
only past the deadline of a booking that has not completed. -/
structure Waits (made : SyncNetwork) (now frontier : ℕ) (w : SyncSystem) (core : ℕ) : Prop where
  free : ∀ target, (∀ b ∈ (w.units core).pending, b.target ≠ target) →
    (w.bookings core target).length = (w.completions core target).length
  busy : ∀ b ∈ (w.units core).pending,
    (w.bookings core b.target).length = (w.completions core b.target).length + 1 ∧
      ∃ a d : ℕ, (w.bookings core b.target)[(w.completions core b.target).length]? = some a ∧
        made.delay core b.target = .ok d ∧ b.deadline = a + d
  pauses_lt : ∀ e ∈ w.pauses core, e.1 < frontier
  blocked : ∀ e ∈ w.pauses core, e.2 = true → now ≤ e.1 → (w.units core).pending ≠ none
  overdue : ∀ e ∈ w.pauses core, e.2 = true → ∃ target n a d : ℕ,
    (w.bookings core target)[n]? = some a ∧ made.delay core target = .ok d ∧ a + d ≤ e.1 ∧
      ∀ c, (w.completions core target)[n]? = some c → e.1 < c

variable {frontier : ℕ}

theorem Waits.other {c : ℕ} (h : Waits made now frontier w c) (hc : c ≠ core) :
    Waits made now frontier (w.update core u network log pauses) c := by
  constructor
  · simpa [hc] using h.free
  · simpa [hc] using h.busy
  · simpa [hc] using h.pauses_lt
  · simpa [hc] using h.blocked
  · simpa [hc] using h.overdue

theorem Waits.books {targets : List ℕ} (h : Waits made now frontier w core)
    (hw : Orderly made now w)
    (hb : SyncUnit.Books now epoch (w.units core) w.network targets u network log) :
    Waits made now frontier (w.update core u network log []) core := by
  cases hb with
  | nothing n' same =>
    constructor
    · simpa using h.free
    · simpa using h.busy
    · simpa using h.pauses_lt
    · simpa using h.blocked
    · simpa using h.overdue
  | booked target d n' free edge delay sent =>
    have hlength : ∀ t, (w.bookings core t).length = (w.completions core t).length :=
      fun t => h.free t (by simp [free])
    rw [hw.core, hw.delay] at delay
    constructor
    · intro t ht
      have hne : ¬ target = t := ht _ (by rw [units_update_self]; rfl)
      simpa [hne] using hlength t
    · intro b hb
      rw [units_update_self] at hb
      obtain rfl : _ = b := Option.some.inj hb
      simp [hlength target, delay]
    · simpa using h.pauses_lt
    · simp
    · intro e he htrue
      rw [pauses_update_self, List.append_nil] at he
      obtain ⟨t, n, a, d', ha, hd', hle, hc⟩ := h.overdue e he htrue
      refine ⟨t, n, a, d', ?_, hd', hle, by simpa using hc⟩
      rw [bookings_update_self, List.getElem?_append_left (List.getElem?_eq_some_iff.1 ha).1]
      exact ha

theorem Waits.steps {paused : Bool} (h : Waits made now now w core)
    (hs : SyncUnit.Steps now epoch (w.units core) w.network paused u network log) :
    Waits made now (now + 1) (w.update core u network log [(now, paused)]) core := by
  have hlt : ∀ e ∈ w.pauses core ++ [(now, paused)], e.1 < now + 1 := by
    intro e he
    rcases List.mem_append.1 he with he | he
    · exact (h.pauses_lt e he).trans (by omega)
    · simp [List.mem_singleton.1 he]
  cases hs with
  | idle free =>
    constructor
    · simpa using h.free
    · simpa using h.busy
    · simpa using hlt
    · intro e he htrue hle
      rw [pauses_update_self] at he
      rcases List.mem_append.1 he with he | he
      · have hold := h.pauses_lt e he
        omega
      · simp [List.mem_singleton.1 he] at htrue
    · intro e he htrue
      rw [pauses_update_self] at he
      rcases List.mem_append.1 he with he | he
      · simpa using h.overdue e he htrue
      · simp [List.mem_singleton.1 he] at htrue
  | completed b b' n' log pending received due complete =>
    obtain ⟨htarget, -, hbooked, hcompleted, -⟩ := same_of_receives received
    constructor
    · intro t ht
      by_cases hne : b.target = t
      · obtain ⟨hlength, -⟩ := h.busy b pending
        simp [hbooked, hcompleted, htarget, ← hne, hlength]
      · have hlength := h.free t (by simpa [pending] using hne)
        simp [hbooked, hcompleted, htarget, hne, hlength]
    · simp
    · simpa using hlt
    · intro e he htrue hle
      rw [pauses_update_self] at he
      rcases List.mem_append.1 he with he | he
      · have hold := h.pauses_lt e he
        omega
      · simp [List.mem_singleton.1 he] at htrue
    · intro e he htrue
      rw [pauses_update_self] at he
      rcases List.mem_append.1 he with he | he
      · obtain ⟨t, n, a, d, ha, hd, hle, hc⟩ := h.overdue e he htrue
        refine ⟨t, n, a, d, by simpa [hbooked] using ha, hd, hle, ?_⟩
        intro c
        by_cases hne : b.target = t
        · simp only [completions_update_self, about_append, about_singleton, hcompleted, htarget,
            hne, and_self, if_true, List.nil_append, List.map_cons, List.map_nil,
            Rendezvous.getElem?_concat]
          intro hor
          rcases hor with hor | ⟨-, rfl⟩
          · exact hc c hor
          · exact h.pauses_lt e he
        · simpa [hcompleted, htarget, hne] using hc c
      · simp [List.mem_singleton.1 he] at htrue
  | waited b b' n' log pending received waits =>
    obtain ⟨htarget, hdeadline, hbooked, hcompleted, -⟩ := same_of_receives received
    obtain ⟨hlength, a, d, ha, hd, hsum⟩ := h.busy b pending
    constructor
    · intro t ht
      have hne : ¬ b.target = t := by
        rw [← htarget]
        exact ht b' (by rw [units_update_self]; rfl)
      simpa [hbooked, hcompleted] using h.free t (by simpa [pending] using hne)
    · intro c hc
      rw [units_update_self] at hc
      obtain rfl : b' = c := Option.some.inj hc
      simp only [bookings_update_self, completions_update_self, hbooked, hcompleted, List.map_nil,
        List.append_nil, htarget, hdeadline]
      exact ⟨hlength, a, d, ha, hd, hsum⟩
    · simpa using hlt
    · simp
    · intro e he htrue
      rw [pauses_update_self] at he
      rcases List.mem_append.1 he with he | he
      · simpa [hbooked, hcompleted] using h.overdue e he htrue
      · obtain rfl := List.mem_singleton.1 he
        have hdue : a + d ≤ now := by
          have hle : b'.deadline ≤ now := of_decide_eq_true htrue
          omega
        refine ⟨b.target, _, a, d, by simpa [hbooked] using ha, hd, hdue, ?_⟩
        simp [hcompleted]

/-! ## Two neighbours -/

/-- What holds between a unit and a neighbour: the unit is a timely side of their meetings, and
the signals it has not received are waiting on the link. -/
structure Meets (made : SyncNetwork) (out inn now frontier : ℕ) (w : SyncSystem)
    (core neighbour : ℕ) : Prop where
  timely : (w.side core neighbour).Timely made.clock.period out inn now frontier
  waiting : w.network.waiting neighbour core =
    ((w.bookings neighbour core).drop (w.receptions core neighbour).length).map (· + inn)
  arrivals : (w.receptions core neighbour).map Prod.snd =
    ((w.bookings neighbour core).take (w.receptions core neighbour).length).map (· + inn)
  received : ∀ b ∈ (w.units core).pending, b.target = neighbour → (b.received = true ↔
    (w.receptions core neighbour).length = (w.completions core neighbour).length + 1)

variable {out inn neighbour : ℕ}

/-- Only what the two units have to do with each other matters. -/
theorem Meets.frame (h : Meets made out inn now frontier w core neighbour)
    (hunit : ∀ b ∈ (w'.units core).pending, b.target = neighbour → b ∈ (w.units core).pending)
    (hside : w'.side core neighbour = w.side core neighbour)
    (hreceptions : w'.receptions core neighbour = w.receptions core neighbour)
    (hwaiting : w'.network.waiting neighbour core = w.network.waiting neighbour core) :
    Meets made out inn now frontier w' core neighbour := by
  have hbookings : w'.bookings neighbour core = w.bookings neighbour core :=
    congrArg Rendezvous.theirs hside
  have hcompletions : w'.completions core neighbour = w.completions core neighbour :=
    congrArg Rendezvous.done hside
  constructor
  · rw [hside]
    exact h.timely
  · rw [hwaiting, hbookings, hreceptions]
    exact h.waiting
  · rw [hbookings, hreceptions]
    exact h.arrivals
  · intro b hb htarget
    rw [hreceptions, hcompletions]
    exact h.received b (hunit b hb htarget) htarget

theorem Meets.length_receptions (h : Meets made out inn now frontier w core neighbour) :
    (w.receptions core neighbour).length ≤ (w.bookings neighbour core).length := by
  have hlength := congrArg List.length h.arrivals
  simp only [List.length_map, List.length_take] at hlength
  omega

/-- A booking of the unit itself. -/
theorem Meets.books {targets : List ℕ} (h : Meets made out inn now frontier w core neighbour)
    (hw : Orderly made now w) (hwaits : Waits made now frontier w core) (hne : core ≠ neighbour)
    (hout : made.delay core neighbour = .ok out) (hpos : 0 < out)
    (hb : SyncUnit.Books now epoch (w.units core) w.network targets u network log) :
    Meets made out inn now frontier (w.update core u network log []) core neighbour := by
  cases hb with
  | nothing n' same =>
    refine h.frame (by simp +contextual) ?_ (by simp) (same.waiting _ _)
    simp [side, hne.symm]
  | booked target d n' free edge delay sent =>
    have hwaiting : network.waiting neighbour core = w.network.waiting neighbour core :=
      sent.other _ _ (by rw [hw.core]; exact fun hst => hne hst.1)
    by_cases htarget : target = neighbour
    · subst htarget
      have hfree := hwaits.free target (by simp [free])
      have hunheld : ∀ e ∈ w.pauses core, e.2 = true → e.1 < now := by
        intro e he htrue
        by_contra hle
        exact hwaits.blocked e he htrue (by omega) free
      constructor
      · have hcall := h.timely.call hpos hfree hunheld
        simpa [side, hne.symm] using hcall
      · simpa [hne.symm, hwaiting] using h.waiting
      · simpa [hne.symm] using h.arrivals
      · intro b hb _
        rw [units_update_self] at hb
        obtain rfl : _ = b := Option.some.inj hb
        have hreceiving : ¬ (w.receptions core target).length =
            (w.completions core target).length + 1 := by
          have hor := h.timely.receiving
          simp only [side, List.length_map] at hor
          omega
        simpa using hreceiving
    · refine h.frame ?_ ?_ (by simp) hwaiting
      · intro b hb heq
        rw [units_update_self] at hb
        obtain rfl : _ = b := Option.some.inj hb
        exact absurd heq htarget
      · simp [side, hne.symm, htarget]

/-- A booking of another unit, maybe of the neighbour. -/
theorem Meets.hears {targets : List ℕ} {c : ℕ} (h : Meets made out inn now frontier w core neighbour)
    (hw : Orderly made now w) (hne : core ≠ neighbour) (hc : core ≠ c)
    (hinn : made.delay neighbour core = .ok inn) (hpos : 0 < inn)
    (hb : SyncUnit.Books now epoch (w.units c) w.network targets u network log) :
    Meets made out inn now frontier (w.update c u network log []) core neighbour := by
  cases hb with
  | nothing n' same =>
    refine h.frame (by simp +contextual [hc]) ?_ (by simp [hc]) (same.waiting _ _)
    by_cases hn : neighbour = c
    · simp [side, hc, hn]
    · simp [side, hc, hn]
  | booked target d n' free edge delay sent =>
    rw [hw.core] at sent delay
    by_cases hmine : c = neighbour ∧ target = core
    · obtain ⟨rfl, rfl⟩ := hmine
      obtain rfl : d = inn :=
        Except.ok.inj ((delay.symm.trans (hw.delay _ _)).trans hinn)
      constructor
      · have hhear := h.timely.hear hpos
        simpa [side, hc] using hhear
      · rw [network_update, sent.waiting, h.waiting, bookings_update_self,
          receptions_update_of_ne _ _ _ _ _ _ hc, List.drop_append_of_le_length h.length_receptions]
        simp
      · rw [bookings_update_self, receptions_update_of_ne _ _ _ _ _ _ hc,
          List.take_append_of_le_length h.length_receptions]
        exact h.arrivals
      · simpa [hc] using h.received
    · refine h.frame (by simp +contextual [hc]) ?_ (by simp [hc]) (sent.other _ _ hmine)
      by_cases hn : neighbour = c
      · have htarget : target ≠ core := fun htarget => hmine ⟨hn.symm, htarget⟩
        simp [side, hc, hn, htarget]
      · simp [side, hc, hn]

/-- The unit's side after it has looked for the neighbour's signal. -/
theorem Meets.receives {b b' : SyncUnit.Booking} {received : List (ℕ × ℕ)}
    (h : Meets made out inn now now w core neighbour) (hw : Orderly made now w)
    (hpending : (w.units core).pending = some b) (htarget : b.target = neighbour)
    (hr : SyncUnit.Receives now epoch (w.units core).core b w.network b' network log)
    (hreceived : received = w.receptions core neighbour ++
      (about .syncReceived neighbour log).map fun e => (e.tick, e.value)) :
    Rendezvous.TakesIn inn now (w.side core neighbour)
        { w.side core neighbour with received := received.map Prod.fst } ∧
      (b'.received = true ↔ received.length = (w.completions core neighbour).length + 1) ∧
      network.waiting neighbour core =
        ((w.bookings neighbour core).drop received.length).map (· + inn) ∧
      received.map Prod.snd = ((w.bookings neighbour core).take received.length).map (· + inn) := by
  have hiff := h.received b hpending htarget
  have hlength : ¬ (w.receptions core neighbour).length =
      (w.completions core neighbour).length + 1 →
        (w.receptions core neighbour).length = (w.completions core neighbour).length := by
    intro hne
    have hor := h.timely.receiving
    simp only [side, List.length_map] at hor
    omega
  rw [hw.core] at hr
  subst htarget
  cases hr with
  | already htrue =>
    obtain rfl : received = w.receptions core b.target := by simpa using hreceived
    refine ⟨.already ?_, hiff, h.waiting, h.arrivals⟩
    simpa [side] using hiff.1 htrue
  | missing hfalse late =>
    obtain rfl : received = w.receptions core b.target := by simpa using hreceived
    have hlen := hlength (by rw [← hiff, hfalse]; simp)
    refine ⟨.missing (by simpa [side] using hlen) ?_, hiff, h.waiting, h.arrivals⟩
    intro n hn
    refine late _ ?_
    rw [h.waiting, hlen]
    refine List.mem_map_of_mem ?_
    have hhead : ((w.bookings b.target core).drop (w.completions core b.target).length)[0]? =
        some n := by
      rw [List.getElem?_drop, Nat.add_zero]
      exact hn
    exact List.mem_of_getElem? hhead
  | arrived hfalse arrival n' le first changed =>
    obtain rfl : received = w.receptions core b.target ++ [(now, arrival)] := by
      simpa using hreceived
    have hlen := hlength (by rw [← hiff, hfalse]; simp)
    have hwaiting := h.waiting
    rw [first] at hwaiting
    cases hdrop : (w.bookings b.target core).drop (w.receptions core b.target).length with
    | nil => simp [hdrop] at hwaiting
    | cons sent rest =>
      rw [hdrop, List.map_cons, List.cons.injEq] at hwaiting
      obtain ⟨rfl, hrest⟩ := hwaiting
      have hget : (w.bookings b.target core)[(w.receptions core b.target).length]? = some sent := by
        have hhead := congrArg (·[0]?) hdrop
        simpa [List.getElem?_drop] using hhead
      have htail : (w.bookings b.target core).drop ((w.receptions core b.target).length + 1) =
          rest := by
        rw [← List.tail_drop, hdrop, List.tail_cons]
      refine ⟨?_, by simp [hlen], ?_, ?_⟩
      · have harrived := Rendezvous.TakesIn.arrived (r := w.side core b.target)
          (by simpa [side] using hlen) sent (by rw [hlen] at hget; exact hget) le
        simpa [side] using harrived
      · rw [List.length_append, List.length_singleton, htail]
        exact hrest
      · rw [List.length_append, List.length_singleton, List.take_add_one, hget, List.map_append,
          List.map_append, h.arrivals]
        rfl

/-- A step that is not about the neighbour is an idle poll. -/
theorem Meets.elsewhere {paused : Bool} (h : Meets made out inn now now w core neighbour)
    (hwaits : Waits made now now w core) (hne : core ≠ neighbour)
    (hfree : ∀ b, (w.units core).pending = some b → b.target ≠ neighbour)
    (hunit : ∀ b, u.pending = some b → b.target ≠ neighbour)
    (hlog : ∀ kind, about kind neighbour log = [])
    (hwaiting : network.waiting neighbour core = w.network.waiting neighbour core) :
    Meets made out inn now (now + 1) (w.update core u network log [(now, paused)]) core
      neighbour := by
  have hpoll := h.timely.poll (.idle paused (hwaits.free neighbour hfree))
  constructor
  · simpa [side, hne.symm, hlog] using hpoll
  · simpa [hne.symm, hlog, hwaiting] using h.waiting
  · simpa [hne.symm, hlog] using h.arrivals
  · intro b hb htarget
    rw [units_update_self] at hb
    exact absurd htarget (hunit b hb)

theorem waiting_of_receives {b b' : SyncUnit.Booking}
    (h : SyncUnit.Receives now epoch core b w.network b' network log)
    (hne : b.target ≠ neighbour) :
    network.waiting neighbour core = w.network.waiting neighbour core := by
  cases h with
  | already => rfl
  | missing => rfl
  | arrived _ _ _ _ _ changed => exact changed.other _ _ fun hst => hne hst.1

theorem about_of_receives {b b' : SyncUnit.Booking}
    (h : SyncUnit.Receives now epoch core b w.network b' network log)
    (hne : b.target ≠ neighbour) (kind : TraceKind) : about kind neighbour log = [] := by
  cases h with
  | already => rfl
  | missing => rfl
  | arrived => simp [hne]

/-- A step of the unit is a poll of its side. -/
theorem Meets.steps {paused : Bool} (h : Meets made out inn now now w core neighbour)
    (hw : Orderly made now w) (hwaits : Waits made now now w core) (hne : core ≠ neighbour)
    (hout : made.delay core neighbour = .ok out)
    (hs : SyncUnit.Steps now epoch (w.units core) w.network paused u network log) :
    Meets made out inn now (now + 1) (w.update core u network log [(now, paused)]) core
      neighbour := by
  cases hs with
  | idle free => exact h.elsewhere hwaits hne (by simp [free]) (by simp [free]) (by simp) rfl
  | completed b b' n' log pending received due complete =>
    obtain ⟨htarget', hdeadline, hbooked, hcompleted, -⟩ := same_of_receives received
    by_cases htarget : b.target = neighbour
    · obtain ⟨-, a, d, ha, hd, hsum⟩ := hwaits.busy b pending
      obtain ⟨htakes, hiff, hwaiting, harrivals⟩ := h.receives hw pending htarget received rfl
      rw [htarget] at ha hd
      obtain rfl : d = out := Except.ok.inj (hd.symm.trans hout)
      have hpoll := h.timely.poll (.completed _ htakes a ha (by omega)
        (by simpa [side] using hiff.1 complete))
      constructor
      · simpa [side, hne.symm, hbooked, hcompleted, htarget', htarget] using hpoll
      · simpa [hne.symm, htarget', htarget] using hwaiting
      · simpa [hne.symm, htarget', htarget] using harrivals
      · simp
    · rw [hw.core] at received
      refine h.elsewhere hwaits hne (by simp [pending, htarget]) (by simp) ?_
        (waiting_of_receives received htarget)
      intro kind
      simp [about_of_receives received htarget, htarget', htarget]
  | waited b b' n' log pending received waits =>
    obtain ⟨htarget', hdeadline, hbooked, hcompleted, -⟩ := same_of_receives received
    by_cases htarget : b.target = neighbour
    · obtain ⟨-, a, d, ha, hd, hsum⟩ := hwaits.busy b pending
      obtain ⟨htakes, hiff, hwaiting, harrivals⟩ := h.receives hw pending htarget received rfl
      rw [htarget] at ha hd
      obtain rfl : d = out := Except.ok.inj (hd.symm.trans hout)
      have hpoll := h.timely.poll (.waits _ htakes a ha fun hboth =>
        waits ⟨by omega, hiff.2 (by simpa [side] using hboth.2)⟩)
      rw [← hsum, ← hdeadline] at hpoll
      constructor
      · simpa [side, hne.symm, hbooked, hcompleted] using hpoll
      · simpa [hne.symm] using hwaiting
      · simpa [hne.symm] using harrivals
      · intro c hc _
        rw [units_update_self] at hc
        obtain rfl : b' = c := Option.some.inj hc
        simpa [hcompleted] using hiff
    · rw [hw.core] at received
      refine h.elsewhere hwaits hne (by simp [pending, htarget]) (by simp [htarget', htarget]) ?_
        (waiting_of_receives received htarget)
      exact about_of_receives received htarget

/-- A step of another unit does not matter. -/
theorem Meets.other {paused : Bool} {c : ℕ} (h : Meets made out inn now frontier w core neighbour)
    (hw : Orderly made now w) (hc : core ≠ c)
    (hs : SyncUnit.Steps now epoch (w.units c) w.network paused u network log) :
    Meets made out inn now frontier (w.update c u network log [(now, paused)]) core neighbour := by
  have hbooked : about .syncBooked core log = [] := by
    cases hs with
    | idle => rfl
    | completed b b' n' log pending received => simp [(same_of_receives received).2.2.1]
    | waited b b' n' log pending received => exact (same_of_receives received).2.2.1 core
  have hreceives : ∀ {b b' log'}, SyncUnit.Receives now epoch (w.units c).core b w.network b'
      network log' → network.waiting neighbour core = w.network.waiting neighbour core := by
    intro b b' log' hr
    rw [hw.core] at hr
    cases hr with
    | already => rfl
    | missing => rfl
    | arrived _ _ _ _ _ changed => exact changed.other _ _ fun hst => hc hst.2.symm
  refine h.frame (by simp +contextual [hc]) ?_ (by simp [hc]) ?_
  · by_cases hn : neighbour = c
    · simp [side, hc, hn, hbooked]
    · simp [side, hc, hn]
  · cases hs with
    | idle => rfl
    | completed b b' n' log pending received => exact hreceives received
    | waited b b' n' log pending received => exact hreceives received

/-! ## Whole ticks -/

theorem Orderly.mono (hw : Orderly made now w) {later : ℕ} (hle : now ≤ later) :
    Orderly made later w where
  core := hw.core
  clock := hw.clock
  delay := hw.delay
  sorted := hw.sorted
  waiting_le s t d hd a ha := (hw.waiting_le s t d hd a ha).trans (by omega)

theorem Waits.next (h : Waits made now (now + 1) w core) {later : ℕ} (hlt : now < later) :
    Waits made later later w core where
  free := h.free
  busy := h.busy
  pauses_lt e he := (h.pauses_lt e he).trans_le hlt
  blocked e he _ hle := by
    have hold := h.pauses_lt e he
    omega
  overdue := h.overdue

/-- In a network that connects them, two neighbours have positive delays of whole periods. -/
structure Neighbours (made : SyncNetwork) (core neighbour out inn : ℕ) : Prop where
  clock : made.clock.Valid
  ne : core ≠ neighbour
  delay_out : made.delay core neighbour = .ok out
  delay_inn : made.delay neighbour core = .ok inn
  out_pos : 0 < out
  inn_pos : 0 < inn
  dvd_out : made.clock.period ∣ out
  dvd_inn : made.clock.period ∣ inn

theorem Neighbours.symm (h : Neighbours made core neighbour out inn) :
    Neighbours made neighbour core inn out :=
  ⟨h.clock, h.ne.symm, h.delay_inn, h.delay_out, h.inn_pos, h.out_pos, h.dvd_inn, h.dvd_out⟩

/-- One action keeps what holds of a unit and its neighbour; the unit's own step is the one that
moves the frontier. -/
theorem Meets.acts (hn : Neighbours made core neighbour out inn) (hw : Orderly made now w)
    (hwaits : Waits made now frontier w core)
    (h : Meets made out inn now frontier w core neighbour) (ha : Acts now epoch w action w')
    (hstep : action = .step core → frontier = now) :
    Waits made now (if action = .step core then now + 1 else frontier) w' core ∧
      Meets made out inn now (if action = .step core then now + 1 else frontier) w' core
        neighbour := by
  obtain ⟨c, u, network, log, pauses, hdoes, rfl⟩ := acts_cases hw ha
  cases hdoes with
  | books ne hbooks =>
    rw [if_neg (ne core)]
    by_cases hc : core = c
    · subst hc
      exact ⟨hwaits.books hw hbooks, h.books hw hwaits hn.ne hn.delay_out hn.out_pos hbooks⟩
    · exact ⟨hwaits.other hc, h.hears hw hn.ne hc hn.delay_inn hn.inn_pos hbooks⟩
  | steps hsteps =>
    by_cases hc : core = c
    · subst hc
      obtain rfl := hstep rfl
      rw [if_pos rfl]
      exact ⟨hwaits.steps hsteps, h.steps hw hwaits hn.ne hn.delay_out hsteps⟩
    · rw [if_neg (by simpa using Ne.symm hc)]
      exact ⟨hwaits.other hc, h.other hw hc hsteps⟩

theorem Meets.actsAll {actions : List SyncAction} (hn : Neighbours made core neighbour out inn)
    (hw : Orderly made now w) (hwaits : Waits made now frontier w core)
    (h : Meets made out inn now frontier w core neighbour) (ha : ActsAll now epoch w actions w')
    (hcount : frontier + actions.count (.step core) = now + 1) :
    Orderly made now w' ∧ Waits made now (now + 1) w' core ∧
      Meets made out inn now (now + 1) w' core neighbour := by
  induction ha generalizing frontier with
  | nil =>
    obtain rfl : frontier = now + 1 := by simpa using hcount
    exact ⟨hw, hwaits, h⟩
  | @cons w w₁ w₂ action rest hact all ih =>
    have hle := h.timely.tick.1
    have hstep : action = .step core → frontier = now := by
      rintro rfl
      rw [List.count_cons_self] at hcount
      omega
    obtain ⟨hwaits₁, h₁⟩ := h.acts hn hw hwaits hact hstep
    refine ih (hw.acts hact) hwaits₁ h₁ ?_
    by_cases hmine : action = .step core
    · rw [hmine, List.count_cons_self, hstep hmine] at hcount
      rw [if_pos hmine]
      omega
    · rw [List.count_cons_of_ne hmine] at hcount
      rw [if_neg hmine]
      exact hcount

/-- Every step reports whether the unit is paused. -/
theorem pauses_acts (hw : Orderly made now w) (ha : Acts now epoch w action w') (core : ℕ) :
    (w'.pauses core).map Prod.fst =
      (w.pauses core).map Prod.fst ++ List.replicate ([action].count (.step core)) now := by
  obtain ⟨c, u, network, log, pauses, hdoes, rfl⟩ := acts_cases hw ha
  cases hdoes with
  | books ne hbooks =>
    by_cases hc : core = c
    · simp [hc, ne]
    · simp [hc, ne]
  | steps hsteps =>
    by_cases hc : core = c
    · simp [hc]
    · simp [hc, Ne.symm hc]

theorem pauses_actsAll {actions : List SyncAction} (hw : Orderly made now w)
    (ha : ActsAll now epoch w actions w') (core : ℕ) :
    (w'.pauses core).map Prod.fst =
      (w.pauses core).map Prod.fst ++ List.replicate (actions.count (.step core)) now := by
  induction ha with
  | nil => simp
  | @cons w w₁ w₂ action rest hact all ih =>
    rw [ih (hw.acts hact), pauses_acts hw hact core, List.append_assoc, List.replicate_append_replicate]
    congr 2
    rw [← List.count_append]
    rfl

end Action

/-! ## Runs -/

/-- What the bookings of a unit and a neighbour come to, in the ticks before `now`. -/
structure Synchronized (made : SyncNetwork) (w : SyncSystem)
    (core neighbour out inn start now : ℕ) : Prop where
  steps : ∃ n, now = start + made.clock.period * n ∧
    (w.pauses core).map Prod.fst = List.range' start n made.clock.period
  completes : ∀ n a b : ℕ, (w.bookings core neighbour)[n]? = some a →
    (w.bookings neighbour core)[n]? = some b → max (a + out) (b + inn) < now →
      (w.completions core neighbour)[n]? = some (max (a + out) (b + inn))
  completed : ∀ n c : ℕ, (w.completions core neighbour)[n]? = some c →
    ∃ a b : ℕ, (w.bookings core neighbour)[n]? = some a ∧
      (w.bookings neighbour core)[n]? = some b ∧ c = max (a + out) (b + inn)
  paused : ∀ n a b : ℕ, (w.bookings core neighbour)[n]? = some a →
    (w.bookings neighbour core)[n]? = some b →
      ∀ e ∈ w.pauses core, a ≤ e.1 → e.1 ≤ max (a + out) (b + inn) →
        (e.2 = true ↔ a + out ≤ e.1 ∧ e.1 < max (a + out) (b + inn))
  stuck : ∀ n a : ℕ, (w.bookings core neighbour)[n]? = some a →
    (w.bookings neighbour core)[n]? = none →
      ∀ e ∈ w.pauses core, a ≤ e.1 → (e.2 = true ↔ a + out ≤ e.1)
  overdue : ∀ e ∈ w.pauses core, e.2 = true → ∃ target n a d : ℕ,
    (w.bookings core target)[n]? = some a ∧ made.delay core target = .ok d ∧ a + d ≤ e.1 ∧
      ∀ c, (w.completions core target)[n]? = some c → e.1 < c
  received : ∀ n t arrival : ℕ, (w.receptions core neighbour)[n]? = some (t, arrival) →
    arrival ≤ t ∧ ∃ a b : ℕ, (w.bookings core neighbour)[n]? = some a ∧
      (w.bookings neighbour core)[n]? = some b ∧ arrival = b + inn ∧ a ≤ t ∧
        ∀ c, (w.completions core neighbour)[n]? = some c → t ≤ c
  one_each : (w.completions core neighbour).length ≤ (w.receptions core neighbour).length ∧
    (w.receptions core neighbour).length ≤ (w.bookings core neighbour).length
  waiting : w.network.waiting neighbour core =
    ((w.bookings neighbour core).drop (w.receptions core neighbour).length).map (· + inn)

/-- What holds of a unit and its neighbour between ticks. -/
structure Between (made : SyncNetwork) (out inn start now : ℕ) (w : SyncSystem)
    (core neighbour : ℕ) : Prop where
  waits : Waits made now now w core
  meets : Meets made out inn now now w core neighbour
  steps : ∃ n, now = start + made.clock.period * n ∧
    (w.pauses core).map Prod.fst = List.range' start n made.clock.period

section Runs
variable {made : SyncNetwork} {out inn start now epoch core neighbour : ℕ} {w w' : SyncSystem}

theorem Between.initial (hc : made.Connected) (out inn start core neighbour : ℕ) :
    Between made out inn start start { network := made, units := fun c => { core := c } } core
      neighbour where
  waits := by constructor <;> simp [bookings, completions, about]
  meets := by
    constructor
    · exact Rendezvous.Timely.initial _ _ _ _
    · simp [hc.waiting, bookings, about]
    · simp [receptions, bookings, about]
    · simp
  steps := ⟨0, by simp⟩

theorem Between.tick {actions : List SyncAction} (h : Between made out inn start now w core neighbour)
    (hn : Neighbours made core neighbour out inn) (hw : Orderly made now w)
    (ha : ActsAll now epoch w actions w') (hcount : actions.count (.step core) = 1) :
    Between made out inn start (now + made.clock.period) w' core neighbour := by
  have hpos := hn.clock.period_pos
  obtain ⟨-, hwaits, hmeets⟩ := h.meets.actsAll hn hw h.waits ha (by rw [hcount])
  refine ⟨hwaits.next (by omega), ?_, ?_⟩
  · exact { hmeets with timely := hmeets.timely.next hpos hn.dvd_out hn.dvd_inn }
  · obtain ⟨n, hnow, hpauses⟩ := h.steps
    refine ⟨n + 1, by rw [hnow, Nat.mul_succ, Nat.add_assoc], ?_⟩
    rw [pauses_actsAll hw ha core, hcount, hpauses, List.range'_concat, ← hnow]
    rfl

theorem Between.synchronized (h : Between made out inn start now w core neighbour) :
    Synchronized made w core neighbour out inn start now where
  steps := h.steps
  completes n a b ha hb hlt := h.meets.timely.meets ha hb hlt
  completed n c hc := (h.meets.timely.done n c hc).2
  paused n a b ha hb e he hae hle := h.meets.timely.held_iff ha hb he hae hle
  stuck n a ha hb e he hae := by
    have hnone : (w.completions core neighbour)[n]? = none := by
      cases hc : (w.completions core neighbour)[n]? with
      | none => rfl
      | some c =>
        obtain ⟨-, _, b, -, hb', -⟩ := h.meets.timely.done n c hc
        have hsome : (w.bookings neighbour core)[n]? = some b := hb'
        simp [hb] at hsome
    have hheld := h.meets.timely.held n a e.1 e.2 ha he hae fun c hc => by
      have hsome : (w.completions core neighbour)[n]? = some c := hc
      simp [hnone] at hsome
    rw [hheld]
    refine and_iff_left ?_
    change (w.completions core neighbour)[n]? ≠ some e.1
    simp [hnone]
  overdue := h.waits.overdue
  received n t arrival hr := by
    have ht : (w.side core neighbour).received[n]? = some t := by simp [side, hr]
    obtain ⟨-, a, b, ha, hb, hat, hbt, hc⟩ := h.meets.timely.received n t ht
    have harrival : arrival = b + inn := by
      have hmap : ((w.receptions core neighbour).map Prod.snd)[n]? = some arrival := by simp [hr]
      have hlt : n < (w.receptions core neighbour).length := (List.getElem?_eq_some_iff.1 hr).1
      have hb' : (w.bookings neighbour core)[n]? = some b := hb
      rw [h.meets.arrivals, List.getElem?_map, List.getElem?_take_of_lt hlt, hb'] at hmap
      exact (Option.some.inj hmap).symm
    exact ⟨by omega, a, b, ha, hb, harrival, hat, hc⟩
  one_each := by
    have hcalling := h.meets.timely.calling
    have hreceiving := h.meets.timely.receiving
    simp only [side, List.length_map] at hcalling hreceiving
    omega
  waiting := h.meets.waiting

end Runs

/-- Two connected neighbours meet: their `n`-th bookings of each other complete on the same tick,
the later of the two deadlines and arrivals, and each pauses from its own deadline until then. -/
theorem neighbour_synchronization {clock : Clock} {connections : List SyncConnection}
    {made : SyncNetwork} {epoch first second start now out inn : ℕ} {w : SyncSystem}
    (run : SyncRun clock connections epoch first second start w now)
    (hmade : SyncNetwork.make clock connections = .ok made)
    (hout : made.delay first second = .ok out) (hinn : made.delay second first = .ok inn) :
    (∀ n a b : ℕ, (w.bookings first second)[n]? = some a →
        (w.bookings second first)[n]? = some b → max (a + out) (b + inn) < now →
          (w.completions first second)[n]? = some (max (a + out) (b + inn)) ∧
            (w.completions second first)[n]? = some (max (a + out) (b + inn))) ∧
      Synchronized made w first second out inn start now ∧
      Synchronized made w second first inn out start now := by
  obtain ⟨hconnected, hclock, hvalid⟩ := SyncNetwork.connected_of_make hmade
  have hneighbours : Neighbours made first second out inn := by
    obtain ⟨link, hlink, rfl⟩ := SyncNetwork.delay_eq_ok hout
    obtain ⟨link', hlink', rfl⟩ := SyncNetwork.delay_eq_ok hinn
    have hc := hconnected _ _ _ hlink
    have hc' := hconnected _ _ _ hlink'
    exact ⟨hclock ▸ hvalid, hc.ne, hout, hinn, hc.pos, hc'.pos, hc.dvd, hc'.dvd⟩
  have hrun : Orderly made now w ∧ Between made out inn start now w first second ∧
      Between made inn out start now w second first := by
    clear hout hinn
    induction run with
    | @start network hmade' edge =>
      obtain rfl : made = network := Except.ok.inj (hmade.symm.trans hmade')
      refine ⟨⟨fun _ => rfl, rfl, fun _ _ => rfl, ?_, ?_⟩, .initial hconnected _ _ _ _ _,
        .initial hconnected _ _ _ _ _⟩
      · simp [hconnected.waiting]
      · simp [hconnected.waiting]
    | @tick w w' now actions run acts stepped stepped' ih =>
      obtain ⟨hw, hfirst, hsecond⟩ := ih
      have hw' := (hfirst.meets.actsAll hneighbours hw hfirst.waits acts (by rw [stepped])).1
      rw [← hclock]
      exact ⟨hw'.mono (by omega), hfirst.tick hneighbours hw acts stepped,
        hsecond.tick hneighbours.symm hw acts stepped'⟩
  obtain ⟨-, hfirst, hsecond⟩ := hrun
  refine ⟨?_, hfirst.synchronized, hsecond.synchronized⟩
  intro n a b ha hb hlt
  refine ⟨hfirst.synchronized.completes n a b ha hb hlt, ?_⟩
  rw [max_comm] at hlt ⊢
  exact hsecond.synchronized.completes n b a hb ha hlt

/-- A link with delays of two periods and one. -/
def unevenLink : SyncConnection := { first := 1, second := 2, firstToSecond := 2, secondToFirst := 1 }

theorem isSome_unevenLink : (SyncNetwork.make { period := 4 } [unevenLink]).toOption.isSome = true := by
  decide +kernel

def unevenNetwork : SyncNetwork :=
  (SyncNetwork.make { period := 4 } [unevenLink]).toOption.get isSome_unevenLink

/-- Ticks on which the first unit books on tick 0 and the second one on tick 8. -/
def meetingTicks : List (List SyncAction) :=
  [[.book 1 [2], .step 1, .step 2], [.step 2, .step 1], [.step 1, .step 2, .book 2 [1]],
    [.step 1, .step 2]]

theorem isSome_meeting : (drive 4 1 0 { network := unevenNetwork, units := fun core => { core } }
    meetingTicks).toOption.isSome = true := by
  decide +kernel

def meeting : SyncSystem × ℕ :=
  (drive 4 1 0 { network := unevenNetwork, units := fun core => { core } } meetingTicks).toOption.get
    isSome_meeting

/-- The first unit books on tick 0 and waits for the second, which books on tick 8. -/
theorem neighbour_synchronization_uneven : meeting.1.bookings 1 2 = [0] ∧
    meeting.1.bookings 2 1 = [8] ∧
      meeting.1.pauses 1 = [(0, false), (4, false), (8, true), (12, false)] ∧
      meeting.1.completions 1 2 = [12] ∧
      Synchronized unevenNetwork meeting.1 1 2 8 4 0 meeting.2 := by
  have hmade : SyncNetwork.make { period := 4 } [unevenLink] = .ok unevenNetwork :=
    Except.eq_ok_get isSome_unevenLink
  have hrun : SyncRun { period := 4 } [unevenLink] 1 1 2 0 meeting.1 meeting.2 :=
    run_of_drive (.start hmade (by decide)) (by decide) (Except.eq_ok_get isSome_meeting)
  refine ⟨?_, ?_, ?_, ?_, (neighbour_synchronization hrun hmade ?_ ?_).2.1⟩
  all_goals decide +kernel

end SyncSystem
end Qsbit

import Qsbit.Trace
import Std.Data.ExtTreeMap

/-!
# Synchronization between neighbouring controllers

Neighbouring controllers synchronize by exchanging signals over links with fixed
directional delays. A booking sends a signal to the neighbour and waits for the
neighbour's; it completes once its own delay has passed and the neighbour's
signal has arrived. Until then the controller's timer is paused past the delay.

## Main definitions

* `SyncNetwork` — the links, with the signals that are on their way.
* `SyncUnit` — the booking of one controller.
* `SyncUnit.book`, `SyncUnit.step` — what a controller does on its edges.
-/
namespace Qsbit

open Std (ExtTreeMap)

structure SyncConnection where
  first : ℕ := 0
  second : ℕ := 0
  firstToSecond : ℕ := 1
  secondToFirst : ℕ := 1
  capacity : ℕ := 8
  deriving DecidableEq, Repr

namespace SyncNetwork

structure Signal where
  arrival : ℕ
  consumed : Option ℕ := none
  deriving DecidableEq, Repr

structure Link where
  delay : ℕ
  capacity : ℕ
  signals : List Signal := []
  deriving DecidableEq, Repr

/-- The order of pairs of controllers. -/
abbrev order : ℕ × ℕ → ℕ × ℕ → Ordering := compareLex (compareOn Prod.fst) (compareOn Prod.snd)

theorem order_eq_iff {k k' : ℕ × ℕ} : order k k' = .eq ↔ k = k' := by
  rw [order, compareLex_eq_eq, compareOn, compareOn, compare_eq_iff_eq, compare_eq_iff_eq]
  exact Prod.ext_iff.symm

end SyncNetwork

structure SyncNetwork where
  clock : Clock
  links : ExtTreeMap (ℕ × ℕ) SyncNetwork.Link SyncNetwork.order := ∅

namespace SyncNetwork

def link (n : SyncNetwork) (source target : ℕ) : Option Link := n.links[(source, target)]?

def modifyLink (n : SyncNetwork) (source target : ℕ) (f : Link → Link) : SyncNetwork :=
  { n with links := n.links.modify (source, target) f }

@[simp] theorem clock_modifyLink (n : SyncNetwork) (source target : ℕ) (f : Link → Link) :
    (n.modifyLink source target f).clock = n.clock := rfl

theorem link_modifyLink (n : SyncNetwork) (source target s t : ℕ) (f : Link → Link) :
    (n.modifyLink source target f).link s t =
      if source = s ∧ target = t then (n.link s t).map f else n.link s t := by
  simp only [link, modifyLink, ExtTreeMap.getElem?_modify, order_eq_iff, Prod.mk.injEq]
  split
  · rename_i h
    rw [h.1, h.2]
  · rfl

/-- One direction of a connection. -/
def connect (n : SyncNetwork) (source target cycles capacity : ℕ) : Except Fault SyncNetwork := do
  let delay ← checkedMul cycles n.clock.period
  require (n.link source target = none) .invalidProfile "duplicate synchronization connection"
  pure { n with links := n.links.insert (source, target) { delay, capacity } }

def connectAll (n : SyncNetwork) : List SyncConnection → Except Fault SyncNetwork
  | [] => pure n
  | c :: rest => do
      require (c.first ≠ c.second ∧ 0 < c.capacity ∧ 0 < c.firstToSecond ∧ 0 < c.secondToFirst)
        .invalidProfile "invalid synchronization connection"
      let n ← n.connect c.first c.second c.firstToSecond c.capacity
      let n ← n.connect c.second c.first c.secondToFirst c.capacity
      n.connectAll rest

def make (clock : Clock) (connections : List SyncConnection) : Except Fault SyncNetwork := do
  clock.validate
  connectAll { clock } connections

def delay (n : SyncNetwork) (source target : ℕ) : Except Fault ℕ :=
  match n.link source target with
  | some link => pure link.delay
  | none => .error ⟨.unsupportedSynchronization, "sync target is not a connected neighbor"⟩

/-- Forget the signals that were consumed on an earlier tick. -/
def Link.prune (now : ℕ) (link : Link) : Link :=
  { link with signals := link.signals.filter fun s => ∀ tick ∈ s.consumed, now ≤ tick }

/-- The checks on a signal. The pruned link stays pruned if a later check fails. -/
def preflight (source target now : ℕ) : Sim SyncNetwork Unit := do
  let n ← Proc.get
  let _ ← n.delay source target
  require (n.clock.edge now) .protocol "sync signal sent off-edge"
  Proc.set (n.modifyLink source target (Link.prune now))
  let n ← Proc.get
  require (∀ link ∈ n.link source target, link.signals.length < link.capacity)
    .capacity "synchronization link capacity exceeded"
  let _ ← checkedAdd now (← n.delay source target)
  pure ()

def send (source target now : ℕ) : Sim SyncNetwork Unit := do
  preflight source target now
  let n ← Proc.get
  let arrival ← checkedAdd now (← n.delay source target)
  Proc.set (n.modifyLink source target fun link =>
    { link with signals := link.signals ++ [{ arrival }] })

/-- Consume the first signal that has arrived and has not been consumed. -/
def consume (now : ℕ) : List Signal → Option (ℕ × List Signal)
  | [] => none
  | s :: rest =>
      if s.consumed = none ∧ s.arrival ≤ now then some (s.arrival, { s with consumed := now } :: rest)
      else (consume now rest).map fun found => (found.1, s :: found.2)

/-- The arrival of the signal consumed, if there is one. -/
def receive (source target now : ℕ) : Sim SyncNetwork (Option ℕ) := do
  let n ← Proc.get
  match n.link source target with
  | none => .check (.error ⟨.protocol, "map index out of range"⟩)
  | some link =>
      match consume now link.signals with
      | none => pure none
      | some (arrival, signals) => do
          Proc.set (n.modifyLink source target fun link => { link with signals })
          pure (some arrival)

/-- Every signal has been consumed. -/
def empty (n : SyncNetwork) : Bool :=
  n.links.toList.all fun entry => entry.2.signals.all (·.consumed.isSome)

def reset (n : SyncNetwork) : SyncNetwork :=
  { n with links := n.links.map fun _ link => { link with signals := [] } }

/-! ## What the steps do to the links -/

/-- The arrivals of the signals that have not been consumed. -/
def Link.waiting (link : Link) : List ℕ :=
  (link.signals.filter fun s => s.consumed = none).map (·.arrival)

def waiting (n : SyncNetwork) (source target : ℕ) : List ℕ :=
  match n.link source target with
  | some link => link.waiting
  | none => []

/-- The network as its users see it has not changed. -/
structure Same (n n' : SyncNetwork) : Prop where
  clock : n'.clock = n.clock
  delay : ∀ s t, n'.delay s t = n.delay s t
  waiting : ∀ s t, n'.waiting s t = n.waiting s t

theorem Same.refl (n : SyncNetwork) : Same n n := ⟨rfl, fun _ _ => rfl, fun _ _ => rfl⟩

theorem Same.trans {n₁ n₂ n₃ : SyncNetwork} (h : Same n₁ n₂) (h' : Same n₂ n₃) : Same n₁ n₃ where
  clock := h'.clock.trans h.clock
  delay s t := (h'.delay s t).trans (h.delay s t)
  waiting s t := (h'.waiting s t).trans (h.waiting s t)

/-- Only the waiting signals of one link have changed. -/
structure Changed (n : SyncNetwork) (source target : ℕ) (f : List ℕ → List ℕ)
    (n' : SyncNetwork) : Prop where
  clock : n'.clock = n.clock
  delay : ∀ s t, n'.delay s t = n.delay s t
  waiting : n'.waiting source target = f (n.waiting source target)
  other : ∀ s t, ¬ (source = s ∧ target = t) → n'.waiting s t = n.waiting s t

theorem Same.changed {n₁ n₂ n₃ : SyncNetwork} {source target : ℕ} {f : List ℕ → List ℕ}
    (h : Same n₁ n₂) (h' : Changed n₂ source target f n₃) : Changed n₁ source target f n₃ where
  clock := h'.clock.trans h.clock
  delay s t := (h'.delay s t).trans (h.delay s t)
  waiting := by rw [h'.waiting, h.waiting]
  other s t hne := (h'.other s t hne).trans (h.waiting s t)

variable {n n' : SyncNetwork} {source target now : ℕ} {link : Link} {l : List TraceEvent}

theorem delay_eq_ok {d : ℕ} (h : n.delay source target = .ok d) :
    ∃ link, n.link source target = some link ∧ link.delay = d := by
  unfold delay at h
  cases hlink : n.link source target with
  | none => simp [hlink] at h
  | some link =>
    simp only [hlink, Except.pure_eq_ok_iff] at h
    exact ⟨link, rfl, h⟩

/-- A change of a link that keeps its delay. -/
theorem changed_modifyLink {f : Link → Link} {g : List ℕ → List ℕ}
    (hlink : n.link source target = some link) (hdelay : (f link).delay = link.delay)
    (hwaiting : (f link).waiting = g link.waiting) :
    Changed n source target g (n.modifyLink source target f) where
  clock := rfl
  delay s t := by
    by_cases h : source = s ∧ target = t
    · obtain ⟨rfl, rfl⟩ := h
      simp [delay, link_modifyLink, hlink, hdelay]
    · simp [delay, link_modifyLink, h]
  waiting := by simp [waiting, link_modifyLink, hlink, hwaiting]
  other s t h := by simp [waiting, link_modifyLink, h]

theorem waiting_prune (now : ℕ) (link : Link) : (link.prune now).waiting = link.waiting := by
  unfold Link.waiting Link.prune
  rw [List.filter_filter]
  congr 1
  refine List.filter_congr ?_
  intro s hs
  cases s.consumed <;> simp

theorem preflight_returns {u : Unit} (h : (preflight source target now).Returns n u n' l) :
    Same n n' ∧ n.clock.edge now ∧ l = [] := by
  simp only [preflight, Proc.returns_get_bind_iff, Proc.returns_lift_bind_iff, require_eq_ok_iff,
    exists_const, Proc.returns_set_bind_iff, Proc.returns_pure_iff] at h
  obtain ⟨d, hd, hedge, -, _, -, _, -, -, rfl, rfl⟩ := h
  obtain ⟨link, hlink, -⟩ := delay_eq_ok hd
  have hchanged : Changed n source target id (n.modifyLink source target (Link.prune now)) :=
    changed_modifyLink hlink rfl (waiting_prune now link)
  refine ⟨⟨rfl, hchanged.delay, ?_⟩, hedge, rfl⟩
  intro s t
  by_cases hst : source = s ∧ target = t
  · obtain ⟨rfl, rfl⟩ := hst
    exact hchanged.waiting
  · exact hchanged.other s t hst

theorem send_returns {u : Unit} {d : ℕ} (h : (send source target now).Returns n u n' l)
    (hd : n.delay source target = .ok d) :
    Changed n source target (· ++ [now + d]) n' ∧ n.clock.edge now ∧ l = [] := by
  obtain ⟨_, n₁, l₁, l₂, hpreflight, hrest, rfl⟩ := Proc.returns_bind_iff.1 h
  obtain ⟨hsame, hedge, rfl⟩ := preflight_returns hpreflight
  simp only [Proc.returns_get_bind_iff, Proc.returns_lift_bind_iff, Proc.returns_set_iff] at hrest
  obtain ⟨d', hd', arrival, harrival, rfl, rfl⟩ := hrest
  obtain ⟨link, hlink, -⟩ := delay_eq_ok hd'
  obtain rfl : d = d' := Except.ok.inj ((hd.symm.trans (hsame.delay source target).symm).trans hd')
  refine ⟨hsame.changed (changed_modifyLink hlink rfl ?_), hedge, rfl⟩
  simp [Link.waiting, eq_of_checkedAdd harrival]

/-- If no signal is consumed, none that waits has arrived. -/
theorem lt_of_consume_eq_none {signals : List Signal} (h : consume now signals = none) :
    ∀ arrival ∈ (signals.filter fun s => s.consumed = none).map (·.arrival), now < arrival := by
  induction signals with
  | nil => simp
  | cons s rest ih =>
    unfold consume at h
    split at h
    · simp at h
    · rename_i hs
      have hrest := ih (by simpa using h)
      by_cases hc : s.consumed = none
      · have hlate : now < s.arrival := by
          by_contra hle
          exact hs ⟨hc, by omega⟩
        intro arrival ha
        simp only [hc, decide_true, List.filter_cons_of_pos, List.map_cons, List.mem_cons] at ha
        rcases ha with rfl | ha
        · exact hlate
        · exact hrest arrival ha
      · simpa [hc] using hrest

/-- The signal consumed is the first one that waits, as signals arrive in order. -/
theorem waiting_of_consume {signals signals' : List Signal} {arrival : ℕ}
    (h : consume now signals = some (arrival, signals'))
    (hsorted : ((signals.filter fun s => s.consumed = none).map (·.arrival)).Pairwise (· ≤ ·)) :
    (signals.filter fun s => s.consumed = none).map (·.arrival) =
        arrival :: (signals'.filter fun s => s.consumed = none).map (·.arrival) ∧
      arrival ≤ now := by
  induction signals generalizing signals' with
  | nil => simp [consume] at h
  | cons s rest ih =>
    unfold consume at h
    split at h
    · rename_i hs
      obtain ⟨rfl, rfl⟩ := Prod.mk.inj (Option.some.inj h)
      simp [hs.1, hs.2]
    · rename_i hs
      simp only [Option.map_eq_some_iff, Prod.mk.injEq, Prod.exists] at h
      obtain ⟨_, found, hfound, rfl, rfl⟩ := h
      by_cases hc : s.consumed = none
      · -- A later signal has arrived, so this one has too.
        simp only [hc, decide_true, List.filter_cons_of_pos, List.map_cons,
          List.pairwise_cons] at hsorted
        obtain ⟨hwait, hle⟩ := ih hfound hsorted.2
        have hfirst := hsorted.1 _ (by rw [hwait]; exact List.mem_cons_self)
        exact absurd ⟨hc, hfirst.trans hle⟩ hs
      · simpa [hc] using ih hfound (by simpa [hc] using hsorted)

/-- What `receive` does to a link whose signals arrive in order. -/
theorem receive_returns {result : Option ℕ} (h : (receive source target now).Returns n result n' l)
    (hsorted : (n.waiting source target).Pairwise (· ≤ ·)) : l = [] ∧
      ((result = none ∧ n' = n ∧ ∀ arrival ∈ n.waiting source target, now < arrival) ∨
        ∃ arrival, result = some arrival ∧ arrival ≤ now ∧
          n.waiting source target = arrival :: n'.waiting source target ∧
          Changed n source target List.tail n') := by
  simp only [receive, Proc.returns_get_bind_iff] at h
  cases hlink : n.link source target with
  | none => simp [hlink] at h
  | some link =>
    simp only [hlink] at h
    have hwaiting : n.waiting source target = link.waiting := by simp [waiting, hlink]
    rw [hwaiting] at hsorted ⊢
    cases hconsume : consume now link.signals with
    | none =>
      simp only [hconsume, Proc.returns_pure_iff] at h
      obtain ⟨rfl, rfl, rfl⟩ := h
      exact ⟨rfl, .inl ⟨rfl, rfl, lt_of_consume_eq_none hconsume⟩⟩
    | some found =>
      obtain ⟨arrival, signals⟩ := found
      simp only [hconsume, Proc.returns_set_bind_iff, Proc.returns_pure_iff] at h
      obtain ⟨rfl, rfl, rfl⟩ := h
      obtain ⟨hwait, hle⟩ := waiting_of_consume hconsume hsorted
      have hchanged : Changed n source target List.tail
          (n.modifyLink source target fun link => { link with signals }) := by
        refine changed_modifyLink hlink rfl ?_
        unfold Link.waiting
        rw [hwait]
        rfl
      refine ⟨rfl, .inr ⟨arrival, rfl, hle, ?_, hchanged⟩⟩
      rw [hchanged.waiting, hwaiting]
      unfold Link.waiting
      rw [hwait]
      rfl

/-! ## Constructed networks -/

/-- A link between two neighbours: its delay is positive and a whole number of periods. -/
structure Link.Connects (clock : Clock) (source target : ℕ) (link : Link) : Prop where
  ne : source ≠ target
  pos : 0 < link.delay
  dvd : clock.period ∣ link.delay
  empty : link.signals = []

/-- Every link of the network connects two neighbours. -/
def Connected (n : SyncNetwork) : Prop :=
  ∀ s t link, n.link s t = some link → link.Connects n.clock s t

theorem connected_connect {cycles capacity : ℕ} (h : n.Connected) (hclock : n.clock.Valid)
    (hne : source ≠ target) (hpos : 0 < cycles)
    (hc : n.connect source target cycles capacity = .ok n') :
    n'.Connected ∧ n'.clock = n.clock := by
  simp only [connect, Except.bind_eq_ok_iff, require_eq_ok_iff, exists_const,
    Except.pure_eq_ok_iff] at hc
  obtain ⟨d, hd, -, rfl⟩ := hc
  refine ⟨?_, rfl⟩
  intro s t link hlink
  simp only [SyncNetwork.link, ExtTreeMap.getElem?_insert, order_eq_iff, Prod.mk.injEq] at hlink
  split at hlink
  · rename_i heq
    obtain ⟨rfl, rfl⟩ := heq
    obtain rfl := Option.some.inj hlink
    have hdelay := eq_of_checkedMul hd
    exact ⟨hne, by rw [hdelay]; exact Nat.mul_pos hpos hclock.period_pos,
      by rw [hdelay]; exact Dvd.intro_left cycles rfl, rfl⟩
  · exact h s t link hlink

theorem connected_connectAll {connections : List SyncConnection} (h : n.Connected)
    (hclock : n.clock.Valid) (hc : n.connectAll connections = .ok n') :
    n'.Connected ∧ n'.clock = n.clock := by
  induction connections generalizing n with
  | nil =>
    rw [← Except.pure_eq_ok_iff.1 hc]
    exact ⟨h, rfl⟩
  | cons c rest ih =>
    simp only [connectAll, Except.bind_eq_ok_iff, require_eq_ok_iff, exists_const] at hc
    obtain ⟨⟨hne, -, hfirst, hsecond⟩, n₁, h₁, n₂, h₂, hrest⟩ := hc
    obtain ⟨hconnected₁, hclock₁⟩ := connected_connect h hclock hne hfirst h₁
    obtain ⟨hconnected₂, hclock₂⟩ :=
      connected_connect hconnected₁ (hclock₁ ▸ hclock) hne.symm hsecond h₂
    have hsame : n₂.clock = n.clock := hclock₂.trans hclock₁
    obtain ⟨hconnected, hlast⟩ := ih hconnected₂ (hsame ▸ hclock) hrest
    exact ⟨hconnected, hlast.trans hsame⟩

/-- A network is constructed with its links in order and no signals on them. -/
theorem connected_of_make {clock : Clock} {connections : List SyncConnection}
    (h : make clock connections = .ok n) : n.Connected ∧ n.clock = clock ∧ clock.Valid := by
  simp only [make, Except.bind_eq_ok_iff] at h
  obtain ⟨_, hclock, h⟩ := h
  have hvalid := Clock.validate_eq_ok_iff.1 hclock
  have hempty : Connected { clock } := by
    intro s t link hlink
    simp [SyncNetwork.link] at hlink
  obtain ⟨hconnected, hsame⟩ := connected_connectAll hempty hvalid h
  exact ⟨hconnected, hsame, hvalid⟩

theorem Connected.waiting (h : n.Connected) (source target : ℕ) : n.waiting source target = [] := by
  unfold SyncNetwork.waiting
  cases hlink : n.link source target with
  | none => rfl
  | some link => simp [Link.waiting, (h _ _ _ hlink).empty]

end SyncNetwork

namespace SyncUnit

structure Booking where
  target : ℕ
  deadline : ℕ
  received : Bool := false
  deriving DecidableEq, Repr

end SyncUnit

structure SyncUnit where
  core : ℕ
  pending : Option SyncUnit.Booking := none
  deriving DecidableEq, Repr

namespace SyncUnit

/-- Whether a target can be booked. -/
def validate (u : SyncUnit) (n : SyncNetwork) (target : ℕ) : Except Fault Unit := do
  let _ ← n.delay u.core target
  pure ()

def preflightAll (core now : ℕ) : List ℕ → Sim SyncNetwork Unit
  | [] => pure ()
  | target :: rest => do
      SyncNetwork.preflight core target now
      preflightAll core now rest

def preflight (targets : List ℕ) (now : ℕ) : Sim (SyncUnit × SyncNetwork) Unit := do
  let (u, _) ← Proc.get
  require (targets.length ≤ 1 ∧ (targets = [] ∨ u.pending = none))
    .unsupportedSynchronization "overlapping sync bookings are unsupported"
  Proc.onSnd (preflightAll u.core now targets)

def bookAll (now epoch : ℕ) : List ℕ → Sim (SyncUnit × SyncNetwork) Unit
  | [] => pure ()
  | target :: rest => do
      let (u, n) ← Proc.get
      let deadline ← checkedAdd now (← n.delay u.core target)
      Proc.onSnd (SyncNetwork.send u.core target now)
      Proc.modify fun (u, n) => ({ u with pending := some { target, deadline } }, n)
      Proc.emit { tick := now, epoch, kind := .syncBooked, value := deadline, targets := [target] }
      bookAll now epoch rest

def book (targets : List ℕ) (now epoch : ℕ) : Sim (SyncUnit × SyncNetwork) Unit := do
  preflight targets now
  bookAll now epoch targets

/-- Consume the neighbour's signal for a booking that is waiting for it. -/
def receive (booking : Booking) (now epoch : ℕ) : Sim (SyncUnit × SyncNetwork) Booking := do
  if booking.received then pure booking else do
    let (u, _) ← Proc.get
    match ← Proc.onSnd (SyncNetwork.receive booking.target u.core now) with
    | none => pure booking
    | some arrival => do
        let booking := { booking with received := true }
        Proc.modify fun (u, n) => ({ u with pending := some booking }, n)
        Proc.emit
          { tick := now, epoch, kind := .syncReceived, value := arrival, targets := [booking.target] }
        pure booking

/-- One edge; yields whether the timer is paused. -/
def step (now epoch : ℕ) : Sim (SyncUnit × SyncNetwork) Bool := do
  let (u, _) ← Proc.get
  match u.pending with
  | none => pure false
  | some booking => do
      let booking ← receive booking now epoch
      if booking.deadline ≤ now ∧ booking.received then do
        Proc.emit { tick := now, epoch, kind := .syncCompleted, targets := [booking.target] }
        Proc.modify fun (u, n) => ({ u with pending := none }, n)
        pure false
      else pure (booking.deadline ≤ now)

def drained (u : SyncUnit) : Bool := u.pending.isNone

def reset (u : SyncUnit) : SyncUnit := { u with pending := none }

/-! ## What the steps of a unit do -/

section Steps
variable {u u' : SyncUnit} {n n' : SyncNetwork} {targets : List ℕ} {now epoch : ℕ} {x : Unit}
  {l : List TraceEvent}

theorem preflightAll_returns {core : ℕ} (h : (preflightAll core now targets).Returns n x n' l) :
    SyncNetwork.Same n n' ∧ l = [] := by
  induction targets generalizing n l with
  | nil =>
    obtain ⟨-, rfl, rfl⟩ := Proc.returns_pure_iff.1 h
    exact ⟨.refl n, rfl⟩
  | cons target rest ih =>
    obtain ⟨_, n₁, l₁, l₂, hfirst, hrest, rfl⟩ := Proc.returns_bind_iff.1 h
    obtain ⟨hsame, -, rfl⟩ := SyncNetwork.preflight_returns hfirst
    obtain ⟨hsame', rfl⟩ := ih hrest
    exact ⟨hsame.trans hsame', rfl⟩

theorem preflight_returns (h : (preflight targets now).Returns (u, n) x (u', n') l) :
    u' = u ∧ SyncNetwork.Same n n' ∧ l = [] ∧ targets.length ≤ 1 ∧
      (targets = [] ∨ u.pending = none) := by
  simp only [preflight, Proc.returns_get_bind_iff, Proc.returns_lift_bind_iff, require_eq_ok_iff,
    exists_const, Proc.returns_onSnd_iff] at h
  obtain ⟨⟨hlength, hfree⟩, hall, rfl⟩ := h
  obtain ⟨hsame, rfl⟩ := preflightAll_returns hall
  exact ⟨rfl, hsame, rfl, hlength, hfree⟩

/-- What a call of `book` has done. -/
inductive Books (now epoch : ℕ) (u : SyncUnit) (n : SyncNetwork) :
    List ℕ → SyncUnit → SyncNetwork → List TraceEvent → Prop
  | nothing (n' : SyncNetwork) (same : SyncNetwork.Same n n') : Books now epoch u n [] u n' []
  | booked (target d : ℕ) (n' : SyncNetwork) (free : u.pending = none) (edge : n.clock.edge now)
      (delay : n.delay u.core target = .ok d)
      (sent : SyncNetwork.Changed n u.core target (· ++ [now + d]) n') :
      Books now epoch u n [target] { u with pending := some { target, deadline := now + d } } n'
        [{ tick := now, epoch, kind := .syncBooked, value := now + d, targets := [target] }]

theorem book_returns (h : (book targets now epoch).Returns (u, n) x (u', n') l) :
    Books now epoch u n targets u' n' l := by
  obtain ⟨_, ⟨u₁, n₁⟩, l₁, l₂, hpreflight, hbook, rfl⟩ := Proc.returns_bind_iff.1 h
  obtain ⟨rfl, hsame, rfl, hlength, hfree⟩ := preflight_returns hpreflight
  match targets with
  | [] =>
    obtain ⟨-, heq, rfl⟩ := Proc.returns_pure_iff.1 hbook
    obtain ⟨rfl, rfl⟩ := Prod.mk.inj heq
    exact .nothing n₁ hsame
  | target :: [] =>
    simp only [bookAll, Proc.returns_get_bind_iff, Proc.returns_lift_bind_iff] at hbook
    obtain ⟨d, hd, deadline, hdeadline, hrest⟩ := hbook
    obtain ⟨_, ⟨u₂, n₂⟩, l₃, l₄, hboth, hlast, rfl⟩ := Proc.returns_bind_iff.1 hrest
    obtain ⟨hsend, rfl⟩ := Proc.returns_onSnd_iff.1 hboth
    obtain ⟨hchanged, hedge, rfl⟩ := SyncNetwork.send_returns hsend hd
    simp only [Proc.returns_modify_bind_iff, Proc.returns_emit_bind_iff, Proc.returns_pure_iff,
      Prod.mk.injEq] at hlast
    obtain ⟨_, ⟨-, ⟨rfl, rfl⟩, rfl⟩, rfl⟩ := hlast
    rw [hsame.delay] at hd
    rw [hsame.clock] at hedge
    rw [eq_of_checkedAdd hdeadline]
    exact .booked target d n₂ (by simpa using hfree) hedge hd (hsame.changed hchanged)
  | _ :: _ :: _ => simp at hlength

/-- Whether the signal for a booking has been received after an edge. -/
inductive Receives (now epoch core : ℕ) (b : Booking) (n : SyncNetwork) :
    Booking → SyncNetwork → List TraceEvent → Prop
  | already (h : b.received = true) : Receives now epoch core b n b n []
  | missing (h : b.received = false) (late : ∀ arrival ∈ n.waiting b.target core, now < arrival) :
      Receives now epoch core b n b n []
  | arrived (h : b.received = false) (arrival : ℕ) (n' : SyncNetwork) (le : arrival ≤ now)
      (first : n.waiting b.target core = arrival :: n'.waiting b.target core)
      (changed : SyncNetwork.Changed n b.target core List.tail n') :
      Receives now epoch core b n { b with received := true } n'
        [{ tick := now, epoch, kind := .syncReceived, value := arrival, targets := [b.target] }]

/-- What a call of `step` has done. -/
inductive Steps (now epoch : ℕ) (u : SyncUnit) (n : SyncNetwork) :
    Bool → SyncUnit → SyncNetwork → List TraceEvent → Prop
  | idle (free : u.pending = none) : Steps now epoch u n false u n []
  | completed (b b' : Booking) (n' : SyncNetwork) (log : List TraceEvent)
      (pending : u.pending = some b) (received : Receives now epoch u.core b n b' n' log)
      (due : b'.deadline ≤ now) (complete : b'.received = true) :
      Steps now epoch u n false { u with pending := none } n'
        (log ++ [{ tick := now, epoch, kind := .syncCompleted, targets := [b'.target] }])
  | waited (b b' : Booking) (n' : SyncNetwork) (log : List TraceEvent)
      (pending : u.pending = some b) (received : Receives now epoch u.core b n b' n' log)
      (waits : ¬ (b'.deadline ≤ now ∧ b'.received = true)) :
      Steps now epoch u n (b'.deadline ≤ now) { u with pending := some b' } n' log

theorem receive_returns {b b' : Booking} (hpending : u.pending = some b)
    (hsorted : (n.waiting b.target u.core).Pairwise (· ≤ ·))
    (h : (receive b now epoch).Returns (u, n) b' (u', n') l) :
    u' = { u with pending := some b' } ∧ Receives now epoch u.core b n b' n' l := by
  unfold receive at h
  by_cases hreceived : b.received = true
  · rw [if_pos hreceived] at h
    obtain ⟨rfl, heq, rfl⟩ := Proc.returns_pure_iff.1 h
    obtain ⟨rfl, rfl⟩ := Prod.mk.inj heq
    exact ⟨by rw [← hpending], .already hreceived⟩
  · rw [if_neg hreceived] at h
    have hmissing : b.received = false := by simpa using hreceived
    simp only [Proc.returns_get_bind_iff] at h
    obtain ⟨result, ⟨u₁, n₁⟩, l₁, l₂, hboth, hrest, rfl⟩ := Proc.returns_bind_iff.1 h
    obtain ⟨hreceive, rfl⟩ := Proc.returns_onSnd_iff.1 hboth
    obtain ⟨rfl, hcases⟩ := SyncNetwork.receive_returns hreceive hsorted
    rcases hcases with ⟨rfl, rfl, hlate⟩ | ⟨arrival, rfl, hle, hfirst, hchanged⟩
    · obtain ⟨rfl, heq, rfl⟩ := Proc.returns_pure_iff.1 hrest
      obtain ⟨rfl, rfl⟩ := Prod.mk.inj heq
      exact ⟨by rw [← hpending], .missing hmissing hlate⟩
    · simp only [Proc.returns_modify_bind_iff, Proc.returns_emit_bind_iff, Proc.returns_pure_iff,
        Prod.mk.injEq] at hrest
      obtain ⟨_, ⟨rfl, ⟨rfl, rfl⟩, rfl⟩, rfl⟩ := hrest
      exact ⟨rfl, .arrived hmissing arrival n₁ hle hfirst hchanged⟩

theorem step_returns {paused : Bool}
    (hsorted : ∀ b ∈ u.pending, (n.waiting b.target u.core).Pairwise (· ≤ ·))
    (h : (step now epoch).Returns (u, n) paused (u', n') l) :
    Steps now epoch u n paused u' n' l := by
  simp only [step, Proc.returns_get_bind_iff] at h
  cases hpending : u.pending with
  | none =>
    simp only [hpending, Proc.returns_pure_iff, Prod.mk.injEq] at h
    obtain ⟨rfl, ⟨rfl, rfl⟩, rfl⟩ := h
    exact .idle hpending
  | some b =>
    simp only [hpending] at h
    obtain ⟨b', ⟨u₁, n₁⟩, l₁, l₂, hreceive, hrest, rfl⟩ := Proc.returns_bind_iff.1 h
    obtain ⟨rfl, hreceives⟩ := receive_returns hpending (hsorted b hpending) hreceive
    split at hrest
    · rename_i hdone
      simp only [Proc.returns_emit_bind_iff, Proc.returns_modify_bind_iff, Proc.returns_pure_iff,
        Prod.mk.injEq] at hrest
      obtain ⟨_, ⟨rfl, ⟨rfl, rfl⟩, rfl⟩, rfl⟩ := hrest
      exact .completed b b' n₁ l₁ hpending hreceives hdone.1 hdone.2
    · rename_i hwaits
      obtain ⟨rfl, heq, rfl⟩ := Proc.returns_pure_iff.1 hrest
      obtain ⟨rfl, rfl⟩ := Prod.mk.inj heq
      rw [List.append_nil]
      exact .waited b b' n₁ l₁ hpending hreceives hwaits

end Steps

end SyncUnit
end Qsbit

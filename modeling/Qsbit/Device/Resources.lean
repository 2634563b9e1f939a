import Qsbit.ControlProtocol

/-!
# Resource reservations

Every accepted action reserves its output port, its resources and its targets for
its interval. A new action is checked against each reservation and against the
actions before it in its batch.

## Main definitions

* `ResourceReservations.pair` — the check of two actions.
* `ResourceReservations.check`, `discardBefore` — the check of a batch and the pruning.
* `Excludes` — what two compatible actions may share.
-/
namespace Qsbit

def isArm (a : EventSpec) : Bool := a.kind = .discriminatorArm

def isGate (a : EventSpec) : Bool := a.kind = .idealGate ∨ a.kind = .gateOutput

def commonTarget (a b : EventSpec) : Bool := a.targets.any fun q => q ∈ b.targets

/-- Both actions are outputs of one two-qubit gate. -/
def sameGate (a b : EventSpec) : Bool :=
  match a.spec, b.spec with
  | .gateOutput x, .gateOutput y => x.gate = y.gate
  | _, _ => false

namespace ResourceReservations

/-- An acquisition ends on the tick on which a gate on one of its targets starts. -/
def measurementGate (a b : ScheduledEvent) : Bool :=
  (a.resolved.kind = .acquire ∧ isGate b.resolved ∧ a.end = b.start) ∨
    (b.resolved.kind = .acquire ∧ isGate a.resolved ∧ b.end = a.start)

def checkSample (a b : ScheduledEvent) : Except Fault Unit :=
  require (commonTarget a.resolved b.resolved → measurementGate a b = false) .resourceConflict
    "measurement sample and ideal gate share a target and tick"

def pair (a b : ScheduledEvent) : Except Fault Unit := do
  let x := a.resolved
  let y := b.resolved
  if a.start < b.end ∧ b.start < a.end then do
    require (x.port ≠ y.port) .resourceConflict "output port intervals overlap"
    if sameGate a.event.action b.event.action then
      require (a.start = b.start ∧ a.end = b.end) .gateInputMismatch
        "two-qubit gate output intervals differ"
    else do
      require (∀ rx ∈ x.resources, ∀ ry ∈ y.resources,
          rx.id ≠ ry.id ∨ (rx.exclusive = false ∧ ry.exclusive = false))
        .resourceConflict "exclusive resource intervals overlap"
      require (isArm x = false → isArm y = false → commonTarget x y →
          x.kind = .pulse ∧ y.kind = .pulse)
        .resourceConflict "incompatible quantum actions overlap on one target"
      checkSample a b
  else checkSample a b

/-- The check of an action against the reservations. -/
def checkReserved (action : ScheduledEvent) : List ScheduledEvent → Except Fault Unit
  | [] => pure ()
  | old :: rest => do
      require (old.event.id ≠ action.event.id) .protocol "action was already reserved"
      pair action old
      checkReserved action rest

/-- The check of an action against those before it in its batch. -/
def checkBefore (action : ScheduledEvent) : List ScheduledEvent → Except Fault Unit
  | [] => pure ()
  | other :: rest => do
      pair action other
      checkBefore action rest

def checkFrom (reservations before : List ScheduledEvent) :
    List ScheduledEvent → Except Fault Unit
  | [] => pure ()
  | action :: rest => do
      require (∀ b ∈ before, b.event.id ≠ action.event.id) .protocol "duplicate action in launch"
      checkReserved action reservations
      checkBefore action before
      checkFrom reservations (before ++ [action]) rest

def check (reservations actions : List ScheduledEvent) : Except Fault Unit :=
  checkFrom reservations [] actions

def reserve (reservations actions : List ScheduledEvent) :
    Except Fault (List ScheduledEvent) := do
  check reservations actions
  pure (reservations ++ actions)

def discardBefore (now : ℕ) (reservations : List ScheduledEvent) : List ScheduledEvent :=
  reservations.filter fun action => now ≤ action.end

/-! ## What a check means -/

/-- A new action and an earlier one with different identities that exclude nothing of each other. -/
structure Compatible (new old : ScheduledEvent) : Prop where
  id : old.event.id ≠ new.event.id
  pair : pair new old = .ok ()

theorem checkReserved_eq_ok_iff {action : ScheduledEvent} {reservations : List ScheduledEvent}
    {u : Unit} : checkReserved action reservations = .ok u ↔ ∀ old ∈ reservations, Compatible action old := by
  induction reservations with
  | nil => simp [checkReserved]
  | cons old rest ih =>
    simp only [checkReserved, Except.bind_eq_ok_iff, require_eq_ok_iff, ih, exists_const,
      List.forall_mem_cons]
    constructor
    · rintro ⟨hid, _, hpair, hrest⟩
      exact ⟨⟨hid, hpair⟩, hrest⟩
    · rintro ⟨hold, hrest⟩
      exact ⟨hold.id, (), hold.pair, hrest⟩

theorem checkBefore_eq_ok_iff {action : ScheduledEvent} {before : List ScheduledEvent} {u : Unit} :
    checkBefore action before = .ok u ↔ ∀ other ∈ before, pair action other = .ok () := by
  induction before with
  | nil => simp [checkBefore]
  | cons other rest ih =>
    simp only [checkBefore, Except.bind_eq_ok_iff, ih, List.forall_mem_cons]
    constructor
    · rintro ⟨_, hpair, hrest⟩
      exact ⟨hpair, hrest⟩
    · rintro ⟨hpair, hrest⟩
      exact ⟨(), hpair, hrest⟩

theorem checkFrom_eq_ok_iff {reservations before actions : List ScheduledEvent} {u : Unit} :
    checkFrom reservations before actions = .ok u ↔
      (∀ a ∈ actions, (∀ old ∈ reservations, Compatible a old) ∧
        ∀ other ∈ before, Compatible a other) ∧
        actions.Pairwise fun other a => Compatible a other := by
  induction actions generalizing before with
  | nil => simp [checkFrom]
  | cons action rest ih =>
    simp only [checkFrom, Except.bind_eq_ok_iff, require_eq_ok_iff, exists_const,
      checkReserved_eq_ok_iff, checkBefore_eq_ok_iff, ih, List.forall_mem_cons,
      List.pairwise_cons, List.forall_mem_append, List.mem_singleton, forall_eq]
    constructor
    · rintro ⟨hids, hreserved, hbefore, hrest, hpairwise⟩
      exact ⟨⟨⟨hreserved, fun b hb => ⟨hids b hb, hbefore b hb⟩⟩,
        fun a ha => ⟨(hrest a ha).1, (hrest a ha).2.1⟩⟩, fun a ha => (hrest a ha).2.2, hpairwise⟩
    · rintro ⟨⟨⟨hreserved, hbefore⟩, hrest⟩, hfirst, hpairwise⟩
      exact ⟨fun b hb => (hbefore b hb).id, hreserved, fun b hb => (hbefore b hb).pair,
        fun a ha => ⟨(hrest a ha).1, (hrest a ha).2, hfirst a ha⟩, hpairwise⟩

/-- A batch is accepted when its actions are compatible with the reservations and each other. -/
theorem check_eq_ok_iff {reservations actions : List ScheduledEvent} {u : Unit} :
    check reservations actions = .ok u ↔
      (∀ a ∈ actions, ∀ old ∈ reservations, Compatible a old) ∧
        actions.Pairwise fun other a => Compatible a other := by
  simp [check, checkFrom_eq_ok_iff]

/-- An action that has ended before another starts does not restrict it. -/
theorem pair_of_end_lt {new old : ScheduledEvent} (hnew : new.start ≤ new.end)
    (hold : old.start ≤ old.end) (h : old.end < new.start) : pair new old = .ok () := by
  have hoverlap : ¬ (new.start < old.end ∧ old.start < new.end) := by omega
  have hgate : measurementGate new old = false := by
    simp only [measurementGate, decide_eq_false_iff_not, not_or, not_and]
    exact ⟨fun _ _ => by omega, fun _ _ => by omega⟩
  simp [pair, checkSample, hoverlap, hgate, require]

/-- What two actions may share. -/
structure Excludes (a b : ScheduledEvent) : Prop where
  port : a.start < b.end → b.start < a.end → a.resolved.port ≠ b.resolved.port
  gate : a.start < b.end → b.start < a.end → sameGate a.event.action b.event.action →
    a.start = b.start ∧ a.end = b.end
  resource : a.start < b.end → b.start < a.end → sameGate a.event.action b.event.action = false →
    ∀ x ∈ a.resolved.resources, ∀ y ∈ b.resolved.resources, x.id = y.id →
      x.exclusive = false ∧ y.exclusive = false
  target : a.start < b.end → b.start < a.end → sameGate a.event.action b.event.action = false →
    ∀ q ∈ a.resolved.targets, q ∈ b.resolved.targets →
      (a.resolved.kind = .pulse ∧ b.resolved.kind = .pulse) ∨
        a.resolved.kind = .discriminatorArm ∨ b.resolved.kind = .discriminatorArm
  sample : ∀ q ∈ a.resolved.targets, q ∈ b.resolved.targets →
    (a.resolved.kind = .acquire → isGate b.resolved → a.end ≠ b.start) ∧
      (b.resolved.kind = .acquire → isGate a.resolved → b.end ≠ a.start)

theorem sameGate_comm {a b : EventSpec} : sameGate a b = sameGate b a := by
  unfold sameGate
  cases a.spec <;> cases b.spec <;> simp [eq_comm]

theorem Excludes.symm {a b : ScheduledEvent} (h : Excludes a b) : Excludes b a where
  port h₁ h₂ := (h.port h₂ h₁).symm
  gate h₁ h₂ hs := by
    obtain ⟨hstart, hend⟩ := h.gate h₂ h₁ (sameGate_comm ▸ hs)
    exact ⟨hstart.symm, hend.symm⟩
  resource h₁ h₂ hs x hx y hy hid := (h.resource h₂ h₁ (sameGate_comm ▸ hs) y hy x hx hid.symm).symm
  target h₁ h₂ hs q hq hq' := by
    rcases h.target h₂ h₁ (sameGate_comm ▸ hs) q hq' hq with hp | ha | hb
    · exact .inl hp.symm
    · exact .inr (.inr ha)
    · exact .inr (.inl hb)
  sample q hq hq' := (h.sample q hq' hq).symm

theorem commonTarget_of_mem {a b : EventSpec} {q : ℕ} (ha : q ∈ a.targets) (hb : q ∈ b.targets) :
    commonTarget a b = true := by
  simp only [commonTarget, List.any_eq_true, decide_eq_true_eq]
  exact ⟨q, ha, hb⟩

theorem not_sampled_of_checkSample {a b : ScheduledEvent} (h : checkSample a b = .ok ()) {q : ℕ}
    (ha : q ∈ a.resolved.targets) (hb : q ∈ b.resolved.targets) :
    (a.resolved.kind = .acquire → isGate b.resolved → a.end ≠ b.start) ∧
      (b.resolved.kind = .acquire → isGate a.resolved → b.end ≠ a.start) := by
  simp only [checkSample, require_eq_ok_iff] at h
  have hgate := h (commonTarget_of_mem ha hb)
  simp only [measurementGate, decide_eq_false_iff_not, not_or, not_and] at hgate
  exact hgate

/-- An output of a two-qubit gate, as it is before it is resolved, is not an acquisition. -/
theorem excludes_of_pair {a b : ScheduledEvent} (h : pair a b = .ok ())
    (hgate : sameGate a.event.action b.event.action →
      a.resolved.kind ≠ .acquire ∧ b.resolved.kind ≠ .acquire) : Excludes a b := by
  by_cases hoverlap : a.start < b.end ∧ b.start < a.end
  · simp only [pair, if_pos hoverlap, Except.bind_eq_ok_iff, require_eq_ok_iff,
      exists_const] at h
    obtain ⟨hport, h⟩ := h
    by_cases hsame : sameGate a.event.action b.event.action = true
    · simp only [if_pos hsame, require_eq_ok_iff] at h
      exact
        { port := fun _ _ => hport
          gate := fun _ _ _ => h
          resource := fun _ _ hn => by simp [hsame] at hn
          target := fun _ _ hn => by simp [hsame] at hn
          sample := fun q ha hb => ⟨fun hk => absurd hk (hgate hsame).1,
            fun hk => absurd hk (hgate hsame).2⟩ }
    · simp only [if_neg hsame, Except.bind_eq_ok_iff, require_eq_ok_iff, exists_const] at h
      obtain ⟨hresources, htargets, hsample⟩ := h
      exact
        { port := fun _ _ => hport
          gate := fun _ _ hs => absurd hs hsame
          resource := fun _ _ _ x hx y hy hid =>
            (hresources x hx y hy).resolve_left (not_not.2 hid)
          target := by
            intro _ _ _ q ha hb
            by_cases hx : isArm a.resolved = false
            · by_cases hy : isArm b.resolved = false
              · exact .inl (htargets hx hy (commonTarget_of_mem ha hb))
              · exact .inr (.inr (by simpa [isArm] using hy))
            · exact .inr (.inl (by simpa [isArm] using hx))
          sample := fun q ha hb => not_sampled_of_checkSample hsample ha hb }
  · simp only [pair, if_neg hoverlap] at h
    exact
      { port := fun h₁ h₂ => absurd ⟨h₁, h₂⟩ hoverlap
        gate := fun h₁ h₂ => absurd ⟨h₁, h₂⟩ hoverlap
        resource := fun h₁ h₂ => absurd ⟨h₁, h₂⟩ hoverlap
        target := fun h₁ h₂ => absurd ⟨h₁, h₂⟩ hoverlap
        sample := fun q ha hb => not_sampled_of_checkSample h ha hb }

end ResourceReservations
end Qsbit

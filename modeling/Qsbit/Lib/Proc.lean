import Qsbit.Lib.Log

/-!
# Procedures: owned state, an append-only log and faults

A `Proc ε ρ σ α` is a program over a state it owns. It may read and replace the
state, append records to a log and stop with a fault. A fault does not undo
anything: the state reached and the records appended before it survive, as they
do when an imperative program throws.

A log may refuse a record that is older than its last one. A program is therefore
run behind the last stamp of the log that it appends to, and part of every program
is that this makes no difference as long as its records are in order.

Programs are inspected through two big-step judgements, `Returns` and `Raises`,
each with one rule per combinator. Simplifying with the rules turns a judgement
about a whole program into the facts about its steps. The two are about a log that
takes every record; `ReturnsAfter` and `RaisesAfter` are about one that does not.

## Main definitions

* `Outcome` — a result, the final state and the appended records.
* `Proc` — a procedure; `get`, `set`, `modify`, `emit` and `check` are its primitives.
* `Proc.zoom` — run a procedure on one component of a larger state.
* `Proc.Returns`, `Proc.Raises` — the two judgements.
* `Proc.ReturnsAfter`, `Proc.RaisesAfter` — the judgements behind the last stamp of a log.
-/

namespace Except
variable {ε α β : Type}

/-- A sequence succeeds exactly when its first step does and the rest follows. -/
@[simp] theorem bind_eq_ok_iff {x : Except ε α} {f : α → Except ε β} {b : β} :
    (x >>= f) = .ok b ↔ ∃ a, x = .ok a ∧ f a = .ok b := by
  cases x <;> simp [Bind.bind, Except.bind]

/-- A sequence fails in its first step, or after it. -/
@[simp] theorem bind_eq_error_iff {x : Except ε α} {f : α → Except ε β} {e : ε} :
    (x >>= f) = .error e ↔ x = .error e ∨ ∃ a, x = .ok a ∧ f a = .error e := by
  cases x <;> simp [Bind.bind, Except.bind]

@[simp] theorem pure_eq_ok_iff {a b : α} : (pure a : Except ε α) = .ok b ↔ a = b := by
  simp [pure, Except.pure]

/-- The value of a check that succeeds. -/
theorem eq_ok_get {x : Except ε α} (h : x.toOption.isSome = true) :
    x = .ok (x.toOption.get h) := by
  cases x with
  | error e => simp [Except.toOption] at h
  | ok a => rfl

@[simp] theorem pure_ne_error {a : α} {e : ε} : (pure a : Except ε α) ≠ .error e := by
  simp [pure, Except.pure]

end Except

/-- What a procedure leaves behind: its result, the state and the new records. -/
structure Outcome (ε ρ σ α : Type) where
  result : Except ε α
  state : σ
  log : List ρ

/-- Programs whose log refuses a record that is older than the last one. -/
class LogFault (ε : Type) where
  decreased : ε

/-- A program over an owned state `σ` that logs records `ρ` and faults with `ε`. It runs behind
the last stamp of the log, or behind `none` when the log takes every record; as long as the
records are in order the two do not differ. -/
structure Proc (ε ρ σ : Type) [Stamped ρ] (α : Type) where
  run : Option ℕ → σ → Outcome ε ρ σ α
  ordered : ∀ last s, Log.Ordered last (run none s).log → run (some last) s = run none s

namespace Proc
variable {ε ρ σ τ α β : Type} [Stamped ρ]

/-- The outcome of a program whose log takes every record. -/
instance : CoeFun (Proc ε ρ σ α) fun _ => σ → Outcome ε ρ σ α where
  coe x := x.run none

@[ext] theorem ext {x y : Proc ε ρ σ α} (h : ∀ place s, x.run place s = y.run place s) : x = y := by
  cases x
  cases y
  congr
  exact funext fun place => funext (h place)

/-- Continue in the state reached; a fault skips the continuation and keeps the state. -/
def bind (x : Proc ε ρ σ α) (f : α → Proc ε ρ σ β) : Proc ε ρ σ β where
  run place s := match x.run place s with
    | ⟨.ok a, s₁, l₁⟩ =>
        let rest := (f a).run (place.map (Log.latest · l₁)) s₁
        ⟨rest.result, rest.state, l₁ ++ rest.log⟩
    | ⟨.error e, s₁, l₁⟩ => ⟨.error e, s₁, l₁⟩
  ordered last s h := by
    have hx := x.ordered last s
    rcases hrun : x.run none s with ⟨e | a, s₁, l₁⟩
    · simp only [hrun] at h hx ⊢
      rw [hx h]
    · simp only [hrun, Option.map_none] at h hx ⊢
      obtain ⟨h₁, h₂⟩ := Log.ordered_append.1 h
      rw [hx h₁]
      simp only [Option.map_some, (f a).ordered _ s₁ h₂]

instance : Monad (Proc ε ρ σ) where
  pure a := ⟨fun _ s => ⟨.ok a, s, []⟩, fun _ _ _ => rfl⟩
  bind := bind

/-- A check of values only: it either yields a value or faults, and touches nothing. -/
def check (e : Except ε α) : Proc ε ρ σ α := ⟨fun _ s => ⟨e, s, []⟩, fun _ _ _ => rfl⟩

instance : MonadLift (Except ε) (Proc ε ρ σ) where
  monadLift := check

/-- Read the owned state. -/
def get : Proc ε ρ σ σ := ⟨fun _ s => ⟨.ok s, s, []⟩, fun _ _ _ => rfl⟩

/-- Replace the owned state. -/
def set (s : σ) : Proc ε ρ σ Unit := ⟨fun _ _ => ⟨.ok (), s, []⟩, fun _ _ _ => rfl⟩

/-- Update the owned state. -/
def modify (f : σ → σ) : Proc ε ρ σ Unit := ⟨fun _ s => ⟨.ok (), f s, []⟩, fun _ _ _ => rfl⟩

/-- Append one record to the log, unless it is older than the last one. -/
def emit [LogFault ε] (r : ρ) : Proc ε ρ σ Unit where
  run place s := match place with
    | none => ⟨.ok (), s, [r]⟩
    | some last =>
        if Log.Allowed last r then ⟨.ok (), s, [r]⟩ else ⟨.error LogFault.decreased, s, []⟩
  ordered _ _ h := if_pos h.1

/-- Append records in order. -/
def emitAll [LogFault ε] : List ρ → Proc ε ρ σ Unit
  | [] => Pure.pure ()
  | r :: rest => bind (emit r) fun _ => emitAll rest

/-- Run a procedure on the value of an option, if there is one. -/
def forSome (o : Option α) (f : α → Proc ε ρ σ Unit) : Proc ε ρ σ Unit :=
  match o with
  | some a => f a
  | none => Pure.pure ()

/-- Run a procedure on a component, given how to read and how to replace it. -/
def zoom (view : τ → σ) (put : σ → τ → τ) (x : Proc ε ρ σ α) : Proc ε ρ τ α where
  run place t :=
    let inner := x.run place (view t)
    ⟨inner.result, put inner.state t, inner.log⟩
  ordered last t h := by simp only [x.ordered last (view t) h]

/-- Run a procedure on the first component of a pair. -/
def onFst (x : Proc ε ρ σ α) : Proc ε ρ (σ × τ) α := zoom Prod.fst (fun s p => (s, p.2)) x

/-- Run a procedure on the second component of a pair. -/
def onSnd (x : Proc ε ρ τ α) : Proc ε ρ (σ × τ) α := zoom Prod.snd (fun t p => (p.1, t)) x

/-- Run a procedure and handle its fault in the state it reached. -/
def handle (x : Proc ε ρ σ α) (f : ε → Proc ε ρ σ α) : Proc ε ρ σ α where
  run place s := match x.run place s with
    | ⟨.ok a, s₁, l₁⟩ => ⟨.ok a, s₁, l₁⟩
    | ⟨.error e, s₁, l₁⟩ =>
        let rest := (f e).run (place.map (Log.latest · l₁)) s₁
        ⟨rest.result, rest.state, l₁ ++ rest.log⟩
  ordered last s h := by
    have hx := x.ordered last s
    rcases hrun : x.run none s with ⟨e | a, s₁, l₁⟩
    · simp only [hrun, Option.map_none] at h hx ⊢
      obtain ⟨h₁, h₂⟩ := Log.ordered_append.1 h
      rw [hx h₁]
      simp only [Option.map_some, (f e).ordered _ s₁ h₂]
    · simp only [hrun] at h hx ⊢
      rw [hx h]

/-- A procedure that cannot log anything, among procedures that can. -/
def silent (x : Proc ε Empty σ α) : Proc ε ρ σ α :=
  ⟨fun _ s => ⟨(x s).result, (x s).state, []⟩, fun _ _ _ => rfl⟩

/-- Run a procedure whose records are some of the records of a larger program. -/
def translate {ρ' : Type} [Stamped ρ'] (f : ρ → ρ') (hf : ∀ r, Stamped.stamp (f r) = Stamped.stamp r)
    (x : Proc ε ρ σ α) : Proc ε ρ' σ α where
  run place s :=
    let inner := x.run place s
    ⟨inner.result, inner.state, inner.log.map f⟩
  ordered last s h := by simp only [x.ordered last s ((Log.ordered_map hf).1 h)]

/-- Run a procedure for each element of a list, in order. -/
def forEach {ι : Type} (f : ι → Proc ε ρ σ Unit) : List ι → Proc ε ρ σ Unit
  | [] => Pure.pure ()
  | i :: rest => bind (f i) fun _ => forEach f rest

/-! ## The two judgements -/

/-- From `s` the procedure yields `a` in state `s'`, having appended `l` to a log that takes every
record. -/
def Returns (x : Proc ε ρ σ α) (s : σ) (a : α) (s' : σ) (l : List ρ) : Prop :=
  x s = ⟨.ok a, s', l⟩

/-- From `s` the procedure faults with `e` in state `s'`, having appended `l` to a log that takes
every record. -/
def Raises (x : Proc ε ρ σ α) (s : σ) (e : ε) (s' : σ) (l : List ρ) : Prop :=
  x s = ⟨.error e, s', l⟩

variable {s s' : σ} {a : α} {b : β} {e : ε} {l : List ρ}

/-- The outcome of a procedure of which the value is known. -/
theorem returns_of_result {x : Proc ε ρ σ α} (h : (x s).result.toOption = some a) :
    x.Returns s a (x s).state (x s).log := by
  unfold Returns
  rcases hx : x s with ⟨_ | b, s', l⟩
  · simp [hx, Except.toOption] at h
  · rw [hx] at h
    obtain rfl := Option.some.inj h
    rfl

/-- The outcome of a procedure that does not fault. -/
theorem returns_of_isSome {x : Proc ε ρ σ Unit} (h : (x s).result.toOption.isSome = true) :
    x.Returns s () (x s).state (x s).log := by
  obtain ⟨u, hu⟩ := Option.isSome_iff_exists.1 h
  exact returns_of_result hu

/-- A procedure is deterministic: it cannot both yield a value and fault. -/
theorem Returns.not_raises {x : Proc ε ρ σ α} {s₂ : σ} {l₂ : List ρ}
    (h : x.Returns s a s' l) : ¬ x.Raises s e s₂ l₂ := by
  intro h'
  have := h.symm.trans h'
  simp at this

@[simp] theorem returns_pure_iff {a' : α} :
    (pure a : Proc ε ρ σ α).Returns s a' s' l ↔ a = a' ∧ s = s' ∧ [] = l := by
  simp [Returns, pure]

@[simp] theorem not_raises_pure : ¬ (pure a : Proc ε ρ σ α).Raises s e s' l := by
  simp [Raises, pure]

@[simp] theorem returns_check_iff {x : Except ε α} :
    (check x : Proc ε ρ σ α).Returns s a s' l ↔ x = .ok a ∧ s = s' ∧ [] = l := by
  simp [Returns, check]

@[simp] theorem raises_check_iff {x : Except ε α} :
    (check x : Proc ε ρ σ α).Raises s e s' l ↔ x = .error e ∧ s = s' ∧ [] = l := by
  simp [Raises, check]

@[simp] theorem returns_lift_iff {x : Except ε α} :
    (liftM x : Proc ε ρ σ α).Returns s a s' l ↔ x = .ok a ∧ s = s' ∧ [] = l :=
  returns_check_iff

@[simp] theorem raises_lift_iff {x : Except ε α} :
    (liftM x : Proc ε ρ σ α).Raises s e s' l ↔ x = .error e ∧ s = s' ∧ [] = l :=
  raises_check_iff

@[simp] theorem returns_get_iff {t : σ} :
    (get : Proc ε ρ σ σ).Returns s t s' l ↔ s = t ∧ s = s' ∧ [] = l := by
  simp [Returns, get]

@[simp] theorem not_raises_get : ¬ (get : Proc ε ρ σ σ).Raises s e s' l := by simp [Raises, get]

@[simp] theorem returns_set_iff {t : σ} {u : Unit} :
    (set t : Proc ε ρ σ Unit).Returns s u s' l ↔ t = s' ∧ [] = l := by
  simp [Returns, set]

@[simp] theorem not_raises_set {t : σ} : ¬ (set t : Proc ε ρ σ Unit).Raises s e s' l := by
  simp [Raises, set]

@[simp] theorem returns_modify_iff {f : σ → σ} {u : Unit} :
    (modify f : Proc ε ρ σ Unit).Returns s u s' l ↔ f s = s' ∧ [] = l := by
  simp [Returns, modify]

@[simp] theorem not_raises_modify {f : σ → σ} : ¬ (modify f : Proc ε ρ σ Unit).Raises s e s' l := by
  simp [Raises, modify]

@[simp] theorem returns_emit_iff [LogFault ε] {r : ρ} {u : Unit} :
    (emit r : Proc ε ρ σ Unit).Returns s u s' l ↔ s = s' ∧ [r] = l := by
  simp [Returns, emit]

@[simp] theorem not_raises_emit [LogFault ε] {r : ρ} : ¬ (emit r : Proc ε ρ σ Unit).Raises s e s' l := by
  simp [Raises, emit]

/-- A log that takes every record takes a list of them. -/
theorem emitAll_apply [LogFault ε] {rs : List ρ} : (emitAll rs : Proc ε ρ σ Unit) s = ⟨.ok (), s, rs⟩ := by
  induction rs with
  | nil => rfl
  | cons r rest ih =>
    change (bind (emit r) fun _ => emitAll rest) s = _
    simp only [bind, emit, Option.map_none, ih, List.singleton_append]

@[simp] theorem returns_emitAll_iff [LogFault ε] {rs : List ρ} {u : Unit} :
    (emitAll rs : Proc ε ρ σ Unit).Returns s u s' l ↔ s = s' ∧ rs = l := by
  simp [Returns, emitAll_apply]

@[simp] theorem not_raises_emitAll [LogFault ε] {rs : List ρ} :
    ¬ (emitAll rs : Proc ε ρ σ Unit).Raises s e s' l := by
  simp [Raises, emitAll_apply]

@[simp] theorem forSome_none (f : α → Proc ε ρ σ Unit) : forSome none f = pure () := rfl

@[simp] theorem forSome_some (a : α) (f : α → Proc ε ρ σ Unit) : forSome (some a) f = f a := rfl

/-- A sequence whose log takes every record. -/
theorem bind_apply {x : Proc ε ρ σ α} {f : α → Proc ε ρ σ β} : (x >>= f) s =
    match x s with
    | ⟨.ok a, s₁, l₁⟩ => ⟨(f a s₁).result, (f a s₁).state, l₁ ++ (f a s₁).log⟩
    | ⟨.error e, s₁, l₁⟩ => ⟨.error e, s₁, l₁⟩ := rfl

/-- A handled procedure whose log takes every record. -/
theorem handle_apply {x : Proc ε ρ σ α} {f : ε → Proc ε ρ σ α} : (handle x f) s =
    match x s with
    | ⟨.ok a, s₁, l₁⟩ => ⟨.ok a, s₁, l₁⟩
    | ⟨.error e, s₁, l₁⟩ => ⟨(f e s₁).result, (f e s₁).state, l₁ ++ (f e s₁).log⟩ := rfl

/-- A sequence yields a value when both halves do, through one middle state. -/
@[simp] theorem returns_bind_iff {x : Proc ε ρ σ α} {f : α → Proc ε ρ σ β} :
    (x >>= f).Returns s b s' l ↔
      ∃ a s₁ l₁ l₂, x.Returns s a s₁ l₁ ∧ (f a).Returns s₁ b s' l₂ ∧ l₁ ++ l₂ = l := by
  unfold Returns
  rw [bind_apply]
  rcases hx : x s with ⟨_ | a, s₁, l₁⟩
  · simp
  · simp only [Outcome.mk.injEq, Except.ok.injEq]
    constructor
    · rintro ⟨hr, hs, hl⟩
      exact ⟨a, s₁, l₁, (f a s₁).log, ⟨rfl, rfl, rfl⟩, by rw [← hr, ← hs], hl⟩
    · rintro ⟨_, _, _, _, ⟨rfl, rfl, rfl⟩, hf, hl⟩
      rw [hf]
      exact ⟨rfl, rfl, hl⟩

/-- A sequence faults in its first half, or in its second from the middle state. -/
@[simp] theorem raises_bind_iff {x : Proc ε ρ σ α} {f : α → Proc ε ρ σ β} :
    (x >>= f).Raises s e s' l ↔ x.Raises s e s' l ∨
      ∃ a s₁ l₁ l₂, x.Returns s a s₁ l₁ ∧ (f a).Raises s₁ e s' l₂ ∧ l₁ ++ l₂ = l := by
  unfold Raises Returns
  rw [bind_apply]
  rcases hx : x s with ⟨_ | a, s₁, l₁⟩
  · simp
  · simp only [Outcome.mk.injEq, Except.ok.injEq, reduceCtorEq, false_and, false_or]
    constructor
    · rintro ⟨hr, hs, hl⟩
      exact ⟨a, s₁, l₁, (f a s₁).log, ⟨rfl, rfl, rfl⟩, by rw [← hr, ← hs], hl⟩
    · rintro ⟨_, _, _, _, ⟨rfl, rfl, rfl⟩, hf, hl⟩
      rw [hf]
      exact ⟨rfl, rfl, hl⟩

/-! Sequences that begin with a primitive. -/

section Sequences
variable {f : α → Proc ε ρ σ β} {g : Unit → Proc ε ρ σ β} {k : σ → Proc ε ρ σ β}

theorem returns_lift_bind_iff {x : Except ε α} :
    ((liftM x : Proc ε ρ σ α) >>= f).Returns s b s' l ↔ ∃ a, x = .ok a ∧ (f a).Returns s b s' l := by
  simp

theorem raises_lift_bind_iff {x : Except ε α} :
    ((liftM x : Proc ε ρ σ α) >>= f).Raises s e s' l ↔
      (x = .error e ∧ s = s' ∧ [] = l) ∨ ∃ a, x = .ok a ∧ (f a).Raises s e s' l := by
  simp

theorem returns_get_bind_iff : (get >>= k).Returns s b s' l ↔ (k s).Returns s b s' l := by simp

theorem raises_get_bind_iff : (get >>= k).Raises s e s' l ↔ (k s).Raises s e s' l := by simp

private theorem exists_unit {p : Unit → Prop} : (∃ a, p a) ↔ p () :=
  ⟨fun ⟨_, h⟩ => h, fun h => ⟨(), h⟩⟩

theorem returns_set_bind_iff {t : σ} :
    (set t >>= g).Returns s b s' l ↔ (g ()).Returns t b s' l := by
  simp [exists_unit]

theorem raises_set_bind_iff {t : σ} :
    (set t >>= g).Raises s e s' l ↔ (g ()).Raises t e s' l := by
  simp [exists_unit]

theorem returns_modify_bind_iff {h : σ → σ} :
    (modify h >>= g).Returns s b s' l ↔ (g ()).Returns (h s) b s' l := by
  simp [exists_unit]

theorem raises_modify_bind_iff {h : σ → σ} :
    (modify h >>= g).Raises s e s' l ↔ (g ()).Raises (h s) e s' l := by
  simp [exists_unit]

theorem returns_emit_bind_iff [LogFault ε] {r : ρ} :
    (emit r >>= g).Returns s b s' l ↔ ∃ l', (g ()).Returns s b s' l' ∧ r :: l' = l := by
  simp [exists_unit]

end Sequences

/-! The state that is reached, whether the procedure faults or not. -/

section States
variable {f : α → Proc ε ρ σ β} {g : Unit → Proc ε ρ σ β} {k : σ → Proc ε ρ σ β}

theorem state_bind {x : Proc ε ρ σ α} : ((x >>= f) s).state =
    match (x s).result with
    | .ok a => (f a (x s).state).state
    | .error _ => (x s).state := by
  rw [bind_apply]
  rcases x s with ⟨_ | a, s₁, l₁⟩ <;> rfl

theorem result_bind {x : Proc ε ρ σ α} : ((x >>= f) s).result =
    match (x s).result with
    | .ok a => (f a (x s).state).result
    | .error e => .error e := by
  rw [bind_apply]
  rcases x s with ⟨_ | a, s₁, l₁⟩ <;> rfl

theorem log_bind {x : Proc ε ρ σ α} : ((x >>= f) s).log =
    match (x s).result with
    | .ok a => (x s).log ++ (f a (x s).state).log
    | .error _ => (x s).log := by
  rw [bind_apply]
  rcases x s with ⟨_ | a, s₁, l₁⟩ <;> rfl

/-- A procedure that ends with a value it only passes on. -/
theorem state_map {x : Proc ε ρ σ α} {h : α → β} :
    ((do let a ← x; pure (h a) : Proc ε ρ σ β) s).state = (x s).state := by
  rw [state_bind]
  split <;> rfl

theorem state_get_bind : ((get >>= k) s).state = (k s s).state := rfl

theorem state_modify_bind {h : σ → σ} : ((modify h >>= g) s).state = (g () (h s)).state := rfl

theorem state_lift_bind {x : Except ε α} : (((liftM x : Proc ε ρ σ α) >>= f) s).state =
    match x with
    | .ok a => (f a s).state
    | .error _ => s := by
  cases x <;> rfl

theorem result_get_bind : ((get >>= k) s).result = (k s s).result := rfl

theorem result_set_bind {t : σ} : ((set t >>= g) s).result = (g () t).result := rfl

theorem result_lift_bind {x : Except ε α} : (((liftM x : Proc ε ρ σ α) >>= f) s).result =
    x >>= fun a => (f a s).result := by
  cases x <;> rfl

theorem log_lift_bind {x : Except ε α} : (((liftM x : Proc ε ρ σ α) >>= f) s).log =
    match x with
    | .ok a => (f a s).log
    | .error _ => [] := by
  cases x <;> rfl

theorem state_handle {x : Proc ε ρ σ α} {h : ε → Proc ε ρ σ α} : (handle x h s).state =
    match (x s).result with
    | .ok _ => (x s).state
    | .error e => (h e (x s).state).state := by
  rw [handle_apply]
  rcases x s with ⟨_ | a, s₁, l₁⟩ <;> rfl

end States

/-- A procedure on a component changes that component only. -/
@[simp] theorem returns_zoom_iff {view : τ → σ} {put : σ → τ → τ} {x : Proc ε ρ σ α} {t t' : τ} :
    (zoom view put x).Returns t a t' l ↔ ∃ s', x.Returns (view t) a s' l ∧ put s' t = t' := by
  rcases hx : x (view t) with ⟨r, s₁, l₁⟩
  simp only [Returns, zoom, hx, Outcome.mk.injEq]
  constructor
  · rintro ⟨rfl, rfl, rfl⟩
    exact ⟨s₁, ⟨rfl, rfl, rfl⟩, rfl⟩
  · rintro ⟨_, ⟨rfl, rfl, rfl⟩, rfl⟩
    exact ⟨rfl, rfl, rfl⟩

@[simp] theorem raises_zoom_iff {view : τ → σ} {put : σ → τ → τ} {x : Proc ε ρ σ α} {t t' : τ} :
    (zoom view put x).Raises t e t' l ↔ ∃ s', x.Raises (view t) e s' l ∧ put s' t = t' := by
  rcases hx : x (view t) with ⟨r, s₁, l₁⟩
  simp only [Raises, zoom, hx, Outcome.mk.injEq]
  constructor
  · rintro ⟨rfl, rfl, rfl⟩
    exact ⟨s₁, ⟨rfl, rfl, rfl⟩, rfl⟩
  · rintro ⟨_, ⟨rfl, rfl, rfl⟩, rfl⟩
    exact ⟨rfl, rfl, rfl⟩

@[simp] theorem returns_onFst_iff {x : Proc ε ρ σ α} {t t' : τ} :
    (onFst x : Proc ε ρ (σ × τ) α).Returns (s, t) a (s', t') l ↔
      x.Returns s a s' l ∧ t = t' := by
  rcases hx : x s with ⟨r, s₁, l₁⟩
  simp only [Returns, onFst, zoom, hx, Outcome.mk.injEq, Prod.mk.injEq]
  tauto

@[simp] theorem raises_onFst_iff {x : Proc ε ρ σ α} {t t' : τ} :
    (onFst x : Proc ε ρ (σ × τ) α).Raises (s, t) e (s', t') l ↔
      x.Raises s e s' l ∧ t = t' := by
  rcases hx : x s with ⟨r, s₁, l₁⟩
  simp only [Raises, onFst, zoom, hx, Outcome.mk.injEq, Prod.mk.injEq]
  tauto

@[simp] theorem returns_onSnd_iff {x : Proc ε ρ τ α} {t t' : τ} :
    (onSnd x : Proc ε ρ (σ × τ) α).Returns (s, t) a (s', t') l ↔
      x.Returns t a t' l ∧ s = s' := by
  rcases hx : x t with ⟨r, s₁, l₁⟩
  simp only [Returns, onSnd, zoom, hx, Outcome.mk.injEq, Prod.mk.injEq]
  tauto

@[simp] theorem raises_onSnd_iff {x : Proc ε ρ τ α} {t t' : τ} :
    (onSnd x : Proc ε ρ (σ × τ) α).Raises (s, t) e (s', t') l ↔
      x.Raises t e t' l ∧ s = s' := by
  rcases hx : x t with ⟨r, s₁, l₁⟩
  simp only [Raises, onSnd, zoom, hx, Outcome.mk.injEq, Prod.mk.injEq]
  tauto

theorem pure_bind {a : α} {f : α → Proc ε ρ σ β} : (Pure.pure a >>= f) = f a := by
  ext place s
  change (bind (Pure.pure a) f).run place s = (f a).run place s
  have hplace : place.map (Log.latest · ([] : List ρ)) = place := by simp
  change (⟨_, _, [] ++ _⟩ : Outcome ε ρ σ β) = _
  rw [hplace, List.nil_append]

/-- A check before a procedure decides whether the procedure is run. -/
theorem lift_bind {x : Except ε α} {f : α → Proc ε ρ σ β} : ((liftM x : Proc ε ρ σ α) >>= f) =
    match x with
    | .ok a => f a
    | .error e => check (.error e) := by
  cases x with
  | ok a => exact pure_bind
  | error e => rfl

theorem bind_assoc {γ : Type} {x : Proc ε ρ σ α} {f : α → Proc ε ρ σ β} {g : β → Proc ε ρ σ γ} :
    (x >>= f >>= g) = x >>= fun a => f a >>= g := by
  ext place s
  change (bind (bind x f) g).run place s = (bind x fun a => bind (f a) g).run place s
  simp only [bind]
  rcases x.run place s with ⟨_ | a, s₁, l₁⟩
  · rfl
  · dsimp only
    rcases (f a).run (place.map (Log.latest · l₁)) s₁ with ⟨_ | b, s₂, l₂⟩
    · rfl
    · simp only [List.append_assoc, Option.map_map, Function.comp_def, Log.latest_append]

/-- A sequence on the first component is a sequence of procedures on it. -/
theorem onFst_bind {x : Proc ε ρ σ α} {f : α → Proc ε ρ σ β} :
    (onFst (x >>= f) : Proc ε ρ (σ × τ) β) = onFst x >>= fun a => onFst (f a) := by
  ext place t
  change (onFst (bind x f)).run place t = (bind (onFst x) fun a => onFst (f a)).run place t
  simp only [bind, onFst, zoom]
  rcases x.run place t.1 with ⟨_ | a, s₁, l₁⟩ <;> rfl

theorem onFst_pure {a : α} : (onFst (Pure.pure a) : Proc ε ρ (σ × τ) α) = Pure.pure a := rfl

theorem returns_handle_iff {x : Proc ε ρ σ α} {f : ε → Proc ε ρ σ α} :
    (handle x f).Returns s a s' l ↔ x.Returns s a s' l ∨
      ∃ e s₁ l₁ l₂, x.Raises s e s₁ l₁ ∧ (f e).Returns s₁ a s' l₂ ∧ l₁ ++ l₂ = l := by
  rcases hx : x s with ⟨_ | a, s₁, l₁⟩
  · simp only [Returns, Raises, handle, hx, Option.map_none, Outcome.mk.injEq, reduceCtorEq, false_and, false_or]
    constructor
    · rintro ⟨hr, hs, hl⟩
      exact ⟨_, s₁, l₁, _, ⟨rfl, rfl, rfl⟩, by rw [← hr, ← hs], hl⟩
    · rintro ⟨_, _, _, _, ⟨he, rfl, rfl⟩, hf, hl⟩
      cases he
      rw [hf]
      exact ⟨rfl, rfl, hl⟩
  · simp [Returns, Raises, handle, hx]

theorem raises_handle_iff {x : Proc ε ρ σ α} {f : ε → Proc ε ρ σ α} :
    (handle x f).Raises s e s' l ↔
      ∃ e₁ s₁ l₁ l₂, x.Raises s e₁ s₁ l₁ ∧ (f e₁).Raises s₁ e s' l₂ ∧ l₁ ++ l₂ = l := by
  rcases hx : x s with ⟨_ | a, s₁, l₁⟩
  · simp only [Raises, handle, hx, Option.map_none, Outcome.mk.injEq]
    constructor
    · rintro ⟨hr, hs, hl⟩
      exact ⟨_, s₁, l₁, _, ⟨rfl, rfl, rfl⟩, by rw [← hr, ← hs], hl⟩
    · rintro ⟨_, _, _, _, ⟨he, rfl, rfl⟩, hf, hl⟩
      cases he
      rw [hf]
      exact ⟨rfl, rfl, hl⟩
  · simp [Raises, handle, hx]

@[simp] theorem returns_silent_iff {x : Proc ε Empty σ α} :
    (silent x : Proc ε ρ σ α).Returns s a s' l ↔ x.Returns s a s' [] ∧ [] = l := by
  rcases hx : x s with ⟨r, s₁, l₁⟩
  obtain rfl : l₁ = [] := List.eq_nil_of_subset_nil fun r _ => r.elim
  simp [Returns, silent, hx, and_assoc]

@[simp] theorem raises_silent_iff {x : Proc ε Empty σ α} :
    (silent x : Proc ε ρ σ α).Raises s e s' l ↔ x.Raises s e s' [] ∧ [] = l := by
  rcases hx : x s with ⟨r, s₁, l₁⟩
  obtain rfl : l₁ = [] := List.eq_nil_of_subset_nil fun r _ => r.elim
  simp [Raises, silent, hx, and_assoc]

section Translate
variable {ρ' : Type} [Stamped ρ'] {f : ρ → ρ'} {hf : ∀ r, Stamped.stamp (f r) = Stamped.stamp r}
  {x : Proc ε ρ σ α} {l : List ρ'}

@[simp] theorem returns_translate_iff :
    (translate f hf x).Returns s a s' l ↔ ∃ l₁, x.Returns s a s' l₁ ∧ l₁.map f = l := by
  rcases hx : x s with ⟨r, s₁, l₁⟩
  simp only [Returns, translate, hx, Outcome.mk.injEq]
  constructor
  · rintro ⟨rfl, rfl, rfl⟩
    exact ⟨l₁, ⟨rfl, rfl, rfl⟩, rfl⟩
  · rintro ⟨_, ⟨rfl, rfl, rfl⟩, rfl⟩
    exact ⟨rfl, rfl, rfl⟩

@[simp] theorem raises_translate_iff :
    (translate f hf x).Raises s e s' l ↔ ∃ l₁, x.Raises s e s' l₁ ∧ l₁.map f = l := by
  rcases hx : x s with ⟨r, s₁, l₁⟩
  simp only [Raises, translate, hx, Outcome.mk.injEq]
  constructor
  · rintro ⟨rfl, rfl, rfl⟩
    exact ⟨l₁, ⟨rfl, rfl, rfl⟩, rfl⟩
  · rintro ⟨_, ⟨rfl, rfl, rfl⟩, rfl⟩
    exact ⟨rfl, rfl, rfl⟩

end Translate

end Proc

/-! ## Procedures that log nothing -/

/-- The procedure appends no record, whether it faults or not. -/
def Proc.Quiet {ε ρ σ α : Type} [Stamped ρ] (x : Proc ε ρ σ α) : Prop := ∀ s, (x s).log = []

namespace Proc.Quiet
variable {ε ρ σ τ α β : Type} [Stamped ρ]

theorem returns {x : Proc ε ρ σ α} (hx : x.Quiet) {s s' : σ} {a : α} {l : List ρ}
    (h : x.Returns s a s' l) : l = [] := by
  have := hx s
  rwa [h] at this

theorem pure (a : α) : (Pure.pure a : Proc ε ρ σ α).Quiet := fun _ => rfl

theorem check (x : Except ε α) : (Proc.check x : Proc ε ρ σ α).Quiet := fun _ => rfl

theorem modify (f : σ → σ) : (Proc.modify f : Proc ε ρ σ Unit).Quiet := fun _ => rfl

theorem silent (x : Proc ε Empty σ α) : (Proc.silent x : Proc ε ρ σ α).Quiet := fun _ => rfl

theorem zoom {view : τ → σ} {put : σ → τ → τ} {x : Proc ε ρ σ α} (hx : x.Quiet) :
    (Proc.zoom view put x).Quiet := fun t => hx (view t)

theorem bind {x : Proc ε ρ σ α} {f : α → Proc ε ρ σ β} (hx : x.Quiet) (hf : ∀ a, (f a).Quiet) :
    (x >>= f).Quiet := by
  intro s
  rw [bind_apply]
  have hlog := hx s
  rcases h : x s with ⟨_ | a, s₁, l₁⟩
  · simpa [h] using hlog
  · rw [h] at hlog
    change l₁ ++ (f a s₁).log = []
    rw [hf a s₁, List.append_nil]
    exact hlog

theorem get_bind {k : σ → Proc ε ρ σ β} (hk : ∀ s, (k s).Quiet) : (Proc.get >>= k).Quiet :=
  bind (fun _ => rfl) hk

theorem handle {x : Proc ε ρ σ α} {f : ε → Proc ε ρ σ α} (hx : x.Quiet)
    (hf : ∀ e, (f e).Quiet) : (Proc.handle x f).Quiet := by
  intro s
  rw [handle_apply]
  have hlog := hx s
  rcases h : x s with ⟨e | a, s₁, l₁⟩
  · rw [h] at hlog
    change l₁ ++ (f e s₁).log = []
    rw [hf e s₁, List.append_nil]
    exact hlog
  · simpa [h] using hlog

end Proc.Quiet

/-! ## What a procedure leaves alone -/

/-- From `s` the procedure does not change what `view` shows, whether it faults or not. -/
def Proc.Keeps {ε ρ σ α γ : Type} [Stamped ρ] (view : σ → γ) (x : Proc ε ρ σ α) (s : σ) : Prop :=
  view (x s).state = view s

namespace Proc.Keeps
variable {ε ρ σ τ α β γ : Type} [Stamped ρ] {view : σ → γ} {s : σ}

theorem returns {x : Proc ε ρ σ α} (hx : x.Keeps view s) {s' : σ} {a : α} {l : List ρ}
    (h : x.Returns s a s' l) : view s' = view s := by
  have := hx
  rwa [Proc.Keeps, h] at this

theorem pure (a : α) : (Pure.pure a : Proc ε ρ σ α).Keeps view s := rfl

theorem check (x : Except ε α) : (Proc.check x : Proc ε ρ σ α).Keeps view s := rfl

theorem emit [LogFault ε] (r : ρ) : (Proc.emit r : Proc ε ρ σ Unit).Keeps view s := rfl

theorem modify {f : σ → σ} (h : view (f s) = view s) :
    (Proc.modify f : Proc ε ρ σ Unit).Keeps view s := h

theorem zoom {get : σ → τ} {put : τ → σ → σ} {x : Proc ε ρ τ α}
    (h : ∀ t, view (put t s) = view s) : (Proc.zoom get put x).Keeps view s := h _

theorem bind {x : Proc ε ρ σ α} {f : α → Proc ε ρ σ β} (hx : x.Keeps view s)
    (hf : ∀ a s₁, (f a).Keeps view s₁) : (x >>= f).Keeps view s := by
  unfold Proc.Keeps at hx ⊢
  rw [state_bind]
  split
  · rw [hf _ _, hx]
  · exact hx

theorem get_bind {k : σ → Proc ε ρ σ β} (hk : (k s).Keeps view s) :
    (Proc.get >>= k).Keeps view s := hk

theorem lift_bind {x : Except ε α} {f : α → Proc ε ρ σ β} (hf : ∀ a, (f a).Keeps view s) :
    ((liftM x : Proc ε ρ σ α) >>= f).Keeps view s := by
  unfold Proc.Keeps
  rw [state_lift_bind]
  split
  · exact hf _
  · rfl

theorem emit_bind [LogFault ε] {r : ρ} {g : Unit → Proc ε ρ σ β} (hg : (g ()).Keeps view s) :
    (Proc.emit r >>= g).Keeps view s := hg

theorem onFst {view : σ → γ} {x : Proc ε ρ σ α} {s : σ × τ} (hx : x.Keeps view s.1) :
    (Proc.onFst x).Keeps (fun s => view s.1) s := hx

theorem set_bind {t : σ} {g : Unit → Proc ε ρ σ β} (ht : view t = view s)
    (hg : (g ()).Keeps view t) : (Proc.set t >>= g).Keeps view s :=
  Eq.trans hg ht

theorem modify_bind {f : σ → σ} {g : Unit → Proc ε ρ σ β} (hf : view (f s) = view s)
    (hg : (g ()).Keeps view (f s)) : (Proc.modify f >>= g).Keeps view s :=
  Eq.trans hg hf

theorem handle {x : Proc ε ρ σ α} {f : ε → Proc ε ρ σ α} (hx : x.Keeps view s)
    (hf : ∀ e s₁, (f e).Keeps view s₁) : (Proc.handle x f).Keeps view s := by
  unfold Proc.Keeps at hx ⊢
  rw [state_handle]
  split
  · exact hx
  · rw [hf _ _, hx]

theorem translate {ρ' : Type} [Stamped ρ'] {f : ρ → ρ'}
    {hf : ∀ r, Stamped.stamp (f r) = Stamped.stamp r} {x : Proc ε ρ σ α} (hx : x.Keeps view s) :
    (Proc.translate f hf x).Keeps view s := hx

theorem map {δ : Type} {x : Proc ε ρ σ α} (hx : x.Keeps view s) (f : γ → δ) :
    x.Keeps (fun s => f (view s)) s := congrArg f hx

theorem forEach {ι : Type} {f : ι → Proc ε ρ σ Unit} {is : List ι}
    (hf : ∀ i ∈ is, ∀ s, (f i).Keeps view s) : (Proc.forEach f is).Keeps view s := by
  induction is generalizing s with
  | nil => exact pure ()
  | cons i rest ih =>
    obtain ⟨hi, hrest⟩ := List.forall_mem_cons.1 hf
    exact bind (hi s) fun _ s₁ => ih hrest

end Proc.Keeps

/-! ## Which faults a program can raise -/

/-- Whenever the check fails, its fault satisfies `P`. -/
def Except.FaultsIn {ε α : Type} (P : ε → Prop) (x : Except ε α) : Prop :=
  ∀ e, x = .error e → P e

namespace Except.FaultsIn
variable {ε α β : Type} {P : ε → Prop}

theorem pure (a : α) : Except.FaultsIn P (Pure.pure a : Except ε α) := by
  intro e h
  exact absurd h Except.pure_ne_error

theorem of_ok {x : Except ε α} {a : α} (h : x = .ok a) : x.FaultsIn P := by
  intro e he
  rw [h] at he
  exact absurd he (by simp)

theorem bind {x : Except ε α} {f : α → Except ε β} (hx : x.FaultsIn P)
    (hf : ∀ a, x = .ok a → (f a).FaultsIn P) : (x >>= f).FaultsIn P := by
  intro e h
  rcases Except.bind_eq_error_iff.1 h with h | ⟨a, ha, h⟩
  · exact hx e h
  · exact hf a ha e h

end Except.FaultsIn

/-- Whenever the procedure faults from `s`, its fault satisfies `P`. -/
def Proc.FaultsIn {ε ρ σ α : Type} [Stamped ρ] (P : ε → Prop) (x : Proc ε ρ σ α) (s : σ) : Prop :=
  ∀ e s' l, x.Raises s e s' l → P e

namespace Proc.FaultsIn
variable {ε ρ σ τ α β : Type} [Stamped ρ] {P : ε → Prop} {s : σ}

theorem of_not_raises {x : Proc ε ρ σ α} (h : ∀ e s' l, ¬ x.Raises s e s' l) :
    x.FaultsIn P s := fun e s' l hr => absurd hr (h e s' l)

theorem pure (a : α) : (Pure.pure a : Proc ε ρ σ α).FaultsIn P s :=
  of_not_raises fun _ _ _ => Proc.not_raises_pure

theorem emit [LogFault ε] (r : ρ) : (Proc.emit r : Proc ε ρ σ Unit).FaultsIn P s :=
  of_not_raises fun _ _ _ => Proc.not_raises_emit

theorem set (t : σ) : (Proc.set t : Proc ε ρ σ Unit).FaultsIn P s :=
  of_not_raises fun _ _ _ => Proc.not_raises_set

theorem modify (f : σ → σ) : (Proc.modify f : Proc ε ρ σ Unit).FaultsIn P s :=
  of_not_raises fun _ _ _ => Proc.not_raises_modify

theorem bind {x : Proc ε ρ σ α} {f : α → Proc ε ρ σ β} (hx : x.FaultsIn P s)
    (hf : ∀ a s₁ l, x.Returns s a s₁ l → (f a).FaultsIn P s₁) : (x >>= f).FaultsIn P s := by
  intro e s' l h
  rcases Proc.raises_bind_iff.1 h with h | ⟨a, s₁, l₁, l₂, ha, h, -⟩
  · exact hx e s' l h
  · exact hf a s₁ l₁ ha e s' l₂ h

theorem lift_bind {x : Except ε α} {f : α → Proc ε ρ σ β} (hx : x.FaultsIn P)
    (hf : ∀ a, x = .ok a → (f a).FaultsIn P s) :
    ((liftM x : Proc ε ρ σ α) >>= f).FaultsIn P s := by
  intro e s' l h
  rcases Proc.raises_lift_bind_iff.1 h with ⟨h, -⟩ | ⟨a, ha, h⟩
  · exact hx e h
  · exact hf a ha e s' l h

theorem get_bind {k : σ → Proc ε ρ σ β} (h : (k s).FaultsIn P s) :
    (Proc.get >>= k).FaultsIn P s :=
  fun e s' l hr => h e s' l (Proc.raises_get_bind_iff.1 hr)

theorem set_bind {t : σ} {g : Unit → Proc ε ρ σ β} (h : (g ()).FaultsIn P t) :
    (Proc.set t >>= g).FaultsIn P s :=
  fun e s' l hr => h e s' l (Proc.raises_set_bind_iff.1 hr)

theorem modify_bind {f : σ → σ} {g : Unit → Proc ε ρ σ β} (h : (g ()).FaultsIn P (f s)) :
    (Proc.modify f >>= g).FaultsIn P s :=
  fun e s' l hr => h e s' l (Proc.raises_modify_bind_iff.1 hr)

theorem zoom {view : τ → σ} {put : σ → τ → τ} {x : Proc ε ρ σ α} {t : τ}
    (h : x.FaultsIn P (view t)) : (Proc.zoom view put x).FaultsIn P t := by
  intro e t' l hr
  obtain ⟨s', hs', -⟩ := Proc.raises_zoom_iff.1 hr
  exact h e s' l hs'

end Proc.FaultsIn

/-! ## Which records a program appends -/

/-- Every record that the procedure appends from `s` satisfies `P`, whether it faults or not. -/
def Proc.Logs {ε ρ σ α : Type} [Stamped ρ] (P : ρ → Prop) (x : Proc ε ρ σ α) (s : σ) : Prop :=
  ∀ r ∈ (x s).log, P r

namespace Proc.Logs
variable {ε ρ σ τ α β : Type} [Stamped ρ] {P : ρ → Prop} {s : σ}

theorem returns {x : Proc ε ρ σ α} (hx : x.Logs P s) {s' : σ} {a : α} {l : List ρ}
    (h : x.Returns s a s' l) : ∀ r ∈ l, P r := by
  have hlog := hx
  rwa [Proc.Logs, h] at hlog

theorem of_quiet {x : Proc ε ρ σ α} (hx : x.Quiet) : x.Logs P s := by
  intro r hr
  simp [hx s] at hr

theorem mono {Q : ρ → Prop} {x : Proc ε ρ σ α} (hx : x.Logs P s) (h : ∀ r, P r → Q r) :
    x.Logs Q s := fun r hr => h r (hx r hr)

theorem pure (a : α) : (Pure.pure a : Proc ε ρ σ α).Logs P s := of_quiet (.pure a)

theorem check (x : Except ε α) : (Proc.check x : Proc ε ρ σ α).Logs P s := of_quiet (.check x)

theorem modify (f : σ → σ) : (Proc.modify f : Proc ε ρ σ Unit).Logs P s := of_quiet (.modify f)

theorem emit [LogFault ε] {r : ρ} (h : P r) : (Proc.emit r : Proc ε ρ σ Unit).Logs P s := by
  intro r' hr'
  rwa [List.mem_singleton.1 hr']

theorem emitAll [LogFault ε] {rs : List ρ} (h : ∀ r ∈ rs, P r) :
    (Proc.emitAll rs : Proc ε ρ σ Unit).Logs P s := by
  unfold Proc.Logs
  rwa [Proc.emitAll_apply]

theorem bind {x : Proc ε ρ σ α} {f : α → Proc ε ρ σ β} (hx : x.Logs P s)
    (hf : ∀ a s₁ l, x.Returns s a s₁ l → (f a).Logs P s₁) : (x >>= f).Logs P s := by
  intro r hr
  rw [bind_apply] at hr
  rcases h : x s with ⟨e | a, s₁, l₁⟩
  · rw [h] at hr
    exact hx r (by rw [h]; exact hr)
  · rw [h] at hr
    rcases List.mem_append.1 hr with hr | hr
    · exact hx r (by rw [h]; exact hr)
    · exact hf a s₁ l₁ h r hr

theorem get_bind {k : σ → Proc ε ρ σ β} (hk : (k s).Logs P s) : (Proc.get >>= k).Logs P s := hk

theorem lift_bind {x : Except ε α} {f : α → Proc ε ρ σ β} (hf : ∀ a, x = .ok a → (f a).Logs P s) :
    ((liftM x : Proc ε ρ σ α) >>= f).Logs P s := by
  intro r hr
  rw [log_lift_bind] at hr
  cases x with
  | error e => simp at hr
  | ok a => exact hf a rfl r hr

theorem set_bind {t : σ} {g : Unit → Proc ε ρ σ β} (hg : (g ()).Logs P t) :
    (Proc.set t >>= g).Logs P s := hg

theorem modify_bind {f : σ → σ} {g : Unit → Proc ε ρ σ β} (hg : (g ()).Logs P (f s)) :
    (Proc.modify f >>= g).Logs P s := hg

theorem emit_bind [LogFault ε] {r : ρ} {g : Unit → Proc ε ρ σ β} (h : P r) (hg : (g ()).Logs P s) :
    (Proc.emit r >>= g).Logs P s := by
  intro r' hr'
  rcases List.mem_cons.1 (show r' ∈ r :: (g () s).log from hr') with rfl | hr'
  · exact h
  · exact hg r' hr'

theorem zoom {view : τ → σ} {put : σ → τ → τ} {x : Proc ε ρ σ α} {t : τ}
    (h : x.Logs P (view t)) : (Proc.zoom view put x).Logs P t := h

theorem handle {x : Proc ε ρ σ α} {f : ε → Proc ε ρ σ α} (hx : x.Logs P s)
    (hf : ∀ e s₁, (f e).Logs P s₁) : (Proc.handle x f).Logs P s := by
  intro r hr
  rw [handle_apply] at hr
  rcases h : x s with ⟨e | a, s₁, l₁⟩
  · rw [h] at hr
    rcases List.mem_append.1 hr with hr | hr
    · exact hx r (by rw [h]; exact hr)
    · exact hf e s₁ r hr
  · rw [h] at hr
    exact hx r (by rw [h]; exact hr)

theorem translate {ρ' : Type} [Stamped ρ'] {f : ρ → ρ'}
    {hf : ∀ r, Stamped.stamp (f r) = Stamped.stamp r} {P : ρ' → Prop} {x : Proc ε ρ σ α}
    (hx : x.Logs (fun r => P (f r)) s) : (Proc.translate f hf x).Logs P s := by
  intro r hr
  obtain ⟨r', hr', rfl⟩ := List.mem_map.1 hr
  exact hx r' hr'

theorem forEach {ι : Type} {Q : σ → Prop} {f : ι → Proc ε ρ σ Unit} {is : List ι}
    (hlogs : ∀ i ∈ is, ∀ s, Q s → (f i).Logs P s)
    (hstep : ∀ i ∈ is, ∀ s s' l, Q s → (f i).Returns s () s' l → Q s') (hs : Q s) :
    (Proc.forEach f is).Logs P s := by
  induction is generalizing s with
  | nil => exact .pure _
  | cons i rest ih =>
    obtain ⟨hi, hrest⟩ := List.forall_mem_cons.1 hlogs
    obtain ⟨hi', hrest'⟩ := List.forall_mem_cons.1 hstep
    exact .bind (hi s hs) fun _ s₁ l h => ih hrest hrest' (hi' s s₁ l hs h)

end Proc.Logs

/-! ## Behind the last stamp of a log -/

namespace Proc
variable {ε ρ σ τ α β : Type} [Stamped ρ] {last now : ℕ} {s s' : σ} {a : α} {b : β} {e : ε}
  {l : List ρ}

/-- `Returns`, behind the stamp `last`. -/
def ReturnsAfter (last : ℕ) (x : Proc ε ρ σ α) (s : σ) (a : α) (s' : σ) (l : List ρ) : Prop :=
  x.run (some last) s = ⟨.ok a, s', l⟩

/-- `Raises`, behind the stamp `last`. -/
def RaisesAfter (last : ℕ) (x : Proc ε ρ σ α) (s : σ) (e : ε) (s' : σ) (l : List ρ) : Prop :=
  x.run (some last) s = ⟨.error e, s', l⟩

/-- The outcome of a procedure that does not fault. -/
theorem returnsAfter_of_isSome {x : Proc ε ρ σ Unit}
    (h : (x.run (some last) s).result.toOption.isSome = true) :
    x.ReturnsAfter last s () (x.run (some last) s).state (x.run (some last) s).log := by
  unfold ReturnsAfter
  rcases hx : x.run (some last) s with ⟨_ | u, s', l⟩
  · simp [hx, Except.toOption] at h
  · rfl

/-- The outcome of a procedure that faults. -/
theorem raisesAfter_of_isNone {x : Proc ε ρ σ α}
    (h : (x.run (some last) s).result.toOption.isNone = true) :
    ∃ e, x.RaisesAfter last s e (x.run (some last) s).state (x.run (some last) s).log := by
  unfold RaisesAfter
  rcases hx : x.run (some last) s with ⟨e | a, s', l⟩
  · exact ⟨e, rfl⟩
  · simp [hx, Except.toOption] at h

/-- Where all records carry one time that is not in the past, the log takes them all. -/
theorem Logs.run_eq {x : Proc ε ρ σ α} (hx : x.Logs (Log.At now) s) (hlast : last ≤ now) :
    x.run (some last) s = x s :=
  x.ordered last s (.of_at hx hlast)

theorem Logs.returnsAfter_iff {x : Proc ε ρ σ α} (hx : x.Logs (Log.At now) s) (hlast : last ≤ now) :
    x.ReturnsAfter last s a s' l ↔ x.Returns s a s' l := by
  rw [ReturnsAfter, hx.run_eq hlast, Returns]

theorem Logs.raisesAfter_iff {x : Proc ε ρ σ α} (hx : x.Logs (Log.At now) s) (hlast : last ≤ now) :
    x.RaisesAfter last s e s' l ↔ x.Raises s e s' l := by
  rw [RaisesAfter, hx.run_eq hlast, Raises]

theorem ReturnsAfter.not_raisesAfter {x : Proc ε ρ σ α} {s₂ : σ} {l₂ : List ρ}
    (h : x.ReturnsAfter last s a s' l) : ¬ x.RaisesAfter last s e s₂ l₂ := by
  intro h'
  have := h.symm.trans h'
  simp at this

@[simp] theorem returnsAfter_pure_iff {a' : α} :
    (pure a : Proc ε ρ σ α).ReturnsAfter last s a' s' l ↔ a = a' ∧ s = s' ∧ [] = l := by
  simp [ReturnsAfter, pure]

@[simp] theorem not_raisesAfter_pure : ¬ (pure a : Proc ε ρ σ α).RaisesAfter last s e s' l := by
  simp [RaisesAfter, pure]

@[simp] theorem returnsAfter_lift_iff {x : Except ε α} :
    (liftM x : Proc ε ρ σ α).ReturnsAfter last s a s' l ↔ x = .ok a ∧ s = s' ∧ [] = l :=
  returns_check_iff

@[simp] theorem raisesAfter_lift_iff {x : Except ε α} :
    (liftM x : Proc ε ρ σ α).RaisesAfter last s e s' l ↔ x = .error e ∧ s = s' ∧ [] = l :=
  raises_check_iff

@[simp] theorem returnsAfter_get_iff {t : σ} :
    (get : Proc ε ρ σ σ).ReturnsAfter last s t s' l ↔ s = t ∧ s = s' ∧ [] = l := by
  simp [ReturnsAfter, get]

@[simp] theorem not_raisesAfter_get : ¬ (get : Proc ε ρ σ σ).RaisesAfter last s e s' l := by
  simp [RaisesAfter, get]

/-- A sequence yields a value when both halves do, the second behind the stamps of the first. -/
@[simp] theorem returnsAfter_bind_iff {x : Proc ε ρ σ α} {f : α → Proc ε ρ σ β} :
    (x >>= f).ReturnsAfter last s b s' l ↔ ∃ a s₁ l₁ l₂, x.ReturnsAfter last s a s₁ l₁ ∧
      (f a).ReturnsAfter (Log.latest last l₁) s₁ b s' l₂ ∧ l₁ ++ l₂ = l := by
  change (bind x f).run (some last) s = _ ↔ _
  unfold ReturnsAfter
  simp only [bind]
  rcases hx : x.run (some last) s with ⟨_ | a, s₁, l₁⟩
  · simp
  · simp only [Option.map_some, Outcome.mk.injEq, Except.ok.injEq]
    constructor
    · rintro ⟨hr, hs, hl⟩
      exact ⟨a, s₁, l₁, _, ⟨rfl, rfl, rfl⟩, by rw [← hr, ← hs], hl⟩
    · rintro ⟨_, _, _, _, ⟨rfl, rfl, rfl⟩, hf, hl⟩
      rw [hf]
      exact ⟨rfl, rfl, hl⟩

/-- A sequence faults in its first half, or in its second behind the stamps of the first. -/
@[simp] theorem raisesAfter_bind_iff {x : Proc ε ρ σ α} {f : α → Proc ε ρ σ β} :
    (x >>= f).RaisesAfter last s e s' l ↔ x.RaisesAfter last s e s' l ∨
      ∃ a s₁ l₁ l₂, x.ReturnsAfter last s a s₁ l₁ ∧
        (f a).RaisesAfter (Log.latest last l₁) s₁ e s' l₂ ∧ l₁ ++ l₂ = l := by
  change (bind x f).run (some last) s = _ ↔ _
  unfold RaisesAfter ReturnsAfter
  simp only [bind]
  rcases hx : x.run (some last) s with ⟨_ | a, s₁, l₁⟩
  · simp
  · simp only [Option.map_some, Outcome.mk.injEq, Except.ok.injEq, reduceCtorEq, false_and, false_or]
    constructor
    · rintro ⟨hr, hs, hl⟩
      exact ⟨a, s₁, l₁, _, ⟨rfl, rfl, rfl⟩, by rw [← hr, ← hs], hl⟩
    · rintro ⟨_, _, _, _, ⟨rfl, rfl, rfl⟩, hf, hl⟩
      rw [hf]
      exact ⟨rfl, rfl, hl⟩

@[simp] theorem returnsAfter_onSnd_iff {x : Proc ε ρ τ α} {t t' : τ} :
    (onSnd x : Proc ε ρ (σ × τ) α).ReturnsAfter last (s, t) a (s', t') l ↔
      x.ReturnsAfter last t a t' l ∧ s = s' := by
  rcases hx : x.run (some last) t with ⟨r, s₁, l₁⟩
  simp only [ReturnsAfter, onSnd, zoom, hx, Outcome.mk.injEq, Prod.mk.injEq]
  tauto

@[simp] theorem raisesAfter_onSnd_iff {x : Proc ε ρ τ α} {t t' : τ} :
    (onSnd x : Proc ε ρ (σ × τ) α).RaisesAfter last (s, t) e (s', t') l ↔
      x.RaisesAfter last t e t' l ∧ s = s' := by
  rcases hx : x.run (some last) t with ⟨r, s₁, l₁⟩
  simp only [RaisesAfter, onSnd, zoom, hx, Outcome.mk.injEq, Prod.mk.injEq]
  tauto

@[simp] theorem raisesAfter_onFst_iff {x : Proc ε ρ σ α} {t t' : τ} :
    (onFst x : Proc ε ρ (σ × τ) α).RaisesAfter last (s, t) e (s', t') l ↔
      x.RaisesAfter last s e s' l ∧ t = t' := by
  rcases hx : x.run (some last) s with ⟨r, s₁, l₁⟩
  simp only [RaisesAfter, onFst, zoom, hx, Outcome.mk.injEq, Prod.mk.injEq]
  tauto

end Proc

/-! ## Faults that leave no trace -/

/-- Whenever the procedure faults from `s`, the state is still `s` and nothing has been logged. -/
def Proc.Clean {ε ρ σ α : Type} [Stamped ρ] (x : Proc ε ρ σ α) (s : σ) : Prop :=
  ∀ e s' l, x.Raises s e s' l → s' = s ∧ l = []

namespace Proc.Clean
variable {ε ρ σ τ α β : Type} [Stamped ρ] {s : σ}

theorem of_not_raises {x : Proc ε ρ σ α} (h : ∀ e s' l, ¬ x.Raises s e s' l) : x.Clean s :=
  fun e s' l hr => absurd hr (h e s' l)

theorem pure (a : α) : (Pure.pure a : Proc ε ρ σ α).Clean s :=
  of_not_raises fun _ _ _ => Proc.not_raises_pure

theorem check (x : Except ε α) : (Proc.check x : Proc ε ρ σ α).Clean s := by
  intro e s' l h
  have houtcome : (⟨x, s, []⟩ : Outcome ε ρ σ α) = ⟨.error e, s', l⟩ := h
  rw [Outcome.mk.injEq] at houtcome
  exact ⟨houtcome.2.1.symm, houtcome.2.2.symm⟩

theorem get_bind {k : σ → Proc ε ρ σ β} (h : (k s).Clean s) : (Proc.get >>= k).Clean s :=
  fun e s' l hr => h e s' l (Proc.raises_get_bind_iff.1 hr)

theorem lift_bind {x : Except ε α} {f : α → Proc ε ρ σ β} (hf : ∀ a, x = .ok a → (f a).Clean s) :
    ((liftM x : Proc ε ρ σ α) >>= f).Clean s := by
  intro e s' l h
  rcases Proc.raises_lift_bind_iff.1 h with ⟨-, hs, hl⟩ | ⟨a, ha, h⟩
  · exact ⟨hs.symm, hl.symm⟩
  · exact hf a ha e s' l h

/-- What follows a clean step that may change the state must not fault. -/
theorem bind {x : Proc ε ρ σ α} {f : α → Proc ε ρ σ β} (hx : x.Clean s)
    (hf : ∀ a s₁ l, x.Returns s a s₁ l → ∀ e s' l', ¬ (f a).Raises s₁ e s' l') : (x >>= f).Clean s := by
  intro e s' l h
  rcases Proc.raises_bind_iff.1 h with h | ⟨a, s₁, l₁, l₂, ha, h, -⟩
  · exact hx e s' l h
  · exact absurd h (hf a s₁ l₁ ha e s' l₂)

theorem zoom {view : τ → σ} {put : σ → τ → τ} {x : Proc ε ρ σ α} {t : τ} (hx : x.Clean (view t))
    (hput : put (view t) t = t) : (Proc.zoom view put x).Clean t := by
  intro e t' l h
  obtain ⟨s', hs', rfl⟩ := Proc.raises_zoom_iff.1 h
  obtain ⟨rfl, rfl⟩ := hx e s' l hs'
  exact ⟨hput, rfl⟩

end Proc.Clean

import Qsbit.Lib.Proc

/-!
# What a procedure writes

A procedure may write a log that is known beforehand, although the values that it computes
are not: when it stops early it has written a prefix of that log, and when it yields a
value it has written all of it. Under an assumption about what it calls, it yields one.

## Main definitions

* `Proc.Writes` — what a procedure writes, of its values, and when it yields one.
-/
namespace Proc
variable {ε ρ σ α β : Type} [Stamped ρ]

/-- From every state the procedure writes the log, or a prefix of it when it stops early; its
values satisfy `Q`, and if `answers` holds it yields one. -/
structure Writes (answers : Prop) (x : Proc ε ρ σ α) (log : List ρ) (Q : α → Prop) : Prop where
  isPrefix : ∀ s, (x s).log <+: log
  full : ∀ s a, (x s).result = .ok a → (x s).log = log ∧ Q a
  yields : answers → ∀ s, ∃ a, (x s).result = .ok a

namespace Writes
variable {answers : Prop} {x : Proc ε ρ σ α} {f : α → Proc ε ρ σ β} {log more : List ρ}
  {Q : α → Prop} {R : β → Prop}

theorem pure {a : α} (h : Q a) : (Pure.pure a : Proc ε ρ σ α).Writes answers [] Q where
  isPrefix _ := List.nil_prefix
  full _ _ h' := by
    obtain rfl := Except.ok.inj h'
    exact ⟨rfl, h⟩
  yields _ _ := ⟨a, rfl⟩

theorem check {e : Except ε α} (h : ∀ a, e = .ok a → Q a) (hok : answers → ∃ a, e = .ok a) :
    (Proc.check e : Proc ε ρ σ α).Writes answers [] Q where
  isPrefix _ := List.nil_prefix
  full _ a h' := ⟨rfl, h a h'⟩
  yields hanswers _ := hok hanswers

theorem lift {e : Except ε α} (h : ∀ a, e = .ok a → Q a) (hok : answers → ∃ a, e = .ok a) :
    (liftM e : Proc ε ρ σ α).Writes answers [] Q := check h hok

theorem emit [LogFault ε] {r : ρ} : (Proc.emit r : Proc ε ρ σ Unit).Writes answers [r] fun _ => True where
  isPrefix _ := List.prefix_rfl
  full _ _ _ := ⟨rfl, trivial⟩
  yields _ _ := ⟨(), rfl⟩

/-- A procedure that cannot write. -/
theorem silent {x : Proc ε Empty σ α} (h : ∀ s a s', x.Returns s a s' [] → Q a)
    (hok : answers → ∀ s, ∃ a s', x.Returns s a s' []) :
    (Proc.silent x : Proc ε ρ σ α).Writes answers [] Q where
  isPrefix _ := List.nil_prefix
  full s a h' := by
    refine ⟨rfl, h s a (x s).state ?_⟩
    have hx : x s = ⟨.ok a, (x s).state, []⟩ := by
      rcases hs : x s with ⟨result, s', l⟩
      obtain rfl : l = [] := List.eq_nil_of_subset_nil fun r _ => r.elim
      have hresult : (x s).result = .ok a := h'
      rw [hs] at hresult
      obtain rfl : result = .ok a := hresult
      rfl
    exact hx
  yields hanswers s := by
    obtain ⟨a, s', h'⟩ := hok hanswers s
    have hx : x s = ⟨.ok a, s', []⟩ := h'
    exact ⟨a, by simp only [Proc.silent, hx]⟩

/-- A sequence writes one log after the other. -/
theorem bind (hx : x.Writes answers log Q) (hf : ∀ a, Q a → (f a).Writes answers more R) :
    (x >>= f).Writes answers (log ++ more) R := by
  constructor
  case isPrefix =>
    intro s
    rw [Proc.log_bind]
    cases hresult : (x s).result with
    | error e => exact (hx.isPrefix s).trans (List.prefix_append log more)
    | ok a =>
      obtain ⟨hfull, hQ⟩ := hx.full s a hresult
      rw [hfull]
      exact List.prefix_append_right_inj log |>.2 ((hf a hQ).isPrefix _)
  case full =>
    intro s b hb
    rw [Proc.result_bind] at hb
    rw [Proc.log_bind]
    cases hresult : (x s).result with
    | error e => simp [hresult] at hb
    | ok a =>
      rw [hresult] at hb
      obtain ⟨hfull, hQ⟩ := hx.full s a hresult
      obtain ⟨hmore, hR⟩ := (hf a hQ).full _ b hb
      refine ⟨?_, hR⟩
      change (x s).log ++ (f a (x s).state).log = log ++ more
      rw [hfull, hmore]
  case yields =>
    intro hanswers s
    obtain ⟨a, ha⟩ := hx.yields hanswers s
    obtain ⟨-, hQ⟩ := hx.full s a ha
    obtain ⟨b, hb⟩ := (hf a hQ).yields hanswers (x s).state
    exact ⟨b, by rw [Proc.result_bind, ha]; exact hb⟩

/-- A check before a procedure writes nothing. -/
theorem lift_bind {e : Except ε α} (hok : answers → ∃ a, e = .ok a)
    (hf : ∀ a, e = .ok a → (f a).Writes answers log R) :
    ((liftM e : Proc ε ρ σ α) >>= f).Writes answers log R :=
  bind (lift (fun _ h => h) hok) hf

/-- Nothing is written after the procedure. -/
theorem bind_nil (hx : x.Writes answers log Q) (hf : ∀ a, Q a → (f a).Writes answers [] R) :
    (x >>= f).Writes answers log R := by
  rw [← List.append_nil log]
  exact bind hx hf

theorem mono {Q' : α → Prop} (hx : x.Writes answers log Q) (h : ∀ a, Q a → Q' a) :
    x.Writes answers log Q' where
  isPrefix := hx.isPrefix
  full s a hs := ⟨(hx.full s a hs).1, h a (hx.full s a hs).2⟩
  yields := hx.yields

end Writes
end Proc

import Mathlib.Data.List.Basic
import Mathlib.Order.Lattice
import Mathlib.Order.Nat
import Mathlib.Tactic.Common
import Mathlib.Tactic.Ring

/-!
# Repeated meetings over a delayed channel

Two sides call each other again and again. A call sends a signal that arrives
after a fixed delay, and completes on the first poll by which the caller's own
delay has passed and the other side's signal for the same meeting has been
received. A side polls once on every tick, takes signals in order and at most
one of them for each call, and does not call again before its call has completed.

`Rendezvous` is the view of one side. Whatever the order of the events within a
tick, the `n`-th calls of both sides meet at the later of their delayed ticks,
and a side is held up from its own delayed tick until then.

## Main definitions

* `Rendezvous` — the ticks at which things have happened on one side.
* `Rendezvous.TakesIn`, `Rendezvous.Polls` — what a poll does.
* `Rendezvous.Timely` — the invariant of a side.
* `Rendezvous.Timely.meets`, `Rendezvous.Timely.held_iff` — when calls meet and hold up.
-/

structure Rendezvous where
  mine : List ℕ := []
  theirs : List ℕ := []
  received : List ℕ := []
  done : List ℕ := []
  polls : List (ℕ × Bool) := []

namespace Rendezvous

theorem getElem?_concat {α : Type} {l : List α} {x y : α} {n : ℕ} :
    (l ++ [x])[n]? = some y ↔ l[n]? = some y ∨ n = l.length ∧ x = y := by
  rcases Nat.lt_trichotomy n l.length with h | rfl | h
  · simp [List.getElem?_append_left h, h.ne]
  · simp
  · rw [List.getElem?_eq_none (by simp; omega), List.getElem?_eq_none h.le]
    simp only [reduceCtorEq, false_or, false_iff, not_and]
    omega

/-- The signal for the current call is taken in, if it is there and has not been yet. -/
inductive TakesIn (inn now : ℕ) (r : Rendezvous) : Rendezvous → Prop
  | already (h : r.received.length = r.done.length + 1) : TakesIn inn now r r
  | missing (h : r.received.length = r.done.length)
      (late : ∀ b, r.theirs[r.done.length]? = some b → now < b + inn) : TakesIn inn now r r
  | arrived (h : r.received.length = r.done.length) (b : ℕ)
      (sent : r.theirs[r.done.length]? = some b) (le : b + inn ≤ now) :
      TakesIn inn now r { r with received := r.received ++ [now] }

/-- One poll. A side that is not calling may be held up by other things. -/
inductive Polls (out inn now : ℕ) (r : Rendezvous) : Rendezvous → Prop
  | idle (held : Bool) (free : r.mine.length = r.done.length) :
      Polls out inn now r { r with polls := r.polls ++ [(now, held)] }
  | completed (r₁ : Rendezvous) (takes : TakesIn inn now r r₁) (a : ℕ)
      (called : r.mine[r.done.length]? = some a) (due : a + out ≤ now)
      (received : r₁.received.length = r.done.length + 1) :
      Polls out inn now r
        { r₁ with done := r.done ++ [now], polls := r.polls ++ [(now, false)] }
  | waits (r₁ : Rendezvous) (takes : TakesIn inn now r r₁) (a : ℕ)
      (called : r.mine[r.done.length]? = some a)
      (waiting : ¬ (a + out ≤ now ∧ r₁.received.length = r.done.length + 1)) :
      Polls out inn now r { r₁ with polls := r.polls ++ [(now, decide (a + out ≤ now))] }

/-- The invariant of a side at tick `now`; `frontier` is `now` before the poll of the tick and
one more after it. -/
structure Timely (period out inn now frontier : ℕ) (r : Rendezvous) : Prop where
  tick : now ≤ frontier ∧ frontier ≤ now + 1
  calling : r.mine.length = r.done.length ∨ r.mine.length = r.done.length + 1
  receiving : r.received.length = r.done.length ∨
    r.received.length = r.done.length + 1 ∧ r.mine.length = r.done.length + 1
  mine : ∀ a ∈ r.mine, ∃ k, now = a + period * k
  theirs : ∀ b ∈ r.theirs, ∃ k, now = b + period * k
  received : ∀ n t : ℕ, r.received[n]? = some t → t ≤ now ∧ ∃ a b : ℕ, r.mine[n]? = some a ∧
    r.theirs[n]? = some b ∧ a ≤ t ∧ b + inn ≤ t ∧ ∀ c, r.done[n]? = some c → t ≤ c
  done : ∀ n c : ℕ, r.done[n]? = some c → c < frontier ∧ ∃ a b : ℕ, r.mine[n]? = some a ∧
    r.theirs[n]? = some b ∧ c = max (a + out) (b + inn)
  ahead : ∀ n a b : ℕ, r.mine[n]? = some a → r.theirs[n]? = some b → r.done.length ≤ n →
    frontier ≤ max (a + out) (b + inn)
  polls : ∀ e ∈ r.polls, e.1 < frontier
  held : ∀ (n a t : ℕ) (held : Bool), r.mine[n]? = some a → (t, held) ∈ r.polls → a ≤ t →
    (∀ c, r.done[n]? = some c → t ≤ c) → (held = true ↔ a + out ≤ t ∧ r.done[n]? ≠ some t)

namespace Timely
variable {period out inn now frontier n a b : ℕ} {r r' r₁ : Rendezvous}

theorem initial (period out inn now : ℕ) : Timely period out inn now now {} := by
  constructor <;> simp

/-- This side calls. It is free, and nothing has held it up on this tick. -/
theorem call (h : Timely period out inn now frontier r) (hout : 0 < out)
    (hfree : r.mine.length = r.done.length) (hunheld : ∀ e ∈ r.polls, e.2 = true → e.1 < now) :
    Timely period out inn now frontier { r with mine := r.mine ++ [now] } where
  tick := h.tick
  calling := .inr (by simp [hfree])
  receiving := by
    rcases h.receiving with hr | ⟨-, hr⟩
    · exact .inl hr
    · omega
  mine := by
    intro a ha
    rcases List.mem_append.1 ha with ha | ha
    · exact h.mine a ha
    · exact ⟨0, by simp [List.mem_singleton.1 ha]⟩
  theirs := h.theirs
  received := by
    intro n t ht
    obtain ⟨hle, a, b, ha, hb, hrest⟩ := h.received n t ht
    exact ⟨hle, a, b, getElem?_concat.2 (.inl ha), hb, hrest⟩
  done := by
    intro n c hc
    obtain ⟨hlt, a, b, ha, hb, hrest⟩ := h.done n c hc
    exact ⟨hlt, a, b, getElem?_concat.2 (.inl ha), hb, hrest⟩
  ahead := by
    intro n a b ha hb hn
    rcases getElem?_concat.1 ha with ha | ⟨-, rfl⟩
    · exact h.ahead n a b ha hb hn
    · have hle := h.tick.2
      omega
  polls := h.polls
  held := by
    intro n a t held ha ht hat hdone
    rcases getElem?_concat.1 ha with ha | ⟨rfl, rfl⟩
    · exact h.held n a t held ha ht hat hdone
    · -- A poll of this tick came before the call.
      have hle := (h.polls _ ht)
      have hfrontier := h.tick.2
      have hheld : held = false := by
        by_contra hne
        have hlt := hunheld _ ht (by simpa using hne)
        omega
      simp only [hheld, Bool.false_eq_true, false_iff, not_and]
      omega

/-- The other side calls. -/
theorem hear (h : Timely period out inn now frontier r) (hinn : 0 < inn) :
    Timely period out inn now frontier { r with theirs := r.theirs ++ [now] } where
  tick := h.tick
  calling := h.calling
  receiving := h.receiving
  mine := h.mine
  theirs := by
    intro b hb
    rcases List.mem_append.1 hb with hb | hb
    · exact h.theirs b hb
    · exact ⟨0, by simp [List.mem_singleton.1 hb]⟩
  received := by
    intro n t ht
    obtain ⟨hle, a, b, ha, hb, hrest⟩ := h.received n t ht
    exact ⟨hle, a, b, ha, getElem?_concat.2 (.inl hb), hrest⟩
  done := by
    intro n c hc
    obtain ⟨hlt, a, b, ha, hb, hrest⟩ := h.done n c hc
    exact ⟨hlt, a, b, ha, getElem?_concat.2 (.inl hb), hrest⟩
  ahead := by
    intro n a b ha hb hn
    rcases getElem?_concat.1 hb with hb | ⟨-, rfl⟩
    · exact h.ahead n a b ha hb hn
    · have hle := h.tick.2
      omega
  polls := h.polls
  held := h.held

/-- A tick passes after the poll. -/
theorem next (h : Timely period out inn now (now + 1) r) (hpos : 0 < period)
    (hout : period ∣ out) (hinn : period ∣ inn) :
    Timely period out inn (now + period) (now + period) r where
  tick := by omega
  calling := h.calling
  receiving := h.receiving
  mine := by
    intro a ha
    obtain ⟨k, hk⟩ := h.mine a ha
    exact ⟨k + 1, by rw [hk]; ring⟩
  theirs := by
    intro b hb
    obtain ⟨k, hk⟩ := h.theirs b hb
    exact ⟨k + 1, by rw [hk]; ring⟩
  received := by
    intro n t ht
    obtain ⟨hle, hrest⟩ := h.received n t ht
    exact ⟨by omega, hrest⟩
  done := by
    intro n c hc
    obtain ⟨hlt, hrest⟩ := h.done n c hc
    exact ⟨by omega, hrest⟩
  ahead := by
    intro n a b ha hb hn
    have hlt := h.ahead n a b ha hb hn
    obtain ⟨k, hk⟩ := h.mine a (List.mem_of_getElem? ha)
    obtain ⟨m, hm⟩ := h.theirs b (List.mem_of_getElem? hb)
    obtain ⟨i, hi⟩ := hout
    obtain ⟨j, hj⟩ := hinn
    -- Both delayed ticks lie whole periods from now, and one of them lies after now.
    have hgrid : ∀ x y z, now = x + period * y → now < x + period * z →
        now + period ≤ x + period * z := by
      intro x y z hxy hxz
      have hyz : y + 1 ≤ z := by
        by_contra hle
        have hmul := Nat.mul_le_mul_left period (by omega : z ≤ y)
        omega
      have hmul := Nat.mul_le_mul_left period hyz
      rw [Nat.mul_add] at hmul
      omega
    rcases le_max_iff.1 (Nat.succ_le_of_lt hlt) with hle | hle
    · rw [hi] at hle ⊢
      exact le_max_of_le_left (hgrid a k i hk (by omega))
    · rw [hj] at hle ⊢
      exact le_max_of_le_right (hgrid b m j hm (by omega))
  polls := by
    intro e he
    have hlt := h.polls e he
    omega
  held := h.held

/-- Only calls that have completed on earlier ticks precede the current one. -/
theorem earlier (h : Timely period out inn now now r) (ha : r.mine[n]? = some a)
    (hdone : ∀ c, r.done[n]? = some c → now ≤ c) : n = r.done.length := by
  have hlt : n < r.mine.length := (List.getElem?_eq_some_iff.1 ha).1
  by_contra hne
  have hn : n < r.done.length := by
    have hcalling := h.calling
    omega
  have hc := h.done n r.done[n] (List.getElem?_eq_getElem hn)
  have hle := hdone r.done[n] (List.getElem?_eq_getElem hn)
  omega

theorem takesIn (h : Timely period out inn now now r) (ht : TakesIn inn now r r₁)
    (ha : r.mine[r.done.length]? = some a) :
    Timely period out inn now now r₁ ∧ r₁.mine = r.mine ∧ r₁.theirs = r.theirs ∧
      r₁.done = r.done ∧ r₁.polls = r.polls := by
  cases ht with
  | already => exact ⟨h, rfl, rfl, rfl, rfl⟩
  | missing => exact ⟨h, rfl, rfl, rfl, rfl⟩
  | arrived hlength b sent le =>
    refine ⟨?_, rfl, rfl, rfl, rfl⟩
    have hlt : r.done.length < r.mine.length := (List.getElem?_eq_some_iff.1 ha).1
    refine { h with receiving := ?_, received := ?_ }
    · refine .inr ⟨by simp [hlength], ?_⟩
      have hcalling := h.calling
      change r.mine.length = r.done.length + 1
      omega
    · intro n t hn
      rcases getElem?_concat.1 hn with hn | ⟨rfl, rfl⟩
      · exact h.received n t hn
      · obtain ⟨k, hk⟩ := h.mine a (List.mem_of_getElem? ha)
        rw [hlength]
        exact ⟨le_rfl, a, b, ha, sent, by omega, le, by simp⟩

/-- A poll that completes nothing. -/
theorem passes (h : Timely period out inn now now r) {held : Bool}
    (hahead : ∀ a b, r.mine[r.done.length]? = some a → r.theirs[r.done.length]? = some b →
      now < max (a + out) (b + inn))
    (hheld : ∀ a, r.mine[r.done.length]? = some a → (held = true ↔ a + out ≤ now)) :
    Timely period out inn now (now + 1) { r with polls := r.polls ++ [(now, held)] } where
  tick := by omega
  calling := h.calling
  receiving := h.receiving
  mine := h.mine
  theirs := h.theirs
  received := h.received
  done := by
    intro n c hc
    obtain ⟨hlt, hrest⟩ := h.done n c hc
    exact ⟨by omega, hrest⟩
  ahead := by
    intro n a b ha hb hn
    have hlt : n < r.mine.length := (List.getElem?_eq_some_iff.1 ha).1
    obtain rfl : n = r.done.length := by
      have hcalling := h.calling
      change r.done.length ≤ n at hn
      omega
    exact hahead a b ha hb
  polls := by
    intro e he
    rcases List.mem_append.1 he with he | he
    · have hlt := h.polls e he
      omega
    · simp [List.mem_singleton.1 he]
  held := by
    intro n a t held' ha ht hat hdone
    rcases List.mem_append.1 ht with ht | ht
    · exact h.held n a t held' ha ht hat hdone
    · obtain ⟨rfl, rfl⟩ := Prod.mk.inj (List.mem_singleton.1 ht)
      obtain rfl := h.earlier ha hdone
      simp [hheld a ha]

/-- A poll leaves a side timely. -/
theorem poll (h : Timely period out inn now now r) (hp : Polls out inn now r r') :
    Timely period out inn now (now + 1) r' := by
  cases hp with
  | idle held free =>
    have hnone : r.mine[r.done.length]? = none := by simp [free]
    exact h.passes (by simp [hnone]) (by simp [hnone])
  | waits r₁ takes a called waiting =>
    obtain ⟨h₁, hmine, htheirs, hdone, hpolls⟩ := h.takesIn takes called
    rw [← hpolls]
    rw [← hdone, ← hmine] at called
    refine h₁.passes ?_ ?_
    · intro a' b ha' hb
      obtain rfl : a = a' := Option.some.inj (called.symm.trans ha')
      by_cases hdue : a + out ≤ now
      · cases takes with
        | already hlength => exact absurd ⟨hdue, hlength⟩ waiting
        | missing hlength late => exact lt_max_of_lt_right (late b hb)
        | arrived hlength => exact absurd ⟨hdue, by simp [hlength]⟩ waiting
      · exact lt_max_of_lt_left (by omega)
    · intro a' ha'
      obtain rfl : a = a' := Option.some.inj (called.symm.trans ha')
      simp
  | completed r₁ takes a called due received =>
    obtain ⟨h₁, hmine, htheirs, hdone, hpolls⟩ := h.takesIn takes called
    rw [← hpolls, ← hdone]
    rw [← hdone, ← hmine] at called
    rw [← hdone] at received
    have hlength : r₁.mine.length = r₁.done.length + 1 := by
      have hlt := (List.getElem?_eq_some_iff.1 called).1
      have hcalling := h₁.calling
      omega
    -- The signal that has been received is the one for this call.
    have hsignal : ∃ b, r₁.theirs[r₁.done.length]? = some b ∧ b + inn ≤ now := by
      have hlt : r₁.done.length < r₁.received.length := by omega
      obtain ⟨ht, _, b, -, hb, -, hle, -⟩ := h₁.received _ _ (List.getElem?_eq_getElem hlt)
      exact ⟨b, hb, by omega⟩
    obtain ⟨b, hb, hle⟩ := hsignal
    have hmeet : now = max (a + out) (b + inn) :=
      le_antisymm (h₁.ahead _ a b called hb le_rfl) (max_le due hle)
    exact
      { tick := by omega
        calling := .inl (by simp [hlength])
        receiving := .inl (by simp [received])
        mine := h₁.mine
        theirs := h₁.theirs
        received := by
          intro n t ht
          obtain ⟨htle, a', b', ha', hb', hat, hbt, hc⟩ := h₁.received n t ht
          refine ⟨htle, a', b', ha', hb', hat, hbt, ?_⟩
          intro c hc'
          rcases getElem?_concat.1 hc' with hc' | ⟨-, rfl⟩
          · exact hc c hc'
          · exact htle
        done := by
          intro n c hc
          rcases getElem?_concat.1 hc with hc | ⟨rfl, rfl⟩
          · obtain ⟨hlt, hrest⟩ := h₁.done n c hc
            exact ⟨by omega, hrest⟩
          · exact ⟨by omega, a, b, called, hb, hmeet⟩
        ahead := by
          intro n a' b' ha' hb' hn
          have hlt : n < r₁.mine.length := (List.getElem?_eq_some_iff.1 ha').1
          simp only [List.length_append, List.length_singleton] at hn
          omega
        polls := by
          intro e he
          rcases List.mem_append.1 he with he | he
          · have hlt := h₁.polls e he
            omega
          · simp [List.mem_singleton.1 he]
        held := by
          intro n a' t held ha' ht hat hc
          rcases List.mem_append.1 ht with ht | ht
          · have hlt : t < now := h₁.polls _ ht
            rw [h₁.held n a' t held ha' ht hat fun c hc' => hc c (getElem?_concat.2 (.inl hc'))]
            refine and_congr_right fun _ => not_congr ?_
            rw [getElem?_concat]
            constructor
            · exact .inl
            · intro hor
              rcases hor with hor | ⟨-, rfl⟩
              · exact hor
              · omega
          · obtain ⟨rfl, rfl⟩ := Prod.mk.inj (List.mem_singleton.1 ht)
            obtain rfl := h₁.earlier ha' fun c hc' => hc c (getElem?_concat.2 (.inl hc'))
            simp }

/-! ## What follows for the meetings -/

/-- The `n`-th calls of both sides meet at the later of their delayed ticks. -/
theorem meets (h : Timely period out inn now frontier r) (ha : r.mine[n]? = some a)
    (hb : r.theirs[n]? = some b) (hlt : max (a + out) (b + inn) < frontier) :
    r.done[n]? = some (max (a + out) (b + inn)) := by
  by_cases hn : n < r.done.length
  · have hget := List.getElem?_eq_getElem hn
    obtain ⟨-, a', b', ha', hb', hc⟩ := h.done n _ hget
    obtain rfl : a = a' := Option.some.inj (ha.symm.trans ha')
    obtain rfl : b = b' := Option.some.inj (hb.symm.trans hb')
    rw [hget, hc]
  · have hle := h.ahead n a b ha hb (by omega)
    omega

/-- A side is held up from its own delayed tick until the calls meet, and at no other time
since its call. -/
theorem held_iff (h : Timely period out inn now frontier r) (ha : r.mine[n]? = some a)
    (hb : r.theirs[n]? = some b) {t : ℕ} {held : Bool} (ht : (t, held) ∈ r.polls) (hat : a ≤ t)
    (hle : t ≤ max (a + out) (b + inn)) :
    held = true ↔ a + out ≤ t ∧ t < max (a + out) (b + inn) := by
  have hdone : ∀ c, r.done[n]? = some c → c = max (a + out) (b + inn) := by
    intro c hc
    obtain ⟨-, a', b', ha', hb', rfl⟩ := h.done n c hc
    obtain rfl : a = a' := Option.some.inj (ha.symm.trans ha')
    obtain rfl : b = b' := Option.some.inj (hb.symm.trans hb')
    rfl
  rw [h.held n a t held ha ht hat fun c hc => (hdone c hc).symm ▸ hle]
  refine and_congr_right fun _ => ?_
  constructor
  · intro hne
    refine lt_of_le_of_ne hle ?_
    rintro rfl
    exact hne (h.meets ha hb (h.polls _ ht))
  · intro hlt hc
    exact absurd (hdone t hc) (by omega)

end Timely
end Rendezvous

import Mathlib.Data.List.Basic

/-!
# Self-delimiting output

A writer whose output is not bracketed can still be read back when each part shows where it
ends: a word ends at the next space, a quoted text at its closing quote, and a list at the
first word that is not the tag of an element. One notion serves the letters of a word and
the words of a record.

## Main definitions

* `SelfDelimiting` — what was written can be split off the front of a longer text.
* `PlainWord`, `quoted` — words without spaces, and texts in quotes.
* `spaced` — words, each after a space.

## Main results

* `SelfDelimiting.flatMap` — lists whose elements are introduced by a tag.
* `spaced_injective` — a text determines its words.
-/
variable {α β : Type}

/-- The values of `P` can be read off the front of a text in which they are followed by
nothing or by a letter, as `follow` tells. -/
def SelfDelimiting (follow : Option α → Prop) (P : β → Prop) (write : β → List α) : Prop :=
  ∀ ⦃a b : β⦄, P a → P b → ∀ ⦃r s : List α⦄, follow r.head? → follow s.head? →
    write a ++ r = write b ++ s → a = b ∧ r = s

namespace SelfDelimiting
variable {follow : Option α → Prop} {P : β → Prop} {write : β → List α} {tag : α}

theorem injective (h : SelfDelimiting follow P write) (hend : follow none) {a b : β} (ha : P a)
    (hb : P b) (heq : write a = write b) : a = b := by
  have happend : write a ++ [] = write b ++ [] := by rw [heq]
  have hnil : follow ([] : List α).head? := hend
  exact (h ha hb hnil hnil happend).1

/-- In front of the rest stands the tag of an element, or nothing else. -/
theorem follow_tagged (htag : follow (some tag)) (xs : List β) {r : List α} (hr : follow r.head?) :
    follow ((xs.flatMap fun x => tag :: write x) ++ r).head? := by
  cases xs with
  | nil => exact hr
  | cons x xs => exact htag

/-- Elements that are introduced by a tag, in front of anything that is no element. -/
theorem flatMap (h : SelfDelimiting follow P write) (htag : follow (some tag)) :
    SelfDelimiting (fun next => follow next ∧ next ≠ some tag) (fun xs => ∀ x ∈ xs, P x)
      fun xs : List β => xs.flatMap fun x => tag :: write x := by
  intro xs ys hxs hys r s hr hs heq
  induction xs generalizing ys with
  | nil =>
    cases ys with
    | nil => exact ⟨rfl, heq⟩
    | cons y ys =>
      refine absurd ?_ hr.2
      simp only [List.flatMap_nil, List.nil_append, List.flatMap_cons, List.cons_append] at heq
      rw [heq, List.head?_cons]
  | cons x xs ih =>
    cases ys with
    | nil =>
      refine absurd ?_ hs.2
      simp only [List.flatMap_nil, List.nil_append, List.flatMap_cons, List.cons_append] at heq
      rw [← heq, List.head?_cons]
    | cons y ys =>
      simp only [List.flatMap_cons, List.cons_append, List.append_assoc, List.cons.injEq,
        true_and] at heq
      have hhead := h (hxs x (by simp)) (hys y (by simp)) (follow_tagged htag xs hr.1)
        (follow_tagged htag ys hs.1) heq
      have htail := ih (fun z hz => hxs z (List.mem_cons_of_mem _ hz))
        (fun z hz => hys z (List.mem_cons_of_mem _ hz)) hhead.2
      exact ⟨by rw [hhead.1, htail.1], htail.2⟩

/-- The next letter is none of the tags. -/
def Avoids (tags : List α) (next : Option α) : Prop := ∀ t ∈ tags, next ≠ some t

theorem avoids_some {tags : List α} {t : α} (h : t ∉ tags) : Avoids tags (some t) := by
  intro u hu heq
  rw [Option.some.injEq] at heq
  exact h (heq ▸ hu)

theorem avoids_none {tags : List α} : Avoids tags none := by
  intro t _ h
  cases h

theorem Avoids.mono {tags fewer : List α} {next : Option α} (h : Avoids tags next)
    (hsub : fewer ⊆ tags) : Avoids fewer next :=
  fun t ht => h t (hsub ht)

/-- With another tag the rest must avoid one tag more. -/
theorem tagged {tags : List α} (h : SelfDelimiting (Avoids tags) P write) (htag : tag ∉ tags) :
    SelfDelimiting (Avoids (tag :: tags)) (fun xs => ∀ x ∈ xs, P x)
      fun xs : List β => xs.flatMap fun x => tag :: write x := by
  intro xs ys hxs hys r s hr hs heq
  have hr' := List.forall_mem_cons.1 hr
  have hs' := List.forall_mem_cons.1 hs
  exact h.flatMap (avoids_some htag) hxs hys ⟨hr'.2, hr'.1⟩ ⟨hs'.2, hs'.1⟩ heq

end SelfDelimiting

/-! ## Words -/

/-- A word that is written as it stands: it has no space in it and opens no quotes. -/
structure PlainWord (word : List Char) : Prop where
  solid : ' ' ∉ word
  unquoted : word.head? ≠ some '"'

/-- The letters of a text between quotes; a quote or a backslash in it is marked. -/
def escaped (text : List Char) : List Char :=
  text.flatMap fun c => if c = '"' ∨ c = '\\' then ['\\', c] else [c]

/-- A text in quotes. -/
def quoted (text : List Char) : List Char := '"' :: escaped text ++ ['"']

/-- A text that is written in quotes ends at the closing one. -/
theorem selfDelimiting_quoted : SelfDelimiting (fun _ => True) (fun _ => True) quoted := by
  intro a b _ _ r s _ _ heq
  have hinner : escaped a ++ '"' :: r = escaped b ++ '"' :: s := by
    simpa [quoted] using heq
  clear heq
  induction a generalizing b with
  | nil =>
    cases b with
    | nil => simpa [escaped] using hinner
    | cons d b =>
      by_cases hd : d = '"' ∨ d = '\\'
      · simp [escaped, hd] at hinner
      · simp only [escaped, List.flatMap_cons, List.flatMap_nil, if_neg hd, List.nil_append,
          List.cons_append, List.cons.injEq] at hinner
        exact absurd (.inl hinner.1.symm) hd
  | cons c a ih =>
    cases b with
    | nil =>
      by_cases hc : c = '"' ∨ c = '\\'
      · simp [escaped, hc] at hinner
      · simp only [escaped, List.flatMap_cons, List.flatMap_nil, if_neg hc, List.nil_append,
          List.cons_append, List.cons.injEq] at hinner
        exact absurd (.inl hinner.1) hc
    | cons d b =>
      simp only [escaped, List.flatMap_cons, List.append_assoc] at hinner
      by_cases hc : c = '"' ∨ c = '\\'
      · by_cases hd : d = '"' ∨ d = '\\'
        · simp only [if_pos hc, if_pos hd, List.cons_append, List.nil_append, List.cons.injEq,
            true_and] at hinner
          have hrest := ih hinner.2
          exact ⟨by rw [hinner.1, hrest.1], hrest.2⟩
        · simp only [if_pos hc, if_neg hd, List.cons_append, List.nil_append,
            List.cons.injEq] at hinner
          exact absurd (.inr hinner.1.symm) hd
      · by_cases hd : d = '"' ∨ d = '\\'
        · simp only [if_neg hc, if_pos hd, List.cons_append, List.nil_append,
            List.cons.injEq] at hinner
          exact absurd (.inr hinner.1) hc
        · simp only [if_neg hc, if_neg hd, List.cons_append, List.nil_append,
            List.cons.injEq] at hinner
          have hrest := ih hinner.2
          exact ⟨by rw [hinner.1, hrest.1], hrest.2⟩

theorem quoted_inj {a b : List Char} : quoted a = quoted b ↔ a = b := by
  constructor
  · exact selfDelimiting_quoted.injective trivial trivial trivial
  · intro h
    rw [h]

/-- The words of a text. -/
def IsWord (word : List Char) : Prop := PlainWord word ∨ ∃ text, word = quoted text

/-- A word ends at the next space. -/
theorem PlainWord.split {v w r s : List Char} (hv : PlainWord v) (hw : PlainWord w)
    (hr : r.head? = none ∨ r.head? = some ' ') (hs : s.head? = none ∨ s.head? = some ' ')
    (heq : v ++ r = w ++ s) : v = w ∧ r = s := by
  have hend : ∀ {c : Char} {u t : List Char}, (t.head? = none ∨ t.head? = some ' ') →
      c ≠ ' ' → t ≠ c :: u := by
    intro c u t ht hc h
    rw [h] at ht
    simp [hc] at ht
  have hv' := hv.solid
  have hw' := hw.solid
  clear hv hw
  induction v generalizing w with
  | nil =>
    cases w with
    | nil => exact ⟨rfl, heq⟩
    | cons d w =>
      simp only [List.mem_cons, not_or] at hw'
      exact absurd heq (hend hr (Ne.symm hw'.1))
  | cons c v ih =>
    simp only [List.mem_cons, not_or] at hv'
    cases w with
    | nil => exact absurd heq.symm (hend hs (Ne.symm hv'.1))
    | cons d w =>
      simp only [List.mem_cons, not_or] at hw'
      simp only [List.cons_append, List.cons.injEq] at heq
      have hrest := ih heq.2 hv'.2 hw'.2
      exact ⟨by rw [heq.1, hrest.1], hrest.2⟩

theorem PlainWord.ne_quoted {w r s text : List Char} (hw : PlainWord w)
    (hr : r.head? = none ∨ r.head? = some ' ') : w ++ r ≠ quoted text ++ s := by
  intro heq
  cases w with
  | nil =>
    rw [List.nil_append] at heq
    rw [heq] at hr
    simp [quoted] at hr
  | cons c w =>
    refine hw.unquoted ?_
    simp only [quoted, List.cons_append, List.cons.injEq] at heq
    rw [heq.1, List.head?_cons]

theorem selfDelimiting_word :
    SelfDelimiting (fun next => next = none ∨ next = some ' ') IsWord id := by
  intro v w hv hw r s hr hs heq
  rcases hv with hv | ⟨a, rfl⟩ <;> rcases hw with hw | ⟨b, rfl⟩
  · exact hv.split hw hr hs heq
  · exact absurd heq (hv.ne_quoted hr)
  · exact absurd heq.symm (hw.ne_quoted hs)
  · have hboth := selfDelimiting_quoted trivial trivial trivial trivial heq
    exact ⟨by rw [hboth.1], hboth.2⟩

/-- Words, each after a space. -/
def spaced (words : List (List Char)) : List Char := words.flatMap fun w => ' ' :: w

/-- A text determines its words. -/
theorem spaced_injective {v w : List (List Char)} (hv : ∀ x ∈ v, IsWord x) (hw : ∀ x ∈ w, IsWord x)
    (h : spaced v = spaced w) : v = w :=
  (selfDelimiting_word.flatMap (.inr rfl)).injective ⟨.inl rfl, nofun⟩ hv hw h

@[simp] theorem spaced_nil : spaced [] = [] := rfl

@[simp] theorem spaced_cons (w : List Char) (words : List (List Char)) :
    spaced (w :: words) = ' ' :: w ++ spaced words := rfl

@[simp] theorem spaced_append (v w : List (List Char)) :
    spaced (v ++ w) = spaced v ++ spaced w := List.flatMap_append

/-- The words of elements that are introduced by a tag. -/
theorem isWord_tagged {γ : Type} {tag : List Char} {write : γ → List (List Char)} {xs : List γ}
    (htag : IsWord tag) (h : ∀ x ∈ xs, ∀ w ∈ write x, IsWord w) :
    ∀ w ∈ xs.flatMap fun x => tag :: write x, IsWord w := by
  intro w hw
  obtain ⟨x, hx, hw⟩ := List.mem_flatMap.1 hw
  rcases List.mem_cons.1 hw with rfl | hw
  · exact htag
  · exact h x hx w hw

theorem spaced_flatMap {γ : Type} (xs : List γ) (f : γ → List (List Char)) :
    spaced (xs.flatMap f) = xs.flatMap fun x => spaced (f x) := List.flatMap_assoc

/-! ## Numbers -/

/-- A number in decimal notation. -/
def decimal (n : ℕ) : List Char := Nat.toDigits 10 n

@[simp] theorem decimal_inj {a b : ℕ} : decimal a = decimal b ↔ a = b := by
  constructor
  · intro h
    have hread := congrArg (fun l => Nat.ofDigitChars 10 l 0) h
    simpa only [decimal, Nat.ofDigitChars_ten_toDigits] using hread
  · intro h
    rw [h]

theorem plainWord_of_all {word : List Char} (h : ∀ c ∈ word, c ≠ ' ' ∧ c ≠ '"') :
    PlainWord word where
  solid hmem := (h _ hmem).1 rfl
  unquoted hhead := (h _ (List.mem_of_mem_head? hhead)).2 rfl

theorem plainWord_decimal (n : ℕ) : PlainWord (decimal n) := by
  refine plainWord_of_all ?_
  intro c hc
  have hdigit : c.isDigit = true := Nat.isDigit_of_mem_toDigits (by decide) (by decide) hc
  constructor
  · intro h
    rw [h] at hdigit
    exact absurd hdigit (by decide)
  · intro h
    rw [h] at hdigit
    exact absurd hdigit (by decide)

import Qsbit.Profile.Mappings
import Qsbit.Lib.Framing

/-!
# The fingerprint of a profile

A profile is written out as one line of words, and the line is hashed. The line has no
brackets: how many words an action takes depends on its kind, and lists of targets,
resources, actions and inputs are introduced by a letter each. All the same it determines
the profile, so that two configurations agree wherever their lines do.

How a double is printed is a parameter, since it belongs to the standard library.

## Main definitions

* `Profile.fingerprintText`, `Profile.fingerprint` — the line and its hash.
* `PrintsDoubles` — what is used of the printing of doubles.
* `Profile.words` — the words of the line.

## Main results

* `Profile.toList_fingerprintText` — the line is its words.
* `Profile.fingerprintText_injective` — validated profiles with one line are equal.
-/
namespace Qsbit
open SelfDelimiting (Avoids avoids_none avoids_some follow_tagged)

/-- `std::quoted`. -/
def stdQuoted (s : String) : String := String.ofList (quoted s.toList)

/-- A boolean as a stream prints it. -/
def shownBool (b : Bool) : String := if b then "1" else "0"

/-- The number of an enumerator. -/
def ActionKind.toInt : ActionKind → ℕ
  | .idealGate => 0
  | .pulse => 1
  | .acquire => 2
  | .discriminatorArm => 3
  | .gateOutput => 4

def ExecutionFlag.toInt : ExecutionFlag → ℕ
  | .always => 0
  | .lastOne => 1
  | .lastZero => 2
  | .equal => 3

section Text
variable (shown : Double → String)

/-- The fields of an action that depend on its kind. -/
def ActionSpec.fingerprintText : ActionSpec → String
  | .gate value => " " ++ shown value.amplitude ++ " " ++ toString value.executionFlag.toInt
  | .pulse value => " " ++ shown value.amplitude ++ " " ++ stdQuoted value.axis ++
      " " ++ toString value.executionFlag.toInt
  | .acquire value => " " ++ toString value.discriminatorDelay ++ " " ++ shownBool value.separateArm
  | .discriminatorArm _ => ""
  | .gateOutput value => " " ++ stdQuoted value.gate

def targetsText (targets : List ℕ) : String :=
  String.join (targets.map fun q => " q " ++ toString q)

def resourcesText (resources : List ResourceUse) : String :=
  String.join (resources.map fun r => " r " ++ toString r.id ++ " " ++ shownBool r.exclusive)

def numbersText (numbers : List ℕ) : String :=
  String.join (numbers.map fun n => " " ++ toString n)

def EventSpec.fingerprintText (a : EventSpec) : String :=
  " a " ++ toString a.kind.toInt ++ " " ++ toString a.port ++ " " ++ stdQuoted a.operation ++
    " " ++ toString a.delay ++ " " ++ toString a.duration ++ a.spec.fingerprintText shown ++
    targetsText a.targets ++ resourcesText a.resources

def Mapping.fingerprintText (m : Mapping) : String :=
  " m " ++ toString m.port ++ " " ++ toString m.codeword ++
    String.join (m.actions.map (EventSpec.fingerprintText shown))

def TwoQubitGate.fingerprintText (g : TwoQubitGate) : String :=
  " g " ++ stdQuoted g.name ++ " " ++ stdQuoted g.operation ++ " " ++ toString g.duration ++
    targetsText g.targets ++
    String.join (g.inputs.map fun input =>
      " i " ++ toString input.core ++ " " ++ toString input.port ++ " " ++
        toString input.codeword) ++
    resourcesText g.resources

namespace Profile

/-- The text without the name of the format. -/
def fieldsText (p : Profile) : String :=
  numbersText [p.cpu.period, p.cpu.phase, p.tcu.period, p.tcu.phase, p.start, p.watchdog] ++
    numbersText [p.memoryLatency, p.commandLatency, p.replyLatency, p.cpuResultLatency,
      p.fastResultLatency, p.timingCapacity, p.eventCapacity, p.stagingCapacity,
      p.resultCapacity, p.ports, p.qubits, p.firingWidth, p.seed] ++
    " " ++ shownBool p.fastFeedback ++
    String.join (p.mappings.map (Mapping.fingerprintText shown)) ++
    String.join (p.twoQubitGates.map TwoQubitGate.fingerprintText)

/-- The text that is hashed. -/
def fingerprintText (p : Profile) : String := "qsbit-profile-v1" ++ p.fieldsText shown

/-- FNV-1a on the bytes of a text. -/
def fnv1a (text : String) : BitVec 64 :=
  text.toUTF8.data.toList.foldl
    (fun hash c => (hash ^^^ c.toBitVec.setWidth 64) * 1099511628211#64) 14695981039346656037#64

/-- The hash of the text, in 16 hexadecimal digits. -/
def fingerprint (p : Profile) : String :=
  let digits := Nat.toDigits 16 (fnv1a (p.fingerprintText shown)).toNat
  String.ofList (List.replicate (16 - digits.length) '0' ++ digits)

end Profile
end Text

/-! ## Words -/

/-- Finite doubles are printed with the letters of numbers, and differently. -/
structure PrintsDoubles (shown : Double → String) : Prop where
  letters : ∀ x : Double, x.isFinite = true → ∀ c ∈ (shown x).toList,
    c.isDigit = true ∨ c ∈ ['+', '-', '.', 'e']
  injective : ∀ x y : Double, x.isFinite = true → y.isFinite = true → shown x = shown y → x = y

section Words
variable (shown : Double → String)

def shownFlag (b : Bool) : List Char := if b then ['1'] else ['0']

def ActionSpec.words : ActionSpec → List (List Char)
  | .gate value => [(shown value.amplitude).toList, decimal value.executionFlag.toInt]
  | .pulse value => [(shown value.amplitude).toList, quoted value.axis.toList,
      decimal value.executionFlag.toInt]
  | .acquire value => [decimal value.discriminatorDelay, shownFlag value.separateArm]
  | .discriminatorArm _ => []
  | .gateOutput value => [quoted value.gate.toList]

def targetsWords (targets : List ℕ) : List (List Char) :=
  targets.flatMap fun q => ['q'] :: [decimal q]

def resourceWords (r : ResourceUse) : List (List Char) := [decimal r.id, shownFlag r.exclusive]

def resourcesWords (resources : List ResourceUse) : List (List Char) :=
  resources.flatMap fun r => ['r'] :: resourceWords r

def EventSpec.words (a : EventSpec) : List (List Char) :=
  decimal a.kind.toInt :: decimal a.port :: quoted a.operation.toList :: decimal a.delay ::
    decimal a.duration :: (a.spec.words shown ++ targetsWords a.targets ++
      resourcesWords a.resources)

def actionsWords (actions : List EventSpec) : List (List Char) :=
  actions.flatMap fun a => ['a'] :: a.words shown

def Mapping.words (m : Mapping) : List (List Char) :=
  decimal m.port :: decimal m.codeword :: actionsWords shown m.actions

def mappingsWords (mappings : List Mapping) : List (List Char) :=
  mappings.flatMap fun m => ['m'] :: m.words shown

def GateInput.words (input : GateInput) : List (List Char) :=
  [decimal input.core, decimal input.port, decimal input.codeword]

def inputsWords (inputs : List GateInput) : List (List Char) :=
  inputs.flatMap fun input => ['i'] :: input.words

def TwoQubitGate.words (g : TwoQubitGate) : List (List Char) :=
  quoted g.name.toList :: quoted g.operation.toList :: decimal g.duration ::
    (targetsWords g.targets ++ inputsWords g.inputs ++ resourcesWords g.resources)

def gatesWords (gates : List TwoQubitGate) : List (List Char) :=
  gates.flatMap fun g => ['g'] :: g.words

/-- The numbers of the line, in their order. -/
def Profile.numbers (p : Profile) : List ℕ :=
  [p.cpu.period, p.cpu.phase, p.tcu.period, p.tcu.phase, p.start, p.watchdog, p.memoryLatency,
    p.commandLatency, p.replyLatency, p.cpuResultLatency, p.fastResultLatency, p.timingCapacity,
    p.eventCapacity, p.stagingCapacity, p.resultCapacity, p.ports, p.qubits, p.firingWidth, p.seed]

/-- The words of the line after the first one. -/
def Profile.words (p : Profile) : List (List Char) :=
  p.numbers.map decimal ++ shownFlag p.fastFeedback ::
    (mappingsWords shown p.mappings ++ gatesWords p.twoQubitGates)

/-! ## The line is its words -/

@[simp] theorem toDigits_ten (n : ℕ) : Nat.toDigits 10 n = decimal n := rfl

@[simp] theorem toList_stdQuoted (s : String) : (stdQuoted s).toList = quoted s.toList :=
  String.toList_ofList

@[simp] theorem toList_shownBool (b : Bool) : (shownBool b).toList = shownFlag b := by
  cases b <;> rfl

theorem ActionSpec.toList_fingerprintText (spec : ActionSpec) :
    (spec.fingerprintText shown).toList = spaced (spec.words shown) := by
  cases spec <;> simp [fingerprintText, words]

theorem toList_targetsText (targets : List ℕ) :
    (targetsText targets).toList = spaced (targetsWords targets) := by
  simp [targetsText, targetsWords, spaced_flatMap, List.flatMap_map]

theorem toList_resourcesText (resources : List ResourceUse) :
    (resourcesText resources).toList = spaced (resourcesWords resources) := by
  simp [resourcesText, resourcesWords, resourceWords, spaced_flatMap, List.flatMap_map]

theorem EventSpec.toList_fingerprintText (a : EventSpec) :
    (a.fingerprintText shown).toList = spaced (['a'] :: a.words shown) := by
  unfold fingerprintText
  simp [words, ActionSpec.toList_fingerprintText, toList_targetsText, toList_resourcesText]

theorem Mapping.toList_fingerprintText (m : Mapping) :
    (m.fingerprintText shown).toList = spaced (['m'] :: m.words shown) := by
  simp [fingerprintText, words, List.flatMap_map, EventSpec.toList_fingerprintText, actionsWords,
    spaced_flatMap]

theorem TwoQubitGate.toList_fingerprintText (g : TwoQubitGate) :
    g.fingerprintText.toList = spaced (['g'] :: g.words) := by
  unfold fingerprintText
  simp [words, List.flatMap_map, toList_targetsText, toList_resourcesText, inputsWords,
    GateInput.words, spaced_flatMap]

theorem toList_numbersText (numbers : List ℕ) :
    (numbersText numbers).toList = spaced (numbers.map decimal) := by
  simp [numbersText, spaced, List.flatMap_map]

/-- The line is its words, each after a space. -/
theorem Profile.toList_fieldsText (p : Profile) :
    (p.fieldsText shown).toList = spaced (p.words shown) := by
  simp [fieldsText, words, numbers, toList_numbersText, List.flatMap_map,
    Mapping.toList_fingerprintText, TwoQubitGate.toList_fingerprintText, mappingsWords, gatesWords,
    spaced_flatMap]

/-! ## Every word ends at a space -/

theorem isWord_decimal (n : ℕ) : IsWord (decimal n) := .inl (plainWord_decimal n)

theorem isWord_quoted (text : List Char) : IsWord (quoted text) := .inr ⟨text, rfl⟩

theorem isWord_shownFlag (b : Bool) : IsWord (shownFlag b) := by
  refine .inl (plainWord_of_all ?_)
  intro c hc
  cases b with
  | false =>
    rw [List.mem_singleton.1 hc]
    exact ⟨by decide, by decide⟩
  | true =>
    rw [List.mem_singleton.1 hc]
    exact ⟨by decide, by decide⟩

theorem isWord_tag {c : Char} (hspace : c ≠ ' ') (hquote : c ≠ '"') : IsWord [c] := by
  refine .inl (plainWord_of_all ?_)
  intro d hd
  rw [List.mem_singleton.1 hd]
  exact ⟨hspace, hquote⟩

variable {shown}

theorem PrintsDoubles.isWord (hshown : PrintsDoubles shown) {x : Double} (hx : x.isFinite = true) :
    IsWord (shown x).toList := by
  refine .inl (plainWord_of_all ?_)
  intro c hc
  have hletter := hshown.letters x hx c hc
  constructor
  · intro h
    rw [h] at hletter
    exact absurd hletter (by decide)
  · intro h
    rw [h] at hletter
    exact absurd hletter (by decide)

/-- The amplitude of an action is finite. -/
def ActionSpec.FiniteAmplitude : ActionSpec → Prop
  | .gate value => value.amplitude.isFinite = true
  | .pulse value => value.amplitude.isFinite = true
  | .acquire _ | .discriminatorArm _ | .gateOutput _ => True

theorem ActionSpec.isWord_words (hshown : PrintsDoubles shown) {spec : ActionSpec}
    (h : spec.FiniteAmplitude) : ∀ w ∈ spec.words shown, IsWord w := by
  cases spec with
  | gate value => simp [words, isWord_decimal, hshown.isWord h]
  | pulse value => simp [words, isWord_decimal, isWord_quoted, hshown.isWord h]
  | acquire value => simp [words, isWord_decimal, isWord_shownFlag]
  | discriminatorArm value => simp [words]
  | gateOutput value => simp [words, isWord_quoted]

theorem isWord_targetsWords (targets : List ℕ) : ∀ w ∈ targetsWords targets, IsWord w := by
  refine isWord_tagged (isWord_tag (by decide) (by decide)) ?_
  intro q _
  simp [isWord_decimal]

theorem isWord_resourcesWords (resources : List ResourceUse) :
    ∀ w ∈ resourcesWords resources, IsWord w := by
  refine isWord_tagged (isWord_tag (by decide) (by decide)) ?_
  intro r _
  simp [resourceWords, isWord_decimal, isWord_shownFlag]

theorem EventSpec.isWord_words (hshown : PrintsDoubles shown) {a : EventSpec}
    (h : a.spec.FiniteAmplitude) : ∀ w ∈ a.words shown, IsWord w := by
  simp only [words, List.forall_mem_cons, List.forall_mem_append]
  exact ⟨isWord_decimal _, isWord_decimal _, isWord_quoted _, isWord_decimal _, isWord_decimal _,
    ⟨ActionSpec.isWord_words hshown h, isWord_targetsWords _⟩, isWord_resourcesWords _⟩

theorem isWord_mappingsWords (hshown : PrintsDoubles shown) {mappings : List Mapping}
    (h : ∀ m ∈ mappings, ∀ a ∈ m.actions, a.spec.FiniteAmplitude) :
    ∀ w ∈ mappingsWords shown mappings, IsWord w := by
  refine isWord_tagged (isWord_tag (by decide) (by decide)) ?_
  intro m hm
  simp only [Mapping.words, List.forall_mem_cons]
  refine ⟨isWord_decimal _, isWord_decimal _, ?_⟩
  refine isWord_tagged (isWord_tag (by decide) (by decide)) ?_
  intro a ha
  exact EventSpec.isWord_words hshown (h m hm a ha)

theorem isWord_gatesWords (gates : List TwoQubitGate) : ∀ w ∈ gatesWords gates, IsWord w := by
  refine isWord_tagged (isWord_tag (by decide) (by decide)) ?_
  intro g _
  have hinputs : ∀ w ∈ inputsWords g.inputs, IsWord w := by
    refine isWord_tagged (isWord_tag (by decide) (by decide)) ?_
    intro input _
    simp [GateInput.words, isWord_decimal]
  simp only [TwoQubitGate.words, List.forall_mem_cons, List.forall_mem_append]
  exact ⟨isWord_quoted _, isWord_quoted _, isWord_decimal _,
    ⟨isWord_targetsWords _, hinputs⟩, isWord_resourcesWords _⟩

/-- The amplitudes of a profile are finite. -/
def Profile.FiniteAmplitudes (p : Profile) : Prop :=
  ∀ m ∈ p.mappings, ∀ a ∈ m.actions, a.spec.FiniteAmplitude

theorem Profile.isWord_words (hshown : PrintsDoubles shown) {p : Profile}
    (h : p.FiniteAmplitudes) : ∀ w ∈ p.words shown, IsWord w := by
  simp only [words, List.forall_mem_append, List.forall_mem_map, List.forall_mem_cons]
  exact ⟨fun n _ => isWord_decimal n, isWord_shownFlag _, isWord_mappingsWords hshown h,
    isWord_gatesWords _⟩

/-! ## Every part shows where it ends -/

theorem shownFlag_inj {a b : Bool} : shownFlag a = shownFlag b ↔ a = b := by
  cases a <;> cases b <;> decide

theorem selfDelimiting_targets :
    SelfDelimiting (Avoids [['q']]) (fun _ => True) targetsWords := by
  have hone : SelfDelimiting (Avoids []) (fun _ : ℕ => True) fun q => [decimal q] := by
    intro a b _ _ r s _ _ heq
    simpa using heq
  intro a b _ _ r s hr hs heq
  exact hone.tagged (by simp) (fun _ _ => trivial) (fun _ _ => trivial) hr hs heq

theorem selfDelimiting_resources :
    SelfDelimiting (Avoids [['r']]) (fun _ => True) resourcesWords := by
  have hone : SelfDelimiting (Avoids []) (fun _ => True) resourceWords := by
    intro a b _ _ r s _ _ heq
    cases a
    cases b
    simpa [resourceWords, shownFlag_inj, and_assoc] using heq
  intro a b _ _ r s hr hs heq
  exact hone.tagged (by simp) (fun _ _ => trivial) (fun _ _ => trivial) hr hs heq

theorem selfDelimiting_inputs :
    SelfDelimiting (Avoids [['i']]) (fun _ => True) inputsWords := by
  have hone : SelfDelimiting (Avoids []) (fun _ => True) GateInput.words := by
    intro a b _ _ r s _ _ heq
    cases a
    cases b
    simpa [GateInput.words, and_assoc] using heq
  intro a b _ _ r s hr hs heq
  exact hone.tagged (by simp) (fun _ _ => trivial) (fun _ _ => trivial) hr hs heq

theorem avoids_resources {tags : List (List Char)} (htags : ['r'] ∉ tags)
    (resources : List ResourceUse) {r : List (List Char)} (hr : Avoids tags r.head?) :
    Avoids tags (resourcesWords resources ++ r).head? :=
  follow_tagged (avoids_some htags) resources hr

/-- The operands of an action. -/
theorem QuantumOperands.read {a b : QuantumOperands} {r s : List (List Char)}
    (hr : Avoids [['q'], ['r']] r.head?) (hs : Avoids [['q'], ['r']] s.head?)
    (heq : targetsWords a.targets ++ (resourcesWords a.resources ++ r) =
      targetsWords b.targets ++ (resourcesWords b.resources ++ s)) : a = b ∧ r = s := by
  have htargets := selfDelimiting_targets trivial trivial
    (avoids_resources (by decide) _ (hr.mono (by simp)))
    (avoids_resources (by decide) _ (hs.mono (by simp))) heq
  have hresources := selfDelimiting_resources trivial trivial (hr.mono (by simp))
    (hs.mono (by simp)) htargets.2
  obtain ⟨targets, resources⟩ := a
  obtain ⟨targets', resources'⟩ := b
  refine ⟨?_, hresources.2⟩
  rw [QuantumOperands.mk.injEq]
  exact ⟨htargets.1, hresources.1⟩

theorem ExecutionFlag.toInt_inj {a b : ExecutionFlag} : a.toInt = b.toInt ↔ a = b := by
  cases a <;> cases b <;> decide

/-- The kind of an action tells how many words follow, and which. -/
theorem selfDelimiting_event (hshown : PrintsDoubles shown) :
    SelfDelimiting (Avoids [['q'], ['r']]) (fun a : EventSpec => a.spec.FiniteAmplitude)
      (EventSpec.words shown) := by
  intro a b ha hb r s hr hs heq
  obtain ⟨port, delay, duration, specA⟩ := a
  obtain ⟨port', delay', duration', specB⟩ := b
  simp only [EventSpec.words, List.cons_append, List.append_assoc, List.cons.injEq, decimal_inj,
    quoted_inj, String.toList_inj] at heq
  obtain ⟨hkind, hport, hoperation, hdelay, hduration, heq⟩ := heq
  have hsame : specA = specB ∧ r = s := by
    cases specA with
    | gate v =>
      cases specB with
      | gate w =>
        simp only [ActionSpec.words, List.cons_append, List.nil_append, List.cons.injEq,
          String.toList_inj, decimal_inj, ExecutionFlag.toInt_inj] at heq
        have hoperands := QuantumOperands.read hr hs heq.2.2
        have hamplitude := hshown.injective _ _ ha hb heq.1
        refine ⟨?_, hoperands.2⟩
        rw [ActionSpec.gate.injEq]
        cases v
        cases w
        rw [GateSpec.mk.injEq]
        exact ⟨hoperation, hoperands.1, hamplitude, heq.2.1⟩
      | _ => simp [EventSpec.kind, ActionKind.toInt] at hkind
    | pulse v =>
      cases specB with
      | pulse w =>
        simp only [ActionSpec.words, List.cons_append, List.nil_append, List.cons.injEq,
          String.toList_inj, decimal_inj, quoted_inj, ExecutionFlag.toInt_inj] at heq
        have hoperands := QuantumOperands.read hr hs heq.2.2.2
        have hamplitude := hshown.injective _ _ ha hb heq.1
        refine ⟨?_, hoperands.2⟩
        rw [ActionSpec.pulse.injEq]
        cases v
        cases w
        rw [PulseSpec.mk.injEq]
        exact ⟨hoperation, hoperands.1, hamplitude, heq.2.1, heq.2.2.1⟩
      | _ => simp [EventSpec.kind, ActionKind.toInt] at hkind
    | acquire v =>
      cases specB with
      | acquire w =>
        simp only [ActionSpec.words, List.cons_append, List.nil_append, List.cons.injEq,
          decimal_inj, shownFlag_inj] at heq
        have hoperands := QuantumOperands.read hr hs heq.2.2
        refine ⟨?_, hoperands.2⟩
        rw [ActionSpec.acquire.injEq]
        cases v
        cases w
        rw [AcquireSpec.mk.injEq]
        exact ⟨hoperation, hoperands.1, heq.1, heq.2.1⟩
      | _ => simp [EventSpec.kind, ActionKind.toInt] at hkind
    | discriminatorArm v =>
      cases specB with
      | discriminatorArm w =>
        have hoperands := QuantumOperands.read hr hs heq
        refine ⟨?_, hoperands.2⟩
        rw [ActionSpec.discriminatorArm.injEq]
        cases v
        cases w
        rw [DiscriminatorArmSpec.mk.injEq]
        exact ⟨hoperation, hoperands.1⟩
      | _ => simp [EventSpec.kind, ActionKind.toInt] at hkind
    | gateOutput v =>
      cases specB with
      | gateOutput w =>
        simp only [ActionSpec.words, List.cons_append, List.nil_append, List.cons.injEq,
          quoted_inj, String.toList_inj] at heq
        refine ⟨?_, heq.2⟩
        rw [ActionSpec.gateOutput.injEq]
        cases v
        cases w
        rw [GateOutputSpec.mk.injEq]
        exact heq.1
      | _ => simp [EventSpec.kind, ActionKind.toInt] at hkind
  refine ⟨?_, hsame.2⟩
  rw [EventSpec.mk.injEq]
  exact ⟨hport, hdelay, hduration, hsame.1⟩

theorem selfDelimiting_mapping (hshown : PrintsDoubles shown) :
    SelfDelimiting (Avoids [['a'], ['q'], ['r']])
      (fun m : Mapping => ∀ a ∈ m.actions, a.spec.FiniteAmplitude) (Mapping.words shown) := by
  intro m n hm hn r s hr hs heq
  obtain ⟨port, codeword, actions⟩ := m
  obtain ⟨port', codeword', actions'⟩ := n
  simp only [Mapping.words, List.cons_append, List.cons.injEq, decimal_inj] at heq
  have hactions := (selfDelimiting_event hshown).tagged (by decide) hm hn hr hs heq.2.2
  refine ⟨?_, hactions.2⟩
  rw [Mapping.mk.injEq]
  exact ⟨heq.1, heq.2.1, hactions.1⟩

theorem selfDelimiting_gate :
    SelfDelimiting (Avoids [['q'], ['i'], ['r']]) (fun _ => True) TwoQubitGate.words := by
  intro g h _ _ r s hr hs heq
  simp only [TwoQubitGate.words, List.cons_append, List.append_assoc, List.cons.injEq, decimal_inj,
    quoted_inj, String.toList_inj] at heq
  obtain ⟨hname, hoperation, hduration, heq⟩ := heq
  have hinputs : ∀ (inputs : List GateInput) {t : List (List Char)}, Avoids [['q']] t.head? →
      Avoids [['q']] (inputsWords inputs ++ t).head? :=
    fun inputs _ ht => follow_tagged (avoids_some (by decide)) inputs ht
  have htargets := selfDelimiting_targets trivial trivial
    (hinputs _ (avoids_resources (by decide) _ (hr.mono (by simp))))
    (hinputs _ (avoids_resources (by decide) _ (hs.mono (by simp)))) heq
  have hinput := selfDelimiting_inputs trivial trivial
    (avoids_resources (by decide) _ (hr.mono (by simp)))
    (avoids_resources (by decide) _ (hs.mono (by simp))) htargets.2
  have hresources := selfDelimiting_resources trivial trivial (hr.mono (by simp))
    (hs.mono (by simp)) hinput.2
  cases g
  cases h
  refine ⟨?_, hresources.2⟩
  rw [TwoQubitGate.mk.injEq]
  exact ⟨hname, hoperation, htargets.1, hinput.1, hresources.1, hduration⟩

/-- The words of the line determine the profile. -/
theorem Profile.words_injective (hshown : PrintsDoubles shown) {p q : Profile}
    (hp : p.FiniteAmplitudes) (hq : q.FiniteAmplitudes) (h : p.words shown = q.words shown) :
    p = q := by
  simp only [words, numbers, List.map_cons, List.map_nil, List.cons_append, List.nil_append,
    List.cons.injEq, decimal_inj, shownFlag_inj] at h
  have hgates : ∀ gates : List TwoQubitGate,
      Avoids [['m'], ['a'], ['q'], ['r']] (gatesWords gates).head? := by
    intro gates
    cases gates with
    | nil => exact avoids_none
    | cons g gates => exact avoids_some (by decide)
  obtain ⟨h1, h2, h3, h4, h5, h6, h7, h8, h9, h10, h11, h12, h13, h14, h15, h16, h17, h18, h19, h20,
    hlists⟩ := h
  have hmappings := (selfDelimiting_mapping hshown).tagged (by decide) hp hq (hgates _) (hgates _)
    hlists
  have hgate := (selfDelimiting_gate.tagged (by decide)).injective avoids_none
    (fun _ _ => trivial) (fun _ _ => trivial) hmappings.2
  obtain ⟨⟨cpuPeriod, cpuPhase⟩, ⟨tcuPeriod, tcuPhase⟩⟩ := p
  obtain ⟨⟨cpuPeriod', cpuPhase'⟩, ⟨tcuPeriod', tcuPhase'⟩⟩ := q
  simp_all

/-- Validation refuses amplitudes that are not finite. -/
theorem Profile.finiteAmplitudes_of_validate {p : Profile} (h : p.validate = .ok ()) :
    p.FiniteAmplitudes := by
  intro m hm a ha
  have haction := validateAction_of_validate h hm ha
  cases hspec : a.spec with
  | gate value =>
    simp only [validateAction, hspec, Except.bind_eq_ok_iff, require_eq_ok_iff,
      exists_const] at haction
    exact haction.2.2.2.2.2
  | pulse value =>
    simp only [validateAction, hspec, Except.bind_eq_ok_iff, require_eq_ok_iff,
      exists_const] at haction
    exact haction.2.2.2.2.1
  | acquire value => exact trivial
  | discriminatorArm value => exact trivial
  | gateOutput value => exact trivial

/-- Two validated profiles whose hashed texts agree are the same in every field. -/
theorem Profile.fingerprintText_injective (hshown : PrintsDoubles shown) {p q : Profile}
    (hp : p.validate = .ok ()) (hq : q.validate = .ok ())
    (h : p.fingerprintText shown = q.fingerprintText shown) : p = q := by
  have hfinite := finiteAmplitudes_of_validate hp
  have hfinite' := finiteAmplitudes_of_validate hq
  have htext : spaced (p.words shown) = spaced (q.words shown) := by
    have hlist := congrArg String.toList h
    rw [fingerprintText, fingerprintText, String.toList_append, String.toList_append,
      List.append_cancel_left_eq, toList_fieldsText, toList_fieldsText] at hlist
    exact hlist
  have hwords := spaced_injective (isWord_words hshown hfinite) (isWord_words hshown hfinite') htext
  exact words_injective hshown hfinite hfinite' hwords

end Words

/-- A printing of doubles by their bits; zero is printed as the standard library prints it. -/
def shownBits (x : Double) : String := toString x.bits.toNat

theorem printsDoubles_shownBits : PrintsDoubles shownBits where
  letters := by
    intro x _ c hc
    have hdigits : (shownBits x).toList = Nat.toDigits 10 x.bits.toNat := Nat.toList_repr
    rw [hdigits] at hc
    exact .inl (Nat.isDigit_of_mem_toDigits (by decide) (by decide) hc)
  injective := by
    intro x y _ _ h
    have hdigits : decimal x.bits.toNat = decimal y.bits.toNat := by
      have hlist := congrArg String.toList h
      rwa [shownBits, shownBits, Nat.toString_eq_repr, Nat.toString_eq_repr, Nat.toList_repr,
        Nat.toList_repr] at hlist
    have hbits : x.bits = y.bits := BitVec.eq_of_toNat_eq (decimal_inj.1 hdigits)
    cases x
    cases y
    rw [Double.mk.injEq]
    exact hbits

theorem Profile.fingerprintText_injective_everyKind :
    PrintsDoubles shownBits ∧ everyKind.validate = .ok () ∧ everyKind = everyKind ∧
      everyKind.fingerprintText shownBits ≠ { everyKind with seed := 2 }.fingerprintText shownBits := by
  refine ⟨printsDoubles_shownBits, by decide, ?_, fun h => ?_⟩
  · exact Profile.fingerprintText_injective printsDoubles_shownBits (by decide) (by decide) rfl
  · have heq := Profile.fingerprintText_injective printsDoubles_shownBits (by decide) (by decide) h
    exact absurd heq (by decide)

example : (oneGate.fingerprintText shownBits).toList =
    ("qsbit-profile-v1 5 0 20 0 1000 1000000 1 1 1 1 2 32 32 16 8 8 2 1 1 1" ++
      " m 0 1 a 0 0 \"x\" 0 20 0 0 q 0").toList := by
  decide +kernel

end Qsbit

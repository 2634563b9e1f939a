import Qsbit.Lib.Writes
import Qsbit.Replay.Identities
import Mathlib.Data.List.Flatten
import Mathlib.Data.List.SplitBy

/-!
# What is replayed

The first iteration is the first round as it has been recorded, each further one is the
second round, later by the period. The final idle interval comes after the last of them.

## Main definitions

* `Sound` — what is known of recorded calls.
* `iterationSent`, `idleSent` — the batches of an iteration and of the final idle interval.
* `writes_replayDirect` — the replay sends these batches.
-/
namespace Qsbit
namespace Replay
open TraceModel (Record)

/-! ## Sound recordings -/

/-- What is known of recorded calls. -/
structure Sound (calls : List Call) (trace : List Record) : Prop where
  contiguous : ∃ final, Contiguous 0 (calls.map (·.operation)) final
  /-- A measurement is the last operation of its batch. -/
  batched : calls.Pairwise fun c c' => c.batch = c'.batch → c.operation.isMeasure = false
  distinct : ((calls.flatMap (·.operation.references)).map (·.measurement)).Nodup
  epoch : ∀ c ∈ calls, ∀ r ∈ c.operation.references, r.epoch = 1
  paired : Paired (calls.map (·.operation))
  driven : ∀ c ∈ calls, c.operation.Driven
  during : ∀ c ∈ calls, ∀ x ∈ c.operation.acquisitions,
    x.start ≤ c.operation.tick ∧ c.operation.tick ≤ x.end
  /-- The trace tells when an acquisition starts and how long it takes. -/
  started : ∀ c ∈ calls, ∀ x ∈ c.operation.acquisitions, ∃ e : TraceEvent, .event e ∈ trace ∧
    e.kind = .operationStart ∧ (e.tick : ℤ) = x.start ∧ (e.tick : ℤ) + e.value = x.end

/-- What is known of the calls of a round. -/
structure SoundRound (group : List Call) : Prop where
  batched : group.Pairwise fun c c' => c.batch = c'.batch → c.operation.isMeasure = false
  distinct : ((group.flatMap (·.operation.references)).map (·.measurement)).Nodup
  paired : Paired (group.map (·.operation))
  driven : ∀ c ∈ group, c.operation.Driven

section Rounds
variable {calls group : List Call} {trace : List Record} {ends : List ℤ} {groups : List (List Call)}
  {finalIdle : Option Call} {k : ℕ}

theorem Sound.ordered (h : Sound calls trace) :
    calls.Pairwise fun c c' => c.operation.tick ≤ c'.operation.tick := by
  obtain ⟨final, hcontiguous⟩ := h.contiguous
  have hpairwise := hcontiguous.pairwise
  rwa [List.pairwise_map] at hpairwise

theorem Rounds.getElem? (h : Rounds calls trace ends groups finalIdle)
    (hgroup : groups[k]? = some group) :
    k < ends.length ∧ group = calls.filter fun c => c.round ends = k := by
  rw [h.rounds, List.getElem?_map, Option.map_eq_some_iff] at hgroup
  obtain ⟨k', hk', rfl⟩ := hgroup
  obtain ⟨hlt, hget⟩ := List.getElem?_eq_some_iff.1 hk'
  rw [List.getElem_range] at hget
  subst hget
  exact ⟨by simpa using hlt, rfl⟩

/-- An acquisition is in one round with everything that is done while it lasts. -/
theorem Rounds.round_of_during (h : Rounds calls trace ends groups finalIdle)
    (sound : Sound calls trace) {c : Call} (hc : c ∈ calls) {x : Activity}
    (hx : x ∈ c.operation.acquisitions) {t : ℤ} (hstart : x.start ≤ t) (hend : t ≤ x.end) :
    bisectLeft ends t = bisectLeft ends x.end ∧ bisectLeft ends t < ends.length := by
  obtain ⟨e, he, hkind, hfirst, hlast⟩ := sound.started c hc x hx
  obtain ⟨last, hmem, hle⟩ := h.started e he hkind
  rw [hfirst] at hmem
  rw [hlast] at hle
  obtain ⟨hlt, -⟩ := List.getElem?_eq_some_iff.1 hmem
  have hafter := bisectLeft_le_of_le hmem hle
  have hbefore : bisectLeft ends x.start ≤ bisectLeft ends t := bisectLeft_mono hstart
  have hbetween : bisectLeft ends t ≤ bisectLeft ends x.end := bisectLeft_mono hend
  omega

/-- A round is sound: no acquisition leaves it. -/
theorem Rounds.soundRound (h : Rounds calls trace ends groups finalIdle)
    (sound : Sound calls trace) (hgroup : groups[k]? = some group) : SoundRound group := by
  obtain ⟨-, rfl⟩ := h.getElem? hgroup
  have hsublist : (calls.filter fun c => c.round ends = k).Sublist calls := List.filter_sublist
  have hmem : ∀ {x : Request}, x ∈ (calls.filter fun c => c.round ends = k).map (·.operation) ↔
      ∃ c ∈ calls, c.operation = x ∧ bisectLeft ends x.tick = k := by
    intro x
    simp only [List.mem_map, List.mem_filter, decide_eq_true_eq]
    constructor
    · rintro ⟨c, ⟨hc, hround⟩, rfl⟩
      exact ⟨c, hc, rfl, hround⟩
    · rintro ⟨c, hc, rfl, hround⟩
      exact ⟨c, ⟨hc, hround⟩, rfl⟩
  refine ⟨sound.batched.sublist hsublist, ?_, ?_, fun c hc => sound.driven c (hsublist.subset hc)⟩
  · exact sound.distinct.sublist ((hsublist.flatMap _).map _)
  · refine ⟨?_, ?_, ?_⟩
    · intro operation hoperation x hx
      obtain ⟨c, hc, rfl, hround⟩ := hmem.1 hoperation
      obtain ⟨hkind, references, hmeasure, r, hr, hmeasurement, htargets⟩ :=
        sound.paired.measured _ (List.mem_map_of_mem hc) x hx
      obtain ⟨c', hc', hoperation'⟩ := List.mem_map.1 hmeasure
      obtain ⟨hstart, hend⟩ := sound.during c hc x hx
      have hsame := (h.round_of_during sound hc hx hstart hend).1
      exact ⟨hkind, references, hmem.2 ⟨c', hc', hoperation', hsame.symm.trans hround⟩, r, hr,
        hmeasurement, htargets⟩
    · intro tick references hmeasure r hr
      obtain ⟨c, hc, hoperation, hround⟩ := hmem.1 hmeasure
      obtain ⟨operation', hoperation', x, hx, rfl, hmeasurement, htargets⟩ := sound.paired.acquired
        tick references (List.mem_map.2 ⟨c, hc, hoperation⟩) r hr
      obtain ⟨c', hc', rfl⟩ := List.mem_map.1 hoperation'
      obtain ⟨hstart, hend⟩ := sound.during c' hc' x hx
      have hsame := (h.round_of_during sound hc' hx hstart hend).1
      exact ⟨c'.operation, hmem.2 ⟨c', hc', rfl, hsame.trans hround⟩, x, hx, rfl, hmeasurement,
        htargets⟩
    · intro operation hoperation operation' hoperation' x hx x' hx' hsame
      obtain ⟨c, hc, rfl, -⟩ := hmem.1 hoperation
      obtain ⟨c', hc', rfl, -⟩ := hmem.1 hoperation'
      exact sound.paired.single _ (List.mem_map_of_mem hc) _ (List.mem_map_of_mem hc') x hx x' hx'
        hsame

/-- The final idle interval acquires nothing, and it is an evolution. -/
theorem Rounds.idle (h : Rounds calls trace ends groups finalIdle) (sound : Sound calls trace)
    {call : Call} (hcall : finalIdle = some call) :
    ∃ start tick, call.operation = .evolve start tick [] [] := by
  subst hcall
  obtain ⟨hundriven, hround⟩ := h.final call rfl
  have hmem : call ∈ calls := by
    rw [← h.flatten]
    exact List.mem_append_right _ (List.mem_singleton_self call)
  have hnone : call.operation.acquisitions = [] := by
    refine List.eq_nil_iff_forall_not_mem.2 fun x hx => ?_
    obtain ⟨hstart, hend⟩ := sound.during call hmem x hx
    have hlt := (h.round_of_during sound hmem hx hstart hend).2
    have hround' : bisectLeft ends call.operation.tick = ends.length := hround
    omega
  cases hoperation : call.operation with
  | evolve start tick drives acquisitions =>
    rw [hoperation] at hundriven hnone
    obtain rfl : drives = [] := List.isEmpty_iff.1 hundriven
    obtain rfl : acquisitions = [] := hnone
    exact ⟨start, tick, rfl⟩
  | apply tick gates => simp [hoperation, Operation.undriven] at hundriven
  | measure tick references => simp [hoperation, Operation.undriven] at hundriven

end Rounds

/-! ## What is sent -/

/-- The operations of a round in an iteration, cut where the recorded batches end. -/
def roundSent (group : List Call) (identity : ℕ) (d : ℤ) : List (List Request) :=
  (group.splitBy fun call next => call.batch == next.batch).map fun recorded =>
    recorded.map fun call =>
      call.operation.renamed (numbering (group.flatMap (·.operation.references)) identity) d

section Iterations
variable (first steady : List Call) (period : ℤ)

def iterationGroup : ℕ → List Call
  | 0 => first
  | _ + 1 => steady

def iterationShift : ℕ → ℤ
  | 0 => 0
  | k + 1 => k * period

/-- How many references have been numbered before an iteration. -/
def iterationIdentity : ℕ → ℕ
  | 0 => 0
  | k + 1 => (first.flatMap (·.operation.references)).length +
      k * (steady.flatMap (·.operation.references)).length

/-- The batches of an iteration. -/
def iterationSent (k : ℕ) : List (List Request) :=
  roundSent (iterationGroup first steady k) (iterationIdentity first steady k)
    (iterationShift period k)

/-- The group of every iteration is sound. -/
theorem Rounds.soundIterations {calls third : List Call} {trace : List Record} {ends : List ℤ}
    {finalIdle : Option Call} {first steady : List Call}
    (rounds : Rounds calls trace ends [first, steady, third] finalIdle)
    (sound : Sound calls trace) (k : ℕ) : SoundRound (iterationGroup first steady k) := by
  cases k with
  | zero => exact rounds.soundRound sound (k := 0) rfl
  | succ k => exact rounds.soundRound sound (k := 1) rfl

end Iterations

/-- The batches of the final idle interval. -/
def idleSent (d : ℤ) : Option Call → List (List Request)
  | none => []
  | some call =>
      match call.operation with
      | .evolve start tick drives _ => [[.evolve (start + d) (tick + d) drives []]]
      | _ => []

/-- The backend does what it is asked for. -/
structure PythonBackend.Answers {β : Type} (python : PythonBackend β) : Prop where
  reset : ∀ qubits seed s, ∃ s', (python.reset qubits seed).Returns s () s' []
  execute : ∀ operations s, ∃ bits s', (python.execute 1 operations).Returns s bits s' [] ∧
    bits.length = expectedResults operations

section Writes
variable {β : Type} {python : PythonBackend β} {group : List Call} {identities : List (ℕ × ℕ)}
  {number : ℕ → ℕ} {identity : ℕ} {d : ℤ}

theorem writes_send {operations : List Request} :
    (send python operations).Writes python.Answers [operations]
      fun bits => python.Answers → bits.length = expectedResults operations := by
  rw [← List.append_nil [operations]]
  refine .bind .emit fun _ _ => .silent ?_ ?_
  · intro s bits s' h answers
    obtain ⟨bits', s'', h', hlength⟩ := answers.execute operations s
    have heq : bits = bits' := by
      have := h.symm.trans h'
      simpa using congrArg (·.result) this
    rw [heq, hlength]
  · intro answers s
    obtain ⟨bits, s', h, -⟩ := answers.execute operations s
    exact ⟨bits, s', h⟩

theorem writes_replayBatch (hgroup : SoundRound group) {recorded : List Call}
    (hrecorded : recorded ⊆ group)
    (hlookup : ∀ r ∈ group.flatMap (·.operation.references),
      identities.lookup r.measurement = some (number r.measurement)) :
    (replayBatch python identities d recorded).Writes python.Answers
      [recorded.map fun call => call.operation.renamed number d] fun _ => True := by
  have hrename : (recorded.mapM fun call => rename identities d call.operation) =
      .ok (recorded.map fun call => call.operation.renamed number d) := by
    refine mapM_eq_ok fun call hcall => ?_
    have hmem := hrecorded hcall
    refine hgroup.paired.rename (List.mem_map_of_mem hmem) (hgroup.driven call hmem) fun r hr => ?_
    rw [List.flatMap_map] at hr
    exact hlookup r hr
  unfold replayBatch
  rw [hrename]
  refine .lift_bind (fun _ => ⟨_, rfl⟩) fun operations hoperations => ?_
  obtain rfl := Except.ok.inj hoperations
  refine .bind_nil writes_send fun value hvalue => ?_
  refine .lift_bind (fun answers => ?_) fun _ _ => .pure trivial
  exact ⟨(), require_eq_ok_iff.2 (hvalue answers)⟩

theorem writes_replayBatches (hgroup : SoundRound group) {batches : List (List Call)}
    (hbatches : ∀ recorded ∈ batches, recorded ⊆ group)
    (hlookup : ∀ r ∈ group.flatMap (·.operation.references),
      identities.lookup r.measurement = some (number r.measurement)) :
    (replayBatches python identities d batches).Writes python.Answers
      (batches.map fun recorded => recorded.map fun call => call.operation.renamed number d)
      fun _ => True := by
  induction batches with
  | nil => exact .pure trivial
  | cons recorded rest ih =>
    obtain ⟨hrecorded, hrest⟩ := List.forall_mem_cons.1 hbatches
    rw [List.map_cons, ← List.singleton_append]
    refine .bind (writes_replayBatch hgroup hrecorded hlookup) fun value _ => ?_
    exact .bind_nil (ih hrest) fun bits _ => .pure trivial

variable {first steady : List Call} {groups : List (List Call)} {period : ℤ} {p : Progress}

theorem writes_replayIteration {k : ℕ} (hfirst : groups[0]? = some first)
    (hsteady : groups[1]? = some steady) (hsound : SoundRound (iterationGroup first steady k))
    (hp : p.identity = iterationIdentity first steady k) :
    (replayIteration python groups period k p).Writes python.Answers
      (iterationSent first steady period k)
      fun p' => p'.identity = iterationIdentity first steady (k + 1) ∧ p'.counts.isSome := by
  have hgroup : groupAt groups (if k = 0 then 0 else 1) = .ok (iterationGroup first steady k) := by
    cases k with
    | zero => simp [groupAt, hfirst, iterationGroup, pure, Except.pure]
    | succ k => simp [groupAt, hsteady, iterationGroup, pure, Except.pure]
  have hshift : (if k = 0 then 0 else ((k : ℤ) - 1) * period) = iterationShift period k := by
    cases k with
    | zero => rfl
    | succ k =>
      rw [if_neg (Nat.succ_ne_zero k)]
      simp [iterationShift]
  have hnext : (identifyAll (iterationGroup first steady k) p.identity []).1 =
      iterationIdentity first steady (k + 1) := by
    rw [identifyAll_eq, identify_fst, hp]
    cases k with
    | zero => simp [iterationGroup, iterationIdentity]
    | succ k =>
      simp only [iterationGroup, iterationIdentity]
      rw [Nat.succ_mul, Nat.add_assoc]
  have hlookup : ∀ r ∈ (iterationGroup first steady k).flatMap (·.operation.references),
      (identifyAll (iterationGroup first steady k) p.identity []).2.lookup r.measurement =
        some (numbering ((iterationGroup first steady k).flatMap (·.operation.references))
          (iterationIdentity first steady k) r.measurement) := by
    intro r hr
    rw [identifyAll_eq, lookup_identify hsound.distinct, if_pos (List.mem_map_of_mem hr), hp]
  unfold replayIteration
  rw [hgroup]
  refine .lift_bind (fun _ => ⟨_, rfl⟩) fun group hgroup' => ?_
  obtain rfl := Except.ok.inj hgroup'
  simp only [hshift]
  refine .bind_nil (writes_replayBatches hsound (fun recorded hrecorded => ?_) hlookup)
    fun bits _ => .pure ⟨hnext, ?_⟩
  · conv_rhs => rw [← List.flatten_splitBy (fun call next : Call => call.batch == next.batch)
      (iterationGroup first steady k)]
    exact (List.sublist_flatten_of_mem hrecorded).subset
  · unfold Progress.add
    cases p.counts <;> rfl

theorem writes_replayAll {k n : ℕ} (hfirst : groups[0]? = some first)
    (hsteady : groups[1]? = some steady) (hsound : ∀ k, SoundRound (iterationGroup first steady k))
    (hp : p.identity = iterationIdentity first steady k) :
    (replayAll python groups period (List.range' k n) p).Writes python.Answers
      ((List.range' k n).flatMap (iterationSent first steady period))
      fun p' => 0 < n ∨ p.counts.isSome → p'.counts.isSome := by
  induction n generalizing k p with
  | zero => exact .pure fun h => h.resolve_left (lt_irrefl 0)
  | succ n ih =>
    rw [List.range'_succ, List.flatMap_cons]
    refine .bind (writes_replayIteration hfirst hsteady (hsound k) hp) ?_
    rintro p' ⟨hp', hcounts⟩
    exact (ih hp').mono fun p'' h _ => h (.inr hcounts)

/-- The replay sends the iterations and then the final idle interval. -/
theorem writes_replayDirect {qubits seed n : ℕ} {finalIdle : Option Call}
    (hgroups : groups.length = 3) (hfirst : groups[0]? = some first)
    (hsteady : groups[1]? = some steady) (hsound : ∀ k, SoundRound (iterationGroup first steady k))
    (hidle : ∀ call ∈ finalIdle, ∃ start tick drives acquisitions,
      call.operation = .evolve start tick drives acquisitions) (hn : 0 < n) :
    (replayDirect python qubits seed groups period n finalIdle).Writes python.Answers
      ((List.range n).flatMap (iterationSent first steady period) ++
        idleSent (((n : ℤ) - 3) * period) finalIdle) fun _ => True := by
  have hreset : ((python.reset qubits seed).silent : Replayer β Unit).Writes python.Answers []
      fun _ => True := .silent (fun _ _ _ _ => trivial) fun answers s => ⟨(), answers.reset qubits seed s⟩
  have hsend : ∀ call ∈ finalIdle, (replayIdle python (((n : ℤ) - 3) * period) call.operation).Writes
      python.Answers (idleSent (((n : ℤ) - 3) * period) (some call)) fun _ => True := by
    intro call hcall
    obtain ⟨start, tick, drives, acquisitions, hoperation⟩ := hidle call hcall
    simp only [idleSent, hoperation, replayIdle]
    exact .bind_nil writes_send fun _ _ => .pure trivial
  unfold replayDirect
  rw [hgroups, List.range_eq_range', ← List.nil_append (_ ++ _)]
  refine .bind hreset fun _ _ => ?_
  refine .bind (writes_replayAll hfirst hsteady hsound rfl) fun p hp => ?_
  have hcounts : p.counts.isSome := hp (.inl hn)
  refine .bind_nil (Q := fun _ => True) ?_ fun _ _ => ?_
  · cases finalIdle with
    | none => exact .pure trivial
    | some call => exact hsend call rfl
  · cases hp' : p.counts with
    | none => simp [hp'] at hcounts
    | some counts => exact .pure trivial

end Writes
end Replay
end Qsbit

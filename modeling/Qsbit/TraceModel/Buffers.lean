import Qsbit.TraceModel
import Mathlib.Data.List.DropRight

/-!
# The queues of the player

The player's staging area, its submitted points, its queue and its occupancy of a core depend
on four kinds of record of that core in the current session only. They are a fold of their own
over these records, whatever stands between them. What the codewords of a point are can be
said of the records alone: they lie between two submissions.

## Main definitions

* `Buffers`, `Buffers.reduce` — the queues of a core and what a record does to them.
* `sessionRecords` — the records of a core since the session began.
* `openCodewords`, `pointCodewords` — the codewords between two submissions.
* `buffers_play` — the player folds the records of the session.
-/
namespace Qsbit

namespace TraceKind

/-- A record of this kind moves something in the queues of the player. -/
def moves : TraceKind → Bool
  | .codewordQueued | .timingPointSubmitted | .timingPointEnqueued | .timingPointTriggered => true
  | _ => false

/-- A record of this kind neither moves anything nor starts a session. -/
def plain (k : TraceKind) : Bool := !k.moves && k ≠ .sessionStarted && k ≠ .sessionReset

end TraceKind

namespace TraceModel
open Std (ExtTreeMap)

/-! ## Codewords between submissions -/

def submits (e : TraceEvent) : Bool := e.kind = .timingPointSubmitted

/-- The codewords that no submission follows. -/
def openCodewords (rs : List TraceEvent) : List TraceEvent :=
  (rs.rtakeWhile fun e => !submits e).filter (·.kind = .codewordQueued)

def submitsPoint (label : ℕ) (e : TraceEvent) : Bool := submits e && e.label = label

/-- The codewords between the submission of a point and the one before it. -/
def pointCodewords (rs : List TraceEvent) (label : ℕ) : List TraceEvent :=
  openCodewords (rs.takeWhile fun e => !submitsPoint label e)

/-- The point has been submitted. -/
def Submitted (rs : List TraceEvent) (label : ℕ) : Prop := ∃ e ∈ rs, submitsPoint label e

section Codewords
variable {rs more : List TraceEvent} {e : TraceEvent} {label : ℕ}

@[simp] theorem openCodewords_nil : openCodewords [] = [] := rfl

theorem openCodewords_submitted (he : e.kind = .timingPointSubmitted) :
    openCodewords (rs ++ [e]) = [] := by
  have hs : submits e = true := by simp [submits, he]
  rw [openCodewords, List.rtakeWhile_concat_neg _ _ _ (by simp [hs]), List.filter_nil]

theorem openCodewords_concat (he : e.kind ≠ .timingPointSubmitted) :
    openCodewords (rs ++ [e]) =
      openCodewords rs ++ if e.kind = .codewordQueued then [e] else [] := by
  have hs : submits e = false := by simp [submits, he]
  rw [openCodewords, List.rtakeWhile_concat_pos _ _ _ (by simp [hs]), List.filter_append]
  by_cases hc : e.kind = .codewordQueued
  · rw [List.filter_cons_of_pos (by simp [hc]), if_pos hc, List.filter_nil]
    rfl
  · rw [List.filter_cons_of_neg (by simp [hc]), if_neg hc, List.filter_nil]
    rfl

theorem openCodewords_queued (he : e.kind = .codewordQueued) :
    openCodewords (rs ++ [e]) = openCodewords rs ++ [e] := by
  rw [openCodewords_concat (by simp [he]), if_pos he]

theorem openCodewords_other (he : e.kind ≠ .timingPointSubmitted) (hc : e.kind ≠ .codewordQueued) :
    openCodewords (rs ++ [e]) = openCodewords rs := by
  rw [openCodewords_concat he, if_neg hc, List.append_nil]

/-- Later records do not change the codewords of a submitted point. -/
theorem pointCodewords_append (h : Submitted rs label) :
    pointCodewords (rs ++ more) label = pointCodewords rs label := by
  obtain ⟨e, he, hs⟩ := h
  rw [pointCodewords, List.takeWhile_append, if_neg, pointCodewords]
  intro hlen
  have hall := List.takeWhile_eq_self_iff.1 ((List.takeWhile_prefix _).eq_of_length hlen) e he
  simp [hs] at hall

/-- A new submission takes the codewords that were open. -/
theorem pointCodewords_submitted (h : ¬ Submitted rs e.label)
    (he : e.kind = .timingPointSubmitted) :
    pointCodewords (rs ++ [e]) e.label = openCodewords rs := by
  have hall : rs.takeWhile (fun x => !submitsPoint e.label x) = rs := by
    rw [List.takeWhile_eq_self_iff]
    intro x hx
    have hn : ¬ submitsPoint e.label x = true := fun hs => h ⟨x, hx, hs⟩
    simpa using hn
  have hs : submitsPoint e.label e = true := by simp [submitsPoint, submits, he]
  rw [pointCodewords, List.takeWhile_append, hall, if_pos rfl, List.takeWhile_cons_of_neg (by simp [hs]),
    List.append_nil]

theorem Submitted.append (h : Submitted rs label) : Submitted (rs ++ more) label := by
  obtain ⟨e, he, hs⟩ := h
  exact ⟨e, List.mem_append_left _ he, hs⟩

theorem moves_of_submitsPoint (h : submitsPoint label e = true) : e.kind.moves = true := by
  have hk : e.kind = .timingPointSubmitted := by
    simp only [submitsPoint, submits, Bool.and_eq_true, decide_eq_true_eq] at h
    exact h.1
  rw [hk]
  rfl

/-- Only the records that move something matter. -/
theorem openCodewords_filter : openCodewords (rs.filter (·.kind.moves)) = openCodewords rs := by
  induction rs using List.reverseRecOn with
  | nil => rfl
  | append_singleton rs e ih =>
    rw [List.filter_append]
    by_cases hm : e.kind.moves = true
    · have hone : [e].filter (·.kind.moves) = [e] := by simp [hm]
      rw [hone]
      by_cases hs : e.kind = .timingPointSubmitted
      · rw [openCodewords_submitted hs, openCodewords_submitted hs]
      · rw [openCodewords_concat hs, openCodewords_concat hs, ih]
    · have hnone : [e].filter (·.kind.moves) = [] := by simp [hm]
      have hs : e.kind ≠ .timingPointSubmitted := fun h => hm (by rw [h]; rfl)
      have hc : e.kind ≠ .codewordQueued := fun h => hm (by rw [h]; rfl)
      rw [hnone, List.append_nil, openCodewords_other hs hc, ih]

theorem pointCodewords_filter :
    pointCodewords (rs.filter (·.kind.moves)) label = pointCodewords rs label := by
  suffices h : (rs.filter (·.kind.moves)).takeWhile (fun e => !submitsPoint label e) =
      (rs.takeWhile fun e => !submitsPoint label e).filter (·.kind.moves) by
    rw [pointCodewords, h, openCodewords_filter, pointCodewords]
  induction rs with
  | nil => rfl
  | cons e rs ih =>
    by_cases hs : submitsPoint label e = true
    · simp [moves_of_submitsPoint hs, hs]
    · by_cases hm : e.kind.moves = true
      · simp [hs, hm, ih]
      · simp [hs, hm, ih]

end Codewords

/-! ## The queues of a core -/

structure Buffers where
  staged : List TraceEvent := []
  submitted : ExtTreeMap ℕ QueueItem := ∅
  queue : List QueueItem := []
  occupancy : Option TraceEvent := none

def CoreState.buffers (c : CoreState) : Buffers where
  staged := c.staged
  submitted := c.submitted
  queue := c.queue
  occupancy := c.occupancy

namespace Buffers

/-- What a record of the core does to its queues. -/
def reduce (b : Buffers) (e : TraceEvent) : Buffers :=
  match e.kind with
  | .codewordQueued => { b with staged := b.staged ++ [e] }
  | .timingPointSubmitted =>
      { b with
        submitted := b.submitted.insert e.label
          { label := e.label, point := some e.cycle, codewords := b.staged, tick := e.tick }
        staged := [] }
  | .timingPointEnqueued =>
      { b with
        queue := b.queue ++
          [b.submitted[e.label]?.getD
            { label := e.label, point := none, codewords := [], tick := e.tick }]
        submitted := b.submitted.erase e.label
        occupancy := some e }
  | .timingPointTriggered =>
      { b with
        queue := b.queue.filter (·.label ≠ e.label)
        occupancy := b.occupancy.map fun previous => { e with value := previous.value - 1 } }
  | _ => b

/-- The queues after the records of a session. -/
def ofRecords (rs : List TraceEvent) : Buffers := rs.foldl reduce {}

theorem reduce_of_not_moves {b : Buffers} {e : TraceEvent} (h : e.kind.moves = false) :
    b.reduce e = b := by
  unfold reduce
  cases hk : e.kind <;> simp_all [TraceKind.moves]

theorem ofRecords_filter (rs : List TraceEvent) :
    ofRecords (rs.filter (·.kind.moves)) = ofRecords rs := by
  rw [ofRecords, List.foldl_filter, ofRecords]
  congr 1
  funext b e
  split
  · rfl
  · rename_i hm
    rw [reduce_of_not_moves (Bool.eq_false_iff.2 hm)]

end Buffers

/-! ## The player on a session -/

/-- The records of a core among those of a trace. -/
def coreRecords (id : ℕ) (trace : List Record) : List TraceEvent :=
  (trace.filterMap Record.event?).filter (·.core.getD 0 = id)

/-- The records of a core since the session began. -/
def sessionRecords (id : ℕ) (trace : List Record) : List TraceEvent :=
  coreRecords id (trace.rtakeWhile fun r => !r.startsSession)

/-- The record belongs to a session that has begun. -/
def Within (epoch : ℕ) (r : Record) : Prop := r.startsSession = false ∧ r.epoch = epoch

section Session
variable {s : State} {r : Record} {e : TraceEvent} {id : ℕ} {epoch : ℕ}

theorem buffers_reduceCore (e : TraceEvent) (c : CoreState) :
    (measure e (reduceCore e c)).buffers = c.buffers.reduce e := by
  have hmeasure : ∀ c : CoreState, (measure e c).buffers = c.buffers := by
    intro c
    unfold measure
    split <;> rfl
  rw [hmeasure]
  unfold reduceCore Buffers.reduce
  cases e.kind <;> rfl

theorem buffers_reduceCpu (r : Record) (trace : CpuTrace) (c : CoreState) :
    (reduceCpu r trace c).buffers = c.buffers := by cases trace <;> rfl

theorem core_reduceShared (id' : ℕ) : (reduceShared id' e s).core id = s.core id := by
  unfold reduceShared
  split <;> rfl

theorem epoch_reduce : (reduce s r).epoch = some r.epoch := by
  cases r with
  | cpu tick epoch core trace => rfl
  | event e =>
    unfold reduce
    simp only
    unfold reduceShared
    split <;> rfl

theorem enter_within (hs : s.epoch = some epoch) (hr : Within epoch r) : enter s r = s := by
  have h : ¬ (r.startsSession = true ∨ ∃ epoch ∈ s.epoch, r.epoch ≠ epoch) := by
    rw [hs, hr.1, hr.2]
    simp
  rw [enter, if_neg h, hr.2, ← hs]

theorem core_insert (id' : ℕ) (c : CoreState) :
    State.core { s with cores := s.cores.insert id' c } id = if id' = id then c else s.core id := by
  unfold State.core
  rw [ExtTreeMap.getElem?_insert]
  by_cases h : id' = id
  · simp [h]
  · simp [h]

/-- A record within the session moves only what it says. -/
theorem buffers_reduce (hs : s.epoch = some epoch) (hr : Within epoch r) :
    ((reduce s r).core id).buffers =
      (coreRecords id [r]).foldl Buffers.reduce (s.core id).buffers := by
  cases r with
  | cpu tick epoch' core trace =>
    have hnone : coreRecords id [.cpu tick epoch' core trace] = [] := rfl
    simp only [reduce, enter_within hs hr, core_insert, hnone, List.foldl_nil]
    split
    · rename_i h
      rw [buffers_reduceCpu, h]
    · rfl
  | event e =>
    simp only [reduce, enter_within hs hr, core_reduceShared, core_insert]
    have hid : coreId (.event e) = e.core.getD 0 := rfl
    by_cases h : e.core.getD 0 = id
    · have hone : coreRecords id [.event e] = [e] := by simp [coreRecords, Record.event?, h]
      rw [hid, if_pos h, buffers_reduceCore, hone, h]
      rfl
    · have hnone : coreRecords id [.event e] = [] := by simp [coreRecords, Record.event?, h]
      rw [hid, if_neg h, hnone]
      rfl

theorem coreRecords_append (id : ℕ) (trace more : List Record) :
    coreRecords id (trace ++ more) = coreRecords id trace ++ coreRecords id more := by
  simp [coreRecords]

theorem buffers_foldl {more : List Record} (hs : s.epoch = some epoch)
    (hmore : ∀ r ∈ more, Within epoch r) :
    ((more.foldl reduce s).core id).buffers =
      (coreRecords id more).foldl Buffers.reduce (s.core id).buffers := by
  induction more generalizing s with
  | nil => rfl
  | cons r more ih =>
    obtain ⟨hr, hrest⟩ := List.forall_mem_cons.1 hmore
    rw [List.foldl_cons, ih (epoch_reduce.trans (by rw [hr.2])) hrest, buffers_reduce hs hr,
      ← List.foldl_append, ← coreRecords_append, List.singleton_append]

/-- The first record of a session leaves empty queues. -/
theorem buffers_starts (hr : r.startsSession = true) : ((reduce s r).core id).buffers = {} := by
  cases r with
  | cpu tick epoch' core trace => simp [Record.startsSession] at hr
  | event e =>
    have hkind : e.kind = .sessionStarted ∨ e.kind = .sessionReset := by
      simpa [Record.startsSession] using hr
    have henter : (enter s (.event e)).cores = ∅ := by simp [enter, hr]
    have hempty : (enter s (.event e)).core id = {} := by simp [State.core, henter]
    have hreduce : ∀ c : CoreState, measure e (reduceCore e c) = c := by
      intro c
      rcases hkind with h | h <;> simp [reduceCore, measure, h]
    have hcore : ∀ i, (enter s (.event e)).core i = {} := fun i => by simp [State.core, henter]
    simp only [reduce, core_reduceShared, core_insert, hreduce, hcore, ite_self]
    rfl

/-- A trace that ends in a session: the records before it do not matter. -/
structure EndsIn (epoch : ℕ) (trace : List Record) : Prop where
  split : ∃ before r, trace = before ++ r :: trace.rtakeWhile (fun r => !r.startsSession) ∧
    r.startsSession = true ∧ r.epoch = epoch
  epoch : ∀ r ∈ trace.rtakeWhile (fun r => !r.startsSession), r.epoch = epoch

/-- The player folds the records of the session. -/
theorem buffers_play {trace : List Record} (h : EndsIn epoch trace) :
    ((play trace).core id).buffers = Buffers.ofRecords (sessionRecords id trace) := by
  obtain ⟨before, r, htrace, hr, hepoch⟩ := h.split
  have hwithin : ∀ x ∈ trace.rtakeWhile (fun r => !r.startsSession), Within epoch x := by
    intro x hx
    exact ⟨by simpa using List.mem_rtakeWhile_imp hx, h.epoch x hx⟩
  rw [sessionRecords, Buffers.ofRecords, play]
  conv_lhs => rw [htrace]
  rw [List.foldl_append, List.foldl_cons,
    buffers_foldl (epoch_reduce.trans (by rw [hepoch])) hwithin, buffers_starts hr]

/-- A session goes on with the records within it. -/
theorem EndsIn.append {trace more : List Record} (h : EndsIn epoch trace)
    (hmore : ∀ r ∈ more, Within epoch r) : EndsIn epoch (trace ++ more) ∧
      ∀ id, sessionRecords id (trace ++ more) = sessionRecords id trace ++ coreRecords id more := by
  have htake : (trace ++ more).rtakeWhile (fun r => !r.startsSession) =
      trace.rtakeWhile (fun r => !r.startsSession) ++ more := by
    induction more using List.reverseRecOn with
    | nil => simp
    | append_singleton more r ih =>
      have hr := hmore r (by simp)
      rw [← List.append_assoc, List.rtakeWhile_concat_pos _ _ _ (by simp [hr.1]),
        ih fun x hx => hmore x (List.mem_append_left _ hx), List.append_assoc]
  refine ⟨⟨?_, ?_⟩, ?_⟩
  · obtain ⟨before, r, htrace, hr, hepoch⟩ := h.split
    refine ⟨before, r, ?_, hr, hepoch⟩
    rw [htake]
    conv_lhs => rw [htrace]
    simp
  · rw [htake]
    intro r hr
    rcases List.mem_append.1 hr with hr | hr
    · exact h.epoch r hr
    · exact (hmore r hr).2
  · intro id
    rw [sessionRecords, htake, coreRecords_append, sessionRecords]

/-- A session begins with its first record. -/
theorem EndsIn.starts (before : List Record) (hr : r.startsSession = true) :
    EndsIn r.epoch (before ++ [r]) ∧ ∀ id, sessionRecords id (before ++ [r]) = [] := by
  have htake : (before ++ [r]).rtakeWhile (fun r => !r.startsSession) = [] :=
    List.rtakeWhile_concat_neg _ _ _ (by simp [hr])
  refine ⟨⟨⟨before, r, by rw [htake], hr, rfl⟩, by rw [htake]; simp⟩, fun id => ?_⟩
  rw [sessionRecords, htake]
  rfl

end Session

end TraceModel
end Qsbit

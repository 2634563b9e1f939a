import Qsbit.Decoder.Step
import Qsbit.Lib.Blocks

/-!
# The history of a session

The packets of a session are put together into windows. What is left of them is in
three places: windows whose results have returned, the window that is decoded, the
bits that have been admitted since, and the queue. This is the same whatever other
sessions do, and each operation moves something from one place to the next.

## Main definitions

* `Submission`, `Progress` — what has been submitted, and what has become of it.
* `SessionView` — what matters of the decoders to one session.
* `Serves` — the places in which the packets of a session are.
-/
namespace Qsbit
open Std (ExtTreeMap)

/-- A packet that has been accepted. -/
structure Submission where
  id : ℕ
  core : ℕ
  decoder : ℕ
  bits : List Bool
  deriving DecidableEq, Repr

namespace Submission

def of (p : Submission) (key : ℕ × ℕ) : Bool := p.core = key.1 ∧ p.decoder = key.2

def payload (ps : List Submission) : List Bool := ps.flatMap (·.bits)

/-- The identity of the packet that completes a window. -/
def lastId (ps : List Submission) : ℕ := (ps.getLast?.map (·.id)).getD 0

end Submission

/-- How far a session has come since its last reset: the results that have returned, and how many
of them have been consumed. -/
structure Progress where
  reset : ℕ := 0
  returned : List ℕ := []
  consumed : ℕ := 0
  deriving DecidableEq, Repr

/-- The record is one of the session. -/
def TraceEvent.ofSession (r : TraceEvent) (key : ℕ × ℕ) : Prop :=
  r.core = some key.1 ∧ r.decoder.map (·.id) = some key.2

instance (r : TraceEvent) (key : ℕ × ℕ) : Decidable (r.ofSession key) :=
  inferInstanceAs (Decidable (_ ∧ _))

namespace Progress

def record (key : ℕ × ℕ) (p : Progress) (r : TraceEvent) : Progress :=
  if r.ofSession key then
    match r.kind with
    | .decoderReset => { reset := r.id }
    | .decoderResultReturned => { p with returned := p.returned ++ [r.id] }
    | .decoderResultConsumed => { p with consumed := p.returned.length }
    | _ => p
  else p

def of (key : ℕ × ℕ) (log : List TraceEvent) : Progress := log.foldl (record key) {}

/-- The packets since the last reset. -/
def era (p : Progress) (key : ℕ × ℕ) (submissions : List Submission) : List Submission :=
  submissions.filter fun x => x.of key ∧ p.reset < x.id

end Progress

section Records
variable {key : ℕ × ℕ} {log l : List TraceEvent} {r : TraceEvent}

/-- The records tell nothing of the progress of the session. -/
def Neutral (key : ℕ × ℕ) (l : List TraceEvent) : Prop :=
  ∀ r ∈ l, r.ofSession key → r.kind ≠ .decoderReset ∧ r.kind ≠ .decoderResultReturned ∧
    r.kind ≠ .decoderResultConsumed

theorem neutral_of_kind (kinds : List TraceKind) (h : ∀ r ∈ l, r.kind ∈ kinds)
    (hkinds : ∀ k ∈ kinds, k ≠ .decoderReset ∧ k ≠ .decoderResultReturned ∧
      k ≠ .decoderResultConsumed) : Neutral key l := fun r hr _ => hkinds _ (h r hr)

theorem Progress.of_append_neutral (h : Neutral key l) :
    Progress.of key (log ++ l) = Progress.of key log := by
  rw [Progress.of, List.foldl_append]
  change l.foldl (Progress.record key) (Progress.of key log) = Progress.of key log
  generalize Progress.of key log = p
  induction l generalizing p with
  | nil => rfl
  | cons r rest ih =>
    have hsame : p.record key r = p := by
      unfold Progress.record
      split
      · rename_i hof
        obtain ⟨hreset, hreturned, hconsumed⟩ := h r List.mem_cons_self hof
        split
        · exact absurd ‹_› hreset
        · exact absurd ‹_› hreturned
        · exact absurd ‹_› hconsumed
        · rfl
      · rfl
    rw [List.foldl_cons, hsame]
    exact ih (fun r' hr' => h r' (List.mem_cons_of_mem _ hr')) p

theorem Progress.of_append_singleton :
    Progress.of key (log ++ [r]) = (Progress.of key log).record key r := by
  rw [Progress.of, List.foldl_append]
  rfl

/-- Each result that has returned after a reset is of a later packet. -/
def ReturnsLater (key : ℕ × ℕ) (log : List TraceEvent) : Prop :=
  log.Pairwise fun a b => a.ofSession key → a.kind = .decoderReset → b.ofSession key →
    b.kind = .decoderResultReturned → a.id < b.id

/-- The resets of a session are in order. -/
def ResetsBy (key : ℕ × ℕ) (log : List TraceEvent) : Prop :=
  ∀ r ∈ log, r.ofSession key → r.kind = .decoderReset → r.id ≤ (Progress.of key log).reset

theorem ReturnsLater.append (h : ReturnsLater key log) (hresets : ResetsBy key log)
    (hl : ∀ r ∈ l, r.ofSession key → r.kind = .decoderResultReturned →
      (Progress.of key log).reset < r.id)
    (hpair : ReturnsLater key l) : ReturnsLater key (log ++ l) := by
  refine List.pairwise_append.2 ⟨h, hpair, ?_⟩
  intro a ha b hb hof hkind hof' hkind'
  exact (hresets a ha hof hkind).trans_lt (hl b hb hof' hkind')

theorem returnsLater_of_neutral (h : Neutral key l) : ReturnsLater key l := by
  refine List.pairwise_of_forall_mem_list fun a ha b _ hof hkind _ _ => ?_
  exact absurd hkind (h a ha hof).1

theorem ResetsBy.append_neutral (h : ResetsBy key log) (hl : Neutral key l) :
    ResetsBy key (log ++ l) := by
  intro r hr hof hkind
  rw [Progress.of_append_neutral hl]
  rcases List.mem_append.1 hr with hr | hr
  · exact h r hr hof hkind
  · exact absurd hkind (hl r hr hof).1

end Records

/-! ## Results -/

/-- The result of a window as a number. -/
def DecoderConfig.decoded (d : DecoderConfig) (window : List Bool) : ℕ :=
  match d.decode window with
  | .ok result => DecoderSystem.ofBits result
  | .error _ => 0

/-- The sum of the results of windows, modulo two in each bit; no window has no result. -/
def DecoderConfig.resultOf (d : DecoderConfig) (windows : List (List Bool)) : Option ℕ :=
  if windows = [] then none
  else some (windows.foldl (fun x window => x ^^^ d.decoded window) 0)

theorem DecoderConfig.resultOf_append {d : DecoderConfig} {windows : List (List Bool)}
    {window : List Bool} : d.resultOf (windows ++ [window]) =
      some ((d.resultOf windows).getD 0 ^^^ d.decoded window) := by
  by_cases hnone : windows = []
  · simp [resultOf, hnone]
  · simp [resultOf, hnone, List.foldl_append]

/-! ## What matters to a session -/

structure SessionView where
  session : DecoderSystem.Session
  queued : List Submission
  running : List (ℕ × ℕ)
  next : ℕ
  resetId : Option ℕ

namespace DecoderSystem

def Request.submission (p : Request) : Submission :=
  { id := p.id, core := p.core, decoder := p.decoder, bits := p.bits }

def view (s : DecoderSystem) (key : ℕ × ℕ) : SessionView :=
  { session := s.session key
    queued := (s.requests.filter (·.of key)).map Request.submission
    running := (s.jobs.filter (·.of key)).map fun j => (j.id, j.result)
    next := s.next
    resetId := s.resetRequest.map (·.id) }

end DecoderSystem

open Submission

/-- Where the packets of a session since its last reset are: in the groups that have completed a
window, in the part that has been admitted since, or in the queue. The results of the groups have
returned in order, except that of the last one while it is decoded. -/
structure Serves (d : DecoderConfig) (key : ℕ × ℕ) (submissions : List Submission)
    (log : List TraceEvent) (v : SessionView) (groups : List (List Submission))
    (part : List Submission) : Prop where
  era : (Progress.of key log).era key submissions = groups.flatten ++ part ++ v.queued
  older : ∀ x ∈ groups.flatten ++ part, x.id < v.next ∧ ∀ r ∈ v.resetId, x.id < r
  full : ∀ g ∈ groups, (payload g).length = d.measurements ∧
    ∃ result, d.decode (payload g) = .ok result
  buffer : payload part = v.session.measurements
  short : v.session.measurements.length < d.measurements
  returned : (Progress.of key log).returned =
    (groups.take (Progress.of key log).returned.length).map lastId
  running : v.running = (groups.drop (Progress.of key log).returned.length).map fun g =>
    (lastId g, d.decoded (payload g))
  pending : groups.length = (Progress.of key log).returned.length + v.session.submitted.toNat
  waiting : v.session.submitted = true → part = []
  consumed : (Progress.of key log).consumed ≤ (Progress.of key log).returned.length
  result : v.session.result = d.resultOf (((groups.take (Progress.of key log).returned.length).drop
    (Progress.of key log).consumed).map payload)
  reset : (Progress.of key log).reset < v.next ∧ ∀ r ∈ v.resetId, (Progress.of key log).reset < r
  resets : ResetsBy key log
  later : ReturnsLater key log

section Moves
variable {d : DecoderConfig} {key : ℕ × ℕ} {submissions more : List Submission}
  {log l : List TraceEvent} {v v' : SessionView} {groups : List (List Submission)}
  {part : List Submission} {r : TraceEvent}

theorem older_mono (hnext : v.next ≤ v'.next)
    (hreset : ∀ r ∈ v'.resetId, r ∈ v.resetId ∨ v.next ≤ r) {id : ℕ}
    (hid : id < v.next ∧ ∀ r ∈ v.resetId, id < r) : id < v'.next ∧ ∀ r ∈ v'.resetId, id < r := by
  refine ⟨hid.1.trans_le hnext, fun r hr => ?_⟩
  rcases hreset r hr with hold | hnew
  · exact hid.2 r hold
  · exact hid.1.trans_le hnew

/-- Packets of other sessions are no packets of this one. -/
theorem era_append_of_other {p : Progress} (h : ∀ x ∈ more, x.of key = false) :
    p.era key (submissions ++ more) = p.era key submissions := by
  have hnone : more.filter (fun x => decide (x.of key = true ∧ p.reset < x.id)) = [] := by
    rw [List.filter_eq_nil_iff]
    intro x hx
    simp [h x hx]
  rw [Progress.era, List.filter_append, hnone, List.append_nil]
  rfl

theorem Serves.initial (hd : 0 < d.measurements) (hnext : 0 < v.next) (hsession : v.session = {})
    (hqueued : v.queued = []) (hrunning : v.running = []) (hreset : v.resetId = none) :
    Serves d key [] [] v [] [] where
  era := by
    rw [hqueued]
    rfl
  older := by simp
  full := by simp
  buffer := by
    rw [hsession]
    rfl
  short := by
    rw [hsession]
    exact hd
  returned := rfl
  running := hrunning
  pending := by
    rw [hsession]
    rfl
  waiting := by simp
  consumed := le_rfl
  result := by
    rw [hsession]
    rfl
  reset := ⟨hnext, by simp [hreset]⟩
  resets := by simp [ResetsBy]
  later := List.Pairwise.nil

/-- What does not concern the session leaves its packets where they are. -/
theorem Serves.frame (h : Serves d key submissions log v groups part)
    (hsession : v'.session = v.session) (hqueued : v'.queued = v.queued)
    (hrunning : v'.running = v.running) (hnext : v.next ≤ v'.next)
    (hreset : ∀ r ∈ v'.resetId, r ∈ v.resetId ∨ v.next ≤ r) (hl : Neutral key l)
    (hmore : ∀ x ∈ more, x.of key = false) :
    Serves d key (submissions ++ more) (log ++ l) v' groups part := by
  have hprogress : Progress.of key (log ++ l) = Progress.of key log := Progress.of_append_neutral hl
  constructor
  · rw [hprogress, era_append_of_other hmore, hqueued]
    exact h.era
  · exact fun x hx => older_mono hnext hreset (h.older x hx)
  · exact h.full
  · rw [hsession]
    exact h.buffer
  · rw [hsession]
    exact h.short
  · rw [hprogress]
    exact h.returned
  · rw [hprogress, hrunning]
    exact h.running
  · rw [hprogress, hsession]
    exact h.pending
  · rw [hsession]
    exact h.waiting
  · rw [hprogress]
    exact h.consumed
  · rw [hprogress, hsession]
    exact h.result
  · rw [hprogress]
    exact older_mono hnext hreset h.reset
  · exact h.resets.append_neutral hl
  · exact h.later.append h.resets (fun r hr hof hkind => absurd hkind (hl r hr hof).2.1)
      (returnsLater_of_neutral hl)

/-- A packet of the session is queued. -/
theorem Serves.submit (h : Serves d key submissions log v groups part) {x : Submission}
    (hx : x.of key = true) (hid : x.id = v.next) (hsession : v'.session = v.session)
    (hqueued : v'.queued = v.queued ++ [x]) (hrunning : v'.running = v.running)
    (hnext : v.next ≤ v'.next) (hreset : ∀ r ∈ v'.resetId, r ∈ v.resetId ∨ v.next ≤ r)
    (hl : Neutral key l) :
    Serves d key (submissions ++ [x]) (log ++ l) v' groups part := by
  have hframe : Serves d key (submissions ++ []) (log ++ l) { v' with queued := v.queued } groups
      part := h.frame hsession rfl hrunning hnext hreset hl (by simp)
  have hprogress : Progress.of key (log ++ l) = Progress.of key log := Progress.of_append_neutral hl
  refine { hframe with era := ?_ }
  have hnew : (Progress.of key log).era key [x] = [x] := by
    have := h.reset.1
    rw [Progress.era, List.filter_cons_of_pos]
    · rfl
    · simp [hx, hid, this]
  have hsplit : (Progress.of key log).era key (submissions ++ [x]) =
      (Progress.of key log).era key submissions ++ (Progress.of key log).era key [x] :=
    List.filter_append _ _
  rw [hprogress, hsplit, hnew, h.era, hqueued, List.append_assoc _ _ [x]]

/-- The results of the session are consumed. -/
theorem Serves.consume (h : Serves d key submissions log v groups part)
    (hidle : v.session.submitted = false) (hempty : v.session.measurements = [])
    (hsession : v'.session = {}) (hqueued : v'.queued = v.queued) (hrunning : v'.running = v.running)
    (hnext : v'.next = v.next) (hreset : v'.resetId = v.resetId) (hof : r.ofSession key)
    (hkind : r.kind = .decoderResultConsumed) :
    Serves d key submissions (log ++ [r]) v' groups part := by
  have hprogress : Progress.of key (log ++ [r]) = { Progress.of key log with
      consumed := (Progress.of key log).returned.length } := by
    rw [Progress.of_append_singleton, Progress.record, if_pos hof, hkind]
  constructor
  · rw [hprogress, hqueued]
    exact h.era
  · rw [hnext, hreset]
    exact h.older
  · exact h.full
  · rw [h.buffer, hempty, hsession]
  · have := h.short
    rw [hsession]
    exact Nat.zero_lt_of_lt this
  · rw [hprogress]
    exact h.returned
  · rw [hprogress, hrunning]
    exact h.running
  · rw [hprogress, h.pending, hsession, hidle]
  · rw [hsession]
    simp
  · rw [hprogress]
  · rw [hprogress, hsession]
    have hall : (groups.take (Progress.of key log).returned.length).drop
        (Progress.of key log).returned.length = [] := by
      rw [List.drop_eq_nil_iff, List.length_take]
      exact min_le_left _ _
    rw [hall]
    rfl
  · rw [hprogress, hnext, hreset]
    exact h.reset
  · intro a ha hofa hkinda
    rw [hprogress]
    rcases List.mem_append.1 ha with ha | ha
    · exact h.resets a ha hofa hkinda
    · rw [List.mem_singleton.1 ha, hkind] at hkinda
      simp at hkinda
  · refine h.later.append h.resets (fun a ha _ hkinda => ?_) (List.pairwise_singleton _ _)
    rw [List.mem_singleton.1 ha, hkind] at hkinda
    simp at hkinda

/-- What has been submitted after the reset that is on its way is still queued. -/
theorem Serves.unadmitted (h : Serves d key submissions log v groups part) {id : ℕ}
    (hid : v.resetId = some id) :
    submissions.filter (fun x => x.of key ∧ id < x.id) = v.queued.filter fun x => id < x.id := by
  have hera : submissions.filter (fun x => x.of key ∧ id < x.id) =
      ((Progress.of key log).era key submissions).filter fun x => id < x.id := by
    rw [Progress.era, List.filter_filter]
    apply List.filter_congr
    intro x _
    have himp : id < x.id → (Progress.of key log).reset < x.id := (h.reset.2 id hid).trans
    by_cases hx : id < x.id
    · simp [hx, himp hx]
    · simp [hx]
  rw [hera, h.era, List.filter_append, List.filter_eq_nil_iff.2, List.nil_append]
  intro x hx
  have := (h.older x hx).2 id hid
  simp only [decide_eq_true_eq]
  omega

/-- A reset of the session arrives. What has been submitted after it is still queued. -/
theorem Serves.reset_arrives (h : Serves d key submissions log v groups part) {id : ℕ}
    (hid : v.resetId = some id) (hlt : id < v.next) (hsession : v'.session = {})
    (hqueued : v'.queued = v.queued.filter fun x => id < x.id) (hrunning : v'.running = [])
    (hnext : v'.next = v.next) (hreset : v'.resetId = none) (hof : r.ofSession key)
    (hkind : r.kind = .decoderReset) (hr : r.id = id) :
    Serves d key submissions (log ++ [r]) v' [] [] := by
  have hprogress : Progress.of key (log ++ [r]) = { reset := id } := by
    rw [Progress.of_append_singleton, Progress.record, if_pos hof, hkind, hr]
  have hold : (Progress.of key log).reset < id := h.reset.2 id hid
  constructor
  · rw [hprogress, List.flatten_nil, List.nil_append, List.nil_append, hqueued]
    exact h.unadmitted hid
  · simp
  · simp
  · rw [hsession]
    rfl
  · rw [hsession]
    exact Nat.zero_lt_of_lt h.short
  · rw [hprogress]
    rfl
  · rw [hprogress, hrunning]
    rfl
  · rw [hprogress, hsession]
    rfl
  · simp
  · rw [hprogress]
    exact le_rfl
  · rw [hprogress, hsession]
    rfl
  · rw [hprogress, hnext, hreset]
    exact ⟨hlt, by simp⟩
  · intro a ha hofa hkinda
    rw [hprogress]
    rcases List.mem_append.1 ha with ha | ha
    · exact (h.resets a ha hofa hkinda).trans hold.le
    · rw [List.mem_singleton.1 ha, hr]
  · refine h.later.append h.resets (fun a ha _ hkinda => ?_) (List.pairwise_singleton _ _)
    rw [List.mem_singleton.1 ha, hkind] at hkinda
    simp at hkinda

theorem Serves.running_eq (h : Serves d key submissions log v groups part) {id result : ℕ}
    (hjob : (id, result) ∈ v.running) :
    v.session.submitted = true ∧ v.running = [(id, result)] ∧ ∃ before g, groups = before ++ [g] ∧
      before.length = (Progress.of key log).returned.length ∧ id = lastId g ∧
      result = d.decoded (payload g) := by
  have hlength := h.pending
  cases hsubmitted : v.session.submitted with
  | false =>
    rw [h.running, List.drop_eq_nil_of_le (by simp [hlength, hsubmitted])] at hjob
    simp at hjob
  | true =>
    rw [hsubmitted, Bool.toNat_true] at hlength
    obtain ⟨before, g, rfl⟩ : ∃ before g, groups = before ++ [g] := by
      have hne : groups ≠ [] := by
        rintro rfl
        simp at hlength
      exact ⟨_, _, (List.dropLast_concat_getLast hne).symm⟩
    have hbefore : before.length = (Progress.of key log).returned.length := by
      simpa using hlength
    have hrunning : v.running = [(lastId g, d.decoded (payload g))] := by
      rw [h.running, ← hbefore, List.drop_left]
      rfl
    rw [hrunning, List.mem_singleton] at hjob
    obtain ⟨rfl, rfl⟩ := Prod.mk.inj hjob
    exact ⟨rfl, hrunning, before, g, rfl, hbefore, rfl, rfl⟩

theorem Serves.ne_nil (h : Serves d key submissions log v groups part) {g : List Submission}
    (hg : g ∈ groups) : g ≠ [] := by
  rintro rfl
  have hzero := (h.full [] hg).1
  have hshort := h.short
  simp only [payload, List.flatMap_nil, List.length_nil] at hzero
  omega

theorem exists_lastId {g : List Submission} (hne : g ≠ []) : ∃ x ∈ g, x.id = lastId g :=
  ⟨g.getLast hne, List.getLast_mem hne, by simp [lastId, List.getLast?_eq_some_getLast hne]⟩

/-- A job is older than the reset that is on its way. -/
theorem Serves.running_older (h : Serves d key submissions log v groups part) {id result : ℕ}
    (hjob : (id, result) ∈ v.running) : id < v.next ∧ ∀ r ∈ v.resetId, id < r := by
  obtain ⟨-, -, before, g, rfl, -, rfl, -⟩ := h.running_eq hjob
  obtain ⟨x, hx, hlast⟩ := exists_lastId (h.ne_nil (g := g) (by simp))
  rw [← hlast]
  apply h.older
  simp [hx]

/-- The result of the running job returns. -/
theorem Serves.return_result (h : Serves d key submissions log v groups part) {id result : ℕ}
    (hjob : (id, result) ∈ v.running)
    (hsession : v'.session = { v.session with
      result := some (v.session.result.getD 0 ^^^ result), submitted := false })
    (hqueued : v'.queued = v.queued) (hrunning : v'.running = []) (hnext : v'.next = v.next)
    (hreset : v'.resetId = v.resetId) (hof : r.ofSession key)
    (hkind : r.kind = .decoderResultReturned) (hr : r.id = id) :
    Serves d key submissions (log ++ [r]) v' groups part := by
  obtain ⟨hsubmitted, -, before, g, rfl, hbefore, rfl, rfl⟩ := h.running_eq hjob
  have hprogress : Progress.of key (log ++ [r]) = { Progress.of key log with
      returned := (Progress.of key log).returned ++ [lastId g] } := by
    rw [Progress.of_append_singleton, Progress.record, if_pos hof, hkind, hr]
  have hall : (before ++ [g]).take ((Progress.of key log).returned ++ [lastId g]).length =
      before ++ [g] := by
    rw [List.take_of_length_le]
    simp [hbefore]
  have htake : (before ++ [g]).take (Progress.of key log).returned.length = before := by
    rw [← hbefore, List.take_left]
  have hreturned := h.returned
  have hresult := h.result
  rw [htake] at hreturned hresult
  constructor
  · rw [hprogress, hqueued]
    exact h.era
  · rw [hnext, hreset]
    exact h.older
  · exact h.full
  · rw [hsession]
    exact h.buffer
  · rw [hsession]
    exact h.short
  · rw [hprogress, hall, List.map_append, ← hreturned]
    rfl
  · rw [hprogress, hrunning, List.drop_of_length_le]
    · rfl
    · simp [hbefore]
  · rw [hprogress, hsession]
    simp [hbefore]
  · rw [hsession]
    simp
  · rw [hprogress]
    have := h.consumed
    simp only [List.length_append, List.length_singleton]
    omega
  · rw [hprogress, hsession, hall]
    have hle : (Progress.of key log).consumed ≤ before.length := by
      rw [hbefore]
      exact h.consumed
    change some (v.session.result.getD 0 ^^^ d.decoded (payload g)) = _
    rw [List.drop_append_of_le_length hle, List.map_append, hresult]
    exact DecoderConfig.resultOf_append.symm
  · rw [hprogress, hnext, hreset]
    exact h.reset
  · intro a ha hofa hkinda
    rw [hprogress]
    rcases List.mem_append.1 ha with ha | ha
    · exact h.resets a ha hofa hkinda
    · rw [List.mem_singleton.1 ha, hkind] at hkinda
      simp at hkinda
  · refine h.later.append h.resets (fun a ha _ _ => ?_) (List.pairwise_singleton _ _)
    rw [List.mem_singleton.1 ha, hr]
    obtain ⟨x, hx, hlast⟩ := exists_lastId (h.ne_nil (g := g) (by simp))
    have hmem : x ∈ (Progress.of key log).era key submissions := by
      rw [h.era]
      simp [hx]
    have hera := (List.mem_filter.1 hmem).2
    simp only [decide_eq_true_eq] at hera
    rw [← hlast]
    exact hera.2

/-- The first queued packet is admitted. -/
theorem Serves.admitRequest (h : Serves d key submissions log v groups part) {x : Submission}
    {rest : List Submission} (hqueue : v.queued = x :: rest) (hidle : v.session.submitted = false)
    (hid : x.id < v.next ∧ ∀ r ∈ v.resetId, x.id < r) (hqueued : v'.queued = rest)
    (hnext : v'.next = v.next) (hreset : v'.resetId = v.resetId) (hl : Neutral key l)
    (houtcome : ((v.session.measurements ++ x.bits).length < d.measurements ∧
        v'.session = { v.session with measurements := v.session.measurements ++ x.bits } ∧
        v'.running = v.running) ∨
      ((v.session.measurements ++ x.bits).length = d.measurements ∧
        (∃ result, d.decode (v.session.measurements ++ x.bits) = .ok result) ∧
        v'.session = { v.session with measurements := [], submitted := true } ∧
        v'.running = v.running ++ [(x.id, d.decoded (v.session.measurements ++ x.bits))])) :
    ∃ groups part, Serves d key submissions (log ++ l) v' groups part := by
  have hprogress : Progress.of key (log ++ l) = Progress.of key log := Progress.of_append_neutral hl
  have hlater : ReturnsLater key (log ++ l) :=
    h.later.append h.resets (fun r hr hof hkind => absurd hkind (hl r hr hof).2.1)
      (returnsLater_of_neutral hl)
  have hpayload : payload (part ++ [x]) = v.session.measurements ++ x.bits := by
    rw [← h.buffer]
    simp [payload]
  have holder : ∀ y ∈ groups.flatten ++ (part ++ [x]),
      y.id < v.next ∧ ∀ r ∈ v.resetId, y.id < r := by
    intro y hy
    rw [← List.append_assoc] at hy
    rcases List.mem_append.1 hy with hy | hy
    · exact h.older y hy
    · rw [List.mem_singleton.1 hy]
      exact hid
  have hreturned : (Progress.of key log).returned.length = groups.length := by
    have := h.pending
    rw [hidle, Bool.toNat_false] at this
    omega
  rcases houtcome with ⟨hshort, hsession, hrunning⟩ | ⟨hfull, hdecode, hsession, hrunning⟩
  · refine ⟨groups, part ++ [x], ?_⟩
    constructor
    · rw [hprogress, h.era, hqueue, hqueued]
      simp
    · rw [hnext, hreset]
      exact holder
    · exact h.full
    · rw [hsession]
      exact hpayload
    · rw [hsession]
      exact hshort
    · rw [hprogress]
      exact h.returned
    · rw [hprogress, hrunning]
      exact h.running
    · rw [hprogress, hsession]
      exact h.pending
    · rw [hsession]
      simp [hidle]
    · rw [hprogress]
      exact h.consumed
    · rw [hprogress, hsession]
      exact h.result
    · rw [hprogress, hnext, hreset]
      exact h.reset
    · exact h.resets.append_neutral hl
    · exact hlater
  · have htake : (groups ++ [part ++ [x]]).take (Progress.of key log).returned.length =
        groups.take (Progress.of key log).returned.length := by
      rw [hreturned, List.take_left, List.take_length]
    have hlast : lastId (part ++ [x]) = x.id := by simp [lastId]
    refine ⟨groups ++ [part ++ [x]], [], ?_⟩
    constructor
    · rw [hprogress, h.era, hqueue, hqueued]
      simp
    · rw [hnext, hreset]
      simpa using holder
    · intro g hg
      rcases List.mem_append.1 hg with hg | hg
      · exact h.full g hg
      · rw [List.mem_singleton.1 hg, hpayload]
        exact ⟨hfull, hdecode⟩
    · rw [hsession]
      rfl
    · rw [hsession]
      exact Nat.zero_lt_of_lt h.short
    · rw [hprogress, htake]
      exact h.returned
    · have hnone : v.running = [] := by
        rw [h.running, hreturned, List.drop_length]
        rfl
      rw [hprogress, hrunning, hnone, hreturned, List.drop_left, ← hpayload, ← hlast]
      rfl
    · rw [hprogress, hsession, hreturned]
      simp
    · exact fun _ => rfl
    · rw [hprogress]
      exact h.consumed
    · rw [hprogress, hsession, htake]
      exact h.result
    · rw [hprogress, hnext, hreset]
      exact h.reset
    · exact h.resets.append_neutral hl
    · exact hlater

end Moves
end Qsbit

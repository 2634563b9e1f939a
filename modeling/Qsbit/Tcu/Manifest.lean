import Qsbit.Tcu.Queue

/-!
# Manifests

A trigger gathers the events of its point from all port queues and compares them
with the point's manifest. In a reachable state the comparison cannot fail: the
leading segment of each port queue is what the head request put there.

## Main definitions

* `gather_spread` — gathering takes exactly the events of the head request.
* `QueuesAgree` — the stored points, the port queues and the counter agree.
* `queues_agree` — they do in every reachable state.
-/
namespace Qsbit
namespace TcuCycleModel
open Buckets

/-- A queue yields its leading segment with the label. -/
theorem gatherQueue_append {epoch label : ℕ} {gathered xs ys : List OperationEvent}
    (hx : ∀ e ∈ xs, e.label = label ∧ e.epoch = epoch) (hy : ∀ e ∈ ys, e.label ≠ label)
    (hnodup : ((gathered ++ xs).map (·.id)).Nodup) :
    gatherQueue epoch label gathered (xs ++ ys) = .ok (gathered ++ xs) := by
  induction xs generalizing gathered with
  | nil =>
    cases ys with
    | nil => simp [gatherQueue, pure, Except.pure]
    | cons y ys =>
      have hlabel := hy y (List.mem_cons_self ..)
      simp [gatherQueue, hlabel, pure, Except.pure]
  | cons x xs ih =>
    obtain ⟨hlabel, hepoch⟩ := hx x (List.mem_cons_self ..)
    have hfresh : ∀ e ∈ gathered, e.id ≠ x.id := by
      intro e he
      rw [List.map_append, List.nodup_append] at hnodup
      exact hnodup.2.2 _ (List.mem_map_of_mem he) _ (by simp)
    have hrest : gatherQueue epoch label (gathered ++ [x]) (xs ++ ys) =
        .ok (gathered ++ [x] ++ xs) :=
      ih (fun e he => hx e (List.mem_cons_of_mem _ he)) (by simpa using hnodup)
    rw [List.cons_append, gatherQueue, if_neg (by simpa using hlabel), Except.bind_eq_ok_iff]
    refine ⟨(), require_eq_ok_iff.2 ⟨hepoch, hfresh⟩, ?_⟩
    rw [hrest, List.append_assoc, List.singleton_append]

/-- All queues together yield their leading segments. -/
theorem gather_map_append {ι : Type} {epoch label : ℕ} {gathered : List OperationEvent}
    {ps : List ι} {xs ys : ι → List OperationEvent}
    (hx : ∀ p ∈ ps, ∀ e ∈ xs p, e.label = label ∧ e.epoch = epoch)
    (hy : ∀ p ∈ ps, ∀ e ∈ ys p, label < e.label)
    (hnodup : ((gathered ++ ps.flatMap xs).map (·.id)).Nodup) :
    gather epoch label gathered (ps.map fun p => xs p ++ ys p) =
      .ok (gathered ++ ps.flatMap xs) := by
  induction ps generalizing gathered with
  | nil => simp [gather, pure, Except.pure]
  | cons p ps ih =>
    have hhead : ∀ e ∈ (xs p ++ ys p).head?, label ≤ e.label := by
      intro e he
      rcases List.mem_append.1 (List.mem_of_mem_head? he) with he | he
      · exact (hx p (List.mem_cons_self ..) e he).1.ge
      · exact (hy p (List.mem_cons_self ..) e he).le
    rw [List.flatMap_cons, ← List.append_assoc] at hnodup
    have hqueue := gatherQueue_append (hx p (List.mem_cons_self ..))
      (fun e he => (hy p (List.mem_cons_self ..) e he).ne')
      (by rw [List.map_append] at hnodup; exact (List.nodup_append.1 hnodup).1)
    have hrest : gather epoch label (gathered ++ xs p) (ps.map fun p => xs p ++ ys p) =
        .ok (gathered ++ xs p ++ ps.flatMap xs) :=
      ih (fun r hr => hx r (List.mem_cons_of_mem _ hr))
        (fun r hr => hy r (List.mem_cons_of_mem _ hr)) hnodup
    rw [List.map_cons, gather, Except.bind_eq_ok_iff]
    refine ⟨(), require_eq_ok_iff.2 hhead, ?_⟩
    rw [Except.bind_eq_ok_iff]
    refine ⟨_, hqueue, ?_⟩
    rw [hrest, List.flatMap_cons, List.append_assoc]

/-- Gathering takes exactly the events of the head request. -/
theorem gather_spread {epoch label n : ℕ} {xs ys : List OperationEvent}
    (hx : ∀ e ∈ xs, e.label = label ∧ e.epoch = epoch) (hy : ∀ e ∈ ys, label < e.label)
    (hports : ∀ e ∈ xs, e.action.port < n) (hnodup : (xs.map (·.id)).Nodup) :
    ∃ gathered, gather epoch label [] (spread n (·.action.port) (xs ++ ys)) = .ok gathered ∧
      gathered.Perm xs := by
  have hperm : (spread n (·.action.port) xs).flatten.Perm xs := flatten_spread_perm_of_lt hports
  refine ⟨_, ?_, hperm⟩
  have hsplit : spread n (·.action.port) (xs ++ ys) = (List.range n).map fun p =>
      (xs.filter fun e => e.action.port = p) ++ ys.filter fun e => e.action.port = p := by
    simp only [spread, List.filter_append]
  have hflat : (spread n (·.action.port) xs).flatten =
      (List.range n).flatMap fun p => xs.filter fun e => e.action.port = p := by
    rw [spread, List.flatMap_def]
  rw [hsplit, hflat]
  refine gather_map_append (fun p _ e he => hx e (List.mem_of_mem_filter he))
    (fun p _ e he => hy e (List.mem_of_mem_filter he)) ?_
  rw [← hflat, List.nil_append]
  exact (hperm.map _).nodup_iff.2 hnodup

/-- With every manifested event at hand only a condition can raise a fault. -/
theorem evaluateManifest_error {flags : ExecutionFlags} {gathered : List OperationEvent}
    {manifest : List ℕ} {f : Fault} (hall : ∀ id ∈ manifest, ∃ e ∈ gathered, e.id = id)
    (h : evaluateManifest flags gathered manifest = .error f) : f.code = .invalidOperand := by
  induction manifest with
  | nil => simp [evaluateManifest] at h
  | cons id rest ih =>
    obtain ⟨e, he, hid⟩ := hall id (List.mem_cons_self ..)
    have hfind : (gathered.find? (·.id = id)).isSome := by
      rw [List.find?_isSome]
      exact ⟨e, he, by simpa using hid⟩
    obtain ⟨event, hevent⟩ := Option.isSome_iff_exists.1 hfind
    simp only [evaluateManifest, hevent, Except.bind_eq_error_iff, Except.pure_ne_error, and_false,
      exists_false, or_false] at h
    rcases h with h | ⟨launched, -, h⟩
    · split at h
      · simp only [ExecutionFlags.evaluate, Except.bind_eq_error_iff, require_eq_error_iff,
          Except.pure_ne_error, and_false, exists_false, or_false] at h
        rw [← h.2]
      · simp at h
    · exact ih (fun i hi => hall i (List.mem_cons_of_mem _ hi)) h

/-- The stored points, the port queues and the counter agree with one another. -/
structure QueuesAgree (m : TcuCycleModel) : Prop where
  dues : (m.timing.map (·.due)).Pairwise (· < ·)
  due_last : ∀ p ∈ m.timing.getLast?, p.due = m.lastDue
  labels : m.timing.map (·.point.label) =
    List.range' (m.lastLabel + 1 - m.timing.length) m.timing.length
  length_le : m.timing.length ≤ m.lastLabel
  sorted : ∀ queue ∈ m.events, (queue.map (·.label)).Pairwise (· ≤ ·)
  segments : ∀ queue ∈ m.events,
    queue = m.timing.flatMap fun p => queue.filter (·.label = p.point.label)
  manifest : ∀ p ∈ m.timing,
    ((m.events.flatten.filter (·.label = p.point.label)).map (·.id)).Perm p.point.manifest
  nodup : ∀ p ∈ m.timing, p.point.manifest.Nodup
  owned : ∀ queue ∈ m.events, ∀ e ∈ queue, ∃ p ∈ m.timing, p.point.label = e.label
  syncSize : m.syncSize = (m.timing.map (·.point.synchronizations.length)).sum
  syncSize_le : m.syncSize ≤ m.syncCapacity
  synchronizations_le : ∀ p ∈ m.timing, p.point.synchronizations.length ≤ m.syncSize
  timing_le : m.timing.length ≤ m.profile.timingCapacity
  events_le : ∀ queue ∈ m.events, queue.length ≤ m.profile.timing.eventCapacity

namespace Holds
variable {epoch : ℕ} {m : TcuCycleModel} {q : List Admission} {a : Admission}

/-- The events with the label of a queued request are its own. -/
theorem filter_label (h : Holds epoch m q) (ha : a ∈ q) :
    (q.flatMap (·.request.events)).filter (·.label = a.request.point.label) = a.request.events :=
  filter_flatMap_of_mem h.nodup_labels (fun _ hb => h.label_of_mem hb) ha

/-- Events stand in label order. -/
theorem sorted_events (h : Holds epoch m q) :
    (q.flatMap (·.request.events)).Pairwise fun d e => d.label ≤ e.label := by
  have hlabels : q.Pairwise fun a b => a.request.point.label < b.request.point.label := by
    rw [← List.pairwise_map (f := fun a : Admission => a.request.point.label) (R := (· < ·)),
      h.labels]
    exact List.pairwise_lt_range' ..
  rw [List.pairwise_flatMap]
  constructor
  · intro a ha
    refine List.pairwise_of_forall_mem_list fun d hd e he => ?_
    rw [h.label_of_mem ha d hd, h.label_of_mem ha e he]
  · refine hlabels.imp_of_mem fun {a b} ha hb hab d hd e he => ?_
    rw [h.label_of_mem ha d hd, h.label_of_mem hb e he]
    exact hab.le

theorem queuesAgree (h : Holds epoch m q) : QueuesAgree m := by
  have hpoint : ∀ p ∈ m.timing, ∃ a ∈ q, a.stored = p := by
    intro p hp
    rw [h.timing] at hp
    exact List.mem_map.1 hp
  have hqueue : ∀ queue ∈ m.events, ∃ port,
      (q.flatMap (·.request.events)).filter (fun e => e.action.port = port) = queue := by
    intro queue hqueue
    rw [h.events] at hqueue
    obtain ⟨port, -, hport⟩ := mem_spread.1 hqueue
    exact ⟨port, hport⟩
  have hport : ∀ e ∈ q.flatMap (·.request.events), e.action.port < m.profile.timing.ports := by
    intro e he
    obtain ⟨a, ha, hea⟩ := List.mem_flatMap.1 he
    exact (h.wellFormed a ha).port e hea
  have hlen : m.timing.length = q.length := by rw [h.timing, List.length_map]
  have hsize : m.syncSize = (m.timing.map (·.point.synchronizations.length)).sum := by
    rw [h.syncSize, h.timing, List.map_map]
    rfl
  refine
    { dues := by rw [h.timing, List.map_map]; exact h.dues
      due_last := ?_
      labels := by rw [hlen, h.timing, List.map_map]; exact h.labels
      length_le := by rw [hlen]; exact h.length_le
      sorted := ?_
      segments := ?_
      manifest := ?_
      nodup := ?_
      owned := ?_
      syncSize := hsize
      syncSize_le := h.syncBound
      synchronizations_le := ?_
      timing_le := h.timingBound
      events_le := h.portBound }
  · intro p hp
    rw [h.timing, List.getLast?_map] at hp
    obtain ⟨a, ha, rfl⟩ := Option.map_eq_some_iff.1 hp
    exact h.due_last a ha
  · intro queue hq
    obtain ⟨port, rfl⟩ := hqueue queue hq
    rw [List.pairwise_map]
    exact h.sorted_events.sublist List.filter_sublist
  · intro queue hq
    obtain ⟨port, rfl⟩ := hqueue queue hq
    conv_lhs => rw [List.filter_flatMap]
    rw [h.timing, List.flatMap_map]
    refine List.flatMap_congr fun a ha => ?_
    show _ = List.filter (fun e : OperationEvent => decide (e.label = a.request.point.label)) _
    rw [List.filter_comm, h.filter_label ha]
  · intro p hp
    obtain ⟨a, ha, rfl⟩ := hpoint p hp
    have hperm : m.events.flatten.Perm (q.flatMap (·.request.events)) := by
      rw [h.events]
      exact flatten_spread_perm_of_lt hport
    have hfilter := (hperm.filter fun e : OperationEvent =>
      decide (e.label = a.request.point.label)).map (·.id)
    rw [h.filter_label ha, (h.wellFormed a ha).manifest] at hfilter
    exact hfilter
  · intro p hp
    obtain ⟨a, ha, rfl⟩ := hpoint p hp
    exact (h.wellFormed a ha).nodup
  · intro queue hq e he
    obtain ⟨port, rfl⟩ := hqueue queue hq
    obtain ⟨a, ha, hea⟩ := List.mem_flatMap.1 (List.mem_of_mem_filter he)
    exact ⟨a.stored, by rw [h.timing]; exact List.mem_map_of_mem ha,
      (h.label_of_mem ha e hea).symm⟩
  · intro p hp
    rw [hsize]
    exact List.single_le_sum (by simp) _ (List.mem_map_of_mem hp)

/-- Assembling the trigger of the head finds every manifested event. -/
theorem assembleTrigger_error (h : Holds epoch m q) {now : ℕ} {state : TimingState}
    {point : Point} {f : Fault} (hpoint : point ∈ m.timing.head?)
    (hf : m.assembleTrigger now epoch state point = .error f) :
    (point.due ≠ state.cycle ∧ f.code = .lateAdmission) ∨ f.code = .invalidOperand := by
  cases q with
  | nil =>
    rw [h.timing] at hpoint
    simp at hpoint
  | cons a q =>
    rw [h.timing, List.map_cons, List.head?_cons, Option.mem_some_iff] at hpoint
    subst hpoint
    have ha := List.mem_cons_self (a := a) (l := q)
    have hwf := h.wellFormed a ha
    have hids : (a.request.events.map (·.id)).Nodup := hwf.manifest ▸ hwf.nodup
    have hbehind : ∀ e ∈ q.flatMap (·.request.events), a.request.point.label < e.label := by
      intro e he
      obtain ⟨b, hb, heb⟩ := List.mem_flatMap.1 he
      have hlabels := h.labels
      rw [List.map_cons, List.length_cons, List.range'_succ] at hlabels
      obtain ⟨hhead, htail⟩ := List.cons.inj hlabels
      have hmem : b.request.point.label ∈ q.map (·.request.point.label) := List.mem_map_of_mem hb
      rw [htail, List.mem_range'_1] at hmem
      rw [h.label_of_mem (List.mem_cons_of_mem _ hb) e heb]
      omega
    obtain ⟨gathered, hgather, hperm⟩ := gather_spread (n := m.profile.timing.ports)
      (fun e he => ⟨hwf.label e he, (hwf.epoch e he).trans (h.epoch a ha)⟩) hbehind hwf.port hids
    have hevents : m.events = spread m.profile.timing.ports (·.action.port)
        (a.request.events ++ q.flatMap (·.request.events)) := h.events
    have hcount : gathered.length = a.request.point.manifest.length := by
      rw [hperm.length_eq, ← hwf.manifest, List.length_map]
    have hfound : ∀ id ∈ a.request.point.manifest, ∃ e ∈ gathered, e.id = id := by
      intro id hid
      rw [← hwf.manifest] at hid
      obtain ⟨e, he, rfl⟩ := List.mem_map.1 hid
      exact ⟨e, hperm.mem_iff.2 he, rfl⟩
    simp only [assembleTrigger, Except.bind_eq_error_iff, require_eq_error_iff, require_eq_ok_iff,
      Except.pure_ne_error, and_false, exists_false, or_false, exists_const, hevents] at hf
    rcases hf with ⟨hne, hf⟩ | ⟨-, hf | ⟨g, hg, hf⟩⟩
    · exact .inl ⟨hne, by rw [← hf]⟩
    · rw [show a.stored.point.label = a.request.point.label from rfl, hgather] at hf
      simp at hf
    · rw [show a.stored.point.label = a.request.point.label from rfl, hgather,
        Except.ok.injEq] at hg
      subst hg
      rcases hf with ⟨hne, -⟩ | ⟨-, hf⟩
      · exact absurd hcount hne
      · exact .inr (evaluateManifest_error hfound hf)

end Holds

variable {χ : Type}

/-- In every reachable state the stored queues agree, and a trigger that faults for a
manifest does so because a callback of the caller did. -/
theorem queues_agree {profile : TcuConfig} {syncCapacity epoch : ℕ} {m : TcuCycleModel}
    (h : Reachable profile syncCapacity epoch m) :
    m.profile = profile ∧ m.syncCapacity = syncCapacity ∧ QueuesAgree m ∧
      ∀ (now : ℕ) (state : TimingState) (preflight : TriggeredEvents → Except Fault Unit)
        (syncPreflight : Option (List ℕ → Sim χ Unit)) (c c' : χ) (f : Fault) (l : List TraceEvent),
        (m.prepareTrigger now epoch state preflight syncPreflight).Raises c f c' l →
        f.code = .manifestMismatch →
        (∃ batch, preflight batch = .error f) ∨
          ∃ check targets c₁ l₁, syncPreflight = some check ∧ (check targets).Raises c f c₁ l₁ := by
  obtain ⟨hprofile, hcapacity, q, hq⟩ := exists_holds h
  refine ⟨hprofile, hcapacity, hq.queuesAgree, ?_⟩
  intro now state preflight syncPreflight c c' f l hr hcode
  obtain ⟨point, hpoint, -, -, -, h | h | rfl | h⟩ := prepareTrigger_raises hr
  · have := hq.assembleTrigger_error hpoint h
    simp [hcode] at this
  · exact .inl h
  · simp at hcode
  · exact .inr h

/-- The queues agree in a unit that has admitted a point with one event. -/
theorem queues_agree_admitted : ∃ m : TcuCycleModel,
    QueuesAgree m ∧ m.timing.map (·.point.manifest) = [[1]] ∧
      m.events.map (·.map (·.id)) = [[1], [], [], [], [], [], [], []] := by
  have hunit : Reachable oneGateConfig 8 1 oneGateUnit := .make 1 rfl
  have hstep := hunit.step (χ := Unit) 980 (some oneGateRequest) [] (fun _ => pure ()) false none ()
  refine ⟨_, (queues_agree (χ := Unit) hstep).2.2.1, ?_, ?_⟩
  · decide
  · decide

end TcuCycleModel
end Qsbit

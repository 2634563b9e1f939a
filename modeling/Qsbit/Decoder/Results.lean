import Qsbit.Decoder.Quiet
import Qsbit.Decoder.Run

/-!
# The results of a session

The bits that a session has submitted since its last reset are cut into windows, the
windows return in their order, and the result that a core reads is the sum of those
that it has not consumed. Nothing else has an influence on it.

## Main results

* `decoder_sessions` — results, order and independence of the sessions.
-/
namespace Qsbit
open Std (ExtTreeMap)
open Submission

/-- The windows of a session: its bits, cut into blocks. -/
def DecoderConfig.windows (d : DecoderConfig) (submissions : List Submission) : List (List Bool) :=
  (payload submissions).blocks d.measurements

namespace DecoderHistory

def progress (history : DecoderHistory) (core decoder : ℕ) : Progress :=
  Progress.of (core, decoder) history.log

/-- The packets that a session has submitted since its last reset. -/
def own (history : DecoderHistory) (core decoder : ℕ) : List Submission :=
  (history.progress core decoder).era (core, decoder) history.submissions

/-- The windows that have returned and have not been consumed. -/
def unread (history : DecoderHistory) (core : ℕ) (d : DecoderConfig) : List (List Bool) :=
  ((d.windows (history.own core d.id)).take (history.progress core d.id).returned.length).drop
    (history.progress core d.id).consumed

end DecoderHistory

/-- The results of a session in a state are those of the windows of its own packets. -/
structure SessionResults (d : DecoderConfig) (core : ℕ) (history : DecoderHistory)
    (s : DecoderSystem) : Prop where
  /-- The packets are what the core has put together in its registers. -/
  staged : s.mmio.registersOf core =
    DecoderSystem.registersAfter s.mmio.base core history.accesses
  returned_le :
    (history.progress core d.id).returned.length ≤ (d.windows (history.own core d.id)).length
  decodes : ∀ w ∈ (d.windows (history.own core d.id)).take
    (history.progress core d.id).returned.length, ∃ result, d.decode w = .ok result
  once : (history.progress core d.id).returned.Pairwise (· < ·)
  /-- The windows return in their order. -/
  order : ∀ i (hi : i < (history.progress core d.id).returned.length), ∃ before x after,
    history.own core d.id = before ++ x :: after ∧
      x.id = (history.progress core d.id).returned[i] ∧
      (payload (before ++ [x])).length = (i + 1) * d.measurements
  result : (s.session (core, d.id)).result = d.resultOf (history.unread core d)
  /-- The registers show the words of the result. -/
  read : ∀ request now epoch reply s' l,
    (DecoderSystem.access core request now epoch).Returns s reply s' l → request.write = false →
    (s.mmio.registersOf core).decoder = d.id →
      (request.address - s.mmio.base = DecoderRegisters.resultLow →
        ∃ x ∈ d.resultOf (history.unread core d), reply = some (x % 2 ^ 32)) ∧
      (request.address - s.mmio.base = DecoderRegisters.resultHigh →
        ∃ x ∈ d.resultOf (history.unread core d), reply = some ((x >>> 32) % 2 ^ 32))
  idle : s.idle = true →
    (payload (history.own core d.id)).length =
        (history.progress core d.id).returned.length * d.measurements ∧
      (d.windows (history.own core d.id)).length = (history.progress core d.id).returned.length

section Windows
variable {d : DecoderConfig} {key : ℕ × ℕ} {submissions : List Submission} {log : List TraceEvent}
  {v : SessionView} {groups : List (List Submission)} {part : List Submission}

theorem payload_append {xs ys : List Submission} : payload (xs ++ ys) = payload xs ++ payload ys :=
  List.flatMap_append

theorem payload_flatten : payload groups.flatten = (groups.map payload).flatten := by
  induction groups with
  | nil => rfl
  | cons g groups ih => rw [List.flatten_cons, payload_append, ih, List.map_cons, List.flatten_cons]

theorem length_payload_flatten {m : ℕ} (h : ∀ g ∈ groups, (payload g).length = m) :
    (payload groups.flatten).length = groups.length * m := by
  induction groups with
  | nil => simp [payload]
  | cons g groups ih =>
    rw [List.forall_mem_cons] at h
    rw [List.flatten_cons, payload_append, List.length_append, h.1, ih h.2, List.length_cons,
      Nat.succ_mul, Nat.add_comm]

theorem Serves.windows (h : Serves d key submissions log v groups part) :
    d.windows ((Progress.of key log).era key submissions) =
      groups.map payload ++ (payload part ++ payload v.queued).blocks d.measurements := by
  rw [DecoderConfig.windows, h.era, List.append_assoc, payload_append, payload_append,
    payload_flatten]
  apply List.blocks_flatten_append (Nat.zero_lt_of_lt h.short)
  intro g hg
  obtain ⟨g', hg', rfl⟩ := List.mem_map.1 hg
  exact (h.full g' hg').1

theorem Serves.returned_le (h : Serves d key submissions log v groups part) :
    (Progress.of key log).returned.length ≤ groups.length := by
  have := h.pending
  omega

theorem Serves.take_windows (h : Serves d key submissions log v groups part) :
    (d.windows ((Progress.of key log).era key submissions)).take
        (Progress.of key log).returned.length =
      (groups.take (Progress.of key log).returned.length).map payload := by
  rw [h.windows, List.take_append_of_le_length, List.map_take]
  rw [List.length_map]
  exact h.returned_le

theorem Serves.once (h : Serves d key submissions log v groups part)
    (hordered : submissions.Pairwise fun x y => x.id < y.id) :
    (Progress.of key log).returned.Pairwise (· < ·) := by
  have hera : groups.flatten.Pairwise fun x y => x.id < y.id := by
    have hall : ((Progress.of key log).era key submissions).Pairwise fun x y => x.id < y.id :=
      hordered.filter _
    rw [h.era, List.append_assoc] at hall
    exact (List.pairwise_append.1 hall).1
  have hgroups := (List.pairwise_flatten.1 hera).2
  rw [h.returned]
  refine List.pairwise_map.2 (List.Pairwise.sublist (List.take_sublist _ _) ?_)
  refine hgroups.imp_of_mem fun ha hb hab => ?_
  obtain ⟨x, hx, hlast⟩ := exists_lastId (h.ne_nil ha)
  obtain ⟨y, hy, hlast'⟩ := exists_lastId (h.ne_nil hb)
  rw [← hlast, ← hlast']
  exact hab x hx y hy

theorem Serves.order (h : Serves d key submissions log v groups part) {i : ℕ}
    (hi : i < (Progress.of key log).returned.length) : ∃ before x after,
      (Progress.of key log).era key submissions = before ++ x :: after ∧
        x.id = (Progress.of key log).returned[i] ∧
        (payload (before ++ [x])).length = (i + 1) * d.measurements := by
  have hlt : i < groups.length := hi.trans_le h.returned_le
  have hg : groups[i] ∈ groups := List.getElem_mem hlt
  have hne := h.ne_nil hg
  have hsplit : groups = groups.take i ++ groups[i] :: groups.drop (i + 1) := by
    rw [← List.drop_eq_getElem_cons hlt, List.take_append_drop]
  have hlast : groups[i] = groups[i].dropLast ++ [groups[i].getLast hne] :=
    (List.dropLast_concat_getLast hne).symm
  refine ⟨(groups.take i).flatten ++ groups[i].dropLast, groups[i].getLast hne,
    (groups.drop (i + 1)).flatten ++ part ++ v.queued, ?_, ?_, ?_⟩
  · have hflatten : groups.flatten =
        (groups.take i).flatten ++ (groups[i] ++ (groups.drop (i + 1)).flatten) := by
      conv_lhs => rw [hsplit]
      rw [List.flatten_append, List.flatten_cons]
    rw [h.era, hflatten]
    conv_lhs => rw [hlast]
    simp
  · have hreturned : (Progress.of key log).returned[i]? = some (lastId groups[i]) := by
      rw [h.returned]
      simp [hi, hlt]
    rw [List.getElem?_eq_getElem hi, Option.some.injEq] at hreturned
    rw [hreturned, lastId, List.getLast?_eq_some_getLast hne]
    rfl
  · have htake : ∀ g ∈ groups.take i, (payload g).length = d.measurements :=
      fun g hg => (h.full g (List.mem_of_mem_take hg)).1
    rw [List.append_assoc, ← hlast, payload_append, List.length_append,
      length_payload_flatten htake, List.length_take_of_le hlt.le, (h.full _ hg).1, Nat.succ_mul]

/-- Where nothing is on its way, all windows have returned and no bits are left over. -/
theorem Serves.idle (h : Serves d key submissions log v groups part) (hqueued : v.queued = [])
    (hrunning : v.running = []) (hempty : v.session.measurements = []) :
    (payload ((Progress.of key log).era key submissions)).length =
        (Progress.of key log).returned.length * d.measurements ∧
      (d.windows ((Progress.of key log).era key submissions)).length =
        (Progress.of key log).returned.length := by
  have hall : groups.length = (Progress.of key log).returned.length := by
    have hdrop := h.running
    rw [hrunning, eq_comm, List.map_eq_nil_iff, List.drop_eq_nil_iff] at hdrop
    exact hdrop.antisymm h.returned_le
  have hpart : payload part = [] := h.buffer.trans hempty
  constructor
  · rw [h.era, hqueued, List.append_nil, payload_append, hpart, List.append_nil,
      length_payload_flatten fun g hg => (h.full g hg).1, hall]
  · rw [h.windows, hqueued, hpart, List.length_append, List.length_map, hall,
      List.blocks_of_length_lt]
    · rfl
    · exact Nat.zero_lt_of_lt h.short

theorem view_of_idle {s : DecoderSystem} (h : s.idle = true) : (s.view key).queued = [] ∧
    (s.view key).running = [] ∧ (s.view key).session.measurements = [] := by
  simp only [DecoderSystem.idle, decide_eq_true_eq] at h
  obtain ⟨hrequests, -, hjobs, hempty⟩ := h
  refine ⟨?_, ?_, ?_⟩
  · simp [DecoderSystem.view, hrequests]
  · simp [DecoderSystem.view, hjobs]
  · change (s.sessions[key]?.getD {}).measurements = []
    cases hsession : s.sessions[key]? with
    | none => rfl
    | some x => exact hempty (key, x) (ExtTreeMap.mem_toList_iff_getElem?_eq_some.2 hsession)

end Windows

open DecoderSystem in
theorem session_results {config : DecoderSystemConfig} {history : DecoderHistory}
    {s : DecoderSystem} {d : DecoderConfig} {core : ℕ} (run : DecoderRun config history s)
    (hd : s.decoder d.id = .ok d) : SessionResults d core history s := by
  obtain ⟨groups, part, hserves⟩ := run.sound.serves (core, d.id) d hd
  have htake := hserves.take_windows
  have hresult : (s.session (core, d.id)).result = d.resultOf (history.unread core d) := by
    have heq := hserves.result
    rw [List.map_drop, ← htake] at heq
    exact heq
  constructor
  · rw [run.registersOf.1]
    exact run.registersOf.2 core
  · have hlength := congrArg List.length hserves.windows
    have hle := hserves.returned_le
    rw [List.length_append, List.length_map] at hlength
    change (Progress.of (core, d.id) history.log).returned.length ≤
      (d.windows ((Progress.of (core, d.id) history.log).era (core, d.id) history.submissions)).length
    omega
  · intro w hw
    have hmem : w ∈ (groups.take _).map payload := htake ▸ hw
    obtain ⟨g, hg, rfl⟩ := List.mem_map.1 hmem
    exact (hserves.full g (List.mem_of_mem_take hg)).2
  · exact hserves.once run.ordered.1
  · exact fun i hi => hserves.order hi
  · exact hresult
  · intro request now epoch reply s' l haccess hwrite hselect
    obtain ⟨c, mmio, hmmio, hcommand⟩ := access_returns_iff.1 haccess
    obtain ⟨kind, rfl, hlow, hhigh⟩ := (DecoderMmio.access_returns hmmio).2.read hwrite
    rw [hselect] at hcommand
    obtain ⟨-, -, hread⟩ := read_returns hcommand
    rw [← hresult]
    constructor
    · intro haddress
      obtain rfl := hlow haddress
      obtain ⟨x, hx, hreply⟩ := hread (.inl rfl)
      exact ⟨x, hx, hreply⟩
    · intro haddress
      obtain rfl := hhigh haddress
      obtain ⟨x, hx, hreply⟩ := hread (.inr rfl)
      exact ⟨x, hx, hreply⟩
  · intro hidle
    obtain ⟨hqueued, hrunning, hempty⟩ := view_of_idle hidle
    exact hserves.idle hqueued hrunning hempty

/-- The result of a session is the sum of the windows that have returned since it was last consumed
or reset; the windows are cut from its own packets, return in order, and have all returned when the
decoders are idle. In another run in which the session has submitted the same bits, and maybe more,
the windows and their results are the same, whatever the other sessions do. -/
theorem decoder_sessions {config : DecoderSystemConfig} {history : DecoderHistory}
    {s : DecoderSystem} (run : DecoderRun config history s) {d : DecoderConfig}
    (hd : d ∈ config.decoders) (core : ℕ) :
    SessionResults d core history s ∧
      ∀ (history' : DecoderHistory) (s' : DecoderSystem), DecoderRun config history' s' →
        payload (history.own core d.id) <+: payload (history'.own core d.id) →
        d.windows (history.own core d.id) <+: d.windows (history'.own core d.id) ∧
          ((history'.progress core d.id).returned.length =
              (history.progress core d.id).returned.length →
            (history'.progress core d.id).consumed = (history.progress core d.id).consumed →
              (s'.session (core, d.id)).result = (s.session (core, d.id)).result) := by
  have hresults : SessionResults d core history s := session_results run (run.decoder hd)
  refine ⟨hresults, ?_⟩
  intro history' s' run' hpayload
  have hwindows : d.windows (history.own core d.id) <+: d.windows (history'.own core d.id) :=
    List.blocks_prefix hpayload
  refine ⟨hwindows, fun hreturned hconsumed => ?_⟩
  obtain ⟨more, hmore⟩ := hwindows
  rw [hresults.result, (session_results run' (run'.decoder hd)).result, DecoderHistory.unread,
    DecoderHistory.unread, hreturned, hconsumed, ← hmore,
    List.take_append_of_le_length hresults.returned_le]

section Probe

/-- What is done to the decoders. -/
inductive DecoderCall
  | access (core : ℕ) (request : MemoryRequest)
  | step

/-- Run calls, each on its tick, while they do not fault. -/
def DecoderHistory.play (history : DecoderHistory) (s : DecoderSystem) :
    List (ℕ × DecoderCall) → Option (DecoderHistory × DecoderSystem)
  | [] => some (history, s)
  | (now, .access core request) :: rest =>
      match DecoderSystem.access core request now 1 s with
      | ⟨.ok reply, s', l⟩ =>
          play { accesses := history.accesses ++ [(core, request)]
                 submissions := history.submissions ++ s.submissionOf core request reply
                 log := history.log ++ l } s' rest
      | _ => none
  | (now, .step) :: rest =>
      match DecoderSystem.step now 1 s with
      | ⟨.ok _, s', l⟩ => play { history with log := history.log ++ l } s' rest
      | _ => none

theorem DecoderRun.play {config : DecoderSystemConfig} {history history' : DecoderHistory}
    {s s' : DecoderSystem} {calls : List (ℕ × DecoderCall)} (run : DecoderRun config history s)
    (h : history.play s calls = some (history', s')) : DecoderRun config history' s' := by
  induction calls generalizing history s with
  | nil =>
    obtain ⟨rfl, rfl⟩ := Prod.mk.inj (Option.some.inj h)
    exact run
  | cons call rest ih =>
    obtain ⟨now, call⟩ := call
    cases call with
    | access core request =>
      rw [DecoderHistory.play] at h
      split at h
      · rename_i reply s₁ l haccess
        exact ih (run.access haccess) h
      · simp at h
    | step =>
      rw [DecoderHistory.play] at h
      split at h
      · rename_i s₁ l hstep
        exact ih (run.step hstep) h
      · simp at h

/-- A core submits two bits that differ, in two packets. Another core submits two that are the same
in between, and consumes its result. -/
def parityCalls : List (ℕ × DecoderCall) :=
  let write core offset value := DecoderCall.access core
    { address := 0x40000000 + offset, value, write := true }
  ([write 0 0 7, write 0 4 1, write 0 8 1, write 0 20 1, .step].map fun call => (0, call)) ++
    ((List.range 5).map fun i => (i + 1, .step)) ++
    ([write 1 0 7, write 1 4 2, write 1 8 3, write 1 20 1, .step].map fun call => (6, call)) ++
    ((List.range 6).map fun i => (i + 7, .step)) ++
    ([write 0 8 0, write 0 20 1].map fun call => (13, call)) ++
    ((List.range 13).map fun i => (i + 13, .step)) ++ [(26, write 1 20 3)] ++
    (List.range 30).map fun i => (i + 26, .step)

/-- The core reads the sum of its own bits. -/
theorem decoder_sessions_parity : ∃ history s, DecoderRun parityConfig history s ∧
    history.submissions.map (fun x => (x.core, x.bits)) =
      [(0, [true]), (1, [true, true]), (0, [false])] ∧
    (s.session (0, 7)).result = some 1 := by
  have hplay : ((({} : DecoderHistory).play parityDecoders parityCalls).any fun x =>
      x.1.submissions.map (fun x => (x.core, x.bits)) =
          [(0, [true]), (1, [true, true]), (0, [false])] ∧
        (payload (x.1.own 0 7)) = [true, false] ∧ (x.1.progress 0 7).returned.length = 1 ∧
        (x.1.progress 0 7).consumed = 0) = true := by decide +kernel
  rw [Option.any_eq_true] at hplay
  obtain ⟨⟨history, s⟩, hplay, hfacts⟩ := hplay
  simp only [decide_eq_true_eq] at hfacts
  obtain ⟨hsubmissions, hown, hreturned, hconsumed⟩ := hfacts
  have run : DecoderRun parityConfig history s := (DecoderRun.make rfl).play hplay
  refine ⟨history, s, run, hsubmissions, ?_⟩
  have hresults := (decoder_sessions run List.mem_cons_self 0).1
  rw [hresults.result, DecoderHistory.unread, DecoderConfig.windows]
  change DecoderConfig.resultOf _ (((List.blocks 2 (payload (history.own 0 7))).take
    (history.progress 0 7).returned.length).drop (history.progress 0 7).consumed) = some 1
  rw [hown, hreturned, hconsumed]
  rfl

end Probe
end Qsbit

import Qsbit.Lib.Delay
import Qsbit.Mailbox
import Mathlib.Data.Nat.Nth

/-!
# When messages arrive

A message becomes readable on the `n`-th edge of its receiver after it was
published. `Clock.after` computes that edge with one division and checked
arithmetic, and overflows only when the edge itself has no 64-bit number. As the
edge does not decrease with the publication, a mailbox is a queue of messages
that are due in order.

## Main definitions

* `Clock.nthEdge` — the `n`-th edge strictly after a tick, as such.
* `ArrivalEdges` — what `Clock.after` computes.
* `Mailbox.Reaches`, `Mailbox.ReceiverRun` — publications and takes, in any order and by a
  receiver that empties the mailbox on each of its edges.
* `mailbox_arrival` — the order and the time of all arrivals.
-/
namespace Qsbit

namespace Clock
variable {c : Clock} {n p q t : ℕ}

/-- The `n`-th edge strictly after a tick. -/
noncomputable def nthEdge (c : Clock) (p n : ℕ) : ℕ := Nat.nth (fun t => p < t ∧ c.edge t) (n - 1)

/-- The first edge strictly after a tick. -/
def nextEdge (c : Clock) (p : ℕ) : ℕ :=
  if c.phase ≤ p then c.phase + ((p - c.phase) / c.period + 1) * c.period else c.phase

/-- The edges after a tick are the first one and those whole periods after it. -/
theorem edge_after_iff (hc : c.Valid) :
    p < t ∧ c.edge t ↔ ∃ k, t = c.nextEdge p + c.period * k := by
  have hpos := hc.period_pos
  unfold nextEdge
  by_cases hp : c.phase ≤ p
  · rw [if_pos hp]
    have hdiv := Nat.div_add_mod (p - c.phase) c.period
    have hmod := Nat.mod_lt (p - c.phase) hpos
    generalize (p - c.phase) / c.period = d at hdiv ⊢
    constructor
    · rintro ⟨hlt, hedge⟩
      obtain ⟨m, rfl⟩ := edge_iff.1 hedge
      have hdm : c.period * d < c.period * m := by omega
      have hm : d < m := Nat.lt_of_mul_lt_mul_left hdm
      obtain ⟨k, rfl⟩ := Nat.exists_eq_add_of_lt hm
      exact ⟨k, by ring⟩
    · rintro ⟨k, rfl⟩
      have hnext : c.phase + (d + 1) * c.period + c.period * k =
          c.phase + c.period * (d + 1 + k) := by ring
      rw [hnext]
      refine ⟨?_, edge_iff.2 ⟨_, rfl⟩⟩
      have : c.period * (d + 1) ≤ c.period * (d + 1 + k) := Nat.mul_le_mul_left _ (by omega)
      rw [Nat.mul_add, Nat.mul_one] at this
      omega
  · rw [if_neg hp]
    constructor
    · rintro ⟨-, hedge⟩
      exact edge_iff.1 hedge
    · rintro ⟨k, rfl⟩
      exact ⟨by omega, edge_iff.2 ⟨k, rfl⟩⟩

theorem nthEdge_eq (hc : c.Valid) (p n : ℕ) :
    c.nthEdge p n = c.nextEdge p + (n - 1) * c.period := by
  have hmono : StrictMono fun k => c.nextEdge p + c.period * k := fun a b hab =>
    Nat.add_lt_add_left (Nat.mul_lt_mul_of_pos_left hab hc.period_pos) _
  have hrange : ∀ t, p < t ∧ c.edge t → t ∈ Set.range fun k => c.nextEdge p + c.period * k := by
    intro t ht
    obtain ⟨k, rfl⟩ := (edge_after_iff hc).1 ht
    exact ⟨k, rfl⟩
  have hinfinite : (Set.ofPred fun t => p < t ∧ c.edge t).Infinite := by
    refine (Set.infinite_range_of_injective hmono.injective).mono ?_
    rintro _ ⟨k, rfl⟩
    exact (edge_after_iff hc).2 ⟨k, rfl⟩
  have hall : (fun k => p < c.nextEdge p + c.period * k ∧ c.edge (c.nextEdge p + c.period * k)) =
      fun _ => True := by
    funext k
    exact eq_true ((edge_after_iff hc).2 ⟨k, rfl⟩)
  have hnth := Nat.nth_comp_of_strictMono (n := n - 1) hmono hrange
    fun hfinite => absurd hfinite hinfinite
  rw [hall, Nat.nth_true] at hnth
  rw [nthEdge, ← hnth, Nat.mul_comm]

/-- Later publications arrive on the same edge or a later one. -/
theorem nthEdge_mono (hc : c.Valid) (n : ℕ) : Monotone fun p => c.nthEdge p n := by
  intro p q hpq
  show c.nthEdge p n ≤ c.nthEdge q n
  rw [nthEdge_eq hc, nthEdge_eq hc]
  -- The next edge after `q` is an edge after `p` as well.
  obtain ⟨hlt, hedge⟩ := (edge_after_iff (p := q) hc).2 ⟨0, rfl⟩
  obtain ⟨k, hk⟩ := (edge_after_iff hc).1 ⟨hpq.trans_lt hlt, hedge⟩
  omega

theorem lt_nthEdge (hc : c.Valid) : p < c.nthEdge p n ∧ c.edge (c.nthEdge p n) := by
  rw [nthEdge_eq hc, Nat.mul_comm]
  exact (edge_after_iff hc).2 ⟨n - 1, rfl⟩

end Clock

/-! ## The checked arithmetic -/

theorem checkedAdd_of_le {a b : ℕ} (h : a + b ≤ maxTick) : checkedAdd a b = .ok (a + b) := by
  have hle : b ≤ maxTick - a := by omega
  simp [checkedAdd, require, hle]

theorem checkedMul_of_le {a b : ℕ} (h : a * b ≤ maxTick) : checkedMul a b = .ok (a * b) := by
  have hle : a = 0 ∨ b ≤ maxTick / a := by
    rcases Nat.eq_zero_or_pos a with rfl | hpos
    · exact .inl rfl
    · exact .inr ((Nat.le_div_iff_mul_le hpos).2 (by rwa [Nat.mul_comm]))
  simp [checkedMul, require, hle]

theorem le_of_checkedAdd {a b s : ℕ} (ha : a ≤ maxTick) (h : checkedAdd a b = .ok s) :
    s ≤ maxTick := by
  have hs := eq_of_checkedAdd h
  simp only [checkedAdd, Except.bind_eq_ok_iff, require_eq_ok_iff, exists_const] at h
  omega

namespace Clock
variable {c : Clock} {n p t : ℕ} {f : Fault}

/-- `after` with its first edge as a program of its own. -/
def checkedNext (c : Clock) (p : ℕ) : Except Fault ℕ :=
  if c.phase ≤ p then do
    let edges ← checkedAdd ((p - c.phase) / c.period) 1
    checkedAdd c.phase (← checkedMul edges c.period)
  else pure c.phase

theorem after_eq_checkedNext (hc : c.Valid) (hn : 0 < n) : c.after p n = (do
    let first ← c.checkedNext p
    checkedAdd first (← checkedMul (n - 1) c.period)) := by
  have hvalid : c.validate = .ok () := validate_eq_ok_iff.2 hc
  have hlatency : require (0 < n) .invalidProfile "receiver-edge latency must be positive" =
      .ok () := require_eq_ok_iff.2 hn
  simp only [after, hvalid, hlatency]
  rfl

theorem checkedNext_of_le (hc : c.Valid) (h : c.nextEdge p ≤ maxTick) :
    c.checkedNext p = .ok (c.nextEdge p) := by
  unfold checkedNext nextEdge at *
  by_cases hp : c.phase ≤ p
  · rw [if_pos hp] at h ⊢
    have hedges : (p - c.phase) / c.period + 1 ≤
        ((p - c.phase) / c.period + 1) * c.period := Nat.le_mul_of_pos_right _ hc.period_pos
    rw [if_pos hp]
    simp only [Except.bind_eq_ok_iff]
    exact ⟨_, checkedAdd_of_le (by omega), _, checkedMul_of_le (by omega), checkedAdd_of_le h⟩
  · rw [if_neg hp, if_neg hp]
    rfl

theorem le_of_checkedNext (hc : c.Valid) (hperiod : c.period ≤ maxTick)
    (h : c.checkedNext p = .ok t) : t = c.nextEdge p ∧ t ≤ maxTick := by
  have hphase : c.phase ≤ maxTick := hc.phase_lt.le.trans hperiod
  unfold checkedNext nextEdge at *
  by_cases hp : c.phase ≤ p
  · rw [if_pos hp] at h ⊢
    simp only [Except.bind_eq_ok_iff] at h
    obtain ⟨edges, hedges, product, hproduct, hsum⟩ := h
    refine ⟨?_, le_of_checkedAdd hphase hsum⟩
    rw [eq_of_checkedAdd hsum, eq_of_checkedMul hproduct, eq_of_checkedAdd hedges]
  · rw [if_neg hp] at h ⊢
    obtain rfl := Except.pure_eq_ok_iff.1 h
    exact ⟨rfl, hphase⟩

theorem code_of_checkedNext (h : c.checkedNext p = .error f) : f.code = .timeOverflow := by
  unfold checkedNext at h
  split at h
  · simp only [Except.bind_eq_error_iff] at h
    rcases h with h | ⟨edges, -, h | ⟨product, -, h⟩⟩
    · rw [code_of_checkedAdd h]
    · rw [code_of_checkedMul h]
    · rw [code_of_checkedAdd h]
  · exact absurd h Except.pure_ne_error

/-- `after` yields the edge whenever it has a 64-bit number: nothing overflows before it. -/
theorem after_of_le (hc : c.Valid) (hn : 0 < n) (h : c.nthEdge p n ≤ maxTick) :
    c.after p n = .ok (c.nthEdge p n) := by
  rw [nthEdge_eq hc] at h ⊢
  rw [after_eq_checkedNext hc hn]
  simp only [Except.bind_eq_ok_iff]
  exact ⟨_, checkedNext_of_le hc (by omega), _, checkedMul_of_le (by omega), checkedAdd_of_le h⟩

/-- Whatever `after` yields is the edge, and nothing has wrapped. -/
theorem eq_of_after (hc : c.Valid) (hperiod : c.period ≤ maxTick) (hn : 0 < n)
    (h : c.after p n = .ok t) : t = c.nthEdge p n ∧ t ≤ maxTick := by
  rw [after_eq_checkedNext hc hn] at h
  simp only [Except.bind_eq_ok_iff] at h
  obtain ⟨first, hfirst, distance, hdistance, hsum⟩ := h
  obtain ⟨hnext, hle⟩ := le_of_checkedNext hc hperiod hfirst
  refine ⟨?_, le_of_checkedAdd hle hsum⟩
  rw [nthEdge_eq hc, eq_of_checkedAdd hsum, eq_of_checkedMul hdistance, hnext]

theorem code_of_after (hc : c.Valid) (hn : 0 < n) (h : c.after p n = .error f) :
    f.code = .timeOverflow := by
  rw [after_eq_checkedNext hc hn] at h
  simp only [Except.bind_eq_error_iff] at h
  rcases h with h | ⟨first, -, h | ⟨distance, -, h⟩⟩
  · exact code_of_checkedNext h
  · rw [code_of_checkedMul h]
  · rw [code_of_checkedAdd h]

end Clock

/-- What `Clock.after` computes: the edge if it has a 64-bit number, and an overflow otherwise. -/
structure ArrivalEdges (c : Clock) (n : ℕ) : Prop where
  edge : ∀ p t, c.after p n = .ok t ↔ t = c.nthEdge p n ∧ t ≤ maxTick
  overflow : ∀ p, (∃ f, c.after p n = .error f ∧ f.code = .timeOverflow) ↔ maxTick < c.nthEdge p n
  /-- There is no other fault. -/
  fault : ∀ p f, c.after p n = .error f → f.code = .timeOverflow
  monotone : ∀ p q t u, p ≤ q → c.after p n = .ok t → c.after q n = .ok u → t ≤ u

theorem arrivalEdges {c : Clock} {n : ℕ} (hc : c.Valid) (hperiod : c.period ≤ maxTick)
    (hn : 0 < n) : ArrivalEdges c n where
  edge p t := by
    constructor
    · exact Clock.eq_of_after hc hperiod hn
    · rintro ⟨rfl, hle⟩
      exact Clock.after_of_le hc hn hle
  overflow p := by
    constructor
    · rintro ⟨f, hf, -⟩
      by_contra hle
      rw [Clock.after_of_le hc hn (by omega)] at hf
      simp at hf
    · intro hlt
      cases hafter : c.after p n with
      | error f => exact ⟨f, rfl, Clock.code_of_after hc hn hafter⟩
      | ok t =>
        obtain ⟨rfl, hle⟩ := Clock.eq_of_after hc hperiod hn hafter
        omega
  fault p f := Clock.code_of_after hc hn
  monotone p q t u hpq ht hu := by
    rw [(Clock.eq_of_after hc hperiod hn ht).1, (Clock.eq_of_after hc hperiod hn hu).1]
    exact Clock.nthEdge_mono hc n hpq

/-! ## Publications and takes -/

namespace Mailbox
variable {α : Type} {c : Clock} {n now : ℕ} {b₀ b b' : Mailbox α}

/-- Take the oldest message if it is readable. -/
def take (b : Mailbox α) (now : ℕ) : Option (Envelope α) × Mailbox α := (b.peek now, b.taken now)

/-- A message as it was published. -/
structure Message (α : Type) where
  published : ℕ
  epoch : ℕ
  value : α
  deriving DecidableEq, Repr

def Envelope.message (e : Envelope α) : Message α :=
  { published := e.published, epoch := e.epoch, value := e.value }

/-- What publications, takes and resets make of a mailbox, in any order and on any ticks. A
refused publication leaves the mailbox as it was. -/
inductive Reaches (b₀ : Mailbox α) : Mailbox α → Prop
  | start : Reaches b₀ b₀
  | publish {b b' : Mailbox α} {now epoch : ℕ} {value : α} (run : Reaches b₀ b)
      (h : b.publish now epoch value = .ok b') : Reaches b₀ b'
  | take {b b' : Mailbox α} {now : ℕ} {message : Option (Envelope α)} (run : Reaches b₀ b)
      (h : b.take now = (message, b')) : Reaches b₀ b'
  | reset {b : Mailbox α} (run : Reaches b₀ b) : Reaches b₀ b.reset

/-- A run with its history, whose receiver takes on each of its edges until the mailbox yields
nothing more. Publications are on the current tick, so their ticks do not decrease. -/
inductive ReceiverRun (b₀ : Mailbox α) :
    ℕ → List (Message α) → List (ℕ × Message α) → Mailbox α → Prop
  | start (now : ℕ) : ReceiverRun b₀ now [] [] b₀
  | publish {now epoch : ℕ} {published : List (Message α)} {received : List (ℕ × Message α)}
      {b b' : Mailbox α} {value : α} (run : ReceiverRun b₀ now published received b)
      (h : b.publish now epoch value = .ok b') :
      ReceiverRun b₀ now (published ++ [{ published := now, epoch, value }]) received b'
  | take {now : ℕ} {published : List (Message α)} {received : List (ℕ × Message α)}
      {b b' : Mailbox α} {e : Envelope α} (run : ReceiverRun b₀ now published received b)
      (edge : b.receiver.edge now) (h : b.take now = (some e, b')) :
      ReceiverRun b₀ now published (received ++ [(now, e.message)]) b'
  | tick {now : ℕ} {published : List (Message α)} {received : List (ℕ × Message α)}
      {b : Mailbox α} (run : ReceiverRun b₀ now published received b)
      (drained : b.receiver.edge now → (b.take now).1 = none) :
      ReceiverRun b₀ (now + 1) published received b

/-! ## What a mailbox keeps -/

theorem publish_spec {epoch : ℕ} {value : α} (h : b.publish now epoch value = .ok b') :
    ∃ eligible, b.receiver.after now b.latency = .ok eligible ∧
      (∀ last ∈ b.entries.getLast?, last.published ≤ now) ∧
      b' = { b with entries := b.entries ++ [{ published := now, eligible, epoch, value }] } := by
  simp only [publish, Except.bind_eq_ok_iff, require_eq_ok_iff, exists_const,
    Except.pure_eq_ok_iff] at h
  obtain ⟨-, eligible, hafter, hlast, rfl⟩ := h
  exact ⟨eligible, hafter, hlast, rfl⟩

/-- Taking removes the head if it is readable, and nothing otherwise. -/
theorem take_spec {message : Option (Envelope α)} (h : b.take now = (message, b')) :
    (message = none ∧ b' = b ∧ ∀ e ∈ b.entries.head?, now < e.eligible) ∨
      ∃ e rest, message = some e ∧ b.entries = e :: rest ∧ e.eligible ≤ now ∧
        b' = { b with entries := rest } := by
  obtain ⟨rfl, rfl⟩ := Prod.mk.inj h
  cases hpeek : b.peek now with
  | none =>
    left
    refine ⟨rfl, by simp [taken, hpeek], ?_⟩
    intro e he
    simpa using Option.filter_eq_none_iff.1 hpeek e he
  | some e =>
    right
    obtain ⟨rest, hentries, -⟩ := peek_eq_some hpeek
    have hready : e.eligible ≤ now := by
      simpa using (Option.filter_eq_some_iff.1 hpeek).2
    exact ⟨e, rest, rfl, hentries, hready, by simp [taken, hpeek, hentries]⟩

/-- The messages of a mailbox stand in the order of publication, each with its edge. -/
structure Ordered (c : Clock) (n : ℕ) (b : Mailbox α) : Prop where
  receiver : b.receiver = c
  latency : b.latency = n
  eligible : ∀ e ∈ b.entries, e.eligible = c.nthEdge e.published n
  published : b.entries.Pairwise fun e x => e.published ≤ x.published

theorem Ordered.make {capacity : ℕ} (h : make (α := α) capacity c n = .ok b) : Ordered c n b := by
  simp only [Mailbox.make, Except.bind_eq_ok_iff, Except.pure_eq_ok_iff] at h
  obtain ⟨_, -, _, -, _, -, rfl⟩ := h
  exact ⟨rfl, rfl, by simp, List.Pairwise.nil⟩

/-- A publication is not before any that still waits. -/
theorem Ordered.published_le (h : Ordered c n b)
    (hlast : ∀ last ∈ b.entries.getLast?, last.published ≤ now) :
    ∀ e ∈ b.entries, e.published ≤ now := by
  intro e he
  rcases List.eq_nil_or_concat b.entries with hnil | ⟨init, last, hconcat⟩
  · simp [hnil] at he
  · have hle : last.published ≤ now := hlast last (by simp [hconcat])
    have hpublished := h.published
    rw [hconcat, List.concat_eq_append] at he hpublished
    rw [List.pairwise_append] at hpublished
    rcases List.mem_append.1 he with he | he
    · exact (hpublished.2.2 e he last (List.mem_singleton_self _)).trans hle
    · rw [List.mem_singleton.1 he]
      exact hle

theorem Ordered.publish {epoch : ℕ} {value : α} (hedges : ArrivalEdges c n) (h : Ordered c n b)
    (hp : b.publish now epoch value = .ok b') : Ordered c n b' := by
  obtain ⟨eligible, hafter, hlast, rfl⟩ := publish_spec hp
  rw [h.receiver, h.latency] at hafter
  have hedge := ((hedges.edge now eligible).1 hafter).1
  refine ⟨h.receiver, h.latency, ?_, ?_⟩
  · intro e he
    rcases List.mem_append.1 he with he | he
    · exact h.eligible e he
    · rw [List.mem_singleton.1 he]
      exact hedge
  · rw [List.pairwise_append]
    refine ⟨h.published, List.pairwise_singleton .., fun e he x hx => ?_⟩
    rw [List.mem_singleton.1 hx]
    exact h.published_le hlast e he

theorem Ordered.take {message : Option (Envelope α)} (h : Ordered c n b)
    (ht : b.take now = (message, b')) : Ordered c n b' := by
  rcases take_spec ht with ⟨-, rfl, -⟩ | ⟨e, rest, -, hentries, -, rfl⟩
  · exact h
  · have heligible := h.eligible
    have hpublished := h.published
    rw [hentries] at heligible hpublished
    exact ⟨h.receiver, h.latency, fun x hx => heligible x (List.mem_cons_of_mem _ hx),
      (List.pairwise_cons.1 hpublished).2⟩

theorem Ordered.of_reaches (hedges : ArrivalEdges c n) (h : Ordered c n b₀)
    (run : Reaches b₀ b) : Ordered c n b := by
  induction run with
  | start => exact h
  | publish run hp ih => exact ih.publish hedges hp
  | take run ht ih => exact ih.take ht
  | reset run ih => exact ⟨ih.receiver, ih.latency, by simp [reset], by simp [reset]⟩

/-- What is readable, in a mailbox that publications and takes have led to. -/
structure Readable (b : Mailbox α) : Prop where
  /-- The head becomes readable first. -/
  head : ∀ e ∈ b.entries.head?, ∀ x ∈ b.entries, e.eligible ≤ x.eligible
  /-- Nothing is readable on the tick of its publication. -/
  later : ∀ now e, b.peek now = some e → e.published < now

theorem Ordered.readable (hc : c.Valid) (h : Ordered c n b) : Readable b := by
  have hle : ∀ e x, e ∈ b.entries → x ∈ b.entries → e.published ≤ x.published →
      e.eligible ≤ x.eligible := by
    intro e x he hx hpublished
    rw [h.eligible e he, h.eligible x hx]
    exact Clock.nthEdge_mono hc n hpublished
  constructor
  · intro e he x hx
    have hmem := List.mem_of_mem_head? he
    have hpublished := h.published
    cases hentries : b.entries with
    | nil => simp [hentries] at he
    | cons first rest =>
      obtain rfl : first = e := by simpa [hentries] using he
      rw [hentries] at hx hpublished
      rcases List.mem_cons.1 hx with rfl | hx
      · exact le_refl _
      · refine hle _ _ hmem ?_ ((List.pairwise_cons.1 hpublished).1 x hx)
        rw [hentries]
        exact List.mem_cons_of_mem _ hx
  · intro now e he
    obtain ⟨rest, hentries, -⟩ := peek_eq_some he
    have hready : e.eligible ≤ now := by simpa using (Option.filter_eq_some_iff.1 he).2
    rw [h.eligible e (by simp [hentries])] at hready
    exact (Clock.lt_nthEdge hc).1.trans_le hready

/-! ## A receiver that empties the mailbox on its edges -/

/-- The receiver has got every message whose edge has passed, once, in the order of publication
and on that edge. -/
structure Delivered (c : Clock) (n now : ℕ) (published : List (Message α))
    (received : List (ℕ × Message α)) (b : Mailbox α) : Prop where
  order : published = received.map Prod.snd ++ b.entries.map Envelope.message
  punctual : ∀ r ∈ received, r.1 = c.nthEdge r.2.published n
  pending : ∀ e ∈ b.entries, now ≤ c.nthEdge e.published n
  passed : ∀ m ∈ published, c.nthEdge m.published n < now →
    (c.nthEdge m.published n, m) ∈ received

theorem ReceiverRun.ordered {published : List (Message α)} {received : List (ℕ × Message α)}
    (hedges : ArrivalEdges c n) (h : Ordered c n b₀) (run : ReceiverRun b₀ now published received b) :
    Ordered c n b := by
  induction run with
  | start => exact h
  | publish run hp ih => exact ih.publish hedges hp
  | take run edge ht ih => exact ih.take ht
  | tick run drained ih => exact ih

/-- Such a receiver polls a queue of messages that are due on their edges. -/
theorem ReceiverRun.delayed {published : List (Message α)} {received : List (ℕ × Message α)}
    (hc : c.Valid) (hedges : ArrivalEdges c n) (h : Ordered c n b₀) (hempty : b₀.entries = [])
    (run : ReceiverRun b₀ now published received b) :
    Delay.Run (fun m : Message α => c.nthEdge m.published n) c.edge now published received
      (b.entries.map Envelope.message) := by
  induction run with
  | start now =>
    rw [hempty]
    exact .start now
  | @publish now epoch published received b b' value run hp ih =>
    have hordered := run.ordered hedges h
    obtain ⟨eligible, -, hlast, rfl⟩ := publish_spec hp
    obtain ⟨hlater, hedge⟩ := Clock.lt_nthEdge (p := now) (n := n) hc
    rw [List.map_append]
    refine ih.post hlater hedge ?_
    intro m hm
    obtain ⟨e, he, rfl⟩ := List.mem_map.1 hm
    exact Clock.nthEdge_mono hc n (hordered.published_le hlast e he)
  | @take now published received b b' e run edge ht ih =>
    have hordered := run.ordered hedges h
    rcases take_spec ht with ⟨hnone, -, -⟩ | ⟨x, rest, hx, hentries, hready, rfl⟩
    · exact absurd hnone (by simp)
    · obtain rfl := Option.some.inj hx
      rw [hordered.eligible e (by simp [hentries])] at hready
      rw [hentries, List.map_cons] at ih
      exact ih.take hready
  | @tick now published received b run drained ih =>
    have hordered := run.ordered hedges h
    refine ih.tick fun hedge m hm => ?_
    rw [List.head?_map] at hm
    obtain ⟨e, he, rfl⟩ := Option.map_eq_some_iff.1 hm
    have hnone := drained (hordered.receiver ▸ hedge)
    rcases take_spec (rfl : b.take now = _) with ⟨-, -, hhead⟩ | ⟨x, rest, hx, -⟩
    · have hlt := hhead e he
      rwa [hordered.eligible e (List.mem_of_mem_head? he)] at hlt
    · exact absurd (hnone.symm.trans hx) (by simp)

theorem delivered_of_kept {published : List (Message α)} {received : List (ℕ × Message α)}
    (h : Delay.Kept (fun m : Message α => c.nthEdge m.published n) c.edge now published received
      (b.entries.map Envelope.message)) : Delivered c n now published received b where
  order := h.order
  punctual := h.punctual
  pending e he := h.ahead e.message (List.mem_map_of_mem he)
  passed := by
    intro m hm hlt
    rw [h.order] at hm
    rcases List.mem_append.1 hm with hm | hm
    · obtain ⟨r, hr, rfl⟩ := List.mem_map.1 hm
      rw [← h.punctual r hr]
      exact hr
    · have := h.ahead m hm
      omega

end Mailbox

/-- Messages arrive on the `n`-th edge after their publication: `Clock.after` computes that edge
whenever it has a 64-bit number, the head of a mailbox is always the first to be readable, and a
receiver that takes on each of its edges until nothing is left gets every message once, in order
and exactly on its edge. -/
theorem mailbox_arrival {c : Clock} {n : ℕ} (hc : c.Valid) (hperiod : c.period ≤ maxTick)
    (hn : 0 < n) :
    ArrivalEdges c n ∧
      ∀ {α : Type} {capacity : ℕ} {b₀ : Mailbox α}, Mailbox.make capacity c n = .ok b₀ →
        (∀ b, Mailbox.Reaches b₀ b → Mailbox.Ordered c n b ∧ Mailbox.Readable b) ∧
        ∀ now published received b, Mailbox.ReceiverRun b₀ now published received b →
          Mailbox.Delivered c n now published received b := by
  have hedges := arrivalEdges hc hperiod hn
  refine ⟨hedges, fun {α capacity b₀} hmake => ⟨fun b run => ?_, fun now published received b run => ?_⟩⟩
  · have hordered := (Mailbox.Ordered.make hmake).of_reaches hedges run
    exact ⟨hordered, hordered.readable hc⟩
  · have hempty : b₀.entries = [] := by
      simp only [Mailbox.make, Except.bind_eq_ok_iff, Except.pure_eq_ok_iff] at hmake
      obtain ⟨_, -, _, -, _, -, rfl⟩ := hmake
      rfl
    have hrun := run.delayed hc hedges (Mailbox.Ordered.make hmake) hempty
    exact Mailbox.delivered_of_kept (Delay.kept hrun)

/-- An empty mailbox with one slot, which is read two edges after a publication. -/
def twoEdges : Mailbox Bool :=
  { capacity := 1, receiver := { period := 3, phase := 1 }, latency := 2 }

/-- A message that is published before the first edge of a clock arrives on the second. -/
theorem mailbox_arrival_twoEdges : ∃ b : Mailbox Bool, b.entries = [] ∧
    Mailbox.Delivered twoEdges.receiver 2 5 [{ published := 0, epoch := 1, value := true }]
      [(4, { published := 0, epoch := 1, value := true })] b := by
  have hmake : Mailbox.make 1 twoEdges.receiver 2 = .ok twoEdges := rfl
  have hdelivers :=
    ((mailbox_arrival (c := twoEdges.receiver) (n := 2) ⟨by decide, by decide⟩ (by decide)
      (by decide)).2 hmake).2
  have hpublished : Mailbox.ReceiverRun twoEdges 0 [{ published := 0, epoch := 1, value := true }]
      [] _ := (Mailbox.ReceiverRun.start 0).publish rfl
  have hpassed :=
    (((hpublished.tick (by decide)).tick (by decide)).tick (by decide)).tick (by decide)
  have hreceived := (hpassed.take (by decide) rfl).tick (by decide)
  exact ⟨_, rfl, hdelivers _ _ _ _ hreceived⟩

end Qsbit

import Qsbit.Simulator

/-!
# The schedule of the simulator

The kernel of the simulation activates methods tick by tick. On a tick each edge that is due
is activated once and in any order, the wakeup once if the tick is the one that it has been
set to, and the barrier whenever another method has asked for it: any number of times, and at
last when all others have run. A tick on which nothing is due is left out.

## Main definitions

* `Simulator.due` — the methods that the kernel activates on a tick.
* `Simulator.Scheduled`, `Simulator.Next` — the activations of a tick, and the tick after one.
* `SimulatorRun` — the runs of a simulator.
* `Simulator.control` — what only the methods themselves change.
-/
namespace Qsbit

/-- The methods that the kernel knows. -/
inductive Method
  | cpuEdge
  | memoryEdge
  | tcuEdge
  | wakeup
  | barrier
  deriving DecidableEq, Repr

/-- A method that belongs to a clock. -/
def Method.isEdge : Method → Bool
  | .cpuEdge | .memoryEdge | .tcuEdge => true
  | .wakeup | .barrier => false

/-- What a core is known by. -/
def Core.named (c : Core) : ℕ × Profile := (c.id, c.profile)

namespace Simulator

def Activation.method : Activation → Method
  | .cpuEdge _ => .cpuEdge
  | .memoryEdge _ => .memoryEdge
  | .tcuEdge => .tcuEdge
  | .wakeup => .wakeup
  | .barrier _ => .barrier

variable {β : Type}

/-- Whether a method is due on a tick. The barrier is due when another method asks for it. -/
def due (s : Simulator β) (now : ℕ) : Method → Bool
  | .cpuEdge | .memoryEdge => s.cores.any (·.profile.cpu.edge now)
  | .tcuEdge => s.profile.tcu.edge now
  | .wakeup => s.wake = some now
  | .barrier => false

/-- The last tick on which an edge has been seen. -/
def done (s : Simulator β) : Method → Option ℕ
  | .cpuEdge => s.cpuDone
  | .memoryEdge => s.memoryDone
  | .tcuEdge => s.tcuDone
  | .wakeup | .barrier => none

/-- The activations of a tick. Only a barrier that waits for nothing asks whether the processors
are idle, and they do not change any more on the tick. -/
structure Scheduled (s : Simulator β) (now : ℕ) (idle : ℕ → Bool) (acts : List Activation) :
    Prop where
  once : ∀ m, m ≠ .barrier → (acts.map (·.method)).count m = (s.due now m).toNat
  asks : ∀ asked, .barrier asked ∈ acts → asked = idle
  notified : ∀ a ∈ acts.head?, a.method ≠ .barrier
  last : ∃ before, acts = before ++ [.barrier idle]

/-- The tick on which something is due next. -/
structure Next (s : Simulator β) (last : Option ℕ) (now : ℕ) : Prop where
  later : ∀ t ∈ last, t < now
  due : ∃ m, s.due now m = true
  first : ∀ u < now, (∀ t ∈ last, t < u) → ∀ m, s.due u m = false

/-- The activations of a tick, one after the other. -/
def activateAll (backend : QuantumBackend β) (now : ℕ) :
    List Activation → Sim (Simulator β) (List (ℕ × TriggeredEvents))
  | [] => pure []
  | a :: rest => do
      let launched ← activate backend now a
      let later ← activateAll backend now rest
      pure (launched ++ later)

end Simulator

/-- The runs of a simulator from its construction, with their last tick. -/
inductive SimulatorRun {β : Type} (backend : QuantumBackend β) : Option ℕ → Simulator β → Prop
  | start {fingerprint : Profile → String} {configs : List CoreConfig}
      {connections : List SyncConnection} {state : β} {resets : List ℕ} {reverse : Bool}
      {maxBatchOperations : ℕ} {decoding : DecoderSystemConfig} {s s' : Simulator β}
      {l : List TraceEvent}
      (made : Simulator.make backend fingerprint configs connections state resets reverse
        maxBatchOperations decoding = .ok s)
      (started : (Simulator.start fingerprint).Returns s () s' l) : SimulatorRun backend none s'
  | tick {last : Option ℕ} {now : ℕ} {idle : ℕ → Bool} {acts : List Simulator.Activation}
      {s s' : Simulator β} {launched : List (ℕ × TriggeredEvents)} {l : List TraceEvent}
      (run : SimulatorRun backend last s) (running : s.stopped = false) (next : s.Next last now)
      (scheduled : s.Scheduled now idle acts)
      (activated : (Simulator.activateAll backend now acts).Returns s launched s' l) :
      SimulatorRun backend (some now) s'

namespace Simulator
variable {β : Type} {backend : QuantumBackend β} {s s' : Simulator β} {now : ℕ} {u : Unit}
  {l : List TraceEvent}

/-! ## What only the methods change -/

/-- The settings of a simulator, and what it keeps for its methods. -/
structure Control where
  profile : Profile
  cores : List (ℕ × Profile)
  portOffsets : List ℕ
  resets : List ℕ
  reverse : Bool
  cpuDone : Option ℕ
  memoryDone : Option ℕ
  tcuDone : Option ℕ
  stopped : Bool
  wake : Option ℕ

def control (s : Simulator β) : Control :=
  { s with cores := s.cores.map Core.named }

/-- What the work of the parts leaves alone. -/
def outside (s : Simulator β) : Control × ℕ × Option ℕ := (s.control, s.epoch, s.lastReset)

/-- What the work of the memories leaves alone. -/
def beside (s : Simulator β) : (Control × ℕ × Option ℕ) × ControlElectronics β :=
  (s.outside, s.device)

/-- What the work of the cores leaves alone. -/
def around (s : Simulator β) :
    (Control × ℕ × Option ℕ) × ControlElectronics β × DecoderSystem :=
  (s.outside, s.device, s.decoders)

def named (x : Core × SyncNetwork) : ℕ × Profile := x.1.named

theorem keeps_core_cpuEdge {validate : EventSpec → Except Fault Unit}
    {operations : List ControlOperation} {epoch : ℕ} {x : Core × SyncNetwork} :
    (Core.cpuEdge validate operations now epoch).Keeps named x := by
  obtain ⟨c, n⟩ := x
  exact .get_bind <| .onFst <| .zoom fun _ => rfl

theorem keeps_onLinks {α : Type} {x : Sim ControlLinks α} {y : Core × SyncNetwork} :
    (Core.onLinks x).Keeps named y :=
  .onFst <| .zoom fun _ => rfl

theorem keeps_core_tcuEdge {preflight : TriggeredEvents → Except Fault Unit} {epoch : ℕ}
    {x : Core × SyncNetwork} : (Core.tcuEdge preflight now epoch).Keeps named x := by
  refine .bind (.zoom fun _ => rfl) fun _ x₁ => .get_bind ?_
  refine .bind keeps_onLinks fun _ x₂ => .bind (.zoom fun _ => rfl) fun _ x₃ => .bind ?_
    fun _ x₄ => .bind (.zoom fun _ => rfl) fun _ x₅ => .bind keeps_onLinks fun _ x₆ =>
      .bind (.onFst <| .zoom fun _ => rfl) fun _ x₇ => .pure _
  split
  · exact keeps_onLinks
  · exact .pure ()

theorem keeps_core_reset {x : Core × SyncNetwork} : (Proc.onFst (Core.reset now)).Keeps named x :=
  .onFst <| .modify_bind rfl <| .bind (.zoom fun _ => rfl) fun _ _ =>
    .modify rfl

theorem map_named_set {cores : List Core} {i : ℕ} {c c' : Core} (hi : cores[i]? = some c)
    (hnamed : c'.named = c.named) : (cores.set i c').map Core.named = cores.map Core.named := by
  rw [List.map_set, hnamed]
  refine List.ext_getElem? fun j => ?_
  rw [List.getElem?_set]
  split
  · rename_i hij
    subst hij
    rw [List.getElem?_map, hi, List.length_map, if_pos (List.getElem?_eq_some_iff.1 hi).1]
    rfl
  · rfl

theorem keeps_onCore {α : Type} {i : ℕ} {x : Core → Sim (Core × SyncNetwork) α}
    (hx : ∀ c n, (x c).Keeps named (c, n)) : (onCore i x).Keeps around s := by
  refine .get_bind ?_
  split
  · exact .check _
  · rename_i core hi
    refine .translate ?_
    have hkept := hx core s.network
    simp only [Proc.Keeps, Proc.zoom, around, outside, control, named] at hkept ⊢
    rw [map_named_set hi hkept]

theorem keeps_forEach_reset {is : List ℕ} :
    (Proc.forEach (fun i => onCore (β := β) i fun _ => Proc.onFst (Core.reset now)) is).Keeps
      around s :=
  .forEach fun _ _ _ => keeps_onCore fun _ _ => keeps_core_reset

theorem keeps_tcuEdges {is : List ℕ} : (tcuEdges backend now is).Keeps outside s := by
  induction is generalizing s with
  | nil => exact .pure _
  | cons i rest ih =>
    refine .get_bind <| .bind ((keeps_onCore fun _ _ => keeps_core_tcuEdge).map Prod.fst)
      fun out s₁ => .bind ?_ fun _ s₂ => .bind ih fun _ s₃ => .pure _
    cases out.launch with
    | none => exact .pure ()
    | some batch => exact .lift_bind fun _ => .zoom fun _ => rfl

theorem keeps_core_deliver {result : Completion} {epoch : ℕ} {c : Core} :
    (Core.deliver result now epoch).Keeps Core.named c := by
  refine .get_bind <| .lift_bind fun _ => .set_bind rfl ?_
  split
  · exact .get_bind <| .lift_bind fun _ => rfl
  · exact .pure ()

theorem keeps_deliver {result : Completion} {epoch : ℕ} {cores : List Core} :
    (deliver now epoch result).Keeps (List.map Core.named) cores := by
  refine .get_bind <| .lift_bind fun ⟨i, result'⟩ => ?_
  dsimp only
  split
  · exact .check _
  · rename_i core hi
    have hkept : (Core.deliver result' now epoch).Keeps Core.named core := keeps_core_deliver
    simp only [Proc.Keeps, Proc.zoom] at hkept ⊢
    rw [map_named_set hi hkept]

theorem keeps_deliverAll {χ γ : Type} {view : χ → γ} {epoch : ℕ}
    {deliver : Completion → Sim χ Unit} (hdeliver : ∀ c x, (deliver c).Keeps view x) {ids : List ℕ}
    {x : ControlElectronics β × χ} :
    (ControlElectronics.deliverAll now epoch deliver ids).Keeps (fun x => view x.2) x := by
  induction ids generalizing x with
  | nil => exact .pure ()
  | cons id rest ih =>
    refine .get_bind <| .lift_bind fun _ => .lift_bind fun result => .bind (hdeliver result x.2)
      fun _ x₁ => .emit_bind <| .bind (.zoom fun _ => rfl) fun _ x₂ => ih

/-- What a boundary does outside of the device is its deliveries. -/
theorem keeps_process {χ γ : Type} {view : χ → γ} {epoch : ℕ} {deliver : Completion → Sim χ Unit}
    (hdeliver : ∀ c x, (deliver c).Keeps view x) {x : ControlElectronics β × χ} :
    (ControlElectronics.process backend now epoch deliver).Keeps (fun x => view x.2) x := by
  refine .get_bind <| .lift_bind fun _ => ?_
  split
  · exact .pure ()
  · exact .lift_bind fun _ => .bind (.zoom fun _ => rfl) fun _ x₁ =>
      .bind (keeps_deliverAll hdeliver) fun _ x₂ => .zoom fun _ => rfl

theorem keeps_processDevice {epoch : ℕ} : (processDevice backend now epoch).Keeps outside s := by
  have hkept : (ControlElectronics.process backend now epoch (deliver now epoch)).Keeps
      (fun x => x.2.map Core.named) (s.device, s.cores) := keeps_process fun _ _ => keeps_deliver
  simp only [Proc.Keeps, processDevice, Proc.zoom, outside, control] at hkept ⊢
  rw [hkept]

/-! ## Resets -/

/-- What asking for the reset of a tick does: nothing, or the reset. -/
inductive ResetAt (backend : QuantumBackend β) (now : ℕ) (s : Simulator β) :
    Bool → Simulator β → List TraceEvent → Prop
  | none (h : now ∉ s.resets) : ResetAt backend now s false s []
  | applied (h : now ∈ s.resets) (last : s.lastReset = some now) : ResetAt backend now s true s []
  | applies {s₁ : Simulator β} {device : ControlElectronics β} {l₁ l₂ : List TraceEvent}
      (h : now ∈ s.resets) (last : s.lastReset ≠ some now)
      (cores : (Proc.forEach (fun i => onCore i fun _ => Proc.onFst (Core.reset now))
        (List.range s.cores.length)).Returns
          { s with
            epoch := s.epoch + 1, network := s.network.reset, decoders := s.decoders.reset } ()
          s₁ l₁)
      (reset : (ControlElectronics.reset backend now (s.epoch + 1)).Returns s₁.device () device l₂) :
      ResetAt backend now s true { s₁ with device, lastReset := some now }
        (l₁ ++ (l₂ ++ [{ tick := now, epoch := s.epoch + 1, kind := .sessionReset }]))

theorem resetAt_returns {reset : Bool} (h : (resetAt backend now).Returns s reset s' l) :
    ResetAt backend now s reset s' l := by
  simp only [resetAt, Proc.returns_get_bind_iff] at h
  split at h
  · rename_i hnone
    obtain ⟨rfl, rfl, rfl⟩ := Proc.returns_pure_iff.1 h
    exact .none hnone
  · rename_i hmem
    rw [not_not] at hmem
    obtain ⟨_, s₂, l₂, l₃, hbody, hpure, rfl⟩ := Proc.returns_bind_iff.1 h
    obtain ⟨rfl, rfl, rfl⟩ := Proc.returns_pure_iff.1 hpure
    rw [List.append_nil]
    split at hbody
    · rename_i hnew
      simp only [Proc.returns_lift_bind_iff, Proc.returns_modify_bind_iff] at hbody
      obtain ⟨epoch, hepoch, hbody⟩ := hbody
      obtain ⟨_, s₁, l₄, l₅, hcores, hrest, rfl⟩ := Proc.returns_bind_iff.1 hbody
      obtain ⟨_, s₃, l₆, l₇, hdevice, hlast, rfl⟩ := Proc.returns_bind_iff.1 hrest
      obtain ⟨device, hreset, rfl⟩ := Proc.returns_zoom_iff.1 hdevice
      rw [Proc.returns_modify_bind_iff] at hlast
      obtain ⟨rfl, rfl⟩ := Proc.returns_emit_iff.1 hlast
      obtain rfl := eq_of_checkedAdd hepoch
      exact @ResetAt.applies β backend now s s₁ device l₄ l₆ hmem hnew hcores hreset
    · rename_i hlast
      rw [not_not] at hlast
      obtain ⟨-, rfl, rfl⟩ := Proc.returns_pure_iff.1 hbody
      exact .applied hmem hlast

theorem resetAt_applied (hmem : now ∈ s.resets) (hlast : s.lastReset = some now) :
    (resetAt backend now).Returns s true s [] := by
  rw [resetAt, Proc.returns_get_bind_iff, if_neg (not_not.2 hmem), if_neg (not_not.2 hlast)]
  exact Proc.returns_bind_iff.2 ⟨(), s, [], [], Proc.returns_pure_iff.2 ⟨rfl, rfl, rfl⟩,
    Proc.returns_pure_iff.2 ⟨rfl, rfl, rfl⟩, rfl⟩

theorem resetAt_none (hnone : now ∉ s.resets) : (resetAt backend now).Returns s false s [] := by
  rw [resetAt, Proc.returns_get_bind_iff, if_pos hnone]
  exact Proc.returns_pure_iff.2 ⟨rfl, rfl, rfl⟩

namespace ResetAt
variable {reset : Bool}

theorem control (h : ResetAt backend now s reset s' l) : s'.control = s.control := by
  cases h with
  | none h => rfl
  | applied h last => rfl
  | applies h last cores reset =>
    exact congrArg Prod.fst ((keeps_forEach_reset.map Prod.fst).returns cores)

theorem mem_iff (h : ResetAt backend now s reset s' l) : now ∈ s.resets ↔ reset = true := by
  cases h with
  | none h => simpa using h
  | applied h last | applies h last cores reset => simpa using h

/-- After it has been asked for, the reset of the tick is applied. -/
theorem lastReset (h : ResetAt backend now s reset s' l) (hmem : now ∈ s.resets) :
    s'.lastReset = some now := by
  cases h with
  | none h => exact absurd hmem h
  | applied h last => exact last
  | applies h last cores reset => rfl

end ResetAt

/-! ## The start of a run -/

/-- When the simulator wakes up next. -/
def nextWake (s : Simulator β) (now : ℕ) : ℕ :=
  ((s.decoders.nextBoundary now).toList ++ s.device.nextBoundary.toList ++
    (s.resets.find? (now < ·)).toList).foldl min s.profile.watchdog

theorem scheduleWakeup_returns_iff : (scheduleWakeup now).Returns s u s' l ↔
    now < s.nextWake now ∧ s' = { s with wake := some (s.nextWake now) } ∧ l = [] := by
  simp only [scheduleWakeup, nextWake, Proc.returns_get_bind_iff, Proc.returns_lift_bind_iff,
    require_eq_ok_iff, exists_const, Proc.returns_modify_iff]
  grind

/-- A simulator as its constructor leaves it. -/
structure Started (backend : QuantumBackend β) (s : Simulator β) : Prop where
  cores : ∃ fingerprint configs connections,
    validated configs connections = .ok s.profile ∧ makeCores fingerprint configs = .ok s.cores ∧
      SyncNetwork.make s.profile.tcu connections = .ok s.network ∧
        s.portOffsets = Qsbit.portOffsets configs
  decoders : ∃ config, DecoderSystem.make config = .ok s.decoders
  device : ∃ profile state limit, ControlElectronics.make backend profile state limit = .ok s.device
  sorted : s.resets.Pairwise (· < ·)
  inside : ∀ tick ∈ s.resets, 0 < tick ∧ tick < s.profile.watchdog
  done : ∀ m, s.done m = none
  lastReset : s.lastReset = none
  epoch : s.epoch = 1
  stopped : s.stopped = false
  wake : s.wake = some (s.nextWake 0)
  later : 0 < s.nextWake 0

theorem started_of_make {fingerprint : Profile → String} {configs : List CoreConfig}
    {connections : List SyncConnection} {state : β} {resets : List ℕ} {reverse : Bool}
    {maxBatchOperations : ℕ} {decoding : DecoderSystemConfig}
    (made : Simulator.make backend fingerprint configs connections state resets reverse
      maxBatchOperations decoding = .ok s)
    (started : (Simulator.start fingerprint).Returns s u s' l) : Started backend s' := by
  simp only [Simulator.make, Except.bind_eq_ok_iff, Except.pure_eq_ok_iff, require_eq_ok_iff,
    exists_const] at made
  obtain ⟨profile, hprofile, decoders, hdecoders, network, hnetwork, _, -, device, hdevice, hsorted,
    hinside, cores, hcores, rfl⟩ := made
  simp only [Simulator.start, Proc.returns_get_bind_iff, Proc.returns_emit_bind_iff] at started
  obtain ⟨l', hwake, -⟩ := started
  obtain ⟨hlater, rfl, -⟩ := scheduleWakeup_returns_iff.1 hwake
  exact
    { cores := ⟨fingerprint, configs, connections, hprofile, hcores, hnetwork, rfl⟩
      decoders := ⟨decoding, hdecoders⟩
      device := ⟨_, state, maxBatchOperations, hdevice⟩
      sorted := hsorted
      inside := hinside
      done := fun m => by cases m <;> rfl
      lastReset := rfl
      epoch := rfl
      stopped := rfl
      wake := rfl
      later := hlater }

end Simulator
end Qsbit

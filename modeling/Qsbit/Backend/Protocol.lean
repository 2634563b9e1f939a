import Qsbit.Backend

/-!
# The checks of a batch

The Python backends check every batch that they are given before they execute it.
The check is written independently of the simulator: it knows nothing of the
device and looks at the operations of one batch only. Its errors reach the
simulator as backend failures.

## Main definitions

* `validateBatch` — the check of a batch.
* `Tiles` — operations that follow each other in time without a gap.
-/
namespace Qsbit

/-- The actions are of these kinds and the backend supports them. -/
def checkKinds (kinds : List ActionKind) (message : String)
    (validate : EventSpec → Except Fault Unit) : List EventSpec → Except Fault Unit
  | [] => pure ()
  | action :: rest => do
      require (action.kind ∈ kinds) .backendFailure message
      validate action
      checkKinds kinds message validate rest

def checkDrives (validate : EventSpec → Except Fault Unit) (drives : List BackendActivity) :
    Except Fault Unit :=
  checkKinds [.pulse] "evolution requires pulse drives" validate (drives.map (·.action))

def checkAcquisitions (validate : EventSpec → Except Fault Unit)
    (acquisitions : List BackendActivity) : Except Fault Unit :=
  checkKinds [.acquire] "acquisition interval requires acquire event" validate
    (acquisitions.map (·.action))

/-- A gate output has the descriptor of a gate as well. -/
def checkGates (validate : EventSpec → Except Fault Unit) (gates : List EventSpec) :
    Except Fault Unit :=
  checkKinds [.idealGate, .gateOutput] "gate application requires ideal gates" validate gates

def checkActivities (start tick : ℕ) : List BackendActivity → Except Fault Unit
  | [] => pure ()
  | activity :: rest => do
      require (activity.start ≤ start ∧ start < tick ∧ tick ≤ activity.end) .backendFailure
        "evolution lies outside activity interval"
      checkActivities start tick rest

/-- `validate_batch`, from some operation on; `previous` is the end of the one before. -/
def validateBatch (validate : EventSpec → Except Fault Unit) (epoch qubits : ℕ)
    (previous : Option ℕ) : List BackendOperation → Except Fault Unit
  | [] => pure ()
  | operation :: rest => do
      require (∀ p ∈ previous, p ≤ operation.tick) .backendFailure "decreasing operation time"
      (match operation with
      | .evolution start tick drives acquisitions => do
          require (start ≤ tick ∧ ∀ p ∈ previous, start = p) .backendFailure
            "invalid evolution interval"
          checkDrives validate drives
          checkActivities start tick (drives ++ acquisitions)
          checkAcquisitions validate acquisitions
      | .gates _ gates => checkGates validate gates
      | .measurement _ references => do
          require (rest = []) .backendFailure "measurement must end the execution batch"
          require ((references.map (·.target)).Nodup) .backendFailure
            "ambiguous repeated target in a measurement batch"
          require (∀ r ∈ references, r.target < qubits) .backendFailure
            "measurement target outside configured register"
          require (∀ r ∈ references, r.epoch = epoch) .backendFailure
            "measurement epoch differs from execution batch")
      validateBatch validate epoch qubits (some operation.tick) rest

/-! ## What passes the check -/

/-- The operations follow each other from one tick to another: the evolutions cover the time
without a gap, gates and measurements take none. -/
def Tiles : ℕ → List BackendOperation → ℕ → Prop
  | a, [], b => a = b
  | a, operation :: rest, b => operation.start = a ∧ a ≤ operation.tick ∧ Tiles operation.tick rest b

theorem tiles_append {a c : ℕ} {xs ys : List BackendOperation} :
    Tiles a (xs ++ ys) c ↔ ∃ b, Tiles a xs b ∧ Tiles b ys c := by
  induction xs generalizing a with
  | nil => simp [Tiles]
  | cons operation rest ih =>
    simp only [List.cons_append, Tiles, ih]
    constructor
    · rintro ⟨hstart, hle, b, hrest, hys⟩
      exact ⟨b, ⟨hstart, hle, hrest⟩, hys⟩
    · rintro ⟨b, ⟨hstart, hle, hrest⟩, hys⟩
      exact ⟨hstart, hle, b, hrest, hys⟩

/-- An operation that is well formed by itself. -/
def BackendOperation.Proper (validate : EventSpec → Except Fault Unit) (epoch qubits : ℕ) :
    BackendOperation → Prop
  | .evolution start tick drives acquisitions =>
      (∀ x ∈ drives, x.action.kind = .pulse) ∧ (∀ x ∈ acquisitions, x.action.kind = .acquire) ∧
        ∀ x ∈ drives ++ acquisitions, validate x.action = .ok () ∧
          x.start ≤ start ∧ start < tick ∧ tick ≤ x.end
  | .gates _ applied => ∀ gate ∈ applied,
      gate.kind ∈ [.idealGate, .gateOutput] ∧ validate gate = .ok ()
  | .measurement _ references => (references.map (·.target)).Nodup ∧
      ∀ r ∈ references, r.target < qubits ∧ r.epoch = epoch

section Check
variable {validate : EventSpec → Except Fault Unit} {epoch qubits : ℕ}

theorem checkKinds_eq_ok_iff {kinds : List ActionKind} {message : String}
    {actions : List EventSpec} {u : Unit} :
    checkKinds kinds message validate actions = .ok u ↔
      ∀ x ∈ actions, x.kind ∈ kinds ∧ validate x = .ok () := by
  induction actions with
  | nil => simp [checkKinds]
  | cons x rest ih =>
    simp only [checkKinds, Except.bind_eq_ok_iff, require_eq_ok_iff, exists_const, ih,
      List.forall_mem_cons, and_assoc]
    apply and_congr_right
    intro _
    constructor
    · rintro ⟨_, hx, hrest⟩
      exact ⟨hx, hrest⟩
    · rintro ⟨hx, hrest⟩
      exact ⟨(), hx, hrest⟩

theorem checkActivities_eq_ok_iff {start tick : ℕ} {activities : List BackendActivity} {u : Unit} :
    checkActivities start tick activities = .ok u ↔
      ∀ x ∈ activities, x.start ≤ start ∧ start < tick ∧ tick ≤ x.end := by
  induction activities with
  | nil => simp [checkActivities]
  | cons x rest ih =>
    simp only [checkActivities, Except.bind_eq_ok_iff, require_eq_ok_iff, exists_const, ih,
      List.forall_mem_cons]

/-- Proper operations without a gap pass, when only the last may be a measurement. -/
theorem validateBatch_of_tiles {a b : ℕ} {previous : Option ℕ} {batch : List BackendOperation}
    (htiles : Tiles a batch b) (hprevious : ∀ p ∈ previous, p = a)
    (hproper : ∀ operation ∈ batch, operation.Proper validate epoch qubits)
    (hlast : ∀ operation ∈ batch.dropLast, operation.isMeasurement = false) :
    validateBatch validate epoch qubits previous batch = .ok () := by
  induction batch generalizing a previous with
  | nil => rfl
  | cons operation rest ih =>
    obtain ⟨rfl, hle, hrest⟩ := htiles
    have hop := hproper operation List.mem_cons_self
    have htick : ∀ p ∈ previous, p ≤ operation.tick := fun p hp => (hprevious p hp).le.trans hle
    have hnext : validateBatch validate epoch qubits (some operation.tick) rest = .ok () := by
      refine ih hrest (fun p hp => (Option.some.inj hp).symm)
        (fun o ho => hproper o (List.mem_cons_of_mem _ ho)) fun o ho => ?_
      cases rest with
      | nil => simp at ho
      | cons o' rest => exact hlast o (List.mem_cons_of_mem _ ho)
    simp only [validateBatch, Except.bind_eq_ok_iff, require_eq_ok_iff, exists_const]
    refine ⟨htick, (), ?_, hnext⟩
    cases operation with
    | evolution start tick drives acquisitions =>
      obtain ⟨hdrives, hacquisitions, hall⟩ := hop
      simp only [Except.bind_eq_ok_iff, require_eq_ok_iff, exists_const, checkDrives,
        checkAcquisitions, checkKinds_eq_ok_iff, checkActivities_eq_ok_iff, List.forall_mem_map,
        List.mem_singleton]
      exact ⟨⟨hle, fun p hp => (hprevious p hp).symm⟩,
        fun x hx => ⟨hdrives x hx, (hall x (List.mem_append_left _ hx)).1⟩,
        fun x hx => (hall x hx).2,
        fun x hx => ⟨hacquisitions x hx, (hall x (List.mem_append_right _ hx)).1⟩⟩
    | gates tick applied => exact checkKinds_eq_ok_iff.2 hop
    | measurement tick references =>
      obtain ⟨hnodup, hall⟩ := hop
      have hend : rest = [] := by
        cases rest with
        | nil => rfl
        | cons o' rest => exact absurd (hlast _ List.mem_cons_self) (by simp [BackendOperation.isMeasurement])
      simp only [Except.bind_eq_ok_iff, require_eq_ok_iff, exists_const]
      exact ⟨hend, hnodup, fun r hr => (hall r hr).1, fun r hr => (hall r hr).2⟩

end Check
end Qsbit

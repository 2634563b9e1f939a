import Qsbit.TraceModel.Edges
import Qsbit.Simulator
import Mathlib.Data.List.Nodup

/-!
# The player and the simulator

The records of all parts of the simulator go to one trace, where those of a core are told
apart by its identity. What a procedure of the simulator appends keeps the player in step with
every core, if it returns.

## Main definitions

* `Simulator.shownAs` — the core that the player knows a core as.
* `Played` — the player is in step with every core of a simulator.
* `Plays` — a procedure keeps it so.
-/
namespace Qsbit

namespace Simulator
variable {β : Type}

/-- The player's name for a core. -/
def shownAs (s : Simulator β) (c : Core) : ℕ :=
  (if 1 < s.cores.length then some c.id else none).getD 0

end Simulator

namespace TraceModel
open Simulator

variable {β : Type}

/-- The player is in step with every core. -/
structure Played (s : Simulator β) (trace : List Record) : Prop where
  session : EndsIn s.epoch trace
  ids : s.ids.Nodup
  follows : ∀ c ∈ s.cores,
    Follows s.epoch ((sessionRecords (s.shownAs c) trace).filter (·.kind.moves)) c

section Played
variable {s s' : Simulator β} {trace : List Record} {l l' moved : List TraceEvent} {i : ℕ}
  {c c' : Core} {network : SyncNetwork}

theorem shownAs_of_length (h : s'.cores.length = s.cores.length) (hid : c'.id = c.id) :
    s'.shownAs c' = s.shownAs c := by simp [shownAs, h, hid]

theorem map_id_set {cores : List Core} (hi : cores[i]? = some c) (hid : c'.id = c.id) :
    (cores.set i c').map (·.id) = cores.map (·.id) := by
  obtain ⟨hlt, rfl⟩ := List.getElem?_eq_some_iff.1 hi
  rw [List.map_set, hid]
  exact List.ext_getElem (by simp) fun j _ _ => by
    rw [List.getElem_set]
    split <;> simp [*]

theorem ids_set (hi : s.cores[i]? = some c) (hid : c'.id = c.id) :
    Simulator.ids { s with cores := s.cores.set i c', network } = s.ids := map_id_set hi hid

/-- Cores that are told apart have different names. -/
theorem shownAs_ne {j : ℕ} (hids : s.ids.Nodup) (hi : s.cores[i]? = some c)
    (hj : s.cores[j]? = some c') (hne : j ≠ i) : s.shownAs c' ≠ s.shownAs c := by
  obtain ⟨hilt, rfl⟩ := List.getElem?_eq_some_iff.1 hi
  obtain ⟨hjlt, rfl⟩ := List.getElem?_eq_some_iff.1 hj
  have hlength : 1 < s.cores.length := by omega
  intro heq
  have hid : s.cores[j].id = s.cores[i].id := by simpa [shownAs, hlength] using heq
  have hj' : j < s.ids.length := by simpa [Simulator.ids] using hjlt
  have hi' : i < s.ids.length := by simpa [Simulator.ids] using hilt
  have hget : s.ids[j] = s.ids[i] := by simpa [Simulator.ids] using hid
  exact hne ((List.Nodup.getElem_inj_iff hids).1 hget)

theorem coreRecords_map (id : ℕ) (l : List TraceEvent) :
    coreRecords id (l.map .event) = l.filter (·.core.getD 0 = id) := by
  simp [coreRecords, Record.event?, List.filterMap_map, Function.comp_def]

/-- The records of a core are shown as the core's. -/
theorem coreRecords_tag (id : ℕ) : coreRecords id ((l.map (s.tag c)).map .event) =
    if s.shownAs c = id then l.map (s.tag c) else [] := by
  rw [coreRecords_map]
  split
  · rename_i h
    refine List.filter_eq_self.2 fun e he => ?_
    obtain ⟨e', -, rfl⟩ := List.mem_map.1 he
    exact decide_eq_true h
  · rename_i h
    refine List.filter_eq_nil_iff.2 fun e he => ?_
    obtain ⟨e', -, rfl⟩ := List.mem_map.1 he
    exact fun hd => h (of_decide_eq_true hd)

theorem within_of_events (h : ∀ e ∈ l, Within s.epoch (.event e)) :
    ∀ r ∈ l.map Record.event, Within s.epoch r := List.forall_mem_map.2 h

/-- What the player is in step with does not depend on the rest of the simulator. -/
theorem Played.of_same (h : Played s trace) (hcores : s'.cores = s.cores)
    (hepoch : s'.epoch = s.epoch) : Played s' trace := by
  have hshown : ∀ c, s'.shownAs c = s.shownAs c := fun c => by simp [shownAs, hcores]
  refine ⟨hepoch ▸ h.session, by simpa [Simulator.ids, hcores] using h.ids, fun c hc => ?_⟩
  rw [hshown, hepoch]
  exact h.follows c (hcores ▸ hc)

/-- Records that move nothing. -/
theorem Played.plain (h : Played s trace) (hl : ∀ e ∈ l, Plain s.epoch e) :
    Played s (trace ++ l.map .event) := by
  obtain ⟨hsession, hrecords⟩ := h.session.append (within_of_events fun e he => (hl e he).1)
  refine ⟨hsession, h.ids, fun c hc => ?_⟩
  have hnone : (coreRecords (s.shownAs c) (l.map .event)).filter (·.kind.moves) = [] := by
    rw [coreRecords_map, List.filter_eq_nil_iff]
    intro e he
    simp [(hl e (List.mem_of_mem_filter he)).2]
  rw [hrecords, List.filter_append, hnone, List.append_nil]
  exact h.follows c hc

/-- What the records of one core add to the session. -/
theorem Played.records (h : Played s trace) (hrecorded : Recorded s.epoch moved l) :
    EndsIn s.epoch (trace ++ (l.map (s.tag c)).map .event) ∧
      ∀ id, (sessionRecords id (trace ++ (l.map (s.tag c)).map .event)).filter (·.kind.moves) =
        (sessionRecords id trace).filter (·.kind.moves) ++
          if s.shownAs c = id then moved.map (s.tag c) else [] := by
  have hwithin : ∀ e ∈ l.map (s.tag c), Within s.epoch (.event e) :=
    List.forall_mem_map.2 hrecorded.within
  obtain ⟨hsession, hrecords⟩ := h.session.append (within_of_events hwithin)
  have hmoves : (l.map (s.tag c)).filter (·.kind.moves) = moved.map (s.tag c) := by
    rw [List.filter_map, ← hrecorded.moved]
    rfl
  refine ⟨hsession, fun id => ?_⟩
  rw [hrecords, coreRecords_tag, List.filter_append]
  split
  · rw [hmoves]
  · rfl

/-- The records of one core, and what it has become. -/
theorem Played.core (h : Played s trace) (hi : s.cores[i]? = some c) (hid : c'.id = c.id)
    (hrecorded : Recorded s.epoch moved l)
    (hfollows : Follows s.epoch
      ((sessionRecords (s.shownAs c) trace).filter (·.kind.moves) ++ moved.map (s.tag c)) c') :
    Played { s with cores := s.cores.set i c', network } (trace ++ (l.map (s.tag c)).map .event) := by
  obtain ⟨hsession, hrecords⟩ := h.records hrecorded
  refine ⟨hsession, by rw [ids_set hi hid]; exact h.ids, fun c₀ hc₀ => ?_⟩
  have hshown : ∀ {c₁ c₂ : Core}, c₁.id = c₂.id →
      ({ s with cores := s.cores.set i c', network } : Simulator β).shownAs c₁ = s.shownAs c₂ :=
    shownAs_of_length (List.length_set ..)
  obtain ⟨j, hj⟩ := List.mem_iff_getElem?.1 hc₀
  rw [hrecords]
  by_cases hij : j = i
  · subst hij
    rw [List.getElem?_set_self (List.getElem?_eq_some_iff.1 hi).1] at hj
    obtain rfl := Option.some.inj hj
    rw [hshown hid, if_pos rfl]
    exact hfollows
  · rw [List.getElem?_set_ne (Ne.symm hij)] at hj
    rw [hshown rfl, if_neg (shownAs_ne h.ids hi hj hij).symm, List.append_nil]
    exact h.follows c₀ (List.mem_of_getElem? hj)

/-! ## Procedures -/

/-- If the procedure returns, the player is still in step. -/
def Plays {α : Type} (x : Sim (Simulator β) α) (s : Simulator β) : Prop :=
  ∀ trace a s' l, Played s trace → x.Returns s a s' l → Played s' (trace ++ l.map .event)

namespace Plays
variable {α γ : Type}

theorem of_same {x : Sim (Simulator β) α}
    (h : ∀ a s' l, x.Returns s a s' l → s'.cores = s.cores ∧ s'.epoch = s.epoch ∧
      ∀ e ∈ l, Plain s.epoch e) : Plays x s := by
  intro trace a s' l hplayed hx
  obtain ⟨hcores, hepoch, hl⟩ := h a s' l hx
  exact (hplayed.plain hl).of_same hcores hepoch

theorem pure (a : α) : Plays (Pure.pure a : Sim (Simulator β) α) s := by
  refine of_same fun a' s' l h => ?_
  obtain ⟨-, rfl, rfl⟩ := Proc.returns_pure_iff.1 h
  exact ⟨rfl, rfl, by simp⟩

theorem modify {f : Simulator β → Simulator β} (hcores : (f s).cores = s.cores)
    (hepoch : (f s).epoch = s.epoch) : Plays (Proc.modify f) s := by
  refine of_same fun a s' l h => ?_
  obtain ⟨rfl, rfl⟩ := Proc.returns_modify_iff.1 h
  exact ⟨hcores, hepoch, by simp⟩

theorem emit {e : TraceEvent} (he : Plain s.epoch e) : Plays (Proc.emit e) s := by
  refine of_same fun a s' l h => ?_
  obtain ⟨rfl, rfl⟩ := Proc.returns_emit_iff.1 h
  exact ⟨rfl, rfl, by simpa using he⟩

theorem bind {x : Sim (Simulator β) α} {f : α → Sim (Simulator β) γ} (hx : Plays x s)
    (hf : ∀ a s₁ l, x.Returns s a s₁ l → Plays (f a) s₁) : Plays (x >>= f) s := by
  intro trace b s' l hplayed h
  obtain ⟨a, s₁, l₁, l₂, h₁, h₂, rfl⟩ := Proc.returns_bind_iff.1 h
  have hlast := hf a s₁ l₁ h₁ _ b s' l₂ (hx trace a s₁ l₁ hplayed h₁) h₂
  rwa [List.append_assoc, ← List.map_append] at hlast

theorem get_bind {k : Simulator β → Sim (Simulator β) γ} (hk : Plays (k s) s) :
    Plays (Proc.get >>= k) s := by
  intro trace b s' l hplayed h
  exact hk trace b s' l hplayed (Proc.returns_get_bind_iff.1 h)

theorem lift_bind {x : Except Fault α} {f : α → Sim (Simulator β) γ}
    (hf : ∀ a, x = .ok a → Plays (f a) s) :
    Plays ((liftM x : Sim (Simulator β) α) >>= f) s := by
  intro trace b s' l hplayed h
  obtain ⟨a, ha, h⟩ := Proc.returns_lift_bind_iff.1 h
  exact hf a ha trace b s' l hplayed h

theorem forEach {ι : Type} {Q : Simulator β → Prop} {f : ι → Sim (Simulator β) Unit} {is : List ι}
    (hplays : ∀ i ∈ is, ∀ s, Q s → Plays (f i) s)
    (hstep : ∀ i ∈ is, ∀ s s' l, Q s → (f i).Returns s () s' l → Q s') (hs : Q s) :
    Plays (Proc.forEach f is) s := by
  induction is generalizing s with
  | nil => exact pure _
  | cons i rest ih =>
    obtain ⟨hi, hrest⟩ := List.forall_mem_cons.1 hplays
    obtain ⟨hi', hrest'⟩ := List.forall_mem_cons.1 hstep
    exact bind (hi s hs) fun _ s₁ l h => ih hrest hrest' (hi' s s₁ l hs h)

theorem onDecoders {x : Sim DecoderSystem α} (hx : x.Logs (Plain s.epoch) s.decoders) :
    Plays (Simulator.onDecoders x) s := by
  refine of_same fun a s' l h => ?_
  obtain ⟨decoders, hdecoders, rfl⟩ := Proc.returns_zoom_iff.1 h
  exact ⟨rfl, rfl, hx.returns hdecoders⟩

theorem onDevice {x : Sim (ControlElectronics β) α} (hx : x.Logs (Plain s.epoch) s.device) :
    Plays (Simulator.onDevice x) s := by
  refine of_same fun a s' l h => ?_
  obtain ⟨device, hdevice, rfl⟩ := Proc.returns_zoom_iff.1 h
  exact ⟨rfl, rfl, hx.returns hdevice⟩

end Plays

/-- A procedure of a core keeps the player in step with the core. -/
theorem Plays.onCore {α : Type} {x : Core → Sim (Core × SyncNetwork) α}
    (hx : ∀ c ∈ s.cores[i]?, ∀ rs core a c' n' l, Follows s.epoch rs c →
      (x c).Returns (c, s.network) a (c', n') l → c'.id = c.id ∧
        ∃ moved, Recorded s.epoch moved l ∧ Follows s.epoch (rs ++ moved.map (retag core)) c') :
    Plays (Simulator.onCore i x) s := by
  intro trace a s' l hplayed h
  obtain ⟨c, c', n', l₀, hi, hreturns, rfl, rfl⟩ := returns_onCore h
  obtain ⟨hid, moved, hrecorded, hfollows⟩ := hx c hi _ _ a c' n' l₀
    (hplayed.follows c (List.mem_of_getElem? hi)) hreturns
  exact hplayed.core hi hid hrecorded hfollows

end Played

end TraceModel
end Qsbit

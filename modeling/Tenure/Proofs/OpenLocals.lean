import Tenure.Proofs.LocalEvents
import Tenure.Proofs.Parts
import Tenure.Proofs.StaticForm

/-!
# Open locals

Lowering knows which locals are open: a table that it changes once for every
opening and closing, in the order of the text.  So what it accepts has a script in
order.
-/

namespace Tenure.Lowering

open Ir (Ty Operand)
open LocalEvent (playAll)

variable {α : Type}

set_option synthInstance.maxSize 512

/-! ## Parts that open and close nothing -/

/-- The table of open locals is left as it was. -/
def KeepsSlots (α : Type) (x : Build α) : Prop :=
  ∀ ⦃env : Env⦄ ⦃s : State⦄ ⦃a : α⦄ ⦃s' : State⦄, x env s = .ok a s' → s'.slots = s.slots

theorem keepsSlots_modify {g : State → State} (h : ∀ s, (g s).slots = s.slots) :
    KeepsSlots PUnit (modify g) := by
  intro env s u s' hrun
  rw [modify_ok hrun]
  exact h s

instance : Calm KeepsSlots where
  pure a env s b s' h := by
    obtain ⟨-, rfl⟩ := pure_ok h
    rfl
  bind hx hk env s b s'' h := by
    obtain ⟨a, s', h1, h2⟩ := bind_ok h
    exact (hk a h2).trans (hx h1)
  crash h := absurd h throw_ne_ok
  violation _ _ _ _ _ h := absurd h throw_ne_ok
  get _ _ _ _ h := (get_ok h).2 ▸ rfl
  read _ _ _ _ h := (read_ok h).2 ▸ rfl
  modify hg := keepsSlots_modify hg.slots
  releasing hbody hclose env s a s' h := by
    obtain ⟨s1, h1, h2⟩ := releasing_ok h
    exact (hclose h2).trans (hbody h1)
  quiet hx _ _ _ _ h := (hx h).slots

/-- A part of lowering that leaves the table of open locals as it was. -/
abbrev Idle (x : Build α) : Prop := Shows KeepsSlots x

variable {x : Build α} {a : α} {slot : Slot}

theorem Idle.slots_eq [h : Idle x] {env : Env} {s s' : State} (hrun : x env s = .ok a s') :
    s'.slots = s.slots :=
  h.shows hrun

instance {t : Ty} {n : String} : Idle (entryAlloca t n) := by
  have : ∀ g, Idle (modifyFunc g) := fun _ => ⟨keepsSlots_modify fun _ => rfl⟩
  unfold entryAlloca emitTo
  infer_instance

/-! ## The locals that are open -/

/-- The locals that are open in a state. -/
def openIds (s : State) : Finset Int := (s.slots.map (·.1)).toFinset

variable {env : Env} {s s' : State} {l : Local}

theorem Idle.openIds_eq [Idle x] (h : x env s = .ok a s') : openIds s' = openIds s := by
  rw [openIds, Idle.slots_eq h, openIds]

theorem mem_openIds {id : Int} : id ∈ openIds s ↔ s.slots.any (·.1 == id) := by
  simp [openIds]

theorem openLocal_plays {x : Operand} {u : Unit} (h : openLocal l x env s = .ok u s') :
    playAll (openIds s) [.opens l.id] = some (openIds s') := by
  replace h := get_then h
  dsimp only at h
  split at h
  · exact absurd h refused_ne_ok
  · next hclosed =>
    rw [← mem_openIds] at hclosed
    obtain ⟨elem, s1, h1, h⟩ := bind_ok h
    obtain ⟨address, s2, h2, h⟩ := bind_ok h
    obtain ⟨_, s3, h3, h⟩ := bind_ok h
    have hslots : s3.slots = s.slots :=
      (Idle.slots_eq h3).trans ((Idle.slots_eq h2).trans (Idle.slots_eq h1))
    have hids : openIds s' = insert l.id (openIds s) := by
      rw [modify_ok h, openIds, openIds]
      simp [hslots]
    rw [LocalEvent.playAll_singleton, LocalEvent.play, if_neg hclosed, hids]

theorem slotOf_open (h : slotOf l env s = .ok slot s') : l.id ∈ openIds s := by
  replace h := get_then h
  cases hfound : s.slots.find? (·.1 == l.id) with
  | none =>
    rw [hfound] at h
    exact absurd h throw_ne_ok
  | some p =>
    have hp : (p.1 == l.id) = true := List.find?_some (p := fun q : Int × Slot => q.1 == l.id)
      hfound
    rw [mem_openIds, List.any_eq_true]
    exact ⟨p, List.mem_of_find?_eq_some hfound, hp⟩

theorem slotOf_plays (h : slotOf l env s = .ok slot s') :
    playAll (openIds s) [.uses l.id] = some (openIds s') := by
  have hopen := slotOf_open h
  obtain ⟨-, rfl⟩ := slotOf_ok h
  rw [LocalEvent.playAll_singleton, LocalEvent.play, if_pos hopen]

/-- The slot of a local is looked up, something is done, and the local is closed. -/
theorem closing_plays {x : Slot → Build α} [∀ slot, Idle (x slot)] {r : α → Result} {a : Result}
    (h : (do
      let slot ← slotOf l
      let a ← x slot
      closeLocal l
      return r a) env s = .ok a s') : playAll (openIds s) [.closes l.id] = some (openIds s') := by
  obtain ⟨slot, s1, h1, h⟩ := bind_ok h
  have hopen := slotOf_open h1
  obtain ⟨-, rfl⟩ := slotOf_ok h1
  obtain ⟨_, s2, h2, h⟩ := bind_ok h
  obtain ⟨_, s3, h3, h⟩ := bind_ok h
  obtain ⟨-, rfl⟩ := pure_ok h
  have hids : openIds s3 = (openIds s).erase l.id := by
    rw [modify_ok h3, openIds, openIds]
    ext id
    simp [Idle.slots_eq h2, and_comm]
  rw [LocalEvent.playAll_singleton, LocalEvent.play, if_pos hopen, hids]

end Tenure.Lowering

import Tenure.Interp.Memory
import Mathlib.Tactic.Common

/-!
# Objects over time

Memory only ever grows, and an object keeps its region and its size.  `Later` is
what can be said of any piece of code: globals are as they were, and what is on
the stack is alive as long as it was.  `Stacked` is the special case that only
stack objects have been added, which is all that happens when control leaves the
entry of a function.
-/

namespace Tenure.Interp.Memory

variable {m m' m'' : Memory}

/-- A memory at a later time. -/
structure Later (m m' : Memory) : Prop where
  size : m.objects.size ≤ m'.objects.size
  kept : ∀ (id : Nat) (o : Object), m.objects[id]? = some o → ∃ o', m'.objects[id]? = some o' ∧
    o'.region = o.region ∧ o'.size = o.size ∧ (o.region ≠ .heap → o'.dead = o.dead) ∧
    (o.region = .global → o' = o)

theorem Later.refl (m : Memory) : m.Later m where
  size := Nat.le_refl _
  kept _ o ho := ⟨o, ho, rfl, rfl, fun _ => rfl, fun _ => rfl⟩

theorem Later.trans (h : m.Later m') (h' : m'.Later m'') : m.Later m'' where
  size := Nat.le_trans h.size h'.size
  kept id o ho := by
    obtain ⟨o1, ho1, hregion1, hsize1, hdead1, hglobal1⟩ := h.kept id o ho
    obtain ⟨o2, ho2, hregion2, hsize2, hdead2, hglobal2⟩ := h'.kept id o1 ho1
    refine ⟨o2, ho2, hregion2.trans hregion1, hsize2.trans hsize1, fun hr => ?_, fun hr => ?_⟩
    · rw [hdead2 (hregion1 ▸ hr), hdead1 hr]
    · rw [hglobal2 (hregion1.trans hr), hglobal1 hr]

/-- Only new stack objects have been added. -/
structure Stacked (m m' : Memory) : Prop where
  size : m.objects.size ≤ m'.objects.size
  old : ∀ id < m.objects.size, m'.objects[id]? = m.objects[id]?
  new : ∀ (id : Nat) (o : Object), m.objects.size ≤ id → m'.objects[id]? = some o →
    o.region = .stack

theorem Stacked.refl (m : Memory) : m.Stacked m where
  size := Nat.le_refl _
  old _ _ := rfl
  new id o hid ho := by
    have := (Array.getElem?_eq_some_iff.mp ho).1
    omega

theorem Stacked.trans (h : m.Stacked m') (h' : m'.Stacked m'') : m.Stacked m'' where
  size := Nat.le_trans h.size h'.size
  old id hid := (h'.old id (Nat.lt_of_lt_of_le hid h.size)).trans (h.old id hid)
  new id o hid ho := by
    by_cases hlt : id < m'.objects.size
    · rw [h'.old id hlt] at ho
      exact h.new id o hid ho
    · exact h'.new id o (Nat.le_of_not_lt hlt) ho

theorem Stacked.getElem? (h : m.Stacked m') {id : Nat} {o : Object}
    (ho : m.objects[id]? = some o) : m'.objects[id]? = some o := by
  rw [h.old id (Array.getElem?_eq_some_iff.mp ho).1, ho]

theorem Stacked.later (h : m.Stacked m') : m.Later m' where
  size := h.size
  kept _ o ho := ⟨o, h.getElem? ho, rfl, rfl, fun _ => rfl, fun _ => rfl⟩

/-- A new stack object. -/
theorem stacked_add {size : Int64} : m.Stacked (m.add .stack size) where
  size := by simp [add]
  old id hid := by
    rw [add, Array.getElem?_push, if_neg (Nat.ne_of_lt hid)]
  new id o hid ho := by
    rw [add, Array.getElem?_push] at ho
    split at ho
    · obtain rfl := Option.some.inj ho
      rfl
    · have := (Array.getElem?_eq_some_iff.mp ho).1
      omega

end Tenure.Interp.Memory

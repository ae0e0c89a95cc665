import Tenure.Proofs.LedgerInvariants
import Mathlib.Algebra.Order.BigOperators.Group.List
import Mathlib.Data.Set.Card

/-!
# The lifetimes of objects

At every moment in the life of a machine, whatever functions are registered, whatever
they call and however calls end, the lifetimes of objects are what the log of calls
and answers says.  Nothing can be done with a dead object, and as long as objects
take up less than a quarter of the addresses that a word can hold, they lie apart.
-/

namespace Tenure.Interp

open Ir (Ty Op)

/-! ## Accesses to objects -/

section Accesses

variable {m m' : Memory} {p : Pointer} {t : Ty} {v : Value}

end Accesses

namespace Config

variable {c c' : Config} {p : Pointer}

end Config

/-! ## Spaces -/

/-- The bytes that an object takes up, its size read as a number without a sign. -/
def taken (size : Int64) : Nat := (size.toUInt64.toNat + 15) / 16 * 16 + 16

/-- The bytes that all objects take up. -/
def Memory.taken (m : Memory) : Nat := (m.objects.toList.map fun o => Interp.taken o.size).sum

section

variable {code : Code} {log log' : List Event} {w w' : Moment}
variable {m : Memory} {id : Nat} {o : Object} {p : Pointer}

theorem Memory.exists_outline {Q : Object → Prop} :
    (∃ o, m.outline.objects[id]? = some o ∧ Q o) ↔ ∃ o, m.objects[id]? = some o ∧ Q o.outline := by
  rw [getElem?_outline]
  simp

/-- The slots of the active frames are those that the log gives for some height. -/
theorem Ledger.HeightsAgree.mem_iff {l : Ledger} (h : l.HeightsAgree log) :
    (∃ slots ∈ l.frames, id ∈ slots) ↔ ∃ height, id ∈ Interp.opened height log := by
  constructor
  · rintro ⟨slots, hslots, hid⟩
    obtain ⟨before, after, hframes⟩ := List.append_of_mem hslots
    refine ⟨after.length + 1, ?_⟩
    rw [h.opened slots after ⟨before, hframes.symm⟩]
    exact hid
  · rintro ⟨height, hid⟩
    by_cases hheight : height = 0 ∨ l.frames.length < height
    · rw [h.above height hheight] at hid
      cases hid
    · -- the frame at this height is as far from the end of the list
      obtain ⟨hpos, hle⟩ := not_or.mp hheight
      have hlt : l.frames.length - height < l.frames.length := by omega
      have hdrop := List.drop_eq_getElem_cons hlt
      have hsuffix : l.frames[l.frames.length - height] ::
          l.frames.drop (l.frames.length - height + 1) <:+ l.frames := by
        rw [← hdrop]
        exact List.drop_suffix _ _
      have hopened := h.opened _ _ hsuffix
      rw [List.length_drop] at hopened
      have heq : l.frames.length - (l.frames.length - height + 1) + 1 = height := by omega
      rw [heq] at hopened
      exact ⟨_, List.getElem_mem hlt, hopened ▸ hid⟩

end

/-! ## A machine that is called twice -/

namespace MakeAndDrop

def bytes : Ty := .ptr .i8

/-- Makes a heap object and a stack slot. -/
def make : Ir.Func where
  name := "make"
  result := .void
  params := []
  blocks := #[{
    name := "entry"
    insts := #[⟨0, "object", bytes, .call (.const (.func 0 (.func bytes [.i64]))) [.i64 8]⟩,
      ⟨1, "slot", .ptr .i64, .alloca .i64⟩]
    term := some (.ret none) }]

/-- Frees what it is given. -/
def drop : Ir.Func where
  name := "drop"
  result := .void
  params := [("object", bytes)]
  blocks := #[{
    name := "entry"
    insts := #[⟨0, "", .void, .call (.const (.func 1 (.func .void [bytes]))) [.param 0 bytes]⟩]
    term := some (.ret none) }]

def code : Code where
  funcs := #[⟨"malloc", bytes, [("", .i64)], #[], false, 0, 0⟩,
    ⟨"free", .void, [("", bytes)], #[], false, 0, 0⟩, make, drop]

def object : Pointer := { base := .object 0 .heap }

/-- The log of two calls from outside. -/
def log : List Event := [.leave 1, .free 0, .leave 1, .slot 1 1, .malloc 0]

end MakeAndDrop

end Tenure.Interp

import Tenure.Proofs.Assembled

/-!
# Parts that make no stack slots

A stack slot is made only for a local of the program.  So nothing that is lowered to
count references makes one, and the drop functions of structs, which consist of nothing
else, have none: a call of such a function has all its slots from the beginning.
-/

namespace Tenure.Ir.Func

variable {f : Func} {b : Nat} {name : String} {ty : Ty} {op : Op} {t : Term}

/-- No instruction of a function makes a stack slot. -/
def Slotless (f : Func) : Prop := ∀ b, ∀ i ∈ f.code b, i.op.isAlloca = false

theorem Slotless.not_alloca (h : f.Slotless) {j : Nat} {i : Inst} (hi : f.Has b j i) :
    i.op ≠ .alloca ty := by
  intro hop
  have hnone := h b i (List.mem_of_getElem? hi)
  rw [hop] at hnone
  cases hnone

theorem Slotless.addBlock (h : f.Slotless) : (f.addBlock name).Slotless := by
  intro c i hi
  rw [code_addBlock] at hi
  exact h c i hi

theorem Slotless.terminate (h : f.Slotless) : (f.terminate b t).Slotless := by
  intro c i hi
  rw [code_terminate] at hi
  exact h c i hi

theorem Slotless.push (h : f.Slotless) (hop : op.isAlloca = false) :
    (f.push b name ty op).Slotless := by
  intro c i hi
  by_cases hb : b < f.blocks.size
  · rw [code_push hb] at hi
    split at hi
    · rcases List.mem_append.mp hi with hi | hi
      · exact h b i hi
      · obtain rfl := List.mem_singleton.mp hi
        exact hop
    · exact h c i hi
  · have hsame : (f.push b name ty op).code c = f.code c := by
      simp [code, Func.push, Array.modify, Array.modifyM, hb]
    rw [hsame] at hi
    exact h c i hi

theorem Slotless.addIncoming (h : f.Slotless) {reg : Nat} {x y : Operand} :
    (f.addIncoming b reg x y).Slotless := by
  intro c i hi
  rw [code_addIncoming] at hi
  split at hi
  · obtain ⟨i0, hi0, rfl⟩ := List.mem_map.mp hi
    have hop := h b i0 hi0
    unfold extendPhi
    split
    · split
      · rfl
      · exact hop
    · exact hop
  · exact h c i hi

end Tenure.Ir.Func

namespace Tenure.Ir.Module

variable {code : Module}

/-- Whether no function of a module makes a stack slot. -/
def isSlotless (code : Module) : Bool :=
  ∀ f ∈ code.funcs, ∀ b ∈ f.blocks, ∀ i ∈ b.insts, i.op.isAlloca = false

theorem slotless_of_isSlotless (h : code.isSlotless = true) {pos : Nat} {F : Func}
    (hF : code.funcs[pos]? = some F) : F.Slotless := by
  have hslots := of_decide_eq_true h
  intro b i hi
  unfold Func.code at hi
  cases hb : F.blocks[b]? with
  | none => simp [hb] at hi
  | some block =>
    rw [hb] at hi
    exact hslots F (Array.mem_of_getElem? hF) block (Array.mem_of_getElem? hb) i (by simpa using hi)

end Tenure.Ir.Module

namespace Tenure.Lowering

/-! ## Calls of functions without slots -/

/-- A call of a function without slots has all its slots from the beginning. -/
theorem Ready.of_slotless {C : Interp.Call} {w : Interp.World} {b k : Nat} (h : C.body.Slotless)
    (hmemory : w.memory = C.machine.memory) (hslots : w.slots = []) : Ready C b k w := by
  refine ⟨fun j i elem hi hop => absurd hop (h.not_alloca hi), ?_, ?_, ?_⟩
  · rintro id id' o ⟨j, i, hi, halloca, -⟩
    obtain ⟨elem, hop⟩ := alloca_of_isAlloca halloca
    exact absurd hop (h.not_alloca hi)
  · simp [hslots]
  · rw [hmemory]
    exact .refl _

end Tenure.Lowering

import Tenure.Proofs.EmittedParts

/-!
# Strings, methods, locals, structs and arrays

The statements about single parts of lowering continue: those that make values and
take them apart.
-/

namespace Tenure.Lowering

open Ir (Const Operand Func)

variable {U : List Operand} {env : Env} {s s' : State} {f : Func}
variable {i : Nat} {r : Reference} {x y : Operand} {h : Held}

set_option synthInstance.maxSize 4000

/-! ## Strings -/

theorem addGlobal_ok {name : String} {init : Const}
    (h : addGlobal name init env s = .ok i s') : Still s s' := by
  replace h := get_then h
  obtain ⟨_, s1, h1, h⟩ := bind_ok h
  obtain ⟨rfl, rfl⟩ := pure_ok h
  rw [modify_ok h1]
  refine ⟨.ofTables ?_ rfl rfl rfl, rfl, rfl, rfl, rfl⟩
  exact { Tables.refl s with globals := by simp }

/-- A literal is a constant, and the function under construction is left alone. -/
theorem literal_ok {bytes : ByteArray} {x : Operand} (h : literal bytes env s = .ok x s')
    (hp : Placed s f) :
    Placed s' f ∧ Framed s s' ∧ s'.block = s.block ∧ s'.slots = s.slots ∧ ∃ c, x = .const c := by
  replace h := get_then h
  cases hfound : s.literals.find? (·.1 == bytes) with
  | some p =>
    rw [hfound] at h
    obtain ⟨rfl, rfl⟩ := pure_ok h
    exact ⟨hp, .refl _, rfl, rfl, hp.literals _ (List.mem_of_find?_eq_some hfound)⟩
  | none =>
    rw [hfound] at h
    replace h := get_then h
    obtain ⟨i, s1, h1, h⟩ := bind_ok h
    have hs := addGlobal_ok h1
    obtain ⟨_, s2, h1, h⟩ := bind_ok h
    have hs2 := modify_ok h1
    obtain ⟨rfl, rfl⟩ := pure_ok h
    have hp1 := hs.placed hp
    rw [hs2]
    refine ⟨⟨hp1.func, hp1.lt, hp1.slots, fun p hmem => ?_⟩,
      hs.framed.trans (.ofTables ?_ rfl rfl rfl),
      hs.block, hs.slots, _, rfl⟩
    · rcases List.mem_cons.mp hmem with rfl | hmem
      · exact ⟨_, rfl⟩
      · exact hp1.literals p hmem
    · exact { Tables.refl _ with texts := List.suffix_cons .. }

instance {bytes : ByteArray} : Orderly U (literal bytes) where
  emits env s x s' f hp hopen h := by
    obtain ⟨hp', hframed, hblock, -, c, rfl⟩ := literal_ok h hp
    exact ⟨f, Grown.same hp' hframed hblock hopen (by simp)⟩

section Strings

variable [Handed U x]

instance : Orderly U (allocStr x) := by
  unfold allocStr
  infer_instance

instance : Orderly U (strChars x) := by
  unfold strChars
  infer_instance

instance : Orderly U (strLength x) := by
  unfold strLength
  infer_instance

end Strings

instance {bytes : ByteArray} : Orderly U (lowerLiteral bytes) := by
  unfold lowerLiteral
  infer_instance

instance {kind : String} : Orderly U (flare kind) := by
  unfold flare
  infer_instance

/-! ## Builtins -/

instance [Handed U x] : Orderly U (Builtin.lowerIntToStr x) := by
  unfold Builtin.lowerIntToStr
  infer_instance

instance {b : Builtin} [Handed U h.value] : Orderly U (b.lowerUnary h) := by
  unfold Builtin.lowerUnary
  split <;> infer_instance

instance {b : Builtin} {g : Held} [Handed U h.value] [Handed U g.value] :
    Orderly U (b.lowerBinary h g) := by
  unfold Builtin.lowerBinary
  split <;> infer_instance

/-! ## Methods -/

theorem quiet_receiverIndex {d : InterfaceDef} {m : Prototype} : Quiet (receiverIndex d m) := by
  refine quiet_getProgram.bind fun p => ?_
  generalize 0 = i
  induction m.params generalizing i with
  | nil => exact .violation
  | cons r rs ih =>
    refine Quiet.require.bind fun r => ?_
    split
    · exact Quiet.ite .pure (ih _)
    · exact ih _

theorem quiet_functorMethod {functor : Held} : Quiet (functorMethod functor) := by
  refine Held.quiet_reference.bind fun r => ?_
  split
  · refine quiet_interfaceIndex.bind fun _ => quiet_interfaceAt.bind fun d => ?_
    split
    · exact Quiet.ite .pure .violation
    · exact .violation
  · exact .violation

instance {d : InterfaceDef} {m : Prototype} : Orderly U (receiverIndex d m) :=
  ⟨quiet_receiverIndex.emits⟩

instance [Handed U x] [Handed U y] : Orderly U (makeInterfaceRef i x y) := by
  unfold makeInterfaceRef
  infer_instance

instance {edge : Nat} : Orderly U (tableOperand edge) := by
  unfold tableOperand
  infer_instance

instance {method : Int} [Handed U x] : Orderly U (loadMethod i x method) := by
  unfold loadMethod
  infer_instance

instance [Handed U h.value] [Handed U x] : Orderly U (callFunctor h x) := by
  refine ⟨.after quiet_functorMethod fun ⟨i, d, m⟩ => ?_⟩
  refine .after quiet_receiverIndex fun receiver => @Orderly.emits _ _ _ _ ?_
  split <;> infer_instance

/-! ## Structs -/

theorem quiet_structDef : Quiet (structDef r) := by
  unfold structDef
  split
  · exact quiet_structIndex.bind fun _ => quiet_structAt
  · exact .violation

theorem quiet_memberOf {i : Int} : Quiet (memberOf r i) := by
  refine quiet_structDef.bind fun d => ?_
  split
  · exact .pure
  · exact .violation

theorem quiet_structOwnIndex {d : StructDef} : Quiet (structOwnIndex d) :=
  quiet_getProgram.bind fun _ => quiet_ownIndex

theorem quiet_isMutableView : Quiet (isMutableView r) := by
  unfold isMutableView
  split
  · exact .pure
  · exact .pure
  · exact .pure
  · exact .violation

instance : Orderly U (structDef r) := ⟨quiet_structDef.emits⟩
instance {i : Int} : Orderly U (memberOf r i) := ⟨quiet_memberOf.emits⟩
instance {d : StructDef} : Orderly U (structOwnIndex d) := ⟨quiet_structOwnIndex.emits⟩
instance : Orderly U (isMutableView r) := ⟨quiet_isMutableView.emits⟩

section Members

variable {xs : List Operand} [Handed U x]

instance {i : Int} : Orderly U (memberPtr x r i) := by
  unfold memberPtr
  infer_instance

instance {m : StructMember} : Orderly U (readMember x r i m) := by
  unfold readMember
  infer_instance

instance [hxs : Provided U xs] : Orderly U (storeMembers x r i xs) := by
  induction xs generalizing U i with
  | nil => exact inferInstanceAs (Orderly U (pure ()))
  | cons y ys ih =>
    obtain ⟨hy, hys⟩ := List.forall_mem_cons.mp hxs.given
    have : Handed U y := ⟨hy⟩
    have : Provided U ys := ⟨hys⟩
    unfold storeMembers
    infer_instance

instance [hxs : Provided U xs] : Orderly U (insertMembers x i xs) := by
  induction xs generalizing U x i with
  | nil => exact inferInstanceAs (Orderly U (pure x))
  | cons y ys ih =>
    obtain ⟨hy, hys⟩ := List.forall_mem_cons.mp hxs.given
    have : Handed U y := ⟨hy⟩
    have : Provided U ys := ⟨hys⟩
    unfold insertMembers
    infer_instance

end Members

instance {d : StructDef} {xs : List Operand} [Provided U xs] : Orderly U (makeStruct d r xs) := by
  unfold makeStruct
  infer_instance

/-! ## Arrays -/

instance [Handed U x] [Handed U y] : Orderly U (loadElement x r y) := by
  unfold loadElement
  split <;> infer_instance

instance [Handed U x] [Handed U h.value] : Orderly U (tabulate x h r) := by
  unfold tabulate
  infer_instance

instance [Handed U x] [Handed U h.value] : Orderly U (consume x r h) := by
  have (V : List Operand) (y : Operand) [Handed V y] : Orderly V (do
      let (_, _, m) ← functorMethod h
      discard ⟨y, m.result⟩) := ⟨.after quiet_functorMethod fun ⟨_, _, _⟩ => Orderly.emits⟩
  unfold consume
  infer_instance

/-! ## Calls -/

theorem quiet_signatureOf {c : Option Callee} : Quiet (signatureOf c) :=
  quiet_getProgram.bind fun _ => Quiet.require.bind fun _ => .require

instance {c : Option Callee} : Orderly U (signatureOf c) := ⟨quiet_signatureOf.emits⟩

instance {p : Prototype} : Orderly U (functionFor p) := by
  refine ⟨.after .get fun _ => @Orderly.emits _ _ _ _ ?_⟩
  split <;> infer_instance

end Tenure.Lowering

import Tenure.Proofs.DefinitionOrder
import Tenure.Proofs.LoweredTypes
import Tenure.Proofs.ReadPrograms
import Tenure.Proofs.Relocation

/-!
# Two runs in step

Lowering is run for two programs that differ by the order of their functions.  The
code of a function is then the same in both runs, but for the places of the
functions and of the literals that it mentions.

* `Course`: the two programs, and what both runs have settled before code is written.
* `Alike`: two operands that differ by places only.  Which place in the second run
  belongs to a literal is known once both runs have met it, so operands are alike from
  the literals on that have been met.
* `Abreast`: the two runs have come to the same point of a function.
* `InStep`, `Onward`: a part of the first run is matched by a part of the second one,
  without literals or with more of them.
-/

namespace Tenure

variable {σ : Equiv.Perm Nat}

/-! ## Places behind others -/

/-- Moves the places behind the first ones. -/
def behind (n : Nat) (σ : Equiv.Perm Nat) : Equiv.Perm Nat where
  toFun i := if i < n then i else n + σ (i - n)
  invFun i := if i < n then i else n + σ.symm (i - n)
  left_inv i := by grind [Equiv.symm_apply_apply]
  right_inv i := by grind [Equiv.apply_symm_apply]

theorem behind_of_lt {n i : Nat} (σ : Equiv.Perm Nat) (h : i < n) : behind n σ i = i := if_pos h

@[simp] theorem behind_add (n k : Nat) (σ : Equiv.Perm Nat) : behind n σ (n + k) = n + σ k := by
  simp [behind]

variable {α : Type} {ys xs : List α}

theorem Carries.behind {ys' : List α} (h : Carries σ ys ys') (xs : List α) :
    Carries (behind xs.length σ) (xs ++ ys) (xs ++ ys') := by
  intro k
  by_cases hk : k < xs.length
  · rw [behind_of_lt σ hk, List.getElem?_append_left hk, List.getElem?_append_left hk]
  · obtain ⟨j, rfl⟩ := Nat.exists_eq_add_of_le (Nat.le_of_not_lt hk)
    rw [behind_add, List.getElem?_append_right (by omega), List.getElem?_append_right (by omega),
      Nat.add_sub_cancel_left, Nat.add_sub_cancel_left, h]

/-- What stands behind stays there. -/
theorem Carries.append {xs' : List α} (h : Carries σ xs xs') (hfix : ∀ k, xs.length ≤ k → σ k = k)
    (ys : List α) : Carries σ (xs ++ ys) (xs' ++ ys) := by
  intro k
  have hlength := h.perm.length_eq
  by_cases hk : k < xs.length
  · rw [List.getElem?_append_left (h.lt_iff.mpr hk), List.getElem?_append_left hk, h]
  · rw [hfix k (by omega), List.getElem?_append_right (by omega),
      List.getElem?_append_right (by omega),
      hlength]

theorem Carries.of_map {β : Type} {f : α → β} (hf : Function.Injective f)
    (h : Carries σ (xs.map f) (ys.map f)) : Carries σ xs ys := by
  intro k
  have hk := h k
  rw [List.getElem?_map, List.getElem?_map] at hk
  exact Option.map_injective hf hk

end Tenure

/-- Bytes are compared one by one. -/
instance lawfulBEqByteArray : LawfulBEq ByteArray where
  eq_of_beq {a b} h := ByteArray.ext (eq_of_beq (show (a.data == b.data) = true from h))
  rfl {a} := beq_self_eq_true a.data

namespace Tenure.Lowering

open Ir (Ty Const Operand Op Term Func Relocation)

variable {r : Relocation} {t : Ty}

/-! ## What is settled -/

/-- The number of functions of the runtime, which come before all others. -/
abbrev runtimeCount : Nat := RuntimeFunc.all.length

theorem RuntimeFunc.position_lt (f : RuntimeFunc) : f.position < runtimeCount := by
  cases f <;> decide

/-- What both runs have settled alike. -/
structure Plan where
  types : Ir.TypeDefs
  drops : Array Nat
  itables : Array Nat
  /-- the number of globals that are no literals, and their types -/
  tables : Nat
  content : Nat → Option Ty

/-- The name and the type of a function, which it has before it has code. -/
abbrev headOf (f : Func) : String × Ty := (f.name, f.signature)

/-- What a run has settled about functions. -/
structure Places where
  head : Nat → Option (String × Ty)
  funcs : Array (Option Nat)

/-- The address of the bytes of a literal in a global. -/
def literalOperand (place : Nat) (bytes : ByteArray) : Operand :=
  .const (.gep .i8Ptr (Const.chars (bytes.push 0)).ty
    (.global place (Const.chars (bytes.push 0)).ty) [.i32 0, .i32 0])

/-- The global of a literal of a number. -/
def literalGlobal (number : Nat) (bytes : ByteArray) : Ir.Global where
  name := "__strlit." ++ toString number
  content := (Const.chars (bytes.push 0)).ty
  init := some (.chars (bytes.push 0))
  immutable := true

/-- The literals that have been met stand behind the other globals, in order. -/
structure Pooled (tables : Nat) (s : State) : Prop where
  size : s.module.globals.size = tables + s.literals.length
  entries : ∀ (k : Nat) (bytes : ByteArray) (x : Operand),
    s.literals.reverse[k]? = some (bytes, x) → x = literalOperand (tables + k) bytes ∧
      s.module.globals[tables + k]? = some (literalGlobal k bytes)
  distinct : (s.literals.map (·.1)).Nodup

/-- A run goes by what is settled. -/
structure Settled (names : Tenure.Declared) (p : Program) (P : Plan) (L : Places) (s : State) :
    Prop where
  types : s.module.types = P.types
  heads : ∀ i, s.module.funcs[i]?.map headOf = L.head i
  funcs : s.funcs = L.funcs
  drops : s.dropFuncs = P.drops
  itables : s.itables = P.itables
  contents : ∀ i < P.tables, s.module.globals[i]?.map (·.content) = P.content i
  pooled : Pooled P.tables s
  layouts : Faithful names p s.arrayLayouts

section Settled

variable {names : Tenure.Declared} {p : Program} {P : Plan} {L : Places} {s : State}

/-- Another place in the code settles nothing. -/
theorem Settled.at (h : Settled names p P L s) (func block blockCount : Nat)
    (slots : List (Int × Slot)) : Settled names p P L { s with func, block, blockCount, slots } :=
  ⟨h.types, h.heads, h.funcs, h.drops, h.itables, h.contents,
    ⟨h.pooled.size, h.pooled.entries, h.pooled.distinct⟩, h.layouts⟩

theorem Settled.withLayouts (h : Settled names p P L s) {layouts : List (String × Ty)}
    (hl : Faithful names p layouts) : Settled names p P L { s with arrayLayouts := layouts } :=
  ⟨h.types, h.heads, h.funcs, h.drops, h.itables, h.contents,
    ⟨h.pooled.size, h.pooled.entries, h.pooled.distinct⟩, hl⟩

/-- A function gets more code. -/
theorem Settled.modifyFunc (h : Settled names p P L s) {g : Func → Func} (i : Nat)
    (hg : ∀ f, headOf (g f) = headOf f) : Settled names p P L
      { s with module := { s.module with funcs := s.module.funcs.modify i g } } := by
  refine { h with heads := fun j => ?_, pooled := { h.pooled with } }
  rw [← h.heads j, Array.getElem?_modify]
  split
  · cases s.module.funcs[j]? with
    | none => rfl
    | some f => exact congrArg some (hg f)
  · rfl

end Settled

/-! ## Two programs -/

@[simp] theorem newIndex_refl (id : Int) : newIndex (Equiv.refl Nat) id = id := by
  unfold newIndex
  split <;> simp_all

/-- New places for functions alone. -/
def functionOrder (σ : Equiv.Perm Nat) : Reordering := ⟨Equiv.refl _, Equiv.refl _, Equiv.refl _, σ⟩

/-- The types that a part of a program states have a written form. -/
def Written (names : Tenure.Declared) (t : Option Reference) : Prop :=
  ∀ r ∈ t, r.referend.Printable names

/-- A program, and the one with its functions in another order. -/
structure ProgramPair where
  names : Tenure.Declared
  env : Env
  functions : Array Function
  edges : List ResolvedEdge
  order : Equiv.Perm Nat
  numbered : env.program.Numbered
  written : env.program.States (Written names)
  reordered : Carries order (env.program.functions.toList.map (functionOrder order).functionDef)
    functions.toList
  relinked : edges = env.program.edges.map (functionOrder order).edge
  fixes : ∀ k, env.program.functions.size ≤ k → order k = k

namespace ProgramPair

/-- The second program. -/
def env' (P : ProgramPair) : Env :=
  { P.env with program := { P.env.program with functions := P.functions, edges := P.edges } }

/-- The places of functions in the second run. -/
def place (P : ProgramPair) : Equiv.Perm Nat := behind runtimeCount P.order

end ProgramPair

/-- Lowering for two programs that differ by the order of their functions, with what is
settled before code is written. -/
structure Course extends ProgramPair where
  plan : Plan
  left : Places
  right : Places
  /-- the functions that code may mention -/
  known : Nat → Prop
  heads : ∀ i, right.head (toProgramPair.place i) = left.head i
  funcs : ∀ k, right.funcs[order k]? = left.funcs[k]?.map (·.map toProgramPair.place)
  drops : ∀ d ∈ plan.drops, known d ∧ toProgramPair.place d = d
  runtime : ∀ i < runtimeCount, known i
  itables : ∀ i ∈ plan.itables, i < plan.tables

/-! ## Operands that are alike -/

/-- The literals that the two runs have met. -/
structure Pools where
  left : List (ByteArray × Operand)
  right : List (ByteArray × Operand)

/-- More literals have been met.  What one run has met by now, it had met before, or the
other run has met it too. -/
structure Pools.Grows (w w' : Pools) : Prop where
  left : w.left ⊆ w'.left
  right : w.right ⊆ w'.right
  metLeft : ∀ e ∈ w'.left, e.1 ∈ w.left.map (·.1) ∨ e.1 ∈ w'.right.map (·.1)
  metRight : ∀ e ∈ w'.right, e.1 ∈ w.right.map (·.1) ∨ e.1 ∈ w'.left.map (·.1)

theorem Pools.Grows.refl (w : Pools) : w.Grows w :=
  ⟨fun _ h => h, fun _ h => h, fun _ h => .inl (List.mem_map_of_mem h),
    fun _ h => .inl (List.mem_map_of_mem h)⟩

theorem Pools.Grows.trans {w w' w'' : Pools} (h : w.Grows w') (h' : w'.Grows w'') :
    w.Grows w'' where
  left _ hx := h'.left (h.left hx)
  right _ hx := h'.right (h.right hx)
  metLeft e he := by
    obtain hmet | hmet := h'.metLeft e he
    · obtain ⟨e', he', heq⟩ := List.mem_map.mp hmet
      exact (heq ▸ h.metLeft e' he').imp_right fun hright => List.map_subset _ h'.right hright
    · exact .inr hmet
  metRight e he := by
    obtain hmet | hmet := h'.metRight e he
    · obtain ⟨e', he', heq⟩ := List.mem_map.mp hmet
      exact (heq ▸ h.metRight e' he').imp_right fun hleft => List.map_subset _ h'.left hleft
    · exact .inr hmet

/-- New places that are right for two runs, as far as these have come. -/
structure Suits (C : Course) (w : Pools) (r : Relocation) : Prop where
  func : ∀ i, C.known i → r.func i = C.place i
  global : ∀ i < C.plan.tables, r.global i = i
  literals : ∀ bytes x y, (bytes, x) ∈ w.left → (bytes, y) ∈ w.right → y = x.relocate r

theorem Suits.of_subset {C : Course} {w w' : Pools} (h : Suits C w' r)
    (hleft : w.left ⊆ w'.left) (hright : w.right ⊆ w'.right) : Suits C w r :=
  ⟨h.func, h.global, fun bytes x y hx hy => h.literals bytes x y (hleft hx) (hright hy)⟩

theorem Suits.of_grows {C : Course} {w w' : Pools} (h : Suits C w' r)
    (hw : w.Grows w') : Suits C w r :=
  h.of_subset hw.left hw.right

/-- Two operands of the two runs differ by places only. -/
def Alike (C : Course) (w : Pools) (x y : Operand) : Prop := ∀ r, Suits C w r → y = x.relocate r

variable {C : Course} {w w' : Pools} {x y : Operand}

theorem Alike.mono (h : Alike C w x y) (hw : w.Grows w') : Alike C w' x y :=
  fun r hr => h r (hr.of_grows hw)

theorem alike_func {i : Nat} (hi : C.known i) :
    Alike C w (.const (.func i t)) (.const (.func (C.place i) t)) :=
  fun _ hr => by rw [Operand.relocate, Const.relocate, hr.func i hi]

/-! ## States -/

/-- Two slots of the two runs. -/
structure SlotAlike (C : Course) (w : Pools) (p q : Int × Slot) : Prop where
  id : q.1 = p.1
  elem : q.2.elem = p.2.elem
  address : Alike C w p.2.address q.2.address

/-- Two functions under construction. -/
def FuncAlike (C : Course) (w : Pools) (f f' : Func) : Prop :=
  ∀ r, Suits C w r → f' = f.relocate r

/-- Both runs go by what is settled and have met the literals of two pools. -/
structure Level (C : Course) (w : Pools) (s s' : State) : Prop where
  left : Settled C.names C.env.program C.plan C.left s
  right : Settled C.names C.env'.program C.plan C.right s'
  met : s.literals = w.left
  met' : s'.literals = w.right

/-- Both runs have come to the same point of a function. -/
structure Abreast (C : Course) (w : Pools) (s s' : State) : Prop extends Level C w s s' where
  func : ∃ f f', s.module.funcs[s.func]? = some f ∧ s'.module.funcs[s'.func]? = some f' ∧
    FuncAlike C w f f'
  block : s'.block = s.block
  blockCount : s'.blockCount = s.blockCount
  slots : List.Forall₂ (SlotAlike C w) s.slots s'.slots

/-- In a pool, the bytes of a literal are at one place. -/
theorem Pooled.mem {tables : Nat} {s : State} (h : Pooled tables s) {bytes : ByteArray}
    {x : Operand} (hx : (bytes, x) ∈ s.literals) :
    x = literalOperand (tables + (s.literals.reverse.map (·.1)).idxOf bytes) bytes := by
  obtain ⟨k, hk⟩ := List.getElem?_of_mem (List.mem_reverse.mpr hx)
  obtain ⟨hxk, -⟩ := h.entries k bytes x hk
  have hnodup : (s.literals.reverse.map (·.1)).Nodup := by
    rw [List.map_reverse]
    exact List.nodup_reverse.mpr h.distinct
  have hget : (s.literals.reverse.map (·.1))[k]? = some bytes := by
    rw [List.getElem?_map, hk]
    rfl
  obtain ⟨hlt, hbytes⟩ := List.getElem?_eq_some_iff.mp hget
  have hidx := hnodup.idxOf_getElem k hlt
  rw [hbytes] at hidx
  rw [hidx]
  exact hxk

/-- There are new places that are right, whatever has been met. -/
theorem Level.exists_suits {s s' : State} (h : Level C w s s') : ∃ r, Suits C w r := by
  -- a literal goes from its number in the first run to its number in the second
  let number (i : Nat) : Nat := s.literals.reverse[i - C.plan.tables]?.elim i fun e =>
    C.plan.tables + (s'.literals.reverse.map (·.1)).idxOf e.1
  refine ⟨⟨C.place, fun i => if i < C.plan.tables then i else number i⟩, fun _ _ => rfl,
    fun i hi => if_pos hi, fun bytes x y hx hy => ?_⟩
  rw [← h.met] at hx
  rw [← h.met'] at hy
  obtain ⟨k, hk⟩ := List.getElem?_of_mem (List.mem_reverse.mpr hx)
  rw [h.right.pooled.mem hy, (h.left.pooled.entries k bytes x hk).1]
  simp only [literalOperand, Operand.relocate, Const.relocate,
    Const.relocate.relocateAll, Const.i32,
    number, Nat.add_sub_cancel_left, hk, Option.elim_some]
  rw [if_neg (by omega)]

theorem Suits.ty (hr : Suits C w r) (hxy : Alike C w x y) : y.ty = x.ty := by
  rw [hxy r hr, Ir.Operand.ty_relocate]

/-- Lists of operands that are alike, one by one. -/
abbrev AllAlike (C : Course) (w : Pools) (xs ys : List Operand) : Prop :=
  List.Forall₂ (Alike C w) xs ys

section AllAlike

variable {xs ys : List Operand}

theorem Suits.map_relocate (hr : Suits C w r) (hxy : AllAlike C w xs ys) :
    ys = xs.map (·.relocate r) := by
  induction hxy with
  | nil => rfl
  | cons hx _ ih => rw [List.map_cons, ← ih, hx r hr]

theorem Suits.indexInfo (hr : Suits C w r) (hxy : AllAlike C w xs ys) :
    ys.map (·.indexInfo) = xs.map (·.indexInfo) := by
  rw [hr.map_relocate hxy, List.map_map]
  exact List.map_congr_left fun x _ => x.indexInfo_relocate

end AllAlike

/-! ## Parts in step -/

section Rules

variable {α β γ δ : Type}

/-- What a part of the first run does, a part of the second one does as well; neither meets
new literals. -/
def InStep (C : Course) (w : Pools) (x : Build α) (y : Build β) (V : α → β → Prop) : Prop :=
  ∀ ⦃s s' : State⦄ ⦃a : α⦄ ⦃t : State⦄, Abreast C w s s' → x C.env s = .ok a t →
    ∃ b t', y C.env' s' = .ok b t' ∧ Abreast C w t t' ∧ V a b

/-- What a part of the first run does, a part of the second one does as well. -/
def Onward (C : Course) (w : Pools) (x : Build α) (y : Build β) (V : Pools → α → β → Prop) : Prop :=
  ∀ ⦃s s' : State⦄ ⦃a : α⦄ ⦃t : State⦄, Abreast C w s s' → x C.env s = .ok a t →
    ∃ w' b t', y C.env' s' = .ok b t' ∧ w.Grows w' ∧ Abreast C w' t t' ∧ V w' a b

variable {x : Build α} {y : Build β} {k : α → Build γ} {k' : β → Build δ}
variable {V : α → β → Prop} {W : γ → δ → Prop} {V' : Pools → α → β → Prop}
variable {W' : Pools → γ → δ → Prop}

theorem InStep.pure {a : α} {b : β} (h : V a b) : InStep C w (pure a) (pure b) V := by
  intro s s' a' t hs hrun
  obtain ⟨rfl, rfl⟩ := pure_ok hrun
  exact ⟨b, s', rfl, hs, h⟩

/-- Nothing has to match a part that fails. -/
theorem InStep.throw {e : Fault} : InStep C w (throw e) y V :=
  fun _ _ _ _ _ hrun => absurd hrun throw_ne_ok

theorem InStep.bind (hx : InStep C w x y V) (hk : ∀ {a b}, V a b → InStep C w (k a) (k' b) W) :
    InStep C w (x >>= k) (y >>= k') W := by
  intro s s' c t hs hrun
  obtain ⟨a, s1, hrun1, hrun2⟩ := bind_ok hrun
  obtain ⟨b, s1', hrun1', hs1, hab⟩ := hx hs hrun1
  obtain ⟨d, t', hrun2', ht, hcd⟩ := hk hab hs1 hrun2
  exact ⟨d, t', (bind_of_ok hrun1').trans hrun2', ht, hcd⟩

theorem InStep.imp {V' : α → β → Prop} (hx : InStep C w x y V) (h : ∀ {a b}, V a b → V' a b) :
    InStep C w x y V' := by
  intro s s' a t hs hrun
  obtain ⟨b, t', hrun', ht, hab⟩ := hx hs hrun
  exact ⟨b, t', hrun', ht, h hab⟩

/-- What is required in the first run is there in the second as well. -/
theorem InStep.require {o : Option α} {o' : Option β}
    (h : ∀ a, o = some a → ∃ b, o' = some b ∧ V a b) : InStep C w (require o) (require o') V := by
  intro s s' a t hs hrun
  obtain ⟨ho, rfl⟩ := require_ok hrun
  obtain ⟨b, rfl, hab⟩ := h a ho
  exact ⟨b, s', rfl, hs, hab⟩

theorem InStep.program {k : Program → Build γ} {k' : Program → Build δ}
    (h : InStep C w (k C.env.program) (k' C.env'.program) W) :
    InStep C w (getProgram >>= k) (getProgram >>= k') W := h

theorem InStep.read {k : Env → Build γ} {k' : Env → Build δ}
    (h : InStep C w (k C.env) (k' C.env') W) : InStep C w (read >>= k) (read >>= k') W := h

theorem InStep.get {k : State → Build γ} {k' : State → Build δ}
    (hk : ∀ s s', Abreast C w s s' → InStep C w (k s) (k' s') W) :
    InStep C w (get >>= k) (get >>= k') W :=
  fun s s' _ _ hs hrun => hk s s' hs hs hrun

/-- As two runs have come so far, there are new places that are right. -/
theorem InStep.ofSuits (h : ∀ r, Suits C w r → InStep C w x y V) : InStep C w x y V := by
  intro s s' a t hs hrun
  obtain ⟨r, hr⟩ := hs.exists_suits
  exact h r hr hs hrun

theorem InStep.onward (h : InStep C w x y V) (hV : ∀ a b, V a b → V' w a b) :
    Onward C w x y V' := by
  intro s s' a t hs hrun
  obtain ⟨b, t', hrun', ht, hab⟩ := h hs hrun
  exact ⟨w, b, t', hrun', .refl w, ht, hV a b hab⟩

/-- A part without literals comes first. -/
theorem InStep.then (hx : InStep C w x y V) (hk : ∀ {a b}, V a b → Onward C w (k a) (k' b) W') :
    Onward C w (x >>= k) (y >>= k') W' := by
  intro s s' c t hs hrun
  obtain ⟨a, s1, hrun1, hrun2⟩ := bind_ok hrun
  obtain ⟨b, s1', hrun1', hs1, hab⟩ := hx hs hrun1
  obtain ⟨w', d, t', hrun2', hw, ht, hcd⟩ := hk hab hs1 hrun2
  exact ⟨w', d, t', (bind_of_ok hrun1').trans hrun2', hw, ht, hcd⟩

theorem Onward.throw {e : Fault} : Onward C w (throw e) y V' :=
  fun _ _ _ _ _ hrun => absurd hrun throw_ne_ok

theorem Onward.bind (hx : Onward C w x y V')
    (hk : ∀ {a b} w', w.Grows w' → V' w' a b → Onward C w' (k a) (k' b) W') :
    Onward C w (x >>= k) (y >>= k') W' := by
  intro s s' c t hs hrun
  obtain ⟨a, s1, hrun1, hrun2⟩ := bind_ok hrun
  obtain ⟨w1, b, s1', hrun1', hw1, hs1, hab⟩ := hx hs hrun1
  obtain ⟨w2, d, t', hrun2', hw2, ht, hcd⟩ := hk w1 hw1 hab hs1 hrun2
  exact ⟨w2, d, t', (bind_of_ok hrun1').trans hrun2', hw1.trans hw2, ht, hcd⟩

theorem Onward.read {k : Env → Build γ} {k' : Env → Build δ}
    (h : Onward C w (k C.env) (k' C.env') W') : Onward C w (read >>= k) (read >>= k') W' := h

end Rules

/-! ## Found by shape -/

/-- What is known of a value that is the same in both runs. -/
class Lore (α : Type) where
  Known : Course → α → Prop

/-- How the values that two runs come to belong together. -/
class Likeness (α : Type) where
  Like : Course → Pools → α → α → Prop
  mono {C w w' a b} : w.Grows w' → Like C w a b → Like C w' a b

section Shape

variable {α γ : Type} {H G : Prop}

instance (priority := low) Lore.nothing : Lore α := ⟨fun _ _ => True⟩
instance (priority := low) Likeness.same [Lore α] : Likeness α :=
  ⟨fun C _ a b => a = b ∧ Lore.Known C a, fun _ h => h⟩
instance : Likeness Operand := ⟨Alike, fun hw h => h.mono hw⟩
instance : Likeness (List Operand) := ⟨AllAlike, fun hw h => h.imp fun _ _ h => h.mono hw⟩
instance : Likeness Func := ⟨FuncAlike, fun hw h r hr => h r (hr.of_grows hw)⟩
instance : Likeness Term :=
  ⟨fun C w t t' => ∀ r, Suits C w r → t' = t.relocate r, fun hw h r hr => h r (hr.of_grows hw)⟩
instance : Likeness Op :=
  ⟨fun C w o o' => ∀ r, Suits C w r → o' = o.relocate r, fun hw h r hr => h r (hr.of_grows hw)⟩

abbrev Learnt [Lore α] (C : Course) (H : Prop) (a : α) : Prop := Granted H (Lore.Known C a)

abbrev Similar [Likeness α] (C : Course) (w : Pools) (H : Prop) (a b : α) : Prop :=
  Granted H (Likeness.Like C w a b)

/-- `InStep` as a class, so that it is found by the shape of a part. -/
class Parallel [Likeness α] (C : Course) (w : Pools) (H : Prop) (x y : Build α) : Prop where
  inStep : H → InStep C w x y (Likeness.Like C w)

instance (priority := low) [Likeness α] {a b : α} [h : Similar C w H a b] :
    Similar C w' (w.Grows w' ∧ H) a b :=
  ⟨fun hH => Likeness.mono hH.1 (h.grant hH.2)⟩

instance {a : α} : Granted H (@Lore.Known α .nothing C a) := ⟨fun _ => trivial⟩
instance [Lore α] {a : α} [h : Learnt C H a] : @Similar α .same C w H a a :=
  ⟨fun hH => ⟨rfl, h.grant hH⟩⟩

instance [Likeness α] {c : Prop} [Decidable c] {a b a' b' : α} [Similar C w H a b]
    [Similar C w H a' b'] : Similar C w H (if c then a else a') (if c then b else b') := by
  split <;> infer_instance

section Operands

variable {n : Int} {i b b' : Nat} {xs ys : List Operand}

instance : Similar C w H (Operand.i32 n) (.i32 n) := ⟨fun _ _ _ => rfl⟩
instance : Similar C w H (Operand.i64 n) (.i64 n) := ⟨fun _ _ _ => rfl⟩
instance {f f' : Func} [h : Similar C w H f f'] :
    Similar C w H (Operand.reg f.nextReg t) (.reg f'.nextReg t) :=
  ⟨fun hH r hr => by rw [h.grant hH r hr, Ir.Func.nextReg_relocate]; rfl⟩
instance : Similar C w H (Operand.param i t) (.param i t) := ⟨fun _ _ _ => rfl⟩
instance : Similar C w H voidValue voidValue := ⟨fun _ _ _ => rfl⟩
instance : Similar C w H (Operand.const (.int i n)) (.const (.int i n)) := ⟨fun _ _ _ => rfl⟩
instance {b : Bool} : Similar C w H (Operand.const (.bool b)) (.const (.bool b)) :=
  ⟨fun _ _ _ => rfl⟩
instance : Similar C w H (Operand.const (.undef t)) (.const (.undef t)) := ⟨fun _ _ _ => rfl⟩
instance : Similar C w H (Operand.const (sizeOf t)) (.const (sizeOf t)) := ⟨fun _ _ _ => rfl⟩

instance (f : RuntimeFunc) : Similar C w H f.operand f.operand := by
  have halike := alike_func (w := w) (t := f.declaration.signature) (C.runtime _ f.position_lt)
  rw [ProgramPair.place, behind_of_lt _ f.position_lt] at halike
  exact ⟨fun _ => halike⟩

instance : Similar C w H ([] : List Operand) [] := ⟨fun _ => .nil⟩
instance [hx : Similar C w H x y] [hxs : Similar C w H xs ys] : Similar C w H (x :: xs) (y :: ys) :=
  ⟨fun hH => .cons (hx.grant hH) (hxs.grant hH)⟩

instance : Similar C w H Term.unreachable .unreachable := ⟨fun _ _ _ => rfl⟩
instance : Similar C w H (Term.ret none) (.ret none) := ⟨fun _ _ _ => rfl⟩
instance : Similar C w H (Term.br (.block b)) (.br (.block b)) := ⟨fun _ _ _ => rfl⟩
instance [h : Similar C w H x y] : Similar C w H (Term.ret (some x)) (.ret (some y)) :=
  ⟨fun hH r hr => by rw [h.grant hH r hr]; rfl⟩
instance [h : Similar C w H x y] : Similar C w H (Term.condBr x (.block b) (.block b'))
    (.condBr y (.block b) (.block b')) :=
  ⟨fun hH r hr => by rw [h.grant hH r hr]; rfl⟩

end Operands

namespace Parallel

variable [Likeness γ] {x y : Build α} {x' y' z z' : Build γ} {k k' : α → Build γ}

instance (priority := high) {v : Violation} : Parallel C w H (violation v >>= k) y' :=
  ⟨fun _ => .throw⟩
instance {v : Violation} : Parallel C w H (violation v) y' := ⟨fun _ => .throw⟩
instance : Parallel C w H crash y' := ⟨fun _ => .throw⟩
instance {a b : γ} [h : Similar C w H a b] : Parallel C w H (pure a) (pure b) :=
  ⟨fun hH => .pure (h.grant hH)⟩

theorem bind [Likeness α] [hx : Parallel C w H x y]
    (hk : ∀ a b, Parallel C w (Likeness.Like C w a b ∧ H) (k a) (k' b)) :
    Parallel C w H (x >>= k) (y >>= k') :=
  ⟨fun hH => (hx.inStep hH).bind fun h => (hk _ _).inStep ⟨h, hH⟩⟩

/-- Both parts give one value, of which something is known. -/
theorem bindSame [Lore α] [hx : @Parallel α .same C w H x y]
    (hk : ∀ a, Parallel C w (Lore.Known C a ∧ H) (k a) (k' a)) :
      Parallel C w H (x >>= k) (y >>= k') :=
  ⟨fun hH => (hx.inStep hH).bind fun ⟨heq, ha⟩ => heq ▸ (hk _).inStep ⟨ha, hH⟩⟩

instance [Lore α] [@Parallel α .same C w H x y]
    [hk : ∀ a, Parallel C w (Lore.Known C a ∧ H) (k a) (k' a)] :
      Parallel C w H (x >>= k) (y >>= k') :=
  bindSame hk

instance (priority := low) [Likeness α] [Parallel C w H x y]
    [hk : ∀ a b, Parallel C w (Likeness.Like C w a b ∧ H) (k a) (k' b)] :
    Parallel C w H (x >>= k) (y >>= k') :=
  bind hk

theorem ite {c : Prop} [Decidable c] (hx : Parallel C w H x' y') (hz : Parallel C w H z z') :
    Parallel C w H (if c then x' else z) (if c then y' else z') :=
  by split <;> assumption

instance {c : Prop} [Decidable c] [hx : Parallel C w H x' y'] [hz : Parallel C w H z z'] :
    Parallel C w H (if c then x' else z) (if c then y' else z') :=
  ite hx hz

/-- What is known may be used. -/
theorem ofKnown (h : H → Parallel C w H x' y') : Parallel C w H x' y' :=
  ⟨fun hH => (h hH).inStep hH⟩

/-- More may be known. -/
theorem weaken (h : Parallel C w H x' y') (G : Prop) [hG : Granted G H] : Parallel C w G x' y' :=
  ⟨fun hg => h.inStep (hG.grant hg)⟩

theorem weakenBody [Likeness α] (h : ∀ a b, Parallel C w (Likeness.Like C w a b ∧ H) (k a) (k' b))
    (G : Prop) (a b : α) [hG : Granted G H]
    [hab : Similar C w G a b] : Parallel C w G (k a) (k' b) :=
  ⟨fun hg => (h a b).inStep ⟨hab.grant hg, hG.grant hg⟩⟩

/-- The program is read, of which only what is the same in both runs matters. -/
theorem program {k k' : Program → Build γ} (hk : k' C.env'.program = k' C.env.program)
    (h : Parallel C w H (k C.env.program) (k' C.env.program)) :
    Parallel C w H (getProgram >>= k) (getProgram >>= k') :=
  ⟨fun hH => .program (hk ▸ h.inStep hH)⟩

theorem get {k k' : State → Build γ}
    (hk : ∀ s s', Abreast C w s s' → Parallel C w H (k s) (k' s')) :
    Parallel C w H (get >>= k) (get >>= k') :=
  ⟨fun hH => .get fun s s' hs => (hk s s' hs).inStep hH⟩

theorem requireSame {o : Option α} (hk : ∀ a, o = some a → Parallel C w H (k a) (k' a)) :
    Parallel C w H (require o >>= k) (require o >>= k') := by
  cases o with
  | none => exact ⟨fun _ => .throw⟩
  | some a => exact hk a rfl

/-- As two runs have come so far, there are new places that are right. -/
theorem ofSuits (h : ∀ r, Suits C w r → H → Parallel C w H x' y') : Parallel C w H x' y' :=
  ⟨fun hH => .ofSuits fun r hr => (h r hr hH).inStep hH⟩

/-- What both programs settle the same way. -/
theorem ofEven (h : Even C.names C.env C.env' x y) :
    @Parallel α (@Likeness.same α .nothing) C w H x y := by
  refine ⟨fun _ s s' a t hs hrun => ?_⟩
  obtain ⟨o, hx, hy⟩ := h
  obtain ⟨rfl, layouts, hl, rfl⟩ := hx.ok hs.left.layouts hrun
  obtain ⟨b, layouts', heq, hl', hrun'⟩ | ⟨hnone, -⟩ := hy hs.right.layouts
  · have hboth : Abreast C w _ _ :=
      { hs with left := hs.left.withLayouts hl, right := hs.right.withLayouts hl' }
    exact ⟨b, _, hrun', hboth, Option.some.inj heq, trivial⟩
  · cases hnone

end Parallel

instance {o : Option α} : @Parallel α (@Likeness.same α .nothing) C w H (require o) (require o) :=
  ⟨fun _ => .require fun a h => ⟨a, h, rfl, trivial⟩⟩

end Shape

/-! ## Blocks -/

variable {H : Prop}

/-- The function under construction is changed alike. -/
theorem parallel_modifyFunc {g g' : Func → Func} (hg : ∀ f, headOf (g f) = headOf f)
    (hg' : ∀ f, headOf (g' f) = headOf f)
    (h : H → ∀ r, Suits C w r → ∀ f, g' (f.relocate r) = (g f).relocate r) :
    Parallel C w H (modifyFunc g) (modifyFunc g') := by
  refine ⟨fun hH s s' a t hs hrun => ⟨(), _, rfl, ?_, rfl, trivial⟩⟩
  rw [modify_ok hrun]
  obtain ⟨f, f', hf, hf', halike⟩ := hs.func
  exact { hs with
    left := hs.left.modifyFunc _ hg
    right := hs.right.modifyFunc _ hg'
    func := by
      refine ⟨g f, g' f', ?_, ?_, fun r hr => ?_⟩
      · simp [Array.getElem?_modify, hf]
      · simp [Array.getElem?_modify, hf']
      · rw [halike r hr, h hH r hr] }

instance : Parallel C w H currentFunc currentFunc := by
  refine ⟨fun _ => .get fun s s' hs => .require fun f hf => ?_⟩
  obtain ⟨f0, f', hf0, hf', halike⟩ := hs.func
  obtain rfl := Option.some.inj (hf0.symm.trans hf)
  exact ⟨f', hf', halike⟩

/-- What is read off the function under construction does not depend on places. -/
theorem Parallel.currentFunc {α : Type} [Likeness α] {k k' : Func → Build α}
    (hk : ∀ r f, Parallel C w H (k f) (k' (f.relocate r))) :
    Parallel C w H (Lowering.currentFunc >>= k) (Lowering.currentFunc >>= k') := by
  have hfunc : Parallel C w H Lowering.currentFunc Lowering.currentFunc := inferInstance
  refine ⟨fun hH => (hfunc.inStep hH).bind fun {f f'} halike => .ofSuits fun r hr => ?_⟩
  rw [halike r hr]
  exact (hk r f).inStep hH

instance : Parallel C w H currentBlock currentBlock :=
  ⟨fun _ => .get fun _ _ hs => .pure ⟨hs.block.symm, trivial⟩⟩

instance {b : Nat} : Parallel C w H (setBlock b) (setBlock b) where
  inStep _ s s' a t hs hrun := by
    rw [modify_ok hrun]
    exact ⟨(), _, rfl, { hs with
      left := hs.left.at s.func b s.blockCount s.slots
      right := hs.right.at s'.func b s'.blockCount s'.slots
      block := rfl }, rfl, trivial⟩

instance : Parallel C w H terminated terminated := by
  refine ⟨fun _ => .get fun s s' hs => .pure ⟨?_, trivial⟩⟩
  obtain ⟨r, hr⟩ := hs.exists_suits
  obtain ⟨f, f', hf, hf', halike⟩ := hs.func
  rw [hf, hf', halike r hr, hs.block]
  simp

instance {name : String} : Parallel C w H (modifyFunc (·.addBlock name))
    (modifyFunc (·.addBlock name)) :=
  parallel_modifyFunc (fun _ => rfl) (fun _ => rfl) fun _ _ _ f => (f.relocate_addBlock name).symm

instance {label : String} : Parallel C w H (addBlock label) (addBlock label) := by
  refine ⟨fun hH => .get fun s s' hs => ?_⟩
  rw [hs.blockCount]
  refine InStep.bind (V := fun _ _ => True) ?_ fun _ => ?_
  · intro s s' a t hs hrun
    rw [modify_ok hrun]
    exact ⟨(), _, rfl, { hs with
      left := hs.left.at s.func s.block _ s.slots
      right := hs.right.at s'.func s'.block _ s'.slots
      blockCount := rfl }, trivial⟩
  · refine (Parallel.currentFunc fun r f => ?_).inStep hH
    rw [Ir.Func.size_relocate]
    infer_instance

instance {b : Nat} {t t' : Term} [h : Similar C w H t t'] :
    Parallel C w H (terminateBlock b t) (terminateBlock b t') :=
  parallel_modifyFunc (fun _ => rfl) (fun _ => rfl) fun hH r hr f => by
    rw [h.grant hH r hr, f.relocate_terminate]

instance {t t' : Term} [Similar C w H t t'] : Parallel C w H (terminate t) (terminate t') := by
  unfold terminate
  infer_instance

/-! ## Instructions -/

instance {b : Nat} {name : String} {op op' : Op} [h : Similar C w H op op'] :
    Parallel C w H (emitTo b name t op) (emitTo b name t op') := by
  have hpush : Parallel C w H (modifyFunc (·.push b name t op))
    (modifyFunc (·.push b name t op')) :=
    parallel_modifyFunc (fun _ => rfl) (fun _ => rfl) fun hH r hr f => by
      rw [h.grant hH r hr, f.relocate_push]
  have := hpush.weaken
  unfold emitTo
  infer_instance

instance {op op' : Op} [Similar C w H op op'] : Parallel C w H (emit t op) (emit t op') := by
  unfold emit
  infer_instance

instance : Similar C w H (Op.alloca t) (.alloca t) := ⟨fun _ _ _ => rfl⟩

instance {name : String} : Parallel C w H (entryAlloca t name) (entryAlloca t name) := by
  unfold entryAlloca
  infer_instance

instance : Parallel C w H typeDefs typeDefs :=
  ⟨fun _ => .get fun _ _ hs => .pure ⟨hs.left.types.trans hs.right.types.symm, trivial⟩⟩

section Instructions

variable {x' y' : Operand} {xs ys : List Operand} {i b : Nat} {c : Ir.Comparison}
variable [h : Similar C w H x y]

instance : Similar C w H (Op.load t x) (.load t y) := ⟨fun hH r hr => by rw [h.grant hH r hr]; rfl⟩

instance {c : Ir.Cast} : Similar C w H (Op.cast c x t) (.cast c y t) :=
  ⟨fun hH r hr => by rw [h.grant hH r hr]; rfl⟩

instance : Similar C w H (Op.extract x [i]) (.extract y [i]) :=
  ⟨fun hH r hr => by rw [h.grant hH r hr]; rfl⟩

instance : Parallel C w H (emitLoad t x) (emitLoad t y) := by
  unfold emitLoad
  infer_instance

instance : Parallel C w H (emitBitcast x t) (emitBitcast y t) := by
  unfold emitBitcast
  infer_instance

instance : Parallel C w H (emitTrunc x t) (emitTrunc y t) := by
  refine .ofSuits fun r hr hH => ?_
  unfold emitTrunc
  rw [hr.ty (h.grant hH)]
  infer_instance

instance : Parallel C w H (emitExtract x i) (emitExtract y i) := by
  refine .ofSuits fun r hr hH => ?_
  unfold emitExtract
  rw [hr.ty (h.grant hH)]
  infer_instance

section Many

variable [hs : Similar C w H xs ys]

instance : Similar C w H (Op.gep t x xs) (.gep t y ys) :=
  ⟨fun hH r hr => by rw [h.grant hH r hr, hr.map_relocate (hs.grant hH)]; rfl⟩

instance : Similar C w H (Op.call x xs) (.call y ys) :=
  ⟨fun hH r hr => by rw [h.grant hH r hr, hr.map_relocate (hs.grant hH)]; rfl⟩

instance : Parallel C w H (emitGep t x xs) (emitGep t y ys) := by
  refine .ofSuits fun r hr hH => ?_
  unfold emitGep
  rw [hr.ty (h.grant hH), hr.indexInfo (hs.grant hH)]
  infer_instance

instance : Parallel C w H (emitCallFrom b x xs) (emitCallFrom b y ys) := by
  refine .ofSuits fun r hr hH => ?_
  unfold emitCallFrom
  rw [hr.ty (h.grant hH)]
  infer_instance

instance : Parallel C w H (emitCall x xs) (emitCall y ys) := by
  unfold emitCall
  infer_instance

end Many

section Two

variable [h' : Similar C w H x' y']

instance : Similar C w H (Op.store x x') (.store y y') :=
  ⟨fun hH r hr => by rw [h.grant hH r hr, h'.grant hH r hr]; rfl⟩

instance : Similar C w H (Op.icmp c x x') (.icmp c y y') :=
  ⟨fun hH r hr => by rw [h.grant hH r hr, h'.grant hH r hr]; rfl⟩

instance {op : Ir.BinOp} : Similar C w H (Op.bin op x x') (.bin op y y') :=
  ⟨fun hH r hr => by rw [h.grant hH r hr, h'.grant hH r hr]; rfl⟩

instance : Similar C w H (Op.insert x x' [i]) (.insert y y' [i]) :=
  ⟨fun hH r hr => by rw [h.grant hH r hr, h'.grant hH r hr]; rfl⟩

instance : Parallel C w H (emitStore x x') (emitStore y y') := by
  refine .ofSuits fun r hr hH => ?_
  unfold emitStore
  rw [hr.ty (h.grant hH), hr.ty (h'.grant hH)]
  split <;> infer_instance

instance : Parallel C w H (emitCompareFrom b c x x') (emitCompareFrom b c y y') := by
  refine .ofSuits fun r hr hH => ?_
  unfold emitCompareFrom
  rw [hr.ty (h.grant hH)]
  infer_instance

instance : Parallel C w H (emitCompare c x x') (emitCompare c y y') := by
  unfold emitCompare
  infer_instance

instance {op : Ir.BinOp} : Parallel C w H (emitBin op x x') (emitBin op y y') := by
  refine .ofSuits fun r hr hH => ?_
  unfold emitBin
  rw [hr.ty (h.grant hH)]
  infer_instance

instance : Parallel C w H (emitInsert x x' i) (emitInsert y y' i) := by
  refine .ofSuits fun r hr hH => ?_
  unfold emitInsert
  rw [hr.ty (h.grant hH), hr.ty (h'.grant hH)]
  infer_instance

end Two

end Instructions

/-- The address of a function, at its place in either run. -/
theorem parallel_funcOperand {i : Nat} (hi : C.known i) :
    Parallel C w H (funcOperand i) (funcOperand (C.place i)) := by
  refine ⟨fun _ => .get fun s s' hs => ?_⟩
  refine InStep.bind (V := fun f f' => f'.signature = f.signature) (.require fun f hf => ?_)
    fun heq => .pure (heq ▸ alike_func hi)
  have hleft := hs.left.heads i
  have hright := hs.right.heads (C.place i)
  rw [C.heads, ← hleft, hf] at hright
  obtain ⟨f', hf', heq⟩ := Option.map_eq_some_iff.mp hright
  exact ⟨f', hf', congrArg Prod.snd heq⟩

end Tenure.Lowering

import Tenure.Proofs.Slotless

/-!
# Parts of lowering

Some things are so of nearly all parts of lowering: they leave the table of open locals
as it was, they make no stack slots, and they refuse nothing for the sake of a name or
a local.  Such a property is `Inherited`: what is made of parts with it has it.  This
file follows the functions of lowering once, for all inherited properties.

Where a function looks something up, whether it has the property may depend on what is
there; then its users have it if the lookup does.  Properties that no lookup can spoil
are `Calm`.
-/

namespace Tenure.Lowering

open Ir (Ty Const Operand Op Term Func)

/-! ## Concerns -/

/-- What violations are about. -/
inductive Concern where
  /-- what is mentioned is not there -/
  | names
  /-- a local is opened twice, or used while it is not open -/
  | locals
deriving DecidableEq

/-- What a violation is about, if it is one of the concerns. -/
@[reducible]
def Violation.concern? : Violation → Option Concern
  | .unresolvedProgram | .unrecognizedExpr | .unresolvedStruct _ | .unresolvedInterface _
  | .missingReferend | .noMember _ _ | .noMethod _ _ | .unhandledOwnership _
  | .cannotImplement _ _ => some .names
  | .openedTwice _ _ | .notOpen _ _ => some .locals
  | _ => none

/-- Nothing is a concern here.  As a class, it is found by the shape of a violation. -/
class Aside (o : Option Concern) : Prop where
  none : o = none

instance : Aside none := ⟨rfl⟩

-- the instances of this file are found part by part, which takes a longer search
set_option synthInstance.maxSize 512

/-! ## Inherited properties -/

/-- The function under construction makes no stack slot. -/
def Unslotted (s : State) : Prop := ∀ f, s.module.funcs[s.func]? = some f → f.Slotless

/-- A change of the state that neither opens nor closes a local nor makes a stack slot. -/
structure Slight (g : State → State) : Prop where
  slots : ∀ s, (g s).slots = s.slots
  unslotted : ∀ s, Unslotted s → Unslotted (g s)

/-- A property that a part of lowering has from the parts that it is made of. -/
class Inherited (P : (α : Type) → Build α → Prop) : Prop where
  pure : ∀ {α : Type} (a : α), P α (pure a)
  bind : ∀ {α β : Type} {x : Build α} {k : α → Build β}, P α x → (∀ a, P β (k a)) → P β (x >>= k)
  crash : ∀ {α : Type}, P α crash
  violation : ∀ {α : Type} {v : Violation}, v.concern? = none → P α (violation v)
  get : P State get
  read : P Env read
  modify : ∀ {g : State → State}, Slight g → P PUnit (modify g)
  releasing : ∀ {α : Type} {h : Held} {body : Build α}, P α body →
    P Unit (do if !(← terminated) then discard h) → P α (releasing h body)

/-- An inherited property that all lookups have. -/
class Calm (P : (α : Type) → Build α → Prop) : Prop extends Inherited P where
  quiet : ∀ {α : Type} {x : Build α}, Quiet x → P α x

/-- A part of lowering has a property. -/
class Shows (P : (α : Type) → Build α → Prop) {α : Type} (x : Build α) : Prop where
  shows : P α x

variable {P : (α : Type) → Build α → Prop} {α β : Type} {k : α → Build β} {xs : List Operand}
variable {i : Nat} {rs : List Result} {t : Ty}

theorem Quiet.shows [Calm P] {x : Build α} (h : Quiet x) : Shows P x := ⟨Calm.quiet h⟩

section Inherited

variable [Inherited P] {x y : Operand} {r : Reference}

instance {a : α} : Shows P (pure a : Build α) := ⟨Inherited.pure a⟩

/-- One part is taken, and the others are left. -/
theorem Shows.step {x : Build α} [Shows P x] (hk : ∀ a, Shows P (k a)) : Shows P (x >>= k) :=
  ⟨Inherited.bind Shows.shows fun a => (hk a).shows⟩

instance {x : Build α} [Shows P x] [∀ a, Shows P (k a)] : Shows P (x >>= k) :=
  .step inferInstance

instance : Shows P (crash : Build α) := ⟨Inherited.crash⟩

/-- A violation that is about neither concern. -/
instance {v : Violation} [h : Aside v.concern?] : Shows P (violation v : Build α) :=
  ⟨Inherited.violation h.none⟩

instance {p : Prop} [Decidable p] {x y : Build α} [Shows P x] [Shows P y] :
    Shows P (if p then x else y) := by
  split <;> infer_instance

instance : Shows P (get : Build State) := ⟨Inherited.get⟩

instance : Shows P (read : Build Env) := ⟨Inherited.read⟩

instance {o : Option α} : Shows P (require o) := by
  cases o
  · exact inferInstanceAs (Shows P crash)
  · exact inferInstanceAs (Shows P (pure _))

theorem Shows.mapM {xs : List α} (hk : ∀ a ∈ xs, Shows P (k a)) : Shows P (xs.mapM k) := by
  induction xs with
  | nil => exact inferInstanceAs (Shows P (pure _))
  | cons x xs ih =>
    rw [List.mapM_cons]
    have := hk x (by simp)
    have := ih fun a ha => hk a (by simp [ha])
    infer_instance

instance {xs : List α} [∀ a, Shows P (k a)] : Shows P (xs.mapM k) :=
  Shows.mapM fun _ _ => inferInstance

theorem Shows.forIn {xs : List α} {k : α → PUnit → Build (ForInStep PUnit)}
    (hk : ∀ a ∈ xs, ∀ u, Shows P (k a u)) : Shows P (forIn xs PUnit.unit k) := by
  induction xs with
  | nil =>
    rw [List.forIn_nil]
    infer_instance
  | cons x xs ih =>
    rw [List.forIn_cons]
    have := hk x (by simp)
    have := ih fun a ha => hk a (by simp [ha])
    refine .step fun r => ?_
    cases r <;> infer_instance

instance {xs : List α} {k : α → PUnit → Build (ForInStep PUnit)} [∀ a u, Shows P (k a u)] :
    Shows P (forIn xs PUnit.unit k) :=
  Shows.forIn fun _ _ _ => inferInstance

/-! ## What is there -/

instance : Shows P getProgram := inferInstanceAs (Shows P (_ >>= _))

instance : Shows P currentFunc := by
  unfold currentFunc
  infer_instance

instance : Shows P currentBlock := inferInstanceAs (Shows P (_ >>= _))

instance : Shows P typeDefs := inferInstanceAs (Shows P (_ >>= _))

instance : Shows P terminated := by
  unfold terminated
  infer_instance

instance : Shows P (structAt i) := by
  unfold structAt
  infer_instance

instance : Shows P (interfaceAt i) := by
  unfold interfaceAt
  infer_instance

instance {id : Int} {n : Nat} : Shows P (ownIndex id n) := by
  unfold ownIndex
  infer_instance

instance {d : StructDef} : Shows P (structOwnIndex d) := by
  unfold structOwnIndex
  infer_instance

instance : Shows P nestingFuel := inferInstanceAs (Shows P (_ >>= _))

instance {h : Held} : Shows P h.reference := inferInstanceAs (Shows P (require _))

instance {r : Result} : Shows P (use r) := by
  cases r
  · exact inferInstanceAs (Shows P (violation _))
  · exact inferInstanceAs (Shows P (pure _))

instance : Shows P (useAll rs) := inferInstanceAs (Shows P (rs.mapM _))

instance {d : InterfaceDef} {m : Prototype} : Shows P (receiverIndex d m) := by
  have hfind : ∀ (p : Program) (ts : List (Option Reference)) (i : Nat),
      Shows P (receiverIndex.find d m p i ts) := by
    intro p ts
    induction ts with
    | nil =>
      intro i
      unfold receiverIndex.find
      infer_instance
    | cons t ts ih =>
      intro i
      unfold receiverIndex.find
      refine .step fun r => ?_
      split <;> infer_instance
  unfold receiverIndex
  infer_instance

instance {o : Option Callee} : Shows P (signatureOf o) := by
  unfold signatureOf
  infer_instance

/-! ## Edits -/

/-- What does not touch the code is slight if it does not touch the open locals. -/
theorem Slight.aside {g : State → State} (hslots : ∀ s, (g s).slots = s.slots)
    (hfuncs : ∀ s, (g s).module.funcs = s.module.funcs) (hfunc : ∀ s, (g s).func = s.func) :
    Slight g := by
  refine ⟨hslots, fun s hs f hf => hs f ?_⟩
  rwa [hfuncs, hfunc] at hf

theorem shows_modifyFunc {g : Func → Func} (hg : ∀ f, f.Slotless → (g f).Slotless) :
    Shows P (modifyFunc g) := by
  refine ⟨Inherited.modify ⟨fun _ => rfl, fun s hs f hf => ?_⟩⟩
  simp only [Array.getElem?_modify, if_true, Option.map_eq_some_iff] at hf
  obtain ⟨f0, hf0, rfl⟩ := hf
  exact hg f0 (hs f0 hf0)

instance {b : Nat} : Shows P (setBlock b) :=
  ⟨Inherited.modify (.aside (fun _ => rfl) (fun _ => rfl) fun _ => rfl)⟩

instance {n : String} : Shows P (addBlock n) := by
  have : ∀ k, Shows P (modify fun s => { s with blockCount := k } : Build PUnit) :=
    fun _ => ⟨Inherited.modify (.aside (fun _ => rfl) (fun _ => rfl) fun _ => rfl)⟩
  have : ∀ label, Shows P (modifyFunc (·.addBlock label)) := fun _ =>
    shows_modifyFunc fun _ h => h.addBlock
  unfold addBlock
  infer_instance

instance {b : Nat} {t : Term} : Shows P (terminateBlock b t) :=
  shows_modifyFunc fun _ h => h.terminate

instance {t : Term} : Shows P (terminate t) := by
  unfold terminate
  infer_instance

theorem shows_emitTo {b : Nat} {n : String} {op : Op} (hop : op.isAlloca = false) :
    Shows P (emitTo b n t op) := by
  have : Shows P (modifyFunc (·.push b n t op)) := shows_modifyFunc fun _ h => h.push hop
  unfold emitTo
  infer_instance

theorem shows_emit {op : Op} (hop : op.isAlloca = false) : Shows P (emit t op) := by
  have : ∀ b, Shows P (emitTo b "" t op) := fun _ => shows_emitTo hop
  unfold emit
  infer_instance

instance : Shows P (emitLoad t x) := shows_emit rfl

instance : Shows P (emitStore x y) := by
  have : Shows P (emit .void (.store x y)) := shows_emit rfl
  unfold emitStore
  split <;> infer_instance

instance : Shows P (emitGep t x xs) := by
  have : ∀ ty, Shows P (emit ty (.gep t x xs)) := fun _ => shows_emit rfl
  unfold emitGep
  infer_instance

instance {b : Nat} : Shows P (emitCallFrom b x xs) := by
  have : ∀ t, Shows P (emitTo b "" t (.call x xs)) := fun _ => shows_emitTo rfl
  unfold emitCallFrom
  infer_instance

instance : Shows P (emitCall x xs) := by
  unfold emitCall
  infer_instance

instance {b : Nat} {c : Ir.Comparison} : Shows P (emitCompareFrom b c x y) := by
  have : Shows P (emitTo b "" .i1 (.icmp c x y)) := shows_emitTo rfl
  unfold emitCompareFrom
  infer_instance

instance {c : Ir.Comparison} : Shows P (emitCompare c x y) := by
  unfold emitCompare
  infer_instance

instance {op : Ir.BinOp} : Shows P (emitBin op x y) := shows_emit rfl

instance : Shows P (emitBitcast x t) := shows_emit rfl

instance : Shows P (emitTrunc x t) := by
  have : Shows P (emit t (.cast .trunc x t)) := shows_emit rfl
  unfold emitTrunc
  infer_instance

instance : Shows P (emitExtract x i) := by
  have : ∀ ty, Shows P (emit ty (.extract x [i])) := fun _ => shows_emit rfl
  unfold emitExtract
  infer_instance

instance : Shows P (emitInsert x y i) := by
  have : ∀ ty, Shows P (emit ty (.insert x y [i])) := fun _ => shows_emit rfl
  unfold emitInsert
  infer_instance

instance : Shows P (funcOperand i) := by
  unfold funcOperand
  infer_instance

instance {p : Prototype} : Shows P (functionFor p) := by
  unfold functionFor
  refine .step fun s => ?_
  split <;> infer_instance

instance {n : String} {c : Const} : Shows P (addGlobal n c) := by
  unfold addGlobal
  refine .step fun s => @Shows.step _ _ _ _ _ _ ?_ fun _ => inferInstance
  exact ⟨Inherited.modify (.aside (fun _ => rfl) (fun _ => rfl) fun _ => rfl)⟩

instance {bytes : ByteArray} : Shows P (literal bytes) := by
  have : ∀ x, Shows P (modify fun s => { s with literals := (bytes, x) :: s.literals } :
      Build PUnit) :=
    fun _ => ⟨Inherited.modify (.aside (fun _ => rfl) (fun _ => rfl) fun _ => rfl)⟩
  unfold literal
  refine .step fun s => ?_
  split <;> infer_instance

instance {kind : String} : Shows P (flare kind) := by
  unfold flare
  infer_instance

/-! ## Loops and arrays -/

instance {n : Operand} {body : Operand → Build Unit} [∀ i, Shows P (body i)] :
    Shows P (buildLoop n body) := by
  have : ∀ b t pairs, Shows P (emitTo b "" t (.phi pairs)) := fun _ _ _ => shows_emitTo rfl
  have : ∀ b r u v, Shows P (modifyFunc (·.addIncoming b r u v)) := fun _ _ _ _ =>
    shows_modifyFunc fun _ h => h.addIncoming
  unfold buildLoop
  -- too many parts for one search
  refine .step fun before => .step fun head => .step fun inside => .step fun after => ?_
  refine .step fun _ => .step fun g => .step fun index => .step fun more => ?_
  refine .step fun _ => .step fun _ => .step fun _ => .step fun b => ?_
  infer_instance

instance : Shows P (checkBounds x y) := by
  unfold checkBounds
  refine .step fun e => ?_
  split <;> infer_instance

section Arrays

variable [Shows P (arrayLayout r.referend)]

instance : Shows P (arrayLength x r) := by
  unfold arrayLength
  dsimp only
  split <;> infer_instance

instance : Shows P (elementPtr x r y) := by
  unfold elementPtr
  infer_instance

instance {body : Operand → Build Unit} [∀ i, Shows P (body i)] :
    Shows P (forEachElement x r body) := by
  unfold forEachElement
  infer_instance

instance : Shows P (storeElements x r i rs) := by
  induction rs generalizing i with
  | nil | cons y ys ih =>
    unfold storeElements
    infer_instance

end Arrays

/-! ## Counting -/

instance : Shows P (countPtr x r) := by
  unfold countPtr
  dsimp only
  split <;> infer_instance

instance {d : Int} : Shows P (adjustCount x r d) := by
  unfold adjustCount
  infer_instance

instance : Shows P (freeStorage x r) := by
  unfold freeStorage
  split <;> infer_instance

instance : Shows P (destroyStorage x r) := by
  unfold destroyStorage
  split <;> infer_instance

theorem shows_visitMembers {visit : Held → Build Unit} {ms : List StructMember}
    (h : ∀ m ∈ ms, ∀ y, Shows P (visit ⟨y, m.type⟩)) : Shows P (visitMembers x visit i ms) := by
  induction ms generalizing i with
  | nil =>
    unfold visitMembers
    infer_instance
  | cons m ms ih =>
    have := h m (by simp)
    have := fun i => ih (i := i) fun m hm => h m (by simp [hm])
    unfold visitMembers
    infer_instance

instance {n : Symbol} [Shows P (structIndex n)] : Shows P (dropStruct x n) := by
  unfold dropStruct
  infer_instance

instance {n : Symbol} [Shows P (interfaceIndex n)] : Shows P (dropThroughTable x n) := by
  unfold dropThroughTable
  infer_instance

instance {drop : Build Unit} [Shows P drop] : Shows P (releaseShared x r drop) := by
  unfold releaseShared
  infer_instance

instance {h : Held} {body : Build α} [Shows P body] [Shows P (discard h)] :
    Shows P (releasing h body) := by
  have : Shows P (do if !(← terminated) then discard h : Build Unit) := inferInstance
  exact ⟨Inherited.releasing Shows.shows this.shows⟩

instance : Shows P (allocObject t x) := by
  unfold allocObject
  infer_instance

/-! ## Strings and builtins -/

instance : Shows P (allocStr x) := by
  unfold allocStr
  infer_instance

instance : Shows P (strChars x) := by
  unfold strChars
  infer_instance

instance : Shows P (strLength x) := by
  unfold strLength
  infer_instance

instance {bytes : ByteArray} : Shows P (lowerLiteral bytes) := by
  unfold lowerLiteral
  infer_instance

/-- The text of a number is written to a stack slot first. -/
instance {b : Builtin} {x : Held} [Shows P (discard x)] [∀ t n, Shows P (entryAlloca t n)] :
    Shows P (b.lowerUnary x) := by
  have : Shows P (Builtin.lowerIntToStr x.value) := by
    unfold Builtin.lowerIntToStr
    infer_instance
  unfold Builtin.lowerUnary
  split <;> infer_instance

instance {b : Builtin} {x y : Held} [Shows P (discard x)] [Shows P (discard y)] :
    Shows P (b.lowerBinary x y) := by
  unfold Builtin.lowerBinary
  split <;> infer_instance

instance {ts : List (Option Reference)} : Shows P (builtinArgs rs ts) := by
  induction rs generalizing ts with
  | nil =>
    unfold builtinArgs
    infer_instance
  | cons r rs ih =>
    cases ts with
    | nil | cons t ts =>
      unfold builtinArgs
      infer_instance

/-! ## Interfaces, structs and arrays -/

instance : Shows P (makeInterfaceRef i x y) := by
  unfold makeInterfaceRef
  infer_instance

instance {edge : Nat} : Shows P (tableOperand edge) := by
  unfold tableOperand
  infer_instance

section Structs

variable [Shows P (structDef r)]

instance {i : Int} : Shows P (memberPtr x r i) := by
  unfold memberPtr
  infer_instance

instance {m : StructMember} [Shows P (lowerType m.type)] : Shows P (readMember x r i m) := by
  unfold readMember
  infer_instance

instance : Shows P (storeMembers x r i xs) := by
  induction xs generalizing i with
  | nil | cons y ys ih =>
    unfold storeMembers
    infer_instance

omit [Shows P (structDef r)] in
theorem shows_insertMembers : Shows P (insertMembers x i xs) := by
  induction xs generalizing x i with
  | nil | cons y ys ih =>
    unfold insertMembers
    infer_instance

instance {d : StructDef} : Shows P (makeStruct d r xs) := by
  have : ∀ x, Shows P (insertMembers x 0 xs) := fun _ => shows_insertMembers
  unfold makeStruct
  infer_instance

end Structs

section Functors

variable {g : Held} [Shows P (lowerType (r.referend.elem?.getD none))] [Shows P (acquire g)]
  [∀ y, Shows P (callFunctor g y)] [Shows P (arrayLayout r.referend)]

instance : Shows P (tabulate x g r) := by
  unfold tabulate
  refine .step fun layout => .step fun elem => .step fun contents => .step fun bytes => ?_
  infer_instance

instance [∀ y, Shows P (functorMethod g >>= fun t => discard ⟨y, t.2.2.result⟩)] :
    Shows P (consume x r g) := by
  have : Shows P (forEachElement x r fun address => do
      acquire g
      let elem := r.referend.elem?.getD none
      let item ← emitLoad (← lowerType elem) address
      let result ← callFunctor g item
      functorMethod g >>= fun t => discard ⟨result, t.2.2.result⟩) := inferInstance
  unfold consume
  infer_instance

end Functors

/-! ## Branches -/

instance {r : Result} : Shows P (liveBranch r) := by
  unfold liveBranch
  infer_instance

instance {type : Option Reference} {bs : List (Nat × Result)} : Shows P (joinBranches type bs) := by
  unfold joinBranches
  dsimp only
  have : ∀ t pairs, Shows P (emit t (.phi pairs)) := fun _ _ => shows_emit rfl
  have hvalue : ∀ incoming : List (Operand × Nat), Shows P (match incoming with
      | [(x, _)] => return some ⟨x, type⟩
      | [] => crash
      | (x, b) :: rest => do
          let phi ← emit x.ty
            (.phi ((x, .block b) :: rest.map fun (y, c) => (y, .block c)))
          return some ⟨phi, type⟩ : Build Result) := by
    intro incoming
    split <;> infer_instance
  infer_instance

end Inherited

/-! ## Properties that no lookup can spoil -/

section Calm

variable [Calm P] {x : Operand} {r : Reference}

instance {v : Violation} : Shows P (violation v : Build α) := Quiet.violation.shows
instance {n : Symbol} : Shows P (structIndex n) := quiet_structIndex.shows
instance {n : Symbol} : Shows P (interfaceIndex n) := quiet_interfaceIndex.shows
instance : Shows P (lowerReference r) := quiet_lowerReference.shows
instance {t : Option Reference} : Shows P (lowerType t) := quiet_lowerType.shows
instance {r : Referend} : Shows P (arrayLayout r) := quiet_arrayLayout.shows
instance {h : Held} : Shows P (functorMethod h) := quiet_functorMethod.shows
instance : Shows P (structDef r) := quiet_structDef.shows
instance {i : Int} : Shows P (memberOf r i) := quiet_memberOf.shows
instance : Shows P (isMutableView r) := quiet_isMutableView.shows

section Members

variable {member : Held → Build Unit} [∀ h, Shows P (member h)]

instance {r : Referend} : Shows P (forEachMember x r member) := by
  have : ∀ ms, Shows P (visitMembers x member 0 ms) := fun _ =>
    shows_visitMembers fun _ _ _ => inferInstance
  unfold forEachMember
  split <;> infer_instance

instance {drop : Build Unit} [Shows P drop] : Shows P (releaseBy member x r drop) := by
  unfold releaseBy
  split <;> infer_instance

instance {o : Ownership} {l : Location} {r : Referend} : Shows P (release member x o l r) := by
  induction r generalizing x o l with
  | array size o' l' elem ih =>
    unfold release
    infer_instance
  | _ =>
    unfold release
    infer_instance

end Members

instance {n : Nat} {h : Held} : Shows P (acquireFuel n h) := by
  induction n generalizing h with
  | zero => exact inferInstanceAs (Shows P crash)
  | succ n ih =>
    unfold acquireFuel
    infer_instance

instance {h : Held} : Shows P (acquire h) := by
  unfold acquire
  infer_instance

instance {n : Nat} {h : Held} : Shows P (discardFuel n h) := by
  induction n generalizing h with
  | zero => exact inferInstanceAs (Shows P crash)
  | succ n ih =>
    unfold discardFuel
    infer_instance

instance {h : Held} : Shows P (discard h) := by
  unfold discard
  infer_instance

instance {method : Int} : Shows P (loadMethod i x method) := by
  unfold loadMethod
  dsimp only
  refine .step fun d => ?_
  split <;> infer_instance

instance {h : Held} : Shows P (callFunctor h x) := by
  unfold callFunctor
  infer_instance

instance {y : Operand} : Shows P (loadElement x r y) := by
  unfold loadElement
  split <;> infer_instance

instance {p : Prototype} [∀ t n, Shows P (entryAlloca t n)] : Shows P (callNative p rs) := by
  have : ∀ (b : Builtin) xs, Shows P (b.lower xs) := by
    intro b xs
    unfold Builtin.lower
    split <;> infer_instance
  unfold callNative
  split <;> infer_instance

instance {layout : Ty} {j : Nat} {ms : List StructMember} :
    Shows P (buildDropFunc.members layout x j ms) := by
  induction ms generalizing j with
  | nil => exact inferInstanceAs (Shows P (pure _))
  | cons m ms ih =>
    unfold buildDropFunc.members
    infer_instance

instance {d : StructDef} : Shows P (dropBody i d) := by
  unfold dropBody
  infer_instance

end Calm

/-! ## Parts that make no stack slots -/

/-- A part of lowering makes no stack slot. -/
def MakesNoSlot (α : Type) (x : Build α) : Prop :=
  ∀ ⦃env : Env⦄ ⦃s : State⦄ ⦃a : α⦄ ⦃s' : State⦄, x env s = .ok a s' → Unslotted s → Unslotted s'

instance : Calm MakesNoSlot where
  pure a env s b s' h hs := by
    obtain ⟨-, rfl⟩ := pure_ok h
    exact hs
  bind hx hk env s b s'' h hs := by
    obtain ⟨a, s', h1, h2⟩ := bind_ok h
    exact hk a h2 (hx h1 hs)
  crash h := absurd h throw_ne_ok
  violation _ _ _ _ _ h := absurd h throw_ne_ok
  get _ _ _ _ h hs := (get_ok h).2 ▸ hs
  read _ _ _ _ h hs := (read_ok h).2 ▸ hs
  modify hg env s u s' h hs := by
    rw [modify_ok h]
    exact hg.unslotted s hs
  releasing hbody hclose env s a s' h hs := by
    obtain ⟨s1, h1, h2⟩ := releasing_ok h
    exact hclose h2 (hbody h1 hs)
  quiet hx env s a s' h hs f hf := by
    rw [(hx h).module, (hx h).framed.func] at hf
    exact hs f hf

end Tenure.Lowering

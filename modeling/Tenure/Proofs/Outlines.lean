import Tenure.Interp.Run
import Mathlib.Tactic.Common

/-!
# What leaves the objects of memory alone

An access to memory may fail half way, and what it has written by then stays.  So
the question what becomes of the objects cannot be asked of accesses that succeed
only.  The outline of a memory is all of it but the contents of its objects: which
objects there are, where they lie, how large they are and which of them are dead.
Every access keeps the outline, however it ends, with three exceptions, which are
the ways to create and to end an object: a stack slot, and the two functions of the
runtime for the heap.  Most accesses only look, and keep everything.
-/

namespace Tenure.Interp

open Ir (Ty Const Operand Inst Op Term)

variable {α β : Type}
variable {m' : Memory} {x : Access α} {p dest : Pointer} {v : Value} {i : Int64}

/-! ## Outlines -/

/-- An object without its contents. -/
def Object.outline (o : Object) : Object := { o with cells := {} }

namespace Memory

variable {m : Memory} {id : Nat}

/-- A memory without the contents of its objects. -/
def outline (m : Memory) : Memory := { m with objects := m.objects.map Object.outline }

/-- Whether an object is on the heap and has not been freed. -/
def isLive (o : Object) : Bool := o.region == .heap && !o.dead

@[simp] theorem size_outline : m.outline.objects.size = m.objects.size := Array.size_map

@[simp] theorem getElem?_outline : m.outline.objects[id]? = m.objects[id]?.map Object.outline :=
  Array.getElem?_map

theorem outline_add {region : Region} {size : Int64} :
    (m.add region size).outline = m.outline.add region size := by
  simp [outline, add, Object.outline, Array.map_push]

/-- Two memories with the same objects are the same. -/
theorem ext_getElem? {m : Memory} (ha : m.nextAddress = m'.nextAddress) (hh : m.heap = m'.heap)
    (ho : ∀ i : Nat, m.objects[i]? = m'.objects[i]?) : m = m' := by
  cases m
  cases m'
  simp only [mk.injEq]
  exact ⟨Array.ext_getElem? ho, ha, hh⟩

theorem getElem?_kill {i : Nat} : (m.kill id).objects[i]? =
    if id = i then m.objects[i]?.map fun o => { o with dead := true } else m.objects[i]? := by
  simp only [kill, modifyObject, Array.getElem?_modify]

theorem outline_kill : (m.kill id).outline = m.outline.kill id := by
  refine ext_getElem? rfl rfl fun i => ?_
  rw [getElem?_outline, getElem?_kill, getElem?_kill, getElem?_outline]
  split
  · cases m.objects[i]? <;> rfl
  · rfl

theorem getElem?_release {i : Nat} : (m.release id).objects[i]? =
    if id = i then m.objects[i]?.map fun o => { o with dead := true } else m.objects[i]? :=
  getElem?_kill

theorem outline_release : (m.release id).outline = m.outline.release id := by
  show { (m.kill id).outline with heap := m.heap.erase id } = _
  rw [outline_kill]
  rfl

theorem outline_killAll {ids : List Nat} :
    (ids.foldl kill m).outline = ids.foldl kill m.outline := by
  induction ids generalizing m with
  | nil => rfl
  | cons id ids ih =>
    rw [List.foldl_cons, List.foldl_cons, ih, outline_kill]

/-- Contents do not count. -/
theorem outline_modifyCells {f : Object → Cells} :
    (m.modifyObject id fun o => { o with cells := f o }).outline = m.outline := by
  refine ext_getElem? rfl rfl fun i => ?_
  rw [getElem?_outline, getElem?_outline, modifyObject, Array.getElem?_modify]
  split
  · cases m.objects[i]? <;> rfl
  · rfl

end Memory

/-! ## Computations that keep the outline -/

/-- The memory that a computation leaves behind, whether it succeeds or not. -/
def Access.final (x : Access α) (m : Memory) : Memory :=
  match x m with
  | .ok _ m' => m'
  | .error _ m' => m'

variable {a b source : Pointer} {m : Memory} {t : Ty} {fuel : Nat} {length : Int64}

theorem Access.final_of_ok {a : α} (h : x m = .ok a m') : x.final m = m' := by
  unfold Access.final
  rw [h]

theorem Access.final_of_error {e : Fault} (h : x m = .error e m') : x.final m = m' := by
  unfold Access.final
  rw [h]

/-- A computation that keeps a view of memory, however it ends. -/
def Keeps {γ : Type} (φ : Memory → γ) (x : Access α) : Prop := ∀ m, φ (x.final m) = φ m

variable {γ : Type} {φ : Memory → γ}

namespace Keeps

variable {m : Memory} {a : α} {e : Fault}

theorem of_ok (hx : Keeps φ x) (h : x m = .ok a m') : φ m' = φ m := by
  rw [← hx m, Access.final_of_ok h]

theorem of_error (hx : Keeps φ x) (h : x m = .error e m') : φ m' = φ m := by
  rw [← hx m, Access.final_of_error h]

/-- A computation that keeps all of memory. -/
theorem same (hx : Keeps id x) (h : x m = .ok a m') : m' = m :=
  hx.of_ok h

theorem pure : Keeps φ (pure a : Access α) := fun _ => rfl

theorem throw : Keeps φ (throw e : Access α) := fun _ => rfl

theorem raise {e : ExecError} : Keeps φ (Access.raise e : Access α) := throw

theorem crash : Keeps φ (Access.crash : Access α) := throw

theorem get : Keeps φ (get : Access Memory) := fun _ => rfl

theorem bind {next : α → Access β} (hx : Keeps φ x)
    (hnext : ∀ a, Keeps φ (next a)) : Keeps φ (x >>= next) := by
  intro m
  cases h : x m with
  | ok a m' =>
    have hbind : (x >>= next) m = next a m' := by
      change EStateM.bind x next m = _
      rw [EStateM.bind, h]
    have hfinal : (x >>= next).final m = (next a).final m' := by
      rw [Access.final, hbind, Access.final]
    rw [hfinal, hnext a m', hx.of_ok h]
  | error e m' =>
    have hbind : (x >>= next) m = .error e m' := by
      change EStateM.bind x next m = _
      rw [EStateM.bind, h]
    rw [Access.final_of_error hbind, hx.of_error h]

theorem ite {c : Prop} [Decidable c] {y : Access α} (hx : Keeps φ x) (hy : Keeps φ y) :
    Keeps φ (if c then x else y) := by
  split
  · exact hx
  · exact hy

theorem check {x : Checked α} : Keeps φ (Access.check x) := by
  cases x with
  | ok a => exact pure
  | error e => exact throw

theorem mapM {f : α → Access β} (hf : ∀ a, Keeps φ (f a)) : ∀ as : List α, Keeps φ (as.mapM f)
  | [] => by
    rw [List.mapM_nil]
    exact pure
  | a :: as => by
    rw [List.mapM_cons]
    exact (hf a).bind fun _ => (mapM hf as).bind fun _ => pure

end Keeps

/-- A computation that keeps the outline of memory.  One that only looks at memory
keeps every view of it. -/
abbrev Mild (x : Access α) : Prop := Keeps Memory.outline x

/-! ## Loads and stores -/

theorem keeps_checkAccess {bytes : Int64} : Keeps φ (checkAccess p bytes) := by
  unfold checkAccess
  split
  · refine Keeps.get.bind fun m => ?_
    dsimp only
    split
    · exact .crash
    · exact .ite (.ite .raise .raise) (.ite .raise .pure)
  · exact .raise

theorem keeps_loadScalar : Keeps φ (loadScalar t p) := by
  refine Keeps.check.bind fun _ => keeps_checkAccess.bind fun _ => Keeps.get.bind fun m => ?_
  split
  · exact .raise
  · exact .ite .raise .pure

/-- A kind of computation that takes in the checks of accesses at some pointers, and whatever
is put together from its members. -/
structure Traversable (A : Pointer → Prop) (P : (α : Type) → Access α → Prop) : Prop where
  pure {α : Type} (a : α) : P α (Pure.pure a)
  throw {α : Type} (e : Fault) : P α (throw e)
  bind {α β : Type} {x : Access α} {next : α → Access β} :
    P α x → (∀ a, P β (next a)) → P β (x >>= next)
  shift {p : Pointer} (n : Int64) : A p → A (p.shift n)
  access {p : Pointer} {bytes : Int64} : A p → P Nat (checkAccess p bytes)

namespace Traversable

variable {A : Pointer → Prop} {P : (α : Type) → Access α → Prop}

theorem check (h : Traversable A P) {x : Checked α} : P α (Access.check x) := by
  cases x with
  | ok a => exact h.pure a
  | error e => exact h.throw e

theorem loadRun (h : Traversable A P) {item : Pointer → Access Value}
    (hitem : ∀ p, A p → P _ (item p)) {stride : Int64} {n : Nat} {p : Pointer} (hp : A p)
    {acc : Array Value} : P _ (loadRun item stride n p acc) := by
  induction n generalizing p acc with
  | zero => exact h.pure acc
  | succ n ih => exact h.bind (hitem p hp) fun _ => ih (h.shift stride hp)

theorem storeRun (h : Traversable A P) {item : Value → Pointer → Access Unit}
    (hitem : ∀ v p, A p → P _ (item v p)) {stride : Int64} {vs : List Value} {p : Pointer}
    (hp : A p) : P _ (storeRun item stride vs p) := by
  induction vs generalizing p with
  | nil => exact h.pure ()
  | cons v vs ih => exact h.bind (hitem v p hp) fun _ => ih (h.shift stride hp)

mutual

/-- Loads are of such a kind once those of one cell are. -/
theorem load (h : Traversable A P) (hcell : ∀ t p, A p → P _ (loadScalar t p)) :
    ∀ (t : Ty) {p : Pointer}, A p → P _ (load t p)
  | .struct name fields, p, hp => by
    rw [Interp.load]
    exact h.bind h.check fun _ => h.bind (h.access hp) fun _ =>
      h.bind (h.loadFields hcell fields hp) fun _ => h.pure _
  | .array len elem, p, hp => by
    rw [Interp.load]
    refine h.bind h.check fun _ => h.bind (h.access hp) fun _ => h.bind h.check fun stride => ?_
    have hrun : P _ (Interp.loadRun (Interp.load elem) stride len p #[]) :=
      h.loadRun (fun _ => h.load hcell elem) hp
    dsimp only
    split
    · exact h.bind (h.throw _) fun _ => h.bind hrun fun _ => h.pure _
    · exact h.bind hrun fun _ => h.pure _
  | .int _, p, hp | .void, p, hp | .double, p, hp | .label, p, hp | .ptr _, p, hp
  | .defined .., p, hp | .func .., p, hp | .invalid, p, hp => hcell _ p hp

theorem loadFields (h : Traversable A P) (hcell : ∀ t p, A p → P _ (loadScalar t p)) :
    ∀ (ts : List Ty) {offset : Int64} {p : Pointer}, A p → P _ (loadFields ts offset p)
  | [], _, _, _ => h.pure []
  | t :: ts, _, _, hp => by
    rw [Interp.loadFields]
    exact h.bind h.check fun start => h.bind (h.load hcell t (h.shift start hp)) fun _ =>
      h.bind h.check fun _ => h.bind (h.loadFields hcell ts hp) fun _ => h.pure _

end

mutual

/-- The same of stores. -/
theorem store (h : Traversable A P) (hcell : ∀ t v p, A p → P _ (storeScalar t v p)) :
    ∀ (t : Ty) {v : Value} {p : Pointer}, A p → P _ (store t v p)
  | .struct name fields, v, p, hp => by
    refine h.bind h.check fun _ => h.bind (h.access hp) fun _ => ?_
    cases v with
    | agg items => exact h.storeFields hcell fields hp
    | _ => exact h.throw _
  | .array len elem, v, p, hp => by
    refine h.bind h.check fun _ => h.bind (h.access hp) fun _ => ?_
    cases v with
    | agg items =>
      exact h.bind h.check fun _ => h.storeRun (fun _ _ => h.store hcell elem) hp
    | _ => exact h.throw _
  | .int _, v, p, hp | .void, v, p, hp | .double, v, p, hp | .label, v, p, hp | .ptr _, v, p, hp
  | .defined .., v, p, hp | .func .., v, p, hp | .invalid, v, p, hp => hcell _ v p hp

theorem storeFields (h : Traversable A P) (hcell : ∀ t v p, A p → P _ (storeScalar t v p)) :
    ∀ (ts : List Ty) {vs : List Value} {offset : Int64} {p : Pointer}, A p →
      P _ (storeFields ts vs offset p)
  | [], _, _, _, _ => h.pure ()
  | _ :: _, [], _, _, _ => h.throw _
  | t :: ts, v :: vs, offset, p, hp => by
    rw [Interp.storeFields]
    exact h.bind h.check fun start => h.bind (h.store hcell t (h.shift start hp)) fun _ =>
      h.bind h.check fun _ => h.storeFields hcell ts hp

end

end Traversable

theorem traversable_keeps : Traversable (fun _ => True) fun _ => Keeps φ :=
  ⟨fun _ => .pure, fun _ => .throw, .bind, fun _ => id, fun _ => keeps_checkAccess⟩

theorem keeps_load (t : Ty) : Keeps φ (load t p) :=
  traversable_keeps.load (fun _ _ _ => keeps_loadScalar) t trivial

theorem mild_storeScalar : Mild (storeScalar t v p) :=
  Keeps.check.bind fun _ => keeps_checkAccess.bind fun _ _ => Memory.outline_modifyCells

theorem mild_store (t : Ty) : Mild (store t v p) :=
  traversable_keeps.store (fun _ _ _ _ => mild_storeScalar) t trivial

theorem keeps_addressOf : Keeps φ (addressOf p) := by
  unfold addressOf
  split
  · exact .raise
  · exact .pure
  · refine Keeps.get.bind fun m => ?_
    split
    · exact .pure
    · exact .crash

/-! ## Operands -/

theorem keeps_asInt : Keeps φ (asInt v) := by
  cases v with
  | int n => exact .pure
  | _ => exact .crash

theorem keeps_asPointer : Keeps φ (asPointer v) := by
  cases v with
  | ptr p => exact .pure
  | _ => exact .crash

theorem keeps_asItems : Keeps φ (asItems v) := by
  cases v with
  | agg items => exact .pure
  | _ => exact .crash

section Operands

variable {code : Code} {f : Frame}

/-! Constants are evaluated without a look at the contents of objects. -/

namespace Traversable

variable {A : Pointer → Prop} {P : (α : Type) → Access α → Prop}

theorem asInt (h : Traversable A P) : P _ (asInt v) := by
  cases v with
  | int n => exact h.pure n
  | _ => exact h.throw _

theorem asPointer (h : Traversable A P) : P _ (asPointer v) := by
  cases v with
  | ptr p => exact h.pure p
  | _ => exact h.throw _

mutual

/-- Evaluations of constants are of such a kind once address computations are. -/
theorem evalConst (h : Traversable A P) (haddress : ∀ p, P _ (addressOf p)) :
    ∀ c : Const, P _ (evalConst code c)
  | .int .. | .null _ | .chars _ | .func .. | .global .. => h.pure _
  | .undef _ | .zero _ => h.check
  | .struct _ cs | .array _ cs => by
    rw [Interp.evalConst]
    exact h.bind (h.evalConsts haddress cs) fun _ => h.pure _
  | .gep _ _ source indices => by
    rw [Interp.evalConst]
    exact h.bind (h.evalIndices haddress indices) fun _ => h.bind (h.evalConst haddress source)
      fun _ => h.bind h.asPointer fun _ => h.bind h.check fun _ => h.pure _
  | .bitcast source _ => by
    rw [Interp.evalConst]
    exact h.evalConst haddress source
  | .ptrToInt source _ => by
    rw [Interp.evalConst]
    exact h.bind (h.evalConst haddress source) fun _ => h.bind h.asPointer fun _ =>
      h.bind (haddress _) fun _ => h.pure _
  | .real _ | .intToPtr .. => h.throw _

theorem evalConsts (h : Traversable A P) (haddress : ∀ p, P _ (addressOf p)) :
    ∀ cs : List Const, P _ (evalConst.evalConsts code cs)
  | [] => h.pure _
  | c :: cs => by
    rw [evalConst.evalConsts]
    exact h.bind (h.evalConst haddress c) fun _ =>
      h.bind (h.evalConsts haddress cs) fun _ => h.pure _

theorem evalIndices (h : Traversable A P) (haddress : ∀ p, P _ (addressOf p)) :
    ∀ cs : List Const, P _ (evalConst.evalIndices code cs)
  | [] => h.pure _
  | c :: cs => by
    rw [evalConst.evalIndices]
    exact h.bind (h.evalConst haddress c) fun _ => h.bind h.asInt fun _ =>
      h.bind (h.evalIndices haddress cs) fun _ => h.pure _

end

end Traversable

theorem keeps_evalConst (c : Const) : Keeps φ (evalConst code c) :=
  traversable_keeps.evalConst (fun _ => keeps_addressOf) c

theorem keeps_eval {x : Operand} : Keeps φ (eval code f x) := by
  cases x with
  | const c => exact keeps_evalConst c
  | param i t | reg id t =>
    rw [eval]
    split
    · exact .pure
    · exact .raise
  | block b => exact .raise

theorem keeps_evalPointer {x : Operand} : Keeps φ (evalPointer code f x) := by
  refine keeps_eval.bind fun v => ?_
  split
  · exact .pure
  · exact .ite .raise .crash

theorem keeps_evalInt {x : Operand} : Keeps φ (evalInt code f x) :=
  keeps_eval.bind fun _ => keeps_asInt

theorem keeps_staticType {x : Operand} : Keeps φ (staticType x) := by
  unfold staticType
  split
  · exact .crash
  · exact .pure

theorem keeps_staticWidth {x : Operand} : Keeps φ (staticWidth x) := by
  unfold staticWidth
  split
  · exact .pure
  · exact .crash

variable {block : String} {is : List Nat} {pred : Option Nat}

theorem keeps_extract : Keeps φ (extract v is) := by
  induction is generalizing v with
  | nil => exact .pure
  | cons i is ih =>
    rw [extract]
    refine keeps_asItems.bind fun items => ?_
    split
    · exact ih
    · exact .crash

theorem keeps_insert {elem : Value} : Keeps φ (insert v elem is) := by
  induction is generalizing v with
  | nil => exact .pure
  | cons i is ih =>
    rw [insert]
    refine keeps_asItems.bind fun items => ?_
    split
    · exact ih.bind fun _ => .pure
    · exact .crash

/-! ## Instructions and ends of blocks -/

/-- A computation that keeps the outline and does not answer with a stack slot. -/
def Slotless (x : Access Effect) : Prop := Mild x ∧ ∀ ⦃m q m'⦄, x m ≠ .ok (.slot q) m'

namespace Slotless

theorem bind {next : α → Access Effect} (hx : Mild x) (h : ∀ a, Slotless (next a)) :
    Slotless (x >>= next) := by
  refine ⟨Keeps.bind hx fun a => (h a).1, fun m q m' heq => ?_⟩
  change EStateM.bind x next m = _ at heq
  unfold EStateM.bind at heq
  split at heq
  · next a m1 _ => exact (h a).2 heq
  · cases heq

theorem raise {e : ExecError} : Slotless (Access.raise e) := ⟨.raise, fun _ _ _ h => nomatch h⟩

theorem crash : Slotless Access.crash := ⟨.crash, fun _ _ _ h => nomatch h⟩

theorem pure {effect : Effect} (h : ∀ q, effect ≠ .slot q) : Slotless (pure effect) :=
  ⟨.pure, fun _ q _ heq => h q (EStateM.Result.ok.inj heq).1⟩

end Slotless

/-- Every instruction but the one that makes a stack slot. -/
theorem slotless_execute {op : Op} (h : ∀ t, op ≠ .alloca t) : Slotless (execute code f op) := by
  unfold execute
  dsimp only
  split
  · next t => exact absurd rfl (h t)
  · exact .bind keeps_evalPointer fun _ => .bind (keeps_load _) fun _ => .pure nofun
  · exact .bind keeps_staticType fun _ => .bind keeps_eval fun _ => .bind keeps_evalPointer fun _ =>
      .bind (mild_store _) fun _ => .pure nofun
  · exact .bind (Keeps.mapM (fun _ => keeps_evalInt) _) fun _ => .bind keeps_evalPointer fun _ =>
      .bind Keeps.check fun _ => .pure nofun
  · refine .bind (Keeps.mapM (fun _ => keeps_eval) _) fun _ => .bind keeps_evalPointer fun _ => ?_
    split
    · exact .pure nofun
    · exact .raise
  · refine .bind keeps_staticType fun _ => .bind keeps_eval fun _ => .bind keeps_eval fun _ => ?_
    split
    · exact .bind keeps_asPointer fun _ => .bind Keeps.check fun _ => .pure nofun
    · refine .bind keeps_asInt fun _ => .bind keeps_asInt fun _ => ?_
      split
      · exact .pure nofun
      · exact .crash
  · split
    · exact .raise
    · exact .bind keeps_staticWidth fun _ => .bind keeps_evalInt fun _ =>
        .bind keeps_evalInt fun _ =>
        .bind Keeps.check fun _ => .pure nofun
  · exact .bind keeps_eval fun _ => .pure nofun
  · exact .bind keeps_eval fun _ => .pure nofun
  · refine .bind keeps_evalInt fun _ => ?_
    split
    · exact .pure nofun
    · exact .crash
  · exact .bind keeps_evalInt fun _ => .bind keeps_staticWidth fun _ => .pure nofun
  · exact .bind keeps_evalPointer fun _ => .bind keeps_addressOf fun _ => .pure nofun
  · exact .bind keeps_eval fun _ => .bind keeps_extract fun _ => .pure nofun
  · exact .bind keeps_eval fun _ => .bind keeps_eval fun _ =>
      .bind keeps_insert fun _ => .pure nofun
  · exact .pure nofun
  · exact .raise
  · exact .raise

theorem keeps_targetBlock {x : Operand} : Keeps φ (targetBlock code f x) := by
  cases x with
  | block i => exact .pure
  | _ => exact .raise

theorem keeps_incomingValue {incoming : List (Operand × Operand)} :
    Keeps φ (incomingValue code f pred block incoming) := by
  induction incoming with
  | nil => exact .raise
  | cons x rest ih => exact keeps_targetBlock.bind fun _ => .ite keeps_eval ih

theorem keeps_phiValues {insts : List Inst} : Keeps φ (phiValues code f pred block insts) := by
  induction insts with
  | nil => exact .pure
  | cons i is ih =>
    rw [phiValues]
    split
    · exact keeps_incomingValue.bind fun _ => ih.bind fun _ => .pure
    · exact .pure

theorem keeps_leave {term : Option Term} : Keeps φ (leave code f block term) := by
  unfold leave
  split
  · exact .pure
  · exact keeps_eval.bind fun _ => .pure
  · exact keeps_targetBlock.bind fun _ => .pure
  · exact keeps_evalInt.bind fun _ => keeps_targetBlock.bind fun _ => .pure
  · exact .raise
  · exact .raise
  · exact .raise

end Operands

/-! ## The runtime -/

theorem keeps_readByte : Keeps φ (readByte p i) := by
  refine keeps_loadScalar.bind fun v => ?_
  split
  · exact .pure
  · exact .crash

theorem mild_writeByte {b : UInt8} : Mild (writeByte p i b) :=
  mild_storeScalar

theorem mild_writeBytes {bs : List UInt8} : Mild (writeBytes p i bs) := by
  induction bs generalizing i with
  | nil => exact .pure
  | cons b bs ih => exact mild_writeByte.bind fun _ => ih

theorem keeps_readUntilZero {acc : ByteArray} : Keeps φ (readUntilZero p fuel i acc) := by
  induction fuel generalizing i acc with
  | zero => exact .crash
  | succ fuel ih => exact keeps_readByte.bind fun _ => .ite .pure ih

theorem keeps_cellCount : Keeps φ (cellCount p) := by
  unfold cellCount
  split
  · exact Keeps.get.bind fun _ => .pure
  · exact .pure

theorem keeps_readString : Keeps φ (readString p) :=
  keeps_cellCount.bind fun _ => keeps_readUntilZero

theorem mild_copyBytes {n : Nat} : Mild (copyBytes dest source length n i) := by
  induction n generalizing i with
  | zero => exact .pure
  | succ n ih =>
    have hrest {b : UInt8} : Mild (do writeByte dest i b; copyBytes dest source length n (i + 1)) :=
      mild_writeByte.bind fun _ => ih
    exact keeps_readByte.bind fun _ => .ite (Keeps.raise.bind fun _ => hrest) hrest

theorem mild_initString : Mild (initString dest source length) :=
  mild_copyBytes.bind fun _ => mild_writeByte

theorem mild_concatStrings : Mild (concatStrings a b dest) :=
  keeps_readString.bind fun _ => mild_writeBytes.bind fun _ => keeps_readString.bind fun _ =>
    mild_writeBytes.bind fun _ => mild_writeByte

theorem keeps_equalUntilZero : Keeps φ (equalUntilZero a b fuel i) := by
  induction fuel generalizing i with
  | zero => exact .crash
  | succ fuel ih =>
    exact keeps_readByte.bind fun _ => keeps_readByte.bind fun _ => .ite .pure (.ite .pure ih)

theorem keeps_equalStrings : Keeps φ (equalStrings a b) :=
  keeps_cellCount.bind fun _ => keeps_equalUntilZero

theorem mild_formatInt {n room : Int64} : Mild (formatInt n dest room) := by
  unfold formatInt
  split
  · exact .pure
  · exact mild_writeBytes.bind fun _ => mild_writeByte

theorem mild_argument (args : List Value) (i : Nat) : Mild (match args[i]? with
    | some v => (Pure.pure v : Access Value)
    | none => Access.crash) := by
  split
  · exact .pure
  · exact .crash

/-- Every function of the runtime but those for the heap keeps the outline. -/
theorem mild_runtime {name : String} {args : List Value} {x : Access RuntimeEffect}
    (h : runtime name args = some x) (hmalloc : name ≠ "malloc") (hfree : name ≠ "free") :
    Mild x := by
  have hpointer (i : Nat) := (mild_argument args i).bind fun v => keeps_asPointer (v := v)
  have hint (i : Nat) := (mild_argument args i).bind fun v => keeps_asInt (v := v)
  unfold runtime at h
  dsimp only at h
  split at h
  · exact absurd rfl hmalloc
  · exact absurd rfl hfree
  all_goals cases h
  · exact .raise
  · exact (hpointer 0).bind fun _ => keeps_readString.bind fun _ => .pure
  · exact (hpointer 0).bind fun _ => (hpointer 1).bind fun _ => (hint 2).bind fun _ =>
      mild_initString.bind fun _ => .pure
  · exact (hpointer 0).bind fun _ => (hpointer 1).bind fun _ => (hpointer 2).bind fun _ =>
      mild_concatStrings.bind fun _ => .pure
  · exact (hpointer 0).bind fun _ => (hpointer 1).bind fun _ =>
      keeps_equalStrings.bind fun _ => .pure
  · exact (hpointer 0).bind fun _ => keeps_readString.bind fun _ => .pure
  · exact (hint 0).bind fun _ => (hpointer 1).bind fun _ => (hint 2).bind fun _ =>
      mild_formatInt.bind fun _ => .pure

end Tenure.Interp

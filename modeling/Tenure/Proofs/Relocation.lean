import Tenure.Lowering.Build

/-!
# Code that mentions functions and globals at new places

Functions and globals go by their places in the module.  When these change, code
that mentions them has to follow; its types, its registers and its blocks stay as
they are, and so does the way it is built.
-/

namespace Tenure.Ir

/-- New places for the functions and the globals of a module. -/
structure Relocation where
  func : Nat → Nat
  global : Nat → Nat

/-- A constant with the functions and globals it mentions at their new places. -/
def Const.relocate (r : Relocation) : Const → Const
  | .struct ty fields => .struct ty (relocateAll fields)
  | .array ty elems => .array ty (relocateAll elems)
  | .func i signature => .func (r.func i) signature
  | .global i content => .global (r.global i) content
  | .gep ty elem source indices => .gep ty elem (source.relocate r) (relocateAll indices)
  | .bitcast source target => .bitcast (source.relocate r) target
  | .ptrToInt source target => .ptrToInt (source.relocate r) target
  | .intToPtr source target => .intToPtr (source.relocate r) target
  | .int bits value => .int bits value
  | .null ty => .null ty
  | .undef ty => .undef ty
  | .zero ty => .zero ty
  | .chars bytes => .chars bytes
  | .real text => .real text
where
  relocateAll : List Const → List Const
    | [] => []
    | c :: cs => c.relocate r :: relocateAll cs

def Operand.relocate (r : Relocation) : Operand → Operand
  | .const c => .const (c.relocate r)
  | x => x

def Op.relocate (r : Relocation) : Op → Op
  | .alloca elem => .alloca elem
  | .load elem source => .load elem (source.relocate r)
  | .store value dest => .store (value.relocate r) (dest.relocate r)
  | .gep elem source indices => .gep elem (source.relocate r) (indices.map (·.relocate r))
  | .call callee args => .call (callee.relocate r) (args.map (·.relocate r))
  | .icmp c x y => .icmp c (x.relocate r) (y.relocate r)
  | .bin op x y => .bin op (x.relocate r) (y.relocate r)
  | .cast c source target => .cast c (source.relocate r) target
  | .extract x indices => .extract (x.relocate r) indices
  | .insert x elem indices => .insert (x.relocate r) (elem.relocate r) indices
  | .phi incoming => .phi (incoming.map fun (x, b) => (x.relocate r, b.relocate r))
  | .select => .select

def Inst.relocate (r : Relocation) (i : Inst) : Inst := { i with op := i.op.relocate r }

def Term.relocate (r : Relocation) : Term → Term
  | .ret value => .ret (value.map (·.relocate r))
  | .br target => .br (target.relocate r)
  | .condBr cond t e => .condBr (cond.relocate r) (t.relocate r) (e.relocate r)
  | .unreachable => .unreachable
  | .switch => .switch

def Block.relocate (r : Relocation) (b : Block) : Block :=
  { b with insts := b.insts.map (·.relocate r), term := b.term.map (·.relocate r) }

/-- A function whose code mentions functions and globals at their new places. -/
def Func.relocate (r : Relocation) (f : Func) : Func :=
  { f with blocks := f.blocks.map (·.relocate r) }

/-- A global whose content mentions functions and globals at their new places. -/
def Global.relocate (r : Relocation) (g : Global) : Global :=
  { g with init := g.init.map (·.relocate r) }

variable {r : Relocation}

/-! ## What stays -/

@[simp] theorem Const.ty_relocate (c : Const) : (c.relocate r).ty = c.ty := by
  cases c <;> simp [relocate, Const.ty]

@[simp] theorem Const.indexInfo_relocate (c : Const) : (c.relocate r).indexInfo = c.indexInfo := by
  cases c <;> simp [relocate, indexInfo]

@[simp] theorem Operand.ty_relocate (x : Operand) : (x.relocate r).ty = x.ty := by
  cases x <;> simp [relocate, Operand.ty]

@[simp] theorem Operand.indexInfo_relocate (x : Operand) :
    (x.relocate r).indexInfo = x.indexInfo := by
  cases x <;> simp [relocate, indexInfo]

namespace Func

variable (f : Func)

@[simp] theorem params_relocate : (f.relocate r).params = f.params := rfl

@[simp] theorem nextReg_relocate : (f.relocate r).nextReg = f.nextReg := rfl

@[simp] theorem size_relocate : (f.relocate r).blocks.size = f.blocks.size := by
  simp [relocate]

@[simp] theorem isTerminated_relocate (b : Nat) :
    (f.relocate r).isTerminated b = f.isTerminated b := by
  unfold isTerminated
  cases h : f.blocks[b]? <;> simp [relocate, h, Block.relocate]

/-- A function without code mentions nothing. -/
theorem relocate_of_blank {f : Func} (h : f.blocks = #[]) : f.relocate r = f := by
  have hnone : f.blocks.map (·.relocate r) = f.blocks := by simp [h]
  rw [relocate, hnone]

/-! ## Building -/

/-- A block that is changed before or after all blocks are mapped. -/
theorem map_modify {α β : Type} {xs : Array α} {h : α → β} {i : Nat} {g : α → α} {g' : β → β}
    (hg : ∀ x, h (g x) = g' (h x)) : (xs.modify i g).map h = (xs.map h).modify i g' := by
  refine Array.ext_getElem? fun j => ?_
  rw [Array.getElem?_map, Array.getElem?_modify, Array.getElem?_modify, Array.getElem?_map]
  split
  · cases xs[j]? <;> simp [hg]
  · rfl

theorem relocate_push (b : Nat) (name : String) (t : Ty) (op : Op) :
    (f.push b name t op).relocate r = (f.relocate r).push b name t (op.relocate r) := by
  simp only [relocate, push]
  rw [map_modify]
  intro x
  cases op <;> simp [Block.relocate, Inst.relocate, Op.relocate, Op.write]

theorem relocate_terminate (b : Nat) (t : Term) :
    (f.terminate b t).relocate r = (f.relocate r).terminate b (t.relocate r) := by
  simp only [relocate, terminate]
  rw [map_modify]
  intro x
  rfl

theorem relocate_addBlock (name : String) :
    (f.addBlock name).relocate r = (f.relocate r).addBlock name := by
  simp [relocate, addBlock, Block.relocate]

theorem relocate_addIncoming (b reg : Nat) (x source : Operand) :
    (f.addIncoming b reg x source).relocate r =
      (f.relocate r).addIncoming b reg (x.relocate r) (source.relocate r) := by
  simp only [relocate, addIncoming]
  rw [map_modify]
  intro block
  simp only [Block.relocate, Array.map_map]
  congr 2
  funext i
  simp only [Function.comp_apply, Inst.relocate]
  split
  · cases hop : i.op <;> simp [Op.relocate, hop]
  · rfl

end Func

/-! ## Nothing moves -/

/-- All functions and globals stay where they are. -/
def Relocation.same : Relocation := ⟨id, id⟩

mutual

theorem Const.relocate_same : ∀ c : Const, c.relocate .same = c
  | .struct _ fields => by rw [relocate, relocateAll_same fields]
  | .array _ elems => by rw [relocate, relocateAll_same elems]
  | .gep _ _ source indices => by rw [relocate, source.relocate_same, relocateAll_same indices]
  | .bitcast source _ | .ptrToInt source _ | .intToPtr source _ =>
    by rw [relocate, source.relocate_same]
  | .func _ _ | .global _ _ | .int _ _ | .null _ | .undef _ | .zero _ | .chars _ | .real _ => rfl

theorem Const.relocateAll_same : ∀ cs : List Const, relocate.relocateAll .same cs = cs
  | [] => rfl
  | c :: cs => by rw [relocate.relocateAll, c.relocate_same, relocateAll_same cs]

end

@[simp] theorem Operand.relocate_same (x : Operand) : x.relocate .same = x := by
  cases x <;> simp [relocate, Const.relocate_same]

@[simp] theorem Op.relocate_same (op : Op) : op.relocate .same = op := by
  cases op <;> simp [relocate]

@[simp] theorem Term.relocate_same (t : Term) : t.relocate .same = t := by
  cases t <;> simp [relocate]

theorem Func.relocate_same (f : Func) : f.relocate .same = f := by
  have hinst : Inst.relocate .same = id := funext fun i => by simp [Inst.relocate]
  have hblock : Block.relocate .same = id := funext fun b => by simp [Block.relocate, hinst]
  simp [relocate, hblock]

end Tenure.Ir

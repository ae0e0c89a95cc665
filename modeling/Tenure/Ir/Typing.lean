import Tenure.Ir.Code

/-!
# Static types

The type of an instruction's result, from the types of its operands.  The rules
are partial: what they refuse has no type.
-/

namespace Tenure.Ir

/-- The type reached by stepping into a type, one index at a time.  Stepping goes
through pointers as if they were arrays. -/
def memberType? (defs : TypeDefs) : Ty → List Nat → Option Ty
  | t, [] => some t
  | t, i :: is =>
      match t with
      | .ptr elem | .array _ elem => memberType? defs elem is
      | t =>
          match (t.fields? defs).bind (·[i]?) with
          | some field => memberType? defs field is
          | none => none

/-- What is known about an index: refused, unknown until it runs, or a number. -/
inductive IndexInfo where
  | refused
  | dynamic
  | known (n : Int)

def Const.indexInfo : Const → IndexInfo
  | .int _ n => .known n
  | .zero _ => .known 0
  | .undef _ | .gep .. | .bitcast .. | .ptrToInt .. | .intToPtr .. => .dynamic
  | _ => .refused

def Operand.indexInfo : Operand → IndexInfo
  | .const c => c.indexInfo
  | _ => .dynamic

def IndexInfo.isRefused : IndexInfo → Bool
  | refused => true
  | _ => false

/-- The type reached by the indices after the first: an array takes any index, a
struct only a known one in range. -/
def elementType? (defs : TypeDefs) : Ty → List IndexInfo → Option Ty
  | t, [] => some t
  | t, i :: is =>
      match t with
      | .array _ elem => elementType? defs elem is
      | t =>
          match i with
          | .known n =>
              if n < 0 then none
              else
                match (t.fields? defs).bind (·[n.toNat]?) with
                | some field => elementType? defs field is
                | none => none
          | _ => none

/-- The type of an element's address. -/
def gepType? (defs : TypeDefs) (elem source : Ty) (indices : List IndexInfo) : Option Ty :=
  match source with
  | .ptr _ =>
      if indices.any (·.isRefused) then none
      else (elementType? defs elem indices.tail).map .ptr
  | _ => none

/-- The result type of a callee. -/
def Ty.resultType? : Ty → Option Ty
  | .ptr (.func result _) => some result
  | _ => none

/-- Whether values of the type can be compared. -/
def Ty.isComparable : Ty → Bool
  | .int _ | .ptr _ => true
  | _ => false

/-- Whether a value may be cut down to a type: among integers only to one that is
not wider. -/
def Ty.canTruncate : Ty → Ty → Bool
  | .int m, .int n => n ≤ m
  | .int _, _ => false
  | _, _ => true

/-- The result type of an operation whose type follows from its operands; `none`
where the instruction itself states it. -/
def Op.derivedType? (defs : TypeDefs) : Op → Option Ty
  | .gep elem source indices =>
      some ((gepType? defs elem source.ty (indices.map (·.indexInfo))).getD .invalid)
  | .call callee _ => some (callee.ty.resultType?.getD .invalid)
  | .icmp _ x _ => some (if x.ty.isComparable then .i1 else .invalid)
  | .bin _ x _ => some x.ty
  | .insert x .. => some x.ty
  | .select => some .invalid
  | _ => none

/-! ## Annotation -/

/-- Gives an operand the type that the table has for its register. -/
def Operand.retype (types : Nat → Ty) : Operand → Operand
  | .reg id _ => .reg id (types id)
  | x => x

def Op.retype (types : Nat → Ty) : Op → Op
  | .load elem source => .load elem (source.retype types)
  | .store value dest => .store (value.retype types) (dest.retype types)
  | .gep elem source indices =>
      .gep elem (source.retype types) (indices.map (·.retype types))
  | .call callee args => .call (callee.retype types) (args.map (·.retype types))
  | .icmp c x y => .icmp c (x.retype types) (y.retype types)
  | .bin op x y => .bin op (x.retype types) (y.retype types)
  | .cast c source target => .cast c (source.retype types) target
  | .extract x is => .extract (x.retype types) is
  | .insert x elem is => .insert (x.retype types) (elem.retype types) is
  | .phi incoming => .phi (incoming.map fun (x, b) => (x.retype types, b.retype types))
  | .alloca elem => .alloca elem
  | .select => .select

def Inst.retype (defs : TypeDefs) (types : Nat → Ty) (i : Inst) : Inst :=
  let op := i.op.retype types
  { i with op, ty := (op.derivedType? defs).getD i.ty }

def Term.retype (types : Nat → Ty) : Term → Term
  | .ret value => .ret (value.map (·.retype types))
  | .br target => .br (target.retype types)
  | .condBr cond t e => .condBr (cond.retype types) (t.retype types) (e.retype types)
  | t => t

/-- The table of the result types of a list of instructions. -/
def typesOf (insts : List Inst) : Nat → Ty :=
  fun id => ((insts.find? (·.id == id)).map (·.ty)).getD .invalid

/-- Types the instructions in rounds; each round settles at least the first
instruction that an unsettled one waits for. -/
def settleTypes (defs : TypeDefs) : Nat → List Inst → List Inst
  | 0, insts => insts
  | rounds + 1, insts =>
      settleTypes defs rounds (insts.map (·.retype defs (typesOf insts)))

/-- Gives every operand of a function its static type, starting from the types
that the instructions state. -/
def Func.annotate (defs : TypeDefs) (f : Func) : Func :=
  let settled := settleTypes defs (f.insts.length + 1) f.insts
  let types := typesOf settled
  let block (b : Block) : Block :=
    { b with
      insts := b.insts.map (·.retype defs types)
      term := b.term.map (·.retype types) }
  { f with blocks := f.blocks.map block }

end Tenure.Ir

import Tenure.Ir.Const

/-!
# Modules

A module has type definitions, globals and functions.  A function with blocks is
a definition, one without is a declaration.  Parameters, blocks and registers go
by numbers; their names, which may be empty or repeat, only matter for text.
-/

namespace Tenure.Ir

/-- An operand, with its static type where it has one. -/
inductive Operand where
  | const (c : Const)
  | param (index : Nat) (ty : Ty)
  | reg (id : Nat) (ty : Ty)
  | block (index : Nat)
deriving Inhabited

namespace Operand

def ty : Operand → Ty
  | const c => c.ty
  | param _ ty | reg _ ty => ty
  | block _ => .label

/-- An operand as it is written, without its type. -/
def ident (names : Names) : Operand → String
  | const c => c.ident names
  | param i _ => names.param i
  | reg id _ => names.reg id
  | block i => names.block i

def text (names : Names) (x : Operand) : String := x.ty.text ++ " " ++ x.ident names

/-- Whether the operand can be written. -/
def isWritable : Operand → Bool
  | const c => c.isWritable
  | _ => true

def i32 (n : Int) : Operand := const (.i32 n)
def i64 (n : Int) : Operand := const (.i64 n)

end Operand

/-- The comparisons of integers. -/
inductive Comparison where
  | eq | ne | slt | sle | sgt | sge | ult | ule | ugt | uge
deriving Repr, DecidableEq

def Comparison.text : Comparison → String
  | eq => "eq"
  | ne => "ne"
  | slt => "slt"
  | sle => "sle"
  | sgt => "sgt"
  | sge => "sge"
  | ult => "ult"
  | ule => "ule"
  | ugt => "ugt"
  | uge => "uge"

/-- The binary operations on integers. -/
inductive BinOp where
  | add | sub | mul | sdiv | srem | and | or | xor | shl | udiv
deriving Repr, DecidableEq

def BinOp.text : BinOp → String
  | add => "add"
  | sub => "sub"
  | mul => "mul"
  | sdiv => "sdiv"
  | srem => "srem"
  | and => "and"
  | or => "or"
  | xor => "xor"
  | shl => "shl"
  | udiv => "udiv"

inductive Cast where
  | bitcast | trunc | zext | sext | ptrToInt | intToPtr
deriving Repr, DecidableEq

def Cast.text : Cast → String
  | bitcast => "bitcast"
  | trunc => "trunc"
  | zext => "zext"
  | sext => "sext"
  | ptrToInt => "ptrtoint"
  | intToPtr => "inttoptr"

/-- What an instruction does. -/
inductive Op where
  | alloca (elem : Ty)
  | load (elem : Ty) (source : Operand)
  | store (value dest : Operand)
  | gep (elem : Ty) (source : Operand) (indices : List Operand)
  | call (callee : Operand) (args : List Operand)
  | icmp (c : Comparison) (x y : Operand)
  | bin (op : BinOp) (x y : Operand)
  | cast (c : Cast) (source : Operand) (target : Ty)
  | extract (x : Operand) (indices : List Nat)
  | insert (x elem : Operand) (indices : List Nat)
  /-- the value that comes with the block control came from -/
  | phi (incoming : List (Operand × Operand))
  | select
deriving Inhabited

/-- An instruction; its result, if it has one, goes to the register of its
number. -/
structure Inst where
  id : Nat
  name : String := ""
  ty : Ty
  op : Op
deriving Inhabited

/-- Whether an instruction has a result: stores and calls without one do not. -/
def Inst.hasResult (i : Inst) : Bool :=
  match i.op, i.ty with
  | .store .., _ => false
  | .call .., .void => false
  | _, _ => true

/-- How a block ends. -/
inductive Term where
  | ret (value : Option Operand)
  | br (target : Operand)
  | condBr (cond thenTarget elseTarget : Operand)
  | unreachable
  | switch
deriving Inhabited

/-- What is written to a block: an instruction, a stack slot or the end. -/
inductive Write where
  | inst | slot | term
deriving Repr, DecidableEq

/-- What it is to append an instruction. -/
def Op.write : Op → Write
  | .alloca _ => .slot
  | _ => .inst

structure Block where
  name : String
  insts : Array Inst := #[]
  term : Option Term := none
  /-- what was written to the block, in order -/
  writes : List Write := []
deriving Inhabited

structure Func where
  name : String
  result : Ty
  params : List (String × Ty)
  blocks : Array Block := #[]
  /-- whether the linkage is stated to be an external one -/
  linked : Bool := false
  /-- how often the function is said not to unwind -/
  nounwinds : Nat := 0
  /-- the number of the next register -/
  nextReg : Nat := 0
deriving Inhabited

def Func.signature (f : Func) : Ty := .func f.result (f.params.map (·.2))

structure Global where
  name : String
  content : Ty
  init : Option Const := none
  immutable : Bool := false
deriving Inhabited

structure Module where
  types : TypeDefs := #[]
  globals : Array Global := #[]
  funcs : Array Func := #[]
deriving Inhabited

namespace Func

/-- All instructions of a function in order. -/
def insts (f : Func) : List Inst := f.blocks.toList.flatMap (·.insts.toList)

/-- How the values of a function are written before they are numbered: those
without a name all go by zero. -/
def bareNames (f : Func) : Names where
  func _ := "@0"
  global _ := "@0"
  param i := localIdent ((f.params[i]?.map (·.1)).getD "") 0
  reg id := localIdent (((f.insts.find? (·.id == id)).map (·.name)).getD "") 0
  block i := localIdent ((f.blocks[i]?.map (·.name)).getD "") 0

end Func

/-- How the values in scope of a function are written before they are numbered. -/
def Module.bareNames (m : Module) (f : Func) : Names :=
  { f.bareNames with
    func := fun i => globalIdent ((m.funcs[i]?.map (·.name)).getD "") 0
    global := fun i => globalIdent ((m.globals[i]?.map (·.name)).getD "") 0 }

end Tenure.Ir

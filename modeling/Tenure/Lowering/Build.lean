import Tenure.Ir.Typing
import Tenure.Lowering.Fault
import Tenure.Program.Registry

/-!
# Building a module

The state of lowering is the module as far as it is built, with one function
under construction and a current block in it.  Instructions go to the end of a
block.  The instructions that the typing rules refuse make lowering crash.
-/

namespace Tenure.Ir

/-! ## Functions under construction -/

namespace Func

/-- Appends an instruction to a block. -/
def push (f : Func) (block : Nat) (name : String) (ty : Ty) (op : Op) : Func :=
  { f with
    blocks := f.blocks.modify block fun b =>
      { b with
        insts := b.insts.push { id := f.nextReg, name, ty, op }
        writes := b.writes ++ [op.write] }
    nextReg := f.nextReg + 1 }

/-- Ends a block. -/
def terminate (f : Func) (block : Nat) (t : Term) : Func :=
  { f with blocks := f.blocks.modify block fun b =>
    { b with term := some t, writes := b.writes ++ [.term] } }

def addBlock (f : Func) (name : String) : Func :=
  { f with blocks := f.blocks.push { name } }

/-- Whether a block has its end. -/
def isTerminated (f : Func) (block : Nat) : Bool :=
  match f.blocks[block]? with
  | some b => b.term.isSome
  | none => false

/-- Adds an incoming value to a phi of a block. -/
def addIncoming (f : Func) (block reg : Nat) (x source : Operand) : Func :=
  let extend (i : Inst) : Inst :=
    if i.id = reg then
      match i.op with
      | .phi incoming => { i with op := .phi (incoming ++ [(x, source)]) }
      | _ => i
    else i
  { f with blocks := f.blocks.modify block fun b => { b with insts := b.insts.map extend } }

end Func
end Tenure.Ir

namespace Tenure.Lowering

open Ir (Ty Const Operand Op Term Comparison BinOp)

/-- Whether array accesses are guarded. -/
inductive BoundsPolicy where
  | trap
  | unchecked
deriving Repr, DecidableEq

structure Options where
  bounds : BoundsPolicy := .trap
  /-- whether compiled code prints the kind of every expression it evaluates -/
  flares : Bool := false
deriving Repr, DecidableEq

/-- What lowering reads but never changes. -/
structure Env where
  program : Program
  options : Options := {}

/-- The stack slot of an open local. -/
structure Slot where
  address : Operand
  elem : Ty

structure State where
  module : Ir.Module := {}
  /-- the layouts of arrays by the way their referends are written -/
  arrayLayouts : List (String × Ty) := []
  /-- the globals of the string literals met so far -/
  literals : List (ByteArray × Operand) := []
  /-- the functions of the module by the indices of the program -/
  funcs : Array (Option Nat) := #[]
  /-- the drop functions by the indices of the structs -/
  dropFuncs : Array Nat := #[]
  /-- the globals of the method tables by the positions of the edges -/
  itables : Array Nat := #[]
  /-- the function under construction -/
  func : Nat := 0
  /-- the block that instructions go to -/
  block : Nat := 0
  /-- the number of blocks added to the function, the first one apart -/
  blockCount : Nat := 0
  /-- the open locals -/
  slots : List (Int × Slot) := []

/-- A part of lowering.  A fault keeps the state: what was built before it is
still there when operands are released on the way out. -/
abbrev Build := ReaderT Env (EStateM Fault State)

def violation {α : Type} (v : Violation) : Build α := throw (.violation v)

def crash {α : Type} : Build α := throw .crash

/-- What must be there. -/
def require {α : Type} : Option α → Build α
  | some a => return a
  | none => crash

def getProgram : Build Program := return (← read).program

/-! ## Blocks -/

def modifyFunc (f : Ir.Func → Ir.Func) : Build Unit :=
  modify fun s => { s with module :=
    { s.module with funcs := s.module.funcs.modify s.func f } }

/-- The function under construction. -/
def currentFunc : Build Ir.Func := do
  let s ← get
  require s.module.funcs[s.func]?

def setBlock (b : Nat) : Build Unit := modify fun s => { s with block := b }

def currentBlock : Build Nat := return (← get).block

/-- Whether control never reaches what would be appended now. -/
def terminated : Build Bool := do
  let s ← get
  return (s.module.funcs[s.func]?.map (·.isTerminated s.block)).getD false

/-- Adds a block and gives its position; its name is the label and a number. -/
def addBlock (label : String) : Build Nat := do
  let n := (← get).blockCount + 1
  modify fun s => { s with blockCount := n }
  let position := (← currentFunc).blocks.size
  modifyFunc (·.addBlock (label ++ toString n))
  return position

def terminateBlock (b : Nat) (t : Term) : Build Unit := modifyFunc (·.terminate b t)

def terminate (t : Term) : Build Unit := do terminateBlock (← currentBlock) t

/-- Starts the construction of a function at a fresh first block. -/
def beginFunc (i : Nat) : Build Unit := do
  modify fun s => { s with func := i, blockCount := 0, slots := [] }
  let position := (← currentFunc).blocks.size
  modifyFunc (·.addBlock "entry")
  setBlock position

/-! ## Instructions -/

/-- Appends an instruction to a block and gives its result. -/
def emitTo (block : Nat) (name : String) (ty : Ty) (op : Op) : Build Operand := do
  let id := (← currentFunc).nextReg
  modifyFunc (·.push block name ty op)
  return .reg id ty

def emit (ty : Ty) (op : Op) : Build Operand := do emitTo (← currentBlock) "" ty op

/-- A stack slot in the first block, so that loops do not allocate it anew. -/
def entryAlloca (t : Ty) (name : String) : Build Operand :=
  emitTo 0 name (.ptr t) (.alloca t)

def typeDefs : Build Ir.TypeDefs := return (← get).module.types

def emitLoad (t : Ty) (source : Operand) : Build Operand := emit t (.load t source)

/-- Stores a value through a pointer to values of its type. -/
def emitStore (value dest : Operand) : Build Unit := do
  match dest.ty.pointee? with
  | some elem =>
      if value.ty.same elem then
        let _ ← emit .void (.store value dest)
      else crash
  | none => crash

def emitGep (t : Ty) (source : Operand) (indices : List Operand) : Build Operand := do
  let ty ← require (Ir.gepType? (← typeDefs) t source.ty (indices.map (·.indexInfo)))
  emit ty (.gep t source indices)

/-- Calls a function from a block. -/
def emitCallFrom (block : Nat) (callee : Operand) (args : List Operand) : Build Operand := do
  let ty ← require callee.ty.resultType?
  emitTo block "" ty (.call callee args)

def emitCall (callee : Operand) (args : List Operand) : Build Operand := do
  emitCallFrom (← currentBlock) callee args

def emitCompareFrom (block : Nat) (c : Comparison) (x y : Operand) : Build Operand := do
  if x.ty.isComparable then emitTo block "" .i1 (.icmp c x y) else crash

def emitCompare (c : Comparison) (x y : Operand) : Build Operand := do
  emitCompareFrom (← currentBlock) c x y

def emitBin (op : BinOp) (x y : Operand) : Build Operand := emit x.ty (.bin op x y)

def emitBitcast (x : Operand) (target : Ty) : Build Operand := emit target (.cast .bitcast x target)

def emitTrunc (x : Operand) (target : Ty) : Build Operand :=
  if x.ty.canTruncate target then emit target (.cast .trunc x target) else crash

def emitExtract (x : Operand) (i : Nat) : Build Operand := do
  let ty ← require (Ir.memberType? (← typeDefs) x.ty [i])
  emit ty (.extract x [i])

/-- Puts an element into an aggregate whose element there has its type. -/
def emitInsert (x elem : Operand) (i : Nat) : Build Operand := do
  let ty ← require (Ir.memberType? (← typeDefs) x.ty [i])
  if ty.same elem.ty then emit x.ty (.insert x elem [i]) else crash

/-! ## Functions of the module -/

/-- The address of a function of the module. -/
def funcOperand (i : Nat) : Build Operand := do
  let f ← require (← get).module.funcs[i]?
  return .const (.func i f.signature)

/-- Adds a function and gives its position. -/
def addFunc (f : Ir.Func) : Build Nat := do
  let position := (← get).module.funcs.size
  modify fun s => { s with module := { s.module with funcs := s.module.funcs.push f } }
  return position

/-- Adds a constant global and gives its position. -/
def addGlobal (name : String) (init : Const) : Build Nat := do
  let position := (← get).module.globals.size
  modify fun s => { s with module :=
    { s.module with
      globals := s.module.globals.push
        { name, content := init.ty, init := some init, immutable := true } } }
  return position

/-- The functions of the runtime, in the order of their declaration. -/
inductive RuntimeFunc where
  | malloc | free | trap | strlen | initStr | addStr | eqStr | printStr | intToCStr
deriving Repr, DecidableEq

namespace RuntimeFunc

def all : List RuntimeFunc :=
  [malloc, free, trap, strlen, initStr, addStr, eqStr, printStr, intToCStr]

def position : RuntimeFunc → Nat
  | malloc => 0
  | free => 1
  | trap => 2
  | strlen => 3
  | initStr => 4
  | addStr => 5
  | eqStr => 6
  | printStr => 7
  | intToCStr => 8

/-- Lengths and the number to be formatted are 32 bits wide. -/
def declaration : RuntimeFunc → Ir.Func
  | malloc => { name := "malloc", result := .i8Ptr, params := [("size", .i64)] }
  | free => { name := "free", result := .void, params := [("ptr", .i8Ptr)] }
  | trap => { name := "llvm.trap", result := .void, params := [] }
  | strlen => { name := "strlen", result := .i64, params := [("s", .i8Ptr)] }
  | initStr =>
      { name := "__vinitStr", result := .void,
        params := [("newStr", .i8Ptr), ("chars", .i8Ptr), ("len", .i32)] }
  | addStr =>
      { name := "__vaddStr", result := .void,
        params := [("a", .i8Ptr), ("b", .i8Ptr), ("dest", .i8Ptr)] }
  | eqStr => { name := "__veqStr", result := .i8, params := [("a", .i8Ptr), ("b", .i8Ptr)] }
  | printStr => { name := "__vprintStr", result := .void, params := [("a", .i8Ptr)] }
  | intToCStr =>
      { name := "__vintToCStr", result := .void,
        params := [("n", .i32), ("dest", .i8Ptr), ("destSize", .i32)] }

/-- The address of a function of the runtime. -/
def operand (f : RuntimeFunc) : Operand := .const (.func f.position f.declaration.signature)

end RuntimeFunc
end Tenure.Lowering

import Tenure.Interp.Arith
import Tenure.Interp.Memory
import Tenure.Ir.Typing

/-!
# Operands

The values of constants and of the registers of an active call.
-/

namespace Tenure.Interp

open Ir (Const Operand Inst Func)

/-- An active call: where it is, what its registers hold, and which stack slots
die with it. -/
structure Frame where
  func : Nat
  args : Array Value
  regs : Std.HashMap Nat Value := {}
  slots : List Nat := []
  block : Nat := 0
  /-- what is left of the block; the head is the instruction under way -/
  todo : List Inst := []

/-- The code a machine runs, and where its globals are: the first objects of
memory, in their order. -/
abbrev Code := Ir.Module

namespace Code

/-- The name a function is known by. -/
def funcName (code : Code) (i : Nat) : String :=
  Ir.knownName ((code.funcs[i]?.map (·.name)).getD "")

/-- The function under way. -/
def current (code : Code) (f : Frame) : Func := (code.funcs[f.func]?).getD default

/-- An operand as it is written in messages. -/
def operandText (code : Code) (f : Frame) (x : Operand) : String :=
  x.ident (code.bareNames (code.current f))

end Code

/-- The kind of a constant that the machine does not have. -/
def constantKind : Const → String
  | .real _ => "*constant.Float"
  | .intToPtr .. => "*constant.ExprIntToPtr"
  | _ => "constant"

def asInt : Value → Access Int64
  | .int n => return n
  | _ => Access.crash

def asPointer : Value → Access Pointer
  | .ptr p => return p
  | _ => Access.crash

def asItems : Value → Access (List Value)
  | .agg items => return items
  | _ => Access.crash

/-- The value of a constant. -/
def evalConst (code : Code) : Const → Access Value
  | .int bits n => return .int (canonical bits (.ofInt n))
  | .null _ => return .ptr {}
  | .undef t | .zero t => Access.check (zeroValue (t.expand code.types))
  | .struct _ fields => return .agg (← evalConsts fields)
  | .array _ elems => return .agg (← evalConsts elems)
  | .chars bytes => return .agg (bytes.data.toList.map fun b => .int b.toInt8.toInt64)
  | .func i _ => return .ptr { base := .function i (code.funcName i) }
  | .global i _ => return .ptr { base := .object i .global }
  | .gep _ elem source indices => do
      let is ← evalIndices indices
      let p ← asPointer (← evalConst code source)
      return .ptr (← Access.check (elementAddress (elem.expand code.types) p is))
  | .bitcast source _ => evalConst code source
  | .ptrToInt source _ => do
      return .int (← addressOf (← asPointer (← evalConst code source)))
  | c => Access.raise (.unsupportedConstant (constantKind c))
where
  evalConsts : List Const → Access (List Value)
    | [] => return []
    | c :: cs => do
        let v ← evalConst code c
        return v :: (← evalConsts cs)
  evalIndices : List Const → Access (List Int64)
    | [] => return []
    | c :: cs => do
        let i ← asInt (← evalConst code c)
        return i :: (← evalIndices cs)

/-- The value of an operand. -/
def eval (code : Code) (f : Frame) (x : Operand) : Access Value := do
  let undefined : Access Value :=
    Access.raise (.undefinedValue (code.operandText f x) (code.funcName f.func))
  match x with
  | .const c => evalConst code c
  | .param i _ =>
      match f.args[i]? with
      | some v => return v
      | none => undefined
  | .reg id _ =>
      match f.regs[id]? with
      | some v => return v
      | none => undefined
  | .block _ => undefined

/-- The value of an operand that must be a pointer. -/
def evalPointer (code : Code) (f : Frame) (x : Operand) : Access Pointer := do
  match ← eval code f x with
  | .ptr p => return p
  | _ =>
      if x.isWritable then Access.raise (.notAPointer (code.operandText f x))
      else Access.crash

def evalInt (code : Code) (f : Frame) (x : Operand) : Access Int64 := do
  asInt (← eval code f x)

/-- The static type of an operand; one that has none crashes. -/
def staticType (x : Operand) : Access Ir.Ty :=
  match x.ty with
  | .invalid => Access.crash
  | t => return t

/-- The width of an operand that must be of an integer type. -/
def staticWidth (x : Operand) : Access Nat :=
  match x.ty with
  | .int bits => return bits
  | _ => Access.crash

/-- The item at a path inside an aggregate. -/
def extract : Value → List Nat → Access Value
  | v, [] => return v
  | v, i :: is => do
      match (← asItems v)[i]? with
      | some item => extract item is
      | none => Access.crash

/-- An aggregate with the item at a path replaced. -/
def insert : Value → Value → List Nat → Access Value
  | _, elem, [] => return elem
  | v, elem, i :: is => do
      let items ← asItems v
      match items[i]? with
      | some item => return .agg (items.set i (← insert item elem is))
      | none => Access.crash

end Tenure.Interp

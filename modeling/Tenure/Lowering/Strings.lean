import Tenure.Lowering.Counting

/-!
# Strings and builtins

String literals are shared constants that code copies into string objects.
Builtins are externs that are lowered in place; the strings they are given are
released once they have been used.
-/

namespace Tenure.Lowering

open Ir (Ty Const Operand BinOp Comparison)

/-- The address of the zero-terminated bytes of a literal; equal literals share
them. -/
def literal (bytes : ByteArray) : Build Operand := do
  match (← get).literals.find? (·.1 == bytes) with
  | some (_, x) => return x
  | none =>
      let chars : Const := .chars (bytes.push 0)
      let name := "__strlit." ++ toString (← get).literals.length
      let i ← addGlobal name chars
      let x : Operand := .const
        (.gep .i8Ptr chars.ty (.global i chars.ty) [.i32 0, .i32 0])
      modify fun s => { s with literals := (bytes, x) :: s.literals }
      return x

/-- Allocates a string with room for a number of characters and the terminator;
the characters are not set. -/
def allocStr (length : Operand) : Build Operand := do
  let room ← emitBin .add length (.i64 1)
  let bytes ← emitBin .add (.const (sizeOf strType)) room
  let str ← allocObject strType bytes
  let address ← emitGep strType str [.i32 0, .i32 1]
  emitStore length address
  return str

/-- The address of the first character. -/
def strChars (str : Operand) : Build Operand :=
  emitGep strType str [.i32 0, .i32 2, .i64 0]

/-- The stored length. -/
def strLength (str : Operand) : Build Operand := do
  let address ← emitGep strType str [.i32 0, .i32 1]
  emitLoad .i64 address

/-- A new string with the characters of a literal. -/
def lowerLiteral (bytes : ByteArray) : Build Held := do
  if bytes.data.contains 0 then violation .zeroByteInLiteral
  let str ← allocStr (.i64 bytes.size)
  let dest ← strChars str
  let source ← literal bytes
  let _ ← emitCall RuntimeFunc.initStr.operand [dest, source, .i32 bytes.size]
  return .str str

/-- Prints the kind of an expression when control gets there. -/
def flare (kind : String) : Build Unit := do
  let text ← literal ("flare: " ++ kind ++ "\n").toUTF8
  let _ ← emitCall RuntimeFunc.printStr.operand [text]

/-! ## Builtins -/

/-- The externs that are lowered in place. -/
inductive Builtin where
  | int (op : BinOp)
  | bool (op : BinOp)
  | compare (c : Comparison)
  | not
  | negate
  | addStr
  | eqStr
  | print
  | intToStr
  | strLength
deriving Repr, DecidableEq

namespace Builtin

def ofName? : String → Option Builtin
  | "__addIntInt" => some (int .add)
  | "__subIntInt" => some (int .sub)
  | "__multiplyIntInt" => some (int .mul)
  | "__divideIntInt" => some (int .sdiv)
  | "__modIntInt" => some (int .srem)
  | "__eqIntInt" => some (compare .eq)
  | "__lessThanInt" => some (compare .slt)
  | "__lessThanOrEqInt" => some (compare .sle)
  | "__greaterThanInt" => some (compare .sgt)
  | "__greaterThanOrEqInt" => some (compare .sge)
  | "__eqBoolBool" => some (compare .eq)
  | "__and" => some (bool .and)
  | "__or" => some (bool .or)
  | "__not" => some not
  | "__negateInt" => some negate
  | "__addStrStr" => some addStr
  | "__eqStrStr" => some eqStr
  | "__print" => some print
  | "__castIntStr" => some intToStr
  | "__strLength" => some Builtin.strLength
  | _ => none

/-- The number of arguments. -/
def arity : Builtin → Nat
  | int _ | bool _ | compare _ | addStr | eqStr => 2
  | not | negate | print | intToStr | strLength => 1

/-- The bytes that a number in decimal takes at most, with its terminator. -/
def intBufferSize : Nat := 21

/-- Formats an integer in a buffer on the stack and copies it into a string. -/
def lowerIntToStr (n : Operand) : Build Held := do
  let bufferType : Ty := .array intBufferSize .i8
  let buffer ← entryAlloca bufferType "intbuf"
  let start ← emitGep bufferType buffer [.i32 0, .i32 0]
  let narrow ← emitTrunc n .i32
  let _ ← emitCall RuntimeFunc.intToCStr.operand [narrow, start, .i32 intBufferSize]
  let length ← emitCall RuntimeFunc.strlen.operand [start]
  let str ← allocStr length
  let dest ← strChars str
  let count ← emitTrunc length .i32
  let _ ← emitCall RuntimeFunc.initStr.operand [dest, start, count]
  return .str str

/-- Lowers a builtin with one argument. -/
def lowerUnary (b : Builtin) (x : Held) : Build Held := do
  match b with
  | not => return .bool (← emitBin .xor x.value (.const (.bool true)))
  | negate => return .int (← emitBin .sub (.i64 0) x.value)
  | print =>
      let chars ← strChars x.value
      let _ ← emitCall RuntimeFunc.printStr.operand [chars]
      discard x
      return .void
  | intToStr => lowerIntToStr x.value
  | strLength =>
      let n ← Lowering.strLength x.value
      discard x
      return .int n
  | _ => crash

/-- Lowers a builtin with two arguments. -/
def lowerBinary (b : Builtin) (x y : Held) : Build Held := do
  match b with
  | int op => return .int (← emitBin op x.value y.value)
  | bool op => return .bool (← emitBin op x.value y.value)
  | compare c => return .bool (← emitCompare c x.value y.value)
  | addStr =>
      let m ← Lowering.strLength x.value
      let n ← Lowering.strLength y.value
      let length ← emitBin .add m n
      let dest ← allocStr length
      let a ← strChars x.value
      let b ← strChars y.value
      let d ← strChars dest
      let _ ← emitCall RuntimeFunc.addStr.operand [a, b, d]
      discard x
      discard y
      return .str dest
  | eqStr =>
      let a ← strChars x.value
      let b ← strChars y.value
      let equal ← emitCall RuntimeFunc.eqStr.operand [a, b]
      let result ← emitCompare .ne equal (.const (.int 8 0))
      discard x
      discard y
      return .bool result
  | _ => crash

/-- Lowers a builtin. -/
def lower (b : Builtin) : List Held → Build Held
  | [x] => b.lowerUnary x
  | [x, y] => b.lowerBinary x y
  | _ => crash

end Builtin
end Tenure.Lowering

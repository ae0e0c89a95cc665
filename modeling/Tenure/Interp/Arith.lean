import Tenure.Ir.Code
import Tenure.Interp.Fault

/-!
# Integer arithmetic

An integer of a width is kept in canonical form: one bit as zero or one, any
other width extended by its sign.  Operations work on whole words and bring the
result back into canonical form.
-/

namespace Tenure.Interp

open Ir (BinOp Comparison)

/-- The canonical form of the low bits of a word. -/
def canonical (bits : Nat) (n : Int64) : Int64 :=
  if bits = 1 then n &&& 1
  else if 64 ≤ bits then n
  else .ofBitVec ((n.toBitVec.setWidth bits).signExtend 64)

/-- The low bits of a word, extended by zeros. -/
def zeroExtended (bits : Nat) (n : Int64) : Int64 :=
  if 64 ≤ bits then n else .ofBitVec ((n.toBitVec.setWidth bits).setWidth 64)

/-- A binary operation on words; `none` if the machine does not have it. -/
def wordOp : BinOp → Option (Int64 → Int64 → Except Fault Int64)
  | .add => some fun a b => .ok (a + b)
  | .sub => some fun a b => .ok (a - b)
  | .mul => some fun a b => .ok (a * b)
  | .sdiv => some fun a b => if b = 0 then .error (.error .divisionByZero) else .ok (a / b)
  | .srem => some fun a b => if b = 0 then .error (.error .divisionByZero) else .ok (a % b)
  | .and => some fun a b => .ok (a &&& b)
  | .or => some fun a b => .ok (a ||| b)
  | .xor => some fun a b => .ok (a ^^^ b)
  | .shl | .udiv => none

/-- The comparison of two integers of a width: signed on the words as they are,
unsigned on the low bits. -/
def compareInts (c : Comparison) (bits : Nat) (a b : Int64) : Bool :=
  let ua := (zeroExtended bits a).toUInt64
  let ub := (zeroExtended bits b).toUInt64
  match c with
  | .eq => a == b
  | .ne => a != b
  | .slt => a < b
  | .sle => a ≤ b
  | .sgt => b < a
  | .sge => b ≤ a
  | .ult => ua < ub
  | .ule => ua ≤ ub
  | .ugt => ub < ua
  | .uge => ub ≤ ua

/-- Pointers are equal or not; they have no order. -/
def comparePointers (c : Comparison) (p q : Pointer) : Except Fault Bool :=
  match c with
  | .eq => .ok (p == q)
  | .ne => .ok (p != q)
  | c => .error (.error (.unorderedPointers c.text))

/-- A truth value as an integer. -/
def truth (b : Bool) : Value := .int (if b then 1 else 0)

end Tenure.Interp

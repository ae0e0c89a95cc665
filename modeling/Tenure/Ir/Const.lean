import Tenure.Ir.Ty
import Tenure.Text.Binary64

/-!
# Constants

A constant is written with its type in front; the text without the type is its
identifier.
-/

namespace Tenure.Ir

/-- A constant.  Functions and globals are constants: their addresses. -/
inductive Const where
  | int (bits : Nat) (value : Int)
  | null (ty : Ty)
  | undef (ty : Ty)
  | zero (ty : Ty)
  | struct (ty : Ty) (fields : List Const)
  | array (ty : Ty) (elems : List Const)
  | chars (bytes : ByteArray)
  | real (text : String)
  /-- a function by its position in the module, with its signature -/
  | func (index : Nat) (signature : Ty)
  /-- a global by its position in the module, with the type of its content -/
  | global (index : Nat) (content : Ty)
  | gep (ty elem : Ty) (source : Const) (indices : List Const)
  | bitcast (source : Const) (target : Ty)
  | ptrToInt (source : Const) (target : Ty)
  | intToPtr (source : Const) (target : Ty)
deriving Inhabited

namespace Const

def i32 (n : Int) : Const := int 32 n
def i64 (n : Int) : Const := int 64 n
def bool (b : Bool) : Const := int 1 (if b then 1 else 0)

def ty : Const → Ty
  | int bits _ => .int bits
  | null ty | undef ty | zero ty | struct ty _ | array ty _ | gep ty .. => ty
  | chars bytes => .array bytes.size .i8
  | real _ => .double
  | func _ signature => .ptr signature
  | global _ content => .ptr content
  | bitcast _ target | ptrToInt _ target | intToPtr _ target => target

end Const

/-! ## Integers -/

namespace Numeral

/-- The share of distinct digits among the first digits of a numeral. -/
def variety (digits : List Char) (most : Nat) : Text.Binary64 :=
  .nearest digits.eraseDups.length (min digits.length most)

/-- The greatest variety at which a hexadecimal numeral of a length is still
taken for a round one. -/
def roundVariety (length : Nat) : Text.Binary64 :=
  let l := min length 16
  if l < 4 then ⟨0, 0⟩
  else if l ≤ 6 then .nearest 2 l
  else if l ≤ 10 then .nearest 3 l
  else .nearest 4 l

/-- Whether a number is written in hexadecimal: it is large, its hexadecimal
digits are few, and its decimal digits are more varied. -/
def prefersHex (n : Nat) : Bool :=
  let hex := (Text.upperHex n).toList
  let dec := (toString n).toList
  let h := variety hex 16
  let d := variety dec 10
  4096 ≤ n && h.le ((roundVariety hex.length).add (.nearest 1 100)) &&
    (h.add (.nearest 2 10)).le d

/-- An integer of a width as it is written. -/
def text (bits : Nat) (n : Int) : String :=
  if bits = 1 then if n = 0 then "false" else if n = 1 then "true" else toString n
  else if 0 ≤ n ∧ prefersHex n.toNat then "u0x" ++ Text.upperHex n.toNat
  else toString n

end Numeral

/-! ## Text -/

/-- How the values in scope are written. -/
structure Names where
  func : Nat → String
  global : Nat → String
  param : Nat → String
  reg : Nat → String
  block : Nat → String

namespace Const

/-- Whether the constant can be written: a truth value is zero or one. -/
def isWritable : Const → Bool
  | int 1 n => n == 0 || n == 1
  | struct _ fields => allWritable fields
  | array _ elems => allWritable elems
  | gep _ _ source indices => source.isWritable && allWritable indices
  | bitcast source _ | ptrToInt source _ | intToPtr source _ => source.isWritable
  | _ => true
where
  allWritable : List Const → Bool
    | [] => true
    | c :: cs => c.isWritable && allWritable cs

/-- A constant as it is written, without its type. -/
def ident (names : Names) : Const → String
  | int bits n => Numeral.text bits n
  | null _ => "null"
  | undef _ => "undef"
  | zero _ => "zeroinitializer"
  | struct _ fields => Ty.bracedText (typedTexts fields)
  | array _ elems => "[" ++ ", ".intercalate (typedTexts elems) ++ "]"
  | chars bytes => "c\"" ++ escapedBytes bytes ++ "\""
  | real s => s
  | func i _ => names.func i
  | global i _ => names.global i
  | gep _ elem source indices =>
      "getelementptr (" ++ ", ".intercalate
        (elem.text :: (source.ty.text ++ " " ++ source.ident names) :: typedTexts indices) ++ ")"
  | bitcast source target =>
      "bitcast (" ++ source.ty.text ++ " " ++ source.ident names ++ " to " ++ target.text ++ ")"
  | ptrToInt source target =>
      "ptrtoint (" ++ source.ty.text ++ " " ++ source.ident names ++ " to " ++ target.text ++ ")"
  | intToPtr source target =>
      "inttoptr (" ++ source.ty.text ++ " " ++ source.ident names ++ " to " ++ target.text ++ ")"
where
  typedTexts : List Const → List String
    | [] => []
    | c :: cs => (c.ty.text ++ " " ++ c.ident names) :: typedTexts cs

/-- A constant as it is written. -/
def text (names : Names) (c : Const) : String := c.ty.text ++ " " ++ c.ident names

end Const
end Tenure.Ir

/-!
# Run-time values

Integers of every width are kept in one 64-bit word.  A pointer remembers what it
points into and how far, so that two objects are never confused, whatever their
addresses.
-/

namespace Tenure.Interp

/-- Where an object lives. -/
inductive Region where
  | heap
  | stack
  | global
deriving Repr, DecidableEq

def Region.text : Region → String
  | heap => "heap"
  | stack => "stack"
  | global => "global"

/-- What a pointer is an offset from. -/
inductive Base where
  | null
  /-- an object by its position in memory; its region never changes -/
  | object (id : Nat) (region : Region)
  /-- a function by its position in the module, with the name it is known by -/
  | function (index : Nat) (name : String)
deriving Repr, DecidableEq

structure Pointer where
  base : Base := .null
  offset : Int64 := 0
deriving DecidableEq

namespace Pointer

def isNull (p : Pointer) : Bool := p.base = .null

/-- Objects are counted from one. -/
def text (p : Pointer) : String :=
  match p.base with
  | .function _ name => "@" ++ name
  | .null => "null+" ++ toString p.offset.toInt
  | .object id region =>
      region.text ++ "#" ++ toString (id + 1) ++ "+" ++ toString p.offset.toInt

/-- The pointer moved by a number of bytes. -/
def shift (p : Pointer) (n : Int64) : Pointer := { p with offset := p.offset + n }

/-- The pointer moved into a part of the object; a function has no parts. -/
def part (p : Pointer) (n : Int64) : Pointer :=
  match p.base with
  | .function .. => { base := .null, offset := p.offset + n }
  | _ => p.shift n

end Pointer

inductive Value where
  | int (n : Int64)
  | ptr (p : Pointer)
  | agg (items : List Value)
  /-- what a function without a result yields -/
  | nothing
deriving Inhabited

namespace Value

/-- Whether two values are the same; aggregates cannot be compared. -/
def same? : Value → Value → Option Bool
  | int m, int n => some (m == n)
  | ptr p, ptr q => some (p == q)
  | agg _, agg _ => none
  | nothing, nothing => some true
  | _, _ => some false

/-- A value as it is written in a log. -/
def text : Value → String
  | int n => toString n.toInt
  | ptr p => p.text
  | agg items => "[" ++ " ".intercalate (texts items) ++ "]"
  | nothing => "<nil>"
where
  texts : List Value → List String
    | [] => []
    | v :: vs => v.text :: texts vs

end Value
end Tenure.Interp

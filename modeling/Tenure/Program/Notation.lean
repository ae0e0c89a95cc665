import Tenure.Program.Reference
import Tenure.Text.Blank
import Tenure.Text.Numeral

/-!
# The notation of types

A type is written `<ownership> <location> <referend>`, as `Reference.text`
prints it, or as the name of a primitive alone.  An array is written with its
size, or nothing, in brackets and its element type in angle brackets:
`share yonder [3]<share inline int>`.

Which names are structs and which are interfaces is a matter of the program at
hand, so reading takes the declared names; a name declared as both is a struct.
-/

namespace Tenure

/-- The names a type may mention. -/
structure Declared where
  structs : List String
  interfaces : List String

/-- Why a written type cannot be read. -/
inductive NotationError where
  | missing
  | malformed (text : String)
  | unknownOwnership (word text : String)
  | unknownLocation (word text : String)
  | malformedArray (text : String)
  | invalidSize (text : String)
  | undefined (name : String)
deriving Repr, DecidableEq

def NotationError.message : NotationError → String
  | missing => "missing type"
  | malformed s => s!"malformed type `{s}`"
  | unknownOwnership w s => s!"unknown ownership `{w}` in `{s}`"
  | unknownLocation w s => s!"unknown location `{w}` in `{s}`"
  | malformedArray s => s!"malformed array type `{s}`"
  | invalidSize s => s!"invalid array size `{s}`"
  | undefined s => s!"undefined type `{s}`"

namespace Notation

/-- Splits a text at its first occurrence of a character. -/
def splitAt? (c : Char) : List Char → Option (List Char × List Char)
  | [] => none
  | d :: s => if d = c then some ([], s) else (splitAt? c s).map fun (a, b) => (d :: a, b)

/-- The primitives that may stand alone. -/
def primitive? : String → Option Reference
  | "int" => some .int
  | "bool" => some .bool
  | "str" => some .str
  | "void" => some .void
  | _ => none

/-- A referend that is a primitive or a declared name. -/
def simpleReferend (names : Declared) (s : String) : Except NotationError Referend :=
  match primitive? s with
  | some r => .ok r.referend
  | none =>
      if names.structs.contains s then .ok (.struct (.interned s))
      else if names.interfaces.contains s then .ok (.interface (.interned s))
      else .error (.undefined s)

/-- The size and the element text of an array, split apart. -/
def arrayParts? (s : List Char) : Option (List Char × List Char) :=
  match s with
  | '[' :: body =>
      match splitAt? ']' body with
      | some (size, '<' :: rest) =>
          match rest.reverse with
          | '>' :: elem => some (size, elem.reverse)
          | _ => none
      | _ => none
  | _ => none

/-- The size between the brackets of an array: none at all, or a numeral that is
not negative. -/
def arraySize (size : List Char) : Except NotationError (Option Int) :=
  if size.isEmpty then .ok none
  else
    match Text.integer? 10 size with
    | some n => if 0 ≤ n then .ok (some n) else .error (.invalidSize (String.ofList size))
    | none => .error (.invalidSize (String.ofList size))

/-- The ownership, the location and the rest of a trimmed type. -/
def qualifiers (s : List Char) : Except NotationError (Ownership × Location × List Char) :=
  let text := String.ofList s
  match splitAt? ' ' s with
  | none => .error (.malformed text)
  | some (own, s') =>
      match splitAt? ' ' s' with
      | none => .error (.malformed text)
      | some (loc, rest) =>
          match Ownership.ofWord? (String.ofList own) with
          | none => .error (.unknownOwnership (String.ofList own) text)
          | some o =>
              match Location.ofWord? (String.ofList loc) with
              | none => .error (.unknownLocation (String.ofList loc) text)
              | some l => .ok (o, l, Text.trim rest)

/-- Reads a type; the fuel bounds the nesting of arrays. -/
def readWithin (names : Declared) : Nat → List Char → Except NotationError Reference
  | 0, _ => .error .missing
  | fuel + 1, s =>
      let s := Text.trim s
      if s.isEmpty then .error .missing
      else
        match primitive? (String.ofList s) with
        | some r => .ok r
        | none => do
            let (o, l, rest) ← qualifiers s
            if rest.head? = some '[' then
              match arrayParts? rest with
              | none => throw (.malformedArray (String.ofList rest))
              | some (size, elem) =>
                  let e ← readWithin names fuel elem
                  let n ← arraySize size
                  return ⟨o, l, .array n e.ownership e.location e.referend⟩
            else
              return ⟨o, l, ← simpleReferend names (String.ofList rest)⟩

end Notation

/-- Reads a written type.  The text of an element type is shorter than that of
its array, so the length of the text is fuel enough. -/
def Reference.read (names : Declared) (s : String) : Except NotationError Reference :=
  Notation.readWithin names (s.toList.length + 1) s.toList

end Tenure

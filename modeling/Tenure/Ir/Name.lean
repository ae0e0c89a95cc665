import Tenure.Text.Numeral
import Tenure.Text.Utf8

/-!
# Names in the intermediate representation

A name of letters, digits and `$-._` stands as it is; any other is quoted.  A
name that reads as a number is quoted too, since a bare number stands for a value
without a name, except among types, which always have names.
-/

namespace Tenure.Ir

/-- The characters a name may have without being quoted. -/
def isPlainByte (b : UInt8) : Bool :=
  let c := Char.ofNat b.toNat
  c.isAlphanum || c == '$' || c == '-' || c == '.' || c == '_'

/-- The bytes of a quoted text: what does not print, quotes and backslashes are
written as two hexadecimal digits. -/
def escapedByte (b : UInt8) : String :=
  if 0x20 ≤ b ∧ b ≤ 0x7E ∧ b ≠ 0x22 ∧ b ≠ 0x5C then String.singleton (Char.ofNat b.toNat)
  else "\\" ++ Text.upperHexByte b

def escapedBytes (bytes : ByteArray) : String :=
  String.join (bytes.data.toList.map escapedByte)

/-- A name, quoted if it has to be. -/
def quotedName (name : String) : String :=
  let bytes := Text.unpack name
  if bytes.data.all isPlainByte then name else "\"" ++ escapedBytes bytes ++ "\""

/-- Whether a name reads as an unsigned 64-bit number. -/
def isNumber (name : String) : Bool :=
  match Text.natural? 10 name.toList with
  | some n => n ≤ Text.maxUInt64
  | none => false

/-- The name of a value: what reads as a number is quoted. -/
def valueName (name : String) : String :=
  if isNumber name then "\"" ++ name ++ "\"" else quotedName name

def typeIdent (name : String) : String := "%" ++ quotedName name

/-- A value of a function; one without a name goes by its number. -/
def localIdent (name : String) (number : Nat) : String :=
  "%" ++ if name = "" then toString number else valueName name

/-- A function or a global; one without a name goes by its number. -/
def globalIdent (name : String) (number : Nat) : String :=
  "@" ++ if name = "" then toString number else valueName name

/-- The name that a function or a block is known by: a name that reads as a
signed number is its value in quotes, and one left out is zero. -/
def knownName (name : String) : String :=
  if name = "" then "0"
  else
    match Text.integer? 10 name.toList with
    | some n => "\"" ++ toString n ++ "\""
    | none => name

end Tenure.Ir

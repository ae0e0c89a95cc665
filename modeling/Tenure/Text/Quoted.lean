import Tenure.Text.Numeral
import Tenure.Text.Printable
import Tenure.Text.Utf8

/-!
# Quoted text

A byte string in double quotes, with an escape for every character that does not
print and for every byte that is not part of valid UTF-8.
-/

namespace Tenure.Text

/-- Lower-case hexadecimal digits, padded with zeros to a width. -/
def paddedHex (width n : Nat) : String :=
  let ds := Nat.toDigits 16 n
  String.ofList (List.replicate (width - ds.length) '0' ++ ds)

namespace Quoted

/-- One character between double quotes. -/
def char (c : Char) : String :=
  if c = '"' then "\\\""
  else if c = '\\' then "\\\\"
  else if isPrintable c then String.singleton c
  else
    match c.toNat with
    | 0x07 => "\\a"
    | 0x08 => "\\b"
    | 0x0C => "\\f"
    | 0x0A => "\\n"
    | 0x0D => "\\r"
    | 0x09 => "\\t"
    | 0x0B => "\\v"
    | n =>
        if n < 0x20 || n = 0x7F then "\\x" ++ paddedHex 2 n
        else if n < 0x10000 then "\\u" ++ paddedHex 4 n
        else "\\U" ++ paddedHex 8 n

/-- The pieces of a byte string; the fuel is its length. -/
def pieces : Nat → List UInt8 → List String
  | 0, _ => []
  | _, [] => []
  | fuel + 1, b :: rest =>
      match firstChar? (b :: rest) with
      | some (c, n) => char c :: pieces fuel ((b :: rest).drop n)
      | none => ("\\x" ++ lowerHexByte b) :: pieces fuel rest

end Quoted

/-- A byte string in double quotes. -/
def quoteBytes (bytes : ByteArray) : String :=
  "\"" ++ String.join (Quoted.pieces bytes.size bytes.data.toList) ++ "\""

/-- A text in double quotes. -/
def quote (s : String) : String :=
  "\"" ++ String.join (s.toList.map Quoted.char) ++ "\""

end Tenure.Text

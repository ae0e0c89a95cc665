/-!
# Base64

Binary data written in the sixty-four letter alphabet, padded with `=`.  Line
breaks inside the text do not count.
-/

namespace Tenure.Text.Base64

/-- The six bits a letter of the alphabet stands for. -/
def sextet (c : Char) : Option Nat :=
  let n := c.toNat
  if 'A'.toNat ≤ n ∧ n ≤ 'Z'.toNat then some (n - 'A'.toNat)
  else if 'a'.toNat ≤ n ∧ n ≤ 'z'.toNat then some (n - 'a'.toNat + 26)
  else if '0'.toNat ≤ n ∧ n ≤ '9'.toNat then some (n - '0'.toNat + 52)
  else if c = '+' then some 62
  else if c = '/' then some 63
  else none

/-- Decodes groups of four letters; only the last group may be padded. -/
def quanta : List Char → Option (List UInt8)
  | [] => some []
  | [a, b, '=', '='] => do
      let x := (← sextet a) * 64 + (← sextet b)
      return [UInt8.ofNat (x / 16)]
  | [a, b, c, '='] => do
      let x := ((← sextet a) * 64 + (← sextet b)) * 64 + (← sextet c)
      return [UInt8.ofNat (x / 1024), UInt8.ofNat (x / 4 % 256)]
  | a :: b :: c :: d :: rest => do
      let x := (((← sextet a) * 64 + (← sextet b)) * 64 + (← sextet c)) * 64 + (← sextet d)
      return UInt8.ofNat (x / 65536) :: UInt8.ofNat (x / 256 % 256) :: UInt8.ofNat (x % 256) ::
        (← quanta rest)
  | _ => none

/-- The bytes a text encodes, if it is well formed. -/
def decode? (s : List Char) : Option ByteArray :=
  (quanta (s.filter fun c => c != '\n' && c != '\r')).map fun bytes => ⟨bytes.toArray⟩

end Tenure.Text.Base64

/-!
# Numerals

Reading integers from text: a run of digits in a base, an optional sign, and
the bound of a 64-bit word.
-/

namespace Tenure.Text

/-- The value of a digit in a base up to sixteen. -/
def digitValue (base : Nat) (c : Char) : Option Nat :=
  let n := c.toNat
  let v? :=
    if '0'.toNat ≤ n ∧ n ≤ '9'.toNat then some (n - '0'.toNat)
    else if 'a'.toNat ≤ n ∧ n ≤ 'f'.toNat then some (n - 'a'.toNat + 10)
    else if 'A'.toNat ≤ n ∧ n ≤ 'F'.toNat then some (n - 'A'.toNat + 10)
    else none
  v?.filter (· < base)

/-- The number that a run of digits denotes, most significant digit first. -/
def digits? (base : Nat) (s : List Char) : Option Nat :=
  s.foldlM (fun acc c => (digitValue base c).map (acc * base + ·)) 0

/-- A non-empty run of digits. -/
def natural? (base : Nat) (s : List Char) : Option Nat :=
  if s.isEmpty then none else digits? base s

/-- The least and the greatest number a signed 64-bit word holds. -/
def minInt64 : Int := -9223372036854775808

@[inherit_doc minInt64] def maxInt64 : Int := 9223372036854775807

/-- The greatest number an unsigned 64-bit word holds. -/
def maxUInt64 : Nat := 18446744073709551615

/-- Keeps a number that a signed 64-bit word can hold. -/
def inInt64 (n : Int) : Option Int :=
  if minInt64 ≤ n ∧ n ≤ maxInt64 then some n else none

/-- Splits an optional sign off a numeral; the flag says that it was a minus. -/
def splitSign : List Char → Bool × List Char
  | '+' :: s => (false, s)
  | '-' :: s => (true, s)
  | s => (false, s)

/-- A signed numeral in a fixed base, within 64 bits. -/
def integer? (base : Nat) (s : List Char) : Option Int :=
  let (negative, body) := splitSign s
  (natural? base body).bind fun n => inInt64 (if negative then -(n : Int) else n)

/-- The base a numeral announces by its first characters, with the digits that
remain: `0x`, `0o` and `0b` need a digit after them, and any other leading zero
announces base eight. -/
def announcedBase : List Char → Nat × List Char
  | '0' :: c :: d :: s =>
      if c = 'x' ∨ c = 'X' then (16, d :: s)
      else if c = 'o' ∨ c = 'O' then (8, d :: s)
      else if c = 'b' ∨ c = 'B' then (2, d :: s)
      else (8, c :: d :: s)
  | '0' :: s => (8, s)
  | s => (10, s)

/-- An unsigned numeral in the base it announces, within 64 bits. -/
def announcedNatural? (s : List Char) : Option Nat :=
  if s.isEmpty then none
  else
    let (base, body) := announcedBase s
    (digits? base body).filter (· ≤ maxUInt64)

/-- A signed numeral in the base it announces, within 64 bits. -/
def announcedInteger? (s : List Char) : Option Int :=
  let (negative, body) := splitSign s
  (announcedNatural? body).bind fun n => inInt64 (if negative then -(n : Int) else n)

/-- Upper-case hexadecimal digits of a number, without leading zeros. -/
def upperHex (n : Nat) : String :=
  String.ofList ((Nat.toDigits 16 n).map Char.toUpper)

/-- Two upper-case hexadecimal digits of a byte. -/
def upperHexByte (b : UInt8) : String :=
  let n := b.toNat
  String.ofList ([n / 16, n % 16].map fun d => (Nat.digitChar d).toUpper)

/-- Two lower-case hexadecimal digits of a byte. -/
def lowerHexByte (b : UInt8) : String :=
  let n := b.toNat
  String.ofList ([n / 16, n % 16].map Nat.digitChar)

end Tenure.Text

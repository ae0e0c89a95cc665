/-!
# Rounding to 53 bits

The reals that a double-precision word can hold near a given rational: the
nearest `m * 2 ^ e` with `m < 2 ^ 53`, ties to the even `m`.  The exponent is
unbounded here, which suffices where a number is only compared or truncated.
-/

namespace Tenure.Text

/-- The non-negative number `mantissa * 2 ^ exponent`. -/
structure Binary64 where
  mantissa : Nat
  exponent : Int
deriving Repr, DecidableEq

namespace Binary64

/-- The quotient of two numbers rounded to the nearest integer, ties to even. -/
def roundDiv (num den : Nat) : Nat :=
  let q := num / den
  let r := num % den
  if 2 * r < den ∨ (2 * r = den ∧ q % 2 = 0) then q else q + 1

/-- The double nearest to `num / den`. -/
def nearest (num den : Nat) : Binary64 :=
  if num = 0 then ⟨0, 0⟩
  else
    -- scale so that the quotient has 53 or 54 bits, then drop the surplus bit
    let shift : Int := 53 - ((num.log2 : Int) - den.log2)
    let num' := if 0 ≤ shift then num * Nat.pow 2 shift.toNat else num
    let den' := if 0 ≤ shift then den else den * Nat.pow 2 (-shift).toNat
    if num' / den' < Nat.pow 2 53 then ⟨roundDiv num' den', -shift⟩
    else ⟨roundDiv num' (2 * den'), 1 - shift⟩

/-- The number as a fraction. -/
def fraction (x : Binary64) : Nat × Nat :=
  if 0 ≤ x.exponent then (x.mantissa * Nat.pow 2 x.exponent.toNat, 1)
  else (x.mantissa, Nat.pow 2 (-x.exponent).toNat)

/-- The sum of two doubles, rounded. -/
def add (x y : Binary64) : Binary64 :=
  let (a, b) := x.fraction
  let (c, d) := y.fraction
  nearest (a * d + c * b) (b * d)

/-- The order of the numbers. -/
def le (x y : Binary64) : Bool :=
  let (a, b) := x.fraction
  let (c, d) := y.fraction
  a * d ≤ c * b

/-- The integer part. -/
def floor (x : Binary64) : Nat :=
  let (a, b) := x.fraction
  a / b

end Binary64
end Tenure.Text

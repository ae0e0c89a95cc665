import Tenure.Text.Numeral
import Tenure.Text.Binary64

/-!
# Tags and the values of plain scalars

A scalar without quotes stands for a number, a truth value, a date or nothing if
it looks like one, and for its text otherwise.  The tag names what it is taken
for; a tag written in front of a scalar asks for it.
-/

namespace Tenure.Yaml

/-- A real number as a double holds it. -/
inductive Real where
  | nan
  | infinite (negative : Bool)
  | finite (negative : Bool) (magnitude : Text.Binary64)
deriving Repr, DecidableEq

/-- What a scalar stands for. -/
inductive Meaning where
  | null
  | bool (b : Bool)
  | int (n : Int)
  | real (x : Real)
  | timestamp
  | text
deriving Repr, DecidableEq

/-- The family that the short form `!!` of a tag abbreviates. -/
def tagFamily : String := "tag:yaml.org,2002:"

/-- The short form of a tag. -/
def shortTag (tag : String) : String :=
  let t := tag.toList
  let family := tagFamily.toList
  if family.isPrefixOf t then "!!" ++ String.ofList (t.drop family.length) else tag

namespace Plain

/-! ## Reals -/

/-- A decimal: the digits of its mantissa and the power of ten they are scaled
by. -/
structure Decimal where
  negative : Bool
  mantissa : Nat
  exponent : Int

/-- The exponent part of a decimal. -/
def exponent? : List Char → Option Int
  | [] => some 0
  | c :: rest =>
      if c = 'e' ∨ c = 'E' then
        let (negative, ds) := Text.splitSign rest
        (Text.natural? 10 ds).map fun n => if negative then -(n : Int) else n
      else none

/-- A decimal numeral: digits with an optional point and exponent. -/
def decimal? (s : List Char) : Option Decimal :=
  let (negative, body) := Text.splitSign s
  let whole := body.takeWhile Char.isDigit
  let rest := body.dropWhile Char.isDigit
  let (fraction, rest) :=
    match rest with
    | '.' :: r => (r.takeWhile Char.isDigit, r.dropWhile Char.isDigit)
    | r => ([], r)
  if whole.isEmpty ∧ fraction.isEmpty then none
  else
    match Text.digits? 10 (whole ++ fraction), exponent? rest with
    | some m, some e => some ⟨negative, m, e - fraction.length⟩
    | _, _ => none

/-- The double nearest to a decimal, unless it is too large for one. -/
def real? (d : Decimal) : Option Real :=
  let size : Int := (Nat.toDigits 10 d.mantissa).length + d.exponent
  if d.mantissa = 0 ∨ size < -400 then some (.finite d.negative ⟨0, 0⟩)
  else if 400 < size then none
  else
    let x :=
      if 0 ≤ d.exponent then Text.Binary64.nearest (d.mantissa * Nat.pow 10 d.exponent.toNat) 1
      else Text.Binary64.nearest d.mantissa (Nat.pow 10 (-d.exponent).toNat)
    if Nat.pow 2 1024 ≤ x.floor then none else some (.finite d.negative x)

/-! ## Dates -/

/-- A number of one or two digits within bounds, and the rest. -/
def field? (low high : Nat) (s : List Char) : Option (Nat × List Char) :=
  let ds := (s.take 2).takeWhile Char.isDigit
  match Text.natural? 10 ds with
  | some n => if low ≤ n ∧ n ≤ high then some (n, s.drop ds.length) else none
  | none => none

def isLeap (year : Nat) : Bool :=
  year % 4 == 0 && (year % 100 != 0 || year % 400 == 0)

def daysIn (year month : Nat) : Nat :=
  if month == 2 then (if isLeap year then 29 else 28)
  else if [4, 6, 9, 11].contains month then 30
  else 31

/-- The rest after a character. -/
def after? (c : Char) : List Char → Option (List Char)
  | d :: s => if d = c then some s else none
  | [] => none

/-- A time zone: `Z`, or a signed offset in hours and minutes. -/
def isZone : List Char → Bool
  | ['Z'] => true
  | [sign, a, b, ':', c, d] =>
      (sign == '+' || sign == '-') && [a, b, c, d].all Char.isDigit &&
        (Text.natural? 10 [a, b]).any (· ≤ 24) && (Text.natural? 10 [c, d]).any (· < 60)
  | _ => false

/-- The rest after a fraction of a second, if there is one. -/
def dropFraction : List Char → List Char
  | c :: d :: s =>
      if (c = '.' ∨ c = ',') ∧ d.isDigit then s.dropWhile Char.isDigit else c :: d :: s
  | s => s

/-- A time of day and what follows it. -/
def clock? (s : List Char) : Option (List Char) := do
  let (_, s) ← field? 0 23 s
  let s ← after? ':' s
  let (_, s) ← field? 0 59 s
  let s ← after? ':' s
  let (_, s) ← field? 0 59 s
  return dropFraction s

/-- Whether a text is a date, or a date with a time of day. -/
def isTimestamp (s : List Char) : Bool :=
  if (s.takeWhile Char.isDigit).length != 4 then false
  else
    let date? : Option (List Char) := do
      let year ← Text.natural? 10 (s.take 4)
      let s ← after? '-' (s.drop 4)
      let (month, s) ← field? 1 12 s
      let s ← after? '-' s
      let (_, s) ← field? 1 (daysIn year month) s
      return s
    match date? with
    | none => false
    | some [] => true
    | some (c :: time) =>
        if c = 'T' ∨ c = 't' then (clock? time).any isZone
        else if c = ' ' then (clock? time).any List.isEmpty
        else false

/-! ## Numbers, words and the rest -/

/-- The words with a meaning of their own. -/
def word? : String → Option Meaning
  | "" | "~" | "null" | "Null" | "NULL" => some .null
  | "true" | "True" | "TRUE" => some (.bool true)
  | "false" | "False" | "FALSE" => some (.bool false)
  | ".nan" | ".NaN" | ".NAN" => some (.real .nan)
  | ".inf" | ".Inf" | ".INF" | "+.inf" | "+.Inf" | "+.INF" => some (.real (.infinite false))
  | "-.inf" | "-.Inf" | "-.INF" => some (.real (.infinite true))
  | _ => none

/-- Digits after a base marker that may be signed, as in `0b+1`. -/
def marked? (base : Nat) (s : List Char) : Option Meaning :=
  match Text.integer? base s with
  | some n => some (.int n)
  | none => ((Text.natural? base s).filter (· ≤ Text.maxUInt64)).map fun n => .int n

/-- A text that starts like a number. -/
def numeral? (asked : String) (s : List Char) : Option Meaning :=
  if (asked = "" ∨ asked = "!!timestamp") ∧ isTimestamp s then some .timestamp
  else
    let plain := s.filter (· != '_')
    match Text.announcedInteger? plain with
    | some n => some (.int n)
    | none =>
        match Text.announcedNatural? plain with
        | some n => some (.int n)
        | none =>
            match (decimal? plain).bind real? with
            | some x => some (.real x)
            | none =>
                match plain with
                | '0' :: 'b' :: ds => marked? 2 ds
                | '-' :: '0' :: 'b' :: ds => (Text.integer? 2 ('-' :: ds)).map .int
                | '0' :: 'o' :: ds => marked? 8 ds
                | '-' :: '0' :: 'o' :: ds => (Text.integer? 8 ('-' :: ds)).map .int
                | _ => none

/-- What a text without quotes stands for, when a tag may have been asked for. -/
def meaning (asked : String) (s : String) : Meaning :=
  if asked = "!!str" then .text
  else
    match s.toList with
    | [] => .null
    | c :: rest =>
        if c.isDigit || c == '+' || c == '-' then
          (word? s <|> numeral? asked (c :: rest)).getD .text
        else if c == '.' then
          (word? s <|> ((decimal? (c :: rest)).bind real?).map Meaning.real).getD .text
        else (word? s).getD .text

end Plain

/-- The tag of a meaning. -/
def Meaning.tag : Meaning → String
  | null => "!!null"
  | bool _ => "!!bool"
  | int _ => "!!int"
  | real _ => "!!float"
  | timestamp => "!!timestamp"
  | text => "!!str"

/-- The tags that ask for a meaning; any other tag leaves the text as it is. -/
def isCoreTag (tag : String) : Bool :=
  ["", "!!str", "!!bool", "!!int", "!!float", "!!null", "!!timestamp"].contains tag

/-- The double nearest to an integer. -/
def realOfInt (n : Int) : Real :=
  .finite (n < 0) (Text.Binary64.nearest n.natAbs 1)

/-- What a scalar under a tag stands for, with the tag it ends up with; `none` if
the text cannot be what the tag asks for. -/
def resolve (tag : String) (s : String) : Option (String × Meaning) :=
  if !isCoreTag tag then some (tag, .text)
  else
    let m := Plain.meaning tag s
    if tag = "" || tag = "!!str" || tag = m.tag then some (m.tag, m)
    else
      match tag, m with
      | "!!float", .int n => some ("!!float", .real (realOfInt n))
      | _, _ => none

end Tenure.Yaml

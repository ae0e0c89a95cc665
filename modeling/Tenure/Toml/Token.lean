import Tenure.Text.Numeral
import Tenure.Toml.Value

/-!
# Tokens of a settings file

Text is read in one of two modes.  In key mode a line holds a header or a key;
after the `=` the text is read in value mode until the line, or the list or
table it opened, ends.  The first thing that cannot be read ends the tokens with
a `bad` one, so a reader meets the errors in the order of the text.
-/

namespace Tenure.Toml

inductive Token where
  /-- a key as written, quotes included -/
  | key (raw : List Char)
  /-- `[raw]` -/
  | header (raw : List Char)
  /-- `[[raw]]` -/
  | rowHeader (raw : List Char)
  | equals
  | comma
  | listStart
  | listEnd
  | tableStart
  | tableEnd
  | value (v : Value)
  | bad (e : Error)

def isSpace (c : Char) : Bool := c = ' ' || c = '\t'

def isDigit (c : Char) : Bool := '0' ≤ c && c ≤ '9'

/-- The characters of a key without quotes. -/
def isBare (c : Char) : Bool :=
  ('a' ≤ c && c ≤ 'z') || ('A' ≤ c && c ≤ 'Z') || c = '_' || c = '-' || isDigit c

/-! ## Text between quotes

Each reader starts behind the opening quotes and returns the text and what
follows the closing ones. -/

/-- The character with a code; a code that is none gives the replacement
character. -/
def charOfCode (n : Nat) : Char :=
  if h : n.isValidChar then Char.ofNatAux n h else '\ufffd'

def escape? : Char → Option Char
  | '"' => some '"'
  | '\\' => some '\\'
  | '/' => some '/'
  | 'n' => some '\n'
  | 't' => some '\t'
  | 'r' => some '\r'
  | 'b' => some '\x08'
  | 'f' => some '\x0c'
  | _ => none

def consText (c : Char) : Option (List Char × List Char) → Option (List Char × List Char) :=
  Option.map fun (s, rest) => (c :: s, rest)

/-- Text in double quotes, three of them if `long`.  A backslash before blanks
drops all blanks that follow; `skipping` says that this is going on.  `newlines`
says whether the text may run over several lines. -/
def quotedBody (long newlines : Bool) : Bool → List Char → Option (List Char × List Char)
  | _, [] => none
  | _, '"' :: rest =>
      if !long then some ([], rest)
      else
        match rest with
        | '"' :: '"' :: rest => some ([], rest)
        | _ => consText '"' (quotedBody long newlines false rest)
  | _, '\\' :: 'u' :: a :: b :: c :: d :: rest => do
      let n ← Text.natural? 16 [a, b, c, d]
      consText (charOfCode n) (quotedBody long newlines false rest)
  | _, '\\' :: 'U' :: a :: b :: c :: d :: e :: f :: g :: h :: rest => do
      let n ← Text.natural? 16 [a, b, c, d, e, f, g, h]
      consText (charOfCode n) (quotedBody long newlines false rest)
  | _, '\\' :: c :: rest =>
      if isSpace c || c = '\n' || c = '\r' then quotedBody long newlines true rest
      else do
        let c ← escape? c
        consText c (quotedBody long newlines false rest)
  | skipping, c :: rest =>
      if skipping && (isSpace c || c = '\n' || c = '\r') then quotedBody long newlines true rest
      else if c < ' ' && c ≠ '\t' && !(newlines && (c = '\n' || c = '\r')) then none
      else consText c (quotedBody long newlines false rest)

/-- Text in single quotes, which knows no escapes and may run over lines. -/
def literalBody (long : Bool) : List Char → Option (List Char × List Char)
  | [] => none
  | '\'' :: rest =>
      if !long then some ([], rest)
      else
        match rest with
        | '\'' :: '\'' :: rest => some ([], rest)
        | _ => consText '\'' (literalBody long rest)
  | c :: rest => consText c (literalBody long rest)

/-- A line break right after three opening quotes is not part of the text. -/
def dropFirstBreak : List Char → List Char
  | '\r' :: '\n' :: rest => rest
  | '\n' :: rest => rest
  | rest => rest

/-- The text that starts behind a double quote. -/
def quoted? : List Char → Option (List Char × List Char)
  | '"' :: '"' :: rest => quotedBody true true false (dropFirstBreak rest)
  | rest => quotedBody false false false rest

/-- The text that starts behind a single quote. -/
def literal? : List Char → Option (List Char × List Char)
  | '\'' :: '\'' :: rest => literalBody true (dropFirstBreak rest)
  | rest => literalBody false rest

/-! ## Keys -/

/-- A key up to the `=`, a line end or the blanks behind it.  Text between quotes
is kept in its quotes with the escapes resolved. -/
def rawKey : Nat → List Char → Option (List Char × List Char)
  | 0, _ => none
  | _, [] => some ([], [])
  | fuel + 1, c :: rest =>
      if c = '=' then some ([], c :: rest)
      else if c = '"' then do
        let (s, rest) ← quotedBody false true false rest
        let (more, rest) ← rawKey fuel rest
        some ('"' :: s ++ '"' :: more, rest)
      else if c = '\'' then do
        let (s, rest) ← literalBody false rest
        let (more, rest) ← rawKey fuel rest
        some ('\'' :: s ++ '\'' :: more, rest)
      else if isSpace c then
        match rest.dropWhile isSpace with
        | '.' :: rest => do
            let (more, rest) ← rawKey fuel (rest.dropWhile isSpace)
            some ('.' :: more, rest)
        | rest => some ([], rest)
      else if c = '.' || isBare c then do
        let (more, rest) ← rawKey fuel rest
        some (c :: more, rest)
      else none

/-- What may follow a dot inside a key. -/
def startsPart : List Char → Bool
  | c :: _ => isBare c || c = '\'' || c = '"' || c = ' '
  | [] => false

/-- The part of a key that is written between quotes `q`. -/
def keyPart (q : Char) (s : List Char) : Option (String × List Char) :=
  match s.span (· ≠ q) with
  | (part, _ :: rest) => some (String.ofList part, rest)
  | (_, []) => none

/-- The parts of a dotted key. -/
def keyPartsFrom : Nat → List Char → Option (List String)
  | 0, _ => none
  | fuel + 1, s =>
      match s.dropWhile isSpace with
      | [] => some []
      | '.' :: rest => if startsPart rest then keyPartsFrom fuel rest else none
      | c :: rest =>
          if c = '"' || c = '\'' then do
            let (part, rest) ← keyPart c rest
            (keyPartsFrom fuel rest).map (part :: ·)
          else if isBare c then
            let (part, rest) := (c :: rest).span isBare
            match rest with
            | [] => some [String.ofList part]
            | d :: _ =>
                let rest := rest.dropWhile isSpace
                if d = '.' || (isSpace d && (rest.isEmpty || rest.head? = some '.')) then
                  (keyPartsFrom fuel rest).map (String.ofList part :: ·)
                else none
          else none

/-- The parts of a key, of which there is at least one. -/
def keyParts (raw : List Char) : Option (List String) :=
  (keyPartsFrom (raw.length + 1) raw).filter (!·.isEmpty)

/-! ## Numbers, dates and times -/

/-- The characters of a number; a sign inside it belongs to an exponent. -/
def numberRun : List Char → List Char × List Char
  | c :: d :: rest =>
      if (c = 'e' || c = 'E') && (d = '+' || d = '-') then
        let (s, rest) := numberRun rest
        (c :: d :: s, rest)
      else if isDigit c || c = '_' || c = '.' || c = 'e' || c = 'E' then
        let (s, rest) := numberRun (d :: rest)
        (c :: s, rest)
      else ([], c :: d :: rest)
  | [c] => if isDigit c || c = '_' || c = '.' || c = 'e' || c = 'E' then ([c], []) else ([], [c])
  | [] => ([], [])

/-- Whether every underscore stands between two digits. -/
def joinsDigits (digit : Char → Bool) : Option Char → List Char → Bool
  | _, [] => true
  | before, '_' :: rest =>
      before.any digit && rest.head?.any digit && joinsDigits digit (some '_') rest
  | _, c :: rest => joinsDigits digit (some c) rest

/-- Whether a decimal is too large for a double. -/
def overflows (mantissa : Nat) (exponent : Int) : Bool :=
  let limit := Nat.pow 2 1024 - Nat.pow 2 970
  if mantissa = 0 then false
  else if 400 < exponent then true
  else if 0 ≤ exponent then limit ≤ mantissa * Nat.pow 10 exponent.toNat
  else if mantissa < limit then false
  else limit * Nat.pow 10 exponent.natAbs ≤ mantissa

/-- Whether a text without sign and underscores is a decimal fraction that a
double can hold. -/
def isFraction (s : List Char) : Bool :=
  let (whole, rest) := s.span isDigit
  let (places, rest) :=
    match rest with
    | '.' :: rest => rest.span isDigit
    | _ => ([], rest)
  let pointless := s.all (· ≠ '.')
  let exponent? : Option Int :=
    match rest with
    | [] => some 0
    | c :: e =>
        if c = 'e' || c = 'E' then
          let (negative, digits) := Text.splitSign e
          (Text.natural? 10 digits).map fun n => if negative then -(n : Int) else n
        else none
  match exponent? with
  | none => false
  | some e =>
      !whole.isEmpty && (pointless || !places.isEmpty) &&
        !overflows ((Text.digits? 10 (whole ++ places)).getD 0) (e - places.length)

/-- Whether a decimal numeral fits a word, signed or unsigned. -/
def fitsWord (s : List Char) : Bool :=
  let (negative, digits) := Text.splitSign s
  match Text.natural? 10 digits with
  | none => false
  | some n => if negative then n ≤ Nat.pow 2 63 else n ≤ Text.maxUInt64

/-- A number in base ten, with its sign. -/
def decimal (sign : List Char) (rest : List Char) : Token × List Char :=
  let (run, rest) := numberRun rest
  let digits := run.filter (· ≠ '_')
  if !joinsDigits isDigit sign.getLast? run then (.bad .malformed, rest)
  else if run.any fun c => c = '.' || c = 'e' || c = 'E' then
    (if isFraction digits then .value .scalar else .bad .malformed, rest)
  else if sign.isEmpty && 3 ≤ digits.length && digits.head? = some '0' then
    (.bad .leadingZero, rest)
  else (if fitsWord (sign ++ digits) then .value .scalar else .bad .malformed, rest)

/-- The digits of a number whose base is announced by its first two characters. -/
def based (base : Nat) (rest : List Char) : Token × List Char :=
  let digit c := (Text.digitValue base c).isSome
  let (run, rest) := rest.span fun c => c = '_' || digit c
  let sound :=
    joinsDigits digit none run &&
      match Text.natural? base (run.filter (· ≠ '_')) with
      | some n => n ≤ Text.maxUInt64
      | none => false
  (if sound then .value .scalar else .bad .malformed, rest)

def isLetter (c : Char) : Bool := ('a' ≤ c && c ≤ 'z') || ('A' ≤ c && c ≤ 'Z')

/-- A number. -/
def number : List Char → Token × List Char
  | '0' :: c :: rest =>
      if c = 'x' then based 16 rest
      else if c = 'o' then based 8 rest
      else if c = 'b' then based 2 rest
      else if isLetter c then (.bad .malformed, rest)
      else decimal [] ('0' :: c :: rest)
  | c :: rest =>
      if c = '+' || c = '-' then
        match rest with
        | 'i' :: 'n' :: 'f' :: rest => (.value .scalar, rest)
        | 'n' :: 'a' :: 'n' :: rest => (.value .scalar, rest)
        | _ => decimal [c] rest
      else decimal [] (c :: rest)
  | [] => (.bad .malformed, [])

/-- The number that two digits make, if it is at most `most`. -/
def pair? (most : Nat) (a b : Char) : Option Nat :=
  (Text.natural? 10 [a, b]).filter (· ≤ most)

/-- A time of day, with a fraction of the second if there is one. -/
def time? : List Char → Option (List Char)
  | a :: b :: ':' :: c :: d :: ':' :: e :: f :: rest => do
      let _ ← pair? 23 a b
      let _ ← pair? 59 c d
      let _ ← pair? 59 e f
      match rest with
      | '.' :: rest =>
          let (digits, rest) := rest.span isDigit
          if digits.isEmpty then none else some rest
      | _ => some rest
  | _ => none

/-- The distance of a time from the meridian, if one is given. -/
def zone? : List Char → Option (List Char)
  | 'Z' :: rest => some rest
  | 'z' :: rest => some rest
  | s :: a :: b :: ':' :: c :: d :: rest =>
      if s = '+' || s = '-' then do
        let _ ← pair? 23 a b
        let _ ← pair? 59 c d
        some rest
      else some (s :: a :: b :: ':' :: c :: d :: rest)
  | s :: rest => if s = '+' || s = '-' then none else some (s :: rest)
  | [] => some []

def daysIn (year month : Nat) : Nat :=
  if month = 2 then
    if year % 4 = 0 && (year % 100 ≠ 0 || year % 400 = 0) then 29 else 28
  else if month = 4 || month = 6 || month = 9 || month = 11 then 30
  else 31

/-- A date, with a time behind it if there is one. -/
def date? : List Char → Option (List Char)
  | a :: b :: c :: d :: '-' :: e :: f :: '-' :: g :: h :: rest => do
      let year ← Text.natural? 10 [a, b, c, d]
      let month ← (pair? 12 e f).filter (0 < ·)
      let _ ← (pair? (daysIn year month) g h).filter (0 < ·)
      match rest with
      | s :: t :: rest =>
          if s = 'T' || s = 't' || (s = ' ' && isDigit t) then
            (time? (t :: rest)).bind zone?
          else some (s :: t :: rest)
      | _ => some rest
  | _ => none

/-- A value that starts with a digit: two digits and a colon start a time, four
and a hyphen a date, and all else is a number. -/
def numberOrMoment (s : List Char) : Token × List Char :=
  let moment (rest? : Option (List Char)) : Token × List Char :=
    match rest? with
    | some rest => (.value .scalar, rest)
    | none => (.bad .malformed, [])
  match s.span isDigit with
  | ([_, _], ':' :: _) => moment (time? s)
  | ([_, _, _, _], '-' :: _) => moment (date? s)
  | _ => number s

/-! ## Tokens -/

inductive Mode where
  | keys
  | values

/-- What is open at a place of the text. -/
inductive Bracket where
  | list
  | table
  deriving DecidableEq

/-- The header that starts behind a `[`. -/
def headerFrom (s : List Char) : Token × List Char :=
  let (rows, s) :=
    match s with
    | '[' :: s => (true, s)
    | _ => (false, s)
  let (raw, rest) := s.span fun c => c ≠ ']' && c ≠ '['
  match rows, rest with
  | false, ']' :: rest => (.header raw, rest)
  | true, ']' :: ']' :: rest => (.rowHeader raw, rest)
  | _, _ => (.bad .malformed, [])

/-- A value that starts here, if it is one that stands alone. -/
def valueFrom : List Char → Token × List Char
  | '"' :: rest =>
      match quoted? rest with
      | some (s, rest) => (.value (.text (String.ofList s)), rest)
      | none => (.bad .malformed, [])
  | '\'' :: rest =>
      match literal? rest with
      | some (s, rest) => (.value (.text (String.ofList s)), rest)
      | none => (.bad .malformed, [])
  | 't' :: 'r' :: 'u' :: 'e' :: rest => (.value (.flag true), rest)
  | 'f' :: 'a' :: 'l' :: 's' :: 'e' :: rest => (.value (.flag false), rest)
  | 'i' :: 'n' :: 'f' :: rest => (.value .scalar, rest)
  | 'n' :: 'a' :: 'n' :: rest => (.value .scalar, rest)
  | c :: rest =>
      if c = '+' || c = '-' then number (c :: rest)
      else if isDigit c then numberOrMoment (c :: rest)
      else (.bad .malformed, [])
  | [] => (.bad .malformed, [])

/-- A token and the tokens behind it; nothing follows a bad one. -/
def Token.followedBy (t : Token) (rest : List Token) : List Token :=
  match t with
  | .bad e => [.bad e]
  | _ => t :: rest

/-- The tokens of a text.  Every step uses up a character, so `fuel` above the
length of the text is enough. -/
def tokensFrom : Nat → Mode → List Bracket → List Char → List Token
  | 0, _, _, _ => [.bad .malformed]
  | _, _, _, [] => []
  | fuel + 1, mode, inside, c :: rest =>
      if c = '#' then
        tokensFrom fuel mode inside (rest.dropWhile (· ≠ '\n'))
      else if isSpace c then tokensFrom fuel mode inside rest
      else if c = '=' then .equals :: tokensFrom fuel .values inside rest
      else if c = '\x7d' then
        match inside with
        | .table :: inside => .tableEnd :: tokensFrom fuel .values inside rest
        | _ => [.bad .malformed]
      else
        match mode with
        | .keys =>
            if c = '\n' || c = '\r' then tokensFrom fuel .keys inside rest
            else if c = '[' then
              let (t, rest) := headerFrom rest
              t.followedBy (tokensFrom fuel .keys inside rest)
            else
              match rawKey (rest.length + 2) (c :: rest) with
              | some (raw, rest) => .key raw :: tokensFrom fuel .keys inside rest
              | none => [.bad .malformed]
        | .values =>
            if c = '\n' || c = '\r' then
              tokensFrom fuel (if inside.head? = some .list then .values else .keys) inside rest
            else if c = '[' then .listStart :: tokensFrom fuel .values (.list :: inside) rest
            else if c = ']' then
              match inside with
              | .list :: inside => .listEnd :: tokensFrom fuel .values inside rest
              | _ => [.bad .malformed]
            else if c = '\x7b' then
              .tableStart :: tokensFrom fuel .keys (.table :: inside) rest
            else if c = ',' then
              .comma ::
                tokensFrom fuel (if inside.head? = some .table then .keys else .values) inside rest
            else
              let (t, rest) := valueFrom (c :: rest)
              t.followedBy (tokensFrom fuel .values inside rest)

/-- The tokens of a settings file; a byte order mark in front is not part of it. -/
def tokens (text : String) : List Token :=
  let s :=
    match text.toList with
    | '\ufeff' :: s => s
    | s => s
  tokensFrom (s.length + 1) .keys [] s

end Tenure.Toml

/-!
# Tokens of a document

The lexical elements of YAML text: punctuation, indentation made explicit, and
scalars with their quoting undone.
-/

namespace Tenure.Yaml

/-- A place in the text: characters read, line and column, all from zero. -/
structure Mark where
  index : Nat := 0
  line : Nat := 0
  column : Nat := 0
deriving Repr, DecidableEq

/-- How a scalar was written.  All but plain scalars are strings outright. -/
inductive ScalarStyle where
  | plain
  | quoted
deriving Repr, DecidableEq

inductive TokenKind where
  | streamEnd
  | versionDirective (major minor : Nat)
  | tagDirective (handle expansion : String)
  | documentStart
  | documentEnd
  | blockSequenceStart
  | blockMappingStart
  | blockEnd
  | flowSequenceStart
  | flowSequenceEnd
  | flowMappingStart
  | flowMappingEnd
  | blockEntry
  | flowEntry
  | key
  | value
  | anchor (name : String)
  | reference (name : String)
  | tag (handle suffix : String)
  | scalar (text : String) (style : ScalarStyle)
deriving Repr, DecidableEq

/-- A lexical element with the line it starts on. -/
structure Token where
  kind : TokenKind
  line : Nat
deriving Repr, DecidableEq

/-- The text is not a YAML document.  Nothing more is said about it. -/
inductive Malformed where
  | malformed
deriving Repr, DecidableEq

/-! ## Characters -/

def isBreak (c : Char) : Bool :=
  c == '\n' || c == '\r' || c == '\u0085' || c == '\u2028' || c == '\u2029'

def isSpaceOrTab (c : Char) : Bool := c == ' ' || c == '\t'

/-- Whether a text is at its end or starts with a blank or a line break. -/
def endsWord : List Char → Bool
  | [] => true
  | c :: _ => isSpaceOrTab c || isBreak c

/-- The characters of anchors and of tag handles. -/
def isWordChar (c : Char) : Bool :=
  c.isAlphanum || c == '_' || c == '-'

/-- The characters that may stand in a document at all. -/
def isAllowed (c : Char) : Bool :=
  let n := c.toNat
  n == 0x09 || n == 0x0A || n == 0x0D || (0x20 ≤ n && n ≤ 0x7E) || n == 0x85 ||
    (0xA0 ≤ n && n ≤ 0xD7FF) || (0xE000 ≤ n && n ≤ 0xFFFD) || 0x10000 ≤ n

/-! ## Positions -/

/-- The rest of the text and the place where it starts. -/
structure Cursor where
  rest : List Char
  mark : Mark := {}
  /-- a bound on the number of characters that remain -/
  bound : Nat

namespace Cursor

def peek? (c : Cursor) : Option Char := c.rest.head?

/-- Passes characters of the current line. -/
def skip (c : Cursor) (n : Nat := 1) : Cursor :=
  { c with
    rest := c.rest.drop n
    mark := { c.mark with index := c.mark.index + n, column := c.mark.column + n } }

/-- Passes a line break, if one is next, and gives it in its normal form. -/
def line (c : Cursor) : List Char × Cursor :=
  let past (n : Nat) : Cursor :=
    { c with
      rest := c.rest.drop n
      mark := { index := c.mark.index + n, line := c.mark.line + 1, column := 0 } }
  match c.rest with
  | '\r' :: '\n' :: _ => (['\n'], past 2)
  | b :: _ =>
      if b == '\n' || b == '\r' || b == '\u0085' then (['\n'], past 1)
      else if isBreak b then ([b], past 1)
      else ([], c)
  | [] => ([], c)

/-- Passes the characters of the line that satisfy a predicate. -/
def takeWhile (p : Char → Bool) (c : Cursor) : List Char × Cursor :=
  let taken := c.rest.takeWhile p
  (taken, c.skip taken.length)

/-- Passes everything up to the end of the line. -/
def toLineEnd (c : Cursor) : Cursor := (c.takeWhile (!isBreak ·)).2

/-- Whether a document marker (`---` or `...`) stands here at the start of a
line. -/
def atDocumentMarker (c : Cursor) : Bool :=
  c.mark.column == 0 &&
    match c.rest with
    | '-' :: '-' :: '-' :: rest => endsWord rest
    | '.' :: '.' :: '.' :: rest => endsWord rest
    | _ => false

end Cursor
end Tenure.Yaml

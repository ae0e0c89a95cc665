import Tenure.Yaml.Scalar

/-!
# From text to tokens

Indentation becomes explicit brackets, and a key that is recognised only by the
colon after it gets its marker inserted in front of it.  A key of that kind has
to end on its line and within 1024 characters.

Tokens are handed on with a look-ahead of two, and never past an element that
may still turn out to be such a key.  Text after the end of the document is
therefore looked at only that far: `Tokens.ofText` returns the tokens that can
be handed on before the first lexical error.
-/

namespace Tenure.Yaml

/-- An element that will be a key if a colon follows. -/
structure SimpleKey where
  /-- a colon has to follow: the element starts a line of a block mapping -/
  required : Bool
  /-- the position of the element among the tokens -/
  position : Nat
  mark : Mark

structure Lexer where
  cursor : Cursor
  tokens : Array Token := #[]
  /-- the column of the innermost block collection, `-1` outside of any -/
  indent : Int := -1
  /-- the columns of the block collections around it -/
  outerIndents : List Int := []
  /-- whether a simple key may start here -/
  keyAllowed : Bool := true
  /-- the candidates for simple keys, one place for each open flow collection
  and one for the block context; the innermost first -/
  keys : List (Option SimpleKey) := [none]

/-- A lexing step. -/
abbrev Lexing := EStateM Malformed Lexer

namespace Lexer

def flowLevel (l : Lexer) : Nat := l.keys.length - 1

def inFlow (l : Lexer) : Bool := 0 < l.flowLevel

/-- Whether a candidate can still become a key: its colon must come on the same
line and within 1024 characters. -/
def fresh (l : Lexer) (k : SimpleKey) : Bool :=
  !(k.mark.line < l.cursor.mark.line || k.mark.index + 1024 < l.cursor.mark.index)

end Lexer

namespace Lexing

def fail {α : Type} : Lexing α := throw .malformed

def setCursor (c : Cursor) : Lexing Unit := modify fun l => { l with cursor := c }

def allowKey (b : Bool) : Lexing Unit := modify fun l => { l with keyAllowed := b }

def skip (n : Nat) : Lexing Unit := modify fun l => { l with cursor := l.cursor.skip n }

/-- Appends a token that starts on a given line. -/
def push (kind : TokenKind) (line : Nat) : Lexing Unit :=
  modify fun l => { l with tokens := l.tokens.push ⟨kind, line⟩ }

/-- Inserts a token in front of an earlier one. -/
def insert (position : Nat) (kind : TokenKind) (line : Nat) : Lexing Unit :=
  modify fun l => { l with tokens := l.tokens.insertIdxIfInBounds position ⟨kind, line⟩ }

/-! ## Simple keys -/

/-- Replaces the candidate of the innermost context. -/
def setKey (k : Option SimpleKey) : Lexing Unit :=
  modify fun l => { l with keys := k :: l.keys.tail }

/-- Gives up the candidate of the innermost context; a required one is missing
its colon. -/
def dropKey : Lexing Unit := do
  match (← get).keys.head? with
  | some (some k) => if k.required then fail else setKey none
  | _ => pure ()

/-- Makes the element that starts here a candidate, if a key may stand here. -/
def saveKey : Lexing Unit := do
  let l ← get
  if l.keyAllowed then
    dropKey
    setKey (some {
      required := !l.inFlow && l.indent == (l.cursor.mark.column : Int)
      position := l.tokens.size
      mark := l.cursor.mark })

/-! ## Indentation -/

/-- Closes the block collections that are indented deeper than a column. -/
def unrollTo (column : Int) : Nat → Lexing Unit
  | 0 => pure ()
  | fuel + 1 => do
      let l ← get
      if column < l.indent then
        push .blockEnd l.cursor.mark.line
        modify fun l => { l with
          indent := l.outerIndents.headD (-1), outerIndents := l.outerIndents.tail }
        unrollTo column fuel

def unroll (column : Int) : Lexing Unit := do
  let l ← get
  if !l.inFlow then unrollTo column (l.outerIndents.length + 1)

/-- Opens a block collection at a column that is indented deeper, in front of a
given token or at the end. -/
def roll (column : Nat) (position : Option Nat) (kind : TokenKind) (line : Nat) :
    Lexing Unit := do
  let l ← get
  if !l.inFlow && l.indent < (column : Int) then
    set { l with indent := column, outerIndents := l.indent :: l.outerIndents }
    match position with
    | some n => insert n kind line
    | none => push kind line

/-! ## Punctuation -/

def flowStart (kind : TokenKind) : Lexing Unit := do
  saveKey
  modify fun l => { l with keys := none :: l.keys, keyAllowed := true }
  push kind (← get).cursor.mark.line
  skip 1

def flowEnd (kind : TokenKind) : Lexing Unit := do
  dropKey
  modify fun l => { l with
    keys := if l.inFlow then l.keys.tail else l.keys
    keyAllowed := false }
  push kind (← get).cursor.mark.line
  skip 1

def flowEntry : Lexing Unit := do
  dropKey
  allowKey true
  push .flowEntry (← get).cursor.mark.line
  skip 1

def blockEntry : Lexing Unit := do
  let l ← get
  if !l.inFlow then
    if !l.keyAllowed then fail
    roll l.cursor.mark.column none .blockSequenceStart l.cursor.mark.line
  dropKey
  allowKey true
  push .blockEntry l.cursor.mark.line
  skip 1

def explicitKey : Lexing Unit := do
  let l ← get
  if !l.inFlow then
    if !l.keyAllowed then fail
    roll l.cursor.mark.column none .blockMappingStart l.cursor.mark.line
  dropKey
  allowKey (!l.inFlow)
  push .key l.cursor.mark.line
  skip 1

/-- The colon: it makes a key of the candidate, or continues an explicit key. -/
def colon : Lexing Unit := do
  let l ← get
  let candidate ←
    match l.keys.head? with
    | some (some k) =>
        if l.fresh k then pure (some k)
        else if k.required then fail
        else
          setKey none
          pure none
    | _ => pure none
  match candidate with
  | some k =>
      insert k.position .key k.mark.line
      roll k.mark.column (some k.position) .blockMappingStart k.mark.line
      setKey none
      allowKey false
  | none =>
      if !l.inFlow then
        if !l.keyAllowed then fail
        roll l.cursor.mark.column none .blockMappingStart l.cursor.mark.line
      allowKey (!l.inFlow)
  push .value l.cursor.mark.line
  skip 1

/-! ## Anchors and tags -/

/-- The name after `&` or `*`. -/
def anchorLike (make : String → TokenKind) : Lexing Unit := do
  saveKey
  allowKey false
  let line := (← get).cursor.mark.line
  let (name, c) := ((← get).cursor.skip).takeWhile isWordChar
  let ends := match c.peek? with
    | none => true
    | some ch => isSpaceOrTab ch || isBreak ch || "?:,]\x7d%@`".toList.contains ch
  if name.isEmpty || !ends then fail
  setCursor c
  push (make (String.ofList name)) line

/-- The characters of a tag's suffix. -/
def isUriChar (c : Char) : Bool :=
  isWordChar c || ";/?:@&=+$,.!~*'()[]%".toList.contains c

/-- Undoes the percent escapes of a tag. -/
def unescapeUri : Nat → List Char → Option (List UInt8)
  | 0, _ => some []
  | _, [] => some []
  | fuel + 1, '%' :: a :: b :: rest => do
      let n ← Text.natural? 16 [a, b]
      return UInt8.ofNat n :: (← unescapeUri fuel rest)
  | _, '%' :: _ => none
  | fuel + 1, c :: rest => do
      return (String.singleton c).toUTF8.data.toList ++ (← unescapeUri fuel rest)

/-- A tag's suffix as text. -/
def uriText (s : List Char) : Lexing String :=
  match unescapeUri (s.length + 1) s with
  | none => fail
  | some bytes =>
      match String.fromUTF8? ⟨bytes.toArray⟩ with
      | some t => pure t
      | none => fail

/-- The handle a tag starts with: a mark, a name and perhaps a second mark. -/
def tagHandle (c : Cursor) : List Char × Cursor :=
  let (name, c') := (c.skip).takeWhile isWordChar
  if c'.peek? == some '!' then ('!' :: name ++ ['!'], c'.skip) else ('!' :: name, c')

def tag : Lexing Unit := do
  saveKey
  allowKey false
  let start := (← get).cursor
  if (start.skip).peek? == some '<' then
    let (uri, c) := (start.skip 2).takeWhile isUriChar
    if uri.isEmpty || c.peek? != some '>' || !endsWord (c.skip).rest then fail
    setCursor (c.skip)
    push (.tag "" (← uriText uri)) start.mark.line
  else
    let (handle, c) := tagHandle start
    let (suffix, c) := c.takeWhile isUriChar
    if !endsWord c.rest then fail
    setCursor c
    if 1 < handle.length && handle.getLast? == some '!' then
      if suffix.isEmpty then fail
      push (.tag (String.ofList handle) (← uriText suffix)) start.mark.line
    else if handle.length == 1 && suffix.isEmpty then
      push (.tag "" "!") start.mark.line
    else
      push (.tag "!" (← uriText (handle.tail ++ suffix))) start.mark.line

/-! ## Scalars -/

def blockScalar (literal : Bool) : Lexing Unit := do
  dropKey
  allowKey true
  let l ← get
  match readBlock literal l.indent (l.cursor.skip) with
  | .error e => throw e
  | .ok (text, c) =>
      setCursor c
      push (.scalar (String.ofList text) .quoted) l.cursor.mark.line

def quotedScalar (single : Bool) : Lexing Unit := do
  saveKey
  allowKey false
  let c := (← get).cursor
  match readQuoted single (c.bound + 1) [] (c.skip) with
  | .error e => throw e
  | .ok (text, c') =>
      setCursor c'
      push (.scalar (String.ofList text) .quoted) c.mark.line

def plainScalar : Lexing Unit := do
  saveKey
  allowKey false
  let l ← get
  match readPlain l.inFlow (l.indent + 1).toNat (l.cursor.bound + 1) [] {} l.cursor with
  | .error e => throw e
  | .ok (text, broken, c) =>
      setCursor c
      if broken then allowKey true
      push (.scalar (String.ofList text) .plain) l.cursor.mark.line

/-! ## Directives and document markers -/

/-- Closes every block in front of a directive, a marker or the end. -/
def closeAll : Lexing Unit := do
  unroll (-1)
  dropKey
  allowKey false

def blanks : Lexing Unit := modify fun l => { l with cursor := (l.cursor.takeWhile isSpaceOrTab).2 }

/-- A version number's part. -/
def versionNumber : Lexing Nat := do
  let (ds, c) := (← get).cursor.takeWhile Char.isDigit
  if ds.length > 9 then fail
  match Text.natural? 10 ds with
  | none => fail
  | some n =>
      setCursor c
      return n

def directive : Lexing Unit := do
  closeAll
  let start := (← get).cursor
  let (name, c) := (start.skip).takeWhile isWordChar
  if name.isEmpty || !endsWord c.rest then fail
  setCursor c
  match String.ofList name with
  | "YAML" =>
      blanks
      let major ← versionNumber
      if (← get).cursor.peek? != some '.' then fail
      skip 1
      let minor ← versionNumber
      push (.versionDirective major minor) start.mark.line
  | "TAG" =>
      blanks
      let c := (← get).cursor
      if c.peek? != some '!' then fail
      let (handle, c) := tagHandle c
      if handle.length > 1 && handle.getLast? != some '!' then fail
      if !((c.peek?.map isSpaceOrTab).getD false) then fail
      let (uri, c) := ((c.takeWhile isSpaceOrTab).2).takeWhile isUriChar
      if uri.isEmpty || !endsWord c.rest then fail
      setCursor c
      push (.tagDirective (String.ofList handle) (← uriText uri)) start.mark.line
  | _ => fail
  blanks
  let c := (← get).cursor
  let c := if c.peek? == some '#' then c.toLineEnd else c
  match c.peek? with
  | none => setCursor c
  | some b => if isBreak b then setCursor c.line.2 else fail

def documentMarker (kind : TokenKind) : Lexing Unit := do
  closeAll
  push kind (← get).cursor.mark.line
  skip 3

/-- The end of the text counts as the start of one more line. -/
def streamEnd : Lexing Unit := do
  modify fun l =>
    if l.cursor.mark.column == 0 then l
    else
      let m := l.cursor.mark
      { l with cursor := { l.cursor with mark := { m with line := m.line + 1, column := 0 } } }
  closeAll
  push .streamEnd (← get).cursor.mark.line

/-! ## The next token -/

/-- Passes blanks, comments and line breaks.  A tab may not stand where a key may
start in the block context. -/
def toNextToken : Nat → Lexing Unit
  | 0 => pure ()
  | fuel + 1 => do
      let l ← get
      let c := l.cursor
      let c := if c.mark.column == 0 && c.peek? == some '\ufeff' then c.skip else c
      let tabs := l.inFlow || !l.keyAllowed
      let c := (c.takeWhile fun ch => ch == ' ' || (tabs && ch == '\t')).2
      let c := if c.peek? == some '#' then c.toLineEnd else c
      match c.peek? with
      | some ch =>
          if isBreak ch then
            setCursor c.line.2
            if !l.inFlow then allowKey true
            toNextToken fuel
          else setCursor c
      | none => setCursor c

/-- Passes a comment on the rest of the line after a token. -/
def lineComment : Lexing Unit :=
  modify fun l =>
    let c := (l.cursor.takeWhile isSpaceOrTab).2
    if c.peek? == some '#' then { l with cursor := c.toLineEnd } else l

/-- The characters that start no plain scalar. -/
def isIndicator (c : Char) : Bool :=
  "-?:,[]\x7b\x7d#&*!|>'\"%@`".toList.contains c

/-- Whether a plain scalar may start with this text. -/
def plainStarts (inFlow : Bool) : List Char → Bool
  | [] => false
  | c :: rest =>
      !(isSpaceOrTab c || isBreak c || isIndicator c) ||
        (c == '-' && !((rest.head?.map isSpaceOrTab).getD false)) ||
        (!inFlow && (c == '?' || c == ':') && !endsWord rest)

/-- Reads one token of the document's content. -/
def content : Lexing Unit := do
  let l ← get
  let rest := l.cursor.rest
  let next := rest.tail
  match rest.head? with
  | none => fail
  | some ch =>
      if ch == '[' then flowStart .flowSequenceStart
      else if ch == '{' then flowStart .flowMappingStart
      else if ch == ']' then flowEnd .flowSequenceEnd
      else if ch == '}' then flowEnd .flowMappingEnd
      else if ch == ',' then flowEntry
      else if ch == '-' && endsWord next then blockEntry
      else if ch == '?' && (l.inFlow || endsWord next) then explicitKey
      else if ch == ':' && (l.inFlow || endsWord next) then colon
      else if ch == '*' then anchorLike .reference
      else if ch == '&' then anchorLike .anchor
      else if ch == '!' then tag
      else if ch == '|' && !l.inFlow then blockScalar true
      else if ch == '>' && !l.inFlow then blockScalar false
      else if ch == '\'' then quotedScalar true
      else if ch == '"' then quotedScalar false
      else if plainStarts l.inFlow rest then plainScalar
      else fail

/-- Reads one token; the result says whether it was the end of the stream. -/
def next : Lexing Bool := do
  toNextToken ((← get).cursor.bound + 1)
  unroll (← get).cursor.mark.column
  let c := (← get).cursor
  if c.rest.isEmpty then
    streamEnd
    return true
  if c.mark.column == 0 && c.peek? == some '%' then directive
  else if c.atDocumentMarker then
    documentMarker (if c.peek? == some '-' then .documentStart else .documentEnd)
  else
    content
    if (← get).tokens.back?.map (·.kind) != some .blockEntry then lineComment
  return false

/-- Reads all tokens, or all in front of the first error. -/
def all : Nat → Lexing Unit
  | 0 => fail
  | fuel + 1 => do
      if !(← next) then all fuel

end Lexing

/-- The tokens that can be handed on, and whether the text ends well after
them. -/
structure Tokens where
  list : List Token
  complete : Bool

/-- Drops a byte order mark at the start of the text. -/
def dropByteOrderMark : List Char → List Char
  | '\ufeff' :: s => s
  | s => s

/-- The tokens of a text.  A character that no document may hold spoils the
whole text. -/
def Tokens.ofText (s : String) : Tokens :=
  let text := dropByteOrderMark s.toList
  if !text.all isAllowed then ⟨[], false⟩
  else
    let cursor := { rest := text, bound := text.length }
    match (Lexing.all (text.length + 2)).run { cursor } with
    | .ok _ l => ⟨l.tokens.toList, true⟩
    | .error _ l =>
        -- an element that may still become a key holds back all that follow it
        let pending := l.keys.filterMap fun
          | some k => if l.fresh k then some k.position else none
          | none => none
        ⟨l.tokens.toList.take (pending.foldl min (l.tokens.size - 2)), false⟩

end Tenure.Yaml

import Tenure.Yaml.Token
import Tenure.Text.Numeral

/-!
# Scalars

How the text of a scalar is recovered from the document: plain scalars and
quoted ones fold their line breaks, double quotes undo escapes, and block
scalars strip their indentation.
-/

namespace Tenure.Yaml

/-- What lies between two words of a flowing scalar: blanks on one line, or line
breaks. -/
structure Gap where
  blanks : List Char := []
  firstBreak : List Char := []
  otherBreaks : List Char := []
  /-- a line break was passed, be it one that leaves no trace -/
  broken : Bool := false

/-- What a gap contributes to the scalar: its blanks as they are, one line break
as a space, more line breaks without the first. -/
def Gap.text (g : Gap) : List Char :=
  if !g.broken then g.blanks
  else if g.firstBreak.head? == some '\n' then
    if g.otherBreaks.isEmpty then [' '] else g.otherBreaks
  else g.firstBreak ++ g.otherBreaks

/-- Passes blanks and line breaks.  A tab that stands where indentation should
be is refused if `tabColumn` says so. -/
def readGap (tabColumn : Nat) : Nat → Gap → Cursor → Except Malformed (Gap × Cursor)
  | 0, g, c => .ok (g, c)
  | fuel + 1, g, c =>
      match c.peek? with
      | none => .ok (g, c)
      | some ch =>
          if isSpaceOrTab ch then
            if g.broken then
              if ch == '\t' && c.mark.column < tabColumn then .error .malformed
              else readGap tabColumn fuel g (c.skip)
            else readGap tabColumn fuel { g with blanks := g.blanks ++ [ch] } (c.skip)
          else if isBreak ch then
            let (b, c') := c.line
            if g.broken then
              readGap tabColumn fuel { g with otherBreaks := g.otherBreaks ++ b } c'
            else
              readGap tabColumn fuel { g with blanks := [], firstBreak := b, broken := true } c'
          else .ok (g, c)

/-! ## Plain scalars -/

/-- Whether a plain scalar stops in front of this text. -/
def plainStops (inFlow : Bool) : List Char → Bool
  | [] => true
  | c :: rest =>
      isSpaceOrTab c || isBreak c || (c == ':' && endsWord rest) ||
        (inFlow && (c == ',' || c == '[' || c == ']' || c == '{' || c == '}' ||
          (c == '?' && endsWord rest)))

/-- One word of a plain scalar. -/
def plainWord (inFlow : Bool) : List Char → List Char
  | [] => []
  | c :: rest => if plainStops inFlow (c :: rest) then [] else c :: plainWord inFlow rest

/-- Reads a plain scalar from its first character.  The flag of the result says
that line breaks were passed after its last word. -/
def readPlain (inFlow : Bool) (indent : Nat) :
    Nat → List Char → Gap → Cursor → Except Malformed (List Char × Bool × Cursor)
  | 0, _, _, _ => .error .malformed
  | fuel + 1, text, gap, c =>
      if c.atDocumentMarker || c.peek? == some '#' then .ok (text, gap.broken, c)
      else
        let word := plainWord inFlow c.rest
        let c' := c.skip word.length
        let (text, gap) :=
          if word.isEmpty then (text, gap) else (text ++ gap.text ++ word, {})
        match c'.peek? with
        | none => .ok (text, gap.broken, c')
        | some ch =>
            if !(isSpaceOrTab ch || isBreak ch) then .ok (text, gap.broken, c')
            else
              match readGap indent (c'.bound + 1) gap c' with
              | .error e => .error e
              | .ok (gap, c'') =>
                  if !inFlow && c''.mark.column < indent then .ok (text, gap.broken, c'')
                  else readPlain inFlow indent fuel text gap c''

/-! ## Quoted scalars -/

/-- The character an escape letter stands for. -/
def escapeLetter? : Char → Option Char
  | '0' => some '\x00'
  | 'a' => some '\x07'
  | 'b' => some '\x08'
  | 't' | '\t' => some '\t'
  | 'n' => some '\n'
  | 'v' => some '\x0b'
  | 'f' => some '\x0c'
  | 'r' => some '\r'
  | 'e' => some '\x1b'
  | ' ' => some ' '
  | '"' => some '"'
  | '\'' => some '\''
  | '/' => some '/'
  | '\\' => some '\\'
  | 'N' => some '\u0085'
  | '_' => some '\u00a0'
  | 'L' => some '\u2028'
  | 'P' => some '\u2029'
  | _ => none

/-- How many hexadecimal digits follow an escape letter. -/
def escapeWidth? : Char → Option Nat
  | 'x' => some 2
  | 'u' => some 4
  | 'U' => some 8
  | _ => none

/-- An escape after its backslash: the character and the length of the escape. -/
def readEscape : List Char → Except Malformed (Char × Nat)
  | [] => .error .malformed
  | c :: rest =>
      match escapeWidth? c with
      | some width =>
          let ds := rest.take width
          if ds.length < width then .error .malformed
          else
            match Text.natural? 16 ds with
            | none => .error .malformed
            | some n =>
                if (0xD800 ≤ n && n ≤ 0xDFFF) || n > 0x10FFFF then .error .malformed
                else .ok (Char.ofNat n, width + 1)
      | none =>
          match escapeLetter? c with
          | some ch => .ok (ch, 1)
          | none => .error .malformed

/-- One word of a quoted scalar, last character first, with the flag that an
escaped line break ended it. -/
def quotedWord (single : Bool) :
    Nat → List Char → Cursor → Except Malformed (List Char × Bool × Cursor)
  | 0, _, _ => .error .malformed
  | fuel + 1, text, c =>
      match c.rest with
      | [] => .ok (text, false, c)
      | ch :: rest =>
          if isSpaceOrTab ch || isBreak ch then .ok (text, false, c)
          else if single then
            if ch == '\'' then
              if rest.head? == some '\'' then quotedWord single fuel ('\'' :: text) (c.skip 2)
              else .ok (text, false, c)
            else quotedWord single fuel (ch :: text) (c.skip)
          else if ch == '"' then .ok (text, false, c)
          else if ch == '\\' then
            if (rest.head?.map isBreak).getD false then .ok (text, true, (c.skip).line.2)
            else
              match readEscape rest with
              | .error e => .error e
              | .ok (e, n) => quotedWord single fuel (e :: text) (c.skip (n + 1))
          else quotedWord single fuel (ch :: text) (c.skip)

/-- Reads a quoted scalar after its opening quote. -/
def readQuoted (single : Bool) :
    Nat → List Char → Cursor → Except Malformed (List Char × Cursor)
  | 0, _, _ => .error .malformed
  | fuel + 1, text, c =>
      if c.atDocumentMarker || c.rest.isEmpty then .error .malformed
      else
        match quotedWord single (c.bound + 1) [] c with
        | .error e => .error e
        | .ok (drow, broken, c) =>
            let word := drow.reverse
            if c.peek? == some (if single then '\'' else '"') then
              .ok (text ++ word, c.skip)
            else
              match readGap 0 (c.bound + 1) { broken } c with
              | .error e => .error e
              | .ok (gap, c) => readQuoted single fuel (text ++ word ++ gap.text) c

/-! ## Block scalars -/

/-- What becomes of the line breaks at the end of a block scalar. -/
inductive Chomping where
  | clip
  | strip
  | keep
deriving Repr, DecidableEq

/-- The header of a block scalar: chomping and the indentation it asks for. -/
def blockHeader (c : Cursor) : Except Malformed (Chomping × Nat × Cursor) :=
  let chomp? (c : Cursor) : Option (Chomping × Cursor) :=
    match c.peek? with
    | some '+' => some (.keep, c.skip)
    | some '-' => some (.strip, c.skip)
    | _ => none
  let digit? (c : Cursor) : Option (Nat × Cursor) :=
    match c.peek? with
    | some d => if d.isDigit then some (d.toNat - '0'.toNat, c.skip) else none
    | none => none
  let header : Chomping × Option Nat × Cursor :=
    match chomp? c with
    | some (ch, c) =>
        match digit? c with
        | some (n, c) => (ch, some n, c)
        | none => (ch, none, c)
    | none =>
        match digit? c with
        | some (n, c) =>
            match chomp? c with
            | some (ch, c) => (ch, some n, c)
            | none => (.clip, some n, c)
        | none => (.clip, none, c)
  let (ch, n?, c) := header
  if n? == some 0 then .error .malformed
  else
    let c := (c.takeWhile isSpaceOrTab).2
    let c := if c.peek? == some '#' then c.toLineEnd else c
    match c.peek? with
    | none => .ok (ch, n?.getD 0, c)
    | some b => if isBreak b then .ok (ch, n?.getD 0, c.line.2) else .error .malformed

/-- Passes indentation and empty lines of a block scalar: the breaks passed, the
deepest indentation seen, and where the next line starts.  An indentation of
zero means that it is not known yet. -/
def blockBreaks (indent : Nat) :
    Nat → List Char → Nat → Cursor → Except Malformed (List Char × Nat × Cursor)
  | 0, breaks, deepest, c => .ok (breaks, deepest, c)
  | fuel + 1, breaks, deepest, c =>
      let spaces := (c.rest.takeWhile (· == ' ')).length
      let c := c.skip (if indent == 0 then spaces else min spaces (indent - c.mark.column))
      let deepest := max deepest c.mark.column
      match c.peek? with
      | none => .ok (breaks, deepest, c)
      | some ch =>
          if (indent == 0 || c.mark.column < indent) && ch == '\t' then .error .malformed
          else if isBreak ch then
            let (b, c) := c.line
            blockBreaks indent fuel (breaks ++ b) deepest c
          else .ok (breaks, deepest, c)

/-- The lines of a block scalar: its text, the break after its last line and the
breaks after that. -/
def blockLines (literal : Bool) (indent : Nat) :
    Nat → List Char → List Char → List Char → Bool → Cursor →
      Except Malformed (List Char × List Char × List Char × Cursor)
  | 0, text, lead, trail, _, c => .ok (text, lead, trail, c)
  | fuel + 1, text, lead, trail, afterBlank, c =>
      if c.mark.column != indent || c.rest.isEmpty then .ok (text, lead, trail, c)
      else
        let startsBlank := (c.peek?.map isSpaceOrTab).getD false
        let joint :=
          if !literal && !afterBlank && !startsBlank && lead.head? == some '\n' then
            if trail.isEmpty then [' '] else []
          else lead
        let (lineText, c) := c.takeWhile (!isBreak ·)
        let (lead', c) := c.line
        match blockBreaks indent (c.bound + 1) [] 0 c with
        | .error e => .error e
        | .ok (trail', _, c) =>
            blockLines literal indent fuel (text ++ joint ++ trail ++ lineText) lead' trail'
              startsBlank c

/-- Reads a block scalar after its indicator. -/
def readBlock (literal : Bool) (parentIndent : Int) (c : Cursor) :
    Except Malformed (List Char × Cursor) := do
  let (chomping, increment, c) ← blockHeader c
  let given : Nat :=
    if increment = 0 then 0
    else if 0 ≤ parentIndent then parentIndent.toNat + increment else increment
  let (trail, deepest, c) ← blockBreaks given (c.bound + 1) [] 0 c
  let indent :=
    if given = 0 then max (max deepest (parentIndent + 1).toNat) 1 else given
  let (text, lead, trail, c) ← blockLines literal indent (c.bound + 1) [] [] trail false c
  let tail :=
    match chomping with
    | .strip => []
    | .clip => lead
    | .keep => lead ++ trail
  return (text ++ tail, c)

end Tenure.Yaml

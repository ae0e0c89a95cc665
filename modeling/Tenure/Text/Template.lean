/-!
# Templates without arguments

A message that is used as a template stands for itself up to its percent signs.
A percent sign starts a place for an argument: flags, a width, a precision, an
index in brackets and the letter that says how to write it.  With no arguments
to put in, every place is marked as missing one; only `%%` is a percent sign.
-/

namespace Tenure.Text.Template

def isFlag (c : Char) : Bool := c = '#' || c = '0' || c = '+' || c = '-' || c = ' '

def isDigit (c : Char) : Bool := '0' ≤ c && c ≤ '9'

/-- Skips an index in brackets.  The flag says that there was one, which no
argument can match, and the second that it could be read as an index. -/
def skipIndex (s : List Char) : Bool × Bool × List Char :=
  match s with
  | '[' :: rest =>
      match rest.span (· ≠ ']') with
      | (body, _ :: after) =>
          if s.length < 3 then (true, false, rest)
          else (true, !body.isEmpty && body.all isDigit, after)
      | (_, []) => (true, false, rest)
  | _ => (false, false, s)

/-- Skips a width or precision; a `*` would take it from an argument, so it is
marked with `complaint`. -/
def skipAmount (complaint : String) : List Char → String × List Char
  | '*' :: rest => (complaint, rest)
  | s => ("", s.dropWhile isDigit)

/-- The place that starts behind a percent sign: what is written for it, and the
text behind it. -/
def place (s : List Char) : String × List Char :=
  let s := s.dropWhile isFlag
  let (indexed, after, s) := skipIndex s
  let (wide, s') := skipAmount "%!(BADWIDTH)" s
  let badIndex := indexed || (after && s'.length < s.length)
  let (precise, indexed', after', s) :=
    match s' with
    | '.' :: s =>
        let (indexed, after, s) := skipIndex s
        let (precise, s) := skipAmount "%!(BADPREC)" s
        (precise, indexed, after, s)
    | s => ("", false, after, s)
  let (indexed'', _, s) := if after' then (false, false, s) else skipIndex s
  let bad := badIndex || indexed' || indexed''
  let written := wide ++ precise
  match s with
  | [] => (written ++ "%!(NOVERB)", [])
  | '%' :: s => (written ++ "%", s)
  | c :: s =>
      (written ++ "%!" ++ c.toString ++ (if bad then "(BADINDEX)" else "(MISSING)"), s)

/-- Fills all places; the fuel is the length of the text. -/
def fillFrom : Nat → List Char → List String
  | 0, _ => []
  | _, [] => []
  | fuel + 1, '%' :: s =>
      let (written, rest) := place s
      written :: fillFrom fuel rest
  | fuel + 1, c :: s => c.toString :: fillFrom fuel s

/-- What a template stands for without arguments. -/
def fill (s : String) : String := String.join (fillFrom s.length s.toList)

end Tenure.Text.Template

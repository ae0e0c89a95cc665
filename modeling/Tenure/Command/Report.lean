import Tenure.Text.Utf8

/-!
# Reports

Everything shown to the user goes through a reporter.  Its level says which
messages are shown; an error is remembered even when it is not shown.  A message
is a tag, a blank and a text on a line of its own.
-/

namespace Tenure

/-- How much is shown, from nothing to everything. -/
inductive LogLevel where
  | silent
  | error
  | warn
  | verbose
  deriving Repr, DecidableEq

namespace LogLevel

def rank : LogLevel → Nat
  | silent => 0
  | error => 1
  | warn => 2
  | verbose => 3

/-- The lower case of a character, as far as it is a letter `a` to `z`: besides
the capitals these are the dotted capital i and the Kelvin sign. -/
def lowerCase (c : Char) : Char :=
  if c = '\u0130' then 'i'
  else if c = '\u212a' then 'k'
  else c.toLower

/-- The level with a name, in any case; every other name stands for `verbose`. -/
def ofName (name : String) : LogLevel :=
  match String.ofList (name.toList.map lowerCase) with
  | "silent" => silent
  | "error" => error
  | "warn" => warn
  | "warning" => warn
  | _ => verbose

end LogLevel

structure Reporter where
  level : LogLevel := .verbose
  anyErrors : Bool := false
  /-- the part of the work that is going on -/
  phase : Option String := none
  /-- all that has been shown -/
  shown : ByteArray := .empty

namespace Reporter

/-- A reporter that starts at a level, without errors; what has been shown
stays. -/
def init (r : Reporter) (level : LogLevel) : Reporter :=
  { r with level, anyErrors := false }

def showBytes (r : Reporter) (bytes : ByteArray) : Reporter := { r with shown := r.shown ++ bytes }

def showText (r : Reporter) (s : String) : Reporter := r.showBytes s.toUTF8

/-- A tagged line. -/
def showLine (r : Reporter) (tag : String) (message : ByteArray) : Reporter :=
  ((r.showText (tag ++ " ")).showBytes message).showText "\n"

/-- An error that does not end the work. -/
def error (r : Reporter) (tag : String) (message : ByteArray) : Reporter :=
  let r := { r with anyErrors := true }
  if r.level = .silent then r else r.showLine tag message

def warning (r : Reporter) (tag : String) (message : ByteArray) : Reporter :=
  if r.level.rank < LogLevel.warn.rank then r else r.showLine tag message

/-- A message that is shown at every level. -/
def info (r : Reporter) (tag : String) (message : ByteArray) : Reporter := r.showLine tag message

/-- An error after which the work cannot go on. -/
def fatal (r : Reporter) (message : ByteArray) : Reporter :=
  if r.level = .silent then r else (r.showLine "Fatal Error" message).showText "\n"

/-- A violated invariant of the program, which is shown at every level. -/
def violation (r : Reporter) (message : String) : Reporter :=
  ((r.showText "\n").showLine "Internal Compiler Error" (Text.unpack message)).showText
    "This error was not supposed to happen: the input program violates an
invariant an earlier compiler phase should have established.\n\n"

def beginPhase (r : Reporter) (name : String) : Reporter :=
  if r.level = .verbose then { r with phase := some name } else r

/-- Ends the part of the work that is going on, if one is. -/
def endPhase (r : Reporter) (success : Bool) : Reporter :=
  match r.phase with
  | none => r
  | some name =>
      { r.showLine (if success then "Done" else "Fail") name.toUTF8 with phase := none }

/-- The closing words of a build. -/
def finished (r : Reporter) (path : String) : Reporter :=
  if r.level ≠ .verbose then r
  else if r.anyErrors then r.showText "\nOh no! Generation failed.\n"
  else r.showText s!"\nAll done! Output written to {path}\n"

/-- The text of a violated invariant that is handed on as an error. -/
def violationText (message : String) : String := "internal compiler error: " ++ message

end Reporter

end Tenure

import Tenure.Command.Path
import Tenure.Lowering.Build
import Tenure.Toml.Document

/-!
# Build profiles

A profile fixes how a program is lowered and where the result goes.  The
profiles of a project stand in one settings file; one is chosen by name, and
without a name the first one marked as the default.  A project without such a
file has one profile, `Profile.default`.
-/

namespace Tenure

structure Profile where
  name : String
  options : Lowering.Options
  /-- where the lowered program goes; empty to derive it from the input -/
  outputPath : String := ""

/-- A profile as a settings file gives it. -/
structure ProfileEntry where
  name : String
  isDefault : Bool
  boundsCheck : String
  flares : Bool
  outputPath : String

/-- Why there is no profile to build with. -/
inductive ProfileError where
  | unreadable (e : Toml.Error)
  | noProfiles
  | noDefault
  | unknown (name : String)
  | unnamed
  | badPolicy (policy name : String)
  /-- a profile was chosen, but there is no file to choose it from -/
  | noFile (name : String)

def ProfileError.message : ProfileError → String
  | .unreadable e => e.message
  | .noProfiles => "profile file must provide at least one profile"
  | .noDefault => "no default profile; `--profile` argument is required"
  | .unknown name => s!"no profile named `{name}`"
  | .unnamed => "profile must specify a name"
  | .badPolicy policy name =>
      s!"{policy} is not a valid bounds check policy in profile `{name}`"
  | .noFile name => s!"no profile file to select profile `{name}` from"

/-! ## Entries of the file -/

namespace ProfileEntry

/-- The value of a key, which may also be written in capitals throughout. -/
def field? (t : Toml.Value) (key : String) : Option Toml.Value :=
  (t.get? key).orElse fun _ => t.get? key.toUpper

/-- A text field; a missing one is empty. -/
def textField (t : Toml.Value) (key : String) : Except Toml.Error String :=
  match field? t key with
  | none => .ok ""
  | some (.text s) => .ok s
  | some _ => .error .mismatch

/-- A truth value; a missing one is false. -/
def flagField (t : Toml.Value) (key : String) : Except Toml.Error Bool :=
  match field? t key with
  | none => .ok false
  | some (.flag b) => .ok b
  | some _ => .error .mismatch

def ofTable (t : Toml.Value) : Except Toml.Error ProfileEntry := do
  return {
    name := ← textField t "name"
    isDefault := ← flagField t "default"
    boundsCheck := ← textField t "bounds-check"
    flares := ← flagField t "flares"
    outputPath := ← textField t "output" }

/-- The entries of a settings file, in order. -/
def parseAll (text : String) : Except Toml.Error (List ProfileEntry) := do
  match field? (← Toml.Value.parse text) "profiles" with
  | none => return []
  | some (.rows ts) => ts.mapM ofTable
  | some _ => .error .mismatch

end ProfileEntry

/-! ## Profiles -/

namespace Profile

/-- The profile of a project without a settings file. -/
def default : Profile := { name := "default", options := { bounds := .trap, flares := false } }

/-- The policy of a bounds check; the empty name stands for `trap`. -/
def policy? : String → Option Lowering.BoundsPolicy
  | "" => some .trap
  | "trap" => some .trap
  | "none" => some .unchecked
  | _ => none

def ofEntry (e : ProfileEntry) : Except ProfileError Profile :=
  if e.name.isEmpty then .error .unnamed
  else
    match policy? e.boundsCheck with
    | none => .error (.badPolicy e.boundsCheck e.name)
    | some bounds =>
        .ok {
          name := e.name
          options := { bounds, flares := e.flares }
          outputPath := e.outputPath }

/-- Chooses among the entries of a file: the first with the name, or the first
default one if the name is empty. -/
def select (entries : List ProfileEntry) (name : String) : Except ProfileError Profile :=
  if entries.isEmpty then .error .noProfiles
  else if name.isEmpty then
    match entries.find? (·.isDefault) with
    | some e => ofEntry e
    | none => .error .noDefault
  else
    match entries.find? (·.name = name) with
    | some e => ofEntry e
    | none => .error (.unknown name)

/-- Reads a settings file and chooses a profile from it. -/
def parse (text name : String) : Except ProfileError Profile :=
  match ProfileEntry.parseAll text with
  | .ok entries => select entries name
  | .error e => .error (.unreadable e)

/-- The profile of a project, given the text of its settings file if it has one. -/
def load (text? : Option String) (name : String) : Except ProfileError Profile :=
  match text? with
  | some text => parse text name
  | none => if name.isEmpty then .ok default else .error (.noFile name)

/-- The file a lowered program goes to. -/
def output (p : Profile) (input : String) : String :=
  if p.outputPath.isEmpty then Path.withoutExtension input ++ ".ll" else p.outputPath

end Profile

end Tenure

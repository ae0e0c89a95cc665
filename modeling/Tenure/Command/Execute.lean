import Tenure.Command.Arguments
import Tenure.Command.Files
import Tenure.Command.Profile
import Tenure.Ir.Printer
import Tenure.Lowering.Module
import Tenure.Interp.Run
import Tenure.Program.Load
import Tenure.Text.Template

/-!
# Commands

A command loads a program, lowers it under a profile, and writes the result or
runs it.  It works on files through `Files` and shows everything through a
reporter, so the same code serves a directory and a tree of files in memory.
-/

namespace Tenure

/-- How a command ends. -/
inductive Exit where
  | success
  | failure
  /-- an invariant of the program was violated -/
  | violation
  /-- a value had a shape that its use does not allow -/
  | crash
  /-- the program runs on after all its steps -/
  | endless
  deriving Repr, DecidableEq

/-- The exit code of an end. -/
def Exit.code : Exit → Nat
  | success => 0
  | failure => 1
  | violation => 255
  | crash => 2
  | endless => 2

structure Outcome where
  exit : Exit
  shown : ByteArray

/-- A command under way: it ends early by an exit. -/
abbrev Command (m : Type → Type) := ExceptT Exit (StateT Reporter m)

namespace Command

variable {m : Type → Type} [Monad m]

def report (f : Reporter → Reporter) : Command m Unit := modify f

def leave {α : Type} (e : Exit) : Command m α := throw e

/-- Shows an error and ends the command. -/
def fatal {α : Type} (message : ByteArray) : Command m α := do
  report (·.fatal message)
  leave .failure

def onFiles {α : Type} (x : m α) : Command m α := monadLift x

/-! ## Parts of the work -/

/-- The file that holds the profiles of a project. -/
def profileFile : String := "midas.toml"

/-- The function that a run starts with. -/
def entryFunction : String := "main"

/-- The profile for a program, from the settings file beside it. -/
def selectProfile (files : Files m) (program name : String) : Command m Profile := do
  let failed {α : Type} (message : String) : Command m α :=
    fatal ("failed to load profile: " ++ message).toUTF8
  let text? ←
    match ← onFiles (files.read (Path.join (Path.parent program) profileFile)) with
    | .ok bytes => pure (some (Text.ofBytes bytes))
    | .error f => if f.reason = .noEntry then pure none else failed f.message
  match Profile.load text? name with
  | .ok p => return p
  | .error e => failed e.message

/-- Reads a program.  The error is the text to show. -/
def readProgram (files : Files m) (path : String) : Command m (Except ByteArray Program) := do
  match ← onFiles (files.read path) with
  | .error f => return .error f.message.toUTF8
  | .ok bytes =>
      match Program.parse (Text.ofBytes bytes) with
      | .ok p => return .ok p
      | .error e =>
          if e.cause = .nullEntry then leave .crash
          else return .error ((path ++ ": ").toUTF8 ++ e.message)

/-- Loads a program as a part of the work; `none` if that failed. -/
def loadProgram (files : Files m) (path : String) : Command m (Option Program) := do
  report (·.beginPhase "Loading")
  match ← readProgram files path with
  | .ok p =>
      report (·.endPhase true)
      return some p
  | .error message =>
      report fun r => (r.endPhase false).error "Load Error" message
      return none

/-- Lowers a program under a profile. -/
def lower (program : Program) (profile : Profile) : Command m Ir.Module := do
  report (·.beginPhase "Generating")
  match program.toModule profile.options with
  | .ok code =>
      report (·.endPhase true)
      return code
  | .error (.violation v) =>
      report (·.violation v.message)
      leave .violation
  | .error .crash => leave .crash

/-- Writes a module to a file; `false` if that failed. -/
def writeModule (files : Files m) (path : String) (code : Ir.Module) : Command m Bool := do
  let failed (f : FileFault) : Command m Bool := do
    report fun r => (r.endPhase false).error "Output Error" f.message.toUTF8
    return false
  report (·.beginPhase "Writing")
  match ← onFiles (files.makeDirectories (Path.parent path)) with
  | .error f => failed f
  | .ok () =>
      match code.text? with
      | none => leave .crash
      | some text =>
          match ← onFiles (files.write path text.toUTF8) with
          | .error f => failed f
          | .ok () =>
              report (·.endPhase true)
              return true

/-- The text of the value that a run returned, by the declared type of the entry
function: nothing for `void` or without an entry function, a truth value for
`bool`, the quoted contents for `str`, and the value itself for all others. -/
def resultText (program : Program) (machine : Interp.Machine) (result : Interp.Value) :
    Except Exit (Option String) :=
  match program.functions.toList.find? (·.proto.name = entryFunction) with
  | none => .ok none
  | some entry =>
      match entry.proto.result with
      | none => .error .crash
      | some type =>
          match type.referend, result with
          | .void, _ => .ok none
          | .bool, .int n => .ok (some (if n = 0 then "false" else "true"))
          | .bool, _ => .error .crash
          | .str, .ptr p =>
              match machine.stringContents p with
              | .ok bytes => .ok (some (Text.quoteBytes bytes))
              | .error (.error e) => .ok (some e.message)
              | .error .crash => .error .crash
          | .str, _ => .error .crash
          | _, v => .ok (some v.text)

/-- Runs the entry function of a module and shows its result; `false` if the run
ended in an error.  What the program prints comes first. -/
def runModule (steps : Nat) (program : Program) (code : Ir.Module) : Command m Bool := do
  report (·.beginPhase "Running")
  let .ok machine := Interp.Machine.new code | leave .crash
  let some (machine, outcome) := machine.call steps entryFunction [] | leave .endless
  report (·.showBytes machine.output.bytes)
  match outcome with
  | .error .crash => leave .crash
  | .error (.error e) =>
      report fun r => (r.endPhase false).error "Runtime Error" (Text.unpack e.message)
      return false
  | .ok result =>
      report (·.endPhase true)
      match resultText program machine result with
      | .error e => leave e
      | .ok none => pure ()
      | .ok (some text) => report (·.info "Result" (Text.unpack text))
      let live := machine.liveObjects
      if 0 < live then
        report (·.warning "Leak"
          s!"{live} heap object(s) still live after `{entryFunction}` returned".toUTF8)
      return true

/-- The definitions of a program, one a line. -/
def listing (program : Program) : String :=
  let signature (p : Prototype) : String :=
    p.name ++ "(" ++ ", ".intercalate (p.params.map referenceText) ++ ") " ++ referenceText p.result
  let structs := program.structs.toList.map fun d =>
    "struct " ++ d.name ++ " (" ++
      ", ".intercalate (d.members.map fun x => x.name ++ " " ++ referenceText x.type) ++ ")"
  let interfaces := program.interfaces.toList.map fun d =>
    "interface " ++ d.name ++ " (" ++ "; ".intercalate (d.methods.map signature) ++ ")"
  let natives := program.natives.toList.map fun p => "native " ++ signature p
  let functions := program.functions.toList.map fun f => "function " ++ signature f.proto
  String.join ((structs ++ interfaces ++ natives ++ functions).map (· ++ "\n"))

/-! ## Commands -/

def build (files : Files m) (path profileName output : String) : Command m Unit := do
  let path := Path.absolute files.here path
  let profile ← selectProfile files path profileName
  let written ←
    match ← loadProgram files path with
    | none => pure ""
    | some program => do
        let code ← lower program profile
        let output := if output.isEmpty then profile.output path else output
        pure (if ← writeModule files output code then output else "")
  report (·.finished written)
  if (← get).anyErrors then leave .failure

def run (files : Files m) (steps : Nat) (path profileName : String) : Command m Unit := do
  let path := Path.absolute files.here path
  let profile ← selectProfile files path profileName
  let some program ← loadProgram files path | leave .failure
  let code ← lower program profile
  unless ← runModule steps program code do leave .failure

def dump (files : Files m) (path : String) : Command m Unit := do
  match ← readProgram files path with
  | .error message => fatal ("failed to load program: ".toUTF8 ++ message)
  | .ok program => report (·.showText (listing program))

def versionNumber : String := "0.2.0"

def perform (files : Files m) (steps : Nat) : Action → Command m Unit
  | .build path profile output => build files path profile output
  | .run path profile => run files steps path profile
  | .dump path => dump files path
  | .version => report (·.info "Midas Version" versionNumber.toUTF8)

/-- Carries out the command that the arguments ask for.  A complaint about the
arguments is used as a template. -/
def execute (files : Files m) (steps : Nat) (args : List String) : m Outcome := do
  let command : Command m Unit :=
    match Invocation.parse args with
    | .error e => fatal (Text.Template.fill e.message).toUTF8
    | .ok call => do
        report (·.init call.level)
        perform files steps call.action
  let (result, reporter) ← StateT.run (ExceptT.run command) {}
  let exit :=
    match result with
    | .ok () => .success
    | .error e => e
  return { exit, shown := reporter.shown }

end Command

end Tenure

import Tenure.Command.Execute

/-!
# The command line

The outermost layer: files of the operating system, standard output and the exit
code.
-/

namespace Tenure.CommandLine

/-- Why an operation of the system failed. -/
def reason : IO.Error → FileReason
  | .noFileOrDirectory .. => .noEntry
  | .inappropriateType _ _ details =>
      if details = FileReason.isDirectory.text then .isDirectory else .notDirectory
  | .alreadyExists .. => .exists
  | .permissionDenied .. => .other "permission denied"
  | e => .other (toString e)

def attempt {α : Type} (action path : String) (x : IO α) : IO (Except FileFault α) := do
  try
    return .ok (← x)
  catch e =>
    return .error ⟨action, path, reason e⟩

/-- The files of the operating system, seen from the current directory. -/
def systemFiles : IO (Files IO) := do
  let root ← IO.currentDir
  let isDirectory? (path : String) : IO (Option Bool) := do
    try
      return some ((← (root / path).metadata).type == .dir)
    catch _ =>
      return none
  return {
    here := root.toString
    isDirectory?
    read := fun path => do
      if (← isDirectory? path) = some true then return .error ⟨"read", path, .isDirectory⟩
      attempt "open" path (IO.FS.readBinFile (root / path))
    makeDirectory := fun path => attempt "mkdir" path (IO.FS.createDir (root / path))
    write := fun path contents => do
      if (← isDirectory? path) = some true then return .error ⟨"open", path, .isDirectory⟩
      attempt "open" path (IO.FS.writeBinFile (root / path) contents) }

/-- More steps than any run takes. -/
def stepLimit : Nat := 1000000000000000000

def start (args : List String) : IO UInt32 := do
  let outcome ← Command.execute (← systemFiles) stepLimit args
  let out ← IO.getStdout
  out.write outcome.shown
  out.flush
  return outcome.exit.code.toUInt32

end Tenure.CommandLine

def main (args : List String) : IO UInt32 := Tenure.CommandLine.start args

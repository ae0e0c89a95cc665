import Tenure.Command.Report

/-!
# Arguments

An invocation names a command, and the command's own argument and options follow.
Options are `-short=value` or `--long=value`; what starts with a hyphen and gives
no value is a flag, and there are none.  The log level can be set anywhere, but
an option in front of the command ends the search for one.
-/

namespace Tenure

/-- What can be set by an option. -/
structure OptionSpec where
  name : String
  short : String
  /-- the values to choose from, if not every text will do -/
  choices : Option (List String) := none

structure CommandSpec where
  name : String
  /-- the argument that the command needs -/
  argument : Option String := none
  options : List OptionSpec := []

/-- What an invocation asks for. -/
inductive Action where
  | build (program profile output : String)
  | run (program profile : String)
  | dump (program : String)
  | version
  deriving Repr, DecidableEq

structure Invocation where
  level : LogLevel
  action : Action
  deriving Repr, DecidableEq

/-- What is wrong with the arguments. -/
inductive UsageError where
  | noCommand
  | unknownCommand (name : String)
  /-- a word behind an option, where no command is looked for any more -/
  | unexpectedCommand (name : String)
  | missingArgument (command argument : String)
  | secondArgument (command : String)
  | unknownShortOption (name : String)
  | unknownOption (name : String)
  | unknownShortFlag (name : String)
  | unknownFlag (name : String)
  | badChoice (value option : String)
  | repeated (option : String)
  deriving Repr, DecidableEq

def UsageError.message : UsageError → String
  | noCommand => "`midas` requires a subcommand"
  | unknownCommand name => s!"unknown subcommand: `{name}`"
  | unexpectedCommand name => s!"unexpected subcommand: `{name}`"
  | missingArgument command argument =>
      s!"missing required primary argument `{command}` for subcommand `{argument}`"
  | secondArgument command => s!"multiple primary arguments specified for command `{command}`"
  | unknownShortOption name => s!"unknown argument by short name: `{name}`"
  | unknownOption name => s!"unknown argument: `{name}`"
  | unknownShortFlag name => s!"unknown flag by short name: `{name}`"
  | unknownFlag name => s!"unknown flag: `{name}`"
  | badChoice value option => s!"`{value}` is not a valid value for argument [{option}]"
  | repeated option => s!"argument `{option}` set multiple times"

namespace Arguments

/-! ## The commands -/

def levelOption : OptionSpec :=
  { name := "loglevel", short := "ll", choices := some ["silent", "error", "warn", "verbose"] }

def profileOption : OptionSpec := { name := "profile", short := "p" }

def outputOption : OptionSpec := { name := "output", short := "o" }

def programArgument : String := "program-path"

def commands : List CommandSpec :=
  [ { name := "build", argument := some programArgument, options := [profileOption, outputOption] },
    { name := "run", argument := some programArgument, options := [profileOption] },
    { name := "dump", argument := some programArgument },
    { name := "version" } ]

/-! ## Reading -/

/-- The arguments as far as they have been read. -/
structure State where
  command : Option CommandSpec := none
  /-- whether a word may still name a command -/
  searching : Bool := true
  /-- the command's own argument; empty until it is given -/
  argument : String := ""
  settings : List (String × String) := []

namespace State

/-- The options that can be given at this point: those of the command and those
that every command shares. -/
def options (s : State) : List OptionSpec :=
  (s.command.map (·.options)).getD [] ++ [levelOption]

def setting (s : State) (option : OptionSpec) : String := (s.settings.lookup option.name).getD ""

/-- Sets an option, once, to a value that it can take. -/
def set (s : State) (option : OptionSpec) (value : String) : Except UsageError State :=
  if option.choices.any fun cs => !cs.contains value then
    .error (.badChoice value option.name)
  else if s.settings.any (·.1 = option.name) then .error (.repeated option.name)
  else .ok { s with settings := s.settings ++ [(option.name, value)], searching := false }

/-- An argument without hyphens: a command, or the argument of the command. -/
def word (s : State) (w : String) : Except UsageError State :=
  match s.command with
  | none =>
      if s.searching then
        match commands.find? (·.name = w) with
        | some c => .ok { s with command := some c }
        | none => .error (.unknownCommand w)
      else .error (.unexpectedCommand w)
  | some c =>
      match c.argument with
      | none => .error (if s.searching then .unknownCommand w else .unexpectedCommand w)
      | some _ =>
          if s.argument.isEmpty then .ok { s with argument := w }
          else .error (.secondArgument c.name)

end State

/-- The name and the value of an option; the value is empty if there is none. -/
def splitOption (s : List Char) : String × String :=
  let (name, rest) := s.span (· ≠ '=')
  (String.ofList name, String.ofList (rest.drop 1))

/-- Reads one argument. -/
def read (s : State) (arg : String) : Except UsageError State :=
  match arg.toList with
  | '-' :: '-' :: rest =>
      let (name, value) := splitOption rest
      if value.isEmpty then .error (.unknownFlag name)
      else
        match s.options.find? (·.name = name) with
        | some o => s.set o value
        | none => .error (.unknownOption name)
  | '-' :: rest =>
      let (name, value) := splitOption rest
      if value.isEmpty then .error (.unknownShortFlag name)
      else
        match s.options.find? (·.short = name) with
        | some o => s.set o value
        | none => .error (.unknownShortOption name)
  | _ => s.word arg

/-- What the arguments ask for, once all of them have been read. -/
def finish (s : State) : Except UsageError Invocation :=
  match s.command with
  | none => .error .noCommand
  | some c =>
      match c.argument with
      | some argument =>
          if s.argument.isEmpty then .error (.missingArgument c.name argument)
          else
            let profile := s.setting profileOption
            let action : Action :=
              if c.name = "build" then .build s.argument profile (s.setting outputOption)
              else if c.name = "run" then .run s.argument profile
              else .dump s.argument
            .ok ⟨.ofName (s.setting levelOption), action⟩
      | none => .ok ⟨.ofName (s.setting levelOption), .version⟩

end Arguments

/-- Reads the arguments of an invocation. -/
def Invocation.parse (args : List String) : Except UsageError Invocation := do
  Arguments.finish (← args.foldlM Arguments.read {})

end Tenure

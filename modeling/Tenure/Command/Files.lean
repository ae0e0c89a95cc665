import Tenure.Command.Path

/-!
# Files

The few things a command does with files, as operations in some monad, and the
tree of files in memory as one instance of them.  A fault names what was tried,
on which path, and why it failed.
-/

namespace Tenure

/-- Why an operation on a path fails. -/
inductive FileReason where
  | noEntry
  | isDirectory
  | notDirectory
  | exists
  | other (text : String)
  deriving Repr, DecidableEq

def FileReason.text : FileReason → String
  | noEntry => "no such file or directory"
  | isDirectory => "is a directory"
  | notDirectory => "not a directory"
  | «exists» => "file exists"
  | other text => text

structure FileFault where
  /-- the operation that failed -/
  action : String
  path : String
  reason : FileReason
  deriving Repr, DecidableEq

def FileFault.message (f : FileFault) : String := s!"{f.action} {f.path}: {f.reason.text}"

/-- The operations on files. -/
structure Files (m : Type → Type) where
  /-- the path that relative paths start from -/
  here : String
  read : String → m (Except FileFault ByteArray)
  /-- whether a path leads to a directory; `none` if it leads nowhere -/
  isDirectory? : String → m (Option Bool)
  makeDirectory : String → m (Except FileFault Unit)
  write : String → ByteArray → m (Except FileFault Unit)

namespace Files

variable {m : Type → Type} [Monad m]

/-- The path above another one, with slashes at its end dropped; `none` if there
is none above it to make. -/
def above? (path : String) : Option String :=
  let s := (path.toList.reverse.dropWhile (· = '/')).dropWhile (· ≠ '/')
  if s.length ≤ 1 then none else some (String.ofList (s.drop 1).reverse)

/-- Makes a directory and all that are missing above it; the fuel is the length
of the path. -/
def makeDirectoriesFrom (files : Files m) : Nat → String → m (Except FileFault Unit)
  | 0, path => files.makeDirectory path
  | fuel + 1, path => do
      match ← files.isDirectory? path with
      | some true => return .ok ()
      | some false => return .error ⟨"mkdir", path, .notDirectory⟩
      | none =>
          let first ←
            match above? path with
            | some up => makeDirectoriesFrom files fuel up
            | none => pure (.ok ())
          match first with
          | .error f => return .error f
          | .ok () =>
              match ← files.makeDirectory path with
              | .ok () => return .ok ()
              | .error f =>
                  if (← files.isDirectory? path) = some true then return .ok ()
                  else return .error f

def makeDirectories (files : Files m) (path : String) : m (Except FileFault Unit) :=
  makeDirectoriesFrom files path.length path

end Files

/-! ## A tree of files in memory -/

/-- Files and directories by their elements; directories have no contents.  What
lies above an entry is a directory without being listed. -/
abbrev FileTree := List (List String × Option ByteArray)

namespace FileTree

inductive Kind where
  | directory
  | file (contents : ByteArray)
  | missing

/-- What stands at a place. -/
def kind (t : FileTree) (place : List String) : Kind :=
  match t.lookup place with
  | some (some contents) => .file contents
  | some none => .directory
  | none =>
      if place.isEmpty || t.any fun (p, _) => place.isPrefixOf p then .directory else .missing

/-- Follows the elements of a path from a place. -/
def follow (t : FileTree) : List String → List String → Except FileReason (List String)
  | place, [] => .ok place
  | place, e :: es =>
      match t.kind place with
      | .file _ => .error .notDirectory
      | .missing => .error .noEntry
      | .directory =>
          if e = "" || e = "." then follow t place es
          else if e = ".." then follow t place.dropLast es
          else follow t (place ++ [e]) es

/-- The place that a path leads to, from the root of the tree, whose own path is
`here`. -/
def locate (t : FileTree) (here path : String) : Except FileReason (List String) :=
  if path.isEmpty then .error .noEntry
  else
    let elements := path.splitOn "/"
    let own := here.splitOn "/"
    t.follow [] (if own.isPrefixOf elements then elements.drop own.length else elements)

def put (t : FileTree) (place : List String) (node : Option ByteArray) : FileTree :=
  if t.any (·.1 = place) then t.map fun e => if e.1 = place then (place, node) else e
  else t ++ [(place, node)]

/-- The operations on a tree whose own path is `here`. -/
def files (here : String) : Files (StateM FileTree) where
  here := here
  read path := do
    let t ← get
    match t.locate here path with
    | .error reason => return .error ⟨"open", path, reason⟩
    | .ok place =>
        match t.kind place with
        | .file contents => return .ok contents
        | .directory => return .error ⟨"read", path, .isDirectory⟩
        | .missing => return .error ⟨"open", path, .noEntry⟩
  isDirectory? path := do
    let t ← get
    match t.locate here path with
    | .error _ => return none
    | .ok place =>
        match t.kind place with
        | .file _ => return some false
        | .directory => return some true
        | .missing => return none
  makeDirectory path := do
    let t ← get
    match t.locate here path with
    | .error reason => return .error ⟨"mkdir", path, reason⟩
    | .ok place =>
        match t.kind place with
        | .missing =>
            set (t.put place none)
            return .ok ()
        | _ => return .error ⟨"mkdir", path, .exists⟩
  write path contents := do
    let t ← get
    match t.locate here path with
    | .error reason => return .error ⟨"open", path, reason⟩
    | .ok place =>
        match t.kind place with
        | .directory => return .error ⟨"open", path, .isDirectory⟩
        | _ =>
            set (t.put place (some contents))
            return .ok ()

/-- The files that one tree has and another does not have with the same
contents. -/
def changesFrom (before after : FileTree) : List (String × ByteArray) :=
  after.filterMap fun (place, node) =>
    match node with
    | none => none
    | some contents =>
        match before.kind place with
        | .file old =>
            if old.data = contents.data then none else some ("/".intercalate place, contents)
        | _ => some ("/".intercalate place, contents)

end FileTree

end Tenure

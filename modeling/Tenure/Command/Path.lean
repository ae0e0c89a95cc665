/-!
# Paths

Paths are texts with `/` between their elements.  All rules here look at the
text alone.
-/

namespace Tenure.Path

/-- The last element of a path; empty behind a final `/`. -/
def lastElement (path : List Char) : List Char :=
  (path.reverse.takeWhile (· ≠ '/')).reverse

/-- A path without the extension of its last element, which starts at the last
dot in it. -/
def withoutExtension (path : String) : String :=
  let s := path.toList
  let name := lastElement s
  if name.contains '.' then
    String.ofList (((s.reverse.dropWhile (· ≠ '.')).drop 1).reverse)
  else path

def isAbsolute (path : String) : Bool := path.startsWith "/"

/-- Drops the empty and `.` elements and resolves `..` against the element before
it.  The elements are kept innermost first; `..` at the top of a rooted path goes
away. -/
def resolveElements (rooted : Bool) : List String → List String → List String
  | done, [] => done.reverse
  | done, e :: es =>
      if e = "" || e = "." then resolveElements rooted done es
      else if e = ".." then
        match done with
        | [] => resolveElements rooted (if rooted then [] else [".."]) es
        | d :: ds => resolveElements rooted (if d = ".." then ".." :: d :: ds else ds) es
      else resolveElements rooted (e :: done) es

/-- The shortest text for the same path. -/
def clean (path : String) : String :=
  let rooted := isAbsolute path
  let body := "/".intercalate (resolveElements rooted [] (path.splitOn "/"))
  if rooted then "/" ++ body
  else if body.isEmpty then "."
  else body

/-- A path below another one. -/
def join (dir path : String) : String :=
  if dir.isEmpty then (if path.isEmpty then "" else clean path) else clean (dir ++ "/" ++ path)

/-- All of a path but its last element. -/
def parent (path : String) : String :=
  clean (String.ofList (path.toList.reverse.dropWhile (· ≠ '/')).reverse)

/-- The path that names the same place from anywhere, seen from `here`. -/
def absolute (here path : String) : String :=
  if isAbsolute path then clean path else join here path

end Tenure.Path

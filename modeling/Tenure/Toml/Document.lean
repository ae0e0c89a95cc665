import Tenure.Toml.Token

/-!
# Reading a settings file

A header names the table that the keys below it belong to; a doubled header adds
a row to a list of tables.  A key, a header and the keys inside a table between
braces can each be used only once.
-/

namespace Tenure.Toml

abbrev Reading := Except Error

/-! ## Values -/

/-- What stood before a place in a table between braces. -/
inductive Before where
  | nothing
  | field
  | comma

def parts (raw : List Char) : Reading (List String) :=
  match keyParts raw with
  | some ps => .ok ps
  | none => .error .malformed

mutual

/-- One value, and the tokens behind it. -/
def readValue : Nat → List Token → Reading (Value × List Token)
  | 0, _ => .error .malformed
  | _ + 1, .value v :: ts => .ok (v, ts)
  | fuel + 1, .listStart :: ts => do
      let (items, ts) ← readItems fuel ts
      return (.ofItems items, ts)
  | fuel + 1, .tableStart :: ts => readFields fuel .nothing (.table true []) ts
  | _ + 1, .bad e :: _ => .error e
  | _ + 1, _ => .error .malformed

/-- The items of a list up to its end; a comma may stand before the end. -/
def readItems : Nat → List Token → Reading (List Value × List Token)
  | 0, _ => .error .malformed
  | _ + 1, .listEnd :: ts => .ok ([], ts)
  | fuel + 1, ts => do
      let (v, ts) ← readValue fuel ts
      match ts with
      | .listEnd :: ts => return ([v], ts)
      | .comma :: ts =>
          let (vs, ts) ← readItems fuel ts
          return (v :: vs, ts)
      | .bad e :: _ => .error e
      | _ => .error .malformed

/-- The fields of a table between braces, added to `t`.  Fields are divided by
commas, and no comma stands before the end. -/
def readFields : Nat → Before → Value → List Token → Reading (Value × List Token)
  | 0, _, _, _ => .error .malformed
  | _ + 1, .comma, _, .tableEnd :: _ => .error .malformed
  | _ + 1, _, t, .tableEnd :: ts => .ok (t, ts)
  | _ + 1, .field, _, .key _ :: _ => .error .malformed
  | fuel + 1, _, t, .key raw :: .equals :: ts => do
      let path ← parts raw
      let (v, ts) ← readValue fuel ts
      readFields fuel .field (t.put path v) ts
  | fuel + 1, .field, t, .comma :: ts => readFields fuel .comma t ts
  | _ + 1, _, _, .key _ :: .bad e :: _ => .error e
  | _ + 1, _, _, .bad e :: _ => .error e
  | _ + 1, _, _, _ => .error .malformed

end

/-! ## Lines -/

/-- A settings file as far as it has been read. -/
structure Document where
  root : Value := .table false []
  /-- the table that keys go to -/
  current : List String := []
  /-- the headers that may not come again -/
  headers : List (List Char) := []

namespace Document

def require {α : Type} : Option α → Reading α
  | some a => .ok a
  | none => .error .malformed

def refuse (b : Bool) : Reading Unit := if b then .error .malformed else .ok ()

/-- Starts the table of a header. -/
def startTable (d : Document) (raw : List Char) : Reading Document := do
  refuse (d.headers.contains raw)
  let path ← parts raw
  let root ← require (d.root.open? path)
  refuse ((root.at? path).any (·.isClosed))
  return { root, current := path, headers := raw :: d.headers }

/-- Starts a row of a doubled header.  The headers below it may then come again. -/
def startRow (d : Document) (raw : List Char) : Reading Document := do
  let path ← parts raw
  let root := (d.root.open? path.dropLast).getD d.root
  let rows ←
    match root.at? path with
    | none => .ok []
    | some (.rows ts) => .ok ts
    | some _ => .error .malformed
  return {
    root := root.put path (.rows (rows ++ [.table false []]))
    current := path
    headers := raw :: d.headers.filter fun h => !(raw ++ ['.']).isPrefixOf h }

/-- Gives a key of the current table its value. -/
def assign (d : Document) (path : List String) (v : Value) : Reading Document := do
  let table := d.current ++ path.dropLast
  let key := path.getLastD ""
  let root ← require (d.root.open? table)
  let target ← require ((root.at? table).bind (·.target?))
  refuse target.isClosed
  refuse (target.get? key).isSome
  return { d with root := root.put (table ++ [key]) v }

/-- Reads all lines; every step uses up a token. -/
def readLines : Nat → Document → List Token → Reading Document
  | 0, _, _ => .error .malformed
  | _ + 1, d, [] => .ok d
  | fuel + 1, d, .header raw :: ts => do readLines fuel (← d.startTable raw) ts
  | fuel + 1, d, .rowHeader raw :: ts => do readLines fuel (← d.startRow raw) ts
  | fuel + 1, d, .key raw :: .equals :: ts => do
      let path ← parts raw
      let (v, ts) ← readValue (ts.length + 1) ts
      readLines fuel (← d.assign path v) ts
  | _ + 1, _, .key _ :: .bad e :: _ => .error e
  | _ + 1, _, .bad e :: _ => .error e
  | _ + 1, _, _ => .error .malformed

end Document

/-- The table that a text describes. -/
def Value.parse (text : String) : Except Error Value := do
  let ts := tokens text
  let d ← Document.readLines (ts.length + 1) {} ts
  return d.root

end Tenure.Toml

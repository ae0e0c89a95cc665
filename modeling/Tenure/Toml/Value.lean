/-!
# Values of a settings file

A settings file is a table of named values.  Only text and truth values are
looked into later, so every other scalar is kept without its contents; a list
whose items are all tables is a list of rows, whichever way it was written.
-/

namespace Tenure.Toml

/-- Why a settings file cannot be read. -/
inductive Error where
  /-- the text is not a settings file -/
  | malformed
  /-- a decimal numeral of three or more characters starts with a zero -/
  | leadingZero
  /-- a value is not of the kind that its key asks for -/
  | mismatch
  deriving Repr, DecidableEq

def Error.message : Error → String
  | .malformed => "malformed text"
  | .leadingZero => "invalid base"
  | .mismatch => "value of another type expected"

inductive Value where
  | text (s : String)
  | flag (b : Bool)
  /-- a number, a date or a time -/
  | scalar
  | list (items : List Value)
  /-- `closed` tables were written between braces and take no further keys -/
  | table (closed : Bool) (entries : List (String × Value))
  /-- the tables of a repeated header, in order -/
  | rows (tables : List Value)
  deriving Inhabited

namespace Value

/-- Replaces the value of a key, or adds the key at the end. -/
def putEntry (key : String) (v : Value) : List (String × Value) → List (String × Value)
  | [] => [(key, v)]
  | (k, w) :: es => if k = key then (k, v) :: es else (k, w) :: putEntry key v es

def isTable : Value → Bool
  | .table .. => true
  | _ => false

/-- A list of values; a non-empty list of tables is a list of rows. -/
def ofItems (items : List Value) : Value :=
  if !items.isEmpty && items.all isTable then .rows items else .list items

/-- The value of a key. -/
def get? : Value → String → Option Value
  | .table _ es, key => es.lookup key
  | _, _ => none

/-- The table that a value stands for as the target of keys: itself, or the last
of its rows. -/
def target? : Value → Option Value
  | .table closed es => some (.table closed es)
  | .rows ts => ts.getLast?
  | _ => none

def isClosed : Value → Bool
  | .table closed _ => closed
  | _ => false

/-- The value at a path of keys; a path leads through the last row of a list of
rows. -/
def at? : List String → Value → Option Value
  | [], v => some v
  | key :: path, v => (v.target?).bind fun t => (t.get? key).bind (at? path)

/-- Puts a value at a path of keys below a table.  Missing tables are made on the
way, and a step of the path that leads to something other than a table is left
out. -/
def put : List String → Value → Value → Value
  | [], _, v => v
  | [key], .table closed es, v => .table closed (putEntry key v es)
  | key :: path, .table closed es, v =>
      match es.lookup key with
      | none => .table closed (putEntry key (put path (.table false []) v) es)
      | some (.table c fs) => .table closed (putEntry key (put path (.table c fs) v) es)
      | some (.rows ts) =>
          match ts.getLast? with
          | some t => .table closed (putEntry key (.rows (ts.dropLast ++ [put path t v])) es)
          | none => .table closed es
      | some _ => put path (.table closed es) v
  | _, w, _ => w

/-- Makes sure that a path of keys leads to a table.  Tables made inside a closed
one are closed. -/
def open? : List String → Value → Option Value
  | [], v => some v
  | key :: path, .table closed es =>
      match es.lookup key with
      | none => do
          let t ← open? path (.table closed [])
          some (.table closed (putEntry key t es))
      | some (.table c fs) => do
          let t ← open? path (.table c fs)
          some (.table closed (putEntry key t es))
      | some (.rows ts) => do
          let t ← open? path (← ts.getLast?)
          some (.table closed (putEntry key (.rows (ts.dropLast ++ [t])) es))
      | some _ => none
  | _ :: _, _ => none

end Value

end Tenure.Toml

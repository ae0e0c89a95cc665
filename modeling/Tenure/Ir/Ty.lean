import Tenure.Ir.Name

/-!
# Types of the intermediate representation

Types are finite trees.  A type that may contain a pointer to itself is entered
in the module's table of definitions and mentioned by its index there, together
with the way it is written.
-/

namespace Tenure.Ir

inductive Ty where
  | int (bits : Nat)
  | void
  | double
  | label
  | ptr (elem : Ty)
  | array (len : Nat) (elem : Ty)
  /-- a struct written out in place; the name may be empty -/
  | struct (name : String) (fields : List Ty)
  /-- an entry of the module's table of definitions -/
  | defined (index : Nat) (spelling : String)
  | func (result : Ty) (params : List Ty)
  /-- the type of an operand that breaks the typing rules -/
  | invalid
deriving Inhabited, Repr

namespace Ty

abbrev i1 : Ty := int 1
abbrev i8 : Ty := int 8
abbrev i32 : Ty := int 32
abbrev i64 : Ty := int 64
abbrev i8Ptr : Ty := ptr i8

/-- A brace around a list of fields. -/
def bracedText (parts : List String) : String :=
  if parts.isEmpty then "\x7b\x7d" else "\x7b " ++ ", ".intercalate parts ++ " \x7d"

mutual

/-- A type as it is written: by its name if it has one. -/
def text : Ty → String
  | int bits => "i" ++ toString bits
  | void => "void"
  | double => "double"
  | label => "label"
  | ptr elem => elem.text ++ "*"
  | array len elem => "[" ++ toString len ++ " x " ++ elem.text ++ "]"
  | struct name fields => if name = "" then bracedText (texts fields) else typeIdent name
  | defined _ spelling => spelling
  | func result params => result.text ++ " (" ++ ", ".intercalate (texts params) ++ ")"
  | invalid => "<invalid>"

def texts : List Ty → List String
  | [] => []
  | t :: ts => t.text :: texts ts

end

/-- Types are the same if they are written alike. -/
def same (t u : Ty) : Bool := t.text == u.text

/-- The type a pointer points to. -/
def pointee? : Ty → Option Ty
  | ptr elem => some elem
  | _ => none

end Ty

/-- An entry of a module's table of types. -/
structure TypeDef where
  name : String
  fields : List Ty
deriving Inhabited, Repr

/-- The table of defined types. -/
abbrev TypeDefs := Array TypeDef

namespace Ty

/-- The fields of a struct, looked up if the struct is a defined one. -/
def fields? (defs : TypeDefs) : Ty → Option (List Ty)
  | struct _ fields => some fields
  | defined i _ => defs[i]?.map (·.fields)
  | _ => none

/-- Writes out the definitions that a type contains, except behind pointers; the
fuel bounds the nesting of definitions.  A type that contains itself never comes
to an end and keeps a mention of its definition. -/
def expandWith (recur : Ty → Ty) (defs : TypeDefs) : Ty → Ty
  | array len elem => array len (expandWith recur defs elem)
  | struct name fields => struct name (expandAll fields)
  | defined i spelling =>
      match defs[i]? with
      | some d => struct d.name (d.fields.map recur)
      | none => defined i spelling
  | t => t
where
  expandAll : List Ty → List Ty
    | [] => []
    | t :: ts => expandWith recur defs t :: expandAll ts

def expandFuel (defs : TypeDefs) : Nat → Ty → Ty
  | 0 => id
  | fuel + 1 => expandWith (expandFuel defs fuel) defs

/-- The type with every definition that it contains written out. -/
def expand (defs : TypeDefs) (t : Ty) : Ty := expandFuel defs (defs.size + 1) t

end Ty
end Tenure.Ir

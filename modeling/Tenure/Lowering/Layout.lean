import Tenure.Lowering.Build

/-!
# The layout of values

Every type of the program has a type in the module.  A heap object starts with a
control block, which holds its count.  The module's table of types has the three
fixed types, then two for every struct (its members, and the heap object around
them), then two for every interface (its method table, and a reference through
it).
-/

namespace Tenure.Lowering

open Ir (Ty Const Operand)

/-! ## Positions in the table of types -/

/-- The header of heap objects: the count. -/
def controlBlockType : Ty := .defined 0 (Ir.typeIdent "__ControlBlock")

/-- A string: control block, length, bytes. -/
def strType : Ty := .defined 1 (Ir.typeIdent "__Str")

/-- The type of void values, which is empty. -/
def voidType : Ty := .defined 2 (Ir.typeIdent "__Void")

/-- The members of a struct. -/
def innerType (p : Program) (i : Nat) : Ty :=
  .defined (3 + 2 * i) (Ir.typeIdent (((p.structs[i]?.map (·.name)).getD "") ++ ".inline"))

/-- A struct on the heap.  A struct without a name is written as what it holds. -/
def wrapperType (p : Program) (i : Nat) : Ty :=
  let name := (p.structs[i]?.map (·.name)).getD ""
  .defined (4 + 2 * i)
    (if name = "" then Ty.bracedText [controlBlockType.text, (innerType p i).text]
     else Ir.typeIdent name)

/-- The method table of an interface. -/
def itableType (p : Program) (i : Nat) : Ty :=
  .defined (3 + 2 * p.structs.size + 2 * i)
    (Ir.typeIdent (((p.interfaces[i]?.map (·.name)).getD "") ++ ".itable"))

/-- A reference through an interface: the object and the method table. -/
def interfaceRefType (p : Program) (i : Nat) : Ty :=
  .defined (4 + 2 * p.structs.size + 2 * i)
    (Ir.typeIdent (((p.interfaces[i]?.map (·.name)).getD "") ++ ".ref"))

/-! ## Lookup -/

/-- The index of the struct a symbol stands for. -/
def structIndex (s : Symbol) : Build Nat := do
  let p ← getProgram
  let id := p.structId s
  if 0 ≤ id ∧ id < p.structs.size then return id.toNat else violation (.unresolvedStruct s.name)

/-- The index of the interface a symbol stands for. -/
def interfaceIndex (i : Symbol) : Build Nat := do
  let p ← getProgram
  let id := p.interfaceId i
  if 0 ≤ id ∧ id < p.interfaces.size then return id.toNat
  else violation (.unresolvedInterface i.name)

def structAt (i : Nat) : Build StructDef := do require (← getProgram).structs[i]?

def interfaceAt (i : Nat) : Build InterfaceDef := do require (← getProgram).interfaces[i]?

/-- The position of a definition by the index it carries itself. -/
def ownIndex (id : Int) (count : Nat) : Build Nat :=
  if 0 ≤ id ∧ id < count then return id.toNat else crash

/-! ## Types of references -/

/-- The heap layout of an array with elements of a type. -/
def arrayLayoutOf (size : Option Int) (elem : Ty) : Ty :=
  match size with
  | some n => .struct "" [controlBlockType, .array (n % 18446744073709551616).toNat elem]
  | none => .struct "" [controlBlockType, .i64, .array 0 elem]

/-- The layout kept for a referend, or else the one computed now, which is kept
from then on. -/
def keptLayout (key : String) (compute : Build Ty) : Build Ty := do
  match (← get).arrayLayouts.find? (·.1 == key) with
  | some (_, t) => return t
  | none =>
      let t ← compute
      modify fun s => { s with arrayLayouts := (key, t) :: s.arrayLayouts }
      return t

/-- The type of the values of a reference. -/
def lowerReferend (o : Ownership) (l : Location) : Referend → Build Ty
  | .int => return .i64
  | .bool => return .i1
  | .void => return voidType
  | .str => return .ptr strType
  | .struct s => do
      let i ← structIndex s
      if l = .inline then return innerType (← getProgram) i
      else return .ptr (wrapperType (← getProgram) i)
  | .interface i => do return interfaceRefType (← getProgram) (← interfaceIndex i)
  | .array size o' l' elem => do
      if l = .inline then
        violation (.inlineArray (Reference.text ⟨o, l, .array size o' l' elem⟩))
      let layout ← keptLayout (Referend.array size o' l' elem).text do
        return arrayLayoutOf size (← lowerReferend o' l' elem)
      return .ptr layout
  | .hollowArray size => do
      if l = .inline then violation (.inlineArray (Reference.text ⟨o, l, .hollowArray size⟩))
      crash
  | .missing => violation .missingReferend

def lowerReference (r : Reference) : Build Ty := lowerReferend r.ownership r.location r.referend

/-- The type of the values of a reference that must be there. -/
def lowerType (r : Option Reference) : Build Ty := do lowerReference (← require r)

/-- The heap layout of an array. -/
def arrayLayout (r : Referend) : Build Ty :=
  match r with
  | .missing => crash
  | r =>
      keptLayout r.text do
        match r with
        | .array size o l elem => return arrayLayoutOf size (← lowerReferend o l elem)
        | .hollowArray _ => crash
        | r => violation (.notAnArray r.text)

/-! ## Values -/

/-- The one value of the void type. -/
def voidValue : Operand := .const (.zero voidType)

/-- The size of a type as a constant: the address of the second of its values
when the first is at null. -/
def sizeOf (t : Ty) : Const :=
  .ptrToInt (.gep (.ptr t) t (.null (.ptr t)) [.i32 1]) .i64

end Tenure.Lowering

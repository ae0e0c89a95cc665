import Tenure.Lowering.Expr

/-!
# Whole programs

A program is lowered in a fixed order: the runtime and the types are declared
first, then all functions, so that code can mention what is filled in later.
-/

namespace Tenure.Lowering

open Ir (Ty)

/-! ## Declarations -/

def declareRuntime : Build Unit := do
  for f in RuntimeFunc.all do
    let _ ← addFunc f.declaration

/-- The table of types with the fixed types filled in and the others empty. -/
def blankTypes (p : Program) : List Ir.TypeDef :=
  [⟨"__ControlBlock", [.i64]⟩, ⟨"__Str", [controlBlockType, .i64, .array 0 .i8]⟩,
    ⟨"__Void", []⟩] ++
  p.structs.toList.flatMap (fun d => [⟨d.name ++ ".inline", []⟩, ⟨d.name, []⟩]) ++
  p.interfaces.toList.zipIdx.flatMap (fun (d, i) =>
    [⟨d.name ++ ".itable", []⟩, ⟨d.name ++ ".ref", [.i8Ptr, .ptr (itableType p i)]⟩])

/-- Fills in an entry of the table of types. -/
def setFields (t : Ty) (fields : List Ty) : Build Unit :=
  match t with
  | .defined i _ =>
      modify fun s => { s with module := { s.module with
        types := s.module.types.modify i fun d => { d with fields } } }
  | _ => return

/-- Fills in the types of the structs from a position on. -/
def fillStructs : Nat → List StructDef → Build Unit
  | _, [] => return
  | i, d :: ds => do
      let p ← getProgram
      let fields ← d.members.mapM fun m => lowerType m.type
      setFields (innerType p i) fields
      setFields (wrapperType p i) [controlBlockType, innerType p i]
      fillStructs (i + 1) ds

/-- Fills in the method tables of the interfaces from a position on. -/
def fillInterfaces : Nat → List InterfaceDef → Build Unit
  | _, [] => return
  | i, d :: ds => do
      let entries ← d.methods.mapM fun m => return Ty.ptr (← entryType d m)
      setFields (itableType (← getProgram) i) (dropType :: entries)
      fillInterfaces (i + 1) ds

def declareTypes : Build Unit := do
  let p ← getProgram
  modify fun s => { s with module := { s.module with types := (blankTypes p).toArray } }
  fillStructs 0 p.structs.toList
  fillInterfaces 0 p.interfaces.toList

/-- Parameters are named by their positions. -/
def lowerParams : Nat → List (Option Reference) → Build (List (String × Ty))
  | _, [] => return []
  | i, r :: rs => do
      let t ← lowerType r
      return ("arg" ++ toString i, t) :: (← lowerParams (i + 1) rs)

/-- Adds a function for a signature, under the index of the signature. -/
def declareFunc (p : Prototype) (linked : Bool) : Build Unit := do
  let params ← lowerParams 0 p.params
  let result ← lowerType p.result
  let position ← addFunc { name := p.name, result, params, linked }
  let i ← ownIndex p.id (← get).funcs.size
  modify fun s => { s with funcs := s.funcs.set! i (some position) }

/-- Declares all functions and all externs; builtins need no declaration. -/
def declareFuncs : Build Unit := do
  let p ← getProgram
  modify fun s => { s with funcs := Array.replicate (p.functions.size + p.natives.size) none }
  for f in p.functions do declareFunc f.proto false
  for n in p.natives do
    if (Builtin.ofName? n.name).isNone then declareFunc n true

/-! ## Bodies -/

/-- Lowers the body of a function.  A body that ends without a value returns void,
if that is what the function returns. -/
def buildBody (f : Function) : Build Unit := do
  let i ← ownIndex f.proto.id (← get).funcs.size
  let position ← require ((← get).funcs[i]?.getD none)
  modify fun s => { s with module := { s.module with
    funcs := s.module.funcs.modify position fun g => { g with nounwinds := g.nounwinds + 1 } } }
  beginFunc position
  let result ← lower f.body
  if ← terminated then return
  match result with
  | some h => terminate (.ret (some h.value))
  | none =>
      if (← require f.proto.result).referend = .void then terminate (.ret (some voidValue))
      else violation (.bodyWithoutValue f.proto.name)

def buildBodies : List Function → Build Unit
  | [] => return
  | f :: fs => do
      buildBody f
      buildBodies fs

def buildModule : Build Unit := do
  declareRuntime
  declareTypes
  declareFuncs
  buildDropFuncs
  buildTables
  buildBodies (← getProgram).functions.toList

end Tenure.Lowering

/-- Lowers a program to a module. -/
def Tenure.Program.toModule (p : Program) (options : Lowering.Options) :
    Except Lowering.Fault Ir.Module :=
  if p.resolved then
    match Lowering.buildModule { program := p, options } {} with
    | .ok _ s => .ok s.module
    | .error f _ => .error f
  else .error (.violation .unresolvedProgram)

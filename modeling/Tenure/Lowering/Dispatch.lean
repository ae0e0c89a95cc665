import Tenure.Lowering.Counting

/-!
# Interfaces

A reference through an interface is a pair: the object, and the method table of
the object's struct for that interface.  A method table starts with the drop
function of the struct; the methods follow in the interface's order.
-/

namespace Tenure.Lowering

open Ir (Ty Const Operand)

/-- The position of the receiver among the parameters of a method. -/
def receiverIndex (d : InterfaceDef) (m : Prototype) : Build Nat := do
  let p ← getProgram
  let rec find : Nat → List (Option Reference) → Build Nat
    | _, [] => violation (.noReceiver m.name d.name)
    | i, r :: rs => do
        match (← require r).referend with
        | .interface s => if p.interfaceId s = d.id then return i else find (i + 1) rs
        | _ => find (i + 1) rs
  find 0 m.params

/-- The types of the parameters of a method table's entry: the receiver is passed
as an untyped pointer to the object. -/
def entryParams (receiver : Nat) : Nat → List (Option Reference) → Build (List Ty)
  | _, [] => return []
  | i, r :: rs => do
      let t ← if i = receiver then pure .i8Ptr else lowerType r
      return t :: (← entryParams receiver (i + 1) rs)

/-- The type of a method table's entry for a method. -/
def entryType (d : InterfaceDef) (m : Prototype) : Build Ty := do
  let params ← entryParams (← receiverIndex d m) 0 m.params
  return .func (← lowerType m.result) params

/-- The type of drop functions. -/
def dropType : Ty := .ptr (.func .void [.i8Ptr])

/-! ## Method tables -/

/-- The entries of a method table for the methods from a position on. -/
def tableEntries (fields : List Ty) (implementations : List Nat) :
    Nat → List Prototype → Build (List Const)
  | _, [] => return []
  | j, m :: ms => do
      let f ← require ((← getProgram).functions[← require implementations[j]?]?)
      let i ← ownIndex f.proto.id (← get).funcs.size
      match (← get).funcs[i]? with
      | some (some position) =>
          let entry := Const.bitcast (.func position (← require
            (← get).module.funcs[position]?).signature) (← require fields[j + 1]?)
          return entry :: (← tableEntries fields implementations (j + 1) ms)
      | some none => violation (.cannotImplement f.proto.name m.name)
      | none => crash

/-- Adds the method table of an edge. -/
def buildTable (e : ResolvedEdge) : Build Unit := do
  let s ← structIndex e.struct
  let i ← interfaceIndex e.interface
  let d ← interfaceAt i
  let t := itableType (← getProgram) i
  let fields ← require (t.fields? (← typeDefs))
  let drop ← require (← get).dropFuncs[s]?
  let signature := (← require (← get).module.funcs[drop]?).signature
  let entries ← tableEntries fields e.methods 0 d.methods
  let g ← addGlobal (e.struct.name ++ "." ++ e.interface.name ++ ".itable")
    (.struct t (.func drop signature :: entries))
  modify fun st => { st with itables := st.itables.push g }

def buildTables : Build Unit := do
  for e in (← getProgram).edges do buildTable e

/-! ## Calls -/

/-- Makes a reference through an interface. -/
def makeInterfaceRef (i : Nat) (object itable : Operand) : Build Operand := do
  let start : Operand := .const (.undef (interfaceRefType (← getProgram) i))
  let half ← emitInsert start object 0
  emitInsert half itable 1

/-- The address of the method table of an edge. -/
def tableOperand (edge : Nat) : Build Operand := do
  let i ← require (← get).itables[edge]?
  let g ← require (← get).module.globals[i]?
  return .const (.global i g.content)

/-- Loads a method out of a reference through an interface. -/
def loadMethod (i : Nat) (ref : Operand) (method : Int) : Build Operand := do
  let d ← interfaceAt i
  if method < 0 ∨ (d.methods.length : Int) ≤ method then violation (.noMethod d.name method)
  let t := itableType (← getProgram) i
  let itable ← emitExtract ref 1
  let address ← emitGep t itable [.i32 0, .i32 (method + 1)]
  let fields ← require (t.fields? (← typeDefs))
  emitLoad (← require fields[method.toNat + 1]?) address

/-- The interface that a functor (what generates or consumes the elements of an
array) is called through, and its first method. -/
def functorMethod (functor : Held) : Build (Nat × InterfaceDef × Prototype) := do
  let r ← functor.reference
  match r.referend with
  | .interface s =>
      let i ← interfaceIndex s
      let d ← interfaceAt i
      match d.methods with
      | m :: _ => if m.params.length = 2 then return (i, d, m) else violation (.notAFunctor d.name)
      | [] => violation (.notAFunctor d.name)
  | _ => violation (.functorNotInterface r.text)

/-- Calls the first method of a functor with the functor as its receiver; the
call consumes a reference to the functor. -/
def callFunctor (functor : Held) (arg : Operand) : Build Operand := do
  let (i, d, m) ← functorMethod functor
  let receiver ← receiverIndex d m
  let object ← emitExtract functor.value 0
  let method ← loadMethod i functor.value 0
  emitCall method (if receiver = 0 then [object, arg] else [arg, object])

end Tenure.Lowering

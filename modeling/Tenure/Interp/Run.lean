import Tenure.Interp.Step

/-!
# Machines

A machine is built from a module and then called from outside, any number of
times; what a call leaves in memory is there for the next one.
-/

namespace Tenure.Interp.Machine

/-- Creates the objects of the globals, in order. -/
def createGlobals (code : Code) : List Ir.Global → Access Unit
  | [] => return
  | g :: gs => do
      let bytes ← Access.check (sizeOf (g.content.expand code.types))
      let _ ← allocate bytes .global
      createGlobals code gs

/-- Stores the initial values of the globals from a position on. -/
def fillGlobals (code : Code) : Nat → List Ir.Global → Access Unit
  | _, [] => return
  | i, g :: gs => do
      match g.init with
      | none => pure ()
      | some c =>
          let v ← evalConst code c
          store (g.content.expand code.types) v { base := .object i .global }
      fillGlobals code (i + 1) gs

/-- A machine for a module.  Initial values may mention other globals, so they
are stored once all globals exist. -/
def new (code : Ir.Module) (output : Output := {}) : Except Fault Machine :=
  let globals := code.globals.toList
  let setup : Access Unit := do
    createGlobals code globals
    fillGlobals code 0 globals
  match setup.run {} with
  | .ok _ memory => .ok { code, memory, output }
  | .error f _ => .error f

/-- Registers a function that the module only declares. -/
def register (m : Machine) (name : String) (native : List Value → Native) : Machine :=
  { m with natives := (name, native) :: m.natives }

/-- Calls a function by its name.  The answer is left out if the steps do not
suffice. -/
def call (m : Machine) (steps : Nat) (name : String) (args : List Value) :
    Option (Machine × Except Fault Value) :=
  match m.enter name args [] with
  | none => some (m, .error (.error (.noFunction name)))
  | some c => c.run steps

def liveObjects (m : Machine) : Nat := m.memory.liveObjects

/-- A pointer to a global by its name. -/
def global? (m : Machine) (name : String) : Option Pointer :=
  (m.code.globals.toList.findIdx? (Ir.knownName ·.name == name)).map fun i =>
    { base := .object i .global }

/-- Looks at memory without changing it. -/
def inspect {α : Type} (m : Machine) (x : Access α) : Except Fault α :=
  match x.run m.memory with
  | .ok a _ => .ok a
  | .error f _ => .error f

/-- The count in the control block of an object. -/
def refCount (m : Machine) (p : Pointer) : Except Fault Int64 :=
  m.inspect do asInt (← load .i64 p)

/-- The zero-terminated bytes at a pointer. -/
def bytesAt (m : Machine) (p : Pointer) : Except Fault ByteArray :=
  m.inspect (readString p)

/-- The characters of a string object follow its count and its length. -/
def charsOffset : Int64 := 16

/-- The characters of a string object. -/
def stringContents (m : Machine) (p : Pointer) : Except Fault ByteArray :=
  m.bytesAt (p.shift charsOffset)

end Tenure.Interp.Machine

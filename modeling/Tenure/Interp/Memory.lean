import Std.Data.HashMap
import Tenure.Interp.Layout

/-!
# Memory

Memory is a growing list of objects.  An object holds scalars in cells, each at
the byte offset where it was stored; a load finds a cell only at its exact place
and size.  Objects die and are never reused.
-/

namespace Tenure.Interp

open Ir (Ty)

/-- A scalar in memory. -/
structure Cell where
  size : Int64
  value : Value

/-- The cells of an object by their offsets. -/
abbrev Cells := Std.HashMap Int64 Cell

structure Object where
  region : Region
  address : Int64
  size : Int64
  cells : Cells := {}
  dead : Bool := false

structure Memory where
  objects : Array Object := #[]
  /-- the address of the next object -/
  nextAddress : Int64 := 0x1000
  /-- the heap objects that have not been freed -/
  heap : List Nat := []

/-- Access to memory may end in a fault; what was written before stays. -/
abbrev Access := EStateM Fault Memory

namespace Access

def raise {α : Type} (e : ExecError) : Access α := throw (.error e)

def crash {α : Type} : Access α := throw .crash

/-- A computation that does not touch memory. -/
def check {α : Type} (x : Checked α) : Access α :=
  match x with
  | .ok a => pure a
  | .error f => throw f

end Access

/-- The bytes that an object of a size takes up: whole units of 16, and a gap of
one more. -/
def room (size : Int64) : Int64 := (size + 15) / 16 * 16 + 16

namespace Memory

/-- The number of heap objects that have not been freed. -/
def liveObjects (m : Memory) : Nat := m.heap.length

def modifyObject (m : Memory) (id : Nat) (f : Object → Object) : Memory :=
  { m with objects := m.objects.modify id f }

def kill (m : Memory) (id : Nat) : Memory := m.modifyObject id fun o => { o with dead := true }

/-- Ends a heap object. -/
def release (m : Memory) (id : Nat) : Memory := { m.kill id with heap := m.heap.erase id }

/-- The memory with a new object at its end.  A gap is left after it, so no two
objects are adjacent. -/
def add (m : Memory) (region : Region) (size : Int64) : Memory where
  objects := m.objects.push { region, address := m.nextAddress, size }
  nextAddress := m.nextAddress + room size
  heap := if region = .heap then m.objects.size :: m.heap else m.heap

end Memory

/-- Creates an object. -/
def allocate (size : Int64) (region : Region) : Access Pointer := do
  let m ← get
  set (m.add region size)
  return { base := .object m.objects.size region }

/-- Checks an access of a number of bytes and gives the object it is to. -/
def checkAccess (p : Pointer) (bytes : Int64) : Access Nat := do
  match p.base with
  | .object id _ =>
      let state := (← get).objects[id]?.map fun o => (o.region, o.dead, o.size)
      match state with
      | none => Access.crash
      | some (region, dead, size) =>
          if dead then
            if region = .heap then Access.raise (.useAfterFree p.text)
            else Access.raise (.deadAccess region p.text)
          else if p.offset < 0 ∨ size < p.offset + bytes then
            Access.raise (.outOfBounds bytes.toInt p.text size.toInt)
          else return id
  | _ => Access.raise (.nullAccess p.text)

/-! ## Loads -/

/-- Reads a scalar. -/
def loadScalar (t : Ty) (p : Pointer) : Access Value := do
  let bytes ← Access.check (sizeOf t)
  let id ← checkAccess p bytes
  match (← get).objects[id]?.bind (·.cells[p.offset]?) with
  | none => Access.raise (.uninitialized p.text)
  | some c => if c.size ≠ bytes then Access.raise (.misaligned t.text p.text) else return c.value

/-- Reads items one after the other. -/
def loadRun (item : Pointer → Access Value) (stride : Int64) :
    Nat → Pointer → Array Value → Access (Array Value)
  | 0, _, acc => return acc
  | n + 1, p, acc => do
      let v ← item p
      loadRun item stride n (p.shift stride) (acc.push v)

mutual

/-- Reads a value of a type. -/
def load : Ty → Pointer → Access Value
  | .struct name fields, p => do
      let _ ← checkAccess p (← Access.check (sizeOf (.struct name fields)))
      return .agg (← loadFields fields 0 p)
  | .array len elem, p => do
      let _ ← checkAccess p (← Access.check (sizeOf (.array len elem)))
      let stride ← Access.check (sizeOf elem)
      if maxItems < len then Access.crash
      return .agg (← loadRun (load elem) stride len p #[]).toList
  | t, p => loadScalar t p

/-- Reads fields that start at an offset. -/
def loadFields : List Ty → Int64 → Pointer → Access (List Value)
  | [], _, _ => return []
  | t :: ts, offset, p => do
      let start ← Access.check (do alignTo offset (← alignOf t))
      let v ← load t (p.shift start)
      let stop ← Access.check (do return start + (← sizeOf t))
      return v :: (← loadFields ts stop p)

end

/-! ## Stores -/

/-- Removes the cells among a number of offsets that reach past a start. -/
def clearCells (start : Int64) : Nat → Int64 → Cells → Cells
  | 0, _, cells => cells
  | n + 1, offset, cells =>
      let reaches : Bool :=
        match cells[offset]? with
        | some c => decide (start < offset + c.size)
        | none => false
      clearCells start n (offset + 1) (if reaches then cells.erase offset else cells)

/-- Puts a scalar into an object in place of the cells it overlaps.  A cell of up
to eight bytes that reaches the scalar starts at most seven before it, and no
earlier cell is looked at. -/
def putCell (offset bytes : Int64) (v : Value) (cells : Cells) : Cells :=
  let first := offset - 7
  let count := if first < offset + bytes then (bytes + 7).toNatClampNeg else 0
  (clearCells offset count first cells).insert offset { size := bytes, value := v }

/-- Writes a scalar. -/
def storeScalar (t : Ty) (v : Value) (p : Pointer) : Access Unit := do
  let bytes ← Access.check (sizeOf t)
  let id ← checkAccess p bytes
  modify fun m =>
    m.modifyObject id fun o => { o with cells := putCell p.offset bytes v o.cells }

/-- Writes items one after the other. -/
def storeRun (item : Value → Pointer → Access Unit) (stride : Int64) :
    List Value → Pointer → Access Unit
  | [], _ => return
  | v :: vs, p => do
      item v p
      storeRun item stride vs (p.shift stride)

mutual

/-- Writes a value as one of a type. -/
def store : Ty → Value → Pointer → Access Unit
  | .struct name fields, v, p => do
      let _ ← checkAccess p (← Access.check (sizeOf (.struct name fields)))
      match v with
      | .agg items => storeFields fields items 0 p
      | _ => Access.crash
  | .array len elem, v, p => do
      let _ ← checkAccess p (← Access.check (sizeOf (.array len elem)))
      match v with
      | .agg items =>
          let stride ← Access.check (sizeOf elem)
          storeRun (store elem) stride items p
      | _ => Access.crash
  | t, v, p => storeScalar t v p

/-- Writes fields that start at an offset; there must be a value for each. -/
def storeFields : List Ty → List Value → Int64 → Pointer → Access Unit
  | [], _, _, _ => return
  | _ :: _, [], _, _ => Access.crash
  | t :: ts, v :: vs, offset, p => do
      let start ← Access.check (do alignTo offset (← alignOf t))
      store t v (p.shift start)
      let stop ← Access.check (do return start + (← sizeOf t))
      storeFields ts vs stop p

end

/-! ## Addresses and lifetimes -/

/-- The number a pointer is; from null it is the offset. -/
def addressOf (p : Pointer) : Access Int64 := do
  match p.base with
  | .function .. => Access.raise (.functionAddress p.text)
  | .null => return p.offset
  | .object id _ =>
      match (← get).objects[id]?.map (·.address) with
      | some a => return a + p.offset
      | none => Access.crash

/-- Frees a heap object through a pointer to its start; null is let be. -/
def free (p : Pointer) : Access Unit := do
  match p.base with
  | .null => return
  | .function .. => Access.raise (.freeOfNonHeap p.text)
  | .object id _ =>
      match (← get).objects[id]?.map fun o => (o.region, o.dead) with
      | none => Access.crash
      | some (region, dead) =>
          if region ≠ .heap then Access.raise (.freeOfNonHeap p.text)
          else if dead then Access.raise (.doubleFree p.text)
          else if p.offset ≠ 0 then Access.raise (.freeOfInterior p.text)
          else modify (·.release id)

end Tenure.Interp

import Tenure.Lowering.Loop

/-!
# Counting references

Acquiring a shared value counts up the objects it refers to directly; discarding
it counts them down and drops those that reach zero.  A shared inline struct has
no count of its own and passes both on to its members.
-/

namespace Tenure.Lowering

open Ir (Ty Operand)

def Held.reference (h : Held) : Build Reference := require h.type

/-- The address of the count of a heap object; behind an interface the object is
the first part of the reference. -/
def countPtr (x : Operand) (r : Reference) : Build Operand := do
  let object ←
    match r.referend with
    | .interface _ => emitExtract x 0
    | _ => pure x
  let header ← emitBitcast object (.ptr controlBlockType)
  emitGep controlBlockType header [.i32 0, .i32 0]

/-- Adds to the count of a heap object and gives the new count. -/
def adjustCount (x : Operand) (r : Reference) (delta : Int) : Build Operand := do
  if !r.isHeap then violation (.countOfInline r.text)
  let address ← countPtr x r
  let count ← emitLoad .i64 address
  let newCount ← emitBin .add count (.i64 delta)
  emitStore newCount address
  return newCount

/-- Frees a heap object whose concrete type is known. -/
def freeStorage (x : Operand) (r : Reference) : Build Unit := do
  match r.referend with
  | .interface _ => violation (.freeOfInterface r.text)
  | _ =>
      if !r.isHeap then violation (.freeOfInline r.text)
      let raw ← emitBitcast x .i8Ptr
      let _ ← emitCall RuntimeFunc.free.operand [raw]

/-- Ends an object that is consumed whole: one with an owner is counted down and
freed, a shared one has come to zero already. -/
def destroyStorage (x : Operand) (r : Reference) : Build Unit := do
  match r.ownership with
  | .own =>
      let _ ← adjustCount x r (-1)
      freeStorage x r
  | .share => freeStorage x r
  | _ => violation (.cannotDestroy r.text)

/-- Visits members, from a position on, as values taken out of a struct. -/
def visitMembers (x : Operand) (visit : Held → Build Unit) : Nat → List StructMember → Build Unit
  | _, [] => return
  | i, m :: ms => do
      let field ← emitExtract x i
      visit ⟨field, m.type⟩
      visitMembers x visit (i + 1) ms

/-- Visits the members of an inline struct; other inline values have none. -/
def forEachMember (x : Operand) (r : Referend) (visit : Held → Build Unit) : Build Unit := do
  match r with
  | .struct s =>
      let d ← structAt (← structIndex s)
      visitMembers x visit 0 d.members
  | _ => return

/-- Acquires a value; the fuel bounds the nesting of inline structs. -/
def acquireFuel : Nat → Held → Build Unit
  | 0, _ => crash
  | fuel + 1, h => do
      let r ← h.reference
      if r.ownership ≠ .share then return
      if r.isHeap then
        let _ ← adjustCount h.value r 1
      else forEachMember h.value r.referend (acquireFuel fuel)

/-- Structs nest no deeper than there are structs, unless one contains itself. -/
def nestingFuel : Build Nat := return (← getProgram).structs.size + 1

/-- Creates a new reference to a value. -/
def acquire (h : Held) : Build Unit := do acquireFuel (← nestingFuel) h

/-! ## Releasing -/

/-- Calls the drop function of a struct on an object. -/
def dropStruct (x : Operand) (s : Symbol) : Build Unit := do
  let raw ← emitBitcast x .i8Ptr
  let drop ← require (← get).dropFuncs[← structIndex s]?
  let _ ← emitCall (← funcOperand drop) [raw]

/-- Calls the drop function that the method table of a reference has first. -/
def dropThroughTable (x : Operand) (i : Symbol) : Build Unit := do
  let object ← emitExtract x 0
  let itable ← emitExtract x 1
  let t := itableType (← getProgram) (← interfaceIndex i)
  let address ← emitGep t itable [.i32 0, .i32 0]
  let fields ← require (t.fields? (← typeDefs))
  let drop ← emitLoad (← require fields.head?) address
  let _ ← emitCall drop [object]

/-- Counts a shared heap object down and drops it if the count reaches zero. -/
def releaseShared (x : Operand) (r : Reference) (drop : Build Unit) : Build Unit := do
  let newCount ← adjustCount x r (-1)
  let isZero ← emitCompare .eq newCount (.i64 0)
  let dropping ← addBlock "drop"
  let after ← addBlock "dropcont"
  terminate (.condBr isZero (.block dropping) (.block after))
  setBlock dropping
  drop
  terminate (.br (.block after))
  setBlock after

/-- Releases a value: `member` releases a member of an inline struct, and `drop`
ends a heap object.  Owned and lent values are let be: an owned value is only
ended by name. -/
def releaseBy (member : Held → Build Unit) (x : Operand) (r : Reference) (drop : Build Unit) :
    Build Unit := do
  match r.ownership with
  | .own | .borrow => return
  | .unknown _ => violation (.unhandledOwnership r.ownership.text)
  | .share =>
      if r.isHeap then releaseShared x r drop
      else forEachMember x r.referend member

/-- Releases a value of a type; `member` releases a member of an inline struct. -/
def release (member : Held → Build Unit) (x : Operand) (o : Ownership) (l : Location) :
    Referend → Build Unit
  | .struct s => releaseBy member x ⟨o, l, .struct s⟩ (dropStruct x s)
  | .interface i => releaseBy member x ⟨o, l, .interface i⟩ (dropThroughTable x i)
  | .array size o' l' elem =>
      let r : Reference := ⟨o, l, .array size o' l' elem⟩
      releaseBy member x r do
        if o' = .share then
          forEachElement x r fun address => do
            let item ← emitLoad (← require address.ty.pointee?) address
            release member item o' l' elem
        freeStorage x r
  | .hollowArray size => releaseBy member x ⟨o, l, .hollowArray size⟩ crash
  | .str => releaseBy member x ⟨o, l, .str⟩ (freeStorage x ⟨o, l, .str⟩)
  | r => releaseBy member x ⟨o, l, r⟩ (violation (.cannotDrop (Reference.text ⟨o, l, r⟩)))

/-- Discards a value; the fuel bounds the nesting of inline structs. -/
def discardFuel : Nat → Held → Build Unit
  | 0, _ => crash
  | fuel + 1, h => do
      let r ← h.reference
      release (discardFuel fuel) h.value r.ownership r.location r.referend

/-- Releases a value. -/
def discard (h : Held) : Build Unit := do discardFuel (← nestingFuel) h

/-- Does something with an operand that was taken over, and releases the operand
at the end, also when it fails; nothing is released where control never comes.
A fault of the release takes the place of the one on its way. -/
def releasing {α : Type} (h : Held) (body : Build α) : Build α := fun env s =>
  let close : Build Unit := do
    if !(← terminated) then discard h
  match body env s with
  | .ok a s =>
      match close env s with
      | .ok _ s => .ok a s
      | .error f s => .error f s
  | .error f s =>
      match close env s with
      | .ok _ s => .error f s
      | .error f' s => .error f' s

/-! ## Creating -/

/-- Allocates a heap object of a number of bytes, with a count of one. -/
def allocObject (layout : Ty) (bytes : Operand) : Build Operand := do
  let raw ← emitCall RuntimeFunc.malloc.operand [bytes]
  let object ← emitBitcast raw (.ptr layout)
  let count ← emitGep layout object [.i32 0, .i32 0, .i32 0]
  emitStore (.i64 1) count
  return object

/-- Fills the drop function of a struct: it releases the shared members and frees
the object. -/
def buildDropFunc (i : Nat) (d : StructDef) (func : Nat) : Build Unit := do
  beginFunc func
  let raw : Operand := .param 0 .i8Ptr
  let layout := wrapperType (← getProgram) i
  let object ← emitBitcast raw (.ptr layout)
  let rec members : Nat → List StructMember → Build Unit
    | _, [] => return
    | j, m :: ms => do
        let r ← require m.type
        if r.ownership = .share then
          let address ← emitGep layout object [.i32 0, .i32 1, .i32 j]
          let field ← emitLoad (← lowerReference r) address
          discard ⟨field, some r⟩
        members (j + 1) ms
  members 0 d.members
  let _ ← emitCall RuntimeFunc.free.operand [raw]
  terminate (.ret none)

/-- Adds the drop functions of all structs, then fills them. -/
def buildDropFuncs : Build Unit := do
  let p ← getProgram
  for d in p.structs do
    let i ← addFunc
      { name := "__drop_" ++ d.name, result := .void, params := [("obj", .i8Ptr)], nounwinds := 1 }
    modify fun s => { s with dropFuncs := s.dropFuncs.push i }
  let rec fill : Nat → List StructDef → Build Unit
    | _, [] => return
    | i, d :: ds => do
        buildDropFunc i d (← require (← get).dropFuncs[i]?)
        fill (i + 1) ds
  fill 0 p.structs.toList

end Tenure.Lowering

import Tenure.Lowering.Dispatch
import Tenure.Lowering.Strings

/-!
# Expressions

Each expression is lowered into the current block and gives a value, or nothing
if control does not come back or there is nothing to use.
-/

namespace Tenure.Lowering

open Ir (Operand)

/-! ## Locals -/

/-- Opens a local: makes its slot and stores a value into it. -/
def openLocal (l : Local) (x : Operand) : Build Unit := do
  if (← get).slots.any (·.1 == l.id) then violation (.openedTwice l.name l.id)
  let elem ← lowerType l.type
  let address ← entryAlloca elem l.name
  emitStore x address
  modify fun s => { s with slots := (l.id, { address, elem }) :: s.slots }

/-- The slot of an open local. -/
def slotOf (l : Local) : Build Slot := do
  match (← get).slots.find? (·.1 == l.id) with
  | some (_, slot) => return slot
  | none => violation (.notOpen l.name l.id)

def closeLocal (l : Local) : Build Unit :=
  modify fun s => { s with slots := s.slots.filter (·.1 != l.id) }

/-! ## Structs -/

/-- The struct that a type designates. -/
def structDef (r : Reference) : Build StructDef := do
  match r.referend with
  | .struct s => structAt (← structIndex s)
  | _ => violation (.notAStruct r.text)

/-- A member of the struct that a type designates. -/
def memberOf (r : Reference) (i : Int) : Build StructMember := do
  let d ← structDef r
  match Program.byId d.members.toArray i with
  | some m => return m
  | none => violation (.noMember d.name i)

/-- The index that the struct of a type carries itself. -/
def structOwnIndex (d : StructDef) : Build Nat := do
  ownIndex d.id (← getProgram).structs.size

/-- The address of a member of a heap struct. -/
def memberPtr (object : Operand) (r : Reference) (i : Int) : Build Operand := do
  let layout := wrapperType (← getProgram) (← structOwnIndex (← structDef r))
  emitGep layout object [.i32 0, .i32 1, .i32 i]

/-- Reads a member of a struct, without acquiring it. -/
def readMember (x : Operand) (r : Reference) (i : Nat) (m : StructMember) : Build Operand := do
  if r.isHeap then
    let t ← lowerType m.type
    emitLoad t (← memberPtr x r i)
  else emitExtract x i

/-- Whether a type allows a change of what it refers to: a shared value can only
be read. -/
def isMutableView (r : Reference) : Build Bool :=
  match r.ownership with
  | .own | .borrow => return true
  | .share => return false
  | .unknown _ => violation (.unhandledOwnership r.ownership.text)

/-- Stores values into the members of a new heap struct, from a position on. -/
def storeMembers (object : Operand) (r : Reference) : Nat → List Operand → Build Unit
  | _, [] => return
  | i, x :: xs => do
      emitStore x (← memberPtr object r i)
      storeMembers object r (i + 1) xs

/-- Puts values into the members of an inline struct, from a position on. -/
def insertMembers : Operand → Nat → List Operand → Build Operand
  | agg, _, [] => return agg
  | agg, i, x :: xs => do insertMembers (← emitInsert agg x i) (i + 1) xs

/-- Makes a struct of the values of its members. -/
def makeStruct (d : StructDef) (r : Reference) (members : List Operand) : Build Operand := do
  let i ← structOwnIndex d
  if !r.isHeap then insertMembers (.const (.undef (innerType (← getProgram) i))) 0 members
  else
    let layout := wrapperType (← getProgram) i
    let object ← allocObject layout (.const (sizeOf layout))
    storeMembers object r 0 members
    return object

/-- Moves members into locals, from a position on. -/
def openMembers (x : Operand) (r : Reference) :
    Nat → List StructMember → List (Option Local) → Build Unit
  | i, m :: ms, l :: ls => do
      let field ← readMember x r i m
      openLocal (← require l) field
      openMembers x r (i + 1) ms ls
  | _, _, _ => return

/-! ## Arrays -/

/-- An element cannot be moved out by reading it, so an owned one is lent. -/
def lentElement (r : Reference) : Reference :=
  if r.ownership = .own then r.withOwnership .borrow else r

/-- Reads an element of an array and acquires it. -/
def loadElement (array : Operand) (r : Reference) (index : Operand) : Build Held := do
  match r.referend.elem? with
  | none => violation (.notAnArray r.text)
  | some elem =>
      checkBounds index (← arrayLength array r)
      let address ← elementPtr array r index
      let elem ← require elem
      let x ← emitLoad (← lowerReference elem) address
      let h : Held := ⟨x, some (lentElement elem)⟩
      acquire h
      return h

/-- Stores values into the elements of a new array, from a position on. -/
def storeElements (array : Operand) (r : Reference) : Nat → List Result → Build Unit
  | _, [] => return
  | i, x :: xs => do
      let h ← use x
      emitStore h.value (← elementPtr array r (.i64 i))
      storeElements array r (i + 1) xs

/-- Makes an array by calling a generator with every index. -/
def tabulate (size : Operand) (generator : Held) (r : Reference) : Build Operand := do
  let layout ← arrayLayout r.referend
  let elem ← lowerType (r.referend.elem?.getD none)
  let contents ← emitBin .mul size (.const (sizeOf elem))
  let bytes ← emitBin .add (.const (sizeOf layout)) contents
  let array ← allocObject layout bytes
  let length ← emitGep layout array [.i32 0, .i32 1]
  emitStore size length
  buildLoop size fun index => do
    -- every call consumes a reference to the generator
    acquire generator
    let item ← callFunctor generator index
    emitStore item (← elementPtr array r index)
  return array

/-- Hands every element of an array to a consumer, then ends the array. -/
def consume (array : Operand) (r : Reference) (consumer : Held) : Build Unit := do
  forEachElement array r fun address => do
    acquire consumer
    let elem := r.referend.elem?.getD none
    let item ← emitLoad (← lowerType elem) address
    let result ← callFunctor consumer item
    let (_, _, m) ← functorMethod consumer
    discard ⟨result, m.result⟩
  destroyStorage array r

/-! ## Control -/

/-- The signature a call names. -/
def signatureOf (c : Option Callee) : Build Prototype := do
  require ((← getProgram).prototype? (← require c))

/-- The function of the module that a signature stands for. -/
def functionFor (p : Prototype) : Build Operand := do
  match Program.byId (← get).funcs p.id with
  | some (some i) => funcOperand i
  | _ => violation (.unresolvedFunction p.name)

/-- Joins the branches of a conditional whose control comes to an end: each with
its last block and its value. -/
def joinBranches (type : Option Reference) (branches : List (Nat × Result)) : Build Result := do
  if branches.isEmpty then return none
  let after ← addBlock "endif"
  for (b, _) in branches do terminateBlock b (.br (.block after))
  setBlock after
  let r ← require type
  if r.referend = .void then return some .void
  let incoming := branches.filterMap fun (b, result) => result.map fun h => (h.value, b)
  if incoming.length ≠ branches.length then violation (.branchWithoutValue r.text)
  match incoming with
  | [(x, _)] => return some ⟨x, type⟩
  | [] => crash
  | (x, b) :: rest =>
      let phi ← emit x.ty
        (.phi ((x, .block b) :: rest.map fun (y, c) => (y, .block c)))
      return some ⟨phi, type⟩

/-- Comes to an expression: control must get there. -/
def arriving (e : Expr) (x : Build Result) : Build Result := do
  if ← terminated then violation (.unreachable e.kind)
  if (← read).options.flares then flare e.kind
  x

/-- The branch that a lowering ends, unless control does not come to its end. -/
def liveBranch (result : Result) : Build (List (Nat × Result)) := do
  if ← terminated then return [] else return [(← currentBlock, result)]

/-- The arguments of a builtin, under the types that its signature states. -/
def builtinArgs : List Result → List (Option Reference) → Build (List Held)
  | x :: xs, t :: ts => do
      let h ← use x
      return ⟨h.value, t⟩ :: (← builtinArgs xs ts)
  | _, _ => return []

/-- Calls an extern: a builtin in place, any other through its declaration. -/
def callNative (p : Prototype) (results : List Result) : Build Held := do
  match Builtin.ofName? p.name with
  | some b =>
      if results.length ≠ b.arity ∨ p.params.length ≠ b.arity then
        violation (.builtinArity p.name b.arity results.length)
      b.lower (← builtinArgs results p.params)
  | none =>
      let f ← functionFor p
      return ⟨← emitCall f (← useAll results), p.result⟩

mutual

/-- Lowers an expression that control has come to. -/
def lowerExpr : Expr → Build Result
  | .missing => violation .unrecognizedExpr
  | .constantI64 v => return some (.int (.i64 v))
  | .constantBool v => return some (.bool (.const (.bool v)))
  | .constantStr v => do return some (← lowerLiteral v)
  | .argument type index => do
      let f ← currentFunc
      match Program.byId f.params.toArray index with
      | some (_, t) => return some ⟨.param index.toNat t, type⟩
      | none => violation (.argumentOutOfRange index (Ir.knownName f.name))
  | .discard source type => do
      let h ← use (← arriving source (lowerExpr source))
      discard ⟨h.value, type⟩
      return some .void
  | .ret source _ => do
      let h ← use (← arriving source (lowerExpr source))
      terminate (.ret (some h.value))
      return none
  | .stackify source slot => do
      let h ← use (← arriving source (lowerExpr source))
      openLocal (← require slot) h.value
      return none
  | .unstackify slot => do
      let l ← require slot
      let s ← slotOf l
      let x ← emitLoad s.elem s.address
      closeLocal l
      return some ⟨x, l.type⟩
  | .localLoad slot target => do
      let l ← require slot
      let s ← slotOf l
      let x ← emitLoad s.elem s.address
      let r ← require l.type
      let h : Held := ⟨x, some (r.withOwnership target)⟩
      acquire h
      return some h
  | .localStore slot source => do
      let l ← require slot
      let s ← slotOf l
      let previous ← emitLoad s.elem s.address
      let h ← use (← arriving source (lowerExpr source))
      emitStore h.value s.address
      return some ⟨previous, l.type⟩
  | .call function args => do
      let xs ← useAll (← lowerExprs args)
      let p ← signatureOf function
      let f ← functionFor p
      return some ⟨← emitCall f xs, p.result⟩
  | .externCall function args => do
      let results ← lowerExprs args
      return some (← callNative (← signatureOf function) results)
  | .interfaceCall args virtualParam interface method signature => do
      let s ← require interface
      let i ← interfaceIndex s
      if virtualParam < 0 ∨ (args.length : Int) ≤ virtualParam then
        violation (.virtualParamOutOfRange virtualParam s.name)
      let xs ← useAll (← lowerExprs args)
      let ref ← require xs[virtualParam.toNat]?
      let m ← loadMethod i ref method
      let object ← emitExtract ref 0
      let x ← emitCall m (xs.set virtualParam.toNat object)
      return some ⟨x, (← signatureOf signature).result⟩
  | .newStruct sources type => do
      let r ← require type
      let d ← structDef r
      if sources.length ≠ d.members.length then
        violation (.builtFrom d.name d.members.length sources.length)
      let members ← useAll (← lowerExprs sources)
      return some ⟨← makeStruct d r members, type⟩
  | .block exprs => do
      if exprs.isEmpty then violation .emptyBlock
      lowerSequence none exprs
  | .ite cond thenBranch elseBranch type => do
      let c ← use (← arriving cond (lowerExpr cond))
      let thenBlock ← addBlock "then"
      let elseBlock ← addBlock "else"
      terminate (.condBr c.value (.block thenBlock) (.block elseBlock))
      setBlock thenBlock
      let t ← liveBranch (← arriving thenBranch (lowerExpr thenBranch))
      setBlock elseBlock
      let e ← liveBranch (← arriving elseBranch (lowerExpr elseBranch))
      joinBranches type (t ++ e)
  | .loop cond body => do
      let head ← addBlock "whilehead"
      let inside ← addBlock "whilebody"
      let after ← addBlock "endwhile"
      terminate (.br (.block head))
      setBlock head
      let c ← use (← arriving cond (lowerExpr cond))
      if ← terminated then violation .divergentCondition
      terminate (.condBr c.value (.block inside) (.block after))
      setBlock inside
      let _ ← arriving body (lowerExpr body)
      if !(← terminated) then terminate (.br (.block head))
      setBlock after
      return some .void
  | .destroy source type slots => do
      let r ← require type
      let d ← structDef r
      if slots.length ≠ d.members.length then
        violation (.destroyedInto d.name d.members.length slots.length)
      let h ← use (← arriving source (lowerExpr source))
      openMembers h.value r 0 d.members slots
      if r.isHeap then destroyStorage h.value r
      return none
  | .memberLoad source type index _ expected => do
      let r ← require type
      let m ← memberOf r index
      let h ← use (← arriving source (lowerExpr source))
      releasing ⟨h.value, type⟩ do
        let field ← readMember h.value r index.toNat m
        let loaded : Held := ⟨field, expected⟩
        acquire loaded
        return some loaded
  | .memberStore source type index member value => do
      let r ← require type
      let m ← memberOf r index
      if !r.isHeap then violation (.storeIntoInline member)
      if !(← isMutableView r) then violation (.storeThroughImmutable member)
      let h ← use (← arriving source (lowerExpr source))
      releasing ⟨h.value, type⟩ do
        let v ← use (← arriving value (lowerExpr value))
        let address ← memberPtr h.value r index
        let previous ← emitLoad (← lowerType m.type) address
        emitStore v.value address
        return some ⟨previous, m.type⟩
  | .upcast source type struct interface => do
      let r ← require type
      if !r.isHeap then
        violation (.upcastOfInline (← require struct).name (← require interface).name)
      let h ← use (← arriving source (lowerExpr source))
      let s ← require struct
      let sid ← structIndex s
      let i ← require interface
      let iid ← interfaceIndex i
      match (← getProgram).edgeIndex? sid iid with
      | none => violation (.notImplemented s.name i.name)
      | some edge =>
          let object ← emitBitcast h.value .i8Ptr
          let x ← makeInterfaceRef iid object (← tableOperand edge)
          return some ⟨x, some ⟨r.ownership, .yonder, .interface i⟩⟩
  | .knownArrayLoad array type index => do
      let a ← use (← arriving array (lowerExpr array))
      releasing ⟨a.value, type⟩ do
        let i ← use (← arriving index (lowerExpr index))
        return some (← loadElement a.value (← require type) i.value)
  | .unknownArrayLoad array type index => do
      let a ← use (← arriving array (lowerExpr array))
      releasing ⟨a.value, type⟩ do
        let i ← use (← arriving index (lowerExpr index))
        return some (← loadElement a.value (← require type) i.value)
  | .arrayLength array type => do
      let a ← use (← arriving array (lowerExpr array))
      releasing ⟨a.value, type⟩ do
        return some (.int (← arrayLength a.value (← require type)))
  | .newArray sources type => do
      let r ← require type
      match r.referend with
      | .array (some n) .. | .hollowArray (some n) =>
          if n ≠ sources.length then violation (.arrayBuiltFrom n sources.length)
          let items ← lowerExprs sources
          let layout ← arrayLayout r.referend
          let array ← allocObject layout (.const (sizeOf layout))
          storeElements array r 0 items
          return some ⟨array, type⟩
      | _ => violation (.valuesNeedKnownSize r.text)
  | .tabulate size generator generatorType type => do
      let r ← require type
      match r.referend with
      | .array none .. | .hollowArray none =>
          let n ← use (← arriving size (lowerExpr size))
          let g ← use (← arriving generator (lowerExpr generator))
          let g : Held := ⟨g.value, generatorType⟩
          releasing g do
            return some ⟨← tabulate n.value g r, type⟩
      | _ => violation (.tabulationNeedsUnknownSize r.text)
  | .consumeKnownArray array type consumer consumerType => do
      let r ← require type
      if r.referend.elem?.isNone then violation (.notAnArray r.text)
      let a ← use (← arriving array (lowerExpr array))
      let c ← use (← arriving consumer (lowerExpr consumer))
      let c : Held := ⟨c.value, consumerType⟩
      releasing c do
        consume a.value r c
        return none
  | .consumeUnknownArray array type consumer consumerType => do
      let r ← require type
      if r.referend.elem?.isNone then violation (.notAnArray r.text)
      let a ← use (← arriving array (lowerExpr array))
      let c ← use (← arriving consumer (lowerExpr consumer))
      let c : Held := ⟨c.value, consumerType⟩
      releasing c do
        consume a.value r c
        return none

/-- Lowers expressions in order, one result each. -/
def lowerExprs : List Expr → Build (List Result)
  | [] => return []
  | e :: es => do
      let r ← arriving e (lowerExpr e)
      return r :: (← lowerExprs es)

/-- Lowers expressions in order and gives the last result. -/
def lowerSequence (last : Result) : List Expr → Build Result
  | [] => return last
  | e :: es => do
      let r ← arriving e (lowerExpr e)
      lowerSequence r es

end

/-- Lowers an expression into the current block. -/
def lower (e : Expr) : Build Result := arriving e (lowerExpr e)

end Tenure.Lowering

import Tenure.Lowering.Layout

/-!
# Counted loops and array elements

Array contents are the last field of an array's layout.  Elements are visited in
ascending order by a loop whose index is a phi.
-/

namespace Tenure.Lowering

open Ir (Operand)

/-- A value together with the type it was produced as, which says what its holder
owes. -/
structure Held where
  value : Operand
  type : Option Reference

/-- What lowering an expression gives: a value, or nothing that may be used. -/
abbrev Result := Option Held

def Held.int (x : Operand) : Held := ⟨x, some .int⟩
def Held.bool (x : Operand) : Held := ⟨x, some .bool⟩
def Held.str (x : Operand) : Held := ⟨x, some .str⟩
def Held.void : Held := ⟨voidValue, some .void⟩

/-- The value of a result. -/
def use : Result → Build Held
  | some h => return h
  | none => violation .divergentUse

/-- The values of a list of results. -/
def useAll (rs : List Result) : Build (List Operand) :=
  rs.mapM fun r => return (← use r).value

/-- Emits a loop over the indices from zero up to a length. -/
def buildLoop (length : Operand) (body : Operand → Build Unit) : Build Unit := do
  let before ← currentBlock
  let head ← addBlock "loophead"
  let inside ← addBlock "loopbody"
  let after ← addBlock "loopexit"
  terminateBlock before (.br (.block head))
  let reg := (← currentFunc).nextReg
  let index ← emitTo head "" .i64 (.phi [(.i64 0, .block before)])
  let more ← emitCompareFrom head .slt index length
  terminateBlock head (.condBr more (.block inside) (.block after))
  setBlock inside
  body index
  if ← terminated then violation .divergentLoopBody
  let next ← emitBin .add index (.i64 1)
  let last ← currentBlock
  modifyFunc (·.addIncoming head reg next (.block last))
  terminate (.br (.block head))
  setBlock after

/-- The length of an array: stated by its type, or read from the object. -/
def arrayLength (array : Operand) (r : Reference) : Build Operand := do
  let stored : Build Operand := do
    let layout ← arrayLayout r.referend
    let address ← emitGep layout array [.i32 0, .i32 1]
    emitLoad .i64 address
  match r.referend with
  | .array (some n) .. | .hollowArray (some n) => return .i64 n
  | .array none .. | .hollowArray none => stored
  | _ => violation (.notAnArray r.text)

/-- The address of an element, without a check of the index. -/
def elementPtr (array : Operand) (r : Reference) (index : Operand) : Build Operand := do
  if !r.isHeap then violation (.inlineArray r.text)
  let layout ← arrayLayout r.referend
  let fields ← require (layout.fields? (← typeDefs))
  emitGep layout array [.i32 0, .i32 (fields.length - 1 : Int), index]

/-- Emits a loop over the addresses of the elements of an array. -/
def forEachElement (array : Operand) (r : Reference) (body : Operand → Build Unit) :
    Build Unit := do
  let length ← arrayLength array r
  buildLoop length fun index => do
    body (← elementPtr array r index)

/-- Lets control go on only if an index is in range.  Lengths are not negative, so
an unsigned comparison refuses negative indices too. -/
def checkBounds (index length : Operand) : Build Unit := do
  match (← read).options.bounds with
  | .unchecked => return
  | .trap =>
      let inRange ← emitCompare .ult index length
      let inside ← addBlock "inbounds"
      let outside ← addBlock "outofbounds"
      terminate (.condBr inRange (.block inside) (.block outside))
      let _ ← emitCallFrom outside RuntimeFunc.trap.operand []
      terminateBlock outside .unreachable
      setBlock inside

end Tenure.Lowering

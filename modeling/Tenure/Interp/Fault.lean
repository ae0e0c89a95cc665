import Tenure.Interp.Value

/-!
# Faults

A run ends early in one of two ways: with an error that the machine detects and
can name, or in a crash, when a value has a shape that its use does not allow.
-/

namespace Tenure.Interp

/-- What the machine detects.  Places and operands are given as they are
written. -/
inductive ExecError where
  | trap
  | noFunction (name : String)
  | wrongArity (function : String) (given takes : Nat)
  | tooDeep (function : String)
  | reachedUnreachable (function : String)
  | noTerminator (block function : String)
  | unsupportedTerminator (kind function : String)
  | notABlock (operand : String)
  | noIncoming (block : String)
  | unsupportedInstruction (kind function : String)
  | notAFunction (pointer : String)
  | divisionByZero
  | functionAddress (pointer : String)
  | undefinedValue (operand function : String)
  | notAPointer (operand : String)
  | unsupportedConstant (kind : String)
  | noZero (type : String)
  | noLayout (type : String)
  | noIndexing (type : String)
  | noField (type : String) (index : Int)
  | unorderedPointers (comparison : String)
  | nullAccess (pointer : String)
  | useAfterFree (pointer : String)
  | deadAccess (region : Region) (pointer : String)
  | outOfBounds (bytes : Int) (pointer : String) (size : Int)
  | uninitialized (pointer : String)
  | misaligned (type pointer : String)
  | freeOfNonHeap (pointer : String)
  | doubleFree (pointer : String)
  | freeOfInterior (pointer : String)
  | negativeAllocation (size : Int)
  | zeroByte (index length : Int)
  | undefinedFunction (name : String)
  /-- an error raised by a registered function or by the writer -/
  | foreign (message : String)
deriving Repr, DecidableEq

def ExecError.message : ExecError → String
  | trap => "trap"
  | noFunction n => s!"no function named `{n}`"
  | wrongArity f given takes => s!"`{f}` called with {given} arguments but takes {takes}"
  | tooDeep f => s!"call depth exceeded in `{f}`"
  | reachedUnreachable f => s!"reached unreachable in `{f}`"
  | noTerminator b f => s!"block {b} of `{f}` has no terminator"
  | unsupportedTerminator k f => s!"unsupported terminator {k} in `{f}`"
  | notABlock x => s!"branch target {x} is not a block"
  | noIncoming b => s!"phi in {b} has no incoming value for its predecessor"
  | unsupportedInstruction k f => s!"unsupported instruction {k} in `{f}`"
  | notAFunction p => s!"call through non-function pointer {p}"
  | divisionByZero => "division by zero"
  | functionAddress p => s!"cannot take the address of function {p}"
  | undefinedValue x f => s!"use of undefined value {x} in `{f}`"
  | notAPointer x => s!"{x} is not a pointer"
  | unsupportedConstant k => s!"unsupported constant {k}"
  | noZero t => s!"no zero value for type {t}"
  | noLayout t => s!"no layout for type {t}"
  | noIndexing t => s!"cannot index into {t}"
  | noField t i => s!"struct {t} has no field {i}"
  | unorderedPointers c => s!"unsupported pointer comparison {c}"
  | nullAccess p => s!"access through null pointer {p}"
  | useAfterFree p => s!"use after free of {p}"
  | deadAccess r p => s!"access to dead {r.text} object {p}"
  | outOfBounds n p size => s!"out of bounds access of {n} bytes at {p} (object size {size})"
  | uninitialized p => s!"read of uninitialized memory at {p}"
  | misaligned t p => s!"misaligned read of {t} at {p}"
  | freeOfNonHeap p => s!"free of non-heap pointer {p}"
  | doubleFree p => s!"double free of {p}"
  | freeOfInterior p => s!"free of interior pointer {p}"
  | negativeAllocation n => s!"malloc of negative size {n}"
  | zeroByte i n => s!"assertion failed: zero byte at {i} in string of length {n}"
  | undefinedFunction n => s!"call to undefined function `{n}`"
  | foreign m => m

/-- How a run ends early. -/
inductive Fault where
  | error (e : ExecError)
  | crash
deriving Repr, DecidableEq

end Tenure.Interp

import Tenure.Program.Reference

/-!
# Violations

Lowering takes a program on trust.  A program that breaks an invariant is met
with a violation, which names it; one that is not even put together right makes
lowering crash.
-/

namespace Tenure.Lowering

/-- The invariants that lowering checks.  Types are given as they are written. -/
inductive Violation where
  | unresolvedProgram
  | unreachable (kind : String)
  | unrecognizedExpr
  | divergentUse
  | argumentOutOfRange (index : Int) (function : String)
  | openedTwice (name : String) (id : Int)
  | notOpen (name : String) (id : Int)
  | bodyWithoutValue (function : String)
  | emptyBlock
  | branchWithoutValue (type : String)
  | divergentCondition
  | divergentLoopBody
  | builtinArity (name : String) (takes given : Nat)
  | unresolvedFunction (name : String)
  | unresolvedStruct (name : String)
  | unresolvedInterface (name : String)
  | inlineArray (type : String)
  | missingReferend
  | notAnArray (type : String)
  | notAStruct (type : String)
  | noMember (struct : String) (index : Int)
  | noMethod (interface : String) (index : Int)
  | noReceiver (method interface : String)
  | builtFrom (struct : String) (members values : Nat)
  | destroyedInto (struct : String) (members locals : Nat)
  | storeIntoInline (member : String)
  | storeThroughImmutable (member : String)
  | unhandledOwnership (ownership : String)
  | countOfInline (type : String)
  | freeOfInterface (type : String)
  | freeOfInline (type : String)
  | cannotDestroy (type : String)
  | cannotDrop (type : String)
  | cannotImplement (function method : String)
  | upcastOfInline (struct interface : String)
  | notImplemented (struct interface : String)
  | virtualParamOutOfRange (index : Int) (interface : String)
  | functorNotInterface (type : String)
  | notAFunctor (interface : String)
  | valuesNeedKnownSize (type : String)
  | arrayBuiltFrom (size : Int) (values : Nat)
  | tabulationNeedsUnknownSize (type : String)
  | zeroByteInLiteral
deriving Repr, DecidableEq

def Violation.message : Violation → String
  | unresolvedProgram => "generator created for an unresolved program"
  | unreachable k => s!"unreachable {k} after divergent expression"
  | unrecognizedExpr => "unrecognized expression kind: <nil>"
  | divergentUse => "value of a divergent expression was used"
  | argumentOutOfRange i f => s!"argument {i} is out of range for `{f}`"
  | openedTwice n id => s!"local `{n}` ({id}) opened twice"
  | notOpen n id => s!"local `{n}` ({id}) is not open"
  | bodyWithoutValue f => s!"body of `{f}` ends without a value"
  | emptyBlock => "empty block"
  | branchWithoutValue t => s!"branch of conditional of type {t} produced no value"
  | divergentCondition => "while condition diverged"
  | divergentLoopBody => "loop body diverged"
  | builtinArity n takes given => s!"builtin `{n}` takes {takes} arguments not {given}"
  | unresolvedFunction n => s!"call to unresolved function `{n}`"
  | unresolvedStruct n => s!"unresolved struct `{n}`"
  | unresolvedInterface n => s!"unresolved interface `{n}`"
  | inlineArray t => s!"inline array representation is not supported: {t}"
  | missingReferend => "unhandled referend: <nil>"
  | notAnArray t => s!"{t} is not an array"
  | notAStruct t => s!"{t} is not a struct"
  | noMember s i => s!"`{s}` has no member {i}"
  | noMethod n i => s!"`{n}` has no method {i}"
  | noReceiver m i => s!"method `{m}` of `{i}` has no receiver"
  | builtFrom s m v => s!"`{s}` has {m} members but was built from {v} values"
  | destroyedInto s m l => s!"`{s}` has {m} members but was destroyed into {l} locals"
  | storeIntoInline m => s!"store into member `{m}` of inline struct"
  | storeThroughImmutable m => s!"store into member `{m}` through an immutable view"
  | unhandledOwnership o => s!"unhandled ownership: {o}"
  | countOfInline t => s!"adjusting the count of inline value of type {t}"
  | freeOfInterface t => s!"cannot free the concrete storage of interface {t}"
  | freeOfInline t => s!"cannot free inline value of type {t}"
  | cannotDestroy t => s!"cannot destroy a value of type {t}"
  | cannotDrop t => s!"cannot drop a value of type {t}"
  | cannotImplement f m => s!"`{f}` cannot implement `{m}`"
  | upcastOfInline s i => s!"upcast of inline struct `{s}` to interface `{i}`"
  | notImplemented s i => s!"`{s}` does not implement `{i}`"
  | virtualParamOutOfRange i n => s!"virtual parameter {i} out of range for call through `{n}`"
  | functorNotInterface t => s!"functor must be an interface reference: {t}"
  | notAFunctor n => s!"`{n}` cannot be called as a functor"
  | valuesNeedKnownSize t => s!"array built from values must have a known size: {t}"
  | arrayBuiltFrom n v => s!"array of size {n} built from {v} values"
  | tabulationNeedsUnknownSize t => s!"constructed array must have an unknown size: {t}"
  | zeroByteInLiteral => "string literal contains a zero byte"

/-- How lowering fails. -/
inductive Fault where
  | violation (v : Violation)
  | crash
deriving Repr, DecidableEq

end Tenure.Lowering

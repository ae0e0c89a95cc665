import Tenure.Program.Reference

/-!
# Expressions

The bodies of functions: trees of twenty-eight kinds of expressions.  A part
that a hand-assembled body leaves out is `missing` or `none`.
-/

namespace Tenure

/-- The signature of a function, an extern or an interface method.  The index is
`-1` until resolution sets it; it stays so for interface methods. -/
structure Prototype where
  name : String
  params : List (Option Reference)
  result : Option Reference
  id : Int := -1
deriving Repr, DecidableEq

/-- What a call names: a function or an extern of the program, whose index is
read from the program, or a signature written on the spot. -/
inductive Callee where
  | function (index : Nat)
  | native (index : Nat)
  | inPlace (proto : Prototype)
deriving Repr, DecidableEq

/-- A local variable of a function. -/
structure Local where
  id : Int
  name : String
  type : Option Reference
deriving Repr, DecidableEq

inductive Expr where
  /-- the place of an expression that was left out -/
  | missing
  | constantI64 (value : Int)
  | constantBool (value : Bool)
  | constantStr (value : ByteArray)
  /-- a parameter of the enclosing function -/
  | argument (type : Option Reference) (index : Int)
  /-- releases a value -/
  | discard (source : Expr) (sourceType : Option Reference)
  | ret (source : Expr) (sourceType : Option Reference)
  /-- opens a local by moving a value into its slot -/
  | stackify (source : Expr) (slot : Option Local)
  /-- closes a local and yields what it held -/
  | unstackify (slot : Option Local)
  | localLoad (slot : Option Local) (target : Ownership)
  /-- swaps a value into a local and yields the previous one -/
  | localStore (slot : Option Local) (source : Expr)
  | call (function : Option Callee) (args : List Expr)
  | externCall (function : Option Callee) (args : List Expr)
  /-- calls a method through the interface reference at the virtual position -/
  | interfaceCall (args : List Expr) (virtualParam : Int) (interface : Option Symbol)
      (method : Int) (signature : Option Callee)
  | newStruct (sources : List Expr) (type : Option Reference)
  | block (exprs : List Expr)
  | ite (cond thenBranch elseBranch : Expr) (type : Option Reference)
  | loop (cond body : Expr)
  /-- moves every member of a struct into a local and frees the struct -/
  | destroy (source : Expr) (type : Option Reference) (slots : List (Option Local))
  | memberLoad (source : Expr) (type : Option Reference) (index : Int) (member : String)
      (expected : Option Reference)
  /-- swaps a value into a member and yields the previous one -/
  | memberStore (source : Expr) (type : Option Reference) (index : Int) (member : String)
      (value : Expr)
  | upcast (source : Expr) (type : Option Reference) (struct interface : Option Symbol)
  | knownArrayLoad (array : Expr) (type : Option Reference) (index : Expr)
  | unknownArrayLoad (array : Expr) (type : Option Reference) (index : Expr)
  | arrayLength (array : Expr) (type : Option Reference)
  | newArray (sources : List Expr) (type : Option Reference)
  /-- builds an array by calling a generator with every index -/
  | tabulate (size generator : Expr) (generatorType type : Option Reference)
  /-- hands every element of an array to a consumer and frees the array -/
  | consumeKnownArray (array : Expr) (type : Option Reference) (consumer : Expr)
      (consumerType : Option Reference)
  | consumeUnknownArray (array : Expr) (type : Option Reference) (consumer : Expr)
      (consumerType : Option Reference)
deriving Inhabited

/-- The name of an expression's kind. -/
def Expr.kind : Expr → String
  | missing => "<nil>"
  | constantI64 .. => "ConstantI64"
  | constantBool .. => "ConstantBool"
  | constantStr .. => "ConstantStr"
  | argument .. => "Argument"
  | discard .. => "Discard"
  | ret .. => "Return"
  | stackify .. => "Stackify"
  | unstackify .. => "Unstackify"
  | localLoad .. => "LocalLoad"
  | localStore .. => "LocalStore"
  | call .. => "Call"
  | externCall .. => "ExternCall"
  | interfaceCall .. => "InterfaceCall"
  | newStruct .. => "NewStruct"
  | block .. => "Block"
  | ite .. => "If"
  | loop .. => "While"
  | destroy .. => "Destroy"
  | memberLoad .. => "MemberLoad"
  | memberStore .. => "MemberStore"
  | upcast .. => "StructToInterfaceUpcast"
  | knownArrayLoad .. => "KnownSizeArrayLoad"
  | unknownArrayLoad .. => "UnknownSizeArrayLoad"
  | arrayLength .. => "ArrayLength"
  | newArray .. => "NewArrayFromValues"
  | tabulate .. => "ConstructUnknownSizeArray"
  | consumeKnownArray .. => "DestroyKnownSizeArrayIntoFunction"
  | consumeUnknownArray .. => "DestroyUnknownSizeArray"

end Tenure

import Tenure.Yaml.Decode

/-!
# Program documents

A program as it is written down: records of names and texts, with types still in
their notation.  Everything may be left out, and any entry of a list of records
may be null.
-/

namespace Tenure

structure MemberDoc where
  name : String := ""
  type : String := ""

/-- The functions that implement the methods of an interface, in its order. -/
structure EdgeDoc where
  interface : String := ""
  methods : List String := []

structure StructDoc where
  name : String := ""
  immutable : Bool := false
  members : List (Option MemberDoc) := []
  edges : List (Option EdgeDoc) := []

structure ProtoDoc where
  name : String := ""
  params : List String := []
  result : String := ""

structure InterfaceDoc where
  name : String := ""
  methods : List (Option ProtoDoc) := []

/-- A local variable; only its first mention in a function needs a type. -/
structure LocalDoc where
  id : Int := 0
  name : String := ""
  type : String := ""

/-- An expression.  The kind says which of the other fields mean something. -/
structure ExprDoc where
  kind : String := ""
  /-- the literal of a constant -/
  value : Option Yaml.Node := none
  /-- the type of what the expression is mainly about -/
  type : String := ""
  index : Int := 0
  slot : Option LocalDoc := none
  slots : List (Option LocalDoc) := []
  ownership : String := ""
  function : String := ""
  interface : String := ""
  method : Int := 0
  member : String := ""
  expected : String := ""
  /-- the type of the generator or consumer of an array -/
  functorType : String := ""
  source : Option ExprDoc := none
  sources : List (Option ExprDoc) := []
  args : List (Option ExprDoc) := []
  exprs : List (Option ExprDoc) := []
  struct : Option ExprDoc := none
  array : Option ExprDoc := none
  place : Option ExprDoc := none
  size : Option ExprDoc := none
  functor : Option ExprDoc := none
  cond : Option ExprDoc := none
  thenBranch : Option ExprDoc := none
  elseBranch : Option ExprDoc := none
  body : Option ExprDoc := none

structure FunctionDoc where
  proto : ProtoDoc := {}
  body : Option ExprDoc := none

structure ProgramDoc where
  structs : List (Option StructDoc) := []
  interfaces : List (Option InterfaceDoc) := []
  natives : List (Option ProtoDoc) := []
  functions : List (Option FunctionDoc) := []

/-- The kinds of records in a program document. -/
inductive DocKind where
  | program | struct | member | edge | interface | proto | function | expr | slot

namespace DocKind

def Doc : DocKind → Type
  | program => ProgramDoc
  | struct => StructDoc
  | member => MemberDoc
  | edge => EdgeDoc
  | interface => InterfaceDoc
  | proto => ProtoDoc
  | function => FunctionDoc
  | expr => ExprDoc
  | slot => LocalDoc

def typeName : DocKind → String
  | program => "mirload.programDoc"
  | struct => "mirload.structDoc"
  | member => "mirload.memberDoc"
  | edge => "mirload.edgeDoc"
  | interface => "mirload.interfaceDoc"
  | proto => "mirload.protoDoc"
  | function => "mirload.functionDoc"
  | expr => "mirload.exprDoc"
  | slot => "mirload.local"

def blank : (k : DocKind) → k.Doc
  | program => ({} : ProgramDoc)
  | struct => ({} : StructDoc)
  | member => ({} : MemberDoc)
  | edge => ({} : EdgeDoc)
  | interface => ({} : InterfaceDoc)
  | proto => ({} : ProtoDoc)
  | function => ({} : FunctionDoc)
  | expr => ({} : ExprDoc)
  | slot => ({} : LocalDoc)

abbrev FieldOf (k : DocKind) := Yaml.Field DocKind Doc k.Doc

def programFields : List (FieldOf program) :=
  [⟨"structs", .list (.record struct), fun v (d : ProgramDoc) => { d with structs := v }⟩,
   ⟨"interfaces", .list (.record interface), fun v (d : ProgramDoc) => { d with interfaces := v }⟩,
   ⟨"externs", .list (.record proto), fun v (d : ProgramDoc) => { d with natives := v }⟩,
   ⟨"functions", .list (.record function), fun v (d : ProgramDoc) => { d with functions := v }⟩]

def structFields : List (FieldOf struct) :=
  [⟨"name", .text, fun v (d : StructDoc) => { d with name := v }⟩,
   ⟨"immutable", .bool, fun v (d : StructDoc) => { d with immutable := v }⟩,
   ⟨"members", .list (.record member), fun v (d : StructDoc) => { d with members := v }⟩,
   ⟨"implements", .list (.record edge), fun v (d : StructDoc) => { d with edges := v }⟩]

def memberFields : List (FieldOf member) :=
  [⟨"name", .text, fun v (d : MemberDoc) => { d with name := v }⟩,
   ⟨"type", .text, fun v (d : MemberDoc) => { d with type := v }⟩]

def edgeFields : List (FieldOf edge) :=
  [⟨"interface", .text, fun v (d : EdgeDoc) => { d with interface := v }⟩,
   ⟨"methods", .list .text, fun v (d : EdgeDoc) => { d with methods := v }⟩]

def interfaceFields : List (FieldOf interface) :=
  [⟨"name", .text, fun v (d : InterfaceDoc) => { d with name := v }⟩,
   ⟨"methods", .list (.record proto), fun v (d : InterfaceDoc) => { d with methods := v }⟩]

def protoFields : List (FieldOf proto) :=
  [⟨"name", .text, fun v (d : ProtoDoc) => { d with name := v }⟩,
   ⟨"params", .list .text, fun v (d : ProtoDoc) => { d with params := v }⟩,
   ⟨"return", .text, fun v (d : ProtoDoc) => { d with result := v }⟩]

/-- A function has the fields of its prototype and a body. -/
def functionFields : List (FieldOf function) :=
  protoFields.map (fun f =>
    ⟨f.key, f.want, fun v (d : FunctionDoc) => { d with proto := f.put v d.proto }⟩) ++
  [⟨"body", .record expr, fun v (d : FunctionDoc) => { d with body := v }⟩]

def exprFields : List (FieldOf expr) :=
  [⟨"kind", .text, fun v (d : ExprDoc) => { d with kind := v }⟩,
   ⟨"value", .node, fun v (d : ExprDoc) => { d with value := some v }⟩,
   ⟨"type", .text, fun v (d : ExprDoc) => { d with type := v }⟩,
   ⟨"index", .int, fun v (d : ExprDoc) => { d with index := v }⟩,
   ⟨"local", .record slot, fun v (d : ExprDoc) => { d with slot := v }⟩,
   ⟨"locals", .list (.record slot), fun v (d : ExprDoc) => { d with slots := v }⟩,
   ⟨"ownership", .text, fun v (d : ExprDoc) => { d with ownership := v }⟩,
   ⟨"function", .text, fun v (d : ExprDoc) => { d with function := v }⟩,
   ⟨"interface", .text, fun v (d : ExprDoc) => { d with interface := v }⟩,
   ⟨"method", .int, fun v (d : ExprDoc) => { d with method := v }⟩,
   ⟨"member", .text, fun v (d : ExprDoc) => { d with member := v }⟩,
   ⟨"expected", .text, fun v (d : ExprDoc) => { d with expected := v }⟩,
   ⟨"functor-type", .text, fun v (d : ExprDoc) => { d with functorType := v }⟩,
   ⟨"source", .record expr, fun v (d : ExprDoc) => { d with source := v }⟩,
   ⟨"sources", .list (.record expr), fun v (d : ExprDoc) => { d with sources := v }⟩,
   ⟨"args", .list (.record expr), fun v (d : ExprDoc) => { d with args := v }⟩,
   ⟨"exprs", .list (.record expr), fun v (d : ExprDoc) => { d with exprs := v }⟩,
   ⟨"struct", .record expr, fun v (d : ExprDoc) => { d with struct := v }⟩,
   ⟨"array", .record expr, fun v (d : ExprDoc) => { d with array := v }⟩,
   ⟨"at", .record expr, fun v (d : ExprDoc) => { d with place := v }⟩,
   ⟨"size", .record expr, fun v (d : ExprDoc) => { d with size := v }⟩,
   ⟨"functor", .record expr, fun v (d : ExprDoc) => { d with functor := v }⟩,
   ⟨"cond", .record expr, fun v (d : ExprDoc) => { d with cond := v }⟩,
   ⟨"then", .record expr, fun v (d : ExprDoc) => { d with thenBranch := v }⟩,
   ⟨"else", .record expr, fun v (d : ExprDoc) => { d with elseBranch := v }⟩,
   ⟨"body", .record expr, fun v (d : ExprDoc) => { d with body := v }⟩]

def slotFields : List (FieldOf slot) :=
  [⟨"id", .int, fun v (d : LocalDoc) => { d with id := v }⟩,
   ⟨"name", .text, fun v (d : LocalDoc) => { d with name := v }⟩,
   ⟨"type", .text, fun v (d : LocalDoc) => { d with type := v }⟩]

def fields : (k : DocKind) → List (FieldOf k)
  | program => programFields
  | struct => structFields
  | member => memberFields
  | edge => edgeFields
  | interface => interfaceFields
  | proto => protoFields
  | function => functionFields
  | expr => exprFields
  | slot => slotFields

/-- The schema of program documents. -/
def schema : Yaml.Schema DocKind := ⟨Doc, typeName, blank, fields⟩

end DocKind

/-- Reads a document; null is the empty program. -/
def ProgramDoc.ofNode (n : Yaml.Node) : Except Yaml.Error ProgramDoc :=
  (Yaml.Decoding.decode DocKind.schema (.record .program) n).finish.map fun
    | some (some d) => d
    | _ => {}

end Tenure

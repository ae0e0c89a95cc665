import Tenure.Program.Document
import Tenure.Program.Notation
import Tenure.Program.Registry

/-!
# From documents to programs

All names are declared before any type is read, so definitions may mention each
other in any order.  Loading stops at the first fault; the message of a fault is
preceded by the places that lead to it, outermost first.
-/

namespace Tenure

/-- A place on the way to a fault. -/
inductive LoadPlace where
  | interface (name : String)
  | struct (name : String)
  | member (name : String)
  | native (name : String)
  | function (name : String)
  | param (index : Nat) (function : String)
  | result (function : String)
  | expr (kind : String)
  | slot (id : Int)
deriving Repr, DecidableEq

def LoadPlace.text : LoadPlace → String
  | interface n => s!"interface `{n}`"
  | struct n => s!"struct `{n}`"
  | member n => s!"member `{n}`"
  | native n => s!"extern `{n}`"
  | function n => s!"function `{n}`"
  | param i f => s!"parameter {i} of `{f}`"
  | result f => s!"return type of `{f}`"
  | expr k => k
  | slot id => s!"local {id}"

/-- What is wrong with a document. -/
inductive LoadCause where
  /-- the text holds no document at all -/
  | noDocument
  | yaml (e : Yaml.Error)
  | resolution (e : ResolveError)
  | type (e : NotationError)
  | unnamedPrototype
  | implementsUndefined (interface : String)
  | noBody (function : String)
  | missingExpr
  | missingSlot
  | noKind
  | unknownKind
  | unknownOwnership (word : String)
  | undefinedFunction (name : String)
  | undefinedInterface (name : String)
  | noMethod (interface : String) (index : Int)
  | noReceiver (method interface : String)
  | notStruct (type : Reference)
  | noMember (struct member : String)
  /-- an entry of a list of definitions is null -/
  | nullEntry
deriving Repr, DecidableEq

def LoadCause.text : LoadCause → String
  | noDocument => "EOF"
  | yaml e => Text.pack e.message
  | resolution e => e.message
  | type e => e.message
  | unnamedPrototype => "prototype must specify a name"
  | implementsUndefined i => s!"implements undefined interface `{i}`"
  | noBody f => s!"function `{f}` has no body"
  | missingExpr => "missing expression"
  | missingSlot => "missing local"
  | noKind => "expression must specify a kind"
  | unknownKind => "unknown expression kind"
  | unknownOwnership w => s!"unknown ownership `{w}`"
  | undefinedFunction f => s!"call to undefined function `{f}`"
  | undefinedInterface i => s!"undefined interface `{i}`"
  | noMethod i n => s!"interface `{i}` has no method {n}"
  | noReceiver m i => s!"method `{m}` of `{i}` has no receiver"
  | notStruct r => r.text ++ " is not a struct"
  | noMember s m => s!"struct `{s}` has no member `{m}`"
  | nullEntry => "null entry in a list of definitions"

/-- A fault with the places that lead to it, outermost first. -/
structure LoadError where
  places : List LoadPlace := []
  cause : LoadCause
deriving Repr, DecidableEq

def LoadError.message (e : LoadError) : ByteArray :=
  Text.unpack (String.join (e.places.map (·.text ++ ": ")) ++ e.cause.text)

namespace Load

/-- The outcome of a part of loading. -/
abbrev Outcome := Except LoadError

def fail {α : Type} (c : LoadCause) : Outcome α := .error { cause := c }

/-- Adds a place to the way of a fault. -/
def within {α : Type} (p : LoadPlace) (x : Outcome α) : Outcome α :=
  x.mapError fun e => { e with places := p :: e.places }

def readType (names : Declared) (s : String) : Outcome Reference :=
  (Reference.read names s).mapError fun e => { cause := .type e }

/-- A record of a list that must not be null. -/
def present {α : Type} : Option α → Outcome α
  | some a => .ok a
  | none => fail .nullEntry

/-! ## Definitions -/

def readParams (names : Declared) (function : String) :
    Nat → List String → Outcome (List (Option Reference))
  | _, [] => .ok []
  | i, s :: rest => do
      let r ← within (.param i function) (readType names s)
      return some r :: (← readParams names function (i + 1) rest)

/-- A prototype; a missing result type is void. -/
def readProto (names : Declared) (d : ProtoDoc) : Outcome Prototype := do
  if d.name = "" then fail .unnamedPrototype
  let params ← readParams names d.name 0 d.params
  let result ←
    if d.result = "" then pure .void
    else within (.result d.name) (readType names d.result)
  return { name := d.name, params, result := some result }

def readMember (names : Declared) (d : Option MemberDoc) : Outcome StructMember := do
  let d ← present d
  let type ← within (.member d.name) (readType names d.type)
  return { name := d.name, type := some type }

def readEdge (names : Declared) (struct : String) (d : Option EdgeDoc) : Outcome Edge := do
  let d ← present d
  if !names.interfaces.contains d.interface then fail (.implementsUndefined d.interface)
  return {
    struct := some (.interned struct)
    interface := some (.interned d.interface)
    methods := d.methods }

def readStruct (names : Declared) (d : StructDoc) : Outcome StructDef :=
  within (.struct d.name) do
    let members ← d.members.mapM (readMember names)
    let edges ← d.edges.mapM (readEdge names d.name)
    return { name := d.name, immutable := d.immutable, members, edges }

def readInterface (names : Declared) (d : InterfaceDoc) : Outcome InterfaceDef := do
  let methods ← d.methods.mapM fun m => do
    let m ← present m
    within (.interface d.name) (readProto names m)
  return { name := d.name, methods }

def readNative (names : Declared) (d : Option ProtoDoc) : Outcome Prototype := do
  let d ← present d
  within (.native d.name) (readProto names d)

def readFunctionProto (names : Declared) (d : Option FunctionDoc) :
    Outcome (Prototype × Option ExprDoc) := do
  let d ← present d
  let proto ← within (.function d.proto.name) (readProto names d.proto)
  return (proto, d.body)

/-! ## Bodies -/

/-- What the body of a function can see. -/
structure Scope where
  names : Declared
  structs : List StructDef
  interfaces : List InterfaceDef
  natives : List Prototype
  functions : List Prototype

namespace Scope

/-- The members of a struct by its name; definitions of one name add up. -/
def members (s : Scope) (name : String) : List StructMember :=
  (s.structs.filter (·.name == name)).flatMap (·.members)

/-- The methods of an interface by its name; definitions of one name add up. -/
def methods (s : Scope) (name : String) : List Prototype :=
  (s.interfaces.filter (·.name == name)).flatMap (·.methods)

/-- The position of the last prototype of a name. -/
def lastIndex? (ps : List Prototype) (name : String) : Option Nat :=
  (ps.reverse.findIdx? (·.name == name)).map (ps.length - 1 - ·)

/-- What a call by name means: the last function of the name, else the last
extern. -/
def callee? (s : Scope) (name : String) : Option Callee :=
  match lastIndex? s.functions name with
  | some i => some (.function i)
  | none => (lastIndex? s.natives name).map .native

end Scope

/-- Loading a body keeps the locals mentioned so far. -/
abbrev BodyLoading := StateT (List Local) Outcome

def readSlot (s : Scope) (d : Option LocalDoc) : BodyLoading Local := do
  match d with
  | none => fail .missingSlot
  | some d =>
      match (← get).find? (·.id == d.id) with
      | some l => return l
      | none =>
          let type ← within (.slot d.id) (readType s.names d.type)
          let name := if d.name = "" then s!"local{d.id}" else d.name
          let l : Local := { id := d.id, name, type := some type }
          modify (l :: ·)
          return l

/-- A value that was set aside; one that was left out is the default. -/
def readValue {α : Type} (default : α) (read : Yaml.Node → Except Yaml.Error α)
    (v : Option Yaml.Node) : Outcome α :=
  match v with
  | none => .ok default
  | some n => (read n).mapError fun e => { cause := .yaml e }

/-- The struct that a type designates. -/
def structOf (r : Reference) : Outcome Symbol :=
  match r.referend with
  | .struct s => .ok s
  | _ => fail (.notStruct r)

/-- The position of the receiver among the parameters of a method. -/
def receiverIndex? (interface : String) (method : Prototype) : Option Nat :=
  method.params.findIdx? fun
    | some ⟨_, _, .interface i⟩ => i.name == interface
    | _ => false

/-- The method that a virtual call names, with the position of its receiver. -/
def readMethod (s : Scope) (interface : String) (index : Int) : Outcome (Prototype × Nat) :=
  if !s.names.interfaces.contains interface then fail (.undefinedInterface interface)
  else
    match if 0 ≤ index then (s.methods interface)[index.toNat]? else none with
    | none => fail (.noMethod interface index)
    | some m =>
        match receiverIndex? interface m with
        | none => fail (.noReceiver m.name interface)
        | some v => .ok (m, v)

/-- The member that an access names: its position and its type. -/
def readMemberName (s : Scope) (r : Reference) (member : String) :
    Outcome (Nat × Option Reference) := do
  let sym ← structOf r
  let members := s.members sym.name
  match members.findIdx? (·.name == member) with
  | none => fail (.noMember sym.name member)
  | some i => return (i, (members[i]?).bind (·.type))

mutual

/-- Loads an expression that must not be left out. -/
def readExpr (s : Scope) : Option ExprDoc → BodyLoading Expr
  | none => fail .missingExpr
  | some d => fun locals => within (.expr d.kind) (readKind s d locals)

def readExprs (s : Scope) : List (Option ExprDoc) → BodyLoading (List Expr)
  | [] => return []
  | d :: ds => do
      let e ← readExpr s d
      return e :: (← readExprs s ds)

/-- Loads an expression by its kind. -/
def readKind (s : Scope) : ExprDoc → BodyLoading Expr
  | { kind, value, type, index, slot, slots, ownership, function, interface, method, member,
      expected, functorType, source, sources, args, exprs, struct, array, place, size, functor,
      cond, thenBranch, elseBranch, body } =>
    match kind with
    | "ConstantI64" => return .constantI64 (← readValue 0 Yaml.Node.toInt64 value)
    | "ConstantBool" => return .constantBool (← readValue false Yaml.Node.toBool value)
    | "ConstantStr" => return .constantStr (← readValue .empty Yaml.Node.toBytes value)
    | "Argument" => return .argument (← readType s.names type) index
    | "Discard" => do
        let e ← readExpr s source
        return .discard e (← readType s.names type)
    | "Return" => do
        let e ← readExpr s source
        return .ret e (← readType s.names type)
    | "Stackify" => do
        let e ← readExpr s source
        return .stackify e (← readSlot s slot)
    | "Unstackify" => return .unstackify (← readSlot s slot)
    | "LocalLoad" => do
        let l ← readSlot s slot
        if ownership = "" then return .localLoad l ((l.type.map (·.ownership)).getD .own)
        else
          match Ownership.ofWord? ownership with
          | some o => return .localLoad l o
          | none => fail (.unknownOwnership ownership)
    | "LocalStore" => do
        let l ← readSlot s slot
        return .localStore l (← readExpr s source)
    | "Call" => do
        match s.callee? function with
        | none => fail (.undefinedFunction function)
        | some f => return .call f (← readExprs s args)
    | "ExternCall" => do
        match s.callee? function with
        | none => fail (.undefinedFunction function)
        | some f => return .externCall f (← readExprs s args)
    | "InterfaceCall" => do
        let (m, v) ← readMethod s interface method
        let es ← readExprs s args
        return .interfaceCall es v (some (.interned interface)) method (some (.inPlace m))
    | "NewStruct" => do
        let r ← readType s.names type
        return .newStruct (← readExprs s sources) r
    | "Block" => return .block (← readExprs s exprs)
    | "If" => do
        let c ← readExpr s cond
        let t ← readExpr s thenBranch
        let e ← readExpr s elseBranch
        return .ite c t e (← readType s.names type)
    | "While" => do
        let c ← readExpr s cond
        return .loop c (← readExpr s body)
    | "Destroy" => do
        let r ← readType s.names type
        let _ ← structOf r
        let e ← readExpr s struct
        let ls ← slots.mapM (readSlot s)
        return .destroy e r (ls.map some)
    | "MemberLoad" => do
        let r ← readType s.names type
        let (i, t) ← readMemberName s r member
        let e ← readExpr s struct
        let t ← if expected = "" then pure t else pure (some (← readType s.names expected))
        return .memberLoad e r i member t
    | "MemberStore" => do
        let r ← readType s.names type
        let (i, _) ← readMemberName s r member
        let e ← readExpr s struct
        return .memberStore e r i member (← readExpr s source)
    | "StructToInterfaceUpcast" => do
        let r ← readType s.names type
        let sym ← structOf r
        if !s.names.interfaces.contains interface then fail (.undefinedInterface interface)
        let e ← readExpr s source
        return .upcast e r (some sym) (some (.interned interface))
    | "KnownSizeArrayLoad" => do
        let r ← readType s.names type
        let a ← readExpr s array
        return .knownArrayLoad a r (← readExpr s place)
    | "UnknownSizeArrayLoad" => do
        let r ← readType s.names type
        let a ← readExpr s array
        return .unknownArrayLoad a r (← readExpr s place)
    | "ArrayLength" => do
        let r ← readType s.names type
        return .arrayLength (← readExpr s array) r
    | "NewArrayFromValues" => do
        let r ← readType s.names type
        return .newArray (← readExprs s sources) r
    | "ConstructUnknownSizeArray" => do
        let r ← readType s.names type
        let g ← readType s.names functorType
        let n ← readExpr s size
        return .tabulate n (← readExpr s functor) g r
    | "DestroyKnownSizeArrayIntoFunction" => do
        let r ← readType s.names type
        let c ← readType s.names functorType
        let a ← readExpr s array
        return .consumeKnownArray a r (← readExpr s functor) c
    | "DestroyUnknownSizeArray" => do
        let r ← readType s.names type
        let c ← readType s.names functorType
        let a ← readExpr s array
        return .consumeUnknownArray a r (← readExpr s functor) c
    | "" => fail .noKind
    | _ => fail .unknownKind

end

def readBody (s : Scope) (proto : Prototype) : Option ExprDoc → Outcome Function
  | none => fail (.noBody proto.name)
  | some d => do
      let (body, _) ← within (.function proto.name) ((readExpr s (some d)).run [])
      return { proto, body }

/-! ## Programs -/

/-- Loads a document into a program that is not resolved yet. -/
def assemble (doc : ProgramDoc) : Outcome Program := do
  let structDocs ← doc.structs.mapM present
  let interfaceDocs ← doc.interfaces.mapM present
  let names : Declared :=
    { structs := structDocs.map (·.name), interfaces := interfaceDocs.map (·.name) }
  let interfaces ← interfaceDocs.mapM (readInterface names)
  let structs ← structDocs.mapM (readStruct names)
  let natives ← doc.natives.mapM (readNative names)
  let protos ← doc.functions.mapM (readFunctionProto names)
  let scope : Scope := { names, structs, interfaces, natives, functions := protos.map (·.1) }
  let functions ← protos.mapM fun (p, body) => readBody scope p body
  return {
    structs := structs.toArray
    interfaces := interfaces.toArray
    natives := natives.toArray
    functions := functions.toArray
    structSymbols := names.structs.eraseDups.map (·, -1)
    interfaceSymbols := names.interfaces.eraseDups.map (·, -1) }

end Load

/-- Loads a document and resolves the program. -/
def Program.ofDoc (doc : ProgramDoc) : Except LoadError Program := do
  match (← Load.assemble doc).resolve with
  | (p, none) => return p
  | (_, some e) => Load.fail (.resolution e)

/-- Reads, loads and resolves a program. -/
def Program.parse (text : String) : Except LoadError Program := do
  match Yaml.Node.ofText text with
  | .error _ => Load.fail (.yaml (.fatal .malformed))
  | .ok none => Load.fail .noDocument
  | .ok (some n) =>
      match ProgramDoc.ofNode n with
      | .error e => Load.fail (.yaml e)
      | .ok doc => Program.ofDoc doc

end Tenure

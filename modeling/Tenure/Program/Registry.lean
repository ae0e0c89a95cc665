import Tenure.Program.Expr

/-!
# Programs and their resolution

A program is a registry of definitions.  It is assembled definition by
definition, and `resolve` then gives every definition an index and checks that
names are unique and that every mention and every implementation is defined.

Resolution works in a fixed order and stops at the first fault.  What it has set
by then stays set: the indices and the edge table of a program whose resolution
failed half way are those of the half that succeeded.
-/

namespace Tenure

structure StructMember where
  name : String
  type : Option Reference
deriving Repr, DecidableEq

/-- Says that a struct implements an interface, with the names of the
functions that implement its methods, in the interface's order. -/
structure Edge where
  struct : Option Symbol
  interface : Option Symbol
  methods : List String
deriving Repr, DecidableEq

structure StructDef where
  name : String
  immutable : Bool := false
  members : List StructMember := []
  edges : List Edge := []
  id : Int := -1
deriving Repr, DecidableEq

structure InterfaceDef where
  name : String
  methods : List Prototype := []
  id : Int := -1
deriving Repr, DecidableEq

structure Function where
  proto : Prototype
  body : Expr

/-- An edge that resolution accepted: the indices of the struct and of the
interface, and the functions that implement the methods. -/
structure ResolvedEdge where
  structId : Int
  interfaceId : Int
  struct : Symbol
  interface : Symbol
  methods : List Nat
deriving Repr, DecidableEq

structure Program where
  structs : Array StructDef := #[]
  interfaces : Array InterfaceDef := #[]
  natives : Array Prototype := #[]
  functions : Array Function := #[]
  /-- the interned struct names, with the index of each once it is resolved -/
  structSymbols : List (String × Int) := []
  /-- the interned interface names, with the index of each once it is resolved -/
  interfaceSymbols : List (String × Int) := []
  /-- the accepted edges, in the order of resolution -/
  edges : List ResolvedEdge := []
  /-- the place of the edge between a struct and an interface -/
  edgeTable : List ((Int × Int) × Nat) := []
  /-- whether some resolution has succeeded -/
  resolved : Bool := false

/-- Why resolution fails. -/
inductive ResolveError where
  | duplicateStruct (name : String)
  | duplicateInterface (name : String)
  | undefinedStruct (name : String)
  | undefinedInterface (name : String)
  | duplicateFunction (name : String)
  | nativeCollision (name : String)
  | foreignEdge (listedOn belongsTo : String)
  | unknownInterface (struct interface : String)
  | methodCount (struct interface : String) (given wanted : Nat)
  | undefinedMethod (struct interface method : String)
  | duplicateEdge (struct interface : String)
  /-- an edge that names no struct or no interface at all -/
  | danglingEdge
deriving Repr, DecidableEq

def ResolveError.message : ResolveError → String
  | duplicateStruct n => s!"struct `{n}` defined multiple times"
  | duplicateInterface n => s!"interface `{n}` defined multiple times"
  | undefinedStruct n => s!"reference to undefined struct `{n}`"
  | undefinedInterface n => s!"reference to undefined interface `{n}`"
  | duplicateFunction n => s!"function `{n}` defined multiple times"
  | nativeCollision n => s!"extern `{n}` collides with another function"
  | foreignEdge a b => s!"edge listed on struct `{a}` belongs to `{b}`"
  | unknownInterface s i => s!"struct `{s}` implements unknown interface `{i}`"
  | methodCount s i given wanted =>
      s!"struct `{s}` implements {given} of the {wanted} methods of `{i}`"
  | undefinedMethod s i m => s!"struct `{s}` implements `{i}` with undefined function `{m}`"
  | duplicateEdge s i => s!"struct `{s}` implements `{i}` multiple times"
  | danglingEdge => "edge without a struct or an interface"

namespace Program

/-! ## Assembly -/

/-- Registers a name in a symbol table unless it is there. -/
def intern (table : List (String × Int)) (name : String) : List (String × Int) :=
  if table.any (·.1 == name) then table else table ++ [(name, -1)]

def internStruct (p : Program) (name : String) : Program :=
  { p with structSymbols := intern p.structSymbols name }

def internInterface (p : Program) (name : String) : Program :=
  { p with interfaceSymbols := intern p.interfaceSymbols name }

def addStruct (p : Program) (d : StructDef) : Program :=
  { p with structs := p.structs.push d }

def addInterface (p : Program) (d : InterfaceDef) : Program :=
  { p with interfaces := p.interfaces.push d }

def addNative (p : Program) (proto : Prototype) : Program :=
  { p with natives := p.natives.push proto }

def addFunction (p : Program) (f : Function) : Program :=
  { p with functions := p.functions.push f }

/-! ## Lookup -/

/-- The index a symbol stands for, given the table of the interned ones. -/
def symbolId (table : List (String × Int)) : Symbol → Int
  | .interned n => ((table.find? (·.1 == n)).map (·.2)).getD (-1)
  | .pinned _ id => id

def structId (p : Program) (s : Symbol) : Int := symbolId p.structSymbols s

def interfaceId (p : Program) (i : Symbol) : Int := symbolId p.interfaceSymbols i

/-- An element by an index that may be negative. -/
def byId {α : Type} (xs : Array α) (id : Int) : Option α :=
  if 0 ≤ id then xs[id.toNat]? else none

def struct? (p : Program) (id : Int) : Option StructDef := byId p.structs id

def interface? (p : Program) (id : Int) : Option InterfaceDef := byId p.interfaces id

/-- The signature a call names. -/
def prototype? (p : Program) : Callee → Option Prototype
  | .function i => p.functions[i]?.map (·.proto)
  | .native i => p.natives[i]?
  | .inPlace proto => some proto

/-- The position of an accepted edge among the edges. -/
def edgeIndex? (p : Program) (structId interfaceId : Int) : Option Nat :=
  p.edgeTable.lookup (structId, interfaceId)

/-! ## Resolution -/

/-- A resolution step: it may fail, and keeps what it has set either way. -/
abbrev Resolving := EStateM ResolveError Program

/-- Numbers the definitions from an index on; a name seen before is an error. -/
def numberFrom {α : Type} (name : α → String) (setId : α → Int → α)
    (fault : String → ResolveError) :
    Int → List String → List α → List α × Option ResolveError
  | _, _, [] => ([], none)
  | next, seen, d :: ds =>
      if seen.contains (name d) then (d :: ds, some (fault (name d)))
      else
        let (rest, e) := numberFrom name setId fault (next + 1) (name d :: seen) ds
        (setId d next :: rest, e)

/-- Raises a fault if there is one. -/
def raise? : Option ResolveError → Resolving Unit
  | none => pure ()
  | some e => throw e

def numberStructs : Resolving Unit := do
  let p ← get
  let (ds, e) := numberFrom StructDef.name (fun d n => { d with id := n }) .duplicateStruct 0 []
    p.structs.toList
  set { p with structs := ds.toArray }
  raise? e

def numberInterfaces : Resolving Unit := do
  let p ← get
  let (ds, e) := numberFrom InterfaceDef.name (fun d n => { d with id := n }) .duplicateInterface
    0 [] p.interfaces.toList
  set { p with interfaces := ds.toArray }
  raise? e

/-- Looks every interned name up in the list of defined names. -/
def resolveSymbols (defined : List String) (fault : String → ResolveError) :
    List (String × Int) → List (String × Int) × Option ResolveError
  | [] => ([], none)
  | (n, old) :: rest =>
      match defined.idxOf? n with
      | none => ((n, old) :: rest, some (fault n))
      | some i =>
          let (rest, e) := resolveSymbols defined fault rest
          ((n, (i : Int)) :: rest, e)

def resolveStructSymbols : Resolving Unit := do
  let p ← get
  let (table, e) := resolveSymbols (p.structs.toList.map (·.name)) .undefinedStruct p.structSymbols
  set { p with structSymbols := table }
  raise? e

def resolveInterfaceSymbols : Resolving Unit := do
  let p ← get
  let (table, e) := resolveSymbols (p.interfaces.toList.map (·.name)) .undefinedInterface
    p.interfaceSymbols
  set { p with interfaceSymbols := table }
  raise? e

def numberFunctions : Resolving Unit := do
  let p ← get
  let (fs, e) := numberFrom (fun f : Function => f.proto.name)
    (fun f n => { f with proto := { f.proto with id := n } }) .duplicateFunction 0 []
    p.functions.toList
  set { p with functions := fs.toArray }
  raise? e

/-- Natives are numbered after the functions and share their name space. -/
def numberNatives : Resolving Unit := do
  let p ← get
  let (ns, e) := numberFrom Prototype.name (fun d n => { d with id := n }) .nativeCollision
    p.functions.size (p.functions.toList.map (·.proto.name)) p.natives.toList
  set { p with natives := ns.toArray }
  raise? e

/-- The functions that implement the methods of an edge. -/
def implementations (p : Program) (s i : String) : List String → Except ResolveError (List Nat)
  | [] => .ok []
  | m :: ms =>
      match p.functions.toList.findIdx? (·.proto.name == m) with
      | none => .error (.undefinedMethod s i m)
      | some f => (implementations p s i ms).map (f :: ·)

/-- Checks one edge of a struct against the edges accepted so far. -/
def resolveEdge (p : Program) (d : StructDef) (e : Edge) : Except ResolveError ResolvedEdge := do
  let some s := e.struct | throw .danglingEdge
  if p.structId s ≠ d.id then
    throw (.foreignEdge d.name s.name)
  let some i := e.interface | throw .danglingEdge
  let some idef := p.interface? (p.interfaceId i) | throw (.unknownInterface d.name i.name)
  if e.methods.length ≠ idef.methods.length then
    throw (.methodCount d.name idef.name e.methods.length idef.methods.length)
  let methods ← implementations p d.name idef.name e.methods
  if (p.edgeIndex? d.id idef.id).isSome then
    throw (.duplicateEdge d.name idef.name)
  return { structId := d.id, interfaceId := idef.id, struct := s, interface := i, methods }

def addEdge (p : Program) (r : ResolvedEdge) : Program :=
  { p with
    edges := p.edges ++ [r]
    edgeTable := ((r.structId, r.interfaceId), p.edges.length) :: p.edgeTable }

def addEdges : List (StructDef × Edge) → Resolving Unit
  | [] => pure ()
  | (d, e) :: rest => do
      match resolveEdge (← get) d e with
      | .error fault => throw fault
      | .ok r =>
          modify (addEdge · r)
          addEdges rest

/-- Rebuilds the edges and their table. -/
def resolveEdges : Resolving Unit := do
  modify fun p => { p with edges := [], edgeTable := [] }
  addEdges ((← get).structs.toList.flatMap fun d => d.edges.map (d, ·))

def resolveSteps : Resolving Unit := do
  numberStructs
  numberInterfaces
  resolveStructSymbols
  resolveInterfaceSymbols
  numberFunctions
  numberNatives
  resolveEdges
  modify fun p => { p with resolved := true }

/-- Gives every definition its index and checks the program.  The program is
returned with whatever was set before the first fault. -/
def resolve (p : Program) : Program × Option ResolveError :=
  match resolveSteps.run p with
  | .ok _ p => (p, none)
  | .error e p => (p, some e)

end Program
end Tenure

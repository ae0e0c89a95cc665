import Tenure.Yaml.Lexer
import Tenure.Yaml.Tag

/-!
# Nodes

A document as a tree.  Every node knows the line it starts on and its tag.  An
alias carries the node it stands for; an alias inside the very node it names is
unfolded once and is a `knot` below that.
-/

namespace Tenure.Yaml

inductive Node where
  | scalar (line : Nat) (tag : String) (text : String)
  | sequence (line : Nat) (tag : String) (items : List Node)
  /-- keys and values in turn -/
  | mapping (line : Nat) (tag : String) (content : List Node)
  | reference (line : Nat) (name : String) (target : Node)
  | knot (line : Nat) (name : String) (serial : Nat)
deriving Inhabited, Repr

namespace Node

def line : Node → Nat
  | scalar l .. | sequence l .. | mapping l .. | reference l .. | knot l .. => l

/-- The text of a scalar, the name of an alias, and nothing for a collection. -/
def label : Node → String
  | scalar _ _ s => s
  | reference _ n _ | knot _ n _ => n
  | sequence .. | mapping .. => ""

/-- Whether two nodes are of the same sort: scalar, sequence, mapping, alias. -/
def sameSort : Node → Node → Bool
  | scalar .., scalar .. => true
  | sequence .., sequence .. => true
  | mapping .., mapping .. => true
  | reference .., reference .. | reference .., knot .. | knot .., reference ..
  | knot .., knot .. => true
  | _, _ => false

mutual

/-- Replaces the knots of a serial number by aliases of a node. -/
def tie (serial : Nat) (target : Node) : Node → Node
  | knot l n s => if s = serial then reference l n target else knot l n s
  | scalar l t s => scalar l t s
  | sequence l t items => sequence l t (tieAll serial target items)
  | mapping l t content => mapping l t (tieAll serial target content)
  | reference l n inner => reference l n (tie serial target inner)

def tieAll (serial : Nat) (target : Node) : List Node → List Node
  | [] => []
  | n :: ns => tie serial target n :: tieAll serial target ns

end

end Node

/-! ## From tokens to nodes -/

/-- What an anchor names: a node that is still being read, or one that is
complete. -/
inductive Anchor where
  | open (serial : Nat)
  | done (node : Node)

structure Reader where
  tokens : List Token
  /-- whether the text ends well after the tokens -/
  complete : Bool
  anchors : List (String × Anchor) := []
  serial : Nat := 0
  tagHandles : List (String × String) := [("!", "!"), ("!!", tagFamily)]

abbrev Reading := EStateM Malformed Reader

namespace Reading

def fail {α : Type} : Reading α := throw .malformed

/-- The next token.  After the end of the stream it is the end again; where the
text went wrong there is none. -/
def peek : Reading Token := do
  let r ← get
  match r.tokens with
  | t :: _ => return t
  | [] => if r.complete then return ⟨.streamEnd, 0⟩ else fail

def drop : Reading Unit := modify fun r => { r with tokens := r.tokens.tail }

/-- The node of a place where nothing is written. -/
def empty (line : Nat) : Node := .scalar line "!!null" ""

/-- The properties in front of a node: an anchor and a tag, in any order. -/
structure Properties where
  line : Option Nat := none
  anchor : Option String := none
  tag : Option (String × String) := none

def properties : Nat → Properties → Reading Properties
  | 0, p => return p
  | fuel + 1, p => do
      let t ← peek
      match t.kind with
      | .anchor name =>
          if p.anchor.isSome then return p
          drop
          properties fuel { p with anchor := some name, line := p.line <|> some t.line }
      | .tag handle suffix =>
          if p.tag.isSome then return p
          drop
          properties fuel { p with tag := some (handle, suffix), line := p.line <|> some t.line }
      | _ => return p

/-- The tag that a handle and a suffix abbreviate; empty if there is none. -/
def expandTag : Option (String × String) → Reading String
  | none => return ""
  | some ("", suffix) => return suffix
  | some (handle, suffix) => do
      match (← get).tagHandles.find? (·.1 == handle) with
      | some (_, expansion) => return expansion ++ suffix
      | none => fail

/-- The tag of a node: the one that is written, or the default. -/
def nodeTag (written default : String) : String :=
  if written = "" ∨ written = "!" then default else shortTag written

/-- The tag of a scalar.  A plain one is taken for what it looks like. -/
def scalarTag (written : String) (style : ScalarStyle) (text : String) : String :=
  nodeTag written <|
    match style with
    | .quoted => "!!str"
    | .plain => if text = "<<" then "!!merge" else (Plain.meaning "" text).tag

/-- Names the node that is about to be read. -/
def openAnchor (name : Option String) : Reading Nat := do
  let r ← get
  match name with
  | none => return r.serial
  | some n =>
      set { r with
        serial := r.serial + 1
        anchors := (n, .open r.serial) :: r.anchors.filter (·.1 != n) }
      return r.serial

/-- Gives the name to the node that was read, unless the name was taken over by
a node inside it. -/
def closeAnchor (name : Option String) (serial : Nat) (node : Node) : Reading Node := do
  match name with
  | none => return node
  | some n =>
      let node := node.tie serial node
      modify fun r => { r with
        anchors := r.anchors.map fun (m, a) =>
          match a with
          | .open s => if s = serial ∧ m = n then (m, .done node) else (m, a)
          | .done _ => (m, a) }
      return node

/-- The node an alias stands for. -/
def aliased (line : Nat) (name : String) : Reading Node := do
  match (← get).anchors.find? (·.1 == name) with
  | some (_, .done node) => return .reference line name node
  | some (_, .open serial) => return .knot line name serial
  | none => fail

mutual

/-- Reads a node.  In the block context block collections may follow, and a
sequence may stand at the indentation of the key it belongs to. -/
def node (block indentless : Bool) : Nat → Reading Node
  | 0 => fail
  | fuel + 1 => do
      let t ← peek
      match t.kind with
      | .reference name =>
          drop
          aliased t.line name
      | _ =>
          let p ← properties 2 {}
          let written ← expandTag p.tag
          let t ← peek
          let line := p.line.getD t.line
          let serial ← openAnchor p.anchor
          let body ← content block indentless p line written t fuel
          closeAnchor p.anchor serial body

/-- What follows the properties of a node. -/
def content (block indentless : Bool) (p : Properties) (line : Nat) (written : String)
    (t : Token) : Nat → Reading Node
  | 0 => fail
  | fuel + 1 => do
      let seqTag := nodeTag written "!!seq"
      let mapTag := nodeTag written "!!map"
      match t.kind with
      | .blockEntry =>
          if indentless then return .sequence line seqTag (← indentlessEntries fuel)
          else bare p line written
      | .scalar text style =>
          drop
          return .scalar line (scalarTag written style text) text
      | .flowSequenceStart =>
          drop
          return .sequence line seqTag (← flowEntries true fuel)
      | .flowMappingStart =>
          drop
          return .mapping line mapTag (← flowPairs true fuel)
      | .blockSequenceStart =>
          if !block then bare p line written
          else
            drop
            return .sequence line seqTag (← blockEntries fuel)
      | .blockMappingStart =>
          if !block then bare p line written
          else
            drop
            return .mapping line mapTag (← blockPairs fuel)
      | _ => bare p line written

/-- A node of properties alone. -/
def bare (p : Properties) (line : Nat) (written : String) : Reading Node :=
  if p.anchor.isSome ∨ written ≠ "" then return .scalar line (scalarTag written .plain "") ""
  else fail

/-- The entries of a sequence at the indentation of its key. -/
def indentlessEntries : Nat → Reading (List Node)
  | 0 => fail
  | fuel + 1 => do
      let t ← peek
      match t.kind with
      | .blockEntry =>
          drop
          let item ←
            match (← peek).kind with
            | .blockEntry | .key | .value | .blockEnd => pure (empty t.line)
            | _ => node true false fuel
          return item :: (← indentlessEntries fuel)
      | _ => return []

/-- The entries of a block sequence and its end. -/
def blockEntries : Nat → Reading (List Node)
  | 0 => fail
  | fuel + 1 => do
      let t ← peek
      match t.kind with
      | .blockEntry =>
          drop
          let item ←
            match (← peek).kind with
            | .blockEntry | .blockEnd => pure (empty t.line)
            | _ => node true false fuel
          return item :: (← blockEntries fuel)
      | .blockEnd =>
          drop
          return []
      | _ => fail

/-- The keys and values of a block mapping and its end. -/
def blockPairs : Nat → Reading (List Node)
  | 0 => fail
  | fuel + 1 => do
      let t ← peek
      match t.kind with
      | .key =>
          drop
          let key ←
            match (← peek).kind with
            | .key | .value | .blockEnd => pure (empty t.line)
            | _ => node true true fuel
          let value ← blockValue fuel
          return key :: value :: (← blockPairs fuel)
      | .blockEnd =>
          drop
          return []
      | _ => fail

/-- The value of a key in a block mapping. -/
def blockValue : Nat → Reading Node
  | 0 => fail
  | fuel + 1 => do
      let t ← peek
      match t.kind with
      | .value =>
          drop
          match (← peek).kind with
          | .key | .value | .blockEnd => return empty t.line
          | _ => node true true fuel
      | _ => return empty t.line

/-- The entries of a flow sequence and its end. -/
def flowEntries (first : Bool) : Nat → Reading (List Node)
  | 0 => fail
  | fuel + 1 => do
      if (← peek).kind == .flowSequenceEnd then
        drop
        return []
      if !first then
        if (← peek).kind != .flowEntry then fail
        drop
      let t ← peek
      match t.kind with
      | .flowSequenceEnd =>
          drop
          return []
      | .key =>
          drop
          let key ←
            match (← peek).kind with
            | .value | .flowEntry | .flowSequenceEnd => pure (empty t.line)
            | _ => node false false fuel
          let value ← flowValue .flowSequenceEnd fuel
          return .mapping t.line "!!map" [key, value] :: (← flowEntries false fuel)
      | _ =>
          let item ← node false false fuel
          return item :: (← flowEntries false fuel)

/-- The value of a key in a flow collection that ends with a given token. -/
def flowValue (closing : TokenKind) : Nat → Reading Node
  | 0 => fail
  | fuel + 1 => do
      let t ← peek
      if t.kind != .value then return empty t.line
      drop
      let next ← peek
      if next.kind == .flowEntry || next.kind == closing then return empty next.line
      node false false fuel

/-- The keys and values of a flow mapping and its end. -/
def flowPairs (first : Bool) : Nat → Reading (List Node)
  | 0 => fail
  | fuel + 1 => do
      if (← peek).kind == .flowMappingEnd then
        drop
        return []
      if !first then
        if (← peek).kind != .flowEntry then fail
        drop
      let t ← peek
      match t.kind with
      | .flowMappingEnd =>
          drop
          return []
      | .key =>
          drop
          let key ←
            match (← peek).kind with
            | .value | .flowEntry | .flowMappingEnd => pure (empty t.line)
            | _ => node false false fuel
          let value ← flowValue .flowMappingEnd fuel
          return key :: value :: (← flowPairs false fuel)
      | _ =>
          let key ← node false false fuel
          let line := (← peek).line
          return key :: empty line :: (← flowPairs false fuel)

end

/-- The directives in front of a document. -/
def directives : Nat → Bool → Reading Bool
  | 0, seen => return seen
  | fuel + 1, seen => do
      match (← peek).kind with
      | .versionDirective major minor =>
          if major ≠ 1 ∨ minor ≠ 1 then fail
          drop
          directives fuel true
      | .tagDirective handle expansion =>
          modify fun r => { r with tagHandles := (handle, expansion) :: r.tagHandles }
          drop
          directives fuel true
      | _ => return seen

/-- The first document; `none` if there is none at all. -/
def document : Reading (Option Node) := do
  let n := (← get).tokens.length
  let directed ← directives (n + 1) false
  let t ← peek
  match t.kind with
  | .documentStart =>
      drop
      let next ← peek
      let root ←
        match next.kind with
        | .versionDirective .. | .tagDirective .. | .documentStart | .documentEnd
        | .streamEnd => pure (empty next.line)
        | _ => node true false (4 * n + 8)
      let _ ← peek
      return some root
  | .streamEnd => if directed then fail else return none
  | _ =>
      if directed then fail
      let root ← node true false (4 * n + 8)
      let _ ← peek
      return some root

end Reading

/-- The root of the first document of a text; `none` if the text holds no
document at all. -/
def Node.ofText (s : String) : Except Malformed (Option Node) :=
  let tokens := Tokens.ofText s
  match Reading.document.run { tokens := tokens.list, complete := tokens.complete } with
  | .ok n _ => .ok n
  | .error e _ => .error e

end Tenure.Yaml

import Tenure.Yaml.Node
import Tenure.Text.Base64
import Tenure.Text.Quoted
import Tenure.Text.Utf8

/-!
# Reading a document into records

A document is read against a schema: what is wanted in each place, and which
fields each kind of record has.  Whatever does not fit is noted and reading goes
on, so that all mismatches of a document are reported together.
-/

namespace Tenure.Yaml

/-- What is wanted in a place of a document; `σ` names the kinds of records. -/
inductive Want (σ : Type) where
  | text
  | int
  | bool
  /-- the node itself, to be read later -/
  | node
  | list (item : Want σ)
  | record (r : σ)

/-- What reading a place yields.  A record may be left out by writing null. -/
def Want.Carrier {σ : Type} (Doc : σ → Type) : Want σ → Type
  | text => String
  | int => Int
  | bool => Bool
  | node => Node
  | list w => List (w.Carrier Doc)
  | record r => Option (Doc r)

/-- A field of a record of type `D`. -/
structure Field (σ : Type) (Doc : σ → Type) (D : Type) where
  key : String
  want : Want σ
  put : want.Carrier Doc → D → D

/-- The kinds of records of a document. -/
structure Schema (σ : Type) where
  Doc : σ → Type
  /-- the name of a kind of record in messages -/
  typeName : σ → String
  blank : (r : σ) → Doc r
  fields : (r : σ) → List (Field σ Doc (Doc r))

/-- The name of what is wanted, in messages. -/
def Want.typeName {σ : Type} (S : Schema σ) : Want σ → String
  | text => "string"
  | int => "int"
  | bool => "bool"
  | node => "yaml.Node"
  | list (record r) => "[]*" ++ S.typeName r
  | list w => "[]" ++ w.typeName S
  | record r => S.typeName r

/-! ## What can go wrong -/

/-- A place of the document that does not fit. -/
inductive Mismatch where
  | wrongType (line : Nat) (tag : String) (text : Option String) (wanted : String)
  | unknownField (line : Nat) (field record : String)
  | repeatedField (line : Nat) (field record : String)
  | repeatedKey (line : Nat) (key : String) (firstLine : Nat)
deriving Repr, DecidableEq

/-- A long text in a message is cut to seven bytes. -/
def excerpt (s : String) : ByteArray :=
  let bytes := s.toUTF8
  if bytes.size > 10 then bytes.extract 0 7 ++ "...".toUTF8 else bytes

def Mismatch.message : Mismatch → ByteArray
  | wrongType line tag text wanted =>
      let shown :=
        match text with
        | some s => Text.joinBytes [" `".toUTF8, excerpt s, "`".toUTF8]
        | none => .empty
      Text.joinBytes [s!"line {line}: cannot unmarshal {tag}".toUTF8, shown,
        s!" into {wanted}".toUTF8]
  | unknownField line field record =>
      Text.unpack s!"line {line}: field {field} not found in type {record}"
  | repeatedField line field record =>
      Text.unpack s!"line {line}: field {field} already set in type {record}"
  | repeatedKey line key firstLine =>
      (s!"line {line}: mapping key " ++ Text.quote key ++
        s!" already defined at line {firstLine}").toUTF8

/-- A fault that ends the reading of a document at once. -/
inductive Fatal where
  | malformed
  | undecodable (found text tag : String)
  | badBinary
  | selfContained (anchor : String)
  | badMerge
deriving Repr, DecidableEq

/-- Why a document cannot be read. -/
inductive Error where
  | fatal (f : Fatal)
  | mismatches (ms : List Mismatch)
deriving Repr, DecidableEq

def Fatal.message : Fatal → String
  | malformed => "yaml: malformed document"
  | undecodable found text tag => s!"yaml: cannot decode {found} `{text}` as a {tag}"
  | badBinary => "yaml: !!binary value contains invalid base64 data"
  | selfContained a => s!"yaml: anchor '{a}' value contains itself"
  | badMerge => "yaml: map merge requires map or sequence of maps as the value"

def Error.message : Error → ByteArray
  | fatal f => f.message.toUTF8
  | mismatches ms =>
      Text.joinBytes ("yaml: unmarshal errors:".toUTF8 ::
        ms.flatMap fun m => ["\n  ".toUTF8, m.message])

/-- Reading notes mismatches and may end at once. -/
abbrev Decoding := EStateM Fatal (Array Mismatch)

namespace Decoding

def note (m : Mismatch) : Decoding Unit := modify (·.push m)

/-- Notes that a node does not fit. -/
def mismatch {α : Type} (line : Nat) (tag : String) (text : String) (wanted : String) :
    Decoding (Option α) := do
  let shown := if tag = "!!seq" ∨ tag = "!!map" then none else some text
  note (.wrongType (line + 1) tag shown wanted)
  return none

/-! ## Scalars -/

/-- What a scalar stands for, with the bytes of its text. -/
def scalarMeaning (tag text : String) : Decoding (Meaning × ByteArray) :=
  if tag = "!!binary" then
    match Text.Base64.decode? text.toList with
    | some bytes => return (.text, bytes)
    | none => throw .badBinary
  else
    match resolve tag text with
    | some (_, m) => return (m, text.toUTF8)
    | none => throw (.undecodable (Plain.meaning tag text).tag text tag)

/-- The integer part of a real that is not above the range of a 64-bit word;
below the range it is the least such word. -/
def truncate? : Real → Option Int
  | .nan => none
  | .infinite negative => if negative then some Text.minInt64 else none
  | .finite negative x =>
      let n : Int := x.floor
      if negative then some (if -n < Text.minInt64 then Text.minInt64 else -n)
      else if x.le ⟨1, 63⟩ then some (if Text.maxInt64 < n then Text.minInt64 else n)
      else none

/-- The words that are truth values where one is wanted. -/
def truthWord? : String → Option Bool
  | "y" | "Y" | "yes" | "Yes" | "YES" | "on" | "On" | "ON" => some true
  | "n" | "N" | "no" | "No" | "NO" | "off" | "Off" | "OFF" => some false
  | _ => none

/-- A byte string; null is none. -/
def bytesOfScalar (tag text : String) : Decoding (Option ByteArray) := do
  match ← scalarMeaning tag text with
  | (.null, _) => return none
  | (_, bytes) => return some bytes

def intOfScalar (line : Nat) (tag text wanted : String) : Decoding (Option Int) := do
  match ← scalarMeaning tag text with
  | (.null, _) => return none
  | (.int n, _) =>
      match Text.inInt64 n with
      | some n => return some n
      | none => mismatch line tag text wanted
  | (.real x, _) =>
      match truncate? x with
      | some n => return some n
      | none => mismatch line tag text wanted
  | _ => mismatch line tag text wanted

def boolOfScalar (line : Nat) (tag text : String) : Decoding (Option Bool) := do
  match ← scalarMeaning tag text with
  | (.null, _) => return none
  | (.bool b, _) => return some b
  | (.text, bytes) =>
      match truthWord? (Text.ofBytes bytes) with
      | some b => return some b
      | none => mismatch line tag text "bool"
  | _ => mismatch line tag text "bool"

/-! ## Records -/

/-- Notes every key that repeats an earlier one. -/
def repeatedKeys : List Node → List Mismatch
  | k :: _ :: rest =>
      let later := evens rest
      (later.filter fun k' => k.sameSort k' && k.label == k'.label).map
          (fun k' => .repeatedKey (k'.line + 1) k'.label (k.line + 1)) ++
        repeatedKeys rest
  | _ => []
where
  evens : List Node → List Node
    | k :: _ :: rest => k :: evens rest
    | _ => []

/-- Notes a mapping where none is wanted; its repeated keys come first. -/
def unfit {α : Type} (line : Nat) (tag : String) (content : List Node) (wanted : String) :
    Decoding (Option α) := do
  match repeatedKeys content with
  | [] => mismatch line tag "" wanted
  | ms =>
      ms.forM note
      return none

/-- Whether a key asks to merge the fields of another mapping. -/
def isMergeKey : Node → Bool
  | .scalar _ tag text => text == "<<" && tag == "!!merge"
  | _ => false

/-- Whether a node may be merged: a mapping, or an alias of one. -/
def isMergeable : Node → Bool
  | .mapping .. => true
  | .reference _ _ (.mapping ..) => true
  | .knot .. => true
  | _ => false

/-- A key as text; what is no text is noted, and null is skipped. -/
def keyText : Node → Decoding (Option String)
  | .scalar _ tag text => return (← bytesOfScalar tag text).map Text.pack
  | .sequence line tag _ => mismatch line tag "" "string"
  | .mapping line tag content => unfit line tag content "string"
  | .reference _ _ target => keyText target
  | .knot _ name _ => throw (.selfContained name)

/-- The names of all keys of a mapping. -/
def keyNames : List Node → List String
  | .scalar _ _ text :: _ :: rest => text :: keyNames rest
  | .reference _ _ (.scalar _ _ text) :: _ :: rest => text :: keyNames rest
  | _ :: _ :: rest => keyNames rest
  | _ => []

/-- A record under construction: the fields read so far, and the names that a
merge must not touch once one is under way. -/
structure Draft (D : Type) where
  doc : D
  done : List String := []
  settled : Option (List String) := none

variable {σ : Type} (S : Schema σ)

mutual

/-- Reads a node as what is wanted; `none` if it does not fit or says nothing. -/
def decode (w : Want σ) : Node → Decoding (Option (w.Carrier S.Doc))
  | .scalar line tag text =>
      match w with
      | .text => return (← bytesOfScalar tag text).map Text.pack
      | .int => intOfScalar line tag text "int"
      | .bool => boolOfScalar line tag text
      | .node => return some (.scalar line tag text)
      | .list w' => do
          match ← scalarMeaning tag text with
          | (.null, _) => return some []
          | _ => mismatch line tag text ((Want.list w').typeName S)
      | .record r => do
          match ← scalarMeaning tag text with
          | (.null, _) => return some none
          | _ => mismatch line tag text (S.typeName r)
  | .sequence line tag items =>
      match w with
      | .node => return some (.sequence line tag items)
      | .list w' => return some (← decodeItems w' items)
      | .text => mismatch line tag "" "string"
      | .int => mismatch line tag "" "int"
      | .bool => mismatch line tag "" "bool"
      | .record r => mismatch line tag "" (S.typeName r)
  | .mapping line tag content =>
      match w with
      | .node => return some (.mapping line tag content)
      | .record r => do
          match repeatedKeys content with
          | [] =>
              let d ← decodePairs r content { doc := S.blank r }
              let d ← decodeMerges r (keyNames content) content d
              return some (some d.doc)
          | ms =>
              ms.forM note
              return none
      | .text => unfit line tag content "string"
      | .int => unfit line tag content "int"
      | .bool => unfit line tag content "bool"
      | .list w' => unfit line tag content ((Want.list w').typeName S)
  | .reference line name target =>
      match w with
      | .node => return some (.reference line name target)
      | w => decode w target
  | .knot line name serial =>
      match w with
      | .node => return some (.knot line name serial)
      | _ => throw (.selfContained name)

/-- Reads the items of a list; those that do not fit are left out. -/
def decodeItems (w : Want σ) : List Node → Decoding (List (w.Carrier S.Doc))
  | [] => return []
  | n :: ns => do
      match ← decode w n with
      | some x => return x :: (← decodeItems w ns)
      | none => decodeItems w ns

/-- Reads the fields of a record, leaving merges for later. -/
def decodePairs (r : σ) : List Node → Draft (S.Doc r) → Decoding (Draft (S.Doc r))
  | k :: v :: rest, d => do
      if isMergeKey k then decodePairs r rest d
      else
        match ← keyText k with
        | none => decodePairs r rest d
        | some key =>
            if (d.settled.getD []).contains key then decodePairs r rest d
            else
              let d := { d with settled := d.settled.map (key :: ·) }
              match (S.fields r).find? (·.key == key) with
              | none =>
                  note (.unknownField (k.line + 1) key (S.typeName r))
                  decodePairs r rest d
              | some f =>
                  if d.done.contains key then
                    note (.repeatedField (k.line + 1) key (S.typeName r))
                    decodePairs r rest d
                  else
                    let d := { d with done := key :: d.done }
                    match ← decode f.want v with
                    | some x => decodePairs r rest { d with doc := f.put x d.doc }
                    | none => decodePairs r rest d
  | _, d => return d

/-- Merges what the merge keys of a record name. -/
def decodeMerges (r : σ) (own : List String) :
    List Node → Draft (S.Doc r) → Decoding (Draft (S.Doc r))
  | k :: v :: rest, d => do
      if isMergeKey k then
        let d' ← mergeNode r v { d with settled := some (d.settled.getD own), done := [] }
        decodeMerges r own rest { d' with settled := d.settled, done := d.done }
      else decodeMerges r own rest d
  | _, d => return d

/-- Merges a mapping, or the mappings of a sequence, into a record. -/
def mergeNode (r : σ) : Node → Draft (S.Doc r) → Decoding (Draft (S.Doc r))
  | .mapping _ _ content, d => do
      match repeatedKeys content with
      | [] =>
          let d ← decodePairs r content d
          decodeMerges r (keyNames content) content { d with done := [] }
      | ms =>
          ms.forM note
          return d
  | .reference _ _ target, d =>
      if isMergeable target then mergeNode r target d else throw .badMerge
  | .sequence _ _ items, d =>
      if items.all isMergeable then mergeItems r items d else throw .badMerge
  | .knot _ name _, _ => throw (.selfContained name)
  | .scalar .., _ => throw .badMerge

def mergeItems (r : σ) : List Node → Draft (S.Doc r) → Decoding (Draft (S.Doc r))
  | [], d => return d
  | n :: ns, d => do
      let d ← mergeNode r n { d with done := [] }
      mergeItems r ns d

end

end Decoding

/-- The outcome of a reading: its value, unless something did not fit. -/
def Decoding.finish {α : Type} (x : Decoding α) : Except Error α :=
  match x.run #[] with
  | .error f _ => .error (.fatal f)
  | .ok a ms => if ms.isEmpty then .ok a else .error (.mismatches ms.toList)

/-- Reads a node that was set aside as a value of its own. -/
def readScalar {α : Type} (wanted : String)
    (scalar : Nat → String → String → Decoding (Option α)) : Node → Decoding (Option α)
  | .scalar line tag text => scalar line tag text
  | .sequence line tag _ => Decoding.mismatch line tag "" wanted
  | .mapping line tag content => Decoding.unfit line tag content wanted
  | .reference _ _ target => readScalar wanted scalar target
  | .knot _ name _ => throw (.selfContained name)

/-- A 64-bit integer; null is zero. -/
def Node.toInt64 (n : Node) : Except Error Int :=
  (readScalar "int64" (fun l t s => Decoding.intOfScalar l t s "int64") n).finish.map (·.getD 0)

/-- A truth value; null is false. -/
def Node.toBool (n : Node) : Except Error Bool :=
  (readScalar "bool" Decoding.boolOfScalar n).finish.map (·.getD false)

/-- A byte string; null is empty. -/
def Node.toBytes (n : Node) : Except Error ByteArray :=
  (readScalar "string" (fun _ t s => Decoding.bytesOfScalar t s) n).finish.map (·.getD .empty)

end Tenure.Yaml

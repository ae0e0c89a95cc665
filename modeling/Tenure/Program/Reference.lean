/-!
# Reference types

The type of every value of a program: a referend (what is referred to) with an
ownership (who frees it) and a location (embedded, or behind a pointer).

Programs can be assembled by hand, so a referend may be left out and an
ownership or location may be a number that means nothing; such types are kept
as they are and rejected where they are used.
-/

namespace Tenure

/-- Who is responsible for an object: its one owner, nobody here, or a count. -/
inductive Ownership where
  | own
  | borrow
  | share
  /-- a code that names no ownership -/
  | unknown (code : Int)
deriving Repr, DecidableEq

namespace Ownership

def ofCode : Int → Ownership
  | 0 => own
  | 1 => borrow
  | 2 => share
  | n => unknown n

def text : Ownership → String
  | own => "own"
  | borrow => "borrow"
  | share => "share"
  | unknown n => s!"ownership({n})"

/-- The ownership a word of the notation names. -/
def ofWord? : String → Option Ownership
  | "own" => some own
  | "borrow" => some borrow
  | "share" => some share
  | _ => none

end Ownership

/-- Where a value lives: in its container, or on the heap behind a pointer. -/
inductive Location where
  | inline
  | yonder
  /-- a code that names no location; it reads as `yonder` but is not on the heap -/
  | unknown (code : Int)
deriving Repr, DecidableEq

namespace Location

def ofCode : Int → Location
  | 0 => inline
  | 1 => yonder
  | n => unknown n

def text : Location → String
  | inline => "inline"
  | yonder | unknown _ => "yonder"

/-- The location a word of the notation names. -/
def ofWord? : String → Option Location
  | "inline" => some inline
  | "yonder" => some yonder
  | _ => none

end Location

/-- How a type mentions a struct or an interface.  An interned mention shares
the index that resolution gives its name; a pinned one carries an index of its
own that resolution never touches. -/
inductive Symbol where
  | interned (name : String)
  | pinned (name : String) (id : Int)
deriving Repr, DecidableEq

/-- The name a symbol mentions. -/
def Symbol.name : Symbol → String
  | interned n | pinned n _ => n

/-- What a reference refers to.  The reference to the elements of an array is
spelled out as its three parts, which keeps the type a plain tree. -/
inductive Referend where
  | int
  | bool
  | str
  | void
  | struct (s : Symbol)
  | interface (i : Symbol)
  /-- an array: of a fixed size, or of a size known only when it runs -/
  | array (size : Option Int) (ownership : Ownership) (location : Location) (elem : Referend)
  /-- an array whose element type was left out -/
  | hollowArray (size : Option Int)
  /-- a referend that was left out -/
  | missing
deriving Repr, DecidableEq

/-- The type of a value. -/
structure Reference where
  ownership : Ownership
  location : Location
  referend : Referend
deriving Repr, DecidableEq

/-- The bracket in front of an array's element type. -/
def arrayHead : Option Int → String
  | some n => s!"[{n}]"
  | none => "[]"

namespace Referend

/-- A referend as it is written. -/
def text : Referend → String
  | int => "int"
  | bool => "bool"
  | str => "str"
  | void => "void"
  | struct s => s.name
  | interface i => i.name
  | array size o l e => arrayHead size ++ "<" ++ o.text ++ " " ++ l.text ++ " " ++ e.text ++ ">"
  | hollowArray size => arrayHead size ++ "<<nil>>"
  | missing => "%!s(<nil>)"

/-- The element type of an array: `none` for a referend that is no array, and
`some none` for an array whose element type was left out. -/
def elem? : Referend → Option (Option Reference)
  | array _ o l e => some (some ⟨o, l, e⟩)
  | hollowArray _ => some none
  | _ => none

end Referend

namespace Reference

/-- A reference as it is written. -/
def text (r : Reference) : String :=
  r.ownership.text ++ " " ++ r.location.text ++ " " ++ r.referend.text

/-- Whether the reference points to an object on the heap. -/
def isHeap (r : Reference) : Bool :=
  r.location = .yonder

/-- The same referend in the same place under another ownership. -/
def withOwnership (r : Reference) (o : Ownership) : Reference :=
  { r with ownership := o }

def int : Reference := ⟨.share, .inline, .int⟩
def bool : Reference := ⟨.share, .inline, .bool⟩
def str : Reference := ⟨.share, .yonder, .str⟩
def void : Reference := ⟨.share, .inline, .void⟩

end Reference

/-- A reference that may have been left out, as it is written in messages. -/
def referenceText : Option Reference → String
  | some r => r.text
  | none => "<nil>"

end Tenure

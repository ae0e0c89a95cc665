import Tenure.Program.Expr
import Mathlib.Data.Finset.Basic

/-!
# What happens to locals

Expressions open, close and use locals.  Written in the order of the text, what an
expression does to locals is its `script`: both arms of a conditional, one after
the other, and the body of a loop once.
-/

namespace Tenure

/-- An event in the life of a local. -/
inductive LocalEvent where
  | opens (id : Int)
  | closes (id : Int)
  | uses (id : Int)
deriving Repr, DecidableEq

namespace LocalEvent

/-- The locals that are open after an event; none if the event is out of order. -/
def play (opened : Finset Int) : LocalEvent → Option (Finset Int)
  | opens id => if id ∈ opened then none else some (insert id opened)
  | closes id => if id ∈ opened then some (opened.erase id) else none
  | uses id => if id ∈ opened then some opened else none

/-- The locals that are open after events; none if one of them is out of order. -/
def playAll (opened : Finset Int) (ts : List LocalEvent) : Option (Finset Int) :=
  ts.foldlM play opened

variable {opened opened' : Finset Int} {ts us : List LocalEvent} {t : LocalEvent}

theorem playAll_append : playAll opened (ts ++ us) = (playAll opened ts).bind (playAll · us) :=
  List.foldlM_append ..

theorem playAll_append_eq : playAll opened (ts ++ us) = some opened' ↔
    ∃ mid, playAll opened ts = some mid ∧ playAll mid us = some opened' := by
  rw [playAll_append, Option.bind_eq_some_iff]

@[simp] theorem playAll_singleton : playAll opened [t] = t.play opened := by
  simp [playAll]

end LocalEvent

open LocalEvent

/-! ## Scripts -/

/-- What happens to a local that may have been left out. -/
def Local.event (event : Int → LocalEvent) : Option Local → List LocalEvent
  | some l => [event l.id]
  | none => []

mutual

/-- What an expression does to locals, in the order of the text.  A store is a use
before its source is evaluated. -/
def Expr.script : Expr → List LocalEvent
  | .stackify source slot => source.script ++ Local.event .opens slot
  | .unstackify slot => Local.event .closes slot
  | .localLoad slot _ => Local.event .uses slot
  | .localStore slot source => Local.event .uses slot ++ source.script
  | .destroy source _ slots => source.script ++ slots.flatMap (Local.event .opens)
  | .discard source _ | .ret source _ | .memberLoad source _ _ _ _ | .upcast source _ _ _
  | .arrayLength source _ => source.script
  | .call _ args | .externCall _ args | .interfaceCall args _ _ _ _ | .newStruct args _
  | .newArray args _ | .block args => Expr.scripts args
  | .ite cond thenBranch elseBranch _ => cond.script ++ thenBranch.script ++ elseBranch.script
  | .loop cond body => cond.script ++ body.script
  | .memberStore source _ _ _ value => source.script ++ value.script
  | .knownArrayLoad array _ index | .unknownArrayLoad array _ index => array.script ++ index.script
  | .tabulate size generator _ _ => size.script ++ generator.script
  | .consumeKnownArray array _ consumer _ | .consumeUnknownArray array _ consumer _ =>
      array.script ++ consumer.script
  | .missing | .constantI64 _ | .constantBool _ | .constantStr _ | .argument _ _ => []

def Expr.scripts : List Expr → List LocalEvent
  | [] => []
  | e :: es => e.script ++ Expr.scripts es

end

end Tenure

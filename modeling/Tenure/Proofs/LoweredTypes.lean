import Tenure.Proofs.Emission
import Tenure.Proofs.TypeNotation

/-!
# Lowered types

What a type of the program becomes in the module depends on the structs and the
interfaces of the program alone.  The layouts that lowering keeps do not change
that: they are kept by the way types are written, and types with a written form are
written in different ways.

* `typeOf?`, `layoutOf?`: what becomes of a type and of an array, without any state.
* `Faithful`: the kept layouts are those that would be computed.
* `Reckons`: a part of lowering whose outcome follows from the program.
* `Even`: two parts of lowering, for two programs, with one outcome.
-/

namespace Tenure

/-- No two referends with a written form are written in the same way. -/
theorem Referend.Printable.eq_of_text {names : Declared} {r r' : Referend} (h : r.Printable names)
    (h' : r'.Printable names) (heq : r.text = r'.text) : r = r' := by
  have hread : ∀ {e : Referend}, e.Printable names →
      Reference.read names (Reference.text ⟨.own, .inline, e⟩) = .ok ⟨.own, .inline, e⟩ :=
    fun he => Notation.readWithin_text ⟨.inl rfl, .inl rfl, he⟩ (Nat.lt_succ_self _)
  have htext : Reference.text ⟨.own, .inline, r⟩ = Reference.text ⟨.own, .inline, r'⟩ := by
    simp only [Reference.text, heq]
  have hboth := hread h
  rw [htext, hread h'] at hboth
  cases hboth
  rfl

end Tenure

namespace Tenure.Lowering

open Ir (Ty)

/-! ## What becomes of a type -/

/-- The index of the struct a symbol stands for, if there is one. -/
def structIndex? (p : Program) (s : Symbol) : Option Nat :=
  if 0 ≤ p.structId s ∧ p.structId s < p.structs.size then some (p.structId s).toNat else none

/-- The index of the interface a symbol stands for, if there is one. -/
def interfaceIndex? (p : Program) (i : Symbol) : Option Nat :=
  if 0 ≤ p.interfaceId i ∧ p.interfaceId i < p.interfaces.size then some (p.interfaceId i).toNat
  else none

/-- The type of the values of a reference in a location. -/
def typeOf? (p : Program) (l : Location) : Referend → Option Ty
  | .int => some .i64
  | .bool => some .i1
  | .void => some voidType
  | .str => some (.ptr strType)
  | .struct s => (structIndex? p s).map fun i =>
      if l = .inline then innerType p i else .ptr (wrapperType p i)
  | .interface i => (interfaceIndex? p i).map (interfaceRefType p)
  | .array size _ l' elem =>
      if l = .inline then none
      else ((typeOf? p l' elem).map (arrayLayoutOf size)).map .ptr
  | .hollowArray _ | .missing => none

/-- The heap layout of an array. -/
def layoutOf? (p : Program) : Referend → Option Ty
  | .array size _ l elem => (typeOf? p l elem).map (arrayLayoutOf size)
  | _ => none

/-- Functions and edges do not matter to types. -/
theorem typeOf?_withFunctions (p : Program) (functions : Array Function)
    (edges : List ResolvedEdge) (l : Location) (r : Referend) :
    typeOf? { p with functions, edges } l r = typeOf? p l r := by
  induction r generalizing l with
  | array size o l' elem ih => rw [typeOf?, typeOf?, ih]
  | _ => rfl

theorem layoutOf?_withFunctions (p : Program) (functions : Array Function)
    (edges : List ResolvedEdge) (r : Referend) :
    layoutOf? { p with functions, edges } r = layoutOf? p r := by
  cases r with
  | array size o l elem => rw [layoutOf?, layoutOf?, typeOf?_withFunctions]
  | _ => rfl

/-! ## Parts of lowering that follow from the program -/

/-- Every kept layout is that of an array with a written form, under that form. -/
def Faithful (names : Tenure.Declared) (p : Program) (layouts : List (String × Ty)) : Prop :=
  ∀ key t, (key, t) ∈ layouts → ∃ r : Referend, r.Printable names ∧ r.text = key ∧
    layoutOf? p r = some t

/-- A part of lowering only looks things up: its outcome is settled, and of the state it
changes nothing but the kept layouts. -/
def Reckons {α : Type} (names : Tenure.Declared) (env : Env) (x : Build α) (o : Option α) : Prop :=
  ∀ ⦃s : State⦄, Faithful names env.program s.arrayLayouts →
    (∃ a layouts, o = some a ∧ Faithful names env.program layouts ∧
      x env s = .ok a { s with arrayLayouts := layouts }) ∨
    (o = none ∧ ∃ e s', x env s = .error e s')

variable {α β : Type} {names : Tenure.Declared} {env env' : Env} {s s' : State}

section Reckons

variable {x : Build α} {k : α → Build β} {o : Option α} {f : α → Option β}

theorem Reckons.ok {a : α} (h : Reckons names env x o)
    (hs : Faithful names env.program s.arrayLayouts) (hrun : x env s = .ok a s') :
    o = some a ∧ ∃ layouts, Faithful names env.program layouts ∧
      s' = { s with arrayLayouts := layouts } := by
  obtain ⟨b, layouts, ho, hl, hx⟩ | ⟨-, e, t, hx⟩ := h hs
  · rw [hx] at hrun
    injection hrun with ha hs'
    exact ⟨ha ▸ ho, layouts, hl, hs'.symm⟩
  · rw [hx] at hrun
    cases hrun

theorem Reckons.pure {a : α} : Reckons names env (pure a) (some a) :=
  fun s hs => .inl ⟨a, s.arrayLayouts, rfl, hs, rfl⟩

theorem Reckons.throw {e : Fault} : Reckons names env (throw e : Build α) none :=
  fun s _ => .inr ⟨rfl, e, s, rfl⟩

theorem Reckons.violation {v : Violation} : Reckons names env (violation v : Build α) none := .throw

theorem Reckons.crash : Reckons names env (crash : Build α) none := .throw

theorem Reckons.require : Reckons names env (require o) o := by
  cases o with
  | none => exact .crash
  | some a => exact .pure

theorem Reckons.bind (hx : Reckons names env x o)
    (hk : ∀ a, o = some a → Reckons names env (k a) (f a)) :
    Reckons names env (x >>= k) (o.bind f) := by
  intro s hs
  obtain ⟨a, layouts, rfl, hl, hrun⟩ | ⟨rfl, e, t, hrun⟩ := hx hs
  · rw [bind_of_ok hrun]
    exact hk a rfl (s := { s with arrayLayouts := layouts }) hl
  · refine .inr ⟨rfl, e, t, ?_⟩
    change EStateM.bind (x env) (fun a => k a env) s = .error e t
    rw [EStateM.bind, hrun]

theorem Reckons.ite {c : Prop} [Decidable c] {y : Build α} {o' : Option α}
    (hx : Reckons names env x o) (hy : Reckons names env y o') :
    Reckons names env (if c then x else y) (if c then o else o') := by
  split
  · exact hx
  · exact hy

theorem Reckons.program {k : Program → Build β} {o : Option β}
    (h : Reckons names env (k env.program) o) : Reckons names env (getProgram >>= k) o := h

end Reckons

/-! ## Types -/

variable {r : Referend} {n : Symbol}

theorem reckons_structIndex : Reckons names env (structIndex n) (structIndex? env.program n) :=
  .program (.ite .pure .violation)

theorem reckons_interfaceIndex :
    Reckons names env (interfaceIndex n) (interfaceIndex? env.program n) :=
  .program (.ite .pure .violation)

/-- What is kept for an array is what is computed for it. -/
theorem reckons_keptLayout {compute : Build Ty} (hr : r.Printable names)
    (h : Reckons names env compute (layoutOf? env.program r)) :
    Reckons names env (keptLayout r.text compute) (layoutOf? env.program r) := by
  intro s hs
  rw [keptLayout, bind_of_ok (show (get : Build State) env s = .ok s s from rfl)]
  cases hfound : s.arrayLayouts.find? (·.1 == r.text) with
  | some entry =>
    obtain ⟨key, t⟩ := entry
    obtain ⟨r', hr', hkey, ht⟩ := hs key t (List.mem_of_find?_eq_some hfound)
    have htext : key = r.text := by simpa using List.find?_some hfound
    obtain rfl := hr'.eq_of_text hr (hkey.trans htext)
    exact .inl ⟨t, s.arrayLayouts, ht, hs, rfl⟩
  | none =>
    obtain ⟨t, layouts, ht, hl, hrun⟩ | ⟨hnone, e, t, hrun⟩ := h hs
    · refine .inl ⟨t, (r.text, t) :: layouts, ht, fun key u hmem => ?_, bind_of_ok hrun⟩
      obtain heq | hmem := List.mem_cons.mp hmem
      · obtain ⟨rfl, rfl⟩ := Prod.mk.inj heq
        exact ⟨r, hr, rfl, ht⟩
      · exact hl key u hmem
    · refine .inr ⟨hnone, e, t, ?_⟩
      change EStateM.bind (compute env) _ s = .error e t
      rw [EStateM.bind, hrun]

theorem reckons_lowerReferend {o : Ownership} {l : Location} (hr : r.Printable names) :
    Reckons names env (lowerReferend o l r) (typeOf? env.program l r) := by
  induction r generalizing o l with
  | int | bool | void | str => exact .pure
  | struct n =>
    rw [typeOf?, Option.map_eq_bind]
    refine reckons_structIndex.bind fun i _ => ?_
    split
    · exact .program .pure
    · exact .program .pure
  | interface n =>
    rw [typeOf?, Option.map_eq_bind]
    exact .program (reckons_interfaceIndex.bind fun i _ => .pure)
  | array size o' l' elem ih =>
    have helem := ih (o := o') (l := l') hr.2.2.2
    have hcompute : Reckons names env (do return arrayLayoutOf size (← lowerReferend o' l' elem))
        (layoutOf? env.program (.array size o' l' elem)) := by
      rw [layoutOf?, Option.map_eq_bind]
      exact helem.bind fun _ _ => .pure
    have hlayout := reckons_keptLayout hr hcompute
    unfold lowerReferend typeOf?
    split
    · exact .violation
    · rw [← layoutOf?.eq_1 env.program size o' l' elem, Option.map_eq_bind]
      exact hlayout.bind fun _ _ => .pure
  | hollowArray size => exact hr.elim
  | missing => exact hr.elim

theorem reckons_arrayLayout (hr : r.Printable names) :
    Reckons names env (arrayLayout r) (layoutOf? env.program r) := by
  cases r with
  | missing => exact hr.elim
  | hollowArray size => exact hr.elim
  | array size o l elem =>
    refine reckons_keptLayout hr ?_
    rw [layoutOf?, Option.map_eq_bind]
    exact (reckons_lowerReferend hr.2.2.2).bind fun _ _ => .pure
  | _ => exact reckons_keptLayout hr .violation

/-! ## Two programs -/

/-- Two parts of lowering, one for each of two programs, have the same outcome. -/
def Even (names : Tenure.Declared) (env env' : Env) (x y : Build α) : Prop :=
  ∃ o, Reckons names env x o ∧ Reckons names env' y o

section Even

variable {x y : Build α} {k k' : α → Build β}

theorem Even.pure {a : α} : Even names env env' (pure a) (pure a) := ⟨some a, .pure, .pure⟩

theorem Even.violation {v v' : Violation} :
    Even names env env' (violation v : Build α) (Lowering.violation v') :=
  ⟨none, .violation, .violation⟩

theorem Even.crash : Even names env env' (crash : Build α) crash := ⟨none, .crash, .crash⟩

theorem Even.bind (hx : Even names env env' x y)
    (hk : ∀ a, Even names env env' (k a) (k' a)) : Even names env env' (x >>= k) (y >>= k') := by
  obtain ⟨o, hx, hy⟩ := hx
  choose f hf hf' using hk
  exact ⟨o.bind f, hx.bind fun a _ => hf a, hy.bind fun a _ => hf' a⟩

/-- What was required is there from then on. -/
theorem Even.requireBind {o : Option α} (hk : ∀ a, o = some a → Even names env env' (k a) (k' a)) :
    Even names env env' (Lowering.require o >>= k) (Lowering.require o >>= k') := by
  cases o with
  | none => exact .crash
  | some a => exact hk a rfl

theorem Even.ite {c : Prop} [Decidable c] {x' y' : Build α} (hx : Even names env env' x x')
    (hy : Even names env env' y y') :
    Even names env env' (if c then x else y) (if c then x' else y') := by
  split
  · exact hx
  · exact hy

theorem Even.mapM {xs : List α} {k k' : α → Build β}
    (hk : ∀ a ∈ xs, Even names env env' (k a) (k' a)) :
    Even names env env' (xs.mapM k) (xs.mapM k') := by
  induction xs with
  | nil => exact .pure
  | cons x xs ih =>
    obtain ⟨hx, hxs⟩ := List.forall_mem_cons.mp hk
    rw [List.mapM_cons, List.mapM_cons]
    exact hx.bind fun _ => (ih hxs).bind fun _ => .pure

theorem Even.program {k k' : Program → Build β}
    (h : Even names env env' (k env.program) (k' env'.program)) :
    Even names env env' (getProgram >>= k) (getProgram >>= k') := h

end Even

end Tenure.Lowering

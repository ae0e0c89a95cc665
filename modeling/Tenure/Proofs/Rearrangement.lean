import Tenure.Program.Load
import Tenure.Proofs.Outcomes
import Tenure.Proofs.Resolution
import Mathlib.Data.List.Nodup
import Mathlib.Data.List.Perm.Basic
import Mathlib.Logic.Equiv.Basic

/-!
# Reading definitions in another order

All names are declared before any type is read, and a body is read against all
definitions at once.  So what loading makes of a definition depends on the other
ones only by name, and moves with it when the document lists the definitions in
another order; calls, which name functions by their places, follow.

* `Carries`: a list with the entries of another one at new places.
* `Reordering`: new places for all definitions, and what becomes of expressions.
* `Load.readExpr_follows`: a body read in a reordered scope.
* `Load.Reads.rearranged`: all parts of a document, read in another order.
-/

namespace Tenure

/-! ## Lists whose entries move -/

/-- A list holds the entries of another one, each at its new place. -/
def Carries {α : Type} (σ : Equiv.Perm Nat) (xs ys : List α) : Prop :=
  ∀ k, ys[σ k]? = xs[k]?

section Carries

variable {α β : Type} {σ : Equiv.Perm Nat} {xs ys : List α}

theorem Carries.symm (h : Carries σ xs ys) : Carries σ.symm ys xs := by
  intro k
  rw [← h, Equiv.apply_symm_apply]

theorem Carries.map (h : Carries σ xs ys) (f : α → β) : Carries σ (xs.map f) (ys.map f) := by
  intro k
  rw [List.getElem?_map, List.getElem?_map, h]

theorem Carries.lt_iff (h : Carries σ xs ys) {k : Nat} : σ k < ys.length ↔ k < xs.length := by
  rw [← not_iff_not, Nat.not_lt, Nat.not_lt, ← List.getElem?_eq_none_iff,
    ← List.getElem?_eq_none_iff, h]

theorem map_range_getElem? (xs : List α) : (List.range xs.length).map (xs[·]?) = xs.map some := by
  refine List.ext_getElem (by simp) fun k hk hk' => ?_
  simp

theorem Carries.perm (h : Carries σ xs ys) : xs.Perm ys := by
  have hplaces : ((List.range xs.length).map σ).Perm (List.range ys.length) := by
    refine (List.perm_ext_iff_of_nodup (List.nodup_range.map σ.injective) List.nodup_range).mpr ?_
    intro j
    rw [List.mem_map, List.mem_range]
    constructor
    · rintro ⟨k, hk, rfl⟩
      exact h.lt_iff.mpr (List.mem_range.mp hk)
    · intro hj
      refine ⟨σ.symm j, List.mem_range.mpr (h.lt_iff.mp ?_), σ.apply_symm_apply j⟩
      rwa [Equiv.apply_symm_apply]
  have hentries : (xs.map some).Perm (ys.map some) := by
    rw [← map_range_getElem?, ← map_range_getElem?]
    have hmoved := hplaces.map (ys[·]?)
    rw [List.map_map] at hmoved
    rwa [List.map_congr_left (g := fun k => ys[σ k]?) fun k _ => (h k).symm]
  simpa [List.filterMap_map] using hentries.filterMap id

/-- Moves the places after the first one. -/
def afterFirst (σ : Equiv.Perm Nat) : Equiv.Perm Nat where
  toFun
    | 0 => 0
    | k + 1 => σ k + 1
  invFun
    | 0 => 0
    | k + 1 => σ.symm k + 1
  left_inv k := by cases k <;> simp
  right_inv k := by cases k <;> simp

/-- Every permutation of a list moves its entries to new places, and only these. -/
theorem exists_carries_fixing (h : xs.Perm ys) :
    ∃ σ, Carries σ xs ys ∧ ∀ k, xs.length ≤ k → σ k = k := by
  induction h with
  | nil => exact ⟨Equiv.refl Nat, fun _ => rfl, fun _ _ => rfl⟩
  | cons x _ ih =>
    obtain ⟨σ, hσ, hfix⟩ := ih
    refine ⟨afterFirst σ, fun k => ?_, fun k hk => ?_⟩
    · cases k with
      | zero => rfl
      | succ k => exact hσ k
    · cases k with
      | zero => rfl
      | succ k => exact congrArg (· + 1) (hfix k (Nat.le_of_succ_le_succ hk))
  | swap x y l =>
    refine ⟨Equiv.swap 0 1, fun k => ?_, fun k hk => ?_⟩
    · match k with
      | 0 => simp
      | 1 => simp
      | k + 2 => rw [Equiv.swap_apply_of_ne_of_ne (by omega) (by omega)]; rfl
    · rw [List.length_cons, List.length_cons] at hk
      exact Equiv.swap_apply_of_ne_of_ne (by omega) (by omega)
  | trans h1 _ ih1 ih2 =>
    obtain ⟨σ, hσ, hfix1⟩ := ih1
    obtain ⟨τ, hτ, hfix2⟩ := ih2
    refine ⟨σ.trans τ, fun k => ?_, fun k hk => ?_⟩
    · rw [Equiv.trans_apply, hτ, hσ]
    · rw [Equiv.trans_apply, hfix1 k hk, hfix2 k (h1.length_eq ▸ hk)]

theorem exists_carries (h : xs.Perm ys) : ∃ σ, Carries σ xs ys := by
  obtain ⟨σ, hσ, -⟩ := exists_carries_fixing h
  exact ⟨σ, hσ⟩

/-- What is read from entries moves with them. -/
theorem Carries.mapM {ε : Type} {f : α → Except ε β} {zs : List β} (h : Carries σ xs ys)
    (hxs : xs.mapM f = .ok zs) : ∃ zs', ys.mapM f = .ok zs' ∧ Carries σ zs zs' := by
  have hall : ∀ x ∈ ys, ∃ z, f x = .ok z := by
    intro x hx
    obtain ⟨k, hk, rfl⟩ := List.getElem_of_mem (h.perm.mem_iff.mpr hx)
    have hforall := except_mapM_ok hxs
    exact ⟨_, hforall.get hk (hforall.length_eq ▸ hk)⟩
  obtain ⟨zs', hzs'⟩ := except_mapM_of_forall hall
  refine ⟨zs', hzs', fun k => ?_⟩
  rw [except_mapM_getElem? hzs', except_mapM_getElem? hxs, h]

end Carries


/-! ## New places for the definitions -/

/-- New places for the definitions of a program, a permutation for each list. -/
structure Reordering where
  struct : Equiv.Perm Nat
  interface : Equiv.Perm Nat
  native : Equiv.Perm Nat
  function : Equiv.Perm Nat

namespace Reordering

/-- The way back. -/
def symm (ρ : Reordering) : Reordering :=
  ⟨ρ.struct.symm, ρ.interface.symm, ρ.native.symm, ρ.function.symm⟩

/-- What a call names, at its new place. -/
def callee (ρ : Reordering) : Callee → Callee
  | .function k => .function (ρ.function k)
  | .native k => .native (ρ.native k)
  | .inPlace proto => .inPlace proto

mutual

/-- An expression whose calls name functions and externs at their new places. -/
def expr (ρ : Reordering) : Expr → Expr
  | .missing => .missing
  | .constantI64 v => .constantI64 v
  | .constantBool v => .constantBool v
  | .constantStr v => .constantStr v
  | .argument t i => .argument t i
  | .discard e t => .discard (ρ.expr e) t
  | .ret e t => .ret (ρ.expr e) t
  | .stackify e l => .stackify (ρ.expr e) l
  | .unstackify l => .unstackify l
  | .localLoad l o => .localLoad l o
  | .localStore l e => .localStore l (ρ.expr e)
  | .call f es => .call (f.map ρ.callee) (ρ.exprs es)
  | .externCall f es => .externCall (f.map ρ.callee) (ρ.exprs es)
  | .interfaceCall es v i m f => .interfaceCall (ρ.exprs es) v i m (f.map ρ.callee)
  | .newStruct es t => .newStruct (ρ.exprs es) t
  | .block es => .block (ρ.exprs es)
  | .ite c a b t => .ite (ρ.expr c) (ρ.expr a) (ρ.expr b) t
  | .loop c b => .loop (ρ.expr c) (ρ.expr b)
  | .destroy e t ls => .destroy (ρ.expr e) t ls
  | .memberLoad e t i m x => .memberLoad (ρ.expr e) t i m x
  | .memberStore e t i m v => .memberStore (ρ.expr e) t i m (ρ.expr v)
  | .upcast e t s i => .upcast (ρ.expr e) t s i
  | .knownArrayLoad a t i => .knownArrayLoad (ρ.expr a) t (ρ.expr i)
  | .unknownArrayLoad a t i => .unknownArrayLoad (ρ.expr a) t (ρ.expr i)
  | .arrayLength a t => .arrayLength (ρ.expr a) t
  | .newArray es t => .newArray (ρ.exprs es) t
  | .tabulate n g gt t => .tabulate (ρ.expr n) (ρ.expr g) gt t
  | .consumeKnownArray a t c ct => .consumeKnownArray (ρ.expr a) t (ρ.expr c) ct
  | .consumeUnknownArray a t c ct => .consumeUnknownArray (ρ.expr a) t (ρ.expr c) ct

def exprs (ρ : Reordering) : List Expr → List Expr
  | [] => []
  | e :: es => ρ.expr e :: ρ.exprs es

end

/-- A function with the calls of its body at their new places. -/
def relocate (ρ : Reordering) (f : Function) : Function := { f with body := ρ.expr f.body }

/-- A document lists the definitions of another one, each at its new place. -/
structure Rearranges (ρ : Reordering) (doc doc' : ProgramDoc) : Prop where
  structs : Carries ρ.struct doc.structs doc'.structs
  interfaces : Carries ρ.interface doc.interfaces doc'.interfaces
  natives : Carries ρ.native doc.natives doc'.natives
  functions : Carries ρ.function doc.functions doc'.functions

end Reordering

/-! ## Types -/

/-- The same names are declared, in whatever order and however often. -/
structure Declared.Same (names names' : Declared) : Prop where
  structs : ∀ n, n ∈ names'.structs ↔ n ∈ names.structs
  interfaces : ∀ n, n ∈ names'.interfaces ↔ n ∈ names.interfaces

namespace Declared.Same

variable {names names' : Declared}

theorem contains_interfaces (h : names.Same names') (n : String) :
    names'.interfaces.contains n = names.interfaces.contains n := by
  rw [Bool.eq_iff_iff, List.contains_iff_mem, List.contains_iff_mem, h.interfaces]

theorem simpleReferend (h : names.Same names') :
    Notation.simpleReferend names' = Notation.simpleReferend names := by
  funext s
  have hstructs : names'.structs.contains s = names.structs.contains s := by
    rw [Bool.eq_iff_iff, List.contains_iff_mem, List.contains_iff_mem, h.structs]
  unfold Notation.simpleReferend
  rw [hstructs, h.contains_interfaces]

theorem readWithin (h : names.Same names') (fuel : Nat) :
    Notation.readWithin names' fuel = Notation.readWithin names fuel := by
  funext s
  induction fuel generalizing s with
  | zero => rfl
  | succ fuel ih =>
    rw [Notation.readWithin, Notation.readWithin, h.simpleReferend]
    simp only [ih]

theorem readType (h : names.Same names') : Load.readType names' = Load.readType names := by
  funext s
  rw [Load.readType, Load.readType, Reference.read, Reference.read, h.readWithin]

end Declared.Same


/-! ## Definitions -/

namespace Load

section Definitions

variable {names names' : Declared}

theorem readParams_same (h : names.Same names') (function : String) (i : Nat) (docs : List String) :
    readParams names' function i docs = readParams names function i docs := by
  induction docs generalizing i with
  | nil => rfl
  | cons d docs ih => rw [readParams, readParams, h.readType, ih]

theorem readProto_same (h : names.Same names') : readProto names' = readProto names := by
  funext d
  rw [readProto, readProto, readParams_same h, h.readType]

theorem readMember_same (h : names.Same names') : readMember names' = readMember names := by
  funext d
  rw [readMember, readMember, h.readType]

theorem readEdge_same (h : names.Same names') : readEdge names' = readEdge names := by
  funext struct d
  unfold readEdge
  simp only [h.contains_interfaces]

theorem readStruct_same (h : names.Same names') : readStruct names' = readStruct names := by
  funext d
  rw [readStruct, readStruct, readMember_same h, readEdge_same h]

theorem readInterface_same (h : names.Same names') : readInterface names' =
    readInterface names := by
  funext d
  rw [readInterface, readInterface, readProto_same h]

theorem readNative_same (h : names.Same names') : readNative names' = readNative names := by
  funext d
  rw [readNative, readNative, readProto_same h]

theorem readFunctionProto_same (h : names.Same names') :
    readFunctionProto names' = readFunctionProto names := by
  funext d
  rw [readFunctionProto, readFunctionProto, readProto_same h]

end Definitions

/-! ## Bodies -/

/-- Two scopes with the same names, members and methods, whose calls differ by the places
of the functions and externs. -/
structure Scope.Follows (ρ : Reordering) (s s' : Scope) : Prop where
  names : s.names.Same s'.names
  members : ∀ n, s'.members n = s.members n
  methods : ∀ n, s'.methods n = s.methods n
  callees : ∀ n, s'.callee? n = (s.callee? n).map ρ.callee

section Bodies

variable {ρ : Reordering} {s s' : Scope}

theorem readSlot_follows (h : s.Follows ρ s') : readSlot s' = readSlot s := by
  funext d
  unfold readSlot
  rw [h.names.readType]

theorem readMethod_follows (h : s.Follows ρ s') : readMethod s' = readMethod s := by
  funext interface index
  rw [readMethod, readMethod, h.names.contains_interfaces, h.methods]

theorem readMemberName_follows (h : s.Follows ρ s') : readMemberName s' = readMemberName s := by
  funext r member
  unfold readMemberName
  simp only [h.members]

/-- A place on the way to a fault does not matter to what is made of a result. -/
theorem within_map {α β : Type} (place : LoadPlace) (f : α → β) (x : BodyLoading α) :
    (fun locals => within place ((f <$> x) locals)) =
      Functor.map (f := BodyLoading) f fun locals => within place (x locals) := by
  funext locals
  show within place ((x locals).bind fun a => .ok (f a.1, a.2)) =
    (within place (x locals)).bind fun a => .ok (f a.1, a.2)
  cases x locals with
  | error e => rfl
  | ok a => rfl

theorem map_fail {α β : Type} (f : α → β) (c : LoadCause) :
    f <$> (liftM (fail c : Outcome α) : BodyLoading α) = liftM (fail c : Outcome β) :=
  rfl

mutual

theorem readExpr_follows (h : s.Follows ρ s') :
    ∀ d, readExpr s' d = ρ.expr <$> readExpr s d
  | none => by
    rw [readExpr, readExpr]
    rfl
  | some d => by
    rw [readExpr, readExpr, readKind_follows h d, within_map]

theorem readExprs_follows (h : s.Follows ρ s') :
    ∀ ds, readExprs s' ds = ρ.exprs <$> readExprs s ds
  | [] => by
    rw [readExprs, readExprs]
    rfl
  | d :: ds => by
    rw [readExprs, readExprs, readExpr_follows h d, readExprs_follows h ds]
    simp only [bind_map_left, map_bind, map_pure, Reordering.exprs]

theorem readKind_follows (h : s.Follows ρ s') :
    ∀ d, readKind s' d = ρ.expr <$> readKind s d
  | { kind, value, type, index, slot, slots, ownership, function, interface, method, member,
      expected, functorType, source, sources, args, exprs, struct, array, place, size, functor,
      cond, thenBranch, elseBranch, body } => by
    unfold readKind
    simp only [h.names.readType, h.names.contains_interfaces, h.callees, readSlot_follows h,
      readMethod_follows h, readMemberName_follows h]
    split
    all_goals simp only [map_bind, map_pure, bind_map_left, map_fail,
      apply_ite (Functor.map ρ.expr),
      readExpr_follows h, readExprs_follows h, Reordering.expr, Option.map_some, Reordering.callee]
    -- left are the kinds that look something up in between
    · cases Ownership.ofWord? ownership <;> rfl
    · cases s.callee? function with
      | none => rfl
      | some f => simp only [Option.map_some, map_bind, map_pure, Reordering.expr]
    · cases s.callee? function with
      | none => rfl
      | some f => simp only [Option.map_some, map_bind, map_pure, Reordering.expr]

end

theorem readBody_follows (h : s.Follows ρ s') (proto : Prototype) (d : Option ExprDoc) :
    readBody s' proto d = (readBody s proto d).map ρ.relocate := by
  cases d with
  | none => rfl
  | some d =>
    rw [readBody, readBody, readExpr_follows h, StateT.run_map]
    cases (readExpr s (some d)).run [] with
    | error e => rfl
    | ok a => rfl

end Bodies


/-! ## Scopes -/

theorem filter_name_perm {α : Type} (name : α → String) {ds ds' : List α} (h : ds.Perm ds')
    (hnames : (ds.map name).Nodup) (n : String) :
    ds'.filter (name · == n) = ds.filter (name · == n) := by
  by_cases hn : n ∈ ds.map name
  · obtain ⟨d, hd, rfl⟩ := List.mem_map.mp hn
    rw [Program.filter_name name hnames hd,
      Program.filter_name name ((h.map name).nodup_iff.mp hnames) (h.mem_iff.mp hd)]
  · have hnone : ds.filter (name · == n) = [] := by
      refine List.filter_eq_nil_iff.mpr fun d hd heq => hn ?_
      exact List.mem_map.mpr ⟨d, hd, by simpa using heq⟩
    have hperm := h.filter (name · == n)
    rw [hnone] at hperm ⊢
    exact hperm.nil_eq.symm

variable {ps : List Prototype} {ρ : Reordering} {s : Scope} {doc : ProgramDoc}

theorem lastIndex?_eq_some_iff (hnames : (ps.map (·.name)).Nodup) {n : String} {k : Nat} :
    Scope.lastIndex? ps n = some k ↔ (ps.map (·.name))[k]? = some n := by
  have hsound {k : Nat} (h : Scope.lastIndex? ps n = some k) : (ps.map (·.name))[k]? = some n := by
    obtain ⟨i, hi, rfl⟩ := Option.map_eq_some_iff.mp h
    obtain ⟨hlt, hname, -⟩ := List.findIdx?_eq_some_iff_getElem.mp hi
    rw [List.getElem_reverse] at hname
    rw [List.length_reverse] at hlt
    rw [List.getElem?_map, List.getElem?_eq_getElem (by omega)]
    simpa using hname
  refine ⟨hsound, fun h => ?_⟩
  obtain ⟨hlt, hn⟩ := List.getElem?_eq_some_iff.mp h
  cases hlast : Scope.lastIndex? ps n with
  | none =>
    rw [Scope.lastIndex?, Option.map_eq_none_iff, List.findIdx?_eq_none_iff] at hlast
    have hmem := List.mem_of_getElem? h
    obtain ⟨p, hp, rfl⟩ := List.mem_map.mp hmem
    simpa using hlast p (List.mem_reverse.mpr hp)
  | some j => rw [(List.getElem?_inj hlt hnames).mp (h.trans (hsound hlast).symm)]

theorem lastIndex?_carries {σ : Equiv.Perm Nat} {ps' : List Prototype} (h : Carries σ ps ps')
    (hnames : (ps.map (·.name)).Nodup) (n : String) :
    Scope.lastIndex? ps' n = (Scope.lastIndex? ps n).map σ := by
  have hnames' := (h.perm.map (·.name)).nodup_iff.mp hnames
  refine Option.ext fun k => ?_
  rw [lastIndex?_eq_some_iff hnames', Option.map_eq_some_iff]
  constructor
  · intro hk
    refine ⟨σ.symm k, (lastIndex?_eq_some_iff hnames).mpr ?_, σ.apply_symm_apply k⟩
    rw [(h.map (·.name)).symm, hk]
  · rintro ⟨j, hj, rfl⟩
    rw [h.map (·.name) j]
    exact (lastIndex?_eq_some_iff hnames).mp hj

/-- A scope holds the definitions of another one, each at its new place. -/
structure Scope.Carried (ρ : Reordering) (s s' : Scope) : Prop where
  structNames : Carries ρ.struct s.names.structs s'.names.structs
  interfaceNames : Carries ρ.interface s.names.interfaces s'.names.interfaces
  structs : Carries ρ.struct s.structs s'.structs
  interfaces : Carries ρ.interface s.interfaces s'.interfaces
  natives : Carries ρ.native s.natives s'.natives
  functions : Carries ρ.function s.functions s'.functions

/-- In a scope, no two structs, interfaces, functions or externs have one name. -/
structure Scope.Distinct (s : Scope) : Prop where
  structs : (s.structs.map (·.name)).Nodup
  interfaces : (s.interfaces.map (·.name)).Nodup
  natives : (s.natives.map (·.name)).Nodup
  functions : (s.functions.map (·.name)).Nodup

/-- Where names are unique, what is found by name does not depend on places. -/
theorem Scope.Carried.follows {s' : Scope} (h : s.Carried ρ s') (hs : s.Distinct) :
    s.Follows ρ s' where
  names := ⟨fun _ => h.structNames.perm.symm.mem_iff, fun _ => h.interfaceNames.perm.symm.mem_iff⟩
  members n := by
    rw [Scope.members, Scope.members, filter_name_perm StructDef.name h.structs.perm hs.structs]
  methods n := by
    rw [Scope.methods, Scope.methods,
      filter_name_perm InterfaceDef.name h.interfaces.perm hs.interfaces]
  callees n := by
    rw [Scope.callee?, Scope.callee?, lastIndex?_carries h.functions hs.functions,
      lastIndex?_carries h.natives hs.natives]
    cases Scope.lastIndex? s.functions n with
    | some k => rfl
    | none => cases Scope.lastIndex? s.natives n <;> rfl

/-! ## Documents -/

/-- The parts of a document, as loading reads them. -/
structure Reads (doc : ProgramDoc) (s : Scope) (functions : List Function) : Prop where
  structs : ∃ docs, doc.structs.mapM present = .ok docs ∧ s.names.structs = docs.map (·.name) ∧
    docs.mapM (readStruct s.names) = .ok s.structs
  interfaces : ∃ docs, doc.interfaces.mapM present = .ok docs ∧
    s.names.interfaces = docs.map (·.name) ∧ docs.mapM (readInterface s.names) = .ok s.interfaces
  natives : doc.natives.mapM (readNative s.names) = .ok s.natives
  functions : ∃ protos, doc.functions.mapM (readFunctionProto s.names) = .ok protos ∧
    s.functions = protos.map (·.1) ∧ protos.mapM (fun p => readBody s p.1 p.2) = .ok functions

/-- The program of a scope and the bodies that were read in it. -/
def Scope.program (s : Scope) (functions : List Function) : Program where
  structs := s.structs.toArray
  interfaces := s.interfaces.toArray
  natives := s.natives.toArray
  functions := functions.toArray
  structSymbols := s.names.structs.eraseDups.map (·, -1)
  interfaceSymbols := s.names.interfaces.eraseDups.map (·, -1)

theorem assemble_eq_ok_iff {p : Program} : assemble doc = .ok p ↔
    ∃ s functions, Reads doc s functions ∧ p = s.program functions := by
  constructor
  · intro h
    obtain ⟨structDocs, hstructDocs, h⟩ := except_bind_ok h
    obtain ⟨interfaceDocs, hinterfaceDocs, h⟩ := except_bind_ok h
    obtain ⟨interfaces, hinterfaces, h⟩ := except_bind_ok h
    obtain ⟨structs, hstructs, h⟩ := except_bind_ok h
    obtain ⟨natives, hnatives, h⟩ := except_bind_ok h
    obtain ⟨protos, hprotos, h⟩ := except_bind_ok h
    obtain ⟨functions, hfunctions, h⟩ := except_bind_ok h
    cases h
    refine ⟨⟨⟨structDocs.map (·.name), interfaceDocs.map (·.name)⟩, structs, interfaces, natives,
      protos.map (·.1)⟩, functions, ?_, rfl⟩
    exact {
      structs := ⟨structDocs, hstructDocs, rfl, hstructs⟩
      interfaces := ⟨interfaceDocs, hinterfaceDocs, rfl, hinterfaces⟩
      natives := hnatives
      functions := ⟨protos, hprotos, rfl, hfunctions⟩ }
  · rintro ⟨⟨⟨structNames, interfaceNames⟩, structs, interfaces, natives, prototypes⟩,
      functions, h, rfl⟩
    obtain ⟨⟨structDocs, hstructDocs, hn, hstructs⟩,
      ⟨interfaceDocs, hinterfaceDocs, hn', hinterfaces⟩,
      hnatives, protos, hprotos, hps, hfunctions⟩ := h
    dsimp only at *
    subst hn hn' hps
    rw [assemble, hstructDocs]
    show (doc.interfaces.mapM present >>= _) = _
    rw [hinterfaceDocs]
    show (interfaceDocs.mapM (readInterface _) >>= _) = _
    rw [hinterfaces]
    show (structDocs.mapM (readStruct _) >>= _) = _
    rw [hstructs]
    show (doc.natives.mapM (readNative _) >>= _) = _
    rw [hnatives]
    show (doc.functions.mapM (readFunctionProto _) >>= _) = _
    rw [hprotos]
    show (protos.mapM (fun p => readBody _ p.1 p.2) >>= _) = _
    rw [hfunctions]
    rfl

/-- Where names are unique, the parts of a document that lists the same definitions in another
order are the same parts at their new places. -/
theorem Reads.rearranged {doc' : ProgramDoc} {functions : List Function} (h : Reads doc s functions)
    (hs : s.Distinct) (hρ : ρ.Rearranges doc doc') :
    ∃ s' functions', Reads doc' s' functions' ∧ s.Carried ρ s' ∧
      Carries ρ.function (functions.map ρ.relocate) functions' := by
  obtain ⟨structDocs, hstructDocs, hstructNames, hstructs⟩ := h.structs
  obtain ⟨interfaceDocs, hinterfaceDocs, hinterfaceNames, hinterfaces⟩ := h.interfaces
  obtain ⟨protos, hprotos, hfunctions, hbodies⟩ := h.functions
  -- the names come first: they decide how everything else is read
  obtain ⟨structDocs', hstructDocs', cstructDocs⟩ := hρ.structs.mapM hstructDocs
  obtain ⟨interfaceDocs', hinterfaceDocs', cinterfaceDocs⟩ := hρ.interfaces.mapM hinterfaceDocs
  have cstructNames := cstructDocs.map (·.name)
  have cinterfaceNames := cinterfaceDocs.map (·.name)
  rw [← hstructNames] at cstructNames
  rw [← hinterfaceNames] at cinterfaceNames
  have hnames : s.names.Same ⟨structDocs'.map (·.name), interfaceDocs'.map (·.name)⟩ :=
    ⟨fun _ => cstructNames.perm.symm.mem_iff, fun _ => cinterfaceNames.perm.symm.mem_iff⟩
  obtain ⟨structs', hstructs', cstructs⟩ := cstructDocs.mapM hstructs
  obtain ⟨interfaces', hinterfaces', cinterfaces⟩ := cinterfaceDocs.mapM hinterfaces
  obtain ⟨natives', hnatives', cnatives⟩ := hρ.natives.mapM h.natives
  obtain ⟨protos', hprotos', cprotos⟩ := hρ.functions.mapM hprotos
  rw [← readStruct_same hnames] at hstructs'
  rw [← readInterface_same hnames] at hinterfaces'
  rw [← readNative_same hnames] at hnatives'
  rw [← readFunctionProto_same hnames] at hprotos'
  have hcarried : s.Carried ρ ⟨⟨structDocs'.map (·.name), interfaceDocs'.map (·.name)⟩, structs',
      interfaces', natives', protos'.map (·.1)⟩ :=
    ⟨cstructNames, cinterfaceNames, cstructs, cinterfaces, cnatives, hfunctions ▸ cprotos.map (·.1)⟩
  have hbodies' := except_mapM_map ρ.relocate hbodies
  simp only [← readBody_follows (hcarried.follows hs)] at hbodies'
  obtain ⟨functions', hfunctions', cfunctions⟩ := cprotos.mapM hbodies'
  refine ⟨_, functions', ?_, hcarried, cfunctions⟩
  exact {
    structs := ⟨structDocs', hstructDocs', rfl, hstructs'⟩
    interfaces := ⟨interfaceDocs', hinterfaceDocs', rfl, hinterfaces'⟩
    natives := hnatives'
    functions := ⟨protos', hprotos', rfl, hfunctions'⟩ }

end Load

end Tenure

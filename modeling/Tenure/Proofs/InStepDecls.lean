import Tenure.Proofs.InStepFunc

/-!
# Declarations in step

Before code is written, both runs declare the runtime and the types, which do not
depend on the functions of the program, and then the functions.  What a function is
declared as depends on its signature alone, so the second run declares the same
functions as the first one, in its own order.

* `Matched`: both runs have done the same, up to the layouts they keep.
* `declaration?`: what a function is declared as.
* `notePlaces`: where the declared functions are looked up.
-/

namespace Tenure.Lowering

open Ir (Ty Func)

variable {P : ProgramPair} {s s' t : State} {u : Unit}

/-! ## Types -/

/-- Two runs that differ by the layouts they keep only. -/
structure Matched (P : ProgramPair) (s s' : State) : Prop where
  left : Faithful P.names P.env.program s.arrayLayouts
  right : Faithful P.names P.env'.program s'.arrayLayouts
  rest : s' = { s with arrayLayouts := s'.arrayLayouts }

/-- What the first run does, the second one does as well, and globals stay as they are. -/
def Follows {α : Type} (P : ProgramPair) (x y : Build α) : Prop :=
  ∀ ⦃s s' : State⦄ ⦃a : α⦄ ⦃t : State⦄, Matched P s s' → x P.env s = .ok a t →
    t.module.globals = s.module.globals ∧ ∃ t', y P.env' s' = .ok a t' ∧ Matched P t t'

section Follows

variable {α β : Type} {x y : Build α} {k k' : α → Build β}

theorem Follows.pure {a : α} : Follows P (pure a) (pure a) := by
  intro s s' b t hs hrun
  obtain ⟨rfl, rfl⟩ := pure_ok hrun
  exact ⟨rfl, s', rfl, hs⟩

theorem Follows.bind (hx : Follows P x y) (hk : ∀ a, Follows P (k a) (k' a)) :
    Follows P (x >>= k) (y >>= k') := by
  intro s s' b t hs hrun
  obtain ⟨a, s1, hrun1, hrun2⟩ := bind_ok hrun
  obtain ⟨hglobals1, s1', hrun1', hs1⟩ := hx hs hrun1
  obtain ⟨hglobals2, t', hrun2', ht⟩ := hk a hs1 hrun2
  exact ⟨hglobals2.trans hglobals1, t', (bind_of_ok hrun1').trans hrun2', ht⟩

theorem Follows.program {k k' : Program → Build β}
    (h : Follows P (k P.env.program) (k' P.env'.program)) :
    Follows P (getProgram >>= k) (getProgram >>= k') := h

theorem Follows.ofEven {x y : Build α} (h : Even P.names P.env P.env' x y) : Follows P x y := by
  intro s s' a t hs hrun
  obtain ⟨o, hx, hy⟩ := h
  obtain ⟨rfl, layouts, hl, rfl⟩ := hx.ok hs.left hrun
  obtain ⟨b, layouts', heq, hl', hrun'⟩ | ⟨hnone, -⟩ := hy hs.right
  · obtain rfl := Option.some.inj heq
    refine ⟨rfl, _, hrun', hl, hl', ?_⟩
    rw [hs.rest]
  · cases hnone

/-- A change that has nothing to do with the kept layouts. -/
theorem Follows.modify {g : State → State}
    (hg : ∀ s layouts, g { s with arrayLayouts := layouts } = { g s with arrayLayouts := layouts })
    (hkeep : ∀ s, (g s).arrayLayouts = s.arrayLayouts)
    (hglobals : ∀ s, (g s).module.globals = s.module.globals) :
    Follows P (modify g : Build Unit) (modify g) := by
  intro s s' a t hs hrun
  rw [modify_ok hrun]
  refine ⟨hglobals s, _, rfl, ?_, ?_, ?_⟩
  · rw [hkeep]
    exact hs.left
  · rw [hkeep]
    exact hs.right
  · rw [hkeep s', ← hg, ← hs.rest]

end Follows

theorem follows_setFields (t : Ty) (fields : List Ty) :
    Follows P (setFields t fields) (setFields t fields) := by
  cases t with
  | defined i name => exact .modify (fun _ _ => rfl) (fun _ => rfl) fun _ => rfl
  | _ => exact .pure

theorem follows_fillStructs {i : Nat} {ds : List StructDef}
    (hds : ∀ d ∈ ds, ∀ m ∈ d.members, Written P.names m.type) :
    Follows P (fillStructs i ds) (fillStructs i ds) := by
  induction ds generalizing i with
  | nil => exact .pure
  | cons d ds ih =>
    obtain ⟨hd, hds⟩ := List.forall_mem_cons.mp hds
    refine .program (.bind (.ofEven (.mapM fun m hm => even_lowerType (hd m hm))) fun fields => ?_)
    exact (follows_setFields _ _).bind fun _ => (follows_setFields _ _).bind fun _ => ih hds

theorem even_entryParams {receiver i : Nat} {ts : List (Option Reference)}
    (hts : ∀ t ∈ ts, Written P.names t) :
    Even P.names P.env P.env' (entryParams receiver i ts) (entryParams receiver i ts) := by
  induction ts generalizing i with
  | nil => exact .pure
  | cons t ts ih =>
    obtain ⟨ht, hts⟩ := List.forall_mem_cons.mp hts
    unfold entryParams
    refine .ite (.bind .pure fun _ => ?_) ((even_lowerType ht).bind fun _ => ?_)
    · exact (ih hts).bind fun _ => .pure
    · exact (ih hts).bind fun _ => .pure

theorem even_entryType {d : InterfaceDef} {m : Prototype} (hm : ∀ t ∈ m.types, Written P.names t) :
    Even P.names P.env P.env' (entryType d m) (entryType d m) := by
  obtain ⟨hresult, hparams⟩ := List.forall_mem_cons.mp hm
  refine (even_receiverIndex d m).bind fun i => (even_entryParams hparams).bind fun _ => ?_
  exact (even_lowerType hresult).bind fun _ => .pure

theorem follows_fillInterfaces {i : Nat} {ds : List InterfaceDef}
    (hds : ∀ d ∈ ds, ∀ m ∈ d.methods, ∀ t ∈ m.types, Written P.names t) :
    Follows P (fillInterfaces i ds) (fillInterfaces i ds) := by
  induction ds generalizing i with
  | nil => exact .pure
  | cons d ds ih =>
    obtain ⟨hd, hds⟩ := List.forall_mem_cons.mp hds
    refine .bind (.ofEven (.mapM fun m hm => ?_)) fun entries => ?_
    · exact (even_entryType (hd m hm)).bind fun _ => .pure
    · exact .program ((follows_setFields _ _).bind fun _ => ih hds)

theorem follows_declareTypes : Follows P declareTypes declareTypes := by
  refine .program (.bind (.modify (fun _ _ => rfl) (fun _ => rfl) fun _ => rfl) fun _ => ?_)
  refine (follows_fillStructs fun d hd => ?_).bind fun _ => follows_fillInterfaces fun d hd => ?_
  · exact P.written.members d (Array.mem_toList_iff.mp hd)
  · exact P.written.methods d (Array.mem_toList_iff.mp hd)

/-! ## Signatures -/

/-- The type of the values of a reference that must be there. -/
def valueType? (p : Program) (t : Option Reference) : Option Ty :=
  t.bind fun r => typeOf? p r.location r.referend

/-- The parameters from a position on, with their types. -/
def paramsOf? (p : Program) : Nat → List (Option Reference) → Option (List (String × Ty))
  | _, [] => some []
  | i, t :: ts => (valueType? p t).bind fun ty =>
      (paramsOf? p (i + 1) ts).bind fun rest => some (("arg" ++ toString i, ty) :: rest)

/-- What a function is declared as. -/
def declaration? (p : Program) (q : Prototype) (linked : Bool) : Option Func :=
  (paramsOf? p 0 q.params).bind fun params => (valueType? p q.result).bind fun result =>
    some { name := q.name, result, params, linked }

theorem name_of_declaration? {p : Program} {q : Prototype} {linked : Bool} {g : Func}
    (h : declaration? p q linked = some g) : g.name = q.name := by
  simp only [declaration?, Option.bind_eq_some_iff, Option.some.injEq] at h
  obtain ⟨_, -, _, -, rfl⟩ := h
  rfl

section Signatures

variable {names : Tenure.Declared} {env : Env}

theorem reckons_lowerType {t : Option Reference} (ht : Written names t) :
    Reckons names env (lowerType t) (valueType? env.program t) :=
  Reckons.require.bind fun r hr => reckons_lowerReferend (ht r hr)

theorem reckons_lowerParams {i : Nat} {ts : List (Option Reference)}
    (hts : ∀ t ∈ ts, Written names t) :
    Reckons names env (lowerParams i ts) (paramsOf? env.program i ts) := by
  induction ts generalizing i with
  | nil => exact .pure
  | cons t ts ih =>
    obtain ⟨ht, hts⟩ := List.forall_mem_cons.mp hts
    exact (reckons_lowerType ht).bind fun _ _ => (ih hts).bind fun _ _ => .pure

/-- Functions and edges do not matter to signatures. -/
theorem paramsOf?_withFunctions (p : Program) (functions : Array Function)
    (edges : List ResolvedEdge) (i : Nat) (ts : List (Option Reference)) :
    paramsOf? { p with functions, edges } i ts = paramsOf? p i ts := by
  induction ts generalizing i with
  | nil => rfl
  | cons t ts ih => simp only [paramsOf?, ih, valueType?, typeOf?_withFunctions]

theorem declaration?_withFunctions (p : Program) (functions : Array Function)
    (edges : List ResolvedEdge) (q : Prototype) (linked : Bool) :
    declaration? { p with functions, edges } q linked = declaration? p q linked := by
  simp only [declaration?, paramsOf?_withFunctions, valueType?, typeOf?_withFunctions]

/-! ## Functions -/

/-- Adds a function for an index. -/
def noteFunc (id : Int) (g : Func) : Build Unit := do
  let position ← addFunc g
  let i ← ownIndex id (← get).funcs.size
  modify fun s => { s with funcs := s.funcs.set! i (some position) }

theorem noteFunc_eq {id : Int} {g : Func} (hid : 0 ≤ id ∧ id < s.funcs.size) :
    noteFunc id g env s = .ok () { s with
      module := { s.module with funcs := s.module.funcs.push g }
      funcs := s.funcs.set! id.toNat (some s.module.funcs.size) } := by
  have hown : ∀ t : State, t.funcs = s.funcs →
      ownIndex id t.funcs.size env t = .ok id.toNat t := fun t ht => by
    rw [ht, ownIndex, if_pos hid]
    rfl
  let added : State := { s with module := { s.module with funcs := s.module.funcs.push g } }
  have hadd : addFunc g env s = .ok s.module.funcs.size added := rfl
  have hget : (get : Build State) env added = .ok added added := rfl
  exact (bind_of_ok hadd).trans ((bind_of_ok hget).trans (bind_of_ok (hown added rfl)))

/-- A function is declared as its signature says, or not at all. -/
theorem declareFunc_cases {q : Prototype} {linked : Bool} (hq : ∀ t ∈ q.types, Written names t)
    (hid : 0 ≤ q.id ∧ q.id < s.funcs.size) (hs : Faithful names env.program s.arrayLayouts) :
    (∃ g layouts, declaration? env.program q linked = some g ∧
      Faithful names env.program layouts ∧ declareFunc q linked env s = .ok () { s with
        arrayLayouts := layouts
        module := { s.module with funcs := s.module.funcs.push g }
        funcs := s.funcs.set! q.id.toNat (some s.module.funcs.size) }) ∨
    declaration? env.program q linked = none ∧ ∃ e t, declareFunc q linked env s = .error e t := by
  obtain ⟨hresult, hparams⟩ := List.forall_mem_cons.mp hq
  have hsignature : Reckons names env (do
      let params ← lowerParams 0 q.params
      let result ← lowerType q.result
      return ({ name := q.name, result, params, linked } : Func))
        (declaration? env.program q linked) :=
    (reckons_lowerParams hparams).bind fun _ _ => (reckons_lowerType hresult).bind fun _ _ => .pure
  have heq : declareFunc q linked = (do
      let params ← lowerParams 0 q.params
      let result ← lowerType q.result
      return ({ name := q.name, result, params, linked } : Func)) >>= noteFunc q.id := by
    simp only [declareFunc, noteFunc, bind_assoc, pure_bind]
  rw [heq]
  obtain ⟨g, layouts, hg, hl, hrun⟩ | ⟨hnone, e, t, hrun⟩ := hsignature hs
  · refine .inl ⟨g, layouts, hg, hl, ?_⟩
    exact (bind_of_ok hrun).trans (noteFunc_eq (s := { s with arrayLayouts := layouts }) hid)
  · refine .inr ⟨hnone, e, t, ?_⟩
    change EStateM.bind _ _ s = .error e t
    rw [EStateM.bind, hrun]

/-- Functions are declared as their signatures say, in their order, or not all of them. -/
theorem declareAll_cases (env : Env) {ds : List (Prototype × Bool)}
    (hds : ∀ d ∈ ds, ∀ t ∈ d.1.types, Written names t)
    (hids : ∀ d ∈ ds, 0 ≤ d.1.id ∧ d.1.id < s.funcs.size)
    (hs : Faithful names env.program s.arrayLayouts) :
    (∃ (gs : List Func) (layouts : List (String × Ty)),
      ds.map (fun d => declaration? env.program d.1 d.2) = gs.map some ∧
      Faithful names env.program layouts ∧ declareAll ds env s = .ok () { s with
        arrayLayouts := layouts
        module := { s.module with funcs := s.module.funcs ++ gs.toArray }
        funcs := notePlaces s.funcs s.module.funcs.size (ds.map (·.1.id)) }) ∨
    (∃ d ∈ ds, declaration? env.program d.1 d.2 = none) ∧ ∃ e t, declareAll ds env s =
      .error e t := by
  induction ds generalizing s with
  | nil => exact .inl ⟨[], s.arrayLayouts, rfl, hs, by simp [declareAll, notePlaces]; rfl⟩
  | cons d ds ih =>
    obtain ⟨hd, hds⟩ := List.forall_mem_cons.mp hds
    obtain ⟨hid, hids⟩ := List.forall_mem_cons.mp hids
    rw [declareAll]
    obtain ⟨g, layouts, hg, hl, hrun⟩ | ⟨hnone, e, t, hrun⟩ := declareFunc_cases hd hid hs
    · rw [bind_of_ok hrun]
      obtain ⟨gs, layouts', hgs, hl', hrest⟩ | ⟨⟨d', hd', hnone⟩, hrest⟩ := ih (s := { s with
        arrayLayouts := layouts
        module := { s.module with funcs := s.module.funcs.push g }
        funcs := s.funcs.set! d.1.id.toNat (some s.module.funcs.size) })
          hds (by simpa using hids) hl
      · refine .inl ⟨g :: gs, layouts', by rw [List.map_cons, hg, hgs]; rfl, hl', ?_⟩
        rw [hrest]
        simp [notePlaces]
      · exact .inr ⟨⟨d', List.mem_cons_of_mem _ hd', hnone⟩, hrest⟩
    · refine .inr ⟨⟨d, List.mem_cons_self, hnone⟩, e, t, ?_⟩
      change EStateM.bind _ _ s = .error e t
      rw [EStateM.bind, hrun]

end Signatures

/-! ## Two programs -/

namespace ProgramPair

variable (P)

theorem size_eq : P.functions.size = P.env.program.functions.size := by
  simpa using P.reordered.perm.length_eq.symm

variable {k : Nat} {f : Function} {d : Prototype × Bool}

theorem order_lt : P.order k < P.functions.size ↔ k < P.env.program.functions.size := by
  have hiff := P.reordered.lt_iff (k := k)
  rwa [Array.length_toList, List.length_map, Array.length_toList] at hiff

/-- The functions of the second program are numbered in their own order. -/
theorem functions_numbered (hf : P.functions[k]? = some f) : f.proto.id = k := by
  have hmoved := P.reordered (P.order.symm k)
  rw [Equiv.apply_symm_apply, List.getElem?_map, Array.getElem?_toList, Array.getElem?_toList,
    hf] at hmoved
  obtain ⟨f0, hf0, rfl⟩ := Option.map_eq_some_iff.mp hmoved.symm
  simp only [Reordering.functionDef, P.numbered.functions _ f0 hf0, newIndex_natCast]
  exact congrArg Int.ofNat (P.order.apply_symm_apply k)

theorem place_of_le {i : Nat} (h : runtimeCount + P.env.program.functions.size ≤ i) :
    P.place i = i := by
  obtain ⟨k, rfl⟩ := Nat.exists_eq_add_of_le (Nat.le_trans (Nat.le_add_right _ _) h)
  rw [place, behind_add, P.fixes k (by omega)]

/-- The functions of the second program are those of the first, at new places. -/
theorem exists_functionDef (hf : f ∈ P.functions) :
    ∃ f0 ∈ P.env.program.functions, f = (functionOrder P.order).functionDef f0 := by
  have hmem := P.reordered.perm.mem_iff.mpr (Array.mem_toList_iff.mpr hf)
  obtain ⟨f0, hf0, rfl⟩ := List.mem_map.mp hmem
  exact ⟨f0, Array.mem_toList_iff.mp hf0, rfl⟩

theorem ids_eq : (declarations P.env'.program).map (·.1.id) =
    (declarations P.env.program).map (·.1.id) := by
  have hids : P.functions.toList.map (·.proto.id) =
      P.env.program.functions.toList.map (·.proto.id) := by
    refine List.ext_getElem (by simp [P.size_eq]) fun k hk hk' => ?_
    rw [List.getElem_map, List.getElem_map]
    rw [List.length_map, Array.length_toList] at hk hk'
    exact (P.functions_numbered (Array.getElem?_eq_getElem hk)).trans
      (P.numbered.functions k _ (Array.getElem?_eq_getElem hk')).symm
  simp only [declarations, List.map_append, List.map_map, Function.comp_def]
  rw [show P.env'.program.functions = P.functions from rfl,
    show P.env'.program.natives = P.env.program.natives from rfl, hids]

theorem mem_declarations (hd : d ∈ declarations P.env.program) :
    (∀ t ∈ d.1.types, Written P.names t) ∧ 0 ≤ d.1.id ∧
      d.1.id < (P.env.program.functions.size + P.env.program.natives.size : Nat) := by
  obtain hd | hd := List.mem_append.mp hd
  · obtain ⟨f, hf, rfl⟩ := List.mem_map.mp hd
    obtain ⟨k, hk⟩ := List.getElem?_of_mem hf
    rw [Array.getElem?_toList] at hk
    have hlt := (Array.getElem?_eq_some_iff.mp hk).1
    refine ⟨P.written.functions f (Array.mem_of_getElem? hk), ?_⟩
    rw [P.numbered.functions k f hk]
    omega
  · obtain ⟨n, hn, rfl⟩ := List.mem_map.mp hd
    obtain ⟨k, hk⟩ := List.getElem?_of_mem (List.mem_filter.mp hn).1
    rw [Array.getElem?_toList] at hk
    have hlt := (Array.getElem?_eq_some_iff.mp hk).1
    refine ⟨P.written.natives n (Array.mem_of_getElem? hk), ?_⟩
    rw [P.numbered.natives k n hk]
    omega

theorem mem_declarations' (hd : d ∈ declarations P.env'.program) :
    (∀ t ∈ d.1.types, Written P.names t) ∧ 0 ≤ d.1.id ∧
      d.1.id < (P.env.program.functions.size + P.env.program.natives.size : Nat) := by
  refine ⟨?_, ?_⟩
  · obtain hd | hd := List.mem_append.mp hd
    · obtain ⟨f, hf, rfl⟩ := List.mem_map.mp hd
      obtain ⟨f0, hf0, rfl⟩ := P.exists_functionDef (Array.mem_toList_iff.mp hf)
      exact P.written.functions f0 hf0
    · obtain ⟨n, hn, rfl⟩ := List.mem_map.mp hd
      exact P.written.natives n (Array.mem_toList_iff.mp (List.mem_filter.mp hn).1)
  · have hid : d.1.id ∈ (declarations P.env'.program).map (·.1.id) := List.mem_map_of_mem hd
    rw [P.ids_eq] at hid
    obtain ⟨d0, hd0, heq⟩ := List.mem_map.mp hid
    rw [← heq]
    exact (P.mem_declarations hd0).2

/-- What the natives of a program are declared as. -/
def nativeDecls (P : ProgramPair) : List (Option Func) :=
  ((P.env.program.natives.toList.filter fun n => (Builtin.ofName? n.name).isNone).map
    fun n => (n, true)).map fun d => declaration? P.env.program d.1 d.2

theorem map_declarations : (declarations P.env.program).map
      (fun d => declaration? P.env.program d.1 d.2) =
    P.env.program.functions.toList.map (fun f => declaration? P.env.program f.proto false) ++
      P.nativeDecls := by
  rw [declarations, List.map_append, List.map_map]
  rfl

theorem map_declarations' : (declarations P.env'.program).map
      (fun d => declaration? P.env'.program d.1 d.2) =
    P.functions.toList.map (fun f => declaration? P.env.program f.proto false) ++
      P.nativeDecls := by
  have hdecl : (fun d : Prototype × Bool => declaration? P.env'.program d.1 d.2) =
      fun d => declaration? P.env.program d.1 d.2 := by
    funext d
    exact declaration?_withFunctions _ _ _ _ _
  rw [hdecl, declarations, List.map_append, List.map_map]
  rfl

/-- The functions are declared as before, at their new places. -/
theorem carries_declarations : Carries P.order
    (P.env.program.functions.toList.map fun f => declaration? P.env.program f.proto false)
    (P.functions.toList.map fun f => declaration? P.env.program f.proto false) := by
  have hcarries := P.reordered.map fun f => declaration? P.env.program f.proto false
  rw [List.map_map] at hcarries
  exact hcarries

theorem perm_declarations :
    ((declarations P.env.program).map fun d => declaration? P.env.program d.1 d.2).Perm
      ((declarations P.env'.program).map fun d => declaration? P.env'.program d.1 d.2) := by
  rw [P.map_declarations, P.map_declarations']
  exact P.carries_declarations.perm.append_right _

/-- What the runs declare: functions, which are at new places, and externs, which are not. -/
theorem exists_declared {all all' : List Func}
    (hall : (declarations P.env.program).map (fun d => declaration? P.env.program d.1 d.2) =
      all.map some)
    (hall' : (declarations P.env'.program).map (fun d => declaration? P.env'.program d.1 d.2) =
      all'.map some) :
    ∃ gs gs' ns : List Func, all = gs ++ ns ∧ all' = gs' ++ ns ∧
      gs.length = P.env.program.functions.size ∧ Carries P.order gs gs' ∧
      ∀ (k : Nat) (fn : Function), P.env.program.functions[k]? = some fn →
        ∃ g, gs[k]? = some g ∧ g.name = fn.proto.name := by
  rw [P.map_declarations] at hall
  rw [P.map_declarations'] at hall'
  obtain ⟨gs, ns, rfl, hgs, hns⟩ := List.append_eq_map_iff.mp hall
  obtain ⟨gs', ns', rfl, hgs', hns'⟩ := List.append_eq_map_iff.mp hall'
  obtain rfl : ns = ns' :=
    List.map_injective_iff.mpr (Option.some_injective _) (hns.trans hns'.symm)
  have hcarries := P.carries_declarations
  rw [← hgs, ← hgs'] at hcarries
  refine ⟨gs, gs', ns, rfl, rfl, ?_, hcarries.of_map (Option.some_injective _), fun k fn hfn => ?_⟩
  · simpa using congrArg List.length hgs
  · have hdecl := congrArg (·[k]?) hgs
    simp only [List.getElem?_map, Array.getElem?_toList, hfn, Option.map_some,
      Option.map_eq_some_iff] at hdecl
    obtain ⟨g, hg, hdecl⟩ := hdecl
    exact ⟨g, hg, name_of_declaration? hdecl.symm⟩

end ProgramPair

/-- Two runs that have added their functions in different orders, and no globals yet. -/
structure Aligned (P : ProgramPair) (s s' : State) : Prop where
  left : Faithful P.names P.env.program s.arrayLayouts
  right : Faithful P.names P.env'.program s'.arrayLayouts
  types : s'.module.types = s.module.types
  lookup : s'.funcs = s.funcs
  dropFuncs : s'.dropFuncs = s.dropFuncs
  funcs : Carries P.place s.module.funcs.toList s'.module.funcs.toList
  places : ∀ k, s.funcs[P.order k]? = s.funcs[k]?.map (·.map P.place)
  globals : s.module.globals = #[] ∧ s'.module.globals = #[]
  itables : s.itables = #[] ∧ s'.itables = #[]
  literals : s.literals = [] ∧ s'.literals = []

/-- A place that is looked up for a function, or for an extern, moves with the functions. -/
theorem notePlaces_moved {k : Nat} (hplaces : ∀ k < P.env.program.functions.size,
      s.funcs[k]? = some (some (runtimeCount + k)))
    (hfuncs : s.funcs = notePlaces
      (Array.replicate (P.env.program.functions.size + P.env.program.natives.size) none)
        runtimeCount
      ((declarations P.env.program).map (·.1.id))) :
    s.funcs[P.order k]? = s.funcs[k]?.map (·.map P.place) := by
  by_cases hk : k < P.env.program.functions.size
  · rw [hplaces k hk, hplaces _ (P.size_eq ▸ P.order_lt.mpr hk), ProgramPair.place, Option.map_some,
      Option.map_some,
      behind_add]
  · rw [P.fixes k (by omega)]
    have hbehind : s.funcs[k]? = none ∨ s.funcs[k]? = some none ∨
        ∃ pos, runtimeCount + P.env.program.functions.size ≤ pos ∧ s.funcs[k]? =
          some (some pos) := by
      have hids : ∀ id ∈ (P.env.program.functions.toList.map fun f => (f.proto, false)).map
        (·.1.id),
          id.toNat ≠ k := by
        rw [functionIds_eq P.numbered]
        intro id hid
        obtain ⟨j, hj, rfl⟩ := List.mem_map.mp hid
        rw [List.mem_range] at hj
        simp only [Int.ofNat_eq_natCast, Int.toNat_natCast]
        omega
      rw [hfuncs, declarations, List.map_append, notePlaces_append]
      obtain heq | ⟨pos, hpos, heq⟩ := getElem?_notePlaces (k := k) _
      · rw [heq, getElem?_notePlaces_of_ne hids, Array.getElem?_replicate]
        split
        · exact .inr (.inl rfl)
        · exact .inl rfl
      · refine .inr (.inr ⟨pos, ?_, heq⟩)
        simpa using hpos
    obtain heq | heq | ⟨pos, hpos, heq⟩ := hbehind
    · rw [heq]
      rfl
    · rw [heq]
      rfl
    · rw [heq, Option.map_some, Option.map_some, P.place_of_le hpos]

/-- Both runs declare the functions, each in its order. -/
theorem Matched.declareFuncs (h : Matched P s s') (hfresh : Fresh s)
    (hsize : s.module.funcs.size = runtimeCount) (hglobals : s.module.globals = #[])
    (hrun : declareFuncs P.env s = .ok u t) :
    ∃ t', Lowering.declareFuncs P.env' s' = .ok () t' ∧ Aligned P t t' ∧
      ∀ k fn, P.env.program.functions[k]? = some fn →
        ∃ g, t.module.funcs[runtimeCount + k]? = some g ∧ g.name = fn.proto.name := by
  have hdeclared := declareFuncs_ok P.numbered hfresh hrun
  rw [hsize] at hdeclared
  obtain ⟨kept, rfl⟩ : ∃ kept, s' = { s with arrayLayouts := kept } := ⟨_, h.rest⟩
  have hcount : P.env'.program.functions.size = P.env.program.functions.size := P.size_eq
  rw [declareFuncs_eq] at hrun
  rw [declareFuncs_eq, hcount]
  let count := P.env.program.functions.size + P.env.program.natives.size
  obtain ⟨all, layouts, hall, hlayouts, hrun1⟩ | ⟨-, e, t1, hrun1⟩ := declareAll_cases P.env
    (s := { s with funcs := Array.replicate count none }) (fun d hd => (P.mem_declarations hd).1)
    (fun d hd => by simpa [count] using (P.mem_declarations hd).2) h.left
  · rw [hrun1] at hrun
    cases hrun
    obtain ⟨all', layouts', hall', hlayouts', hrun2⟩ | ⟨⟨d, hd, hnone⟩, -⟩ :=
      declareAll_cases P.env'
        (s := { s with arrayLayouts := kept, funcs := Array.replicate count none })
        (fun d hd => (P.mem_declarations' hd).1)
        (fun d hd => by simpa [count] using (P.mem_declarations' hd).2) h.right
    · obtain ⟨gs, gs', ns, rfl, rfl, hlength, hcarries, hnamed⟩ := P.exists_declared hall hall'
      refine ⟨_, hrun2, ⟨hlayouts, hlayouts', rfl, ?_, rfl, ?_, fun k => ?_, ⟨hglobals, hglobals⟩,
        ⟨hfresh.itables, hfresh.itables⟩, hfresh.literals, hfresh.literals⟩, fun k fn hfn => ?_⟩
      · rw [P.ids_eq]
      · have hplace := (hcarries.append (fun k hk => P.fixes k (hlength ▸ hk)) ns).behind
          s.module.funcs.toList
        rw [Array.length_toList, hsize] at hplace
        simpa [ProgramPair.place] using hplace
      · exact notePlaces_moved hdeclared.places (by rw [hsize])
      · obtain ⟨g, hg, hname⟩ := hnamed k fn hfn
        refine ⟨g, ?_, hname⟩
        have hlt := (List.getElem?_eq_some_iff.mp hg).1
        show (s.module.funcs ++ (gs ++ ns).toArray)[runtimeCount + k]? = some g
        rw [← hsize, Array.getElem?_append_right (Nat.le_add_right _ _), Nat.add_sub_cancel_left,
          List.getElem?_toArray, List.getElem?_append_left hlt, hg]
    · have hmem := List.mem_map_of_mem (f := fun d => declaration? P.env'.program d.1 d.2) hd
      rw [hnone, P.perm_declarations.symm.mem_iff, hall] at hmem
      simp at hmem
  · rw [hrun1] at hrun
    cases hrun

/-! ## Drop functions -/

/-- Both runs add the drop functions behind all others. -/
theorem Aligned.addDrops (h : Aligned P s s')
    (hsize : runtimeCount + P.env.program.functions.size ≤ s.module.funcs.size)
    (ds : List StructDef) : Aligned P (withDrops ds s) (withDrops ds s') := by
  refine { h with dropFuncs := ?_, funcs := ?_ }
  · have hlength : s.module.funcs.size = s'.module.funcs.size := h.funcs.perm.length_eq
    rw [withDrops, withDrops, h.dropFuncs, hlength]
  · have happend := h.funcs.append (fun k hk => P.place_of_le (Nat.le_trans hsize hk))
      (ds.map dropDecl)
    simpa [withDrops] using happend

/-- The course that two runs take from here on. -/
def Aligned.course (h : Aligned P s s') (plan : Plan) (known : Nat → Prop)
    (hdrops : ∀ d ∈ plan.drops, known d ∧ P.place d = d) (hruntime : ∀ i < runtimeCount, known i)
    (hitables : ∀ i ∈ plan.itables, i < plan.tables) : Course where
  toProgramPair := P
  plan := plan
  left := ⟨fun i => s.module.funcs[i]?.map headOf, s.funcs⟩
  right := ⟨fun i => s'.module.funcs[i]?.map headOf, s'.funcs⟩
  known := known
  heads i := by
    have hi := h.funcs i
    rw [Array.getElem?_toList, Array.getElem?_toList] at hi
    dsimp only
    rw [hi]
  funcs k := by rw [h.lookup, h.places]
  drops := hdrops
  runtime := hruntime
  itables := hitables

end Tenure.Lowering

import Tenure.Proofs.ReadPrograms

/-!
# Loaded programs never trip over names

Lowering checks every name and every index that it looks up.  In a program that was
loaded all of them are there, so none of these checks ever fails, whatever else may be
wrong with the program: `toModule_spares_names`.
-/

namespace Tenure.Lowering

open Ir (Ty Operand)

variable {α β : Type} {env : Env} {c : Concern} {H : Prop} {s s' : State} {v : Violation}
variable {k : α → Build β} {e : ResolvedEdge}

/-- A violation of a concern that a part spares comes from what follows the part. -/
theorem Spares.past {x : Build α} [Spares env .names H x] (hH : H) (hv : v.concern? = some .names)
    (h : (x >>= k) env s = .error (.violation v) s') :
    ∃ a s1, x env s = .ok a s1 ∧ k a env s1 = .error (.violation v) s' := by
  rcases bind_error h with h | h
  · exact absurd hv (Spares.concern_ne (fun _ => hH) h)
  · exact h

theorem past_require {x : Option α} (hv : v.concern? = some .names)
    (h : (require x >>= k) env s = .error (.violation v) s') :
    ∃ a, x = some a ∧ k a env s = .error (.violation v) s' := by
  obtain ⟨a, _, h1, h⟩ := Spares.past trivial hv h
  obtain ⟨ha, rfl⟩ := require_ok h1
  exact ⟨a, ha, h⟩

/-- A fault of a loop is that of one of its turns, before which all others have kept what
every turn keeps. -/
theorem forIn_error {γ : Type} {xs : List γ} {body : γ → Build (ForInStep PUnit)} {e : Fault}
    (P : State → Prop) (hstep : ∀ x s r s', P s → body x env s = .ok r s' → P s')
    (hP : P s) (h : forIn xs PUnit.unit (fun x _ => body x) env s = .error e s') :
    ∃ x ∈ xs, ∃ s1, P s1 ∧ body x env s1 = .error e s' := by
  induction xs generalizing s with
  | nil =>
    rw [List.forIn_nil] at h
    cases h
  | cons x xs ih =>
    rw [List.forIn_cons] at h
    rcases bind_error h with h | ⟨r, s1, h1, h⟩
    · exact ⟨x, by simp, s, hP, h⟩
    · cases r with
      | done u => cases h
      | yield u =>
        obtain ⟨y, hy, s2, hP2, h⟩ := ih (hstep x s _ s1 hP h1) h
        exact ⟨y, by simp [hy], s2, hP2, h⟩

/-! ## Declarations -/

instance : Spares env c H declareRuntime := by
  have : Spares env c H (forIn RuntimeFunc.all PUnit.unit fun f _ => do
      let _ ← addFunc f.declaration
      pure (ForInStep.yield PUnit.unit)) := inferInstance
  unfold declareRuntime
  infer_instance

instance {t : Ty} {fields : List Ty} : Spares env c H (setFields t fields) := by
  unfold setFields
  split <;> infer_instance

section Types

variable {i : Nat} {d : StructDef} {ds : List StructDef} {m : Prototype}

instance [h : Granted H (∀ d ∈ ds, ∀ m ∈ d.members, TypeInScope env.program m.type)] :
    Spares env c H (fillStructs i ds) := by
  induction ds generalizing i h with
  | nil =>
    unfold fillStructs
    infer_instance
  | cons d ds ih =>
    obtain ⟨hd, _⟩ := h.uncons
    have : Spares env c H (d.members.mapM fun m => lowerType m.type) := .mapM fun m hm =>
      have := hd.of_mem hm
      inferInstance
    unfold fillStructs
    infer_instance

instance {ds : List InterfaceDef}
    [h : Granted H (∀ d ∈ ds, ∀ m ∈ d.methods, ∀ t ∈ m.types, TypeInScope env.program t)] :
    Spares env c H (fillInterfaces i ds) := by
  induction ds generalizing i h with
  | nil =>
    unfold fillInterfaces
    infer_instance
  | cons d ds ih =>
    obtain ⟨hd, _⟩ := h.uncons
    have : Spares env c H (d.methods.mapM fun m => return Ty.ptr (← entryType d m)) :=
      .mapM fun m hm =>
        have := hd.of_mem hm
        inferInstance
    unfold fillInterfaces
    infer_instance

instance {ts : List (Option Reference)} [h : Granted H (∀ t ∈ ts, TypeInScope env.program t)] :
    Spares env c H (lowerParams i ts) := by
  induction ts generalizing i h with
  | nil =>
    unfold lowerParams
    infer_instance
  | cons t ts ih =>
    obtain ⟨_, _⟩ := h.uncons
    unfold lowerParams
    infer_instance

instance {linked : Bool} [h : Granted H (∀ t ∈ m.types, TypeInScope env.program t)] :
    Spares env c H (declareFunc m linked) := by
  obtain ⟨_, _⟩ := h.uncons
  unfold declareFunc
  infer_instance

section Whole

variable [hp : Granted H env.program.TypesInScope]

instance : Spares env c H declareTypes := by
  have : Granted H (∀ d ∈ env.program.structs.toList, _) :=
    ⟨fun hH d hd => (hp.grant hH).members d (by simpa using hd)⟩
  have : Granted H (∀ d ∈ env.program.interfaces.toList, _) :=
    ⟨fun hH d hd => (hp.grant hH).methods d (by simpa using hd)⟩
  unfold declareTypes
  exact .program inferInstance

instance : Spares env c H declareFuncs := by
  unfold declareFuncs
  refine .program (.bindOf fun _ _ _ _ => ?_)
  have : Spares env c H (forIn env.program.functions PUnit.unit fun f _ => do
      declareFunc f.proto false
      pure (ForInStep.yield PUnit.unit)) := by
    rw [← Array.forIn_toList]
    refine .forIn fun f hf _ => ?_
    have : Granted H (∀ t ∈ f.proto.types, TypeInScope env.program t) :=
      ⟨fun hH => (hp.grant hH).functions f (by simpa using hf)⟩
    infer_instance
  have : Spares env c H (forIn env.program.natives PUnit.unit fun n _ => do
      if (Builtin.ofName? n.name).isNone then declareFunc n true
      pure (ForInStep.yield PUnit.unit)) := by
    rw [← Array.forIn_toList]
    refine .forIn fun n hn _ => ?_
    have : Granted H (∀ t ∈ n.types, TypeInScope env.program t) :=
      ⟨fun hH => (hp.grant hH).natives n (by simpa using hn)⟩
    infer_instance
  infer_instance

/-! ## Drop functions -/

instance {layout : Ty} {object : Operand} {ms : List StructMember}
    [h : Granted H (∀ m ∈ ms, TypeInScope env.program m.type)] :
    Spares env c H (buildDropFunc.members layout object i ms) := by
  induction ms generalizing i H hp h with
  | nil =>
    unfold buildDropFunc.members
    infer_instance
  | cons m ms ih =>
    obtain ⟨_, _⟩ := h.uncons
    unfold buildDropFunc.members
    infer_instance

instance {func : Nat} [Granted H (∀ m ∈ d.members, TypeInScope env.program m.type)] :
    Spares env c H (buildDropFunc i d func) := by
  unfold buildDropFunc
  infer_instance

instance [h : Granted H (∀ d ∈ ds, ∀ m ∈ d.members, TypeInScope env.program m.type)] :
    Spares env c H (buildDropFuncs.fill i ds) := by
  induction ds generalizing i h with
  | nil =>
    unfold buildDropFuncs.fill
    infer_instance
  | cons d ds ih =>
    obtain ⟨_, _⟩ := h.uncons
    unfold buildDropFuncs.fill
    infer_instance

instance : Spares env c H buildDropFuncs := by
  have : Granted H (∀ d ∈ env.program.structs.toList, _) :=
    ⟨fun hH d hd => (hp.grant hH).members d (by simpa using hd)⟩
  have : Spares env c H (forIn env.program.structs PUnit.unit fun d _ => do
      let i ← addFunc { name := "__drop_" ++ d.name, result := .void, params := [("obj", .i8Ptr)],
                        nounwinds := 1 }
      modify fun s => { s with dropFuncs := s.dropFuncs.push i }
      pure (ForInStep.yield PUnit.unit)) := by
    rw [← Array.forIn_toList]
    infer_instance
  unfold buildDropFuncs
  exact .program inferInstance

end Whole

end Types

/-! ## Method tables -/

/-- All functions of the program have been declared. -/
def FuncsListed (env : Env) (s : State) : Prop :=
  ∀ k < env.program.functions.size, ∃ position, s.funcs[k]? = some (some position)

/-- Declared functions can implement methods. -/
theorem tableEntries_error (hnumbered : env.program.Numbered) {fields : List Ty} {fs : List Nat}
    {j : Nat} {ms : List Prototype} (hs : FuncsListed env s)
    (h : tableEntries fields fs j ms env s = .error (.violation v) s') :
    v.concern? ≠ some .names := by
  intro hv
  induction ms generalizing j s with
  | nil => cases h
  | cons m ms ih =>
    replace h := getProgram_then h
    obtain ⟨k, -, h⟩ := past_require hv h
    obtain ⟨f, hf, h⟩ := past_require hv h
    replace h := get_then h
    obtain ⟨i, _, h1, h⟩ := Spares.past trivial hv h
    rw [hnumbered.functions k f hf] at h1
    obtain ⟨rfl, rfl⟩ := ownIndex_ok h1
    replace h := get_then h
    obtain ⟨position, hposition⟩ := hs k (Array.getElem?_eq_some_iff.1 hf).1
    rw [hposition] at h
    replace h := get_then h
    obtain ⟨_, -, h⟩ := past_require hv h
    obtain ⟨_, -, h⟩ := past_require hv h
    rcases bind_error h with h | ⟨_, _, -, h⟩
    · exact ih hs h
    · cases h

/-- A linked edge is one between a struct and an interface of the program. -/
theorem hasStruct_of_linked {p : Program} (hnumbered : p.Numbered) (hlinked : p.Linked)
    (he : e ∈ p.edges) : p.HasStruct e.struct ∧ p.HasInterface e.interface := by
  obtain ⟨k, hk, rfl⟩ := List.getElem_of_mem he
  have hk' := hlinked.accepted.length_eq ▸ hk
  have haccepted := hlinked.accepted.get hk hk'
  simp only [List.get_eq_getElem] at haccepted
  constructor
  · obtain ⟨d, hd, hde⟩ := List.mem_flatMap.1 (List.getElem_mem hk')
    obtain ⟨e', -, heq⟩ := List.mem_map.1 hde
    obtain ⟨n, hn⟩ := Array.getElem?_of_mem (by simpa using hd : d ∈ p.structs)
    have hlt := (Array.getElem?_eq_some_iff.1 hn).1
    have hid : p.structId p.edges[k].struct = n := by
      rw [haccepted.structId, ← haccepted.ownId, ← hnumbered.structs n d hn, ← heq]
    rw [Program.HasStruct, hid]
    omega
  · obtain ⟨i, hi, -, -⟩ := haccepted.interfaceDef
    rw [Program.interface?, Program.byId] at hi
    split at hi
    · next h0 =>
      have hlt := (Array.getElem?_eq_some_iff.1 hi).1
      rw [Program.HasInterface]
      omega
    · cases hi

theorem buildTable_error (hnumbered : env.program.Numbered)
    (he : env.program.HasStruct e.struct ∧ env.program.HasInterface e.interface)
    (hs : FuncsListed env s) (h : buildTable e env s = .error (.violation v) s') :
    v.concern? ≠ some .names := by
  intro hv
  obtain ⟨i, _, h1, h⟩ := Spares.past he hv h
  obtain ⟨-, rfl⟩ := structIndex_ok h1
  obtain ⟨j, _, h1, h⟩ := Spares.past he hv h
  obtain ⟨-, -, rfl⟩ := interfaceIndex_ok h1
  obtain ⟨d, _, h1, h⟩ := Spares.past he hv h
  obtain ⟨-, rfl⟩ := interfaceAt_ok h1
  replace h := getProgram_then h
  obtain ⟨types, _, h1, h⟩ := Spares.past he hv h
  obtain ⟨-, rfl⟩ := typeDefs_ok h1
  obtain ⟨fields, -, h⟩ := past_require hv h
  replace h := get_then h
  obtain ⟨drop, -, h⟩ := past_require hv h
  replace h := get_then h
  obtain ⟨f, -, h⟩ := past_require hv h
  rcases bind_error h with h | ⟨entries, _, -, h⟩
  · exact tableEntries_error hnumbered hs h hv
  · exact Spares.concern_ne (fun _ => trivial) h hv

theorem buildTables_error (hnumbered : env.program.Numbered) (hlinked : env.program.Linked)
    (hs : FuncsListed env s)
    (h : buildTables env s = .error (.violation v) s') : v.concern? ≠ some .names := by
  intro hv
  replace h := getProgram_then h
  rcases bind_error h with h | ⟨_, _, -, h⟩
  · obtain ⟨e, he, s1, hs1, h⟩ := forIn_error (FuncsListed env) (fun e t r t' ht hrun => by
      obtain ⟨_, t1, h1, hrun⟩ := bind_ok hrun
      obtain ⟨-, rfl⟩ := pure_ok hrun
      rw [FuncsListed, (buildTable_tableAt hnumbered h1).1.funcs]
      exact ht) hs h
    rcases bind_error h with h | ⟨_, _, -, h⟩
    · exact buildTable_error hnumbered (hasStruct_of_linked hnumbered hlinked he) hs1 h hv
    · cases h
  · cases h

/-! ## Bodies -/

section Bodies

variable [Granted H env.program.TypesInScope]

instance {f : Function} [Granted H (f.body.InScope env.program)] :
    Spares env .names H (buildBody f) := by
  have : Heeds env .names H (lowerExpr f.body) f.body.script := heeds_lowerExpr f.body
  have : Heeds env .names H (lower f.body) f.body.script :=
    inferInstanceAs (Heeds env .names H (arriving _ _) _)
  have : Spares env .names H (lower f.body) := ⟨fun hH _ _ _ h => this.spares hH nofun h⟩
  unfold buildBody
  refine .step fun _ => .step fun i => .step fun _ => .step fun position => .step fun _ => ?_
  refine .step fun _ => .step fun result => ?_
  cases result <;> infer_instance

instance {fs : List Function} [h : Granted H (∀ f ∈ fs, f.body.InScope env.program)] :
    Spares env .names H (buildBodies fs) := by
  induction fs generalizing h with
  | nil =>
    unfold buildBodies
    infer_instance
  | cons f fs ih =>
    obtain ⟨_, _⟩ := h.uncons
    unfold buildBodies
    infer_instance

end Bodies

/-! ## Whole programs -/

theorem buildModule_error (hnumbered : env.program.Numbered) (hlinked : env.program.Linked)
    (hp : env.program.TypesInScope)
    (hbodies : ∀ f ∈ env.program.functions, f.body.InScope env.program)
    (h : buildModule env {} = .error (.violation v) s') : v.concern? ≠ some .names := by
  intro hv
  obtain ⟨_, s1, h1, h⟩ := Spares.past hp hv h
  obtain ⟨_, s2, h2, h⟩ := Spares.past hp hv h
  obtain ⟨_, s3, h3, h⟩ := Spares.past hp hv h
  have hdecl := declareFuncs_ok hnumbered (declareTypes_fresh h1 h2) h3
  obtain ⟨_, s4, h4, h⟩ := Spares.past hp hv h
  have hlisted : FuncsListed env s4 := fun k hk => by
    rw [(buildDropFuncs_built hdecl h4).funcs]
    exact ⟨_, hdecl.places k hk⟩
  rcases bind_error h with h | ⟨_, s5, -, h⟩
  · exact buildTables_error hnumbered hlinked hlisted h hv
  · replace h := getProgram_then h
    have hbodies' : ∀ f ∈ env.program.functions.toList, f.body.InScope env.program := by
      simpa using hbodies
    exact Spares.concern_ne (fun _ => And.intro hbodies' hp) h hv

/-- **Loaded programs never trip over names.**  Whatever document a program was read from and
whatever the options, lowering does not refuse it because a struct, an interface, a member or a
method is not there, because a function cannot implement a method, because of an expression, an
ownership or a referend that it does not know, or because it was not resolved. -/
theorem toModule_spares_names {doc : ProgramDoc} {p : Program} (h : Program.ofDoc doc = .ok p)
    (options : Options) {v : Violation} (hv : v.concern? = some .names) :
    p.toModule options ≠ .error (.violation v) := by
  obtain ⟨q, hq, hresolve⟩ := Program.ofDoc_ok h
  obtain ⟨hnumbered, hlinked⟩ := Program.resolve_ok hresolve
  obtain ⟨scope, hread⟩ := Program.readIn_of_ofDoc h
  obtain ⟨htypes, hbodies⟩ := hread.inScope
  intro hfail
  rw [Program.toModule, if_pos (Program.resolved_of_ofDoc h)] at hfail
  split at hfail
  · cases hfail
  · next f s' hbuild =>
    obtain rfl : f = .violation v := by simpa using hfail
    exact buildModule_error hnumbered hlinked htypes hbodies hbuild hv

/-- A struct, an interface that it implements, and a function for the method that builds the
interface: the names are all there, and what is refused is that an interface is no struct. -/
def builtInterface : ProgramDoc where
  structs := [some { name := "S", edges := [some { interface := "I", methods := ["f"] }] }]
  interfaces :=
    [some { name := "I", methods := [some { name := "m", params := ["borrow yonder I"] }] }]
  functions := [some { proto := { name := "f", params := ["borrow yonder S"] },
                       body := some { kind := "NewStruct", type := "own yonder I" } }]

theorem toModule_spares_names_builtInterface :
    ∃ p, Program.ofDoc builtInterface = .ok p ∧
      p.toModule {} = .error (.violation (.notAStruct "own yonder I")) ∧
      ∀ options v, v.concern? = some .names → p.toModule options ≠ .error (.violation v) := by
  have heval : (Program.ofDoc builtInterface).toOption.any (fun p => match p.toModule {} with
      | .error f => f = .violation (.notAStruct "own yonder I")
      | .ok _ => false) = true := by
    decide +kernel
  obtain ⟨p, hp, heval⟩ := except_of_any heval
  refine ⟨p, hp, ?_, fun options v hv => toModule_spares_names hp options hv⟩
  cases hfail : p.toModule {} with
  | ok code => simp [hfail] at heval
  | error f =>
    obtain rfl : f = .violation (.notAStruct "own yonder I") := by simpa [hfail] using heval
    rfl

end Tenure.Lowering

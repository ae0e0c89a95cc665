import Tenure.Proofs.InStepBodies

/-!
# The order of functions

The functions of a program are lowered one by one, with what is shared by all of them:
the pool of literals, the kept layouts and the places of functions.  None of it lets
one function change the code of another.  If a document lists its functions in another
order, it is lowered to the same code, where functions and literals are mentioned at
their new places.

* `SameCode`: two modules that differ by places only.
* `Prepared`: two runs before method tables and bodies.
* `buildModule_reordered`: whole runs.
* `toModule_permuted`: documents with their functions in another order.
-/

namespace Tenure.Lowering

open Ir (Relocation)

/-- A module has the code of another one.  The functions of the program have new places, the
literals have new numbers, and both are mentioned at their new places.

The functions of the runtime, the externs and the drop functions stay as they are, to the
letter.  The method tables stay where they are, and literals keep their content. -/
structure SameCode (p : Program) (σ τ : Equiv.Perm Nat) (m m' : Ir.Module) : Prop where
  types : m'.types = m.types
  named : ∀ (k : Nat) (fn : Function), p.functions[k]? = some fn →
    ∃ f, m.funcs[runtimeCount + k]? = some f ∧ f.name = fn.proto.name
  funcs : ∀ i, m'.funcs[behind runtimeCount σ i]? = m.funcs[i]?.map
    (·.relocate ⟨behind runtimeCount σ, behind p.edges.length τ⟩)
  others : ∀ i, i < runtimeCount ∨ runtimeCount + p.functions.size ≤ i →
    m'.funcs[i]? = m.funcs[i]?
  tables : ∀ i < p.edges.length, m'.globals[i]? = m.globals[i]?.map
    (·.relocate ⟨behind runtimeCount σ, behind p.edges.length τ⟩)
  literals : ∀ k, m'.globals[p.edges.length + τ k]? = m.globals[p.edges.length + k]?.map
    fun g => { g with name := "__strlit." ++ toString (τ k) }
  numbered : ∀ (k : Nat) (g : Ir.Global), m.globals[p.edges.length + k]? = some g →
    g.name = "__strlit." ++ toString k

variable {P : ProgramPair} {s s' t : State} {u : Unit}

/-! ## Before the bodies -/

/-- What comes before method tables and bodies. -/
def prepare : Build Unit := do
  declareRuntime
  declareTypes
  declareFuncs
  buildDropFuncs

theorem buildModule_eq : buildModule = (do
    prepare
    buildTables
    buildBodies (← getProgram).functions.toList) := by
  simp only [buildModule, prepare, bind_assoc]

/-- Two runs before method tables and bodies: the functions of the program are declared, at
places of their own in each run, and have no code yet. -/
structure Prepared (P : ProgramPair) (s s' : State) : Prop extends Aligned P s s' where
  drops : ∀ d ∈ s.dropFuncs, P.place d = d
  code : ∀ r : Relocation, r.func = P.place → Unmoved r s
  indexed : ∀ k < P.env.program.functions.size, s.funcs[k]? = some (some (runtimeCount + k))
  declared : ∀ (k : Nat) (fn : Function), P.env.program.functions[k]? = some fn →
    ∃ g, s.module.funcs[runtimeCount + k]? = some g ∧ g.blocks = #[] ∧ g.name = fn.proto.name

theorem prepared (hrun : prepare P.env {} = .ok u t) :
    ∃ t', prepare P.env' {} = .ok () t' ∧ Prepared P t t' := by
  obtain ⟨_, s1, hruntime, hrun⟩ := bind_ok hrun
  have hs1 := declareRuntime_ok hruntime
  have hruntime' : declareRuntime P.env' {} = .ok () s1 := by
    rw [hs1]
    rfl
  have hnone : s1.arrayLayouts = [] := by rw [hs1]
  have hmatched1 : Matched P s1 s1 :=
    ⟨by simp [hnone, Faithful], by simp [hnone, Faithful], rfl⟩
  obtain ⟨_, s2, htypes, hrun⟩ := bind_ok hrun
  obtain ⟨hglobals, s2', htypes', hmatched2⟩ := follows_declareTypes hmatched1 htypes
  have htyped := declareTypes_ok htypes
  have hsize : s2.module.funcs.size = runtimeCount := by
    rw [htyped.module, hs1]
    rfl
  have hfresh := declareTypes_fresh hruntime htypes
  obtain ⟨_, s3, hfuncs, hrun⟩ := bind_ok hrun
  obtain ⟨s3', hfuncs', haligned3, hnamed⟩ := hmatched2.declareFuncs hfresh hsize
    (by rw [hglobals, hs1]) hfuncs
  have hdeclared := declareFuncs_ok P.numbered hfresh hfuncs
  rw [hsize] at hdeclared
  have hbuilt := buildDropFuncs_built hdeclared hrun
  obtain ⟨t', hdrops', haligned, hfix, hcode⟩ := haligned3.buildDropFuncs hdeclared hrun
  refine ⟨t', ?_, { haligned with
    drops := hfix
    code := hcode
    indexed := fun k hk => by rw [hbuilt.funcs, hdeclared.places k hk]
    declared := fun k fn hfn => ?_ }⟩
  · exact (bind_of_ok hruntime').trans ((bind_of_ok htypes').trans
      ((bind_of_ok hfuncs').trans hdrops'))
  · obtain ⟨g, hg, hname⟩ := hnamed k fn hfn
    refine ⟨g, ?_, hdeclared.blank _ g hg, hname⟩
    rw [hbuilt.old _ (Array.getElem?_eq_some_iff.mp hg).1, hg]

/-! ## Method tables and bodies -/

theorem Prepared.mirrors (h : Prepared P s s') : Mirrors P s s' where
  types := h.types
  dropFuncs := h.dropFuncs
  drops := h.drops
  funcs k := by rw [h.lookup, h.places]
  signatures i := by
    have hi := h.funcs i
    rw [Array.getElem?_toList, Array.getElem?_toList] at hi
    rw [hi]

section Tables

variable {gs gs' : List Ir.Global}

/-- What both runs have settled with their method tables. -/
def Prepared.course (h : Prepared P s s') (gs : List Ir.Global) : Course :=
  h.toAligned.course
    ⟨s.module.types, s.dropFuncs, (List.range' 0 gs.length).toArray, gs.length,
      fun i => gs[i]?.map Ir.Global.content⟩
    (fun _ => True) (fun d hd => ⟨trivial, h.drops d hd⟩) (fun _ _ => trivial) (by simp)

/-- With its method tables, a run goes by what is settled. -/
theorem Prepared.level (h : Prepared P s s') (hgs : TablesAlike P gs gs') :
    Level (h.course gs) ⟨[], []⟩ (s.addTables gs) (s'.addTables gs') := by
  have hsame := hgs ⟨P.place, id⟩ rfl
  have hlength : gs'.length = gs.length := by rw [hsame, List.length_map]
  have hcontents : ∀ i : Nat, gs'[i]?.map Ir.Global.content = gs[i]?.map Ir.Global.content := by
    intro i
    rw [hsame, List.getElem?_map, Option.map_map]
    rfl
  rw [State.addTables_of_empty h.globals.1 h.itables.1,
    State.addTables_of_empty h.globals.2 h.itables.2]
  exact {
    left := settled_of_noLiterals rfl (fun _ => rfl) rfl rfl rfl List.size_toArray
      (fun i _ => by rw [List.getElem?_toArray]; rfl) h.literals.1 h.left
    right := settled_of_noLiterals h.types (fun _ => rfl) rfl h.dropFuncs (by rw [hlength]; rfl)
      (List.size_toArray.trans hlength)
      (fun i _ => by rw [List.getElem?_toArray, hcontents]; rfl) h.literals.2 h.right
    met := h.literals.1
    met' := h.literals.2 }

theorem State.funcs_addTables (s : State) (gs : List Ir.Global) :
    (s.addTables gs).module.funcs = s.module.funcs := by
  rw [addTables_eq]

/-- A method table is kept to the end. -/
theorem getElem?_globals_addTables (hglobals : s.module.globals = #[])
    (ht : Tables (s.addTables gs) t) {i : Nat} {g : Ir.Global} (hg : gs[i]? = some g) :
    t.module.globals[i]? = some g := by
  refine getElem?_of_initial ht.globals ?_
  rw [State.addTables_eq, hglobals]
  simpa using hg

theorem Prepared.bodiesReady (h : Prepared P s s') (hgs : TablesAlike P gs gs')
    (hbodies : ∀ fn ∈ P.env.program.functions, Body P fn.body) :
    BodiesReady (h.course gs) (s.addTables gs) (s'.addTables gs') where
  level := h.level hgs
  known _ := trivial
  bodies := hbodies
  places := h.indexed
  blank k hk := by
    obtain ⟨g, hg, hblank, -⟩ := h.declared k _ (Array.getElem?_eq_getElem hk)
    have hg' := h.funcs (runtimeCount + k)
    rw [Array.getElem?_toList, Array.getElem?_toList, hg] at hg'
    rw [State.funcs_addTables, State.funcs_addTables]
    exact ⟨g, hg, hblank, hg'⟩

/-- A function that is not of the program is the same in both runs. -/
theorem Prepared.funcs_eq (h : Prepared P s s') {i : Nat}
    (hi : i < runtimeCount ∨ runtimeCount + P.env.program.functions.size ≤ i) :
    s'.module.funcs[i]? = s.module.funcs[i]? := by
  have hfixed : P.place i = i := hi.elim (behind_of_lt _) P.place_of_le
  have hfuncs := h.funcs i
  rwa [hfixed, Array.getElem?_toList, Array.getElem?_toList] at hfuncs

theorem Prepared.sameCode (h : Prepared P s s') (hgs : TablesAlike P gs gs')
    (hlength : gs.length = P.env.program.edges.length) {τ : Equiv.Perm Nat} {t' : State}
    (hw : BodiesWritten (h.course gs) τ (s.addTables gs) (s'.addTables gs') t t') :
    SameCode P.env.program P.order τ t.module t'.module := by
  have hothers : ∀ i, i < runtimeCount ∨ runtimeCount + P.env.program.functions.size ≤ i →
      t.module.funcs[i]? = s.module.funcs[i]? ∧ t'.module.funcs[i]? = s.module.funcs[i]? := by
    intro i hi
    have hleft := hw.untouched i hi
    have hright := hw.untouched' i hi
    rw [State.funcs_addTables] at hleft hright
    exact ⟨hleft, hright.trans (h.funcs_eq hi)⟩
  have hpooled : Pooled gs.length t := hw.left.pooled
  refine ⟨?_, fun k fn hfn => ?_, fun i => ?_, fun i hi => ?_, fun i hi => ?_, fun k => ?_,
    fun k g hg => ?_⟩
  · exact hw.right.types.trans hw.left.types.symm
  · obtain ⟨g, hg, -, hname⟩ := h.declared k fn hfn
    have hhead : t.module.funcs[runtimeCount + k]?.map headOf = some (headOf g) :=
      (hw.left.heads _).trans (congrArg (Option.map headOf) hg)
    obtain ⟨f, hf, heq⟩ := Option.map_eq_some_iff.mp hhead
    exact ⟨f, hf, (congrArg Prod.fst heq).trans hname⟩
  · by_cases hi : i < runtimeCount ∨ runtimeCount + P.env.program.functions.size ≤ i
    · have hfixed : behind runtimeCount P.order i = i := hi.elim (behind_of_lt _) P.place_of_le
      rw [hfixed, (hothers i hi).1, (hothers i hi).2]
      cases hf : s.module.funcs[i]? with
      | none => rfl
      | some f => exact congrArg some (h.code ⟨P.place, _⟩ rfl i f hf).symm
    · obtain ⟨k, rfl⟩ := Nat.exists_eq_add_of_le (show runtimeCount ≤ i by omega)
      obtain ⟨f, hf, hf'⟩ := hw.bodies k (show k < P.env.program.functions.size by omega)
      rw [behind_add, hf, ← hlength]
      exact hf'
  · rw [(hothers i hi).1, (hothers i hi).2]
  · obtain ⟨g, hg⟩ : ∃ g, gs[i]? = some g := ⟨_, List.getElem?_eq_getElem (hlength ▸ hi)⟩
    have hg' : gs'[i]? = some (g.relocate ⟨P.place, behind P.env.program.edges.length τ⟩) := by
      rw [hgs ⟨P.place, behind P.env.program.edges.length τ⟩ rfl, List.getElem?_map, hg]
      rfl
    rw [getElem?_globals_addTables h.globals.1 hw.tables hg,
      getElem?_globals_addTables h.globals.2 hw.tables' hg']
    rfl
  · rw [← hlength]
    exact hpooled.carries_globals hw.right.pooled hw.keys k
  · rw [← hlength, hpooled.globals_eq] at hg
    obtain ⟨bytes, -, rfl⟩ := Option.map_eq_some_iff.mp hg
    rfl

end Tables

/-- If a program can be lowered, so can the one with its functions in another order, to the
same code. -/
theorem buildModule_reordered (hbodies : ∀ fn ∈ P.env.program.functions, Body P fn.body)
    (hrun : buildModule P.env {} = .ok u t) :
    ∃ τ t', buildModule P.env' {} = .ok () t' ∧
      SameCode P.env.program P.order τ t.module t'.module := by
  rw [buildModule_eq] at hrun ⊢
  obtain ⟨_, s, hprepare, hrun⟩ := bind_ok hrun
  obtain ⟨s', hprepare', hs⟩ := prepared hprepare
  obtain ⟨_, _, htables, hrun⟩ := bind_ok hrun
  obtain ⟨gs, gs', hlength, hgs, rfl, htables'⟩ := hs.mirrors.buildTables htables
  replace hrun := getProgram_then hrun
  obtain ⟨τ, t', hbodies', hw⟩ := (hs.bodiesReady hgs hbodies).buildBodies hrun
  refine ⟨τ, t', ?_, hs.sameCode hgs hlength hw⟩
  exact (bind_of_ok hprepare').trans ((bind_of_ok htables').trans hbodies')

end Tenure.Lowering

namespace Tenure

open Lowering (functionOrder)

/-! ## Loading -/

theorem Carries.eq_of_refl {α : Type} {xs ys : List α} (h : Carries (Equiv.refl Nat) xs ys) :
    ys = xs :=
  List.ext_getElem? h

namespace Program.Carried

variable {σ : Equiv.Perm Nat} {p q : Program}

/-- Edges come in the order of the structs, which have not moved. -/
theorem links_eq (h : p.Carried (functionOrder σ) q) (hp : p.Resolvable) :
    q.links = p.links.map (functionOrder σ).edge := by
  have hlisting : q.numbered.listing = p.numbered.listing := by
    have hstructs : q.structs.toList = p.structs.toList := h.structs.eq_of_refl
    rw [Program.listing, Program.listing, numbered, numbered, Array.toList_inj.mp hstructs]
  rw [Program.links, Program.links, hlisting, List.map_map]
  refine List.map_congr_left fun de hde => ?_
  obtain ⟨d, e⟩ := de
  obtain ⟨k, d', -, rfl, -⟩ := mem_listing_numbered hde
  exact h.link hp.toNamesResolve (implements_numbered_iff.mpr hp.edges _ hde) k

end Program.Carried

namespace Load

theorem Scope.Carried.program_eq {σ : Equiv.Perm Nat} {s s' : Scope}
    (h : s.Carried (functionOrder σ) s') (functions functions' : List Function) :
    s'.program functions' = { s.program functions with functions := functions'.toArray } := by
  have hstructs : s'.structs = s.structs := h.structs.eq_of_refl
  have hinterfaces : s'.interfaces = s.interfaces := h.interfaces.eq_of_refl
  have hnatives : s'.natives = s.natives := h.natives.eq_of_refl
  have hstructNames : s'.names.structs = s.names.structs := h.structNames.eq_of_refl
  have hinterfaceNames : s'.names.interfaces = s.names.interfaces := h.interfaceNames.eq_of_refl
  simp only [Scope.program, hstructs, hinterfaces, hnatives, hstructNames, hinterfaceNames]

theorem Reads.length_functions {doc : ProgramDoc} {s : Scope} {functions : List Function}
    (h : Reads doc s functions) : functions.length = doc.functions.length := by
  obtain ⟨protos, hprotos, -, hbodies⟩ := h.functions
  rw [← (except_mapM_ok hbodies).length_eq, ← (except_mapM_ok hprotos).length_eq]

end Load

variable {doc : ProgramDoc} {p : Program}

theorem Program.size_functions_of_ofDoc (h : ofDoc doc = .ok p) :
    p.functions.size = doc.functions.length := by
  obtain ⟨q, hq, hresolve⟩ := ofDoc_ok h
  obtain ⟨s, functions, hreads, rfl⟩ := Load.assemble_eq_ok_iff.mp hq
  obtain ⟨-, rfl⟩ := (resolve_eq_iff_resolvable hreads.interned).mp hresolve
  rw [← hreads.length_functions]
  simp [withEdges, numbered, Load.Scope.program]

/-- Other numbers of functions change nothing but functions and edges. -/
theorem Program.numbered_withFunctions (p : Program) {functions : Array Function}
    (hsize : functions.size = p.functions.size) :
    { p with functions }.numbered =
      { p.numbered with functions := { p with functions }.numbered.functions } := by
  simp only [numbered, hsize]
  rfl

/-- Edges stand between the same structs and interfaces. -/
theorem Program.edgeKeys_relinked (σ : Equiv.Perm Nat) (rs : List ResolvedEdge) :
    edgeKeys (rs.map (functionOrder σ).edge) = edgeKeys rs := by
  simp [edgeKeys, functionOrder, Reordering.edge, Lowering.newIndex_refl]

/-- A document with its functions in another order loads to a program that differs by its
functions and by the functions that edges mention. -/
theorem Program.ofDoc_reordered {fs : List (Option FunctionDoc)} {σ : Equiv.Perm Nat}
    (hσ : Carries σ doc.functions fs) (h : ofDoc doc = .ok p) :
    ∃ functions edges, ofDoc { doc with functions := fs } = .ok { p with functions, edges } ∧
      Carries σ (p.functions.toList.map (functionOrder σ).functionDef) functions.toList ∧
      edges = p.edges.map (functionOrder σ).edge := by
  obtain ⟨q, hq, hresolve⟩ := ofDoc_ok h
  obtain ⟨s, fns, hreads, rfl⟩ := Load.assemble_eq_ok_iff.mp hq
  obtain ⟨hresolvable, rfl⟩ := (resolve_eq_iff_resolvable hreads.interned).mp hresolve
  have hρ : (functionOrder σ).Rearranges doc { doc with functions := fs } :=
    ⟨fun _ => rfl, fun _ => rfl, fun _ => rfl, hσ⟩
  obtain ⟨s', fns', hreads', hscope, hfns⟩ :=
    hreads.rearranged (hreads.distinct hresolvable.toNamesResolve) hρ
  have hcarried := hscope.program hfns
  have hload : ofDoc { doc with functions := fs } = .ok
      { (s'.program fns').numbered.withEdges (s'.program fns').links with resolved := true } :=
    ofDoc_of_resolve (Load.assemble_eq_ok_iff.mpr ⟨s', fns', hreads', rfl⟩)
      ((resolve_eq_iff_resolvable hreads'.interned).mpr ⟨hcarried.resolvable hresolvable, rfl⟩)
  have hnumbered : (s'.program fns').numbered =
      { (s.program fns).numbered with functions := (s'.program fns').numbered.functions } := by
    rw [hscope.program_eq fns fns']
    exact numbered_withFunctions _ hcarried.size_functions
  have hlinks := hcarried.links_eq hresolvable
  have htable : edgePlaces (s'.program fns').links = edgePlaces (s.program fns).links := by
    rw [hlinks, edgePlaces, edgeKeys_relinked, edgePlaces]
  refine ⟨(s'.program fns').numbered.functions, (s'.program fns').links, ?_, ?_, hlinks⟩
  · rw [hload, hnumbered, withEdges, htable]
    rfl
  · exact hcarried.functions_numbered

namespace Lowering

/-- A program that was loaded, beside the one with its functions in another order. -/
def ProgramPair.ofDoc {doc : ProgramDoc} {p : Program} {scope : Load.Scope}
    (hp : Program.ofDoc doc = .ok p) (hread : p.ReadIn scope) (options : Options)
    {σ : Equiv.Perm Nat} (hfix : ∀ k, p.functions.size ≤ k → σ k = k) {functions : Array Function}
    (hfunctions : Carries σ (p.functions.toList.map (functionOrder σ).functionDef)
      functions.toList) : ProgramPair where
  names := scope.names
  env := { program := p, options }
  functions := functions
  edges := p.edges.map (functionOrder σ).edge
  order := σ
  numbered := by
    obtain ⟨q, -, hresolve⟩ := Program.ofDoc_ok hp
    exact (Program.resolve_ok hresolve).1
  written := hread.types.mono fun _ ht r hr => (ht r hr).referend
  reordered := hfunctions
  relinked := rfl
  fixes := hfix

theorem toModule_eq_ok_iff {p : Program} {options : Options} {m : Ir.Module} :
    p.toModule options = .ok m ↔ p.resolved = true ∧
      ∃ t, buildModule { program := p, options } {} = .ok () t ∧ t.module = m := by
  rw [Program.toModule]
  split
  · split <;> simp_all
  · simp_all

/-- **Functions are lowered independently of each other.**  A document that loads and can be
lowered still does with its functions in any other order.  The code is the same for every
function, the drop functions and the method tables included, but for the places of functions and
the numbers of literals; these are replaced in one way throughout, and literals keep their
content. -/
theorem toModule_permuted {doc : ProgramDoc} {fs : List (Option FunctionDoc)}
    (hfs : doc.functions.Perm fs) {p : Program} (hp : Program.ofDoc doc = .ok p) {options : Options}
    {m : Ir.Module} (hm : p.toModule options = .ok m) :
    ∃ (σ τ : Equiv.Perm Nat) (p' : Program) (m' : Ir.Module),
      Carries σ doc.functions fs ∧ Program.ofDoc { doc with functions := fs } = .ok p' ∧
        p'.toModule options = .ok m' ∧ SameCode p σ τ m m' := by
  obtain ⟨σ, hσ, hfix⟩ := exists_carries_fixing hfs
  obtain ⟨functions, edges, hp', hfunctions, rfl⟩ := Program.ofDoc_reordered hσ hp
  obtain ⟨scope, hread⟩ := Program.readIn_of_ofDoc hp
  obtain ⟨hresolved, t, hbuild, rfl⟩ := toModule_eq_ok_iff.mp hm
  let P := ProgramPair.ofDoc hp hread options (Program.size_functions_of_ofDoc hp ▸ hfix) hfunctions
  obtain ⟨τ, t', hbuild', hsame⟩ := buildModule_reordered (P := P) (fun fn hfn =>
    ⟨fun d hd r hr s hs => ((hread.bodies fn hfn).types d hd r hr s hs).referend,
      (hread.bodies fn hfn).links⟩) hbuild
  exact ⟨σ, τ, _, _, hσ, hp', toModule_eq_ok_iff.mpr ⟨hresolved, t', hbuild', rfl⟩, hsame⟩

/-- A bell that rings by a function, and a function that strikes it and adds a text of its own.
The two mention different texts and one text that both have. -/
def bells : ProgramDoc where
  structs :=
    [some { name := "Bell", members := [some { name := "weight", type := "int" }],
            edges := [some { interface := "Sounding", methods := ["ring"] }] }]
  interfaces :=
    [some { name := "Sounding",
            methods :=
              [some { name := "sound", params := ["borrow yonder Sounding"], result := "str" }] }]
  natives := [some { name := "__addStrStr", params := ["str", "str"], result := "str" }]
  functions :=
    [some { proto := { name := "ring", params := ["borrow yonder Bell"], result := "str" },
            body := some { kind := "ExternCall", function := "__addStrStr", args :=
              [some { kind := "ConstantStr", value := some (.scalar 1 "!!str" "ding") },
               some { kind := "ConstantStr", value := some (.scalar 1 "!!str" "!") }] } },
     some { proto := { name := "strike", params := ["borrow yonder Bell"], result := "str" },
            body := some { kind := "ExternCall", function := "__addStrStr", args :=
              [some { kind := "ConstantStr", value := some (.scalar 1 "!!str" "!") },
               some { kind := "Call", function := "ring", args :=
                 [some { kind := "Argument", type := "borrow yonder Bell" }] }] } }]

theorem toModule_permuted_bells : ∃ (p p' : Program) (m m' : Ir.Module) (σ τ : Equiv.Perm Nat),
    Program.ofDoc bells = .ok p ∧ p.toModule {} = .ok m ∧
      Carries σ bells.functions bells.functions.reverse ∧
      Program.ofDoc { bells with functions := bells.functions.reverse } = .ok p' ∧
      p'.toModule {} = .ok m' ∧ SameCode p σ τ m m' := by
  have heval : (Program.ofDoc bells).toOption.any
      (fun p => (p.toModule {}).toOption.any fun _ => true) = true := by decide +kernel
  obtain ⟨p, hp, heval⟩ := except_of_any heval
  obtain ⟨m, hm, -⟩ := except_of_any heval
  obtain ⟨σ, τ, p', m', h⟩ := toModule_permuted (List.reverse_perm bells.functions).symm hp hm
  exact ⟨p, p', m, m', σ, τ, hp, hm, h⟩

end Lowering

end Tenure

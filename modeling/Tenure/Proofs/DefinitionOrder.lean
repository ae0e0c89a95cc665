import Tenure.Proofs.Rearrangement
import Tenure.Proofs.Receivers
import Tenure.Proofs.ResolutionCriterion

/-!
# The order of definitions

A document may list its structs, interfaces, externs and functions in any order.
Whether it loads does not depend on the order, and the program it loads to depends
on it only by numbers: a definition's index is its place, and edges, interned names
and calls mention definitions by index.

* `Program.Carried`: a program, before it is resolved, with its definitions at new places.
* `Program.Carried.resolvable`: it can be resolved if the other one can.
* `Reordering.Renumbers`: a resolved program with new numbers.
-/

namespace Tenure

variable {σ : Equiv.Perm Nat} {names names' : List String}

/-! ## New numbers -/

/-- The new index of a definition; what has no index gets none. -/
def newIndex (σ : Equiv.Perm Nat) (id : Int) : Int := if 0 ≤ id then σ id.toNat else id

@[simp] theorem newIndex_natCast (σ : Equiv.Perm Nat) (k : Nat) : newIndex σ k = σ k := by
  simp [newIndex]

theorem Carries.idxOf
    (h : Carries σ names names') (hnames : names.Nodup) {n : String} (hn : n ∈ names) :
    names'.idxOf n = σ (names.idxOf n) := by
  have hget : names'[σ (names.idxOf n)]? = some n := by
    rw [h, List.getElem?_eq_getElem (List.idxOf_lt_length_of_mem hn), List.getElem_idxOf]
  obtain ⟨hlt, hname⟩ := List.getElem?_eq_some_iff.mp hget
  have hidx := (h.perm.nodup_iff.mp hnames).idxOf_getElem _ hlt
  rwa [hname] at hidx

theorem Carries.placed
    {table table' : List (String × Int)} (h : Carries σ names names') (hnames : names.Nodup)
    (htable : ∀ n ∈ table.map (·.1), n ∈ names) (hperm : table'.Perm table) :
    (Program.placed names' table').Perm
      ((Program.placed names table).map fun entry => (entry.1, newIndex σ entry.2)) := by
  refine (hperm.map _).trans (.of_eq ?_)
  rw [Program.placed, List.map_map]
  refine List.map_congr_left fun entry hentry => ?_
  rw [h.idxOf hnames (htable _ (List.mem_map_of_mem hentry))]
  simp

variable {α : Type} {doc doc' : ProgramDoc} {xs ys : List α}

theorem Carries.map_id (h : Carries σ xs ys) : Carries σ (xs.map id) ys := by
  rwa [List.map_id]

/-- Entries that are numbered by their places have new numbers at their new
places, also if they change on the way. -/
theorem Carries.mapIdx {β : Type} {d : α → α} (h : Carries σ (xs.map d) ys) {f : Nat → α → β}
    {g : β → β} (hg : ∀ k x, g (f k x) = f (σ k) (d x)) :
    Carries σ ((xs.mapIdx f).map g) (ys.mapIdx f) := by
  intro k
  rw [List.getElem?_mapIdx, h, List.getElem?_map, List.getElem?_map, List.getElem?_mapIdx,
    Option.map_map, Option.map_map]
  exact congrArg (Option.map · xs[k]?) (funext fun x => (hg k x).symm)

namespace Reordering

def structDef (ρ : Reordering) (d : StructDef) : StructDef :=
  { d with id := newIndex ρ.struct d.id }

def interfaceDef (ρ : Reordering) (d : InterfaceDef) : InterfaceDef :=
  { d with id := newIndex ρ.interface d.id }

def functionDef (ρ : Reordering) (f : Function) : Function :=
  { proto := { f.proto with id := newIndex ρ.function f.proto.id }, body := ρ.expr f.body }

/-- Externs are numbered after the functions. -/
def nativeDef (ρ : Reordering) (functions : Nat) (n : Prototype) : Prototype :=
  { n with id := functions + newIndex ρ.native (n.id - functions) }

def edge (ρ : Reordering) (r : ResolvedEdge) : ResolvedEdge :=
  { r with
    structId := newIndex ρ.struct r.structId
    interfaceId := newIndex ρ.interface r.interfaceId
    methods := r.methods.map ρ.function }

/-- A resolved program has the definitions, the interned names and the edges of another one,
with new numbers throughout.  Definitions stand at their new places; the order of names and
edges does not matter. -/
structure Renumbers (ρ : Reordering) (p q : Program) : Prop where
  structs : Carries ρ.struct (p.structs.toList.map ρ.structDef) q.structs.toList
  interfaces : Carries ρ.interface (p.interfaces.toList.map ρ.interfaceDef) q.interfaces.toList
  functions : Carries ρ.function (p.functions.toList.map ρ.functionDef) q.functions.toList
  natives : Carries ρ.native (p.natives.toList.map (ρ.nativeDef p.functions.size)) q.natives.toList
  structSymbols : q.structSymbols.Perm
    (p.structSymbols.map fun entry => (entry.1, newIndex ρ.struct entry.2))
  interfaceSymbols : q.interfaceSymbols.Perm
    (p.interfaceSymbols.map fun entry => (entry.1, newIndex ρ.interface entry.2))
  edges : q.edges.Perm (p.edges.map ρ.edge)
  resolved : p.resolved = true ∧ q.resolved = true

end Reordering

/-! ## Resolution -/

namespace Program

/-- A program that is not resolved yet has the definitions of another one, each at its new
place, and the same interned names. -/
structure Carried (ρ : Reordering) (p q : Program) : Prop where
  structs : Carries ρ.struct p.structs.toList q.structs.toList
  interfaces : Carries ρ.interface p.interfaces.toList q.interfaces.toList
  functions : Carries ρ.function (p.functions.toList.map ρ.relocate) q.functions.toList
  natives : Carries ρ.native p.natives.toList q.natives.toList
  structSymbols : q.structSymbols.Perm p.structSymbols
  interfaceSymbols : q.interfaceSymbols.Perm p.interfaceSymbols

namespace Carried

variable {ρ : Reordering} {p q : Program}

theorem structNames (h : p.Carried ρ q) : Carries ρ.struct p.structNames q.structNames :=
  h.structs.map (·.name)

theorem interfaceNames (h : p.Carried ρ q) :
    Carries ρ.interface p.interfaceNames q.interfaceNames :=
  h.interfaces.map (·.name)

theorem nativeNames (h : p.Carried ρ q) : Carries ρ.native p.nativeNames q.nativeNames :=
  h.natives.map (·.name)

theorem functionNames (h : p.Carried ρ q) : Carries ρ.function p.functionNames q.functionNames := by
  have hnames := h.functions.map (·.proto.name)
  rwa [List.map_map] at hnames

theorem size_functions (h : p.Carried ρ q) : q.functions.size = p.functions.size := by
  simpa using h.functions.perm.symm.length_eq

theorem listing (h : p.Carried ρ q) : p.listing.Perm q.listing :=
  h.structs.perm.flatMap_right _

theorem namesResolve (h : p.Carried ρ q) (hp : p.NamesResolve) : q.NamesResolve where
  structNames := h.structNames.perm.nodup_iff.mp hp.structNames
  interfaceNames := h.interfaceNames.perm.nodup_iff.mp hp.interfaceNames
  structSymbols n hn :=
    h.structNames.perm.mem_iff.mp (hp.structSymbols n ((h.structSymbols.map _).mem_iff.mp hn))
  interfaceSymbols n hn := h.interfaceNames.perm.mem_iff.mp
    (hp.interfaceSymbols n ((h.interfaceSymbols.map _).mem_iff.mp hn))
  functionNames := h.functionNames.perm.nodup_iff.mp hp.functionNames
  nativeNames := h.nativeNames.perm.nodup_iff.mp hp.nativeNames
  namesApart n hn hn' :=
    hp.namesApart n (h.nativeNames.perm.mem_iff.mpr hn) (h.functionNames.perm.mem_iff.mpr hn')

variable {d : StructDef} {e : Edge}

theorem implements (h : p.Carried ρ q) (he : p.Implements d e) : q.Implements d e := by
  obtain ⟨i, hi, hname, hlength⟩ := he.interface
  exact ⟨he.struct, ⟨i, h.interfaces.perm.mem_iff.mp hi, hname, hlength⟩,
    fun m hm => h.functionNames.perm.mem_iff.mp (he.methods m hm)⟩

theorem resolvable (h : p.Carried ρ q) (hp : p.Resolvable) : q.Resolvable where
  toNamesResolve := h.namesResolve hp.toNamesResolve
  edges de hde := h.implements (hp.edges de (h.listing.mem_iff.mpr hde))
  distinct d hd := hp.distinct d (h.structs.perm.mem_iff.mpr hd)

/-! ## The numbers of a resolved program -/

theorem structs_numbered (h : p.Carried ρ q) :
    Carries ρ.struct (p.numbered.structs.toList.map ρ.structDef) q.numbered.structs.toList := by
  simp only [numbered, Array.toList_mapIdx]
  exact h.structs.map_id.mapIdx fun k d => by simp [Reordering.structDef]

theorem interfaces_numbered (h : p.Carried ρ q) :
    Carries ρ.interface (p.numbered.interfaces.toList.map ρ.interfaceDef)
      q.numbered.interfaces.toList := by
  simp only [numbered, Array.toList_mapIdx]
  exact h.interfaces.map_id.mapIdx fun k d => by simp [Reordering.interfaceDef]

theorem functions_numbered (h : p.Carried ρ q) :
    Carries ρ.function (p.numbered.functions.toList.map ρ.functionDef)
      q.numbered.functions.toList := by
  simp only [numbered, Array.toList_mapIdx]
  exact h.functions.mapIdx fun k f => by simp [Reordering.functionDef, Reordering.relocate]

theorem natives_numbered (h : p.Carried ρ q) :
    Carries ρ.native (p.numbered.natives.toList.map (ρ.nativeDef p.functions.size))
      q.numbered.natives.toList := by
  simp only [numbered, Array.toList_mapIdx, h.size_functions]
  refine h.natives.map_id.mapIdx fun k n => ?_
  have hplace : (p.functions.size + k - p.functions.size : Int) = k := by omega
  simp [Reordering.nativeDef, hplace]

/-- An edge with its numbers has new numbers when the definitions move. -/
theorem link (h : p.Carried ρ q) (hp : p.NamesResolve) (he : p.Implements d e) (k : Nat) :
    q.link (ρ.struct k) e = ρ.edge (p.link k e) := by
  obtain ⟨i, hi, hei, -⟩ := he.interface
  have hinterface := h.interfaceNames.idxOf hp.interfaceNames (List.mem_map_of_mem hi)
  have hmethods : e.methods.map q.functionNames.idxOf =
      (e.methods.map p.functionNames.idxOf).map ρ.function := by
    rw [List.map_map]
    exact List.map_congr_left fun m hm => h.functionNames.idxOf hp.functionNames (he.methods m hm)
  simp [Program.link, Reordering.edge, hei, Symbol.name, hinterface, hmethods]

theorem links (h : p.Carried ρ q) (hp : p.Resolvable) : q.links.Perm (p.links.map ρ.edge) := by
  have hlisting : q.numbered.listing.Perm
      (p.numbered.listing.map fun de => (ρ.structDef de.1, de.2)) := by
    refine (h.structs_numbered.perm.symm.flatMap_right _).trans (.of_eq ?_)
    simp [Program.listing, List.flatMap_map, List.map_flatMap, Function.comp_def,
      Reordering.structDef]
  refine (hlisting.map _).trans (.of_eq ?_)
  rw [Program.links, List.map_map, List.map_map]
  refine List.map_congr_left fun de hde => ?_
  obtain ⟨d, e⟩ := de
  obtain ⟨k, d', -, rfl, -⟩ := mem_listing_numbered hde
  have he := implements_numbered_iff.mpr hp.edges _ hde
  simpa [Reordering.structDef] using h.link hp.toNamesResolve he k

/-- What resolution makes of a program with its definitions at new places. -/
theorem renumbers (h : p.Carried ρ q) (hp : p.Resolvable) :
    ρ.Renumbers { p.numbered.withEdges p.links with resolved := true }
      { q.numbered.withEdges q.links with resolved := true } where
  structs := h.structs_numbered
  interfaces := h.interfaces_numbered
  functions := h.functions_numbered
  natives := by
    have hsize : p.numbered.functions.size = p.functions.size := by simp [numbered]
    simpa only [withEdges, hsize] using h.natives_numbered
  structSymbols := h.structNames.placed hp.structNames hp.structSymbols h.structSymbols
  interfaceSymbols :=
    h.interfaceNames.placed hp.interfaceNames hp.interfaceSymbols h.interfaceSymbols
  edges := h.links hp
  resolved := ⟨rfl, rfl⟩

end Carried

end Program

/-! ## Loading -/

namespace Load

theorem readEdge_ok {names : Declared} {struct : String} {d : Option EdgeDoc} {e : Edge}
    (h : readEdge names struct d = .ok e) : e.struct = some (.interned struct) ∧
      ∃ i ∈ names.interfaces, e.interface = some (.interned i) := by
  obtain ⟨d, -, h⟩ := except_bind_ok h
  split at h
  · cases h
  · next hi =>
    cases h
    exact ⟨rfl, d.interface, by simpa using hi, rfl⟩

theorem readStruct_ok {names : Declared} {doc : StructDoc} {d : StructDef}
    (h : readStruct names doc = .ok d) : ∀ e ∈ d.edges, e.struct = some (.interned doc.name) ∧
      ∃ i ∈ names.interfaces, e.interface = some (.interned i) := by
  obtain ⟨members, -, h⟩ := except_bind_ok (within_ok h)
  obtain ⟨edges, hedges, h⟩ := except_bind_ok h
  cases h
  intro e he
  obtain ⟨_, -, hread⟩ := exists_of_mem_mapM hedges he
  exact readEdge_ok hread

theorem readBody_proto {s : Scope} {proto : Prototype} {d : Option ExprDoc} {f : Function}
    (h : readBody s proto d = .ok f) : f.proto = proto := by
  cases d with
  | none => cases h
  | some d =>
    rw [readBody] at h
    obtain ⟨⟨body, locals⟩, -, h⟩ := except_bind_ok h
    cases h
    rfl

section Reads

variable {doc : ProgramDoc} {s : Scope} {functions : List Function}

theorem Reads.interned (h : Reads doc s functions) : (s.program functions).Interned := by
  rintro ⟨d, e⟩ hde
  obtain ⟨k, hd, he⟩ := Program.mem_listing.mp hde
  obtain ⟨docs, -, hnames, hstructs⟩ := h.structs
  have hmem : d ∈ s.structs := by simpa [Scope.program] using Array.mem_of_getElem? hd
  obtain ⟨sdoc, hsdoc, hread⟩ := exists_of_mem_mapM hstructs hmem
  obtain ⟨hstruct, i, hi, hinterface⟩ := readStruct_ok hread e he
  have hname : sdoc.name ∈ s.names.structs := hnames ▸ List.mem_map_of_mem hsdoc
  refine ⟨sdoc.name, ?_, i, ?_, hstruct, hinterface⟩
  · simpa [Scope.program] using hname
  · simpa [Scope.program] using hi

theorem Reads.map_proto (h : Reads doc s functions) : functions.map (·.proto) = s.functions := by
  obtain ⟨protos, -, hprotos, hbodies⟩ := h.functions
  rw [hprotos]
  exact map_eq_of_mapM hbodies fun _ _ => readBody_proto

theorem Reads.distinct (h : Reads doc s functions) (hp : (s.program functions).NamesResolve) :
    s.Distinct where
  structs := hp.structNames
  interfaces := hp.interfaceNames
  natives := hp.nativeNames
  functions := by
    rw [← h.map_proto, List.map_map]
    exact hp.functionNames

end Reads

theorem nodup_eraseDups (names : List String) : names.eraseDups.Nodup := by
  match names with
  | [] => exact List.nodup_nil
  | n :: names =>
    rw [List.eraseDups_cons, List.nodup_cons]
    exact ⟨fun h => by simpa using List.mem_eraseDups.mp h, nodup_eraseDups _⟩
termination_by names.length
decreasing_by exact Nat.lt_succ_of_le (List.length_filter_le _ _)

theorem eraseDups_perm (h : names.Perm names') : names.eraseDups.Perm names'.eraseDups := by
  refine (List.perm_ext_iff_of_nodup (nodup_eraseDups _) (nodup_eraseDups _)).mpr fun n => ?_
  rw [List.mem_eraseDups, List.mem_eraseDups, h.mem_iff]

theorem Scope.Carried.program {ρ : Reordering} {s s' : Scope} {functions functions' : List Function}
    (h : s.Carried ρ s') (hf : Carries ρ.function (functions.map ρ.relocate) functions') :
    (s.program functions).Carried ρ (s'.program functions') where
  structs := h.structs
  interfaces := h.interfaces
  functions := hf
  natives := h.natives
  structSymbols := (eraseDups_perm h.structNames.perm.symm).map _
  interfaceSymbols := (eraseDups_perm h.interfaceNames.perm.symm).map _

end Load

namespace Program

theorem ofDoc_of_resolve {doc : ProgramDoc} {q p : Program} (hq : Load.assemble doc = .ok q)
    (hp : q.resolve = (p, none)) : ofDoc doc = .ok p := by
  simp only [ofDoc, hq, bind, Except.bind, hp]
  rfl

/-- A document that loads to a program still does with its definitions in another order, and
the new program has new numbers. -/
theorem ofDoc_of_rearranges {ρ : Reordering} {doc doc' : ProgramDoc} (hρ : ρ.Rearranges doc doc')
    {p : Program} (h : ofDoc doc = .ok p) : ∃ p', ofDoc doc' = .ok p' ∧ ρ.Renumbers p p' := by
  obtain ⟨q, hq, hresolve⟩ := ofDoc_ok h
  obtain ⟨s, functions, hreads, rfl⟩ := Load.assemble_eq_ok_iff.mp hq
  obtain ⟨hresolvable, rfl⟩ := (resolve_eq_iff_resolvable hreads.interned).mp hresolve
  obtain ⟨s', functions', hreads', hscope, hfunctions⟩ :=
    hreads.rearranged (hreads.distinct hresolvable.toNamesResolve) hρ
  have hcarried := hscope.program hfunctions
  have hresolve' := (resolve_eq_iff_resolvable hreads'.interned).mpr
    ⟨hcarried.resolvable hresolvable, rfl⟩
  have hq' := Load.assemble_eq_ok_iff.mpr ⟨s', functions', hreads', rfl⟩
  exact ⟨_, ofDoc_of_resolve hq' hresolve', hcarried.renumbers hresolvable⟩

end Program

/-- Two documents list the same definitions, each kind in an order of its own. -/
structure ProgramDoc.Permuted (doc doc' : ProgramDoc) : Prop where
  structs : doc.structs.Perm doc'.structs
  interfaces : doc.interfaces.Perm doc'.interfaces
  natives : doc.natives.Perm doc'.natives
  functions : doc.functions.Perm doc'.functions

theorem Reordering.Rearranges.symm {ρ : Reordering} (h : ρ.Rearranges doc doc') :
    ρ.symm.Rearranges doc' doc :=
  ⟨h.structs.symm, h.interfaces.symm, h.natives.symm, h.functions.symm⟩

theorem ProgramDoc.Permuted.exists_rearranges (h : doc.Permuted doc') :
    ∃ ρ : Reordering, ρ.Rearranges doc doc' := by
  obtain ⟨struct, hstruct⟩ := exists_carries h.structs
  obtain ⟨interface, hinterface⟩ := exists_carries h.interfaces
  obtain ⟨native, hnative⟩ := exists_carries h.natives
  obtain ⟨function, hfunction⟩ := exists_carries h.functions
  exact ⟨⟨struct, interface, native, function⟩, hstruct, hinterface, hnative, hfunction⟩

/-- **The order of definitions does not matter.**  Of two documents that list the same
definitions, one loads if the other does; and whichever way the definitions of the first are
found in the second, the two programs differ by the numbers that this gives them. -/
theorem Program.ofDoc_permuted {doc doc' : ProgramDoc} (h : doc.Permuted doc') :
    (∃ ρ : Reordering, ρ.Rearranges doc doc') ∧
      ((∃ p, Program.ofDoc doc = .ok p) ↔ ∃ p', Program.ofDoc doc' = .ok p') ∧
      ∀ ρ : Reordering, ρ.Rearranges doc doc' → ∀ p p', Program.ofDoc doc = .ok p →
        Program.ofDoc doc' = .ok p' → ρ.Renumbers p p' := by
  obtain ⟨ρ, hρ⟩ := h.exists_rearranges
  refine ⟨⟨ρ, hρ⟩, ⟨?_, ?_⟩, ?_⟩
  · rintro ⟨p, hp⟩
    obtain ⟨p', hp', -⟩ := ofDoc_of_rearranges hρ hp
    exact ⟨p', hp'⟩
  · rintro ⟨p', hp'⟩
    obtain ⟨p, hp, -⟩ := ofDoc_of_rearranges hρ.symm hp'
    exact ⟨p, hp⟩
  · intro ρ hρ p p' hp hp'
    obtain ⟨q, hq, hrenumbers⟩ := ofDoc_of_rearranges hρ hp
    rw [hp'] at hq
    cases hq
    exact hrenumbers

/-- Two structs that implement an interface by functions that call each other and an extern. -/
def shapes : ProgramDoc where
  structs :=
    [some { name := "Square", members := [some { name := "side", type := "int" }],
            edges := [some { interface := "Shape", methods := ["squareArea"] }] },
     some { name := "Unit", members := [some { name := "inner", type := "own yonder Square" }],
            edges := [some { interface := "Shape", methods := ["unitArea"] }] }]
  interfaces :=
    [some { name := "Shape",
            methods :=
              [some { name := "area", params := ["borrow yonder Shape"], result := "int" }] },
     some { name := "Drawn" }]
  natives := [some { name := "measure", result := "int" }, some { name := "draw" }]
  functions :=
    [some { proto := { name := "squareArea", params := ["borrow yonder Square"], result := "int" },
            body := some { kind := "ExternCall", function := "measure" } },
     some { proto := { name := "unitArea", params := ["borrow yonder Unit"], result := "int" },
            body := some { kind := "Call", function := "squareArea", args :=
              [some { kind := "MemberLoad", type := "borrow yonder Unit", member := "inner",
                      expected := "borrow yonder Square", struct := some
                        { kind := "Argument", type := "borrow yonder Unit" } }] } }]

/-- The definitions of a document, last ones first. -/
def ProgramDoc.reversed (doc : ProgramDoc) : ProgramDoc :=
  ⟨doc.structs.reverse, doc.interfaces.reverse, doc.natives.reverse, doc.functions.reverse⟩

theorem ProgramDoc.permuted_reversed (doc : ProgramDoc) : doc.Permuted doc.reversed :=
  ⟨(List.reverse_perm _).symm, (List.reverse_perm _).symm, (List.reverse_perm _).symm,
    (List.reverse_perm _).symm⟩

theorem Program.ofDoc_permuted_shapes :
    shapes.Permuted shapes.reversed ∧ ∃ (ρ : Reordering) (p p' : Program),
      ρ.Rearranges shapes shapes.reversed ∧ Program.ofDoc shapes = .ok p ∧
        Program.ofDoc shapes.reversed = .ok p' ∧ ρ.Renumbers p p' := by
  have hpermuted := shapes.permuted_reversed
  obtain ⟨⟨ρ, hρ⟩, hloads, hrenumbers⟩ := Program.ofDoc_permuted hpermuted
  have hok : (Program.ofDoc shapes).toBool = true := by decide +kernel
  obtain ⟨p, hp⟩ : ∃ p, Program.ofDoc shapes = .ok p := by
    cases h : Program.ofDoc shapes with
    | error e => simp [h, Except.toBool] at hok
    | ok p => exact ⟨p, rfl⟩
  obtain ⟨p', hp'⟩ := hloads.mp ⟨p, hp⟩
  exact ⟨hpermuted, ρ, p, p', hρ, hp, hp', hrenumbers ρ hρ p p' hp hp'⟩

end Tenure

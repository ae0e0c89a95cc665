import Tenure.Program.Registry
import Mathlib.Data.List.Forall2
import Mathlib.Data.List.Nodup
import Mathlib.Tactic.Common

/-!
# What resolution does

Resolution runs through its steps in a fixed order and stops at the first fault.
Here each step is described by an equivalence: it succeeds exactly if a condition on
names holds, and then it has set exactly the numbers of one table.  Put together,
they say when a program is resolved and what it is then.

* `Program.numbered`: the program with all numbers set.
* `Program.resolve_eq_iff`: the successful resolutions.
* `Program.resolve_ok`: what every resolved program has.
-/

namespace Tenure.Program

variable {p q : Program} {u : Unit}
variable {n : String} {α : Type} {k : Nat} {fault : String → ResolveError} {d : StructDef}
variable {e : Edge} {rs : List ResolvedEdge} {s i : Int}

/-! ## Names and numbers -/

def structNames (p : Program) : List String := p.structs.toList.map (·.name)

def interfaceNames (p : Program) : List String := p.interfaces.toList.map (·.name)

def functionNames (p : Program) : List String := p.functions.toList.map (·.proto.name)

def nativeNames (p : Program) : List String := p.natives.toList.map (·.name)

/-- The edges that the structs list, each with its struct. -/
def listing (p : Program) : List (StructDef × Edge) :=
  p.structs.toList.flatMap fun d => d.edges.map (d, ·)

/-- A symbol table in which every name has the place of its definition. -/
def placed (defined : List String) (table : List (String × Int)) : List (String × Int) :=
  table.map fun entry => (entry.1, (defined.idxOf entry.1 : Int))

/-- The program with all definitions numbered by their places and all interned names
placed. -/
def numbered (p : Program) : Program :=
  { p with
    structs := p.structs.mapIdx fun k d => { d with id := k }
    interfaces := p.interfaces.mapIdx fun k d => { d with id := k }
    structSymbols := placed p.structNames p.structSymbols
    interfaceSymbols := placed p.interfaceNames p.interfaceSymbols
    functions := p.functions.mapIdx fun k f => { f with proto := { f.proto with id := k } }
    natives := p.natives.mapIdx fun k n => { n with id := p.functions.size + k } }

variable {β : Type} {defined seen ms : List String} {table : List (String × Int)} {ds : Array α}
variable {name : α → String} {setId : α → Int → α} {next : Int} {fs : List Nat} {r : ResolvedEdge}
variable {b : β}

theorem symbolId_placed (h : n ∈ table.map (·.1)) : symbolId (placed defined table) (.interned n) =
      defined.idxOf n := by
  induction table with
  | nil => cases h
  | cons entry table ih =>
    by_cases hn : entry.1 = n
    · subst hn
      simp [symbolId, placed]
    · have htail : n ∈ table.map (·.1) := by simpa [Ne.symm hn] using h
      rw [← ih htail]
      simp [symbolId, placed, hn]

@[simp] theorem map_placed (defined : List String) (table : List (String × Int)) :
    (placed defined table).map (·.1) = table.map (·.1) := by
  simp [placed, Function.comp_def]

@[simp] theorem placed_placed (defined : List String) (table : List (String × Int)) :
    placed defined (placed defined table) = placed defined table := by
  simp [placed, Function.comp_def]

/-- A name stands at the place where it is found. -/
theorem getElem?_idxOf (name : α → String) (hn : n ∈ ds.toList.map name) :
    ∃ d, ds[(ds.toList.map name).idxOf n]? = some d ∧ name d = n := by
  have hlt := List.idxOf_lt_length_of_mem hn
  have hget := List.getElem_idxOf hlt
  rw [List.getElem_map, Array.getElem_toList] at hget
  exact ⟨_, Array.getElem?_eq_getElem (by simpa using hlt), hget⟩

/-- A definition is found where it stands, if no other has its name. -/
theorem idxOf_of_getElem? (name : α → String) {d : α} (hnames : (ds.toList.map name).Nodup)
    (hd : ds[k]? = some d) :
    name d ∈ ds.toList.map name ∧ (ds.toList.map name).idxOf (name d) = k := by
  obtain ⟨hlt, rfl⟩ := Array.getElem?_eq_some_iff.mp hd
  have hlt' : k < (ds.toList.map name).length := by simpa using hlt
  have hname : (ds.toList.map name)[k] = name ds[k] := by simp
  rw [← hname]
  exact ⟨List.getElem_mem hlt', hnames.idxOf_getElem k hlt'⟩

/-- Of definitions with different names, one has the name of a given one. -/
theorem filter_name (name : α → String) {ds : List α} {d : α} (hnames : (ds.map name).Nodup) (hd : d ∈ ds) :
    ds.filter (name · == name d) = [d] := by
  induction ds with
  | nil => cases hd
  | cons d' ds ih =>
    obtain ⟨hnew, hnames⟩ := List.nodup_cons.1 hnames
    rcases List.mem_cons.1 hd with rfl | hd
    · have hnone : ∀ d' ∈ ds, ¬(name d' == name d) = true := fun d' hd' heq =>
        hnew (List.mem_map.2 ⟨d', hd', by simpa using heq⟩)
      rw [List.filter_cons_of_pos (by simp), List.filter_eq_nil_iff.2 hnone]
    · have hne : name d' ≠ name d := fun heq => hnew (List.mem_map.2 ⟨d, hd, heq.symm⟩)
      rw [List.filter_cons_of_neg (by simpa using hne), ih hnames hd]

/-! ## The steps, one by one -/

theorem bind_eq_match (x : Resolving α) (k : α → Resolving β) (p : Program) :
    (x >>= k) p = match x p with
      | .ok a q => k a q
      | .error e q => .error e q := by
  show EStateM.bind x k p = _
  rw [EStateM.bind]
  cases x p <;> rfl

theorem bind_eq_ok_iff {x : Resolving α} {k : α → Resolving β} :
    (x >>= k) p = .ok b q ↔ ∃ a r, x p = .ok a r ∧ k a r = .ok b q := by
  rw [bind_eq_match]
  cases x p <;> simp

/-- A step that succeeds under a condition, with a result that is known, comes first. -/
theorem bind_eq_ok_iff_of {x : Resolving Unit} {k : Unit → Resolving β} {A : Prop} {r : Program}
    (hx : ∀ {u q}, x p = .ok u q ↔ A ∧ q = r) : (x >>= k) p = .ok b q ↔ A ∧ k () r = .ok b q := by
  rw [bind_eq_ok_iff]
  constructor
  · rintro ⟨u, _, h1, h2⟩
    obtain ⟨hA, rfl⟩ := hx.mp h1
    exact ⟨hA, h2⟩
  · rintro ⟨hA, h⟩
    exact ⟨(), r, hx.mpr ⟨hA, rfl⟩, h⟩

theorem raise?_eq_ok_iff {e : Option ResolveError} : raise? e p = .ok u q ↔ e = none ∧ p = q := by
  cases e with
  | none =>
    change EStateM.Result.ok () p = .ok u q ↔ _
    simp
  | some e =>
    change EStateM.Result.error e p = .ok u q ↔ _
    simp

/-- Numbering changes nothing but the numbers. -/
theorem map_numberFrom {ds : List α} {g : α → β} (hg : ∀ d n, g (setId d n) = g d) :
    (numberFrom name setId fault next seen ds).1.map g = ds.map g := by
  induction ds generalizing next seen with
  | nil => rfl
  | cons d ds ih =>
    rw [numberFrom]
    split
    · rfl
    · simp [hg, ih]

/-- Numbering fails at the first name that was seen before. -/
theorem numberFrom_eq_none_iff {ds : List α} :
    (numberFrom name setId fault next seen ds).2 = none ↔
      (ds.map name).Nodup ∧ ∀ n ∈ ds.map name, n ∉ seen := by
  induction ds generalizing next seen with
  | nil => simp [numberFrom]
  | cons d ds ih =>
    rw [numberFrom, List.map_cons, List.nodup_cons, List.forall_mem_cons]
    by_cases hseen : name d ∈ seen
    · simp [hseen]
    · rw [if_neg (by simpa using hseen)]
      refine ih.trans ?_
      simp only [List.mem_cons, not_or, forall_and]
      have hnew : (∀ n ∈ ds.map name, n ≠ name d) ↔ name d ∉ ds.map name :=
        ⟨fun h hmem => h _ hmem rfl, fun h n hn heq => h (heq ▸ hn)⟩
      tauto

theorem numberFrom_fst {ds : List α} (h : (numberFrom name setId fault next seen ds).2 = none) :
    (numberFrom name setId fault next seen ds).1 = ds.mapIdx fun k d => setId d (next + k) := by
  induction ds generalizing next seen with
  | nil => rfl
  | cons d ds ih =>
    rw [numberFrom] at h ⊢
    split at h
    · cases h
    · next hd =>
      rw [if_neg hd]
      dsimp only at h ⊢
      rw [ih h, List.mapIdx_cons]
      refine List.cons_eq_cons.mpr ⟨by simp, ?_⟩
      congr 1
      funext k d
      push_cast
      rw [Int.add_assoc, Int.add_comm 1]

/-- A step that numbers one table of the program: it succeeds if the names are new, and then
it has numbered the table. -/
theorem raise?_numberFrom_iff (name : α → String) (setId : α → Int → α)
    (fault : String → ResolveError) (next : Int) (seen : List String) (ds : Array α)
    (put : Array α → Program) :
    raise? (numberFrom name setId fault next seen ds.toList).2
        (put (numberFrom name setId fault next seen ds.toList).1.toArray) = .ok u q ↔
      ((ds.toList.map name).Nodup ∧ ∀ n ∈ ds.toList.map name, n ∉ seen) ∧
        q = put (ds.mapIdx fun k d => setId d (next + k)) := by
  rw [raise?_eq_ok_iff, numberFrom_eq_none_iff]
  refine and_congr_right fun h => ?_
  rw [numberFrom_fst (numberFrom_eq_none_iff.mpr h), ← List.mapIdx_toArray,
    Array.toArray_toList]
  exact eq_comm

theorem numberStructs_eq_ok_iff : numberStructs p = .ok u q ↔
    p.structNames.Nodup ∧ q = { p with structs := p.numbered.structs } := by
  refine (raise?_numberFrom_iff StructDef.name (fun d n => { d with id := n }) .duplicateStruct 0 []
    p.structs (fun ds => { p with structs := ds })).trans ?_
  simp [numbered, structNames]

theorem numberInterfaces_eq_ok_iff : numberInterfaces p = .ok u q ↔
    p.interfaceNames.Nodup ∧ q = { p with interfaces := p.numbered.interfaces } := by
  refine (raise?_numberFrom_iff InterfaceDef.name (fun d n => { d with id := n })
    .duplicateInterface 0 [] p.interfaces (fun ds => { p with interfaces := ds })).trans ?_
  simp [numbered, interfaceNames]

theorem numberFunctions_eq_ok_iff : numberFunctions p = .ok u q ↔
    p.functionNames.Nodup ∧ q = { p with functions := p.numbered.functions } := by
  refine (raise?_numberFrom_iff (fun f : Function => f.proto.name)
    (fun f n => { f with proto := { f.proto with id := n } }) .duplicateFunction 0 [] p.functions
    (fun fs => { p with functions := fs })).trans ?_
  simp [numbered, functionNames]

theorem numberNatives_eq_ok_iff : numberNatives p = .ok u q ↔
    (p.nativeNames.Nodup ∧ ∀ n ∈ p.nativeNames, n ∉ p.functionNames) ∧
      q = { p with natives := p.numbered.natives } :=
  raise?_numberFrom_iff Prototype.name (fun d n => { d with id := n }) .nativeCollision
    p.functions.size p.functionNames p.natives fun ns => { p with natives := ns }

theorem idxOf?_of_mem {names : List String} (h : n ∈ names) :
    names.idxOf? n = some (names.idxOf n) := by
  obtain ⟨i, hi⟩ := Option.isSome_iff_exists.mp (List.isSome_idxOf?.mpr h)
  rw [List.idxOf_eq_getD_idxOf?, hi]
  rfl

/-- Looking names up fails at the first one that is not defined. -/
theorem resolveSymbols_eq_none_iff : (resolveSymbols defined fault table).2 = none ↔
    ∀ n ∈ table.map (·.1), n ∈ defined := by
  induction table with
  | nil => simp [resolveSymbols]
  | cons entry table ih =>
    rw [resolveSymbols, List.map_cons, List.forall_mem_cons, ← ih]
    by_cases hn : entry.1 ∈ defined
    · simp [idxOf?_of_mem hn, hn]
    · simp [List.idxOf?_eq_none_iff.mpr hn, hn]

theorem resolveSymbols_fst (h : ∀ n ∈ table.map (·.1), n ∈ defined) :
    (resolveSymbols defined fault table).1 = placed defined table := by
  induction table with
  | nil => rfl
  | cons entry table ih =>
    obtain ⟨hn, hrest⟩ := List.forall_mem_cons.mp h
    rw [resolveSymbols, idxOf?_of_mem hn]
    exact congrArg (List.cons _) (ih hrest)

/-- A step that places the names of one symbol table: it succeeds if all are defined. -/
theorem raise?_resolveSymbols_iff (defined : List String) (fault : String → ResolveError)
    (table : List (String × Int)) (put : List (String × Int) → Program) :
    raise? (resolveSymbols defined fault table).2 (put (resolveSymbols defined fault table).1) =
        .ok u q ↔
      (∀ n ∈ table.map (·.1), n ∈ defined) ∧ q = put (placed defined table) := by
  rw [raise?_eq_ok_iff, resolveSymbols_eq_none_iff]
  refine and_congr_right fun h => ?_
  rw [resolveSymbols_fst h]
  exact eq_comm

theorem resolveStructSymbols_eq_ok_iff : resolveStructSymbols p = .ok u q ↔
    (∀ n ∈ p.structSymbols.map (·.1), n ∈ p.structNames) ∧
      q = { p with structSymbols := p.numbered.structSymbols } :=
  raise?_resolveSymbols_iff p.structNames .undefinedStruct p.structSymbols
    fun table => { p with structSymbols := table }

theorem resolveInterfaceSymbols_eq_ok_iff : resolveInterfaceSymbols p = .ok u q ↔
    (∀ n ∈ p.interfaceSymbols.map (·.1), n ∈ p.interfaceNames) ∧
      q = { p with interfaceSymbols := p.numbered.interfaceSymbols } :=
  raise?_resolveSymbols_iff p.interfaceNames .undefinedInterface p.interfaceSymbols
    fun table => { p with interfaceSymbols := table }

/-! ## Edges -/

/-- An accepted edge belongs to one that a struct lists: its functions are those
that are named there. -/
structure Accepted (p : Program) (r : ResolvedEdge) (d : StructDef) (e : Edge) : Prop where
  struct : e.struct = some r.struct
  interface : e.interface = some r.interface
  structId : p.structId r.struct = r.structId
  ownId : d.id = r.structId
  interfaceDef : ∃ i, p.interface? (p.interfaceId r.interface) = some i ∧ i.id = r.interfaceId ∧
    r.methods.length = i.methods.length
  methods : List.Forall₂ (fun f m => ∃ g, p.functions[f]? = some g ∧ g.proto.name = m)
    r.methods e.methods

/-- What is accepted does not depend on the edges accepted so far. -/
theorem Accepted.congr (h : p.Accepted r d e) (hs : q.structSymbols = p.structSymbols)
    (hn : q.interfaceSymbols = p.interfaceSymbols) (hi : q.interfaces = p.interfaces)
    (hf : q.functions = p.functions) : q.Accepted r d e where
  struct := h.struct
  interface := h.interface
  structId := by
    unfold Program.structId
    rw [hs]
    exact h.structId
  ownId := h.ownId
  interfaceDef := by
    unfold Program.interface? Program.interfaceId
    rw [hi, hn]
    exact h.interfaceDef
  methods := by
    rw [hf]
    exact h.methods

/-- A relation that determines its first argument relates one list only to another. -/
theorem forall₂_iff_eq_map {R : α → β → Prop} {P : β → Prop} {g : β → α} {as : List α} {bs : List β}
    (h : ∀ b ∈ bs, ∀ a, R a b ↔ P b ∧ a = g b) :
    List.Forall₂ R as bs ↔ (∀ b ∈ bs, P b) ∧ as = bs.map g := by
  induction bs generalizing as with
  | nil => simp
  | cons b bs ih =>
    obtain ⟨hb, hbs⟩ := List.forall_mem_cons.mp h
    cases as with
    | nil => simp
    | cons a as =>
      rw [List.forall₂_cons, hb, ih hbs, List.forall_mem_cons, List.map_cons, List.cons_eq_cons]
      tauto

/-- The functions that stand at given places are those of given names. -/
theorem forall₂_functions_iff (hnames : p.functionNames.Nodup) :
    List.Forall₂ (fun f m => ∃ g, p.functions[f]? = some g ∧ g.proto.name = m) fs ms ↔
      (∀ m ∈ ms, m ∈ p.functionNames) ∧ fs = ms.map p.functionNames.idxOf := by
  refine forall₂_iff_eq_map fun m _ f => ⟨?_, ?_⟩
  · rintro ⟨g, hg, rfl⟩
    obtain ⟨hmem, hf⟩ := idxOf_of_getElem? (fun f : Function => f.proto.name) hnames hg
    exact ⟨hmem, hf.symm⟩
  · rintro ⟨hmem, rfl⟩
    exact getElem?_idxOf (fun f : Function => f.proto.name) hmem

theorem implementations_eq_ok_iff (hnames : p.functionNames.Nodup) {s i : String} :
    implementations p s i ms = .ok fs ↔
      List.Forall₂ (fun f m => ∃ g, p.functions[f]? = some g ∧ g.proto.name = m) fs ms := by
  rw [forall₂_functions_iff hnames]
  induction ms generalizing fs with
  | nil => simp [implementations, eq_comm]
  | cons m ms ih =>
    have hplace : p.functions.toList.findIdx? (·.proto.name == m) = p.functionNames.idxOf? m := by
      rw [functionNames, List.idxOf?, List.findIdx?_map]
      rfl
    rw [implementations, hplace, List.forall_mem_cons]
    by_cases hm : m ∈ p.functionNames
    · rw [idxOf?_of_mem hm]
      cases himpl : implementations p s i ms with
      | error e =>
        have hnone : ¬ ∀ m ∈ ms, m ∈ p.functionNames := fun hms => by
          have hok := ih.mpr ⟨hms, rfl⟩
          rw [himpl] at hok
          cases hok
        simp only [Except.map, reduceCtorEq, false_iff, not_and]
        tauto
      | ok fs' =>
        obtain ⟨hms, rfl⟩ := ih.mp himpl
        simp only [Except.map, Except.ok.injEq, hm, true_and, List.map_cons]
        exact ⟨fun h => ⟨hms, h.symm⟩, fun h => h.2.symm⟩
    · simp [List.idxOf?_eq_none_iff.mpr hm, hm]

theorem resolveEdge_ok (hnames : p.functionNames.Nodup) (h : resolveEdge p d e = .ok r) :
    Accepted p r d e ∧ p.edgeIndex? r.structId r.interfaceId = none := by
  unfold resolveEdge at h
  cases hs : e.struct with
  | none =>
    rw [hs] at h
    cases h
  | some s =>
    simp only [hs] at h
    by_cases hid : p.structId s ≠ d.id
    · rw [if_pos hid] at h
      cases h
    rw [if_neg hid] at h
    cases hi : e.interface with
    | none =>
      rw [hi] at h
      cases h
    | some i =>
      simp only [hi] at h
      cases hdef : p.interface? (p.interfaceId i) with
      | none =>
        rw [hdef] at h
        cases h
      | some idef =>
        simp only [hdef] at h
        by_cases hlen : e.methods.length ≠ idef.methods.length
        · rw [if_pos hlen] at h
          cases h
        rw [if_neg hlen] at h
        cases hfs : implementations p d.name idef.name e.methods with
        | error fault =>
          rw [hfs] at h
          cases h
        | ok fs =>
          rw [hfs] at h
          by_cases hdup : (p.edgeIndex? d.id idef.id).isSome
          · change (if _ then _ else _ : Except ResolveError ResolvedEdge) = _ at h
            rw [if_pos hdup] at h
            cases h
          · change (if _ then _ else _ : Except ResolveError ResolvedEdge) = _ at h
            rw [if_neg hdup] at h
            cases h
            have hmethods := (implementations_eq_ok_iff hnames).mp hfs
            refine ⟨⟨hs, hi, not_not.mp hid, rfl, ⟨idef, hdef, rfl, ?_⟩, hmethods⟩,
              by simpa using hdup⟩
            rw [hmethods.length_eq]
            exact not_not.mp hlen

/-- An edge that can be accepted is accepted, unless there is one for its key. -/
theorem resolveEdge_eq (hnames : p.functionNames.Nodup) (h : p.Accepted r d e)
    (hnew : p.edgeIndex? r.structId r.interfaceId = none) : resolveEdge p d e = .ok r := by
  obtain ⟨hs, hi, hid, hown, ⟨idef, hdef, hidef, hlen⟩, hmethods⟩ := h
  have hlen' : e.methods.length = idef.methods.length := hmethods.length_eq ▸ hlen
  have hid' : p.structId r.struct = d.id := hid.trans hown.symm
  have hnew' : (p.edgeIndex? d.id idef.id).isSome = false := by rw [hown, hidef, hnew]; rfl
  have hmethods' := (implementations_eq_ok_iff hnames (s := d.name) (i := idef.name)).mpr hmethods
  simp only [resolveEdge, hs, hi, hdef, hid', hlen', hmethods', hnew', ne_eq, not_true_eq_false,
    Bool.false_eq_true, if_false]
  show Except.ok _ = Except.ok r
  rw [hown, hidef]

/-- The struct and the interface of an edge. -/
def edgeKeys (rs : List ResolvedEdge) : List (Int × Int) :=
  rs.map fun r => (r.structId, r.interfaceId)

/-- The places of edges by their keys. -/
def edgePlaces (rs : List ResolvedEdge) : List ((Int × Int) × Nat) :=
  (edgeKeys rs).zipIdx.reverse

/-- A program with other edges. -/
def withEdges (p : Program) (rs : List ResolvedEdge) : Program :=
  { p with edges := rs, edgeTable := edgePlaces rs }

theorem edgeTable_addEdge (h : p.edgeTable = edgePlaces p.edges) (r : ResolvedEdge) :
    (p.addEdge r).edgeTable = edgePlaces (p.addEdge r).edges := by
  simp [addEdge, edgePlaces, edgeKeys, h, List.zipIdx_append]

theorem edgeIndex?_some (htable : p.edgeTable = edgePlaces p.edges)
    (h : p.edgeIndex? s i = some k) : (edgeKeys p.edges)[k]? = some (s, i) := by
  rw [edgeIndex?, htable] at h
  obtain ⟨l, l', hplaces, -⟩ := List.lookup_eq_some_iff.mp h
  have hmem : ((s, i), k) ∈ edgePlaces p.edges := by simp [hplaces]
  exact List.mem_zipIdx_iff_getElem?.mp (List.mem_reverse.mp hmem)

theorem edgeIndex?_eq_none_iff (htable : p.edgeTable = edgePlaces p.edges) :
    p.edgeIndex? s i = none ↔ (s, i) ∉ edgeKeys p.edges := by
  rw [edgeIndex?, htable, List.lookup_eq_none_iff]
  constructor
  · intro h hmem
    obtain ⟨k, hk⟩ := List.mem_iff_getElem?.mp hmem
    have hplace : ((s, i), k) ∈ edgePlaces p.edges :=
      List.mem_reverse.mpr (List.mem_zipIdx_iff_getElem?.mpr hk)
    simpa using h _ hplace
  · intro h place hplace
    have hkey := List.mem_zipIdx_iff_getElem?.mp (List.mem_reverse.mp hplace)
    refine bne_iff_ne.mpr fun heq => h ?_
    rw [heq]
    exact List.mem_of_getElem? hkey

/-- The accepted edges of a program are those that its structs list, in order; no two
are between the same struct and the same interface, and the table has their places. -/
structure Linked (p : Program) : Prop where
  accepted : List.Forall₂ (fun r de => p.Accepted r de.1 de.2) p.edges
    (p.structs.toList.flatMap fun d => d.edges.map (d, ·))
  distinct : (edgeKeys p.edges).Nodup
  table : p.edgeTable = edgePlaces p.edges

/-- The table of edges agrees with their list. -/
theorem Linked.edgeIndex?_eq_some_iff (h : p.Linked) :
    p.edgeIndex? s i = some k ↔ (edgeKeys p.edges)[k]? = some (s, i) := by
  refine ⟨edgeIndex?_some h.table, fun hk => ?_⟩
  cases hfound : p.edgeIndex? s i with
  | none =>
    exact absurd (List.mem_of_getElem? hk) ((edgeIndex?_eq_none_iff h.table).mp hfound)
  | some m =>
    have hm := edgeIndex?_some h.table hfound
    obtain ⟨hlt, -⟩ := List.getElem?_eq_some_iff.mp hm
    rw [(List.getElem?_inj hlt h.distinct).mp (hm.trans hk.symm)]

/-- The edge that is found between a struct and an interface. -/
theorem Linked.edgeIndex?_eq (h : p.Linked) {e : ResolvedEdge} (hk : p.edges[k]? = some e) :
    p.edgeIndex? e.structId e.interfaceId = some k :=
  h.edgeIndex?_eq_some_iff.mpr (by simp [edgeKeys, hk])

theorem addEdges_cons (d : StructDef) (e : Edge) (es : List (StructDef × Edge)) (p : Program) :
    addEdges ((d, e) :: es) p = (match resolveEdge p d e with
      | .error fault => throw fault
      | .ok r => do
        modify (addEdge · r)
        addEdges es : Resolving Unit) p :=
  rfl

theorem addEdges_ok {es : List (StructDef × Edge)} (hnames : p.functionNames.Nodup)
    (h : addEdges es p = .ok u q) (hnodup : (edgeKeys p.edges).Nodup) (htable : p.edgeTable = edgePlaces p.edges) :
    ∃ rs, q = p.withEdges (p.edges ++ rs) ∧
      List.Forall₂ (fun r de => p.Accepted r de.1 de.2) rs es ∧
      (edgeKeys (p.edges ++ rs)).Nodup := by
  induction es generalizing p with
  | nil =>
    injection h with _ hp
    subst hp
    exact ⟨[], by simp [withEdges, ← htable], .nil, by simpa using hnodup⟩
  | cons de es ih =>
    obtain ⟨d, e⟩ := de
    rw [addEdges_cons] at h
    cases hedge : resolveEdge p d e with
    | error fault =>
      rw [hedge] at h
      cases h
    | ok r =>
      rw [hedge] at h
      replace h : addEdges es (p.addEdge r) = .ok u q := h
      obtain ⟨haccepted, hnew⟩ := resolveEdge_ok hnames hedge
      have hkeys : (edgeKeys (p.edges ++ [r])).Nodup := by
        rw [edgeKeys, List.map_append]
        refine List.nodup_append.mpr ⟨hnodup, by simp, fun k hk k' hr heq => ?_⟩
        obtain rfl := List.mem_singleton.mp hr
        subst heq
        exact (edgeIndex?_eq_none_iff htable).mp hnew hk
      obtain ⟨rs, rfl, hrs, hnodup'⟩ :=
        ih (p := p.addEdge r) hnames h hkeys (edgeTable_addEdge htable r)
      refine ⟨r :: rs, by simp [withEdges, addEdge],
        .cons haccepted (hrs.imp fun _ _ h => h.congr rfl rfl rfl rfl), by
          simpa [addEdge] using hnodup'⟩

theorem addEdges_eq {es : List (StructDef × Edge)} (hnames : p.functionNames.Nodup)
    (haccepted : List.Forall₂ (fun r de => p.Accepted r de.1 de.2) rs es)
    (hkeys : (edgeKeys (p.edges ++ rs)).Nodup) (htable : p.edgeTable = edgePlaces p.edges) :
    addEdges es p = .ok () (p.withEdges (p.edges ++ rs)) := by
  induction es generalizing p rs with
  | nil =>
    cases haccepted
    rw [List.append_nil, withEdges, ← htable]
    rfl
  | cons de es ih =>
    cases haccepted with
    | @cons r _ rs _ hr hrs =>
    obtain ⟨d, e⟩ := de
    have hkeys' : (edgeKeys (p.edges ++ [r] ++ rs)).Nodup := by simpa using hkeys
    have hnew : p.edgeIndex? r.structId r.interfaceId = none := by
      rw [edgeIndex?_eq_none_iff htable]
      rw [edgeKeys, List.map_append, List.map_cons] at hkeys
      exact fun hmem => (List.disjoint_of_nodup_append hkeys) hmem List.mem_cons_self
    have hrest := ih (p := p.addEdge r) hnames
      (hrs.imp fun _ _ h => h.congr rfl rfl rfl rfl) hkeys' (edgeTable_addEdge htable r)
    rw [addEdge, List.append_assoc] at hrest
    rw [addEdges_cons, resolveEdge_eq hnames hr hnew]
    exact hrest

theorem resolveEdges_eq_ok_iff (hnames : p.functionNames.Nodup) : resolveEdges p = .ok u q ↔
    ∃ rs, q = p.withEdges rs ∧ q.Linked := by
  constructor
  · intro h
    replace h : addEdges p.listing (p.withEdges []) = .ok u q := h
    obtain ⟨rs, rfl, hrs, hnodup⟩ := addEdges_ok (p := p.withEdges []) hnames h .nil rfl
    exact ⟨rs, rfl, hrs.imp fun _ _ h => h.congr rfl rfl rfl rfl, hnodup, rfl⟩
  · rintro ⟨rs, rfl, hlinked⟩
    have haccepted : List.Forall₂ (fun r de => (p.withEdges []).Accepted r de.1 de.2)
        rs p.listing := hlinked.accepted.imp fun _ _ h => h.congr rfl rfl rfl rfl
    have hkeys : (edgeKeys (([] : List ResolvedEdge) ++ rs)).Nodup := hlinked.distinct
    exact addEdges_eq (p := p.withEdges []) hnames haccepted hkeys rfl

/-! ## All steps together -/

/-- Names are defined once, and every interned name is defined. -/
structure NamesResolve (p : Program) : Prop where
  structNames : p.structNames.Nodup
  interfaceNames : p.interfaceNames.Nodup
  structSymbols : ∀ n ∈ p.structSymbols.map (·.1), n ∈ p.structNames
  interfaceSymbols : ∀ n ∈ p.interfaceSymbols.map (·.1), n ∈ p.interfaceNames
  functionNames : p.functionNames.Nodup
  nativeNames : p.nativeNames.Nodup
  namesApart : ∀ n ∈ p.nativeNames, n ∉ p.functionNames

theorem map_mapIdx_of_eq (g : α → β) (f : Nat → α → α) (xs : Array α) (h : ∀ k a, g (f k a) = g a) :
    (xs.mapIdx f).toList.map g = xs.toList.map g := by
  rw [Array.toList_mapIdx]
  refine List.ext_getElem? fun k => ?_
  simp [List.getElem?_mapIdx, Function.comp_def, h]

@[simp] theorem structNames_numbered : p.numbered.structNames = p.structNames :=
  map_mapIdx_of_eq StructDef.name (fun k d => { d with id := k }) p.structs fun _ _ => rfl

@[simp] theorem interfaceNames_numbered : p.numbered.interfaceNames = p.interfaceNames :=
  map_mapIdx_of_eq InterfaceDef.name (fun k d => { d with id := k }) p.interfaces fun _ _ => rfl

@[simp] theorem functionNames_numbered : p.numbered.functionNames = p.functionNames :=
  map_mapIdx_of_eq (fun f : Function => f.proto.name)
    (fun k f => { f with proto := { f.proto with id := k } }) p.functions fun _ _ => rfl

@[simp] theorem nativeNames_numbered : p.numbered.nativeNames = p.nativeNames :=
  map_mapIdx_of_eq Prototype.name (fun k n => { n with id := p.functions.size + k })
    p.natives fun _ _ => rfl

/-- The tables after the first six steps. -/
theorem numbered_eq : p.numbered =
    { p with
      structs := p.numbered.structs
      interfaces := p.numbered.interfaces
      structSymbols := placed p.numbered.structNames p.structSymbols
      interfaceSymbols := placed p.numbered.interfaceNames p.interfaceSymbols
      functions := p.numbered.functions
      natives := p.natives.mapIdx fun k n => { n with id := p.numbered.functions.size + k } } := by
  rw [structNames_numbered, interfaceNames_numbered]
  simp [numbered]

theorem resolveEdges_and_mark_iff (hnames : p.functionNames.Nodup) :
    (resolveEdges >>= fun _ => modify fun p => { p with resolved := true }) p = .ok u q ↔
      ∃ rs, q = { p.withEdges rs with resolved := true } ∧ q.Linked := by
  have hlinked {rs : List ResolvedEdge} : (p.withEdges rs).Linked ↔
      ({ p.withEdges rs with resolved := true } : Program).Linked :=
    ⟨fun h => ⟨h.accepted.imp fun _ _ h => h.congr rfl rfl rfl rfl, h.distinct, h.table⟩,
      fun h => ⟨h.accepted.imp fun _ _ h => h.congr rfl rfl rfl rfl, h.distinct, h.table⟩⟩
  rw [bind_eq_ok_iff]
  constructor
  · rintro ⟨_, r, h, hmark⟩
    obtain ⟨rs, rfl, hr⟩ := (resolveEdges_eq_ok_iff hnames).mp h
    cases hmark
    exact ⟨rs, rfl, hlinked.mp hr⟩
  · rintro ⟨rs, rfl, hq⟩
    exact ⟨(), _, (resolveEdges_eq_ok_iff hnames).mpr ⟨rs, rfl, hlinked.mpr hq⟩, rfl⟩

theorem resolveSteps_eq_ok_iff : resolveSteps p = .ok u q ↔
    p.NamesResolve ∧ ∃ rs, q = { p.numbered.withEdges rs with resolved := true } ∧ q.Linked := by
  -- later steps look for names in tables that are numbered already
  have hsteps : resolveSteps p = .ok u q ↔ p.structNames.Nodup ∧ p.interfaceNames.Nodup ∧
      (∀ n ∈ p.structSymbols.map (·.1), n ∈ p.numbered.structNames) ∧
      (∀ n ∈ p.interfaceSymbols.map (·.1), n ∈ p.numbered.interfaceNames) ∧
      p.functionNames.Nodup ∧
      (p.nativeNames.Nodup ∧ ∀ n ∈ p.nativeNames, n ∉ p.numbered.functionNames) ∧
      ∃ rs, q = { p.numbered.withEdges rs with resolved := true } ∧ q.Linked := by
    refine (bind_eq_ok_iff_of numberStructs_eq_ok_iff).trans (and_congr_right fun _ => ?_)
    refine (bind_eq_ok_iff_of numberInterfaces_eq_ok_iff).trans (and_congr_right fun _ => ?_)
    refine (bind_eq_ok_iff_of resolveStructSymbols_eq_ok_iff).trans (and_congr_right fun _ => ?_)
    refine (bind_eq_ok_iff_of resolveInterfaceSymbols_eq_ok_iff).trans (and_congr_right fun _ => ?_)
    refine (bind_eq_ok_iff_of numberFunctions_eq_ok_iff).trans (and_congr_right fun hnames => ?_)
    refine (bind_eq_ok_iff_of numberNatives_eq_ok_iff).trans (and_congr_right fun _ => ?_)
    rw [numbered_eq]
    exact resolveEdges_and_mark_iff (functionNames_numbered (p := p) ▸ hnames)
  rw [hsteps, structNames_numbered, interfaceNames_numbered, functionNames_numbered]
  constructor
  · rintro ⟨hstructs, hinterfaces, hstructs', hinterfaces', hfunctions, ⟨hnatives, hapart⟩, hq⟩
    exact ⟨⟨hstructs, hinterfaces, hstructs', hinterfaces', hfunctions, hnatives, hapart⟩, hq⟩
  · rintro ⟨h, hq⟩
    exact ⟨h.structNames, h.interfaceNames, h.structSymbols, h.interfaceSymbols, h.functionNames,
      ⟨h.nativeNames, h.namesApart⟩, hq⟩

theorem resolve_eq_match (p : Program) : p.resolve = match resolveSteps p with
    | .ok _ q => (q, none)
    | .error e q => (q, some e) :=
  rfl

/-- The successful resolutions: names resolve, and the result is the numbered program with an
edge for each that is listed. -/
theorem resolve_eq_iff : p.resolve = (q, none) ↔
    p.NamesResolve ∧ ∃ rs, q = { p.numbered.withEdges rs with resolved := true } ∧ q.Linked := by
  rw [← resolveSteps_eq_ok_iff (u := ()), resolve_eq_match]
  cases resolveSteps p with
  | ok u r => simp
  | error e r => simp

theorem resolve_of_none (h : p.resolve.2 = none) : p.resolve = (p.resolve.1, none) :=
  Prod.ext rfl h

/-- The numbers and names of a resolved program. -/
structure Numbered (p : Program) : Prop where
  structs : ∀ (k : Nat) d, p.structs[k]? = some d → d.id = k
  interfaces : ∀ (k : Nat) d, p.interfaces[k]? = some d → d.id = k
  functions : ∀ (k : Nat) f, p.functions[k]? = some f → f.proto.id = k
  natives : ∀ (k : Nat) n, p.natives[k]? = some n → n.id = p.functions.size + k
  functionNames : (p.functions.toList.map (·.proto.name)).Nodup
  nativeNames : (p.natives.toList.map (·.name)).Nodup
  namesApart : ∀ n ∈ p.natives.toList, n.name ∉ p.functions.toList.map (·.proto.name)

/-- A resolved program is numbered, and its edges are those that its structs list. -/
theorem resolve_ok (h : q.resolve = (p, none)) : p.Numbered ∧ p.Linked := by
  obtain ⟨hq, rs, rfl, hlinked⟩ := resolve_eq_iff.mp h
  have hid {α : Type} {ds : Array α} {g : Nat → α → α} {k : Nat} {d : α}
      (hd : (ds.mapIdx g)[k]? = some d) : ∃ d', d = g k d' := by
    rw [Array.getElem?_mapIdx] at hd
    obtain ⟨d', -, rfl⟩ := Option.map_eq_some_iff.mp hd
    exact ⟨d', rfl⟩
  refine ⟨⟨fun k d hd => ?_, fun k d hd => ?_, fun k f hf => ?_, fun k n hn => ?_, ?_, ?_, ?_⟩,
    hlinked⟩
  · obtain ⟨d', rfl⟩ := hid hd
    rfl
  · obtain ⟨d', rfl⟩ := hid hd
    rfl
  · obtain ⟨f', rfl⟩ := hid hf
    rfl
  · obtain ⟨n', rfl⟩ := hid hn
    simp [withEdges, numbered]
  · change q.numbered.functionNames.Nodup
    rw [functionNames_numbered]
    exact hq.functionNames
  · change q.numbered.nativeNames.Nodup
    rw [nativeNames_numbered]
    exact hq.nativeNames
  · change ∀ n ∈ q.numbered.natives.toList, n.name ∉ q.numbered.functionNames
    rw [functionNames_numbered, ← List.forall_mem_map (P := (· ∉ q.functionNames))]
    change ∀ n ∈ q.numbered.nativeNames, n ∉ q.functionNames
    rw [nativeNames_numbered]
    exact hq.namesApart

theorem resolve_numbered (h : q.resolve = (p, none)) : p.Numbered := (resolve_ok h).1

end Tenure.Program

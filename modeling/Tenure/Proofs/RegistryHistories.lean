import Tenure.Lowering.Module
import Tenure.Proofs.ResolutionCriterion

/-!
# Histories of a registry

A program is assembled operation by operation, and resolution may be tried at any
time, also in between and again.

* `Program.Registered`: what a successful resolution establishes.  When there is one is a
  matter of names alone, and a second one changes nothing.
* `Program.resolved_after_iff`: the mark of a resolved program says that some resolution of
  its history succeeded.  It does not say that the last one did, since a failed resolution
  leaves the mark.
-/

namespace Tenure.Program

/-! ## Operations -/

/-- What can be done to a program. -/
inductive Operation where
  | addStruct (d : StructDef)
  | addInterface (d : InterfaceDef)
  | addNative (proto : Prototype)
  | addFunction (f : Function)
  | internStruct (name : String)
  | internInterface (name : String)
  | resolve

namespace Operation

/-- The program after an operation. -/
def apply (p : Program) : Operation → Program
  | addStruct d => p.addStruct d
  | addInterface d => p.addInterface d
  | addNative proto => p.addNative proto
  | addFunction f => p.addFunction f
  | internStruct n => p.internStruct n
  | internInterface n => p.internInterface n
  | resolve => p.resolve.1

/-- The edges of a struct mention structs and interfaces by symbols that the program has
interned. -/
def Fits (p : Program) : Operation → Prop
  | addStruct d => ∀ e ∈ d.edges, ∃ s ∈ p.structSymbols.map (·.1),
      ∃ i ∈ p.interfaceSymbols.map (·.1),
        e.struct = some (.interned s) ∧ e.interface = some (.interned i)
  | _ => True

end Operation

/-- The programs that operations lead to, from the empty one. -/
inductive Assembled : Program → Prop
  | empty : Assembled {}
  | step {p : Program} (op : Operation) (h : Assembled p) (hop : op.Fits p) : Assembled (op.apply p)

/-! ## What a resolution keeps -/

/-- The program that a step leaves, whether it succeeds or fails. -/
def left {α : Type} : EStateM.Result ResolveError Program α → Program
  | .ok _ q | .error _ q => q

/-- A part of the program that a step of resolution leaves as it was. -/
def Preserves {α β : Type} (f : Program → β) (x : Resolving α) : Prop :=
  ∀ p, f (left (x p)) = f p

section Preserves

variable {α β γ : Type} {f : Program → γ}

theorem Preserves.bind {x : Resolving α} {k : α → Resolving β} (hx : Preserves f x)
    (hk : ∀ a, Preserves f (k a)) : Preserves f (x >>= k) := by
  intro p
  have hp := hx p
  show f (left (EStateM.bind x k p)) = f p
  rw [EStateM.bind]
  cases hxp : x p with
  | ok a q =>
    rw [hxp] at hp
    exact (hk a q).trans hp
  | error e q =>
    rw [hxp] at hp
    exact hp

/-- A step that reads the program, puts another in its place and may raise a fault. -/
theorem preserves_put {g : Program → Program} {e : Program → Option ResolveError}
    (h : ∀ p, f (g p) = f p) : Preserves f (do
      let p ← get
      set (g p)
      raise? (e p)) := by
  intro p
  rw [← h p]
  show f (left (raise? (e p) (g p))) = _
  cases e p <;> rfl

theorem preserves_addEdges
    (h : ∀ (p : Program) rs table, f { p with edges := rs, edgeTable := table } = f p)
    (es : List (StructDef × Edge)) : Preserves f (addEdges es) := by
  induction es with
  | nil => exact fun p => rfl
  | cons de es ih =>
    intro p
    obtain ⟨d, e⟩ := de
    rw [addEdges_cons]
    cases resolveEdge p d e with
    | error fault => rfl
    | ok r => exact (ih (p.addEdge r)).trans (h p _ _)

theorem preserves_resolveEdges
    (h : ∀ (p : Program) rs table, f { p with edges := rs, edgeTable := table } = f p) :
    Preserves f resolveEdges :=
  fun p => (preserves_addEdges h _ (p.withEdges [])).trans (h p [] [])

end Preserves

/-- What definitions mention, and the names that are interned. -/
def mentions (p : Program) : List (List Edge) × List String × List String :=
  (p.structs.toList.map (·.edges), p.structSymbols.map (·.1), p.interfaceSymbols.map (·.1))

theorem map_resolveSymbols {defined : List String} {fault : String → ResolveError}
    {table : List (String × Int)} :
    (resolveSymbols defined fault table).1.map (·.1) = table.map (·.1) := by
  induction table with
  | nil => rfl
  | cons entry table ih =>
    rw [resolveSymbols]
    split
    · rfl
    · rw [List.map_cons, ih]
      rfl

/-- The steps before the program is marked. -/
def unmarkedSteps : Resolving Unit := do
  numberStructs
  numberInterfaces
  resolveStructSymbols
  resolveInterfaceSymbols
  numberFunctions
  numberNatives
  resolveEdges

theorem resolveSteps_eq : resolveSteps =
    unmarkedSteps >>= fun _ => modify fun p => { p with resolved := true } := by
  simp only [resolveSteps, unmarkedSteps, bind_assoc]

/-- Before the program is marked, its mark and all that is mentioned are as they were. -/
theorem preserves_unmarkedSteps : Preserves (fun p => (p.mentions, p.resolved)) unmarkedSteps := by
  refine (preserves_put fun p => ?_).bind fun _ => (preserves_put fun p => ?_).bind fun _ =>
    (preserves_put fun p => ?_).bind fun _ => (preserves_put fun p => ?_).bind fun _ =>
    (preserves_put fun p => ?_).bind fun _ => (preserves_put fun p => ?_).bind fun _ =>
    preserves_resolveEdges fun p rs table => rfl
  · have hedges : (numberFrom StructDef.name (fun d n => { d with id := n }) .duplicateStruct 0 []
        p.structs.toList).1.map (·.edges) = p.structs.toList.map (·.edges) :=
      map_numberFrom fun _ _ => rfl
    simp only [mentions, hedges]
  · rfl
  · simp only [mentions, map_resolveSymbols]
  · simp only [mentions, map_resolveSymbols]
  · rfl
  · rfl

theorem resolve_eq_unmarked (p : Program) : p.resolve = match unmarkedSteps p with
    | .ok _ q => ({ q with resolved := true }, none)
    | .error e q => (q, some e) := by
  rw [resolve_eq_match, resolveSteps_eq, bind_eq_match]
  cases unmarkedSteps p <;> rfl

/-- Resolution keeps what is mentioned; it marks the program if it succeeds, and leaves the mark
if it fails. -/
theorem resolve_keeps (p : Program) :
    p.resolve.1.mentions = p.mentions ∧
      (p.resolve.1.resolved = true ↔ p.resolve.2 = none ∨ p.resolved = true) := by
  have hsteps := preserves_unmarkedSteps p
  rw [resolve_eq_unmarked]
  cases hx : unmarkedSteps p with
  | ok u q =>
    rw [hx] at hsteps
    exact ⟨congrArg Prod.fst hsteps, by simp⟩
  | error e q =>
    rw [hx] at hsteps
    refine ⟨congrArg Prod.fst hsteps, ?_⟩
    have hmark : q.resolved = p.resolved := congrArg Prod.snd hsteps
    simp [hmark]

/-! ## Assembled programs -/

variable {p q : Program}

theorem interned_iff_mentions : p.Interned ↔ ∀ es ∈ p.mentions.1, ∀ e ∈ es,
    ∃ s ∈ p.mentions.2.1, ∃ i ∈ p.mentions.2.2,
      e.struct = some (.interned s) ∧ e.interface = some (.interned i) := by
  simp only [Interned, listing, mentions, List.mem_flatMap, List.mem_map, Prod.forall]
  constructor
  · rintro h es ⟨d, hd, rfl⟩ e he
    exact h d e ⟨d, hd, e, he, rfl⟩
  · rintro h d e ⟨d', hd', e', he', heq⟩
    obtain ⟨rfl, rfl⟩ := Prod.mk.inj heq
    exact h _ ⟨d', hd', rfl⟩ e' he'

theorem subset_intern (table : List (String × Int)) (n : String) :
    table.map (·.1) ⊆ (intern table n).map (·.1) := by
  unfold intern
  split
  · exact List.Subset.refl _
  · rw [List.map_append]
    exact List.subset_append_left _ _

/-- Operations never take a name away. -/
theorem Operation.subset_symbols (p : Program) (op : Operation) :
    p.mentions.2.1 ⊆ (op.apply p).mentions.2.1 ∧ p.mentions.2.2 ⊆ (op.apply p).mentions.2.2 := by
  cases op with
  | addStruct d | addInterface d | addNative proto | addFunction f =>
    exact ⟨List.Subset.refl _, List.Subset.refl _⟩
  | internStruct n => exact ⟨subset_intern _ n, List.Subset.refl _⟩
  | internInterface n => exact ⟨List.Subset.refl _, subset_intern _ n⟩
  | resolve =>
    rw [show (Operation.resolve.apply p).mentions = p.mentions from (resolve_keeps p).1]
    exact ⟨List.Subset.refl _, List.Subset.refl _⟩

/-- Only the addition of a struct brings new edges. -/
theorem Operation.edges_apply (p : Program) (op : Operation) (hop : op.Fits p) :
    ∀ es ∈ (op.apply p).mentions.1, es ∈ p.mentions.1 ∨ ∀ e ∈ es, ∃ s ∈ p.mentions.2.1,
      ∃ i ∈ p.mentions.2.2, e.struct = some (.interned s) ∧ e.interface = some (.interned i) := by
  cases op with
  | addStruct d =>
    intro es hes
    have hmem : es ∈ p.mentions.1 ++ [d.edges] := by
      simpa [mentions, apply, Program.addStruct] using hes
    rcases List.mem_append.mp hmem with hes | hes
    · exact .inl hes
    · rw [List.mem_singleton.mp hes]
      exact .inr hop
  | resolve =>
    rw [show (Operation.resolve.apply p).mentions = p.mentions from (resolve_keeps p).1]
    exact fun es => .inl
  | _ => exact fun es => .inl

theorem Assembled.interned (h : p.Assembled) : p.Interned := by
  induction h with
  | empty => exact nofun
  | @step p op _ hop ih =>
    rw [interned_iff_mentions] at ih ⊢
    obtain ⟨hstructs, hinterfaces⟩ := op.subset_symbols p
    intro es hes e he
    obtain ⟨s, hs, i, hi, hmention⟩ : ∃ s ∈ p.mentions.2.1, ∃ i ∈ p.mentions.2.2,
        e.struct = some (.interned s) ∧ e.interface = some (.interned i) := by
      rcases op.edges_apply p hop es hes with hes | hnew
      · exact ih es hes e he
      · exact hnew e he
    exact ⟨s, hstructs hs, i, hinterfaces hi, hmention⟩

/-! ## The registry of a resolved program -/

/-- What resolution establishes.  Numbers are places and names are unique; an interned name
stands for the definition of that name; the edges are those that the structs list, in order,
each with functions of the program for all methods of its interface, and at most one for a
struct and an interface; and an edge is found by its struct and its interface. -/
structure Registered (p : Program) : Prop extends p.Numbered, p.Linked where
  structNames : p.structNames.Nodup
  interfaceNames : p.interfaceNames.Nodup
  structSymbols : ∀ n ∈ p.structSymbols.map (·.1), ∃ (k : Nat) (d : StructDef),
    p.structId (.interned n) = k ∧ p.structs[k]? = some d ∧ d.name = n
  interfaceSymbols : ∀ n ∈ p.interfaceSymbols.map (·.1), ∃ (k : Nat) (d : InterfaceDef),
    p.interfaceId (.interned n) = k ∧ p.interfaces[k]? = some d ∧ d.name = n
  edgeIndex : ∀ s i k, p.edgeIndex? s i = some k ↔ ∃ r d e, p.edges[k]? = some r ∧
    p.struct? s = some d ∧ e ∈ d.edges ∧ e.interface.map p.interfaceId = some i ∧ p.Accepted r d e

theorem byId_eq_some {α : Type} {xs : Array α} {id : Int} {x : α} (h : byId xs id = some x) :
    ∃ k : Nat, id = k ∧ xs[k]? = some x := by
  unfold byId at h
  split at h
  · next hid => exact ⟨id.toNat, (Int.toNat_of_nonneg hid).symm, h⟩
  · cases h

/-- The number of an accepted edge's interface is that of the symbol it was found by. -/
theorem Accepted.interfaceId_eq (hp : p.Numbered) {r : ResolvedEdge} {d : StructDef} {e : Edge}
    (h : p.Accepted r d e) : p.interfaceId r.interface = r.interfaceId := by
  obtain ⟨i, hi, hid, -⟩ := h.interfaceDef
  obtain ⟨k, hk, hget⟩ := byId_eq_some hi
  rw [hk, ← hid, hp.interfaces k i hget]

theorem Linked.edgeIndex?_iff (h : p.Linked) (hp : p.Numbered) {s i : Int} {k : Nat} :
    p.edgeIndex? s i = some k ↔ ∃ r d e, p.edges[k]? = some r ∧ p.struct? s = some d ∧ e ∈ d.edges ∧
      e.interface.map p.interfaceId = some i ∧ p.Accepted r d e := by
  constructor
  · intro hk
    have hkey := h.edgeIndex?_eq_some_iff.mp hk
    obtain ⟨hlt, hkey⟩ := List.getElem?_eq_some_iff.mp hkey
    have hlt : k < p.edges.length := by simpa [edgeKeys] using hlt
    have hlt' : k < p.listing.length := h.accepted.length_eq ▸ hlt
    have haccepted : p.Accepted p.edges[k] p.listing[k].1 p.listing[k].2 := h.accepted.get hlt hlt'
    have hmem : p.listing[k] ∈ p.listing := List.getElem_mem hlt'
    generalize p.listing[k] = de at haccepted hmem
    obtain ⟨d, e⟩ := de
    obtain ⟨j, hj, he⟩ := mem_listing.mp hmem
    obtain ⟨rfl, rfl⟩ : p.edges[k].structId = s ∧ p.edges[k].interfaceId = i := by
      simpa [edgeKeys] using hkey
    refine ⟨p.edges[k], d, e, List.getElem?_eq_getElem hlt, ?_, he, ?_, haccepted⟩
    · rw [← haccepted.ownId, hp.structs j _ hj]
      exact hj
    · rw [haccepted.interface, ← haccepted.interfaceId_eq hp]
      rfl
  · rintro ⟨r, d, e, hr, hd, -, hi, haccepted⟩
    obtain ⟨j, rfl, hj⟩ := byId_eq_some hd
    have hs : r.structId = j := by rw [← haccepted.ownId, hp.structs j d hj]
    rw [haccepted.interface, Option.map_some, Option.some.injEq, haccepted.interfaceId_eq hp] at hi
    rw [← hs, ← hi]
    exact h.edgeIndex?_eq hr

theorem namesResolve_numbered (h : p.NamesResolve) : p.numbered.NamesResolve where
  structNames := structNames_numbered (p := p) ▸ h.structNames
  interfaceNames := interfaceNames_numbered (p := p) ▸ h.interfaceNames
  structSymbols n hn := by
    rw [numbered, map_placed] at hn
    exact structNames_numbered (p := p) ▸ h.structSymbols n hn
  interfaceSymbols n hn := by
    rw [numbered, map_placed] at hn
    exact interfaceNames_numbered (p := p) ▸ h.interfaceSymbols n hn
  functionNames := functionNames_numbered (p := p) ▸ h.functionNames
  nativeNames := nativeNames_numbered (p := p) ▸ h.nativeNames
  namesApart := by simpa using h.namesApart

/-- What is numbered by its places stays as it is. -/
theorem numbered_numbered (p : Program) : p.numbered.numbered = p.numbered := by
  have htables := numbered_eq (p := p.numbered)
  rw [structNames_numbered, structNames_numbered, interfaceNames_numbered,
    interfaceNames_numbered] at htables
  rw [htables]
  simp [numbered, Function.comp_def]

theorem registered_of_resolve (h : p.resolve = (q, none)) : q.Registered := by
  obtain ⟨hnumbered, hlinked⟩ := resolve_ok h
  obtain ⟨hnames, edges, rfl, -⟩ := resolve_eq_iff.mp h
  have hnames' := namesResolve_numbered hnames
  refine ⟨hnumbered, hlinked, hnames'.structNames, hnames'.interfaceNames, fun n hn => ?_,
    fun n hn => ?_, fun s i k => hlinked.edgeIndex?_iff hnumbered⟩
  · obtain ⟨d, hd, hname⟩ := getElem?_idxOf StructDef.name (hnames'.structSymbols n hn)
    refine ⟨p.numbered.structNames.idxOf n, d, ?_, hd, hname⟩
    rw [structNames_numbered]
    exact symbolId_placed (map_placed _ _ ▸ hn)
  · obtain ⟨d, hd, hname⟩ := getElem?_idxOf InterfaceDef.name (hnames'.interfaceSymbols n hn)
    refine ⟨p.numbered.interfaceNames.idxOf n, d, ?_, hd, hname⟩
    rw [interfaceNames_numbered]
    exact symbolId_placed (map_placed _ _ ▸ hn)

theorem resolve_resolve (h : p.resolve = (q, none)) : q.resolve = (q, none) := by
  obtain ⟨hnames, edges, rfl, hlinked⟩ := resolve_eq_iff.mp h
  refine resolve_eq_iff.mpr ⟨?_, edges, ?_, hlinked⟩
  · obtain ⟨h1, h2, h3, h4, h5, h6, h7⟩ := namesResolve_numbered hnames
    exact ⟨h1, h2, h3, h4, h5, h6, h7⟩
  · show _ = ({ p.numbered.numbered.withEdges edges with resolved := true } : Program)
    rw [numbered_numbered]

/-- Resolution of an assembled program succeeds exactly if names are unique and defined and edges
fit.  It then leaves the definitions as they are but for their numbers, and establishes the
registry; and to resolve again changes nothing. -/
theorem resolve_registers {p : Program} (hp : p.Assembled) :
    (p.resolve.2 = none ↔ p.Resolvable) ∧
      ∀ q, p.resolve = (q, none) →
        (∃ edges, q = { p.numbered.withEdges edges with resolved := true }) ∧ q.Registered ∧
          q.resolve = (q, none) := by
  refine ⟨resolve_eq_none_iff hp.interned, fun q hq => ?_⟩
  obtain ⟨-, edges, hform, -⟩ := resolve_eq_iff.mp hq
  exact ⟨⟨edges, hform⟩, registered_of_resolve hq, resolve_resolve hq⟩

/-- A struct that implements an interface of one method by a function. -/
def square : Program :=
  { structs := #[{
      name := "Square"
      edges := [⟨some (.interned "Square"), some (.interned "Shape"), ["squareArea"]⟩] }]
    interfaces :=
      #[{ name := "Shape", methods := [{ name := "area", params := [], result := none }] }]
    functions := #[⟨{ name := "squareArea", params := [], result := none }, .constantI64 1⟩]
    structSymbols := [("Square", -1)]
    interfaceSymbols := [("Shape", -1)] }

theorem resolve_registers_square :
    square.Assembled ∧ square.Resolvable ∧
      ∃ q, square.resolve = (q, none) ∧ q.Registered ∧ q.edgeIndex? 0 0 = some 0 ∧
        q.resolve = (q, none) := by
  have hfits : (Operation.addStruct {
      name := "Square"
      edges := [⟨some (.interned "Square"), some (.interned "Shape"), ["squareArea"]⟩] }).Fits
      (((({} : Program).internStruct "Square").internInterface "Shape")) := by
    intro e he
    obtain rfl := List.mem_singleton.mp he
    exact ⟨"Square", by decide, "Shape", by decide, rfl, rfl⟩
  have hassembled : square.Assembled :=
    .step (.addFunction ⟨{ name := "squareArea", params := [], result := none }, .constantI64 1⟩)
      (.step (.addInterface { name := "Shape", methods :=
        [{ name := "area", params := [], result := none }] })
        (.step (.addStruct _)
          (.step (.internInterface "Shape") (.step (.internStruct "Square") .empty
          trivial) trivial) hfits) trivial) trivial
  obtain ⟨hiff, hregisters⟩ := resolve_registers hassembled
  have hnone : square.resolve.2 = none := by decide
  obtain ⟨-, hregistered, hagain⟩ := hregisters square.resolve.1 (resolve_of_none hnone)
  exact ⟨hassembled, hiff.mp hnone, square.resolve.1, resolve_of_none hnone, hregistered, by decide,
    hagain⟩

/-! ## The mark of a resolved program -/

/-- The program after a history. -/
def after (p : Program) (ops : List Operation) : Program := ops.foldl Operation.apply p

/-- The outcomes of the resolutions in a history, in order. -/
def outcomes (p : Program) : List Operation → List (Option ResolveError)
  | [] => []
  | .resolve :: ops => p.resolve.2 :: outcomes p.resolve.1 ops
  | op :: ops => outcomes (op.apply p) ops

/-- A program is marked if it was at first, or if some resolution succeeded. -/
theorem resolved_after_iff (p : Program) (ops : List Operation) :
    (p.after ops).resolved = true ↔ p.resolved = true ∨ none ∈ p.outcomes ops := by
  induction ops generalizing p with
  | nil => simp [after, outcomes]
  | cons op ops ih =>
    have hrest := ih (op.apply p)
    cases op with
    | resolve =>
      rw [show (Operation.resolve.apply p).resolved = p.resolve.1.resolved from rfl,
        (resolve_keeps p).2] at hrest
      rw [outcomes, List.mem_cons]
      refine hrest.trans ?_
      rw [eq_comm (a := none)]
      tauto
    | _ => exact hrest

/-- The mark that a resolution leaves, after any history, and what lowering makes of it.  The
mark says that this resolution succeeded or an earlier one did; so it is that of this resolution
exactly if this one succeeded or none did before, and lowering refuses a program whose last
resolution failed only in the latter case. -/
theorem resolved_iff_of_history (ops : List Operation) (options : Lowering.Options) :
    let p := ({} : Program).after ops
    let succeededBefore := none ∈ ({} : Program).outcomes ops
    (p.resolve.1.resolved = true ↔ p.resolve.2 = none ∨ succeededBefore) ∧
      ((p.resolve.1.resolved = true ↔ p.resolve.2 = none) ↔
        (p.resolve.2 = none ∨ ¬ succeededBefore)) ∧
      (p.resolve.2 ≠ none → ¬ succeededBefore →
        p.resolve.1.toModule options = .error (.violation .unresolvedProgram)) := by
  intro p succeededBefore
  have hmark : p.resolve.1.resolved = true ↔ p.resolve.2 = none ∨ succeededBefore := by
    rw [(resolve_keeps p).2, resolved_after_iff]
    simp [succeededBefore]
  refine ⟨hmark, by tauto, fun hfailed hbefore => ?_⟩
  have hunmarked : ¬ p.resolve.1.resolved = true := by tauto
  rw [toModule, if_neg hunmarked]

/-- A resolution that fails after one that succeeded: the program keeps its mark, though an edge
that its struct lists is not in the edge table, and lowering accepts it. -/
theorem resolved_of_failed_resolution :
    ∃ ops, (({} : Program).after ops).resolve.2 = some (.methodCount "T" "J" 1 0) ∧
      (({} : Program).after ops).resolve.1.resolved = true ∧
      (({} : Program).after ops).resolve.1.edges = [] ∧
      (({} : Program).after ops).resolve.1.listing.length = 1 ∧
      ∃ code, (({} : Program).after ops).resolve.1.toModule {} = .ok code := by
  refine ⟨[.resolve, .internStruct "T", .internInterface "J", .addInterface { name := "J" },
    .addStruct {
      name := "T"
      edges := [⟨some (.interned "T"), some (.interned "J"), ["f"]⟩] }], ?_, ?_, ?_, ?_, ?_⟩
  · decide
  · decide
  · decide
  · decide
  · exact ⟨_, rfl⟩

end Tenure.Program

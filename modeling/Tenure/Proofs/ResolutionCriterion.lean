import Tenure.Proofs.Resolution

/-!
# When resolution succeeds

What resolution asks of a program comes down to names: definitions have names of
their own, every name that is used is defined, and edges fit their interfaces.

* `Program.Resolvable`: the conditions, on names alone.
* `Program.resolve_eq_none_iff`: resolution fails exactly if one of them does.
-/

namespace Tenure.Program

variable {p q : Program} {n : String} {k : Nat} {d : StructDef} {e : Edge}
variable {rs : List ResolvedEdge} {r : ResolvedEdge}

/-! ## Conditions on names alone -/

/-- Every listed edge mentions an interned struct and an interned interface. -/
def Interned (p : Program) : Prop :=
  ∀ de ∈ p.listing, ∃ s ∈ p.structSymbols.map (·.1), ∃ i ∈ p.interfaceSymbols.map (·.1),
    de.2.struct = some (.interned s) ∧ de.2.interface = some (.interned i)

/-- An edge is one of the struct that lists it, implements an interface with as many methods as
it names functions, and names functions of the program. -/
structure Implements (p : Program) (d : StructDef) (e : Edge) : Prop where
  struct : e.struct = some (.interned d.name)
  interface : ∃ i ∈ p.interfaces.toList, e.interface = some (.interned i.name) ∧
    e.methods.length = i.methods.length
  methods : ∀ m ∈ e.methods, m ∈ p.functionNames

/-- What a program needs to be resolved: unique names, defined names, and edges that fit their
interfaces, at most one of a struct for an interface. -/
structure Resolvable (p : Program) : Prop extends p.NamesResolve where
  edges : ∀ de ∈ p.listing, p.Implements de.1 de.2
  distinct : ∀ d ∈ p.structs.toList, (d.edges.map (·.interface)).Nodup

theorem structs_numbered_getElem? :
    p.numbered.structs[k]? = p.structs[k]?.map fun d => { d with id := k } :=
  Array.getElem?_mapIdx

theorem interfaces_numbered_getElem? :
    p.numbered.interfaces[k]? = p.interfaces[k]?.map fun d => { d with id := k } :=
  Array.getElem?_mapIdx

theorem structId_numbered (hn : n ∈ p.structSymbols.map (·.1)) :
    p.numbered.structId (.interned n) = p.structNames.idxOf n :=
  symbolId_placed hn

theorem interfaceId_numbered (hn : n ∈ p.interfaceSymbols.map (·.1)) :
    p.numbered.interfaceId (.interned n) = p.interfaceNames.idxOf n :=
  symbolId_placed hn

theorem interface?_numbered (hn : n ∈ p.interfaceSymbols.map (·.1))
    (hdefined : n ∈ p.interfaceNames) :
    ∃ i ∈ p.interfaces.toList, i.name = n ∧
      p.numbered.interface? (p.numbered.interfaceId (.interned n)) =
        some { i with id := p.interfaceNames.idxOf n } := by
  obtain ⟨i, hi, rfl⟩ := getElem?_idxOf InterfaceDef.name hdefined
  refine ⟨i, by simpa using Array.mem_of_getElem? hi, rfl, ?_⟩
  rw [interfaceId_numbered hn, interface?, byId, if_pos (Int.natCast_nonneg _), Int.toNat_natCast,
    interfaces_numbered_getElem?, interfaceNames, hi]
  rfl

/-- An edge of the struct at a place, with its numbers. -/
def link (p : Program) (k : Nat) (e : Edge) : ResolvedEdge where
  structId := k
  interfaceId := p.interfaceNames.idxOf (e.interface.elim "" Symbol.name)
  struct := e.struct.getD (.interned "")
  interface := e.interface.getD (.interned "")
  methods := e.methods.map p.functionNames.idxOf

/-- In a program whose names resolve, an edge is accepted exactly if it fits, and the result is
determined. -/
theorem accepted_numbered_iff (hp : p.NamesResolve) (hd : p.structs[k]? = some d) {s i : String}
    (hs : s ∈ p.structSymbols.map (·.1)) (hi : i ∈ p.interfaceSymbols.map (·.1))
    (hes : e.struct = some (.interned s)) (hei : e.interface = some (.interned i)) :
    p.numbered.Accepted r { d with id := k } e ↔ p.Implements d e ∧ r = p.link k e := by
  have hnames : p.numbered.functionNames.Nodup := functionNames_numbered (p := p) ▸ hp.functionNames
  obtain ⟨idef, hmem, rfl, hdef⟩ := interface?_numbered hi (hp.interfaceSymbols _ hi)
  obtain ⟨d', hd', rfl⟩ := getElem?_idxOf StructDef.name (hp.structSymbols s hs)
  constructor
  · rintro ⟨hstruct, hinterface, hid, hown, ⟨idef', hdef', hidef, hlen⟩, hmethods⟩
    rw [hes] at hstruct
    rw [hei] at hinterface
    obtain ⟨hfunctions, hfs⟩ := (forall₂_functions_iff hnames).mp hmethods
    have hlength := hmethods.length_eq
    rw [functionNames_numbered] at hfunctions hfs
    obtain ⟨structId, interfaceId, struct, interface, methods⟩ := r
    dsimp only at *
    subst hfs hown
    cases hstruct
    cases hinterface
    rw [hdef] at hdef'
    obtain rfl := Option.some.inj hdef'
    have hk : p.structNames.idxOf d'.name = k := by
      rw [structId_numbered hs] at hid
      exact Int.ofNat_inj.mp hid
    rw [structNames] at hk
    rw [hk, hd] at hd'
    obtain rfl := Option.some.inj hd'
    refine ⟨⟨hes, ⟨idef, hmem, hei, by rw [← hlength, hlen]⟩, hfunctions⟩, ?_⟩
    simp [link, hes, hei, Symbol.name, ← hidef]
  · rintro ⟨⟨hown, ⟨idef', hmem', hei', hlen⟩, hfunctions⟩, rfl⟩
    have hname : d'.name = d.name := by simpa [hes] using hown
    have hiname : idef.name = idef'.name := by simpa [hei] using hei'
    obtain rfl := List.inj_on_of_nodup_map hp.interfaceNames hmem hmem' hiname
    have hk : p.numbered.structId (.interned d'.name) = k := by
      rw [structId_numbered hs, hname, structNames,
        (idxOf_of_getElem? StructDef.name hp.structNames hd).2]
    refine ⟨by simp [link, hes], by simp [link, hei], by simpa [link, hes] using hk, rfl,
      ⟨_, by simpa [link, hei] using hdef, by simp [link, hei, Symbol.name],
        by simpa [link] using hlen⟩, ?_⟩
    rw [forall₂_functions_iff hnames, functionNames_numbered]
    exact ⟨hfunctions, rfl⟩

theorem mem_listing : (d, e) ∈ p.listing ↔ ∃ k : Nat, p.structs[k]? = some d ∧ e ∈ d.edges := by
  simp only [listing, List.mem_flatMap, List.mem_map, Prod.mk.injEq, Array.mem_toList_iff,
    Array.mem_iff_getElem?]
  constructor
  · rintro ⟨d', ⟨k, hk⟩, e', he, rfl, rfl⟩
    exact ⟨k, hk, he⟩
  · rintro ⟨k, hk, he⟩
    exact ⟨d, ⟨k, hk⟩, e, he, rfl, rfl⟩

theorem mem_listing_numbered (h : (d, e) ∈ p.numbered.listing) :
    ∃ (k : Nat) (d' : StructDef), p.structs[k]? = some d' ∧ d = { d' with id := k } ∧
      e ∈ d'.edges := by
  obtain ⟨k, hk, he⟩ := mem_listing.mp h
  rw [structs_numbered_getElem?] at hk
  obtain ⟨d', hd', rfl⟩ := Option.map_eq_some_iff.mp hk
  exact ⟨k, d', hd', rfl, he⟩

/-- All edges with their numbers. -/
def links (p : Program) : List ResolvedEdge :=
  p.numbered.listing.map fun de => p.link de.1.id.toNat de.2

theorem forall₂_accepted_iff (hp : p.NamesResolve) (hin : p.Interned) :
    List.Forall₂ (fun r de => p.numbered.Accepted r de.1 de.2) rs p.numbered.listing ↔
      (∀ de ∈ p.numbered.listing, p.Implements de.1 de.2) ∧ rs = p.links := by
  refine forall₂_iff_eq_map fun de hde r => ?_
  obtain ⟨d, e⟩ := de
  obtain ⟨k, d', hk, rfl, he⟩ := mem_listing_numbered hde
  obtain ⟨s, hs, i, hi, hes, hei⟩ := hin (d', e) (mem_listing.mpr ⟨k, hk, he⟩)
  refine (accepted_numbered_iff hp hk hs hi hes hei).trans (and_congr_left fun _ => ?_)
  exact ⟨fun h => ⟨h.struct, h.interface, h.methods⟩, fun h => ⟨h.struct, h.interface, h.methods⟩⟩

/-- An edge's key differs from another's of the same struct if their interfaces differ. -/
theorem interfaceId_link_eq_iff (hp : p.NamesResolve) (hin : p.Interned)
    {e' : Edge} (he : (d, e) ∈ p.listing) (he' : (d, e') ∈ p.listing) :
    (p.link k e).interfaceId = (p.link k e').interfaceId ↔ e.interface = e'.interface := by
  obtain ⟨s, -, i, hi, -, hei⟩ := hin _ he
  obtain ⟨s', -, i', hi', -, hei'⟩ := hin _ he'
  dsimp only at hei hei'
  simp only [link, hei, hei', Option.elim_some, Symbol.name, Int.ofNat_inj,
    List.idxOf_inj (hp.interfaceSymbols i hi), Option.some.injEq, Symbol.interned.injEq]

theorem edgeKeys_links : edgeKeys p.links = p.numbered.structs.toList.flatMap fun d =>
    d.edges.map fun e => ((d.id.toNat : Int), (p.link d.id.toNat e).interfaceId) := by
  simp [edgeKeys, links, listing, link, List.map_flatMap, Function.comp_def]

theorem nodup_edgeKeys_links_iff (hp : p.NamesResolve) (hin : p.Interned) :
    (edgeKeys p.links).Nodup ↔ ∀ d ∈ p.structs.toList, (d.edges.map (·.interface)).Nodup := by
  -- edges of different structs have different keys, by the place of the struct
  have hapart : p.numbered.structs.toList.Pairwise (Function.onFun List.Disjoint fun d =>
      d.edges.map fun e => ((d.id.toNat : Int), (p.link d.id.toNat e).interfaceId)) := by
    refine List.pairwise_iff_getElem.mpr fun k l hk hl hkl key hkey hkey' => ?_
    obtain ⟨e, -, rfl⟩ := List.mem_map.mp hkey
    obtain ⟨e', -, heq⟩ := List.mem_map.mp hkey'
    have hid (k : Nat) (hk : k < p.numbered.structs.toList.length) :
        p.numbered.structs.toList[k].id.toNat = k := by simp [numbered]
    rw [hid, hid] at heq
    have := (Prod.mk.inj heq).1
    omega
  have hinner (k : Nat) (d : StructDef) (hd : p.structs[k]? = some d) :
      (d.edges.map fun e => ((k : Int), (p.link k e).interfaceId)).Nodup ↔
        (d.edges.map (·.interface)).Nodup := by
    rw [List.Nodup, List.pairwise_map, List.Nodup, List.pairwise_map]
    refine List.Pairwise.iff_of_mem fun {e e'} he he' => ?_
    rw [ne_eq, Prod.mk.injEq, interfaceId_link_eq_iff hp hin (mem_listing.mpr ⟨k, hd, he⟩)
      (mem_listing.mpr ⟨k, hd, he'⟩)]
    simp
  rw [edgeKeys_links, List.nodup_flatMap, and_iff_left hapart]
  constructor
  · intro h d hd
    obtain ⟨k, hk⟩ := Array.mem_iff_getElem?.mp (Array.mem_toList_iff.mp hd)
    have hk' : p.numbered.structs[k]? = some { d with id := k } := by
      rw [structs_numbered_getElem?, hk]
      rfl
    exact (hinner k d hk).mp (h { d with id := k } (by simpa using Array.mem_of_getElem? hk'))
  · intro h d hd
    obtain ⟨k, hk⟩ := Array.mem_iff_getElem?.mp (Array.mem_toList_iff.mp hd)
    rw [structs_numbered_getElem?] at hk
    obtain ⟨d', hd', rfl⟩ := Option.map_eq_some_iff.mp hk
    exact (hinner k d' hd').mpr (h d' (by simpa using Array.mem_of_getElem? hd'))

/-- What an edge has to fit does not depend on the numbers. -/
theorem implements_numbered_iff : (∀ de ∈ p.numbered.listing, p.Implements de.1 de.2) ↔
    ∀ de ∈ p.listing, p.Implements de.1 de.2 := by
  constructor
  · rintro h ⟨d, e⟩ hde
    obtain ⟨k, hk, he⟩ := mem_listing.mp hde
    have hk' : p.numbered.structs[k]? = some { d with id := k } := by
      rw [structs_numbered_getElem?, hk]
      rfl
    obtain ⟨hs, hi, hm⟩ := h ({ d with id := k }, e) (mem_listing.mpr ⟨k, hk', he⟩)
    exact ⟨hs, hi, hm⟩
  · rintro h ⟨d, e⟩ hde
    obtain ⟨k, d', hk, rfl, he⟩ := mem_listing_numbered hde
    obtain ⟨hs, hi, hm⟩ := h (d', e) (mem_listing.mpr ⟨k, hk, he⟩)
    exact ⟨hs, hi, hm⟩

theorem linked_numbered_iff (hp : p.NamesResolve) (hin : p.Interned) :
    ({ p.numbered.withEdges rs with resolved := true } : Program).Linked ↔
      ((∀ de ∈ p.listing, p.Implements de.1 de.2) ∧
        ∀ d ∈ p.structs.toList, (d.edges.map (·.interface)).Nodup) ∧ rs = p.links := by
  constructor
  · rintro ⟨haccepted, hdistinct, -⟩
    have haccepted' : List.Forall₂ (fun r de => p.numbered.Accepted r de.1 de.2) rs
        p.numbered.listing := haccepted.imp fun _ _ h => h.congr rfl rfl rfl rfl
    obtain ⟨hedges, rfl⟩ := (forall₂_accepted_iff hp hin).mp haccepted'
    exact ⟨⟨implements_numbered_iff.mp hedges, (nodup_edgeKeys_links_iff hp hin).mp hdistinct⟩, rfl⟩
  · rintro ⟨⟨hedges, hdistinct⟩, rfl⟩
    have haccepted := (forall₂_accepted_iff hp hin).mpr ⟨implements_numbered_iff.mpr hedges, rfl⟩
    exact ⟨haccepted.imp fun _ _ h => h.congr rfl rfl rfl rfl,
      (nodup_edgeKeys_links_iff hp hin).mpr hdistinct, rfl⟩

/-- Resolution is a function of names: it succeeds exactly if the program can be resolved, and
then sets all numbers and links all edges. -/
theorem resolve_eq_iff_resolvable (hin : p.Interned) : p.resolve = (q, none) ↔
    p.Resolvable ∧ q = { p.numbered.withEdges p.links with resolved := true } := by
  rw [resolve_eq_iff]
  constructor
  · rintro ⟨hp, rs, rfl, h⟩
    obtain ⟨⟨hedges, hdistinct⟩, rfl⟩ := (linked_numbered_iff hp hin).mp h
    exact ⟨⟨hp, hedges, hdistinct⟩, rfl⟩
  · rintro ⟨⟨hp, hedges, hdistinct⟩, rfl⟩
    exact ⟨hp, p.links, rfl, (linked_numbered_iff hp hin).mpr ⟨⟨hedges, hdistinct⟩, rfl⟩⟩

theorem resolve_eq_none_iff (hin : p.Interned) : p.resolve.2 = none ↔ p.Resolvable := by
  constructor
  · intro h
    have hq := resolve_of_none h
    exact ((resolve_eq_iff_resolvable hin).mp hq).1
  · intro h
    rw [(resolve_eq_iff_resolvable hin).mpr ⟨h, rfl⟩]

end Tenure.Program

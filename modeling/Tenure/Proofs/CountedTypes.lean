import Tenure.Proofs.ArrayIndexing
import Tenure.Proofs.Rearrangement
import Tenure.Proofs.StructLayouts

/-!
# Types and what is counted

Acquiring and releasing look at the ownership and the location of a type; what its values are
looks at the referend.  The two agree where the qualifiers suit the referend: texts are shared and
yonder, numbers, truth values and void are inline, and arrays and interfaces are yonder.  Reading
a type leaves the qualifiers as they are written, whether they suit or not.

* `Reference.Suits`: the qualifiers of a type suit its referend.
* `Counts`: acquiring and releasing a value adjust the count of the object it refers to.
* `Boxed`: values of a type refer to objects that have a count.
-/

namespace Tenure

/-! ## Qualifiers -/

/-- A type and the types of elements inside it. -/
def nestedTypes (o : Ownership) (l : Location) : Referend → List Reference
  | .array size o' l' elem => ⟨o, l, .array size o' l' elem⟩ :: nestedTypes o' l' elem
  | r => [⟨o, l, r⟩]

def Reference.nested (r : Reference) : List Reference :=
  nestedTypes r.ownership r.location r.referend

/-- The qualifiers of a type suit its referend. -/
def Reference.Suits (r : Reference) : Prop :=
  match r.referend with
  | .str => r.ownership = .share ∧ r.location = .yonder
  | .int | .bool | .void => r.location = .inline
  | .interface _ | .array .. | .hollowArray _ => r.location = .yonder
  | .struct _ | .missing => True

variable {names : Declared} {r : Reference}

/-- The types inside one that has a written form have one too. -/
theorem Reference.Printable.nested (h : r.Printable names) : ∀ e ∈ r.nested, e.Printable names := by
  obtain ⟨o, l, referend⟩ := r
  rw [Reference.nested]
  induction referend generalizing o l with
  | array size o' l' elem ih =>
    obtain ⟨-, ho, hl, helem⟩ := h.referend
    exact List.forall_mem_cons.mpr ⟨h, ih o' l' ⟨ho, hl, helem⟩⟩
  | _ => exact List.forall_mem_singleton.mpr h

/-- A primitive that stands alone is read with qualifiers that suit it. -/
theorem Reference.read_primitive {s : String} (h : Notation.primitive? s = some r) :
    Reference.read names s = .ok r ∧ r.Suits := by
  unfold Notation.primitive? at h
  split at h
  · cases h
    exact ⟨rfl, rfl⟩
  · cases h
    exact ⟨rfl, rfl⟩
  · cases h
    exact ⟨rfl, rfl, rfl⟩
  · cases h
    exact ⟨rfl, rfl⟩
  · cases h

end Tenure

namespace Tenure.Lowering

open Ir (Ty Operand)

/-! ## What is counted -/

/-- Acquiring a value counts up the object it refers to, and releasing the value counts the object
down. -/
structure Counts (r : Reference) : Prop where
  acquired : ∀ fuel x, acquireFuel (fuel + 1) ⟨x, some r⟩ = (do let _ ← adjustCount x r 1)
  released : ∀ fuel x, ∃ drop, discardFuel (fuel + 1) ⟨x, some r⟩ = releaseShared x r drop

variable {r : Reference} {p : Program} {env : Env} {types : Ir.TypeDefs} {t : Ty}
variable {x : Operand} {n : Symbol} {i : Nat} {names : Tenure.Declared}

theorem acquireFuel_succ {fuel : Nat} : acquireFuel (fuel + 1) ⟨x, some r⟩ =
    if r.ownership ≠ .share then pure () else
      if r.isHeap then (do let _ ← adjustCount x r 1)
      else forEachMember x r.referend (acquireFuel fuel) := rfl

theorem release_releaseBy (r : Reference) (member : Held → Build Unit) (x : Operand) :
    ∃ drop, release member x r.ownership r.location r.referend = releaseBy member x r drop := by
  obtain ⟨o, l, referend⟩ := r
  cases referend <;> exact ⟨_, rfl⟩

/-- No count can be adjusted outside of a function. -/
theorem adjustCount_outside {delta : Int} : adjustCount (.i64 0) r delta ⟨{}, {}⟩ {} =
    .error (if r.isHeap then .crash else .violation (.countOfInline r.text)) {} := by
  cases hheap : r.isHeap with
  | false =>
    rw [adjustCount, hheap]
    rfl
  | true =>
    rw [adjustCount, hheap]
    obtain ⟨o, l, referend⟩ := r
    cases referend <;> rfl

/-- The members of a value are not looked for in a program without structs. -/
theorem forEachMember_outside {e : Referend} {visit : Held → Build Unit} :
    forEachMember x e visit ⟨{}, {}⟩ {} = .ok () {} ∨
      ∃ n, forEachMember x e visit ⟨{}, {}⟩ {} = .error (.violation (.unresolvedStruct n)) {} := by
  cases e with
  | struct n =>
    refine .inr ⟨n.name, ?_⟩
    have hnone : ¬ (0 ≤ ({} : Program).structId n ∧
        ({} : Program).structId n < (({} : Program).structs.size : Int)) :=
      fun h => Int.not_lt.mpr h.1 h.2
    have hindex : structIndex n ⟨{}, {}⟩ {} =
      .error (.violation (.unresolvedStruct n.name)) {} := by
      change (if _ then _ else _ : Build Nat) ⟨{}, {}⟩ {} = _
      rw [if_neg hnone]
      rfl
    change EStateM.bind (structIndex n ⟨{}, {}⟩) _ {} = _
    rw [EStateM.bind, hindex]
  | _ => exact .inl rfl

/-- Shared values on the heap are counted, and nothing else. -/
theorem counts_iff : Counts r ↔ r.ownership = .share ∧ r.isHeap = true := by
  constructor
  · intro h
    have hacquired := congrFun (congrFun (h.acquired 0 (.i64 0)) ⟨{}, {}⟩) {}
    have hadjust : (do let _ ← adjustCount (.i64 0) r 1 : Build Unit) ⟨{}, {}⟩ {} =
        .error (if r.isHeap then .crash else .violation (.countOfInline r.text)) {} := by
      change EStateM.bind (adjustCount (.i64 0) r 1 ⟨{}, {}⟩) _ {} = _
      rw [EStateM.bind, adjustCount_outside]
    rw [hadjust, acquireFuel_succ] at hacquired
    by_cases hshare : r.ownership = .share
    · refine ⟨hshare, ?_⟩
      by_contra hheap
      rw [if_neg (not_not.mpr hshare), if_neg hheap, if_neg hheap] at hacquired
      rcases forEachMember_outside with hok | ⟨n, herror⟩
      · cases hok.symm.trans hacquired
      · cases herror.symm.trans hacquired
    · rw [if_pos hshare] at hacquired
      cases hacquired
  · rintro ⟨hshare, hheap⟩
    refine ⟨fun fuel x => ?_, fun fuel x => ?_⟩
    · rw [acquireFuel_succ, if_neg (not_not.mpr hshare), if_pos hheap]
    · obtain ⟨drop, hdrop⟩ := release_releaseBy r (discardFuel fuel) x
      refine ⟨drop, ?_⟩
      change release (discardFuel fuel) x r.ownership r.location r.referend = _
      rw [hdrop, releaseBy, hshare]
      exact if_pos hheap

/-! ## What is boxed -/

/-- Values of a type refer to objects that have a count: they are pointers to a layout that
begins with the header of the count, or pairs of an object and a method table. -/
inductive Boxed (p : Program) (types : Ir.TypeDefs) : Ty → Prop
  | object {layout : Ty} {rest : List Ty}
      (h : layout.fields? types = some (controlBlockType :: rest)) : Boxed p types (.ptr layout)
  | pair {i : Nat} (h : (interfaceRefType p i).fields? types =
    some [.i8Ptr, .ptr (itableType p i)]) :
      Boxed p types (interfaceRefType p i)

theorem not_boxed_defined {n : Nat} {spelling : String} (h : n < 4 + 2 * p.structs.size) :
    ¬ Boxed p types (.defined n spelling) := by
  intro hboxed
  generalize ht : Ty.defined n spelling = t at hboxed
  cases hboxed with
  | object => cases ht
  | pair =>
    injection ht with hn
    omega

theorem structIndex?_ok (h : structIndex? p n = some i) : i < p.structs.size := by
  unfold structIndex? at h
  split at h
  · cases h
    omega
  · cases h

theorem interfaceIndex?_ok (h : interfaceIndex? p n = some i) : i < p.interfaces.size := by
  unfold interfaceIndex? at h
  split at h
  · cases h
    omega
  · cases h

theorem arrayLayoutOf_fields (types : Ir.TypeDefs) (size : Option Int) (t : Ty) :
    ∃ rest, (arrayLayoutOf size t).fields? types = some (controlBlockType :: rest) := by
  cases size <;> exact ⟨_, rfl⟩

/-- Where the qualifiers suit the referend, what is yonder is boxed. -/
theorem boxed_iff (htypes : TypeTable env.program types) (hobjects : ObjectTable env types)
    (hr : r.Suits) (hl : r.location.Named)
    (ht : typeOf? env.program r.location r.referend = some t) :
    Boxed env.program types t ↔ r.isHeap = true := by
  obtain ⟨o, l, referend⟩ := r
  have hplain : ∀ {u : Ty}, l = .inline → ¬ Boxed env.program types u →
      (Boxed env.program types u ↔ Reference.isHeap ⟨o, l, referend⟩ = true) := by
    rintro u rfl hu
    exact iff_of_false hu (by simp [Reference.isHeap])
  have hheap : ∀ {u : Ty}, l = .yonder → Boxed env.program types u →
      (Boxed env.program types u ↔ Reference.isHeap ⟨o, l, referend⟩ = true) := by
    rintro u rfl hu
    exact iff_of_true hu (by simp [Reference.isHeap])
  cases referend with
  | int | bool =>
    cases ht
    exact hplain hr fun h => by cases h
  | void =>
    cases ht
    exact hplain hr (not_boxed_defined (by omega))
  | str =>
    cases ht
    obtain ⟨name, hname⟩ := hobjects.text
    have hfields : strType.fields? types = some (controlBlockType :: [.i64, .array 0 .i8]) := by
      rw [strType, Ty.fields?, hname]
      rfl
    exact hheap hr.2 (.object hfields)
  | struct n =>
    obtain ⟨i, hi, rfl⟩ := Option.map_eq_some_iff.mp ht
    have hlt := structIndex?_ok hi
    obtain ⟨d, hd⟩ : ∃ d, env.program.structs[i]? = some d := ⟨_, Array.getElem?_eq_getElem hlt⟩
    obtain ⟨_, wrapper, ts, -, hwrapper, -⟩ := hobjects.structs i d hd
    rcases hl with hl | hl
    · rw [if_pos hl]
      exact hplain hl (not_boxed_defined (by omega))
    · have hne : ¬ l = .inline := by simp [show l = .yonder from hl]
      rw [if_neg hne]
      have hfields : (wrapperType env.program i).fields? types =
          some (controlBlockType :: [innerType env.program i]) := by
        rw [wrapperType, Ty.fields?, hwrapper]
        rfl
      exact hheap hl (.object hfields)
  | interface n =>
    obtain ⟨i, hi, rfl⟩ := Option.map_eq_some_iff.mp ht
    obtain ⟨name, hname⟩ := htypes.refs i (interfaceIndex?_ok hi)
    refine hheap hr (.pair ?_)
    rw [interfaceRefType, Ty.fields?, hname]
    rfl
  | array size o' l' elem =>
    have hne : ¬ l = .inline := by simp [show l = .yonder from hr]
    rw [typeOf?, if_neg hne] at ht
    obtain ⟨layout, hlayout, rfl⟩ := Option.map_eq_some_iff.mp ht
    obtain ⟨u, -, rfl⟩ := Option.map_eq_some_iff.mp hlayout
    obtain ⟨rest, hrest⟩ := arrayLayoutOf_fields types size u
    exact hheap hr (.object hrest)
  | hollowArray size => cases ht
  | missing => cases ht

/-- What lowering gives is what follows from the program, if the kept layouts do. -/
theorem Lowered.typeOf {final : State} (h : Lowered env final r t)
    (hfaithful : Faithful names env.program final.arrayLayouts) (hr : r.Printable names) :
    typeOf? env.program r.location r.referend = some t := by
  obtain ⟨s, s', hrun, htables⟩ := h
  have hs : Faithful names env.program s.arrayLayouts := fun key u hmem =>
    hfaithful key u
      (htables.layouts.subset ((quiet_lowerReference hrun).framed.layouts.subset hmem))
  exact ((reckons_lowerReferend hr.referend).ok hs hrun).1

/-! ## Types that are read -/

/-- The entries of a list are there where all of them are asked for. -/
theorem mapM_present_ok {α : Type} {xs : List (Option α)} {as : List α}
    (h : xs.mapM Load.present = .ok as) : xs = as.map some := by
  have has := except_mapM_ok h
  clear h
  induction has with
  | nil => rfl
  | @cons d a _ _ hd _ ih =>
    cases d with
    | none => cases hd
    | some b =>
      cases hd
      rw [ih, List.map_cons]

/-- A document declares the names of its structs and interfaces. -/
structure Declares (doc : ProgramDoc) (names : Tenure.Declared) : Prop where
  structs : doc.structs.map (Option.map (·.name)) = names.structs.map some
  interfaces : doc.interfaces.map (Option.map (·.name)) = names.interfaces.map some

/-- The scope of a document has the names that the document declares. -/
theorem Declares.names_eq {doc : ProgramDoc} {s : Load.Scope} {functions : List Function}
    (h : Declares doc names) (hreads : Load.Reads doc s functions) : s.names = names := by
  obtain ⟨structDocs, hstructDocs, hstructNames, -⟩ := hreads.structs
  obtain ⟨interfaceDocs, hinterfaceDocs, hinterfaceNames, -⟩ := hreads.interfaces
  have hsome : Function.Injective (List.map (some : String → Option String)) :=
    List.map_injective_iff.mpr (Option.some_injective _)
  have hstructs := h.structs
  rw [mapM_present_ok hstructDocs, List.map_map] at hstructs
  have hinterfaces := h.interfaces
  rw [mapM_present_ok hinterfaceDocs, List.map_map] at hinterfaces
  obtain ⟨structs, interfaces⟩ := names
  obtain ⟨⟨structs', interfaces'⟩, _⟩ := s
  refine congrArg₂ Tenure.Declared.mk (hsome ?_) (hsome ?_)
  · rw [← hstructs]
    dsimp only at hstructNames
    rw [hstructNames, List.map_map]
    rfl
  · rw [← hinterfaces]
    dsimp only at hinterfaceNames
    rw [hinterfaceNames, List.map_map]
    rfl

/-- A type is read with the qualifiers that are written; a primitive that stands alone has those
that suit it.  Where the qualifiers suit the referends of a type that was read and of all types
inside it, values are counted if and only if they are shared and boxed. -/
theorem counts_iff_boxed (names : Tenure.Declared) :
    (∀ r : Reference, r.Printable names → Reference.read names r.text = .ok r) ∧
    (∀ s r, Notation.primitive? s = some r → Reference.read names s = .ok r ∧ r.Suits) ∧
    ∀ s r, Reference.read names s = .ok r → (∀ e ∈ r.nested, e.Suits) →
      ∀ doc p options final, Declares doc names → Program.ofDoc doc = .ok p →
        buildModule ⟨p, options⟩ {} = .ok () final →
        ∀ e ∈ r.nested, ∀ t, Lowered ⟨p, options⟩ final e t →
          (Counts e ↔ e.ownership = .share ∧ Boxed p final.module.types t) := by
  refine ⟨fun r hr => Notation.readWithin_text hr (Nat.lt_succ_self _),
    fun s r h => Reference.read_primitive h, ?_⟩
  intro s r hread hsuits doc p options final hdeclares hp hbuild e he t ht
  have hprintable := (Notation.printable_of_readWithin hread).nested e he
  obtain ⟨scope, functions, hreads, hreadIn⟩ := Program.reads_of_ofDoc hp
  obtain rfl := hdeclares.names_eq hreads
  obtain ⟨q, -, hresolve⟩ := Program.ofDoc_ok hp
  obtain ⟨hnumbered, -⟩ := Program.resolve_ok hresolve
  have htypeOf := ht.typeOf (faithful_of_readIn hreadIn hp hbuild) hprintable
  have hboxed := boxed_iff (buildModule_assembled hnumbered hbuild).types
    (buildModule_objects hnumbered hbuild) (hsuits e he) hprintable.location htypeOf
  rw [counts_iff, ← hboxed]

/-- A document with a type of arrays of shared objects. -/
def sharedArrays : ProgramDoc where
  structs := [some { name := "S" }]
  natives := [some { name := "f", params := ["share yonder []<share yonder S>"] }]

def sharedArray : Reference :=
  ⟨.share, .yonder, .array none .share .yonder (.struct (.interned "S"))⟩

theorem read_sharedArray :
    Reference.read ⟨["S"], []⟩ "share yonder []<share yonder S>" = .ok sharedArray := by
  decide +kernel

theorem sharedArrays_built : ∃ p final layout, Program.ofDoc sharedArrays = .ok p ∧
    buildModule ⟨p, {}⟩ {} = .ok () final ∧
    ∀ compute, keptLayout sharedArray.referend.text compute ⟨p, {}⟩ final = .ok layout final := by
  have heval : (Program.ofDoc sharedArrays).toOption.any (fun p =>
      EStateM.run' ((do
        buildModule
        return ((← get).arrayLayouts.find? (·.1 == sharedArray.referend.text)).isSome : Build Bool)
          ⟨p, {}⟩) {} == some true) = true := by
    decide +kernel
  obtain ⟨p, hp, hkept⟩ := except_of_any heval
  delta EStateM.run' EStateM.run at hkept
  cases hbuild : buildModule ⟨p, {}⟩ {} with
  | error e s => simp [bind, ReaderT.bind, EStateM.bind, hbuild] at hkept
  | ok u final =>
    rw [bind_of_ok hbuild] at hkept
    replace hkept := Option.some.inj (eq_of_beq hkept)
    obtain ⟨⟨key, layout⟩, hlayout⟩ := Option.isSome_iff_exists.mp hkept
    refine ⟨p, final, layout, hp, hbuild, fun compute => ?_⟩
    rw [keptLayout, bind_of_ok (show (get : Build State) ⟨p, {}⟩ final = .ok final final from rfl),
      hlayout]
    rfl

theorem counts_iff_boxed_array : ∃ p final t, Program.ofDoc sharedArrays = .ok p ∧
    buildModule ⟨p, {}⟩ {} = .ok () final ∧ Lowered ⟨p, {}⟩ final sharedArray t ∧
    Boxed p final.module.types t := by
  obtain ⟨p, final, layout, hp, hbuild, hkept⟩ := sharedArrays_built
  have hlowered : Lowered ⟨p, {}⟩ final sharedArray (.ptr layout) :=
    ⟨final, final, bind_of_ok (hkept _), .refl final⟩
  have hcounts := (counts_iff_boxed ⟨["S"], []⟩).2.2 _ sharedArray read_sharedArray
    (List.forall_mem_cons.mpr ⟨rfl, List.forall_mem_singleton.mpr trivial⟩) sharedArrays p {}
    final ⟨rfl, rfl⟩ hp hbuild sharedArray List.mem_cons_self _ hlowered
  exact ⟨p, final, _, hp, hbuild, hlowered, (hcounts.mp (counts_iff.mpr ⟨rfl, rfl⟩)).2⟩

/-- The qualifiers of a type that is read need not suit its referend, nor those inside it. -/
theorem read_unsuited : ∃ r, Reference.read ⟨[], []⟩ "own inline [3]<share yonder int>" = .ok r ∧
    ∀ e ∈ r.nested, ¬ e.Suits := by
  refine ⟨⟨.own, .inline, .array (some 3) .share .yonder .int⟩, by decide +kernel, ?_⟩
  exact List.forall_mem_cons.mpr ⟨nofun, List.forall_mem_singleton.mpr nofun⟩

end Tenure.Lowering

import Tenure.Proofs.DefinitionOrder
import Tenure.Proofs.ScopedExpr

/-!
# Programs that were read

A type that was read has a written form under the declared names, and an expression
that was read mentions members, methods and interfaces that the document defines.
Resolution gives every declared name the index of its definition.  So all that a
loaded program mentions is in scope.

* `Load.Read`: what is known of an expression that was read.
* `Program.ReadIn.inScope`: a loaded program is in scope.
* `Lowering.addresses_of_parse`: a loaded program has the receivers of its virtual calls where
  lowering looks for them.
-/

namespace Tenure

theorem exists_of_mem_mapIdx {α β : Type} {f : Nat → α → β} {xs : Array α} {b : β}
    (h : b ∈ xs.mapIdx f) : ∃ k, ∃ a ∈ xs, f k a = b := by
  obtain ⟨k, hk, rfl⟩ := Array.mem_mapIdx.1 h
  exact ⟨k, xs[k], Array.getElem_mem hk, rfl⟩

/-- A type, if there is one, has a written form. -/
def TypePrintable (names : Declared) (t : Option Reference) : Prop := ∀ r ∈ t, r.Printable names

theorem typePrintable_some {names : Declared} {r : Reference} :
    TypePrintable names (some r) ↔ r.Printable names := by
  simp [TypePrintable]

namespace Load

variable {names : Declared} {s : Scope} {p : Program}

/-! ## Definitions that were read -/

variable {m : Prototype} {name : String} {r : Reference} {t : Option Reference} {i : Nat}
variable {functions : List Function}

theorem readType_printable {text : String} (h : readType names text = .ok r) : r.Printable names :=
  Notation.printable_of_readWithin (except_mapError_ok h)

/-- A type is there, and has a written form. -/
def TypeRead (names : Declared) (t : Option Reference) : Prop := ∃ r, t = some r ∧ r.Printable names

theorem TypeRead.printable (h : TypeRead names t) : TypePrintable names t := by
  obtain ⟨r, rfl, hr⟩ := h
  exact typePrintable_some.2 hr

theorem readParams_typeRead {function : String} {docs : List String}
    {params : List (Option Reference)} (h : readParams names function i docs = .ok params) :
    ∀ t ∈ params, TypeRead names t := by
  induction docs generalizing i params with
  | nil =>
    cases h
    exact nofun
  | cons d docs ih =>
    rw [readParams] at h
    obtain ⟨r, hr, h⟩ := except_bind_ok h
    obtain ⟨rest, hrest, h⟩ := except_bind_ok h
    cases h
    exact List.forall_mem_cons.2 ⟨⟨r, rfl, readType_printable (within_ok hr)⟩, ih hrest⟩

theorem readProto_typeRead {d : ProtoDoc} (h : readProto names d = .ok m) :
    ∀ t ∈ m.types, TypeRead names t := by
  unfold readProto at h
  dsimp only at h
  split at h
  · cases h
  · obtain ⟨params, hparams, h⟩ := except_bind_ok h
    have hread := readParams_typeRead hparams
    split at h
    · cases h
      exact List.forall_mem_cons.2 ⟨⟨_, rfl, .inr (.inr rfl), .inl rfl, trivial⟩, hread⟩
    · obtain ⟨result, hresult, h⟩ := except_bind_ok h
      cases h
      exact List.forall_mem_cons.2 ⟨⟨_, rfl, readType_printable (within_ok hresult)⟩, hread⟩

/-- The types that the definitions of a scope state have a written form. -/
structure Scope.Printable (s : Scope) : Prop where
  members : ∀ d ∈ s.structs, ∀ m ∈ d.members, TypePrintable s.names m.type
  methods : ∀ d ∈ s.interfaces, ∀ m ∈ d.methods, ∀ t ∈ m.types, TypeRead s.names t
  natives : ∀ m ∈ s.natives, ∀ t ∈ m.types, TypePrintable s.names t
  functions : ∀ m ∈ s.functions, ∀ t ∈ m.types, TypePrintable s.names t

theorem readStruct_members {d : StructDoc} {sd : StructDef} (h : readStruct names d = .ok sd) :
    ∀ m ∈ sd.members, TypePrintable names m.type := by
  obtain ⟨members, hmembers, h⟩ := except_bind_ok (within_ok h)
  obtain ⟨edges, -, h⟩ := except_bind_ok h
  cases h
  intro m hm
  obtain ⟨doc, -, hdoc⟩ := exists_of_mem_mapM hmembers hm
  obtain ⟨doc, -, hdoc⟩ := except_bind_ok hdoc
  obtain ⟨type, htype, hdoc⟩ := except_bind_ok hdoc
  cases hdoc
  exact typePrintable_some.2 (readType_printable (within_ok htype))

theorem Reads.printable {doc : ProgramDoc} (h : Reads doc s functions) : s.Printable where
  members d hd := by
    obtain ⟨docs, -, -, hdocs⟩ := h.structs
    obtain ⟨sdoc, -, hread⟩ := exists_of_mem_mapM hdocs hd
    exact readStruct_members hread
  methods d hd := by
    obtain ⟨docs, -, -, hdocs⟩ := h.interfaces
    obtain ⟨idoc, -, hread⟩ := exists_of_mem_mapM hdocs hd
    obtain ⟨methods, hmethods, hread⟩ := except_bind_ok hread
    cases hread
    intro m hm
    obtain ⟨mdoc, -, hm⟩ := exists_of_mem_mapM hmethods hm
    obtain ⟨mdoc, -, hm⟩ := except_bind_ok hm
    exact readProto_typeRead (within_ok hm)
  natives m hm := by
    obtain ⟨mdoc, -, hm⟩ := exists_of_mem_mapM h.natives hm
    obtain ⟨mdoc, -, hm⟩ := except_bind_ok hm
    exact fun t ht => (readProto_typeRead (within_ok hm) t ht).printable
  functions m hm := by
    obtain ⟨protos, hprotos, hfunctions, -⟩ := h.functions
    rw [hfunctions] at hm
    obtain ⟨⟨proto, body⟩, hproto, rfl⟩ := List.mem_map.1 hm
    obtain ⟨fdoc, -, hread⟩ := exists_of_mem_mapM hprotos hproto
    obtain ⟨fdoc, -, hread⟩ := except_bind_ok hread
    obtain ⟨proto', hread', hread⟩ := except_bind_ok hread
    cases hread
    exact fun t ht => (readProto_typeRead (within_ok hread') t ht).printable

theorem Scope.Printable.mem_members (h : s.Printable) {m : StructMember} (hm : m ∈ s.members name) :
    TypePrintable s.names m.type := by
  obtain ⟨d, hd, hm⟩ := List.mem_flatMap.1 hm
  exact h.members d (List.mem_of_mem_filter hd) m hm

theorem Scope.Printable.mem_methods (h : s.Printable) (hm : m ∈ s.methods name) :
    ∀ t ∈ m.types, TypeRead s.names t := by
  obtain ⟨d, hd, hm⟩ := List.mem_flatMap.1 hm
  exact h.methods d (List.mem_of_mem_filter hd) m hm

/-! ## Expressions that were read -/

/-- A program defines what a scope declares: under every name there are the members or the
methods that the loader sees. -/
structure Scope.Matches (s : Scope) (p : Program) : Prop where
  structs : ∀ n ∈ s.names.structs, p.HasStruct (.interned n) ∧
    ∀ d, p.struct? (p.structId (.interned n)) = some d → d.members = s.members n
  interfaces : ∀ n ∈ s.names.interfaces, p.HasInterface (.interned n) ∧
    ∀ d, p.interface? (p.interfaceId (.interned n)) = some d → d.name = n ∧ d.methods = s.methods n

/-- A virtual call has its receiver at the position that the loader found. -/
def Addressed (s : Scope) (receiver : Int) (interface : Option Symbol) (method : Int) : Prop :=
  ∃ name m, ∃ k : Nat, interface = some (.interned name) ∧ receiver = k ∧
    readMethod s name method = .ok (m, k)

/-- A virtual call is addressed. -/
def CallRead (s : Scope) : Expr → Prop
  | .interfaceCall _ receiver interface method _ => Addressed s receiver interface method
  | _ => True

/-- What is known of an expression that was read in a scope, if a program matches the scope. -/
structure Read (s : Scope) (p : Program) (e : Expr) : Prop where
  types : ∀ d, Expr.Occurs d e → ∀ t ∈ d.types, TypePrintable s.names t
  links : ∀ d, Expr.Occurs d e → d.Links p
  calls : ∀ d, Expr.Occurs d e → CallRead s d

theorem Read.of_parts {e : Expr} (hcall : CallRead s e) (hparts : ∀ d ∈ e.parts, Read s p d)
    (htypes : ∀ t ∈ e.types, TypePrintable s.names t) (hlinks : e.Links p) : Read s p e where
  types d hd := by
    cases hd with
    | here => exact htypes
    | part mem inside => exact (hparts _ mem).types d inside
  links d hd := by
    cases hd with
    | here => exact hlinks
    | part mem inside => exact (hparts _ mem).links d inside
  calls d hd := by
    cases hd with
    | here => exact hcall
    | part mem inside => exact (hparts _ mem).calls d inside

/-- Loading a part of a body gives a result with a property, and keeps locals whose types have a
written form. -/
def Gives {α : Type} (names : Declared) (x : BodyLoading α) (Q : α → Prop) : Prop :=
  ∀ locals a locals', (∀ l ∈ locals, TypePrintable names l.type) → x locals = .ok (a, locals') →
    Q a ∧ ∀ l ∈ locals', TypePrintable names l.type

section Gives

variable {α β : Type} {x : BodyLoading α} {y : α → BodyLoading β} {P : α → Prop} {Q : β → Prop}

theorem Gives.bind (hx : Gives names x P) (hy : ∀ a, P a → Gives names (y a) Q) :
    Gives names (x >>= y) Q := by
  intro locals b locals' hlocals h
  obtain ⟨⟨a, locals1⟩, h1, h2⟩ := except_bind_ok h
  obtain ⟨ha, hlocals1⟩ := hx _ _ _ hlocals h1
  exact hy a ha _ _ _ hlocals1 h2

theorem Gives.pure {b : β} (hb : Q b) : Gives names (pure b) Q := by
  intro locals b' locals' hlocals h
  cases h
  exact ⟨hb, hlocals⟩

theorem Gives.lift {z : Outcome α} : Gives names (liftM z : BodyLoading α)
    (fun a => z = .ok a) := by
  intro locals a locals' hlocals h
  obtain ⟨a', h1, h2⟩ := except_bind_ok h
  cases h2
  exact ⟨h1, hlocals⟩

theorem Gives.type {text : String} :
    Gives names (liftM (readType names text) : BodyLoading Reference) (·.Printable names) := by
  intro locals r locals' hlocals h
  obtain ⟨hr, hlocals'⟩ := Gives.lift _ _ _ hlocals h
  exact ⟨readType_printable hr, hlocals'⟩

theorem Gives.get : Gives names (get : BodyLoading (List Local))
    (fun locals => ∀ l ∈ locals, TypePrintable names l.type) := by
  intro locals a locals' hlocals h
  cases h
  exact ⟨hlocals, hlocals⟩

theorem Gives.push {l : Local} (hl : TypePrintable names l.type) :
    Gives names (modify (l :: ·) : BodyLoading PUnit) (fun _ => True) := by
  intro locals a locals' hlocals h
  cases h
  exact ⟨trivial, List.forall_mem_cons.2 ⟨hl, hlocals⟩⟩

theorem Gives.fail {c : LoadCause} :
    Gives names (liftM (Load.fail c : Outcome β) : BodyLoading β) Q := by
  intro locals a locals' _ h
  cases h

theorem Gives.mapM {γ : Type} {xs : List γ} {k : γ → BodyLoading α}
    (hk : ∀ c, Gives names (k c) P) : Gives names (xs.mapM k) (fun as => ∀ a ∈ as, P a) := by
  induction xs with
  | nil =>
    rw [List.mapM_nil]
    exact .pure nofun
  | cons c xs ih =>
    rw [List.mapM_cons]
    exact .bind (hk c) fun a ha => .bind ih fun as has => .pure (List.forall_mem_cons.2 ⟨ha, has⟩)

end Gives

theorem readSlot_gives {d : Option LocalDoc} :
    Gives s.names (readSlot s d) fun l => TypePrintable s.names l.type := by
  cases d with
  | none => exact .fail
  | some d =>
    refine .bind .get fun locals hlocals => ?_
    split
    · next l hl => exact .pure (hlocals l (List.mem_of_find?_eq_some hl))
    · refine .bind .lift fun type htype => ?_
      have hl := typePrintable_some.2 (readType_printable (within_ok htype))
      exact .bind (.push hl) fun _ _ => .pure hl

/-- A call by name states no types on the spot. -/
theorem callee_types {f : Callee} (h : s.callee? name = some f) : f.types = [] := by
  rw [Scope.callee?] at h
  split at h
  · cases h
    rfl
  · obtain ⟨i, -, rfl⟩ := Option.map_eq_some_iff.1 h
    rfl

/-- The member that an access names is one of the struct that the type designates. -/
theorem readMemberName_ok {member : String} (hs : s.Printable) (hm : s.Matches p)
    (hr : r.Printable s.names) (h : readMemberName s r member = .ok (i, t)) :
    TypePrintable s.names t ∧ ∀ n, r.referend = .struct n →
      ∀ d, p.struct? (p.structId n) = some d → 0 ≤ (i : Int) ∧ (i : Int) < d.members.length := by
  obtain ⟨sym, hsym, h⟩ := except_bind_ok h
  dsimp only at h
  split at h
  · cases h
  · next j hj =>
    cases h
    obtain ⟨hlt, -, -⟩ := List.findIdx?_eq_some_iff_getElem.1 hj
    refine ⟨?_, fun n hn d hd => ?_⟩
    · rw [List.getElem?_eq_getElem hlt]
      exact hs.mem_members (List.getElem_mem hlt)
    · have hreferend := hr.referend
      rw [structOf, hn] at hsym
      obtain rfl := Except.ok.inj hsym
      rw [hn] at hreferend
      obtain ⟨-, hname, hdeclared⟩ := hreferend
      rw [hname] at hd
      have hlen : (d.members.length : Int) = (s.members n.name).length := by
        rw [(hm.structs _ hdeclared).2 d hd]
      omega

/-- The method that a virtual call names is one of the interface. -/
theorem readMethod_links {interface : String} {method : Int} {k : Nat} (hm : s.Matches p)
    (h : readMethod s interface method = .ok (m, k)) :
    ∀ i ∈ some (Symbol.interned interface), p.HasInterface i ∧
      ∀ d, p.interface? (p.interfaceId i) = some d → 0 ≤ method ∧ method < d.methods.length := by
  obtain ⟨hname, hmethod, hget, -⟩ := readMethod_ok h
  rintro i ⟨⟩
  obtain ⟨hinterface, hmethods⟩ := hm.interfaces _ hname
  refine ⟨hinterface, fun d hd => ⟨hmethod, ?_⟩⟩
  have hlt := (List.getElem?_eq_some_iff.1 hget).1
  rw [(hmethods d hd).2]
  omega

section Reading

variable (hs : s.Printable) (hm : s.Matches p)

include hs hm

-- two of the three theorems use these only through the third
set_option linter.unusedSectionVars false

mutual

/-- Expressions are read with types that have a written form, and mention what the document
defines. -/
theorem readExpr_gives : ∀ d, Gives s.names (readExpr s d) (Read s p)
  | none => by
    rw [readExpr]
    exact .fail
  | some d => by
    intro locals e locals' hlocals h
    rw [readExpr] at h
    exact readKind_gives d _ _ _ hlocals (within_ok h)

theorem readExprs_gives : ∀ ds, Gives s.names (readExprs s ds) (fun es => ∀ e ∈ es, Read s p e)
  | [] => by
    rw [readExprs]
    exact .pure nofun
  | d :: ds => by
    rw [readExprs]
    refine .bind (readExpr_gives d) fun e he => .bind (readExprs_gives ds) fun es hes => ?_
    exact .pure (List.forall_mem_cons.2 ⟨he, hes⟩)

theorem readKind_gives : ∀ d, Gives s.names (readKind s d) (Read s p)
  | { kind, value, type, index, slot, slots, ownership, function, interface, method, member,
      expected, functorType, source, sources, args, exprs, struct, array, place, size, functor,
      cond, thenBranch, elseBranch, body } => by
    -- the types that an expression states are those that were just read
    have hsole : ∀ {e : Expr}, Read s p e → ∀ d ∈ [e], Read s p d := List.forall_mem_singleton.2
    have hlocal : ∀ {l : Local}, TypePrintable s.names l.type →
        ∀ t ∈ [l.type], TypePrintable s.names t := List.forall_mem_singleton.2
    have hone : ∀ {t : Reference}, t.Printable s.names →
        ∀ t' ∈ [some t], TypePrintable s.names t' := fun ht =>
      List.forall_mem_singleton.2 (typePrintable_some.2 ht)
    have htwo : ∀ {t u : Reference}, t.Printable s.names → u.Printable s.names →
        ∀ t' ∈ [some t, some u], TypePrintable s.names t' := fun ht hu =>
      List.forall_mem_cons.2 ⟨typePrintable_some.2 ht, hone hu⟩
    have hpair : ∀ {d e : Expr}, Read s p d → Read s p e → ∀ d' ∈ [d, e], Read s p d' :=
      fun hd he => List.forall_mem_cons.2 ⟨hd, List.forall_mem_singleton.2 he⟩
    unfold readKind
    split
    iterate 3
      · exact .bind .lift fun _ _ => .pure (.of_parts trivial nofun nofun trivial)
    · exact .bind .type fun t ht => .pure (.of_parts trivial nofun (hone ht) trivial)
    iterate 2
      · refine .bind (readExpr_gives source) fun e he => .bind .type fun t ht => ?_
        exact .pure (.of_parts trivial (hsole he) (hone ht) trivial)
    · refine .bind (readExpr_gives source) fun e he => .bind readSlot_gives fun l hl => ?_
      exact .pure (.of_parts trivial (hsole he) (hlocal hl) trivial)
    · refine .bind readSlot_gives fun l hl => ?_
      exact .pure (.of_parts trivial nofun (hlocal hl) trivial)
    · refine .bind readSlot_gives fun l hl => ?_
      split
      · exact .pure (.of_parts trivial nofun (hlocal hl) trivial)
      · split
        · exact .pure (.of_parts trivial nofun (hlocal hl) trivial)
        · exact .fail
    · refine .bind readSlot_gives fun l hl => .bind (readExpr_gives source) fun e he => ?_
      exact .pure (.of_parts trivial (hsole he) (hlocal hl) trivial)
    iterate 2
      · split
        · exact .fail
        · next f hf =>
          have hcallee : ∀ f' ∈ some f, f'.types = [] := by
            rintro _ ⟨⟩
            exact callee_types hf
          refine .bind (readExprs_gives args) fun es hes => .pure (.of_parts trivial hes ?_ hcallee)
          simp [Expr.types, callee_types hf]
    · refine .bind .lift fun a ha => ?_
      obtain ⟨m, k⟩ := a
      refine .bind (readExprs_gives args) fun es hes => ?_
      refine .pure (.of_parts ⟨interface, m, k, rfl, rfl, ha⟩ hes ?_ (readMethod_links hm ha))
      obtain ⟨-, -, hget, -⟩ := readMethod_ok ha
      have htypes := hs.mem_methods (List.mem_of_getElem? hget)
      simpa [Expr.types, Callee.types] using fun t ht => (htypes t ht).printable
    · refine .bind .type fun t ht => .bind (readExprs_gives sources) fun es hes => ?_
      exact .pure (.of_parts trivial hes (hone ht) trivial)
    · refine .bind (readExprs_gives exprs) fun es hes => ?_
      exact .pure (.of_parts trivial hes nofun trivial)
    · refine .bind (readExpr_gives cond) fun c hc => ?_
      refine .bind (readExpr_gives thenBranch) fun t ht => ?_
      refine .bind (readExpr_gives elseBranch) fun e he => .bind .type fun r hr => ?_
      exact .pure (.of_parts trivial (List.forall_mem_cons.2 ⟨hc, hpair ht he⟩) (hone hr) trivial)
    · refine .bind (readExpr_gives cond) fun c hc => ?_
      refine .bind (readExpr_gives body) fun b hb => ?_
      exact .pure (.of_parts trivial (hpair hc hb) nofun trivial)
    · refine .bind .type fun t ht => .bind .lift fun _ _ => ?_
      refine .bind (readExpr_gives struct) fun e he => .bind (.mapM fun _ => readSlot_gives) ?_
      refine fun ls hls => .pure (.of_parts trivial (hsole he) ?_ trivial)
      simpa [Expr.types, typePrintable_some, ht] using hls
    · refine .bind .type fun t ht => .bind .lift fun a ha => ?_
      obtain ⟨i, u⟩ := a
      obtain ⟨hu, hlink⟩ := readMemberName_ok hs hm ht ha
      refine .bind (readExpr_gives struct) fun e he => ?_
      have hlinks : ∀ r ∈ some t, ∀ n, r.referend = .struct n → ∀ d,
          p.struct? (p.structId n) = some d → 0 ≤ (i : Int) ∧ (i : Int) < d.members.length := by
        rintro r ⟨⟩
        exact hlink
      split
      · refine .bind (.pure hu) fun u hu => .pure (.of_parts trivial (hsole he) ?_ hlinks)
        exact List.forall_mem_cons.2 ⟨typePrintable_some.2 ht, List.forall_mem_singleton.2 hu⟩
      · refine .bind .type fun u hu => .bind (.pure (typePrintable_some.2 hu)) fun u hu => ?_
        refine .pure (.of_parts trivial (hsole he) ?_ hlinks)
        exact List.forall_mem_cons.2 ⟨typePrintable_some.2 ht, List.forall_mem_singleton.2 hu⟩
    · refine .bind .type fun t ht => .bind .lift fun a ha => ?_
      obtain ⟨i, u⟩ := a
      obtain ⟨-, hlink⟩ := readMemberName_ok hs hm ht ha
      refine .bind (readExpr_gives struct) fun e he => ?_
      refine .bind (readExpr_gives source) fun v hv => ?_
      refine .pure (.of_parts trivial (hpair he hv) (hone ht) ?_)
      rintro r ⟨⟩
      exact hlink
    · refine .bind .type fun t ht => .bind .lift fun sym hsym => ?_
      have hstruct : ∀ n ∈ some sym, p.HasStruct n := by
        rintro n ⟨⟩
        obtain ⟨o, l, referend⟩ := t
        cases referend with
        | struct n =>
          obtain rfl := Except.ok.inj hsym
          obtain ⟨-, hname, hdeclared⟩ := ht.referend
          rw [hname]
          exact (hm.structs _ hdeclared).1
        | _ => cases hsym
      split
      · exact .bind .fail fun (_ : PUnit) (h : False) => h.elim
      · next hdeclared =>
        refine .bind (readExpr_gives source) fun e he => ?_
        refine .pure (.of_parts trivial (hsole he) (hone ht) ⟨hstruct, ?_⟩)
        rintro i ⟨⟩
        exact (hm.interfaces _ (by simpa using hdeclared)).1
    iterate 2
      · refine .bind .type fun t ht => .bind (readExpr_gives array) fun a ha => ?_
        refine .bind (readExpr_gives place) fun i hi => ?_
        exact .pure (.of_parts trivial (hpair ha hi) (hone ht) trivial)
    · refine .bind .type fun t ht => .bind (readExpr_gives array) fun a ha => ?_
      exact .pure (.of_parts trivial (hsole ha) (hone ht) trivial)
    · refine .bind .type fun t ht => .bind (readExprs_gives sources) fun es hes => ?_
      exact .pure (.of_parts trivial hes (hone ht) trivial)
    · refine .bind .type fun t ht => .bind .type fun g hg => ?_
      refine .bind (readExpr_gives size) fun n hn => ?_
      refine .bind (readExpr_gives functor) fun f hf => ?_
      exact .pure (.of_parts trivial (hpair hn hf) (htwo ht hg) trivial)
    iterate 2
      · refine .bind .type fun t ht => .bind .type fun c hc => ?_
        refine .bind (readExpr_gives array) fun a ha => ?_
        refine .bind (readExpr_gives functor) fun f hf => ?_
        exact .pure (.of_parts trivial (hpair ha hf) (htwo ht hc) trivial)
    iterate 2
      · exact .fail

end

end Reading

theorem readBody_read {proto : Prototype} {d : Option ExprDoc} {f : Function} (hs : s.Printable)
    (hm : s.Matches p) (h : readBody s proto d = .ok f) : Read s p f.body := by
  cases d with
  | none => cases h
  | some d =>
    rw [readBody] at h
    obtain ⟨⟨body, locals⟩, hbody, h⟩ := except_bind_ok h
    cases h
    exact (readExpr_gives hs hm (some d) _ _ _ (List.forall_mem_nil _) (within_ok hbody)).1

/-! ## Programs that were resolved -/

/-- A resolved program has every declared name at the place of its definition. -/
theorem Scope.matches_numbered (edges : List ResolvedEdge)
    (h : (s.program functions).NamesResolve) :
    s.Matches { (s.program functions).numbered.withEdges edges with resolved := true } where
  structs n hn := by
    have hsymbol : n ∈ (s.program functions).structSymbols.map (·.1) := by
      simpa [Scope.program] using hn
    obtain ⟨d, hd, rfl⟩ := Program.getElem?_idxOf StructDef.name (h.structSymbols n hsymbol)
    have hid := Program.structId_numbered hsymbol
    rw [Program.structNames] at hid
    have hmem : d ∈ s.structs := by simpa [Scope.program] using Array.mem_of_getElem? hd
    have hlt := (Array.getElem?_eq_some_iff.1 hd).1
    refine ⟨⟨?_, ?_⟩, fun d' hd' => ?_⟩
    · exact hid ▸ Int.natCast_nonneg _
    · refine hid ▸ Int.ofNat_lt.2 ?_
      simpa [Program.withEdges, Program.numbered] using hlt
    · have hplace : (s.program functions).numbered.struct?
          ((s.program functions).numbered.structId (.interned d.name)) = some d' := hd'
      rw [hid, Program.struct?, Program.byId, if_pos (Int.natCast_nonneg _), Int.toNat_natCast,
        Program.structs_numbered_getElem?, hd] at hplace
      obtain rfl := Option.some.inj hplace
      have hnames : (s.structs.map (·.name)).Nodup := h.structNames
      rw [Scope.members, Program.filter_name StructDef.name hnames hmem]
      simp
  interfaces n hn := by
    have hsymbol : n ∈ (s.program functions).interfaceSymbols.map (·.1) := by
      simpa [Scope.program] using hn
    obtain ⟨d, hd, rfl⟩ := Program.getElem?_idxOf InterfaceDef.name (h.interfaceSymbols n hsymbol)
    have hid := Program.interfaceId_numbered hsymbol
    rw [Program.interfaceNames] at hid
    have hmem : d ∈ s.interfaces := by simpa [Scope.program] using Array.mem_of_getElem? hd
    have hlt := (Array.getElem?_eq_some_iff.1 hd).1
    refine ⟨⟨?_, ?_⟩, fun d' hd' => ?_⟩
    · exact hid ▸ Int.natCast_nonneg _
    · refine hid ▸ Int.ofNat_lt.2 ?_
      simpa [Program.withEdges, Program.numbered] using hlt
    · have hplace : (s.program functions).numbered.interface?
          ((s.program functions).numbered.interfaceId (.interned d.name)) = some d' := hd'
      rw [hid, Program.interface?, Program.byId, if_pos (Int.natCast_nonneg _), Int.toNat_natCast,
        Program.interfaces_numbered_getElem?, hd] at hplace
      obtain rfl := Option.some.inj hplace
      have hnames : (s.interfaces.map (·.name)).Nodup := h.interfaceNames
      refine ⟨rfl, ?_⟩
      rw [Scope.methods, Program.filter_name InterfaceDef.name hnames hmem]
      simp

end Load

/-- What is known of a program that was loaded: the scope it was read in, with all types written
under the declared names. -/
structure Program.ReadIn (s : Load.Scope) (p : Program) : Prop where
  defines : s.Matches p
  scope : s.Printable
  types : p.States (TypePrintable s.names)
  bodies : ∀ f ∈ p.functions, Load.Read s p f.body

variable {p : Program} {doc : ProgramDoc} {s : Load.Scope} {receiver method : Int}
variable {interface : Option Symbol}

theorem Program.reads_of_ofDoc (h : Program.ofDoc doc = .ok p) :
    ∃ s functions, Load.Reads doc s functions ∧ p.ReadIn s := by
  obtain ⟨q, hq, hresolve⟩ := ofDoc_ok h
  obtain ⟨s, functions, hreads, rfl⟩ := Load.assemble_eq_ok_iff.1 hq
  obtain ⟨hresolvable, rfl⟩ := (resolve_eq_iff_resolvable hreads.interned).1 hresolve
  have hmatches := Load.Scope.matches_numbered (s.program functions).links
    hresolvable.toNamesResolve
  have hprintable := hreads.printable
  refine ⟨s, functions, hreads, hmatches, hprintable,
    ⟨fun d hd => ?_, fun d hd => ?_, fun f hf => ?_, fun n hn => ?_⟩, fun f hf => ?_⟩
  · obtain ⟨k, d0, hd0, rfl⟩ := exists_of_mem_mapIdx hd
    exact hprintable.members d0 (by simpa [Load.Scope.program] using hd0)
  · obtain ⟨k, d0, hd0, rfl⟩ := exists_of_mem_mapIdx hd
    exact fun m hm t ht =>
      (hprintable.methods d0 (by simpa [Load.Scope.program] using hd0) m hm t ht).printable
  · obtain ⟨k, f0, hf0, rfl⟩ := exists_of_mem_mapIdx hf
    refine hprintable.functions f0.proto ?_
    rw [← hreads.map_proto]
    exact List.mem_map_of_mem (by simpa [Load.Scope.program] using hf0)
  · obtain ⟨k, n0, hn0, rfl⟩ := exists_of_mem_mapIdx hn
    exact hprintable.natives n0 (by simpa [Load.Scope.program] using hn0)
  · obtain ⟨k, f0, hf0, rfl⟩ := exists_of_mem_mapIdx hf
    obtain ⟨protos, -, -, hbodies⟩ := hreads.functions
    obtain ⟨⟨proto, body⟩, -, hread⟩ := exists_of_mem_mapM hbodies
      (show f0 ∈ functions by simpa [Load.Scope.program] using hf0)
    have hbody := Load.readBody_read hprintable hmatches hread
    exact hbody

theorem Program.readIn_of_ofDoc (h : Program.ofDoc doc = .ok p) : ∃ s : Load.Scope, p.ReadIn s := by
  obtain ⟨s, -, -, hread⟩ := reads_of_ofDoc h
  exact ⟨s, hread⟩

theorem Program.resolved_of_ofDoc (h : Program.ofDoc doc = .ok p) : p.resolved := by
  obtain ⟨q, -, hresolve⟩ := ofDoc_ok h
  obtain ⟨-, rs, rfl, -⟩ := resolve_eq_iff.1 hresolve
  rfl

/-- A type with a written form is in scope of a program that defines the declared names. -/
theorem Referend.Printable.inScope (hp : s.Matches p) {r : Referend} (h : r.Printable s.names) :
    r.InScope p := by
  induction r with
  | struct n =>
    obtain ⟨-, hname, hdeclared⟩ := h
    rw [hname]
    exact (hp.structs _ hdeclared).1
  | interface n =>
    obtain ⟨-, hname, -, hdeclared⟩ := h
    rw [hname]
    exact (hp.interfaces _ hdeclared).1
  | array size o l elem ih =>
    obtain ⟨-, ho, -, helem⟩ := h
    exact ⟨ho, ih helem⟩
  | hollowArray size => exact h.elim
  | missing => exact h.elim
  | _ => trivial

theorem TypePrintable.inScope (hp : s.Matches p) {t : Option Reference}
    (h : TypePrintable s.names t) : TypeInScope p t :=
  fun r hr => ⟨(h r hr).ownership, (h r hr).referend.inScope hp⟩

/-- All that a loaded program mentions is in scope. -/
theorem Program.ReadIn.inScope (h : p.ReadIn s) :
    p.TypesInScope ∧ ∀ f ∈ p.functions, f.body.InScope p := by
  refine ⟨h.types.mono fun t ht => ht.inScope h.defines, fun f hf => ⟨fun d hd t ht => ?_, ?_⟩⟩
  · exact ((h.bodies f hf).types d hd t ht).inScope h.defines
  · exact (h.bodies f hf).links

/-! ## Receivers -/

/-- A call that was read in a scope has its receiver where lowering looks for it. -/
theorem Program.ReadIn.addresses (h : p.ReadIn s) (hnumbered : p.Numbered)
    (hcall : Load.Addressed s receiver interface method) :
    Lowering.Addresses p receiver interface method := by
  obtain ⟨name, m, k, rfl, rfl, hm⟩ := hcall
  obtain ⟨hname, hmethod, hget, hk⟩ := Load.readMethod_ok hm
  -- names of interfaces and places in the table of interfaces determine each other
  have hplace : ∀ n ∈ s.names.interfaces, ∃ (j : Nat) (d : InterfaceDef),
      p.interfaceId (.interned n) = j ∧ p.interfaces[j]? = some d ∧ d.name = n ∧
        d.methods = s.methods n := by
    intro n hn
    obtain ⟨⟨hlow, hhigh⟩, hdef⟩ := h.defines.interfaces n hn
    have hlt : (p.interfaceId (.interned n)).toNat < p.interfaces.size := by omega
    have hd : p.interface? (p.interfaceId (.interned n)) =
        some p.interfaces[(p.interfaceId (.interned n)).toNat] := by
      simp [Program.interface?, Program.byId, hlow]
    exact ⟨_, _, by omega, Array.getElem?_eq_getElem hlt, hdef _ hd⟩
  obtain ⟨j, d, hj, hd, rfl, hmethods⟩ := hplace name hname
  refine ⟨.interned d.name, d, m, k, rfl, ?_, hmethod, hmethods ▸ hget, rfl, fun options s => ?_⟩
  · rw [hj]
    simpa [Program.interface?, Program.byId] using hd
  · have hfind : Lowering.receiverIndex.find d m p 0 m.params ⟨p, options⟩ s = .ok (0 + k) s := by
      refine Lowering.findReceiver_ok (fun r hr => ?_) hk
      obtain ⟨t, ht, hprintable⟩ := h.scope.mem_methods (List.mem_of_getElem? hget) r
        (List.mem_cons_of_mem _ hr)
      refine ⟨t, ht, fun I hI => ?_⟩
      have hreferend := hprintable.referend
      rw [hI] at hreferend
      obtain ⟨-, hinterned, -, hdeclared⟩ := hreferend
      obtain ⟨j', d', hj', hd', hname', -⟩ := hplace I.name hdeclared
      rw [hinterned, hj', hnumbered.interfaces j d hd, Int.ofNat_inj]
      refine ⟨?_, fun heq => ?_⟩
      · rintro rfl
        rw [hd] at hd'
        rw [Option.some.inj hd', hname']
        rfl
      · change I.name = d.name at heq
        rw [heq, hj, Int.ofNat_inj] at hj'
        exact hj'.symm
    rwa [Nat.zero_add] at hfind

/-- Every virtual call of a program that was read has its receiver where lowering looks
for it. -/
theorem Lowering.addresses_of_doc (h : Program.ofDoc doc = .ok p) {fn : Function}
    (hfn : fn ∈ p.functions.toList) {args : List Expr} {signature : Option Callee}
    (hcall : (Expr.interfaceCall args receiver interface method signature).Occurs fn.body) :
    Addresses p receiver interface method := by
  obtain ⟨q, -, hresolve⟩ := Program.ofDoc_ok h
  obtain ⟨scope, hread⟩ := Program.readIn_of_ofDoc h
  exact hread.addresses (Program.resolve_numbered hresolve)
    ((hread.bodies fn (by simpa using hfn)).calls _ hcall)

end Tenure

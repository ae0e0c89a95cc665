import Tenure.Proofs.OpenLocals
import Tenure.Proofs.TypeNotation

/-!
# What lowering refuses

Lowering refuses a program with a violation, and each violation has an occasion.
Two concerns are looked at here: `names`, with the lookups of what types and
expressions mention, and `locals`, with the table of open locals.  `Spares` says of
a part of lowering that none of its violations is about a concern.

Names are no trouble if what is looked up is there: types are `InScope` of the
program.  Locals are no trouble if their script is in order from the locals that
are open; that is for the next module, as only expressions touch the table.
-/

namespace Tenure

/-! ## Types in scope -/

/-- A symbol stands for a struct of a program. -/
def Program.HasStruct (p : Program) (s : Symbol) : Prop :=
  0 ≤ p.structId s ∧ p.structId s < p.structs.size

/-- A symbol stands for an interface of a program. -/
def Program.HasInterface (p : Program) (i : Symbol) : Prop :=
  0 ≤ p.interfaceId i ∧ p.interfaceId i < p.interfaces.size

/-- What a referend mentions is defined by a program. -/
def Referend.InScope (p : Program) : Referend → Prop
  | .struct s => p.HasStruct s
  | .interface i => p.HasInterface i
  | .array _ o _ elem => o.Named ∧ elem.InScope p
  | .missing => False
  | _ => True

/-- What a type mentions is defined by a program, and its ownership says something. -/
def Reference.InScope (p : Program) (r : Reference) : Prop :=
  r.ownership.Named ∧ r.referend.InScope p

/-- A type, if there is one, is in scope. -/
def TypeInScope (p : Program) (t : Option Reference) : Prop := ∀ r ∈ t, r.InScope p

/-- What a type mentions, if there is one, is defined by a program, whatever its ownership. -/
def TypeDefined (p : Program) (t : Option Reference) : Prop := ∀ r ∈ t, r.referend.InScope p

/-- The types that a signature states. -/
def Prototype.types (m : Prototype) : List (Option Reference) := m.result :: m.params

/-- The types that the definitions of a program state, bodies apart, have a property. -/
structure Program.States (p : Program) (T : Option Reference → Prop) : Prop where
  members : ∀ d ∈ p.structs, ∀ m ∈ d.members, T m.type
  methods : ∀ d ∈ p.interfaces, ∀ m ∈ d.methods, ∀ t ∈ m.types, T t
  functions : ∀ f ∈ p.functions, ∀ t ∈ f.proto.types, T t
  natives : ∀ n ∈ p.natives, ∀ t ∈ n.types, T t

/-- The types that the definitions of a program state are in scope. -/
abbrev Program.TypesInScope (p : Program) : Prop := p.States (TypeInScope p)

theorem Program.States.mono {p : Program} {T T' : Option Reference → Prop} (h : p.States T)
    (hT : ∀ t, T t → T' t) : p.States T' where
  members d hd m hm := hT _ (h.members d hd m hm)
  methods d hd m hm t ht := hT t (h.methods d hd m hm t ht)
  functions f hf t ht := hT t (h.functions f hf t ht)
  natives n hn t ht := hT t (h.natives n hn t ht)

theorem Reference.InScope.elem {p : Program} {r : Reference} (h : r.referend.InScope p)
    {e : Reference} (he : r.referend.elem? = some (some e)) : e.InScope p := by
  obtain ⟨o, l, referend⟩ := r
  cases referend with
  | array size o' l' elem =>
    obtain rfl : (⟨o', l', elem⟩ : Reference) = e := by simpa [Referend.elem?] using he
    exact h
  | _ => simp [Referend.elem?] at he

end Tenure

namespace Tenure.Lowering

open Ir (Ty Operand Func)

variable {α β : Type} {env : Env} {s s' : State}

set_option synthInstance.maxSize 512

variable {x : Operand} {k : α → Build β} {h : Held}

/-! ## Parts without violations of a concern -/

variable {e : Fault} {r : Reference}

theorem bind_error {x : Build α} (h : (x >>= k) env s = .error e s') :
    x env s = .error e s' ∨ ∃ a s1, x env s = .ok a s1 ∧ k a env s1 = .error e s' := by
  change EStateM.bind (x env) (fun a => k a env) s = .error e s' at h
  unfold EStateM.bind at h
  split at h
  · next a s1 hx => exact .inr ⟨a, s1, hx, h⟩
  · next e' s1 hx =>
    injection h with he hs
    subst he hs
    exact .inl hx

/-- A fault on the way out of a part may come from the part or from the release. -/
theorem releasing_error {body : Build α} (hrun : releasing h body env s = .error e s') :
    (∃ s1, body env s = .error e s1) ∨ ∃ s1 : State,
      (do if !(← terminated) then discard h : Build Unit) env s1 = .error e s' := by
  unfold releasing at hrun
  dsimp only at hrun
  split at hrun
  · next a s1 hbody =>
    split at hrun
    · cases hrun
    · next e' s2 hclose =>
      injection hrun with he hs
      subst he hs
      exact .inr ⟨s1, hclose⟩
  · next e1 s1 hbody =>
    split at hrun
    · injection hrun with he
      subst he
      exact .inl ⟨s1, hbody⟩
    · next e' s2 hclose =>
      injection hrun with he hs
      subst he hs
      exact .inr ⟨s1, hclose⟩

/-- No violation is about a concern. -/
def Without (env : Env) (c : Concern) (α : Type) (x : Build α) : Prop :=
  ∀ ⦃s : State⦄ ⦃v : Violation⦄ ⦃s' : State⦄, x env s = .error (.violation v) s' →
    v.concern? ≠ some c

theorem without_violation {c : Concern} {v : Violation} (h : v.concern? ≠ some c) :
    Without env c α (violation v) := by
  intro s w s' hrun
  change EStateM.Result.error (Fault.violation v) s = .error (.violation w) s' at hrun
  injection hrun with hv
  injection hv with hv
  rwa [← hv]

instance {c : Concern} : Inherited (Without env c) where
  pure a _ _ _ h := by cases h
  bind hx hk s v s' h := by
    rcases bind_error h with h | ⟨a, s1, -, h⟩
    · exact hx h
    · exact hk a h
  crash {α s v s'} h := by
    change EStateM.Result.error Fault.crash s = .error (.violation v) s' at h
    cases h
  violation h := without_violation (by simp [h])
  get _ _ _ h := by cases h
  read _ _ _ h := by cases h
  modify _ _ _ _ h := by cases h
  releasing hbody hclose s v s' h := by
    rcases releasing_error h with ⟨s1, h⟩ | ⟨s1, h⟩
    · exact hbody h
    · exact hclose h

/-! ## What is known -/

/-- Something follows from what is known so far.  As a class, it is found by the shape of
what is known: one fact after the other, the last one first. -/
class Granted (H Q : Prop) : Prop where
  grant : H → Q

section Known

variable {G H Q R : Prop} {p : Program} {r : Reference} {t : Option Reference}

instance : Granted H H := ⟨id⟩
instance : Granted (G ∧ H) G := ⟨And.left⟩
instance (priority := low) [h : Granted H Q] : Granted (G ∧ H) Q := ⟨fun hH => h.grant hH.2⟩

instance [hG : Granted H G] [hQ : Granted H Q] : Granted H (G ∧ Q) :=
  ⟨fun hH => ⟨hG.grant hH, hQ.grant hH⟩⟩

instance [h : Granted (G ∧ Q ∧ H) R] : Granted ((G ∧ Q) ∧ H) R :=
  ⟨fun hH => h.grant (and_assoc.mp hH)⟩

theorem Granted.trans (hG : Granted G H) (hH : Granted H Q) : Granted G Q :=
  ⟨fun h => hH.grant (hG.grant h)⟩

variable {a : α} {as : List α}

theorem Granted.uncons {Q : α → Prop} (h : Granted H (∀ b ∈ a :: as, Q b)) :
    Granted H (Q a) ∧ Granted H (∀ b ∈ as, Q b) :=
  ⟨⟨fun hH => (List.forall_mem_cons.mp (h.grant hH)).1⟩,
    ⟨fun hH => (List.forall_mem_cons.mp (h.grant hH)).2⟩⟩

theorem Granted.of_mem {Q : α → Prop} (h : Granted H (∀ b ∈ as, Q b)) (ha : a ∈ as) :
    Granted H (Q a) :=
  ⟨fun hH => h.grant hH a ha⟩

instance Granted.referend [h : Granted H (r.InScope p)] : Granted H (r.referend.InScope p) :=
  ⟨fun hH => (h.grant hH).2⟩

instance {n : Symbol} [h : Granted H (Referend.InScope p (.struct n))] :
    Granted H (p.HasStruct n) := h

instance {n : Symbol} [h : Granted H (Referend.InScope p (.interface n))] :
    Granted H (p.HasInterface n) := h

theorem Granted.ofSome (h : Granted H (TypeInScope p (some r))) : Granted H (r.InScope p) :=
  ⟨fun hH => h.grant hH r rfl⟩

theorem Granted.elem {o : Ownership} {l : Location} {r : Referend} {size : Option Int}
    (h : Granted H (Referend.InScope p (.array size o l r))) :
    Granted H (Reference.InScope p ⟨o, l, r⟩) := h

instance [h : Granted H (r.InScope p)] : Granted H (TypeInScope p (some r)) :=
  ⟨fun hH _ hr => Option.some.inj hr ▸ h.grant hH⟩

instance [h : Granted H (r.referend.InScope p)] : Granted H (TypeDefined p (some r)) :=
  ⟨fun hH _ hr => Option.some.inj hr ▸ h.grant hH⟩

instance [h : Granted H (TypeInScope p t)] : Granted H (TypeDefined p t) :=
  ⟨fun hH r hr => (h.grant hH r hr).2⟩

instance {o : Ownership} [h : Granted H (r.referend.InScope p)] :
    Granted H ((r.withOwnership o).referend.InScope p) := h

instance [h : Granted H (r.referend.InScope p)] : Granted H
    ((lentElement r).referend.InScope p) := by
  unfold lentElement
  split <;> infer_instance

instance [h : Granted H (r.referend.InScope p)] :
    Granted H (TypeInScope p (r.referend.elem?.getD none)) := by
  refine ⟨fun hH e he => ?_⟩
  cases helem : r.referend.elem? with
  | none => simp [helem] at he
  | some o =>
    obtain rfl : o = some e := by simpa [helem] using he
    exact Reference.InScope.elem (h.grant hH) helem

/-- A property of parts of lowering that is shown from what is known. -/
def Knowing (H : Prop) (P : (α : Type) → Build α → Prop) (α : Type) (x : Build α) : Prop :=
  H → P α x

instance {P : (α : Type) → Build α → Prop} [Inherited P] : Inherited (Knowing H P) where
  pure a _ := Inherited.pure a
  bind hx hk hH := Inherited.bind (hx hH) fun a => hk a hH
  crash _ := Inherited.crash
  violation h _ := Inherited.violation h
  get _ := Inherited.get
  read _ := Inherited.read
  modify hg _ := Inherited.modify hg
  releasing hbody hclose hH := Inherited.releasing (hbody hH) (hclose hH)

end Known

/-! ## Parts that spare a concern -/

/-- A part of lowering has no violation of a concern; for names, that is if what is known so
far is so. -/
abbrev Spares (env : Env) (c : Concern) (H : Prop) (x : Build α) : Prop :=
  Shows (Knowing (c = .names → H) (Without env c)) x

/-- From what is known so far, something is known of what a part gives. -/
class Assures (env : Env) (H : Prop) (x : Build α) (Q : outParam (α → Prop)) : Prop where
  assures : ∀ ⦃s : State⦄ ⦃a : α⦄ ⦃s' : State⦄, H → x env s = .ok a s' → Q a

variable {c : Concern} {H : Prop} {v : Violation}

theorem Spares.concern_ne {x : Build α} [h : Spares env c H x] (hH : c = .names → H)
    (hrun : x env s = .error (.violation v) s') : v.concern? ≠ some c :=
  h.shows hH hrun

/-- More may be known. -/
theorem Spares.weaken {G : Prop} {x : Build α} (h : Spares env c G x) (H : Prop)
    [hG : Granted H G] : Spares env c H x :=
  ⟨fun hH => h.shows fun hc => hG.grant (hH hc)⟩

/-- What comes after a part has to be looked at only where the part succeeds. -/
theorem Spares.bindOf {x : Build α} [hx : Spares env c H x]
    (hk : ∀ ⦃s : State⦄ ⦃a : α⦄ ⦃s' : State⦄, x env s = .ok a s' → Spares env c H (k a)) :
    Spares env c H (x >>= k) where
  shows hH s v s' h := by
    rcases bind_error h with h | ⟨a, s1, h1, h⟩
    · exact hx.shows hH h
    · exact (hk h1).shows hH h

/-- What a part gives may be used afterwards. -/
theorem Spares.learn {x : Build α} {Q : α → Prop} [ha : Assures env H x Q] [hx : Spares env c H x]
    (hk : ∀ a, Spares env c (Q a ∧ H) (k a)) : Spares env c H (x >>= k) where
  shows hH s v s' h := by
    rcases bind_error h with h | ⟨a, s1, h1, h⟩
    · exact hx.shows hH h
    · exact (hk a).shows (fun hc => ⟨ha.assures (hH hc) h1, hH hc⟩) h

instance (priority := high) {x : Build α} {Q : α → Prop} [Assures env H x Q] [Spares env c H x]
    [hk : ∀ a, Spares env c (Q a ∧ H) (k a)] : Spares env c H (x >>= k) :=
  .learn hk

/-- A violation that what is known excludes. -/
theorem Spares.excluded (hv : v.concern? = some .names) (h : ¬ H) :
    Spares env c H (violation v : Build α) where
  shows hH := without_violation fun hc => h (hH (Option.some.inj (hc.symm.trans hv)))

theorem Spares.ite {p : Prop} [Decidable p] {x y : Build α} (hx : p → Spares env c H x)
    (hy : ¬ p → Spares env c H y) : Spares env c H (if p then x else y) := by
  split
  · next hp => exact hx hp
  · next hp => exact hy hp

instance {g : State → State} : Spares env c H (modify g : Build PUnit) where
  shows _ _ _ _ h := by cases h

/-- The program that is lowered is the one of the environment. -/
theorem Spares.program {k : Program → Build β} (hk : Spares env c H (k env.program)) :
    Spares env c H (getProgram >>= k) :=
  .bindOf fun _ p _ h => by rwa [← (getProgram_ok h).1]

section Given

variable {t : Option Reference}

instance [h : Granted H (TypeInScope env.program t)] :
    Assures env H (require t) (·.InScope env.program) :=
  ⟨fun _ r _ hH hrun => h.grant hH r (require_ok hrun).1⟩

instance (priority := low) [h : Granted H (TypeDefined env.program t)] :
    Assures env H (require t) (·.referend.InScope env.program) :=
  ⟨fun _ r _ hH hrun => h.grant hH r (require_ok hrun).1⟩

instance {n : Option Symbol} [h : Granted H (∀ s ∈ n, env.program.HasStruct s)] :
    Assures env H (require n) env.program.HasStruct :=
  ⟨fun _ s _ hH hrun => h.grant hH s (require_ok hrun).1⟩

instance {n : Option Symbol} [h : Granted H (∀ i ∈ n, env.program.HasInterface i)] :
    Assures env H (require n) env.program.HasInterface :=
  ⟨fun _ i _ hH hrun => h.grant hH i (require_ok hrun).1⟩

instance {Q : Reference → Prop} {h : Held} [hQ : Assures env H (require h.type) Q] :
    Assures env H h.reference Q := hQ

end Given

/-! ## Code -/

instance {g : Func → Func} : Spares env c H (modifyFunc g) :=
  inferInstanceAs (Spares env c H (modify _))

instance {i : Nat} : Spares env c H (beginFunc i) := by
  unfold beginFunc
  infer_instance

instance {t : Ty} {n : String} : Spares env c H (entryAlloca t n) := by
  unfold entryAlloca emitTo
  infer_instance

instance {f : Func} : Spares env c H (addFunc f) := by
  unfold addFunc
  infer_instance

/-! ## Layout -/

instance {n : Symbol} [h : Granted H (env.program.HasStruct n)] :
    Spares env c H (structIndex n) := by
  unfold structIndex
  exact .program (.ite (fun _ => inferInstance) fun hn => .excluded rfl fun hH => hn (h.grant hH))

instance {n : Symbol} [h : Granted H (env.program.HasInterface n)] :
    Spares env c H (interfaceIndex n) := by
  unfold interfaceIndex
  exact .program (.ite (fun _ => inferInstance) fun hn => .excluded rfl fun hH => hn (h.grant hH))

instance {n : Symbol} : Assures env H (interfaceIndex n) fun i => env.program.interfaceId n = i :=
  ⟨fun _ _ _ _ h => (interfaceIndex_ok h).1⟩

instance {key : String} {compute : Build Ty} [Spares env c H compute] :
    Spares env c H (keptLayout key compute) := by
  unfold keptLayout
  refine .step fun s => ?_
  split <;> infer_instance

section Types

variable {o : Ownership} {l : Location} {r : Referend}

instance [h : Granted H (r.InScope env.program)] : Spares env c H (lowerReferend o l r) := by
  induction r generalizing o l h with
  | array size o' l' elem ih =>
    have := h.elem.referend
    unfold lowerReferend
    infer_instance
  | missing => exact .excluded rfl h.grant
  | _ =>
    unfold lowerReferend
    infer_instance

instance {r : Reference} [Granted H (r.referend.InScope env.program)] :
    Spares env c H (lowerReference r) :=
  inferInstanceAs (Spares env c H (lowerReferend _ _ _))

instance {t : Option Reference} [Granted H (TypeDefined env.program t)] :
    Spares env c H (lowerType t) := by
  unfold lowerType
  infer_instance

instance [h : Granted H (r.InScope env.program)] : Spares env c H (arrayLayout r) := by
  cases r with
  | missing => exact inferInstanceAs (Spares env c H crash)
  | array size o l elem =>
    have := h.elem.referend
    unfold arrayLayout
    infer_instance
  | _ =>
    unfold arrayLayout
    infer_instance

end Types

/-! ## Structs -/

/-- The struct that a type designates. -/
theorem structDef_ok {d : StructDef} (h : structDef r env s = .ok d s') :
    ∃ n, r.referend = .struct n ∧ env.program.struct? (env.program.structId n) = some d ∧
      d ∈ env.program.structs := by
  obtain ⟨o, l, referend⟩ := r
  cases referend with
  | struct n =>
    obtain ⟨i, s1, h1, h⟩ := bind_ok h
    obtain ⟨hi, rfl⟩ := structIndex_ok h1
    replace h := getProgram_then h
    have hd := (require_ok h).1
    exact ⟨n, rfl, by simp [Program.struct?, Program.byId, hi, hd], Array.mem_of_getElem? hd⟩
  | _ => exact absurd h throw_ne_ok

/-- A member of the struct that a type designates. -/
theorem memberOf_ok {i : Int} {m : StructMember} (h : memberOf r i env s = .ok m s') :
    ∃ d ∈ env.program.structs, m ∈ d.members := by
  obtain ⟨d, s1, h1, h⟩ := bind_ok h
  obtain ⟨n, -, -, hd⟩ := structDef_ok h1
  refine ⟨d, hd, ?_⟩
  cases hfound : Program.byId d.members.toArray i with
  | none =>
    rw [hfound] at h
    exact absurd h throw_ne_ok
  | some m' =>
    rw [hfound] at h
    obtain ⟨rfl, -⟩ := pure_ok h
    rw [Program.byId] at hfound
    split at hfound
    · simpa using Array.mem_of_getElem? hfound
    · cases hfound

section Structs

variable {r : Reference}

instance {i : Nat} [h : Granted H env.program.TypesInScope] :
    Assures env H (structAt i) fun d => ∀ m ∈ d.members, TypeInScope env.program m.type := by
  refine ⟨fun _ d _ hH hd => ?_⟩
  replace hd := getProgram_then hd
  exact (h.grant hH).members d (Array.mem_of_getElem? (require_ok hd).1)

instance [h : Granted H env.program.TypesInScope] :
    Assures env H (structDef r) fun d => ∀ m ∈ d.members, TypeInScope env.program m.type := by
  refine ⟨fun _ d _ hH hd => ?_⟩
  obtain ⟨-, -, -, hd⟩ := structDef_ok hd
  exact (h.grant hH).members d hd

instance {i : Int} [h : Granted H env.program.TypesInScope] :
    Assures env H (memberOf r i) fun m => TypeInScope env.program m.type := by
  refine ⟨fun _ m _ hH hm => ?_⟩
  obtain ⟨d, hd, hm⟩ := memberOf_ok hm
  exact (h.grant hH).members d hd m hm

instance [h : Granted H (r.referend.InScope env.program)] : Spares env c H (structDef r) := by
  unfold structDef
  split
  · next n hn =>
    rw [hn] at h
    infer_instance
  · infer_instance

/-- If a type designates a struct, that has a member at an index. -/
def HasMember (p : Program) (r : Reference) (i : Int) : Prop := ∀ n, r.referend = .struct n →
  ∀ d, p.struct? (p.structId n) = some d → 0 ≤ i ∧ i < d.members.length

instance {i : Int} [Granted H (r.referend.InScope env.program)]
    [hi : Granted H (HasMember env.program r i)] : Spares env c H (memberOf r i) := by
  unfold memberOf
  refine .bindOf fun _ d _ hd => ?_
  split
  · infer_instance
  · next hnone =>
    refine .excluded rfl fun hH => ?_
    obtain ⟨n, hn, hd, -⟩ := structDef_ok hd
    obtain ⟨h0, hlt⟩ := hi.grant hH n hn d hd
    simp [Program.byId, h0] at hnone
    omega

instance [h : Granted H (r.InScope env.program)] : Spares env c H (isMutableView r) := by
  unfold isMutableView
  split
  · infer_instance
  · infer_instance
  · infer_instance
  · next n hn =>
    exact .excluded rfl fun hH => by simpa [Ownership.Named, hn] using (h.grant hH).1

end Structs

/-! ## Counting -/

instance {visit : Held → Build Unit} {i : Nat} {ms : List StructMember}
    [Granted H env.program.TypesInScope] [h : Granted H (∀ m ∈ ms, TypeInScope env.program m.type)]
    [hvisit : ∀ h : Held,
      Spares env c (TypeInScope env.program h.type ∧ env.program.TypesInScope) (visit h)] :
    Spares env c H (visitMembers x visit i ms) := by
  induction ms generalizing i h with
  | nil =>
    unfold visitMembers
    infer_instance
  | cons m ms ih =>
    obtain ⟨_, _⟩ := h.uncons
    have : ∀ y, Spares env c H (visit ⟨y, m.type⟩) := fun y => (hvisit ⟨y, m.type⟩).weaken H
    unfold visitMembers
    infer_instance

section Members

variable {member : Held → Build Unit} [Granted H env.program.TypesInScope]
  [∀ h : Held, Spares env c (TypeInScope env.program h.type ∧ env.program.TypesInScope) (member h)]

instance {r : Referend} [h : Granted H (r.InScope env.program)] :
    Spares env c H (forEachMember x r member) := by
  unfold forEachMember
  split <;> infer_instance

instance {r : Reference} {drop : Build Unit} [h : Granted H (r.InScope env.program)]
    [Spares env c H drop] : Spares env c H (releaseBy member x r drop) := by
  unfold releaseBy
  split
  · infer_instance
  · infer_instance
  · next n hn =>
    exact .excluded rfl fun hH => by simpa [Ownership.Named, hn] using (h.grant hH).1
  · infer_instance

instance {o : Ownership} {l : Location} {r : Referend}
    [h : Granted H (Reference.InScope env.program ⟨o, l, r⟩)] :
    Spares env c H (release member x o l r) := by
  induction r generalizing x o l h with
  | array size o' l' elem ih =>
    have := h.referend
    have := h.referend.elem
    unfold release
    infer_instance
  | _ =>
    have := h.referend
    unfold release
    infer_instance

end Members

section Counts

variable [Granted H env.program.TypesInScope]

instance {n : Nat} [Granted H (TypeDefined env.program h.type)] :
    Spares env c H (acquireFuel n h) := by
  induction n generalizing h H with
  | zero => exact inferInstanceAs (Spares env c H crash)
  | succ n ih =>
    unfold acquireFuel
    infer_instance

instance [Granted H (TypeDefined env.program h.type)] : Spares env c H (acquire h) := by
  unfold acquire
  infer_instance

instance {n : Nat} [Granted H (TypeInScope env.program h.type)] :
    Spares env c H (discardFuel n h) := by
  induction n generalizing h H with
  | zero => exact inferInstanceAs (Spares env c H crash)
  | succ n ih =>
    unfold discardFuel
    infer_instance

instance [Granted H (TypeInScope env.program h.type)] : Spares env c H (discard h) := by
  unfold discard
  infer_instance

end Counts

/-! ## Interfaces -/

section Interfaces

variable {i : Nat} {ts : List (Option Reference)} {m : Prototype}

instance {receiver : Nat} [h : Granted H (∀ t ∈ ts, TypeInScope env.program t)] :
    Spares env c H (entryParams receiver i ts) := by
  induction ts generalizing i h with
  | nil =>
    unfold entryParams
    infer_instance
  | cons t ts ih =>
    obtain ⟨_, _⟩ := h.uncons
    unfold entryParams
    dsimp only
    infer_instance

instance {d : InterfaceDef} [h : Granted H (∀ t ∈ m.types, TypeInScope env.program t)] :
    Spares env c H (entryType d m) := by
  obtain ⟨_, _⟩ := h.uncons
  unfold entryType
  infer_instance

/-- An interface of a program has a method at an index. -/
def HasMethod (p : Program) (i : Nat) (method : Int) : Prop :=
  ∀ d, p.interfaces[i]? = some d → 0 ≤ method ∧ method < d.methods.length

instance {method : Int} [h : Granted H (HasMethod env.program i method)] :
    Spares env c H (loadMethod i x method) := by
  unfold loadMethod
  refine .bindOf fun _ d _ hd => .ite (fun hbad => ?_) fun _ => inferInstance
  have : Spares env c H (violation (.noMethod d.name method) : Build PUnit) := by
    refine .excluded rfl fun hH => ?_
    have := h.grant hH d (interfaceAt_ok hd).1
    omega
  infer_instance

instance [Granted H (TypeDefined env.program h.type)] : Spares env c H (functorMethod h) := by
  unfold functorMethod
  refine Spares.learn fun r => ?_
  split
  · next n hn =>
    have : Granted (r.referend.InScope env.program ∧ H) (env.program.HasInterface n) := by
      rw [hn]
      infer_instance
    refine .step fun i => .step fun d => ?_
    split <;> infer_instance
  · infer_instance

/-- The method of a functor is the first one of an interface of the program. -/
theorem functorMethod_ok {d : InterfaceDef} (h : functorMethod h env s = .ok (i, d, m) s') :
    env.program.interfaces[i]? = some d ∧ ∃ ms, d.methods = m :: ms := by
  obtain ⟨⟨o, l, referend⟩, _, h1, h⟩ := bind_ok h
  cases referend with
  | interface n =>
    obtain ⟨j, _, h2, h⟩ := bind_ok h
    obtain ⟨⟨name, methods, id⟩, _, h3, h⟩ := bind_ok h
    cases methods with
    | nil => exact absurd h throw_ne_ok
    | cons m' ms =>
      dsimp only at h
      split at h
      · obtain ⟨heq, -⟩ := pure_ok h
        injection heq with hj heq
        injection heq with hd hm
        subst hj hd hm
        exact ⟨(interfaceAt_ok h3).1, ms, rfl⟩
      · exact absurd h throw_ne_ok
  | _ => exact absurd h throw_ne_ok

instance [hp : Granted H env.program.TypesInScope] : Assures env H (functorMethod h)
    fun t => HasMethod env.program t.1 0 ∧ TypeInScope env.program t.2.2.result := by
  refine ⟨fun _ t _ hH hrun => ?_⟩
  obtain ⟨i, d, m⟩ := t
  obtain ⟨hd, ms, hms⟩ := functorMethod_ok hrun
  constructor
  · intro d' hd'
    obtain rfl := Option.some.inj (hd.symm.trans hd')
    simp [hms]
  · exact (hp.grant hH).methods d (Array.mem_of_getElem? hd) m (by simp [hms]) _ List.mem_cons_self

instance [Granted H env.program.TypesInScope] [Granted H (TypeDefined env.program h.type)] :
    Spares env c H (callFunctor h x) := by
  unfold callFunctor
  refine Spares.learn fun t => ?_
  obtain ⟨i, d, m⟩ := t
  infer_instance

end Interfaces

/-! ## Elements and calls -/

section Calls

variable [Granted H env.program.TypesInScope] {rs : List Result} {ts : List (Option Reference)}

instance {r : Reference} {y : Operand} [h : Granted H (r.referend.InScope env.program)] :
    Spares env c H (loadElement x r y) := by
  unfold loadElement
  split
  · infer_instance
  · next elem helem =>
    have : Granted H (TypeInScope env.program elem) :=
      ⟨fun hH e he => Reference.InScope.elem (h.grant hH) (he ▸ helem)⟩
    infer_instance

instance {b : Builtin} {xs : List Held} [h : Granted H (∀ x ∈ xs, TypeInScope env.program x.type)] :
    Spares env c H (b.lower xs) := by
  unfold Builtin.lower
  split
  · obtain ⟨_, _⟩ := h.uncons
    infer_instance
  · obtain ⟨_, hrest⟩ := h.uncons
    obtain ⟨_, _⟩ := hrest.uncons
    infer_instance
  · infer_instance

/-- The arguments of a builtin have types of its signature. -/
theorem builtinArgs_types {hs : List Held} (h : builtinArgs rs ts env s = .ok hs s') :
    ∀ x ∈ hs, x.type ∈ ts := by
  induction rs generalizing ts hs s s' with
  | nil =>
    obtain ⟨rfl, -⟩ := pure_ok h
    simp
  | cons r rs ih =>
    cases ts with
    | nil =>
      obtain ⟨rfl, -⟩ := pure_ok h
      simp
    | cons t ts =>
      obtain ⟨g, s1, -, h⟩ := bind_ok h
      obtain ⟨gs, s2, h2, h⟩ := bind_ok h
      obtain ⟨rfl, -⟩ := pure_ok h
      intro x hx
      rcases List.mem_cons.mp hx with rfl | hx
      · simp
      · exact List.mem_cons_of_mem _ (ih h2 x hx)

instance [h : Granted H (∀ t ∈ ts, TypeInScope env.program t)] :
    Assures env H (builtinArgs rs ts) fun hs => ∀ x ∈ hs, TypeInScope env.program x.type :=
  ⟨fun _ _ _ hH hrun x hx => h.grant hH _ (builtinArgs_types hrun x hx)⟩

instance {m : Prototype} [h : Granted H (∀ t ∈ m.types, TypeInScope env.program t)] :
    Spares env c H (callNative m rs) := by
  obtain ⟨_, _⟩ := h.uncons
  unfold callNative
  split <;> infer_instance

end Calls

end Tenure.Lowering

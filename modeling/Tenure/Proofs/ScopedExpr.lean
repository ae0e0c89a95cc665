import Tenure.Proofs.Refusals

/-!
# What lowering refuses in expressions

An expression is lowered without trouble about names if all that occurs in it `Fits`
the program, and without trouble about locals if its script is in order from the
locals that are open.  Both are shown by one induction over expressions: `Heeds` is
`Spares` from where a script is in order.
-/

namespace Tenure

/-! ## Expressions in scope -/

/-- The types that a call states on the spot. -/
def Callee.types : Callee → List (Option Reference)
  | .inPlace m => m.types
  | .function _ | .native _ => []

/-- The types that an expression states, its parts apart. -/
@[simp]
def Expr.types : Expr → List (Option Reference)
  | .argument type _ | .discard _ type | .ret _ type | .newStruct _ type | .ite _ _ _ type
  | .memberStore _ type _ _ _ | .upcast _ type _ _ | .knownArrayLoad _ type _
  | .unknownArrayLoad _ type _ | .arrayLength _ type | .newArray _ type => [type]
  | .memberLoad _ type _ _ expected => [type, expected]
  | .tabulate _ _ functorType type | .consumeKnownArray _ type _ functorType
  | .consumeUnknownArray _ type _ functorType => [type, functorType]
  | .stackify _ slot | .unstackify slot | .localLoad slot _ | .localStore slot _ =>
      [slot.bind (·.type)]
  | .destroy _ type slots => type :: slots.map (·.bind (·.type))
  | .call function _ | .externCall function _ | .interfaceCall _ _ _ _ function =>
      function.toList.flatMap Callee.types
  | .missing | .constantI64 _ | .constantBool _ | .constantStr _ | .block _ | .loop _ _ => []

/-- What an expression mentions by name or by index, types and parts apart, is there, and
calls state no signature of their own. -/
def Expr.Links (p : Program) : Expr → Prop
  | .missing => False
  | .call function _ | .externCall function _ => ∀ f ∈ function, f.types = []
  | .interfaceCall _ _ interface method _ => ∀ i ∈ interface, p.HasInterface i ∧
      ∀ d, p.interface? (p.interfaceId i) = some d → 0 ≤ method ∧ method < d.methods.length
  | .memberLoad _ type index _ _ | .memberStore _ type index _ _ => ∀ r ∈ type, ∀ n,
      r.referend = .struct n → ∀ d, p.struct? (p.structId n) = some d →
        0 ≤ index ∧ index < d.members.length
  | .upcast _ _ struct interface =>
      (∀ s ∈ struct, p.HasStruct s) ∧ ∀ i ∈ interface, p.HasInterface i
  | _ => True

/-- All that an expression mentions is there. -/
structure Expr.InScope (p : Program) (e : Expr) : Prop where
  types : ∀ d, Expr.Occurs d e → ∀ t ∈ d.types, TypeInScope p t
  links : ∀ d, Expr.Occurs d e → d.Links p

variable {p : Program} {e : Expr}

theorem Expr.InScope.type (h : e.InScope p) {t : Option Reference} (ht : t ∈ e.types) :
    TypeInScope p t := h.types e .here t ht

theorem Expr.InScope.link (h : e.InScope p) : e.Links p := h.links e .here

theorem Expr.InScope.part {d : Expr} (h : e.InScope p) (hd : d ∈ e.parts) : d.InScope p :=
  ⟨fun _ hd' => h.types _ (.part hd hd'), fun _ hd' => h.links _ (.part hd hd')⟩

end Tenure

namespace Tenure.Lowering

open Ir (Operand)
open LocalEvent (playAll)

variable {α β : Type} {env : Env} {c : Concern} {H : Prop}

set_option synthInstance.maxSize 8192

variable {l : Local} {r : Reference}

/-! ## Parts that heed a script -/

/-- What a part of lowering does to the table of open locals is a script, and it has no
violation of a concern: for names, if what is known so far is so, and for locals, from where
the script is in order. -/
class Heeds (env : Env) (c : Concern) (H : Prop) (x : Build α) (ts : outParam (List LocalEvent)) :
    Prop where
  plays : ∀ ⦃s : State⦄ ⦃a : α⦄ ⦃s' : State⦄, x env s = .ok a s' →
    playAll (openIds s) ts = some (openIds s')
  spares : ∀ ⦃s : State⦄ ⦃v : Violation⦄ ⦃s' : State⦄, (c = .names → H) →
    (c = .locals → (playAll (openIds s) ts).isSome) → x env s = .error (.violation v) s' →
    v.concern? ≠ some c

section Rules

variable {x y : Build α} {k : α → Build β} {ts us : List LocalEvent} {v : Violation}

instance (priority := low) Heeds.idle [Idle x] [Spares env c H x] : Heeds env c H x [] where
  plays s a s' h := by
    rw [Idle.openIds_eq h]
    rfl
  spares _ _ _ hH _ h := Spares.concern_ne hH h

/-- A script may be written another way. -/
theorem Heeds.scripted [h : Heeds env c H x us] (heq : us = ts) : Heeds env c H x ts := heq ▸ h

/-- More may be known. -/
theorem Heeds.weaken {G : Prop} (h : Heeds env c G x ts) (H : Prop) [hG : Granted H G] :
    Heeds env c H x ts :=
  ⟨h.plays, fun _ _ _ hH => h.spares fun hc => hG.grant (hH hc)⟩

theorem Heeds.crashed : Heeds env c H (crash : Build α) ts where
  plays _ _ _ h := absurd h throw_ne_ok
  spares s v s' _ _ h := by
    change EStateM.Result.error Fault.crash s = .error (.violation v) s' at h
    cases h

variable {Q : α → Prop}

theorem Heeds.learn [ha : Assures env H x Q] [hx : Heeds env c H x ts]
    (hk : ∀ a, Heeds env c (Q a ∧ H) (k a) us) : Heeds env c H (x >>= k) (ts ++ us) where
  plays s b s'' h := by
    obtain ⟨a, s', h1, h2⟩ := bind_ok h
    exact LocalEvent.playAll_append_eq.2 ⟨_, hx.plays h1, (hk a).plays h2⟩
  spares s v s' hH hscript h := by
    have hfirst : c = .locals →
        ∃ mid, playAll (openIds s) ts = some mid ∧ (playAll mid us).isSome := by
      intro hc
      obtain ⟨left, hleft⟩ := Option.isSome_iff_exists.1 (hscript hc)
      obtain ⟨mid, hmid, hrest⟩ := LocalEvent.playAll_append_eq.1 hleft
      exact ⟨mid, hmid, by simp [hrest]⟩
    rcases bind_error h with h | ⟨a, s1, h1, h⟩
    · refine hx.spares hH (fun hc => ?_) h
      obtain ⟨mid, hmid, -⟩ := hfirst hc
      simp [hmid]
    · refine (hk a).spares (fun hc => ⟨ha.assures (hH hc) h1, hH hc⟩) (fun hc => ?_) h
      obtain ⟨mid, hmid, hrest⟩ := hfirst hc
      rwa [Option.some.inj ((hx.plays h1).symm.trans hmid)]

theorem Heeds.step [Heeds env c H x ts] (hk : ∀ a, Heeds env c H (k a) us) :
    Heeds env c H (x >>= k) (ts ++ us) :=
  have : Assures env H x fun _ => True := ⟨fun _ _ _ _ _ => trivial⟩
  .learn fun a => (hk a).weaken _

/-- Something is done before that has nothing to do with locals. -/
theorem Heeds.after [Idle x] [Spares env c H x] (hk : ∀ a, Heeds env c H (k a) us) :
    Heeds env c H (x >>= k) us :=
  (.step hk : Heeds env c H (x >>= k) ([] ++ us))

theorem Heeds.given [Idle x] [Spares env c H x] [Assures env H x Q]
    (hk : ∀ a, Heeds env c (Q a ∧ H) (k a) us) : Heeds env c H (x >>= k) us :=
  (.learn hk : Heeds env c H (x >>= k) ([] ++ us))

/-- What must be there is there afterwards. -/
theorem Heeds.require {o : Option α} (hk : ∀ a, o = some a → Heeds env c H (k a) ts) :
    Heeds env c H (require o >>= k) ts := by
  cases o with
  | none => exact .crashed
  | some a => exact hk a rfl

instance (priority := high) {Q : α → Prop} [Assures env H x Q] [Heeds env c H x ts]
    [hk : ∀ a, Heeds env c (Q a ∧ H) (k a) us] : Heeds env c H (x >>= k) (ts ++ us) :=
  .learn hk

instance [Heeds env c H x ts] [hk : ∀ a, Heeds env c H (k a) us] :
    Heeds env c H (x >>= k) (ts ++ us) :=
  .step hk

/-- A violation that is about neither concern. -/
theorem Heeds.other [h : Aside v.concern?] : Heeds env c H (violation v : Build α) ts where
  plays _ _ _ hrun := absurd hrun throw_ne_ok
  spares _ _ _ _ _ hrun := without_violation (by simp [h.none]) hrun

theorem Heeds.refused [h : Aside v.concern?] : Heeds env c H (violation v >>= k) ts where
  plays _ _ _ hrun := absurd hrun refused_ne_ok
  spares s w s' _ _ hrun := by
    rcases bind_error hrun with hrun | ⟨a, s1, hrun, -⟩
    · exact without_violation (by simp [h.none]) hrun
    · exact absurd hrun throw_ne_ok

theorem Heeds.ite {p : Prop} [Decidable p] (hx : Heeds env c H x ts)
    (hy : ¬ p → Heeds env c H y ts) : Heeds env c H (if p then x else y) ts := by
  split
  · exact hx
  · next hp => exact hy hp

instance {p : Prop} [Decidable p] {y : Build β} [Aside v.concern?] [hy : Heeds env c H y ts] :
    Heeds env c H (if p then violation v >>= k else y) ts :=
  .ite .refused fun _ => hy

instance {e : Expr} {x : Build Result} [hx : Heeds env c H x ts] :
    Heeds env c H (arriving e x) ts :=
  .after fun _ => .ite .refused fun _ => .after fun _ => .ite (.after fun _ => hx) fun _ => hx

instance {h : Held} [hx : Heeds env c H x ts] [Spares env c H (discard h)] :
    Heeds env c H (releasing h x) ts where
  plays s a s' hrun := by
    obtain ⟨s1, h1, h2⟩ := releasing_ok hrun
    have : Idle (do if !(← terminated) then discard h : Build Unit) := inferInstance
    rw [Idle.openIds_eq h2]
    exact hx.plays h1
  spares s v s' hH hscript hrun := by
    rcases releasing_error hrun with ⟨s1, hrun⟩ | ⟨s1, hrun⟩
    · exact hx.spares hH hscript hrun
    · have : Spares env c H (do if !(← terminated) then discard h : Build Unit) := inferInstance
      exact this.shows hH hrun

end Rules

/-! ## Locals -/

instance {x : Operand} [Granted H (TypeDefined env.program l.type)] :
    Heeds env c H (openLocal l x) [.opens l.id] where
  plays _ _ _ h := openLocal_plays h
  spares s v s' hH hscript h := by
    rcases bind_error h with h | ⟨st, s1, h1, h⟩
    · cases h
    obtain ⟨rfl, rfl⟩ := get_ok h1
    dsimp only at h
    split at h
    · next hopen =>
      rcases bind_error h with h | ⟨_, _, h, -⟩
      · refine without_violation (fun hv => ?_) h
        obtain rfl : Concern.locals = c := by simpa using hv
        rw [← mem_openIds] at hopen
        have := hscript rfl
        simp [LocalEvent.play, hopen] at this
      · exact absurd h throw_ne_ok
    · exact Spares.concern_ne hH h

/-- The slot of a local is looked up, to use it or to close it. -/
theorem slotOf_spares {t : LocalEvent} {s s' : State} {v : Violation}
    (ht : t = .uses l.id ∨ t = .closes l.id)
    (hscript : c = .locals → (playAll (openIds s) [t]).isSome)
    (h : slotOf l env s = .error (.violation v) s') : v.concern? ≠ some c := by
  rcases bind_error h with h | ⟨st, s1, h1, h⟩
  · cases h
  obtain ⟨rfl, rfl⟩ := get_ok h1
  cases hfound : s.slots.find? (·.1 == l.id) with
  | some p =>
    rw [hfound] at h
    cases h
  | none =>
    rw [hfound] at h
    refine without_violation (fun hv => ?_) h
    obtain rfl : Concern.locals = c := by simpa using hv
    have hclosed : l.id ∉ openIds s := by
      rw [mem_openIds, List.any_eq_true]
      rintro ⟨q, hq, hid⟩
      exact List.find?_eq_none.1 hfound q hq hid
    have := hscript rfl
    rcases ht with rfl | rfl <;> simp [LocalEvent.play, hclosed] at this

instance : Heeds env c H (slotOf l) [.uses l.id] :=
  ⟨fun _ _ _ h => slotOf_plays h, fun _ _ _ _ => slotOf_spares (.inl rfl)⟩

instance : Spares env c H (closeLocal l) := inferInstanceAs (Spares env c H (modify _))

/-- The slot of a local is looked up, something is done, and the local is closed. -/
theorem heeds_closing {x : Slot → Build α} [∀ slot, Idle (x slot)]
    [∀ slot, Spares env c H (x slot)] {r : α → Result} :
    Heeds env c H (do
      let slot ← slotOf l
      let a ← x slot
      closeLocal l
      return r a) [.closes l.id] where
  plays _ _ _ h := closing_plays h
  spares s v s' hH hscript h := by
    rcases bind_error h with h | ⟨slot, s1, -, h⟩
    · exact slotOf_spares (.inr rfl) hscript h
    · exact Spares.concern_ne hH h

instance {x : Operand} {i : Nat} {ms : List StructMember} {ls : List (Option Local)}
    [hlen : Fact (ls.length = ms.length)] [Granted H (r.referend.InScope env.program)]
    [hms : Granted H (∀ m ∈ ms, TypeInScope env.program m.type)]
    [hls : Granted H (∀ l ∈ ls, TypeInScope env.program (l.bind (·.type)))] :
    Heeds env c H (openMembers x r i ms ls) (ls.flatMap (Local.event .opens)) := by
  induction ms generalizing i ls hlen hms hls with
  | nil =>
    obtain rfl := List.length_eq_zero_iff.1 hlen.out
    unfold openMembers
    exact .idle
  | cons m ms ih =>
    cases ls with
    | nil => cases hlen.out
    | cons l ls =>
      obtain ⟨_, _⟩ := hms.uncons
      obtain ⟨hl, _⟩ := hls.uncons
      have : Fact (ls.length = ms.length) := ⟨Nat.succ.inj hlen.out⟩
      rw [List.flatMap_cons, openMembers]
      refine .after fun field => .require ?_
      rintro l rfl
      have : Granted H (TypeInScope env.program l.type) := hl
      exact .scripted rfl

/-! ## Expressions -/

/-- The signature that a call names has types in scope. -/
instance {function : Option Callee} [hp : Granted H env.program.TypesInScope]
    [hc : Granted H (∀ t ∈ function.toList.flatMap Callee.types, TypeInScope env.program t)] :
    Assures env H (signatureOf function) fun m => ∀ t ∈ m.types, TypeInScope env.program t := by
  refine ⟨fun _ m _ hH h => ?_⟩
  replace h := getProgram_then h
  obtain ⟨callee, rfl, h⟩ := require_then h
  have hm := (require_ok h).1
  cases callee with
  | function i =>
    obtain ⟨f, hf, rfl⟩ := Option.map_eq_some_iff.1 hm
    exact (hp.grant hH).functions f (Array.mem_of_getElem? hf)
  | native i => exact (hp.grant hH).natives m (Array.mem_of_getElem? hm)
  | inPlace m' =>
    obtain rfl := Option.some.inj hm
    simpa [Callee.types] using hc.grant hH

theorem shows_viewed {P : (α : Type) → Build α → Prop} [Inherited P] {edge : Option Nat}
    {r : Reference} {s i : Symbol} {iid : Nat} {h : Held} : Shows P (match edge with
      | none => violation (.notImplemented s.name i.name)
      | some edge => do
          let object ← emitBitcast h.value .i8Ptr
          let x ← makeInterfaceRef iid object (← tableOperand edge)
          return some ⟨x, some ⟨r.ownership, .yonder, .interface i⟩⟩ : Build Result) := by
  split <;> infer_instance

section Lists

variable {es : List Expr} (h : ∀ e ∈ es, Heeds env c H (lowerExpr e) e.script)
include h

theorem heeds_lowerExprs : Heeds env c H (lowerExprs es) (Expr.scripts es) := by
  induction es with
  | nil =>
    rw [lowerExprs, Expr.scripts]
    exact .idle
  | cons e es ih =>
    obtain ⟨_, hes⟩ := List.forall_mem_cons.1 h
    have := ih hes
    rw [lowerExprs, Expr.scripts]
    exact .scripted (by simp)

theorem heeds_lowerSequence (last : Result) :
    Heeds env c H (lowerSequence last es) (Expr.scripts es) := by
  induction es generalizing last with
  | nil =>
    rw [lowerSequence, Expr.scripts]
    exact .idle
  | cons e es ih =>
    obtain ⟨_, hes⟩ := List.forall_mem_cons.1 h
    have := ih hes
    rw [lowerSequence, Expr.scripts]
    exact .scripted rfl

end Lists

/-- Lowering an expression that is in scope finds all names, and all locals as it needs
them if the script of the expression is in order. -/
theorem heeds_lowerExpr (e : Expr) : ∀ {H : Prop} [Granted H env.program.TypesInScope]
    [Granted H (e.InScope env.program)], Heeds env c H (lowerExpr e) e.script := by
  induction e using Expr.parts_induction with
  | step e ih =>
  intro H hp he
  have hpart : ∀ d ∈ e.parts, ∀ (G : Prop) [Granted G H], Heeds env c G (lowerExpr d) d.script :=
    fun d hd G hG => @ih d hd G (hG.trans hp) ⟨fun h => (he.grant (hG.grant h)).part hd⟩
  have hnear (d : Expr) [h : Among d e.parts] := hpart d h.mem
  have hargs (G : Prop) [Granted G H] : Heeds env c G (lowerExprs e.parts) (Expr.scripts e.parts) :=
    heeds_lowerExprs fun d hd => hpart d hd G
  have htype (t : Option Reference) [h : Among t e.types] : Granted H (TypeInScope env.program t) :=
    ⟨fun hH => (he.grant hH).type h.mem⟩
  have hlink : Granted H (e.Links env.program) := ⟨fun hH => (he.grant hH).link⟩
  cases e with simp only [Expr.parts, Expr.types, lowerExpr, Expr.script] at hnear hargs htype ⊢
  | missing =>
    have := (Spares.excluded rfl hlink.grant : Spares env c H
      (violation .unrecognizedExpr : Build Result))
    exact .idle
  | constantI64 | constantBool | constantStr => exact .idle
  | discard | ret | call | newStruct | ite | loop | knownArrayLoad | unknownArrayLoad | arrayLength
  | consumeKnownArray | consumeUnknownArray =>
    exact .scripted (by simp)
  | argument type index =>
    refine .after fun f => ?_
    split
    · exact .idle
    · exact .other
  | stackify source slot =>
    refine .step fun r => .after fun x => .require ?_
    rintro l rfl
    have : Granted H (TypeInScope _ l.type) := htype ((some l).bind (·.type))
    exact .scripted rfl
  | unstackify slot =>
    refine .require ?_
    rintro l rfl
    exact heeds_closing
  | localLoad slot target =>
    refine .require ?_
    rintro l rfl
    have : Granted H (TypeInScope _ l.type) := htype ((some l).bind (·.type))
    exact .scripted rfl
  | localStore slot source =>
    refine .require ?_
    rintro l rfl
    exact .scripted (by simp [Local.event])
  | externCall function args =>
    have : Granted H (∀ t ∈ function.toList.flatMap Callee.types, TypeInScope env.program t) :=
      ⟨fun hH t ht => (he.grant hH).type ht⟩
    exact .scripted (by simp)
  | interfaceCall args receiver interface method signature =>
    refine .require ?_
    rintro n rfl
    have : Granted H (env.program.HasInterface n) := ⟨fun hH => (hlink.grant hH n rfl).1⟩
    have : ∀ i : Nat, Granted (env.program.interfaceId n = i ∧ H)
      (HasMethod env.program i method) := by
      refine fun i => ⟨fun hH d hd => (hlink.grant hH.2 n rfl).2 d ?_⟩
      rw [hH.1]
      simpa [Program.interface?, Program.byId] using hd
    exact .scripted (by simp)
  | block exprs =>
    have : Heeds env c H (lowerSequence none exprs) (Expr.scripts exprs) :=
      heeds_lowerSequence (fun d hd => hpart d hd H) none
    exact .scripted rfl
  | destroy source type slots =>
    have : Granted H (∀ l ∈ slots, TypeInScope env.program (l.bind (·.type))) :=
      ⟨fun hH l hl => (he.grant hH).type (List.mem_cons_of_mem _ (List.mem_map_of_mem hl))⟩
    refine .given fun r => .given fun d => .ite .refused fun hlen => ?_
    have : Fact (slots.length = d.members.length) := ⟨by simpa using hlen⟩
    exact .scripted (by simp)
  | memberLoad source type index | memberStore source type index =>
    refine .require ?_
    rintro r rfl
    have := (htype (some r)).ofSome
    have : Granted H (HasMember env.program r index) := ⟨fun hH => hlink.grant hH r rfl⟩
    exact .scripted (by simp)
  | upcast source type struct interface =>
    have := @shows_viewed
    have : Granted H (∀ s ∈ struct, env.program.HasStruct s) := ⟨fun hH => (hlink.grant hH).1⟩
    have : Granted H (∀ i ∈ interface, env.program.HasInterface i) :=
      ⟨fun hH => (hlink.grant hH).2⟩
    refine .after fun r => .ite (.after fun _ => .after fun _ => .refused) fun _ => ?_
    exact .scripted (by simp)
  | newArray | tabulate =>
    refine .given fun r => ?_
    split
    on_goal 3 => exact .other
    all_goals exact .scripted (by simp)

end Tenure.Lowering

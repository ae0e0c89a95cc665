import Tenure.Lowering.Module
import Tenure.Proofs.Forming

/-!
# Emitting code

A part of lowering writes code from an open block on.  `Emits U x H` says of such
a part `x` that it leaves the function under construction in order, provided the
operands `U` it is handed are defined where it starts: it only makes edits that
are allowed, every definition dominates its uses, and at the end there is one open
block, where the operands `H` that it hands out are defined as well.  Nothing is
said of parts that fail.

The rules follow the shape of lowering: one for every way to put parts together,
one for every primitive.  A part that only looks things up, or that adds to tables
outside the function, is `Quiet`.
-/

namespace Tenure.Lowering

open Ir (Ty Const Operand Op Term Func)

variable {α β : Type} {env : Env} {s s' s'' : State}
variable {a : α} {u : Unit}

/-! ## Parts that succeed -/

variable {b i : Nat} {x : Operand} {k : α → Build β} {op : Op} {e : Fault} {xs : List α}
variable {D : Ir.Func.Dominators} {n : Symbol} {r : Referend} {f1 f2 : Func} {t : Term}
variable {name : String} {ty : Ty}

theorem bind_ok {x : Build α} {b : β} (h : (x >>= k) env s = .ok b s'') :
    ∃ a s', x env s = .ok a s' ∧ k a env s' = .ok b s'' := by
  change EStateM.bind (x env) (fun a => k a env) s = .ok b s'' at h
  unfold EStateM.bind at h
  split at h
  · next a s' hx => exact ⟨a, s', hx, h⟩
  · cases h

theorem bind_of_ok {x : Build α} (h : x env s = .ok a s') : (x >>= k) env s = k a env s' := by
  change EStateM.bind (x env) (fun a => k a env) s = k a env s'
  unfold EStateM.bind
  rw [h]

theorem pure_ok {b : α} (h : (pure a : Build α) env s = .ok b s') : a = b ∧ s = s' := by
  injection h with ha hs
  exact ⟨ha, hs⟩

theorem throw_ne_ok : (throw e : Build α) env s ≠ .ok a s' := by
  change EStateM.Result.error e s ≠ .ok a s'
  simp

theorem require_ok {x : Option α} (h : require x env s = .ok a s') : x = some a ∧ s = s' := by
  cases x with
  | none => exact absurd h throw_ne_ok
  | some b =>
    obtain ⟨rfl, rfl⟩ := pure_ok h
    exact ⟨rfl, rfl⟩

theorem modify_ok {g : State → State}
    (h : (modify g : Build Unit) env s = .ok u s') : s' = g s := by
  change EStateM.Result.ok () (g s) = .ok u s' at h
  injection h with _ hs
  exact hs.symm

theorem get_ok {a : State} (h : (get : Build State) env s = .ok a s') : s = a ∧ s = s' := by
  change EStateM.Result.ok s s = .ok a s' at h
  injection h with ha hs
  exact ⟨ha, hs⟩

theorem read_ok {a : Env} (h : (read : Build Env) env s = .ok a s') : env = a ∧ s = s' := by
  change EStateM.Result.ok env s = .ok a s' at h
  injection h with ha hs
  exact ⟨ha, hs⟩

theorem getProgram_ok {p : Program} (h : getProgram env s = .ok p s') :
    env.program = p ∧ s = s' := by
  obtain ⟨_, _, h1, h⟩ := bind_ok h
  obtain ⟨rfl, rfl⟩ := read_ok h1
  exact pure_ok h

/-! What comes first only looks something up, or refuses. -/

section Then

variable {k : α → Build β} {b : β} {r : EStateM.Result Fault State β}

theorem get_then {k : State → Build β} (h : (get >>= k) env s = r) : k s env s = r := h

theorem read_then {k : Env → Build β} (h : (read >>= k) env s = r) : k env env s = r := h

theorem getProgram_then {k : Program → Build β} (h : (getProgram >>= k) env s = r) :
    k env.program env s = r := h

theorem require_then {x : Option α} (h : (require x >>= k) env s = .ok b s') :
    ∃ a, x = some a ∧ k a env s = .ok b s' := by
  obtain ⟨a, _, h1, h⟩ := bind_ok h
  obtain ⟨hx, rfl⟩ := require_ok h1
  exact ⟨a, hx, h⟩

theorem refused_ne_ok {e : Fault} : ((throw e : Build α) >>= k) env s ≠ .ok b s' := by
  intro h
  obtain ⟨_, _, h, -⟩ := bind_ok h
  exact throw_ne_ok h

end Then

/-! ## Lists that go together -/

theorem forall₂_set {R : α → β → Prop} {ys : List β} {x : α} {y : β} {n : Nat}
    (h : List.Forall₂ R xs ys) (hxy : R x y) : List.Forall₂ R (xs.set n x) (ys.set n y) := by
  induction h generalizing n with
  | nil => exact .nil
  | cons hx hrest ih =>
    cases n with
    | zero => exact .cons hxy hrest
    | succ n => exact .cons hx ih

/-! ## Where lowering stands -/

/-- The function under construction, with a current block in it.  Open locals have
their slots in the entry, and the literals met so far are constants. -/
structure Placed (s : State) (f : Func) : Prop where
  func : s.module.funcs[s.func]? = some f
  lt : s.block < f.blocks.size
  slots : ∀ p ∈ s.slots, f.Known (fun d _ => d = 0) p.2.address
  literals : ∀ p ∈ s.literals, ∃ c, p.2 = .const c

/-- The tables that lowering reads while it fills functions: some are settled, the
others only grow. -/
structure Tables (s s' : State) : Prop where
  types : s'.module.types = s.module.types
  globals : s.module.globals.toList <+: s'.module.globals.toList
  funcs : s'.funcs = s.funcs
  dropFuncs : s'.dropFuncs = s.dropFuncs
  itables : s.itables.toList <+: s'.itables.toList
  layouts : s.arrayLayouts <:+ s'.arrayLayouts
  texts : s.literals <:+ s'.literals

theorem Tables.refl (s : State) : Tables s s :=
  ⟨rfl, List.prefix_rfl, rfl, rfl, List.prefix_rfl, List.suffix_rfl, List.suffix_rfl⟩

theorem Tables.trans (h : Tables s s') (h' : Tables s' s'') : Tables s s'' where
  types := h'.types.trans h.types
  globals := h.globals.trans h'.globals
  funcs := h'.funcs.trans h.funcs
  dropFuncs := h'.dropFuncs.trans h.dropFuncs
  itables := h.itables.trans h'.itables
  layouts := h.layouts.trans h'.layouts
  texts := h.texts.trans h'.texts

/-- What code that is written into one function leaves as it was. -/
structure Framed (s s' : State) : Prop extends Tables s s' where
  edges : s'.itables = s.itables
  func : s'.func = s.func
  count : s'.module.funcs.size = s.module.funcs.size
  others : ∀ i, i ≠ s.func → s'.module.funcs[i]? = s.module.funcs[i]?

/-- Only the tables may have grown. -/
theorem Framed.ofTables (h : Tables s s') (hm : s'.module.funcs = s.module.funcs)
    (hf : s'.func = s.func) (he : s'.itables = s.itables) : Framed s s' :=
  ⟨h, he, hf, by rw [hm], fun _ _ => by rw [hm]⟩

theorem Framed.refl (s : State) : Framed s s := .ofTables (.refl s) rfl rfl rfl

theorem Framed.trans (h : Framed s s') (h' : Framed s' s'') : Framed s s'' where
  toTables := h.toTables.trans h'.toTables
  edges := h'.edges.trans h.edges
  func := h'.func.trans h.func
  count := h'.count.trans h.count
  others i hi := (h'.others i (by rwa [h.func])).trans (h.others i hi)

/-- Operands that are handed in, or that are always there. -/
def Given (U : List Operand) (x : Operand) : Prop := x ∈ U ∨ ∃ c, x = .const c

@[simp] theorem given_const {U : List Operand} {c : Const} : Given U (.const c) := .inr ⟨c, rfl⟩
@[simp] theorem given_cons {U : List Operand} {y : Operand} :
    Given (y :: U) x ↔ x = y ∨ Given U x := by
  simp [Given, or_assoc]

theorem Given.append {U V : List Operand} (h : Given U x) : Given (V ++ U) x :=
  h.imp_left (List.mem_append_right V)

theorem given_of_mem {U : List Operand} (h : x ∈ U) : Given U x := .inl h

/-- An operand is defined where a block ends. -/
def Available (f : Func) (D : Ir.Func.Dominators) (b : Nat) (x : Operand) : Prop :=
  f.Known (fun d _ => D b d) x

theorem Available.of_given {f : Func} {U : List Operand} (h : Given U x)
    (hU : ∀ u ∈ U, Available f D b u) : Available f D b x := by
  obtain h | ⟨c, rfl⟩ := h
  · exact hU x h
  · trivial

/-- What is known stays so as the function is built further. -/
theorem known_of_keeps {f f' : Func} {P : Nat → Nat → Prop} (hf : f.Keeps f') (h : f.Known P x) :
    f'.Known P x := by
  refine Ir.Func.Known.grow h (Nat.le_of_eq (by rw [hf.params])) fun d j i hi => ?_
  obtain ⟨i', hi', hb⟩ := hf.has d j i hi
  exact ⟨i', hi', hb.id_eq⟩

/-- What is available stays so as the function is built further, in every block
that is dominated by the same blocks. -/
theorem Available.grow {f f' : Func} {D' : Ir.Func.Dominators} {b' : Nat} (h : Available f D b x)
    (hf : f.Keeps f') (hD : ∀ d, D b d → D' b' d) : Available f' D' b' x :=
  (known_of_keeps hf h).imp fun d _ _ => hD d

/-- Code has been written: from a state to a later one, and in the function
under construction.  The operands of the first list are those it needs, the
operands of the second those it provides. -/
structure Grown (U V : List Operand) (s : State) (f : Func) (s' : State) (f' : Func) : Prop where
  placed : Placed s' f'
  framed : Framed s s'
  block : s'.block = s.block ∨ f.blocks.size ≤ s'.block
  evolves : f.Evolves s.block f' (fun c => c = s'.block ∧ f'.term? c = none)
  carries : ∀ D, f.Formed D → (∀ u ∈ U, Available f D s.block u) →
    ∃ D', f'.Formed D' ∧ (∀ b < f.blocks.size, ∀ d, D' b d ↔ D b d) ∧
      (∀ d, D s.block d → D' s'.block d) ∧ ∀ v ∈ V, Available f' D' s'.block v

variable {U V W : List Operand} {f f' f'' : Func}

theorem Grown.keeps (h : Grown U V s f s' f') : f.Keeps f' := h.evolves.built.keeps

theorem Grown.evolvesOpen (h : Grown U V s f s' f') (hopen : f'.term? s'.block = none) :
    f.Evolves s.block f' (· = s'.block) :=
  h.evolves.congr fun _ => ⟨fun hc => ⟨hc, hc ▸ hopen⟩, fun hc => hc.1⟩

theorem Grown.mono (h : Grown U V s f s' f') (hU : ∀ u ∈ U, u ∈ W) : Grown W V s f s' f' :=
  { h with carries := fun D hD hW => h.carries D hD fun u hu => hW u (hU u hu) }

theorem Grown.trans (h : Grown U V s f s' f') (hopen : f'.term? s'.block = none)
    (h' : Grown (V ++ U) W s' f' s'' f'') : Grown U W s f s'' f'' where
  placed := h'.placed
  framed := h.framed.trans h'.framed
  block := by
    have := h.block
    have := h'.block
    have := h.evolves.size
    omega
  evolves := (h.evolvesOpen hopen).trans h'.evolves
  carries D hD hU := by
    obtain ⟨D', hD', hagree, hmono, hV⟩ := h.carries D hD hU
    have hboth : ∀ u ∈ V ++ U, Available f' D' s'.block u := by
      intro u hu
      rcases List.mem_append.mp hu with hu | hu
      · exact hV u hu
      · exact (hU u hu).grow h.keeps hmono
    obtain ⟨D'', hD'', hagree', hmono', hW⟩ := h'.carries D' hD' hboth
    refine ⟨D'', hD'', fun b hb d => ?_, fun d hd => hmono' d (hmono d hd), hW⟩
    exact (hagree' b (Nat.lt_of_lt_of_le hb h.evolves.size) d).trans (hagree b hb d)

/-- What was there at the start is still available at the end. -/
theorem Grown.keep (h : Grown U V s f s' f') (hW : ∀ v ∈ W, v ∈ V ∨ v ∈ U) : Grown U W s f s' f' :=
  { h with
    carries := fun D hD hU => by
      obtain ⟨D', hD', hagree, hmono, hV⟩ := h.carries D hD hU
      refine ⟨D', hD', hagree, hmono, fun v hv => ?_⟩
      rcases hW v hv with hv | hv
      · exact hV v hv
      · exact (hU v hv).grow h.keeps hmono }

/-- Code has been written and there is one open block, the current one. -/
theorem Grown.ofOpen (hp : Placed s' f') (hs : Framed s s')
    (hev : f.Evolves s.block f' (· = s'.block))
    (hcarries : ∀ D, f.Formed D → (∀ u ∈ U, Available f D s.block u) →
      ∃ D', f'.Formed D' ∧ (∀ b < f.blocks.size, ∀ d, D' b d ↔ D b d) ∧
        (∀ d, D s.block d → D' s'.block d) ∧ ∀ v ∈ V, Available f' D' s'.block v) :
    Grown U V s f s' f' ∧ f'.term? s'.block = none := by
  obtain ⟨hblock, -, hopen⟩ := hev.opened s'.block rfl
  refine ⟨⟨hp, hs, hblock, hev.congr fun c => ?_, hcarries⟩, hopen⟩
  exact ⟨fun hc => hc.1, fun hc => ⟨hc, hc ▸ hopen⟩⟩

/-- A part of lowering writes code that is in order. -/
def Emits (U : List Operand) (x : Build α) (H : α → List Operand) : Prop :=
  ∀ ⦃env : Env⦄ ⦃s : State⦄ ⦃a : α⦄ ⦃s' : State⦄ ⦃f : Func⦄, Placed s f →
    f.term? s.block = none → x env s = .ok a s' →
    ∃ f', Grown U (H a) s f s' f' ∧ f'.term? s'.block = none

/-! ## Putting parts together -/

section Rules

variable {x : Build α} {k : α → Build β} {H : α → List Operand} {K : β → List Operand}

theorem Emits.bind (hx : Emits U x H) (hk : ∀ a, Emits (H a ++ U) (k a) K) :
    Emits U (x >>= k) K := by
  intro env s b s'' f hp hopen hrun
  obtain ⟨a, s', hrun1, hrun2⟩ := bind_ok hrun
  obtain ⟨f', hg, hopen'⟩ := hx hp hopen hrun1
  obtain ⟨f'', hg', hopen''⟩ := hk a hg.placed hopen' hrun2
  exact ⟨f'', hg.trans hopen' hg', hopen''⟩

theorem Emits.throw {e : Fault} : Emits U (throw e) H :=
  fun _ _ _ _ _ _ _ hrun => absurd hrun throw_ne_ok

theorem Emits.violation {v : Violation} : Emits U (violation v) H := .throw

theorem Emits.crash : Emits U crash H := .throw

/-- Nothing is written, and what is provided was there. -/
theorem Grown.same (hp : Placed s' f) (hs : Framed s s') (hb : s'.block = s.block)
    (hopen : f.term? s.block = none) (hV : ∀ v ∈ V, Given U v) :
    Grown U V s f s' f ∧ f.term? s'.block = none := by
  have hlt := hp.lt
  rw [hb] at hlt
  refine Grown.ofOpen hp hs ?_ fun D hD hU => ?_
  · rw [hb]
    exact Ir.Func.Evolves.refl hlt hopen
  · rw [hb]
    exact ⟨D, hD, fun _ _ _ => Iff.rfl, fun _ hd => hd, fun v hv => .of_given (hV v hv) hU⟩

theorem Emits.pure (h : ∀ v ∈ H a, Given U v) : Emits U (pure a) H := by
  intro env s b s' f hp hopen hrun
  obtain ⟨rfl, rfl⟩ := pure_ok hrun
  exact ⟨f, Grown.same hp (.refl _) rfl hopen h⟩

theorem Emits.ite {c : Prop} [Decidable c] {y : Build α} (hx : c → Emits U x H)
    (hy : ¬ c → Emits U y H) : Emits U (if c then x else y) H := by
  split
  · next hc => exact hx hc
  · next hc => exact hy hc

end Rules

/-! ## Looking things up -/

/-- The function under construction is left alone, and so is the place in it. -/
structure Still (s s' : State) : Prop where
  framed : Framed s s'
  module : s'.module.funcs = s.module.funcs
  block : s'.block = s.block
  slots : s'.slots = s.slots
  literals : s'.literals = s.literals

theorem Still.refl (s : State) : Still s s := ⟨.refl s, rfl, rfl, rfl, rfl⟩

theorem Still.trans (h : Still s s') (h' : Still s' s'') : Still s s'' :=
  ⟨h.framed.trans h'.framed, h'.module.trans h.module, h'.block.trans h.block,
    h'.slots.trans h.slots, h'.literals.trans h.literals⟩

theorem Still.placed (h : Still s s') (hp : Placed s f) : Placed s' f where
  func := by rw [h.module, h.framed.func, hp.func]
  lt := by rw [h.block]; exact hp.lt
  slots := by rw [h.slots]; exact hp.slots
  literals := by rw [h.literals]; exact hp.literals

/-- A part of lowering that writes no code. -/
def Quiet (x : Build α) : Prop :=
  ∀ ⦃env : Env⦄ ⦃s : State⦄ ⦃a : α⦄ ⦃s' : State⦄, x env s = .ok a s' → Still s s'

theorem Quiet.emits {x : Build α} (hx : Quiet x) : Emits U x (fun _ => []) := by
  intro env s a s' f hp hopen hrun
  have hs := hx hrun
  exact ⟨f, Grown.same (hs.placed hp) hs.framed hs.block hopen (by simp)⟩

/-- A part that writes no code comes first. -/
theorem Emits.after {x : Build α} {K : β → List Operand} (hx : Quiet x)
    (hk : ∀ a, Emits U (k a) K) : Emits U (x >>= k) K :=
  hx.emits.bind hk

theorem Quiet.bind {x : Build α} (hx : Quiet x) (hk : ∀ a, Quiet (k a)) : Quiet (x >>= k) := by
  intro env s b s'' hrun
  obtain ⟨a, s', hrun1, hrun2⟩ := bind_ok hrun
  exact (hx hrun1).trans (hk a hrun2)

theorem Quiet.pure : Quiet (pure a) := by
  intro env s b s' hrun
  obtain ⟨rfl, rfl⟩ := pure_ok hrun
  exact .refl _

theorem Quiet.throw : Quiet (throw e : Build α) :=
  fun _ _ _ _ hrun => absurd hrun throw_ne_ok

theorem Quiet.violation {v : Violation} : Quiet (violation v : Build α) := .throw

theorem Quiet.crash : Quiet (crash : Build α) := .throw

theorem Quiet.require {x : Option α} : Quiet (require x) := by
  intro env s a s' hrun
  obtain ⟨-, rfl⟩ := require_ok hrun
  exact .refl _

theorem Quiet.get : Quiet get := by
  intro env s a s' hrun
  obtain ⟨-, rfl⟩ := get_ok hrun
  exact .refl _

theorem Quiet.read : Quiet read := by
  intro env s a s' hrun
  obtain ⟨-, rfl⟩ := read_ok hrun
  exact .refl _

theorem Quiet.ite {c : Prop} [Decidable c] {x y : Build α} (hx : Quiet x) (hy : Quiet y) :
    Quiet (if c then x else y) := by
  split
  · exact hx
  · exact hy

theorem Quiet.mapM (hk : ∀ a, Quiet (k a)) : Quiet (xs.mapM k) := by
  induction xs with
  | nil => exact .pure
  | cons x xs ih =>
    rw [List.mapM_cons]
    exact (hk x).bind fun _ => ih.bind fun _ => .pure

theorem quiet_getProgram : Quiet getProgram := Quiet.read.bind fun _ => .pure

theorem quiet_currentBlock : Quiet currentBlock := Quiet.get.bind fun _ => .pure

theorem quiet_typeDefs : Quiet typeDefs := Quiet.get.bind fun _ => .pure

theorem quiet_structIndex : Quiet (structIndex n) :=
  quiet_getProgram.bind fun _ => Quiet.ite .pure .violation

theorem quiet_interfaceIndex : Quiet (interfaceIndex n) :=
  quiet_getProgram.bind fun _ => Quiet.ite .pure .violation

theorem quiet_structAt : Quiet (structAt i) := quiet_getProgram.bind fun _ => .require

theorem quiet_interfaceAt : Quiet (interfaceAt i) :=
  quiet_getProgram.bind fun _ => .require

theorem quiet_ownIndex {id : Int} {count : Nat} : Quiet (ownIndex id count) :=
  Quiet.ite .pure .crash

theorem quiet_keptLayout {key : String} {compute : Build Ty} (h : Quiet compute) :
    Quiet (keptLayout key compute) := by
  refine Quiet.get.bind fun s => ?_
  split
  · exact .pure
  · refine h.bind fun t => Quiet.bind (fun env s a s' hrun => ?_) fun _ => .pure
    rw [modify_ok hrun]
    refine ⟨.ofTables ?_ rfl rfl rfl, rfl, rfl, rfl, rfl⟩
    exact { Tables.refl s with layouts := List.suffix_cons .. }

theorem quiet_lowerReferend {o : Ownership} {l : Location} : Quiet (lowerReferend o l r) := by
  induction r generalizing o l with
  | int | bool | void | str => exact .pure
  | struct n =>
    refine quiet_structIndex.bind fun _ => Quiet.ite ?_ ?_
    · exact quiet_getProgram.bind fun _ => .pure
    · exact quiet_getProgram.bind fun _ => .pure
  | interface n =>
    exact quiet_getProgram.bind fun _ => quiet_interfaceIndex.bind fun _ => .pure
  | array size o' l' elem ih =>
    refine Quiet.ite .violation ?_
    exact (quiet_keptLayout (ih.bind fun _ => .pure)).bind fun _ => .pure
  | hollowArray size => exact Quiet.ite .violation .crash
  | missing => exact .violation

theorem quiet_lowerReference {r : Reference} : Quiet (lowerReference r) := quiet_lowerReferend

theorem quiet_lowerType {r : Option Reference} : Quiet (lowerType r) :=
  Quiet.require.bind fun _ => quiet_lowerReference

theorem quiet_arrayLayout : Quiet (arrayLayout r) := by
  unfold arrayLayout
  split
  · exact .crash
  · refine quiet_keptLayout ?_
    split
    · exact quiet_lowerReferend.bind fun _ => .pure
    · exact .crash
    · exact .violation

/-! ## Edits of the function under construction -/

/-- The function under construction has become another; all else is as it was,
but for the place in the function. -/
structure Moved (s s' : State) (f' : Func) : Prop where
  framed : Framed s s'
  func : s'.module.funcs[s'.func]? = some f'
  slots : s'.slots = s.slots
  literals : s'.literals = s.literals

/-- The function under construction has become another, and the place in it is the
same. -/
structure Edited (s s' : State) (f' : Func) : Prop extends Moved s s' f' where
  block : s'.block = s.block

theorem Still.edited (h : Still s s') (hf : s.module.funcs[s.func]? = some f) : Edited s s' f :=
  ⟨⟨h.framed, by rw [h.module, h.framed.func, hf], h.slots, h.literals⟩, h.block⟩

theorem Moved.trans (h : Moved s s' f1) (h' : Moved s' s'' f2) : Moved s s'' f2 :=
  ⟨h.framed.trans h'.framed, h'.func, h'.slots.trans h.slots, h'.literals.trans h.literals⟩

theorem Edited.trans (h : Edited s s' f1) (h' : Edited s' s'' f2) : Edited s s'' f2 :=
  ⟨h.toMoved.trans h'.toMoved, h'.block.trans h.block⟩

/-- Slots and literals stay good while the function is built further. -/
theorem Moved.placed (h : Moved s s' f') (hp : Placed s f) (hk : f.Keeps f')
    (hlt : s'.block < f'.blocks.size) : Placed s' f' where
  func := h.func
  lt := hlt
  slots p hmem := by
    rw [h.slots] at hmem
    exact known_of_keeps hk (hp.slots p hmem)
  literals := by rw [h.literals]; exact hp.literals

/-- Lowering goes on in a block that is left open. -/
theorem Moved.entered {O : Nat → Prop} (h : Moved s s' f') (hev : f.Evolves s.block f' O)
    (hp : Placed s f) (hb : s'.block = b) (ho : O b) : Placed s' f' ∧ f'.term? s'.block = none := by
  subst hb
  obtain ⟨-, hlt, hopen⟩ := hev.opened _ ho
  exact ⟨h.placed hp hev.built.keeps hlt, hopen⟩

theorem Edited.placed (h : Edited s s' f') (hp : Placed s f) (hk : f.Keeps f') : Placed s' f' :=
  h.toMoved.placed hp hk (by rw [h.block]; exact Nat.lt_of_lt_of_le hp.lt hk.size)

theorem modifyFunc_ok {g : Func → Func} (h : modifyFunc g env s = .ok u s')
    (hf : s.module.funcs[s.func]? = some f) : Edited s s' (g f) := by
  rw [modify_ok h]
  refine ⟨⟨⟨{ Tables.refl s with }, rfl, rfl, by simp, fun i hi => ?_⟩, ?_, rfl, rfl⟩, rfl⟩
  · simp only [Array.getElem?_modify]
    rw [if_neg (fun h => hi h.symm)]
  · simp only [Array.getElem?_modify, if_pos, hf, Option.map_some]

theorem currentFunc_ok {g : Func} (h : currentFunc env s = .ok g s')
    (hf : s.module.funcs[s.func]? = some f) : f = g ∧ s = s' := by
  have h2 := get_then h
  obtain ⟨hg, rfl⟩ := require_ok h2
  rw [hf] at hg
  exact ⟨Option.some.inj hg, rfl⟩

theorem currentBlock_ok (h : currentBlock env s = .ok b s') : s.block = b ∧ s = s' := by
  have h2 := get_then h
  obtain ⟨rfl, rfl⟩ := pure_ok h2
  exact ⟨rfl, rfl⟩

theorem addBlock_ok {label : String} (h : addBlock label env s = .ok b s')
    (hf : s.module.funcs[s.func]? = some f) :
    f.blocks.size = b ∧ ∃ name, Edited s s' (f.addBlock name) := by
  replace h := get_then h
  obtain ⟨_, s1, h1, h⟩ := bind_ok h
  have hs1 := modify_ok h1
  have hf1 : s1.module.funcs[s1.func]? = some f := by rw [hs1]; exact hf
  obtain ⟨g, _, h2, h⟩ := bind_ok h
  obtain ⟨rfl, rfl⟩ := currentFunc_ok h2 hf1
  obtain ⟨_, s2, h3, h⟩ := bind_ok h
  have he := modifyFunc_ok h3 hf1
  obtain ⟨rfl, rfl⟩ := pure_ok h
  refine ⟨rfl, _, ⟨⟨?_, he.func, ?_, ?_⟩, ?_⟩⟩
  · rw [hs1] at he
    exact ⟨{ he.framed.toTables with }, he.framed.edges, he.framed.func, he.framed.count,
      he.framed.others⟩
  · rw [he.slots, hs1]
  · rw [he.literals, hs1]
  · rw [he.block, hs1]

theorem terminateBlock_ok (h : terminateBlock b t env s = .ok u s')
    (hf : s.module.funcs[s.func]? = some f) : Edited s s' (f.terminate b t) :=
  modifyFunc_ok h hf

theorem terminate_ok (h : terminate t env s = .ok u s') (hf : s.module.funcs[s.func]? = some f) :
    Edited s s' (f.terminate s.block t) := by
  obtain ⟨b, _, h1, h⟩ := bind_ok h
  obtain ⟨rfl, rfl⟩ := currentBlock_ok h1
  exact terminateBlock_ok h hf

theorem emitTo_ok (h : emitTo b name ty op env s = .ok x s')
    (hf : s.module.funcs[s.func]? = some f) :
    x = .reg f.nextReg ty ∧ Edited s s' (f.push b name ty op) := by
  obtain ⟨g, _, h1, h⟩ := bind_ok h
  obtain ⟨rfl, rfl⟩ := currentFunc_ok h1 hf
  obtain ⟨_, s1, h2, h⟩ := bind_ok h
  obtain ⟨rfl, rfl⟩ := pure_ok h
  exact ⟨rfl, modifyFunc_ok h2 hf⟩

theorem emit_ok (h : emit ty op env s = .ok x s') (hf : s.module.funcs[s.func]? = some f) :
    x = .reg f.nextReg ty ∧ Edited s s' (f.push s.block "" ty op) := by
  obtain ⟨b, _, h1, h⟩ := bind_ok h
  obtain ⟨rfl, rfl⟩ := currentBlock_ok h1
  exact emitTo_ok h hf

theorem setBlock_ok (h : setBlock b env s = .ok u s') (hf : s.module.funcs[s.func]? = some f) :
    Moved s s' f ∧ s'.block = b := by
  rw [modify_ok h]
  exact ⟨⟨.ofTables { Tables.refl s with } rfl rfl rfl, hf, rfl, rfl⟩, rfl⟩

theorem isTerminated_eq : f.isTerminated b = (f.term? b).isSome := by
  unfold Ir.Func.isTerminated Ir.Func.term?
  cases f.blocks[b]? <;> rfl

theorem terminated_then {k : Bool → Build α} (h : (terminated >>= k) env s = .ok a s')
    (hf : s.module.funcs[s.func]? = some f) : k (f.term? s.block).isSome env s = .ok a s' := by
  obtain ⟨_, _, h1, h⟩ := bind_ok h
  replace h1 := get_then h1
  obtain ⟨rfl, rfl⟩ := pure_ok h1
  rwa [hf, Option.map_some, Option.getD_some, isTerminated_eq] at h

theorem open_then {k : Bool → Build α} (h : (terminated >>= k) env s = .ok a s') (hp : Placed s f)
    (hopen : f.term? s.block = none) : k false env s = .ok a s' := by
  replace h := terminated_then h hp.func
  rwa [hopen] at h

/-- Where code is being written, control has not ended. -/
theorem Emits.terminated {k : Bool → Build α} {H : α → List Operand} (hk : Emits U (k false) H) :
    Emits U (terminated >>= k) H := by
  intro env s a s' f hp hopen hrun
  exact hk hp hopen (open_then hrun hp hopen)

/-! ## Instructions -/

theorem emit_emits {t : Ty} (hphi : op.incoming? = none) (hops : ∀ x ∈ op.operands, Given U x) :
    Emits U (emit t op) (fun r => [r]) := by
  intro env s r s' f hp hopen hrun
  obtain ⟨rfl, he⟩ := emit_ok hrun hp.func
  have hev : f.Evolves s.block (f.push s.block "" t op) (· = s'.block) := by
    rw [he.block]
    exact (Ir.Func.Evolves.refl hp.lt hopen).push rfl fun _ => hphi
  refine ⟨_, Grown.ofOpen (he.placed hp hev.built.keeps) he.framed hev fun D hD hU => ?_⟩
  rw [he.block]
  refine ⟨D, hD.push hp.lt hphi fun x hx => Available.of_given (hops x hx) hU,
    fun _ _ _ => Iff.rfl, fun _ hd => hd, fun v hv => ?_⟩
  obtain rfl := List.mem_singleton.mp hv
  exact ⟨s.block, _, _, (Ir.Func.has_push hp.lt).mpr (.inr ⟨rfl, rfl, rfl⟩), rfl,
    hD.self _ hp.lt⟩

theorem entryAlloca_emits {t : Ty} : Emits U (entryAlloca t name) (fun r => [r]) := by
  intro env s r s' f hp hopen hrun
  obtain ⟨rfl, he⟩ := emitTo_ok hrun hp.func
  have h0 : 0 < f.blocks.size := Nat.zero_lt_of_lt hp.lt
  have hev : f.Evolves s.block (f.push 0 name (.ptr t) (.alloca t)) (· = s'.block) := by
    rw [he.block]
    exact (Ir.Func.Evolves.refl hp.lt hopen).slot
  refine ⟨_, Grown.ofOpen (he.placed hp hev.built.keeps) he.framed hev fun D hD hU => ?_⟩
  rw [he.block]
  refine ⟨D, hD.push h0 rfl (by simp [Op.operands]), fun _ _ _ => Iff.rfl, fun _ hd => hd,
    fun v hv => ?_⟩
  obtain rfl := List.mem_singleton.mp hv
  exact ⟨0, _, _, (Ir.Func.has_push h0).mpr (.inr ⟨rfl, rfl, rfl⟩), rfl, hD.entry _ hp.lt⟩

end Tenure.Lowering

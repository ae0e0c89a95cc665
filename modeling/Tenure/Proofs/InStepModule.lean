import Tenure.Proofs.Assembled
import Tenure.Proofs.InStepDecls

/-!
# Modules in step

After the declarations both runs fill the drop functions and add the method tables,
in one order.  The drop functions come out the same, as they mention nothing that has
moved.  The method tables mention functions at their new places.

* `Unmoved`: code that mentions nothing that has moved.
* `Consults`: parts that only look things up.
* `TablesAlike`: the method tables of two runs.
-/

namespace Tenure.Lowering

open Ir (Ty Const Func Relocation)

variable {P : ProgramPair} {C : Course} {s s' t : State} {u : Unit}

/-! ## Drop functions -/

/-- Nothing that code may mention has moved, and no literals have been met: so nothing moves. -/
theorem suits_same (hfix : ∀ i, C.known i → C.place i = i) : Suits C ⟨[], []⟩ .same :=
  ⟨fun i hi => (hfix i hi).symm, fun _ _ => rfl, fun _ _ _ hx => absurd hx List.not_mem_nil⟩

variable {pos i : Nat} {t' : State}

/-- A function that stays has been filled alike, and all others are as they were. -/
theorem Filled.carries (h : Filled C ⟨[], []⟩ pos pos s s' t t')
    (hfix : ∀ i, C.known i → C.place i = i) (hpos : C.place pos = pos)
    (hfuncs : Carries C.place s.module.funcs.toList s'.module.funcs.toList) :
    Carries C.place t.module.funcs.toList t'.module.funcs.toList := by
  intro j
  rw [Array.getElem?_toList, Array.getElem?_toList]
  by_cases hj : j = pos
  · obtain ⟨f, f', hf, hf', halike⟩ := h.func
    rw [hj, hpos, hf, hf', halike _ (suits_same hfix), Ir.Func.relocate_same]
  · have hj' : C.place j ≠ pos := fun heq => hj (C.place.injective (heq.trans hpos.symm))
    rw [h.later.kept j hj, h.later'.kept _ hj']
    simpa using hfuncs j

/-- The code that has been written mentions nothing that moves. -/
def Unmoved (r : Relocation) (s : State) : Prop :=
  ∀ (i : Nat) (f : Func), s.module.funcs[i]? = some f → f.relocate r = f

/-- A function that is the same in both runs mentions nothing that moves. -/
theorem Filled.unmoved {r : Relocation} (h : Filled C ⟨[], []⟩ pos pos s s' t t')
    (hfix : ∀ i, C.known i → C.place i = i) (hr : Suits C ⟨[], []⟩ r) (hs : Unmoved r s) :
    Unmoved r t := by
  intro i f hf
  by_cases hi : i = pos
  · obtain ⟨g, g', hg, hg', halike⟩ := h.func
    rw [hi, hg] at hf
    cases hf
    calc f.relocate r = g' := (halike r hr).symm
      _ = f.relocate .same := halike _ (suits_same hfix)
      _ = f := f.relocate_same
  · exact hs i f (by rw [← h.later.kept i hi, hf])

/-- Both runs fill the drop functions from a number on. -/
theorem Level.fillDrops {base count : Nat} {ds : List StructDef} (h : Level C ⟨[], []⟩ s s')
    (hfix : ∀ i, C.known i → C.place i = i)
    (hfuncs : Carries C.place s.module.funcs.toList s'.module.funcs.toList)
    (hcode : ∀ r, Suits C ⟨[], []⟩ r → Unmoved r s)
    (hds : ∀ d ∈ ds, ∀ m ∈ d.members, Written C.names m.type) (hi : i + ds.length = count)
    (hdrops : C.plan.drops.toList = (List.range count).map (base + ·))
    (hnew : Awaiting base i count s) (hrun : buildDropFuncs.fill i ds C.env s = .ok u t) :
    ∃ t', buildDropFuncs.fill i ds C.env' s' = .ok () t' ∧ Level C ⟨[], []⟩ t t' ∧
      Carries C.place t.module.funcs.toList t'.module.funcs.toList ∧
      ∀ r, Suits C ⟨[], []⟩ r → Unmoved r t := by
  induction ds generalizing i s s' with
  | nil =>
    obtain ⟨-, rfl⟩ := pure_ok hrun
    exact ⟨s', rfl, h, hfuncs, hcode⟩
  | cons d ds ih =>
    rw [List.length_cons] at hi
    obtain ⟨hd, hds⟩ := List.forall_mem_cons.mp hds
    have hplace : C.plan.drops[i]? = some (base + i) := by
      rw [← Array.getElem?_toList, hdrops, List.getElem?_map, List.getElem?_range (by omega)]
      rfl
    obtain ⟨-, hpos⟩ := C.drops _ (Array.mem_of_getElem? hplace)
    have hrequire : ∀ {env : Env} {s : State}, s.dropFuncs = C.plan.drops →
        require s.dropFuncs[i]? env s = .ok (base + i) s := fun hs => by
      rw [hs, hplace]
      rfl
    -- the one that is to be filled is the same in both runs
    obtain ⟨g, hg, hblank, hparams⟩ := hnew i (Nat.le_refl i) (by omega)
    have hg' : s'.module.funcs[base + i]? = some g := by
      have hsame := hfuncs (base + i)
      rwa [hpos, Array.getElem?_toList, Array.getElem?_toList, hg] at hsame
    replace hrun := get_then hrun
    obtain ⟨_, _, hrun0, hrun⟩ := bind_ok hrun
    rw [hrequire h.left.drops] at hrun0
    cases hrun0
    obtain ⟨_, s1, hrun1, hrun⟩ := bind_ok hrun
    obtain ⟨s1', hrun1', hfilled⟩ := h.buildDropFunc hd hg hg' hblank (by omega) hrun1
    obtain ⟨t', hrun', ht⟩ := ih hfilled.toLevel (hfilled.carries hfix hpos hfuncs)
      (fun r hr => hfilled.unmoved hfix hr (hcode r hr)) hds (by omega) (fun j hj hjc => by
        rw [hfilled.later.kept (base + j) (by omega)]
        exact hnew j (by omega) hjc) hrun
    refine ⟨t', ?_, ht⟩
    exact (bind_of_ok (a := s') rfl).trans ((bind_of_ok (hrequire h.right.drops)).trans
      ((bind_of_ok hrun1').trans hrun'))

/-- A run without literals goes by what is settled about its tables. -/
theorem settled_of_noLiterals {names : Tenure.Declared} {p : Program} {plan : Plan} {L : Places}
    (htypes : s.module.types = plan.types)
    (hheads : ∀ i, s.module.funcs[i]?.map headOf = L.head i)
    (hfuncs : s.funcs = L.funcs) (hdrops : s.dropFuncs = plan.drops)
    (hitables : s.itables = plan.itables)
    (hsize : s.module.globals.size = plan.tables)
    (hcontents : ∀ i < plan.tables, s.module.globals[i]?.map (·.content) = plan.content i)
    (hliterals : s.literals = []) (hlayouts : Faithful names p s.arrayLayouts) :
    Settled names p plan L s :=
  ⟨htypes, hheads, hfuncs, hdrops, hitables, hcontents,
    ⟨by rw [hsize, hliterals]; rfl, by simp [hliterals], by simp [hliterals]⟩, hlayouts⟩

section DropCourse

variable {t' : State}

/-- The code of drop functions mentions no functions of the program and no globals. -/
def Aligned.dropCourse (h : Aligned P s s')
    (hdrops : ∀ d ∈ s.dropFuncs, runtimeCount + P.env.program.functions.size ≤ d) : Course :=
  h.course ⟨s.module.types, s.dropFuncs, #[], 0, fun _ => none⟩
    (fun i => i < runtimeCount ∨ runtimeCount + P.env.program.functions.size ≤ i)
    (fun d hd => ⟨.inr (hdrops d hd), P.place_of_le (hdrops d hd)⟩) (fun _ hi => .inl hi) (by simp)

variable (h : Aligned P s s')
  (hdrops : ∀ d ∈ s.dropFuncs, runtimeCount + P.env.program.functions.size ≤ d)

theorem Aligned.place_of_known {i : Nat} (hi : (h.dropCourse hdrops).known i) : P.place i = i :=
  hi.elim (behind_of_lt _) P.place_of_le

theorem Aligned.suits {r : Relocation} (hr : r.func = P.place) :
    Suits (h.dropCourse hdrops) ⟨[], []⟩ r :=
  ⟨fun i _ => congrFun hr i, fun i hi => absurd hi (Nat.not_lt_zero i),
    fun _ _ _ hx => absurd hx List.not_mem_nil⟩

theorem Aligned.level : Level (h.dropCourse hdrops) ⟨[], []⟩ s s' where
  left := settled_of_noLiterals rfl (fun _ => rfl) rfl rfl h.itables.1 (by rw [h.globals.1]; rfl)
    (fun i hi => absurd hi (Nat.not_lt_zero i)) h.literals.1 h.left
  right := settled_of_noLiterals h.types (fun _ => rfl) rfl h.dropFuncs h.itables.2
    (by rw [h.globals.2]; rfl) (fun i hi => absurd hi (Nat.not_lt_zero i)) h.literals.2 h.right
  met := h.literals.1
  met' := h.literals.2

/-- Without literals there are no globals yet. -/
theorem Pooled.globals_eq_empty (h : Pooled 0 s) (hnone : s.literals = []) :
    s.module.globals = #[] :=
  Array.eq_empty_of_size_eq_zero (by rw [h.size, hnone]; rfl)

theorem Aligned.of_level (ht : Level (h.dropCourse hdrops) ⟨[], []⟩ t t')
    (hfuncs : Carries P.place t.module.funcs.toList t'.module.funcs.toList) : Aligned P t t' where
  left := ht.left.layouts
  right := ht.right.layouts
  types := ht.right.types.trans ht.left.types.symm
  lookup := ht.right.funcs.trans (h.lookup.trans ht.left.funcs.symm)
  dropFuncs := ht.right.drops.trans ht.left.drops.symm
  funcs := hfuncs
  places := by
    rw [ht.left.funcs]
    exact h.places
  globals := ⟨ht.left.pooled.globals_eq_empty ht.met, ht.right.pooled.globals_eq_empty ht.met'⟩
  itables := ⟨ht.left.itables, ht.right.itables⟩
  literals := ⟨ht.met, ht.met'⟩

end DropCourse

/-- Both runs add the same drop functions and fill them alike. -/
theorem Aligned.buildDropFuncs (h : Aligned P s s')
    (hdeclared : Declared runtimeCount P.env.program.functions.size s)
    (hrun : buildDropFuncs P.env s = .ok u t) :
    ∃ t', Lowering.buildDropFuncs P.env' s' = .ok () t' ∧ Aligned P t t' ∧
      (∀ d ∈ t.dropFuncs, P.place d = d) ∧
      ∀ r : Relocation, r.func = P.place → Unmoved r t := by
  have hadded := dropsAdded hdeclared.dropFuncs P.env.program.structs.toList
  have hblank := hdeclared.blank.withDrops P.env.program.structs.toList
  have haligned := h.addDrops hdeclared.size P.env.program.structs.toList
  rw [buildDropFuncs_eq] at hrun
  rw [buildDropFuncs_eq]
  generalize withDrops P.env.program.structs.toList s = s1 at hadded hblank haligned hrun
  have hdrops : ∀ d ∈ s1.dropFuncs, runtimeCount + P.env.program.functions.size ≤ d := by
    intro d hd
    rw [← Array.mem_toList_iff, hadded.dropFuncs] at hd
    obtain ⟨k, -, rfl⟩ := List.mem_map.mp hd
    exact Nat.le_trans hdeclared.size (Nat.le_add_right _ _)
  obtain ⟨t', hrun', ht, hcarries, hcode⟩ := (haligned.level hdrops).fillDrops
    (fun _ hi => haligned.place_of_known hdrops hi) haligned.funcs
    (fun r _ i f hf => Ir.Func.relocate_of_blank (hblank i f hf))
    (fun d hd => P.written.members d (Array.mem_toList_iff.mp hd)) (Nat.zero_add _) hadded.dropFuncs
    hadded.new hrun
  refine ⟨t', hrun', haligned.of_level hdrops ht hcarries, fun d hd => ?_,
    fun r hr => hcode r (haligned.suits hdrops hr)⟩
  rw [ht.left.drops] at hd
  exact P.place_of_le (hdrops d hd)

/-! ## Method tables -/

/-- Two parts that only look things up, for two states: what the first finds, the second finds
as well. -/
def Consults {α β : Type} (P : ProgramPair) (s s' : State) (x : Build α) (y : Build β)
    (V : α → β → Prop) : Prop :=
  ∀ ⦃a : α⦄ ⦃t : State⦄, x P.env s = .ok a t → t = s ∧ ∃ b, y P.env' s' = .ok b s' ∧ V a b

section Consults

variable {α β γ δ : Type} {x : Build α} {y : Build β} {k : α → Build γ} {k' : β → Build δ}
variable {V : α → β → Prop} {W : γ → δ → Prop}

theorem Consults.pure {a : α} {b : β} (h : V a b) : Consults P s s' (pure a) (pure b) V := by
  intro a' t hrun
  obtain ⟨rfl, rfl⟩ := pure_ok hrun
  exact ⟨rfl, b, rfl, h⟩

theorem Consults.throw {e : Fault} : Consults P s s' (throw e) y V :=
  fun _ _ hrun => absurd hrun throw_ne_ok

theorem Consults.violation {v : Violation} : Consults P s s' (violation v) y V := .throw

theorem Consults.crash : Consults P s s' crash y V := .throw

theorem Consults.bind (hx : Consults P s s' x y V)
    (hk : ∀ a b, V a b → Consults P s s' (k a) (k' b) W) :
    Consults P s s' (x >>= k) (y >>= k') W := by
  intro c t hrun
  obtain ⟨a, s1, hrun1, hrun2⟩ := bind_ok hrun
  obtain ⟨rfl, b, hrun1', hab⟩ := hx hrun1
  obtain ⟨rfl, d, hrun2', hcd⟩ := hk a b hab hrun2
  exact ⟨rfl, d, (bind_of_ok hrun1').trans hrun2', hcd⟩

theorem Consults.bindSame {x y : Build α} {k : α → Build γ} {k' : α → Build δ}
    (hx : Consults P s s' x y Eq) (hk : ∀ a, Consults P s s' (k a) (k' a) W) :
    Consults P s s' (x >>= k) (y >>= k') W :=
  hx.bind fun a _ heq => heq ▸ hk a

theorem Consults.require {o : Option α} {o' : Option β}
    (h : ∀ a, o = some a → ∃ b, o' = some b ∧ V a b) :
    Consults P s s' (require o) (require o') V := by
  intro a t hrun
  obtain ⟨ho, rfl⟩ := require_ok hrun
  obtain ⟨b, rfl, hab⟩ := h a ho
  exact ⟨rfl, b, rfl, hab⟩

theorem Consults.requireSame {o : Option α} : Consults P s s' (Lowering.require o)
    (Lowering.require o) Eq :=
  .require fun a ho => ⟨a, ho, rfl⟩

theorem Consults.get {k : State → Build γ} {k' : State → Build δ}
    (h : Consults P s s' (k s) (k' s') W) : Consults P s s' (get >>= k) (get >>= k') W := h

theorem Consults.program {k : Program → Build γ} {k' : Program → Build δ}
    (h : Consults P s s' (k P.env.program) (k' P.env'.program) W) :
    Consults P s s' (getProgram >>= k) (getProgram >>= k') W := h

theorem Consults.ite {c : Prop} [Decidable c] {x' : Build α} {y' : Build β}
    (hx : Consults P s s' x y V) (hx' : Consults P s s' x' y' V) :
    Consults P s s' (if c then x else x') (if c then y else y') V := by
  split
  · exact hx
  · exact hx'

end Consults

/-- What two runs agree on while they add method tables. -/
structure Mirrors (P : ProgramPair) (s s' : State) : Prop where
  types : s'.module.types = s.module.types
  dropFuncs : s'.dropFuncs = s.dropFuncs
  drops : ∀ d ∈ s.dropFuncs, P.place d = d
  funcs : ∀ k, s'.funcs[P.order k]? = s.funcs[k]?.map (·.map P.place)
  signatures : ∀ i, s'.module.funcs[P.place i]?.map (·.signature) =
    s.module.funcs[i]?.map (·.signature)

/-- Adds the method table of an edge behind the globals. -/
def State.addTable (s : State) (g : Ir.Global) : State :=
  { s with
    module := { s.module with globals := s.module.globals.push g }
    itables := s.itables.push s.module.globals.size }

/-- The content of the method table of an edge. -/
def tableInit (e : ResolvedEdge) : Build Const := do
  let i ← structIndex e.struct
  let j ← interfaceIndex e.interface
  let d ← interfaceAt j
  let t := itableType (← getProgram) j
  let fields ← require (t.fields? (← typeDefs))
  let drop ← require (← get).dropFuncs[i]?
  let signature := (← require (← get).module.funcs[drop]?).signature
  let entries ← tableEntries fields e.methods 0 d.methods
  return .struct t (.func drop signature :: entries)

theorem buildTable_eq (e : ResolvedEdge) : buildTable e = (do
    let init ← tableInit e
    let g ← addGlobal (e.struct.name ++ "." ++ e.interface.name ++ ".itable") init
    modify fun st => { st with itables := st.itables.push g }) := by
  simp only [buildTable, tableInit, bind_assoc, pure_bind]

theorem Mirrors.addTable (h : Mirrors P s s') (g g' : Ir.Global) :
    Mirrors P (s.addTable g) (s'.addTable g') :=
  ⟨h.types, h.dropFuncs, h.drops, h.funcs, h.signatures⟩

theorem Mirrors.signature (h : Mirrors P s s') {f : Func} (hf : s.module.funcs[i]? = some f) :
    ∃ f', s'.module.funcs[P.place i]? = some f' ∧ f.signature = f'.signature := by
  have hsignature := h.signatures i
  rw [hf] at hsignature
  obtain ⟨f', hf', heq⟩ := Option.map_eq_some_iff.mp hsignature
  exact ⟨f', hf', heq.symm⟩

theorem Mirrors.ownIndex (h : Mirrors P s s') (n : Nat) :
    Consults P s s' (ownIndex n s.funcs.size) (Lowering.ownIndex (P.order n) s'.funcs.size)
      (fun i i' => i = n ∧ i' = P.order n) := by
  have hlookup := h.funcs n
  unfold Lowering.ownIndex
  by_cases hn : n < s.funcs.size
  · rw [Array.getElem?_eq_getElem hn] at hlookup
    have hn' := (Array.getElem?_eq_some_iff.mp hlookup).1
    rw [if_pos (by omega), if_pos (by omega)]
    exact .pure ⟨Int.toNat_natCast n, Int.toNat_natCast _⟩
  · rw [if_neg (by omega)]
    exact .crash

/-- The entries mention the functions at their new places. -/
theorem Mirrors.tableEntries (h : Mirrors P s s') {fields : List Ty} {methods : List Nat} {j : Nat}
    {ms : List Prototype} :
    Consults P s s' (tableEntries fields methods j ms)
      (Lowering.tableEntries fields (methods.map P.order) j ms)
      (fun cs cs' => ∀ r : Relocation, r.func = P.place → cs' =
        Const.relocate.relocateAll r cs) := by
  induction ms generalizing j with
  | nil => exact .pure fun _ _ => rfl
  | cons m ms ih =>
    refine .program ?_
    refine Consults.bind (V := fun n n' => n' = P.order n) (.require fun n hn => ?_) ?_
    · exact ⟨P.order n, by rw [List.getElem?_map, hn]; rfl, rfl⟩
    rintro n _ rfl
    refine Consults.bind (V := fun f f' => f.proto.id = (n : Int) ∧ f'.proto.id = (P.order n : Int))
      (.require fun f hf => ?_) fun f f' ⟨hid, hid'⟩ => ?_
    · have hmoved := P.reordered n
      rw [List.getElem?_map, Array.getElem?_toList, Array.getElem?_toList, hf] at hmoved
      exact ⟨_, hmoved, P.numbered.functions n f hf, P.functions_numbered hmoved⟩
    have hlookup := h.funcs n
    refine .get ?_
    rw [hid, hid']
    refine (h.ownIndex n).bind fun i i' hi => .get ?_
    obtain ⟨rfl, rfl⟩ := hi
    rw [hlookup]
    cases s.funcs[i]? with
    | none => exact .crash
    | some place =>
      cases place with
      | none => exact .violation
      | some pos =>
        refine .get (.bind (.require fun f hf => h.signature hf) fun g g' hsignature => ?_)
        refine Consults.requireSame.bindSame fun type => ih.bind fun cs cs' hcs =>
          .pure fun r hr => ?_
        rw [hcs r hr, hsignature, Const.relocate.relocateAll, Const.relocate, Const.relocate, hr]

theorem Mirrors.tableInit (h : Mirrors P s s') (e : ResolvedEdge) :
    Consults P s s' (tableInit e) (tableInit ((functionOrder P.order).edge e))
      (fun c c' => ∀ r : Relocation, r.func = P.place → c' = c.relocate r) := by
  have hstruct : Consults P s s' (structIndex e.struct) (structIndex e.struct) Eq :=
    .program (.ite (.pure rfl) .violation)
  have hinterface : Consults P s s' (interfaceIndex e.interface) (interfaceIndex e.interface) Eq :=
    .program (.ite (.pure rfl) .violation)
  have hdefs : Consults P s s' typeDefs typeDefs Eq := .get (.pure h.types.symm)
  refine hstruct.bindSame fun i => hinterface.bindSame fun j => ?_
  refine Consults.bindSame (.program .requireSame) fun d => .program ?_
  refine hdefs.bindSame fun defs => Consults.requireSame.bindSame fun fields => .get ?_
  rw [h.dropFuncs]
  refine Consults.bind (V := fun n n' => n = n' ∧ P.place n = n) (.require fun n hn => ?_) ?_
  · exact ⟨n, hn, rfl, h.drops n (Array.mem_of_getElem? hn)⟩
  rintro drop _ ⟨rfl, hdrop⟩
  refine .get (Consults.bind (V := fun f f' => f.signature = f'.signature) (.require fun f hf => ?_)
    fun f f' hsignature => ?_)
  · have hsame := h.signature hf
    rwa [hdrop] at hsame
  refine h.tableEntries.bind fun cs cs' hcs => .pure fun r hr => ?_
  rw [hcs r hr, hsignature, Const.relocate, Const.relocate.relocateAll, Const.relocate, hr, hdrop]
  rfl

/-- Method tables, with functions at their places in either run. -/
def TablesAlike (P : ProgramPair) (gs gs' : List Ir.Global) : Prop :=
  ∀ r : Relocation, r.func = P.place → gs' = gs.map (·.relocate r)

/-- The same method table is added in both runs. -/
theorem Mirrors.buildTable (h : Mirrors P s s') {e : ResolvedEdge}
    (hrun : buildTable e P.env s = .ok u t) :
    ∃ g g', TablesAlike P [g] [g'] ∧ t = s.addTable g ∧
      Lowering.buildTable ((functionOrder P.order).edge e) P.env' s' = .ok () (s'.addTable g') := by
  rw [buildTable_eq] at hrun
  obtain ⟨init, _, hrun1, hrun2⟩ := bind_ok hrun
  obtain ⟨rfl, init', hrun1', hinit⟩ := h.tableInit e hrun1
  let global (init : Const) : Ir.Global :=
    { name := e.struct.name ++ "." ++ e.interface.name ++ ".itable", content := init.ty
      init := some init, immutable := true }
  refine ⟨global init, global init', fun r hr => ?_, (EStateM.Result.ok.inj hrun2).2.symm, ?_⟩
  · simp [global, Ir.Global.relocate, hinit r hr]
  · rw [buildTable_eq]
    exact bind_of_ok hrun1'

/-- Adds several method tables. -/
def State.addTables (s : State) (gs : List Ir.Global) : State := gs.foldl State.addTable s

theorem Mirrors.buildEach (h : Mirrors P s s') {es : List ResolvedEdge} {v : PUnit}
    (hrun : (forIn es PUnit.unit fun e _ => do
        Lowering.buildTable e
        pure (ForInStep.yield PUnit.unit) : Build PUnit) P.env s = .ok v t) :
    ∃ gs gs', gs.length = es.length ∧ TablesAlike P gs gs' ∧ t = s.addTables gs ∧
      (forIn (es.map (functionOrder P.order).edge) PUnit.unit fun e _ => do
        Lowering.buildTable e
        pure (ForInStep.yield PUnit.unit) : Build PUnit) P.env' s' =
          .ok PUnit.unit (s'.addTables gs') := by
  induction es generalizing s s' with
  | nil =>
    rw [List.forIn_nil] at hrun
    obtain ⟨-, rfl⟩ := pure_ok hrun
    exact ⟨[], [], rfl, fun _ _ => rfl, rfl, rfl⟩
  | cons e es ih =>
    rw [List.forIn_cons] at hrun
    obtain ⟨_, _, hturn, hrest⟩ := bind_ok hrun
    obtain ⟨_, _, htable, hyield⟩ := bind_ok hturn
    obtain ⟨rfl, rfl⟩ := pure_ok hyield
    obtain ⟨g, g', halike, rfl, htable'⟩ := h.buildTable htable
    obtain ⟨gs, gs', hlength, hgs, ht, hrest'⟩ := ih (h.addTable g g') hrest
    refine ⟨g :: gs, g' :: gs', by rw [List.length_cons, List.length_cons, hlength],
      fun r hr => congrArg₂ (· ++ ·) (halike r hr) (hgs r hr), ht, ?_⟩
    rw [List.map_cons, List.forIn_cons]
    exact (bind_of_ok (a := ForInStep.yield PUnit.unit) (bind_of_ok htable')).trans hrest'

theorem Mirrors.buildTables (h : Mirrors P s s') (hrun : buildTables P.env s = .ok u t) :
    ∃ gs gs', gs.length = P.env.program.edges.length ∧ TablesAlike P gs gs' ∧
      t = s.addTables gs ∧ Lowering.buildTables P.env' s' = .ok () (s'.addTables gs') := by
  have hrest := getProgram_then hrun
  obtain ⟨_, _, hloop, hend⟩ := bind_ok hrest
  obtain ⟨-, rfl⟩ := pure_ok hend
  obtain ⟨gs, gs', hlength, hgs, ht, hloop'⟩ := h.buildEach hloop
  rw [← P.relinked] at hloop'
  exact ⟨gs, gs', hlength, hgs, ht, (bind_of_ok (a := P.env'.program) rfl).trans
    (bind_of_ok hloop')⟩

theorem State.addTables_eq (s : State) (gs : List Ir.Global) : s.addTables gs = { s with
    module := { s.module with globals := s.module.globals ++ gs.toArray }
    itables := s.itables ++ (List.range' s.module.globals.size gs.length).toArray } := by
  induction gs generalizing s with
  | nil => simp [addTables]
  | cons g gs ih =>
    have hitables : s.itables.push s.module.globals.size ++
        (List.range' (s.module.globals.size + 1) gs.length).toArray =
          s.itables ++ (List.range' s.module.globals.size (g :: gs).length).toArray := by
      rw [← Array.toList_inj]
      simp [List.range'_succ]
    rw [addTables, List.foldl_cons, ← addTables, ih, ← hitables]
    simp [addTable]

/-- The method tables are the first globals. -/
theorem State.addTables_of_empty (hglobals : s.module.globals = #[]) (hitables : s.itables = #[])
    (gs : List Ir.Global) : s.addTables gs = { s with
      module := { s.module with globals := gs.toArray }
      itables := (List.range' 0 gs.length).toArray } := by
  rw [addTables_eq, hglobals, hitables]
  simp

end Tenure.Lowering

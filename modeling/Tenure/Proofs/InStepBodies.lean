import Tenure.Proofs.InStepModule

/-!
# All bodies of two runs

Each run writes the bodies in its own order.  The first run is taken as it is, with
the states it goes through.  The second run is followed from its start: when it comes
to a body, it is put beside the first run at the moment when that wrote the same body.
In the end both runs have met the same literals, so one renumbering of the literals
does for all bodies.
-/

namespace Tenure.Lowering

open Ir (Const Operand Relocation)

variable {C : Course} {s s' t : State} {u : Unit}

/-! ## Literals of two runs -/

/-- The literals that have been met, in the order of their numbers. -/
abbrev literalKeys (s : State) : List ByteArray := s.literals.reverse.map (·.1)

section Pooled

variable {tables : Nat} {τ : Equiv.Perm Nat}

theorem Pooled.nodup (h : Pooled tables s) : (literalKeys s).Nodup := by
  rw [literalKeys, List.map_reverse]
  exact List.nodup_reverse.mpr h.distinct

/-- Behind the tables stand the literals, by number. -/
theorem Pooled.globals_eq (h : Pooled tables s) (k : Nat) :
    s.module.globals[tables + k]? = (literalKeys s)[k]?.map (literalGlobal k) := by
  rw [List.getElem?_map]
  cases hk : s.literals.reverse[k]? with
  | some e => exact (h.entries k e.1 e.2 hk).2
  | none =>
    have hsize := h.size
    rw [List.getElem?_eq_none_iff, List.length_reverse] at hk
    exact Array.getElem?_eq_none (by omega)

/-- A literal that has another number is the same but for its name. -/
theorem Pooled.carries_globals (h : Pooled tables s) (h' : Pooled tables s')
    (hτ : Carries τ (literalKeys s) (literalKeys s')) (k : Nat) :
    s'.module.globals[tables + τ k]? = s.module.globals[tables + k]?.map fun g =>
      { g with name := "__strlit." ++ toString (τ k) } := by
  rw [h'.globals_eq, h.globals_eq, hτ, Option.map_map]
  rfl

/-- The address of a literal goes to its address in the other run. -/
theorem Pooled.carries_operand (h : Pooled tables s) (h' : Pooled tables s')
    (hτ : Carries τ (literalKeys s) (literalKeys s')) {r : Relocation}
    (hr : r.global = behind tables τ) {bytes : ByteArray} {x y : Operand}
    (hx : (bytes, x) ∈ s.literals) (hy : (bytes, y) ∈ s'.literals) : y = x.relocate r := by
  have hkey : bytes ∈ literalKeys s :=
    List.mem_map_of_mem (f := Prod.fst) (List.mem_reverse.mpr hx)
  have hplace := hτ ((literalKeys s).idxOf bytes)
  rw [List.getElem?_eq_getElem (List.idxOf_lt_length_of_mem hkey), List.getElem_idxOf] at hplace
  obtain ⟨hlt, hbytes⟩ := List.getElem?_eq_some_iff.mp hplace
  have hidx := h'.nodup.idxOf_getElem _ hlt
  rw [hbytes] at hidx
  rw [h.mem hx, h'.mem hy, hidx]
  simp only [literalOperand, Operand.relocate, Const.relocate,
    Const.relocate.relocateAll, Const.i32,
    hr, behind_add]

end Pooled

/-! ## The first run -/

/-- Both runs are ready to write the bodies. -/
structure BodiesReady (C : Course) (s s' : State) : Prop where
  level : Level C ⟨[], []⟩ s s'
  known : ∀ i, C.known i
  bodies : ∀ fn ∈ C.env.program.functions, Body C.toProgramPair fn.body
  places : ∀ k < C.env.program.functions.size, C.left.funcs[k]? = some (some (runtimeCount + k))
  blank : ∀ k < C.env.program.functions.size, ∃ g, s.module.funcs[runtimeCount + k]? = some g ∧
    g.blocks = #[] ∧ s'.module.funcs[C.place (runtimeCount + k)]? = some g

/-- Both runs write a body, from any states where it has not been written. -/
theorem BodiesReady.buildBody {base base' : State} (h : BodiesReady C base base') {fn : Function}
    {k : Nat} (hfn : C.env.program.functions[k]? = some fn)
    (hs : Settled C.names C.env.program C.plan C.left s)
    (hkept : s.module.funcs[runtimeCount + k]? = base.module.funcs[runtimeCount + k]?)
    (hs' : Settled C.names C.env'.program C.plan C.right s')
    (hkept' : s'.module.funcs[C.place (runtimeCount + k)]? =
      base'.module.funcs[C.place (runtimeCount + k)]?)
    (hrun : buildBody fn C.env s = .ok u t) :
    ∃ w t', Lowering.buildBody ((functionOrder C.order).functionDef fn) C.env' s' = .ok () t' ∧
      Pools.Grows ⟨s.literals, s'.literals⟩ w ∧
      Filled C w (runtimeCount + k) (C.place (runtimeCount + k)) s s' t t' := by
  have hlt := (Array.getElem?_eq_some_iff.mp hfn).1
  obtain ⟨g, hg, hblank, hg'⟩ := h.blank k hlt
  have hlevel : Level C ⟨s.literals, s'.literals⟩ s s' := ⟨hs, hs', rfl, rfl⟩
  exact hlevel.buildBody h.known (h.bodies fn (Array.mem_of_getElem? hfn))
    (C.numbered.functions k fn hfn) (h.places k hlt) (hkept.trans hg) (hkept'.trans hg') hblank hrun

/-- The states between the bodies. -/
theorem buildBodies_states {env : Env} {fs : List Function}
    (hrun : buildBodies fs env s = .ok u t) :
    ∃ st : Nat → State, st 0 = s ∧ st fs.length = t ∧
      ∀ k f, fs[k]? = some f → buildBody f env (st k) = .ok () (st (k + 1)) := by
  induction fs generalizing s with
  | nil =>
    obtain ⟨-, rfl⟩ := pure_ok hrun
    exact ⟨fun _ => s, rfl, rfl, by simp⟩
  | cons f fs ih =>
    obtain ⟨_, s1, hrun1, hrun2⟩ := bind_ok hrun
    obtain ⟨st, hfirst, hlast, hsteps⟩ := ih hrun2
    refine ⟨fun k => k.casesOn s st, rfl, hlast, fun k f' hf' => ?_⟩
    cases k with
    | zero =>
      obtain rfl := Option.some.inj hf'
      exact hrun1.trans (by rw [← hfirst])
    | succ k => exact hsteps k f' hf'

/-- Of the functions of the program, only those before a number have been written. -/
def Untouched (base : State) (k : Nat) (s : State) : Prop :=
  ∀ i, i < runtimeCount ∨ runtimeCount + k ≤ i → s.module.funcs[i]? = base.module.funcs[i]?

theorem Untouched.step {base : State} {k : Nat} (h : Untouched base k s)
    (hlater : Later (· ≠ runtimeCount + k) s t) : Untouched base (k + 1) t := by
  intro i hi
  rw [hlater.kept i (by omega)]
  exact h i (by omega)

/-- The first run, state by state. -/
structure FirstRun (C : Course) (base' : State) (st : Nat → State) : Prop where
  ready : BodiesReady C (st 0) base'
  steps : ∀ k f, C.env.program.functions[k]? = some f →
    buildBody f C.env (st k) = .ok () (st (k + 1))

section FirstRun

variable {base' : State} {st : Nat → State} {k : Nat}

/-- The second run at its start serves as a partner. -/
theorem FirstRun.filled (h : FirstRun C base' st) (hk : k < C.env.program.functions.size)
    (hs : Settled C.names C.env.program C.plan C.left (st k)) (hkept : Untouched (st 0) k (st k)) :
    ∃ w t', Filled C w (runtimeCount + k) (C.place (runtimeCount + k)) (st k)
      base' (st (k + 1)) t' := by
  have hfn : C.env.program.functions[k]? = some C.env.program.functions[k] :=
    Array.getElem?_eq_getElem hk
  obtain ⟨w, t', -, -, hfilled⟩ := h.ready.buildBody hfn hs (hkept _ (.inr (Nat.le_refl _)))
    h.ready.level.right rfl (h.steps k _ hfn)
  exact ⟨w, t', hfilled⟩

theorem FirstRun.settled (h : FirstRun C base' st) (hk : k ≤ C.env.program.functions.size) :
    Settled C.names C.env.program C.plan C.left (st k) ∧ Untouched (st 0) k (st k) := by
  induction k with
  | zero => exact ⟨h.ready.level.left, fun _ _ => rfl⟩
  | succ k ih =>
    obtain ⟨hs, huntouched⟩ := ih (by omega)
    obtain ⟨w, t', hfilled⟩ := h.filled hk hs huntouched
    exact ⟨hfilled.left, huntouched.step hfilled.later⟩

theorem FirstRun.later (h : FirstRun C base' st) (hk : k < C.env.program.functions.size) :
    Later (· ≠ runtimeCount + k) (st k) (st (k + 1)) := by
  obtain ⟨hs, huntouched⟩ := h.settled (Nat.le_of_lt hk)
  obtain ⟨w, t', hfilled⟩ := h.filled hk hs huntouched
  exact hfilled.later

/-- Tables are kept to the end, and so are the bodies that have been written. -/
theorem FirstRun.kept (h : FirstRun C base' st) {n : Nat} (hkn : k ≤ n)
    (hn : n ≤ C.env.program.functions.size) : Tables (st k) (st n) ∧
      ∀ i < runtimeCount + k, (st n).module.funcs[i]? = (st k).module.funcs[i]? := by
  induction n, hkn using Nat.le_induction with
  | base => exact ⟨.refl _, fun _ _ => rfl⟩
  | succ n hkn ih =>
    obtain ⟨htables, hfuncs⟩ := ih (by omega)
    have hlater := h.later (k := n) (by omega)
    refine ⟨htables.trans hlater.toTables, fun i hi => ?_⟩
    rw [hlater.kept i (by omega), hfuncs i hi]

end FirstRun

/-! ## The second run -/

/-- The second run has written the functions before a number.  Each of them is like that of
the first run. -/
structure Following (C : Course) (base' : State) (st : Nat → State) (j : Nat) (s' : State) :
    Prop where
  settled : Settled C.names C.env'.program C.plan C.right s'
  untouched : Untouched base' j s'
  tables : Tables base' s'
  le : j ≤ C.functions.size
  keys : ∀ e ∈ s'.literals, e.1 ∈ (st C.env.program.functions.size).literals.map (·.1)
  met : ∀ k, C.order k < j → ∀ e ∈ (st (k + 1)).literals,
    e.1 ∈ (st k).literals.map (·.1) ∨ e.1 ∈ s'.literals.map (·.1)
  done : ∀ k, C.order k < j → ∃ w f f', w.left ⊆ (st C.env.program.functions.size).literals ∧
    w.right ⊆ s'.literals ∧ FuncAlike C w f f' ∧
    (st C.env.program.functions.size).module.funcs[runtimeCount + k]? = some f ∧
    s'.module.funcs[runtimeCount + C.order k]? = some f'

section Following

variable {base' : State} {st : Nat → State} {j : Nat}

theorem Following.step (h : Following C base' st j s') (hfirst : FirstRun C base' st) {f : Function}
    (hf : C.functions[j]? = some f) :
    ∃ t', buildBody f C.env' s' = .ok () t' ∧ Following C base' st (j + 1) t' := by
  -- the number of the function in the first program
  obtain ⟨k, rfl⟩ := C.order.surjective j
  have hmoved := C.reordered k
  rw [List.getElem?_map, Array.getElem?_toList, Array.getElem?_toList, hf] at hmoved
  obtain ⟨fn, hfn, rfl⟩ := Option.map_eq_some_iff.mp hmoved.symm
  have hlt := (Array.getElem?_eq_some_iff.mp hfn).1
  have hplace : C.place (runtimeCount + k) = runtimeCount + C.order k := behind_add _ _ _
  obtain ⟨hs, huntouched⟩ := hfirst.settled (Nat.le_of_lt hlt)
  obtain ⟨w, t', hrun', hgrows, hfilled⟩ := hfirst.ready.buildBody hfn hs
    (huntouched _ (.inr (Nat.le_refl _))) h.settled
    (by rw [hplace]; exact h.untouched _ (.inr (Nat.le_refl _))) (hfirst.steps k fn hfn)
  obtain ⟨htables, hfuncs⟩ := hfirst.kept (k := k + 1) hlt (Nat.le_refl _)
  have hlits := htables.texts.subset
  have hlater' := hfilled.later'
  rw [hplace] at hlater'
  have hlits' : s'.literals ⊆ t'.literals := hlater'.texts.subset
  have hleft := hfilled.met
  have hright := hfilled.met'
  refine ⟨t', hrun', hfilled.right, h.untouched.step hlater', h.tables.trans hlater'.toTables, ?_,
    fun e he => ?_, fun i hi e he => ?_, fun i hi => ?_⟩
  · exact (Array.getElem?_eq_some_iff.mp hf).1
  · rw [hright] at he
    obtain hold | hnew := hgrows.metRight e he
    · obtain ⟨e', he', heq⟩ := List.mem_map.mp hold
      exact heq ▸ h.keys e' he'
    · rw [← hleft] at hnew
      exact List.map_subset _ hlits hnew
  · by_cases hik : i = k
    · subst hik
      rw [hleft] at he
      rw [hright]
      exact hgrows.metLeft e he
    · have hne : C.order i ≠ C.order k := fun heq => hik (C.order.injective heq)
      exact (h.met i (by omega) e he).imp_right fun hmem => List.map_subset _ hlits' hmem
  · by_cases hik : i = k
    · subst hik
      obtain ⟨f, f', hf1, hf1', halike⟩ := hfilled.func
      rw [hplace] at hf1'
      refine ⟨w, f, f', hleft ▸ hlits, hright ▸ fun _ h => h, halike, ?_, hf1'⟩
      rw [hfuncs _ (by omega), hf1]
    · have hne : C.order i ≠ C.order k := fun heq => hik (C.order.injective heq)
      obtain ⟨w0, f, f', hw, hw', halike, hf1, hf1'⟩ := h.done i (by omega)
      refine ⟨w0, f, f', hw, fun _ he => hlits' (hw' he), halike, hf1, ?_⟩
      rw [hlater'.kept _ (by omega), hf1']

/-- The second run writes all functions that are left. -/
theorem Following.rest {fs : List Function} (h : Following C base' st j s')
    (hfirst : FirstRun C base' st) (hfs : fs = C.functions.toList.drop j) :
    ∃ t', buildBodies fs C.env' s' = .ok () t' ∧ Following C base' st C.functions.size t' := by
  induction fs generalizing j s' with
  | nil =>
    have hlength := congrArg List.length hfs
    simp only [List.length_nil, List.length_drop, Array.length_toList] at hlength
    have hj : j = C.functions.size := Nat.le_antisymm h.le (by omega)
    exact ⟨s', rfl, hj ▸ h⟩
  | cons f fs ih =>
    have hf : C.functions[j]? = some f := by
      have hhead := congrArg (·[0]?) hfs
      simpa using hhead.symm
    obtain ⟨s1', hrun1, h1⟩ := h.step hfirst hf
    obtain ⟨t', hrun2, ht⟩ := ih h1 (by rw [← List.drop_drop, ← hfs]; rfl)
    exact ⟨t', (bind_of_ok hrun1).trans hrun2, ht⟩

/-- In the end the second run has met all literals of the first. -/
theorem Following.keys_subset (h : Following C base' st C.functions.size s')
    (hstart : (st 0).literals = []) {k : Nat} (hk : k ≤ C.env.program.functions.size) :
    ∀ e ∈ (st k).literals, e.1 ∈ s'.literals.map (·.1) := by
  induction k with
  | zero => simp [hstart]
  | succ k ih =>
    intro e he
    obtain hold | hnew := h.met k (C.order_lt.mpr hk) e he
    · obtain ⟨e', he', heq⟩ := List.mem_map.mp hold
      exact heq ▸ ih (by omega) e' he'
    · exact hnew

end Following

/-! ## Both runs at their ends -/

/-- Both runs have written all bodies.  The literals of the first run have new numbers in the
second one, and with these the bodies are the same. -/
structure BodiesWritten (C : Course) (τ : Equiv.Perm Nat) (s s' t t' : State) : Prop where
  left : Settled C.names C.env.program C.plan C.left t
  right : Settled C.names C.env'.program C.plan C.right t'
  keys : Carries τ (literalKeys t) (literalKeys t')
  untouched : Untouched s C.env.program.functions.size t
  untouched' : Untouched s' C.env.program.functions.size t'
  tables : Tables s t
  tables' : Tables s' t'
  bodies : ∀ k < C.env.program.functions.size, ∃ f, t.module.funcs[runtimeCount + k]? = some f ∧
    t'.module.funcs[runtimeCount + C.order k]? =
      some (f.relocate ⟨C.place, behind C.plan.tables τ⟩)

theorem BodiesReady.buildBodies (h : BodiesReady C s s')
    (hrun : buildBodies C.env.program.functions.toList C.env s = .ok u t) :
    ∃ τ t', Lowering.buildBodies C.functions.toList C.env' s' = .ok () t' ∧
      BodiesWritten C τ s s' t t' := by
  obtain ⟨st, rfl, rfl, hsteps⟩ := buildBodies_states hrun
  rw [Array.length_toList]
  have hfirst : FirstRun C s' st := ⟨h, fun k f hf => hsteps k f (by simpa using hf)⟩
  have hstart : Following C s' st 0 s' :=
    { settled := h.level.right
      untouched := fun _ _ => rfl
      tables := .refl _
      le := Nat.zero_le _
      keys := by simp [h.level.met']
      met := fun _ hk => absurd hk (Nat.not_lt_zero _)
      done := fun _ hk => absurd hk (Nat.not_lt_zero _) }
  obtain ⟨t', hrun', hend⟩ := hstart.rest hfirst rfl
  obtain ⟨hsettled, huntouched⟩ := hfirst.settled (Nat.le_refl _)
  have hsize : C.functions.size = C.env.program.functions.size := C.size_eq
  -- the runs have met the same literals
  have hperm : (literalKeys (st C.env.program.functions.size)).Perm (literalKeys t') := by
    refine (List.perm_ext_iff_of_nodup hsettled.pooled.nodup hend.settled.pooled.nodup).mpr ?_
    intro bytes
    simp only [literalKeys, List.map_reverse, List.mem_reverse]
    constructor
    · intro hmem
      obtain ⟨e, he, rfl⟩ := List.mem_map.mp hmem
      exact hend.keys_subset h.level.met (Nat.le_refl _) e he
    · intro hmem
      obtain ⟨e, he, rfl⟩ := List.mem_map.mp hmem
      exact hend.keys e he
  obtain ⟨τ, hτ⟩ := exists_carries hperm
  have hsuits : Suits C ⟨(st C.env.program.functions.size).literals, t'.literals⟩
      ⟨C.place, behind C.plan.tables τ⟩ :=
    ⟨fun _ _ => rfl, fun i hi => behind_of_lt τ hi, fun bytes x y hx hy =>
      hsettled.pooled.carries_operand hend.settled.pooled hτ rfl hx hy⟩
  refine ⟨τ, t', hrun', hsettled, hend.settled, hτ, huntouched, hsize ▸ hend.untouched,
    (hfirst.kept (Nat.zero_le _) (Nat.le_refl _)).1, hend.tables, ?_⟩
  intro k hk
  obtain ⟨w, f, f', hw, hw', halike, hf, hf'⟩ := hend.done k (C.order_lt.mpr hk)
  exact ⟨f, hf, by rw [hf', halike _ (hsuits.of_subset hw hw')]⟩

end Tenure.Lowering

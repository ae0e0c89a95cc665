import Tenure.Proofs.Assembly
import Tenure.Proofs.InStepExpr

/-!
# Functions in step

A drop function or a body is written from its first block to its last in both runs.
The runs need not have come to it along the same way: it is enough that both go by
what is settled and that the function has no code yet.  So the bodies of a program
can be compared one by one, although the two runs write them in different orders.
-/

namespace Tenure.Lowering

open Ir (Ty Operand Func)

variable {C : Course} {w : Pools} {H : Prop} {s s' t : State} {pos pos' : Nat}
  {g g' : Func} {u : Unit}

set_option synthInstance.maxSize 4000

/-! ## The first block -/

variable {fn : Function} {env : Env} {i k : Nat}

theorem beginFunc_eq (hg : s.module.funcs[i]? = some g) :
    beginFunc i env s = .ok () { s with
      func := i, block := g.blocks.size, blockCount := 0, slots := []
      module := { s.module with funcs := s.module.funcs.modify i (·.addBlock "entry") } } := by
  have hcurrent : currentFunc env { s with func := i, blockCount := 0, slots := [] } =
      .ok g { s with func := i, blockCount := 0, slots := [] } := by
    unfold currentFunc
    rw [bind_of_ok (show (get : Build State) env _ = .ok _ _ from rfl), hg]
    rfl
  unfold beginFunc
  rw [bind_of_ok (show (modify _ : Build Unit) env s = .ok () _ from rfl), bind_of_ok hcurrent]
  rfl

/-- Two functions without code are alike if they are the same. -/
theorem FuncAlike.of_blank (h : g.blocks = #[]) : FuncAlike C w g g :=
  fun _ _ => (Ir.Func.relocate_of_blank h).symm

/-- Both runs begin to write a function. -/
theorem Level.begin (h : Level C w s s') (hg : s.module.funcs[pos]? = some g)
    (hg' : s'.module.funcs[pos']? = some g') (halike : FuncAlike C w g g')
    (hrun : beginFunc pos C.env s = .ok u t) :
    ∃ t', beginFunc pos' C.env' s' = .ok () t' ∧ Abreast C w t t' := by
  rw [beginFunc_eq hg] at hrun
  cases hrun
  refine ⟨_, beginFunc_eq hg', ?_⟩
  exact {
    left := (h.left.modifyFunc (g := (·.addBlock "entry")) pos fun _ => rfl).at _ _ _ _
    right := (h.right.modifyFunc (g := (·.addBlock "entry")) pos' fun _ => rfl).at _ _ _ _
    met := h.met
    met' := h.met'
    func := by
      refine ⟨g.addBlock "entry", g'.addBlock "entry", ?_, ?_, fun r hr => ?_⟩
      · simp [Array.getElem?_modify, hg]
      · simp [Array.getElem?_modify, hg']
      · rw [halike r hr, Ir.Func.relocate_addBlock]
    block := by
      obtain ⟨r, hr⟩ := h.exists_suits
      show g'.blocks.size = g.blocks.size
      rw [halike r hr, Ir.Func.size_relocate]
    blockCount := rfl
    slots := .nil }

/-- Both runs write a function from its first block on. -/
theorem Level.fill {x y : Build Unit} {V : Pools → Unit → Unit → Prop} (h : Level C w s s')
    (hg : s.module.funcs[pos]? = some g) (hg' : s'.module.funcs[pos']? = some g')
    (halike : FuncAlike C w g g') (hxy : Onward C w x y V)
    (hrun : (do beginFunc pos; x) C.env s = .ok u t) :
    ∃ w' t', (do beginFunc pos'; y) C.env' s' = .ok () t' ∧ w.Grows w' ∧ Abreast C w' t t' ∧
      V w' () () := by
  obtain ⟨_, s1, hrun1, hrun2⟩ := bind_ok hrun
  obtain ⟨s1', hrun1', hs1⟩ := h.begin hg hg' halike hrun1
  obtain ⟨w', _, t', hrun2', hw, ht, hV⟩ := hxy hs1 hrun2
  exact ⟨w', t', (bind_of_ok hrun1').trans hrun2', hw, ht, hV⟩

/-- Both runs have filled a function, at a place of its own in each of them. -/
structure Filled (C : Course) (w : Pools) (pos pos' : Nat) (s s' t t' : State) : Prop
    extends Level C w t t' where
  func : ∃ f f', t.module.funcs[pos]? = some f ∧ t'.module.funcs[pos']? = some f' ∧
    FuncAlike C w f f'
  later : Later (· ≠ pos) s t
  later' : Later (· ≠ pos') s' t'

theorem Abreast.filled {t' : State} (h : Abreast C w t t') (hfunc : t.func = pos)
    (hfunc' : t'.func = pos') (hlater : Later (· ≠ pos) s t) (hlater' : Later (· ≠ pos') s' t') :
    Filled C w pos pos' s s' t t' :=
  { h.toLevel with
    func := by
      rw [← hfunc, ← hfunc']
      exact h.func
    later := hlater
    later' := hlater' }

/-- The addresses of literals are constants. -/
theorem Pooled.literalsConst {tables : Nat} (h : Pooled tables s) : LiteralsConst s := by
  rintro ⟨bytes, x⟩ hx
  exact ⟨_, h.mem hx⟩

/-! ## Drop functions -/

instance {x y : Operand} {layout : Ty} {j : Nat} {ms : List StructMember} [Similar C w H x y]
    [hms : Granted H (∀ m ∈ ms, Written C.names m.type)] :
    Parallel C w H (buildDropFunc.members layout x j ms) (buildDropFunc.members layout y j ms) := by
  induction ms generalizing H j with
  | nil => exact inferInstanceAs (Parallel C w H (pure ()) (pure ()))
  | cons m ms ih =>
    obtain ⟨_, _⟩ := hms.uncons
    unfold buildDropFunc.members
    infer_instance

instance {i : Nat} {d : StructDef} [Granted H (∀ m ∈ d.members, Written C.names m.type)] :
    Parallel C w H (dropBody i d) (dropBody i d) :=
  .program rfl inferInstance

/-- Both runs write a drop function, at one place. -/
theorem Level.buildDropFunc {d : StructDef} (h : Level C w s s')
    (hd : ∀ m ∈ d.members, Written C.names m.type) (hg : s.module.funcs[pos]? = some g)
    (hg' : s'.module.funcs[pos]? = some g) (hblank : g.blocks = #[]) (hparams : 0 < g.params.length)
    (hrun : buildDropFunc i d pos C.env s = .ok u t) :
    ∃ t', Lowering.buildDropFunc i d pos C.env' s' = .ok () t' ∧ Filled C w pos pos s s' t t' := by
  have hrun0 := hrun
  rw [buildDropFunc_eq] at hrun
  have : Granted True (∀ m ∈ d.members, Written C.names m.type) := ⟨fun _ => hd⟩
  have hstep : Parallel C w True (do dropBody i d; terminate (.ret none))
      (do dropBody i d; terminate (.ret none)) := inferInstance
  have honward : Onward C w (do dropBody i d; terminate (.ret none))
      (do dropBody i d; terminate (.ret none)) (fun w' _ _ => w' = w) :=
    (hstep.inStep trivial).onward fun _ _ _ => rfl
  obtain ⟨w', t', hrun', -, ht, rfl⟩ := h.fill hg hg' (.of_blank hblank) honward hrun
  have hrun0' : Lowering.buildDropFunc i d pos C.env' s' = .ok () t' := by
    rw [buildDropFunc_eq]
    exact hrun'
  have hfilled := buildDropFunc_filled hrun0 hg hblank hparams h.left.pooled.literalsConst
  have hfilled' := buildDropFunc_filled hrun0' hg' hblank hparams h.right.pooled.literalsConst
  exact ⟨t', hrun0', ht.filled hfilled.func hfilled'.func hfilled.later hfilled'.later⟩

/-! ## Bodies -/

/-- Writes the code of a function. -/
def writeBody (f : Function) : Build Unit := do
  let result ← lower f.body
  if ← terminated then return
  match result with
  | some h => terminate (.ret (some h.value))
  | none =>
      if (← require f.proto.result).referend = .void then terminate (.ret (some voidValue))
      else violation (.bodyWithoutValue f.proto.name)

/-- A function that has a place is marked and written there. -/
theorem buildBody_eq (hid : fn.proto.id = k) (hpos : s.funcs[k]? = some (some pos)) :
    buildBody fn env s = (do beginFunc pos; writeBody fn) env { s with module := { s.module with
      funcs := s.module.funcs.modify pos fun g => { g with nounwinds := g.nounwinds + 1 } } } := by
  have hlt : k < s.funcs.size := (Array.getElem?_eq_some_iff.mp hpos).1
  have hown : ownIndex fn.proto.id s.funcs.size env s = .ok k s := by
    rw [hid, ownIndex, if_pos ⟨Int.natCast_nonneg k, by exact_mod_cast hlt⟩, Int.toNat_natCast]
    rfl
  have hplace : require (s.funcs[k]?.getD none) env s = .ok pos s := by
    rw [hpos]
    rfl
  unfold buildBody
  rw [bind_of_ok (show (get : Build State) env s = .ok s s from rfl), bind_of_ok hown,
    bind_of_ok (show (get : Build State) env s = .ok s s from rfl), bind_of_ok hplace]
  rfl

theorem advances_writeBody [LowersAlike C fn.body] :
    Advances C w H (writeBody fn) (writeBody ((functionOrder C.order).functionDef fn)) := by
  have : Advances C w H (lower fn.body) (lower ((functionOrder C.order).expr fn.body)) :=
    inferInstanceAs (Advances C w H (arriving _ _) (arriving _ _))
  refine @Advances.bind _ _ _ _ _ _ _ _ _ _ _ this fun w1 r r' => .bindSame fun ended =>
    .ite inferInstance ?_
  refine @Advances.ofParallel _ _ _ _ _ _ _ (.ofKnown fun hH => ?_)
  have hr : ResultAlike C w1 r r' := hH.2.1
  cases hr with
  | @some h h' hh =>
    have (G : Prop) : Similar C w1 G h h' := ⟨fun _ => hh⟩
    infer_instance
  | none => exact .requireSame fun t _ => inferInstance

/-- Both runs write the body of a function, each at the place that it has for it. -/
theorem Level.buildBody (hknown : ∀ i, C.known i) (h : Level C w s s')
    (hbody : Body C.toProgramPair fn.body) (hid : fn.proto.id = k)
    (hpos : C.left.funcs[k]? = some (some pos)) (hg : s.module.funcs[pos]? = some g)
    (hg' : s'.module.funcs[C.place pos]? = some g) (hblank : g.blocks = #[])
    (hrun : buildBody fn C.env s = .ok u t) :
    ∃ w' t', Lowering.buildBody ((functionOrder C.order).functionDef fn) C.env' s' = .ok () t' ∧
      w.Grows w' ∧ Filled C w' pos (C.place pos) s s' t t' := by
  have hid' : ((functionOrder C.order).functionDef fn).proto.id = C.order k := by
    simp only [Reordering.functionDef, hid, newIndex_natCast]
    rfl
  have hpos' : s'.funcs[C.order k]? = some (some (C.place pos)) := by
    rw [h.right.funcs, C.funcs, hpos]
    rfl
  rw [← h.left.funcs] at hpos
  let mark (g : Func) : Func := { g with nounwinds := g.nounwinds + 1 }
  have hmarked : Level C w _ _ :=
    { left := h.left.modifyFunc (g := mark) pos fun _ => rfl
      right := h.right.modifyFunc (g := mark) (C.place pos) fun _ => rfl
      met := h.met
      met' := h.met' }
  have hmark : (s.module.funcs.modify pos mark)[pos]? = some (mark g) := by
    simp [Array.getElem?_modify, hg]
  have hmark' : (s'.module.funcs.modify (C.place pos) mark)[C.place pos]? = some (mark g) := by
    simp [Array.getElem?_modify, hg']
  have := lowersAlike hknown fn.body hbody
  obtain ⟨w', t', hrun', hw, ht, -⟩ := hmarked.fill hmark hmark' (.of_blank hblank)
    (advances_writeBody.onward trivial) ((buildBody_eq hid hpos).symm.trans hrun)
  have hrun' := (buildBody_eq hid' hpos').trans hrun'
  have hfilled := buildBody_filled hrun hid hpos hg hblank h.left.pooled.literalsConst
  have hfilled' := buildBody_filled hrun' hid' hpos' hg' hblank h.right.pooled.literalsConst
  exact ⟨w', t', hrun', hw, ht.filled hfilled.func hfilled'.func hfilled.later hfilled'.later⟩

end Tenure.Lowering

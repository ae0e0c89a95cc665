import Tenure.Proofs.EmittedExpr
import Tenure.Proofs.Executing

/-!
# What pieces of code do

Lowering writes the code of a function in pieces, and the machine runs the
finished function.  `Runs A T L m x Q` says of a piece `x` what its code does when
control comes to it in the finished function: with the operands in `L` standing
for the values given there, and with memory `m`, control comes to the end of the
piece, and `Q` holds of what the piece returned, of what operands then stand for,
and of memory.  On the way the run may end in one of the faults `A`.

The rule for sequencing carries the facts about operands along, because registers
are written once.  It asks of both pieces that they are `Steady`: that they write
code that ends in an open block.  That is a class, so that it is found by the shape
of a piece.
-/

namespace Tenure.Lowering

open Ir (Ty Operand Op Func Inst)
open Interp (Call World Goal Value Memory)

variable {α β : Type} {A : Interp.Fault → Prop} {T : Setting} {C : Call}
variable {s s' s'' : State} {f f' f'' : Func} {w w' : World} {m m' : Memory} {L L' : Facts}

/-! ## Steady pieces -/

/-- A piece that writes code ending in an open block. -/
class Steady (x : Build α) : Prop where
  extends_of_ok : ∀ ⦃env : Env⦄ ⦃s : State⦄ ⦃a : α⦄ ⦃s' : State⦄ ⦃f : Func⦄, Placed s f →
    f.term? s.block = none → x env s = .ok a s' →
    ∃ f', Extends s f s' f' ∧ f'.term? s'.block = none

theorem Extends.refl (hp : Placed s f) (hopen : f.term? s.block = none) : Extends s f s f :=
  (Grown.same (U := []) (V := []) hp (.refl s) rfl hopen (by simp)).1.toExtends

theorem Extends.trans (h : Extends s f s' f') (hopen : f'.term? s'.block = none)
    (h' : Extends s' f' s'' f'') : Extends s f s'' f'' where
  placed := h'.placed
  framed := h.framed.trans h'.framed
  block := by
    have := h.block
    have := h'.block
    have := h.evolves.size
    omega
  evolves := by
    have hev : f.Evolves s.block f' (· = s'.block) :=
      h.evolves.congr fun _ => ⟨fun hc => ⟨hc, hc ▸ hopen⟩, fun hc => hc.1⟩
    exact hev.trans h'.evolves

/-- The function under construction is determined by the state. -/
theorem Extends.func_eq (h : Extends s f s' f') (hp : Placed s' f'') : f'' = f' :=
  Option.some.inj (hp.func.symm.trans h.placed.func)

theorem Emits.steady {U : List Operand} {x : Build α} {H : α → List Operand} (h : Emits U x H) :
    Steady x where
  extends_of_ok env s a s' f hp hopen hrun := by
    obtain ⟨f', hg, hopen'⟩ := h hp hopen hrun
    exact ⟨f', hg.toExtends, hopen'⟩

instance {a : α} : Steady (pure a : Build α) where
  extends_of_ok env s b s' f hp hopen hrun := by
    obtain ⟨rfl, rfl⟩ := pure_ok hrun
    exact ⟨f, .refl hp hopen, hopen⟩

instance Steady.bind {x : Build α} {k : α → Build β} [Steady x] [∀ a, Steady (k a)] :
    Steady (x >>= k) where
  extends_of_ok env s b s'' f hp hopen hrun := by
    obtain ⟨a, s', hrun1, hrun2⟩ := bind_ok hrun
    obtain ⟨f', hx, hopen'⟩ := Steady.extends_of_ok hp hopen hrun1
    obtain ⟨f'', hx', hopen''⟩ := Steady.extends_of_ok hx.placed hopen' hrun2
    exact ⟨f'', hx.trans hopen' hx', hopen''⟩

instance {e : Fault} : Steady (throw e : Build α) where
  extends_of_ok _ _ _ _ _ _ _ hrun := absurd hrun throw_ne_ok

instance {v : Violation} : Steady (violation v : Build α) := inferInstanceAs (Steady (throw _))

instance : Steady (crash : Build α) := inferInstanceAs (Steady (throw _))

instance {p : Prop} [Decidable p] {x y : Build α} [Steady x] [Steady y] :
    Steady (if p then x else y) := by
  split <;> infer_instance

theorem Quiet.steady {x : Build α} (h : Quiet x) : Steady x := (h.emits (U := [])).steady

theorem Steady.of [Hands α] {x : Build α} (U : List Operand) [h : Orderly U x] : Steady x :=
  h.emits.steady

instance {x : Option α} : Steady (require x) := Quiet.require.steady
instance : Steady (get : Build State) := Quiet.get.steady
instance : Steady getProgram := quiet_getProgram.steady
instance : Steady typeDefs := quiet_typeDefs.steady
instance {n : Symbol} : Steady (structIndex n) := quiet_structIndex.steady
instance {n : Symbol} : Steady (interfaceIndex n) := quiet_interfaceIndex.steady
instance {i : Nat} : Steady (structAt i) := quiet_structAt.steady
instance {r : Reference} : Steady (lowerReference r) := quiet_lowerReference.steady
instance {r : Option Reference} : Steady (lowerType r) := quiet_lowerType.steady
instance {r : Referend} : Steady (arrayLayout r) := quiet_arrayLayout.steady
instance {o : Option Callee} : Steady (signatureOf o) := quiet_signatureOf.steady
instance {r : Result} : Steady (use r) := by
  cases r
  · exact inferInstanceAs (Steady (violation _))
  · exact inferInstanceAs (Steady (pure _))

instance {xs : List α} {k : α → Build β} [∀ a, Steady (k a)] : Steady (xs.mapM k) := by
  induction xs with
  | nil => exact inferInstanceAs (Steady (pure _))
  | cons x xs ih =>
    rw [List.mapM_cons]
    infer_instance

instance {rs : List Result} : Steady (useAll rs) := inferInstanceAs (Steady (rs.mapM _))

variable {v : Value} {x : Operand} {t : Ty} {id : Nat} {op : Op} {env : Env} {vs : List Value}
variable {Q : Value → Memory → Prop}

theorem steady_emit (hphi : op.incoming? = none) : Steady (emit t op) :=
  (emit_emits (U := op.operands) hphi fun _ hx => given_of_mem hx).steady

section Instructions

variable {t : Ty} {x y : Operand} {xs : List Operand} {i : Nat}

instance : Steady (emitLoad t x) := .of [x]
instance : Steady (emitStore x y) := .of [x, y]
instance : Steady (emitGep t x xs) := .of (x :: xs)
instance : Steady (emitCall x xs) := .of (x :: xs)
instance {o : Ir.Comparison} : Steady (emitCompare o x y) := .of [x, y]
instance {op : Ir.BinOp} : Steady (emitBin op x y) := .of [x, y]
instance : Steady (emitBitcast x t) := .of [x]
instance : Steady (emitExtract x i) := .of [x]
instance : Steady (emitInsert x y i) := .of [x, y]
instance : Steady (funcOperand i) := .of []
instance {p : Prototype} : Steady (functionFor p) := .of []

end Instructions

/-! ## One instruction -/

/-- A world in which an instruction has been executed. -/
def wrote (w : World) (id : Nat) (v : Value) (m : Memory) : World :=
  { w with memory := m, regs := w.regs.insert id v }

theorem wrote_self : (wrote w id v m).regs[id]? = some v := by
  simp [wrote]

theorem wrote_other {j : Nat} (h : j ≠ id) : (wrote w id v m).regs[j]? = w.regs[j]? := by
  simp only [wrote]
  rw [Std.HashMap.getElem?_insert, if_neg (by simpa using fun h' => h h'.symm)]

variable {b k n : Nat} {i : Inst}

theorem moves_wrote (hC : Hosted A T C) (hi : C.body.Has b k i) (hn : n ≤ i.id)
    (hm : w.memory.Later m) : Moves C b k n w (wrote w i.id v m) where
  regs id hid := by
    refine wrote_other ?_
    rintro rfl
    rcases hid with hid | hid
    · omega
    · exact not_isSlot_of_has hC.ssa hi hid
  memory := hm
  slots _ ho := ho

/-- Where an emitted instruction is found. -/
structure Emitted (C : Call) (s : State) (f : Func) (s' : State) (f' : Func) (i : Inst) :
    Prop where
  block : s'.block = s.block
  code : (f'.code s'.block).length = (f.code s.block).length + 1
  regs : f'.nextReg = f.nextReg + 1
  slots : s'.slots = s.slots
  has : C.body.Has s.block (f.code s.block).length i

theorem emitted {r : Operand} (hp : Placed s f) (hrun : emit t op env s = .ok r s')
    (hx : Extends s f s' f') (hW : Within T C s' f') (hop : op.incoming? = none) :
    r = .reg f.nextReg t ∧ Emitted C s f s' f' { id := f.nextReg, ty := t, op } := by
  obtain ⟨rfl, he⟩ := emit_ok hrun hp.func
  obtain rfl : f' = f.push s.block "" t op := Option.some.inj (hx.placed.func.symm.trans he.func)
  have hcode : (f.push s.block "" t op).code s.block =
      f.code s.block ++ [{ id := f.nextReg, ty := t, op }] := by
    rw [Ir.Func.code_push hp.lt, if_pos rfl]
  have hhas : (f.push s.block "" t op).Has s.block (f.code s.block).length
      { id := f.nextReg, ty := t, op } := by
    rw [Func.Has, hcode]
    simp
  obtain ⟨i', hi', hbecomes⟩ := hW.keeps.has _ _ _ hhas
  rw [hbecomes.eq_of_not_phi hop] at hi'
  refine ⟨rfl, he.block, ?_, rfl, he.slots, hi'⟩
  rw [he.block, hcode]
  simp

/-- Control is behind an emitted instruction. -/
theorem Emitted.standing (h : Emitted C s f s' f' i) :
    standing C s' f' w = C.here s.block ((f.code s.block).length + 1) w := by
  rw [Lowering.standing, h.code, h.block]

/-- An instruction that allocates nothing makes no stack slot. -/
theorem Emitted.slotless (h : Emitted C s f s' f' i) (ha : i.op.isAlloca = false) :
    ∀ j i', C.body.Has 0 j i' → i'.op.isAlloca →
      (s'.block = 0 → j < (f'.code s'.block).length) → s.block = 0 →
        j < (f.code s.block).length := by
  intro j i' hi' ha' hj hb
  have hj := hj (h.block.trans hb)
  have hhas := h.has
  rw [h.code] at hj
  rw [hb] at hj hhas ⊢
  by_cases hjk : j = (f.code 0).length
  · subst hjk
    obtain rfl := Option.some.inj (hi'.symm.trans hhas)
    rw [ha] at ha'
    cases ha'
  · omega

theorem Emitted.ready (h : Emitted C s f s' f' i)
    (hr : Ready C s.block (f.code s.block).length w)
    (hm : Moves C s.block (f.code s.block).length n w w') (ha : i.op.isAlloca = false)
    (hslots : w'.slots = w.slots) : Ready C s'.block (f'.code s'.block).length w' :=
  hr.move hm (h.slotless ha) fun _ ho => .inl (hslots ▸ ho)

/-! ## The judgement -/

/-- What the code of a piece does. -/
def Runs (A : Interp.Fault → Prop) (T : Setting) (L : Facts) (m : Memory) (x : Build α)
    (Q : α → Facts → Memory → Prop) : Prop :=
  ∀ ⦃s : State⦄ ⦃a : α⦄ ⦃s' : State⦄ ⦃f f' : Func⦄, Placed s f → f.term? s.block = none →
    x T.env s = .ok a s' → Extends s f s' f' → f'.term? s'.block = none →
    ∀ ⦃C : Call⦄ ⦃w : World⦄ ⦃G : Interp.Config → Prop⦄, Hosted A T C → Within T C s' f' →
      Ready C s.block (f.code s.block).length w → w.memory = m → Holds C L f.nextReg w →
      Goal A C.rest G →
      (∀ L' w', L ⊆ L' → Moves C s.block (f.code s.block).length f.nextReg w w' →
        Ready C s'.block (f'.code s'.block).length w' → Holds C L' f'.nextReg w' →
        Q a L' w'.memory → G (standing C s' f' w')) →
      G (standing C s f w)

/-- A slot that is there stays so through a piece. -/
theorem Extends.isSlot (h : Extends s f s' f') (hp : Placed s f) {F : Func}
    (hid : IsSlot F s.block (f.code s.block).length id) :
    IsSlot F s'.block (f'.code s'.block).length id := by
  obtain ⟨j, i, hi, ha, heq, hj⟩ := hid
  refine ⟨j, i, hi, ha, heq, fun hb => ?_⟩
  have hlt := hp.lt
  have hsame : s.block = s'.block := by
    rcases h.block with hblock | hblock
    · exact hblock.symm
    · omega
  obtain ⟨extra, hcode, -⟩ := h.evolves.first
  rw [← hsame, hcode, List.length_append]
  have := hj (hsame.trans hb)
  omega

section Rules

variable {x : Build α} {y : α → Build β} {Q : α → Facts → Memory → Prop}
variable {R : β → Facts → Memory → Prop}

theorem Runs.mono {Q' : α → Facts → Memory → Prop} (h : Runs A T L m x Q)
    (hQ : ∀ a L' m', L ⊆ L' → Q a L' m' → Q' a L' m') : Runs A T L m x Q' := by
  intro s a s' f f' hp hopen hrun hx hopen' C w G hC hW hr hmem hL hG hnext
  refine h hp hopen hrun hx hopen' hC hW hr hmem hL hG fun L' w' hsub hm hr' hL' hq => ?_
  exact hnext L' w' hsub hm hr' hL' (hQ a L' w'.memory hsub hq)

/-- Pieces one after the other. -/
theorem Runs.bind [Steady x] [∀ a, Steady (y a)] (hx : Runs A T L m x Q)
    (hy : ∀ a L' m', L ⊆ L' → Q a L' m' → Runs A T L' m' (y a) R) : Runs A T L m (x >>= y) R := by
  intro s c s'' f f'' hp hopen hrun hx'' hopen'' C w G hC hW hr hmem hL hG hnext
  obtain ⟨a, s', hrun1, hrun2⟩ := bind_ok hrun
  obtain ⟨f', hx1, hopen'⟩ := Steady.extends_of_ok hp hopen hrun1
  obtain ⟨g, hx2, -⟩ := Steady.extends_of_ok hx1.placed hopen' hrun2
  obtain rfl : g = f'' := hx''.func_eq hx2.placed
  refine hx hp hopen hrun1 hx1 hopen' hC (hW.back hx2) hr hmem hL hG
    fun L' w' hsub hm hr' hL' hq => ?_
  refine hy a L' w'.memory hsub hq hx1.placed hopen' hrun2 hx2 hopen'' hC hW hr' rfl hL' hG
    fun L'' w'' hsub' hm' hr'' hL'' hq' => ?_
  refine hnext L'' w'' (List.Subset.trans hsub hsub') ?_ hr'' hL'' hq'
  exact hm.trans hm' hx1.keeps.regs fun id hid => hx1.isSlot hp hid

theorem Runs.pure {a : α} (h : Q a L m) : Runs A T L m (pure a) Q := by
  intro s b s' f f' hp hopen hrun hx hopen' C w G hC hW hr hmem hL hG hnext
  obtain ⟨rfl, rfl⟩ := pure_ok hrun
  obtain rfl : f = f' := hx.func_eq hp
  exact hnext L w (List.Subset.refl L) .refl hr hL (hmem ▸ h)

theorem Runs.throw {e : Fault} : Runs A T L m (throw e : Build α) Q :=
  fun _ _ _ _ _ _ _ hrun => absurd hrun throw_ne_ok

theorem Runs.violation {v : Violation} : Runs A T L m (violation v : Build α) Q := .throw

theorem Runs.crash : Runs A T L m (crash : Build α) Q := .throw

theorem Runs.ite {c : Prop} [Decidable c] {z : Build α} (hx : c → Runs A T L m x Q)
    (hz : ¬ c → Runs A T L m z Q) : Runs A T L m (if c then x else z) Q := by
  split
  · next hc => exact hx hc
  · next hc => exact hz hc

/-- Something is looked up first. -/
theorem Runs.after [∀ a, Steady (y a)] (hx : Quiet x)
    (hy : ∀ s a s', x T.env s = .ok a s' → Tables s T.final → Tables s' T.final →
      Runs A T L m (y a) R) : Runs A T L m (x >>= y) R := by
  intro s c s'' f f'' hp hopen hrun hx'' hopen'' C w G hC hW hr hmem hL hG hnext
  obtain ⟨a, s', hrun1, hrun2⟩ := bind_ok hrun
  have hs := hx hrun1
  have hp' := hs.placed hp
  have hopen' : f.term? s'.block = none := by rw [hs.block]; exact hopen
  obtain ⟨g, hx2, -⟩ := Steady.extends_of_ok hp' hopen' hrun2
  obtain rfl : g = f'' := hx''.func_eq hx2.placed
  have htables := hx2.framed.toTables.trans hW.tables
  have hrest := hy s a s' hrun1 (hs.framed.toTables.trans htables) htables hp' hopen' hrun2 hx2
    hopen'' (C := C) (w := w) (G := G)
  rw [standing] at hrest
  rw [hs.block] at hrest
  exact hrest hC hW hr hmem hL hG hnext

/-- What must be there is there. -/
theorem Runs.require [∀ a, Steady (y a)] {o : Option α}
    (hy : ∀ a, o = some a → Runs A T L m (y a) R) : Runs A T L m (require o >>= y) R :=
  .after .require fun _ a _ hrun _ _ => hy a (require_ok hrun).1

theorem Runs.getProgram {y : Program → Build β} [∀ p, Steady (y p)]
    (hy : Runs A T L m (y T.env.program) R) : Runs A T L m (getProgram >>= y) R :=
  .after quiet_getProgram fun _ _ _ hrun _ _ => (getProgram_ok hrun).1 ▸ hy

end Rules

/-! ## What operands stand for -/

theorem typeDefs_ok {defs : Ir.TypeDefs} (h : typeDefs env s = .ok defs s') :
    s.module.types = defs ∧ s = s' := by
  have h2 := get_then h
  exact pure_ok h2

theorem Knows.mono (h : Knows T L x v) (hsub : L ⊆ L') : Knows T L' x v :=
  h.imp_left (@hsub _)

theorem knows_of_mem (h : (x, v) ∈ L) : Knows T L x v := .inl h

/-- An operand stands for a value and has a type. -/
structure Gives (T : Setting) (L : Facts) (x : Operand) (v : Value) (t : Ty) : Prop where
  knows : Knows T L x v
  type : x.ty = t

theorem Gives.mono (h : Gives T L x v t) (hsub : L ⊆ L') : Gives T L' x v t :=
  ⟨h.knows.mono hsub, h.type⟩

/-! ## Calls -/

/-- What a function does when it is called. -/
def Serves (A : Interp.Fault → Prop) (T : Setting) (i : Nat) (vs : List Value) (m : Memory)
    (Q : Value → Memory → Prop) : Prop :=
  ∀ ⦃M : Interp.Machine⦄ ⦃stack : List Interp.Task⦄ ⦃G : Interp.Config → Prop⦄,
    M.code = T.final.module → M.natives = T.natives → M.depth = T.depth → M.memory = m →
    Goal A stack G →
    (∀ (M' : Interp.Machine) v, M'.code = M.code → M'.natives = M.natives →
      M'.depth = M.depth → m.Later M'.memory → Q v M'.memory →
      G { machine := M', stack, activity := .yield v }) →
    G { machine := M, stack, activity := .invoke i vs }

theorem Serves.mono {i : Nat} {Q' : Value → Memory → Prop} (h : Serves A T i vs m Q)
    (hQ : ∀ v m', Q v m' → Q' v m') : Serves A T i vs m Q' := by
  intro M stack G hcode hnatives hdepth hmem hG hnext
  exact h hcode hnatives hdepth hmem hG fun M' v hc hn hd hm hq =>
    hnext M' v hc hn hd hm (hQ _ _ hq)

theorem runs_emitCall {i : Nat} {name : String} {offset : Int64} {xs : List Operand}
    (hx : Knows T L x (.ptr ⟨.function i name, offset⟩)) (hxs : List.Forall₂ (Knows T L) xs vs)
    (hserves : Serves A T i vs m Q) :
    Runs A T L m (emitCall x xs) (fun r L' m' => ∃ v t, x.ty.resultType? = some t ∧
      Gives T L' r v t ∧ Q v m') := by
  unfold emitCall emitCallFrom
  cases ht : x.ty.resultType? with
  | none =>
    change Runs A T L m (currentBlock >>= fun _ => Lowering.crash) _
    exact .after quiet_currentBlock fun _ _ _ _ _ _ => .crash
  | some t =>
    change Runs A T L m (emit t (.call x xs)) _
    intro s r s' f f' hp hopen hrun hx' hopen' C w G hC hW hr hmem hL hG hnext
    obtain ⟨rfl, he⟩ := emitted hp hrun hx' hW rfl
    subst hmem
    have hex := Interp.execute_call (b := s.block) (k := (f.code s.block).length)
      (m := w.memory) (hx.means hC.code hL) (hxs.imp fun _ _ h => h.means hC.code hL)
    refine hG.back _ _ (Interp.step_call he.has hex) ?_
    refine hserves (G := G) hC.code hC.natives hC.depth rfl (hG.frame _)
      fun M' v hcode hnatives hdepth hm hq => ?_
    -- the value comes back to the instruction
    have hM' : M' = C.machineIn { w with memory := M'.memory, output := M'.output } := by
      obtain ⟨c, mem, out, d, ns⟩ := M'
      simp only [Call.machineIn] at hcode hnatives hdepth ⊢
      rw [hcode, hnatives, hdepth]
    rw [hM']
    refine hG.back _ _ (Interp.step_deliver he.has rfl rfl) ?_
    have hmoves : Moves C s.block (f.code s.block).length f.nextReg w
        { wrote w f.nextReg v M'.memory with output := M'.output } :=
      ⟨(moves_wrote hC he.has (Nat.le_refl _) hm).regs, hm, fun _ ho => ho⟩
    have hL' : Holds C ((.reg f.nextReg t, v) :: L) f'.nextReg
        { wrote w f.nextReg v M'.memory with output := M'.output } := by
      rw [he.regs]
      exact (hL.move hmoves (Nat.le_succ _)).cons (Nat.lt_succ_self _)
        (wrote_self (m := M'.memory))
    have hgoal := hnext _ _ (List.subset_cons_self _ _) hmoves
      (he.ready hr hmoves rfl rfl) hL'
      ⟨v, t, rfl, ⟨knows_of_mem (by simp), rfl⟩, hq⟩
    rw [he.standing] at hgoal
    exact hgoal

end Tenure.Lowering

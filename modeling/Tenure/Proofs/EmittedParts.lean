import Tenure.Proofs.Branching
import Tenure.Proofs.Emission

/-!
# The parts of lowering emit code in order

One statement for every part of lowering below expressions: given operands that
are defined, it writes code that is in order, and what it hands out is defined
where it stops.  The parts with control flow of their own are `buildLoop`,
`checkBounds` and `releaseShared`; the rest is written from these and from single
instructions.
-/

namespace Tenure.Lowering

open Ir (Ty Const Operand Op Term Func Comparison BinOp)
open Ir.Func (Dominators)

variable {α β : Type} {U : List Operand} {env : Env} {s s' : State} {f : Func}
variable {x length cond : Operand} {body : Operand → Build Unit} {r : Reference} {h : Held}

/-! ## Found by shape -/

set_option synthInstance.maxSize 4000

/-- What values of a type hand out. -/
class Hands (α : Type) where
  operands : α → List Operand

instance (priority := low) Hands.nothing : Hands α := ⟨fun _ => []⟩
instance : Hands Operand := ⟨fun x => [x]⟩
instance : Hands (List Operand) := ⟨fun xs => xs⟩
instance : Hands Held := ⟨fun h => [h.value]⟩

@[simp] theorem operands_nothing {a : α} : @Hands.operands α .nothing a = [] := rfl
@[simp] theorem operands_operand : Hands.operands x = [x] := rfl
@[simp] theorem operands_list {xs : List Operand} : Hands.operands xs = xs := rfl
@[simp] theorem operands_held : Hands.operands h = [h.value] := rfl

/-- `Given` as a class, so that it is found by the shape of the list. -/
class Handed (U : List Operand) (x : Operand) : Prop where
  given : Given U x

/-- All that a value hands out has been handed in. -/
class Provided [Hands α] (U : List Operand) (a : α) : Prop where
  given : ∀ x ∈ Hands.operands a, Given U x

section Handed

variable {V xs : List Operand} {y : Operand}

instance {c : Const} : Handed U (.const c) := ⟨given_const⟩
instance {n : Int} : Handed U (.i32 n) := ⟨given_const⟩
instance {n : Int} : Handed U (.i64 n) := ⟨given_const⟩
instance {r : RuntimeFunc} : Handed U r.operand := ⟨given_const⟩
instance : Handed U voidValue := ⟨given_const⟩
instance : Handed (x :: U) x := ⟨by simp⟩
instance : Handed (Hands.operands x ++ U) x := ⟨given_of_mem (List.mem_cons_self ..)⟩
instance : Handed (Hands.operands h ++ U) h.value := ⟨given_of_mem (List.mem_cons_self ..)⟩
instance [hx : Handed U x] : Handed (y :: U) x := ⟨by simp [hx.given]⟩
instance [hx : Handed U x] : Handed (V ++ U) x := ⟨hx.given.append⟩

instance {a : α} : @Provided α .nothing U a := ⟨fun _ hx => by cases hx⟩
instance [hx : Handed U x] : Provided U x := ⟨by simpa using hx.given⟩
instance [hh : Handed U h.value] : Provided U h := ⟨by simpa using hh.given⟩
instance [Handed U x] : Provided U (Held.int x) := inferInstanceAs (Provided U (Held.mk x _))
instance [Handed U x] : Provided U (Held.bool x) := inferInstanceAs (Provided U (Held.mk x _))
instance [Handed U x] : Provided U (Held.str x) := inferInstanceAs (Provided U (Held.mk x _))
instance : Provided U Held.void := inferInstanceAs (Provided U (Held.mk voidValue _))
instance [Hands α] {a : α} [ha : Provided U a] : Provided (y :: U) a :=
  ⟨fun x hx => (ha.given x hx).append (V := [y])⟩
instance [Hands α] {a : α} [ha : Provided U a] : Provided (V ++ U) a :=
  ⟨fun x hx => (ha.given x hx).append⟩
instance [Hands α] {a : α} : Provided (Hands.operands a ++ U) a :=
  ⟨fun _ hx => given_of_mem (List.mem_append_left _ hx)⟩
instance : Provided U ([] : List Operand) := ⟨fun _ hx => by cases hx⟩
instance : Provided xs xs := ⟨fun _ => given_of_mem⟩
instance [hx : Handed U x] [hxs : Provided U xs] : Provided U (x :: xs) :=
  ⟨List.forall_mem_cons.mpr ⟨hx.given, hxs.given⟩⟩

end Handed

/-- `Emits` as a class, so that it is found by the shape of a part. -/
class Orderly [Hands α] (U : List Operand) (x : Build α) : Prop where
  emits : Emits U x Hands.operands

section Rules

variable [Hands α] [Hands β] {x y : Build α} {k : α → Build β}

instance [hx : Orderly U x] [hk : ∀ a, Orderly (Hands.operands a ++ U) (k a)] :
    Orderly U (x >>= k) := ⟨hx.emits.bind fun a => (hk a).emits⟩
instance {a : α} [ha : Provided U a] : Orderly U (pure a) := ⟨.pure ha.given⟩
instance {v : Violation} : Orderly U (violation v : Build α) := ⟨.violation⟩
instance : Orderly U (crash : Build α) := ⟨.crash⟩
instance {c : Prop} [Decidable c] [hx : Orderly U x] [hy : Orderly U y] :
    Orderly U (if c then x else y) := ⟨.ite (fun _ => hx.emits) fun _ => hy.emits⟩

end Rules

instance {a : Option α} : @Orderly α .nothing U (require a) := ⟨Quiet.require.emits⟩
instance : Orderly U (get : Build State) := ⟨Quiet.get.emits⟩
instance : Orderly U getProgram := ⟨quiet_getProgram.emits⟩
instance : Orderly U currentBlock := ⟨quiet_currentBlock.emits⟩
instance : Orderly U typeDefs := ⟨quiet_typeDefs.emits⟩
instance {n : Symbol} : Orderly U (structIndex n) := ⟨quiet_structIndex.emits⟩
instance {n : Symbol} : Orderly U (interfaceIndex n) := ⟨quiet_interfaceIndex.emits⟩
instance {i : Nat} : Orderly U (structAt i) := ⟨quiet_structAt.emits⟩
instance {i : Nat} : Orderly U (interfaceAt i) := ⟨quiet_interfaceAt.emits⟩
instance : Orderly U (lowerReference r) := ⟨quiet_lowerReference.emits⟩
instance {t : Option Reference} : Orderly U (lowerType t) := ⟨quiet_lowerType.emits⟩
instance {r : Referend} : Orderly U (arrayLayout r) := ⟨quiet_arrayLayout.emits⟩

/-! ## Single instructions -/

section Instructions

variable {y : Operand} {xs : List Operand} {t : Ty} {i : Nat} [hx : Handed U x]

instance : Orderly U (emitLoad t x) := ⟨emit_emits rfl (by simpa [Op.operands] using hx.given)⟩

instance : Orderly U (emitBitcast x t) := ⟨emit_emits rfl (by simpa [Op.operands] using hx.given)⟩

instance : Orderly U (emitTrunc x t) :=
  ⟨.ite (fun _ => emit_emits rfl (by simpa [Op.operands] using hx.given)) fun _ => .crash⟩

instance [hxs : Provided U xs] : Orderly U (emitGep t x xs) :=
  ⟨.after quiet_typeDefs fun _ => .after .require fun _ =>
    emit_emits rfl (List.forall_mem_cons.mpr ⟨hx.given, hxs.given⟩)⟩

instance [hxs : Provided U xs] : Orderly U (emitCall x xs) := by
  unfold emitCall emitCallFrom
  cases x.ty.resultType? with
  | none => exact ⟨.after quiet_currentBlock fun _ => .crash⟩
  | some t => exact ⟨emit_emits (t := t) rfl (List.forall_mem_cons.mpr ⟨hx.given, hxs.given⟩)⟩

instance : Orderly U (emitExtract x i) :=
  ⟨.after quiet_typeDefs fun _ => .after .require fun _ =>
    emit_emits rfl (by simpa [Op.operands] using hx.given)⟩

section Two

variable [hy : Handed U y]

instance : Orderly U (emitStore x y) := by
  unfold emitStore
  split
  · refine ⟨.ite (fun _ => ?_) fun _ => .crash⟩
    exact (emit_emits rfl (by simp [Op.operands, hx.given, hy.given])).bind fun _ => .pure (by simp)
  · infer_instance

instance {c : Comparison} : Orderly U (emitCompare c x y) := by
  unfold emitCompare emitCompareFrom
  by_cases h : x.ty.isComparable
  · simp only [h, if_true]
    exact ⟨emit_emits rfl (by simp [Op.operands, hx.given, hy.given])⟩
  · simp only [h]
    exact ⟨.after quiet_currentBlock fun _ => .crash⟩

instance {op : BinOp} : Orderly U (emitBin op x y) :=
  ⟨emit_emits rfl (by simp [Op.operands, hx.given, hy.given])⟩

instance : Orderly U (emitInsert x y i) :=
  ⟨.after quiet_typeDefs fun _ => .after .require fun _ => .ite
    (fun _ => emit_emits rfl (by simp [Op.operands, hx.given, hy.given])) fun _ => .crash⟩

end Two

end Instructions

instance {t : Ty} {name : String} : Orderly U (entryAlloca t name) := ⟨entryAlloca_emits⟩

instance {i : Nat} : Orderly U (funcOperand i) :=
  ⟨.after .get fun _ => .after .require fun _ => .pure (by simp)⟩

/-! ## Loops -/

variable {u : Unit} {b : Nat}

theorem emitCompareFrom_ok {c : Comparison} {y r : Operand}
    (h : emitCompareFrom b c x y env s = .ok r s') (hf : s.module.funcs[s.func]? = some f) :
    r = .reg f.nextReg .i1 ∧ Edited s s' (f.push b "" .i1 (.icmp c x y)) := by
  unfold emitCompareFrom at h
  split at h
  · exact emitTo_ok h hf
  · exact absurd h throw_ne_ok

/-- What a loop is made of: the head, the body, and the way back. -/
theorem buildLoop_ok (h : buildLoop length body env s = .ok u s')
    (hf : s.module.funcs[s.func]? = some f) :
    ∃ x y z s1 v s2, Moved s s1 (f.count s.block length x y z) ∧
      s1.block = f.blocks.size + 1 ∧ body (.reg f.nextReg .i64) env s1 = .ok v s2 ∧
      ∀ f2, s2.module.funcs[s2.func]? = some f2 → f2.term? s2.block = none ∧
        Moved s2 s' (f2.close f.blocks.size f.nextReg s2.block) ∧
        s'.block = f.blocks.size + 2 := by
  obtain ⟨_, _, h1, h⟩ := bind_ok h
  obtain ⟨rfl, rfl⟩ := currentBlock_ok h1
  obtain ⟨_, _, h1, h⟩ := bind_ok h
  obtain ⟨rfl, x, e1⟩ := addBlock_ok h1 hf
  obtain ⟨_, _, h1, h⟩ := bind_ok h
  obtain ⟨rfl, y, e2⟩ := addBlock_ok h1 e1.func
  obtain ⟨_, _, h1, h⟩ := bind_ok h
  obtain ⟨rfl, z, e3⟩ := addBlock_ok h1 e2.func
  obtain ⟨_, _, h1, h⟩ := bind_ok h
  have e4 := terminateBlock_ok h1 e3.func
  obtain ⟨_, _, h1, h⟩ := bind_ok h
  obtain ⟨rfl, rfl⟩ := currentFunc_ok h1 e4.func
  obtain ⟨_, _, h1, h⟩ := bind_ok h
  obtain ⟨rfl, e5⟩ := emitTo_ok h1 e4.func
  obtain ⟨_, _, h1, h⟩ := bind_ok h
  obtain ⟨rfl, e6⟩ := emitCompareFrom_ok h1 e5.func
  obtain ⟨_, _, h1, h⟩ := bind_ok h
  have e7 := terminateBlock_ok h1 e6.func
  obtain ⟨_, s1, h1, h⟩ := bind_ok h
  obtain ⟨m8, hb8⟩ := setBlock_ok h1 e7.func
  obtain ⟨v, s2, hbody, h⟩ := bind_ok h
  have m := ((((((e1.trans e2).trans e3).trans e4).trans e5).trans e6).trans e7).toMoved.trans m8
  simp only [Ir.Func.blocks_size_addBlock] at m hb8
  refine ⟨x, y, z, s1, v, s2, m, hb8, hbody, fun f2 hf2 => ?_⟩
  replace h := terminated_then h hf2
  cases hopen : f2.term? s2.block with
  | some t =>
    rw [hopen] at h
    obtain ⟨_, _, h1, h⟩ := bind_ok h
    exact absurd h1 throw_ne_ok
  | none =>
    rw [hopen] at h
    obtain ⟨_, _, h1, h⟩ := bind_ok h
    obtain ⟨rfl, e1⟩ := emit_ok h1 hf2
    obtain ⟨_, _, h1, h⟩ := bind_ok h
    obtain ⟨hlast, rfl⟩ := currentBlock_ok h1
    rw [e1.block] at hlast
    obtain ⟨_, _, h1, h⟩ := bind_ok h
    have e2 := modifyFunc_ok h1 e1.func
    rw [← hlast] at e2
    obtain ⟨_, _, h1, h⟩ := bind_ok h
    have e3 := terminate_ok h1 e2.func
    rw [e2.block, e1.block] at e3
    obtain ⟨m4, hb4⟩ := setBlock_ok h e3.func
    exact ⟨rfl, ((e1.trans e2).trans e3).toMoved.trans m4, by simpa using hb4⟩

theorem buildLoop_emits (hl : Given U length)
    (hbody : ∀ index, Emits (index :: U) (body index) (fun _ => [])) :
    Emits U (buildLoop length body) (fun _ => []) := by
  intro env s u s' f hp hopen hrun
  obtain ⟨x, y, z, s1, v, s2, m1, hb1, hrun1, hlast⟩ := buildLoop_ok hrun hp.func
  -- up to the body
  have hev1 := Ir.Func.evolves_count (v := length) (x := x) (y := y) (z := z) hp.lt hopen
  obtain ⟨hp1, hopen1⟩ := m1.entered hev1 hp hb1 (.inl rfl)
  -- the body
  obtain ⟨f2, hg, hopen2⟩ := hbody _ hp1 hopen1 hrun1
  obtain ⟨-, m2, hb2⟩ := hlast f2 hg.placed.func
  have hev2 := hg.evolvesOpen hopen2
  rw [hb1] at hev2
  have hwhere : s2.block = f.blocks.size + 1 ∨ f.blocks.size + 3 ≤ s2.block := by
    simpa using (hev2.opened s2.block rfl).1
  -- the way back
  have hclosed := Ir.Func.built_close (a := f.blocks.size) (r := f.nextReg) hg.placed.lt hopen2
  have hev : f.Evolves s.block (f2.close f.blocks.size f.nextReg s2.block) (· = s'.block) := by
    refine ((hev1.continue (.inl rfl) hev2).close (.inr rfl) (Nat.le_refl _)).congr fun c => ?_
    omega
  refine ⟨_, Grown.ofOpen (m2.placed hg.placed hclosed.keeps (hev.opened _ rfl).2.1)
    ((m1.framed.trans hg.framed).trans m2.framed) hev fun D hD hU => ?_⟩
  obtain ⟨hD1, hindex⟩ := hD.count (x := x) (y := y) (z := z) hp.lt hopen
    (Available.of_given hl hU)
  have hU1 : ∀ u ∈ Operand.reg f.nextReg .i64 :: U,
      Available (f.count s.block length x y z) (D.lead f.blocks.size s.block) s1.block u := by
    rw [hb1]
    intro u hu
    rcases List.mem_cons.mp hu with rfl | hu
    · exact hindex
    · refine (hU u hu).grow hev1.built.keeps fun d hd => ?_
      exact Dominators.lead_body.mpr (.inr (Dominators.lead_head.mpr (.inr hd)))
  obtain ⟨D2, hD2, hagree, hmono, -⟩ := hg.carries _ hD1 hU1
  rw [hb1] at hmono
  rw [Ir.Func.blocks_size_count] at hagree
  have hhead : f2.code f.blocks.size = [f.loopIndex s.block, f.loopTest length] := by
    have hlt := hp.lt
    rw [hev2.code_kept (by simp) (by omega) (by omega), Ir.Func.code_count, if_pos rfl]
  have hmay : Ir.Func.Formed.MayBranch f2 D2 s2.block f.blocks.size := by
    refine ⟨by have := hp.lt; omega, ?_, fun d hd => .inr (hmono d ?_)⟩
    · have := hev2.size
      rw [Ir.Func.blocks_size_count] at this
      omega
    · exact Dominators.lead_body.mpr (.inr ((hagree _ (by omega) d).mp hd))
  refine ⟨D2, ?_, ?_, ?_, by simp⟩
  · refine hD2.close hg.placed.lt hopen2 hmay ?_ (by omega) hhead rfl rfl ?_
    · exact Available.grow hindex hg.keeps hmono
    · intro i hi
      rw [List.mem_singleton.mp hi]
      rfl
  · intro b hb d
    rw [hagree b (by omega) d]
    exact Dominators.lead_of_lt hb
  · intro d hd
    rw [hb2, hagree _ (by omega) d, Dominators.lead_exit, Dominators.lead_head]
    exact .inr (.inr hd)

/-! ## Forks -/

/-- Two blocks are added, and the current block branches to one of them. -/
theorem fork_ok {l r : String} {k : Nat → Nat → Build α} {v : α}
    (h : (do
      let a ← addBlock l
      let b ← addBlock r
      terminate (.condBr cond (.block a) (.block b))
      k a b : Build α) env s = .ok v s') (hf : s.module.funcs[s.func]? = some f) :
    ∃ x y s1, Edited s s1 (f.fork s.block cond x y) ∧
      k f.blocks.size (f.blocks.size + 1) env s1 = .ok v s' := by
  obtain ⟨_, _, h1, h⟩ := bind_ok h
  obtain ⟨rfl, x, e1⟩ := addBlock_ok h1 hf
  obtain ⟨_, _, h1, h⟩ := bind_ok h
  obtain ⟨rfl, y, e2⟩ := addBlock_ok h1 e1.func
  obtain ⟨_, s1, h1, h⟩ := bind_ok h
  have e3 := terminate_ok h1 e2.func
  rw [e2.block, e1.block] at e3
  simp only [Ir.Func.blocks_size_addBlock] at e3 h
  exact ⟨x, y, s1, (e1.trans e2).trans e3, h⟩

/-- Something is done only if a condition holds. -/
def guarded (l r : String) (cond : Operand) (body : Build Unit) : Build Unit := do
  let inside ← addBlock l
  let after ← addBlock r
  terminate (.condBr cond (.block inside) (.block after))
  setBlock inside
  body
  terminate (.br (.block after))
  setBlock after

/-- What a guarded part is made of. -/
theorem guarded_ok {l r : String} {body : Build Unit} (h : guarded l r cond body env s = .ok u s')
    (hf : s.module.funcs[s.func]? = some f) :
    ∃ x y s1 v s2, Moved s s1 (f.fork s.block cond x y) ∧ s1.block = f.blocks.size ∧
      body env s1 = .ok v s2 ∧
      ∀ f2, s2.module.funcs[s2.func]? = some f2 →
        Moved s2 s' (f2.terminate s2.block (.br (.block (f.blocks.size + 1)))) ∧
        s'.block = f.blocks.size + 1 := by
  obtain ⟨x, y, s0, e1, h⟩ := fork_ok h hf
  obtain ⟨_, s1, h1, h⟩ := bind_ok h
  obtain ⟨m1, hb1⟩ := setBlock_ok h1 e1.func
  obtain ⟨v, s2, hbody, h⟩ := bind_ok h
  refine ⟨x, y, s1, v, s2, e1.toMoved.trans m1, hb1, hbody, fun f2 hf2 => ?_⟩
  obtain ⟨_, _, h1, h⟩ := bind_ok h
  have e2 := terminate_ok h1 hf2
  obtain ⟨m2, hb2⟩ := setBlock_ok h e2.func
  exact ⟨e2.toMoved.trans m2, hb2⟩

theorem guarded_emits {l r : String} {body : Build Unit} (hc : Given U cond)
    (hbody : Emits U body (fun _ => [])) : Emits U (guarded l r cond body) (fun _ => []) := by
  intro env s u s' f hp hopen hrun
  obtain ⟨x, y, s1, v, s2, m1, hb1, hrun1, hlast⟩ := guarded_ok hrun hp.func
  have hev1 := Ir.Func.evolves_fork (v := cond) (x := x) (y := y) hp.lt hopen
  obtain ⟨hp1, hopen1⟩ := m1.entered hev1 hp hb1 (.inl rfl)
  obtain ⟨f2, hg, hopen2⟩ := hbody hp1 hopen1 hrun1
  obtain ⟨m2, hb2⟩ := hlast f2 hg.placed.func
  have hev2 := hg.evolvesOpen hopen2
  rw [hb1] at hev2
  have hwhere : s2.block = f.blocks.size ∨ f.blocks.size + 2 ≤ s2.block := by
    simpa using (hev2.opened s2.block rfl).1
  have hev : f.Evolves s.block (f2.terminate s2.block (.br (.block (f.blocks.size + 1))))
      (· = s'.block) := by
    refine ((hev1.continue (.inl rfl) hev2).terminate (.inr rfl)).congr fun c => ?_
    omega
  have hkeeps : f2.Keeps (f2.terminate s2.block (.br (.block (f.blocks.size + 1)))) :=
    (Ir.Func.Edit.terminate hg.placed.lt hopen2).keeps
  refine ⟨_, Grown.ofOpen (m2.placed hg.placed hkeeps (hev.opened _ rfl).2.1)
    ((m1.framed.trans hg.framed).trans m2.framed) hev fun D hD hU => ?_⟩
  have hD1 := hD.fork (x := x) (y := y) hp.lt hopen (Available.of_given hc hU)
  have hU1 : ∀ u ∈ U, Available (f.fork s.block cond x y) (D.fork f.blocks.size s.block) s1.block
      u := by
    rw [hb1]
    exact fun u hu => (hU u hu).grow hev1.built.keeps fun d hd =>
      Dominators.fork_left.mpr (.inr hd)
  obtain ⟨D2, hD2, hagree, hmono, -⟩ := hg.carries _ hD1 hU1
  rw [hb1] at hmono
  rw [Ir.Func.blocks_size_fork] at hagree
  have hafter : ∀ d, D2 (f.blocks.size + 1) d ↔ d = f.blocks.size + 1 ∨ D s.block d := fun d =>
    (hagree _ (by omega) d).trans (Dominators.fork_right hp.lt)
  have hempty : f2.code (f.blocks.size + 1) = [] := by
    rw [hev2.code_kept (by simp) (by omega) (by omega), Ir.Func.code_fork,
      Ir.Func.code_of_size_le (by omega)]
  refine ⟨D2, ?_, ?_, ?_, by simp⟩
  · refine hD2.terminate hg.placed.lt hopen2 (by simp [Term.operands]) fun v hv => ?_
    obtain rfl := List.mem_singleton.mp hv
    refine ⟨_, rfl, ⟨by omega, ?_, fun d hd => ?_⟩, by simp [hempty]⟩
    · have := hev2.size
      rw [Ir.Func.blocks_size_fork] at this
      omega
    · refine ((hafter d).mp hd).imp_right fun hd => hmono d ?_
      exact Dominators.fork_left.mpr (.inr hd)
  · intro b hb d
    rw [hagree b (by omega) d]
    exact Dominators.fork_of_lt hb
  · intro d hd
    rw [hb2, hafter]
    exact .inr hd

/-- Control goes on only if a condition holds, and ends in a trap if not. -/
def trapUnless (cond : Operand) : Build Unit := do
  let inside ← addBlock "inbounds"
  let outside ← addBlock "outofbounds"
  terminate (.condBr cond (.block inside) (.block outside))
  let _ ← emitCallFrom outside RuntimeFunc.trap.operand []
  terminateBlock outside .unreachable
  setBlock inside

theorem checkBounds_eq {index : Operand} : checkBounds index length = (do
    match (← read).options.bounds with
    | .unchecked => return
    | .trap => trapUnless (← emitCompare .ult index length)) := rfl

/-- A fork whose second way ends in a trap. -/
def trapFork (f : Func) (b : Nat) (cond : Operand) (x y : String) (t : Ty) : Func :=
  ((f.fork b cond x y).push (f.blocks.size + 1) "" t (.call RuntimeFunc.trap.operand [])).terminate
    (f.blocks.size + 1) .unreachable

theorem trapUnless_ok (h : trapUnless cond env s = .ok u s')
    (hf : s.module.funcs[s.func]? = some f) :
    ∃ x y t, Moved s s' (trapFork f s.block cond x y t) ∧ s'.block = f.blocks.size := by
  obtain ⟨x, y, s1, e1, h⟩ := fork_ok h hf
  obtain ⟨_, s2, h1, h⟩ := bind_ok h
  obtain ⟨t, -, h1⟩ := require_then h1
  obtain ⟨-, e2⟩ := emitTo_ok h1 e1.func
  obtain ⟨_, s3, h1, h⟩ := bind_ok h
  have e3 := terminateBlock_ok h1 e2.func
  obtain ⟨m4, hb4⟩ := setBlock_ok h e3.func
  exact ⟨x, y, t, ((e1.trans e2).trans e3).toMoved.trans m4, hb4⟩

theorem evolves_trapFork {v : Operand} {x y : String} {t : Ty} (hb : b < f.blocks.size)
    (hopen : f.term? b = none) : f.Evolves b (trapFork f b v x y t) (· = f.blocks.size) := by
  have hev := (Ir.Func.evolves_fork (v := v) (x := x) (y := y) hb hopen).push
    (n := "") (t := t) (o := .call RuntimeFunc.trap.operand []) (.inr rfl)
    (fun _ => rfl) |>.terminate (t := .unreachable) (.inr rfl)
  exact hev.congr fun c => by omega

theorem trapUnless_emits (hc : Given U cond) : Emits U (trapUnless cond) (fun _ => []) := by
  intro env s u s' f hp hopen hrun
  obtain ⟨x, y, t, m, hb⟩ := trapUnless_ok hrun hp.func
  have hev := evolves_trapFork (v := cond) (x := x) (y := y) (t := t) hp.lt hopen
  rw [← hb] at hev
  refine ⟨_, Grown.ofOpen (m.placed hp hev.built.keeps (hev.opened _ rfl).2.1) m.framed hev
    fun D hD hU => ?_⟩
  have hD1 := hD.fork (x := x) (y := y) hp.lt hopen (Available.of_given hc hU)
  have hlt : f.blocks.size + 1 < (f.fork s.block cond x y).blocks.size := by simp
  have hD2 := hD1.push (n := "") (t := t) (o := .call RuntimeFunc.trap.operand []) hlt rfl
    (by simp [Op.operands, RuntimeFunc.operand, Ir.Func.Known])
  refine ⟨_, hD2.terminate (t := .unreachable) (by simp) ?_ (by simp [Term.operands])
    (by simp [Term.successors]), ?_, ?_, by simp⟩
  · rw [Ir.Func.term?_push, Ir.Func.term?_fork hp.lt, if_neg (by have := hp.lt; omega),
      Ir.Func.term?_of_size_le (by omega)]
  · intro b hb d
    exact Dominators.fork_of_lt hb
  · intro d hd
    rw [hb]
    exact Dominators.fork_left.mpr (.inr hd)

instance [hc : Handed U cond] : Orderly U (trapUnless cond) := ⟨trapUnless_emits hc.given⟩

instance {a b : String} {x : Build Unit} [hc : Handed U cond] [hx : Orderly U x] :
    Orderly U (guarded a b cond x) := ⟨guarded_emits hc.given hx.emits⟩

instance [hl : Handed U length] [hbody : ∀ i, Orderly (i :: U) (body i)] :
    Orderly U (buildLoop length body) := ⟨buildLoop_emits hl.given fun i => (hbody i).emits⟩

instance {index : Operand} [Handed U index] [Handed U length] :
    Orderly U (checkBounds index length) := by
  rw [checkBounds_eq]
  refine ⟨.after .read fun e => @Orderly.emits _ _ _ _ ?_⟩
  split <;> infer_instance

/-! ## Arrays and counts -/

theorem Held.quiet_reference : Quiet h.reference := .require

theorem quiet_nestingFuel : Quiet nestingFuel := quiet_getProgram.bind fun _ => .pure

theorem releaseShared_eq {drop : Build Unit} :
    releaseShared x r drop = (do
      let newCount ← adjustCount x r (-1)
      let isZero ← emitCompare .eq newCount (.i64 0)
      guarded "drop" "dropcont" isZero drop) := rfl

instance : Orderly U h.reference := ⟨Held.quiet_reference.emits⟩
instance : Orderly U nestingFuel := ⟨quiet_nestingFuel.emits⟩

section Counts

variable [Handed U x]

instance : Orderly U (arrayLength x r) := by
  unfold arrayLength
  split <;> infer_instance

instance {index : Operand} [Handed U index] : Orderly U (elementPtr x r index) := by
  unfold elementPtr
  infer_instance

instance [∀ n i a : Operand, Orderly (Hands.operands a ++ (i :: (Hands.operands n ++ U)))
    (body a)] : Orderly U (forEachElement x r body) := by
  unfold forEachElement
  infer_instance

instance : Orderly U (countPtr x r) := by
  unfold countPtr
  split <;> infer_instance

instance {delta : Int} : Orderly U (adjustCount x r delta) := by
  unfold adjustCount
  infer_instance

instance : Orderly U (freeStorage x r) := by
  unfold freeStorage
  split <;> infer_instance

instance : Orderly U (destroyStorage x r) := by
  unfold destroyStorage
  split <;> infer_instance

instance {t : Ty} : Orderly U (allocObject t x) := by
  unfold allocObject
  infer_instance

instance {n : Symbol} : Orderly U (dropStruct x n) := by
  unfold dropStruct
  infer_instance

instance {i : Symbol} : Orderly U (dropThroughTable x i) := by
  unfold dropThroughTable
  dsimp only
  infer_instance

end Counts

/-- Values are visited in order. -/
class Visiting (visit : Held → Build Unit) : Prop where
  orderly : ∀ V h [Handed V h.value], Orderly V (visit h)

section Members

variable {visit : Held → Build Unit} [hvisit : Visiting visit]

instance {ms : List StructMember} {i : Nat} [Handed U x] :
    Orderly U (visitMembers x visit i ms) := by
  have := hvisit.orderly
  induction ms generalizing U i <;> unfold visitMembers <;> infer_instance

instance {r : Referend} [Handed U x] : Orderly U (forEachMember x r visit) := by
  unfold forEachMember
  split <;> infer_instance

instance {drop : Build Unit} [Handed U x]
    [∀ n c : Operand, Orderly (Hands.operands c ++ (Hands.operands n ++ U)) drop] :
    Orderly U (releaseBy visit x r drop) := by
  unfold releaseBy
  simp only [releaseShared_eq]
  split <;> infer_instance

instance {o : Ownership} {l : Location} {r : Referend} [Handed U x] :
    Orderly U (release visit x o l r) := by
  induction r generalizing U x o l <;> unfold release <;> infer_instance

end Members

instance {fuel : Nat} : Visiting (acquireFuel fuel) := by
  induction fuel <;> exact ⟨fun V h _ => by unfold acquireFuel; infer_instance⟩

instance {fuel : Nat} : Visiting (discardFuel fuel) := by
  induction fuel <;> exact ⟨fun V h _ => by unfold discardFuel; infer_instance⟩

instance [Handed U h.value] {fuel : Nat} : Orderly U (acquireFuel fuel h) := Visiting.orderly U h
instance [Handed U h.value] {fuel : Nat} : Orderly U (discardFuel fuel h) := Visiting.orderly U h

instance [Handed U h.value] : Orderly U (acquire h) := by
  unfold acquire
  infer_instance

instance [Handed U h.value] : Orderly U (discard h) := by
  unfold discard
  infer_instance

end Tenure.Lowering

import Tenure.Proofs.Pieces

/-!
# Straight code

Most of what lowering writes is straight: instructions of one block, none of them
a call.  Of such code more can be said than of pieces in general, and with less.
It goes from its beginning to its end in every machine that has the finished code
(`Flows`), and where a call follows it, control comes to that call and to no other
(`Calls`).
-/

namespace Tenure.Interp

/-- Control goes from instruction to instruction: up to the last configuration, no
function is invoked and none is left. -/
def Proceeds : Config → Config → Prop :=
  Relation.ReflTransGen fun c c' => c.activity = .run ∧ c.step = .inl c'

end Tenure.Interp

namespace Tenure.Lowering

open Ir (Ty Operand Op Func Inst)
open Interp (Call World Value Memory Proceeds)

variable {α β : Type} {A : Interp.Fault → Prop} {T : Setting} {C : Call}
variable {s s' s'' : State} {f f' f'' : Func} {w w' w'' : World} {m m' : Memory} {L L' : Facts}

/-! ## What straight code keeps -/

/-- Control goes through straight code: registers that were in use before are as they
were, and so is all else but memory. -/
structure Passes (C : Call) (s : State) (f : Func) (w : World) (s' : State) (f' : Func)
    (w' : World) : Prop where
  proceeds : Proceeds (standing C s f w) (standing C s' f' w')
  output : w'.output = w.output
  slots : w'.slots = w.slots
  regs : ∀ id < f.nextReg, w'.regs[id]? = w.regs[id]?

/-- Straight code makes no stack slot, and what is in the registers of stack slots stays. -/
structure Threads (C : Call) (s : State) (f : Func) (w : World) (s' : State) (f' : Func)
    (w' : World) : Prop extends Passes C s f w s' f' w' where
  slotRegs : C.body.IsSsa → ∀ id, IsSlot C.body s.block (f.code s.block).length id →
    w'.regs[id]? = w.regs[id]?
  slotless : ∀ j i, C.body.Has 0 j i → i.op.isAlloca →
    (s'.block = 0 → j < (f'.code s'.block).length) → s.block = 0 → j < (f.code s.block).length

theorem Threads.refl : Threads C s f w s f w :=
  ⟨⟨.refl, rfl, rfl, fun _ _ => rfl⟩, fun _ _ _ => rfl, fun _ _ _ _ h => h⟩

theorem Threads.trans (h : Threads C s f w s' f' w') (h' : Threads C s' f' w' s'' f'' w'')
    (hp : Placed s f) (hx : Extends s f s' f') : Threads C s f w s'' f'' w'' where
  proceeds := Relation.ReflTransGen.trans h.proceeds h'.proceeds
  output := h'.output.trans h.output
  slots := h'.slots.trans h.slots
  regs id hid := (h'.regs id (Nat.lt_of_lt_of_le hid hx.keeps.regs)).trans (h.regs id hid)
  slotRegs hC id hid := (h'.slotRegs hC id (hx.isSlot hp hid)).trans (h.slotRegs hC id hid)
  slotless j i hi ha hj := h.slotless j i hi ha (h'.slotless j i hi ha hj)

theorem Emitted.threads {i : Inst} (h : Emitted C s f s' f' i) (hid : i.id = f.nextReg)
    (ha : i.op.isAlloca = false)
    (hstep : (Lowering.standing C s f w).step =
      .inl (C.here s.block ((f.code s.block).length + 1) w'))
    (hregs : ∀ id ≠ f.nextReg, w'.regs[id]? = w.regs[id]?) (hslots : w'.slots = w.slots)
    (hout : w'.output = w.output) : Threads C s f w s' f' w' where
  proceeds := .single ⟨rfl, by rw [h.standing]; exact hstep⟩
  output := hout
  slots := hslots
  regs id hlt := hregs id (Nat.ne_of_lt hlt)
  slotRegs hC id hslot := hregs id fun heq =>
    not_isSlot_of_has hC h.has ((hid.trans heq.symm) ▸ hslot)
  slotless := h.slotless ha

theorem Passes.means {x : Operand} {v : Value} (h : Passes C s f w s' f' w')
    (hx : Below f.nextReg x) (hv : C.Means w.regs x v) : C.Means w'.regs x v := by
  cases x with
  | reg id t =>
    simp only [Call.Means] at hv ⊢
    rw [h.regs id hx, hv]
  | block i => exact hx
  | _ => exact hv

theorem Passes.holds (h : Passes C s f w s' f' w') (hn : f.nextReg ≤ f'.nextReg)
    (hL : Holds C L f.nextReg w) : Holds C L f'.nextReg w' := fun p hp =>
  ⟨(hL p hp).1.mono hn, h.means (hL p hp).1 (hL p hp).2⟩

/-! ## The judgement -/

/-- What straight code does: `Q` holds of what the piece returned, of what operands
stand for behind it, and of memory. -/
def Flows (T : Setting) (L : Facts) (m : Memory) (x : Build α) (Q : α → Facts → Memory → Prop) :
    Prop :=
  ∀ ⦃s : State⦄ ⦃a : α⦄ ⦃s' : State⦄ ⦃f f' : Func⦄, Placed s f → f.term? s.block = none →
    x T.env s = .ok a s' → Extends s f s' f' →
    ∀ ⦃C : Call⦄ ⦃w : World⦄, C.code = T.final.module → Within T C s' f' → w.memory = m →
      Holds C L f.nextReg w →
      ∃ L' w', L ⊆ L' ∧ Threads C s f w s' f' w' ∧ Holds C L' f'.nextReg w' ∧ Q a L' w'.memory

section Rules

variable {x : Build α} {y : α → Build β} {Q : α → Facts → Memory → Prop}
variable {R : β → Facts → Memory → Prop}

theorem Flows.mono {Q' : α → Facts → Memory → Prop} (h : Flows T L m x Q)
    (hQ : ∀ a L' m', L ⊆ L' → Q a L' m' → Q' a L' m') : Flows T L m x Q' := by
  intro s a s' f f' hp hopen hrun hx C w hcode hW hmem hL
  obtain ⟨L', w', hsub, hpass, hL', hq⟩ := h hp hopen hrun hx hcode hW hmem hL
  exact ⟨L', w', hsub, hpass, hL', hQ a L' w'.memory hsub hq⟩

theorem Flows.bind [Steady x] [∀ a, Steady (y a)] (hx : Flows T L m x Q)
    (hy : ∀ a L' m', L ⊆ L' → Q a L' m' → Flows T L' m' (y a) R) : Flows T L m (x >>= y) R := by
  intro s c s'' f f'' hp hopen hrun hx'' C w hcode hW hmem hL
  obtain ⟨a, s', hrun1, hrun2⟩ := bind_ok hrun
  obtain ⟨f', hx1, hopen'⟩ := Steady.extends_of_ok hp hopen hrun1
  obtain ⟨g, hx2, -⟩ := Steady.extends_of_ok hx1.placed hopen' hrun2
  obtain rfl : g = f'' := hx''.func_eq hx2.placed
  obtain ⟨L', w', hsub, hpass, hL', hq⟩ :=
    hx hp hopen hrun1 hx1 hcode (hW.back hx2) hmem hL
  obtain ⟨L'', w'', hsub', hpass', hL'', hr⟩ :=
    hy a L' w'.memory hsub hq hx1.placed hopen' hrun2 hx2 hcode hW rfl hL'
  exact ⟨L'', w'', List.Subset.trans hsub hsub', hpass.trans hpass' hp hx1, hL'', hr⟩

theorem Flows.pure {a : α} (h : Q a L m) : Flows T L m (pure a) Q := by
  intro s b s' f f' hp hopen hrun hx C w hcode hW hmem hL
  obtain ⟨rfl, rfl⟩ := pure_ok hrun
  obtain rfl : f = f' := hx.func_eq hp
  exact ⟨L, w, List.Subset.refl L, .refl, hL, hmem ▸ h⟩

theorem Flows.crash : Flows T L m (crash : Build α) Q :=
  fun _ _ _ _ _ _ _ hrun => absurd hrun throw_ne_ok

theorem Flows.violation {v : Violation} {y : α → Build β} : Flows T L m (violation v >>= y) R := by
  intro s c s'' f f'' hp hopen hrun
  exact absurd hrun refused_ne_ok

theorem Flows.ite {c : Prop} [Decidable c] {z : Build α} (hx : c → Flows T L m x Q)
    (hz : ¬ c → Flows T L m z Q) : Flows T L m (if c then x else z) Q := by
  split
  · next hc => exact hx hc
  · next hc => exact hz hc

/-- Something is looked up first. -/
theorem Flows.after [∀ a, Steady (y a)] (hx : Quiet x)
    (hy : ∀ s a s', x T.env s = .ok a s' → Tables s T.final → Flows T L m (y a) R) :
    Flows T L m (x >>= y) R := by
  intro s c s'' f f'' hp hopen hrun hx'' C w hcode hW hmem hL
  obtain ⟨a, s', hrun1, hrun2⟩ := bind_ok hrun
  have hs := hx hrun1
  have hp' := hs.placed hp
  have hopen' : f.term? s'.block = none := by rw [hs.block]; exact hopen
  obtain ⟨g, hx2, -⟩ := Steady.extends_of_ok hp' hopen' hrun2
  obtain rfl : g = f'' := hx''.func_eq hx2.placed
  have htables := (hs.framed.toTables.trans hx2.framed.toTables).trans hW.tables
  obtain ⟨L', w', hsub, hpass, hL', hr⟩ :=
    hy s a s' hrun1 htables hp' hopen' hrun2 hx2 hcode hW hmem hL
  refine ⟨L', w', hsub, ?_, hL', hr⟩
  obtain ⟨⟨hproceeds, hout, hslots, hregs⟩, hslotRegs, hslotless⟩ := hpass
  rw [standing] at hproceeds
  rw [hs.block] at hproceeds hslotRegs hslotless
  exact ⟨⟨hproceeds, hout, hslots, hregs⟩, hslotRegs, hslotless⟩

theorem Flows.require [∀ a, Steady (y a)] {o : Option α}
    (hy : ∀ a, o = some a → Flows T L m (y a) R) : Flows T L m (require o >>= y) R :=
  .after .require fun _ a _ hrun _ => hy a (require_ok hrun).1

theorem Flows.getProgram {y : Program → Build β} [∀ p, Steady (y p)]
    (hy : Flows T L m (y T.env.program) R) : Flows T L m (getProgram >>= y) R :=
  .after quiet_getProgram fun _ _ _ hrun _ => (getProgram_ok hrun).1 ▸ hy

/-- Straight code is a piece of code like others. -/
theorem Flows.runs (h : Flows T L m x Q) (hQ : ∀ a L' m', Q a L' m' → m.Later m') :
    Runs A T L m x Q := by
  intro s a s' f f' hp hopen hrun hx hopen' C w G hC hW hr hmem hL hG hnext
  subst hmem
  obtain ⟨L', w', hsub, ht, hL', hq⟩ := h hp hopen hrun hx hC.code hW rfl hL
  have hm : Moves C s.block (f.code s.block).length f.nextReg w w' :=
    ⟨fun id hid => hid.elim (ht.regs id) (ht.slotRegs hC.ssa id), hQ _ _ _ hq,
      fun o ho => ht.slots ▸ ho⟩
  have hready := hr.move hm ht.slotless fun o ho => .inl (ht.slots ▸ ho)
  exact hG.steps (ht.proceeds.lift id fun _ _ h => h.2) (hnext L' w' hsub hm hready hL' hq)

variable {V : α → Facts → Prop}

/-- What comes behind a computation is run in the same memory. -/
theorem Runs.next [Steady x] [∀ a, Steady (y a)]
    (hx : Flows T L m x fun a L' m' => V a L' ∧ m' = m)
    (hy : ∀ a L', L ⊆ L' → V a L' → Runs A T L' m (y a) R) : Runs A T L m (x >>= y) R :=
  .bind (hx.runs fun _ _ _ hq => hq.2 ▸ .refl m) fun a L' _ hsub hq => hq.2 ▸ hy a L' hsub hq.1

theorem Flows.next [Steady x] [∀ a, Steady (y a)]
    (hx : Flows T L m x fun a L' m' => V a L' ∧ m' = m)
    (hy : ∀ a L', L ⊆ L' → V a L' → Flows T L' m (y a) R) : Flows T L m (x >>= y) R :=
  hx.bind fun a L' _ hsub hq => hq.2 ▸ hy a L' hsub hq.1

/-- A piece that only computes. -/
theorem Flows.alone (hx : Flows T L m x fun a L' m' => V a L' ∧ m' = m) :
    Runs A T L m x fun a L' m' => V a L' ∧ m' = m :=
  hx.runs fun _ _ _ hq => hq.2 ▸ .refl m

end Rules

/-! ## Instructions -/

section Instructions

variable {t : Ty} {op : Op} {v : Value} {x y : Operand} {p q : Interp.Pointer}

theorem knows_zero : Knows T L (.i32 0) (.int 0) := .inr ⟨_, rfl, fun _ => rfl⟩

theorem knows_one : Knows T L (.i32 1) (.int 1) := .inr ⟨_, rfl, fun _ => rfl⟩

theorem knows_i64 (n : Int) : Knows T L (.i64 n) (.int (.ofInt n)) := .inr ⟨_, rfl, fun _ => rfl⟩

/-- An instruction gives a value and leaves memory as it is. -/
theorem flows_emit (hop : op.incoming? = none) (ha : op.isAlloca = false)
    (h : ∀ (C : Call) (w : World) (b k : Nat), C.code = T.final.module →
      (∀ {x v}, Knows T L x v → C.Means w.regs x v) →
      Interp.execute C.code (C.frame b k w) op m = .ok (.value v) m) :
    Flows T L m (emit t op) (fun r L' m' => Gives T L' r v t ∧ m' = m) := by
  intro s r s' f f' hp hopen hrun hx C w hcode hW hmem hL
  obtain ⟨rfl, he⟩ := emitted hp hrun hx hW hop
  subst hmem
  have hstep := Interp.step_value he.has (h C w _ _ hcode fun hx => hx.means hcode hL)
  have ht : Threads C s f w s' f' (wrote w f.nextReg v w.memory) :=
    he.threads rfl ha hstep (fun _ hid => wrote_other hid) rfl rfl
  have hn : f.nextReg < f'.nextReg := by rw [he.regs]; exact Nat.lt_succ_self _
  refine ⟨_, _, List.subset_cons_self _ _, ht, ?_, ⟨knows_of_mem List.mem_cons_self, rfl⟩, rfl⟩
  exact (ht.holds (Nat.le_of_lt hn) hL).cons hn wrote_self

theorem flows_emitBitcast (hx : Knows T L x v) :
    Flows T L m (emitBitcast x t) (fun r L' m' => Gives T L' r v t ∧ m' = m) :=
  flows_emit rfl rfl fun _ _ _ _ _ hmeans => Interp.execute_bitcast (hmeans hx)

theorem flows_emitLoad (hx : Knows T L x (.ptr p))
    (hload : Interp.load (t.expand T.final.module.types) p m = .ok v m) :
    Flows T L m (emitLoad t x) (fun r L' m' => Gives T L' r v t ∧ m' = m) :=
  flows_emit rfl rfl fun _ _ _ _ hcode hmeans =>
    Interp.execute_load (hmeans hx) (by rw [hcode]; exact hload)

section Address

variable {is : List Operand} {ns : List Int64}

/-- The address of a part, with the type that it is given. -/
theorem flows_typedGep (hx : Knows T L x (.ptr p))
    (his : List.Forall₂ (fun i n => Knows T L i (.int n)) is ns)
    (haddress : Interp.elementAddress (t.expand T.final.module.types) p ns = .ok q) :
    Flows T L m (emitGep t x is) (fun r L' m' => (∃ u,
      Ir.gepType? T.final.module.types t x.ty (is.map (·.indexInfo)) = some u ∧
      Gives T L' r (.ptr q) u) ∧ m' = m) := by
  have hsteady : ∀ ty, Steady (emit ty (.gep t x is)) := fun _ => steady_emit rfl
  refine .after quiet_typeDefs fun s defs s' hrun htables => .require fun u hu => ?_
  obtain ⟨rfl, rfl⟩ := typeDefs_ok hrun
  rw [← htables.types] at hu
  refine Flows.mono (flows_emit rfl rfl fun C w b k hcode hmeans => ?_)
    fun r L' m' _ hq => ⟨⟨u, hu, hq.1⟩, hq.2⟩
  exact Interp.execute_gep (hmeans hx) (his.imp fun i n hi => hmeans hi)
    (by rw [hcode]; exact haddress)

theorem flows_emitGep (hx : Knows T L x (.ptr p))
    (his : List.Forall₂ (fun i n => Knows T L i (.int n)) is ns)
    (haddress : Interp.elementAddress (t.expand T.final.module.types) p ns = .ok q) :
    Flows T L m (emitGep t x is) (fun r L' m' => Knows T L' r (.ptr q) ∧ m' = m) :=
  (flows_typedGep hx his haddress).mono fun _ _ _ _ ⟨⟨_, _, hr⟩, hm⟩ => ⟨hr.knows, hm⟩

end Address

variable {u : Value} {i : Nat}

theorem flows_emitExtract (hx : Knows T L x v) (hu : ∀ m, Interp.extract v [i] m = .ok u m) :
    Flows T L m (emitExtract x i) (fun r L' m' => Knows T L' r u ∧ m' = m) := by
  have hsteady : ∀ ty, Steady (emit ty (.extract x [i])) := fun _ => steady_emit rfl
  refine .after quiet_typeDefs fun _ _ _ _ _ => .require fun t _ => ?_
  exact Flows.mono (flows_emit rfl rfl fun _ _ _ _ _ hmeans =>
    Interp.execute_extract (hmeans hx) (hu m)) fun _ _ _ _ hq => ⟨hq.1.knows, hq.2⟩

theorem flows_emitInsert {r : Value} (hx : Knows T L x v) (hy : Knows T L y u)
    (hr : ∀ m, Interp.insert v u [i] m = .ok r m) :
    Flows T L m (emitInsert x y i) (fun z L' m' => Knows T L' z r ∧ m' = m) := by
  have hsteady : Steady (emit x.ty (.insert x y [i])) := steady_emit rfl
  refine .after quiet_typeDefs fun _ _ _ _ _ => .require fun _ _ => .ite (fun _ => ?_)
    fun _ => .crash
  exact Flows.mono (flows_emit rfl rfl fun _ _ _ _ _ hmeans =>
    Interp.execute_insert (hmeans hx) (hmeans hy) (hr m)) fun _ _ _ _ hq => ⟨hq.1.knows, hq.2⟩

section Words

variable {bits : Nat} {a b c : Int64}

theorem flows_emitBin {o : Ir.BinOp} {apply : Int64 → Int64 → Except Interp.Fault Int64}
    (ho : Interp.wordOp o = some apply) (hx : Gives T L x (.int a) (.int bits))
    (hy : Knows T L y (.int b)) (happly : apply a b = .ok c) :
    Flows T L m (emitBin o x y)
      (fun r L' m' => Gives T L' r (.int (Interp.canonical bits c)) (.int bits) ∧ m' = m) := by
  rw [← hx.type]
  exact flows_emit rfl rfl fun _ _ _ _ _ hmeans =>
    Interp.execute_bin ho hx.type (hmeans hx.knows) (hmeans hy) happly

theorem flows_emitCompare {o : Ir.Comparison} (hx : Gives T L x (.int a) (.int bits))
    (hy : Knows T L y (.int b)) :
    Flows T L m (emitCompare o x y) (fun r L' m' =>
      Gives T L' r (Interp.truth (Interp.compareInts o bits a b)) .i1 ∧ m' = m) := by
  unfold emitCompare emitCompareFrom
  simp only [hx.type, Ty.isComparable, if_true]
  exact flows_emit rfl rfl fun _ _ _ _ _ hmeans =>
    Interp.execute_icmp hx.type (hmeans hx.knows) (hmeans hy)

end Words

theorem flows_emitStore (hty : x.ty ≠ .invalid) (hx : Knows T L x u) (hy : Knows T L y (.ptr p))
    (hstore : Interp.store (x.ty.expand T.final.module.types) u p m = .ok () m') :
    Flows T L m (emitStore x y) (fun _ _ m'' => m'' = m') := by
  have hsteady : Steady (emit .void (.store x y)) := steady_emit rfl
  have hemit : Flows T L m (emit .void (.store x y)) (fun _ _ m'' => m'' = m') := by
    intro s r s' f f' hp hopen hrun hx' C w hcode hW hmem hL
    obtain ⟨rfl, he⟩ := emitted hp hrun hx' hW rfl
    subst hmem
    have hex := Interp.execute_store (b := s.block) (k := (f.code s.block).length) hty
      (hx.means hcode hL) (hy.means hcode hL) (by rw [hcode]; exact hstore)
    have ht : Threads C s f w s' f' { w with memory := m' } :=
      he.threads rfl rfl (Interp.step_noValue he.has hex) (fun _ _ => rfl) rfl rfl
    have hn : f.nextReg ≤ f'.nextReg := by rw [he.regs]; exact Nat.le_succ _
    exact ⟨L, _, List.Subset.refl L, ht, ht.holds hn hL, rfl⟩
  unfold emitStore
  split
  · exact .ite (fun _ => hemit.bind fun _ _ _ _ hq => .pure hq) fun _ => .crash
  · exact .crash

end Instructions

/-! ## Calls -/

/-- A function is invoked by the call under way. -/
def invoking (C : Call) (b k : Nat) (w : World) (i : Nat) (vs : List Value) : Interp.Config :=
  { machine := C.machineIn w, stack := .frame (C.frame b k w) :: C.rest, activity := .invoke i vs }

/-- A piece of straight code that comes to the invocation of a function. -/
def Calls (T : Setting) (L : Facts) (m : Memory) (x : Build α) (i : Nat) (vs : List Value)
    (m' : Memory) : Prop :=
  ∀ ⦃s : State⦄ ⦃a : α⦄ ⦃s' : State⦄ ⦃f f' : Func⦄, Placed s f → f.term? s.block = none →
    x T.env s = .ok a s' → Extends s f s' f' →
    ∀ ⦃C : Call⦄ ⦃w : World⦄, C.code = T.final.module → Within T C s' f' → w.memory = m →
      Holds C L f.nextReg w →
      ∃ b k w', Proceeds (standing C s f w) (invoking C b k w' i vs) ∧
        w'.memory = m' ∧ w'.output = w.output

/-- A call comes behind straight code.  What follows the call does not matter. -/
theorem Flows.calls {x : Build (Operand × List Operand)} {y : Operand → Build β} {i : Nat}
    {vs : List Value} [Steady x] [∀ z, Steady (y z)] (hx : Flows T L m x fun p L' m'' =>
      (∃ name offset, Knows T L' p.1 (.ptr ⟨.function i name, offset⟩)) ∧
        List.Forall₂ (Knows T L') p.2 vs ∧ m'' = m') :
    Calls T L m (x >>= fun p => emitCall p.1 p.2 >>= y) i vs m' := by
  intro s c s3 f f3 hp hopen hrun hx3 C w hcode hW hmem hL
  obtain ⟨p, s1, hrun1, hrun2⟩ := bind_ok hrun
  obtain ⟨f1, hx1, hopen1⟩ := Steady.extends_of_ok hp hopen hrun1
  obtain ⟨z, s2, hcall, hrun3⟩ := bind_ok hrun2
  obtain ⟨f2, hx2, hopen2⟩ := Steady.extends_of_ok hx1.placed hopen1 hcall
  obtain ⟨g, hx23, -⟩ := Steady.extends_of_ok hx2.placed hopen2 hrun3
  obtain rfl : g = f3 := hx3.func_eq hx23.placed
  have hW2 := hW.back hx23
  obtain ⟨L', w', -, ht, hL', ⟨name, offset, hf⟩, hxs, hm'⟩ :=
    hx hp hopen hrun1 hx1 hcode (hW2.back hx2) hmem hL
  have hex := Interp.execute_call (b := s1.block) (k := (f1.code s1.block).length)
    (m := w'.memory) (hf.means hcode hL') (hxs.imp fun _ _ h => h.means hcode hL')
  replace hcall : emitCallFrom s1.block p.1 p.2 T.env s1 = .ok z s2 := hcall
  obtain ⟨t, -, hcall⟩ := require_then hcall
  obtain ⟨-, he⟩ := emitted (t := t) hx1.placed hcall hx2 hW2 rfl
  exact ⟨_, _, w', ht.proceeds.tail ⟨rfl, Interp.step_call he.has hex⟩, hm', ht.output⟩

end Tenure.Lowering

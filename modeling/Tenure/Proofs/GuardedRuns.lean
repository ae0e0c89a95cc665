import Mathlib.Algebra.Group.Nat.Defs
import Tenure.Proofs.Sites

/-!
# Runs of guarded code and of counted loops

What is done only under a condition is a piece with two ways through it, and a
counted loop is a piece that control goes around in.  Neither hands out a value, so
behind them the operands stand for what they stood for before.  The stack slots of
later pieces are allocated as soon as control leaves the entry, which is why memory
may have grown (`Stacked`) where a branch begins.
-/

namespace Tenure.Lowering

open Ir (Operand Op Term Func Inst)
open Ir.Func (code_count code_fork code_of_size_le)
open Interp (Call World Goal Value Memory)

variable {A : Interp.Fault → Prop} {T : Setting} {C : Call} {G : Interp.Config → Prop}
variable {s s' : State} {f f' : Func} {w w' : World} {m : Memory} {L : Facts}

/-! ## Into another block -/

/-- A register of a slot is one anywhere but in the entry. -/
theorem IsSlot.elsewhere {F : Func} {b k b' k' id : Nat} (h : IsSlot F b k id) (hb : b' ≠ 0) :
    IsSlot F b' k' id := by
  obtain ⟨j, i, hi, ha, heq, -⟩ := h
  exact ⟨j, i, hi, ha, heq, fun h => absurd h hb⟩

theorem Leaving.holds {b k n : Nat} (h : Leaving C b k n w w') (hL : Holds C L n w) :
    Holds C L n w' :=
  hL.move h.moves (Nat.le_refl _)

/-! ## Guarded code -/

section Guarded

variable {l r : String} {c : Operand} {b : Int64} {body : Build Unit} {Q : Memory → Prop}

/-- Code that is gone through if a condition holds. -/
theorem Runs.guarded [Steady body] (hc : Knows T L c (.int b))
    (hyes : b ≠ 0 → ∀ m', m.Stacked m' → Runs A T L m' body fun _ _ m'' => Q m'')
    (hno : b = 0 → ∀ m', m.Stacked m' → Q m') :
    Runs A T L m (guarded l r c body) fun _ _ m' => Q m' := by
  intro s u s' f f' hp hopen hrun hx hopen' C w G hC hW hr hmem hL hG hnext
  obtain ⟨x, y, s1, v, s2, m1, hb1, hrun1, hlast⟩ := guarded_ok hrun hp.func
  have hev1 := Ir.Func.evolves_fork (v := c) (x := x) (y := y) hp.lt hopen
  obtain ⟨hp1, hopen1⟩ := m1.entered hev1 hp hb1 (.inl rfl)
  obtain ⟨f2, hx2, hopen2⟩ := Steady.extends_of_ok hp1 hopen1 hrun1
  obtain ⟨m2, hb2⟩ := hlast f2 hx2.placed.func
  have hkeeps2 := (Ir.Func.Edit.terminate (t := .br (.block (f.blocks.size + 1))) hx2.placed.lt
    hopen2).keeps
  obtain rfl : f' = f2.terminate s2.block (.br (.block (f.blocks.size + 1))) :=
    Option.some.inj (hx.placed.func.symm.trans m2.func)
  have hends2 : (f2.terminate s2.block (.br (.block (f.blocks.size + 1)))).term? s2.block =
      some (.br (.block s'.block)) := by
    rw [Ir.Func.term?_terminate hx2.placed.lt, if_pos rfl, hb2]
  have hwithin2 : Within T C s2 f2 :=
    .ofClosed (m2.framed.toTables.trans hW.tables) hkeeps2 (by simp) hends2 hW.keeps
  have hwithin1 := hwithin2.back hx2
  -- both branches begin in new blocks
  have hlt := hp.lt
  have hnew2 : s2.block ≠ 0 := by
    rcases hx2.block with hblock | hblock
    · omega
    · rw [Ir.Func.blocks_size_fork] at hblock
      omega
  have hempty1 : (f.fork s.block c x y).code s1.block = [] := by
    rw [code_fork, hb1]
    exact code_of_size_le (Nat.le_refl _)
  have hev2 := hx2.evolves
  rw [hb1] at hev2
  have hempty : (f2.terminate s2.block (.br (.block (f.blocks.size + 1)))).code s'.block = [] := by
    rw [Ir.Func.code_terminate, hb2, hev2.code_kept (by simp) (by omega) (by omega), code_fork,
      code_of_size_le (by omega)]
  have hplain1 : ∀ i, C.body.Has s1.block 0 i → i.op.incoming? = none := by
    have hplain := hwithin1.plain
    rwa [hempty1] at hplain
  have hplain' : ∀ i, C.body.Has s'.block 0 i → i.op.incoming? = none := by
    have hplain := hW.plain
    rwa [hempty] at hplain
  have hends : (f.fork s.block c x y).term? s.block =
      some (.condBr c (.block s1.block) (.block s'.block)) := by
    rw [Ir.Func.term?_fork hp.lt, if_pos rfl, hb1, hb2]
  have hgoes := goes_condBr (f := f.fork s.block c x y) (v := b) (w := w) hC hG
    (hx2.keeps.trans hwithin2.keeps) hends (by rw [code_fork]; exact hr)
    (hc.means hC.code hL) (hc.below hL) ?_ fun w1 hleft => ?_
  · rw [code_fork] at hgoes
    exact hgoes
  · intro i hi
    by_cases hzero : b = 0
    · rw [if_neg (by simpa using hzero)] at hi
      exact hplain' i hi
    · rw [if_pos hzero] at hi
      exact hplain1 i hi
  rw [code_fork] at hleft
  have hstacked : m.Stacked w1.memory := hmem ▸ hleft.stacked
  have hL1 : Holds C L f.nextReg w1 := hleft.holds hL
  by_cases hzero : b = 0
  · -- nothing is done
    rw [if_neg (by simpa using hzero)]
    have hgoal := hnext L w1 (List.Subset.refl L) hleft.moves hleft.ready.anywhere
      (hL1.mono hx.keeps.regs) (hno hzero _ hstacked)
    rw [standing, hempty] at hgoal
    exact hgoal
  · rw [if_pos hzero]
    have hbody := hyes hzero _ hstacked hp1 hopen1 hrun1 hx2 hopen2 (C := C) (w := w1) (G := G) hC
      hwithin2 hleft.ready.anywhere rfl hL1 hG fun L2 w2 _ hmoves hready _ hq => ?_
    · rw [standing, hempty1] at hbody
      exact hbody
    · -- the way from the branch to what comes next
      have hcode2 : (f2.terminate s2.block (.br (.block (f.blocks.size + 1)))).code s2.block =
          f2.code s2.block := by simp
      have hgoes2 := goes_br (w := w2) hC hG hW.keeps hends2 (by rw [hcode2]; exact hready) hplain'
        fun w3 hleft2 => ?_
      · rw [hcode2] at hgoes2
        exact hgoes2
      · obtain rfl := hleft2.same hnew2
        have hmoves' : Moves C s.block (f.code s.block).length f.nextReg w w3 :=
          hleft.moves.trans hmoves (Nat.le_refl _) fun id hid => hid.elsewhere (by omega)
        have hgoal := hnext L w3 (List.Subset.refl L) hmoves' hleft2.ready.anywhere
          (hL.move hmoves' hx.keeps.regs) hq
        rw [standing, hempty] at hgoal
        exact hgoal

end Guarded

/-! ## Counted loops -/

section Loop

variable {length next : Operand} {last b : Nat} {i : Inst}

/-- The head of a counted loop in a finished function: the index, which comes from
before the loop or from the end of its body, and the comparison. -/
structure HeadIn (F f : Func) (b : Nat) (length next : Operand) (last : Nat) (i : Inst) :
    Prop where
  code : F.code f.blocks.size = [i, f.loopTest length]
  id : i.id = f.nextReg
  phi : ∃ pairs, i.op = .phi pairs ∧ (.i64 0, .block b) ∈ pairs ∧ (next, .block last) ∈ pairs
  ends : F.term? f.blocks.size = some (.condBr (.reg (f.nextReg + 1) .i1)
    (.block (f.blocks.size + 1)) (.block (f.blocks.size + 2)))

variable {k head reg id : Nat} {g : Func} {v : Value}

theorem code_close (hlt : last < g.blocks.size) (hne : last ≠ head) :
    (g.close head reg last).code head =
      (g.code head).map (Func.extendPhi reg (.reg g.nextReg .i64) (.block last)) := by
  unfold Func.close
  rw [Func.code_terminate, Func.code_addIncoming, if_pos rfl, Func.code_push hlt,
    if_neg fun h => hne h.symm]

/-- Where a counted loop was written, the finished function has its head. -/
theorem headIn_of_close {f2 : Func} (hp : Placed s f) (hlt : last < f2.blocks.size)
    (hne : last ≠ f.blocks.size)
    (hcode : f2.code f.blocks.size = [f.loopIndex s.block, f.loopTest length])
    (hends : f2.term? f.blocks.size = some (.condBr (.reg (f.nextReg + 1) .i1)
      (.block (f.blocks.size + 1)) (.block (f.blocks.size + 2))))
    (hk : (f2.close f.blocks.size f.nextReg last).Keeps C.body) :
    ∃ i, HeadIn C.body f s.block length (.reg f2.nextReg .i64) last i := by
  have hhead : (f2.close f.blocks.size f.nextReg last).code f.blocks.size =
      [{ f.loopIndex s.block with
          op := .phi [(.i64 0, .block s.block), (.reg f2.nextReg .i64, .block last)] },
        f.loopTest length] := by
    rw [code_close hlt hne, hcode]
    simp [Func.extendPhi, Func.loopIndex, Func.loopTest]
  have hterm : (f2.close f.blocks.size f.nextReg last).term? f.blocks.size =
      some (.condBr (.reg (f.nextReg + 1) .i1) (.block (f.blocks.size + 1))
        (.block (f.blocks.size + 2))) := by
    unfold Func.close
    rw [Func.term?_terminate (by simpa using hlt), if_neg fun h => hne h.symm]
    simpa using hends
  have hlength : (C.body.code f.blocks.size).length = 2 := by
    rw [code_of_closed hk hterm (by have := hp.lt; omega), hhead]
    rfl
  obtain ⟨j, hj, hbecomes⟩ := hk.has f.blocks.size 0 _ (by rw [Func.Has, hhead]; rfl)
  obtain ⟨k, hk1, hsame⟩ := hk.has f.blocks.size 1 _ (by rw [Func.Has, hhead]; rfl)
  rw [hsame.eq_of_not_phi rfl] at hk1
  refine ⟨j, ?_, hbecomes.id_eq, ?_, hk.ends _ _ hterm⟩
  · rw [Func.Has] at hj hk1
    obtain ⟨x, y, hF⟩ := List.length_eq_two.mp hlength
    rw [hF] at hj hk1 ⊢
    rw [Option.some.inj hj, Option.some.inj hk1]
  · obtain rfl | ⟨pairs, more, hop, rfl⟩ := hbecomes
    · exact ⟨_, rfl, by simp, by simp⟩
    · injection hop with hop
      subst hop
      exact ⟨_, rfl, by simp, by simp⟩

theorem HeadIn.has_index (h : HeadIn C.body f b length next last i) :
    C.body.Has f.blocks.size 0 i := by
  rw [Func.Has, h.code]
  rfl

theorem HeadIn.has_test (h : HeadIn C.body f b length next last i) :
    C.body.Has f.blocks.size 1 (f.loopTest length) := by
  rw [Func.Has, h.code]
  rfl

/-- The index is compared, and control goes into the body or behind the loop. -/
theorem HeadIn.goes {j n : Int64} (h : HeadIn C.body f b length next last i) (hC : Hosted A T C)
    (hG : Goal A C.rest G)
    (hj : w.regs[f.nextReg]? = some (.int j)) (hn : C.Means w.regs length (.int n))
    (hplain : ∀ i, C.body.Has (if j < n then f.blocks.size + 1 else f.blocks.size + 2) 0 i →
      i.op.incoming? = none)
    (hnext : G (C.here (if j < n then f.blocks.size + 1 else f.blocks.size + 2) 0
      (wrote w (f.nextReg + 1) (Interp.truth (j < n)) w.memory))) :
    G (C.here f.blocks.size 1 w) := by
  have hvalue : Interp.execute C.code (C.frame f.blocks.size 1 w) (f.loopTest length).op w.memory =
      .ok (.value (Interp.truth (j < n))) w.memory :=
    Interp.execute_icmp (x := .reg f.nextReg .i64) rfl hj hn
  refine hG.back _ _ (Interp.step_value h.has_test hvalue) ?_
  have hbranch := Interp.step_condBr (C := C) (b := f.blocks.size) (k := 2)
    (w := wrote w (f.nextReg + 1) (Interp.truth (j < n)) w.memory) (n := if j < n then 1 else 0)
    (by rw [h.code]; rfl) h.ends (by
      simp only [Call.Means, wrote_self, Interp.truth, decide_eq_true_eq])
  have hside : (if (if j < n then (1 : Int64) else 0) ≠ 0 then f.blocks.size + 1
      else f.blocks.size + 2) = if j < n then f.blocks.size + 1 else f.blocks.size + 2 := by
    by_cases hjn : j < n <;> simp [hjn]
  rw [hside] at hbranch
  refine hG.back _ _ hbranch (hG.back _ _ (Interp.step_enter_plain ?_ ?_) hnext)
  · split
    · exact hC.target h.ends (by simp [Term.successors])
    · exact hC.target h.ends (by simp [Term.successors])
  · exact fun i hi => hplain i (has_zero_of_head hi)

/-- A counted loop in the function that a call runs: between the head and the way back
stands the code of the body. -/
structure LoopIn (T : Setting) (C : Call) (length : Operand) (body : Operand → Build Unit)
    (f : Func) (b : Nat) (s1 : State) (f1 : Func) (s2 : State) (f2 : Func) (i : Inst) : Prop where
  placed : Placed s1 f1
  open1 : f1.term? s1.block = none
  empty : f1.code s1.block = []
  block : s1.block = f.blocks.size + 1
  regs : f1.nextReg = f.nextReg + 2
  ok : body (.reg f.nextReg .i64) T.env s1 = .ok () s2
  extends2 : Extends s1 f1 s2 f2
  open2 : f2.term? s2.block = none
  within2 : Within T C s2 f2
  fresh : f.blocks.size ≠ 0
  last : s2.block ≠ 0
  apart : s2.block ≠ f.blocks.size
  back : (f2.close f.blocks.size f.nextReg s2.block).Keeps C.body
  head : HeadIn C.body f b length (.reg f2.nextReg .i64) s2.block i

theorem code_close_last (hlt : last < g.blocks.size) (hne : last ≠ head) :
    (g.close head reg last).code last = g.code last ++
      [{ id := g.nextReg, ty := .i64, op := .bin .add (.reg reg .i64) (.i64 1) }] := by
  unfold Func.close
  rw [Func.code_terminate, Func.code_addIncoming, if_neg hne, Func.code_push hlt, if_pos rfl]

theorem term?_close (hlt : last < g.blocks.size) :
    (g.close head reg last).term? last = some (.br (.block head)) := by
  unfold Func.close
  rw [Func.term?_terminate (by simpa using hlt), if_pos rfl]

/-- At the end of the body, the index is counted up. -/
theorem has_count (hlt : last < g.blocks.size) (hne : last ≠ head)
    (hk : (g.close head reg last).Keeps C.body) :
    C.body.Has last (g.code last).length
      { id := g.nextReg, ty := .i64, op := .bin .add (.reg reg .i64) (.i64 1) } := by
  obtain ⟨k, hk, hsame⟩ := hk.has last (g.code last).length
    { id := g.nextReg, ty := .i64, op := .bin .add (.reg reg .i64) (.i64 1) } (by
      rw [Func.Has, code_close_last hlt hne]
      simp)
  rwa [hsame.eq_of_not_phi rfl] at hk

/-- A loop that was written is found in the finished function. -/
theorem loopIn_of_ok {body : Operand → Build Unit} [∀ index, Steady (body index)] {u : Unit}
    (hp : Placed s f) (hopen : f.term? s.block = none)
    (hrun : buildLoop length body T.env s = .ok u s') (hx : Extends s f s' f')
    (hW : Within T C s' f') :
    ∃ x y z s1 s2 f2 i, LoopIn T C length body f s.block s1 (f.count s.block length x y z) s2 f2 i ∧
      s'.block = f.blocks.size + 2 ∧ f'.code s'.block = [] ∧
      (f.count s.block length x y z).Keeps C.body := by
  obtain ⟨x, y, z, s1, v, s2, m1, hb1, hrun1, hlast⟩ := buildLoop_ok hrun hp.func
  have hev1 := Ir.Func.evolves_count (v := length) (x := x) (y := y) (z := z) hp.lt hopen
  obtain ⟨hp1, hopen1⟩ := m1.entered hev1 hp hb1 (.inl rfl)
  have hlt := hp.lt
  obtain ⟨f2, hx2, hopen2⟩ := Steady.extends_of_ok hp1 hopen1 hrun1
  obtain ⟨-, m2, hb2⟩ := hlast f2 hx2.placed.func
  obtain rfl : f' = f2.close f.blocks.size f.nextReg s2.block :=
    Option.some.inj (hx.placed.func.symm.trans m2.func)
  have hwhere : s2.block = f.blocks.size + 1 ∨ f.blocks.size + 3 ≤ s2.block := by
    rcases hx2.block with hblock | hblock
    · exact .inl (hblock.trans hb1)
    · rw [Ir.Func.blocks_size_count] at hblock
      exact .inr hblock
  -- the body lets the head and the block behind the loop be
  have hkept : ∀ c, c ≠ f.blocks.size + 1 → c < f.blocks.size + 3 → c ≠ 0 →
      f2.term? c = (f.count s.block length x y z).term? c ∧
        f2.code c = (f.count s.block length x y z).code c := by
    intro c hc hlt' hzero
    have hlt'' : c < (f.count s.block length x y z).blocks.size := by simpa using hlt'
    exact ⟨(hx2.evolves.kept c hlt'' (by omega)).1, hx2.evolves.code_kept hlt'' (by omega) hzero⟩
  obtain ⟨hterm, hcode⟩ := hkept f.blocks.size (by omega) (by omega) (by omega)
  rw [Ir.Func.term?_count hp.lt, if_pos rfl] at hterm
  rw [code_count, if_pos rfl] at hcode
  have hclosed := Ir.Func.built_close (a := f.blocks.size) (r := f.nextReg) hx2.placed.lt hopen2
  obtain ⟨i, hhead⟩ := headIn_of_close hp hx2.placed.lt (by omega) hcode hterm hW.keeps
  have hwithin2 : Within T C s2 f2 := by
    refine ⟨m2.framed.toTables.trans hW.tables, hclosed.keeps.trans hW.keeps, fun k hk => ?_⟩
    rw [Option.some.inj (hk.symm.trans (has_count hx2.placed.lt (by omega) hW.keeps))]
    rfl
  refine ⟨x, y, z, s1, s2, f2, i, ⟨hp1, hopen1, ?_, hb1, rfl, hrun1, hx2, hopen2, hwithin2,
    by omega, by omega, by omega, hW.keeps, hhead⟩, hb2, ?_,
    (hx2.keeps.trans hclosed.keeps).trans hW.keeps⟩
  · rw [hb1, code_count, if_neg (by omega), code_of_size_le (by omega)]
  · unfold Func.close
    rw [hb2, Func.code_terminate, Func.code_addIncoming, if_neg (by omega),
      Func.code_push hx2.placed.lt, if_neg (by omega), (hkept _ (by omega) (by omega) (by omega)).2,
      code_count, if_neg (by omega), code_of_size_le (by omega)]

theorem Moves.mono {n n' : Nat} (h : Moves C b k n' w w') (hn : n ≤ n') : Moves C b k n w w' :=
  { h with regs := fun id hid => h.regs id (hid.imp_left fun h => Nat.lt_of_lt_of_le h hn) }

theorem Moves.elsewhere {n b' k' : Nat} (h : Moves C b k n w w') (hb : b ≠ 0) :
    Moves C b' k' n w w' :=
  { h with regs := fun id hid => h.regs id (hid.imp_right fun h => h.elsewhere hb) }

theorem Moves.onward {n : Nat} {w'' : World} (h : Moves C b k n w w') (h' : Moves C b k n w' w'') :
    Moves C b k n w w'' :=
  h.trans h' (Nat.le_refl _) fun _ hid => hid

/-- Outside the entry all slots are there. -/
theorem Ready.leave (h : Ready C b k w) (hb : b ≠ 0) : Ready C 1 0 w :=
  h.move (n := 0) .refl (fun _ _ _ _ _ hb' => absurd hb' hb) fun _ ho => .inl ho

/-- Writing to a register that is no slot's moves nothing below its number. -/
theorem moves_wrote_elsewhere {j n : Nat} (hC : Hosted A T C) {inst : Inst}
    (hi : C.body.Has j k inst) (hj : j ≠ 0) (hid : inst.id = id) (hn : n ≤ id) :
    Moves C 1 0 n w (wrote w id v w.memory) where
  regs id' hid' := by
    refine wrote_other ?_
    rintro rfl
    rcases hid' with hid' | hid'
    · omega
    · exact not_isSlot_of_has hC.ssa hi (hid ▸ hid'.elsewhere hj)
  memory := .refl _
  slots _ ho := ho

theorem Ready.wrote (h : Ready C 1 0 w) (hm : Moves C 1 0 n w (wrote w id v w.memory)) :
    Ready C 1 0 (wrote w id v w.memory) :=
  h.move hm (fun _ _ _ _ _ hb => absurd hb (by omega)) fun _ ho => .inl ho

variable {body : Operand → Build Unit} {s1 s2 : State} {f1 f2 : Func} {j n : Nat}
variable {Q : Memory → Prop}

theorem ofNat_lt_ofNat (hn : n < 2 ^ 63) (hj : j ≤ n) :
    (Int64.ofNat j < Int64.ofNat n) ↔ j < n := by
  rw [Int64.lt_iff_toInt_lt, Int64.toInt_ofNat_of_lt (by omega), Int64.toInt_ofNat_of_lt (by omega)]
  omega

/-- One round of a counted loop: through the body and back to the head. -/
theorem LoopIn.round (h : LoopIn T C length body f b s1 f1 s2 f2 i) (hC : Hosted A T C)
    (hG : Goal A C.rest G) (hn : n < 2 ^ 63) (hj : j < n)
    (hlength : Knows T L length (.int (.ofNat n))) (hready : Ready C 1 0 w)
    (hL : Holds C L f.nextReg w) (hindex : w.regs[f.nextReg]? = some (.int (.ofNat j)))
    (hbody : Runs A T ((.reg f.nextReg .i64, .int (.ofNat j)) :: L) w.memory
      (body (.reg f.nextReg .i64)) fun _ _ m => Q m)
    (hnext : ∀ w', Moves C 1 0 f.nextReg w w' → Ready C 1 0 w' →
      w'.regs[f.nextReg]? = some (.int (.ofNat (j + 1))) → Q w'.memory →
      G (C.here f.blocks.size 1 w')) : G (C.here f.blocks.size 1 w) := by
  have hlt : Int64.ofNat j < Int64.ofNat n := (ofNat_lt_ofNat hn (Nat.le_of_lt hj)).mpr hj
  have hplain := (h.within2.back h.extends2).plain
  rw [h.empty, List.length_nil] at hplain
  refine h.head.goes hC hG hindex (hlength.means hC.code hL) ?_ ?_
  · rw [if_pos hlt, ← h.block]
    exact hplain
  rw [if_pos hlt, ← h.block]
  -- the comparison is done
  have hmoves1 : Moves C 1 0 (f.nextReg + 1) w
      (wrote w (f.nextReg + 1) (Interp.truth (Int64.ofNat j < Int64.ofNat n)) w.memory) :=
    moves_wrote_elsewhere hC h.head.has_test h.fresh rfl (Nat.le_refl _)
  have hL1 : Holds C ((.reg f.nextReg .i64, .int (.ofNat j)) :: L) f1.nextReg
      (wrote w (f.nextReg + 1) (Interp.truth (Int64.ofNat j < Int64.ofNat n)) w.memory) := by
    rw [h.regs]
    refine (hL.move (hmoves1.mono (Nat.le_succ _)) (by omega)).cons ?_ ?_
    · exact Nat.lt_succ_of_lt (Nat.lt_succ_self _)
    · exact (hmoves1.regs _ (.inl (Nat.lt_succ_self _))).trans hindex
  have hrounds := hbody h.placed h.open1 h.ok h.extends2 h.open2 (C := C) (G := G) hC h.within2
    (hready.wrote hmoves1).anywhere rfl hL1 hG fun L2 w2 _ hmoves2 hready2 _ hq => ?_
  · rw [standing, h.empty] at hrounds
    exact hrounds
  -- the index is counted up
  have hcount := has_count h.extends2.placed.lt h.apart h.back
  have hindex2 : w2.regs[f.nextReg]? = some (.int (.ofNat j)) := by
    rw [hmoves2.regs _ (.inl (by rw [h.regs]; omega))]
    exact (hmoves1.regs _ (.inl (Nat.lt_succ_self _))).trans hindex
  have hone : C.Means w2.regs (.i64 1) (.int 1) := fun _ => rfl
  have hnew : Interp.execute C.code (C.frame s2.block (f2.code s2.block).length w2)
      (.bin .add (.reg f.nextReg .i64) (.i64 1)) w2.memory =
        .ok (.value (.int (.ofNat (j + 1)))) w2.memory := by
    rw [Int64.ofNat_add]
    exact Interp.execute_bin (x := .reg f.nextReg .i64) rfl rfl hindex2 hone rfl
  refine hG.back _ _ (Interp.step_value hcount hnew) ?_
  -- the way back to the head
  have hlength2 : ((f2.close f.blocks.size f.nextReg s2.block).code s2.block).length =
      (f2.code s2.block).length + 1 := by
    rw [code_close_last h.extends2.placed.lt h.apart]
    simp
  have hmoves3 : Moves C 1 0 f2.nextReg w2
      (wrote w2 f2.nextReg (.int (.ofNat (j + 1))) w2.memory) :=
    moves_wrote_elsewhere hC hcount h.last rfl (Nat.le_refl _)
  obtain ⟨pairs, hphi, -, hpair⟩ := h.head.phi
  have hready3 : Ready C 1 0 (wrote w2 f2.nextReg (.int (.ofNat (j + 1))) w2.memory) :=
    (hready2.leave h.last).wrote hmoves3
  have hgoes := goes_phi (w := wrote w2 f2.nextReg (.int (.ofNat (j + 1))) w2.memory) hC hG h.back
    (term?_close h.extends2.placed.lt) hready3.anywhere h.head.code hphi
    (by simp [Func.loopTest, Op.incoming?]) hpair wrote_self (Nat.lt_succ_self _) fun w4 hleft => ?_
  · rw [hlength2] at hgoes
    exact hgoes
  obtain rfl := hleft.same h.last
  have hmoves4 : Moves C 1 0 f.nextReg (wrote w2 f2.nextReg (.int (.ofNat (j + 1))) w2.memory)
      (wrote (wrote w2 f2.nextReg (.int (.ofNat (j + 1))) w2.memory) i.id (.int (.ofNat (j + 1)))
        w2.memory) :=
    moves_wrote_elsewhere hC h.head.has_index h.fresh rfl (Nat.le_of_eq h.head.id.symm)
  have hregs : f.nextReg ≤ f2.nextReg := by
    have := h.extends2.keeps.regs
    rw [h.regs] at this
    omega
  refine hnext _ ?_ (hready3.wrote hmoves4) ?_ hq
  · have hmoves2' : Moves C 1 0 f.nextReg _ w2 :=
      (hmoves2.elsewhere (by rw [h.block]; omega)).mono (by rw [h.regs]; omega)
    exact ((hmoves1.mono (Nat.le_succ _)).onward hmoves2').onward
      ((hmoves3.mono hregs).onward hmoves4)
  · rw [← h.head.id]
    exact wrote_self

variable {I : Nat → Memory → Prop}

/-- All rounds of a counted loop from an index on, by induction on how many are left. -/
theorem LoopIn.rounds (h : LoopIn T C length body f b s1 f1 s2 f2 i) (hC : Hosted A T C)
    (hG : Goal A C.rest G) (hn : n < 2 ^ 63) (hlength : Knows T L length (.int (.ofNat n)))
    (hbody : ∀ j < n, ∀ m, I j m → Runs A T ((.reg f.nextReg .i64, .int (.ofNat j)) :: L) m
      (body (.reg f.nextReg .i64)) fun _ _ m' => I (j + 1) m')
    (hplain : ∀ i, C.body.Has (f.blocks.size + 2) 0 i → i.op.incoming? = none)
    (d : Nat) (hd : j + d = n) (hready : Ready C 1 0 w) (hL : Holds C L f.nextReg w)
    (hindex : w.regs[f.nextReg]? = some (.int (.ofNat j))) (hI : I j w.memory)
    (hnext : ∀ w', Moves C 1 0 f.nextReg w w' → Ready C 1 0 w' → I n w'.memory →
      G (C.here (f.blocks.size + 2) 0 w')) : G (C.here f.blocks.size 1 w) := by
  induction d generalizing j w with
  | zero =>
    obtain rfl : j = n := hd
    have hge : ¬ Int64.ofNat j < Int64.ofNat j := by
      rw [ofNat_lt_ofNat hn (Nat.le_refl j)]
      omega
    refine h.head.goes hC hG hindex (hlength.means hC.code hL) ?_ ?_
    · rw [if_neg hge]
      exact hplain
    rw [if_neg hge]
    have hmoves : Moves C 1 0 f.nextReg w
        (wrote w (f.nextReg + 1) (Interp.truth (Int64.ofNat j < Int64.ofNat j)) w.memory) :=
      moves_wrote_elsewhere hC h.head.has_test h.fresh rfl (Nat.le_succ _)
    exact hnext _ hmoves (hready.wrote hmoves) hI
  | succ d ih =>
    have hj : j < n := by omega
    refine h.round hC hG hn hj hlength hready hL hindex (hbody j hj _ hI)
      fun w1 hmoves1 hready1 hindex1 hI1 => ?_
    refine ih (by omega) hready1 (hL.move hmoves1 (Nat.le_refl _)) hindex1 hI1
      fun w2 hmoves2 => ?_
    exact hnext w2 (hmoves1.onward hmoves2)

/-- A counted loop, with an invariant over the index. -/
theorem runs_buildLoop [∀ index, Steady (body index)] (hn : n < 2 ^ 63)
    (hlength : Knows T L length (.int (.ofNat n))) (hstart : ∀ m', m.Stacked m' → I 0 m')
    (hbody : ∀ j < n, ∀ index m', index.ty = .i64 → I j m' →
      Runs A T ((index, .int (.ofNat j)) :: L) m' (body index) fun _ _ m'' => I (j + 1) m'') :
    Runs A T L m (buildLoop length body) fun _ _ m' => I n m' := by
  intro s u s' f f' hp hopen hrun hx hopen' C w G hC hW hr hmem hL hG hnext
  obtain ⟨x, y, z, s1, s2, f2, i, h, hblock, hempty, hkeeps⟩ := loopIn_of_ok hp hopen hrun hx hW
  have hlt := hp.lt
  have hends : (f.count s.block length x y z).term? s.block =
      some (.br (.block f.blocks.size)) := by
    rw [Func.term?_count hp.lt, if_neg (by omega), if_pos rfl]
  have hcode : (f.count s.block length x y z).code s.block = f.code s.block := by
    rw [Func.code_count, if_neg (by omega)]
  have hplain := hW.plain
  rw [hempty, List.length_nil, hblock] at hplain
  obtain ⟨pairs, hphi, hpair, -⟩ := h.head.phi
  have hzero : C.Means w.regs (.i64 0) (.int 0) := fun _ => rfl
  have hgoes := goes_phi (w := w) hC hG hkeeps hends (by rw [hcode]; exact hr) h.head.code hphi
    (by simp [Func.loopTest, Op.incoming?]) hpair hzero trivial fun w1 hleft => ?_
  · rw [hcode] at hgoes
    exact hgoes
  rw [hcode] at hleft
  have hmoves1 : Moves C 1 0 f.nextReg w1 (wrote w1 i.id (.int 0) w1.memory) :=
    moves_wrote_elsewhere hC h.head.has_index h.fresh rfl (Nat.le_of_eq h.head.id.symm)
  have hL1 : Holds C L f.nextReg (wrote w1 i.id (.int 0) w1.memory) :=
    (hleft.moves.mono (n := f.nextReg) (Nat.le_add_right _ 2) |> hL.move <| Nat.le_refl _).move
      hmoves1 (Nat.le_refl _)
  refine h.rounds hC hG hn hlength (fun j hj m' hI => hbody j hj _ m' rfl hI) hplain n
    (Nat.zero_add n) (hleft.ready.wrote hmoves1) hL1 ?_ (hstart _ (hmem ▸ hleft.stacked))
    fun w2 hmoves2 hready2 hI2 => ?_
  · rw [← h.head.id]
    exact wrote_self
  have hmoves : Moves C s.block (f.code s.block).length f.nextReg w w2 := by
    refine (hleft.moves.mono (Nat.le_add_right _ 2)).trans
      (hmoves1.onward hmoves2) (Nat.le_refl _) fun id hid => ?_
    exact hid.elsewhere (by omega)
  have hgoal := hnext L w2 (List.Subset.refl L) hmoves hready2.anywhere
    (hL.move hmoves hx.keeps.regs) hI2
  rw [standing, hempty, hblock] at hgoal
  exact hgoal

end Loop

end Tenure.Lowering

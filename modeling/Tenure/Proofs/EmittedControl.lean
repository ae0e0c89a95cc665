import Tenure.Proofs.EmittedExpr

/-!
# Conditionals and loops emit code in order

A conditional has none, one or two branches whose control comes to the end; what
follows it is dominated by the condition, or by the one branch that is left.  A
loop goes back to a head that has no phi, so nothing waits for the new edge.
-/

namespace Tenure.Lowering

open Ir (Operand Term Func)
open Ir.Func (Dominators Edit blocks_size_lead code_lead code_of_size_le term?_addBlock
  term?_terminate)

variable {U : List Operand} {env : Env} {s s' : State} {f f' : Func}
variable {r : Result} {type : Option Reference} {thenPart elsePart : Build Result}
variable {D : Dominators}

/-! ## Joining branches -/

/-- The branch that ends in a block, unless the block is closed. -/
def liveAt (f : Func) (b : Nat) (r : Result) : List (Nat × Result) :=
  if (f.term? b).isSome then [] else [(b, r)]

/-- Which of two branches are left. -/
theorem liveAt_cases (f : Func) (b c : Nat) (p q : Result) :
    liveAt f b p ++ liveAt f c q = [] ∧ (f.term? b).isSome ∧ (f.term? c).isSome ∨
    (∃ a t, liveAt f b p ++ liveAt f c q = [(a, t)] ∧ (a = b ∧ t = p ∨ a = c ∧ t = q) ∧
      ∀ x, (x = b ∨ x = c) ∧ f.term? x = none ↔ x = a) ∨
    liveAt f b p ++ liveAt f c q = [(b, p), (c, q)] ∧ f.term? b = none ∧ f.term? c = none := by
  have honly : ∀ {a d}, f.term? a = none → f.term? d ≠ none →
      ∀ x, (x = a ∨ x = d) ∧ f.term? x = none ↔ x = a := by
    refine fun ha hd x => ⟨?_, fun hx => ⟨.inl hx, hx ▸ ha⟩⟩
    rintro ⟨rfl | rfl, hx⟩
    · rfl
    · exact absurd hx hd
  unfold liveAt
  cases hb : f.term? b with
  | some t =>
    cases hc : f.term? c with
    | some u => exact .inl ⟨rfl, rfl, rfl⟩
    | none =>
      refine .inr (.inl ⟨c, q, rfl, .inr ⟨rfl, rfl⟩, fun x => ?_⟩)
      rw [or_comm]
      exact honly hc (by simp [hb]) x
  | none =>
    cases hc : f.term? c with
    | some u => exact .inr (.inl ⟨b, p, rfl, .inl ⟨rfl, rfl⟩, honly hb (by simp [hc])⟩)
    | none => exact .inr (.inr ⟨rfl, rfl, rfl⟩)

variable {b c a : Nat} {q p : Result} {name x y : String} {bs : List (Nat × Result)}
variable {s1 s2 s'' : State} {f2 : Func} {condPart bodyPart : Build Result}

theorem liveBranch_ok (h : liveBranch r env s = .ok bs s') (hf : s.module.funcs[s.func]? = some f) :
    liveAt f s.block r = bs ∧ s = s' := by
  replace h := terminated_then h hf
  unfold liveAt
  split
  · next hterm =>
    rw [if_pos hterm] at h
    exact pure_ok h
  · next hterm =>
    rw [if_neg hterm] at h
    obtain ⟨_, _, h1, h⟩ := bind_ok h
    obtain ⟨rfl, rfl⟩ := currentBlock_ok h1
    exact pure_ok h

/-- Blocks are ended one after the other in the same way. -/
theorem terminateAll_ok {t : Term} {u : PUnit} (h : (forIn bs PUnit.unit fun (b, _) _ => do
      terminateBlock b t
      pure (ForInStep.yield PUnit.unit) : Build PUnit) env s = .ok u s')
    (hf : s.module.funcs[s.func]? = some f) :
    Edited s s' (bs.foldl (fun g p => g.terminate p.1 t) f) := by
  induction bs generalizing s f with
  | nil =>
    rw [List.forIn_nil] at h
    obtain ⟨-, rfl⟩ := pure_ok h
    exact (Still.refl s).edited hf
  | cons p bs ih =>
    rw [List.forIn_cons] at h
    obtain ⟨_, s1, h1, h⟩ := bind_ok h
    obtain ⟨_, s2, h2, h3⟩ := bind_ok h1
    obtain ⟨rfl, rfl⟩ := pure_ok h3
    have e := terminateBlock_ok h2 hf
    exact e.trans (ih h e.func)

/-- A conditional of this type does not care for the values of its branches. -/
def IsVoid (type : Option Reference) : Prop := ∃ r, type = some r ∧ r.referend = .void

theorem not_isVoid {r : Reference} (h : ¬ r.referend = .void) : ¬ IsVoid (some r) := by
  rintro ⟨r', hr, hvoid⟩
  obtain rfl := Option.some.inj hr
  exact h hvoid

/-- The function in which a block goes on in a new one. -/
def pass (f : Func) (a : Nat) (name : String) : Func :=
  (f.addBlock name).terminate a (.br (.block f.blocks.size))

/-- The function in which two blocks go on in a new one. -/
def meet (f : Func) (b c : Nat) (name : String) : Func :=
  (pass f b name).terminate c (.br (.block f.blocks.size))

/-- The one branch that is left goes on in a new block. -/
theorem joinBranches_one (h : joinBranches type [(b, q)] env s = .ok r s')
    (hf : s.module.funcs[s.func]? = some f) :
    ∃ name, Moved s s' (pass f b name) ∧
      s'.block = f.blocks.size ∧
      (IsVoid type ∧ r = some .void ∨
        ¬ IsVoid type ∧ ∃ x, q = some x ∧ r = some ⟨x.value, type⟩) := by
  obtain ⟨_, s1, h1, h⟩ := bind_ok h
  obtain ⟨rfl, name, e1⟩ := addBlock_ok h1 hf
  obtain ⟨_, s2, h1, h⟩ := bind_ok h
  have e2 := terminateAll_ok h1 e1.func
  obtain ⟨_, s3, h1, h⟩ := bind_ok h
  obtain ⟨m3, hb3⟩ := setBlock_ok h1 e2.func
  have m := (e1.trans e2).toMoved.trans m3
  obtain ⟨t, rfl, h⟩ := require_then h
  split at h
  · next hvoid =>
    obtain ⟨rfl, rfl⟩ := pure_ok h
    exact ⟨name, m, hb3, .inl ⟨⟨t, rfl, hvoid⟩, rfl⟩⟩
  · next hvoid =>
    cases q with
    | none =>
      exact absurd h refused_ne_ok
    | some x =>
      obtain ⟨rfl, rfl⟩ := pure_ok h
      exact ⟨name, m, hb3, .inr ⟨not_isVoid hvoid, x, rfl, rfl⟩⟩

/-- Two branches meet in a new block, where a phi tells their values apart. -/
theorem joinBranches_two (h : joinBranches type [(b, p), (c, q)] env s = .ok r s')
    (hf : s.module.funcs[s.func]? = some f) :
    ∃ name s1, Moved s s1 (meet f b c name) ∧ s1.block = f.blocks.size ∧
      (IsVoid type ∧ r = some .void ∧ s1 = s' ∨ ¬ IsVoid type ∧ ∃ x y phi, p = some x ∧ q = some y ∧
        emit x.value.ty (.phi [(x.value, .block b), (y.value, .block c)]) env s1 = .ok phi s' ∧
        r = some ⟨phi, type⟩) := by
  obtain ⟨_, s1, h1, h⟩ := bind_ok h
  obtain ⟨rfl, name, e1⟩ := addBlock_ok h1 hf
  obtain ⟨_, s2, h1, h⟩ := bind_ok h
  have e2 := terminateAll_ok h1 e1.func
  obtain ⟨_, s3, h1, h⟩ := bind_ok h
  obtain ⟨m3, hb3⟩ := setBlock_ok h1 e2.func
  have m := (e1.trans e2).toMoved.trans m3
  obtain ⟨t, rfl, h⟩ := require_then h
  refine ⟨name, s3, m, hb3, ?_⟩
  split at h
  · next hvoid =>
    obtain ⟨rfl, rfl⟩ := pure_ok h
    exact .inl ⟨⟨t, rfl, hvoid⟩, rfl, rfl⟩
  · next hvoid =>
    cases p with
    | none =>
      cases q <;>
      · exact absurd h refused_ne_ok
    | some x =>
      cases q with
      | none =>
        exact absurd h refused_ne_ok
      | some y =>
        obtain ⟨phi, s4, h1, h⟩ := bind_ok h
        obtain ⟨rfl, rfl⟩ := pure_ok h
        exact .inr ⟨not_isVoid hvoid, x, y, phi, rfl, rfl, h1, rfl⟩

/-! ## Conditionals -/

/-- What a conditional is made of, once its condition has been evaluated. -/
def branching (c : Operand) (type : Option Reference) (thenPart elsePart : Build Result) :
    Build Result := do
  let thenBlock ← addBlock "then"
  let elseBlock ← addBlock "else"
  terminate (.condBr c (.block thenBlock) (.block elseBlock))
  setBlock thenBlock
  let t ← liveBranch (← thenPart)
  setBlock elseBlock
  let e ← liveBranch (← elsePart)
  joinBranches type (t ++ e)

/-- The parts of a conditional behind its condition: the first branch leads from `s1`
to `s2`, the second one from `s3` to `s4`. -/
structure Forked (U : List Operand) (c : Operand) (s : State) (f : Func) (x y : String)
    (s1 s2 s3 s4 : State) (f2 f4 : Func) (p q : Result) : Prop where
  moved1 : Moved s s1 (f.fork s.block c x y)
  block1 : s1.block = f.blocks.size
  placed1 : Placed s1 (f.fork s.block c x y)
  open1 : (f.fork s.block c x y).term? s1.block = none
  grown2 : Grown U p.operands s1 (f.fork s.block c x y) s2 f2
  moved3 : Moved s2 s3 f2
  block3 : s3.block = f.blocks.size + 1
  placed3 : Placed s3 f2
  open3 : f2.term? s3.block = none
  grown4 : Grown U q.operands s3 f2 s4 f4
  ne : s2.block ≠ s4.block
  new : f.blocks.size ≤ s4.block
  -- the second branch lets the end of the first one be
  kept : f4.term? s2.block = f2.term? s2.block ∧ f4.code s2.block = f2.code s2.block

theorem branching_forked {c : Operand} (hthen : Lowers U thenPart) (helse : Lowers U elsePart)
    (hp : Placed s f) (hopen : f.term? s.block = none)
    (h : branching c type thenPart elsePart env s = .ok r s') :
    ∃ x y s1 s2 s3 s4 f2 f4 p q, Forked U c s f x y s1 s2 s3 s4 f2 f4 p q ∧
      thenPart env s1 = .ok p s2 ∧ elsePart env s3 = .ok q s4 ∧
      joinBranches type (liveAt f4 s2.block p ++ liveAt f4 s4.block q) env s4 = .ok r s' := by
  obtain ⟨x, y, s0, e1, h⟩ := fork_ok h hp.func
  obtain ⟨_, s1, h1, h⟩ := bind_ok h
  obtain ⟨m1, hb1⟩ := setBlock_ok h1 e1.func
  have hev1 := Ir.Func.evolves_fork (v := c) (x := x) (y := y) hp.lt hopen
  obtain ⟨hp1, hopen1⟩ := (e1.toMoved.trans m1).entered hev1 hp hb1 (.inl rfl)
  have hn := hp.lt
  -- the first branch
  obtain ⟨p, s2, hrun1, h⟩ := bind_ok h
  obtain ⟨f2, hg2, -⟩ := hthen hp1 hopen1 hrun1
  obtain ⟨_, _, h1, h⟩ := bind_ok h
  obtain ⟨rfl, rfl⟩ := liveBranch_ok h1 hg2.placed.func
  obtain ⟨_, s3, h1, h⟩ := bind_ok h
  obtain ⟨m3, hb3⟩ := setBlock_ok h1 hg2.placed.func
  have hev2 := hg2.evolves
  rw [hb1] at hev2
  have hsize2 := hev2.size
  rw [Ir.Func.blocks_size_fork] at hsize2
  have hopen3 : f2.term? s3.block = none := by
    rw [hb3, (hev2.kept (f.blocks.size + 1) (by simp) (by omega)).1]
    exact (hev1.opened _ (.inr rfl)).2.2
  have hp3 : Placed s3 f2 := m3.placed hg2.placed (.refl _) (by rw [hb3]; omega)
  -- the second branch
  obtain ⟨q, s4, hrun3, h⟩ := bind_ok h
  obtain ⟨f4, hg4, -⟩ := helse hp3 hopen3 hrun3
  obtain ⟨_, _, h1, h⟩ := bind_ok h
  obtain ⟨rfl, rfl⟩ := liveBranch_ok h1 hg4.placed.func
  have hev4 := hg4.evolves
  rw [hb3] at hev4
  have hlt2 := hg2.placed.lt
  have hwhere2 : s2.block = f.blocks.size ∨ f.blocks.size + 2 ≤ s2.block := by
    simpa [hb1] using hg2.block
  have hwhere4 : s4.block = f.blocks.size + 1 ∨ f2.blocks.size ≤ s4.block := by
    simpa [hb3] using hg4.block
  have hkept : f4.term? s2.block = f2.term? s2.block :=
    (hev4.kept s2.block hlt2 (by omega)).1
  have hcode := hev4.code_kept hlt2 (by omega) (by omega)
  have hlive : liveAt f4 s2.block p = liveAt f2 s2.block p := by
    unfold liveAt
    rw [hkept]
  rw [← hlive] at h
  exact ⟨x, y, s1, s2, s3, s4, f2, f4, p, q, ⟨e1.toMoved.trans m1, hb1, hp1, hopen1, hg2, m3, hb3,
    hp3, hopen3, hg4, by omega, by omega, hkept, hcode⟩, hrun1, hrun3, h⟩

/-- Two branches have been written; each ends in a block of its own, which may be
closed. -/
structure Arms (U : List Operand) (s : State) (f : Func) (s' : State) (f' : Func) (b c : Nat)
    (p q : Result) : Prop where
  placed : Placed s' f'
  framed : Framed s s'
  block : s'.block = c
  ne : b ≠ c
  lt : b < f'.blocks.size
  new : f.blocks.size ≤ c
  evolves : f.Evolves s.block f' (fun x => (x = b ∨ x = c) ∧ f'.term? x = none)
  carries : ∀ D, f.Formed D → (∀ u ∈ U, Available f D s.block u) →
    ∃ D', f'.Formed D' ∧ (∀ b < f.blocks.size, ∀ d, D' b d ↔ D b d) ∧
      (∀ d, D s.block d → D' b d ∧ D' c d) ∧ (∀ v ∈ p.operands, Available f' D' b v) ∧
      ∀ v ∈ q.operands, Available f' D' c v

theorem Forked.arms {c : Operand} {s3 s4 : State} {f4 : Func}
    (h : Forked U c s f x y s1 s2 s3 s4 f2 f4 p q) (hc : Given U c) (hlt : s.block < f.blocks.size)
    (hopen : f.term? s.block = none) : Arms U s f s4 f4 s2.block s4.block p q := by
  have hev1 := Ir.Func.evolves_fork (v := c) (x := x) (y := y) hlt hopen
  have hev2 := h.grown2.evolves
  have hev4 := h.grown4.evolves
  rw [h.block1] at hev2
  rw [h.block3] at hev4
  have hsize2 := hev2.size
  rw [Ir.Func.blocks_size_fork] at hsize2
  have hlt2 := h.grown2.placed.lt
  have hwhere2 : s2.block = f.blocks.size ∨ f.blocks.size + 2 ≤ s2.block := by
    simpa [h.block1] using h.grown2.block
  refine ⟨h.grown4.placed, ?_, rfl, h.ne, Nat.lt_of_lt_of_le hlt2 hev4.size, h.new, ?_, ?_⟩
  · exact ((h.moved1.framed.trans h.grown2.framed).trans h.moved3.framed).trans h.grown4.framed
  · have hboth := (hev1.continue (.inl rfl) hev2).continue (b := f.blocks.size + 1)
      (.inl ⟨.inr rfl, by omega⟩) hev4
    refine hboth.congr fun c => ?_
    constructor
    · rintro ⟨rfl | rfl, hterm⟩
      · exact .inl ⟨.inr ⟨rfl, by rw [← h.kept.1, hterm]⟩, by omega⟩
      · exact .inr ⟨rfl, hterm⟩
    · rintro (⟨⟨hc, hne⟩ | ⟨rfl, hterm⟩, hne'⟩ | ⟨rfl, hterm⟩)
      · omega
      · exact ⟨.inl rfl, by rw [h.kept.1, hterm]⟩
      · exact ⟨.inr rfl, hterm⟩
  · intro D hD hU
    have hD1 := hD.fork (x := x) (y := y) hlt hopen (Available.of_given hc hU)
    have hU1 : ∀ u ∈ U, Available (f.fork s.block c x y) (D.fork f.blocks.size s.block)
        s1.block u := by
      rw [h.block1]
      exact fun u hu => (hU u hu).grow hev1.built.keeps fun d hd =>
        Dominators.fork_left.mpr (.inr hd)
    obtain ⟨D2, hD2, hagree2, hmono2, hval2⟩ := h.grown2.carries _ hD1 hU1
    rw [h.block1] at hmono2
    rw [Ir.Func.blocks_size_fork] at hagree2
    have hright : ∀ d, D s.block d → D2 (f.blocks.size + 1) d := fun d hd =>
      (hagree2 _ (by omega) d).mpr ((Dominators.fork_right hlt).mpr (.inr hd))
    have hU3 : ∀ u ∈ U, Available f2 D2 s3.block u := by
      rw [h.block3]
      exact fun u hu => (hU u hu).grow (hev1.built.keeps.trans h.grown2.keeps) hright
    obtain ⟨D4, hD4, hagree4, hmono4, hval4⟩ := h.grown4.carries _ hD2 hU3
    rw [h.block3] at hmono4
    have hold : ∀ d, D2 s2.block d → D4 s2.block d := fun d hd =>
      (hagree4 _ hlt2 d).mpr hd
    refine ⟨D4, hD4, fun b hb d => ?_, fun d hd => ⟨hold d (hmono2 d ?_), hmono4 d (hright d hd)⟩,
      fun v hv => (hval2 v hv).grow h.grown4.keeps hold, hval4⟩
    · rw [hagree4 b (by omega) d, hagree2 b (by omega) d]
      exact Dominators.fork_of_lt hb
    · exact Dominators.fork_left.mpr (.inr hd)

theorem Arms.lt_right (h : Arms U s f s' f' b c p q) : c < f'.blocks.size :=
  h.block ▸ h.placed.lt

/-- No branch is left: control does not go on. -/
theorem Arms.closed (h : Arms U s f s' f' b c p q) (hb : (f'.term? b).isSome)
    (hc : (f'.term? c).isSome) : Grown U [] s f s' f' where
  placed := h.placed
  framed := h.framed
  block := .inr (by rw [h.block]; exact h.new)
  evolves := h.evolves.congr fun x => by
    constructor
    · rintro ⟨rfl, hx⟩
      rw [← h.block, hx] at hc
      exact absurd hc (by simp)
    · rintro ⟨rfl | rfl, hx⟩
      · rw [hx] at hb
        exact absurd hb (by simp)
      · rw [hx] at hc
        exact absurd hc (by simp)
  carries D hD hU := by
    obtain ⟨D', hD', hagree, hmono, -, -⟩ := h.carries D hD hU
    refine ⟨D', hD', hagree, fun d hd => ?_, by simp⟩
    rw [h.block]
    exact (hmono d hd).2

theorem keeps_pass (ha : a < f.blocks.size) (hopen : f.term? a = none) : f.Keeps (pass f a name) :=
  Edit.addBlock.keeps.trans (Edit.terminate (by simp; omega) (by simpa using hopen)).keeps

/-- One branch is left: it goes on in a new block, which it dominates. -/
theorem Arms.one (h : Arms U s f s' f' b c p q) (ha : a = b ∧ r = p ∨ a = c ∧ r = q)
    (hopen : ∀ x, (x = b ∨ x = c) ∧ f'.term? x = none ↔ x = a) (hm : Moved s' s'' (pass f' a name))
    (hblock : s''.block = f'.blocks.size) :
    Grown U r.operands s f s'' (pass f' a name) ∧
      (pass f' a name).term? s''.block = none := by
  have hlt : a < f'.blocks.size := by
    obtain ⟨rfl, -⟩ | ⟨rfl, -⟩ := ha
    · exact h.lt
    · exact h.lt_right
  have haopen : f'.term? a = none := ((hopen a).mpr rfl).2
  have hev : f.Evolves s.block (pass f' a name)
      (· = s''.block) := by
    refine (((h.evolves.congr fun x => (hopen x).symm).addBlock (n := name)).terminate
      (.inl rfl)).congr fun x => ?_
    omega
  have hkeeps : f'.Keeps (pass f' a name) := keeps_pass hlt haopen
  refine Grown.ofOpen (hm.placed h.placed hkeeps (hev.opened _ rfl).2.1)
    (h.framed.trans hm.framed) hev fun D hD hU => ?_
  obtain ⟨D', hD', hagree, hmono, hp, hq⟩ := h.carries D hD hU
  have hrow : ∀ d, D'.extend f'.blocks.size a f'.blocks.size d ↔ d = f'.blocks.size ∨ D' a d :=
    fun d => Dominators.extend_self
  refine ⟨D'.extend f'.blocks.size a, ?_, ?_, ?_, ?_⟩
  · refine (hD'.addBlock hlt).terminate (by simp; omega) (by simpa using haopen)
      (by simp [Term.operands]) fun v hv => ?_
    obtain rfl := List.mem_singleton.mp hv
    refine ⟨_, rfl, ⟨by omega, by simp, fun d hd => ?_⟩, ?_⟩
    · rw [Dominators.extend_of_ne (by omega)]
      exact (hrow d).mp hd
    · rw [Ir.Func.code_addBlock, code_of_size_le (Nat.le_refl _)]
      simp
  · intro x hx d
    have := h.evolves.size
    rw [Dominators.extend_of_ne (by omega), hagree x hx d]
  · intro d hd
    rw [hblock, hrow]
    refine .inr ?_
    obtain ⟨rfl, -⟩ | ⟨rfl, -⟩ := ha
    · exact (hmono d hd).1
    · exact (hmono d hd).2
  · intro v hv
    rw [hblock]
    have hold : Available f' D' a v := by
      obtain ⟨rfl, rfl⟩ | ⟨rfl, rfl⟩ := ha
      · exact hp v hv
      · exact hq v hv
    exact hold.grow hkeeps fun d hd => (hrow d).mpr (.inr hd)

theorem keeps_meet (hb : b < f.blocks.size) (hc : c < f.blocks.size) (hne : b ≠ c)
    (hb' : f.term? b = none) (hc' : f.term? c = none) : f.Keeps (meet f b c name) := by
  refine (keeps_pass hb hb').trans (Edit.terminate (by simp [pass]; omega) ?_).keeps
  rw [pass, term?_terminate (by simp; omega), if_neg (fun h => hne h.symm), term?_addBlock, hc']

theorem term?_meet {x : Nat} (hb : b < f.blocks.size) (hc : c < f.blocks.size) :
    (meet f b c name).term? x =
      if x = b ∨ x = c then some (.br (.block f.blocks.size)) else f.term? x := by
  unfold meet pass
  rw [term?_terminate (by simp; omega), term?_terminate (by simp; omega),
    term?_addBlock]
  by_cases hxc : x = c <;> by_cases hxb : x = b <;> simp [hxc, hxb]

theorem code_meet {x : Nat} : (meet f b c name).code x = f.code x := by
  simp [meet, pass]

section Meeting

variable {b c : Nat} {p q : Result} {n : String}

theorem Arms.evolves_meet (h : Arms U s f s' f' b c p q) (hb : f'.term? b = none)
    (hc : f'.term? c = none) : f.Evolves s.block (meet f' b c n) (· = f'.blocks.size) := by
  have hlt := h.lt
  have hltc := h.lt_right
  have hne := h.ne
  refine ((h.evolves.addBlock (n := n)).terminate (t := .br (.block f'.blocks.size))
    (.inl ⟨.inl rfl, hb⟩)).terminate (t := .br (.block f'.blocks.size))
    (b := c) ⟨.inl ⟨.inr rfl, hc⟩, fun h => hne h.symm⟩ |>.congr fun x => ?_
  constructor
  · rintro rfl
    exact ⟨⟨.inr rfl, by omega⟩, by omega⟩
  · rintro ⟨⟨⟨rfl | rfl, -⟩ | rfl, hxb⟩, hxc⟩
    · exact absurd rfl hxb
    · exact absurd rfl hxc
    · rfl

/-- Where two branches meet, what dominates is what dominated their condition. -/
theorem Arms.formed_meet (h : Arms U s f s' f' b c p q) (hstart : s.block < f.blocks.size)
    (hb : f'.term? b = none) (hc : f'.term? c = none) (hD : f.Formed D)
    (hU : ∀ u ∈ U, Available f D s.block u) :
    ∃ D', (meet f' b c n).Formed D' ∧ (∀ b < f.blocks.size, ∀ d, D' b d ↔ D b d) ∧
      (∀ d, D s.block d → D' f'.blocks.size d) ∧
      (∀ v ∈ p.operands, Available (meet f' b c n) D' b v) ∧
      ∀ v ∈ q.operands, Available (meet f' b c n) D' c v := by
  have hlt := h.lt
  have hltc := h.lt_right
  have hsize := h.evolves.size
  have hkeeps : f'.Keeps (meet f' b c n) := keeps_meet hlt hltc h.ne hb hc
  obtain ⟨D', hD', hagree, hmono, hp, hq⟩ := h.carries D hD hU
  have hnew : ∀ d, D'.extend f'.blocks.size s.block f'.blocks.size d ↔
      d = f'.blocks.size ∨ D s.block d := fun d => by
    rw [Dominators.extend_self, hagree _ hstart]
  have hold : ∀ x < f'.blocks.size, ∀ d,
      D'.extend f'.blocks.size s.block x d ↔ D' x d :=
    fun x hx d => Dominators.extend_of_ne (by omega)
  have hempty : ∀ i ∈ (f'.addBlock n).code f'.blocks.size, i.op.incoming? = none := by
    rw [Ir.Func.code_addBlock, code_of_size_le (Nat.le_refl _)]
    simp
  have h1 := (hD'.addBlock (n := n) (c := s.block) (by omega)).terminate (b := b)
    (t := .br (.block f'.blocks.size)) (by simp; omega) (by simpa using hb)
    (by simp [Term.operands]) fun v hv => by
      obtain rfl := List.mem_singleton.mp hv
      refine ⟨_, rfl, ⟨by omega, by simp, fun d hd => ?_⟩, hempty⟩
      rw [hold b hlt]
      exact ((hnew d).mp hd).imp_right fun hd => (hmono d hd).1
  have h2 := h1.terminate (b := c) (t := .br (.block f'.blocks.size)) (by simp; omega) (by
      rw [term?_terminate (by simp; omega), if_neg (fun h' => h.ne h'.symm),
        term?_addBlock, hc])
    (by simp [Term.operands]) fun v hv => by
      obtain rfl := List.mem_singleton.mp hv
      refine ⟨_, rfl, ⟨by omega, by simp, fun d hd => ?_⟩, by simpa using hempty⟩
      rw [hold c hltc]
      exact ((hnew d).mp hd).imp_right fun hd => (hmono d hd).2
  refine ⟨_, h2, fun x hx d => ?_, fun d hd => (hnew d).mpr (.inr hd), fun v hv => ?_,
    fun v hv => ?_⟩
  · rw [hold x (by omega), hagree x hx]
  · exact (hp v hv).grow hkeeps fun d hd => (hold b hlt d).mpr hd
  · exact (hq v hv).grow hkeeps fun d hd => (hold c hltc d).mpr hd

/-- The edges into the block where two branches meet. -/
theorem Arms.edge_meet (h : Arms U s f s' f' b c p q) (hD : f'.Formed D) {a : Nat} :
    (meet f' b c n).Edge a f'.blocks.size ↔ a = b ∨ a = c := by
  have hlt := h.lt
  have hltc := h.lt_right
  unfold Ir.Func.Edge
  rw [term?_meet hlt hltc]
  split
  · next ha => simp [ha, Term.successors]
  · next ha =>
    simp only [ha, iff_false]
    rintro ⟨t, ht, hmem⟩
    obtain ⟨x, hx, -, hxlt, -⟩ := hD.targets a t ht _ hmem
    obtain rfl : f'.blocks.size = x := by injection hx
    omega

end Meeting

/-- Two branches are left, and they meet in a new block. -/
theorem Arms.two (h : Arms U s f s' f' b c p q) (hstart : s.block < f.blocks.size)
    (hb : f'.term? b = none) (hc : f'.term? c = none)
    (hrun : joinBranches type [(b, p), (c, q)] env s' = .ok r s'') :
    ∃ f'', Grown U r.operands s f s'' f'' ∧ f''.term? s''.block = none := by
  obtain ⟨n, s1, hm, hblock, hend⟩ := joinBranches_two hrun h.placed.func
  have hev := h.evolves_meet (n := n) hb hc
  have hlt := (hev.opened _ rfl).2.1
  have hp1 : Placed s1 (meet f' b c n) :=
    hm.placed h.placed (keeps_meet h.lt h.lt_right h.ne hb hc)
      (by rw [hblock]; exact hlt)
  obtain ⟨-, rfl, rfl⟩ | ⟨-, x, y, phi, rfl, rfl, hphi, rfl⟩ := hend
  · refine ⟨_, Grown.ofOpen hp1 (h.framed.trans hm.framed) (hev.congr fun x => by rw [hblock])
      fun D hD hU => ?_⟩
    obtain ⟨D', hD', hagree, hmono, -, -⟩ := h.formed_meet (n := n) hstart hb hc hD hU
    refine ⟨D', hD', hagree, by rwa [hblock], fun v hv => ?_⟩
    obtain rfl := List.mem_singleton.mp hv
    trivial
  · -- a phi tells the values apart
    obtain ⟨rfl, e⟩ := emit_ok hphi hp1.func
    have hev' : f.Evolves s.block _ (· = s''.block) :=
      (hev.push (n := "") (t := x.value.ty)
        (o := .phi [(x.value, .block b), (y.value, .block c)]) rfl fun h' => by
          have := h.evolves.size
          omega).congr fun z => by rw [e.block, hblock]
    rw [hblock] at e
    have hkeeps := (Edit.push (n := "") (t := x.value.ty)
      (o := .phi [(x.value, .block b), (y.value, .block c)]) hlt (hev.opened _ rfl).2.2).keeps
    refine ⟨_, Grown.ofOpen (e.toMoved.placed hp1 hkeeps (hev'.opened _ rfl).2.1)
      ((h.framed.trans hm.framed).trans e.framed) hev' fun D hD hU => ?_⟩
    obtain ⟨D0, hD0, -⟩ := h.carries D hD hU
    obtain ⟨D', hD', hagree, hmono, hp, hq⟩ := h.formed_meet (n := n) hstart hb hc hD hU
    have hempty : (meet f' b c n).code f'.blocks.size = [] := by
      rw [code_meet, code_of_size_le (Nat.le_refl _)]
    refine ⟨D', hD'.pushPhi hlt hempty ?_ ?_ ?_, hagree, ?_, ?_⟩
    · simp [h.ne]
    · intro v
      simp only [List.map_cons, List.map_nil, List.mem_cons, List.not_mem_nil, or_false]
      constructor
      · rintro (rfl | rfl)
        · exact ⟨b, rfl, (h.edge_meet hD0).mpr (.inl rfl)⟩
        · exact ⟨c, rfl, (h.edge_meet hD0).mpr (.inr rfl)⟩
      · rintro ⟨a, rfl, ha⟩
        exact ((h.edge_meet hD0).mp ha).imp (congrArg _) (congrArg _)
    · simp only [List.mem_cons, List.not_mem_nil, or_false]
      rintro v (rfl | rfl)
      · exact ⟨b, rfl, hp _ (by simp)⟩
      · exact ⟨c, rfl, hq _ (by simp)⟩
    · rwa [e.block, hblock]
    · intro v hv
      obtain rfl := List.mem_singleton.mp hv
      rw [e.block, hblock]
      exact ⟨_, _, _, (Ir.Func.has_push hlt).mpr (.inr ⟨rfl, rfl, rfl⟩), rfl, hD'.self _ hlt⟩

theorem joinBranches_nil (h : joinBranches type [] env s = .ok r s') : r = none ∧ s = s' := by
  obtain ⟨rfl, rfl⟩ := pure_ok h
  exact ⟨rfl, rfl⟩

theorem branching_lowers {c : Operand}
    (hc : Given U c) (hthen : Lowers U thenPart) (helse : Lowers U elsePart) :
    Lowers U (branching c type thenPart elsePart) := by
  intro env s r s' f hp hopen hrun
  obtain ⟨_, _, _, s2, _, s4, _, f4, p, q, hforked, -, -, hjoin⟩ :=
    branching_forked hthen helse hp hopen hrun
  have h := hforked.arms hc hp.lt hopen
  obtain ⟨hlive, hb, hc⟩ | ⟨a, t, hlive, ha, hopen⟩ | ⟨hlive, hb, hc⟩ :=
    liveAt_cases f4 s2.block s4.block p q
  all_goals rw [hlive] at hjoin
  · obtain ⟨rfl, rfl⟩ := joinBranches_nil hjoin
    exact ⟨f4, h.closed hb hc, by simp⟩
  · obtain ⟨name, hm, hblock, hr⟩ := joinBranches_one hjoin h.placed.func
    obtain ⟨hg, hopen'⟩ := h.one ha hopen hm hblock
    refine ⟨_, ?_, fun _ => hopen'⟩
    obtain ⟨-, rfl⟩ | ⟨-, x, rfl, rfl⟩ := hr
    · refine { hg with carries := fun D hD hU => ?_ }
      obtain ⟨D', hD', hagree, hmono, -⟩ := hg.carries D hD hU
      refine ⟨D', hD', hagree, hmono, fun v hv => ?_⟩
      obtain rfl := List.mem_singleton.mp hv
      trivial
    · exact hg
  · obtain ⟨f', hg, hopen'⟩ := h.two hp.lt hb hc hjoin
    exact ⟨f', hg, fun _ => hopen'⟩

/-! ## Loops -/

/-- A loop: what is tested before every turn, and what is done in one. -/
def looping (condPart bodyPart : Build Result) : Build Result := do
  let head ← addBlock "whilehead"
  let inside ← addBlock "whilebody"
  let after ← addBlock "endwhile"
  terminate (.br (.block head))
  setBlock head
  let c ← use (← condPart)
  if ← terminated then violation .divergentCondition
  terminate (.condBr c.value (.block inside) (.block after))
  setBlock inside
  let _ ← bodyPart
  if !(← terminated) then terminate (.br (.block head))
  setBlock after
  return some .void

/-- The function after a turn of a loop, whose last block goes back to the head. -/
def turned (f : Func) (last head : Nat) : Func :=
  if (f.term? last).isSome then f else f.terminate last (.br (.block head))

theorem turned_kept {last head : Nat} (hlt : last < f.blocks.size) :
    f.Keeps (turned f last head) ∧ (∀ b, (turned f last head).code b = f.code b) ∧
      ∃ t, (turned f last head).term? last = some t := by
  unfold turned
  split
  · next hterm => exact ⟨.refl _, fun _ => rfl, Option.isSome_iff_exists.mp hterm⟩
  · next hterm =>
    exact ⟨(Edit.terminate hlt (by simpa using hterm)).keeps, by simp, _,
      (term?_terminate hlt).trans (if_pos rfl)⟩

/-- The function in which a condition leads into the body of a loop or to its exit. -/
def tested (f : Func) (last : Nat) (c : Operand) (head : Nat) : Func :=
  f.terminate last (.condBr c (.block (head + 1)) (.block (head + 2)))

/-- The parts of a loop: the condition leads from `s1` to `s2`, the body from `s3` to
`s4`. -/
structure Looped (U : List Operand) (s : State) (f : Func) (x y z : String) (c : Held)
    (s1 s2 s3 s4 : State) (f2 f4 : Func) (q : Result) (s' : State) : Prop where
  moved1 : Moved s s1 (f.lead s.block x y z)
  block1 : s1.block = f.blocks.size
  placed1 : Placed s1 (f.lead s.block x y z)
  open1 : (f.lead s.block x y z).term? s1.block = none
  grown2 : Grown U (Result.operands (some c)) s1 (f.lead s.block x y z) s2 f2
  open2 : f2.term? s2.block = none
  moved3 : Moved s2 s3 (tested f2 s2.block c.value f.blocks.size)
  block3 : s3.block = f.blocks.size + 1
  placed3 : Placed s3 (tested f2 s2.block c.value f.blocks.size)
  evolves3 : f.Evolves s.block (tested f2 s2.block c.value f.blocks.size)
    (fun c => c = f.blocks.size + 1 ∨ c = f.blocks.size + 2)
  grown4 : Grown U q.operands s3 (tested f2 s2.block c.value f.blocks.size) s4 f4
  moved : Moved s4 s' (turned f4 s4.block f.blocks.size)
  block : s'.block = f.blocks.size + 2

theorem looping_looped (hcond : Lowers U condPart) (hbody : Lowers U bodyPart) (hp : Placed s f)
    (hopen : f.term? s.block = none) (h : looping condPart bodyPart env s = .ok r s') :
    ∃ x y z c s1 s2 s3 s4 f2 f4 q, Looped U s f x y z c s1 s2 s3 s4 f2 f4 q s' ∧
      condPart env s1 = .ok (some c) s2 ∧ bodyPart env s3 = .ok q s4 ∧ r = some .void := by
  obtain ⟨_, _, h1, h⟩ := bind_ok h
  obtain ⟨rfl, x, e1⟩ := addBlock_ok h1 hp.func
  obtain ⟨_, _, h1, h⟩ := bind_ok h
  obtain ⟨rfl, y, e2⟩ := addBlock_ok h1 e1.func
  obtain ⟨_, _, h1, h⟩ := bind_ok h
  obtain ⟨rfl, z, e3⟩ := addBlock_ok h1 e2.func
  obtain ⟨_, _, h1, h⟩ := bind_ok h
  have e4 := terminate_ok h1 e3.func
  rw [e3.block, e2.block, e1.block] at e4
  obtain ⟨_, s1, h1, h⟩ := bind_ok h
  obtain ⟨m5, hb1⟩ := setBlock_ok h1 e4.func
  have m1 := (((e1.trans e2).trans e3).trans e4).toMoved.trans m5
  -- the head, from where the condition is tested
  have hev1 := Ir.Func.evolves_lead (x := x) (y := y) (z := z) hp.lt hopen
  obtain ⟨hp1, hopen1⟩ := m1.entered hev1 hp hb1 (.inl rfl)
  obtain ⟨p, s2, hrun1, h⟩ := bind_ok h
  obtain ⟨c, _, h1, h⟩ := bind_ok h
  obtain ⟨rfl, rfl⟩ := use_ok h1
  simp only [Ir.Func.blocks_size_addBlock] at h
  obtain ⟨f2, hg2, hval2⟩ := hcond hp1 hopen1 hrun1
  have hopen2 := hval2 rfl
  replace h := terminated_then h hg2.placed.func
  split at h
  · exact absurd h refused_ne_ok
  obtain ⟨_, _, h1, h⟩ := bind_ok h
  have e6 := terminate_ok h1 hg2.placed.func
  obtain ⟨_, s3, h1, h⟩ := bind_ok h
  obtain ⟨m7, hb3⟩ := setBlock_ok h1 e6.func
  have m3 := e6.toMoved.trans m7
  have hev2 := hg2.evolvesOpen hopen2
  rw [hb1] at hev2
  have hwhere2 : s2.block = f.blocks.size ∨ f.blocks.size + 3 ≤ s2.block := by
    have hwhere := hg2.block
    simp only [hb1, Ir.Func.blocks_size_terminate, Ir.Func.blocks_size_addBlock] at hwhere
    omega
  have hev3 : f.Evolves s.block (tested f2 s2.block c.value f.blocks.size)
      (fun c => c = f.blocks.size + 1 ∨ c = f.blocks.size + 2) := by
    refine ((hev1.continue (.inl rfl) hev2).terminate (.inr rfl)).congr fun c => ?_
    omega
  -- the body
  obtain ⟨-, hlt3, hopen3⟩ := hev3.opened _ (.inl rfl)
  rw [← hb3] at hlt3 hopen3
  have hp3 := m3.placed hg2.placed (Edit.terminate hg2.placed.lt hopen2).keeps hlt3
  obtain ⟨q, s4, hrun3, h⟩ := bind_ok h
  obtain ⟨f4, hg4, -⟩ := hbody hp3 hopen3 hrun3
  replace h := terminated_then h hg4.placed.func
  have hlast : ∀ {s5 f5}, Moved s4 s5 f5 → (do
      setBlock (f.blocks.size + 2)
      return some .void : Build Result) env s5 = .ok r s' →
      Moved s4 s' f5 ∧ s'.block = f.blocks.size + 2 ∧ r = some .void := by
    intro s5 f5 hm h
    obtain ⟨_, _, h1, h⟩ := bind_ok h
    obtain ⟨m6, hb6⟩ := setBlock_ok h1 hm.func
    obtain ⟨rfl, rfl⟩ := pure_ok h
    exact ⟨hm.trans m6, hb6, rfl⟩
  have hend : Moved s4 s' (turned f4 s4.block f.blocks.size) ∧ s'.block = f.blocks.size + 2 ∧
      r = some .void := by
    unfold turned
    split
    · next hterm =>
      simp only [hterm] at h
      exact hlast ((Still.refl _).edited hg4.placed.func).toMoved h
    · next hterm =>
      simp only [hterm] at h
      obtain ⟨_, _, h1, h⟩ := bind_ok h
      exact hlast (terminate_ok h1 hg4.placed.func).toMoved h
  exact ⟨x, y, z, c, s1, s2, s3, s4, f2, f4, q, ⟨m1, hb1, hp1, hopen1, hg2, hopen2, m3, hb3, hp3,
    hev3, hg4, hend.1, hend.2.1⟩, hrun1, hrun3, hend.2.2⟩

/-- The function once the condition of a loop is tested: the body and the exit are
still empty. -/
theorem Grown.formed_tested {z : String} {c : Held}
    (hg : Grown U (Result.operands (some c)) s1 (f.lead s.block x y z) s2 f2)
    (hlt : s.block < f.blocks.size) (hopen : f.term? s.block = none)
    (hb1 : s1.block = f.blocks.size) (hopen2 : f2.term? s2.block = none) (hD : f.Formed D)
    (hU : ∀ u ∈ U, Available f D s.block u) :
    ∃ D2, (tested f2 s2.block c.value f.blocks.size).Formed D2 ∧
      ∀ b < f.blocks.size + 3, ∀ d, D2 b d ↔ D.lead f.blocks.size s.block b d := by
  have hev1 := Ir.Func.evolves_lead (x := x) (y := y) (z := z) hlt hopen
  have hev2 := hg.evolvesOpen hopen2
  rw [hb1] at hev2
  have hsize2 := hev2.size
  rw [blocks_size_lead] at hsize2
  have hwhere2 : s2.block = f.blocks.size ∨ f.blocks.size + 3 ≤ s2.block := by
    simpa [hb1] using hg.block
  have hD1 := hD.lead (x := x) (y := y) (z := z) hlt hopen
  have hU1 : ∀ u ∈ U, Available (f.lead s.block x y z) (D.lead f.blocks.size s.block) s1.block
      u := by
    rw [hb1]
    exact fun u hu => (hU u hu).grow hev1.built.keeps fun d hd =>
      Dominators.lead_head.mpr (.inr hd)
  obtain ⟨D2, hD2, hagree2, hmono2, hval⟩ := hg.carries _ hD1 hU1
  rw [hb1] at hmono2
  rw [blocks_size_lead] at hagree2
  have hempty : ∀ b, b = f.blocks.size + 1 ∨ b = f.blocks.size + 2 → f2.code b = [] := by
    intro b hb
    rw [hev2.code_kept (by simp; omega) (by omega) (by omega), code_lead,
      code_of_size_le (by omega)]
  refine ⟨D2, hD2.terminate hg.placed.lt hopen2 ?_ fun v hv => ?_, hagree2⟩
  · intro v hv
    obtain rfl := List.mem_singleton.mp hv
    exact hval _ (by simp)
  · rcases List.mem_cons.mp hv with rfl | hv
    · refine ⟨_, rfl, ⟨by omega, by omega, fun d hd => ?_⟩, by simp [hempty]⟩
      refine (Dominators.lead_body.mp ((hagree2 _ (by omega) d).mp hd)).imp_right
        (hmono2 d)
    · obtain rfl := List.mem_singleton.mp hv
      refine ⟨_, rfl, ⟨by omega, by omega, fun d hd => ?_⟩, by simp [hempty]⟩
      refine (Dominators.lead_exit.mp ((hagree2 _ (by omega) d).mp hd)).imp_right
        (hmono2 d)

theorem looping_emits (hcond : Lowers U condPart) (hbody : Lowers U bodyPart) :
    Emits U (looping condPart bodyPart) Result.operands := by
  intro env s r s' f hp hopen hrun
  obtain ⟨x, y, z, c, s1, s2, s3, s4, f2, f4, q, h, -, -, rfl⟩ :=
    looping_looped hcond hbody hp hopen hrun
  have hn := hp.lt
  have hev1 := Ir.Func.evolves_lead (x := x) (y := y) (z := z) hp.lt hopen
  have hev2 := h.grown2.evolvesOpen h.open2
  rw [h.block1] at hev2
  have hwhere2 : s2.block = f.blocks.size ∨ f.blocks.size + 3 ≤ s2.block := by
    simpa [h.block1] using h.grown2.block
  have hev3 := h.evolves3
  have hsize3 := (hev3.opened _ (.inr rfl)).2.1
  have hev4 := h.grown4.evolves
  rw [h.block3] at hev4
  have hwhere4 := h.grown4.block
  rw [h.block3] at hwhere4
  have hboth := hev3.continue (.inl rfl) hev4
  -- the way back
  have hev : f.Evolves s.block (turned f4 s4.block f.blocks.size) (· = s'.block) := by
    rw [h.block]
    unfold turned
    split
    · next hterm =>
      refine hboth.congr fun c => ⟨?_, ?_⟩
      · rintro rfl
        exact .inl ⟨.inr rfl, by omega⟩
      · rintro (⟨hc, hne⟩ | ⟨rfl, hc⟩)
        · omega
        · rw [hc] at hterm
          exact absurd hterm (by simp)
    · next hterm =>
      have hopen4 : f4.term? s4.block = none := by simpa using hterm
      refine (hboth.terminate (.inr ⟨rfl, hopen4⟩)).congr fun c => ⟨?_, ?_⟩
      · rintro rfl
        exact ⟨.inl ⟨.inr rfl, by omega⟩, by omega⟩
      · rintro ⟨⟨hc, hne⟩ | ⟨rfl, hc⟩, hne'⟩
        · omega
        · exact absurd rfl hne'
  refine ⟨_, Grown.ofOpen (h.moved.placed h.grown4.placed (turned_kept h.grown4.placed.lt).1
      (hev.opened _ rfl).2.1)
    ((((h.moved1.framed.trans h.grown2.framed).trans h.moved3.framed).trans h.grown4.framed).trans
      h.moved.framed) hev fun D hD hU => ?_⟩
  obtain ⟨D2, hD3, hagree2⟩ := h.grown2.formed_tested hp.lt hopen h.block1 h.open2 hD hU
  -- what dominates the head dominates the body and the exit
  have hhead : ∀ d, D.lead f.blocks.size s.block f.blocks.size d →
      D2 (f.blocks.size + 1) d := fun d hd =>
    (hagree2 _ (by omega) d).mpr (Dominators.lead_body.mpr (.inr hd))
  have hU3 : ∀ u ∈ U, Available (tested f2 s2.block c.value f.blocks.size) D2 s3.block u := by
    rw [h.block3]
    exact fun u hu => (hU u hu).grow hev3.built.keeps fun d hd =>
      hhead d (Dominators.lead_head.mpr (.inr hd))
  obtain ⟨D4, hD4, hagree4, hmono4, -⟩ := h.grown4.carries _ hD3 hU3
  rw [h.block3] at hmono4
  have hagree : ∀ b < f.blocks.size + 3, ∀ d, D4 b d ↔ D.lead f.blocks.size s.block b d :=
    fun b hb d => (hagree4 b (by omega) d).trans (hagree2 b hb d)
  refine ⟨D4, ?_, fun b hb d => ?_, fun d hd => ?_, fun v hv => ?_⟩
  · unfold turned
    split
    · exact hD4
    · next hterm =>
      refine hD4.terminate h.grown4.placed.lt (by simpa using hterm) (by simp [Term.operands])
        fun v hv => ?_
      obtain rfl := List.mem_singleton.mp hv
      have hsize4 := hev4.size
      refine ⟨_, rfl, ⟨by omega, by omega, fun d hd => .inr (hmono4 d (hhead d ?_))⟩,
        fun i hi => ?_⟩
      · exact (hagree _ (by omega) d).mp hd
      · -- the head was empty, and what came to it is no phi
        obtain ⟨extra, hextra, hno⟩ := hev2.first
        rw [hev4.code_kept (by omega) (by omega) (by omega), tested, Ir.Func.code_terminate, hextra,
          code_lead, code_of_size_le (Nat.le_refl _), List.nil_append] at hi
        exact (hno i hi).2
  · rw [hagree b (by omega) d]
    exact Dominators.lead_of_lt hb
  · rw [h.block, hagree _ (by omega) d, Dominators.lead_exit, Dominators.lead_head]
    exact .inr (.inr hd)
  · obtain rfl := List.mem_singleton.mp hv
    trivial

end Tenure.Lowering

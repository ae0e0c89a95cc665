import Tenure.Proofs.EmittedBodies
import Tenure.Proofs.Resolution

/-!
# Putting a module together

A module is built in a fixed order: declarations first, which are functions
without blocks, then the drop functions, the method tables and the bodies.  Every
function that is filled was empty until then and is never touched again.
-/

namespace Tenure.Lowering

open Ir (Ty Operand Term Func)

variable {env : Env} {s s' s'' : State} {f g : Func}
variable {count i : Nat} {u : Unit} {d : StructDef} {ds : List StructDef}

/-! ## Loops over lists -/

/-- What every turn of a loop keeps, with the elements still to come, holds at the
end with none left. -/
theorem forIn_ok {γ : Type} {xs : List γ} {body : γ → Build (ForInStep PUnit)} {u : PUnit}
    (P : List γ → State → Prop)
    (hstep : ∀ x xs s r s', P (x :: xs) s → body x env s = .ok r s' →
      r = .yield PUnit.unit ∧ P xs s')
    (hP : P xs s) (h : forIn xs PUnit.unit (fun x _ => body x) env s = .ok u s') : P [] s' := by
  induction xs generalizing s with
  | nil =>
    rw [List.forIn_nil] at h
    obtain ⟨-, rfl⟩ := pure_ok h
    exact hP
  | cons x xs ih =>
    rw [List.forIn_cons] at h
    obtain ⟨r, s1, h1, h⟩ := bind_ok h
    obtain ⟨rfl, hP1⟩ := hstep x xs s r s1 hP h1
    exact ih hP1 h

theorem ownIndex_toNat {id : Int} (h : ownIndex id count env s = .ok i s') :
    id.toNat = i ∧ s = s' := by
  unfold ownIndex at h
  split at h
  · exact pure_ok h
  · exact absurd h throw_ne_ok

variable {pos k func : Nat} {p q : Nat → Prop} {fn : Function} {rs : List (Option Reference)}

theorem ownIndex_ok (h : ownIndex k count env s = .ok i s') : k = i ∧ s = s' :=
  ownIndex_toNat h

/-! ## Filling a function -/

/-- What stays as it was while functions are filled; of the functions, those of a
set. -/
structure Later (fixed : Nat → Prop) (s s' : State) : Prop extends Tables s s' where
  edges : s'.itables = s.itables
  count : s'.module.funcs.size = s.module.funcs.size
  kept : ∀ i, fixed i → s'.module.funcs[i]? = s.module.funcs[i]?

theorem Later.refl (fixed : Nat → Prop) (s : State) : Later fixed s s :=
  ⟨.refl s, rfl, rfl, fun _ _ => rfl⟩

theorem Later.trans (h : Later p s s') (h' : Later q s' s'') :
    Later (fun i => p i ∧ q i) s s'' where
  toTables := h.toTables.trans h'.toTables
  edges := h'.edges.trans h.edges
  count := h'.count.trans h.count
  kept i hi := (h'.kept i hi.2).trans (h.kept i hi.1)

theorem Later.mono (h : Later p s s') (hpq : ∀ i, q i → p i) : Later q s s' :=
  { h with kept := fun i hi => h.kept i (hpq i hi) }

theorem Framed.later (h : Framed s s') : Later (· ≠ s.func) s s' :=
  ⟨h.toTables, h.edges, h.count, h.others⟩

/-- Lowering stands at the first block of a function that was empty. -/
structure Started (s : State) (g : Func) : Prop where
  placed : Placed s (g.addBlock "entry")
  empty : g.blocks = #[]
  block : s.block = 0
  slots : s.slots = []

theorem Started.isOpen (h : Started s g) : (g.addBlock "entry").term? s.block = none := by
  rw [Ir.Func.term?_addBlock, Ir.Func.term?_of_size_le (by simp [h.empty])]

/-- All literals met so far are constants. -/
def LiteralsConst (s : State) : Prop := ∀ p ∈ s.literals, ∃ c, p.2 = .const c

theorem beginFunc_ok (h : beginFunc i env s = .ok u s')
    (hg : s.module.funcs[i]? = some g) (hempty : g.blocks = #[]) (hl : LiteralsConst s) :
    Started s' g ∧ s'.func = i ∧ Later (· ≠ i) s s' ∧ s'.literals = s.literals := by
  obtain ⟨_, s1, h1, h⟩ := bind_ok h
  have hs1 := modify_ok h1
  have hfunc : s1.module.funcs[s1.func]? = some g := by rw [hs1]; exact hg
  obtain ⟨_, _, h1, h⟩ := bind_ok h
  obtain ⟨rfl, rfl⟩ := currentFunc_ok h1 hfunc
  obtain ⟨_, s2, h1, h⟩ := bind_ok h
  have e := modifyFunc_ok h1 hfunc
  obtain ⟨m, hb⟩ := setBlock_ok h e.func
  have hm := e.toMoved.trans m
  have hf : s1.func = i := by rw [hs1]
  have hslots : s'.slots = [] := by rw [hm.slots, hs1]
  have hlits : s'.literals = s.literals := by rw [hm.literals, hs1]
  have hblock : s'.block = 0 := by rw [hb, hempty]; rfl
  refine ⟨⟨⟨hm.func, ?_, ?_, ?_⟩, hempty, hblock, hslots⟩, hm.framed.func.trans hf, ?_, hlits⟩
  · simp [hblock]
  · rw [hslots]
    simp
  · rw [hlits]
    exact hl
  · have := hm.framed.later
    rw [hf] at this
    rw [hs1] at this
    exact ⟨{ this.toTables with }, this.edges, this.count, this.kept⟩

/-- A function that has been filled. -/
structure Complete (f : Func) : Prop where
  ssa : f.IsSsa
  built : ∃ g : Func, g.blocks = #[] ∧ Ir.Func.Built g f

/-- The table of a function with its entry only. -/
theorem formed_entry (hempty : g.blocks = #[]) :
    (g.addBlock "entry").Formed (fun b d => b = 0 ∧ d = 0) := by
  have hno : ∀ {b j i}, ¬ (g.addBlock "entry").Has b j i := by
    intro b j i h
    unfold Ir.Func.Has at h
    rw [Ir.Func.code_addBlock, Ir.Func.code_of_size_le (by simp [hempty])] at h
    exact absurd h (by simp)
  have hopen : ∀ {b t}, (g.addBlock "entry").term? b ≠ some t := by
    intro b t h
    rw [Ir.Func.term?_addBlock, Ir.Func.term?_of_size_le (by simp [hempty])] at h
    exact absurd h (by simp)
  have hsize : (g.addBlock "entry").blocks.size = 1 := by simp [hempty]
  refine ⟨fun b hb => by omega, fun b hb => by omega, fun d hd => hd.2, ?_, ?_, ?_, ?_, ?_, ?_, ?_,
    ?_⟩
  · exact fun b t ht => absurd ht hopen
  · exact fun b j i hi => absurd hi hno
  · exact fun b i c j x y hx => absurd hx hno
  · exact fun b j i hi => absurd hi hno
  · exact fun b t ht => absurd ht hopen
  · exact fun b j i hi => absurd hi hno
  · exact fun b j i incoming hi => absurd hi hno
  · exact fun b j i incoming hi => absurd hi hno

/-- A function that was filled from its entry on, and has no open block left, is
complete. -/
theorem Complete.of_evolves {D : Ir.Func.Dominators} (hempty : g.blocks = #[])
    (hev : (g.addBlock "entry").Evolves 0 f (fun _ => False)) (hD : f.Formed D) : Complete f := by
  refine ⟨hD.isSsa fun b hb => hev.closed b ?_ hb fun h => h, g, hempty, ?_⟩
  · have : (g.addBlock "entry").blocks.size = 1 := by simp [hempty]
    omega
  · exact Relation.ReflTransGen.head .addBlock hev.built

section Finishing

variable {U V : List Operand} {s1 : State} {f1 : Func} {x : Option Operand}

/-- A function whose last block was left open is complete once that returns. -/
theorem Started.returned (h : Started s g)
    (hU : ∀ u ∈ U, ∃ i t, u = .param i t ∧ i < g.params.length)
    (hg : Grown U V s (g.addBlock "entry") s1 f1) (hopen : f1.term? s1.block = none)
    (hx : ∀ v ∈ x.toList, Given V v) : Complete (f1.terminate s1.block (.ret x)) := by
  have hev := (hg.evolvesOpen hopen).terminate (b := s1.block) (t := .ret x) rfl
  rw [h.block] at hev
  obtain ⟨D, hD, -, -, hV⟩ := hg.carries _ (formed_entry h.empty) fun u hu => by
    obtain ⟨i, t, rfl, hi⟩ := hU u hu
    exact hi
  refine .of_evolves h.empty (hev.congr fun c => ?_) (hD.terminate hg.placed.lt hopen
    (fun v hv => Available.of_given (hx v hv) hV) (by simp [Term.successors]))
  simp

/-- A function whose control has ended everywhere is complete. -/
theorem Started.ended (h : Started s g) (hg : Grown [] V s (g.addBlock "entry") s1 f1)
    (hclosed : (f1.term? s1.block).isSome) : Complete f1 := by
  have hev := hg.evolves
  rw [h.block] at hev
  obtain ⟨D, hD, -⟩ := hg.carries _ (formed_entry h.empty) (by simp)
  refine .of_evolves h.empty (hev.congr fun c => ?_) hD
  rw [false_iff]
  rintro ⟨rfl, hc⟩
  rw [hc] at hclosed
  exact absurd hclosed (by simp)

end Finishing

/-! ## Drop functions -/

/-- What a drop function does with the object it is given. -/
def dropBody (i : Nat) (d : StructDef) : Build Unit := do
  let layout := wrapperType (← getProgram) i
  let object ← emitBitcast (.param 0 .i8Ptr) (.ptr layout)
  buildDropFunc.members layout object 0 d.members
  let _ ← emitCall RuntimeFunc.free.operand [.param 0 .i8Ptr]

theorem buildDropFunc_eq :
    buildDropFunc i d func = (do
      beginFunc func
      dropBody i d
      terminate (.ret none)) := by
  simp only [buildDropFunc, dropBody, bind_assoc, pure_bind]

instance {U : List Operand} {layout : Ty} {object : Operand} {j : Nat} {ms : List StructMember}
    [Handed U object] : Orderly U (buildDropFunc.members layout object j ms) := by
  induction ms generalizing U j <;> unfold buildDropFunc.members <;> infer_instance

instance : Orderly [.param 0 .i8Ptr] (dropBody i d) := by
  unfold dropBody
  infer_instance

theorem buildDropFunc_ok (h : buildDropFunc i d func env s = .ok u s')
    (hg : s.module.funcs[func]? = some g) (hempty : g.blocks = #[]) (hl : LiteralsConst s) :
    ∃ s0 s1, Later (· ≠ func) s s0 ∧ s0.func = func ∧ Started s0 g ∧
      dropBody i d env s0 = .ok () s1 ∧
      ∀ f1, s1.module.funcs[s1.func]? = some f1 →
        Edited s1 s' (f1.terminate s1.block (.ret none)) := by
  rw [buildDropFunc_eq] at h
  obtain ⟨_, s0, h1, h⟩ := bind_ok h
  obtain ⟨hstart, hfunc, hlater, -⟩ := beginFunc_ok h1 hg hempty hl
  obtain ⟨_, s1, h2, h⟩ := bind_ok h
  exact ⟨s0, s1, hlater, hfunc, hstart, h2, fun f1 hf1 => terminate_ok h hf1⟩

/-! ## Bodies -/

/-- The function with its last block ended: what was left open returns. -/
def returning (f : Func) (b : Nat) (r : Result) : Func :=
  if (f.term? b).isSome then f
  else f.terminate b (.ret (some ((r.map (·.value)).getD voidValue)))

theorem buildBody_ok (h : buildBody fn env s = .ok u s') (hid : fn.proto.id = k)
    (hk : s.funcs[k]? = some (some pos)) (hg : s.module.funcs[pos]? = some g)
    (hempty : g.blocks = #[]) (hl : LiteralsConst s) :
    ∃ s0 r s1, Later (· ≠ pos) s s0 ∧ s0.func = pos ∧
      Started s0 { g with nounwinds := g.nounwinds + 1 } ∧ lower fn.body env s0 = .ok r s1 ∧
      ∀ f1, s1.module.funcs[s1.func]? = some f1 →
        Edited s1 s' (returning f1 s1.block r) ∧
        (f1.term? s1.block = none → r = none → ∃ t, fn.proto.result = some t ∧ t.referend = .void)
      := by
  replace h := get_then h
  obtain ⟨_, _, h1, h⟩ := bind_ok h
  rw [hid] at h1
  obtain ⟨rfl, rfl⟩ := ownIndex_ok h1
  replace h := get_then h
  obtain ⟨position, hpos, h⟩ := require_then h
  obtain rfl : pos = position := by
    rw [hk] at hpos
    exact Option.some.inj hpos
  obtain ⟨_, s1, h1, h⟩ := bind_ok h
  have hs1 := modify_ok h1
  obtain ⟨_, s0, h2, h⟩ := bind_ok h
  have hg1 : s1.module.funcs[pos]? = some { g with nounwinds := g.nounwinds + 1 } := by
    rw [hs1]
    simp [Array.getElem?_modify, hg]
  obtain ⟨hstart, hfunc, hlater, -⟩ := beginFunc_ok h2 hg1 hempty (by rw [hs1]; exact hl)
  obtain ⟨r, s2, hbody, h⟩ := bind_ok h
  refine ⟨s0, r, s2, ?_, hfunc, hstart, hbody, fun f1 hf1 => ?_⟩
  · have hmod : Later (· ≠ pos) s s1 := by
      rw [hs1]
      refine ⟨{ Tables.refl _ with }, rfl, by simp, fun i hi => ?_⟩
      simp only [Array.getElem?_modify]
      rw [if_neg (fun h => hi h.symm)]
    exact (hmod.trans hlater).mono fun i hi => ⟨hi, hi⟩
  replace h := terminated_then h hf1
  unfold returning
  cases hterm : f1.term? s2.block with
  | some t =>
    rw [hterm] at h
    obtain ⟨-, rfl⟩ := pure_ok h
    exact ⟨(Still.refl _).edited hf1, by simp⟩
  | none =>
    rw [hterm] at h
    cases r with
    | some x => exact ⟨terminate_ok h hf1, by simp⟩
    | none =>
      obtain ⟨t, ht, h⟩ := require_then h
      split at h
      · next hvoid => exact ⟨terminate_ok h hf1, fun _ _ => ⟨t, ht, hvoid⟩⟩
      · exact absurd h throw_ne_ok

/-! ## Functions that have been filled -/

section Filling

variable {α : Type} {x : Build α} {a : α} {s0 s1 : State} {f1 F : Func}

/-- The code of a piece was written into a function from its entry on; the tables of
the last state have come from there. -/
structure Filling (env : Env) (final : State) (x : Build α) (s0 : State) (g : Func) (a : α)
    (s1 : State) (f1 : Func) : Prop where
  started : Started s0 g
  ok : x env s0 = .ok a s1
  ended : Placed s1 f1
  tables : Tables s1 final

theorem Filling.mono (h : Filling env s x s0 g a s1 f1) (ht : Tables s s') :
    Filling env s' x s0 g a s1 f1 :=
  { h with tables := h.tables.trans ht }

/-- A function of the program has been filled with its body. -/
def BodyAt (env : Env) (final : State) (fn : Function) (F : Func) : Prop :=
  ∃ s0 g r s1 f1, Filling env final (lower fn.body) s0 g r s1 f1 ∧ F = returning f1 s1.block r

/-- A drop function has been filled. -/
def DropAt (env : Env) (final : State) (i : Nat) (d : StructDef) (F : Func) : Prop :=
  ∃ s0 g s1 f1, Filling env final (dropBody i d) s0 g () s1 f1 ∧ 0 < g.params.length ∧
    F = f1.terminate s1.block (.ret none)

theorem BodyAt.mono {fn : Function} (h : BodyAt env s fn f) (ht : Tables s s') :
    BodyAt env s' fn f := by
  obtain ⟨s0, g, r, s1, f1, hfill, hF⟩ := h
  exact ⟨s0, g, r, s1, f1, hfill.mono ht, hF⟩

theorem DropAt.mono (h : DropAt env s i d f) (ht : Tables s s') : DropAt env s' i d f := by
  obtain ⟨s0, g, s1, f1, hfill, hparams, hF⟩ := h
  exact ⟨s0, g, s1, f1, hfill.mono ht, hparams, hF⟩

/-- One function has been filled, with something that is known of it. -/
structure FilledAt (pos : Nat) (R : State → Func → Prop) (s s' : State) : Prop where
  func : s'.func = pos
  later : Later (· ≠ pos) s s'
  literals : LiteralsConst s'
  filled : ∃ f, s'.module.funcs[pos]? = some f ∧ Complete f ∧ R s' f

/-- A function was begun, written and ended. -/
theorem FilledAt.of_grown {U V : List Operand} {R : State → Func → Prop}
    (hlater : Later (· ≠ s0.func) s s0) (hgrown : Grown U V s0 g s1 f1) (e : Edited s1 s' F)
    (hF : Complete F) (hR : R s' F) : FilledAt s0.func R s s' := by
  have hfunc : s'.func = s0.func := e.framed.func.trans hgrown.framed.func
  refine ⟨hfunc, ?_, ?_, F, ?_, hF, hR⟩
  · have := (hlater.trans hgrown.framed.later).trans e.framed.later
    refine this.mono fun i hi => ⟨⟨hi, hi⟩, ?_⟩
    rwa [hgrown.framed.func]
  · intro p hp
    rw [e.literals] at hp
    exact hgrown.placed.literals p hp
  · have := e.func
    rwa [hfunc] at this

end Filling

theorem buildDropFunc_filled (h : buildDropFunc i d pos env s = .ok u s')
    (hg : s.module.funcs[pos]? = some g) (hempty : g.blocks = #[]) (hparams : 0 < g.params.length)
    (hl : LiteralsConst s) :
    FilledAt pos (fun t F => DropAt env t i d F ∧ F.params = g.params) s s' := by
  obtain ⟨s0, s1, hlater, rfl, hstart, hbody, hend⟩ := buildDropFunc_ok h hg hempty hl
  obtain ⟨f1, hgrown, hopen⟩ := Orderly.emits (U := [.param 0 .i8Ptr])
    hstart.placed hstart.isOpen hbody
  have e := hend f1 hgrown.placed.func
  refine .of_grown hlater hgrown e ?_ ⟨⟨s0, g, s1, f1, ⟨hstart, hbody, hgrown.placed,
    e.framed.toTables⟩, hparams, rfl⟩, hgrown.evolves.params⟩
  refine hstart.returned (U := [.param 0 .i8Ptr]) (x := none) (fun u hu => ?_)
    hgrown hopen (by simp)
  rw [List.mem_singleton.mp hu]
  exact ⟨0, _, rfl, hparams⟩

theorem buildBody_filled (h : buildBody fn env s = .ok u s') (hid : fn.proto.id = k)
    (hk : s.funcs[k]? = some (some pos)) (hg : s.module.funcs[pos]? = some g)
    (hempty : g.blocks = #[]) (hl : LiteralsConst s) :
    FilledAt pos (fun t F => BodyAt env t fn F) s s' := by
  obtain ⟨s0, r, s1, hlater, rfl, hstart, hbody, hend⟩ := buildBody_ok h hid hk hg hempty hl
  obtain ⟨f1, hgrown, hval⟩ := (lowerExpr_lowers [] fn.body).arriving hstart.placed hstart.isOpen
    hbody
  obtain ⟨e, -⟩ := hend f1 hgrown.placed.func
  refine .of_grown hlater hgrown e ?_ ⟨s0, _, r, s1, f1, ⟨hstart, hbody, hgrown.placed,
    e.framed.toTables⟩, rfl⟩
  unfold returning
  split
  · next hclosed => exact hstart.ended hgrown hclosed
  · next hterm =>
    refine hstart.returned (U := []) (by simp) hgrown (by simpa using hterm) fun v hv => ?_
    obtain rfl := List.mem_singleton.mp hv
    cases r with
    | none => exact given_const
    | some x => exact given_of_mem (by simp)

/-- Every function is empty or complete. -/
def Sound (s : State) : Prop :=
  ∀ (i : Nat) (f : Func), s.module.funcs[i]? = some f → f.blocks = #[] ∨ Complete f

theorem FilledAt.sound {R : State → Func → Prop} (h : FilledAt pos R s s') (hs : Sound s) :
    Sound s' := by
  intro i f hf
  by_cases hi : i = pos
  · subst hi
    obtain ⟨f', hf', hc, -⟩ := h.filled
    rw [hf] at hf'
    obtain rfl := Option.some.inj hf'
    exact .inr hc
  · rw [h.later.kept i hi] at hf
    exact hs i f hf

/-- Functions have been filled one after the other, from a place on, one for every
element of a list. -/
inductive FilledAll {γ : Type} (base : Nat) (R : Nat → γ → State → Func → Prop) :
    Nat → List γ → State → State → Prop where
  | nil {k : Nat} {s : State} : FilledAll base R k [] s s
  | cons {k : Nat} {x : γ} {xs : List γ} {s s1 s' : State} :
      FilledAt (base + k) (R k x) s s1 → FilledAll base R (k + 1) xs s1 s' →
      FilledAll base R k (x :: xs) s s'

section FilledAll

variable {γ : Type} {base k : Nat} {R : Nat → γ → State → Func → Prop} {xs : List γ}

theorem FilledAll.later (h : FilledAll base R k xs s s') :
    Later (fun j => j < base + k ∨ base + (k + xs.length) ≤ j) s s' := by
  induction h with
  | nil => exact .refl _ _
  | cons hfilled _ ih =>
    refine (hfilled.later.trans ih).mono fun j hj => ?_
    rw [List.length_cons] at hj
    exact ⟨by omega, by omega⟩

theorem FilledAll.sound (h : FilledAll base R k xs s s') (hs : Sound s) : Sound s' := by
  induction h with
  | nil => exact hs
  | cons hfilled _ ih => exact ih (hfilled.sound hs)

theorem FilledAll.literals (h : FilledAll base R k xs s s') (hl : LiteralsConst s) :
    LiteralsConst s' := by
  induction h with
  | nil => exact hl
  | cons hfilled _ ih => exact ih hfilled.literals

/-- What was known of a function when it was filled is so in the end, if it only depends on
tables that grow. -/
theorem FilledAll.holds (h : FilledAll base R k xs s s')
    (hR : ∀ {k x F s s'}, R k x s F → Tables s s' → R k x s' F) {j : Nat} {x : γ}
    (hx : xs[j]? = some x) :
    ∃ F, s'.module.funcs[base + (k + j)]? = some F ∧ R (k + j) x s' F := by
  induction h generalizing j with
  | nil => simp at hx
  | @cons k y ys s s1 s' hfilled hrest ih =>
    cases j with
    | zero =>
      obtain rfl : y = x := by simpa using hx
      obtain ⟨F, hF, -, hknown⟩ := hfilled.filled
      refine ⟨F, ?_, hR hknown hrest.later.toTables⟩
      rw [Nat.add_zero, hrest.later.kept _ (by omega), hF]
    | succ j =>
      have := ih (by simpa using hx)
      rwa [show k + 1 + j = k + (j + 1) by omega] at this

end FilledAll

/-! ## Declarations -/

/-- No function has a block yet. -/
def Blank (s : State) : Prop :=
  ∀ (i : Nat) (f : Func), s.module.funcs[i]? = some f → f.blocks = #[]

theorem addFunc_ok (h : addFunc g env s = .ok i s') :
    s.module.funcs.size = i ∧
      s' = { s with module := { s.module with funcs := s.module.funcs.push g } } := by
  replace h := get_then h
  obtain ⟨_, s1, h1, h⟩ := bind_ok h
  have hs := modify_ok h1
  obtain ⟨rfl, rfl⟩ := pure_ok h
  exact ⟨rfl, hs⟩

theorem Blank.append {gs : List Func} (hs : Blank s) (hgs : ∀ g ∈ gs, g.blocks = #[])
    (h : s'.module.funcs = s.module.funcs ++ gs.toArray) : Blank s' := by
  intro i f hf
  rw [h, Array.getElem?_append] at hf
  split at hf
  · exact hs i f hf
  · exact hgs f (List.mem_of_getElem? (by simpa using hf))

/-- The runtime is declared first, in its own order. -/
theorem declareRuntime_ok (h : declareRuntime env {} = .ok u s) :
    s = { module := { funcs := (RuntimeFunc.all.map (·.declaration)).toArray } } := by
  have hrun : declareRuntime env {} = .ok ()
      { module := { funcs := (RuntimeFunc.all.map (·.declaration)).toArray } } := rfl
  rw [hrun] at h
  injection h with _ hs
  exact hs.symm

/-- Only types, layouts and globals have changed. -/
structure Typed (s s' : State) : Prop where
  module : s'.module.funcs = s.module.funcs
  literals : s'.literals = s.literals
  funcs : s'.funcs = s.funcs
  dropFuncs : s'.dropFuncs = s.dropFuncs
  edges : s'.itables = s.itables

theorem Typed.refl (s : State) : Typed s s := ⟨rfl, rfl, rfl, rfl, rfl⟩

theorem Typed.trans (h : Typed s s') (h' : Typed s' s'') : Typed s s'' :=
  ⟨h'.module.trans h.module, h'.literals.trans h.literals, h'.funcs.trans h.funcs,
    h'.dropFuncs.trans h.dropFuncs, h'.edges.trans h.edges⟩

theorem Still.typed (h : Still s s') : Typed s s' :=
  ⟨h.module, h.literals, h.framed.funcs, h.framed.dropFuncs, h.framed.edges⟩

theorem setFields_ok {t : Ty} {fields : List Ty}
    (h : setFields t fields env s = .ok u s') : Typed s s' := by
  unfold setFields at h
  split at h
  · rw [modify_ok h]
    exact ⟨rfl, rfl, rfl, rfl, rfl⟩
  · obtain ⟨-, rfl⟩ := pure_ok h
    exact .refl s

theorem fillStructs_ok (h : fillStructs i ds env s = .ok u s') : Typed s s' := by
  induction ds generalizing i s with
  | nil =>
    obtain ⟨-, rfl⟩ := pure_ok h
    exact .refl s
  | cons d ds ih =>
    obtain ⟨_, _, h1, h⟩ := bind_ok h
    obtain ⟨_, _, h2, h⟩ := bind_ok h
    obtain ⟨_, _, h3, h⟩ := bind_ok h
    obtain ⟨_, _, h4, h⟩ := bind_ok h
    have hfields : Quiet (d.members.mapM fun m => lowerType m.type) :=
      .mapM fun _ => quiet_lowerType
    exact (quiet_getProgram h1).typed.trans ((hfields h2).typed.trans
      ((setFields_ok h3).trans ((setFields_ok h4).trans (ih h))))

theorem quiet_entryParams {receiver : Nat} : Quiet (entryParams receiver i rs) := by
  induction rs generalizing i with
  | nil => exact .pure
  | cons r rs ih =>
    unfold entryParams
    split
    · exact Quiet.pure.bind fun _ => ih.bind fun _ => .pure
    · exact quiet_lowerType.bind fun _ => ih.bind fun _ => .pure

theorem quiet_entryType {d : InterfaceDef} {m : Prototype} : Quiet (entryType d m) :=
  quiet_receiverIndex.bind fun _ => quiet_entryParams.bind fun _ => quiet_lowerType.bind fun _ =>
    .pure

theorem fillInterfaces_ok {ds : List InterfaceDef}
    (h : fillInterfaces i ds env s = .ok u s') : Typed s s' := by
  induction ds generalizing i s with
  | nil =>
    obtain ⟨-, rfl⟩ := pure_ok h
    exact .refl s
  | cons d ds ih =>
    obtain ⟨_, _, h1, h⟩ := bind_ok h
    obtain ⟨_, _, h2, h⟩ := bind_ok h
    obtain ⟨_, _, h3, h⟩ := bind_ok h
    have hentries : Quiet (d.methods.mapM fun m => return Ty.ptr (← entryType d m)) :=
      .mapM fun _ => quiet_entryType.bind fun _ => .pure
    exact (hentries h1).typed.trans ((quiet_getProgram h2).typed.trans
      ((setFields_ok h3).trans (ih h)))

theorem declareTypes_ok (h : declareTypes env s = .ok u s') : Typed s s' := by
  obtain ⟨_, s0, h1, h⟩ := bind_ok h
  have ht1 := (quiet_getProgram h1).typed
  obtain ⟨_, s1, h1, h⟩ := bind_ok h
  obtain ⟨_, s2, h2, h⟩ := bind_ok h
  have ht2 : Typed s0 s1 := by
    rw [modify_ok h1]
    exact ⟨rfl, rfl, rfl, rfl, rfl⟩
  exact ht1.trans (ht2.trans ((fillStructs_ok h2).trans (fillInterfaces_ok h)))

/-- Nothing is there yet but functions without code. -/
structure Fresh (s : State) : Prop where
  blank : Blank s
  literals : s.literals = []
  dropFuncs : s.dropFuncs = #[]
  itables : s.itables = #[]

/-- When the types are declared, only the runtime is there. -/
theorem declareTypes_fresh {s1 : State} {v : Unit} (h1 : declareRuntime env {} = .ok u s1)
    (h2 : declareTypes env s1 = .ok v s) : Fresh s := by
  have hs1 := declareRuntime_ok h1
  have ht := declareTypes_ok h2
  refine ⟨fun i f hf => ?_, by rw [ht.literals, hs1], by rw [ht.dropFuncs, hs1],
    by rw [ht.edges, hs1]⟩
  rw [ht.module, hs1] at hf
  obtain ⟨r, -, rfl⟩ := List.mem_map.mp (List.mem_of_getElem? (by simpa using hf))
  cases r <;> rfl

theorem quiet_lowerParams : Quiet (lowerParams i rs) := by
  induction rs generalizing i with
  | nil => exact .pure
  | cons r rs ih => exact quiet_lowerType.bind fun _ => ih.bind fun _ => .pure

/-- Functions without code have been put behind the others. -/
structure Extended (gs : List Func) (s s' : State) : Prop where
  funcs : s'.module.funcs = s.module.funcs ++ gs.toArray
  blank : ∀ g ∈ gs, g.blocks = #[]
  types : s'.module.types = s.module.types
  literals : s'.literals = s.literals
  dropFuncs : s'.dropFuncs = s.dropFuncs
  edges : s'.itables = s.itables

/-- A function is declared: it is added without blocks, and its place is noted. -/
theorem declareFunc_ok {p : Prototype} {linked : Bool} (h : declareFunc p linked env s = .ok u s') :
    ∃ g, Extended [g] s s' ∧ s'.funcs = s.funcs.set! p.id.toNat (some s.module.funcs.size) := by
  obtain ⟨params, s1, h1, h⟩ := bind_ok h
  obtain ⟨result, s2, h2, h⟩ := bind_ok h
  have hstill := (quiet_lowerParams h1).trans (quiet_lowerType h2)
  obtain ⟨position, s3, h3, h⟩ := bind_ok h
  obtain ⟨rfl, rfl⟩ := addFunc_ok h3
  replace h := get_then h
  obtain ⟨_, _, h4, h⟩ := bind_ok h
  obtain ⟨rfl, rfl⟩ := ownIndex_toNat h4
  rw [modify_ok h]
  refine ⟨{ name := p.name, result, params, linked }, ⟨by simp [hstill.module], by simp,
    hstill.framed.types, hstill.literals, hstill.framed.dropFuncs, hstill.framed.edges⟩, ?_⟩
  simp [hstill.module, hstill.framed.funcs]

/-- Declares functions one after the other. -/
def declareAll : List (Prototype × Bool) → Build Unit
  | [] => return
  | d :: ds => do
      declareFunc d.1 d.2
      declareAll ds

theorem declareAll_append (ds ds' : List (Prototype × Bool)) :
    declareAll (ds ++ ds') = (do declareAll ds; declareAll ds') := by
  induction ds with
  | nil => rfl
  | cons d ds ih => simp only [List.cons_append, declareAll, ih, bind_assoc]

/-- The functions that a program declares: its own, and those natives that are no builtins. -/
def declarations (p : Program) : List (Prototype × Bool) :=
  p.functions.toList.map (fun f => (f.proto, false)) ++
    (p.natives.toList.filter fun n => (Builtin.ofName? n.name).isNone).map fun n => (n, true)

theorem declareFuncs_eq : declareFuncs env s = declareAll (declarations env.program) env { s with
    funcs := Array.replicate (env.program.functions.size + env.program.natives.size) none } := by
  have hfunctions : ∀ fs : List Function, (forIn fs PUnit.unit fun f _ => do
      declareFunc f.proto false
      pure (.yield PUnit.unit)) = declareAll (fs.map fun f => (f.proto, false)) := by
    intro fs
    induction fs with
    | nil => rfl
    | cons f fs ih =>
      rw [List.forIn_cons, List.map_cons, declareAll, ← ih]
      simp only [bind_assoc, pure_bind]
  have hnatives : ∀ ns : List Prototype, (forIn ns PUnit.unit fun n _ => do
      if (Builtin.ofName? n.name).isNone then
        declareFunc n true
        pure (.yield PUnit.unit)
      else pure (.yield PUnit.unit)) = declareAll
        ((ns.filter fun n => (Builtin.ofName? n.name).isNone).map fun n => (n, true)) := by
    intro ns
    induction ns with
    | nil => rfl
    | cons n ns ih =>
      rw [List.forIn_cons, List.filter_cons]
      split
      · rw [List.map_cons, declareAll, ← ih]
        simp only [bind_assoc, pure_bind]
      · rw [← ih]
        simp only [pure_bind]
  unfold declareFuncs declarations
  simp only [declareAll_append, ← hfunctions, ← hnatives, ← Array.forIn_toList, bind_pure_unit]
  rfl

/-- Where functions are looked up after some have been added for their indices. -/
def notePlaces (places : Array (Option Nat)) (next : Nat) : List Int → Array (Option Nat)
  | [] => places
  | id :: ids => notePlaces (places.set! id.toNat (some next)) (next + 1) ids

theorem declareAll_ok {ds : List (Prototype × Bool)} (h : declareAll ds env s = .ok u s') :
    ∃ gs : List Func, gs.length = ds.length ∧ Extended gs s s' ∧
      s'.funcs = notePlaces s.funcs s.module.funcs.size (ds.map (·.1.id)) := by
  induction ds generalizing s with
  | nil =>
    obtain ⟨-, rfl⟩ := pure_ok h
    exact ⟨[], rfl, ⟨by simp, by simp, rfl, rfl, rfl, rfl⟩, rfl⟩
  | cons d ds ih =>
    obtain ⟨_, s1, h1, h⟩ := bind_ok h
    obtain ⟨g, hg, hplace⟩ := declareFunc_ok h1
    obtain ⟨gs, hlength, hgs, hplaces⟩ := ih h
    refine ⟨g :: gs, by rw [List.length_cons, hlength, List.length_cons], ⟨?_, ?_,
      hgs.types.trans hg.types, hgs.literals.trans hg.literals, hgs.dropFuncs.trans hg.dropFuncs,
      hgs.edges.trans hg.edges⟩, ?_⟩
    · rw [hgs.funcs, hg.funcs]
      simp
    · exact List.forall_mem_cons.mpr ⟨hg.blank g (by simp), hgs.blank⟩
    · rw [hplaces, hplace, hg.funcs, List.map_cons, notePlaces]
      simp

theorem declareFuncs_extends (h : declareFuncs env s = .ok u s') :
    ∃ gs : List Func, gs.length = (declarations env.program).length ∧ Extended gs s s' ∧
      s'.funcs = notePlaces (Array.replicate
        (env.program.functions.size + env.program.natives.size) none) s.module.funcs.size
        ((declarations env.program).map (·.1.id)) := by
  rw [declareFuncs_eq] at h
  obtain ⟨gs, hlength, hgs, hplaces⟩ := declareAll_ok h
  exact ⟨gs, hlength, { hgs with }, hplaces⟩

/-! ## Places -/

section Places

variable {places : Array (Option Nat)} {next k : Nat}

theorem notePlaces_append (ids ids' : List Int) : notePlaces places next (ids ++ ids') =
    notePlaces (notePlaces places next ids) (next + ids.length) ids' := by
  induction ids generalizing places next with
  | nil => rfl
  | cons id ids ih =>
    rw [List.cons_append, notePlaces, ih, notePlaces, List.length_cons, Nat.add_right_comm,
      Nat.add_assoc]

/-- What is looked up was there before, or it is one of the places that follow. -/
theorem getElem?_notePlaces (ids : List Int) : (notePlaces places next ids)[k]? = places[k]? ∨
    ∃ pos, next ≤ pos ∧ (notePlaces places next ids)[k]? = some (some pos) := by
  induction ids generalizing places next with
  | nil => exact .inl rfl
  | cons id ids ih =>
    rw [notePlaces]
    obtain heq | ⟨pos, hpos, heq⟩ := @ih (places.set! id.toNat (some next)) (next + 1)
    · rw [heq, Array.set!_eq_setIfInBounds, Array.getElem?_setIfInBounds]
      split
      · split
        · exact .inr ⟨next, Nat.le_refl _, rfl⟩
        · next hk hlt => exact .inl (Array.getElem?_eq_none (by omega)).symm
      · exact .inl rfl
    · exact .inr ⟨pos, by omega, heq⟩

theorem getElem?_notePlaces_of_ne {ids : List Int} (h : ∀ id ∈ ids, id.toNat ≠ k) :
    (notePlaces places next ids)[k]? = places[k]? := by
  induction ids generalizing places next with
  | nil => rfl
  | cons id ids ih =>
    obtain ⟨hid, hids⟩ := List.forall_mem_cons.mp h
    rw [notePlaces, ih hids, Array.set!_eq_setIfInBounds, Array.getElem?_setIfInBounds_ne hid]

@[simp] theorem size_notePlaces {ids : List Int} :
    (notePlaces places next ids).size = places.size := by
  induction ids generalizing places next with
  | nil => rfl
  | cons id ids ih => simp [notePlaces, ih]

theorem getElem?_notePlaces_range {n : Nat} (hn : n ≤ places.size) (hk : k < n) :
    (notePlaces places next ((List.range n).map Int.ofNat))[k]? = some (some (next + k)) := by
  induction n with
  | zero => omega
  | succ n ih =>
    rw [List.range_succ, List.map_append, notePlaces_append, List.map_singleton,
      notePlaces, notePlaces,
      Array.set!_eq_setIfInBounds, Array.getElem?_setIfInBounds, size_notePlaces]
    split
    · next heq =>
      obtain rfl : n = k := heq
      refine (if_pos hn).trans ?_
      rw [List.length_map, List.length_range]
    · next hne => exact ih (by omega) (Nat.lt_of_le_of_ne (Nat.le_of_lt_succ hk) (Ne.symm hne))

end Places

/-- The functions of a program are declared under their own indices. -/
theorem functionIds_eq (hp : env.program.Numbered) :
    (env.program.functions.toList.map fun f => (f.proto, false)).map (·.1.id) =
      (List.range env.program.functions.size).map Int.ofNat := by
  refine List.ext_getElem (by simp) fun j hj _ => ?_
  have hlt : j < env.program.functions.size := by simpa using hj
  simpa using hp.functions j _ (Array.getElem?_eq_getElem hlt)

/-- The functions of a program have been declared, in order, from a place on. -/
structure Declared (base count : Nat) (s : State) : Prop where
  blank : Blank s
  size : base + count ≤ s.module.funcs.size
  places : ∀ k < count, s.funcs[k]? = some (some (base + k))
  literals : s.literals = []
  dropFuncs : s.dropFuncs = #[]

theorem declareFuncs_ok (hp : env.program.Numbered) (hs : Fresh s)
    (h : declareFuncs env s = .ok u s') :
    Declared s.module.funcs.size env.program.functions.size s' := by
  obtain ⟨gs, hlength, hgs, hplaces⟩ := declareFuncs_extends h
  refine ⟨hs.blank.append hgs.blank hgs.funcs, ?_, fun k hk => ?_, hgs.literals.trans hs.literals,
    hgs.dropFuncs.trans hs.dropFuncs⟩
  · rw [hgs.funcs, Array.size_append, show gs.toArray.size = gs.length from rfl,
      hlength, declarations]
    simp
  · -- the natives come after the functions
    rw [hplaces, declarations, List.map_append, notePlaces_append, getElem?_notePlaces_of_ne,
      functionIds_eq hp, getElem?_notePlaces_range (by simp) hk]
    intro id hid
    obtain ⟨n, ⟨hn, -⟩, rfl⟩ : ∃ n, (n ∈ env.program.natives ∧ _) ∧ n.id = id := by simpa using hid
    obtain ⟨j, hj⟩ := Array.getElem?_of_mem hn
    rw [hp.natives j n hj]
    omega

/-! ## Drop functions and bodies -/

/-- The places from a number on hold empty functions with one parameter, which are to
become drop functions. -/
def Awaiting (base i count : Nat) (s : State) : Prop :=
  ∀ j, i ≤ j → j < count → ∃ g, s.module.funcs[base + j]? = some g ∧ g.blocks = #[] ∧
    g.params.length = 1

/-- Places for all drop functions have been added. -/
structure DropsAdded (s : State) (k : Nat) (s' : State) : Prop where
  size : s'.module.funcs.size = s.module.funcs.size + k
  old : ∀ i < s.module.funcs.size, s'.module.funcs[i]? = s.module.funcs[i]?
  new : Awaiting s.module.funcs.size 0 k s'
  dropFuncs : s'.dropFuncs.toList = (List.range k).map (s.module.funcs.size + ·)
  funcs : s'.funcs = s.funcs
  literals : s'.literals = s.literals

/-- What a drop function is declared as. -/
def dropDecl (d : StructDef) : Func :=
  { name := "__drop_" ++ d.name, result := .void, params := [("obj", .i8Ptr)], nounwinds := 1 }

/-- Drop functions are put behind all others. -/
def withDrops (ds : List StructDef) (s : State) : State :=
  { s with
    module := { s.module with funcs := s.module.funcs ++ (ds.map dropDecl).toArray }
    dropFuncs := s.dropFuncs ++ (List.range' s.module.funcs.size ds.length).toArray }

theorem addDropFuncs_eq (env : Env) (ds : List StructDef) :
    (forIn ds PUnit.unit fun d _ => do
      let i ← addFunc (dropDecl d)
      modify fun s => { s with dropFuncs := s.dropFuncs.push i }
      pure (ForInStep.yield PUnit.unit) : Build PUnit) env s = .ok PUnit.unit (withDrops ds s) := by
  induction ds generalizing s with
  | nil => simp [withDrops]; rfl
  | cons d ds ih =>
    rw [List.forIn_cons]
    refine (bind_of_ok (show _ = EStateM.Result.ok (ForInStep.yield PUnit.unit) ({ s with
      module := { s.module with funcs := s.module.funcs.push (dropDecl d) }
      dropFuncs := s.dropFuncs.push s.module.funcs.size } : State) from rfl)).trans ?_
    refine ih.trans ?_
    have hdrops : s.dropFuncs.push s.module.funcs.size ++
        (List.range' (s.module.funcs.size + 1) ds.length).toArray =
          s.dropFuncs ++ (List.range' s.module.funcs.size (d :: ds).length).toArray := by
      rw [← Array.toList_inj]
      simp [List.range'_succ]
    rw [withDrops, withDrops, ← hdrops]
    simp

theorem dropsAdded (hd : s.dropFuncs = #[]) (ds : List StructDef) :
    DropsAdded s ds.length (withDrops ds s) where
  size := by simp [withDrops]
  old i hi := Array.getElem?_append_left hi
  new j _ hj := ⟨dropDecl (ds.get ⟨j, hj⟩), by simp [withDrops, hj], rfl, rfl⟩
  dropFuncs := by simp [withDrops, hd, List.range'_eq_map_range]
  funcs := rfl
  literals := rfl

theorem Blank.withDrops (hs : Blank s) (ds : List StructDef) : Blank (withDrops ds s) := by
  have hdecls : ∀ g ∈ ds.map dropDecl, g.blocks = #[] := by simp [dropDecl]
  exact hs.append hdecls rfl

theorem buildDropFuncs_eq : buildDropFuncs env s =
    buildDropFuncs.fill 0 env.program.structs.toList env
      (withDrops env.program.structs.toList s) := by
  unfold buildDropFuncs
  refine (bind_of_ok (show getProgram env s = .ok env.program s from rfl)).trans ?_
  rw [← Array.forIn_toList]
  exact bind_of_ok (addDropFuncs_eq env _)

/-- The drop functions are filled one after the other. -/
theorem fillDropFuncs_filled {base : Nat}
    (h : buildDropFuncs.fill i ds env s = .ok u s') (hi : i + ds.length = count)
    (hdrops : s.dropFuncs.toList = (List.range count).map (base + ·))
    (hnew : Awaiting base i count s) (hl : LiteralsConst s) :
    FilledAll base (fun i d t F => DropAt env t i d F ∧ F.params.length = 1) i ds s s' := by
  induction ds generalizing i s with
  | nil =>
    obtain ⟨-, rfl⟩ := pure_ok h
    exact .nil
  | cons d ds ih =>
    rw [List.length_cons] at hi
    replace h := get_then h
    obtain ⟨pos, hpos, h⟩ := require_then h
    obtain rfl : base + i = pos := by
      rw [← Array.getElem?_toList, hdrops, List.getElem?_map,
        List.getElem?_range (by omega)] at hpos
      exact Option.some.inj hpos
    obtain ⟨_, s1, h1, h⟩ := bind_ok h
    obtain ⟨g, hg, hempty, hparams⟩ := hnew i (Nat.le_refl i) (by omega)
    have hfilled := buildDropFunc_filled h1 hg hempty (by omega) hl
    refine .cons { hfilled with filled := ?_ } (ih h (by omega) ?_ (fun j hj hjc => ?_)
      hfilled.literals)
    · obtain ⟨F, hF, hcomplete, hdrop, hsame⟩ := hfilled.filled
      exact ⟨F, hF, hcomplete, hdrop, by rw [hsame, hparams]⟩
    · rw [hfilled.later.dropFuncs]
      exact hdrops
    · rw [hfilled.later.kept (base + j) (by omega)]
      exact hnew j (by omega) hjc

/-- The bodies are filled in one after the other. -/
theorem buildBodies_filled (base k : Nat) {fs : List Function}
    (h : buildBodies fs env s = .ok u s') (hk : k + fs.length = count)
    (hids : ∀ (j : Nat) (f : Function), fs[j]? = some f → f.proto.id = ((k + j : Nat) : Int))
    (hplaces : ∀ j < count, s.funcs[j]? = some (some (base + j)))
    (hblank : ∀ j, k ≤ j → j < count → ∃ g, s.module.funcs[base + j]? = some g ∧ g.blocks = #[])
    (hl : LiteralsConst s) : FilledAll base (fun _ fn t F => BodyAt env t fn F) k fs s s' := by
  induction fs generalizing k s with
  | nil =>
    obtain ⟨-, rfl⟩ := pure_ok h
    exact .nil
  | cons f fs ih =>
    rw [List.length_cons] at hk
    obtain ⟨_, s1, h1, h⟩ := bind_ok h
    obtain ⟨g, hg, hempty⟩ := hblank k (Nat.le_refl k) (by omega)
    have hfilled := buildBody_filled h1 (hids 0 f rfl) (hplaces k (by omega)) hg hempty hl
    refine .cons hfilled (ih (k + 1) h (by omega) (fun j f' hf' => ?_) (fun j hj => ?_)
      (fun j hj hjc => ?_) hfilled.literals)
    · rw [hids (j + 1) f' (by simpa using hf')]
      congr 1
      omega
    · rw [hfilled.later.funcs]
      exact hplaces j hj
    · rw [hfilled.later.kept (base + j) (by omega)]
      exact hblank j (by omega) hjc

end Tenure.Lowering

import Tenure.Proofs.EmittedBodies
import Tenure.Proofs.Pieces

/-!
# Where expressions stand

The body of a function is lowered as a whole, and the code of each expression in it
ends up somewhere in the finished function.  `Stands` says where: lowering went
from a state to another with the expression, and the finished function has come
from there.  Every expression that occurs in a body stands somewhere in the
function (`exhibits_of_occurs`): a part of an expression is lowered along with it,
whatever its kind, and what is lowered around it and after it lets it be.
-/

namespace Tenure

/-- The expressions that an expression is put together from. -/
@[simp]
def Expr.parts : Expr → List Expr
  | .discard source _ | .ret source _ | .stackify source _ | .localStore _ source
  | .destroy source _ _ | .memberLoad source _ _ _ _ | .upcast source _ _ _
  | .arrayLength source _ => [source]
  | .call _ args | .externCall _ args | .interfaceCall args _ _ _ _ | .newStruct args _
  | .newArray args _ | .block args => args
  | .ite cond thenBranch elseBranch _ => [cond, thenBranch, elseBranch]
  | .loop cond body => [cond, body]
  | .memberStore source _ _ _ value => [source, value]
  | .knownArrayLoad array _ index | .unknownArrayLoad array _ index => [array, index]
  | .tabulate size generator _ _ => [size, generator]
  | .consumeKnownArray array _ consumer _ | .consumeUnknownArray array _ consumer _ =>
      [array, consumer]
  | .missing | .constantI64 _ | .constantBool _ | .constantStr _ | .argument _ _ | .unstackify _
  | .localLoad _ _ => []

theorem Expr.sizeOf_part {d e : Expr} (h : d ∈ e.parts) : sizeOf d < sizeOf e := by
  cases e with
  | missing | constantI64 | constantBool | constantStr | argument | unstackify | localLoad =>
      cases h
  | call _ args | externCall _ args | interfaceCall args | newStruct args | newArray args
  | block args =>
    have hlt : sizeOf d < sizeOf args := List.sizeOf_lt_of_mem h
    simp
    omega
  | _ =>
    simp at h ⊢
    grind

/-- What an expression has if its parts have it, every expression has. -/
theorem Expr.parts_induction {motive : Expr → Prop}
    (step : ∀ e, (∀ d ∈ e.parts, motive d) → motive e) (e : Expr) : motive e :=
  step e fun d _ => parts_induction step d
termination_by e
decreasing_by exact Expr.sizeOf_part ‹_›

/-- Membership that instance search finds. -/
class Among {α : Type} (a : α) (as : List α) : Prop where
  mem : a ∈ as

section Among

variable {α : Type} {a b : α} {as : List α}

instance : Among a (a :: as) := ⟨List.mem_cons_self⟩
instance (priority := low) [h : Among a as] : Among a (b :: as) := ⟨List.mem_cons_of_mem b h.mem⟩

end Among

/-- An expression occurs in another. -/
inductive Expr.Occurs (e : Expr) : Expr → Prop
  | here : Occurs e e
  | part {d d' : Expr} (mem : d ∈ d'.parts) (inside : Occurs e d) : Occurs e d'

end Tenure

namespace Tenure.Lowering

open Ir (Ty Operand Func)
open Interp (Call)

variable {α β : Type} {T : Setting} {F : Func} {U W : List Operand} {P : Setting → Func → Prop}
variable {s s' : State} {f f' : Func}

/-! ## Code in a finished function -/

/-- The code of a piece stands in a finished function: it was lowered from the first
state to the second one, where the operands `U` were defined, and the function has
come from there. -/
structure Stands (T : Setting) (F : Func) (U : List Operand) (x : Build α) (s : State) (f : Func)
    (a : α) (s' : State) (f' : Func) : Prop where
  placed : Placed s f
  isOpen : f.term? s.block = none
  formed : ∃ D, f.Formed D ∧ ∀ u ∈ U, Available f D s.block u
  ok : x T.env s = .ok a s'
  ended : Placed s' f'
  within : ∀ C : Call, C.body = F → Within T C s' f'

/-- The function under construction is determined by the state. -/
theorem Placed.func_eq {g : Func} (h : Placed s f) (h' : Placed s g) : f = g :=
  Option.some.inj (h.func.symm.trans h'.func)

/-- Wherever the code of a piece stands, something holds of the function. -/
def Exhibits (U : List Operand) (y : Build β) (P : Setting → Func → Prop) : Prop :=
  ∀ ⦃T : Setting⦄ ⦃F : Func⦄ ⦃s : State⦄ ⦃f : Func⦄ ⦃b : β⦄ ⦃s' : State⦄ ⦃f' : Func⦄,
    Stands T F U y s f b s' f' → P T F

theorem Stands.mono {x : Build α} {a : α} (h : Stands T F W x s f a s' f')
    (hU : ∀ u ∈ U, u ∈ W) : Stands T F U x s f a s' f' := by
  obtain ⟨D, hD, hW⟩ := h.formed
  exact { h with formed := ⟨D, hD, fun u hu => hW u (hU u hu)⟩ }

theorem Exhibits.mono {y : Build β} (h : Exhibits U y P) (hU : ∀ u ∈ U, u ∈ W) : Exhibits W y P :=
  fun _ _ _ _ _ _ _ hS => h (hS.mono hU)

/-- A piece that writes code, whether or not control comes to its end. -/
class Writes (x : Build α) : Prop where
  extends_of_ok : ∀ ⦃env : Env⦄ ⦃s : State⦄ ⦃a : α⦄ ⦃s' : State⦄ ⦃f : Func⦄, Placed s f →
    f.term? s.block = none → x env s = .ok a s' → ∃ f', Extends s f s' f'

instance {x : Build α} [Steady x] : Writes x where
  extends_of_ok env s a s' f hp hopen hrun := by
    obtain ⟨f', hx, -⟩ := Steady.extends_of_ok hp hopen hrun
    exact ⟨f', hx⟩

theorem Lowers.writes {x : Build Result} (h : Lowers U x) : Writes x where
  extends_of_ok env s a s' f hp hopen hrun := by
    obtain ⟨f', hg, -⟩ := h hp hopen hrun
    exact ⟨f', hg.toExtends⟩

/-! ## Going into a piece -/

section Rules

variable {x : Build α} {k : α → Build β} {H : α → List Operand}

theorem Exhibits.violation {v : Violation} : Exhibits U (violation v : Build β) P :=
  fun _ _ _ _ _ _ _ hS => absurd hS.ok throw_ne_ok

theorem Exhibits.ite {c : Prop} [Decidable c] {y z : Build β} (hy : c → Exhibits U y P)
    (hz : ¬ c → Exhibits U z P) : Exhibits U (if c then y else z) P := by
  split
  · next hc => exact hy hc
  · next hc => exact hz hc

variable {b : β} {s'' : State} {f'' : Func} {a : α} {h : Held}

/-- The first of two pieces. -/
theorem Stands.first [Writes (k a)] (h : Stands T F U (x >>= k) s f b s'' f'')
    (hx : Extends s f s' f') (hopen : f'.term? s'.block = none) (hrun1 : x T.env s = .ok a s')
    (hrun2 : k a T.env s' = .ok b s'') : Stands T F U x s f a s' f' := by
  obtain ⟨g, hx2⟩ := Writes.extends_of_ok hx.placed hopen hrun2
  obtain rfl := hx2.placed.func_eq h.ended
  exact ⟨h.placed, h.isOpen, h.formed, hrun1, hx.placed, fun C hC => (h.within C hC).back hx2⟩

/-- The second of two pieces. -/
theorem Stands.second {V : List Operand} (h : Stands T F U (x >>= k) s f b s'' f'')
    (hg : Grown U V s f s' f') (hopen : f'.term? s'.block = none)
    (hrun2 : k a T.env s' = .ok b s'') : Stands T F (V ++ U) (k a) s' f' b s'' f'' := by
  obtain ⟨D, hD, hU⟩ := h.formed
  obtain ⟨D', hD', -, hmono, hV⟩ := hg.carries D hD hU
  refine ⟨hg.placed, hopen, ⟨D', hD', fun u hu => ?_⟩, hrun2, h.ended, h.within⟩
  rcases List.mem_append.mp hu with hu | hu
  · exact hV u hu
  · exact (hU u hu).grow hg.keeps hmono

/-- The piece that comes after code that was written. -/
theorem Stands.later (h : Stands T F U (x >>= k) s f b s'' f'') (hx : Emits U x H) :
    ∃ a s' f', x T.env s = .ok a s' ∧ Stands T F (H a ++ U) (k a) s' f' b s'' f'' := by
  obtain ⟨a, s', hrun1, hrun2⟩ := bind_ok h.ok
  obtain ⟨f', hg, hopen'⟩ := hx h.placed h.isOpen hrun1
  exact ⟨a, s', f', hrun1, h.second hg hopen' hrun2⟩

/-- Code is written before. -/
theorem Exhibits.later (hx : Emits U x H)
    (hk : ∀ a, Exhibits (H a ++ U) (k a) P) : Exhibits U (x >>= k) P := by
  intro T F s f b s'' f'' hS
  obtain ⟨a, s', f', -, hS'⟩ := hS.later hx
  exact hk a hS'

/-- Something is looked up before. -/
theorem Exhibits.after (hx : Quiet x) (hk : ∀ a, Exhibits U (k a) P) : Exhibits U (x >>= k) P :=
  .later hx.emits hk

variable {y : Build Result} {j : Held → Build β}

/-- The piece whose value is used. -/
theorem Exhibits.used [∀ h, Writes (j h)] (hy : Lowers U y) (h : Exhibits U y P) :
    Exhibits U (y >>= fun r => use r >>= j) P := by
  intro T F s f b s'' f'' hS
  obtain ⟨r, s', hrun1, hrun⟩ := bind_ok hS.ok
  obtain ⟨g, rfl, hrun2⟩ := use_then hrun
  obtain ⟨f', hg, hopen'⟩ := hy hS.placed hS.isOpen hrun1
  have : Writes (use (some g) >>= j) := inferInstanceAs (Writes (j g))
  exact h (hS.first hg.toExtends (hopen' rfl) hrun1 hrun)

/-- The piece that a value is used in. -/
theorem Exhibits.using (hy : Lowers U y)
    (h : ∀ g, Exhibits (g.value :: U) (j g) P) : Exhibits U (y >>= fun r => use r >>= j) P := by
  intro T F s f b s'' f'' hS
  obtain ⟨r, s', hrun1, hrun⟩ := bind_ok hS.ok
  obtain ⟨g, rfl, hrun2⟩ := use_then hrun
  obtain ⟨f', hg, hopen'⟩ := hy hS.placed hS.isOpen hrun1
  have hS' := hS.second hg (hopen' rfl) hrun
  exact h g { hS' with ok := hrun2 }

theorem Exhibits.arriving {e : Expr} (h : Exhibits U y P) : Exhibits U (arriving e y) P := by
  intro T F s f r s' f' hS
  have hrun := read_then (open_then hS.ok hS.placed hS.isOpen)
  split at hrun
  · exact Exhibits.later Orderly.emits (fun _ => h.mono (by simp)) { hS with ok := hrun }
  · exact h { hS with ok := hrun }

theorem steady_close : Steady (do if !(← terminated) then discard h : Build Unit) :=
  (Emits.terminated (U := [h.value]) Orderly.emits).steady

/-- What is done with an operand before it is released. -/
theorem Exhibits.releasing [Steady x] (hx : Exhibits U x P) : Exhibits U (releasing h x) P := by
  have hclose := steady_close (h := h)
  intro T F s f a s'' f'' hS
  obtain ⟨s', h1, h2⟩ := releasing_ok hS.ok
  obtain ⟨f', hx1, hopen'⟩ := Steady.extends_of_ok hS.placed hS.isOpen h1
  have hS' : Stands T F U (x >>= fun _ => do if !(← terminated) then discard h) s f () s'' f'' :=
    { hS with ok := (bind_of_ok h1).trans h2 }
  exact hx (hS'.first hx1 hopen' h1 h2)

end Rules

/-! ## Lists -/

section Lists

variable {es : List Expr} {d : Expr}

/-- The expressions of a list. -/
theorem exhibits_lowerExprs (hmem : d ∈ es) (hd : Exhibits [] (lowerExpr d) P) :
    Exhibits [] (lowerExprs es) P := by
  induction es with
  | nil => exact absurd hmem (by simp)
  | cons e es ih =>
    intro T F s f rs s'' f'' hS
    obtain ⟨r, s', hrun1, hrun⟩ := bind_ok hS.ok
    obtain ⟨f', hg, -⟩ := (lowerExpr_lowers [] e).arriving hS.placed hS.isOpen hrun1
    obtain ⟨rs', _, hrun2, hpure⟩ := bind_ok hrun
    obtain ⟨rfl, rfl⟩ := pure_ok hpure
    obtain ⟨D, hD, hU⟩ := hS.formed
    obtain ⟨D', hD', -⟩ := hg.carries D hD hU
    rcases List.mem_cons.mp hmem with rfl | hmem
    · refine Exhibits.arriving hd
        ⟨hS.placed, hS.isOpen, hS.formed, hrun1, hg.placed, fun C hC => ?_⟩
      rcases lowerExprs_ok hrun2 hg.placed with ⟨rfl, rfl⟩ | hopen'
      · obtain rfl := hg.placed.func_eq hS.ended
        exact hS.within C hC
      · obtain ⟨g, hg2, -⟩ := lowerExprs_lowers [] es hg.placed hopen' hrun2
        obtain rfl := hg2.placed.func_eq hS.ended
        exact (hS.within C hC).back hg2.toExtends
    · obtain ⟨e', es', rfl⟩ := List.exists_cons_of_ne_nil (List.ne_nil_of_mem hmem)
      obtain ⟨_, _, h1, -⟩ := bind_ok hrun2
      have hopen' := arriving_ok h1 hg.placed
      exact ih hmem ⟨hg.placed, hopen', ⟨D', hD', by simp⟩, hrun2, hS.ended, hS.within⟩

/-- The expressions of a list whose values are used. -/
theorem Exhibits.list {k : List Result → Build β} [∀ rs, Steady (k rs)] (hmem : d ∈ es)
    (hd : Exhibits [] (lowerExpr d) P) (huses : ∀ rs, Uses rs (k rs)) :
    Exhibits [] (lowerExprs es >>= k) P := by
  intro T F s f b s'' f'' hS
  obtain ⟨rs, s', hrun1, hrun2⟩ := bind_ok hS.ok
  obtain ⟨f', hg, hopen'⟩ := lowerExprs_lowers [] es hS.placed hS.isOpen hrun1
  exact exhibits_lowerExprs hmem hd
    (hS.first hg.toExtends (hopen' (huses rs hrun2)) hrun1 hrun2)

/-- The expressions of a sequence. -/
theorem exhibits_lowerSequence {q : Result} (hmem : d ∈ es) (hd : Exhibits [] (lowerExpr d) P) :
    Exhibits [] (lowerSequence q es) P := by
  induction es generalizing q with
  | nil => exact absurd hmem (by simp)
  | cons e es ih =>
    intro T F s f p s'' f'' hS
    obtain ⟨r, s', hrun1, hrun2⟩ := bind_ok hS.ok
    obtain ⟨f', hg, -⟩ := (lowerExpr_lowers [] e).arriving hS.placed hS.isOpen hrun1
    obtain ⟨D, hD, hU⟩ := hS.formed
    obtain ⟨D', hD', -⟩ := hg.carries D hD hU
    rcases List.mem_cons.mp hmem with rfl | hmem
    · refine Exhibits.arriving hd
        ⟨hS.placed, hS.isOpen, hS.formed, hrun1, hg.placed, fun C hC => ?_⟩
      rcases lowerSequence_ok hrun2 hg.placed with ⟨rfl, rfl⟩ | ⟨hne, hopen'⟩
      · obtain rfl := hg.placed.func_eq hS.ended
        exact hS.within C hC
      · obtain ⟨g, hg2, -⟩ := lowerSequence_lowers [] es r hne hg.placed hopen' hrun2
        obtain rfl := hg2.placed.func_eq hS.ended
        exact (hS.within C hC).back hg2.toExtends
    · obtain ⟨e', es', rfl⟩ := List.exists_cons_of_ne_nil (List.ne_nil_of_mem hmem)
      obtain ⟨_, _, h1, -⟩ := bind_ok hrun2
      have hopen' := arriving_ok h1 hg.placed
      exact ih hmem ⟨hg.placed, hopen', ⟨D', hD', by simp⟩, hrun2, hS.ended, hS.within⟩

end Lists

/-! ## Control -/

section Control

variable {c : Operand} {type : Option Reference} {a b : Build Result}

/-- Where two branches meet, each of them only gets an end, unless it has one. -/
theorem joinBranches_ends {env : Env} {n m : Nat} {p q r : Result} (hp : Placed s f)
    (hn : n < f.blocks.size) (hm : m < f.blocks.size) (hne : n ≠ m)
    (h : joinBranches type (liveAt f n p ++ liveAt f m q) env s = .ok r s') :
    ∃ f', s'.module.funcs[s'.func]? = some f' ∧ Framed s s' ∧ f.Keeps f' ∧
      ∀ d, d = n ∨ d = m → f'.code d = f.code d ∧ ∃ t, f'.term? d = some t := by
  obtain ⟨hlive, hn', hm'⟩ | ⟨d, t, hlive, hd, honly⟩ | ⟨hlive, hn', hm'⟩ := liveAt_cases f n m p q
  all_goals rw [hlive] at h
  · obtain ⟨rfl, rfl⟩ := joinBranches_nil h
    refine ⟨f, hp.func, .refl s, .refl f, ?_⟩
    rintro d (rfl | rfl)
    · exact ⟨rfl, Option.isSome_iff_exists.mp hn'⟩
    · exact ⟨rfl, Option.isSome_iff_exists.mp hm'⟩
  · obtain ⟨l, hmoved, -, -⟩ := joinBranches_one h hp.func
    have hlt : d < f.blocks.size := by omega
    refine ⟨_, hmoved.func, hmoved.framed, keeps_pass hlt ((honly d).2 rfl).2, fun e he =>
      ⟨by simp [pass], ?_⟩⟩
    rw [pass, Ir.Func.term?_terminate (by simp; omega), Ir.Func.term?_addBlock]
    split
    · exact ⟨_, rfl⟩
    · next hed => exact Option.ne_none_iff_exists'.mp fun hnone => hed ((honly e).1 ⟨he, hnone⟩)
  · obtain ⟨l, s1, hmoved, hblock, hend⟩ := joinBranches_two h hp.func
    have hkeeps : f.Keeps (meet f n m l) := keeps_meet hn hm hne hn' hm'
    have hends : ∀ d, d = n ∨ d = m → ∃ t, (meet f n m l).term? d = some t := fun d hd =>
      ⟨_, (term?_meet hn hm).trans (if_pos hd)⟩
    obtain ⟨-, -, rfl⟩ | ⟨-, x, y, phi, -, -, hphi, -⟩ := hend
    · exact ⟨_, hmoved.func, hmoved.framed, hkeeps, fun d hd => ⟨code_meet, hends d hd⟩⟩
    · -- the phi stands in the block where they meet
      obtain ⟨-, e⟩ := emit_ok hphi hmoved.func
      rw [hblock] at e
      have hsize : f.blocks.size < (meet f n m l).blocks.size := by simp [meet, pass]
      have hopen : (meet f n m l).term? f.blocks.size = none := by
        rw [term?_meet hn hm, if_neg (by omega)]
        exact Ir.Func.term?_of_size_le (Nat.le_refl _)
      refine ⟨_, e.func, hmoved.framed.trans e.framed,
        hkeeps.trans (Ir.Func.Edit.push hsize hopen).keeps, fun d hd => ⟨?_, ?_⟩⟩
      · rw [Ir.Func.code_push hsize, if_neg (by omega), code_meet]
      · rw [Ir.Func.term?_push]
        exact hends d hd

/-- The branches of a conditional. -/
theorem Exhibits.branching (ha : ∀ U, Lowers U a) (hb : ∀ U, Lowers U b) (hc : c ∈ U)
    (h : Exhibits [] a P ∨ Exhibits [] b P) : Exhibits U (branching c type a b) P := by
  intro T F s f r s' f' hS
  obtain ⟨x, y, s1, s2, s3, s4, f2, f4, p, q, hforked, hrun1, hrun3, hjoin⟩ :=
    branching_forked (ha []) (hb []) hS.placed hS.isOpen hS.ok
  have hlt2 := Nat.lt_of_lt_of_le hforked.grown2.placed.lt hforked.grown4.keeps.size
  obtain ⟨g, hfunc, hframed, hkeeps, hends⟩ :=
    joinBranches_ends hforked.grown4.placed hlt2 hforked.grown4.placed.lt hforked.ne hjoin
  obtain rfl : f' = g := Option.some.inj (hS.ended.func.symm.trans hfunc)
  obtain ⟨D, hD, hU⟩ := hS.formed
  have hD1 := hD.fork (x := x) (y := y) hS.placed.lt hS.isOpen (hU c hc)
  rcases h with h | h
  · refine h ⟨hforked.placed1, hforked.open1, ⟨_, hD1, by simp⟩, hrun1, hforked.grown2.placed,
      fun C hC => ?_⟩
    obtain ⟨hcode, t, ht⟩ := hends s2.block (.inl rfl)
    have hframed2 := (hforked.moved3.framed.trans hforked.grown4.framed).trans hframed
    exact .ofClosed (hframed2.toTables.trans (hS.within C hC).tables)
      (hforked.grown4.keeps.trans hkeeps) (hcode.trans hforked.kept.2) ht (hS.within C hC).keeps
  · -- the second branch begins with what the first one has left
    obtain ⟨D2, hD2, -⟩ := hforked.grown2.carries _ hD1 (by simp)
    refine h ⟨hforked.placed3, hforked.open3, ⟨D2, hD2, by simp⟩, hrun3, hforked.grown4.placed,
      fun C hC => ?_⟩
    obtain ⟨hcode, t, ht⟩ := hends s4.block (.inr rfl)
    exact .ofClosed (hframed.toTables.trans (hS.within C hC).tables) hkeeps hcode ht
      (hS.within C hC).keeps

/-- The condition and the body of a loop. -/
theorem Exhibits.looping (ha : ∀ U, Lowers U a) (hb : ∀ U, Lowers U b)
    (h : Exhibits [] a P ∨ Exhibits [] b P) : Exhibits U (looping a b) P := by
  intro T F s f r s' f' hS
  obtain ⟨x, y, z, c, s1, s2, s3, s4, f2, f4, q, hlooped, hrun1, hrun3, -⟩ :=
    looping_looped (ha []) (hb []) hS.placed hS.isOpen hS.ok
  obtain rfl : f' = turned f4 s4.block f.blocks.size :=
    Option.some.inj (hS.ended.func.symm.trans hlooped.moved.func)
  obtain ⟨hkeeps, hcode, t, ht⟩ := @turned_kept f4 _ f.blocks.size hlooped.grown4.placed.lt
  obtain ⟨D, hD, -⟩ := hS.formed
  -- where the body of the loop ends
  have hW : ∀ C : Call, C.body = F → Within T C s4 f4 := fun C hC =>
    .ofClosed (hlooped.moved.framed.toTables.trans (hS.within C hC).tables) hkeeps (hcode _) ht
      (hS.within C hC).keeps
  rcases h with h | h
  · refine h ⟨hlooped.placed1, hlooped.open1,
      ⟨_, hD.lead (x := x) (y := y) (z := z) hS.placed.lt hS.isOpen, by simp⟩, hrun1,
      hlooped.grown2.placed, fun C hC => ?_⟩
    have hW3 := (hW C hC).back hlooped.grown4.toExtends
    exact .ofClosed (hlooped.moved3.framed.toTables.trans hW3.tables)
      (Ir.Func.Edit.terminate hlooped.grown2.placed.lt hlooped.open2).keeps (by simp)
      ((Ir.Func.term?_terminate hlooped.grown2.placed.lt).trans (if_pos rfl)) hW3.keeps
  · obtain ⟨D3, hD3, -⟩ := hlooped.grown2.formed_tested hS.placed.lt hS.isOpen hlooped.block1
      hlooped.open2 hD (by simp)
    have hopen3 := (hlooped.evolves3.opened _ (.inl rfl)).2.2
    rw [← hlooped.block3] at hopen3
    exact h ⟨hlooped.placed3, hopen3, ⟨D3, hD3, by simp⟩, hrun3, hlooped.grown4.placed, hW⟩

end Control

/-- What is done only if a condition holds: the block that the condition leads to
begins with it. -/
theorem Stands.guarded {l r : String} {c : Operand} {body : Build Unit} {u : Unit} [Steady body]
    (h : Stands T F U (guarded l r c body) s f u s' f') (hc : c ∈ U) :
    ∃ s1 f1 s2 f2, (∀ C : Call, C.body = F →
        C.body.term? s.block = some (.condBr c (.block s1.block) (.block s'.block))) ∧
      f1.code s1.block = [] ∧ Stands T F U body s1 f1 () s2 f2 := by
  obtain ⟨x, y, s1, v, s2, m1, hb1, hrun1, hlast⟩ := guarded_ok h.ok h.placed.func
  have hev1 := Ir.Func.evolves_fork (v := c) (x := x) (y := y) h.placed.lt h.isOpen
  obtain ⟨hp1, hopen1⟩ := m1.entered hev1 h.placed hb1 (.inl rfl)
  obtain ⟨f2, hx2, hopen2⟩ := Steady.extends_of_ok hp1 hopen1 hrun1
  obtain ⟨m2, hb2⟩ := hlast f2 hx2.placed.func
  have hkeeps2 := (Ir.Func.Edit.terminate (t := .br (.block (f.blocks.size + 1))) hx2.placed.lt
    hopen2).keeps
  obtain rfl : f' = f2.terminate s2.block (.br (.block (f.blocks.size + 1))) :=
    Option.some.inj (h.ended.func.symm.trans m2.func)
  obtain ⟨D, hD, hU⟩ := h.formed
  refine ⟨s1, _, s2, f2, fun C hC => ?_, ?_, hp1, hopen1,
    ⟨_, hD.fork h.placed.lt h.isOpen (hU c hc),
    fun u hu => ?_⟩, hrun1, hx2.placed, fun C hC => ?_⟩
  · refine ((hx2.keeps.trans hkeeps2).trans (h.within C hC).keeps).ends _ _ ?_
    rw [Ir.Func.term?_fork h.placed.lt, if_pos rfl, hb1, hb2]
  · rw [hb1, Ir.Func.code_fork]
    exact Ir.Func.code_of_size_le (Nat.le_refl _)
  · rw [hb1]
    exact (hU u hu).grow hev1.built.keeps fun d hd =>
      Ir.Func.Dominators.fork_left.mpr (.inr hd)
  · have hends : (f2.terminate s2.block (.br (.block (f.blocks.size + 1)))).term? s2.block =
        some (.br (.block (f.blocks.size + 1))) := by
      rw [Ir.Func.term?_terminate hx2.placed.lt, if_pos rfl]
    exact .ofClosed (m2.framed.toTables.trans (h.within C hC).tables) hkeeps2 (by simp) hends
      (h.within C hC).keeps

/-! ## Steady parts -/

section Parts

variable {h : Held} {l : Local} {x y : Operand} {r : Reference} {i : Nat} {xs : List Operand}

instance : Steady (discard h) := .of [h.value]
instance : Steady (acquire h) := .of [h.value]
instance : Steady (openLocal l x) := .of [x]
instance {j : Int} : Steady (memberPtr x r j) := .of [x]
instance : Steady (destroyStorage x r) := .of [x]
instance : Steady (arrayLength x r) := .of [x]
instance {t : Ty} : Steady (allocObject t x) := .of [x]
instance {edge : Nat} : Steady (tableOperand edge) := .of []
instance {m : StructMember} : Steady (readMember x r i m) := .of [x]
instance {ms : List StructMember} {ls : List (Option Local)} : Steady (openMembers x r i ms ls) :=
  .of [x]
instance {d : StructDef} : Steady (makeStruct d r xs) := .of xs
instance : Steady (loadElement x r y) := .of [x, y]
instance {j : Int} : Steady (loadMethod i x j) := .of [x]
instance : Steady (makeInterfaceRef i x y) := .of [x, y]
instance : Steady (tabulate x h r) := .of [x, h.value]
instance : Steady (consume x r h) := .of [x, h.value]
instance {o : Ownership} {n m : Option Symbol} : Steady (upcasting x o n m) := .of [x]
instance {rs : List Result} : Steady (storeElements x r i rs) := .of (Hands.operands rs ++ [x])
instance {p : Prototype} {rs : List Result} : Steady (callNative p rs) :=
  .of (Hands.operands rs ++ [])

instance {h : Held} {x : Build α} [Steady x] : Steady (releasing h x) where
  extends_of_ok env s a s'' f hp hopen hrun := by
    have hclose := steady_close (h := h)
    obtain ⟨s', h1, h2⟩ := releasing_ok hrun
    obtain ⟨f', hx1, hopen'⟩ := Steady.extends_of_ok hp hopen h1
    obtain ⟨f'', hx2, hopen''⟩ := Steady.extends_of_ok hx1.placed hopen' h2
    exact ⟨f'', hx1.trans hopen' hx2, hopen''⟩

/-- An expression whose value is used. -/
instance {e : Expr} {k : Held → Build β} [∀ h, Steady (k h)] :
    Steady (arriving e (lowerExpr e) >>= fun r => use r >>= k) where
  extends_of_ok env s b s'' f hp hopen hrun := by
    obtain ⟨r, s', h1, hrun⟩ := bind_ok hrun
    obtain ⟨g, rfl, hrun⟩ := use_then hrun
    obtain ⟨f', hg, hopen'⟩ := (lowerExpr_lowers [] e).arriving hp hopen h1
    obtain ⟨f'', hx, hopen''⟩ := Steady.extends_of_ok hg.placed (hopen' rfl) hrun
    exact ⟨f'', hg.toExtends.trans (hopen' rfl) hx, hopen''⟩

end Parts

/-! ## Every kind of expression -/

variable {d e : Expr}

theorem exhibits_arriving (hd : Exhibits [] (lowerExpr d) P) :
    Exhibits U (arriving d (lowerExpr d)) P :=
  hd.arriving.mono (by simp)

theorem lowers_arriving : Lowers U (arriving d (lowerExpr d)) :=
  (lowerExpr_lowers U d).arriving

/-- An expression whose value is used. -/
theorem exhibits_value {j : Held → Build β} [∀ h, Writes (j h)] (hd : Exhibits [] (lowerExpr d) P) :
    Exhibits U (arriving d (lowerExpr d) >>= fun r => use r >>= j) P :=
  .used lowers_arriving (exhibits_arriving hd)

/-- The parts of an expression stand where the expression does. -/
theorem exhibits_part (hmem : d ∈ e.parts) (hd : Exhibits [] (lowerExpr d) P) :
    Exhibits [] (lowerExpr e) P := by
  cases e with
  | missing | constantI64 | constantBool | constantStr | argument | unstackify | localLoad =>
    exact absurd hmem (by simp [Expr.parts])
  | discard source type | stackify source slot | arrayLength array type =>
    obtain rfl := List.mem_singleton.mp hmem
    exact exhibits_value hd
  | ret source type =>
    obtain rfl := List.mem_singleton.mp hmem
    have : ∀ h : Held, Writes (do terminate (.ret (some h.value)); return none : Build Result) :=
      fun h => (ret_lowers (U := [h.value]) (by simp)).writes
    exact exhibits_value hd
  | localStore slot source =>
    obtain rfl := List.mem_singleton.mp hmem
    refine .after .require fun l => .later Orderly.emits fun slot => ?_
    refine .later Orderly.emits fun previous => ?_
    exact exhibits_value hd
  | call function args => exact .list hmem hd fun rs => useAll_uses.first
  | externCall function args =>
    exact .list hmem hd fun rs => .later fun p => callNative_uses.first
  | interfaceCall args virtualParam interface method signature =>
    refine .after .require fun n => .after quiet_interfaceIndex fun i => ?_
    refine .ite (fun _ => .violation) fun _ => .list hmem hd fun rs => useAll_uses.first
  | newStruct sources type =>
    refine .after .require fun r => .after quiet_structDef fun d => ?_
    exact .ite (fun _ => .violation) fun _ => .list hmem hd fun rs => useAll_uses.first
  | block exprs =>
    refine .ite (fun _ => .violation) fun _ => exhibits_lowerSequence hmem hd
  | ite cond thenBranch elseBranch type =>
    have hwrites : ∀ h : Held, Writes (branching h.value type
        (arriving thenBranch (lowerExpr thenBranch))
          (arriving elseBranch (lowerExpr elseBranch))) :=
      fun h => (branching_lowers (U := [h.value]) (by simp) lowers_arriving lowers_arriving).writes
    rcases List.mem_cons.mp hmem with rfl | hmem
    · exact exhibits_value (j := fun h => branching h.value type _ _) hd
    · refine .using (j := fun h => branching h.value type _ _) lowers_arriving fun h => ?_
      refine .branching (fun _ => lowers_arriving) (fun _ => lowers_arriving) (by simp) ?_
      rcases List.mem_pair.mp hmem with rfl | rfl
      · exact .inl (exhibits_arriving hd)
      · exact .inr (exhibits_arriving hd)
  | loop cond body =>
    refine .looping (fun _ => lowers_arriving) (fun _ => lowers_arriving) ?_
    rcases List.mem_pair.mp hmem with rfl | rfl
    · exact .inl (exhibits_arriving hd)
    · exact .inr (exhibits_arriving hd)
  | destroy source type slots =>
    obtain rfl := List.mem_singleton.mp hmem
    refine .after .require fun r => .after quiet_structDef fun d => ?_
    exact .ite (fun _ => .violation) fun _ => exhibits_value hd
  | memberLoad source type index member expected =>
    obtain rfl := List.mem_singleton.mp hmem
    refine .after .require fun r => .after quiet_memberOf fun m => ?_
    exact exhibits_value hd
  | memberStore source type index member value =>
    refine .after .require fun r => .after quiet_memberOf fun m => ?_
    refine .ite (fun _ => .violation) fun _ => .after quiet_isMutableView fun b => ?_
    refine .ite (fun _ => .violation) fun _ => ?_
    rcases List.mem_pair.mp hmem with rfl | rfl
    · exact exhibits_value hd
    · exact .using lowers_arriving fun h => .releasing (exhibits_value hd)
  | upcast source type struct interface =>
    obtain rfl := List.mem_singleton.mp hmem
    refine .after .require fun r => .ite (fun _ => ?_) fun _ => ?_
    · exact .after .require fun _ => .after .require fun _ => .violation
    exact exhibits_value (j := fun h => upcasting h.value _ struct interface) hd
  | knownArrayLoad array type index | unknownArrayLoad array type index =>
    rcases List.mem_pair.mp hmem with rfl | rfl
    · exact exhibits_value hd
    · exact .using lowers_arriving fun a => .releasing (exhibits_value hd)
  | newArray sources type =>
    refine .after .require fun r => ?_
    split
    on_goal 3 => exact .violation
    all_goals
      exact .ite (fun _ => .violation) fun _ => .list hmem hd fun rs =>
        .later fun _ => .later fun _ => storeElements_uses.first
  | tabulate size generator generatorType type =>
    refine .after .require fun r => ?_
    split
    on_goal 3 => exact .violation
    all_goals
      rcases List.mem_pair.mp hmem with rfl | rfl
      · exact exhibits_value hd
      · exact .using lowers_arriving fun n => exhibits_value hd
  | consumeKnownArray array type consumer consumerType
  | consumeUnknownArray array type consumer consumerType =>
    refine .after .require fun r => .ite (fun _ => .violation) fun _ => ?_
    rcases List.mem_pair.mp hmem with rfl | rfl
    · exact exhibits_value hd
    · exact .using lowers_arriving fun a => exhibits_value hd

/-- Every expression that occurs in another stands where that does. -/
theorem exhibits_of_occurs (h : e.Occurs d) : Exhibits [] (lowerExpr d)
    (fun T F => ∃ s f r s' f', Stands T F [] (lowerExpr e) s f r s' f') := by
  induction h with
  | here => exact fun T F s f r s' f' hS => ⟨s, f, r, s', f', hS⟩
  | part mem _ ih => exact exhibits_part mem ih

end Tenure.Lowering

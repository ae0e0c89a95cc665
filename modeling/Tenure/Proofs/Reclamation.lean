import Tenure.Proofs.DropFunctions
import Tenure.Proofs.InterfaceDispatch
import Tenure.Proofs.ObjectLifetimes

/-!
# Releasing frees the garbage

The code that releases a shared value takes down the count of every object that the
value refers to.  What comes to zero is dropped: its own references are released in turn,
through drop functions, method tables and loops over elements, and then it is freed.
This file puts together what the pieces do.  Whatever the heap looks like below the value,
the release comes to its end, what it has freed is the garbage, each object of it once, and
of what is left only the counts have changed.
-/

namespace Tenure.Interp

/-! ## Frees -/

/-- The steps from one configuration to another, with what they log, the latest first. -/
inductive Config.Logs (c : Config) : List Event → Config → Prop
  | refl : Logs c [] c
  | step {log : List Event} {c' c'' : Config} (h : Logs c log c') (h' : c'.step = .inl c'') :
      Logs c (c'.event?.toList ++ log) c''

theorem Steps.logs {c c' : Config} (h : Steps c c') : ∃ log, c.Logs log c' := by
  induction h with
  | refl => exact ⟨[], .refl⟩
  | tail _ hstep ih =>
    obtain ⟨log, hlog⟩ := ih
    exact ⟨_, .step hlog hstep⟩

/-- A heap object was freed. -/
def Ledger.Freed (l : Ledger) (id : Nat) : Prop :=
  ∃ o, l.memory.objects[id]? = some o ∧ o.region = .heap ∧ o.dead = true

section

variable {l l' : Ledger} {e : Option Event} {log : List Event} {c c' : Config}

/-- A step frees what it logs, and that was not freed before. -/
theorem Ledger.Step.freed (hs : l.Step e l') (hslots : l.SlotsAgree) (id : Nat) :
    (l'.Freed id ↔ l.Freed id ∨ e = some (.free id)) ∧ (e = some (.free id) → ¬ l.Freed id) := by
  cases hs with
  | quiet | enter => simp [Freed]
  | leave m slots fs => simp [Freed, hslots.exists_heap id fun o => o.dead = true]
  | slot m slots fs size | malloc m fs size => simp [Freed, Memory.exists_add]
  | free m fs id0 o ho hregion hdead =>
    simp only [Freed, Memory.exists_release]
    by_cases hid : id0 = id
    · subst hid
      simp [ho, hregion, hdead]
    · simp [hid]

/-- Over some steps, what was freed is what is logged, and it is logged once. -/
theorem Config.Logs.freed (h : c.Logs log c') (hslots : c.ledger.SlotsAgree) (id : Nat) :
    c'.ledger.SlotsAgree ∧ (c'.ledger.Freed id ↔ c.ledger.Freed id ∨ .free id ∈ log) ∧
      (.free id ∈ log → ¬ c.ledger.Freed id) ∧ log.count (.free id) ≤ 1 := by
  induction h with
  | refl => simp [hslots]
  | @step log c' c'' _ hstep ih =>
    obtain ⟨hslots', hfreed, hbefore, hcount⟩ := ih
    have hs := step_ledger hstep
    obtain ⟨hfreed', hbefore'⟩ := hs.freed hslots' id
    refine ⟨hslots'.step hs, ?_, fun hmem => ?_, ?_⟩
    · rw [hfreed', hfreed, List.mem_append, Option.mem_toList, or_assoc]
      tauto
    · rw [List.mem_append, Option.mem_toList] at hmem
      rcases hmem with hevent | hmem
      · exact fun hf => hbefore' hevent (hfreed.mpr (.inl hf))
      · exact hbefore hmem
    · rw [List.count_append]
      by_cases hevent : c'.event? = some (.free id)
      · have hnone : log.count (.free id) = 0 :=
          List.count_eq_zero.mpr fun hmem => hbefore' hevent (hfreed.mpr (.inr hmem))
        rw [hnone, hevent]
        simp
      · have hnone : c'.event?.toList.count (.free id) = 0 :=
          List.count_eq_zero.mpr fun hmem => hevent (by simpa using hmem)
        omega

end

end Tenure.Interp

namespace Tenure.Lowering

open Ir (Ty Operand Func)
open Interp (Call World Value Memory Object Event heapObject)

variable {T : Setting} {F : Func} {C : Call} {w : World} {m0 : Memory} {s s' : State} {f f' : Func}
variable {H : Heap} {roots : List Nat} {x : Operand} {r : Reference}
variable {U : List Operand} {final : State}

/-! ## Before and after a release -/

/-- A call of a finished function has come to a state of its construction. -/
structure Underway (T : Setting) (F : Func) (s : State) (f : Func) (C : Call) (w : World) :
    Prop where
  hosts : Hosts T F C
  natives : C.machine.natives = T.natives
  depth : C.machine.depth = T.depth
  ready : Ready C s.block (f.code s.block).length w
  /-- the stack slots of the function have sizes -/
  sized : ∀ j i elem, F.Has 0 j i → i.op = .alloca elem →
    ∃ size, Interp.sizeOf (elem.expand T.final.module.types) = .ok size

variable {α : Type} {L : Facts} {u : Unit} {env : Env} {y : Build α} {a : α}
variable {Q : α → Facts → Memory → Prop}

theorem Underway.hosted (h : Underway T F s f C w) (hS : Stands T F U y s f a s' f')
    (hsound : Sound T.final) : Hosted (fun _ => False) T C where
  code := h.hosts.code
  natives := h.natives
  depth := h.depth
  ssa := by
    have hbody := C.isBody
    change C.code.funcs[C.func]? = some C.body at hbody
    rw [h.hosts.code] at hbody
    have hlt := Nat.lt_of_lt_of_le hS.ended.lt (hS.within C h.hosts.body).keeps.size
    exact hsound.isSsa hbody (Nat.zero_lt_of_lt hlt)
  sized j i elem hi hop e he := by
    rw [h.hosts.body] at hi
    obtain ⟨size, hsize⟩ := h.sized j i elem hi hop
    rw [h.hosts.code, hsize] at he
    cases he

/-- A call has come to the release of a value, which refers to the roots in a heap that is
described. -/
structure AtRelease (T : Setting) (m0 : Memory) (F : Func) (s : State) (f : Func) (x : Operand)
    (r : Reference) (H : Heap) (roots : List Nat) (C : Call) (w : World) : Prop where
  hosts : Hosts T F C
  natives : C.machine.natives = T.natives
  depth : C.machine.depth = T.depth
  ready : Ready C s.block (f.code s.block).length w
  /-- the stack slots of the function have sizes -/
  sized : ∀ j i elem, F.Has 0 j i → i.op = .alloca elem →
    ∃ size, Interp.sizeOf (elem.expand T.final.module.types) = .ok size
  /-- the stack slots that are alive are those of the active frames, as they always are -/
  slots : (standing C s f w).ledger.SlotsAgree
  /-- freeing is left to the runtime -/
  free : T.natives.find? (·.1 == "free") = none
  intact : Intact T m0 w.memory
  value : ∃ v, C.Means w.regs x v ∧ H.Refers T.env T.final [some r] [v] roots
  describes : H.Describes T.env T.final roots w.memory
  /-- there is room for the calls of drop functions -/
  room : ∃ k : Nat, H.Nested roots k roots ∧ T.depth + k ≤ Interp.maxDepth

/-- What is freed in a release is logged, once. -/
theorem Heap.Reclaimed.count_free {freed : Finset Nat} {log : List Event} {c c' : Interp.Config}
    (h : H.Reclaimed roots freed c.machine.memory c'.machine.memory)
    (hslots : c.ledger.SlotsAgree) (hlog : c.Logs log c') (o : Nat) :
    log.count (.free o) = if o ∈ freed then 1 else 0 := by
  obtain ⟨-, hiff, hbefore, hcount⟩ := hlog.freed hslots o
  have hfreed : ∀ c : Interp.Config, c.ledger.Freed o ↔
      ∃ obj, c.machine.memory.objects[o]? = some obj ∧ obj.region = .heap ∧ obj.dead = true :=
    fun c => Interp.Memory.exists_outline
  rw [hfreed, hfreed] at hiff
  rw [hfreed] at hbefore
  split
  · next ho =>
    obtain ⟨obj, obj', hobj, halive, hobj', hregion, hdead⟩ := h.freed o ho
    rcases hiff.mp ⟨obj', hobj', hregion, hdead⟩ with ⟨obj0, hobj0, -, hdead0⟩ | hmem
    · obtain rfl := Option.some.inj (hobj.symm.trans hobj0)
      rw [halive] at hdead0
      cases hdead0
    · have := List.count_pos_iff.mpr hmem
      omega
  · next ho =>
    refine List.count_eq_zero.mpr fun hmem => ?_
    obtain ⟨obj, hobj, hregion, hdead⟩ := hiff.mpr (.inr hmem)
    by_cases hH : o ∈ H.objects
    · obtain ⟨_, obj', _, _, -, -, hobj', hcounted, -⟩ := h.kept o hH ho
      obtain rfl := Option.some.inj (hobj.symm.trans hobj')
      rw [hcounted.alive] at hdead
      cases hdead
    · by_cases hlt : o < c.machine.memory.objects.size
      · rw [h.rest o hlt hH] at hobj
        exact hbefore hmem ⟨obj, hobj, hregion, hdead⟩
      · rw [h.fresh o obj (Nat.le_of_not_lt hlt) hobj] at hregion
        cases hregion

/-! ## Whole programs -/

/-- What releases do in a finished module, in machines that were new with the memory `m₀`. -/
structure Reclaims (p : Program) (options : Options) (m0 : Memory) (final : State) : Prop where
  /-- where the program discards a value, the code that releases it stands -/
  sites : ∀ T : Setting, T.env = ⟨p, options⟩ → T.final = final → ∀ (k : Nat) (fn : Function),
    p.functions[k]? = some fn → ∃ pos F, final.funcs[k]? = some (some pos) ∧
      final.module.funcs[pos]? = some F ∧ ∀ source type, (Expr.discard source type).Occurs fn.body →
        ∃ s0 x s f s' f', valueOf source T.env s0 = .ok x s ∧
          Stands T F [x.value] (discard ⟨x.value, type⟩) s f () s' f'
  /-- such code comes to its end, and the garbage is what it frees, each object once -/
  reclaims : ∀ T : Setting, T.env = ⟨p, options⟩ → T.final = final →
    ∀ ⦃F : Func⦄ ⦃x : Operand⦄ ⦃r : Reference⦄ ⦃s : State⦄ ⦃f : Func⦄ ⦃u : Unit⦄ ⦃s' : State⦄
      ⦃f' : Func⦄, Stands T F [x] (discard ⟨x, some r⟩) s f u s' f' →
    ∀ ⦃H : Heap⦄ ⦃roots : List Nat⦄ ⦃C : Call⦄ ⦃w : World⦄,
      AtRelease T m0 F s f x r H roots C w → ∃ freed log w',
        (standing C s f w).Logs log (standing C s' f' w') ∧
        H.Reclaimed roots freed w.memory w'.memory ∧
        ∀ o, log.count (.free o) = if o ∈ freed then 1 else 0

/-- What a release needs is there. -/
theorem AtRelease.managed {M : Interp.Machine} {output : Interp.Output}
    (h : AtRelease T M.memory F s f x r H roots C w)
    (hassembled : Assembled T.env T.final) (hequipped : Equipped T.env T.final)
    (hlinked : T.env.program.Linked) (hnumbered : T.env.program.Numbered)
    (hnew : Interp.Machine.new T.final.module output = .ok M) : H.Managed T roots w.memory where
  types := hassembled.types
  describes := h.describes
  free := hequipped.runtime .free
  natives := h.free
  tables n e g hn hg := by
    obtain ⟨g', j, drop, d, table, vs, hg', hlt, hdrop, hj, -, htable⟩ :=
      hassembled.tableIn hlinked hnumbered hnew hn
    obtain rfl := Option.some.inj (hg.symm.trans hg')
    exact ⟨j, drop, d, table, vs, hj, hdrop, htable.intact hlt h.intact⟩

/-- Control has come to the end of a piece, and operands stand for what they did. -/
structure Arrived (C : Call) (U : List Operand) (s' : State) (f' : Func) (w w' : World) : Prop where
  ready : Ready C s'.block (f'.code s'.block).length w'
  means : ∀ u ∈ U, ∀ v, C.Means w.regs u v → C.Means w'.regs u v

/-- What a piece does, it does where its code stands. -/
theorem Stands.leads [Steady y] {A : Interp.Fault → Prop} {G : Interp.Config → Prop}
    (h : Stands T F U y s f a s' f') (hy : Runs A T L w.memory y Q) (hC : Hosted A T C)
    (hbody : C.body = F) (hready : Ready C s.block (f.code s.block).length w)
    (hL : ∀ p ∈ L, p.1 ∈ U ∧ C.Means w.regs p.1 p.2) (hG : Interp.Goal A C.rest G)
    (hnext : ∀ L' w', Arrived C U s' f' w w' → Holds C L' f'.nextReg w' → Q a L' w'.memory →
      G (standing C s' f' w')) : G (standing C s f w) := by
  obtain ⟨g, hx, hopen⟩ := Steady.extends_of_ok h.placed h.isOpen h.ok
  obtain rfl := hx.placed.func_eq h.ended
  refine hy h.placed h.isOpen h.ok hx hopen hC (h.within C hbody) hready rfl (h.holds hL) hG
    fun L' w' _ hmoves hready' hL' hq => hnext L' w' ⟨hready', fun u hu v hv => ?_⟩ hL' hq
  have hholds : Holds C [(u, v)] f.nextReg w := h.holds (by simpa using ⟨hu, hv⟩)
  exact means_move hv (hholds (u, v) (by simp)).1 hmoves

theorem Stands.runs [Steady y] (h : Stands T F U y s f a s' f')
    (hy : Runs (fun _ => False) T L w.memory y Q) (hC : Hosted (fun _ => False) T C)
    (hbody : C.body = F) (hready : Ready C s.block (f.code s.block).length w)
    (hL : ∀ p ∈ L, p.1 ∈ U ∧ C.Means w.regs p.1 p.2) :
    ∃ L' w', Interp.Steps (standing C s f w) (standing C s' f' w') ∧ Arrived C U s' f' w w' ∧
      Holds C L' f'.nextReg w' ∧ Q a L' w'.memory := by
  have hreach := h.leads hy hC hbody hready hL
    (Interp.goal_reaching fun c => ∃ L' w', c = standing C s' f' w' ∧ Arrived C U s' f' w w' ∧
      Holds C L' f'.nextReg w' ∧ Q a L' w'.memory)
    fun L' w' hw' hL' hq => ⟨_, .refl, L', w', rfl, hw', hL', hq⟩
  obtain ⟨_, hsteps, L', w', rfl, hq⟩ := hreach
  exact ⟨L', w', hsteps, hq⟩

theorem AtRelease.underway (h : AtRelease T m0 F s f x r H roots C w) : Underway T F s f C w :=
  ⟨h.hosts, h.natives, h.depth, h.ready, h.sized⟩

/-- A value is released. -/
theorem Stands.releases {v : Value} {k : Nat}
    (hS : Stands T F U (Lowering.discard ⟨x, some r⟩) s f u s' f') (hx : x ∈ U)
    (h : Underway T F s f C w) (hM : H.Managed T roots w.memory) (hv : C.Means w.regs x v)
    (hrefers : H.Refers T.env T.final [some r] [v] roots) (hnested : H.Nested roots k roots)
    (hdepth : T.depth + k ≤ Interp.maxDepth) (hequipped : Equipped T.env T.final)
    (hsound : Sound T.final) :
    ∃ freed w', Interp.Steps (standing C s f w) (standing C s' f' w') ∧ Arrived C U s' f' w w' ∧
      H.Reclaimed roots freed w.memory w'.memory := by
  have hroots : ∀ o ∈ roots, o ∈ H.objects := fun o => hrefers.mem
  have hknows : Knows T [(x, v)] x v := knows_of_mem (by simp)
  have hstage : H.Stage roots w.memory (roots ++ []) ∅ ∅ w.memory := by
    rw [List.append_nil]
    exact hM.describes.stage hroots
  have hdrop : ∀ o, H.Garbage roots o → H.Nests roots k o → H.Droppable T roots w.memory o :=
    fun o _ hnests => Heap.droppable hM hequipped hsound hdepth hnests
  have hrun := releases_discard hM hdrop hknows hrefers hnested [] ∅ ∅ w.memory hstage
  obtain ⟨_, w', hsteps, hw', -, freed, hend⟩ :=
    hS.runs hrun (h.hosted hS hsound) h.hosts.body h.ready (by simpa using ⟨hx, hv⟩)
  exact ⟨freed, w', hsteps, hw', hend.reclaimed hM.describes hroots⟩

theorem Stands.reclaims (hS : Stands T F [x] (Lowering.discard ⟨x, some r⟩) s f u s' f')
    (h : AtRelease T m0 F s f x r H roots C w) (hM : H.Managed T roots w.memory)
    (hequipped : Equipped T.env T.final) (hsound : Sound T.final) :
    ∃ freed w', Interp.Steps (standing C s f w) (standing C s' f' w') ∧
      H.Reclaimed roots freed w.memory w'.memory := by
  obtain ⟨v, hv, hrefers⟩ := h.value
  obtain ⟨k, hnested, hdepth⟩ := h.room
  obtain ⟨freed, w', hsteps, -, hreclaimed⟩ := hS.releases (List.mem_singleton_self x) h.underway
    hM hv hrefers hnested hdepth hequipped hsound
  exact ⟨freed, w', hsteps, hreclaimed⟩

theorem release_frees_garbage {q p : Program} {options : Options} {code : Ir.Module}
    {M : Interp.Machine} {output : Interp.Output} (hq : q.resolve = (p, none))
    (hcode : p.toModule options = .ok code)
    (hnew : Interp.Machine.new code output = .ok M) :
    ∃ final : State, buildModule ⟨p, options⟩ {} = .ok () final ∧ final.module = code ∧
      Reclaims p options M.memory final := by
  obtain ⟨hnumbered, hlinked⟩ := Program.resolve_ok hq
  obtain ⟨final, hbuild, rfl⟩ := Program.toModule_ok hcode
  obtain ⟨hassembled, hequipped⟩ := buildModule_finished hnumbered hbuild
  have hsound := buildModule_sound hnumbered hbuild
  refine ⟨final, hbuild, rfl, ?_, ?_⟩
  · rintro ⟨_, _, natives, depth⟩ rfl rfl k fn hk
    obtain ⟨pos, F, hpos, hF, hstands⟩ :=
      Assembled.stands (T := ⟨_, _, natives, depth⟩) hassembled hk
    refine ⟨pos, F, hpos, hF, fun source type hd => ?_⟩
    obtain ⟨s, f, r, s', f', hS⟩ := hstands _ hd
    exact ⟨s, hS.discarded⟩
  · rintro ⟨_, _, natives, depth⟩ rfl rfl F x r s f u s' f' hS H roots C w h
    have hM := h.managed hassembled hequipped hlinked hnumbered hnew
    obtain ⟨freed, w', hsteps, hreclaimed⟩ := hS.reclaims h hM hequipped hsound
    obtain ⟨log, hlog⟩ := hsteps.logs
    exact ⟨freed, log, w', hlog, hreclaimed, fun o => hreclaimed.count_free h.slots hlog o⟩

/-! ## A pair with a part that is kept -/

/-- The value of an expression is what lowering the expression gives. -/
theorem valueOf_ok {e : Expr} {x : Held} (h : valueOf e env s = .ok x s') :
    ∃ s1, lowerExpr e env s1 = .ok (some x) s' := by
  obtain ⟨r, _, harriving, huse⟩ := bind_ok h
  obtain ⟨rfl, rfl⟩ := use_ok huse
  obtain ⟨b, s2, -, hrest⟩ := bind_ok harriving
  cases b with
  | true =>
    exact absurd hrest refused_ne_ok
  | false =>
    obtain ⟨_, s3, -, hrest⟩ := bind_ok hrest
    dsimp only at hrest
    split at hrest
    · obtain ⟨_, s4, -, hrest⟩ := bind_ok hrest
      exact ⟨s4, hrest⟩
    · exact ⟨s3, hrest⟩

theorem valueOf_argument {type : Option Reference} {i : Int} {x : Held}
    (h : valueOf (.argument type i) env s = .ok x s') : ∃ t, x.value = .param i.toNat t := by
  obtain ⟨s1, hlower⟩ := valueOf_ok h
  rw [lowerExpr] at hlower
  obtain ⟨f, s2, -, hparam⟩ := bind_ok hlower
  cases hp : Program.byId f.params.toArray i with
  | none =>
    rw [hp] at hparam
    exact absurd hparam throw_ne_ok
  | some p =>
    rw [hp] at hparam
    obtain ⟨hx, -⟩ := pure_ok hparam
    obtain rfl := Option.some.inj hx
    exact ⟨_, rfl⟩

namespace Sharing

open Shapes (int reference)

def releaseArgument : Expr :=
  .block [.discard (.argument (reference "Pair") 0) (reference "Pair"), .constantI64 0]

/-- Pairs of leaves, and a function that releases one. -/
def program : Program where
  structs := #[⟨"Leaf", true, [], [], -1⟩,
    ⟨"Pair", true, [⟨"left", reference "Leaf"⟩, ⟨"right", reference "Leaf"⟩], [], -1⟩]
  functions := #[⟨⟨"release", [reference "Pair"], int, -1⟩, releaseArgument⟩]
  structSymbols := [("Leaf", -1), ("Pair", -1)]

/-- A pair of two leaves.  There is another reference to the second leaf. -/
def heap : Heap where
  objects := {0, 1, 2}
  shape o := .struct (if o = 0 then 1 else 0)
  parts o := if o = 0 then [.ptr (heapObject 1), .ptr (heapObject 2)] else []
  refs o := if o = 0 then [1, 2] else []
  others o := if o = 2 then 1 else 0

/-- An object with a count and two more cells. -/
def object (address count : Int64) (left right : Value) : Object where
  region := .heap
  address := address
  size := 24
  cells := (((∅ : Interp.Cells).insert 0 ⟨8, .int count⟩).insert 8 ⟨8, left⟩).insert 16 ⟨8, right⟩

def pair : Object := object 0x1000 1 (.ptr (heapObject 1)) (.ptr (heapObject 2))

def memory : Memory where
  objects := #[pair, object 0x1030 1 (.int 0) (.int 0), object 0x1060 2 (.int 0) (.int 0)]
  nextAddress := 0x1090

section

variable {address count : Int64} {left right : Value}

theorem object_cell (offset : Int64) : (object address count left right).cells[offset]? =
    if 16 = offset then some ⟨8, right⟩ else if 8 = offset then some ⟨8, left⟩
    else if 0 = offset then some ⟨8, .int count⟩ else none := by
  simp only [object, Std.HashMap.getElem?_insert, beq_iff_eq, Std.HashMap.getElem?_empty]

theorem object_counted : (object address count left right).Counted count where
  region := rfl
  alive := rfl
  size := show (8 : Int64) ≤ 24 by decide
  count := by
    rw [object_cell]
    rfl
  behind offset c hc := by
    rw [object_cell] at hc
    by_cases hright : 16 = offset
    · subst hright
      exact .inr (by decide)
    · by_cases hleft : 8 = offset
      · subst hleft
        exact .inr (by decide)
      · by_cases hcount : 0 = offset
        · exact .inl hcount.symm
        · simp [hright, hleft, hcount] at hc

end

theorem heap_counts : ∀ o ∈ heap.objects, ∃ obj n, memory.objects[o]? = some obj ∧
    obj.Counted n ∧ n.toInt = heap.due [0] ∅ o := by
  intro o ho
  simp only [heap, Finset.mem_insert, Finset.mem_singleton] at ho
  rcases ho with rfl | rfl | rfl
  · exact ⟨_, 1, rfl, object_counted, by decide⟩
  · exact ⟨_, 1, rfl, object_counted, by decide⟩
  · exact ⟨_, 2, rfl, object_counted, by decide⟩

/-- The types of the parts of objects. -/
theorem heap_types (o : Nat) : (heap.shape o).types program.resolve.1 =
    if o = 0 then [reference "Leaf", reference "Leaf"] else [] := by
  have hpair : (Shape.struct 1).types program.resolve.1 = [reference "Leaf", reference "Leaf"] := by
    decide +kernel
  have hleaf : (Shape.struct 0).types program.resolve.1 = [] := by decide +kernel
  by_cases ho : o = 0 <;> simp [heap, ho, hpair, hleaf]

variable {options : Options} {pos : Nat}

theorem heap_refers : ∀ o ∈ heap.objects,
    heap.Refers ⟨program.resolve.1, options⟩ final ((heap.shape o).types program.resolve.1)
      (heap.parts o) (heap.refs o) := by
  intro o _
  rw [heap_types]
  have hleaf : program.resolve.1.structId (.interned "Leaf") = 0 := by decide +kernel
  by_cases ho : o = 0
  · subst ho
    exact .yonder (by simp [heap]) (.struct hleaf rfl)
      (.yonder (by simp [heap]) (.struct hleaf rfl) .nil)
  · simpa [heap, ho] using Heap.Refers.nil

/-- Where the parts of the pair are in a module. -/
def partAddress (code : Ir.Module) (j : Nat) : Option Interp.Pointer :=
  (Interp.elementAddress ((wrapperType program.resolve.1 1).expand code.types) (heapObject 0)
    [0, 1, shortIndex j]).toOption

/-- A part of the pair is found at its place. -/
theorem hasPart {j : Nat} {offset : Int64} {v : Value}
    (haddress : partAddress final.module j = some ⟨.object 0 .heap, offset⟩) (hlow : 0 < offset)
    (hhigh : offset + 8 ≤ 24) (hv : pair.cells[offset]? = some ⟨8, v⟩) :
    HasPart final memory 0 (wrapperType program.resolve.1 1) [0, 1, shortIndex j]
      (Lowered ⟨program.resolve.1, options⟩ final ⟨.share, .yonder, .struct (.interned "Leaf")⟩)
      v := by
  refine ⟨⟨.object 0 .heap, offset⟩, ?_, fun t ht n => ?_⟩
  · unfold partAddress at haddress
    cases hq : Interp.elementAddress ((wrapperType program.resolve.1 1).expand final.module.types)
        (heapObject 0) [0, 1, shortIndex j] with
    | error e => simp [hq, Except.toOption] at haddress
    | ok q =>
      rw [hq] at haddress
      rw [Option.some.inj haddress]
  · obtain ⟨s, s', hlower, -⟩ := ht
    obtain ⟨i, _, -, hlower⟩ := bind_ok hlower
    obtain ⟨_, _, -, hlower⟩ := bind_ok hlower
    obtain ⟨rfl, -⟩ := pure_ok hlower
    have hne : offset ≠ 0 := fun heq => absurd hlow (by rw [heq]; decide)
    have hpair : memory.objects[0]? = some pair := rfl
    have hcounted : pair.Counted 1 := object_counted
    refine (congrFun (Interp.load_cell (t := .ptr _) trivial _) _).trans ?_
    refine Interp.loadScalar_of (t := .ptr _) rfl rfl
      (Interp.Memory.getElem?_withCount_self hpair) rfl (Int64.le_of_lt hlow) ?_ ?_
    · rw [Interp.Object.size_withCount]
      exact hhigh
    · exact (Interp.Object.withCount_cells hcounted.behind hne).trans hv

/-- What a module must be like for the pair to be in its memory. -/
theorem heap_describes (hleft : partAddress final.module 0 = some ⟨.object 0 .heap, 8⟩)
    (hright : partAddress final.module 1 = some ⟨.object 0 .heap, 16⟩) :
    heap.Describes ⟨program.resolve.1, options⟩ final [0] memory where
  counts := heap_counts
  refers := heap_refers
  members o _ i hi j r v hr _ hv := by
    change ((heap.shape o).types program.resolve.1)[j]? = some (some r) at hr
    rw [heap_types] at hr
    by_cases ho : o = 0
    · subst ho
      obtain rfl : 1 = i := by simpa [heap] using hi
      have hv' : [Value.ptr (heapObject 1), .ptr (heapObject 2)][j]? = some v := hv
      rcases j with - | - | j
      · obtain rfl := Option.some.inj (Option.some.inj hr)
        obtain rfl := Option.some.inj hv'
        exact hasPart hleft (by decide) (by decide) (by rw [pair, object_cell]; rfl)
      · obtain rfl := Option.some.inj (Option.some.inj hr)
        obtain rfl := Option.some.inj hv'
        exact hasPart hright (by decide) (by decide) (by rw [pair, object_cell]; rfl)
      · simp at hv'
    · simp [ho] at hr
  lengths o _ size elem length hshape := by simp [heap] at hshape
  elements o _ size elem length hshape := by simp [heap] at hshape

theorem memory_heap {id : Nat} {obj : Object} (h : memory.objects[id]? = some obj) :
    obj.region = .heap := by
  have hlt : id < 3 := (Array.getElem?_eq_some_iff.mp h).1
  rcases id with - | - | - | id
  · obtain rfl := Option.some.inj h
    rfl
  · obtain rfl := Option.some.inj h
    rfl
  · obtain rfl := Option.some.inj h
    rfl
  · omega

/-- The references lead from the pair to the leaves. -/
theorem heap_nested : heap.Nested roots 2 [0] := by
  intro o ho _
  obtain rfl := List.mem_singleton.mp ho
  refine Heap.nests_of_rank (fun o => if o = 0 then 1 else 0) (fun o o' ho' => ?_) 0
  by_cases ho : o = 0
  · subst ho
    have : o' = 1 ∨ o' = 2 := by simpa [heap] using ho'
    rcases this with rfl | rfl <;> decide
  · simp [heap, ho] at ho'

theorem garbage_iff {o : Nat} : heap.Garbage [0] o ↔ o = 0 ∨ o = 1 := by
  have hpair : heap.Garbage [0] 0 := by
    refine ⟨.root (by simp), rfl, fun o' _ ho' => ?_⟩
    by_cases h : o' = 0 <;> simp [heap, h] at ho'
  constructor
  · rintro ⟨below, alone, -⟩
    have hor : o = 0 ∨ o ∈ [1, 2] := by
      cases below with
      | root ho => exact .inl (by simpa using ho)
      | @ref _ o' _ ho =>
        by_cases h : o' = 0
        · exact .inr (by simpa [heap, h] using ho)
        · simp [heap, h] at ho
    rcases hor with rfl | ho
    · exact .inl rfl
    · rcases List.mem_pair.mp ho with rfl | rfl
      · exact .inr rfl
      · cases alone
  · rintro (rfl | rfl)
    · exact hpair
    · refine ⟨.ref (.root (List.mem_singleton.mpr rfl)) (by simp [heap]), rfl, fun o' _ ho' => ?_⟩
      by_cases h : o' = 0
      · exact h ▸ hpair
      · simp [heap, h] at ho'

/-- What the module of the program is like: it has no globals, its functions make no stack slots,
and the parts of a pair lie behind its count. -/
def fits (code : Ir.Module) : Bool :=
  code.globals.size = 0 ∧ (∀ f ∈ code.funcs, ∀ b ∈ f.blocks, ∀ i ∈ b.insts, i.op.isAlloca = false) ∧
    partAddress code 0 = some ⟨.object 0 .heap, 8⟩ ∧ partAddress code 1 = some ⟨.object 0 .heap, 16⟩

theorem slotless_of_fits {code : Ir.Module} (h : fits code = true)
    (hF : code.funcs[pos]? = some F) : F.Slotless :=
  Ir.Module.slotless_of_isSlotless (decide_eq_true (of_decide_eq_true h).2.1) hF

/-- A call of a function of the program is under way, with nothing registered. -/
def setting (final : State) : Setting := ⟨⟨program.resolve.1, {}⟩, final, [], 1⟩

/-- The code that releases the argument of the function stands there. -/
theorem site (h : Reclaims program.resolve.1 {} m0 final) :
    ∃ (pos : Nat) (F : Func) (t : Ty) (s : State) (f : Func) (s' : State) (f' : Func),
      final.module.funcs[pos]? = some F ∧
      Stands (setting final) F [.param 0 t] (discard ⟨.param 0 t, reference "Pair"⟩) s f () s'
        f' := by
  have hfn : program.resolve.1.functions[0]?.map (·.body) = some releaseArgument := rfl
  obtain ⟨fn, hget, hbody⟩ := Option.map_eq_some_iff.mp hfn
  obtain ⟨pos, F, -, hF, hsites⟩ := h.sites (setting final) rfl rfl 0 fn hget
  have hoccurs : (Expr.discard (.argument (reference "Pair") 0) (reference "Pair")).Occurs
      fn.body := by
    rw [hbody]
    exact .part (List.mem_cons_self ..) .here
  obtain ⟨s0, x, s, f, s', f', hx, hS⟩ := hsites _ _ hoccurs
  obtain ⟨t, ht⟩ := valueOf_argument hx
  rw [ht] at hS
  exact ⟨pos, F, t, s, f, s', f', hF, hS⟩

/-- Where there are no stack slots, they agree with the frames. -/
theorem slotsAgree {c : Interp.Config}
    (hheap : ∀ (id : Nat) (obj : Object), c.machine.memory.objects[id]? = some obj →
      obj.region = .heap)
    (hslots : ∀ frame ∈ c.frames, frame.slots = []) : c.ledger.SlotsAgree := by
  have hnone : ∀ slots ∈ c.ledger.frames, slots = [] := by
    intro slots hmem
    obtain ⟨frame, hframe, rfl⟩ := List.mem_map.mp hmem
    exact hslots frame hframe
  refine ⟨fun id o ho hregion => ?_, fun slots hmem id hid => ?_, ?_⟩
  · change c.machine.memory.outline.objects[id]? = some o at ho
    rw [Interp.Memory.getElem?_outline] at ho
    obtain ⟨obj, hobj, rfl⟩ := Option.map_eq_some_iff.mp ho
    have := hheap id obj hobj
    change obj.region = .stack at hregion
    rw [this] at hregion
    cases hregion
  · rw [hnone slots hmem] at hid
    cases hid
  · rw [List.flatten_eq_nil_iff.mpr hnone]
    exact List.nodup_nil

/-- A call has come to the release of the pair. -/
theorem before_release {t : Ty} (hF : final.module.funcs[pos]? = some F)
    (hfits : fits final.module = true) :
    ∃ C w, AtRelease (setting final) m0 F s f (.param 0 t)
      ⟨.share, .yonder, .struct (.interned "Pair")⟩ heap [0] C w := by
  have hslotless := slotless_of_fits hfits hF
  obtain ⟨hglobals, -, hleft, hright⟩ := of_decide_eq_true hfits
  let M : Interp.Machine := { code := final.module, memory, depth := 1 }
  let C : Call := ⟨M, pos, F, hF, #[.ptr (heapObject 0)], []⟩
  have hpair : program.resolve.1.structId (.interned "Pair") = 1 := by decide +kernel
  refine ⟨C, { memory, output := {} }, ?_⟩
  exact
    { hosts := ⟨rfl, rfl⟩
      natives := rfl
      depth := rfl
      ready := .of_slotless hslotless rfl rfl
      sized := fun j i elem hi hop => absurd hop (hslotless.not_alloca hi)
      slots := slotsAgree (fun _ _ => memory_heap) fun frame hframe => by
        obtain rfl := List.mem_singleton.mp hframe
        rfl
      free := rfl
      intact := fun i hi => absurd hi (by
        change ¬ i < final.module.globals.size
        rw [hglobals]
        exact Nat.not_lt_zero i)
      value := ⟨_, rfl, .yonder (by simp [heap]) (.struct hpair rfl) .nil⟩
      describes := heap_describes hleft hright
      room := ⟨2, heap_nested, show (1 : Int) + 2 ≤ 10000 by decide⟩ }

end Sharing

open Sharing in
theorem release_frees_garbage_sharing :
    ∃ code M final, program.resolve.1.toModule {} = .ok code ∧ Interp.Machine.new code = .ok M ∧
      final.module = code ∧ Reclaims program.resolve.1 {} M.memory final ∧
      ∃ T F x s f s' f' C w log w',
        Stands T F [x] (discard ⟨x, Shapes.reference "Pair"⟩) s f () s' f' ∧
        AtRelease T M.memory F s f x ⟨.share, .yonder, .struct (.interned "Pair")⟩ heap [0] C w ∧
        (standing C s f w).Logs log (standing C s' f' w') ∧
        log.count (.free 0) = 1 ∧ log.count (.free 1) = 1 ∧ log.count (.free 2) = 0 := by
  have hq := Program.resolve_of_none (p := program) (by decide +kernel)
  have heval : (program.resolve.1.toModule {}).toOption.any
      (fun code => (Interp.Machine.new code).toOption.any fun _ => fits code) = true := by
    decide +kernel
  obtain ⟨code, hcode, heval⟩ := except_of_any heval
  obtain ⟨M, hnew, hfits⟩ := except_of_any heval
  obtain ⟨final, -, rfl, hreclaims⟩ := release_frees_garbage hq hcode hnew
  obtain ⟨pos, F, t, s, f, s', f', hF, hS⟩ := site hreclaims
  obtain ⟨C, w, h⟩ := before_release hF hfits
  obtain ⟨freed, log, w', hlog, hreclaimed, hcount⟩ := hreclaims.reclaims _ rfl rfl hS h
  refine ⟨_, M, final, hcode, hnew, rfl, hreclaims, _, F, _, s, f, s', f', C, w, log, w', hS, h,
    hlog, ?_, ?_, ?_⟩
  · rw [hcount, if_pos ((hreclaimed.garbage 0).mpr (garbage_iff.mpr (.inl rfl)))]
  · rw [hcount, if_pos ((hreclaimed.garbage 1).mpr (garbage_iff.mpr (.inr rfl)))]
  · have hkept : 2 ∉ freed := fun hmem => by
      simpa using garbage_iff.mp ((hreclaimed.garbage 2).mp hmem)
    rw [hcount, if_neg hkept]

end Tenure.Lowering

import Tenure.Proofs.ArrayElements
import Tenure.Proofs.FunctionOrder

/-!
# Indexing is exact

A program that is lowered with checks of indices loads elements of arrays.  Wherever it does
so, an index that is negative or not below the length ends the run in a trap, and for every
other one the value that was stored last as the element comes out.  Between the reading of
the element and the end of the expression the array is released: that comes after the
element has been acquired, so that what the element refers to outlives the array.
-/

namespace Tenure

/-- An expression loads an element of an array of a type. -/
def Expr.LoadsElement (e array : Expr) (r : Reference) (index : Expr) : Prop :=
  e = .knownArrayLoad array (some r) index ∨ e = .unknownArrayLoad array (some r) index

end Tenure

namespace Tenure.Lowering

open Ir (Ty Operand Func)
open Interp (Call World Value Memory Object heapObject extent LastStored)

/-! ## Kept layouts -/

section Layouts

variable {T : Setting} {doc : ProgramDoc} {p : Program}
variable {options : Options} {u : Unit} {final : State}

theorem faithful_of_readIn {scope : Load.Scope} (hread : p.ReadIn scope)
    (hp : Program.ofDoc doc = .ok p) (hbuild : buildModule ⟨p, options⟩ {} = .ok u final) :
    Faithful scope.names p final.arrayLayouts := by
  -- the program beside itself
  let σ : Equiv.Perm Nat := Equiv.refl Nat
  let functions : Array Function := p.functions.map (functionOrder σ).functionDef
  have hfunctions : Carries σ (p.functions.toList.map (functionOrder σ).functionDef)
      functions.toList := by
    simp only [functions, Array.toList_map]
    exact fun _ => rfl
  let P := ProgramPair.ofDoc hp hread options (σ := σ) (fun _ _ => rfl) hfunctions
  have hbodies : ∀ fn ∈ P.env.program.functions, Body P fn.body := fun fn hfn =>
    ⟨fun d hd r hr s hs => ((hread.bodies fn hfn).types d hd r hr s hs).referend,
      (hread.bodies fn hfn).links⟩
  rw [buildModule_eq] at hbuild
  obtain ⟨_, s, hprepare, hrun⟩ := bind_ok hbuild
  obtain ⟨s', -, hs⟩ := prepared (P := P) hprepare
  obtain ⟨_, _, htables, hrun⟩ := bind_ok hrun
  obtain ⟨gs, gs', -, hgs, rfl, -⟩ := hs.mirrors.buildTables htables
  replace hrun := getProgram_then hrun
  obtain ⟨τ, t', -, hw⟩ := (hs.bodiesReady hgs hbodies).buildBodies hrun
  exact hw.left.layouts

/-- The layouts that are kept are those of arrays. -/
theorem buildModule_faithful (hp : Program.ofDoc doc = .ok p)
    (hbuild : buildModule ⟨p, options⟩ {} = .ok u final) :
    ∃ scope, p.ReadIn scope ∧ Faithful scope.names p final.arrayLayouts := by
  obtain ⟨scope, hread⟩ := Program.readIn_of_ofDoc hp
  exact ⟨scope, hread, faithful_of_readIn hread hp hbuild⟩

theorem Faithful.keepsLayout {names : Tenure.Declared} {size : Option Int} {q : Ownership}
    {place : Location} {elem : Referend}
    (h : Faithful names T.env.program T.final.arrayLayouts)
    (hr : (Referend.array size q place elem).Printable names) :
    KeepsLayout T size ⟨q, place, elem⟩ := by
  intro layout hmem
  obtain ⟨r', hr', htext, hlayout⟩ := h _ _ hmem
  obtain rfl := hr'.eq_of_text hr htext
  obtain ⟨t, ht, rfl⟩ := Option.map_eq_some_iff.mp hlayout
  have hnone : Faithful names T.env.program ({} : State).arrayLayouts := fun _ _ h => by cases h
  have hreckons : Reckons names T.env (lowerReferend q place elem) _ :=
    reckons_lowerReferend hr.2.2.2
  obtain ⟨t', _, ht', -, hrun⟩ | ⟨hfail, -⟩ := hreckons hnone
  · obtain rfl := Option.some.inj (ht.symm.trans ht')
    exact ⟨t, ⟨_, _, hrun⟩, rfl⟩
  · rw [ht] at hfail
    cases hfail

end Layouts

/-! ## Acquired references -/

namespace Heap

variable {H : Heap} {roots os P : List Nat} {Z : Finset Nat} {o k : Nat}
variable {env : Env} {final : State}

/-- The description of a heap in which a value was acquired that refers to objects. -/
def lend (H : Heap) (os : List Nat) : Heap :=
  { H with others := fun o => H.others o + os.count o }

theorem due_lend : (H.lend os).due P Z o = H.due P Z o + os.count o := by
  simp only [due, lend]
  omega

theorem Below.of_lend (h : (H.lend os).Below roots o) : H.Below roots o := by
  induction h with
  | root ho => exact .root ho
  | ref _ ho ih => exact .ref ih ho

theorem Garbage.of_lend (h : (H.lend os).Garbage roots o) : H.Garbage roots o := by
  induction h with
  | intro below alone _ ih => exact ⟨below.of_lend, (Nat.add_eq_zero_iff.mp alone).1, ih⟩

/-- What was acquired is no garbage. -/
theorem not_garbage_lend (ho : o ∈ os) : ¬ (H.lend os).Garbage roots o := by
  rintro ⟨-, alone, -⟩
  have := List.count_pos_iff.mpr ho
  have := (Nat.add_eq_zero_iff.mp alone).2
  omega

theorem Nests.lend (h : H.Nests roots k o) : (H.lend os).Nests roots k o := by
  induction h with
  | struct shape _ ih => exact .struct shape fun o' ho' hg => ih o' ho' hg.of_lend
  | other shape _ ih => exact .other shape fun o' ho' hg => ih o' ho' hg.of_lend

theorem Nested.lend {os' : List Nat} (h : H.Nested roots k os') : (H.lend os).Nested roots k os' :=
  fun o ho hg => (h o ho hg.of_lend).lend

theorem Points.lend {r : Referend} {v : Value} (h : H.Points env final r v o) :
    (H.lend os).Points env final r v o := by
  cases h with
  | struct hs shape => exact .struct hs shape
  | interface edge hs table shape => exact .interface edge hs table shape
  | array shape => exact .array shape
  | str shape => exact .str shape

theorem Refers.lend {rs : List (Option Reference)} {vs : List Value} {os' : List Nat}
    (h : H.Refers env final rs vs os') : (H.lend os).Refers env final rs vs os' := by
  induction h with
  | nil => exact .nil
  | unshared hr _ ih => exact .unshared hr ih
  | yonder ho points _ ih => exact .yonder ho points.lend ih
  | members hs hd _ _ ih ih' => exact .members hs hd ih ih'
  | plain ht _ ih => exact .plain ht ih

end Heap

section Lending

variable {T : Setting} {H : Heap} {roots os : List Nat} {o : Nat} {m m' : Memory} {obj : Object}
variable {extra : Nat → Nat}

/-- What is found in an object does not depend on counts. -/
theorem HasPart.raised {final : State} {layout : Ty} {path : List Int64} {types : Ty → Prop}
    {v : Value} {n : Int64} (h : HasPart final m o layout path types v) (hm : m.Raised extra m')
    (hobj : m.objects[o]? = some obj) (hn : obj.Counted n) :
    HasPart final m' o layout path types v := by
  obtain ⟨q, hq, hload⟩ := h
  obtain ⟨obj', hobj', halike⟩ := hm.raised o obj n hobj hn
  have hinto : q.Into o := Interp.elementAddress_into hq ⟨.heap, rfl⟩
  exact ⟨q, hq, fun t ht c => Interp.load_alike hinto (hload t ht c)
    (Interp.Memory.getElem?_withCount_self hobj) (Interp.Memory.getElem?_withCount_self hobj')
    (halike.recount hn)⟩

/-- The counts have come to include the references that were acquired. -/
theorem Heap.Describes.lend {env : Env} {final : State} (h : H.Describes env final roots m)
    (hm : m.Raised (os.count ·) m')
    (hfew : ∀ o ∈ H.objects, H.due roots ∅ o + os.count o < 2 ^ 63) :
    (H.lend os).Describes env final roots m' where
  counts o ho := by
    obtain ⟨obj, n, hobj, hn, hdue⟩ := h.counts o ho
    obtain ⟨obj', hobj', hn'⟩ := hm.counted hobj hn
    refine ⟨obj', _, hobj', hn', ?_⟩
    have hlt := hfew o ho
    rw [Heap.due_lend, Int64.toInt_add, Int64.toInt_ofNat_of_lt (by omega), hdue,
      Int.bmod_eq_of_le (by omega) (by omega)]
    omega
  refers o ho := (h.refers o ho).lend
  members o ho i hi j r v hr hown hv := by
    obtain ⟨obj, n, hobj, hn, -⟩ := h.counts o ho
    exact (h.members o ho i hi j r v hr hown hv).raised hm hobj hn
  lengths := h.lengths
  elements o ho size elem length hshape hown layout hl := by
    obtain ⟨obj, n, hobj, hn, -⟩ := h.counts o ho
    obtain ⟨hlength, size', e, hlayout, hparts⟩ := h.elements o ho size elem length hshape hown
      layout hl
    exact ⟨fun hnone => (hlength hnone).raised hm hobj hn, size', e, hlayout,
      fun j v hv => (hparts j v hv).raised hm hobj hn⟩

/-- A method table is no counted object: it begins with the address of a function. -/
theorem TableIn.raised {e : ResolvedEdge} {g j drop : Nat} {d : InterfaceDef} {table : Object}
    {vs : List Value} (h : TableIn T m e g j drop d table vs) (hm : m.Raised (os.count ·) m')
    (hcounted : ∀ o ∈ os, ∃ obj n, m.objects[o]? = some obj ∧ obj.Counted n) :
    ∃ table', TableIn T m' e g j drop d table' vs := by
  have hfirst := h.row.cells 0 _ rfl
  have hnone : os.count g = 0 := by
    refine List.count_eq_zero.mpr fun hg => ?_
    obtain ⟨obj, n, hobj, hn⟩ := hcounted g hg
    obtain rfl := Option.some.inj (hobj.symm.trans h.object)
    have hcount := hn.count
    rw [show (0 : Int64) = Interp.rowOffset 0 from rfl, hfirst] at hcount
    cases hcount
  obtain ⟨table', htable', halike⟩ := hm.same g table h.object hnone
  refine ⟨table', { h with object := htable', row := ?_ }⟩
  exact
    { alive := halike.dead.trans h.row.alive
      low := h.row.low
      fits := fun k hk => halike.size ▸ h.row.fits k hk
      cells := fun k v hv => (halike.cells _).trans (h.row.cells k v hv) }

/-- What a release needs is still there. -/
theorem Heap.Managed.lend (h : H.Managed T roots m) (hm : m.Raised (os.count ·) m')
    (hcounted : ∀ o ∈ os, ∃ obj n, m.objects[o]? = some obj ∧ obj.Counted n)
    (hfew : ∀ o ∈ H.objects, H.due roots ∅ o + os.count o < 2 ^ 63) :
    (H.lend os).Managed T roots m' :=
  { h with
    describes := h.describes.lend hm hfew
    tables := fun n e g hn hg => by
      obtain ⟨j, drop, d, table, vs, hj, hdrop, htable⟩ := h.tables n e g hn hg
      obtain ⟨table', htable'⟩ := htable.raised hm hcounted
      exact ⟨j, drop, d, table', vs, hj, hdrop, htable'⟩ }

end Lending

/-! ## Where elements are loaded -/

section Sites

variable {T : Setting} {F : Func} {s s' : State} {f f' : Func} {array index e : Expr}
variable {r : Reference} {q : Result}

/-- Both kinds of arrays are read in the same way. -/
theorem lowerExpr_of_loadsElement (h : e.LoadsElement array r index) :
    lowerExpr e = (do
      let a ← valueOf array
      releasing ⟨a.value, some r⟩ do
        let i ← valueOf index
        return some (← loadElement a.value (← require (some r)) i.value)) := by
  rcases h with rfl | rfl <;> simp only [lowerExpr, valueOf, lower, bind_assoc]

/-- Where control comes, what was taken over is released. -/
theorem Stands.closed {U : List Operand} {h : Held}
    (hS : Stands T F U (do if !(← terminated) then Lowering.discard h) s f () s' f') :
    Stands T F U (Lowering.discard h) s f () s' f' :=
  { hS with ok := open_then hS.ok hS.placed hS.isOpen }

/-- The array is released where the element has been read. -/
theorem Stands.elementRead (h : e.LoadsElement array r index)
    (hS : Stands T F [] (lowerExpr e) s f q s' f') :
    ∃ x y z s1 s2 f2 s3 f3, q = some z ∧ valueOf array T.env s = .ok x s1 ∧
      valueOf index T.env s1 = .ok y s2 ∧
      Stands T F [y.value, x.value] (loadElement x.value r y.value) s2 f2 z s3 f3 ∧
      Stands T F [z.value, x.value] (Lowering.discard ⟨x.value, some r⟩) s3 f3 () s' f' := by
  rw [lowerExpr_of_loadsElement h] at hS
  obtain ⟨x, s1, hx, hrun⟩ := bind_ok hS.ok
  obtain ⟨_, hbody, hclose⟩ := releasing_ok hrun
  obtain ⟨y, s2, hy, hbody⟩ := bind_ok hbody
  obtain ⟨_, hr', hbody⟩ := require_then hbody
  obtain rfl := Option.some.inj hr'
  obtain ⟨z, s3, hz, hbody⟩ := bind_ok hbody
  obtain ⟨rfl, rfl⟩ := pure_ok hbody
  -- the same code, with the end of the release in line
  have hS' : Stands T F [] (do
      let x ← valueOf array
      let y ← valueOf index
      let _ ← loadElement x.value r y.value
      if !(← terminated) then Lowering.discard ⟨x.value, some r⟩) s f () s' f' :=
    { hS with ok := (bind_of_ok hx).trans ((bind_of_ok hy).trans ((bind_of_ok hz).trans hclose)) }
  obtain ⟨f1, hg1, hopen1⟩ := Orderly.emits (U := []) hS.placed hS.isOpen hx
  have hS1 := hS'.second (a := x) hg1 hopen1
    ((bind_of_ok hy).trans ((bind_of_ok hz).trans hclose))
  obtain ⟨f2, hg2, hopen2⟩ := Orderly.emits (U := Hands.operands x ++ []) hS1.placed hS1.isOpen hy
  have hS2 := hS1.second (a := y) hg2 hopen2 ((bind_of_ok hz).trans hclose)
  obtain ⟨f3, hg3, hopen3⟩ :=
    Orderly.emits (U := Hands.operands y ++ (Hands.operands x ++ [])) hS2.placed hS2.isOpen hz
  have hS3 := hS2.second (a := z) hg3 hopen3 hclose
  have hsteady := steady_close (h := ⟨x.value, some r⟩)
  refine ⟨x, y, z, s1, s2, f2, s3, f3, rfl, hx, hy,
    (hS2.first hg3.toExtends hopen3 hz hclose).mono (by simp), hS3.closed.mono (by simp)⟩

end Sites

/-! ## What the code asks for -/

section Sizes

variable {T : Setting} {m : Memory} {o length : Nat} {size : Option Int} {elem : Reference} {t : Ty}
variable {obj : Object}

/-- The bytes that are asked for when an array is made: where the type states the length they are
the size of the layout, and otherwise the elements come on top. -/
def Asked (T : Setting) (size : Option Int) (t : Ty) (length : Nat) (bytes : Int64) : Prop :=
  ∃ whole stride : Int64, ConstIs T (sizeOf (arrayLayoutOf size t)) (.int whole) ∧
    ConstIs T (sizeOf t) (.int stride) ∧
    bytes = if size.isSome then whole else whole + .ofNat length * stride

/-- So many bytes an array has. -/
theorem ArrayAt.asked (h : ArrayAt T m o size elem t length obj) (hT : WrittenOut T)
    (htypes : T.Typed) : Asked T size t length obj.size := by
  obtain ⟨name, hname⟩ := htypes.header
  obtain ⟨stride, hstride⟩ := h.sized
  have hover := h.over hT h.type
  have hwhole := (sizeOf_arrayLayoutOf hname hover h.stated h.small h.fits).2
  refine ⟨_, stride, constIs_sizeOf hwhole, constIs_sizeOf hstride, ?_⟩
  have hbytes := h.bytes
  have hfits := h.fits
  rw [← Int64.toInt_inj, hbytes]
  cases size with
  | some n =>
    simp only [Option.isSome_some, if_true]
    rw [Int64.toInt_ofNat_of_lt hfits]
  | none =>
    simp only [Option.isSome_none, Bool.false_eq_true, if_false]
    -- without elements their size does not matter
    have hmul : Int64.ofNat length * stride =
        .ofNat (length * extent (t.expand T.final.module.types)) := by
      rcases Nat.eq_zero_or_pos length with rfl | hpos
      · simp
      · have hle := Nat.le_mul_of_pos_left (extent (t.expand T.final.module.types)) hpos
        have hsize := Interp.LaidOut.sizeOf
          ⟨Interp.sized_of_over hover, by simp [arrayBytes] at hfits; omega⟩
        obtain rfl : stride = _ := by
          injection hstride.symm.trans hsize
        rw [Int64.ofNat_mul]
    rw [hmul, ← Int64.ofNat_add]
    exact (Int64.toInt_ofNat_of_lt hfits).symm

/-- The elements of an array lie behind its header, one after the other and inside the object. -/
theorem ArrayAt.places (h : ArrayAt T m o size elem t length obj) {i : Nat} (hi : i < length) :
    let stride := extent (t.expand T.final.module.types)
    let start := contentsAt size + i * stride
    contentsAt size ≤ start ∧ (start + stride : Int) ≤ obj.size.toInt ∧
      ∀ j, i < j → start + stride ≤ contentsAt size + j * stride := by
  have hinside := element_le_arrayBytes size (extent (t.expand T.final.module.types)) hi
  have hbytes := h.bytes
  refine ⟨Nat.le_add_right _ _, by omega, fun j hj => ?_⟩
  have hle : (i + 1) * extent (t.expand T.final.module.types) ≤
      j * extent (t.expand T.final.module.types) := Nat.mul_le_mul_right _ hj
  rw [Nat.succ_mul] at hle
  omega

end Sizes

/-! ## Whole programs -/

section Program

variable {T : Setting} {F : Func} {m0 : Memory} {x i : Operand} {z : Held} {C : Call} {w : World}
variable {s s1 s' : State} {f f1 f' : Func} {o length : Nat} {n : Int64} {size : Option Int}
variable {q q' : Ownership} {l place : Location} {elem : Referend} {t : Ty} {obj : Object}
variable {v : Value} {os roots : List Nat} {H : Heap}

/-- A call has come to the load of an element of an array. -/
structure AtElement (T : Setting) (F : Func) (s : State) (f : Func) (x i : Operand) (o : Nat)
    (n : Int64) (size : Option Int) (elem : Reference) (t : Ty) (length : Nat) (obj : Object)
    (C : Call) (w : World) : Prop extends Underway T F s f C w where
  array : C.Means w.regs x (.ptr (heapObject o))
  index : C.Means w.regs i (.int n)
  word : i.ty = .i64
  layout : KeepsLayout T size elem
  held : ArrayAt T w.memory o size elem t length obj
  /-- trapping is left to the runtime -/
  trap : T.natives.find? (·.1 == "llvm.trap") = none

/-- An index is in range, and a value that refers to objects was stored last as the element. -/
structure HasElement (T : Setting) (m : Memory) (o : Nat) (n : Int64) (size : Option Int)
    (elem : Reference) (t : Ty) (length : Nat) (obj : Object) (v : Value) (os : List Nat) :
    Prop where
  range : 0 ≤ n.toInt ∧ n.toInt < length
  last : LastStored (t.expand T.final.module.types) v o
    (contentsAt size + n.toInt.toNat * extent (t.expand T.final.module.types)) obj
  cites : Cites T.env.program [some (lentElement elem)] [v] os
  counted : ∀ o ∈ os, ∃ obj n, m.objects[o]? = some obj ∧ obj.Counted n

theorem Hosted.allow {A : Interp.Fault → Prop} (h : Hosted (fun _ => False) T C) : Hosted A T C :=
  { h with sized := fun j i elem hi hop e he => (h.sized j i elem hi hop e he).elim }

/-- A fault that comes to a stack. -/
theorem goal_raising {e : Interp.Fault} {rest : List Interp.Task} : Interp.Goal (· = e) rest
    (Interp.Reaching fun c => ∃ M, c = { machine := M, stack := rest, activity := .raise e }) where
  back c c' hstep := by
    rintro ⟨d, hd, hP⟩
    exact ⟨d, .head hstep hd, hP⟩
  fault M e' he := by
    subst he
    exact ⟨_, .refl, M, rfl⟩

section Loads

theorem AtElement.knows {r : Reference} (h : AtElement T F s f x i o n size r t length obj C w) :
    Knows T [(i, .int n), (x, .ptr (heapObject o))] x (.ptr (heapObject o)) ∧
      Gives T [(i, .int n), (x, .ptr (heapObject o))] i (.int n) .i64 :=
  ⟨knows_of_mem (by simp), knows_of_mem (by simp), h.word⟩

variable (hS : Stands T F [i, x] (loadElement x ⟨q, l, .array size q' place elem⟩ i) s f z s1 f1)
  (h : AtElement T F s f x i o n size ⟨q', place, elem⟩ t length obj C w)
  (hT : WrittenOut T) (htypes : T.Typed)
  (hsound : Sound T.final) (hbounds : T.env.options.bounds = .trap)
include hS h hT htypes hsound hbounds

theorem AtElement.traps (hequipped : Equipped T.env T.final)
    (hout : ¬ (0 ≤ n.toInt ∧ n.toInt < length)) :
    ∃ M, Interp.Steps (standing C s f w)
      { machine := M, stack := C.rest, activity := .raise (.error .trap) } := by
  have hrun := h.held.runs_outside (Q := fun _ _ _ => False) (q := q) (l := l) h.layout hT htypes
    h.knows.1 hequipped h.trap hbounds h.knows.2 hout
  obtain ⟨_, hsteps, M, rfl⟩ := hS.leads hrun (h.hosted hS hsound).allow h.hosts.body h.ready
    (by simpa using ⟨h.index, h.array⟩) goal_raising fun _ _ _ _ hfalse => hfalse.elim
  exact ⟨M, hsteps⟩

theorem AtElement.reads (hv : HasElement T w.memory o n size ⟨q', place, elem⟩ t length obj v os) :
    ∃ w1, Interp.Steps (standing C s f w) (standing C s1 f1 w1) ∧ Arrived C [i, x] s1 f1 w w1 ∧
      C.Means w1.regs z.value v ∧ z.type = some (lentElement ⟨q', place, elem⟩) ∧
      w.memory.Raised (os.count ·) w1.memory := by
  have hn : Int64.ofNat n.toInt.toNat = n := Interp.ofNat_toInt_toNat hv.range.1
  have hi : n.toInt.toNat < length := by
    have := hv.range
    omega
  have hindex : Gives T [(i, .int n), (x, .ptr (heapObject o))] i (.int (.ofNat n.toInt.toNat))
      .i64 := by
    rw [hn]
    exact h.knows.2
  have hrun := h.held.runs_inside (q := q) (l := l) h.layout hT htypes h.knows.1 hbounds hindex hi
    hv.last hv.cites hv.counted
  obtain ⟨_, w1, hsteps, hw1, hL1, hz, htype, hraised⟩ := hS.runs hrun (h.hosted hS hsound)
    h.hosts.body h.ready (by simpa using ⟨h.index, h.array⟩)
  exact ⟨w1, hsteps, hw1, hz.means h.hosts.code hL1, htype, hraised⟩

end Loads

/-- Loads of elements in a finished module, in machines that were new with the memory `m₀`. -/
structure Indexes (p : Program) (options : Options) (m0 : Memory) (final : State) : Prop where
  /-- where the program loads an element, the code that reads it stands, and behind that the code
  that releases the array -/
  sites : ∀ T : Setting, T.env = ⟨p, options⟩ → T.final = final → ∀ (k : Nat) (fn : Function),
    p.functions[k]? = some fn → ∃ pos F, final.funcs[k]? = some (some pos) ∧
      final.module.funcs[pos]? = some F ∧
      ∀ (e array : Expr) (r : Reference) (index : Expr), e.LoadsElement array r index →
        e.Occurs fn.body → ∃ x i z s0 f0 s1 s f s2 f2 s' f',
          Stands T F [] (lowerExpr e) s0 f0 (some z) s' f' ∧
          valueOf array T.env s0 = .ok x s1 ∧ valueOf index T.env s1 = .ok i s ∧
          Stands T F [i.value, x.value] (loadElement x.value r i.value) s f z s2 f2 ∧
          Stands T F [z.value, x.value] (discard ⟨x.value, some r⟩) s2 f2 () s' f'
  /-- in a program that was read from a document, layouts are not mixed up -/
  layouts : ∀ T : Setting, T.env = ⟨p, options⟩ → T.final = final →
    ∀ doc, Program.ofDoc doc = .ok p → ∀ fn ∈ p.functions,
      ∀ (e array index : Expr) q l size q' place elem,
        e.LoadsElement array ⟨q, l, .array size q' place elem⟩ index → e.Occurs fn.body →
        KeepsLayout T size ⟨q', place, elem⟩
  /-- an array is as big as the code asks for, and its elements are apart -/
  places : ∀ T : Setting, T.env = ⟨p, options⟩ → T.final = final →
    ∀ ⦃m : Memory⦄ ⦃o : Nat⦄ ⦃size : Option Int⦄ ⦃elem : Reference⦄ ⦃t : Ty⦄ ⦃length : Nat⦄
      ⦃obj : Object⦄, ArrayAt T m o size elem t length obj →
      Asked T size t length obj.size ∧ ∀ i < length,
        let stride := extent (t.expand T.final.module.types)
        let start := contentsAt size + i * stride
        contentsAt size ≤ start ∧ (start + stride : Int) ≤ obj.size.toInt ∧
          ∀ j, i < j → start + stride ≤ contentsAt size + j * stride
  /-- an index that is out of range ends in a trap -/
  traps : ∀ T : Setting, T.env = ⟨p, options⟩ → T.final = final →
    ∀ ⦃F : Func⦄ ⦃x i : Operand⦄ ⦃q q' : Ownership⦄ ⦃l place : Location⦄ ⦃size : Option Int⦄
      ⦃elem : Referend⦄ ⦃s : State⦄ ⦃f : Func⦄ ⦃z : Held⦄ ⦃s1 : State⦄ ⦃f1 : Func⦄,
      Stands T F [i, x] (loadElement x ⟨q, l, .array size q' place elem⟩ i) s f z s1 f1 →
    ∀ ⦃o : Nat⦄ ⦃n : Int64⦄ ⦃t : Ty⦄ ⦃length : Nat⦄ ⦃obj : Object⦄ ⦃C : Call⦄ ⦃w : World⦄,
      AtElement T F s f x i o n size ⟨q', place, elem⟩ t length obj C w →
      ¬ (0 ≤ n.toInt ∧ n.toInt < length) → ∃ M, Interp.Steps (standing C s f w)
        { machine := M, stack := C.rest, activity := .raise (.error .trap) }
  /-- for an index in range, what was stored last as the element is read and acquired; after that
  the array is released, and what the element refers to is not freed with it -/
  reads : ∀ T : Setting, T.env = ⟨p, options⟩ → T.final = final →
    ∀ ⦃F : Func⦄ ⦃x i : Operand⦄ ⦃q q' : Ownership⦄ ⦃l place : Location⦄ ⦃size : Option Int⦄
      ⦃elem : Referend⦄ ⦃s : State⦄ ⦃f : Func⦄ ⦃z : Held⦄ ⦃s1 : State⦄ ⦃f1 : Func⦄ ⦃s' : State⦄
      ⦃f' : Func⦄,
      Stands T F [i, x] (loadElement x ⟨q, l, .array size q' place elem⟩ i) s f z s1 f1 →
      Stands T F [z.value, x] (discard ⟨x, some ⟨q, l, .array size q' place elem⟩⟩) s1 f1 () s'
        f' →
    ∀ ⦃o : Nat⦄ ⦃n : Int64⦄ ⦃t : Ty⦄ ⦃length : Nat⦄ ⦃obj : Object⦄ ⦃v : Value⦄ ⦃os : List Nat⦄
      ⦃C : Call⦄ ⦃w : World⦄, AtElement T F s f x i o n size ⟨q', place, elem⟩ t length obj C w →
      HasElement T w.memory o n size ⟨q', place, elem⟩ t length obj v os →
      ∃ w1, Interp.Steps (standing C s f w) (standing C s1 f1 w1) ∧ C.Means w1.regs z.value v ∧
        z.type = some (lentElement ⟨q', place, elem⟩) ∧
        w.memory.Raised (os.count ·) w1.memory ∧
        ∀ ⦃H : Heap⦄ ⦃roots : List Nat⦄,
          AtRelease T m0 F s f x ⟨q, l, .array size q' place elem⟩ H roots C w →
          (∀ o ∈ H.objects, H.due roots ∅ o + os.count o < 2 ^ 63) → ∃ freed w',
            Interp.Steps (standing C s1 f1 w1) (standing C s' f' w') ∧
            C.Means w'.regs z.value v ∧
            (H.lend os).Reclaimed roots freed w1.memory w'.memory ∧ ∀ o ∈ os, o ∉ freed

theorem indexing_is_exact {q p : Program} {options : Options} {code : Ir.Module}
    {M : Interp.Machine} {output : Interp.Output} (hq : q.resolve = (p, none))
    (hcode : p.toModule options = .ok code)
    (hbounds : options.bounds = .trap) (hnew : Interp.Machine.new code output = .ok M) :
    ∃ final : State, buildModule ⟨p, options⟩ {} = .ok () final ∧ final.module = code ∧
      Indexes p options M.memory final := by
  obtain ⟨hnumbered, hlinked⟩ := Program.resolve_ok hq
  obtain ⟨final, hbuild, rfl⟩ := Program.toModule_ok hcode
  obtain ⟨hassembled, hequipped⟩ := buildModule_finished hnumbered hbuild
  have hsound := buildModule_sound hnumbered hbuild
  have hwritten : ∀ natives depth, WrittenOut ⟨⟨p, options⟩, final, natives, depth⟩ :=
    fun _ _ r t n ⟨_, _, ht⟩ hn => expand_over hnumbered hbuild ht hn
  refine ⟨final, hbuild, rfl, ?_, ?_, ?_, ?_, ?_⟩
  · rintro ⟨_, _, natives, depth⟩ rfl rfl k fn hk
    obtain ⟨pos, F, hpos, hF, hstands⟩ :=
      Assembled.stands (T := ⟨_, _, natives, depth⟩) hassembled hk
    refine ⟨pos, F, hpos, hF, fun e array r index he hd => ?_⟩
    obtain ⟨s0, f0, z, s', f', hS⟩ := hstands _ hd
    obtain ⟨x, i, z, s1, s, f, s2, f2, rfl, hx, hi, hload, hdiscard⟩ := hS.elementRead he
    exact ⟨x, i, z, s0, f0, s1, s, f, s2, f2, s', f', hS, hx, hi, hload, hdiscard⟩
  · rintro ⟨_, _, natives, depth⟩ rfl rfl doc hp fn hfn e array index q l size q' place elem he hd
    obtain ⟨scope, hread, hfaithful⟩ := buildModule_faithful hp hbuild
    refine Faithful.keepsLayout (T := ⟨_, _, natives, depth⟩) hfaithful ?_
    have hmem : some (⟨q, l, .array size q' place elem⟩ : Reference) ∈ e.types := by
      rcases he with rfl | rfl <;> simp [Expr.types]
    exact ((hread.bodies fn hfn).types e hd _ hmem _ rfl).referend
  · rintro ⟨_, _, natives, depth⟩ rfl rfl m o size elem t length obj h
    exact ⟨h.asked (hwritten _ _) hassembled.types, fun i hi => h.places hi⟩
  · rintro ⟨_, _, natives, depth⟩ rfl rfl F x i q q' l place size elem s f z s1 f1 hS o n t length
      obj C w h hout
    exact h.traps hS (hwritten _ _) hassembled.types hsound hbounds hequipped hout
  · rintro ⟨_, _, natives, depth⟩ rfl rfl F x i q q' l place size elem s f z s1 f1 s' f' hS hD o n t
      length obj v os C w h hv
    obtain ⟨w1, hsteps, hw1, hz, htype, hraised⟩ :=
      h.reads hS (hwritten _ _) hassembled.types hsound hbounds hv
    refine ⟨w1, hsteps, hz, htype, hraised, fun H roots hR hfew => ?_⟩
    have hM := hR.managed hassembled hequipped hlinked hnumbered hnew
    obtain ⟨u, hu, hrefers⟩ := hR.value
    obtain ⟨k, hnested, hdepth⟩ := hR.room
    have hunderway : Underway _ F s1 f1 C w1 := { h.toUnderway with ready := hw1.ready }
    obtain ⟨freed, w', hsteps', hw', hreclaimed⟩ := hD.releases (List.mem_pair.mpr (.inr rfl))
      hunderway (hM.lend hraised hv.counted hfew) (hw1.means x (by simp) u hu) hrefers.lend
      hnested.lend hdepth hequipped hsound
    exact ⟨freed, w', hsteps', hw'.means z.value (by simp) v hz, hreclaimed,
      fun o ho hfreed => Heap.not_garbage_lend ho ((hreclaimed.garbage o).mp hfreed)⟩

end Program

/-! ## An array of one leaf -/

namespace Leaves

open Shapes (int)
open Sharing (object object_cell object_counted)

def leaf : Reference := ⟨.share, .yonder, .struct (.interned "Leaf")⟩

def leafArray : Reference :=
  ⟨.share, .yonder, .array none .share .yonder (.struct (.interned "Leaf"))⟩

def pick (index : Int) : Expr :=
  .unknownArrayLoad (.argument (some leafArray) 0) (some leafArray) (.constantI64 index)

/-- Arrays of leaves, and a function that takes a leaf out of one. -/
def program : Program where
  structs := #[⟨"Leaf", true, [], [], -1⟩]
  functions := #[⟨⟨"pick", [some leafArray], int, -1⟩,
    .block [.discard (pick 0) (some leaf), .discard (pick 1) (some leaf), .constantI64 0]⟩]
  structSymbols := [("Leaf", -1)]

/-- An array of one leaf, to which there is no other reference. -/
def heap : Heap where
  objects := {0, 1}
  shape o := if o = 0 then .array none leaf 1 else .struct 0
  parts o := if o = 0 then [.ptr (heapObject 1)] else []
  refs o := if o = 0 then [1] else []
  others _ := 0

def array : Object := object 0x1000 1 (.int 1) (.ptr (heapObject 1))

def memory : Memory where
  objects := #[array, object 0x1030 1 (.int 0) (.int 0)]
  nextAddress := 0x1060

/-- A call of the function is under way, with nothing registered. -/
def setting (final : State) : Setting := ⟨⟨program.resolve.1, {}⟩, final, [], 1⟩

/-- Pointers to leaves. -/
def pointer : Ty := .ptr (wrapperType program.resolve.1 0)

theorem structId_leaf : program.resolve.1.structId (.interned "Leaf") = 0 := by decide +kernel

variable {final : State} {t : Ty} {n : Int}

theorem becomes_pointer : Becomes (setting final).env leaf pointer := by
  have hindex : structIndex (.interned "Leaf") (setting final).env {} = .ok 0 {} := by
    have hsize : program.resolve.1.structs.size = 1 := by decide +kernel
    refine (bind_of_ok (show getProgram (setting final).env {} = .ok program.resolve.1 {} from
      rfl)).trans ?_
    simp only [structId_leaf, hsize]
    rfl
  exact ⟨{}, {}, (bind_of_ok hindex).trans rfl⟩

theorem fits_pointer {types : Ir.TypeDefs} :
    arrayBytes none 1 (extent (pointer.expand types)) < 2 ^ 63 := by
  change 24 < 2 ^ 63
  decide

/-- Whether a type is the layout of arrays of leaves. -/
def isLayout : Ty → Bool
  | .struct name [.defined i header, .int bits, .array n (.ptr (.defined j spelling))] =>
      name = "" ∧ i = 0 ∧ header = Ir.typeIdent "__ControlBlock" ∧ bits = 64 ∧ n = 0 ∧ j = 4 ∧
        spelling = Ir.typeIdent "Leaf"
  | _ => false

theorem eq_of_isLayout (h : isLayout t = true) : t = arrayLayoutOf none pointer := by
  unfold isLayout at h
  split at h
  · obtain ⟨rfl, rfl, rfl, rfl, rfl, rfl, rfl⟩ := of_decide_eq_true h
    rfl
  · cases h

/-- Whether a definition is that of the header of objects. -/
def isHeader : Option Ir.TypeDef → Bool
  | some ⟨_, [.int 64]⟩ => true
  | _ => false

theorem eq_of_isHeader {d : Option Ir.TypeDef} (h : isHeader d = true) :
    ∃ name, d = some ⟨name, [.i64]⟩ := by
  unfold isHeader at h
  split at h
  · exact ⟨_, rfl⟩
  · cases h

/-- What the module of the program is like: it has no globals, its functions make no stack slots,
objects have a header, and what is kept is the layout of arrays of leaves. -/
def fits (final : State) : Bool :=
  final.module.globals.size = 0 ∧ final.module.isSlotless ∧ isHeader final.module.types[0]? ∧
    ∀ entry ∈ final.arrayLayouts, isLayout entry.2

theorem load_part {offset : Nat} {v : Value} {n : Int64} (ht : Interp.IsCell t)
    (hsize : Interp.sizeOf t = .ok 8) (hlow : 0 < offset) (hhigh : offset + 8 ≤ 24)
    (hv : array.cells[Int64.ofNat offset]? = some ⟨8, v⟩) :
    Interp.load t ⟨.object 0 .heap, .ofNat offset⟩ (memory.withCount 0 n) =
      .ok v (memory.withCount 0 n) := by
  have hne : Int64.ofNat offset ≠ 0 := Interp.ofNat_ne_of_lt hlow (by omega)
  have hcounted : array.Counted 1 := object_counted
  have hat : Interp.Pointer.At ⟨.object 0 .heap, .ofNat offset⟩ (memory.withCount 0 n) 0 offset
      (array.withCount n) :=
    ⟨⟨.heap, rfl⟩, rfl, Interp.Memory.getElem?_withCount_self rfl, by simp; rfl⟩
  refine Interp.load_of_cell (n := 8) ht hsize hat ?_ ?_
  · rw [Interp.Object.size_withCount]
    change ((offset + 8 : Nat) : Int) ≤ 24
    omega
  · exact (Interp.Object.withCount_cells hcounted.behind hne).trans hv

theorem memory_heap {id : Nat} {obj : Object} (h : memory.objects[id]? = some obj) :
    obj.region = .heap := by
  have hlt : id < 2 := (Array.getElem?_eq_some_iff.mp h).1
  rcases id with - | - | id
  · obtain rfl := Option.some.inj h
    rfl
  · obtain rfl := Option.some.inj h
    rfl
  · omega

/-- The reference leads from the array to the leaf. -/
theorem nested : heap.Nested [0] 2 [0] := by
  intro o ho _
  obtain rfl := List.mem_singleton.mp ho
  refine Heap.nests_of_rank (fun o => if o = 0 then 1 else 0) (fun o o' ho' => ?_) 0
  by_cases ho : o = 0
  · subst ho
    obtain rfl : o' = 1 := by simpa [heap] using ho'
    decide
  · simp [heap, ho] at ho'

section

variable {final : State} (hfits : fits final = true)
include hfits

theorem keepsLayout : KeepsLayout (setting final) none leaf := by
  intro layout hmem
  obtain ⟨-, -, -, hlayouts⟩ := of_decide_eq_true hfits
  exact ⟨pointer, becomes_pointer, eq_of_isLayout (hlayouts _ hmem)⟩

theorem describes : heap.Describes (setting final).env final [0] memory where
  counts o ho := by
    simp only [heap, Finset.mem_insert, Finset.mem_singleton] at ho
    rcases ho with rfl | rfl
    · exact ⟨_, 1, rfl, object_counted, by decide⟩
    · exact ⟨_, 1, rfl, object_counted, by decide⟩
  refers o ho := by
    have hleaf : (Shape.struct 0).types program.resolve.1 = [] := by decide +kernel
    change heap.Refers _ final ((heap.shape o).types program.resolve.1) _ _
    by_cases hzero : o = 0
    · subst hzero
      exact .yonder (by simp [heap]) (.struct structId_leaf rfl) .nil
    · simpa [heap, hzero, hleaf] using Heap.Refers.nil
  members o ho i hi j r v hr _ _ := by
    have hleaf : (Shape.struct 0).types program.resolve.1 = [] := by decide +kernel
    by_cases hzero : o = 0
    · simp [heap, hzero] at hi
    · change ((heap.shape o).types program.resolve.1)[j]? = some (some r) at hr
      simp [heap, hzero, hleaf] at hr
  lengths o ho size elem length hshape := by
    by_cases hzero : o = 0
    · simp only [heap, hzero, if_true, Shape.array.injEq] at hshape
      obtain ⟨rfl, -, rfl⟩ := hshape
      exact ⟨by decide, fun n hn => by cases hn⟩
    · simp [heap, hzero] at hshape
  elements o ho size elem length hshape _ layout hmem := by
    by_cases hzero : o = 0
    · subst hzero
      simp only [heap, if_true, Shape.array.injEq] at hshape
      obtain ⟨rfl, rfl, rfl⟩ := hshape
      obtain ⟨-, -, hheader, hlayouts⟩ := of_decide_eq_true hfits
      obtain ⟨name, hname⟩ := eq_of_isHeader hheader
      obtain rfl := eq_of_isLayout (hlayouts _ hmem)
      have hover : (pointer.expand final.module.types).Over fun _ => False := .ptr
      refine ⟨fun _ => ⟨_, elementAddress_length hname hover (by simp) (by decide : 1 < 2 ^ 63)
        fits_pointer rfl, ?_⟩, none, pointer, rfl, fun j v hv => ?_⟩
      · rintro t rfl n
        exact load_part trivial rfl (by decide) (by decide) (by rw [array, object_cell]; rfl)
      · obtain ⟨rfl, rfl⟩ : j = 0 ∧ .ptr (heapObject 1) = v := by
          rcases j with - | j
          · exact ⟨rfl, Option.some.inj hv⟩
          · simp [heap] at hv
        refine ⟨_, elementAddress_element hname hover (by simp) (by decide : 1 < 2 ^ 63)
          fits_pointer (by decide), ?_⟩
        rintro t rfl n
        rw [Nat.zero_mul]
        exact load_part trivial rfl (by decide) (by decide) (by rw [array, object_cell]; rfl)
    · simp [heap, hzero] at hshape

omit hfits in
theorem arrayAt : ArrayAt (setting final) memory 0 none leaf pointer 1 array where
  object := rfl
  alive := rfl
  small := by decide
  stated := by simp
  stored _ := by
    rw [array, object_cell]
    rfl
  type := becomes_pointer
  sized := ⟨8, rfl⟩
  bytes := rfl

omit hfits in
/-- The leaf was stored in the array. -/
theorem lastStored : LastStored (pointer.expand final.module.types) (.ptr (heapObject 1)) 0 16
    array := by
  have harray : memory.objects[0]? = some array := rfl
  refine ⟨trivial, ⟨.object 0 .heap, .ofNat 16⟩, memory, _, _, ⟨.heap, rfl⟩, rfl,
    (congrFun (Interp.store_cell (t := .ptr _) trivial _ _) _).trans
      (Interp.storeScalar_of (rfl : Interp.sizeOf (.ptr _) = .ok 8) rfl harray rfl (by decide)
        (by decide)),
    Interp.Memory.getElem?_put_self harray, fun j n v hn hlow hhigh hcell => ?_⟩
  have hleaf : array.cells[Int64.ofNat 16]? = some ⟨8, .ptr (heapObject 1)⟩ := by
    rw [array, object_cell]
    rfl
  by_cases hj : j = 16
  · subst hj
    rw [hleaf]
    exact Interp.putCell_self.symm.trans hcell
  · -- nothing else is there
    change j + n ≤ 24 at hhigh
    have hne : ∀ k ≤ 16, Int64.ofNat k ≠ Int64.ofNat j := fun k hk =>
      (Interp.ofNat_ne_of_lt (by omega) (by omega)).symm
    have hnone : array.cells[Int64.ofNat j]? = none := by
      have h16 : (16 : Int64) ≠ .ofNat j := hne 16 (by decide)
      have h8 : (8 : Int64) ≠ .ofNat j := hne 8 (by decide)
      have h0 : (0 : Int64) ≠ .ofNat j := hne 0 (by decide)
      rw [array, object_cell, if_neg h16, if_neg h8, if_neg h0]
    rw [Interp.putCell, Std.HashMap.getElem?_insert, if_neg (by simpa using hne 16 (by decide)),
      Interp.clearCells_absent hnone] at hcell
    cases hcell

omit hfits in
theorem hasElement : HasElement (setting final) memory 0 0 none leaf pointer 1 array
    (.ptr (heapObject 1)) [1] where
  range := by decide
  last := lastStored
  cites := .yonder .struct .nil
  counted o ho := by
    obtain rfl := List.mem_singleton.mp ho
    exact ⟨_, 1, rfl, object_counted⟩

/-- A call has come to the load of an element. -/
theorem before_load {m : Memory} {F : Func} {pos : Nat} {s : State} {f : Func} {t : Ty} {n : Int}
    (hF : final.module.funcs[pos]? = some F) :
    ∃ C w, AtElement (setting final) F s f (.param 0 t) (.i64 n) 0 (.ofInt n) none leaf pointer 1
        array C w ∧ AtRelease (setting final) m F s f (.param 0 t) leafArray heap [0] C w ∧
      w.memory = memory := by
  obtain ⟨hglobals, hslotless, -⟩ := of_decide_eq_true hfits
  have hslotless := Ir.Module.slotless_of_isSlotless hslotless hF
  let M : Interp.Machine := { code := final.module, memory, depth := 1 }
  let C : Call := ⟨M, pos, F, hF, #[.ptr (heapObject 0)], []⟩
  have hunderway : Underway (setting final) F s f C { memory, output := {} } :=
    { hosts := ⟨rfl, rfl⟩
      natives := rfl
      depth := rfl
      ready := .of_slotless hslotless rfl rfl
      sized := fun j i elem hi hop => absurd hop (hslotless.not_alloca hi) }
  refine ⟨C, { memory, output := {} }, ?_, ?_, rfl⟩
  · exact
      { hunderway with
        array := rfl
        index := fun _ => rfl
        word := rfl
        layout := keepsLayout hfits
        held := arrayAt
        trap := rfl }
  · exact
      { hunderway with
        slots := Sharing.slotsAgree (fun _ _ => memory_heap) fun frame hframe => by
          obtain rfl := List.mem_singleton.mp hframe
          rfl
        free := rfl
        intact := fun i hi => absurd hi (by
          change ¬ i < final.module.globals.size
          rw [hglobals]
          exact Nat.not_lt_zero i)
        value := ⟨_, rfl, .yonder (by simp [heap]) (.array rfl) .nil⟩
        describes := describes hfits
        room := ⟨2, nested, show (1 : Int) + 2 ≤ 10000 by decide⟩ }

end

theorem valueOf_index {env : Env} {s s' : State} {x : Held}
    (h : valueOf (.constantI64 n) env s = .ok x s') : x.value = .i64 n := by
  obtain ⟨s1, hlower⟩ := valueOf_ok h
  rw [lowerExpr] at hlower
  obtain ⟨hx, -⟩ := pure_ok hlower
  obtain rfl := Option.some.inj hx
  rfl

/-- The code that takes a leaf out of the argument stands in the function. -/
theorem site {m0 : Memory} (h : Indexes program.resolve.1 {} m0 final) (hn : n = 0 ∨ n = 1) :
    ∃ (pos : Nat) (F : Func) (t : Ty) (z : Held) (s : State) (f : Func) (s1 : State) (f1 : Func)
      (s' : State) (f' : Func), final.module.funcs[pos]? = some F ∧
      Stands (setting final) F [.i64 n, .param 0 t]
        (loadElement (.param 0 t) leafArray (.i64 n)) s f z s1 f1 ∧
      Stands (setting final) F [z.value, .param 0 t] (discard ⟨.param 0 t, some leafArray⟩)
        s1 f1 () s' f' := by
  have hfn : program.resolve.1.functions[0]?.map (·.body) = some (.block
      [.discard (pick 0) (some leaf), .discard (pick 1) (some leaf), .constantI64 0]) := rfl
  obtain ⟨fn, hget, hbody⟩ := Option.map_eq_some_iff.mp hfn
  obtain ⟨pos, F, -, hF, hsites⟩ := h.sites (setting final) rfl rfl 0 fn hget
  have hoccurs : (pick n).Occurs fn.body := by
    rw [hbody]
    rcases hn with rfl | rfl
    · exact .part (List.mem_cons_self ..) (.part (List.mem_singleton_self _) .here)
    · exact .part (List.mem_cons_of_mem _ (List.mem_cons_self ..))
        (.part (List.mem_singleton_self _) .here)
  obtain ⟨x, i, z, s0, f0, s1, s, f, s2, f2, s', f', -, hx, hi, hload, hdiscard⟩ :=
    hsites _ _ _ _ (.inr rfl) hoccurs
  obtain ⟨t, ht⟩ := valueOf_argument hx
  rw [ht] at hload hdiscard
  rw [valueOf_index hi] at hload
  exact ⟨pos, F, t, z, s, f, s2, f2, s', f', hF, hload, hdiscard⟩

end Leaves

open Leaves in
theorem indexing_is_exact_leaves :
    ∃ code M final, program.resolve.1.toModule {} = .ok code ∧ Interp.Machine.new code = .ok M ∧
      final.module = code ∧ Indexes program.resolve.1 {} M.memory final ∧
      (∃ T F x i z s f s1 f1 s' f' C w w1 freed w',
        Stands T F [i, x] (loadElement x leafArray i) s f z s1 f1 ∧
        Stands T F [z.value, x] (discard ⟨x, some leafArray⟩) s1 f1 () s' f' ∧
        AtElement T F s f x i 0 0 none leaf pointer 1 array C w ∧
        HasElement T w.memory 0 0 none leaf pointer 1 array (.ptr (heapObject 1)) [1] ∧
        AtRelease T M.memory F s f x leafArray heap [0] C w ∧
        Interp.Steps (standing C s f w) (standing C s1 f1 w1) ∧
        Interp.Steps (standing C s1 f1 w1) (standing C s' f' w') ∧
        C.Means w'.regs z.value (.ptr (heapObject 1)) ∧
        (heap.lend [1]).Reclaimed [0] freed w1.memory w'.memory ∧ 0 ∈ freed ∧ 1 ∉ freed) ∧
      ∃ T F x i z s f s1 f1 C w M', Stands T F [i, x] (loadElement x leafArray i) s f z s1 f1 ∧
        AtElement T F s f x i 0 1 none leaf pointer 1 array C w ∧
        Interp.Steps (standing C s f w)
          { machine := M', stack := C.rest, activity := .raise (.error .trap) } := by
  have hq := Program.resolve_of_none (p := program) (by decide +kernel)
  have heval : (program.resolve.1.toModule {}).toOption.any
      (fun code => (Interp.Machine.new code).toOption.any fun _ => true) = true := by
    decide +kernel
  have hbuilt : EStateM.run' ((do buildModule; return fits (← get) : Build Bool)
      ⟨program.resolve.1, {}⟩) {} = some true := by decide +kernel
  obtain ⟨code, hcode, heval⟩ := except_of_any heval
  obtain ⟨M, hnew, -⟩ := except_of_any heval
  obtain ⟨final, hbuild, rfl, hindexes⟩ := indexing_is_exact hq hcode rfl hnew
  delta EStateM.run' EStateM.run at hbuilt
  rw [bind_of_ok hbuild] at hbuilt
  replace hbuilt := Option.some.inj hbuilt
  refine ⟨_, M, final, hcode, hnew, rfl, hindexes, ?_, ?_⟩
  · obtain ⟨pos, F, t, z, s, f, s1, f1, s', f', hF, hload, hdiscard⟩ := site hindexes (.inl rfl)
    obtain ⟨C, w, helement, hrelease, hmemory⟩ :=
      before_load (m := M.memory) (s := s) (f := f) (t := t) (n := 0) hbuilt hF
    have hhas : HasElement (setting final) w.memory 0 0 none leaf pointer 1 array
        (.ptr (heapObject 1)) [1] := hmemory ▸ hasElement
    obtain ⟨w1, hsteps, -, -, -, hrest⟩ :=
      hindexes.reads (setting final) rfl rfl hload hdiscard helement hhas
    obtain ⟨freed, w', hsteps', hz, hreclaimed, hkept⟩ := hrest hrelease (by decide)
    refine ⟨_, F, _, _, z, s, f, s1, f1, s', f', C, w, w1, freed, w', hload, hdiscard, helement,
      hhas, hrelease, hsteps, hsteps', hz, hreclaimed, ?_, hkept 1 (by simp)⟩
    refine (hreclaimed.garbage 0).mpr ⟨.root (by simp), rfl, fun o _ ho => ?_⟩
    by_cases hzero : o = 0 <;> simp [heap, Heap.lend, hzero] at ho
  · obtain ⟨pos, F, t, z, s, f, s1, f1, s', f', hF, hload, -⟩ := site hindexes (.inr rfl)
    obtain ⟨C, w, helement, -, -⟩ :=
      before_load (m := M.memory) (s := s) (f := f) (t := t) (n := 1) hbuilt hF
    obtain ⟨M', hsteps⟩ := hindexes.traps (setting final) rfl rfl hload helement (by decide)
    exact ⟨_, F, _, _, z, s, f, s1, f1, C, w, M', hload, helement, hsteps⟩

end Tenure.Lowering

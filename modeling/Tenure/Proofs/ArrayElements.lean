import Tenure.Proofs.Acquiring
import Tenure.Proofs.Imprints
import Tenure.Proofs.InlineNesting

/-!
# Elements of arrays

The contents of an array are the last field of its layout, behind the count and, where the type
does not state it, the length.  This file says where an element is (`elementAddress_element`),
what the check of an index comes to (`runs_checkBounds`), and what reading an element does
(`loadElement_eq`): an index that is out of range ends in a trap before anything is read
(`ArrayAt.runs_outside`), and for the others the value that was stored last as the element is
read (`ArrayAt.runs_inside`), to be acquired then.
-/

namespace Tenure.Ir

variable {defs : TypeDefs}

theorem Ty.expand_struct {name : String} {fields : List Ty} :
    (Ty.struct name fields).expand defs = .struct name (fields.map (·.expand defs)) := by
  rw [Ty.expand, Ty.expandFuel, Ty.expandWith, Ty.expandAll_eq_map]
  rfl

theorem Ty.expand_array {len : Nat} {elem : Ty} :
    (Ty.array len elem).expand defs = .array len (elem.expand defs) := rfl

end Tenure.Ir

namespace Tenure.Interp

open Ir (Ty)

/-- What a pointer leads to does not matter to reading it. -/
theorem load_ptr {u u' : Ty} {p : Pointer} {m m' : Memory} {v : Value}
    (h : load (.ptr u) p m = .ok v m') : load (.ptr u') p m = .ok v m' := by
  change loadScalar (.ptr u) p m = _ at h
  change loadScalar (.ptr u') p m = _
  obtain ⟨bytes, _, hsize, h⟩ := Access.bind_ok h
  obtain ⟨id, _, hid, h⟩ := Access.bind_ok h
  refine (Access.bind_of_ok hsize).trans ((Access.bind_of_ok hid).trans ?_)
  obtain ⟨now, _, hnow, h⟩ := Access.bind_ok h
  refine (Access.bind_of_ok hnow).trans ?_
  cases hc : now.objects[id]?.bind (·.cells[p.offset]?) with
  | none =>
    simp only [hc] at h
    cases h
  | some c =>
    simp only [hc] at h ⊢
    by_cases hne : c.size ≠ bytes
    · rw [if_pos hne] at h
      cases h
    · rw [if_neg hne] at h ⊢
      exact h

variable {t : Ty}

/-- The size of a type is the address of the second of its values when the first is at null. -/
theorem elementAddress_one : elementAddress t {} [1] = (sizeOf t).map fun n => ⟨.null, n⟩ := by
  rw [elementAddress]
  cases sizeOf t with
  | error e => rfl
  | ok n =>
    simp only [bind, Except.bind, elementOffset]
    simp [Except.map, pure, Except.pure]

theorem grain_of_over (h : t.Over fun _ => False) : grain t = 1 ∨ grain t = 8 := by
  induction h with
  | int h => rcases h with rfl | rfl | rfl <;> simp [grain]
  | ptr => exact .inr rfl
  | array _ ih => exact ih
  | struct _ ih => exact grainOfAll_of (P := fun a => a = 1 ∨ a = 8) ih (.inl rfl)
  | defined h => exact h.elim

theorem sizeOf_of_fieldsEnd {fields : List Ty} {offset stop : Int64}
    (h : fieldsEnd offset fields = .ok stop) : ∀ t ∈ fields, ∃ n, sizeOf t = .ok n := by
  induction fields generalizing offset with
  | nil => simp
  | cons t ts ih =>
    rw [fieldsEnd] at h
    obtain ⟨a, -, h⟩ := except_bind_ok h
    obtain ⟨start, -, h⟩ := except_bind_ok h
    obtain ⟨n, hn, h⟩ := except_bind_ok h
    exact List.forall_mem_cons.2 ⟨⟨n, hn⟩, ih h⟩

/-- A type that has a size is written out in full. -/
theorem over_of_sizeOf (h : t.Over fun _ => True) {n : Int64} (hn : sizeOf t = .ok n) :
    t.Over fun _ => False := by
  induction h generalizing n with
  | int h => exact .int h
  | ptr => exact .ptr
  | array _ ih =>
    rw [sizeOf] at hn
    obtain ⟨k, hk, -⟩ := except_bind_ok hn
    exact .array (ih hk)
  | struct _ ih =>
    rw [sizeOf] at hn
    obtain ⟨stop, hstop, -⟩ := except_bind_ok hn
    refine .struct fun t ht => ?_
    obtain ⟨k, hk⟩ := sizeOf_of_fieldsEnd hstop t ht
    exact ih t ht hk
  | defined => cases hn

end Tenure.Interp

namespace Tenure.Lowering

open Ir (Ty Operand Func)
open Interp (Value Memory Object heapObject extent grain alignUp LastStored LaidOut)

theorem allows_any {env : Env} : Allows env fun _ _ => True where
  members i d _ ts s s' h t ht := by
    obtain ⟨m, -, _, _, hrun⟩ := (mapM_ok h).2 t ht
    obtain ⟨r, _, -, hrun⟩ := bind_ok hrun
    exact (lowerReferend_over hrun).mono fun _ _ => trivial
  text := trivial
  header _ _ := trivial
  inner _ _ := trivial

/-- The values of a reference are of a type that can be written out, if it has a size at all. -/
theorem expand_over {env : Env} {final s s' : State} {u : Unit} {r : Reference} {t : Ty} {n : Int64}
    (hp : env.program.Numbered) (hbuild : buildModule env {} = .ok u final)
    (ht : lowerReference r env s = .ok t s')
    (hn : Interp.sizeOf (t.expand final.module.types) = .ok n) :
    (t.expand final.module.types).Over fun _ => False := by
  obtain ⟨s1, s2, hdeclare, htypes⟩ := buildModule_types hp hbuild
  have hcomposed := declareTypes_composed allows_any hdeclare
  rw [htypes] at hn ⊢
  refine Interp.over_of_sizeOf (Ty.over_expandFuel (P := fun _ _ => True) (fun _ h => h)
    (fun _ _ h _ => h) (fun _ i d _ hd => hcomposed.fields i d hd) _ _ ?_) hn
  exact (lowerReferend_over ht).mono fun _ _ => trivial

/-! ## Where elements are -/

/-- Where the contents of an array begin. -/
def contentsAt (size : Option Int) : Nat := if size.isSome then 8 else 16

/-- The bytes of an array with a number of elements of a size. -/
def arrayBytes (size : Option Int) (length stride : Nat) : Nat :=
  if size.isSome then alignUp (8 + length * stride) 8 else 16 + length * stride

section Places

variable {name : String} {size : Option Int} {length o i : Nat} {elem : Ty}

theorem sized_header : Interp.Sized (.struct name [.i64]) :=
  .struct _ (by simpa using .int (by decide) (by decide))

/-- An element is inside its array. -/
theorem element_le_arrayBytes (size : Option Int) (stride : Nat) (hi : i < length) :
    contentsAt size + i * stride + stride ≤ arrayBytes size length stride := by
  have hle : i * stride + stride ≤ length * stride := by
    rw [← Nat.succ_mul]
    exact Nat.mul_le_mul_right _ hi
  unfold contentsAt arrayBytes
  split
  · have := Interp.le_alignUp (n := 8 + length * stride) (a := 8) ⟨by decide, by decide⟩
    omega
  · omega

section Layouts

variable (he : elem.Over fun _ => False)
include he

theorem alignUp_elem : alignUp 8 (grain elem) = 8 ∧ alignUp 16 (grain elem) = 16 ∧
    (if 8 < grain elem then grain elem else 8) = 8 := by
  have hgrain := Interp.grain_of_over he
  refine ⟨Interp.alignUp_eight_mul hgrain rfl, Interp.alignUp_eight_mul hgrain rfl, ?_⟩
  rcases hgrain with h | h <;> rw [h] <;> rfl

/-- The layout of an array of a stated length. -/
theorem layout_known (name : String) (length : Nat) :
    extent (.struct "" [.struct name [.i64], .array length elem]) =
      alignUp (8 + length * extent elem) 8 ∧
    Interp.parts (.struct "" [.struct name [.i64], .array length elem]) =
      [(0, .struct name [.i64]), (8, .array length elem)] := by
  obtain ⟨hstart, -, hmax⟩ := alignUp_elem he
  have hzero : alignUp 0 8 = 0 := rfl
  have height : alignUp 8 8 = 8 := rfl
  simp [extent, Interp.parts, Interp.fieldParts, Interp.fieldsExtent, Interp.grainOfAll, grain,
    hzero, height, hstart, hmax]

/-- The layout of an array of any length. -/
theorem layout_unknown (name : String) :
    extent (.struct "" [.struct name [.i64], .i64, .array 0 elem]) = 16 ∧
    Interp.parts (.struct "" [.struct name [.i64], .i64, .array 0 elem]) =
      [(0, .struct name [.i64]), (8, .i64), (16, .array 0 elem)] := by
  obtain ⟨-, hstart, hmax⟩ := alignUp_elem he
  have hzero : alignUp 0 8 = 0 := rfl
  have height : alignUp 8 8 = 8 := rfl
  have hwhole : alignUp 16 8 = 16 := rfl
  simp [extent, Interp.parts, Interp.fieldParts, Interp.fieldsExtent, Interp.grainOfAll, grain,
    hzero, height, hwhole, hstart, hmax]

end Layouts

variable {types : Ir.TypeDefs}

theorem expand_header (hname : types[0]? = some ⟨name, [.i64]⟩) :
    controlBlockType.expand types = .struct name [.i64] :=
  expand_defined hname (by simp [Interp.IsCell])

/-- The layout of an array with its definitions written out. -/
theorem expand_arrayLayoutOf (hname : types[0]? = some ⟨name, [.i64]⟩)
    (hsize : ∀ n, size = some n → n = length) (hlength : length < 2 ^ 63) :
    (arrayLayoutOf size elem).expand types =
      if size.isSome then .struct "" [.struct name [.i64], .array length (elem.expand types)]
      else .struct "" [.struct name [.i64], .i64, .array 0 (elem.expand types)] := by
  cases size with
  | some n =>
    obtain rfl := hsize n rfl
    have hlen : ((length : Int) % 18446744073709551616).toNat = length := by omega
    rw [arrayLayoutOf, Ty.expand_struct]
    simp only [List.map_cons, List.map_nil, expand_header hname, hlen, Ty.expand_array]
    rfl
  | none =>
    rw [arrayLayoutOf, Ty.expand_struct]
    simp only [List.map_cons, List.map_nil, expand_header hname, Ty.expand_array]
    rfl

section

variable (hname : types[0]? = some ⟨name, [.i64]⟩) (he : (elem.expand types).Over fun _ => False)
  (hsize : ∀ n, size = some n → n = length) (hlength : length < 2 ^ 63)
include hname he hsize hlength

/-- The layout of an array of a stated length is as big as the array, and any other is as big as
one without elements. -/
theorem sizeOf_arrayLayoutOf
    (hbytes : arrayBytes size length (extent (elem.expand types)) < 2 ^ 63) :
    Interp.Sized ((arrayLayoutOf size elem).expand types) ∧
    Interp.sizeOf ((arrayLayoutOf size elem).expand types) =
      .ok (.ofNat (if size.isSome then arrayBytes size length (extent (elem.expand types))
        else 16)) := by
  have helem := Interp.sized_of_over he
  rw [expand_arrayLayoutOf hname hsize hlength]
  cases size with
  | some n =>
    have hsized :
      Interp.Sized (.struct "" [.struct name [.i64], .array length (elem.expand types)]) :=
      .struct _ (by simpa using ⟨sized_header, .array helem⟩)
    have hwhole := (layout_known he name length).1
    have hsmall : alignUp (8 + length * extent (elem.expand types)) 8 < 2 ^ 63 := hbytes
    refine ⟨hsized, ?_⟩
    have hsize := LaidOut.sizeOf ⟨hsized, by rw [hwhole]; unfold alignUp at hsmall ⊢; omega⟩
    rwa [hwhole] at hsize
  | none =>
    have hsized :
      Interp.Sized (.struct "" [.struct name [.i64], .i64, .array 0 (elem.expand types)]) :=
      .struct _ (by simpa using ⟨sized_header, .int (by decide) (by decide), .array helem⟩)
    have hwhole := (layout_unknown he name).1
    refine ⟨hsized, ?_⟩
    have hsize := LaidOut.sizeOf ⟨hsized, by rw [hwhole]; decide⟩
    rwa [hwhole] at hsize

/-- An element is where the contents begin and the elements before it end. -/
theorem elementAddress_element
    (hbytes : arrayBytes size length (extent (elem.expand types)) < 2 ^ 63) (hi : i < length) :
    Interp.elementAddress ((arrayLayoutOf size elem).expand types) (heapObject o)
      [0, if size.isSome then 1 else 2, .ofNat i] =
        .ok ⟨.object o .heap, .ofNat (contentsAt size + i * extent (elem.expand types))⟩ := by
  have hinside := element_le_arrayBytes size (extent (elem.expand types)) hi
  have hsized := (sizeOf_arrayLayoutOf hname he hsize hlength hbytes).1
  rw [expand_arrayLayoutOf hname hsize hlength] at hsized ⊢
  refine Interp.elementAddress_zero hsized ?_
  cases size with
  | some n =>
    have hpart := congrArg (·[1]?) (layout_known he name length).2
    have hlaid : LaidOut (elem.expand types) :=
      ⟨Interp.sized_of_over he, by simp [contentsAt] at hinside; omega⟩
    have hsmall : alignUp (8 + length * extent (elem.expand types)) 8 < 2 ^ 63 := hbytes
    refine (Interp.elementOffset_part (k := 0) (i := 1) hsized hpart ?_ (by decide) _).trans
      (Interp.elementOffset_item hlaid length [])
    rw [extent]
    unfold alignUp at hsmall
    omega
  | none =>
    have hpart := congrArg (·[2]?) (layout_unknown he name).2
    have hlaid : LaidOut (elem.expand types) :=
      ⟨Interp.sized_of_over he, by simp [contentsAt] at hinside; omega⟩
    exact (Interp.elementOffset_part (k := 0) (i := 2) hsized hpart (by simp [extent]) (by decide)
      _).trans (Interp.elementOffset_item hlaid 0 [])

/-- A length that is stored comes right behind the count. -/
theorem elementAddress_length
    (hbytes : arrayBytes size length (extent (elem.expand types)) < 2 ^ 63) (hnone : size = none) :
    Interp.elementAddress ((arrayLayoutOf size elem).expand types) (heapObject o) [0, 1] =
      .ok ⟨.object o .heap, .ofNat 8⟩ := by
  have hsized := (sizeOf_arrayLayoutOf hname he hsize hlength hbytes).1
  subst hnone
  rw [expand_arrayLayoutOf hname hsize hlength] at hsized ⊢
  have hpart := congrArg (·[1]?) (layout_unknown he name).2
  exact Interp.elementAddress_zero hsized
    (Interp.elementOffset_part (k := 0) (i := 1) hsized hpart (by decide) (by decide) [])

end

end Places

/-! ## Sizes as constants -/

section Sizes

variable {T : Setting} {t : Ty} {n : Int64} {code : Interp.Code} {m : Memory}

/-- The constant for the size of a type is its size. -/
theorem evalConst_sizeOf : Interp.evalConst code (sizeOf t) m =
    (Value.int <$> Interp.Access.check (Interp.sizeOf (t.expand code.types))) m := by
  have hindex : Interp.evalConst.evalIndices code [.i32 1] m = .ok [1] m := rfl
  rw [sizeOf, Interp.evalConst, Interp.evalConst]
  simp only [bind_assoc]
  refine (Interp.Access.bind_of_ok hindex).trans ?_
  refine (@Interp.Access.bind_of_ok _ _ m m _ _ (Value.ptr {}) rfl).trans ?_
  refine (@Interp.Access.bind_of_ok _ _ m m _ _ ({} : Interp.Pointer) rfl).trans ?_
  rw [Interp.elementAddress_one]
  cases Interp.sizeOf (t.expand code.types) <;> rfl

theorem constIs_sizeOf (h : Interp.sizeOf (t.expand T.final.module.types) = .ok n) :
    ConstIs T (sizeOf t) (.int n) := by
  intro m
  rw [evalConst_sizeOf, h]
  rfl

end Sizes

/-! ## Checks -/

section Checks

variable {A : Interp.Fault → Prop} {T : Setting} {L : Facts} {m : Memory}
variable {a : Int64} {n : Nat}

/-- Whether an index is in range can be told by one comparison. -/
theorem compareInts_ult (hn : n < 2 ^ 63) :
    Interp.compareInts .ult 64 a (.ofNat n) = true ↔ 0 ≤ a.toInt ∧ a.toInt < n := by
  have hword : a.toInt = if 2 * a.toUInt64.toNat < 2 ^ 64 then (a.toUInt64.toNat : Int)
      else a.toUInt64.toNat - (2 ^ 64 : Nat) := BitVec.toInt_eq_toNat_cond a.toBitVec
  have hlt := a.toUInt64.toNat_lt
  have hless : Interp.compareInts .ult 64 a (.ofNat n) = true ↔ a.toUInt64.toNat < n := by
    simp [Interp.compareInts, Interp.zeroExtended, UInt64.lt_iff_toNat_lt]
    rw [Nat.mod_eq_of_lt (by omega)]
  rw [hless]
  split at hword <;> omega

/-- The runtime traps. -/
theorem serves_trap {Q : Value → Memory → Prop} (hequipped : Equipped T.env T.final)
    (hnatives : T.natives.find? (·.1 == "llvm.trap") = none) (hA : A (.error .trap)) :
    Serves A T RuntimeFunc.trap.position [] m Q := by
  intro M stack G hcode hnat _ _ hG _
  have hF : M.code.funcs[RuntimeFunc.trap.position]? = some RuntimeFunc.trap.declaration := by
    rw [hcode, hequipped.runtime]
  have hname : M.code.funcName RuntimeFunc.trap.position = "llvm.trap" := by
    rw [Interp.Code.funcName, hF]
    decide
  have hruntime : Interp.runtime "llvm.trap" [] = some (Interp.Access.raise .trap) := rfl
  have hraise : (Interp.Access.raise .trap : Interp.Access Interp.RuntimeEffect) M.memory =
      .error (.error .trap) M.memory := rfl
  refine hG.back _ _ (Interp.step_invoke_declared hF rfl) ?_
  rw [hname, Interp.Config.invokeDeclared_runtime (by rw [hnat, hnatives]) hruntime,
    Interp.Config.withAccess_of_error hraise]
  exact hG.fault _ _ hA

instance {c : Operand} : Steady (trapUnless c) := .of [c]

instance {index length : Operand} : Steady (checkBounds index length) :=
  .of [index, length]

/-- Control comes through only if a condition holds. -/
theorem runs_trapUnless {c : Operand} {b : Int64} (hc : Knows T L c (.int b))
    (htrap : b = 0 → ∀ m', Serves A T RuntimeFunc.trap.position [] m' fun _ _ => False) :
    Runs A T L m (trapUnless c) fun _ _ m' => b ≠ 0 ∧ m.Stacked m' := by
  intro s u s' f f' hp hopen hrun hx hopen' C w G hC hW hr hmem hL hG hnext
  obtain ⟨x, y, t, mv, hb⟩ := trapUnless_ok hrun hp.func
  obtain rfl : f' = trapFork f s.block c x y t :=
    Option.some.inj (hx.placed.func.symm.trans mv.func)
  have hlt := hp.lt
  have hcode : ∀ d, d ≠ f.blocks.size + 1 → (trapFork f s.block c x y t).code d = f.code d := by
    intro d hd
    rw [trapFork, Ir.Func.code_terminate, Ir.Func.code_push (by simp), if_neg hd,
      Ir.Func.code_fork]
  have hends : (trapFork f s.block c x y t).term? s.block =
      some (.condBr c (.block s'.block) (.block (f.blocks.size + 1))) := by
    rw [trapFork, Ir.Func.term?_terminate (by simp), if_neg (by omega), Ir.Func.term?_push,
      Ir.Func.term?_fork hlt, if_pos rfl, hb]
  -- the call is all there is in the second block
  have hcall : C.body.Has (f.blocks.size + 1) 0
      { id := f.nextReg, ty := t, op := .call RuntimeFunc.trap.operand [] } := by
    have hhas : (trapFork f s.block c x y t).Has (f.blocks.size + 1) 0
        { id := f.nextReg, ty := t, op := .call RuntimeFunc.trap.operand [] } := by
      rw [Func.Has, trapFork, Ir.Func.code_terminate, Ir.Func.code_push (by simp), if_pos rfl,
        Ir.Func.code_fork, Ir.Func.code_of_size_le (by omega)]
      rfl
    obtain ⟨i, hi, hbecomes⟩ := hW.keeps.has _ _ _ hhas
    rwa [hbecomes.eq_of_not_phi rfl] at hi
  have hempty : (trapFork f s.block c x y t).code s'.block = [] := by
    rw [hcode _ (by omega), hb]
    exact Ir.Func.code_of_size_le (Nat.le_refl _)
  have hgoes := goes_condBr (f := trapFork f s.block c x y t) (v := b) (w := w) hC hG hW.keeps hends
    (by rw [hcode _ (by omega)]; exact hr) (hc.means hC.code hL) ((hc.below hL).mono hx.keeps.regs)
    (fun i hi => ?_) fun w1 hleft => ?_
  · rw [hcode _ (by omega)] at hgoes
    exact hgoes
  · by_cases hzero : b = 0
    · rw [if_neg (by simpa using hzero)] at hi
      obtain rfl := Option.some.inj (hi.symm.trans hcall)
      rfl
    · rw [if_pos hzero] at hi
      have hplain := hW.plain i
      rw [hempty] at hplain
      exact hplain hi
  by_cases hzero : b = 0
  · -- the call does not come back
    rw [if_neg (by simpa using hzero)]
    have hoperand : Knows T L RuntimeFunc.trap.operand (functionAt T.final.module
        RuntimeFunc.trap.position) := .inr ⟨_, rfl, fun _ => rfl⟩
    have hex := Interp.execute_call (b := f.blocks.size + 1) (k := 0) (m := w1.memory)
      (hoperand.means hC.code (hleft.holds (hL.mono hx.keeps.regs))) List.Forall₂.nil
    refine hG.back _ _ (Interp.step_call hcall hex) ?_
    exact htrap hzero _ hC.code hC.natives hC.depth rfl (hG.frame _)
      fun _ _ _ _ _ _ hfalse => hfalse.elim
  · rw [if_pos hzero]
    have hgoal := hnext L w1 (List.Subset.refl L) (hcode s.block (by omega) ▸ hleft.moves.mono
      hx.keeps.regs) hleft.ready.anywhere (hleft.holds (hL.mono hx.keeps.regs))
      ⟨hzero, hmem ▸ hleft.stacked⟩
    rw [standing, hempty] at hgoal
    exact hgoal

/-- A bounds check lets an index through that is in range. -/
theorem runs_checkBounds {index length : Operand} (hbounds : T.env.options.bounds = .trap)
    (hindex : Gives T L index (.int a) .i64) (hlength : Knows T L length (.int (.ofNat n)))
    (hn : n < 2 ^ 63) (htrap : ¬ (0 ≤ a.toInt ∧ a.toInt < n) →
      ∀ m', Serves A T RuntimeFunc.trap.position [] m' fun _ _ => False) :
    Runs A T L m (checkBounds index length)
      fun _ _ m' => (0 ≤ a.toInt ∧ a.toInt < n) ∧ m.Stacked m' := by
  rw [checkBounds_eq]
  refine @Runs.after _ _ _ _ _ _ _ _ _ ?_ .read fun _ env _ hrun _ _ => ?_
  · intro env
    cases env.options.bounds <;> infer_instance
  obtain ⟨rfl, -⟩ := read_ok hrun
  rw [hbounds]
  refine .next (flows_emitCompare hindex hlength) fun cond L1 _ hcond => ?_
  have hrange := compareInts_ult (a := a) hn
  refine (runs_trapUnless hcond.knows fun hzero => htrap fun hin => ?_).mono
    fun _ _ m' _ hq => ⟨?_, hq.2⟩
  · rw [hrange.mpr hin] at hzero
    cases hzero
  · refine hrange.mp ?_
    by_contra hout
    exact hq.1 (by simp [hout])

end Checks

/-! ## Reading elements -/

/-- What a type of the program may be lowered to. -/
def Becomes (env : Env) (r : Reference) (t : Ty) : Prop :=
  ∃ s s', lowerReference r env s = .ok t s'

/-- The layout that is kept for arrays of a type is one of its elements. -/
def KeepsLayout (T : Setting) (size : Option Int) (elem : Reference) : Prop :=
  ∀ layout, ((Referend.array size elem.ownership elem.location elem.referend).text, layout) ∈
    T.final.arrayLayouts → ∃ t, Becomes T.env elem t ∧ layout = arrayLayoutOf size t

/-- A living array with a number of elements of a type, as big as it was allocated. -/
structure ArrayAt (T : Setting) (m : Memory) (o : Nat) (size : Option Int) (elem : Reference)
    (t : Ty) (length : Nat) (obj : Object) : Prop where
  object : m.objects[o]? = some obj
  alive : obj.dead = false
  /-- a length is a word that is not negative -/
  small : length < 2 ^ 63
  stated : ∀ n, size = some n → n = length
  stored : size = none → obj.cells[Int64.ofNat 8]? = some ⟨.ofNat 8, .int (.ofNat length)⟩
  type : Becomes T.env elem t
  /-- elements have a size, and so many of them were allocated -/
  sized : ∃ n, Interp.sizeOf (t.expand T.final.module.types) = .ok n
  bytes : obj.size.toInt = arrayBytes size length (extent (t.expand T.final.module.types))

section Elements

variable {A : Interp.Fault → Prop} {T : Setting} {L : Facts} {m : Memory} {x index : Operand}
variable {size : Option Int} {q q' : Ownership} {l place : Location} {elem : Referend}
variable {length o : Nat} {obj : Object} {a : Int64} {v : Value} {os : List Nat} {t t' : Ty}
variable {r : Reference} {env : Env}

/-- What a type is lowered to depends on the program alone, but for what pointers lead to. -/
theorem Becomes.alike (h : Becomes env r t) (h' : Becomes env r t') :
    t = t' ∨ ∃ u u', t = .ptr u ∧ t' = .ptr u' := by
  obtain ⟨s, _, h⟩ := h
  obtain ⟨s', _, h'⟩ := h'
  obtain ⟨o, l, referend⟩ := r
  cases referend with
  | int | bool | void | str =>
    obtain ⟨rfl, -⟩ := pure_ok h
    obtain ⟨rfl, -⟩ := pure_ok h'
    exact .inl rfl
  | struct n =>
    obtain ⟨i, _, h1, h⟩ := bind_ok h
    obtain ⟨i', _, h1', h'⟩ := bind_ok h'
    obtain rfl : i = i' := by
      have := (structIndex_range h1).1
      have := (structIndex_range h1').1
      omega
    split at h
    · next hl =>
      rw [if_pos hl] at h'
      replace h := getProgram_then h
      replace h' := getProgram_then h'
      obtain ⟨rfl, -⟩ := pure_ok h
      obtain ⟨rfl, -⟩ := pure_ok h'
      exact .inl rfl
    · next hl =>
      rw [if_neg hl] at h'
      obtain ⟨_, _, -, h⟩ := bind_ok h
      obtain ⟨_, _, -, h'⟩ := bind_ok h'
      obtain ⟨rfl, -⟩ := pure_ok h
      obtain ⟨rfl, -⟩ := pure_ok h'
      exact .inr ⟨_, _, rfl, rfl⟩
  | interface n =>
    obtain ⟨i, _, h2, h⟩ := bind_ok (getProgram_then h)
    obtain ⟨i', _, h2', h'⟩ := bind_ok (getProgram_then h')
    obtain rfl : i = i' := by
      have := (interfaceIndex_ok h2).1
      have := (interfaceIndex_ok h2').1
      omega
    obtain ⟨rfl, -⟩ := pure_ok h
    obtain ⟨rfl, -⟩ := pure_ok h'
    exact .inl rfl
  | array size o' l' elem =>
    unfold lowerReference lowerReferend at h h'
    split at h
    · exact absurd h refused_ne_ok
    · next hl =>
      rw [if_neg hl] at h'
      obtain ⟨_, _, -, h⟩ := bind_ok h
      obtain ⟨_, _, -, h'⟩ := bind_ok h'
      obtain ⟨rfl, -⟩ := pure_ok h
      obtain ⟨rfl, -⟩ := pure_ok h'
      exact .inr ⟨_, _, rfl, rfl⟩
  | hollowArray size =>
    unfold lowerReference lowerReferend at h
    split at h
    · exact absurd h refused_ne_ok
    · exact absurd h throw_ne_ok
  | missing => exact absurd h throw_ne_ok

/-- So sizes depend on the program alone. -/
theorem Becomes.extent_eq (h : Becomes env r t) (h' : Becomes env r t') (types : Ir.TypeDefs) :
    extent (t.expand types) = extent (t'.expand types) := by
  rcases h.alike h' with rfl | ⟨u, u', rfl, rfl⟩
  · rfl
  · rfl

/-- And so does what is read. -/
theorem Becomes.load (h : Becomes env r t) (h' : Becomes env r t') {types : Ir.TypeDefs}
    {p : Interp.Pointer} (hload : Interp.load (t.expand types) p m = .ok v m) :
    Interp.load (t'.expand types) p m = .ok v m := by
  rcases h.alike h' with rfl | ⟨u, u', rfl, rfl⟩
  · exact hload
  · exact Interp.load_ptr hload

/-- Types that have a size are written out in full. -/
def WrittenOut (T : Setting) : Prop :=
  ∀ r t n, Becomes T.env r t → Interp.sizeOf (t.expand T.final.module.types) = .ok n →
    (t.expand T.final.module.types).Over fun _ => False

theorem ArrayAt.over (h : ArrayAt T m o size r t length obj) (hT : WrittenOut T)
    (ht : Becomes T.env r t') : (t'.expand T.final.module.types).Over fun _ => False := by
  obtain ⟨n, hn⟩ := h.sized
  have hover := hT r t n h.type hn
  rcases h.type.alike ht with rfl | ⟨u, u', rfl, rfl⟩
  · exact hover
  · exact .ptr

/-- The bytes of an array make up a word. -/
theorem ArrayAt.fits (h : ArrayAt T m o size r t length obj) :
    arrayBytes size length (extent (t.expand T.final.module.types)) < 2 ^ 63 := by
  have := h.bytes
  have := obj.size.toInt_lt
  omega

/-- Loads an element without a check, and acquires it. -/
def readElement (array : Operand) (r : Reference) (elem : Reference) (index : Operand) :
    Build Held := do
  let address ← elementPtr array r index
  let elem ← require (some elem)
  let x ← emitLoad (← lowerReference elem) address
  let h : Held := ⟨x, some (lentElement elem)⟩
  acquire h
  return h

theorem loadElement_eq : loadElement x ⟨q, l, .array size q' place elem⟩ index = (do
    checkBounds index (← arrayLength x ⟨q, l, .array size q' place elem⟩)
    readElement x ⟨q, l, .array size q' place elem⟩ ⟨q', place, elem⟩ index) := rfl

instance {r r' : Reference} : Steady (readElement x r r' index) := by
  unfold readElement
  infer_instance

section Living

variable {i : Nat} {Q : Held → Facts → Memory → Prop}
variable (h : ArrayAt T m o size ⟨q', place, elem⟩ t length obj)
  (hlayout : KeepsLayout T size ⟨q', place, elem⟩) (hT : WrittenOut T)
  (htypes : T.Typed) (hx : Knows T L x (.ptr (heapObject o)))
include h hlayout hT htypes hx

/-- The length of an array that is alive. -/
theorem ArrayAt.runs_length : Runs A T L m (arrayLength x ⟨q, l, .array size q' place elem⟩)
      (fun y L' m' => Knows T L' y (.int (.ofNat length)) ∧ m' = m) := by
  obtain ⟨name, hname⟩ := htypes.header
  refine runs_arrayLength h.stated (fun hnone layout hl => ?_) hx
  obtain ⟨t', ht', rfl⟩ := hlayout layout hl
  have hfits := h.fits
  rw [h.type.extent_eq ht'] at hfits
  refine ⟨_, elementAddress_length hname (h.over hT ht') h.stated h.small hfits hnone, ?_⟩
  have hbytes := h.bytes
  rw [arrayBytes, hnone] at hbytes
  refine Interp.load_of_cell (t := .i64) (n := 8) trivial rfl
    ⟨⟨.heap, rfl⟩, rfl, h.object, h.alive⟩ ?_ (h.stored hnone)
  simp only [Option.isSome_none, Bool.false_eq_true, if_false] at hbytes
  omega

/-- The address of an element in range is where the element is. -/
theorem ArrayAt.runs_elementPtr (hi : i < length) (hindex : Knows T L index (.int (.ofNat i))) :
    Runs A T L m (elementPtr x ⟨q, l, .array size q' place elem⟩ index) (fun y L' m' =>
      Knows T L' y (.ptr ⟨.object o .heap,
        .ofNat (contentsAt size + i * extent (t.expand T.final.module.types))⟩) ∧ m' = m) := by
  obtain ⟨name, hname⟩ := htypes.header
  refine (Lowering.runs_elementPtr (P := fun _ p =>
    p = ⟨.object o .heap, .ofNat (contentsAt size + i * extent (t.expand T.final.module.types))⟩)
    (fun layout hl => ?_) hx hindex).mono fun y L' m' _ hq => ?_
  · obtain ⟨t', ht', rfl⟩ := hlayout layout hl
    refine ⟨size, t', _, rfl,
      elementAddress_element hname (h.over hT ht') h.stated h.small ?_ hi, ?_⟩
    · rw [ht'.extent_eq h.type]
      exact h.fits
    · rw [ht'.extent_eq h.type]
  · obtain ⟨_, _, -, hy, rfl, rfl⟩ := hq
    exact ⟨hy, rfl⟩

/-- An element is read only if the index is in range. -/
theorem ArrayAt.runs_checked (hbounds : T.env.options.bounds = .trap)
    (hindex : Gives T L index (.int a) .i64)
    (htrap : ¬ (0 ≤ a.toInt ∧ a.toInt < length) →
      ∀ m', Serves A T RuntimeFunc.trap.position [] m' fun _ _ => False)
    (hin : 0 ≤ a.toInt ∧ a.toInt < length → ∀ L' m', L ⊆ L' → m.Stacked m' →
      Runs A T L' m' (readElement x ⟨q, l, .array size q' place elem⟩ ⟨q', place, elem⟩ index) Q) :
    Runs A T L m (loadElement x ⟨q, l, .array size q' place elem⟩ index) Q := by
  rw [loadElement_eq]
  refine .bind (h.runs_length hlayout hT htypes hx) fun y L1 m1 hsub1 hq => ?_
  obtain ⟨hy, rfl⟩ := hq
  refine .bind (runs_checkBounds hbounds (hindex.mono hsub1) hy h.small htrap)
    fun _ L2 m2 hsub2 hq => ?_
  exact hin hq.1 L2 m2 (List.Subset.trans hsub1 hsub2) hq.2

/-- An index that is out of range traps. -/
theorem ArrayAt.runs_outside (hequipped : Equipped T.env T.final)
    (hnatives : T.natives.find? (·.1 == "llvm.trap") = none)
    (hbounds : T.env.options.bounds = .trap) (hindex : Gives T L index (.int a) .i64)
    (hout : ¬ (0 ≤ a.toInt ∧ a.toInt < length)) :
    Runs (· = .error .trap) T L m (loadElement x ⟨q, l, .array size q' place elem⟩ index) Q :=
  h.runs_checked hlayout hT htypes hx hbounds hindex
    (fun _ _ => serves_trap hequipped hnatives rfl) fun hin => absurd hin hout

/-- For an index in range, what was stored last as the element is read and acquired. -/
theorem ArrayAt.runs_inside (hbounds : T.env.options.bounds = .trap)
    (hindex : Gives T L index (.int (.ofNat i)) .i64) (hi : i < length)
    (hlast : LastStored (t.expand T.final.module.types) v o
      (contentsAt size + i * extent (t.expand T.final.module.types)) obj)
    (hcites : Cites T.env.program [some (lentElement ⟨q', place, elem⟩)] [v] os)
    (hcounted : ∀ o ∈ os, ∃ obj n, m.objects[o]? = some obj ∧ obj.Counted n) :
    Runs (fun _ => False) T L m (loadElement x ⟨q, l, .array size q' place elem⟩ index)
      fun y L' m' => Knows T L' y.value v ∧ y.type = some (lentElement ⟨q', place, elem⟩) ∧
        m.Raised (os.count ·) m' := by
  have hword : (Int64.ofNat i).toInt = i :=
    Int64.toInt_ofNat_of_lt (Nat.lt_trans hi h.small)
  refine h.runs_checked hlayout hT htypes hx hbounds hindex (fun hout => absurd ?_ hout)
    fun _ L1 m1 hsub1 hstacked => ?_
  · rw [hword]
    omega
  have h1 : ArrayAt T m1 o size ⟨q', place, elem⟩ t length obj :=
    { h with object := hstacked.getElem? h.object }
  refine .bind (h1.runs_elementPtr hlayout hT htypes (hx.mono hsub1) hi
    (hindex.knows.mono hsub1)) fun y L2 m2 hsub2 hq => ?_
  obtain ⟨hy, rfl⟩ := hq
  refine .require fun elem' helem => ?_
  obtain rfl := Option.some.inj helem
  refine .after quiet_lowerReference fun _ t' _ hrun _ _ => ?_
  have hload : Interp.load (t.expand T.final.module.types) ⟨.object o .heap,
      .ofNat (contentsAt size + i * extent (t.expand T.final.module.types))⟩ m2 = .ok v m2 := by
    have hinside := element_le_arrayBytes size (extent (t.expand T.final.module.types)) hi
    have hbytes := h.bytes
    have hfits := h.fits
    have hstart : 8 ≤ contentsAt size := by
      unfold contentsAt
      split <;> decide
    exact hlast.load ⟨Interp.sized_of_over (h.over hT h.type), by omega⟩
      ⟨⟨.heap, rfl⟩, rfl, h1.object, h.alive⟩ (by omega)
  refine .next (flows_emitLoad hy (h.type.load ⟨_, _, hrun⟩ hload)) fun z L3 hsub3 hz => ?_
  have hstart : m.Raised (fun _ => 0) m2 := (Interp.Memory.Raised.refl m).stacked hstacked
  refine .bind (runs_acquire htypes hz.knows hcites hcounted hstart) fun _ L4 m4 hsub4 hq => ?_
  exact .pure ⟨hz.knows.mono hsub4, rfl, hq⟩

end Living

end Elements

end Tenure.Lowering

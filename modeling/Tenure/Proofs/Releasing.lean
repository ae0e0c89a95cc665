import Tenure.Proofs.GuardedRuns
import Tenure.Proofs.SharedHeap

/-!
# What releasing does

Releasing a value of a type follows the type: a reference to an object takes the count of
the object down, a struct that is kept inline is released member by member, and an object
whose count comes to zero is ended, by its drop function or, for an array, by a loop over
its elements.  Each of these pieces of code works off references (`Heap.WorksOff`) or ends
an object (`Heap.Ends`), and `Heap.Stage` says how memory stands before and after it.  What
drop functions do is assumed here (`Heap.Droppable`).
-/

namespace Tenure.Lowering

open Ir (Ty Operand)
open Interp (Value Memory Object heapObject)

variable {A : Interp.Fault → Prop} {T : Setting} {L : Facts} {m m0 : Memory} {x : Operand}
variable {H : Heap} {roots : List Nat} {o : Nat} {v : Value} {t : Referend}
variable {y : Operand} {env : Env} {final : State} {obj : Object} {r : Referend}

/-! ## Counts -/

/-- A value of a type that is kept on the heap leads to an object: it is the object's address,
and through an interface that is the first part of it. -/
inductive LeadsTo : Referend → Value → Nat → Prop
  | struct {s : Symbol} {o : Nat} : LeadsTo (.struct s) (.ptr (heapObject o)) o
  | interface {i : Symbol} {o : Nat} {rest : List Value} :
      LeadsTo (.interface i) (.agg (.ptr (heapObject o) :: rest)) o
  | array {size : Option Int} {ownership : Ownership} {location : Location} {elem : Referend}
      {o : Nat} : LeadsTo (.array size ownership location elem) (.ptr (heapObject o)) o
  | str {o : Nat} : LeadsTo .str (.ptr (heapObject o)) o

theorem Heap.Points.leadsTo (h : H.Points env final t v o) : LeadsTo t v o := by
  cases h with
  | struct => exact .struct
  | interface => exact .interface
  | array => exact .array
  | str => exact .str

theorem LeadsTo.flows_countPtr {q : Ownership} {l : Location} (h : LeadsTo t v o)
    (htypes : T.Typed) (hx : Knows T L x v) :
    Flows T L m (countPtr x ⟨q, l, t⟩)
      (fun y L' m' => Knows T L' y (.ptr (heapObject o)) ∧ m' = m) := by
  cases h with
  | struct | array | str => exact flows_header htypes hx
  | interface => exact Lowering.flows_countPtr rfl htypes hx

variable {n : Int64}

theorem LeadsTo.runs_adjustCount {delta : Int} (h : LeadsTo t v o) (htypes : T.Typed)
    (hx : Knows T L x v) (hobj : m.objects[o]? = some obj) (hcounted : obj.Counted n) :
    Runs A T L m (adjustCount x ⟨.share, .yonder, t⟩ delta) (fun y L' m' =>
      Gives T L' y (.int (n + .ofInt delta)) .i64 ∧ m' = m.withCount o (n + .ofInt delta)) :=
  (flows_adjustCount (h.flows_countPtr htypes hx) (Interp.load_count hobj hcounted)
    (Interp.store_count hobj hcounted)).runs
    fun _ _ _ hq => hq.2 ▸ Interp.later_withCount hobj hcounted

/-- A count is taken down. -/
theorem LeadsTo.runs_countDown (h : LeadsTo t v o) (htypes : T.Typed) (hx : Knows T L x v)
    (hobj : m.objects[o]? = some obj) (hcounted : obj.Counted n) :
    Runs A T L m (adjustCount x ⟨.share, .yonder, t⟩ (-1))
      (fun y L' m' => Gives T L' y (.int (n - 1)) .i64 ∧ m' = m.withCount o (n - 1)) := by
  rw [Int64.sub_eq_add_neg]
  exact h.runs_adjustCount htypes hx hobj hcounted

/-! ## Working off references -/

namespace Heap

/-- What a release needs of the module, of the machine and of memory. -/
structure Managed (H : Heap) (T : Setting) (roots : List Nat) (m0 : Memory) : Prop where
  types : T.Typed
  describes : H.Describes T.env T.final roots m0
  /-- freeing is what the runtime does -/
  free : T.final.module.funcs[RuntimeFunc.free.position]? = some RuntimeFunc.free.declaration
  natives : T.natives.find? (·.1 == "free") = none
  tables : ∀ (n : Nat) (e : ResolvedEdge) (g : Nat), T.env.program.edges[n]? = some e →
    T.final.itables[n]? = some g →
    ∃ (j drop : Nat) (d : InterfaceDef) (table : Object) (vs : List Value), e.interfaceId = j ∧
      T.final.dropFuncs[e.structId.toNat]? = some drop ∧ TableIn T m0 e g j drop d table vs

/-- A piece works off references. -/
def WorksOff (H : Heap) (T : Setting) (roots : List Nat) (m0 : Memory) (L : Facts) (os : List Nat)
    (x : Build Unit) : Prop :=
  ∀ P Z E m, H.Stage roots m0 (os ++ P) Z E m →
    Runs (fun _ => False) T L m x fun _ _ m' => ∃ Z, H.Stage roots m0 P Z E m'

/-- A piece ends an object that has come to zero: it works off the references of the object and
frees it. -/
def Ends (H : Heap) (T : Setting) (roots : List Nat) (m0 : Memory) (L : Facts) (o : Nat)
    (x : Build Unit) : Prop :=
  ∀ P Z E m, o ∈ E → H.Stage roots m0 (H.refs o ++ P) Z E m →
    Runs (fun _ => False) T L m x fun _ _ m' => ∃ Z, H.Stage roots m0 P Z (E.erase o) m'

end Heap

section Shared

variable {drop : Build Unit}

/-- A count is taken down, and if it comes to zero the object is ended. -/
theorem worksOff_releaseShared [Steady drop] [∀ c, Steady (guarded "drop" "dropcont" c drop)]
    (hM : H.Managed T roots m0) (hpoints : H.Points T.env T.final t v o) (hx : Knows T L x v)
    (hdrop : H.Garbage roots o → ∀ L', L ⊆ L' → H.Ends T roots m0 L' o drop) :
    H.WorksOff T roots m0 L [o] (releaseShared x ⟨.share, .yonder, t⟩ drop) := by
  intro P Z E m hstage
  have hE : o ∉ E := fun hE => hstage.balanced.next.2 (hstage.balanced.dropping hE)
  obtain ⟨-, obj, n, hobj, hcounted, hmore, hlast⟩ := hstage.countdown hM.describes
  rw [releaseShared_eq]
  refine .bind (hpoints.leadsTo.runs_countDown hM.types hx hobj hcounted)
    fun count L1 m1 hsub1 hq => ?_
  obtain ⟨hcount, rfl⟩ := hq
  have hnone : Knows T L1 (.i64 0) (.int 0) := knows_i64 0
  refine .next (flows_emitCompare hcount hnone) fun zero L2 hsub2 hzero => ?_
  refine .guarded hzero.knows (fun hyes m' hm' => ?_) fun hno m' hm' => ?_
  · have hn : n - 1 = 0 := by
      by_contra hne
      exact hyes (by simp [Interp.compareInts, hne])
    obtain ⟨hgarbage, hstage'⟩ := hlast hn
    have hends := hdrop hgarbage L2 (List.Subset.trans hsub1 hsub2) P _ _ m'
      (Finset.mem_insert_self o E) (hstage'.stacked hm')
    rwa [Finset.erase_insert hE] at hends
  · have hn : n - 1 ≠ 0 := fun heq => by simp [Interp.compareInts, heq] at hno
    exact ⟨Z, (hmore hn).stacked hm'⟩

end Shared

/-! ## Freeing -/

theorem serves_free
    (hfree : T.final.module.funcs[RuntimeFunc.free.position]? = some RuntimeFunc.free.declaration)
    (hnatives : T.natives.find? (·.1 == "free") = none) (hobj : m.objects[o]? = some obj)
    (hcounted : obj.Counted n) :
    Serves A T RuntimeFunc.free.position [.ptr (heapObject o)]
      m (fun _ m' => m' = m.release o) := by
  intro M stack G hcode hnat hdepth hmem hG hnext
  subst hmem
  have hF : M.code.funcs[RuntimeFunc.free.position]? = some RuntimeFunc.free.declaration := by
    rw [hcode, hfree]
  have hname : M.code.funcName RuntimeFunc.free.position = "free" := by
    rw [Interp.Code.funcName, hF]
    decide
  refine hG.back _ _ (Interp.step_invoke_declared hF rfl) ?_
  have hruntime : Interp.runtime "free" [.ptr (heapObject o)] =
      some (Interp.free (heapObject o) >>= fun _ => pure (.value .nothing)) := rfl
  have hx : (Interp.free (heapObject o) >>= fun _ => pure (.value .nothing) :
      Interp.Access Interp.RuntimeEffect) M.memory = .ok (.value .nothing) (M.memory.release o) :=
    Interp.Access.bind_of_ok (Interp.free_heapObject hobj hcounted)
  rw [hname, Interp.Config.invokeDeclared_runtime (by rw [hnat, hnatives]) hruntime,
    Interp.Config.withAccess_of_ok hx]
  exact hnext { M with memory := M.memory.release o } .nothing rfl rfl rfl
    (Interp.later_release hobj hcounted.region) rfl

theorem runs_free (hM : H.Managed T roots m0) (hy : Knows T L y (.ptr (heapObject o)))
    (hobj : m.objects[o]? = some obj) (hcounted : obj.Counted n) :
    Runs A T L m (do let _ ← emitCall RuntimeFunc.free.operand [y] : Build Unit)
      (fun _ _ m' => m' = m.release o) := by
  have hfree : Knows T L RuntimeFunc.free.operand
      (.ptr ⟨.function RuntimeFunc.free.position
        (Interp.Code.funcName T.final.module RuntimeFunc.free.position), 0⟩) :=
    .inr ⟨_, rfl, fun _ => rfl⟩
  refine .bind (runs_emitCall hfree (.cons hy .nil) (serves_free hM.free hM.natives hobj hcounted))
    fun _ L1 m1 _ hq => ?_
  obtain ⟨-, -, -, -, rfl⟩ := hq
  exact .pure rfl

/-- An object without references is freed. -/
theorem ends_freeStorage (hM : H.Managed T roots m0) (hx : Knows T L x (.ptr (heapObject o)))
    (ht : ∀ i, t ≠ .interface i) (P : List Nat) (Z E : Finset Nat) (hE : o ∈ E)
    (hstage : H.Stage roots m0 P Z E m) :
    Runs A T L m (freeStorage x ⟨.share, .yonder, t⟩)
      fun _ _ m' => H.Stage roots m0 P Z (E.erase o) m' := by
  obtain ⟨⟨obj, n, hobj, hcounted⟩, hfreed⟩ := hstage.free hM.describes hE
  have hrest : Runs A T L m (do
      let raw ← emitBitcast x .i8Ptr
      let _ ← emitCall RuntimeFunc.free.operand [raw])
      fun _ _ m' => H.Stage roots m0 P Z (E.erase o) m' := by
    refine .next (flows_emitBitcast hx) fun raw L1 _ hraw => ?_
    exact (runs_free hM hraw.knows hobj hcounted).mono fun _ _ m' _ hq => hq ▸ hfreed
  unfold freeStorage
  split
  · next i heq => exact absurd heq (ht i)
  · exact .ite (fun _ => .violation) fun _ => hrest

/-! ## Drop functions -/

/-- The drop function of a struct ends an object of it. -/
def Heap.Droppable (H : Heap) (T : Setting) (roots : List Nat) (m0 : Memory) (o : Nat) : Prop :=
  ∀ i pos, H.shape o = .struct i → T.final.dropFuncs[i]? = some pos → ∀ P Z E m, o ∈ E →
    H.Stage roots m0 (H.refs o ++ P) Z E m →
    Serves (fun _ => False) T pos [.ptr (heapObject o)] m
      fun _ m' => ∃ Z, H.Stage roots m0 P Z (E.erase o) m'

theorem flows_funcOperand {pos : Nat} : Flows T L m (funcOperand pos)
    (fun y L' m' => Knows T L' y (functionAt T.final.module pos) ∧ m' = m) :=
  .after .get fun _ _ _ _ _ => .require fun _ _ => .pure ⟨.inr ⟨_, rfl, fun _ => rfl⟩, rfl⟩

theorem ends_dropStruct {s : Symbol} {i : Nat} (hs : T.env.program.structId s = i)
    (hshape : H.shape o = .struct i) (hx : Knows T L x (.ptr (heapObject o)))
    (hdrop : H.Droppable T roots m0 o) : H.Ends T roots m0 L o (dropStruct x s) := by
  intro P Z E m hE hstage
  refine .next (flows_emitBitcast hx) fun raw L1 _ hraw => ?_
  refine .after .get fun st _ _ hrun htables _ => ?_
  obtain ⟨rfl, rfl⟩ := get_ok hrun
  refine .after quiet_structIndex fun _ i' _ hrun _ _ => ?_
  obtain ⟨hi', -⟩ := structIndex_ok hrun
  obtain rfl : i = i' := by omega
  refine .require fun pos hpos => ?_
  rw [← htables.dropFuncs] at hpos
  refine .next flows_funcOperand fun y L2 hsub2 hy => ?_
  refine .bind (runs_emitCall hy (.cons (hraw.knows.mono hsub2) .nil)
    (hdrop i pos hshape hpos P Z E m hE hstage)) fun _ L3 m3 _ hq => ?_
  obtain ⟨_, _, -, -, hq⟩ := hq
  exact .pure hq

section Table

variable {e : ResolvedEdge} {g j drop : Nat} {d : InterfaceDef} {table : Object} {vs : List Value}

/-- A method table is no counted object, so it stays as it was. -/
theorem Heap.Stage.tableIn {P : List Nat} {Z E : Finset Nat} (h : H.Stage roots m0 P Z E m)
    (hD : H.Describes T.env T.final roots m0) (htable : TableIn T m0 e g j drop d table vs) :
    TableIn T m e g j drop d table vs := by
  refine { htable with object := (h.stored.rest g ?_ fun hg => ?_).trans htable.object }
  · exact (Array.getElem?_eq_some_iff.mp htable.object).1
  · obtain ⟨obj, n, hobj, hcounted, -⟩ := hD.counts g hg
    obtain rfl := Option.some.inj (htable.object.symm.trans hobj)
    have hcell := htable.row.cells 0 _ rfl
    rw [show Interp.rowOffset 0 = 0 from rfl, hcounted.count] at hcell
    simp [functionAt] at hcell

theorem ends_dropThroughTable {s : Symbol} {n : Nat} (hM : H.Managed T roots m0)
    (hn : T.env.program.edges[n]? = some e) (hs : T.env.program.interfaceId s = e.interfaceId)
    (hg : T.final.itables[n]? = some g) (hshape : H.shape o = .struct e.structId.toNat)
    (hx : Knows T L x (interfacePair (heapObject o) g)) (hdrop : H.Droppable T roots m0 o) :
    H.Ends T roots m0 L o (dropThroughTable x s) := by
  intro P Z E m hE hstage
  obtain ⟨j, pos, d, table, vs, hj, hpos, htable⟩ := hM.tables n e g hn hg
  rw [dropThroughTable_eq]
  refine .next (flows_dropEntry hM.types (hstage.tableIn hM.describes htable) (hs.trans hj) hx)
    fun p L1 _ hp => ?_
  refine .bind (runs_emitCall hp.1 hp.2 (hdrop _ pos hshape hpos P Z E m hE hstage))
    fun _ L2 m2 _ hq => ?_
  obtain ⟨_, _, -, -, hq⟩ := hq
  exact .pure hq

end Table

/-! ## Elements -/

theorem keptLayout_ok {s s' : State} {key : String} {compute : Build Ty} {layout : Ty}
    (h : keptLayout key compute env s = .ok layout s') : (key, layout) ∈ s'.arrayLayouts := by
  replace h := get_then h
  cases hfind : s.arrayLayouts.find? (·.1 == key) with
  | some entry =>
    rw [hfind] at h
    obtain ⟨rfl, rfl⟩ := pure_ok h
    have hkey : entry.1 = key := by simpa using List.find?_some hfind
    rw [← hkey]
    exact List.mem_of_find?_eq_some hfind
  | none =>
    rw [hfind] at h
    obtain ⟨t, s1, h1, h⟩ := bind_ok h
    obtain ⟨_, s2, h2, h⟩ := bind_ok h
    obtain ⟨rfl, rfl⟩ := pure_ok h
    rw [modify_ok h2]
    exact List.mem_cons_self ..

/-- The type of the address of an element. -/
theorem gepType?_element {defs : Ir.TypeDefs} {size : Option Int} {elem source u : Ty}
    {info : Ir.IndexInfo} (h : Ir.gepType? defs (arrayLayoutOf size elem) source
      [.known 0, .known (if size.isSome then 1 else 2), info] = some u) : u = .ptr elem := by
  unfold Ir.gepType? at h
  cases source with
  | ptr =>
    rw [Option.ite_none_left_eq_some] at h
    cases size with
    | none | some n => exact (Option.some.inj h.2).symm
  | _ => cases h

section Elements

variable {size : Option Int} {q q' : Ownership} {l place : Location} {elem : Referend}
variable {length : Nat}

/-- The length of an array is stated by its type, or read where the layout has it. -/
theorem runs_arrayLength (hsize : ∀ n, size = some n → n = length)
    (hstored : size = none → ∀ layout,
      ((Referend.array size q' place elem).text, layout) ∈ T.final.arrayLayouts →
      ∃ p, Interp.elementAddress (layout.expand T.final.module.types) (heapObject o) [0, 1] =
        .ok p ∧
        Interp.load .i64 p m = .ok (.int (.ofNat length)) m)
    (hx : Knows T L x (.ptr (heapObject o))) :
    Runs A T L m (arrayLength x ⟨q, l, .array size q' place elem⟩)
      (fun y L' m' => Knows T L' y (.int (.ofNat length)) ∧ m' = m) := by
  cases size with
  | some n =>
    obtain rfl := hsize n rfl
    refine .pure ⟨.inr ⟨_, rfl, fun m => ?_⟩, rfl⟩
    rfl
  | none =>
    refine .after quiet_arrayLayout fun s layout s' hrun _ htables => ?_
    obtain ⟨p, hp, hload⟩ := hstored rfl layout (htables.layouts.subset (keptLayout_ok hrun))
    refine .next (flows_emitGep hx (.cons knows_zero (.cons knows_one .nil)) hp)
      fun address L1 _ haddress => ?_
    exact (flows_emitLoad (t := .i64) haddress hload).alone.mono
      fun y L' m' _ hq => ⟨hq.1.knows, hq.2⟩

variable {index : Operand}

/-- The address of an element is where the layout has it. -/
theorem runs_elementPtr {j : Int64} {P : Ty → Interp.Pointer → Prop}
    (hpart : ∀ layout, ((Referend.array size q' place elem).text, layout) ∈ T.final.arrayLayouts →
      ∃ size' e p, layout = arrayLayoutOf size' e ∧
        Interp.elementAddress (layout.expand T.final.module.types) (heapObject o)
          [0, if size'.isSome then 1 else 2, j] = .ok p ∧ P e p)
    (hx : Knows T L x (.ptr (heapObject o))) (hindex : Knows T L index (.int j)) :
    Runs A T L m (elementPtr x ⟨q, l, .array size q' place elem⟩ index)
      (fun y L' m' => ∃ e p, y.ty = .ptr e ∧ Knows T L' y (.ptr p) ∧ P e p ∧ m' = m) := by
  unfold elementPtr
  dsimp only
  refine .ite (fun _ => .violation) fun _ => ?_
  refine .after quiet_arrayLayout fun s layout s' hrun _ htables => ?_
  obtain ⟨size', e, p, rfl, hp, hP⟩ := hpart layout (htables.layouts.subset (keptLayout_ok hrun))
  refine .after quiet_typeDefs fun _ _ _ _ _ _ => .require fun fields hfields => ?_
  have hlast : (fields.length - 1 : Int) = if size'.isSome then 1 else 2 := by
    cases size' <;> obtain rfl := Option.some.inj hfields <;> rfl
  rw [hlast]
  have hfield : Knows T L (.i32 (if size'.isSome then 1 else 2))
      (.int (if size'.isSome then 1 else 2)) := .inr ⟨_, rfl, fun _ => by cases size' <;> rfl⟩
  refine (flows_typedGep hx (.cons knows_zero (.cons hfield (.cons hindex .nil))) hp).alone.mono
    fun y L' m' _ hq => ?_
  obtain ⟨⟨u, hu, hy⟩, rfl⟩ := hq
  obtain rfl := gepType?_element hu
  exact ⟨e, p, hy.type, hy.knows, hP, rfl⟩

variable {P : List Nat} {Z E : Finset Nat}

/-- The length of an array that is being dropped. -/
theorem runs_droppedLength (hM : H.Managed T roots m0) (hstage : H.Stage roots m0 P Z E m)
    (hE : o ∈ E) (hshape : H.shape o = .array size ⟨.share, place, elem⟩ length)
    (hx : Knows T L x (.ptr (heapObject o))) :
    Runs A T L m (arrayLength x ⟨.share, .yonder, .array size .share place elem⟩)
      (fun y L' m' => Knows T L' y (.int (.ofNat length)) ∧ m' = m) := by
  have ho := hstage.balanced.zeroed (hstage.balanced.dropping hE)
  refine runs_arrayLength (hM.describes.lengths o ho _ _ _ hshape).2 (fun hnone layout hl => ?_) hx
  obtain ⟨hlength, -⟩ := hM.describes.elements o ho _ _ _ hshape rfl layout hl
  obtain ⟨p, hp, hload⟩ := hstage.stored.part ho (fun _ => hE) (hlength hnone)
  exact ⟨p, hp, hload _ rfl⟩

/-- The address of an element of an array that is being dropped is where the element is found. -/
theorem runs_droppedElement {j : Nat} (hM : H.Managed T roots m0)
    (hstage : H.Stage roots m0 P Z E m) (hE : o ∈ E)
    (hshape : H.shape o = .array size ⟨.share, place, elem⟩ length)
    (hx : Knows T L x (.ptr (heapObject o))) (hindex : Knows T L index (.int (.ofNat j)))
    (hv : (H.parts o)[j]? = some v) :
    Runs A T L m (elementPtr x ⟨.share, .yonder, .array size .share place elem⟩ index)
      (fun y L' m' => ∃ e p, y.ty = .ptr e ∧ Knows T L' y (.ptr p) ∧
        Interp.load (e.expand T.final.module.types) p m = .ok v m ∧ m' = m) := by
  have ho := hstage.balanced.zeroed (hstage.balanced.dropping hE)
  refine runs_elementPtr (fun layout hl => ?_) hx hindex
  obtain ⟨-, size', e, rfl, hparts⟩ := hM.describes.elements o ho _ _ _ hshape rfl layout hl
  obtain ⟨p, hp, hload⟩ := hstage.stored.part ho (fun _ => hE) (hparts j v hv)
  exact ⟨size', e, p, rfl, hp, hload e rfl⟩

end Elements

/-! ## Releasing -/

namespace Heap

/-- What the first of several values refers to, and what the others do. -/
theorem Refers.uncons {r : Option Reference}
    {rs : List (Option Reference)} {ws : List Value} {os : List Nat}
    (h : H.Refers env final (r :: rs) ws os) : ∃ v vs os1 os2, ws = v :: vs ∧ os = os1 ++ os2 ∧
      H.Refers env final [r] [v] os1 ∧ H.Refers env final rs vs os2 := by
  cases h with
  | unshared hr rest => exact ⟨_, _, [], _, rfl, rfl, .unshared hr .nil, rest⟩
  | yonder ho points rest => exact ⟨_, _, [_], _, rfl, rfl, .yonder ho points .nil, rest⟩
  | members hs hd inside rest =>
    refine ⟨_, _, _, _, rfl, rfl, ?_, rest⟩
    simpa using Refers.members hs hd inside .nil
  | plain ht rest => exact ⟨_, _, [], _, rfl, rfl, .plain ht .nil, rest⟩

theorem Refers.eq_nil {vs : List Value} {os : List Nat}
    (h : H.Refers env final [] vs os) : os = [] := by
  cases h
  rfl

/-- The garbage among objects nests no deeper than a number of structs. -/
def Nested (H : Heap) (roots : List Nat) (k : Nat) (os : List Nat) : Prop :=
  ∀ o ∈ os, H.Garbage roots o → H.Nests roots k o

variable {os os' : List Nat} {k : Nat}

theorem Nested.left (h : H.Nested roots k (os ++ os')) : H.Nested roots k os :=
  fun o ho => h o (List.mem_append_left _ ho)

theorem Nested.right (h : H.Nested roots k (os ++ os')) : H.Nested roots k os' :=
  fun o ho => h o (List.mem_append_right _ ho)

theorem WorksOff.nil : H.WorksOff T roots m0 L [] (pure ()) :=
  fun _ _ _ _ hstage => .pure ⟨_, hstage⟩

theorem WorksOff.seq {a b : Build Unit} [Steady a] [Steady b] (ha : H.WorksOff T roots m0 L os a)
    (hb : ∀ L', L ⊆ L' → H.WorksOff T roots m0 L' os' b) :
    H.WorksOff T roots m0 L (os ++ os') (do a; b) := by
  intro P Z E m hstage
  rw [List.append_assoc] at hstage
  refine .bind (ha _ Z E m hstage) fun _ L' m' hsub hq => ?_
  obtain ⟨Z', hstage'⟩ := hq
  exact hb L' hsub P Z' E m' hstage'

/-- A piece releases values of a type, as far as the garbage that they refer to nests no deeper
than a number of structs. -/
def Releases (H : Heap) (T : Setting) (roots : List Nat) (m0 : Memory) (k : Nat)
    (r : Option Reference) (body : Operand → Build Unit) : Prop :=
  ∀ ⦃L : Facts⦄ ⦃x : Operand⦄ ⦃v : Value⦄ ⦃os : List Nat⦄, Knows T L x v →
    H.Refers T.env T.final [r] [v] os → H.Nested roots k os → H.WorksOff T roots m0 L os (body x)

end Heap

section Release

variable {fuel k : Nat} {os : List Nat}
variable {l : Location}

instance {h : Held} : Steady (discardFuel fuel h) := .of [h.value]

instance {i : Nat} {ms : List StructMember} : Steady (visitMembers x (discardFuel fuel) i ms) :=
  .of [x]

instance {q : Ownership} : Steady (release (discardFuel fuel) x q l r) := .of [x]

variable {i : Nat} {q : Ownership} {items : List Value}

theorem extract_item {u : Value} (h : items[i]? = some u) (m : Memory) :
    Interp.extract (.agg items) [i] m = .ok u m := by
  have hitem : Interp.extract (.agg items) [i] = pure u := by
    simp [Interp.extract, Interp.asItems, h]
  rw [hitem]
  rfl

/-- The members of a struct are visited one after the other. -/
theorem worksOff_visitMembers {ms : List StructMember}
    (hmember : ∀ r, H.Releases T roots m0 k r fun y => discardFuel fuel ⟨y, r⟩)
    (hx : Knows T L x (.agg items))
    (hrefers : H.Refers T.env T.final (ms.map (·.type)) (items.drop i) os)
    (hnested : H.Nested roots k os) :
    H.WorksOff T roots m0 L os (visitMembers x (discardFuel fuel) i ms) := by
  induction ms generalizing i L os with
  | nil =>
    obtain rfl := hrefers.eq_nil
    exact .nil
  | cons d ms ih =>
    obtain ⟨u, us, os1, os2, hitems, rfl, hfirst, hrest⟩ := hrefers.uncons
    have hu : items[i]? = some u := by
      rw [← List.head?_drop, hitems]
      rfl
    have hus : items.drop (i + 1) = us := by
      rw [← List.tail_drop, hitems]
      rfl
    have hextract : ∀ m, Interp.extract (.agg items) [i] m = .ok u m := extract_item hu
    intro P Z E m hstage
    refine .next (flows_emitExtract hx hextract) fun field L1 hsub1 hfield => ?_
    refine Heap.WorksOff.seq (hmember d.type hfield hfirst hnested.left)
      (fun L2 hsub2 => ?_) P Z E m hstage
    exact ih ((hx.mono hsub1).mono hsub2) (hus ▸ hrest) hnested.right

/-- Values of a type that is not shared refer to nothing. -/
theorem Heap.Refers.eq_nil_of_unshared {r : Reference} {n : Nat}
    {vs : List Value} (hr : r.ownership ≠ .share)
    (h : H.Refers env final (List.replicate n (some r)) vs os) : os = [] := by
  induction n generalizing vs os with
  | zero => exact h.eq_nil
  | succ n ih =>
    rw [List.replicate_succ] at h
    cases h with
    | unshared _ rest => exact ih rest
    | yonder | members | plain => exact absurd rfl hr

/-- How a heap object is ended when its count has come to zero. -/
def ending (member : Held → Build Unit) (x : Operand) (o : Ownership) (l : Location) :
    Referend → Build Unit
  | .struct s => dropStruct x s
  | .interface i => dropThroughTable x i
  | .array size o' l' elem => do
      if o' = .share then
        forEachElement x ⟨o, l, .array size o' l' elem⟩ fun address => do
          let item ← emitLoad (← require address.ty.pointee?) address
          release member item o' l' elem
      freeStorage x ⟨o, l, .array size o' l' elem⟩
  | .hollowArray _ => crash
  | .str => freeStorage x ⟨o, l, .str⟩
  | r => violation (.cannotDrop (Reference.text ⟨o, l, r⟩))

theorem release_eq {member : Held → Build Unit} :
    release member x q l r = releaseBy member x ⟨q, l, r⟩ (ending member x q l r) := by
  cases r <;> rfl

instance {U : List Operand} {member : Held → Build Unit} {q : Ownership} [Handed U x]
    [Visiting member] : Orderly U (ending member x q l r) := by
  cases r <;> unfold ending <;> infer_instance

instance {q : Ownership} : Steady (ending (discardFuel fuel) x q l r) := .of [x]

instance {q : Ownership} {c : Operand} :
    Steady (guarded "drop" "dropcont" c (ending (discardFuel fuel) x q l r)) := .of [c, x]

section Arrays

variable {size : Option Int} {q : Ownership} {place : Location} {elem : Referend} {length : Nat}

instance {r : Reference} : Steady (elementPtr x r y) := .of [x, y]

instance {r : Reference} : Steady (freeStorage x r) := .of [x]

instance {r : Reference} {o' : Ownership} :
    Steady (forEachElement x r fun address => do
      let item ← emitLoad (← require address.ty.pointee?) address
      release (discardFuel fuel) item o' place elem) := .of [x]

/-- The elements of an array are released in a loop. -/
theorem runs_elements {P : List Nat} {Z E : Finset Nat} (hM : H.Managed T roots m0)
    (hitem : H.Releases T roots m0 k (some ⟨.share, place, elem⟩) fun y =>
      release (discardFuel fuel) y .share place elem)
    (hshape : H.shape o = .array size ⟨.share, place, elem⟩ length)
    (hx : Knows T L x (.ptr (heapObject o))) (hnested : H.Nested roots k (H.refs o)) (hE : o ∈ E)
    (hstage : H.Stage roots m0 (H.refs o ++ P) Z E m) :
    Runs (fun _ => False) T L m
      (forEachElement x ⟨.share, .yonder, .array size .share place elem⟩ fun address => do
        let item ← emitLoad (← require address.ty.pointee?) address
        release (discardFuel fuel) item .share place elem)
      fun _ _ m' => ∃ Z, H.Stage roots m0 P Z E m' := by
  have ho := hstage.balanced.zeroed (hstage.balanced.dropping hE)
  have hrefers := hM.describes.refers o ho
  rw [hshape] at hrefers
  have hbuild : ∀ y, Steady (buildLoop y fun index => do
      let address ← elementPtr x ⟨.share, .yonder, .array size .share place elem⟩ index
      let item ← emitLoad (← require address.ty.pointee?) address
      release (discardFuel fuel) item .share place elem) := fun y => .of [x, y]
  refine .bind (runs_droppedLength hM hstage hE hshape hx) fun y L1 m1 hsub1 hq => ?_
  obtain ⟨hy, rfl⟩ := hq
  -- what is still to be worked off are the references of the elements from the index on
  refine (runs_buildLoop (I := fun j m' => ∃ os Z', H.Refers T.env T.final
      (List.replicate (length - j) (some ⟨.share, place, elem⟩)) ((H.parts o).drop j) os ∧
      H.Nested roots k os ∧ H.Stage roots m0 (os ++ P) Z' E m')
    (hM.describes.lengths o ho _ _ _ hshape).1 hy (fun m' hm' => ?_)
    fun j hj index m' hty hI => ?_).mono fun _ _ m' _ hq => ?_
  · exact ⟨H.refs o, Z, hrefers, hnested, hstage.stacked hm'⟩
  · obtain ⟨os, Z', hos, hnested', hstage'⟩ := hI
    rw [show length - j = length - (j + 1) + 1 by omega, List.replicate_succ] at hos
    obtain ⟨u, us, os1, os2, hparts, rfl, hfirst, hrest⟩ := hos.uncons
    have hu : (H.parts o)[j]? = some u := by
      rw [← List.head?_drop, hparts]
      rfl
    have hus : (H.parts o).drop (j + 1) = us := by
      rw [← List.tail_drop, hparts]
      rfl
    have hx' : Knows T ((index, .int (.ofNat j)) :: L1) x (.ptr (heapObject o)) :=
      (hx.mono hsub1).mono (List.subset_cons_self _ _)
    refine .bind (runs_droppedElement hM hstage' hE hshape hx' (knows_of_mem (by simp)) hu)
      fun address L2 m2 _ hq => ?_
    obtain ⟨e, p, hty, haddress, hload, rfl⟩ := hq
    refine .require fun e' he' => ?_
    obtain rfl : e = e' := by
      rw [hty] at he'
      exact Option.some.inj he'
    refine .next (flows_emitLoad haddress hload) fun item L3 _ hitem' => ?_
    rw [List.append_assoc] at hstage'
    refine (hitem hitem'.knows hfirst hnested'.left _ Z' E m2 hstage').mono fun _ _ m4 _ hq => ?_
    obtain ⟨Z'', hstage''⟩ := hq
    exact ⟨os2, Z'', hus ▸ hrest, hnested'.right, hstage''⟩
  · obtain ⟨os, Z', hos, -, hstage'⟩ := hq
    rw [Nat.sub_self] at hos
    obtain rfl := hos.eq_nil
    exact ⟨Z', hstage'⟩

/-- An array is ended: its elements are released, if they are shared, and it is freed. -/
theorem ends_array (hM : H.Managed T roots m0)
    (hitem : H.Releases T roots m0 k (some ⟨q, place, elem⟩) fun y =>
      release (discardFuel fuel) y q place elem)
    (hshape : H.shape o = .array size ⟨q, place, elem⟩ length)
    (hx : Knows T L x (.ptr (heapObject o))) (hnested : H.Nested roots k (H.refs o)) :
    H.Ends T roots m0 L o
      (ending (discardFuel fuel) x .share .yonder (.array size q place elem)) := by
  intro P Z E m hE hstage
  have hfree : ∀ L' m' Z', Knows T L' x (.ptr (heapObject o)) → H.Stage roots m0 P Z' E m' →
      Runs (fun _ => False) T L' m' (freeStorage x ⟨.share, .yonder, .array size q place elem⟩)
        fun _ _ m'' => ∃ Z, H.Stage roots m0 P Z (E.erase o) m'' := fun L' m' Z' hx' hstage' =>
    (ends_freeStorage hM hx' (by simp) P Z' E hE hstage').mono fun _ _ _ _ hq => ⟨Z', hq⟩
  refine .ite (fun hshare => ?_) fun hshare => ?_
  · subst hshare
    refine .bind (runs_elements hM hitem hshape hx hnested hE hstage) fun _ L1 m1 hsub1 hq => ?_
    obtain ⟨Z', hstage'⟩ := hq
    exact hfree L1 m1 Z' (hx.mono hsub1) hstage'
  · have ho := hstage.balanced.zeroed (hstage.balanced.dropping hE)
    have hrefers := hM.describes.refers o ho
    rw [hshape] at hrefers
    rw [Heap.Refers.eq_nil_of_unshared hshare hrefers] at hstage
    exact hfree L m Z hx hstage

end Arrays

theorem structAt_ok {s s' : State} {d : StructDef} (h : structAt i env s = .ok d s') :
    env.program.structs[i]? = some d ∧ s = s' := by
  replace h := getProgram_then h
  exact require_ok h

/-- Values of a type are released, if objects that they refer to are ended. -/
theorem releases_of_ends (hM : H.Managed T roots m0)
    (hmember : ∀ r, H.Releases T roots m0 k r fun y => discardFuel fuel ⟨y, r⟩)
    (hends : ∀ ⦃L : Facts⦄ ⦃x : Operand⦄ ⦃v : Value⦄ ⦃o : Nat⦄, Knows T L x v → o ∈ H.objects →
      H.Points T.env T.final t v o → H.Nested roots k [o] → H.Garbage roots o →
      H.Ends T roots m0 L o (ending (discardFuel fuel) x .share .yonder t)) :
    H.Releases T roots m0 k (some ⟨q, l, t⟩) fun y => release (discardFuel fuel) y q l t := by
  intro L x v os hx hrefers hnested
  dsimp only
  rw [release_eq]
  cases hrefers with
  | unshared hr rest =>
    cases rest
    unfold releaseBy
    split
    · exact .nil
    · exact .nil
    · exact fun _ _ _ _ _ => .violation
    · next hshare => exact absurd hshare hr
  | yonder ho points rest =>
    cases rest
    exact worksOff_releaseShared hM points hx fun hg L' hsub =>
      hends (hx.mono hsub) ho points hnested hg
  | @members s i d items os _ _ _ hs hd inside rest =>
    cases rest
    rw [List.append_nil] at hnested ⊢
    intro P Z E m hstage
    refine .after quiet_structIndex fun _ i' _ hrun _ _ => ?_
    obtain rfl : i = i' := by
      have := (structIndex_ok hrun).1
      omega
    refine .after quiet_structAt fun _ d' _ hrun _ _ => ?_
    obtain rfl : d = d' := Option.some.inj (hd.symm.trans (structAt_ok hrun).1)
    exact worksOff_visitMembers hmember hx inside hnested P Z E m hstage
  | plain ht rest =>
    cases rest
    cases t with
    | struct s => exact absurd rfl (ht s)
    | _ => exact .nil

/-- What the parts of an object nest, when the object is no struct. -/
theorem Heap.Nested.refs (h : H.Nested roots k [o]) (hg : H.Garbage roots o)
    (hshape : ∀ i, H.shape o ≠ .struct i) : H.Nested roots k (H.refs o) := by
  cases h o (List.mem_singleton.mpr rfl) hg with
  | struct shape => exact absurd shape (hshape _)
  | other _ refs => exact refs

/-- Values of any type are released. -/
theorem releases_release (hM : H.Managed T roots m0)
    (hdrop : ∀ o, H.Garbage roots o → H.Nests roots k o → H.Droppable T roots m0 o)
    (hmember : ∀ r, H.Releases T roots m0 k r fun y => discardFuel fuel ⟨y, r⟩) :
    H.Releases T roots m0 k (some ⟨q, l, t⟩) fun y => release (discardFuel fuel) y q l t := by
  have hdrop' : ∀ {o}, H.Nested roots k [o] → H.Garbage roots o → H.Droppable T roots m0 o :=
    fun hnested hg => hdrop _ hg (hnested _ (List.mem_singleton.mpr rfl) hg)
  induction t generalizing q l with
  | array size q' place elem ih =>
    refine releases_of_ends hM hmember fun L x v o hx ho hpoints hnested hg => ?_
    cases hpoints with
    | array shape => exact ends_array hM ih shape hx (hnested.refs hg (by simp [shape]))
  | struct s =>
    refine releases_of_ends hM hmember fun L x v o hx ho hpoints hnested hg => ?_
    cases hpoints with
    | struct hs shape => exact ends_dropStruct hs shape hx (hdrop' hnested hg)
  | interface s =>
    refine releases_of_ends hM hmember fun L x v o hx ho hpoints hnested hg => ?_
    cases hpoints with
    | interface edge hs table shape =>
      exact ends_dropThroughTable hM edge hs table shape hx (hdrop' hnested hg)
  | str =>
    refine releases_of_ends hM hmember fun L x v o hx ho hpoints hnested hg => ?_
    cases hpoints with
    | str shape =>
      intro P Z E m hE hstage
      have hrefers := hM.describes.refers o ho
      rw [shape] at hrefers
      rw [hrefers.eq_nil] at hstage
      exact (ends_freeStorage (t := .str) hM hx (by simp) P Z E hE hstage).mono
        fun _ _ _ _ hq => ⟨Z, hq⟩
  | _ =>
    refine releases_of_ends hM hmember fun L x v o hx ho hpoints => ?_
    cases hpoints

/-- A value is discarded. -/
theorem releases_discardFuel {r : Option Reference} (hM : H.Managed T roots m0)
    (hdrop : ∀ o, H.Garbage roots o → H.Nests roots k o → H.Droppable T roots m0 o) :
    H.Releases T roots m0 k r fun y => discardFuel fuel ⟨y, r⟩ := by
  induction fuel generalizing r with
  | zero => exact fun _ _ _ _ _ _ _ _ _ _ _ _ => .crash
  | succ fuel ih =>
    intro L x v os hx hrefers hnested P Z E m hstage
    refine .require fun r' hr' => ?_
    obtain rfl : r = some r' := hr'
    exact releases_release hM hdrop (fun r => ih) hx hrefers hnested P Z E m hstage

theorem releases_discard {r : Option Reference} (hM : H.Managed T roots m0)
    (hdrop : ∀ o, H.Garbage roots o → H.Nests roots k o → H.Droppable T roots m0 o) :
    H.Releases T roots m0 k r fun y => discard ⟨y, r⟩ := by
  intro L x v os hx hrefers hnested P Z E m hstage
  exact .after quiet_nestingFuel fun _ _ _ _ _ _ =>
    releases_discardFuel hM hdrop hx hrefers hnested P Z E m hstage

end Release

end Tenure.Lowering

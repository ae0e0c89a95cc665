import Tenure.Proofs.Releasing
import Tenure.Proofs.Parts

/-!
# Drop functions

The drop function of a struct is given an object of it whose count has come to zero.  It
releases the shared members one after the other and frees the object.  To release a member
may take a call of another drop function, or of the same one, so what drop functions do is
shown by induction on how deep such calls nest.
-/

namespace Tenure.Lowering

open Ir (Ty Operand Func)
open Interp (Call Value Memory heapObject)

/-! ## Calls of drop functions -/

section Drop

variable {T : Setting} {i pos : Nat} {d : StructDef} {F : Func} {v : Value} {m : Memory}
variable {Q : Memory → Prop}

theorem Sound.isSsa {s : State} (h : Sound s) (hF : s.module.funcs[pos]? = some F)
    (hsize : 0 < F.blocks.size) : F.IsSsa := by
  rcases h pos F hF with hempty | hcomplete
  · rw [hempty] at hsize
    exact absurd hsize (Nat.not_lt_zero _)
  · exact hcomplete.ssa

/-- A drop function makes no stack slot. -/
theorem DropAt.slotless {env : Env} {final : State} (h : DropAt env final i d F) : F.Slotless := by
  obtain ⟨s0, g, s1, f1, hfill, -, rfl⟩ := h
  have hkept : Shows MakesNoSlot (dropBody i d) := inferInstance
  have hstart : Unslotted s0 := by
    intro f hf
    obtain rfl := Option.some.inj (hfill.started.placed.func.symm.trans hf)
    intro b i hi
    rw [Func.code_addBlock, Func.code_of_size_le (by simp [hfill.started.empty])] at hi
    cases hi
  exact (hkept.shows hfill.ok hstart f1 hfill.ended.func).terminate

instance : Steady (dropBody i d) := .of [.param 0 .i8Ptr]

/-- The code of a drop function fills it from its entry to where it returns. -/
theorem DropAt.site (h : DropAt T.env T.final i d F) :
    ∃ s f s' f', Stands T F [.param 0 .i8Ptr] (dropBody i d) s f () s' f' ∧ s.block = 0 ∧
      f.code 0 = [] ∧ F.code s'.block = f'.code s'.block ∧
      F.term? s'.block = some (.ret none) := by
  obtain ⟨s0, g, s1, f1, hfill, hparams, rfl⟩ := h
  obtain ⟨f, hx, hopen⟩ := Steady.extends_of_ok hfill.started.placed hfill.started.isOpen hfill.ok
  obtain rfl := hx.placed.func_eq hfill.ended
  refine ⟨s0, _, s1, f, hfill.stands_terminate (fun u hu => ?_) hopen, hfill.started.block, ?_,
    by simp, ?_⟩
  · obtain rfl := List.mem_singleton.mp hu
    exact ⟨0, _, rfl, hparams⟩
  · rw [Func.code_addBlock, Func.code_of_size_le (by simp [hfill.started.empty])]
  · rw [Func.term?_terminate hfill.ended.lt, if_pos rfl]

/-- A call of a drop function goes through its code, and comes back.  Stack slots that it may
have got are its own. -/
theorem DropAt.serves (h : DropAt T.env T.final i d F)
    (hF : T.final.module.funcs[pos]? = some F) (hparams : F.params.length = 1)
    (hsound : Sound T.final) (hdepth : T.depth + 1 ≤ Interp.maxDepth)
    (hbody : Runs (fun _ => False) { T with depth := T.depth + 1 } [(.param 0 .i8Ptr, v)] m
      (dropBody i d) fun _ _ m' => Q m') :
    Serves (fun _ => False) T pos [v] m fun _ m' => ∃ m1, ∃ ids : List Nat, Q m1 ∧
      (∀ id ∈ ids, m.objects.size ≤ id) ∧ m' = ids.foldl Memory.kill m1 := by
  intro M stack G hcode hnatives hdepth' hmem hG hnext
  subst hmem
  have hF' : M.code.funcs[pos]? = some F := by rw [hcode, hF]
  let C := Call.ofInvoke M stack pos [v] F hF'
  obtain ⟨s, f, s', f', hS, hblock, hempty, hlast, hends⟩ :=
    DropAt.site (T := { T with depth := T.depth + 1 }) h
  have hwithin := hS.within C rfl
  obtain ⟨g, hx, hopen⟩ := Steady.extends_of_ok hS.placed hS.isOpen hS.ok
  obtain rfl := hx.placed.func_eq hS.ended
  have hplain := (hwithin.back hx).plain
  rw [hblock, hempty] at hplain
  have hsize : 0 < F.blocks.size :=
    Nat.zero_lt_of_lt (Nat.lt_of_lt_of_le hS.ended.lt hwithin.keeps.size)
  have hC : Hosted (fun _ => False) { T with depth := T.depth + 1 } C := by
    refine ⟨hcode, hnatives, ?_, hsound.isSsa hF hsize,
      fun j i elem hi hop => absurd hop (h.slotless.not_alloca hi)⟩
    change M.depth + 1 = T.depth + 1
    rw [hdepth']
  refine hG.steps (Interp.steps_invoke hF' hsize hparams.symm (by omega)
    fun i hi => hplain i (has_zero_of_head hi)) ?_
  have hknown : ∀ p ∈ [(Operand.param 0 .i8Ptr, v)], p.1 ∈ [Operand.param 0 .i8Ptr] ∧
      C.Means {} p.1 p.2 := by
    intro p hp
    obtain rfl := List.mem_singleton.mp hp
    exact ⟨List.mem_singleton.mpr rfl, rfl⟩
  have hrun := hbody hS.placed hS.isOpen hS.ok hx hopen hC hwithin
    (w := ⟨M.memory, M.output, {}, []⟩) (Ready.of_slotless h.slotless rfl rfl) rfl (hS.holds hknown)
    hG fun L' w' _ _ hready _ hq => ?_
  · rw [standing, hblock, hempty] at hrun
    exact hrun
  -- the body ends where the function returns
  have hend : (F.code s'.block).length ≤ (g.code s'.block).length := by rw [hlast]
  have hstep := Interp.step_ret_none (C := C) (w := w') hend hends
  have hown : ∀ id ∈ w'.slots, M.memory.objects.size ≤ id := fun id hid => (hready.own id hid).1
  refine hG.back _ _ hstep (hnext { M with
    memory := w'.slots.foldl Memory.kill w'.memory, output := w'.output
    depth := M.depth + 1 - 1 } .nothing rfl rfl (Int.add_sub_cancel M.depth 1) ?_ ?_)
  · exact hready.since.killAll hown
  · exact ⟨w'.memory, w'.slots, hq, hown, rfl⟩

end Drop

/-! ## What drop functions do -/

namespace Heap

variable {H : Heap} {T : Setting} {L : Facts} {roots : List Nat} {m m0 : Memory} {o k i : Nat}
variable {P os : List Nat} {Z E : Finset Nat} {d : StructDef}

instance {layout : Ty} {object : Operand} {j : Nat} {ms : List StructMember} :
    Steady (buildDropFunc.members layout object j ms) := .of [object]

instance {h : Held} : Steady (discard h) := .of [h.value]

variable {object : Operand} {j : Nat}

/-- A member of an object that is being dropped is loaded. -/
theorem runs_member {r : Reference} {v : Value} (hM : H.Managed T roots m0)
    (hstage : H.Stage roots m0 P Z E m) (hE : o ∈ E) (hshape : H.shape o = .struct i)
    (hobject : Knows T L object (.ptr (heapObject o))) (hshare : r.ownership = .share)
    (hr : ((H.shape o).types T.env.program)[j]? = some (some r)) (hv : (H.parts o)[j]? = some v) :
    Runs (fun _ => False) T L m (do
      let address ← emitGep (wrapperType T.env.program i) object [.i32 0, .i32 1, .i32 j]
      emitLoad (← lowerReference r) address)
      (fun y L' m' => Knows T L' y v ∧ m' = m) := by
  have ho := hstage.balanced.zeroed (hstage.balanced.dropping hE)
  obtain ⟨q, hq, hload⟩ :=
    hstage.stored.part ho (fun _ => hE) (hM.describes.members o ho i hshape j r v hr hshare hv)
  have hj : Knows T L (.i32 j) (.int (shortIndex j)) := .inr ⟨_, rfl, fun _ => rfl⟩
  refine .next (flows_emitGep hobject (.cons knows_zero (.cons knows_one (.cons hj .nil))) hq)
    fun address L1 _ haddress => ?_
  refine .after quiet_lowerReference fun s t s' hrun _ htables => ?_
  exact (flows_emitLoad haddress (hload t ⟨s, s', hrun, htables⟩)).alone.mono
    fun y L' m' _ hq => ⟨hq.1.knows, hq.2⟩

/-- The members of an object that is being dropped are released. -/
theorem runs_dropMembers {ms : List StructMember} (hM : H.Managed T roots m0)
    (hmember : ∀ r, H.Releases T roots m0 k r fun y => discard ⟨y, r⟩) (hE : o ∈ E)
    (hshape : H.shape o = .struct i) (hobject : Knows T L object (.ptr (heapObject o)))
    (hms : ((H.shape o).types T.env.program).drop j = ms.map (·.type))
    (hrefers : H.Refers T.env T.final (ms.map (·.type)) ((H.parts o).drop j) os)
    (hnested : H.Nested roots k os) (hstage : H.Stage roots m0 (os ++ P) Z E m) :
    Runs (fun _ => False) T L m (buildDropFunc.members (wrapperType T.env.program i) object j ms)
      fun _ _ m' => ∃ Z, H.Stage roots m0 P Z E m' := by
  induction ms generalizing j L os Z m with
  | nil =>
    obtain rfl := hrefers.eq_nil
    exact .pure ⟨Z, hstage⟩
  | cons d ms ih =>
    obtain ⟨v, vs, os1, os2, hparts, rfl, hfirst, hrest⟩ := hrefers.uncons
    have hv : (H.parts o)[j]? = some v := by
      rw [← List.head?_drop, hparts]
      rfl
    have hvs : (H.parts o).drop (j + 1) = vs := by
      rw [← List.tail_drop, hparts]
      rfl
    have hd : ((H.shape o).types T.env.program)[j]? = some d.type := by
      rw [← List.head?_drop, hms]
      rfl
    have hds : ((H.shape o).types T.env.program).drop (j + 1) = ms.map (·.type) := by
      rw [← List.tail_drop, hms]
      rfl
    have hnext : ∀ {L' m' Z'}, L ⊆ L' → H.Stage roots m0 (os2 ++ P) Z' E m' →
        Runs (fun _ => False) T L' m'
          (buildDropFunc.members (wrapperType T.env.program i) object (j + 1) ms)
          fun _ _ m' => ∃ Z, H.Stage roots m0 P Z E m' := fun hsub hstage' =>
      ih (hobject.mono hsub) hds (hvs ▸ hrest) hnested.right hstage'
    refine .require fun r hr => ?_
    change H.Refers T.env T.final [d.type] [v] os1 at hfirst
    rw [hr] at hd hfirst
    rw [List.append_assoc] at hstage
    refine .ite (fun hshare => ?_) fun hshare => ?_
    · have hrun : Runs (fun _ => False) T L m ((do
            let address ← emitGep (wrapperType T.env.program i) object [.i32 0, .i32 1, .i32 j]
            emitLoad (← lowerReference r) address) >>= fun field => do
          discard ⟨field, some r⟩
          buildDropFunc.members (wrapperType T.env.program i) object (j + 1) ms)
          fun _ _ m' => ∃ Z, H.Stage roots m0 P Z E m' := by
        refine .bind (runs_member hM hstage hE hshape hobject hshare hd hv)
          fun field L1 m1 hsub1 hq => ?_
        obtain ⟨hfield, rfl⟩ := hq
        refine .bind (hmember _ hfield hfirst hnested.left _ Z E m1 hstage)
          fun _ L2 m2 hsub2 hq => ?_
        obtain ⟨Z', hstage'⟩ := hq
        exact hnext (List.Subset.trans hsub1 hsub2) hstage'
      simp only [bind_assoc] at hrun
      exact hrun
    · cases hfirst with
      | unshared _ rest =>
        cases rest
        exact hnext (List.Subset.refl _) hstage
      | yonder | members | plain => exact absurd rfl hshare

/-- The body of the drop function of a struct ends an object of it. -/
theorem runs_dropBody (hM : H.Managed T roots m0)
    (hmember : ∀ r, H.Releases T roots m0 k r fun y => discard ⟨y, r⟩)
    (hd : T.env.program.structs[i]? = some d) (hshape : H.shape o = .struct i) (hE : o ∈ E)
    (hparam : Knows T L (.param 0 .i8Ptr) (.ptr (heapObject o)))
    (hnested : H.Nested roots k (H.refs o)) (hstage : H.Stage roots m0 (H.refs o ++ P) Z E m) :
    Runs (fun _ => False) T L m (dropBody i d)
      fun _ _ m' => ∃ Z, H.Stage roots m0 P Z (E.erase o) m' := by
  have htypes : (H.shape o).types T.env.program = d.members.map (·.type) := by
    rw [hshape, Shape.types, hd]
    rfl
  have hrefers := hM.describes.refers o (hstage.balanced.zeroed (hstage.balanced.dropping hE))
  rw [htypes] at hrefers
  refine .getProgram (.next (flows_emitBitcast hparam) fun object L1 hsub1 hobject => ?_)
  refine .bind (runs_dropMembers hM hmember hE hshape hobject.knows htypes hrefers hnested hstage)
    fun _ L2 m2 hsub2 hq => ?_
  obtain ⟨Z', hstage'⟩ := hq
  obtain ⟨⟨obj, n, hobj, hcounted⟩, hfreed⟩ := hstage'.free hM.describes hE
  exact (runs_free hM ((hparam.mono hsub1).mono hsub2) hobj hcounted).mono
    fun _ _ m' _ hq => ⟨Z', hq ▸ hfreed⟩

/-- What a release needs does not depend on how deep the calls are. -/
theorem Managed.deeper (h : H.Managed T roots m0) (depth : Int) :
    H.Managed { T with depth } roots m0 :=
  { h with
    tables := fun n e g hn hg => by
      obtain ⟨j, drop, d, table, vs, hj, hdrop, htable⟩ := h.tables n e g hn hg
      exact ⟨j, drop, d, table, vs, hj, hdrop, { htable with }⟩ }

/-- The drop functions of structs end objects, as far as there is room for the calls that
they take. -/
theorem droppable (hM : H.Managed T roots m0) (hequipped : Equipped T.env T.final)
    (hsound : Sound T.final) (hdepth : T.depth + k ≤ Interp.maxDepth) (hnests : H.Nests roots k o) :
    H.Droppable T roots m0 o := by
  induction k generalizing T o with
  | zero =>
    cases hnests with
    | other shape => exact fun i pos hshape => absurd hshape (shape i)
  | succ k ih =>
    cases hnests with
    | other shape => exact fun i pos hshape => absurd hshape (shape i)
    | struct _ refs =>
      intro i pos hshape hpos P Z E m hE hstage
      obtain ⟨d, F, hd, hF, hdrop, hparams⟩ := hequipped.drops i pos hpos
      have hM' := hM.deeper (T.depth + 1)
      have hdrop' : ∀ o, H.Garbage roots o → H.Nests roots k o →
          H.Droppable { T with depth := T.depth + 1 } roots m0 o := fun o _ hnests =>
        ih hM' hequipped hsound (by dsimp only; omega) hnests
      have hparam : Knows { T with depth := T.depth + 1 } [(.param 0 .i8Ptr, .ptr (heapObject o))]
          (.param 0 .i8Ptr) (.ptr (heapObject o)) := knows_of_mem (by simp)
      have hbody := runs_dropBody hM' (fun _ => releases_discard hM' hdrop') hd hshape hE hparam
        refs hstage
      refine (hdrop.serves hF hparams hsound (by omega) hbody).mono fun _ m' hq => ?_
      obtain ⟨m1, ids, ⟨Z', hstage'⟩, hids, rfl⟩ := hq
      exact ⟨Z', hstage'.leave hM.describes fun id hid =>
        Nat.le_trans hstage.stored.size (hids id hid)⟩


end Heap

end Tenure.Lowering

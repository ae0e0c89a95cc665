import Tenure.Proofs.MethodTables
import Tenure.Proofs.Straight

/-!
# References through interfaces

A reference through an interface is the address of an object together with the
address of the method table of the object's struct.  This file says what the code
does that makes such a reference, calls a method through it, and drops the object
behind it: each comes to the entry that the table has for it.
-/

namespace Tenure.Lowering

open Ir (Ty Operand Func)
open Interp (Call World Value Memory Pointer Proceeds Row)

variable {α : Type} {T : Setting} {C : Call} {F : Func} {U : List Operand} {L : Facts}
variable {s s' : State} {f f' : Func} {w : World} {m m' : Memory}
variable {I : Symbol} {signature : Option Callee} {r : Reference}

/-- The types of objects and interfaces stand in the finished module. -/
abbrev Setting.Typed (T : Setting) : Prop := TypeTable T.env.program T.final.module.types

/-! ## Code that stands in a function -/

theorem Available.below {D : Ir.Func.Dominators} {b : Nat} {x : Operand} (hD : f.Formed D)
    (h : Available f D b x) : Below f.nextReg x := by
  cases x with
  | reg id t =>
    obtain ⟨d, j, i, hi, rfl, -⟩ := h
    exact hD.below d j i hi
  | block i => exact h
  | _ => trivial

variable {a : α} {vs : List Value} {edge : Nat} {y : Operand} {v : Value} {S : Symbol}
variable {source : Expr} {type : Option Reference}

theorem Stands.extends {x : Build α} [Writes x] (h : Stands T F U x s f a s' f') :
    Extends s f s' f' := by
  obtain ⟨g, hx⟩ := Writes.extends_of_ok h.placed h.isOpen h.ok
  obtain rfl := hx.placed.func_eq h.ended
  exact hx

/-- What the operands of a piece stand for is known to it. -/
theorem Stands.holds {x : Build α} (h : Stands T F U x s f a s' f')
    (hL : ∀ p ∈ L, p.1 ∈ U ∧ C.Means w.regs p.1 p.2) : Holds C L f.nextReg w := by
  obtain ⟨D, hD, hU⟩ := h.formed
  exact fun p hp => ⟨(hU p.1 (hL p hp).1).below hD, (hL p hp).2⟩

theorem Stands.flows {x : Build α} [Writes x] {Q : α → Facts → Memory → Prop}
    (h : Stands T F U x s f a s' f') (hx : Flows T L w.memory x Q) (hbody : C.body = F)
    (hcode : C.code = T.final.module) (hL : ∀ p ∈ L, p.1 ∈ U ∧ C.Means w.regs p.1 p.2) :
    ∃ L' w', Passes C s f w s' f' w' ∧ Holds C L' f'.nextReg w' ∧ Q a L' w'.memory := by
  obtain ⟨L', w', -, hpass, hL', hq⟩ :=
    hx h.placed h.isOpen h.ok h.extends hcode (h.within C hbody) rfl (h.holds hL)
  exact ⟨L', w', hpass.toPasses, hL', hq⟩

theorem Stands.calls {x : Build α} [Writes x] {i : Nat} (h : Stands T F U x s f a s' f')
    (hx : Calls T L w.memory x i vs m') (hbody : C.body = F) (hcode : C.code = T.final.module)
    (hL : ∀ p ∈ L, p.1 ∈ U ∧ C.Means w.regs p.1 p.2) :
    ∃ b k w', Proceeds (standing C s f w) (invoking C b k w' i vs) ∧ w'.memory = m' ∧
      w'.output = w.output :=
  hx h.placed h.isOpen h.ok h.extends hcode (h.within C hbody) rfl (h.holds hL)

/-! ## Making a reference -/

/-- A reference through an interface: the object, and the method table that a global
holds. -/
def interfacePair (o : Pointer) (g : Nat) : Value := .agg [.ptr o, .ptr ⟨.object g .global, 0⟩]

variable {n g i j : Nat} {e : ResolvedEdge} {o : Pointer} {x : Operand}

theorem quiet_tableOperand : Quiet (tableOperand edge) :=
  Quiet.get.bind fun _ => Quiet.require.bind fun _ => Quiet.get.bind fun _ =>
    Quiet.require.bind fun _ => .pure

theorem tableOperand_ok {env : Env} (h : tableOperand edge env s = .ok y s') :
    ∃ g content, s.itables[edge]? = some g ∧ y = .const (.global g content) := by
  replace h := get_then h
  obtain ⟨g, hg, h⟩ := require_then h
  replace h := get_then h
  obtain ⟨global, -, h⟩ := require_then h
  obtain ⟨rfl, -⟩ := pure_ok h
  exact ⟨g, global.content, hg, rfl⟩

/-- What stands for a reference before its two parts are put in. -/
theorem constIs_undef (htypes : T.Typed) (hi : i < T.env.program.interfaces.size) :
    ConstIs T (.undef (interfaceRefType T.env.program i)) (.agg [.ptr {}, .ptr {}]) := by
  intro m
  obtain ⟨name, hname⟩ := htypes.refs i hi
  have hexpand : (interfaceRefType T.env.program i).expand T.final.module.types =
      .struct name [.i8Ptr, .ptr (itableType T.env.program i)] :=
    expand_defined hname (by simp [Interp.IsCell])
  rw [Interp.evalConst, hexpand]
  rfl

theorem flows_makeInterfaceRef (htypes : T.Typed)
    (hi : i < T.env.program.interfaces.size) (hx : Knows T L x (.ptr o)) (hy : Knows T L y v) :
    Flows T L m (makeInterfaceRef i x y) (fun z L' m' => Knows T L' z (.agg [.ptr o, v]) ∧
      m' = m) := by
  refine .getProgram ?_
  have hstart : Knows T L (.const (.undef (interfaceRefType T.env.program i)))
      (.agg [.ptr {}, .ptr {}]) := .inr ⟨_, rfl, constIs_undef htypes hi⟩
  refine .next (flows_emitInsert (i := 0) hstart hx (r := .agg [.ptr o, .ptr {}]) fun _ => rfl)
    fun half L' hsub hhalf => ?_
  exact flows_emitInsert hhalf (hy.mono hsub) fun _ => rfl

theorem steady_upcast (x : Operand) (ownership : Ownership) (edge : Option Nat) (S I : Symbol)
    (iid : Nat) : Steady (match edge with
      | none => violation (.notImplemented S.name I.name)
      | some edge => do
          let object ← emitBitcast x .i8Ptr
          let y ← makeInterfaceRef iid object (← tableOperand edge)
          return some ⟨y, some ⟨ownership, .yonder, .interface I⟩⟩ : Build Result) := by
  split <;> infer_instance

/-- A reference is made from the object and the table of the edge. -/
theorem flows_upcasting {ownership : Ownership} (hlinked : T.env.program.Linked)
    (htypes : T.Typed) (hn : T.env.program.edges[n]? = some e)
    (hg : T.final.itables[n]? = some g) (hS : T.env.program.structId S = e.structId)
    (hI : T.env.program.interfaceId I = e.interfaceId) (hx : Knows T L x (.ptr o)) :
    Flows T L m (upcasting x ownership (some S) (some I)) (fun r L' m' =>
      ∃ y, r = some ⟨y, some ⟨ownership, .yonder, .interface I⟩⟩ ∧
        Knows T L' y (interfacePair o g) ∧ m' = m) := by
  have hsteady := steady_upcast x ownership
  refine .require fun _ hS' => ?_
  obtain rfl := Option.some.inj hS'
  refine .after quiet_structIndex fun _ sid _ hrun _ => ?_
  obtain ⟨hsid, -⟩ := structIndex_ok hrun
  refine .require fun _ hI' => ?_
  obtain rfl := Option.some.inj hI'
  refine .after quiet_interfaceIndex fun _ iid _ hrun _ => ?_
  obtain ⟨hiid, hlt, -⟩ := interfaceIndex_ok hrun
  refine .getProgram ?_
  rw [← hsid, ← hiid, hS, hI, hlinked.edgeIndex?_eq hn]
  refine .next (flows_emitBitcast hx) fun object L1 hsub hobject => ?_
  refine .after quiet_tableOperand fun s table _ hrun htables => ?_
  obtain ⟨g', content, hg', rfl⟩ := tableOperand_ok hrun
  obtain rfl : g = g' := by
    rw [getElem?_of_initial htables.itables hg'] at hg
    exact (Option.some.inj hg).symm
  refine .next (flows_makeInterfaceRef htypes hlt hobject.knows (v := .ptr ⟨.object g .global, 0⟩)
    (.inr ⟨_, rfl, fun _ => rfl⟩)) fun y L2 hsub hy => ?_
  exact .pure ⟨y, rfl, hy, rfl⟩

/-! ## Going through the table -/

/-- The entry of a table at an address that was computed with an index. -/
theorem flows_entry {d : InterfaceDef} {table : Interp.Object} {k : Nat} (htypes : T.Typed)
    (hd : T.env.program.interfaces[j]? = some d) (htable : m.objects[g]? = some table)
    (hrow : Row table vs) (hv : vs[k]? = some v) (hk : k < 2 ^ 31)
    (hlen : vs.length = d.methods.length + 1) (hx : Knows T L x (.ptr ⟨.object g .global, 0⟩)) :
    Flows T L m (do
      let address ← emitGep (itableType T.env.program j) x [.i32 0, .i32 k]
      let fields ← require ((itableType T.env.program j).fields? (← typeDefs))
      emitLoad (← require fields[k]?) address) (fun y L' m' => Knows T L' y v ∧ m' = m) := by
  obtain ⟨name, entries, hfields⟩ := htypes.tableFields hd
  have hlt := (List.getElem?_eq_some_iff.mp hv).1
  obtain ⟨t, ht⟩ : ∃ t, (dropType :: entries)[k]? = some t :=
    ⟨_, List.getElem?_eq_getElem (by simp [hfields.count]; omega)⟩
  obtain ⟨u, rfl⟩ := hfields.pointers t (List.mem_of_getElem? ht)
  have hindex : Knows T L (.i32 k) (.int (.ofNat k)) := by
    refine .inr ⟨_, rfl, fun m => ?_⟩
    rw [Ir.Const.i32, Interp.evalConst, Interp.canonical_index hk]
    rfl
  refine .next (flows_emitGep hx (.cons knows_zero (.cons hindex .nil))
    (q := ⟨.object g .global, Interp.rowOffset k⟩) ?_) fun address L1 _ haddress => ?_
  · rw [hfields.expands]
    exact Interp.elementAddress_row hfields.pointers ht hk name _
  · refine .after quiet_typeDefs fun s defs _ hrun htables => .require fun fs hfs => ?_
    obtain ⟨rfl, -⟩ := typeDefs_ok hrun
    rw [← htables.types, hfields.fields] at hfs
    obtain rfl := Option.some.inj hfs
    refine .require fun t' ht' => ?_
    obtain rfl : Ty.ptr u = t' := Option.some.inj (ht.symm.trans ht')
    exact (flows_emitLoad (t := .ptr u) haddress (Interp.load_row htable hrow hv)).mono
      fun y L' m' _ hq => ⟨hq.1.knows, hq.2⟩

/-- What a method table holds in a memory: the drop function of a struct, and the
functions of an edge. -/
structure TableIn (T : Setting) (m : Memory) (e : ResolvedEdge) (g j drop : Nat) (d : InterfaceDef)
    (table : Interp.Object) (vs : List Value) : Prop where
  interface : T.env.program.interfaces[j]? = some d
  object : m.objects[g]? = some table
  row : Row table (functionAt T.final.module drop :: vs)
  count : vs.length = d.methods.length
  methods : ∀ k f, e.methods[k]? = some f → k < vs.length → ∃ pos,
    T.final.funcs[f]? = some (some pos) ∧ vs[k]? = some (functionAt T.final.module pos)

section Table

variable {drop : Nat} {d : InterfaceDef} {table : Interp.Object} {vs : List Value}

/-- A method is looked up. -/
theorem flows_loadMethod {k : Nat} {v : Value} (htypes : T.Typed)
    (h : TableIn T m e g j drop d table vs) (hk : vs[k]? = some v) (hlow : k + 1 < 2 ^ 31)
    (hx : Knows T L x (interfacePair o g)) :
    Flows T L m (loadMethod j x k) (fun y L' m' => Knows T L' y v ∧ m' = m) := by
  unfold loadMethod
  dsimp only
  refine .after quiet_interfaceAt fun _ d' _ hrun _ => ?_
  obtain ⟨hd', -⟩ := interfaceAt_ok hrun
  obtain rfl : d = d' := Option.some.inj (h.interface.symm.trans hd')
  refine .ite (fun _ => .violation) fun _ => .getProgram ?_
  refine .next (flows_emitExtract (u := .ptr ⟨.object g .global, 0⟩) hx fun _ => rfl)
    fun itable L1 _ hitable => ?_
  exact flows_entry (k := k + 1) htypes h.interface h.object h.row hk hlow (by simp [h.count])
    hitable

/-- The drop function of the object behind a reference, and what it is called with. -/
def dropEntry (x : Operand) (i : Symbol) : Build (Operand × List Operand) := do
  let object ← emitExtract x 0
  let itable ← emitExtract x 1
  let t := itableType (← getProgram) (← interfaceIndex i)
  let address ← emitGep t itable [.i32 0, .i32 0]
  let fields ← require (t.fields? (← typeDefs))
  let drop ← emitLoad (← require fields.head?) address
  return (drop, [object])

instance : Steady (dropEntry x I) := by
  unfold dropEntry
  infer_instance

theorem dropThroughTable_eq :
    dropThroughTable x I = dropEntry x I >>= fun p => emitCall p.1 p.2 >>= fun _ => pure () := by
  simp only [dropThroughTable, dropEntry, bind_assoc, pure_bind]

theorem flows_dropEntry (htypes : T.Typed) (h : TableIn T m e g j drop d table vs)
    (hI : T.env.program.interfaceId I = j) (hx : Knows T L x (interfacePair o g)) :
    Flows T L m (dropEntry x I) fun p L' m' => (Knows T L' p.1 (functionAt T.final.module drop) ∧
      List.Forall₂ (Knows T L') p.2 [.ptr o]) ∧ m' = m := by
  refine .next (flows_emitExtract (u := .ptr o) hx fun _ => rfl) fun object L1 hsub1 hobject => ?_
  refine .next (flows_emitExtract (u := .ptr ⟨.object g .global, 0⟩) (hx.mono hsub1) fun _ => rfl)
    fun itable L2 hsub2 hitable => ?_
  refine .getProgram (.after quiet_interfaceIndex fun _ j' _ hrun _ => ?_)
  obtain rfl : j = j' := by
    have := (interfaceIndex_ok hrun).1
    omega
  have hentry := flows_entry (k := 0) htypes h.interface h.object h.row rfl (by omega)
    (by simp [h.count]) hitable
  have hpair := hentry.next (y := fun y => pure (y, [object])) (R := fun p L' m' =>
      (Knows T L' p.1 _ ∧ List.Forall₂ (Knows T L') p.2 [.ptr o]) ∧ m' = m) fun y L3 hsub3 hy =>
    .pure ⟨⟨hy, .cons ((hobject.mono hsub2).mono hsub3) .nil⟩, rfl⟩
  simp only [bind_assoc, ← List.head?_eq_getElem?] at hpair
  exact hpair

/-- The drop function is looked up and called. -/
theorem calls_dropThroughTable (htypes : T.Typed) (h : TableIn T m e g j drop d table vs)
    (hI : T.env.program.interfaceId I = j) (hx : Knows T L x (interfacePair o g)) :
    Calls T L m (dropThroughTable x I) drop [.ptr o] m := by
  rw [dropThroughTable_eq]
  exact ((flows_dropEntry htypes h hI hx).mono fun p L' m' _ hq =>
    ⟨⟨_, _, hq.1.1⟩, hq.1.2, hq.2⟩).calls

/-- A method is called: the object takes the place of the reference. -/
def callingMethod (i : Nat) (xs : List Operand) (receiver method : Int)
    (signature : Option Callee) : Build Result := do
  let ref ← require xs[receiver.toNat]?
  let m ← loadMethod i ref method
  let object ← emitExtract ref 0
  let x ← emitCall m (xs.set receiver.toNat object)
  return some ⟨x, (← signatureOf signature).result⟩

instance {xs : List Operand} {receiver method : Int} :
    Steady (callingMethod j xs receiver method signature) := by
  unfold callingMethod
  infer_instance

theorem calls_callingMethod {k receiver pos : Nat} {xs : List Operand} {us : List Value}
    (htypes : T.Typed) (h : TableIn T m e g j drop d table vs)
    (hk : vs[k]? = some (functionAt T.final.module pos)) (hlow : k + 1 < 2 ^ 31)
    (hxs : List.Forall₂ (Knows T L) xs us) (hreceiver : us[receiver]? = some (interfacePair o g)) :
    Calls T L m (callingMethod j xs receiver k signature) pos (us.set receiver (.ptr o)) m := by
  have hmethod : Flows T L m (do
      let ref ← require xs[receiver]?
      let method ← loadMethod j ref k
      let object ← emitExtract ref 0
      return (method, xs.set receiver object)) fun p L' m' =>
        (∃ name offset, Knows T L' p.1 (.ptr ⟨.function pos name, offset⟩)) ∧
          List.Forall₂ (Knows T L') p.2 (us.set receiver (.ptr o)) ∧ m' = m := by
    refine .require fun ref href => ?_
    obtain ⟨v, hv, href⟩ := getElem?_forall₂ hxs href
    obtain rfl : interfacePair o g = v := Option.some.inj (hreceiver.symm.trans hv)
    refine .next (flows_loadMethod htypes h hk hlow href) fun method L1 hsub1 hmethod => ?_
    refine .next (flows_emitExtract (u := .ptr o) (href.mono hsub1) fun _ => rfl)
      fun object L2 hsub2 hobject => .pure ⟨⟨_, _, hmethod.mono hsub2⟩, ?_, rfl⟩
    exact forall₂_set (hxs.imp fun _ _ h => (h.mono hsub1).mono hsub2) hobject
  have hcalls := hmethod.calls (y := fun x => do
    return (some ⟨x, (← signatureOf signature).result⟩ : Result))
  simp only [bind_assoc, pure_bind] at hcalls
  exact hcalls

end Table

instance : Steady (dropThroughTable x I) := .of [x]
instance : Steady (countPtr x r) := .of [x]
instance {delta : Int} : Steady (adjustCount x r delta) := .of [x]

/-! ## Counting down -/

/-- A count is taken down and compared with zero. -/
def lastReference (x : Operand) (r : Reference) : Build Operand := do
  let count ← adjustCount x r (-1)
  emitCompare .eq count (.i64 0)

instance [Handed U x] : Orderly U (lastReference x r) := by
  unfold lastReference
  infer_instance

instance : Steady (lastReference x r) := .of [x]

/-- The count of an object is at its address. -/
theorem flows_header (htypes : T.Typed) (hx : Knows T L x (.ptr o)) :
    Flows T L m (do
      let header ← emitBitcast x (.ptr controlBlockType)
      emitGep controlBlockType header [.i32 0, .i32 0])
      (fun y L' m' => Knows T L' y (.ptr o) ∧ m' = m) := by
  obtain ⟨name, hname⟩ := htypes.header
  have hexpand : controlBlockType.expand T.final.module.types = .struct name [.i64] :=
    expand_defined hname (by simp [Interp.IsCell])
  refine .next (flows_emitBitcast hx) fun header L1 _ hheader => ?_
  refine flows_emitGep hheader.knows (.cons knows_zero (.cons knows_zero .nil)) ?_
  rw [hexpand]
  change Except.ok (⟨o.base, o.offset + 0 * 8 + 0⟩ : Pointer) = .ok o
  rw [Int64.zero_mul, Int64.add_zero, Int64.add_zero]

/-- The address of the count of an object behind an interface is that of the object. -/
theorem flows_countPtr (hr : r.referend = .interface I) (htypes : T.Typed)
    (hx : Knows T L x (.agg (.ptr o :: vs))) :
    Flows T L m (countPtr x r) (fun y L' m' => Knows T L' y (.ptr o) ∧ m' = m) := by
  unfold countPtr
  rw [hr]
  exact .next (flows_emitExtract (u := .ptr o) hx fun _ => rfl) fun object L1 _ hobject =>
    flows_header htypes hobject

theorem flows_adjustCount {n : Int64} {delta : Int}
    (hptr : Flows T L m (countPtr x r) fun y L' m' => Knows T L' y (.ptr o) ∧ m' = m)
    (hload : Interp.load .i64 o m = .ok (.int n) m)
    (hstore : Interp.store .i64 (.int (n + .ofInt delta)) o m = .ok () m') :
    Flows T L m (adjustCount x r delta)
      (fun y L' m'' => Gives T L' y (.int (n + .ofInt delta)) .i64 ∧ m'' = m') := by
  unfold adjustCount
  dsimp only
  refine .ite (fun _ => .violation) fun _ => ?_
  refine .next hptr fun address L1 _ haddress => ?_
  refine .next (flows_emitLoad (t := .i64) haddress hload) fun count L2 hsub2 hcount => ?_
  have hadd : Interp.wordOp .add = some fun a b => .ok (a + b) := rfl
  refine .next (flows_emitBin hadd hcount (knows_i64 delta) rfl) fun newCount L3 hsub3 hnew => ?_
  exact (flows_emitStore (by rw [hnew.type]; simp) hnew.knows
    ((haddress.mono hsub2).mono hsub3) (by rw [hnew.type]; exact hstore)).bind
    fun _ L4 m4 hsub4 hq => .pure ⟨hnew.mono hsub4, hq⟩

theorem flows_lastReference {n : Int64} (hr : r.referend = .interface I) (htypes : T.Typed)
    (hx : Knows T L x (interfacePair o g)) (hload : Interp.load .i64 o m = .ok (.int n) m)
    (hstore : Interp.store .i64 (.int (n - 1)) o m = .ok () m') :
    Flows T L m (lastReference x r)
      (fun z L' m'' => Knows T L' z (Interp.truth (n - 1 == 0)) ∧ m'' = m') := by
  rw [Int64.sub_eq_add_neg] at hstore ⊢
  have hcount : Flows T L m (adjustCount x r (-1))
      (fun y L' m'' => Gives T L' y (.int (n + -1)) .i64 ∧ m'' = m') :=
    flows_adjustCount (flows_countPtr hr htypes hx) hload hstore
  refine hcount.bind fun y L1 m1 _ hq => ?_
  obtain ⟨hy, rfl⟩ := hq
  have hzero : Knows T L1 (.i64 0) (.int 0) := knows_i64 0
  exact (flows_emitCompare hy hzero).mono fun _ _ _ _ hq => ⟨hq.1.knows, hq.2⟩

/-! ## Where references are made and used -/

/-- The value of an expression, where one is needed. -/
def valueOf (e : Expr) : Build Held := lower e >>= use

def valuesOf (es : List Expr) : Build (List Operand) := lowerExprs es >>= useAll

instance {d : Expr} : Orderly U (valueOf d) where
  emits env s h s' f hp hopen hrun := by
    obtain ⟨r, s1, h1, h2⟩ := bind_ok hrun
    obtain ⟨rfl, rfl⟩ := use_ok h2
    obtain ⟨f', hg, hopen'⟩ := lowers_arriving (U := U) hp hopen h1
    exact ⟨f', hg, hopen' rfl⟩

instance {es : List Expr} : Orderly U (valuesOf es) :=
  ⟨(lowerExprs_lowers U es).bind (fun _ => useAll_uses) fun _ => Orderly.emits⟩

/-- An upcast makes a reference of the value of its source. -/
theorem Stands.upcast {r : Result}
    (h : Stands T F [] (lowerExpr (.upcast source type (some S) (some I))) s f r s' f') :
    ∃ x ownership s1 f1, valueOf source T.env s = .ok x s1 ∧
      Stands T F [x.value] (upcasting x.value ownership (some S) (some I)) s1 f1 r s' f' := by
  have hok := h.ok
  rw [lowerExpr] at hok
  obtain ⟨t, _, h1, hok⟩ := bind_ok hok
  obtain ⟨rfl, rfl⟩ := require_ok h1
  dsimp only at hok
  split at hok
  · obtain ⟨_, _, -, hok⟩ := bind_ok hok
    obtain ⟨_, _, -, hok⟩ := bind_ok hok
    exact absurd hok refused_ne_ok
  · have hrest : Stands T F [] (valueOf source >>= fun x =>
        upcasting x.value t.ownership (some S) (some I)) s f r s' f' := by
      refine { h with ok := ?_ }
      rw [valueOf, bind_assoc]
      exact hok
    obtain ⟨x, s1, f1, hrun, hS⟩ := hrest.later Orderly.emits
    exact ⟨x, t.ownership, s1, f1, hrun, by simpa using hS⟩

/-- A call through an interface goes on with the values of its arguments. -/
theorem Stands.interfaceCall {args : List Expr} {receiver method : Int}
    {r : Result}
    (h : Stands T F [] (lowerExpr (.interfaceCall args receiver (some I) method signature)) s f r
      s' f') :
    ∃ j xs s1 f1, T.env.program.interfaceId I = (j : Nat) ∧ 0 ≤ receiver ∧
      valuesOf args T.env s = .ok xs s1 ∧
      Stands T F xs (callingMethod j xs receiver method signature) s1 f1 r s' f' := by
  have hok := h.ok
  rw [lowerExpr] at hok
  obtain ⟨_, hI, hok⟩ := require_then hok
  obtain rfl := Option.some.inj hI
  obtain ⟨j, _, h1, hok⟩ := bind_ok hok
  obtain ⟨hj, -, rfl⟩ := interfaceIndex_ok h1
  dsimp only at hok
  split at hok
  · exact absurd hok refused_ne_ok
  · next hrange =>
    have hrest : Stands T F [] (valuesOf args >>= fun xs =>
        callingMethod j xs receiver method signature) s f r s' f' := by
      refine { h with ok := ?_ }
      rw [valuesOf, bind_assoc]
      exact hok
    obtain ⟨xs, s1, f1, hrun, hS⟩ := hrest.later Orderly.emits
    exact ⟨j, xs, s1, f1, hj, by omega, hrun, by simpa using hS⟩

/-- Releasing a value is written behind the code of the value. -/
theorem Stands.discarded {r : Result}
    (h : Stands T F [] (lowerExpr (.discard source type)) s f r s' f') :
    ∃ x s1 f1 s2 f2, valueOf source T.env s = .ok x s1 ∧
      Stands T F [x.value] (Lowering.discard ⟨x.value, type⟩) s1 f1 () s2 f2 := by
  have hrest : Stands T F [] (valueOf source >>= fun x => do
      Lowering.discard ⟨x.value, type⟩
      return some Held.void) s f r s' f' := by
    refine { h with ok := ?_ }
    have hok := h.ok
    rw [lowerExpr] at hok
    rw [valueOf, bind_assoc]
    exact hok
  obtain ⟨x, s1, f1, hrun, hS⟩ := hrest.later Orderly.emits
  obtain ⟨u, s2, hrun1, hrun2⟩ := bind_ok hS.ok
  obtain ⟨f2, hx2, hopen2⟩ := Steady.extends_of_ok hS.placed hS.isOpen hrun1
  exact ⟨x, s1, f1, s2, f2, hrun, by simpa using hS.first hx2 hopen2 hrun1 hrun2⟩

/-- Where a shared reference through an interface is released, its count is taken
down, and a block of its own is for the case that it comes to zero. -/
theorem Stands.discard {u : Unit}
    (h : Stands T F [x] (discard ⟨x, some ⟨.share, .yonder, .interface I⟩⟩) s f u s' f') :
    ∃ zero s1 f1 s2 f2 s3 f3,
      Stands T F [x] (lastReference x ⟨.share, .yonder, .interface I⟩) s f zero s1 f1 ∧
      (∀ C : Call, C.body = F →
        C.body.term? s1.block = some (.condBr zero (.block s2.block) (.block s'.block))) ∧
      f2.code s2.block = [] ∧ Stands T F [x] (dropThroughTable x I) s2 f2 () s3 f3 := by
  have hrest : Stands T F [x] (lastReference x ⟨.share, .yonder, .interface I⟩ >>= fun zero =>
      Lowering.guarded "drop" "dropcont" zero (dropThroughTable x I)) s f u s' f' := by
    refine { h with ok := ?_ }
    rw [lastReference, bind_assoc]
    exact h.ok
  obtain ⟨zero, s1, hrun1, hrun2⟩ := bind_ok hrest.ok
  obtain ⟨f1, hg, hopen1⟩ :=
    Orderly.emits (U := [x]) hrest.placed hrest.isOpen hrun1
  have hsteady : Steady (Lowering.guarded "drop" "dropcont" zero (dropThroughTable x I)) :=
    .of [zero, x]
  have hfirst := hrest.first hg.toExtends hopen1 hrun1 hrun2
  obtain ⟨s2, f2, s3, f3, hends, hempty, hdrop⟩ :=
    (hrest.second hg hopen1 hrun2).guarded (by simp)
  exact ⟨zero, s1, f1, s2, f2, s3, f3, hfirst, hends, hempty, hdrop.mono (by simp)⟩

end Tenure.Lowering

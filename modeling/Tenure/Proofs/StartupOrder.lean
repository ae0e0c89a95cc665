import Tenure.Proofs.Imprints

/-!
# Starting a machine in any order

The initial values of the globals are stored once all globals exist, one after the other.  They
may refer to each other in knots, but evaluating one only looks at where objects are
(`Outlined`), never into them, and storing it looks into its own object alone (`Local`).  So
the values can be stored in any order: two stores can trade places (`fillGlobal_comm`), and with
them any order becomes any other (`fillInOrder_perm`).
-/

namespace Tenure.Interp

open Ir (Ty Const)

variable {α β : Type} {m m' m0 m1 m2 : Memory} {id i j : Nat} {o : Object} {p : Pointer}
variable {code : Code} {order order' : List Nat}

/-! ## Looking at outlines -/

/-- A computation that changes nothing and looks at the outline of memory alone. -/
def Outlined (x : Access α) : Prop :=
  ∀ ⦃m a m1⦄, x m = .ok a m1 → m1 = m ∧ ∀ m' : Memory, m'.outline = m.outline → x m' = .ok a m'

theorem Outlined.pure {a : α} : Outlined (pure a : Access α) := by
  intro m b m1 h
  obtain ⟨rfl, rfl⟩ := Access.pure_ok h
  exact ⟨rfl, fun _ _ => rfl⟩

theorem Outlined.throw {e : Fault} : Outlined (throw e : Access α) := fun _ _ _ h => nomatch h

variable {x : Access α} {next : α → Access β} {v : Value} {gs : List Ir.Global}

theorem Outlined.bind (hx : Outlined x) (hnext : ∀ a, Outlined (next a)) :
    Outlined (x >>= next) := by
  intro m b m2 h
  obtain ⟨a, m1, h1, h2⟩ := Access.bind_ok h
  obtain ⟨rfl, hsame1⟩ := hx h1
  obtain ⟨rfl, hsame2⟩ := hnext a h2
  refine ⟨rfl, fun m' hm => ?_⟩
  rw [Access.bind_of_ok (hsame1 m' hm)]
  exact hsame2 m' hm

/-- What is looked up in the outline. -/
theorem Outlined.lookup {k : Memory → Access α} (hk : ∀ m, Outlined (k m))
    (houtline : ∀ m m' : Memory, m'.outline = m.outline → k m' = k m) : Outlined (get >>= k) := by
  intro m a m1 h
  obtain ⟨rfl, hsame⟩ := hk m h
  refine ⟨rfl, fun m' hm => ?_⟩
  change k m' m' = _
  rw [houtline m1 m' hm]
  exact hsame m' hm

theorem object_of_outline (h : m'.outline = m.outline) (id : Nat) :
    m'.objects[id]?.map Object.outline = m.objects[id]?.map Object.outline := by
  have hget := congrArg (fun n : Memory => n.objects[id]?) h
  simpa using hget

theorem outlined_checkAccess {bytes : Int64} : Outlined (checkAccess p bytes) := by
  unfold checkAccess
  split
  · next id region hbase =>
    refine .lookup (fun m => ?_) fun m m' hm => ?_
    · dsimp only
      split
      · exact .throw
      · split
        · split <;> exact .throw
        · split
          · exact .throw
          · exact .pure
    · have hstate : ∀ n : Memory, n.objects[id]?.map (fun o => (o.region, o.dead, o.size)) =
          (n.objects[id]?.map Object.outline).map fun o => (o.region, o.dead, o.size) := fun n => by
        cases n.objects[id]? <;> rfl
      simp only [hstate, object_of_outline hm]
  · exact .throw

theorem outlined_addressOf (p : Pointer) : Outlined (addressOf p) := by
  unfold addressOf
  split
  · exact .throw
  · exact .pure
  · next id region hbase =>
    refine .lookup (fun m => ?_) fun m m' hm => ?_
    · split
      · exact .pure
      · exact .throw
    · have hstate : ∀ n : Memory, n.objects[id]?.map (·.address) =
          (n.objects[id]?.map Object.outline).map (·.address) := fun n => by
        cases n.objects[id]? <;> rfl
      simp only [hstate, object_of_outline hm]

theorem traversable_outlined : Traversable (fun _ => True) fun _ => Outlined :=
  ⟨fun _ => .pure, fun _ => .throw, .bind, fun _ => fun h => h, fun _ => outlined_checkAccess⟩

/-- The value of a constant depends on where objects are, and not on what they hold. -/
theorem outlined_evalConst (c : Const) : Outlined (evalConst code c) :=
  traversable_outlined.evalConst outlined_addressOf c

/-! ## Working on one object -/

/-- A computation that works on one object: it changes no other, and nothing else matters to it. -/
def Local (id : Nat) (x : Access α) : Prop :=
  ∀ ⦃m a m'⦄, x m = .ok a m' → m.Edited id m' ∧ ∀ n : Memory, n.objects[id]? = m.objects[id]? →
    ∃ n', x n = .ok a n' ∧ n'.objects[id]? = m'.objects[id]?

theorem Reads.local (h : Reads id x) : Local id x := by
  intro m a m' hx
  obtain ⟨rfl, hsame⟩ := h hx
  refine ⟨.refl id m', fun n hn => ⟨n, hsame n ?_, hn⟩⟩
  rw [hn]
  cases m'.objects[id]? with
  | none => exact .none
  | some o => exact .some (.refl o)

theorem Local.bind (hx : Local id x) (hnext : ∀ a, Local id (next a)) : Local id (x >>= next) := by
  intro m b m2 h
  obtain ⟨a, m1, h1, h2⟩ := Access.bind_ok h
  obtain ⟨hedited1, hsame1⟩ := hx h1
  obtain ⟨hedited2, hsame2⟩ := hnext a h2
  refine ⟨hedited1.trans hedited2, fun n hn => ?_⟩
  obtain ⟨n1, hn1, hobject1⟩ := hsame1 n hn
  obtain ⟨n2, hn2, hobject2⟩ := hsame2 n1 hobject1
  exact ⟨n2, (Access.bind_of_ok hn1).trans hn2, hobject2⟩

theorem local_storeScalar {t : Ty} (hp : p.Into id) : Local id (storeScalar t v p) := by
  intro m u m' h
  refine ⟨writes_storeScalar hp h, fun n hn => ?_⟩
  obtain ⟨bytes, id', region, o, hsize, hbase, ho, hdead, hlow, hhigh, rfl⟩ := storeScalar_ok h
  obtain rfl : id = id' := by
    obtain ⟨region', hbase'⟩ := hp
    rw [hbase] at hbase'
    injection hbase' with h1
    exact h1.symm
  have hn' := hn.trans ho
  exact ⟨_, storeScalar_of hsize hbase hn' hdead hlow hhigh,
    (Memory.getElem?_put_self hn').trans (Memory.getElem?_put_self ho).symm⟩

theorem traversable_local : Traversable (·.Into id) fun _ => Local id :=
  ⟨fun _ => Reads.pure.local, fun _ => Reads.throw.local, .bind, fun n h => h.shift n,
    fun h => (reads_checkAccess h).local⟩

theorem local_store (t : Ty) : p.Into id → Local id (store t v p) :=
  traversable_local.store (fun _ _ _ => local_storeScalar) t

theorem Memory.Edited.outline_eq (h : m.Edited id m') : m'.outline = m.outline := by
  refine ext_getElem? h.address h.heap fun k => ?_
  rw [getElem?_outline, getElem?_outline]
  by_cases hk : k = id
  · subst hk
    cases ho : m.objects[k]? with
    | none =>
      rw [Array.getElem?_eq_none_iff, ← h.size, ← Array.getElem?_eq_none_iff] at ho
      rw [ho]
    | some o =>
      obtain ⟨cells, hcells⟩ := h.object o ho
      rw [hcells]
      rfl
  · rw [h.others k hk]

/-! ## Orders -/

/-- The object of a global. -/
def globalObject (i : Nat) : Pointer := { base := .object i .global }

/-- Stores the initial value of one global. -/
def fillGlobal (code : Code) (i : Nat) : Access Unit :=
  match code.globals[i]? with
  | none => pure ()
  | some g =>
    match g.init with
    | none => pure ()
    | some c => do
      let v ← evalConst code c
      store (g.content.expand code.types) v (globalObject i)

/-- Stores the initial values of globals in an order. -/
def fillInOrder (code : Code) (order : List Nat) : Access Unit := order.forM (fillGlobal code)

theorem fillInOrder_cons : fillInOrder code (i :: order) =
    (do fillGlobal code i; fillInOrder code order) := List.forM_cons ..

/-- A new machine has its globals filled in the order that they stand in. -/
theorem fillGlobals_eq (h : code.globals.toList.drop i = gs) :
    Machine.fillGlobals code i gs = fillInOrder code (List.range' i gs.length) := by
  induction gs generalizing i with
  | nil => rfl
  | cons g gs ih =>
    have hg : code.globals[i]? = some g := by
      rw [← Array.getElem?_toList, ← List.head?_drop, h]
      rfl
    have hgs : code.globals.toList.drop (i + 1) = gs := by
      rw [← List.tail_drop, h]
      rfl
    rw [List.length_cons, List.range'_succ, fillInOrder_cons, ← ih hgs, Machine.fillGlobals,
      fillGlobal, hg]
    cases hinit : g.init with
    | none => simp only [hinit, pure_bind]
    | some c => simp only [hinit, bind_assoc, globalObject]

/-- Filling a global is work on its own object. -/
theorem fillGlobal_local (h : fillGlobal code i m = .ok () m') : m.Edited i m' ∧
    ∀ n : Memory, n.outline = m.outline → n.objects[i]? = m.objects[i]? →
      ∃ n', fillGlobal code i n = .ok () n' ∧ n'.objects[i]? = m'.objects[i]? := by
  unfold fillGlobal at h ⊢
  cases hg : code.globals[i]? with
  | none =>
    simp only [hg] at h
    obtain ⟨-, rfl⟩ := Access.pure_ok h
    exact ⟨.refl i m, fun n _ hn => ⟨n, rfl, hn⟩⟩
  | some g =>
    simp only [hg] at h ⊢
    cases hinit : g.init with
    | none =>
      simp only [hinit] at h
      obtain ⟨-, rfl⟩ := Access.pure_ok h
      exact ⟨.refl i m, fun n _ hn => ⟨n, rfl, hn⟩⟩
    | some c =>
      simp only [hinit] at h ⊢
      obtain ⟨v, m1, heval, hstore⟩ := Access.bind_ok h
      obtain ⟨rfl, hsame⟩ := outlined_evalConst c heval
      obtain ⟨hedited, hlocal⟩ := local_store _ ⟨.global, rfl⟩ hstore
      refine ⟨hedited, fun n houtline hn => ?_⟩
      obtain ⟨n', hn', hobject⟩ := hlocal n hn
      exact ⟨n', (Access.bind_of_ok (hsame n houtline)).trans hn', hobject⟩

/-- Two globals can be filled the other way round. -/
theorem fillGlobal_comm (h1 : fillGlobal code i m = .ok () m1)
    (h2 : fillGlobal code j m1 = .ok () m2) :
    ∃ m', fillGlobal code j m = .ok () m' ∧ fillGlobal code i m' = .ok () m2 := by
  by_cases hij : j = i
  · subst hij
    exact ⟨m1, h1, h2⟩
  obtain ⟨hedited1, hlocal1⟩ := fillGlobal_local h1
  obtain ⟨hedited2, hlocal2⟩ := fillGlobal_local h2
  obtain ⟨m1', h1', hobject1⟩ :=
    hlocal2 m hedited1.outline_eq.symm (hedited1.others j hij).symm
  obtain ⟨hedited1', -⟩ := fillGlobal_local h1'
  obtain ⟨m2', h2', hobject2⟩ :=
    hlocal1 m1' hedited1'.outline_eq (hedited1'.others i (Ne.symm hij))
  obtain ⟨hedited2', -⟩ := fillGlobal_local h2'
  refine ⟨m1', h1', ?_⟩
  obtain rfl : m2' = m2 := by
    refine Memory.ext_getElem? ?_ ?_ fun k => ?_
    · rw [hedited2'.address, hedited1'.address, hedited2.address, hedited1.address]
    · rw [hedited2'.heap, hedited1'.heap, hedited2.heap, hedited1.heap]
    · by_cases hki : k = i
      · rw [hki, hobject2, hedited2.others i (Ne.symm hij)]
      · rw [hedited2'.others k hki]
        by_cases hkj : k = j
        · rw [hkj, hobject1]
        · rw [hedited1'.others k hkj, hedited2.others k hkj, hedited1.others k hki]
  exact h2'

/-- Every order leaves the same memory. -/
theorem fillInOrder_perm (hperm : order.Perm order') (h : fillInOrder code order m = .ok () m') :
    fillInOrder code order' m = .ok () m' := by
  induction hperm generalizing m with
  | nil => exact h
  | cons i _ ih =>
    rw [fillInOrder_cons] at h ⊢
    obtain ⟨_, m1, h1, h2⟩ := Access.bind_ok h
    exact (Access.bind_of_ok h1).trans (ih h2)
  | swap i j order =>
    rw [fillInOrder_cons, fillInOrder_cons] at h ⊢
    obtain ⟨_, m1, h1, h⟩ := Access.bind_ok h
    obtain ⟨_, m2, h2, h⟩ := Access.bind_ok h
    obtain ⟨m1', h1', h2'⟩ := fillGlobal_comm h1 h2
    exact (Access.bind_of_ok h1').trans ((Access.bind_of_ok h2').trans h)
  | trans _ _ ih1 ih2 => exact ih2 (ih1 h)

/-- Filling other globals leaves an object alone. -/
theorem fillInOrder_others (h : fillInOrder code order m = .ok () m') (hi : i ∉ order) :
    m'.objects[i]? = m.objects[i]? := by
  induction order generalizing m with
  | nil =>
    obtain ⟨-, rfl⟩ := Access.pure_ok h
    rfl
  | cons j order ih =>
    rw [List.mem_cons, not_or] at hi
    rw [fillInOrder_cons] at h
    obtain ⟨_, m1, h1, h⟩ := Access.bind_ok h
    rw [ih h hi.2, (fillGlobal_local h1).1.others i hi.1]

/-! ## New machines -/

/-- A new machine's memory: the globals are created, and then filled one after the other. -/
theorem new_of_fills (hcreated : Machine.createGlobals code code.globals.toList {} = .ok () m0)
    (h : fillInOrder code (List.range code.globals.size) m0 = .ok () m) (output : Output) :
    Machine.new code output = .ok { code, memory := m, output } := by
  have hfill : Machine.fillGlobals code 0 code.globals.toList m0 = .ok () m := by
    rw [fillGlobals_eq List.drop_zero, Array.length_toList, ← List.range_eq_range', h]
  have hsetup : (do
      Machine.createGlobals code code.globals.toList
      Machine.fillGlobals code 0 code.globals.toList) {} = .ok () m :=
    (Access.bind_of_ok hcreated).trans hfill
  simp only [Machine.new, EStateM.run]
  rw [hsetup]

/-- A global is as it was created, if it has no initial value, and as if that alone had been
stored, if it has one. -/
def Settled (code : Code) (m0 m : Memory) (i : Nat) (g : Ir.Global) : Prop :=
  match g.init with
  | none => m.objects[i]? = m0.objects[i]?
  | some c => ∃ v m1, evalConst code c m0 = .ok v m0 ∧
      store (g.content.expand code.types) v (globalObject i) m0 = .ok () m1 ∧
      m.objects[i]? = m1.objects[i]?

theorem settled_of_fills {g : Ir.Global} (hg : code.globals[i]? = some g)
    (h : fillInOrder code (List.range code.globals.size) m0 = .ok () m) :
    Settled code m0 m i g := by
  -- the global could have been the first to be filled
  have hi : i ∈ List.range code.globals.size :=
    List.mem_range.mpr (Array.getElem?_eq_some_iff.mp hg).1
  have hfirst := fillInOrder_perm (List.perm_cons_erase hi) h
  rw [fillInOrder_cons] at hfirst
  obtain ⟨_, m1, hm1, hrest⟩ := Access.bind_ok hfirst
  have hothers := fillInOrder_others hrest (List.nodup_range.not_mem_erase)
  unfold Settled
  simp only [fillGlobal, hg] at hm1
  cases hinit : g.init with
  | none =>
    simp only [hinit] at hm1
    obtain ⟨-, rfl⟩ := Access.pure_ok hm1
    exact hothers
  | some c =>
    simp only [hinit] at hm1
    obtain ⟨v, m2, heval, hstore⟩ := Access.bind_ok hm1
    obtain ⟨rfl, -⟩ := outlined_evalConst c heval
    exact ⟨v, m1, heval, hstore, hothers⟩

/-- Every initial value has the shape of the global that it is for. -/
structure Matching (code : Code) (m0 : Memory) : Prop where
  laid : ∀ g ∈ code.globals, ∀ c, g.init = some c → LaidOut (g.content.expand code.types)
  shaped : ∀ g ∈ code.globals, ∀ c, g.init = some c →
    ∃ v, evalConst code c m0 = .ok v m0 ∧ HasShape (g.content.expand code.types) v

/-- A global's object is alive and as big as the type of the global. -/
theorem createGlobals_ok (h : Machine.createGlobals code gs m = .ok () m') :
    ∃ os, m'.objects.toList = m.objects.toList ++ os ∧ List.Forall₂ (fun g o =>
      sizeOf (g.content.expand code.types) = .ok o.size ∧ o.dead = false) gs os := by
  induction gs generalizing m with
  | nil =>
    obtain ⟨-, rfl⟩ := Access.pure_ok h
    exact ⟨[], (List.append_nil _).symm, .nil⟩
  | cons g gs ih =>
    obtain ⟨bytes, m1, h1, h⟩ := Access.bind_ok h
    obtain ⟨hbytes, rfl⟩ := Access.check_ok h1
    obtain ⟨_, m2, h2, h⟩ := Access.bind_ok h
    obtain rfl : m.add .global bytes = m2 := by
      injection h2
    obtain ⟨os, hos, hall⟩ := ih h
    refine ⟨{ region := .global, address := m.nextAddress, size := bytes } :: os, ?_,
      .cons ⟨hbytes, rfl⟩ hall⟩
    rw [hos, Memory.add, Array.toList_push, List.append_assoc]
    rfl

section Filling

variable {g : Ir.Global} {c : Const}
variable (hcreated : Machine.createGlobals code code.globals.toList {} = .ok () m0)
variable (hg : code.globals[i]? = some g)
include hcreated hg

/-- The object of a global is there, whatever has been filled. -/
theorem global_at (hlaid : LaidOut (g.content.expand code.types))
    (houtline : m.outline = m0.outline) : ∃ o, (globalObject i).At m i 0 o ∧
      ((0 + extent (g.content.expand code.types) : Nat) : Int) ≤ o.size.toInt := by
  obtain ⟨os, hos, hall⟩ := createGlobals_ok hcreated
  obtain ⟨o0, ho0, hsize, hdead⟩ : ∃ o, m0.objects[i]? = some o ∧
      sizeOf (g.content.expand code.types) = .ok o.size ∧ o.dead = false := by
    obtain ⟨hi, hgi⟩ := List.getElem?_eq_some_iff.mp ((Array.getElem?_toList ..).trans hg)
    have hi' := hall.length_eq ▸ hi
    have hget := hall.get hi hi'
    simp only [List.get_eq_getElem, hgi] at hget
    refine ⟨os[i], ?_, hget⟩
    rw [← Array.getElem?_toList, hos]
    exact List.getElem?_eq_getElem hi'
  have hsame := object_of_outline houtline i
  rw [ho0] at hsame
  obtain ⟨o, ho, houtline⟩ := Option.map_eq_some_iff.mp hsame
  have hdead' : o.dead = false := (congrArg Object.dead houtline).trans hdead
  have hsize' : o.size = .ofNat (extent (g.content.expand code.types)) :=
    (congrArg Object.size houtline).trans (Except.ok.inj (hsize.symm.trans hlaid.sizeOf))
  refine ⟨o, ⟨⟨_, rfl⟩, rfl, ho, hdead'⟩, ?_⟩
  have hsmall := hlaid.small
  rw [hsize', Int64.toInt_ofNat_of_lt (by omega), Nat.zero_add]

/-- An initial value is stored in its object and can be loaded from there. -/
theorem Matching.stored (h : Matching code m0) (hinit : g.init = some c)
    (houtline : m.outline = m0.outline) : ∃ v m', evalConst code c m0 = .ok v m0 ∧
      fillGlobal code i m = .ok () m' ∧ ∀ n : Memory, n.objects[i]? = m'.objects[i]? →
        load (g.content.expand code.types) (globalObject i) n = .ok v n := by
  have hmem := Array.mem_of_getElem? hg
  have hlaid := h.laid g hmem c hinit
  obtain ⟨v, heval, hshape⟩ := h.shaped g hmem c hinit
  obtain ⟨o, hat, hfit⟩ := global_at hcreated hg hlaid houtline
  obtain ⟨m', cells, hstore, ho, -, himprint⟩ := stores_store hlaid hat hfit hshape
  refine ⟨v, m', heval, ?_, fun n hn => ?_⟩
  · simp only [fillGlobal, hg, hinit]
    exact (Access.bind_of_ok ((outlined_evalConst c heval).2 m houtline)).trans hstore
  · exact (load_iff_imprint hlaid { hat with object := hn.trans ho } hfit).mpr himprint

end Filling

theorem Matching.fills (h : Matching code m0)
    (hcreated : Machine.createGlobals code code.globals.toList {} = .ok () m0) (order : List Nat)
    (houtline : m.outline = m0.outline) : ∃ m', fillInOrder code order m = .ok () m' := by
  induction order generalizing m with
  | nil => exact ⟨m, rfl⟩
  | cons i order ih =>
    have hfirst : ∃ m1, fillGlobal code i m = .ok () m1 := by
      cases hg : code.globals[i]? with
      | none => exact ⟨m, by simp only [fillGlobal, hg]; rfl⟩
      | some g =>
        cases hinit : g.init with
        | none => exact ⟨m, by simp only [fillGlobal, hg, hinit]; rfl⟩
        | some c =>
          obtain ⟨v, m1, -, hm1, -⟩ := h.stored hcreated hg hinit houtline
          exact ⟨m1, hm1⟩
    obtain ⟨m1, hm1⟩ := hfirst
    obtain ⟨m', hm'⟩ := ih ((fillGlobal_local hm1).1.outline_eq.trans houtline)
    exact ⟨m', by rw [fillInOrder_cons]; exact (Access.bind_of_ok hm1).trans hm'⟩

/-- Once the globals exist, their initial values can be stored in any order: if one order works
then every order does, all of them leave the memory that the new machine has, and in it each
global is as if its own initial value alone had been stored.  Where the values match the types,
every order does work, and each global reads as its initial value. -/
theorem startup_ignores_order {code : Code} {m0 : Memory}
    (hcreated : Machine.createGlobals code code.globals.toList {} = .ok () m0) :
    (∀ order m, order.Perm (List.range code.globals.size) →
      fillInOrder code order m0 = .ok () m →
        (∀ output, Machine.new code output = .ok { code, memory := m, output }) ∧
        (∀ order', order'.Perm (List.range code.globals.size) →
          fillInOrder code order' m0 = .ok () m) ∧
        ∀ i g, code.globals[i]? = some g → Settled code m0 m i g) ∧
    (Matching code m0 → ∃ m, fillInOrder code (List.range code.globals.size) m0 = .ok () m ∧
      ∀ i g c, code.globals[i]? = some g → g.init = some c →
        ∃ v, evalConst code c m0 = .ok v m0 ∧
          load (g.content.expand code.types) (globalObject i) m = .ok v m) := by
  constructor
  · intro order m hperm hfill
    have hm := fillInOrder_perm hperm hfill
    refine ⟨new_of_fills hcreated hm, ?_, ?_⟩
    · intro order' hperm'
      exact fillInOrder_perm hperm'.symm hm
    · intro i g hg
      exact settled_of_fills hg hm
  · intro h
    obtain ⟨m, hm⟩ := h.fills hcreated (List.range code.globals.size) rfl
    refine ⟨m, hm, ?_⟩
    intro i g c hg hinit
    obtain ⟨v, m', heval, hfill, hload⟩ := h.stored hcreated hg hinit rfl
    have hsettled := settled_of_fills hg hm
    simp only [Settled, hinit] at hsettled
    obtain ⟨v', m1, heval', hstore, hobject⟩ := hsettled
    obtain rfl : v' = v := by
      injection heval'.symm.trans heval
    simp only [fillGlobal, hg, hinit] at hfill
    obtain rfl : m1 = m' := by
      injection ((Access.bind_of_ok heval).trans hstore).symm.trans hfill
    exact ⟨v', heval, hload m hobject⟩

/-! ## A knot of globals -/

namespace Knot

def listType : Ty := .array 2 (.ptr .i8)

def pairType : Ty := .struct "" [.ptr (.ptr .i8), .i64]

/-- The address of the second item of the list, and the number that the list is at. -/
def pairInit : Const := .struct pairType
  [.gep (.ptr (.ptr .i8)) listType (.global 1 listType) [.i64 0, .i64 1],
    .ptrToInt (.global 1 listType) .i64]

/-- The pair, and a function. -/
def listInit : Const :=
  .array listType [.bitcast (.global 0 pairType) (.ptr .i8), .bitcast (.func 0 .void) (.ptr .i8)]

/-- Two globals that refer to each other. -/
def knot : Code where
  globals := #[{ name := "pair", content := pairType, init := some pairInit },
    { name := "list", content := listType, init := some listInit }]

/-- The memory once the globals exist. -/
def memory : Memory where
  objects := #[{ region := .global, address := 0x1000, size := 16 },
    { region := .global, address := 0x1020, size := 16 }]
  nextAddress := 0x1040

theorem globals_created : Machine.createGlobals knot knot.globals.toList {} = .ok () memory := rfl

theorem matching : Matching knot memory where
  laid g hg c _ := by
    rcases List.mem_pair.mp (Array.mem_toList_iff.mpr hg) with rfl | rfl
    · refine ⟨.struct "" (List.forall_mem_cons.mpr ⟨.ptr, List.forall_mem_singleton.mpr ?_⟩), ?_⟩
      · exact .int (by decide) (by decide)
      · decide
    · exact ⟨.array .ptr, by decide⟩
  shaped g hg c hc := by
    rcases List.mem_pair.mp (Array.mem_toList_iff.mpr hg) with rfl | rfl
    · obtain rfl := Option.some.inj hc
      exact ⟨_, rfl, trivial, trivial, trivial⟩
    · obtain rfl := Option.some.inj hc
      exact ⟨_, rfl, rfl, by decide, fun v _ => trivial⟩

end Knot

open Knot in
theorem startup_ignores_order_knot : ∃ M, Machine.new knot = .ok M ∧
    fillInOrder knot [0, 1] memory = .ok () M.memory ∧
    fillInOrder knot [1, 0] memory = .ok () M.memory ∧
    load pairType (globalObject 0) M.memory =
      .ok (.agg [.ptr ((globalObject 1).shift 8), .int 0x1020]) M.memory := by
  obtain ⟨hany, hmatching⟩ := startup_ignores_order globals_created
  obtain ⟨m, hfill, hloads⟩ := hmatching matching
  obtain ⟨hnew, horders, -⟩ := hany _ m (.refl _) hfill
  refine ⟨_, hnew {}, horders _ (.refl _), horders _ (.swap ..), ?_⟩
  obtain ⟨v, heval, hload⟩ := hloads 0 _ _ rfl rfl
  obtain rfl : Value.agg [.ptr ((globalObject 1).shift 8), .int 0x1020] = v := by
    injection (heval : evalConst knot pairInit memory = _)
  exact hload

end Tenure.Interp

import Tenure.Interp.Run
import Tenure.Proofs.Assembled
import Tenure.Proofs.Extents
import Tenure.Proofs.Outlines
import Tenure.Proofs.Storage
import Mathlib.Algebra.Group.Nat.Defs

/-!
# Method tables in memory

A method table is a row of pointers, all of one size, so the one of number `k`
stands eight times as many bytes behind the first.  A new machine stores the rows
entry after entry; an entry that is stored leaves those before it as they are, and
one whose offset does not fit into a word is not stored at all.  So each entry is
read back as it was written, in that memory and in any other that has the table as
the machine has made it (`load_row`).
-/

namespace Tenure.Interp

open Ir (Ty Const)

variable {m m' : Memory} {id : Nat} {ts : List Ty} {vs : List Value} {o : Object}
variable {k : Nat} {code : Code}

/-! ## Rows of pointers -/

/-- The offset of the pointer of a number in a row of pointers. -/
def rowOffset (k : Nat) : Int64 := .ofNat (8 * k)

theorem rowOffset_succ (k : Nat) : rowOffset k + 8 = rowOffset (k + 1) := by
  rw [rowOffset, rowOffset, Nat.mul_add, Int64.ofNat_add]
  rfl

theorem toInt_rowOffset (hk : 8 * k < 2 ^ 63) : (rowOffset k).toInt = 8 * k := by
  rw [rowOffset, Int64.toInt_ofNat_of_lt hk]
  omega

theorem alignTo_rowOffset (hk : 8 * k < 2 ^ 63) : alignTo (rowOffset k) 8 = .ok (rowOffset k) := by
  have halign : alignUp (8 * k) 8 = 8 * k := alignUp_eight_mul (.inr rfl) (by omega)
  have h := alignTo_of (n := 8 * k) (a := 8) ⟨by decide, by decide⟩ (by omega)
  rwa [halign] at h

/-- The row that would have to begin past the greatest word. -/
theorem alignTo_last (hk : 8 * k = 2 ^ 63) : ∃ n, alignTo (rowOffset k) 8 = .ok n ∧ n < 0 := by
  rw [rowOffset, hk]
  exact ⟨_, rfl, by decide⟩

/-- All of a number of types are those of pointers. -/
def Pointers (ts : List Ty) : Prop := ∀ t ∈ ts, ∃ u, t = .ptr u

variable {t : Ty} {v : Value} {region : Region} {u : Unit} {c : Const} {cs : List Const}
variable {M : Machine} {output : Output} {g : Nat} {global : Ir.Global}

theorem Pointers.tail (h : Pointers (t :: ts)) : Pointers ts :=
  fun u hu => h u (List.mem_cons_of_mem t hu)

theorem Pointers.head (h : Pointers (t :: ts)) : ∃ u, t = .ptr u := h t List.mem_cons_self

theorem Pointers.cells (h : Pointers ts) : ∀ t ∈ ts, IsCell t := by
  intro t ht
  obtain ⟨u, rfl⟩ := h t ht
  trivial

theorem Pointers.sized (h : Pointers ts) : ∀ t ∈ ts, Sized t := by
  intro t ht
  obtain ⟨u, rfl⟩ := h t ht
  exact .ptr

theorem fieldParts_pointers (hts : Pointers ts) {j : Nat} (ht : ts[k]? = some t) :
    (fieldParts (8 * j) ts)[k]? = some (8 * (j + k), t) := by
  induction ts generalizing j k with
  | nil => simp at ht
  | cons t' ts ih =>
    obtain ⟨u, rfl⟩ := hts.head
    have halign : alignUp (8 * j) 8 = 8 * j := alignUp_eight_mul (.inr rfl) (by omega)
    rw [fieldParts, grain, halign, extent, ← Nat.mul_succ]
    cases k with
    | zero => rw [List.getElem?_cons_zero, Option.some.inj ht, Nat.add_zero]
    | succ k =>
      rw [List.getElem?_cons_succ, ih hts.tail (by simpa using ht), Nat.succ_add_eq_add_succ]

/-- An index of 32 bits that is not too great. -/
theorem canonical_index (hk : k < 2 ^ 31) : canonical 32 (.ofInt k) = .ofNat k := by
  have hcast : Int64.ofInt k = Int64.ofNat k := rfl
  rw [canonical, if_neg (by decide), if_neg (by decide), hcast, ← Int64.toInt_inj,
    Int64.toInt_ofNat_of_lt (by omega), Int64.toInt_ofBitVec,
    BitVec.toInt_signExtend_of_le (by decide)]
  have hnat : (BitVec.setWidth 32 (Int64.ofNat k).toBitVec).toNat = k := by
    rw [BitVec.toNat_setWidth, Int64.toBitVec_ofNat', BitVec.toNat_ofNat,
      Nat.mod_eq_of_lt (by omega : k < 2 ^ 64), Nat.mod_eq_of_lt (by omega)]
  rw [BitVec.toInt_eq_toNat_of_lt (by omega), hnat]

/-- The address of an entry. -/
theorem elementAddress_row (hts : Pointers ts) (ht : ts[k]? = some t) (hk : k < 2 ^ 31)
    (name : String) (base : Base) :
    elementAddress (.struct name ts) ⟨base, 0⟩ [0, .ofNat k] = .ok ⟨base, rowOffset k⟩ := by
  have hpart : (parts (.struct name ts))[k]? = some (8 * (0 + k), t) :=
    fieldParts_pointers (j := 0) hts ht
  obtain ⟨u, rfl⟩ := hts t (List.mem_of_getElem? ht)
  rw [Nat.zero_add] at hpart
  refine elementAddress_zero (.struct _ hts.sized) ?_
  have hoffset : elementOffset (.struct name ts) (.ofNat 0) [.ofNat k] = _ :=
    elementOffset_part (.struct _ hts.sized) hpart (by rw [extent]; omega) (by omega) []
  rwa [Nat.zero_add] at hoffset

/-! ## Rows in memory -/

/-- An object that begins with a row of values, each in a cell of eight bytes. -/
structure Row (o : Object) (vs : List Value) : Prop where
  alive : o.dead = false
  low : ∀ k < vs.length, 8 * k < 2 ^ 63
  fits : ∀ k < vs.length, rowOffset k + 8 ≤ o.size
  cells : ∀ k v, vs[k]? = some v → o.cells[rowOffset k]? = some ⟨8, v⟩

/-- A row is read back. -/
theorem load_row {u : Ty} (ho : m.objects[id]? = some o) (hrow : Row o vs) (hk : vs[k]? = some v) :
    load (.ptr u) ⟨.object id region, rowOffset k⟩ m = .ok v m := by
  have hlt := (List.getElem?_eq_some_iff.mp hk).1
  have hsize : sizeOf (.ptr u) = .ok 8 := rfl
  refine loadScalar_of hsize rfl ho hrow.alive ?_ (hrow.fits k hlt) (hrow.cells k v hk)
  rw [Int64.le_iff_toInt_le, toInt_rowOffset (hrow.low k hlt)]
  show (0 : Int) ≤ 8 * k
  omega

/-- One more value is stored behind a row. -/
theorem Row.push (hrow : Row o vs) (hlow : 8 * vs.length < 2 ^ 63)
    (hfits : rowOffset vs.length + 8 ≤ o.size) :
    Row { o with cells := putCell (rowOffset vs.length) 8 v o.cells } (vs ++ [v]) where
  alive := hrow.alive
  low k hk := by
    simp at hk
    omega
  fits k hk := by
    rw [List.length_append, List.length_singleton] at hk
    rcases Nat.lt_or_eq_of_le (Nat.le_of_lt_succ hk) with hk | rfl
    · exact hrow.fits k hk
    · exact hfits
  cells k u hu := by
    by_cases hk : k < vs.length
    · rw [List.getElem?_append_left hk] at hu
      have hint := toInt_rowOffset (hrow.low k hk)
      have hlast := toInt_rowOffset hlow
      refine putCell_before (hrow.cells k u hu) (fun heq => ?_) fun hlt => ?_
      · rw [heq, hint] at hlast
        omega
      · -- the cell ends where the next one begins, at most at the new one
        rw [show rowOffset k + (⟨8, u⟩ : Cell).size = rowOffset (k + 1) from rowOffset_succ k,
          Int64.lt_iff_toInt_lt, hlast, toInt_rowOffset (by omega)] at hlt
        omega
    · obtain rfl : k = vs.length := by
        have := (List.getElem?_eq_some_iff.mp hu).1
        simp at this
        omega
      obtain rfl : v = u := by simpa using hu
      exact putCell_self

/-- Storing fields that are pointers makes a row longer. -/
theorem storeFields_row {news : List Value} (hts : Pointers ts) (hlen : news.length = ts.length)
    (hroom : 8 * vs.length ≤ 2 ^ 63) (ho : m.objects[id]? = some o) (hrow : Row o vs)
    (h : storeFields ts news (rowOffset vs.length) ⟨.object id region, 0⟩ m = .ok u m') :
    ∃ o', m'.objects[id]? = some o' ∧ Row o' (vs ++ news) := by
  induction ts generalizing vs news m o with
  | nil =>
    obtain rfl := List.eq_nil_of_length_eq_zero hlen
    rw [storeFields] at h
    obtain ⟨-, rfl⟩ := Access.pure_ok h
    exact ⟨o, ho, by rwa [List.append_nil]⟩
  | cons t ts ih =>
    obtain ⟨v, news, rfl⟩ := List.exists_cons_of_length_eq_add_one hlen
    obtain ⟨u, rfl⟩ := hts.head
    rw [storeFields] at h
    obtain ⟨start, _, h1, h⟩ := Access.bind_ok h
    obtain ⟨hstart, rfl⟩ := Access.check_ok h1
    change alignTo (rowOffset vs.length) 8 = .ok start at hstart
    obtain ⟨_, m1, h1, h⟩ := Access.bind_ok h
    obtain ⟨stop, _, h2, h⟩ := Access.bind_ok h
    obtain ⟨hstop, rfl⟩ := Access.check_ok h2
    change Except.ok (start + 8) = Except.ok stop at hstop
    obtain rfl := Except.ok.inj hstop
    change storeScalar (.ptr u) v _ m = .ok _ m1 at h1
    obtain ⟨bytes, id', region', o', hsize, hbase, ho', hdead, hpos, hhigh, rfl⟩ :=
      storeScalar_ok h1
    obtain rfl : 8 = bytes := Except.ok.inj hsize
    obtain rfl : id = id' := by
      injection hbase
    obtain rfl : o = o' := Option.some.inj (ho.symm.trans ho')
    have hzero : (Pointer.shift ⟨.object id region, 0⟩ start).offset = start := Int64.zero_add start
    rw [hzero] at hpos hhigh h
    have hlow : 8 * vs.length < 2 ^ 63 := by
      refine Nat.lt_of_le_of_ne hroom fun heq => ?_
      obtain ⟨n, hn, hneg⟩ := alignTo_last heq
      rw [hstart] at hn
      obtain rfl := Except.ok.inj hn
      exact absurd hpos (Int64.not_le.mpr hneg)
    obtain rfl : rowOffset vs.length = start := by
      rw [alignTo_rowOffset hlow] at hstart
      exact Except.ok.inj hstart
    have hpush := hrow.push (v := v) hlow hhigh
    rw [rowOffset_succ] at h
    have hroom' : 8 * (vs ++ [v]).length ≤ 2 ^ 63 := by simp; omega
    obtain ⟨o1, ho1, hrow1⟩ := ih hts.tail (by simpa using hlen)
      hroom' (Memory.getElem?_put_self ho) hpush (by simpa using h)
    exact ⟨o1, ho1, by simpa using hrow1⟩

/-! ## New machines -/

theorem evalConst_same (h : evalConst code c m = .ok v m') : m = m' :=
  ((keeps_evalConst (φ := fun m => m) c).of_ok h).symm

theorem evalConsts_ok (h : evalConst.evalConsts code cs m = .ok vs m') :
    List.Forall₂ (fun c v => evalConst code c m = .ok v m) cs vs := by
  induction cs generalizing vs m' with
  | nil =>
    obtain ⟨rfl, -⟩ := Access.pure_ok h
    exact .nil
  | cons c cs ih =>
    obtain ⟨v, _, h1, h⟩ := Access.bind_ok h
    obtain rfl := evalConst_same h1
    obtain ⟨vs', _, h2, h⟩ := Access.bind_ok h
    obtain ⟨rfl, -⟩ := Access.pure_ok h
    exact .cons h1 (ih h2)

/-- Initial values go to the globals from a position on, each to its own. -/
theorem fillGlobals_ok {i : Nat} {gs : List Ir.Global}
    (h : Machine.fillGlobals code i gs m = .ok u m') :
    (∀ j < i, m'.objects[j]? = m.objects[j]?) ∧ ∀ k g c, gs[k]? = some g → g.init = some c →
      ∃ v m1 m2, evalConst code c m1 = .ok v m1 ∧
        store (g.content.expand code.types) v ⟨.object (i + k) .global, 0⟩ m1 = .ok () m2 ∧
        m'.objects[i + k]? = m2.objects[i + k]? := by
  induction gs generalizing i m with
  | nil =>
    obtain ⟨-, rfl⟩ := Access.pure_ok h
    exact ⟨fun _ _ => rfl, by simp⟩
  | cons g gs ih =>
    rw [Machine.fillGlobals] at h
    cases hinit : g.init with
    | none =>
      rw [hinit] at h
      obtain ⟨hbefore, hrest⟩ := ih h
      refine ⟨fun j hj => hbefore j (by omega), fun k g' c hk hc => ?_⟩
      cases k with
      | zero =>
        obtain rfl : g = g' := by simpa using hk
        rw [hinit] at hc
        cases hc
      | succ k =>
        have := hrest k g' c (by simpa using hk) hc
        rwa [show i + 1 + k = i + (k + 1) by omega] at this
    | some c =>
      rw [hinit] at h
      obtain ⟨v, m1, h1, h⟩ := Access.bind_ok h
      obtain rfl := evalConst_same h1
      obtain ⟨_, m2, h2, h⟩ := Access.bind_ok h
      have hedited := writes_store _ ⟨.global, rfl⟩ h2
      obtain ⟨hbefore, hrest⟩ := ih h
      refine ⟨fun j hj => ?_, fun k g' c' hk hc' => ?_⟩
      · rw [hbefore j (by omega), hedited.others j (by omega)]
      · cases k with
        | zero =>
          obtain rfl : g = g' := by simpa using hk
          rw [hinit] at hc'
          obtain rfl := Option.some.inj hc'
          exact ⟨v, m, m2, h1, h2, hbefore i (by omega)⟩
        | succ k =>
          have := hrest k g' c' (by simpa using hk) hc'
          rwa [show i + 1 + k = i + (k + 1) by omega] at this

/-- A global of a new machine holds its initial value. -/
theorem new_ok (h : Machine.new code output = .ok M) (hg : code.globals[g]? = some global)
    (hc : global.init = some c) :
    ∃ v m1 m2, evalConst code c m1 = .ok v m1 ∧
      store (global.content.expand code.types) v ⟨.object g .global, 0⟩ m1 = .ok () m2 ∧
      M.memory.objects[g]? = m2.objects[g]? := by
  unfold Machine.new at h
  dsimp only at h
  split at h
  · next u memory hsetup =>
    obtain rfl := Except.ok.inj h
    obtain ⟨_, m1, -, hfill⟩ := Access.bind_ok hsetup
    have := (fillGlobals_ok hfill).2 g global c (by simpa using hg) hc
    rwa [Nat.zero_add] at this
  · cases h

/-- A global that is a struct of pointers is a row. -/
theorem new_row (h : Machine.new code output = .ok M) {name : String}
    (hg : code.globals[g]? = some global) (hc : global.init = some (.struct t cs))
    (hcontent : global.content.expand code.types = .struct name ts) (hts : Pointers ts)
    (hlen : cs.length = ts.length) :
    ∃ o vs m1, M.memory.objects[g]? = some o ∧ Row o vs ∧
      List.Forall₂ (fun c v => evalConst code c m1 = .ok v m1) cs vs := by
  obtain ⟨v, m1, m2, heval, hstore, hsame⟩ := new_ok h hg hc
  rw [evalConst] at heval
  obtain ⟨vs, _, h1, heval⟩ := Access.bind_ok heval
  have hvs := evalConsts_ok h1
  obtain ⟨rfl, -⟩ := Access.pure_ok heval
  rw [hcontent, store] at hstore
  obtain ⟨bytes, _, h1, hstore⟩ := Access.bind_ok hstore
  obtain ⟨-, rfl⟩ := Access.check_ok h1
  obtain ⟨id', _, h1, hstore⟩ := Access.bind_ok hstore
  obtain ⟨rfl, region, o, hbase, ho, hdead, -⟩ := checkAccess_ok h1
  obtain rfl : g = id' := by
    injection hbase
  have hnone : Row o [] := ⟨hdead, by simp, by simp, by simp⟩
  obtain ⟨o', ho', hrow⟩ := storeFields_row hts (hvs.length_eq ▸ hlen) (by simp) ho hnone hstore
  exact ⟨o', vs, m1, hsame.trans ho', hrow, hvs⟩

end Tenure.Interp

namespace Tenure.Lowering

open Ir (Ty Const)
open Interp (Value Memory Pointers Row)

variable {p : Program} {final : State} {e : ResolvedEdge} {g i j drop : Nat} {entries : List Const}

/-- The address of a function. -/
def functionAt (code : Ir.Module) (pos : Nat) : Value :=
  .ptr ⟨.function pos (Interp.Code.funcName code pos), 0⟩

/-- A struct of scalars written out. -/
theorem expand_defined {defs : Ir.TypeDefs} {n : Nat} {spelling : String} {d : Ir.TypeDef}
    (hd : defs[n]? = some d) (hts : ∀ t ∈ d.fields, Interp.IsCell t) :
    Ty.expand defs (.defined n spelling) = .struct d.name d.fields := by
  have hfields : d.fields.map (Ty.expandFuel defs defs.size) = d.fields := by
    refine (List.map_congr_left fun t ht => ?_).trans (List.map_id _)
    have hcell := hts t ht
    cases t with
    | int | ptr => cases defs.size <;> rfl
    | _ => exact hcell.elim
  rw [Ty.expand, Ty.expandFuel, Ty.expandWith, hd]
  simp only [hfields]

/-- The fields of a method table. -/
structure TableFields (p : Program) (types : Ir.TypeDefs) (j : Nat) (d : InterfaceDef)
    (name : String) (entries : List Ty) : Prop where
  fields : (itableType p j).fields? types = some (dropType :: entries)
  expands : (itableType p j).expand types = .struct name (dropType :: entries)
  pointers : Pointers (dropType :: entries)
  count : entries.length = d.methods.length

theorem TypeTable.tableFields {types : Ir.TypeDefs} {d : InterfaceDef}
    (h : TypeTable p types) (hd : p.interfaces[j]? = some d) :
    ∃ name entries, TableFields p types j d name entries := by
  obtain ⟨name, entries, htype, hlen, hall⟩ := h.itables j d hd
  have hpointers : Pointers (dropType :: entries) := by
    intro t ht
    rcases List.mem_cons.mp ht with rfl | ht
    · exact ⟨_, rfl⟩
    · exact hall t ht
  refine ⟨name, entries, ?_, expand_defined htype hpointers.cells, hpointers, hlen⟩
  simp [itableType, Ty.fields?, htype]

/-- The method table of an edge in a new machine: the drop function of the struct,
and then the functions of the edge. -/
theorem TableAt.row {M : Interp.Machine} {output : Interp.Output}
    (h : TableAt p final e g i j drop entries)
    (htypes : TypeTable p final.module.types)
    (hnew : Interp.Machine.new final.module output = .ok M) :
    ∃ o vs, M.memory.objects[g]? = some o ∧ Row o (functionAt final.module drop :: vs) ∧
      vs.length = entries.length ∧ ∀ k f, e.methods[k]? = some f → k < entries.length → ∃ pos,
        final.funcs[f]? = some (some pos) ∧ vs[k]? = some (functionAt final.module pos) := by
  obtain ⟨d, hd, hcount⟩ := h.count
  obtain ⟨name, tys, hfields⟩ := htypes.tableFields hd
  obtain ⟨signature, hg⟩ := h.global
  obtain ⟨o, vs, m1, ho, hrow, hvs⟩ := Interp.new_row hnew hg rfl hfields.expands hfields.pointers
    (by simp [hcount, hfields.count])
  cases hvs with
  | cons hdrop hrest =>
    obtain ⟨rfl, -⟩ := Interp.Access.pure_ok hdrop
    refine ⟨o, _, ho, hrow, hrest.length_eq.symm, fun k f hk hlt => ?_⟩
    obtain ⟨pos, signature', type, hpos, hentry⟩ := h.methods k f hk hlt
    refine ⟨pos, hpos, ?_⟩
    obtain ⟨v, hv, hvalue⟩ := getElem?_forall₂ hrest hentry
    obtain ⟨rfl, -⟩ := Interp.Access.pure_ok hvalue
    exact hv

end Tenure.Lowering

import Tenure.Proofs.Lifetimes
import Tenure.Proofs.Outlines
import Mathlib.Data.List.Forall2

/-!
# Loads and stores

A load looks at one object and changes nothing, and a store changes the cells of
one object.  So what was stored in an object stays there while other objects are
written to, created or ended.
-/

namespace Tenure

/-! ## Lists that go together -/

section Lists

variable {α β : Type} {R S : α → β → Prop} {xs : List α} {ys : List β} {x : α} {y : β}

theorem getElem?_forall₂ {k : Nat} (h : List.Forall₂ R xs ys) (hx : xs[k]? = some x) :
    ∃ y, ys[k]? = some y ∧ R x y := by
  obtain ⟨hlt, rfl⟩ := List.getElem?_eq_some_iff.mp hx
  have hlt' := h.length_eq ▸ hlt
  exact ⟨ys[k], List.getElem?_eq_getElem hlt', h.get hlt hlt'⟩

theorem forall₂_imp_mem (h : List.Forall₂ R xs ys) (himp : ∀ x ∈ xs, ∀ y, R x y → S x y) :
    List.Forall₂ S xs ys :=
  ((List.forall₂_and_left _ _).2 ⟨fun _ hx => hx, h⟩).imp fun x y hxy => himp x hxy.1 y hxy.2

theorem forall₂_set_right {i : Nat} (h : List.Forall₂ R xs ys) (hx : xs[i]? = some x) (hy : S x y)
    (hother : ∀ j x' y', j ≠ i → xs[j]? = some x' → R x' y' → S x' y') :
    List.Forall₂ S xs (ys.set i y) := by
  obtain ⟨hi, rfl⟩ := List.getElem?_eq_some_iff.1 hx
  rw [List.forall₂_iff_get] at h ⊢
  refine ⟨by rw [h.1, List.length_set], fun j hj hj' => ?_⟩
  rw [List.get_eq_getElem, List.get_eq_getElem, List.getElem_set]
  split
  · next hij =>
    subst hij
    exact hy
  · next hij =>
    exact hother j _ _ (Ne.symm hij) (List.getElem?_eq_getElem hj) (h.2 j hj (by simpa using hj'))

end Lists

end Tenure

namespace Tenure.Interp

open Ir (Ty)

variable {α β : Type} {m m' m'' : Memory} {id : Nat}

/-! ## Computations on memory -/

namespace Access

variable {x : Access α} {next : α → Access β} {a : α} {b : β} {e : Fault}

theorem bind_of_ok (h : x m = .ok a m') : (x >>= next) m = next a m' := by
  change EStateM.bind x next m = _
  unfold EStateM.bind
  rw [h]

theorem bind_of_error (h : x m = .error e m') : (x >>= next) m = .error e m' := by
  change EStateM.bind x next m = _
  unfold EStateM.bind
  rw [h]

theorem bind_ok (h : (x >>= next) m = .ok b m'') :
    ∃ a m', x m = .ok a m' ∧ next a m' = .ok b m'' := by
  change EStateM.bind x next m = _ at h
  unfold EStateM.bind at h
  split at h
  · next a m' hx => exact ⟨a, m', hx, h⟩
  · cases h

theorem pure_ok {a b : α} (h : (pure a : Access α) m = .ok b m') : a = b ∧ m = m' := by
  injection h with h1 h2
  exact ⟨h1, h2⟩

theorem check_ok {x : Checked α} (h : check x m = .ok a m') : x = .ok a ∧ m = m' := by
  cases x with
  | ok b =>
    obtain ⟨rfl, rfl⟩ := pure_ok h
    exact ⟨rfl, rfl⟩
  | error f => cases h

theorem mapM_of_forall₂ {γ : Type} {f : γ → Access α} {xs : List γ} {as : List α}
    (h : List.Forall₂ (fun x a => f x m = .ok a m) xs as) : xs.mapM f m = .ok as m := by
  induction h with
  | nil => rfl
  | cons hx _ ih =>
    rw [List.mapM_cons, bind_of_ok hx, bind_of_ok ih]
    rfl

end Access

/-! ## Loads -/

/-- Objects that hold the same, however their cells are kept. -/
structure Object.Alike (o o' : Object) : Prop where
  region : o'.region = o.region
  address : o'.address = o.address
  size : o'.size = o.size
  dead : o'.dead = o.dead
  cells : ∀ offset : Int64, o'.cells[offset]? = o.cells[offset]?

theorem Object.Alike.refl (o : Object) : o.Alike o := ⟨rfl, rfl, rfl, rfl, fun _ => rfl⟩

variable {p : Pointer} {t : Ty} {o o' : Object} {x : Access α} {bytes : Int64} {v : Value}
variable {next : α → Access β}

theorem Object.Alike.trans {o'' : Object} (h : o.Alike o') (h' : o'.Alike o'') : o.Alike o'' where
  region := h'.region.trans h.region
  address := h'.address.trans h.address
  size := h'.size.trans h.size
  dead := h'.dead.trans h.dead
  cells offset := (h'.cells offset).trans (h.cells offset)

theorem Object.Alike.symm (h : o.Alike o') : o'.Alike o :=
  ⟨h.region.symm, h.address.symm, h.size.symm, h.dead.symm, fun offset => (h.cells offset).symm⟩

/-- A computation that looks at one object and changes nothing. -/
def Reads (id : Nat) (x : Access α) : Prop :=
  ∀ ⦃m a m1⦄, x m = .ok a m1 → m1 = m ∧
    ∀ m' : Memory, Option.Rel Object.Alike m.objects[id]? m'.objects[id]? → x m' = .ok a m'

theorem Reads.bind (hx : Reads id x) (hnext : ∀ a, Reads id (next a)) : Reads id (x >>= next) := by
  intro m b m2 h
  obtain ⟨a, m1, h1, h2⟩ := Access.bind_ok h
  obtain ⟨rfl, hsame1⟩ := hx h1
  obtain ⟨rfl, hsame2⟩ := hnext a h2
  refine ⟨rfl, fun m' hm => ?_⟩
  rw [Access.bind_of_ok (hsame1 m' hm)]
  exact hsame2 m' hm

theorem Reads.pure {a : α} : Reads id (pure a : Access α) := by
  intro m b m1 h
  obtain ⟨rfl, rfl⟩ := Access.pure_ok h
  exact ⟨rfl, fun _ _ => rfl⟩

theorem Reads.throw {e : Fault} : Reads id (throw e : Access α) := fun _ _ _ h => nomatch h

theorem Reads.check {x : Checked α} : Reads id (Access.check x) := by
  cases x with
  | ok a => exact .pure
  | error f => exact .throw

theorem Reads.ite {c : Prop} [Decidable c] {y : Access α} (hx : Reads id x) (hy : Reads id y) :
    Reads id (if c then x else y) := by
  split
  · exact hx
  · exact hy

/-- A pointer into an object. -/
def Pointer.Into (p : Pointer) (id : Nat) : Prop := ∃ region, p.base = .object id region

theorem Pointer.Into.shift (h : p.Into id) (n : Int64) : (p.shift n).Into id := h

/-- What is looked up in one object. -/
theorem reads_object {k : Option Object → Access α} (hk : ∀ o, Reads id (k o))
    (halike : ∀ o o', Object.Alike o o' → k (some o') = k (some o)) :
    Reads id (get >>= fun m : Memory => k m.objects[id]?) := by
  intro m a m1 h
  obtain ⟨rfl, hsame⟩ := hk m.objects[id]? h
  refine ⟨rfl, fun m' hm => ?_⟩
  change k m'.objects[id]? m' = _
  have hk' : k m'.objects[id]? = k m1.objects[id]? := by
    generalize m1.objects[id]? = o, m'.objects[id]? = o' at hm
    cases hm with
    | some h => exact halike _ _ h
    | none => rfl
  rw [hk']
  exact hsame m' hm

/-- What an access to some bytes of an object comes to. -/
def admission (p : Pointer) (bytes : Int64) (id : Nat) (o : Option Object) : Access Nat :=
  match o.map fun o => (o.region, o.dead, o.size) with
  | none => Access.crash
  | some (region, dead, size) =>
    if dead then
      if region = .heap then Access.raise (.useAfterFree p.text)
      else Access.raise (.deadAccess region p.text)
    else if p.offset < 0 ∨ size < p.offset + bytes then
      Access.raise (.outOfBounds bytes.toInt p.text size.toInt)
    else Pure.pure id

theorem reads_checkAccess (hp : p.Into id) : Reads id (checkAccess p bytes) := by
  obtain ⟨region, hbase⟩ := hp
  unfold checkAccess
  rw [hbase]
  refine reads_object (k := admission p bytes id) (fun o => ?_) fun o o' h => ?_
  · cases o with
    | none => exact .throw
    | some o => exact .ite (.ite .throw .throw) (.ite .throw .pure)
  · simp only [admission, Option.map_some, h.region, h.dead, h.size]

/-- An access that is allowed: the object is there and alive, and the bytes are
inside it. -/
theorem checkAccess_ok (h : checkAccess p bytes m = .ok id m') :
    m = m' ∧ ∃ region o, p.base = .object id region ∧ m.objects[id]? = some o ∧ o.dead = false ∧
      0 ≤ p.offset ∧ p.offset + bytes ≤ o.size := by
  unfold checkAccess at h
  cases hbase : p.base with
  | object id' region =>
    rw [hbase] at h
    obtain ⟨_, _, h1, h⟩ := Access.bind_ok h
    obtain ⟨rfl, rfl⟩ : m = _ ∧ m = _ := by
      injection h1 with h1 h2
      exact ⟨h1, h2⟩
    cases ho : m.objects[id']? with
    | none =>
      simp only [ho, Option.map_none] at h
      cases h
    | some o =>
      simp only [ho, Option.map_some] at h
      split at h
      · split at h <;> cases h
      · next hdead =>
        split at h
        · cases h
        · next hbounds =>
          obtain ⟨rfl, rfl⟩ := Access.pure_ok h
          rw [not_or, Int64.not_lt, Int64.not_lt] at hbounds
          exact ⟨rfl, region, o, rfl, ho, by simpa using hdead, hbounds.1, hbounds.2⟩
  | null | function i name =>
    rw [hbase] at h
    cases h

theorem checkAccess_of {region : Region} (hbase : p.base = .object id region)
    (ho : m.objects[id]? = some o) (hdead : o.dead = false) (hlow : 0 ≤ p.offset)
    (hhigh : p.offset + bytes ≤ o.size) : checkAccess p bytes m = .ok id m := by
  unfold checkAccess
  rw [hbase]
  have hget : (get : Access Memory) m = .ok m m := rfl
  simp only
  rw [Access.bind_of_ok hget]
  simp only [ho, Option.map_some, hdead]
  rw [if_neg (by simp), if_neg]
  · rfl
  · rw [not_or, Int64.not_lt, Int64.not_lt]
    exact ⟨hlow, hhigh⟩

/-- What is read from the cell of an object that a pointer points to. -/
def cellValue (t : Ty) (p : Pointer) (bytes : Int64) (o : Option Object) : Access Value :=
  match o.bind (·.cells[p.offset]?) with
  | none => Access.raise (.uninitialized p.text)
  | some c =>
    if c.size ≠ bytes then Access.raise (.misaligned t.text p.text) else Pure.pure c.value

theorem reads_loadScalar (hp : p.Into id) : Reads id (loadScalar t p) := by
  obtain ⟨region, hbase⟩ := hp
  refine Reads.check.bind fun bytes m v m1 h => ?_
  obtain ⟨id', m2, h1, h2⟩ := Access.bind_ok h
  obtain ⟨rfl, hsame⟩ := reads_checkAccess ⟨region, hbase⟩ h1
  obtain ⟨-, _, _, hbase', -⟩ := checkAccess_ok h1
  obtain ⟨rfl, -⟩ : id = id' ∧ region = _ := by
    rw [hbase] at hbase'
    injection hbase' with h1 h2
    exact ⟨h1, h2⟩
  have hcell : Reads id (get >>= fun m : Memory => _) :=
    reads_object (k := cellValue t p bytes) (fun o => by
      unfold cellValue
      split
      · exact .throw
      · exact .ite .throw .pure) fun o o' h => by
        simp only [cellValue, Option.bind_some, h.cells]
  obtain ⟨rfl, hsame'⟩ := hcell h2
  refine ⟨rfl, fun m' hm => ?_⟩
  rw [Access.bind_of_ok (hsame m' hm)]
  exact hsame' m' hm

theorem traversable_reads : Traversable (·.Into id) fun _ => Reads id :=
  ⟨fun _ => .pure, fun _ => .throw, .bind, fun n h => h.shift n,
    fun h => reads_checkAccess h⟩

theorem reads_load (t : Ty) : p.Into id → Reads id (load t p) :=
  traversable_reads.load (fun _ _ => reads_loadScalar) t

/-- What is loaded from an object stays the same as long as the object holds the same. -/
theorem load_alike (hp : p.Into id) (h : load t p m = .ok v m) (ho : m.objects[id]? = some o)
    (ho' : m'.objects[id]? = some o') (halike : o.Alike o') : load t p m' = .ok v m' := by
  refine (reads_load t hp h).2 m' ?_
  rw [ho, ho']
  exact .some halike

/-! ## Stores -/

namespace Memory

/-- Only the cells of one object may have changed. -/
structure Edited (id : Nat) (m m' : Memory) : Prop where
  size : m'.objects.size = m.objects.size
  address : m'.nextAddress = m.nextAddress
  heap : m'.heap = m.heap
  others : ∀ i, i ≠ id → m'.objects[i]? = m.objects[i]?
  object : ∀ o, m.objects[id]? = some o → ∃ cells, m'.objects[id]? = some { o with cells }

theorem Edited.refl (id : Nat) (m : Memory) : Edited id m m :=
  ⟨rfl, rfl, rfl, fun _ _ => rfl, fun o ho => ⟨o.cells, ho⟩⟩

theorem Edited.trans (h : Edited id m m') (h' : Edited id m' m'') : Edited id m m'' where
  size := h'.size.trans h.size
  address := h'.address.trans h.address
  heap := h'.heap.trans h.heap
  others i hi := (h'.others i hi).trans (h.others i hi)
  object o ho := by
    obtain ⟨cells, hcells⟩ := h.object o ho
    obtain ⟨cells', hcells'⟩ := h'.object _ hcells
    exact ⟨cells', hcells'⟩

theorem edited_modify {f : Object → Cells} :
    Edited id m (m.modifyObject id fun o => { o with cells := f o }) where
  size := by simp [modifyObject]
  address := rfl
  heap := rfl
  others i hi := by
    simp only [modifyObject]
    rw [Array.getElem?_modify, if_neg fun h => hi h.symm]
  object o ho := by
    refine ⟨f o, ?_⟩
    simp only [modifyObject]
    rw [Array.getElem?_modify, if_pos rfl, ho]
    rfl

theorem Edited.later (h : Edited id m m')
    (hid : ∀ o, m.objects[id]? = some o → o.region ≠ .global) : m.Later m' where
  size := Nat.le_of_eq h.size.symm
  kept i o ho := by
    by_cases hi : i = id
    · subst hi
      obtain ⟨cells, hcells⟩ := h.object o ho
      exact ⟨_, hcells, rfl, rfl, fun _ => rfl, fun hr => absurd hr (hid o ho)⟩
    · exact ⟨o, (h.others i hi).trans ho, rfl, rfl, fun _ => rfl, fun _ => rfl⟩

end Memory

/-- A computation that changes only the cells of one object. -/
def Writes (id : Nat) (x : Access α) : Prop := ∀ ⦃m a m'⦄, x m = .ok a m' → m.Edited id m'

theorem Reads.writes (h : Reads id x) : Writes id x := by
  intro m a m' hx
  obtain ⟨rfl, -⟩ := h hx
  exact .refl id m'

theorem Writes.bind (hx : Writes id x) (hnext : ∀ a, Writes id (next a)) :
    Writes id (x >>= next) := by
  intro m b m'' h
  obtain ⟨a, m', h1, h2⟩ := Access.bind_ok h
  exact (hx h1).trans (hnext a h2)

theorem writes_storeScalar (hp : p.Into id) : Writes id (storeScalar t v p) := by
  obtain ⟨region, hbase⟩ := hp
  refine Reads.check.writes.bind fun bytes m u m' h => ?_
  obtain ⟨id', m1, h1, h2⟩ := Access.bind_ok h
  obtain ⟨rfl, _, _, hbase', -⟩ := checkAccess_ok h1
  obtain rfl : id = id' := by
    rw [hbase] at hbase'
    injection hbase'
  injection h2 with _ h2
  rw [← h2]
  exact Memory.edited_modify

theorem traversable_writes : Traversable (·.Into id) fun _ => Writes id :=
  ⟨fun _ => Reads.pure.writes, fun _ => Reads.throw.writes, .bind, fun n h => h.shift n,
    fun h => (reads_checkAccess h).writes⟩

theorem writes_store (t : Ty) : p.Into id → Writes id (store t v p) :=
  traversable_writes.store (fun _ _ _ => writes_storeScalar) t

/-! ## Scalars -/

/-- The types whose values are kept in one cell. -/
def IsCell : Ty → Prop
  | .int _ | .ptr _ => True
  | _ => False

theorem load_cell (ht : IsCell t) (p : Pointer) : load t p = loadScalar t p := by
  cases t with
  | int | ptr => rfl
  | _ => exact ht.elim

theorem store_cell (ht : IsCell t) (v : Value) (p : Pointer) : store t v p = storeScalar t v p := by
  cases t with
  | int | ptr => rfl
  | _ => exact ht.elim

section Scalars

variable {t : Ty} {p : Pointer} {v : Value} {bytes : Int64} {region : Region} {o : Object}

theorem loadScalar_of (hsize : sizeOf t = .ok bytes) (hbase : p.base = .object id region)
    (ho : m.objects[id]? = some o) (hdead : o.dead = false) (hlow : 0 ≤ p.offset)
    (hhigh : p.offset + bytes ≤ o.size) (hcell : o.cells[p.offset]? = some ⟨bytes, v⟩) :
    loadScalar t p m = .ok v m := by
  unfold loadScalar
  have hcheck : Access.check (sizeOf t) m = .ok bytes m := by rw [hsize]; rfl
  have hget : (get : Access Memory) m = .ok m m := rfl
  rw [Access.bind_of_ok hcheck, Access.bind_of_ok (checkAccess_of hbase ho hdead hlow hhigh),
    Access.bind_of_ok hget]
  simp only [ho, Option.bind_some, hcell]
  rw [if_neg (by simp)]
  rfl

/-- Memory after a scalar has been written. -/
def Memory.put (m : Memory) (id : Nat) (offset bytes : Int64) (v : Value) : Memory :=
  m.modifyObject id fun o => { o with cells := putCell offset bytes v o.cells }

theorem storeScalar_of (hsize : sizeOf t = .ok bytes) (hbase : p.base = .object id region)
    (ho : m.objects[id]? = some o) (hdead : o.dead = false) (hlow : 0 ≤ p.offset)
    (hhigh : p.offset + bytes ≤ o.size) :
    storeScalar t v p m = .ok () (m.put id p.offset bytes v) := by
  unfold storeScalar
  have hcheck : Access.check (sizeOf t) m = .ok bytes m := by rw [hsize]; rfl
  rw [Access.bind_of_ok hcheck, Access.bind_of_ok (checkAccess_of hbase ho hdead hlow hhigh)]
  rfl

theorem storeScalar_ok {u : Unit} (h : storeScalar t v p m = .ok u m') :
    ∃ bytes id region o, sizeOf t = .ok bytes ∧ p.base = .object id region ∧
      m.objects[id]? = some o ∧ o.dead = false ∧ 0 ≤ p.offset ∧ p.offset + bytes ≤ o.size ∧
      m' = m.put id p.offset bytes v := by
  obtain ⟨bytes, _, h1, h⟩ := Access.bind_ok h
  obtain ⟨hsize, rfl⟩ := Access.check_ok h1
  obtain ⟨id, _, h1, h⟩ := Access.bind_ok h
  obtain ⟨rfl, region, o, hbase, ho, hdead, hlow, hhigh⟩ := checkAccess_ok h1
  injection h with _ h
  exact ⟨bytes, id, region, o, hsize, hbase, ho, hdead, hlow, hhigh, h.symm⟩

variable {offset start first : Int64} {cells : Cells} {c : Cell} {k n : Nat}

theorem Memory.getElem?_put_self (ho : m.objects[id]? = some o) :
    (m.put id offset bytes v).objects[id]? =
      some { o with cells := putCell offset bytes v o.cells } := by
  simp only [Memory.put, Memory.modifyObject]
  rw [Array.getElem?_modify, if_pos rfl, ho]
  rfl

theorem putCell_self : (putCell offset bytes v cells)[offset]? = some ⟨bytes, v⟩ := by
  simp [putCell]

/-- Clearing takes away, of the cells at a number of offsets, those that reach past a start. -/
theorem getElem?_clearCells :
    (clearCells start n first cells)[offset]? =
      if ∃ i < n, first + Int64.ofNat i = offset then
        cells[offset]?.filter fun c => offset + c.size ≤ start
      else cells[offset]? := by
  induction n generalizing first cells with
  | zero => simp [clearCells]
  | succ n ih =>
    have hnext : (∃ i < n + 1, first + Int64.ofNat i = offset) ↔
        first = offset ∨ ∃ i < n, first + 1 + Int64.ofNat i = offset := by
      have hshift : ∀ i, first + 1 + Int64.ofNat i = first + Int64.ofNat (i + 1) := fun i => by
        rw [Int64.ofNat_add, Int64.add_comm (Int64.ofNat i), ← Int64.add_assoc]
        rfl
      simp only [Nat.exists_lt_succ_left, hshift]
      rw [show first + Int64.ofNat 0 = first from Int64.add_zero first]
    rw [clearCells, ih]
    simp only [hnext]
    by_cases hfirst : first = offset
    · subst hfirst
      cases hc : cells[first]? with
      | none => simp [hc]
      | some c =>
        by_cases hends : start < first + c.size
        · simp [hends, Option.filter, Int64.not_le.mpr hends]
        · simp [hc, hends, Option.filter, Int64.not_lt.mp hends]
    · have hboth : ∀ reaches : Bool,
          (if reaches then cells.erase first else cells)[offset]? = cells[offset]? := by
        intro reaches
        cases reaches with
        | true => simp [Std.HashMap.getElem?_erase, hfirst]
        | false => rfl
      simp only [hboth, hfirst, false_or]

/-- A cell that does not reach past the start stays. -/
theorem clearCells_kept (hc : cells[offset]? = some c) (hends : ¬ start < offset + c.size) :
    (clearCells start n first cells)[offset]? = some c := by
  rw [getElem?_clearCells]
  simp [hc, Option.filter, Int64.not_lt.mp hends]

theorem clearCells_outside (h : ∀ j < k, first + Int64.ofNat j ≠ offset) :
    (clearCells start k first cells)[offset]? = cells[offset]? := by
  rw [getElem?_clearCells, if_neg fun ⟨j, hj, heq⟩ => h j hj heq]

theorem of_clearCells (h : (clearCells start k first cells)[offset]? = some c) :
    cells[offset]? = some c := by
  rw [getElem?_clearCells] at h
  split at h
  · exact (Option.filter_eq_some_iff.mp h).1
  · exact h

theorem clearCells_absent (h : cells[offset]? = none) :
    (clearCells start k first cells)[offset]? = none := by
  rw [getElem?_clearCells]
  simp [h]

/-- A scalar that is stored behind a cell leaves it as it is. -/
theorem putCell_before {before : Int64} (hc : cells[before]? = some c) (hne : offset ≠ before)
    (hends : ¬ offset < before + c.size) : (putCell offset bytes v cells)[before]? = some c := by
  rw [putCell, Std.HashMap.getElem?_insert, if_neg (by simpa using hne)]
  exact clearCells_kept hc hends

end Scalars

end Tenure.Interp

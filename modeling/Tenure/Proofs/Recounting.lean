import Tenure.Proofs.LedgerInvariants
import Tenure.Proofs.Storage

/-!
# Objects with a count

A heap object starts with a count of eight bytes, and all else that it holds lies
behind.  This file says what changing the count and freeing the object do to it, and
to what is read from it.
-/

namespace Tenure.Interp

open Ir (Ty)

variable {m m' : Memory} {id : Nat} {o o' : Object} {n c : Int64} {v : Value}

/-! ## Cells that are in nobody's way -/

/-- The count is the first cell, and the others lie behind it. -/
def Cells.Behind (cells : Cells) : Prop :=
  ∀ (offset : Int64) (c : Cell), cells[offset]? = some c → offset = 0 ∨ 8 ≤ offset

/-- A new count leaves the other cells as they are. -/
theorem putCell_behind {cells : Cells} {offset : Int64} (h : Cells.Behind cells)
    (hne : offset ≠ 0) : (putCell 0 8 v cells)[offset]? = cells[offset]? := by
  rw [putCell, Std.HashMap.getElem?_insert, if_neg (by simpa using fun h => hne h.symm)]
  cases hc : cells[offset]? with
  | none => exact clearCells_absent hc
  | some c =>
    rw [← hc]
    refine clearCells_outside fun j hj heq => ?_
    have hbelow : ∀ j : Fin 15, 0 - 7 + Int64.ofNat j < 8 := by decide
    have hle : 8 ≤ offset := (h offset c hc).resolve_left hne
    rw [← heq] at hle
    exact Int64.not_lt.mpr hle (hbelow ⟨j, hj⟩)

/-! ## Counts -/

/-- An object with another count. -/
def Object.withCount (o : Object) (n : Int64) : Object :=
  { o with cells := putCell 0 8 (.int n) o.cells }

@[simp] theorem Object.region_withCount : (o.withCount n).region = o.region := by
  rw [Object.withCount]

@[simp] theorem Object.address_withCount : (o.withCount n).address = o.address := by
  rw [Object.withCount]

@[simp] theorem Object.size_withCount : (o.withCount n).size = o.size := by
  rw [Object.withCount]

@[simp] theorem Object.dead_withCount : (o.withCount n).dead = o.dead := by
  rw [Object.withCount]

/-- Memory in which an object has another count. -/
def Memory.withCount (m : Memory) (id : Nat) (n : Int64) : Memory := m.put id 0 8 (.int n)

theorem Memory.size_withCount : (m.withCount id n).objects.size = m.objects.size :=
  Memory.edited_modify.size

theorem Memory.getElem?_withCount_self (ho : m.objects[id]? = some o) :
    (m.withCount id n).objects[id]? = some (o.withCount n) :=
  Memory.getElem?_put_self ho

theorem Memory.getElem?_withCount_ne {i : Nat} (h : i ≠ id) :
    (m.withCount id n).objects[i]? = m.objects[i]? :=
  Memory.edited_modify.others i h

theorem Object.withCount_count : (o.withCount n).cells[(0 : Int64)]? = some ⟨8, .int n⟩ :=
  putCell_self

theorem Object.withCount_cells {offset : Int64} (h : Cells.Behind o.cells) (hne : offset ≠ 0) :
    (o.withCount n).cells[offset]? = o.cells[offset]? :=
  putCell_behind h hne

/-- A living heap object that starts with a count. -/
structure Object.Counted (o : Object) (n : Int64) : Prop where
  region : o.region = .heap
  alive : o.dead = false
  size : 8 ≤ o.size
  count : o.cells[(0 : Int64)]? = some ⟨8, .int n⟩
  behind : Cells.Behind o.cells

theorem Object.Counted.alike_withCount (h : o.Counted n) : (o.withCount n).Alike o where
  region := by simp
  address := by simp
  size := by simp
  dead := by simp
  cells offset := by
    by_cases hzero : offset = 0
    · subst hzero
      rw [Object.withCount_count, h.count]
    · exact (Object.withCount_cells h.behind hzero).symm

theorem Object.Counted.withCount (h : o.Counted n) : (o.withCount c).Counted c where
  region := by simp [h.region]
  alive := by simp [h.alive]
  size := by simp [h.size]
  count := Object.withCount_count
  behind offset d hd := by
    by_cases hzero : offset = 0
    · exact .inl hzero
    · rw [Object.withCount_cells h.behind hzero] at hd
      exact h.behind offset d hd

theorem Object.Alike.counted (h : o.Alike o') (ho : o.Counted n) : o'.Counted n where
  region := h.region.trans ho.region
  alive := h.dead.trans ho.alive
  size := h.size ▸ ho.size
  count := (h.cells 0).trans ho.count
  behind offset c hc := ho.behind offset c ((h.cells offset).symm.trans hc)

/-- Objects that are the same but for their counts are so with the same new count. -/
theorem Object.Alike.recount (h : (o.withCount n).Alike o') (ho : o.Counted c) {k : Int64} :
    (o.withCount k).Alike (o'.withCount k) where
  region := by simpa using h.region
  address := by simpa using h.address
  size := by simpa using h.size
  dead := by simpa using h.dead
  cells offset := by
    have hcounted := h.counted (ho.withCount (c := n))
    by_cases hzero : offset = 0
    · subst hzero
      rw [Object.withCount_count, Object.withCount_count]
    · rw [Object.withCount_cells hcounted.behind hzero, h.cells,
        Object.withCount_cells ho.behind hzero, Object.withCount_cells ho.behind hzero]

/-! ## Access to counts -/

/-- The address of a heap object. -/
def heapObject (id : Nat) : Pointer := ⟨.object id .heap, 0⟩

theorem sizeOf_count : sizeOf .i64 = .ok 8 := rfl

theorem load_count (ho : m.objects[id]? = some o) (h : o.Counted n) :
    load .i64 (heapObject id) m = .ok (.int n) m :=
  (congrFun (load_cell (t := .i64) trivial (heapObject id)) m).trans <|
    loadScalar_of (p := heapObject id) sizeOf_count rfl ho h.alive (Int64.le_refl 0)
      (by simpa [heapObject] using h.size) h.count

theorem store_count (ho : m.objects[id]? = some o) (h : o.Counted n) :
    store .i64 (.int c) (heapObject id) m = .ok () (m.withCount id c) :=
  (congrFun (store_cell (t := .i64) trivial (.int c) (heapObject id)) m).trans <|
    storeScalar_of (p := heapObject id) sizeOf_count rfl ho h.alive (Int64.le_refl 0)
      (by simpa [heapObject] using h.size)

theorem later_withCount (ho : m.objects[id]? = some o) (h : o.Counted n) :
    m.Later (m.withCount id c) :=
  Memory.edited_modify.later fun o' ho' => by
    obtain rfl := Option.some.inj (ho.symm.trans ho')
    simp [h.region]

/-- The address of an element is in the same object. -/
theorem elementAddress_into {t : Ty} {p q : Pointer} {path : List Int64}
    (h : elementAddress t p path = .ok q) (hp : p.Into id) : q.Into id := by
  cases path with
  | nil =>
    obtain rfl : p = q := by injection h
    exact hp
  | cons i path =>
    unfold elementAddress at h
    cases hsize : sizeOf t with
    | error e =>
      rw [hsize] at h
      cases h
    | ok size =>
      rw [hsize] at h
      cases hoffset : elementOffset t (p.offset + i * size) path with
      | error e =>
        simp only [bind, Except.bind, hoffset] at h
        cases h
      | ok offset =>
        simp only [bind, Except.bind, hoffset] at h
        obtain rfl : { p with offset } = q := by injection h
        exact hp

/-! ## Freeing -/

theorem free_heapObject (ho : m.objects[id]? = some o) (h : o.Counted n) :
    free (heapObject id) m = .ok () (m.release id) := by
  rw [heapObject, free_object, ho]
  simp only [Option.map_some, h.region, h.alive]
  rfl

theorem later_release (ho : m.objects[id]? = some o) (h : o.region = .heap) :
    m.Later (m.release id) where
  size := by simp [Memory.release, Memory.kill, Memory.modifyObject]
  kept i o' ho' := by
    rw [Memory.getElem?_release]
    by_cases hi : id = i
    · subst hi
      obtain rfl := Option.some.inj (ho.symm.trans ho')
      refine ⟨{ o with dead := true }, by simp [ho], rfl, rfl, fun hr => absurd h hr, fun hr => ?_⟩
      rw [h] at hr
      cases hr
    · exact ⟨o', by rw [if_neg hi, ho'], rfl, rfl, fun _ => rfl, fun _ => rfl⟩

/-- Objects that were added since may have died. -/
theorem Memory.Later.killAll (h : m.Later m') {ids : List Nat}
    (hids : ∀ id ∈ ids, m.objects.size ≤ id) : m.Later (ids.foldl Memory.kill m') where
  size := by
    rw [Memory.size_killAll]
    exact h.size
  kept i o ho := by
    obtain ⟨o', ho', hkept⟩ := h.kept i o ho
    have hmem : i ∉ ids := fun hmem =>
      Nat.not_lt.mpr (hids i hmem) (Array.getElem?_eq_some_iff.mp ho).1
    exact ⟨o', by rw [Memory.getElem?_killAll, ho', Option.map_some, if_neg hmem], hkept⟩

end Tenure.Interp

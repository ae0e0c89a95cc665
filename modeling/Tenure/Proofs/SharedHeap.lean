import Mathlib.Algebra.BigOperators.Group.Finset.Basic
import Mathlib.Algebra.Order.BigOperators.Group.Finset
import Tenure.Proofs.Dispatch
import Tenure.Proofs.Recounting

/-!
# Heaps of shared objects

A description of a heap says which objects there are, of which shape each of them is,
and to which objects it refers.  Releasing a value works off a list of references:
each of them takes a count down, and an object whose count comes to zero adds its own
references to the list before it is freed.  `Heap.Stage` is what memory is like in the
middle of that, and the lemmas on it say what each step does.  What has been freed in
the end is the garbage, which is defined by reachability alone (`Heap.Garbage`).
-/

namespace Tenure.Lowering

open Ir (Ty)
open Interp (Memory Object Value heapObject)

/-! ## Descriptions -/

/-- What a counted object is. -/
inductive Shape where
  | struct (i : Nat)
  /-- an array, with the type of its elements and their number -/
  | array (size : Option Int) (elem : Reference) (length : Nat)
  | str

/-- The types of the parts of an object: of members, or of elements. -/
def Shape.types (p : Program) : Shape → List (Option Reference)
  | .struct i => ((p.structs[i]?.map (·.members)).getD []).map (·.type)
  | .array _ elem length => List.replicate length (some elem)
  | .str => []

/-- A description of the counted objects of a memory. -/
structure Heap where
  objects : Finset Nat
  shape : Nat → Shape
  /-- the values of the parts of an object; those of parts that are not shared do not matter -/
  parts : Nat → List Value
  /-- the objects that an object refers to, as often as it does -/
  refs : Nat → List Nat
  /-- how many references to an object there are besides those from objects and from the
  value that is released -/
  others : Nat → Nat

namespace Heap

variable (H : Heap)

/-- A value of a type that is kept on the heap refers to an object: it is the object's
address, through an interface together with the method table of its struct. -/
inductive Points (env : Env) (final : State) : Referend → Value → Nat → Prop
  | struct {s : Symbol} {i o : Nat} (hs : env.program.structId s = i)
      (shape : H.shape o = .struct i) : Points env final (.struct s) (.ptr (heapObject o)) o
  | interface {s : Symbol} {e : ResolvedEdge} {n g o : Nat} (edge : env.program.edges[n]? = some e)
      (hs : env.program.interfaceId s = e.interfaceId) (table : final.itables[n]? = some g)
      (shape : H.shape o = .struct e.structId.toNat) :
      Points env final (.interface s) (interfacePair (heapObject o) g) o
  | array {size : Option Int} {ownership : Ownership} {location : Location} {elem : Referend}
      {length o : Nat} (shape : H.shape o = .array size ⟨ownership, location, elem⟩ length) :
      Points env final (.array size ownership location elem) (.ptr (heapObject o)) o
  | str {o : Nat} (shape : H.shape o = .str) : Points env final .str (.ptr (heapObject o)) o

/-- The objects that values of given types refer to.  Only shared values count, and a
shared struct that is kept inline counts with its members. -/
inductive Refers (env : Env) (final : State) :
    List (Option Reference) → List Value → List Nat → Prop
  | nil : Refers env final [] [] []
  | unshared {r : Reference} {v : Value} {rs : List (Option Reference)} {vs : List Value}
      {os : List Nat} (hr : r.ownership ≠ .share) (rest : Refers env final rs vs os) :
      Refers env final (some r :: rs) (v :: vs) os
  | yonder {t : Referend} {v : Value} {o : Nat} {rs : List (Option Reference)} {vs : List Value}
      {os : List Nat} (ho : o ∈ H.objects) (points : H.Points env final t v o)
      (rest : Refers env final rs vs os) :
      Refers env final (some ⟨.share, .yonder, t⟩ :: rs) (v :: vs) (o :: os)
  | members {s : Symbol} {i : Nat} {d : StructDef} {items : List Value} {os os' : List Nat}
      {rs : List (Option Reference)} {vs : List Value} (hs : env.program.structId s = i)
      (hd : env.program.structs[i]? = some d)
      (inside : Refers env final (d.members.map (·.type)) items os)
      (rest : Refers env final rs vs os') :
      Refers env final (some ⟨.share, .inline, .struct s⟩ :: rs) (.agg items :: vs) (os ++ os')
  | plain {t : Referend} {v : Value} {rs : List (Option Reference)} {vs : List Value}
      {os : List Nat} (ht : ∀ s, t ≠ .struct s) (rest : Refers env final rs vs os) :
      Refers env final (some ⟨.share, .inline, t⟩ :: rs) (v :: vs) os

/-- How many references there still are to an object: from outside, from a list of
references that are being worked off, and from the objects outside a set. -/
def due (pending : List Nat) (zeroed : Finset Nat) (o : Nat) : Nat :=
  H.others o + pending.count o + ∑ o' ∈ H.objects \ zeroed, (H.refs o').count o

/-- The objects that are reached from given ones. -/
inductive Below (roots : List Nat) : Nat → Prop
  | root {o : Nat} (ho : o ∈ roots) : Below roots o
  | ref {o o' : Nat} (below : Below roots o') (ho : o ∈ H.refs o') : Below roots o

/-- The least set that has every object below the roots to which there is no reference
but from the roots and from the set itself. -/
inductive Garbage (roots : List Nat) : Nat → Prop
  | intro {o : Nat} (below : H.Below roots o) (alone : H.others o = 0)
      (refs : ∀ o' ∈ H.objects, o ∈ H.refs o' → Garbage roots o') : Garbage roots o

/-- No chain of references among the garbage below an object goes through more than a
number of structs, each of which takes a call to drop. -/
inductive Nests (roots : List Nat) : Nat → Nat → Prop
  | struct {k o i : Nat} (shape : H.shape o = .struct i)
      (refs : ∀ o' ∈ H.refs o, H.Garbage roots o' → Nests roots k o') : Nests roots (k + 1) o
  | other {k o : Nat} (shape : ∀ i, H.shape o ≠ .struct i)
      (refs : ∀ o' ∈ H.refs o, H.Garbage roots o' → Nests roots k o') : Nests roots k o

variable {H}
variable {roots : List Nat}

theorem Nests.mono {k k' o : Nat} (h : H.Nests roots k o) (hk : k ≤ k') : H.Nests roots k' o := by
  induction h generalizing k' with
  | struct shape refs ih =>
    obtain ⟨k', rfl⟩ : ∃ n, k' = n + 1 := ⟨k' - 1, by omega⟩
    exact .struct shape fun o' ho' hg => ih o' ho' hg (Nat.le_of_succ_le_succ hk)
  | other shape refs ih => exact .other shape fun o' ho' hg => ih o' ho' hg hk

/-- Where references lead downwards, as they do in a heap without cycles, they nest no deeper
than they lead. -/
theorem nests_of_rank (rank : Nat → Nat) (h : ∀ o, ∀ o' ∈ H.refs o, rank o' < rank o) (o : Nat) :
    H.Nests roots (rank o + 1) o := by
  induction hn : rank o using Nat.strong_induction_on generalizing o with
  | _ n ih =>
    subst hn
    have hrefs : ∀ o' ∈ H.refs o, H.Nests roots (rank o) o' := fun o' ho' =>
      (ih (rank o') (h o o' ho') o' rfl).mono (h o o' ho')
    cases hshape : H.shape o with
    | struct i => exact .struct hshape fun o' ho' _ => hrefs o' ho'
    | array | str =>
      exact .other (by simp [hshape]) fun o' ho' _ => (hrefs o' ho').mono (Nat.le_succ _)

end Heap

/-! ## What a description says of memory -/

/-- The type that lowering gives to values of a type. -/
def Lowered (env : Env) (final : State) (r : Reference) (t : Ty) : Prop :=
  ∃ s s', lowerReference r env s = .ok t s' ∧ Tables s' final

/-- A value is found in an object at a place of a layout, as one of given types and whatever
the object's count is. -/
def HasPart (final : State) (m : Memory) (o : Nat) (layout : Ty) (path : List Int64)
    (types : Ty → Prop) (v : Value) : Prop :=
  ∃ q, Interp.elementAddress (layout.expand final.module.types) (heapObject o) path = .ok q ∧
    ∀ t, types t → ∀ n,
      Interp.load (t.expand final.module.types) q (m.withCount o n) = .ok v (m.withCount o n)

/-- A number as a constant of 32 bits has it. -/
def shortIndex (j : Nat) : Int64 := Interp.canonical 32 (.ofInt j)

/-- A memory holds what a description says, when the value that is released refers to the
roots. -/
structure Heap.Describes (H : Heap) (env : Env) (final : State) (roots : List Nat) (m : Memory) :
    Prop where
  /-- the count of an object is the number of the references to it -/
  counts : ∀ o ∈ H.objects, ∃ obj n, m.objects[o]? = some obj ∧ obj.Counted n ∧
    n.toInt = H.due roots ∅ o
  refers : ∀ o ∈ H.objects,
    H.Refers env final ((H.shape o).types env.program) (H.parts o) (H.refs o)
  /-- shared members are found where the struct has them -/
  members : ∀ o ∈ H.objects, ∀ i, H.shape o = .struct i →
    ∀ j r v, ((H.shape o).types env.program)[j]? = some (some r) → r.ownership = .share →
      (H.parts o)[j]? = some v →
        HasPart final m o (wrapperType env.program i) [0, 1, shortIndex j] (Lowered env final r) v
  /-- the length of an array fits its type -/
  lengths : ∀ o ∈ H.objects, ∀ size elem length, H.shape o = .array size elem length →
    length < 2 ^ 63 ∧ ∀ n, size = some n → n = length
  /-- shared elements, and their number where the type does not state it, are found where the
  layout of the array has them -/
  elements : ∀ o ∈ H.objects, ∀ size elem length, H.shape o = .array size elem length →
    elem.ownership = .share → ∀ layout,
      ((Referend.array size elem.ownership elem.location elem.referend).text, layout) ∈
        final.arrayLayouts →
      (size = none → HasPart final m o layout [0, 1] (· = .i64) (.int (.ofNat length))) ∧
      ∃ size' e, layout = arrayLayoutOf size' e ∧ ∀ j v, (H.parts o)[j]? = some v →
        HasPart final m o layout [0, if size'.isSome then 1 else 2, .ofNat j] (· = e) v

/-! ## Counting references -/

namespace Heap

variable {H : Heap} {P : List Nat} {Z : Finset Nat} {o o' : Nat}

theorem due_cons_self : H.due (o :: P) Z o = H.due P Z o + 1 := by
  simp [due]
  omega

theorem due_cons_of_ne (h : o' ≠ o) : H.due (o :: P) Z o' = H.due P Z o' := by
  simp [due, List.count_cons_of_ne h.symm]

/-- What an object refers to stays due when the object is no longer counted with the others
but its references with those that are worked off. -/
theorem due_insert (ho : o ∈ H.objects) (hZ : o ∉ Z) :
    H.due (H.refs o ++ P) (insert o Z) o' = H.due P Z o' := by
  have hmem : o ∈ H.objects \ Z := Finset.mem_sdiff.mpr ⟨ho, hZ⟩
  have hsum := Finset.add_sum_erase _ (fun i => (H.refs i).count o') hmem
  rw [due, due, Finset.sdiff_insert, ← hsum, List.count_append]
  omega

theorem due_eq_zero (h : H.due P Z o = 0) :
    H.others o = 0 ∧ ∀ o' ∈ H.objects, o ∈ H.refs o' → o' ∈ Z := by
  unfold due at h
  refine ⟨by omega, fun o' ho' href => ?_⟩
  by_contra hZ
  have hsum : ∑ i ∈ H.objects \ Z, (H.refs i).count o = 0 := by omega
  have hzero := Finset.sum_eq_zero_iff.mp hsum o' (Finset.mem_sdiff.mpr ⟨ho', hZ⟩)
  exact List.count_eq_zero.mp hzero href

/-- What is left of the references when those of a set have been worked off. -/
theorem due_nil (hZ : Z ⊆ H.objects) :
    H.due P ∅ o = H.due [] Z o + (P.count o + ∑ o' ∈ Z, (H.refs o').count o) := by
  have hsum := Finset.sum_sdiff (f := fun i => (H.refs i).count o) hZ
  simp only [due, Finset.sdiff_empty, List.count_nil]
  omega

/-- There is a reference to what is below the roots. -/
theorem Below.due_pos {roots : List Nat} (h : H.Below roots o)
    (hroots : ∀ o ∈ roots, o ∈ H.objects)
    (hrefs : ∀ o' ∈ H.objects, ∀ o ∈ H.refs o', o ∈ H.objects) :
    o ∈ H.objects ∧ 0 < H.due roots ∅ o := by
  induction h with
  | @root o ho =>
    refine ⟨hroots o ho, ?_⟩
    have := List.count_pos_iff.mpr ho
    unfold due
    omega
  | @ref o o' _ ho ih =>
    refine ⟨hrefs o' ih.1 o ho, ?_⟩
    have hcount := List.count_pos_iff.mpr ho
    have hsum := Finset.single_le_sum (f := fun i => (H.refs i).count o) (fun _ _ => Nat.zero_le _)
      ih.1
    simp only [due, Finset.sdiff_empty]
    omega

theorem Refers.mem {env : Env} {final : State} {rs : List (Option Reference)} {vs : List Value}
    {os : List Nat} (h : H.Refers env final rs vs os) (ho : o ∈ os) : o ∈ H.objects := by
  induction h with
  | nil => cases ho
  | unshared _ _ ih | plain _ _ ih => exact ih ho
  | yonder hmem _ _ ih =>
    rcases List.mem_cons.mp ho with rfl | ho
    · exact hmem
    · exact ih ho
  | members _ _ _ _ ih ih' => exact (List.mem_append.mp ho).elim ih ih'

/-! ## In the middle of a release -/

/-- What memory is like while a release is under way that began in the memory `m₀`: the
objects have the given counts, and of those of `Z`, which have come to zero, the ones outside
`E` have been freed. -/
structure Stored (H : Heap) (m0 : Memory) (count : Nat → Nat) (Z E : Finset Nat) (m : Memory) :
    Prop where
  size : m0.objects.size ≤ m.objects.size
  /-- what was added since are stack slots -/
  fresh : ∀ (id : Nat) (obj : Object), m0.objects.size ≤ id → m.objects[id]? = some obj →
    obj.region = .stack
  /-- what is not described is as it was -/
  rest : ∀ id < m0.objects.size, id ∉ H.objects → m.objects[id]? = m0.objects[id]?
  alive : ∀ o ∈ H.objects, (o ∈ Z → o ∈ E) → ∃ obj obj' n, m0.objects[o]? = some obj ∧
    m.objects[o]? = some obj' ∧ (obj.withCount n).Alike obj' ∧ n.toInt = count o
  freed : ∀ o ∈ Z, o ∉ E → ∃ obj, m.objects[o]? = some obj ∧ obj.region = .heap ∧ obj.dead = true

/-- How the references stand while they are worked off: `P` are those to come, the objects of
`Z` have come to zero, and those of `E` among them are being dropped. -/
structure Balanced (H : Heap) (roots : List Nat) (P : List Nat) (Z E : Finset Nat) : Prop where
  zeroed : Z ⊆ H.objects
  dropping : E ⊆ Z
  pending : ∀ o ∈ P, o ∈ H.objects ∧ H.Below roots o
  zero : ∀ o ∈ Z, H.due P Z o = 0
  positive : ∀ o ∈ H.objects, o ∉ Z → 0 < H.due roots ∅ o → 0 < H.due P Z o
  garbage : ∀ o ∈ Z, H.Garbage roots o

/-- A moment of a release. -/
structure Stage (H : Heap) (roots : List Nat) (m0 : Memory) (P : List Nat) (Z E : Finset Nat)
    (m : Memory) : Prop where
  stored : H.Stored m0 (H.due P Z) Z E m
  balanced : H.Balanced roots P Z E

variable {env : Env} {final : State} {roots : List Nat} {m0 m m' : Memory} {E : Finset Nat}
variable {count count' : Nat → Nat}

/-! ## What memory holds -/

namespace Stored

theorem congr (h : H.Stored m0 count Z E m) (hcount : ∀ o, count' o = count o) :
    H.Stored m0 count' Z E m := by
  rwa [funext hcount]

/-- Stack slots have been added. -/
theorem stacked (h : H.Stored m0 count Z E m) (hm : m.Stacked m') : H.Stored m0 count Z E m' where
  size := Nat.le_trans h.size hm.size
  fresh id obj hid hobj := by
    by_cases hlt : id < m.objects.size
    · rw [hm.old id hlt] at hobj
      exact h.fresh id obj hid hobj
    · exact hm.new id obj (Nat.le_of_not_lt hlt) hobj
  rest id hid hH := by
    rw [hm.old id (Nat.lt_of_lt_of_le hid h.size), h.rest id hid hH]
  alive o ho hE := by
    obtain ⟨obj, obj', n, hobj, hobj', halike, hn⟩ := h.alive o ho hE
    exact ⟨obj, obj', n, hobj, hm.getElem? hobj', halike, hn⟩
  freed o hZ hE := by
    obtain ⟨obj, hobj, hdead⟩ := h.freed o hZ hE
    exact ⟨obj, hm.getElem? hobj, hdead⟩

/-- An object that is not freed has its count. -/
theorem counted (h : H.Stored m0 count Z E m) (hD : H.Describes env final roots m0)
    (ho : o ∈ H.objects) (hE : o ∈ Z → o ∈ E) :
    ∃ obj n, m.objects[o]? = some obj ∧ obj.Counted n ∧ n.toInt = count o := by
  obtain ⟨obj, obj', n, hobj, hobj', halike, hn⟩ := h.alive o ho hE
  obtain ⟨obj0, n0, hobj0, hcounted, -⟩ := hD.counts o ho
  obtain rfl := Option.some.inj (hobj.symm.trans hobj0)
  exact ⟨obj', n, hobj', halike.counted hcounted.withCount, hn⟩

/-- What was found in an object is still there. -/
theorem part (h : H.Stored m0 count Z E m) (ho : o ∈ H.objects) (hE : o ∈ Z → o ∈ E)
    {layout : Ty} {path : List Int64} {types : Ty → Prop} {v : Value}
    (hpart : HasPart final m0 o layout path types v) :
    ∃ q, Interp.elementAddress (layout.expand final.module.types) (heapObject o) path = .ok q ∧
      ∀ t, types t → Interp.load (t.expand final.module.types) q m = .ok v m := by
  obtain ⟨q, hq, hload⟩ := hpart
  obtain ⟨obj, obj', n, hobj, hobj', halike, -⟩ := h.alive o ho hE
  have hinto : q.Into o := Interp.elementAddress_into hq ⟨.heap, rfl⟩
  exact ⟨q, hq, fun t ht => Interp.load_alike hinto (hload t ht n)
    (Interp.Memory.getElem?_withCount_self hobj) hobj' halike⟩

/-- An object of the description was there from the beginning. -/
theorem lt_size (hD : H.Describes env final roots m0) (ho : o ∈ H.objects) :
    o < m0.objects.size := by
  obtain ⟨obj, n, hobj, -⟩ := hD.counts o ho
  exact (Array.getElem?_eq_some_iff.mp hobj).1

/-- The count of one object has been changed. -/
theorem recount (h : H.Stored m0 count Z E m) (hD : H.Describes env final roots m0)
    (ho : o ∈ H.objects) (hE : o ∈ Z → o ∈ E) {n : Int64} (hn : n.toInt = count' o)
    (hothers : ∀ o', o' ≠ o → count' o' = count o') : H.Stored m0 count' Z E (m.withCount o n) where
  size := by
    rw [Interp.Memory.size_withCount]
    exact h.size
  fresh id obj hid hobj := by
    rw [Interp.Memory.getElem?_withCount_ne (by have := lt_size hD ho; omega)] at hobj
    exact h.fresh id obj hid hobj
  rest id hid hH := by
    have hne : id ≠ o := fun heq => hH (heq ▸ ho)
    rw [Interp.Memory.getElem?_withCount_ne hne, h.rest id hid hH]
  alive o' ho' hE' := by
    obtain ⟨obj, obj', c, hobj, hobj', halike, hc⟩ := h.alive o' ho' hE'
    by_cases heq : o' = o
    · subst heq
      obtain ⟨obj0, n0, hobj0, hcounted, -⟩ := hD.counts o' ho
      obtain rfl := Option.some.inj (hobj.symm.trans hobj0)
      exact ⟨obj, _, n, hobj, Interp.Memory.getElem?_withCount_self hobj', halike.recount hcounted,
        hn⟩
    · refine ⟨obj, obj', c, hobj, ?_, halike, by rw [hothers o' heq, hc]⟩
      rw [Interp.Memory.getElem?_withCount_ne heq, hobj']
  freed o' hZ hE' := by
    obtain ⟨obj, hobj, hdead⟩ := h.freed o' hZ hE'
    have hne : o' ≠ o := fun heq => hE' (heq ▸ hE (heq ▸ hZ))
    exact ⟨obj, by rw [Interp.Memory.getElem?_withCount_ne hne, hobj], hdead⟩

/-- An object comes to be dropped. -/
theorem insert (h : H.Stored m0 count Z E m) (hZ : o ∉ Z) :
    H.Stored m0 count (insert o Z) (insert o E) m :=
  { h with
    alive := fun o' ho' hE => h.alive o' ho' fun hZ' => by
      rcases Finset.mem_insert.mp (hE (Finset.mem_insert_of_mem hZ')) with rfl | hE'
      · exact absurd hZ' hZ
      · exact hE'
    freed := fun o' hZ' hE => by
      rcases Finset.mem_insert.mp hZ' with rfl | hZ'
      · exact absurd (Finset.mem_insert_self ..) hE
      · exact h.freed o' hZ' fun hE' => hE (Finset.mem_insert_of_mem hE') }

/-- An object that was dropped is freed. -/
theorem free (h : H.Stored m0 count Z E m) (hD : H.Describes env final roots m0)
    (ho : o ∈ H.objects) (hZ : o ∈ Z) (hE : o ∈ E) :
    H.Stored m0 count Z (E.erase o) (m.release o) := by
  have hothers : ∀ id, id ≠ o → (m.release o).objects[id]? = m.objects[id]? := fun id hid => by
    rw [Interp.Memory.getElem?_release, if_neg hid.symm]
  refine ⟨?_, fun id obj hid hobj => ?_, fun id hid hH => ?_, fun o' ho' hE' => ?_,
    fun o' hZ' hE' => ?_⟩
  · rw [Interp.Memory.size_release]
    exact h.size
  · rw [hothers id (by have := lt_size hD ho; omega)] at hobj
    exact h.fresh id obj hid hobj
  · have hne : id ≠ o := fun heq => hH (heq ▸ ho)
    rw [hothers id hne, h.rest id hid hH]
  · have hne : o' ≠ o := fun heq => Finset.notMem_erase o E (heq ▸ hE' (heq ▸ hZ))
    rw [hothers o' hne]
    exact h.alive o' ho' fun hZ' => Finset.mem_of_mem_erase (hE' hZ')
  · by_cases heq : o' = o
    · subst heq
      obtain ⟨obj, n, hobj, hcounted, -⟩ := h.counted hD ho fun _ => hE
      exact ⟨{ obj with dead := true }, by simp [Interp.Memory.getElem?_release, hobj],
        hcounted.region, rfl⟩
    · rw [hothers o' heq]
      exact h.freed o' hZ' fun hE => hE' (Finset.mem_erase.mpr ⟨heq, hE⟩)

/-- Stack slots that were added since have died. -/
theorem leave (h : H.Stored m0 count Z E m) (hD : H.Describes env final roots m0) {ids : List Nat}
    (hids : ∀ id ∈ ids, m0.objects.size ≤ id) :
    H.Stored m0 count Z E (ids.foldl Memory.kill m) := by
  have hold : ∀ id < m0.objects.size, (ids.foldl Memory.kill m).objects[id]? = m.objects[id]? := by
    intro id hid
    have hmem : id ∉ ids := fun hmem => Nat.not_lt.mpr (hids id hmem) hid
    simp [Interp.Memory.getElem?_killAll, hmem]
  refine ⟨?_, fun id obj hid hobj => ?_, fun id hid hH => ?_, fun o ho hE => ?_, fun o hZ hE => ?_⟩
  · rw [Interp.Memory.size_killAll]
    exact h.size
  · rw [Interp.Memory.getElem?_killAll, Option.map_eq_some_iff] at hobj
    obtain ⟨obj', hobj', rfl⟩ := hobj
    have := h.fresh id obj' hid hobj'
    split <;> exact this
  · rw [hold id hid, h.rest id hid hH]
  · rw [hold o (lt_size hD ho)]
    exact h.alive o ho hE
  · obtain ⟨obj, hobj, hdead⟩ := h.freed o hZ hE
    by_cases hlt : o < m0.objects.size
    · exact ⟨obj, by rw [hold o hlt, hobj], hdead⟩
    · refine ⟨_, by rw [Interp.Memory.getElem?_killAll, hobj]; rfl, ?_⟩
      split
      · exact ⟨hdead.1, rfl⟩
      · exact hdead

end Stored

/-! ## How the references stand -/

namespace Balanced

/-- The next reference is to an object that has not come to zero. -/
theorem next (h : H.Balanced roots (o :: P) Z E) : o ∈ H.objects ∧ o ∉ Z := by
  refine ⟨(h.pending o (List.mem_cons_self ..)).1, fun hZ => ?_⟩
  have := h.zero o hZ
  rw [due_cons_self] at this
  omega

/-- A reference has been worked off, and the object has others. -/
theorem tail (h : H.Balanced roots (o :: P) Z E) (hdue : 0 < H.due P Z o) :
    H.Balanced roots P Z E :=
  { h with
    pending := fun o' ho' => h.pending o' (List.mem_cons_of_mem _ ho')
    zero := fun o' hZ => by
      have hne : o' ≠ o := fun heq => h.next.2 (heq ▸ hZ)
      rw [← due_cons_of_ne hne]
      exact h.zero o' hZ
    positive := fun o' ho' hZ hpos => by
      by_cases heq : o' = o
      · exact heq ▸ hdue
      · rw [← due_cons_of_ne heq]
        exact h.positive o' ho' hZ hpos }

/-- The last reference to an object has been worked off: those of the object itself come
next. -/
theorem zeroing (h : H.Balanced roots (o :: P) Z E) (hdue : H.due P Z o = 0)
    (hrefs : ∀ o' ∈ H.refs o, o' ∈ H.objects) :
    H.Balanced roots (H.refs o ++ P) (insert o Z) (insert o E) := by
  obtain ⟨ho, hZ⟩ := h.next
  have hbelow := (h.pending o (List.mem_cons_self ..)).2
  obtain ⟨halone, hreferrers⟩ := due_eq_zero hdue
  refine ⟨Finset.insert_subset ho h.zeroed, Finset.insert_subset_insert _ h.dropping,
    fun o' ho' => ?_, fun o' hZ' => ?_, fun o' ho' hZ' hpos => ?_, fun o' hZ' => ?_⟩
  · rcases List.mem_append.mp ho' with href | hP
    · exact ⟨hrefs o' href, .ref hbelow href⟩
    · exact h.pending o' (List.mem_cons_of_mem _ hP)
  · rw [due_insert ho hZ]
    rcases Finset.mem_insert.mp hZ' with rfl | hZ'
    · exact hdue
    · have hne : o' ≠ o := fun heq => hZ (heq ▸ hZ')
      rw [← due_cons_of_ne hne]
      exact h.zero o' hZ'
  · rw [Finset.mem_insert, not_or] at hZ'
    rw [due_insert ho hZ, ← due_cons_of_ne hZ'.1]
    exact h.positive o' ho' hZ'.2 hpos
  · rcases Finset.mem_insert.mp hZ' with rfl | hZ'
    · exact ⟨hbelow, halone, fun o' ho' href => h.garbage o' (hreferrers o' ho' href)⟩
    · exact h.garbage o' hZ'

/-- Garbage is what has come to zero when all references are worked off. -/
theorem garbage_iff (h : H.Balanced roots [] Z E) (hroots : ∀ o ∈ roots, o ∈ H.objects)
    (hrefs : ∀ o' ∈ H.objects, ∀ o ∈ H.refs o', o ∈ H.objects) : H.Garbage roots o ↔ o ∈ Z := by
  refine ⟨fun hg => ?_, h.garbage o⟩
  induction hg with
  | @intro o below alone refs ih =>
    by_contra hZ
    have hobject := below.due_pos hroots hrefs
    have hpos := h.positive o hobject.1 hZ hobject.2
    have hsum : ∑ o' ∈ H.objects \ Z, (H.refs o').count o = 0 :=
      Finset.sum_eq_zero fun o' ho' => by
        obtain ⟨ho', hZ'⟩ := Finset.mem_sdiff.mp ho'
        exact List.count_eq_zero.mpr fun href => hZ' (ih o' ho' href)
    simp [due, alone, hsum] at hpos

end Balanced

/-! ## Steps of a release -/

theorem Describes.stage (h : H.Describes env final roots m) (hroots : ∀ o ∈ roots, o ∈ H.objects) :
    H.Stage roots m roots ∅ ∅ m where
  stored :=
    { size := Nat.le_refl _
      fresh := fun id obj hid hobj =>
        absurd (Array.getElem?_eq_some_iff.mp hobj).1 (Nat.not_lt.mpr hid)
      rest := fun _ _ _ => rfl
      alive := fun o ho _ => by
        obtain ⟨obj, n, hobj, hcounted, hn⟩ := h.counts o ho
        exact ⟨obj, obj, n, hobj, hobj, hcounted.alike_withCount, hn⟩
      freed := fun o ho => absurd ho (Finset.notMem_empty o) }
  balanced :=
    { zeroed := Finset.empty_subset _
      dropping := Finset.Subset.refl _
      pending := fun o ho => ⟨hroots o ho, .root ho⟩
      zero := fun o ho => absurd ho (Finset.notMem_empty o)
      positive := fun _ _ _ h => h
      garbage := fun o ho => absurd ho (Finset.notMem_empty o) }

namespace Stage

theorem stacked (h : H.Stage roots m0 P Z E m) (hm : m.Stacked m') : H.Stage roots m0 P Z E m' :=
  ⟨h.stored.stacked hm, h.balanced⟩

theorem toInt_sub_one {n : Int64} {k : Nat} (hn : n.toInt = (k + 1 : Nat)) : (n - 1).toInt = k := by
  have hlt := Int64.toInt_lt n
  rw [Int64.toInt_sub, Int64.toInt_one, Int.bmod_eq_of_le (by omega) (by omega)]
  omega

/-- The count of the object of the next reference is taken down; if it comes to zero, the
object's own references come next. -/
theorem countdown (h : H.Stage roots m0 (o :: P) Z E m) (hD : H.Describes env final roots m0) :
    o ∈ H.objects ∧ ∃ obj n, m.objects[o]? = some obj ∧ obj.Counted n ∧
      (n - 1 ≠ 0 → H.Stage roots m0 P Z E (m.withCount o (n - 1))) ∧
      (n - 1 = 0 → H.Garbage roots o ∧
        H.Stage roots m0 (H.refs o ++ P) (insert o Z) (insert o E) (m.withCount o (n - 1))) := by
  obtain ⟨ho, hZ⟩ := h.balanced.next
  obtain ⟨obj, n, hobj, hcounted, hn⟩ := h.stored.counted hD ho fun hZ' => absurd hZ' hZ
  rw [due_cons_self] at hn
  have hn' := toInt_sub_one hn
  have hstored : H.Stored m0 (H.due P Z) Z E (m.withCount o (n - 1)) :=
    h.stored.recount hD ho (fun hZ' => absurd hZ' hZ) hn' fun o' hne => (due_cons_of_ne hne).symm
  refine ⟨ho, obj, n, hobj, hcounted, fun hne => ⟨hstored, h.balanced.tail ?_⟩, fun hzero => ?_⟩
  · refine Nat.pos_of_ne_zero fun hdue => hne ?_
    rw [hdue] at hn'
    exact Int64.toInt_inj.mp hn'
  · have hdue : H.due P Z o = 0 := by
      rw [hzero, Int64.toInt_zero] at hn'
      exact_mod_cast hn'.symm
    have hbalanced := h.balanced.zeroing hdue fun o' => (hD.refers o ho).mem
    exact ⟨hbalanced.garbage o (Finset.mem_insert_self ..),
      (hstored.insert hZ).congr fun o' => due_insert ho hZ, hbalanced⟩

/-- An object whose references are worked off is freed. -/
theorem free (h : H.Stage roots m0 P Z E m) (hD : H.Describes env final roots m0) (hE : o ∈ E) :
    (∃ obj n, m.objects[o]? = some obj ∧ obj.Counted n) ∧
      H.Stage roots m0 P Z (E.erase o) (m.release o) := by
  have hZ := h.balanced.dropping hE
  have ho := h.balanced.zeroed hZ
  obtain ⟨obj, n, hobj, hcounted, -⟩ := h.stored.counted hD ho fun _ => hE
  refine ⟨⟨obj, n, hobj, hcounted⟩, h.stored.free hD ho hZ hE, { h.balanced with dropping := ?_ }⟩
  exact (Finset.erase_subset o E).trans h.balanced.dropping

/-- Stack slots that were added since have died. -/
theorem leave (h : H.Stage roots m0 P Z E m) (hD : H.Describes env final roots m0) {ids : List Nat}
    (hids : ∀ id ∈ ids, m0.objects.size ≤ id) : H.Stage roots m0 P Z E (ids.foldl Memory.kill m) :=
  ⟨h.stored.leave hD hids, h.balanced⟩

end Stage

/-! ## The end of a release -/

/-- What the release of a value has done, if it refers to the roots: the objects of a set have
been freed. -/
structure Reclaimed (H : Heap) (roots : List Nat) (F : Finset Nat) (m m' : Memory) : Prop where
  garbage : ∀ o, o ∈ F ↔ H.Garbage roots o
  freed : ∀ o ∈ F, ∃ obj obj', m.objects[o]? = some obj ∧ obj.dead = false ∧
    m'.objects[o]? = some obj' ∧ obj'.region = .heap ∧ obj'.dead = true
  /-- the count of an object that is left has come down by the references to it that are gone,
  and its other cells are as they were -/
  kept : ∀ o ∈ H.objects, o ∉ F → ∃ obj obj' n n', m.objects[o]? = some obj ∧ obj.Counted n ∧
    m'.objects[o]? = some obj' ∧ obj'.Counted n' ∧
    n'.toInt = n.toInt - (roots.count o + ∑ o' ∈ F, (H.refs o').count o : Nat) ∧
    obj'.address = obj.address ∧ obj'.size = obj.size ∧
    ∀ offset : Int64, offset ≠ 0 → obj'.cells[offset]? = obj.cells[offset]?
  /-- what is not described is as it was -/
  rest : ∀ id < m.objects.size, id ∉ H.objects → m'.objects[id]? = m.objects[id]?
  /-- what was added are stack slots -/
  fresh : ∀ (id : Nat) (obj : Object), m.objects.size ≤ id → m'.objects[id]? = some obj →
    obj.region = .stack

/-- When all references are worked off, the garbage is reclaimed. -/
theorem Stage.reclaimed (h : H.Stage roots m0 [] Z ∅ m) (hD : H.Describes env final roots m0)
    (hroots : ∀ o ∈ roots, o ∈ H.objects) : H.Reclaimed roots Z m0 m where
  garbage o := (h.balanced.garbage_iff hroots fun o' ho' o => (hD.refers o' ho').mem).symm
  freed o ho := by
    obtain ⟨obj, n, hobj, hcounted, -⟩ := hD.counts o (h.balanced.zeroed ho)
    obtain ⟨obj', hobj', hdead⟩ := h.stored.freed o ho (Finset.notMem_empty o)
    exact ⟨obj, obj', hobj, hcounted.alive, hobj', hdead⟩
  kept o ho hZ := by
    obtain ⟨obj, obj', n', hobj, hobj', halike, hn'⟩ :=
      h.stored.alive o ho fun hmem => absurd hmem hZ
    obtain ⟨obj0, n, hobj0, hcounted, hn⟩ := hD.counts o ho
    obtain rfl := Option.some.inj (hobj.symm.trans hobj0)
    refine ⟨obj, obj', n, n', hobj, hcounted, hobj', halike.counted hcounted.withCount, ?_, ?_, ?_,
      fun offset hne => ?_⟩
    · rw [hn', hn, due_nil h.balanced.zeroed]
      omega
    · rw [halike.address, Interp.Object.address_withCount]
    · rw [halike.size, Interp.Object.size_withCount]
    · rw [halike.cells, Interp.Object.withCount_cells hcounted.behind hne]
  rest := h.stored.rest
  fresh := h.stored.fresh

end Heap

end Tenure.Lowering

import Mathlib.Algebra.Group.Nat.Defs
import Tenure.Interp.Layout

/-!
# Layouts as numbers

The layout of a type is computed in words that may wrap.  This file computes it in natural
numbers: `extent` and `grain` are the size and the alignment, and `parts` are the fields or the
items of an aggregate with their places.  The two agree as long as the size leaves a little room
in a word (`LaidOut.sizeOf`, `elementOffset_part`).
-/

namespace Tenure.Interp

open Ir (Ty)

/-- The first multiple of an alignment from a number on. -/
def alignUp (n align : Nat) : Nat := (n + align - 1) / align * align

mutual

/-- The alignment of a type, as a number. -/
def grain : Ty → Nat
  | .int bits => (bits + 7) / 8
  | .ptr _ => 8
  | .struct _ fields => grainOfAll 1 fields
  | .array _ elem => grain elem
  | _ => 1

def grainOfAll (align : Nat) : List Ty → Nat
  | [] => align
  | t :: ts => grainOfAll (if align < grain t then grain t else align) ts

end

mutual

/-- The size of a type, as a number. -/
def extent : Ty → Nat
  | .int bits => (bits + 7) / 8
  | .ptr _ => 8
  | .struct _ fields => alignUp (fieldsExtent 0 fields) (grainOfAll 1 fields)
  | .array len elem => len * extent elem
  | _ => 0

/-- Where a run of fields that starts at an offset ends. -/
def fieldsExtent (offset : Nat) : List Ty → Nat
  | [] => offset
  | t :: ts => fieldsExtent (alignUp offset (grain t) + extent t) ts

end

/-- The fields of a run that starts at an offset, with their places. -/
def fieldParts (offset : Nat) : List Ty → List (Nat × Ty)
  | [] => []
  | t :: ts => (alignUp offset (grain t), t) :: fieldParts (alignUp offset (grain t) + extent t) ts

/-- The fields or the items of an aggregate, with their places. -/
def parts : Ty → List (Nat × Ty)
  | .struct _ fields => fieldParts 0 fields
  | .array len elem => (List.range len).map fun i => (i * extent elem, elem)
  | _ => []

/-- The types that are made of integers of up to 64 bits and of pointers. -/
inductive Sized : Ty → Prop
  | int {bits : Nat} (pos : 1 ≤ bits) (le : bits ≤ 64) : Sized (.int bits)
  | ptr {elem : Ty} : Sized (.ptr elem)
  | array {len : Nat} {elem : Ty} (h : Sized elem) : Sized (.array len elem)
  | struct (name : String) {fields : List Ty} (h : ∀ t ∈ fields, Sized t) :
      Sized (.struct name fields)

/-- The layout of a type is computed without wrapping. -/
structure LaidOut (t : Ty) : Prop where
  sized : Sized t
  small : extent t + 8 ≤ 2 ^ 63

variable {t u : Ty} {ts : List Ty} {n a i d k offset : Nat}

/-! ## Alignment -/

/-- The alignments that occur. -/
def IsGrain (a : Nat) : Prop := 1 ≤ a ∧ a ≤ 8

theorem le_alignUp (ha : IsGrain a) : n ≤ alignUp n a := by
  have hdiv := Nat.div_add_mod (n + a - 1) a
  have hmod := Nat.mod_lt (n + a - 1) ha.1
  rw [alignUp, Nat.mul_comm]
  omega

/-- What is aligned stays where it is. -/
theorem alignUp_eight_mul (ha : a = 1 ∨ a = 8) (hn : n % 8 = 0) : alignUp n a = n := by
  unfold alignUp
  rcases ha with rfl | rfl <;> omega

theorem alignTo_eq (ha : IsGrain a) (w : Int64) :
    alignTo w (.ofNat a) = .ok ((w + .ofNat a - 1) / .ofNat a * .ofNat a) := by
  obtain ⟨hlow, hhigh⟩ := ha
  refine if_neg fun h => ?_
  have hint := congrArg Int64.toInt h
  rw [Int64.toInt_ofNat_of_lt (by omega), Int64.toInt_zero] at hint
  omega

theorem alignTo_of (ha : IsGrain a) (hn : alignUp n a + 8 ≤ 2 ^ 63) :
    alignTo (.ofNat n) (.ofNat a) = .ok (.ofNat (alignUp n a)) := by
  have hle := le_alignUp (n := n) ha
  have hlow := ha.1
  have hhigh := ha.2
  have hpred : Int64.ofNat (n + a - 1) = Int64.ofNat n + Int64.ofNat a - 1 := by
    have hone : n + a - 1 + 1 = n + a := by omega
    rw [← Int64.ofNat_add, ← hone, Int64.ofNat_add (n + a - 1) 1]
    exact (Int64.add_sub_cancel _ _).symm
  rw [alignTo_eq ha, ← hpred, alignUp, Int64.ofNat_mul, Int64.ofNat_div (by omega) (by omega)]

theorem grainOfAll_of {P : Nat → Prop} (h : ∀ t ∈ ts, P (grain t)) (ha : P a) :
    P (grainOfAll a ts) := by
  induction ts generalizing a with
  | nil => exact ha
  | cons t ts ih =>
    obtain ⟨ht, hts⟩ := List.forall_mem_cons.1 h
    rw [grainOfAll]
    refine ih hts ?_
    split
    · exact ht
    · exact ha

theorem alignOfAll_of (h : ∀ t ∈ ts, alignOf t = .ok (.ofNat (grain t)) ∧ IsGrain (grain t))
    (ha : IsGrain a) : alignOfAll (.ofNat a) ts = .ok (.ofNat (grainOfAll a ts)) := by
  induction ts generalizing a with
  | nil => rfl
  | cons t ts ih =>
    obtain ⟨⟨halign, hgrain⟩, hts⟩ := List.forall_mem_cons.1 h
    have hless : Int64.ofNat a < Int64.ofNat (grain t) ↔ a < grain t := by
      have := ha.2
      have := hgrain.2
      rw [Int64.lt_iff_toInt_lt, Int64.toInt_ofNat_of_lt (by omega),
        Int64.toInt_ofNat_of_lt (by omega), Int.ofNat_lt]
    have hmax : (if Int64.ofNat a < Int64.ofNat (grain t) then Int64.ofNat (grain t)
        else Int64.ofNat a) = Int64.ofNat (if a < grain t then grain t else a) := by
      simp only [hless]
      split <;> rfl
    rw [alignOfAll, halign, grainOfAll]
    refine Eq.trans (congrArg (alignOfAll · ts) hmax) (ih hts ?_)
    split
    · exact hgrain
    · exact ha

theorem intBytes_of_le {bits : Nat} (h : bits ≤ 64) : intBytes bits = .ofNat ((bits + 7) / 8) := by
  have hall : ∀ b : Fin 65, intBytes b = .ofNat ((b.val + 7) / 8) := by decide
  exact hall ⟨bits, by omega⟩

theorem Sized.alignOf (h : Sized t) :
    Interp.alignOf t = .ok (.ofNat (grain t)) ∧ IsGrain (grain t) := by
  induction h with
  | int pos le =>
    refine ⟨by rw [Interp.alignOf, intBytes_of_le le, grain], ?_⟩
    rw [grain, IsGrain]
    omega
  | ptr => exact ⟨rfl, show 1 ≤ 8 ∧ 8 ≤ 8 by decide⟩
  | array _ ih => exact ih
  | struct _ _ ih =>
    have hone : IsGrain 1 := ⟨by decide, by decide⟩
    exact ⟨alignOfAll_of ih hone, grainOfAll_of (fun t ht => (ih t ht).2) hone⟩

/-! ## Sizes -/

/-- Even where sizes wrap, there is one. -/
theorem Sized.exists_sizeOf (h : Sized t) : ∃ w, sizeOf t = .ok w := by
  induction h with
  | int | ptr => exact ⟨_, rfl⟩
  | array _ ih =>
    obtain ⟨w, hw⟩ := ih
    exact ⟨_, by rw [sizeOf, hw]; rfl⟩
  | @struct name fields h ih =>
    have hstop : ∀ w, ∃ stop, fieldsEnd w fields = .ok stop := by
      clear name
      induction fields with
      | nil => exact fun w => ⟨w, rfl⟩
      | cons t ts ihts =>
        obtain ⟨⟨w, hw⟩, hsizes⟩ := List.forall_mem_cons.1 ih
        obtain ⟨ht, hts⟩ := List.forall_mem_cons.1 h
        intro offset
        simp only [fieldsEnd, ht.alignOf.1, alignTo_eq ht.alignOf.2, hw, bind, Except.bind]
        exact ihts hts hsizes _
    obtain ⟨stop, hstop⟩ := hstop 0
    obtain ⟨halign, hgrain⟩ := (Sized.struct name h).alignOf
    rw [Interp.alignOf] at halign
    exact ⟨_, by simp only [sizeOf, hstop, halign, bind, Except.bind]; exact alignTo_eq hgrain _⟩

section Fields

variable (hts : ∀ t ∈ ts, Sized t)
include hts

theorem le_fieldsExtent (offset : Nat) : offset ≤ fieldsExtent offset ts := by
  induction ts generalizing offset with
  | nil => exact Nat.le_refl _
  | cons t ts ih =>
    obtain ⟨ht, hts⟩ := List.forall_mem_cons.1 hts
    have hstart := le_alignUp (n := offset) ht.alignOf.2
    have hend := ih hts (alignUp offset (grain t) + extent t)
    rw [fieldsExtent]
    omega

theorem fieldsEnd_of (hsize : ∀ t ∈ ts, extent t + 8 ≤ 2 ^ 63 → sizeOf t = .ok (.ofNat (extent t)))
    (hfit : fieldsExtent offset ts + 8 ≤ 2 ^ 63) :
    fieldsEnd (.ofNat offset) ts = .ok (.ofNat (fieldsExtent offset ts)) := by
  induction ts generalizing offset with
  | nil => rfl
  | cons t ts ih =>
    obtain ⟨ht, hts⟩ := List.forall_mem_cons.1 hts
    obtain ⟨hn, hsizes⟩ := List.forall_mem_cons.1 hsize
    rw [fieldsExtent] at hfit ⊢
    have hend := le_fieldsExtent hts (alignUp offset (grain t) + extent t)
    simp only [fieldsEnd, ht.alignOf.1, alignTo_of ht.alignOf.2 (n := offset) (by omega),
      hn (by omega), bind, Except.bind]
    rw [← Int64.ofNat_add]
    exact ih hts hsizes hfit

/-- Every field is behind the start of its run and before the end. -/
theorem of_mem_fieldParts {p : Nat × Ty} (hp : p ∈ fieldParts offset ts) :
    offset ≤ p.1 ∧ p.1 + extent p.2 ≤ fieldsExtent offset ts ∧ Sized p.2 := by
  induction ts generalizing offset with
  | nil => simp [fieldParts] at hp
  | cons t ts ih =>
    obtain ⟨ht, hts⟩ := List.forall_mem_cons.1 hts
    have hstart := le_alignUp (n := offset) ht.alignOf.2
    rw [fieldsExtent]
    rcases List.mem_cons.1 hp with rfl | hp
    · exact ⟨hstart, le_fieldsExtent hts _, ht⟩
    · obtain ⟨hlow, hrest⟩ := ih hts hp
      exact ⟨by omega, hrest⟩

theorem fieldParts_apart : (fieldParts offset ts).Pairwise fun p q => p.1 + extent p.2 ≤ q.1 := by
  induction ts generalizing offset with
  | nil => exact .nil
  | cons t ts ih =>
    obtain ⟨-, hts⟩ := List.forall_mem_cons.1 hts
    exact .cons (fun q hq => (of_mem_fieldParts hts hq).1) (ih hts)

end Fields

theorem fieldsExtent_le (name : String) (h : ∀ t ∈ ts, Sized t) :
    fieldsExtent 0 ts ≤ extent (.struct name ts) := by
  rw [extent]
  exact le_alignUp (Sized.struct name h).alignOf.2

/-- The size of a type is what it should be. -/
theorem LaidOut.sizeOf (h : LaidOut t) : Interp.sizeOf t = .ok (.ofNat (extent t)) := by
  obtain ⟨h, hfit⟩ := h
  induction h with
  | int _ le => rw [Interp.sizeOf, intBytes_of_le le, extent]
  | ptr => rfl
  | @array len elem h ih =>
    rw [extent] at hfit ⊢
    obtain rfl | hlen := Nat.eq_zero_or_pos len
    · obtain ⟨w, hw⟩ := h.exists_sizeOf
      rw [Interp.sizeOf, hw, Nat.zero_mul]
      exact congrArg Except.ok (Int64.zero_mul)
    · have hle : extent elem ≤ len * extent elem := Nat.le_mul_of_pos_left _ hlen
      rw [Interp.sizeOf, ih (by omega), Int64.ofNat_mul]
      rfl
  | @struct name fields h ih =>
    have hle := fieldsExtent_le name h
    obtain ⟨halign, hgrain⟩ := (Sized.struct name h).alignOf
    have hend : fieldsEnd (.ofNat 0) fields = _ := fieldsEnd_of h ih (by omega)
    rw [Interp.alignOf] at halign
    simp only [Interp.sizeOf, bind, Except.bind]
    rw [show (0 : Int64) = .ofNat 0 from rfl, hend, halign]
    exact alignTo_of hgrain hfit

/-! ## Parts -/

variable {p : Nat × Ty}

theorem of_mem_parts (h : Sized t) (hp : p ∈ parts t) :
    p.1 + extent p.2 ≤ extent t ∧ Sized p.2 := by
  cases h with
  | int | ptr => simp [parts] at hp
  | @array len elem h =>
    obtain ⟨i, hi, rfl⟩ := List.mem_map.1 hp
    refine ⟨?_, h⟩
    rw [extent, ← Nat.succ_mul]
    exact Nat.mul_le_mul_right _ (List.mem_range.1 hi)
  | struct name h =>
    obtain ⟨-, hend, hsized⟩ := of_mem_fieldParts h hp
    exact ⟨Nat.le_trans hend (fieldsExtent_le name h), hsized⟩

theorem parts_apart (h : Sized t) : (parts t).Pairwise fun p q => p.1 + extent p.2 ≤ q.1 := by
  cases h with
  | int | ptr => exact .nil
  | @array len elem =>
    refine List.pairwise_map.2 (List.pairwise_lt_range.imp fun {i j} hij => ?_)
    rw [← Nat.succ_mul]
    exact Nat.mul_le_mul_right _ hij
  | struct _ h => exact fieldParts_apart h

theorem parts_apart_of_ne (h : Sized t) {j : Nat} {q : Nat × Ty} (hp : (parts t)[i]? = some p)
    (hq : (parts t)[j]? = some q) (hne : i ≠ j) :
    p.1 + extent p.2 ≤ q.1 ∨ q.1 + extent q.2 ≤ p.1 := by
  have hall := List.pairwise_iff_getElem.1 (parts_apart h)
  obtain ⟨hi, rfl⟩ := List.getElem?_eq_some_iff.1 hp
  obtain ⟨hj, rfl⟩ := List.getElem?_eq_some_iff.1 hq
  exact (Nat.lt_or_gt_of_ne hne).imp (hall i j hi hj) (hall j i hj hi)

theorem LaidOut.part (h : LaidOut t) (hp : p ∈ parts t) : LaidOut p.2 := by
  obtain ⟨hle, hsized⟩ := of_mem_parts h.sized hp
  exact ⟨hsized, by have := h.small; omega⟩

/-! ## Addresses -/

theorem fieldAt_of (hts : ∀ t ∈ ts, Sized t) (hi : (fieldParts offset ts)[i]? = some (d, u))
    (hd : d + 8 ≤ 2 ^ 63) : fieldAt (.ofNat offset) ts i = .ok (some (.ofNat d, u)) := by
  induction ts generalizing offset i with
  | nil => simp [fieldParts] at hi
  | cons t ts ih =>
    obtain ⟨ht, hts'⟩ := List.forall_mem_cons.1 hts
    obtain ⟨halign, hgrain⟩ := ht.alignOf
    rw [fieldAt, halign]
    cases i with
    | zero =>
      obtain ⟨rfl, rfl⟩ := Prod.mk.inj (Option.some.inj hi)
      simp only [bind, Except.bind, alignTo_of hgrain hd]
      rfl
    | succ i =>
      have hle := (of_mem_fieldParts hts' (List.mem_of_getElem? hi)).1
      have hlaid : LaidOut t := ⟨ht, by omega⟩
      simp only [bind, Except.bind, alignTo_of hgrain (n := offset) (by omega), hlaid.sizeOf]
      rw [← Int64.ofNat_add]
      exact ih hts' hi

theorem elementOffset_item (h : LaidOut t) (len : Nat) (path : List Int64) :
    elementOffset (.array len t) (.ofNat k) (.ofNat i :: path) =
      elementOffset t (.ofNat (k + i * extent t)) path := by
  rw [elementOffset, h.sizeOf, Int64.ofNat_add, Int64.ofNat_mul]
  rfl

/-- One index leads to the place of a part. -/
theorem elementOffset_part (h : Sized t) (hi : (parts t)[i]? = some (d, u))
    (hd : d + extent u + 8 ≤ 2 ^ 63) (hlt : i < 2 ^ 63) (path : List Int64) :
    elementOffset t (.ofNat k) (.ofNat i :: path) = elementOffset u (.ofNat (k + d)) path := by
  cases h with
  | int | ptr => simp [parts] at hi
  | @array len elem h =>
    obtain ⟨hlen, heq⟩ := List.getElem?_eq_some_iff.1 hi
    simp only [parts, List.getElem_map, List.getElem_range, Prod.mk.injEq] at heq
    obtain ⟨rfl, rfl⟩ := heq
    exact elementOffset_item ⟨h, by omega⟩ len path
  | @struct name fields h =>
    have hint := Int64.toInt_ofNat_of_lt hlt
    have hindex :
        (if Int64.ofNat i < 0 then fields.length else (Int64.ofNat i).toNatClampNeg) = i := by
      rw [if_neg, Int64.toNatClampNeg, hint, Int.toNat_natCast]
      rw [Int64.lt_iff_toInt_lt, hint, Int64.toInt_zero]
      omega
    have hfield : fieldAt 0 fields i = _ := fieldAt_of h hi (by omega)
    simp only [elementOffset, bind, Except.bind, hindex, hfield]
    rw [Int64.ofNat_add]

/-- An address inside the value that a pointer leads to. -/
theorem elementAddress_zero (h : Sized t) {p : Pointer} {path : List Int64} {w : Int64}
    (hpath : elementOffset t p.offset path = .ok w) :
    elementAddress t p (0 :: path) = .ok { p with offset := w } := by
  obtain ⟨n, hn⟩ := h.exists_sizeOf
  rw [elementAddress, hn]
  simp only [bind, Except.bind, Int64.zero_mul, Int64.add_zero, hpath]
  rfl

end Tenure.Interp

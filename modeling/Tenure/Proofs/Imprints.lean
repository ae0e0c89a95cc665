import Tenure.Proofs.LastWriter

/-!
# What stores leave behind

A value of a type is stored as scalars, each in a cell of its own.  `Imprint` says that the
cells of an object have them all, at an offset.  Inside a living object, a value is loaded exactly
where its imprint is found (`load_iff_imprint`), and a store completes: it leaves the imprint of
its value and changes no cell in other bytes (`stores_store`).  So the value that was stored last
is loaded, as long as the bytes it takes have been left alone (`LastStored.load`), whatever else
has happened to the object.
-/

namespace Tenure.Interp

open Ir (Ty)

variable {m m' : Memory} {id j k n lo hi : Nat} {o : Object} {p : Pointer} {t : Ty} {v : Value}
variable {cells cells' cells'' : Cells}

/-! ## Offsets -/

theorem ofNat_ne_of_lt (h : j < k) (hk : k < 2 ^ 63) : Int64.ofNat k ≠ Int64.ofNat j := by
  intro heq
  have hint := congrArg Int64.toInt heq
  rw [Int64.toInt_ofNat_of_lt hk, Int64.toInt_ofNat_of_lt (Nat.lt_trans h hk)] at hint
  omega

theorem ofNat_nonneg (hk : k < 2 ^ 63) : 0 ≤ Int64.ofNat k := by
  rw [Int64.le_iff_toInt_le, Int64.toInt_ofNat_of_lt hk, Int64.toInt_zero]
  omega

variable {α : Type} {size : Int64} {vs : List Value}

theorem ofNat_add_le_iff (h : k + n < 2 ^ 63) :
    Int64.ofNat k + Int64.ofNat n ≤ size ↔ ((k + n : Nat) : Int) ≤ size.toInt := by
  rw [← Int64.ofNat_add, Int64.le_iff_toInt_le, Int64.toInt_ofNat_of_lt h]

theorem fits_word (h : ((k + n : Nat) : Int) ≤ size.toInt) : k + n < 2 ^ 63 := by
  have := size.toInt_lt
  omega

theorem ofNat_toInt_toNat {n : Int64} (h : 0 ≤ n.toInt) : Int64.ofNat n.toInt.toNat = n := by
  have hlt := n.toInt_lt
  rw [← Int64.toInt_inj, Int64.toInt_ofNat_of_lt (by omega)]
  omega

/-- A pointer leads to an offset of a living object. -/
structure Pointer.At (p : Pointer) (m : Memory) (id k : Nat) (o : Object) : Prop where
  into : p.Into id
  offset : p.offset = .ofNat k
  object : m.objects[id]? = some o
  alive : o.dead = false

theorem Pointer.At.shift (h : p.At m id k o) (n : Nat) :
    (p.shift (.ofNat n)).At m id (k + n) o where
  into := h.into
  offset := by rw [Pointer.shift, h.offset, Int64.ofNat_add]
  object := h.object
  alive := h.alive

theorem Pointer.At.bounds (h : p.At m id k o) (hfit : ((k + n : Nat) : Int) ≤ o.size.toInt) :
    0 ≤ p.offset ∧ p.offset + .ofNat n ≤ o.size := by
  have hlt := fits_word hfit
  rw [h.offset]
  exact ⟨ofNat_nonneg (by omega), (ofNat_add_le_iff hlt).mpr hfit⟩

theorem Pointer.At.checkAccess (h : p.At m id k o) (hfit : ((k + n : Nat) : Int) ≤ o.size.toInt) :
    checkAccess p (.ofNat n) m = .ok id m := by
  obtain ⟨region, hbase⟩ := h.into
  obtain ⟨hlow, hhigh⟩ := h.bounds hfit
  exact checkAccess_of hbase h.object h.alive hlow hhigh

/-- An access that is allowed is inside a living object, if its end does not wrap. -/
theorem at_of_checkAccess (h : checkAccess p (.ofNat n) m = .ok id m')
    (hend : p.offset.toInt + n < 2 ^ 63) :
    ∃ o, p.At m id p.offset.toInt.toNat o ∧
      ((p.offset.toInt.toNat + n : Nat) : Int) ≤ o.size.toInt := by
  obtain ⟨-, region, o, hbase, ho, hdead, hlow, hhigh⟩ := checkAccess_ok h
  rw [Int64.le_iff_toInt_le, Int64.toInt_zero] at hlow
  have hoffset := (ofNat_toInt_toNat hlow).symm
  refine ⟨o, ⟨⟨region, hbase⟩, hoffset, ho, hdead⟩, ?_⟩
  rw [hoffset] at hhigh
  exact (ofNat_add_le_iff (by omega)).mp hhigh

/-! ## Cells that are kept -/

/-- The cells between two offsets are still there. -/
def Cells.KeptIn (lo hi : Nat) (cells cells' : Cells) : Prop :=
  ∀ (j n : Nat) (v : Value), 0 < n → lo ≤ j → j + n ≤ hi →
    cells[Int64.ofNat j]? = some ⟨.ofNat n, v⟩ → cells'[Int64.ofNat j]? = some ⟨.ofNat n, v⟩

/-- Only between two offsets have cells come or gone. -/
structure Cells.ChangedIn (lo hi : Nat) (cells cells' : Cells) : Prop where
  kept : ∀ (j n : Nat) (v : Value), 0 < n → j + n < 2 ^ 63 → j + n ≤ lo ∨ hi ≤ j →
    cells[Int64.ofNat j]? = some ⟨.ofNat n, v⟩ → cells'[Int64.ofNat j]? = some ⟨.ofNat n, v⟩
  new : ∀ (offset : Int64) (c : Cell), cells'[offset]? = some c → cells[offset]? = some c ∨
    ∃ j n : Nat, offset = .ofNat j ∧ c.size = .ofNat n ∧ lo ≤ j ∧ j + n ≤ hi

theorem Cells.ChangedIn.refl : ChangedIn lo hi cells cells where
  kept _ _ _ _ _ _ h := h
  new _ _ h := .inl h

theorem Cells.ChangedIn.trans (h : ChangedIn lo hi cells cells')
    (h' : ChangedIn lo hi cells' cells'') : ChangedIn lo hi cells cells'' where
  kept j n v hn hlt hapart hc := h'.kept j n v hn hlt hapart (h.kept j n v hn hlt hapart hc)
  new offset c hc := (h'.new offset c hc).elim (h.new offset c) .inr

theorem Cells.ChangedIn.mono {lo' hi' : Nat} (h : ChangedIn lo hi cells cells') (hlo : lo' ≤ lo)
    (hhi : hi ≤ hi') : ChangedIn lo' hi' cells cells' where
  kept j n v hn hlt hapart := h.kept j n v hn hlt (by omega)
  new offset c hc := (h.new offset c hc).imp_right fun ⟨j, n, hj, hn, hlow, hhigh⟩ =>
    ⟨j, n, hj, hn, Nat.le_trans hlo hlow, Nat.le_trans hhigh hhi⟩

theorem Cells.ChangedIn.keptIn {a b : Nat} (h : ChangedIn lo hi cells cells') (hb : b < 2 ^ 63)
    (hapart : b ≤ lo ∨ hi ≤ a) : KeptIn a b cells cells' :=
  fun j n v hn hlow hhigh hc => h.kept j n v hn (by omega) (by omega) hc

theorem changedIn_putCell (hn : 0 < n) (hle : n ≤ 8) (hlt : k + n < 2 ^ 63) :
    Cells.ChangedIn k (k + n) cells (putCell (.ofNat k) (.ofNat n) v cells) where
  kept j i u hi hji hapart hc := by
    have hk := Int64.toInt_ofNat_of_lt (n := k) (by omega)
    have hj := Int64.toInt_ofNat_of_lt (n := j) (by omega)
    obtain hbefore | hbehind := hapart
    · refine putCell_before hc (ofNat_ne_of_lt (by omega) (by omega)) ?_
      rw [Int64.not_lt, ofNat_add_le_iff hji, hk]
      omega
    · have hin : Inside (.ofNat (k + n)) (.ofNat k) n := by
        rw [Inside, hk, Int64.toInt_ofNat_of_lt hlt]
        omega
      rw [putCell_eq hin hle hn, Std.HashMap.getElem?_insert,
        if_neg (by simpa using (ofNat_ne_of_lt (j := k) (by omega) (by omega)).symm),
        clearCells_outside fun i hi heq => ?_, hc]
      have hwindow := putCell_window hin hle hi
      rw [heq, hj, hk] at hwindow
      omega
  new offset c hc := by
    rw [putCell, Std.HashMap.getElem?_insert] at hc
    split at hc
    · next hsame =>
      obtain rfl := Option.some.inj hc
      exact .inr ⟨k, n, (eq_of_beq hsame).symm, rfl, Nat.le_refl _, Nat.le_refl _⟩
    · exact .inl (of_clearCells hc)

/-! ## Imprints -/

mutual

/-- Each scalar of a value of a type is in its place, from an offset on. -/
def Imprint (cells : Cells) : Ty → Value → Nat → Prop
  | .int bits, v, k => cells[Int64.ofNat k]? = some ⟨.ofNat (extent (.int bits)), v⟩
  | .ptr _, v, k => cells[Int64.ofNat k]? = some ⟨.ofNat 8, v⟩
  | .struct _ fields, .agg items, k => ImprintFields cells fields items k 0
  | .array len elem, .agg items, k => items.length = len ∧ len ≤ maxItems ∧
      ∀ i v, items[i]? = some v → Imprint cells elem v (k + i * extent elem)
  | _, _, _ => False

/-- The same for the values of fields, which come one after the other from an offset on. -/
def ImprintFields (cells : Cells) : List Ty → List Value → Nat → Nat → Prop
  | [], [], _, _ => True
  | t :: ts, v :: vs, k, offset =>
      Imprint cells t v (k + alignUp offset (grain t)) ∧
        ImprintFields cells ts vs k (alignUp offset (grain t) + extent t)
  | _, _, _, _ => False

end

mutual

/-- A value has the shape of a type, as far as there are parts. -/
def HasShape : Ty → Value → Prop
  | .int _, _ | .ptr _, _ => True
  | .struct _ fields, .agg items => HaveShapes fields items
  | .array len elem, .agg items =>
    items.length = len ∧ len ≤ maxItems ∧ ∀ v ∈ items, HasShape elem v
  | _, _ => False

def HaveShapes : List Ty → List Value → Prop
  | [], [] => True
  | t :: ts, v :: vs => HasShape t v ∧ HaveShapes ts vs
  | _, _ => False

end

theorem imprint_cell (h : IsCell t) :
    Imprint cells t v k ↔ cells[Int64.ofNat k]? = some ⟨.ofNat (extent t), v⟩ := by
  cases t with
  | int | ptr => rfl
  | _ => exact h.elim

/-- Whether a type is an array that is too long for its values to be kept. -/
def tooLong : Ty → Prop
  | .array len _ => maxItems < len
  | _ => False

section Parts

variable {R : Nat × Ty → Value → Prop} {items : List Value} {ts : List Ty} {offset : Nat}

/-- The items of an array one by one. -/
theorem forall₂_items {len : Nat} : List.Forall₂ R (parts (.array len t)) items ↔
    items.length = len ∧ ∀ i v, items[i]? = some v → R (i * extent t, t) v := by
  rw [List.forall₂_iff_get]
  simp only [parts, List.length_map, List.length_range, List.get_eq_getElem, List.getElem_map,
    List.getElem_range, List.getElem?_eq_some_iff]
  constructor
  · rintro ⟨rfl, h⟩
    refine ⟨rfl, fun i v hv => ?_⟩
    obtain ⟨hi, rfl⟩ := hv
    exact h i hi hi
  · rintro ⟨rfl, h⟩
    exact ⟨rfl, fun i _ hi => h i _ ⟨hi, rfl⟩⟩

theorem map_snd_fieldParts : (fieldParts offset ts).map Prod.snd = ts := by
  induction ts generalizing offset with
  | nil => rfl
  | cons t ts ih => rw [fieldParts, List.map_cons, ih]

theorem imprintFields_iff : ImprintFields cells ts items k offset ↔
    List.Forall₂ (fun a v => Imprint cells a.2 v (k + a.1)) (fieldParts offset ts) items := by
  induction ts generalizing items offset with
  | nil => cases items <;> simp [ImprintFields, fieldParts]
  | cons t ts ih => cases items <;> simp [ImprintFields, fieldParts, ih]

theorem haveShapes_iff (offset : Nat) : HaveShapes ts items ↔
    List.Forall₂ (fun a v => HasShape a.2 v) (fieldParts offset ts) items := by
  induction ts generalizing items offset with
  | nil => cases items <;> simp [HaveShapes, fieldParts]
  | cons t ts ih =>
    cases items with
    | nil => simp [HaveShapes, fieldParts]
    | cons v vs => rw [HaveShapes, ih, fieldParts, List.forall₂_cons]

end Parts

/-- The imprint of an aggregate is that of its parts. -/
theorem imprint_agg (h : Sized t) (hcell : ¬ IsCell t) : Imprint cells t v k ↔
    ¬ tooLong t ∧ ∃ items, v = .agg items ∧
      List.Forall₂ (fun a w => Imprint cells a.2 w (k + a.1)) (parts t) items := by
  cases h with
  | int | ptr => exact absurd trivial hcell
  | array =>
    cases v with
    | agg items => simp [Imprint, tooLong, forall₂_items, and_left_comm]
    | _ => simp [Imprint]
  | struct =>
    cases v with
    | agg items => simp [Imprint, tooLong, imprintFields_iff, parts]
    | _ => simp [Imprint]

/-- An aggregate has the shape of a type if its parts have theirs. -/
theorem hasShape_agg (h : Sized t) (hcell : ¬ IsCell t) : HasShape t v ↔
    ¬ tooLong t ∧ ∃ items, v = .agg items ∧
      List.Forall₂ (fun a w => HasShape a.2 w) (parts t) items := by
  cases h with
  | int | ptr => exact absurd trivial hcell
  | array =>
    cases v with
    | agg items =>
      simp [HasShape, tooLong, forall₂_items, and_left_comm, List.mem_iff_getElem?]
      exact fun _ _ => forall_comm
    | _ => simp [HasShape]
  | struct =>
    cases v with
    | agg items => simp [HasShape, tooLong, haveShapes_iff 0, parts]
    | _ => simp [HasShape]

/-- An induction over scalars and aggregates, without a difference between structs and arrays. -/
theorem LaidOut.induction {motive : (t : Ty) → LaidOut t → Prop}
    (cell : ∀ t h, IsCell t → motive t h)
    (agg : ∀ t h, ¬ IsCell t → (∀ (a : Nat × Ty) ha, motive a.2 (LaidOut.part h ha)) → motive t h)
    (h : LaidOut t) : motive t h := by
  obtain ⟨h, hsmall⟩ := h
  induction h with
  | int pos le => exact cell _ ⟨.int pos le, hsmall⟩ trivial
  | ptr => exact cell _ ⟨.ptr, hsmall⟩ trivial
  | array h ih =>
    refine agg _ ⟨.array h, hsmall⟩ id fun a ha => ?_
    have hpart := LaidOut.part ⟨.array h, hsmall⟩ ha
    obtain ⟨i, -, rfl⟩ := List.mem_map.1 ha
    exact ih hpart.small
  | struct name h ih =>
    refine agg _ ⟨.struct name h, hsmall⟩ id fun a ha => ?_
    have hmem := List.mem_map_of_mem (f := Prod.snd) ha
    rw [parts, map_snd_fieldParts] at hmem
    exact ih a.2 hmem (LaidOut.part ⟨.struct name h, hsmall⟩ ha).small

theorem LaidOut.extent_cell (h : LaidOut t) (hcell : IsCell t) : 0 < extent t ∧ extent t ≤ 8 := by
  cases h.sized with
  | int => rw [extent]; omega
  | ptr => rw [extent]; decide
  | _ => exact hcell.elim

/-- An imprint is in its own bytes. -/
theorem Imprint.kept (h : LaidOut t) (himprint : Imprint cells t v k)
    (hkept : Cells.KeptIn k (k + extent t) cells cells') : Imprint cells' t v k := by
  induction h using LaidOut.induction generalizing v k with
  | cell t h hcell =>
    rw [imprint_cell hcell] at himprint ⊢
    exact hkept k _ v (h.extent_cell hcell).1 (Nat.le_refl _) (Nat.le_refl _) himprint
  | agg t h hcell ih =>
    rw [imprint_agg h.sized hcell] at himprint ⊢
    obtain ⟨hlen, items, rfl, hitems⟩ := himprint
    refine ⟨hlen, items, rfl, forall₂_imp_mem hitems fun a ha w hw => ih a ha hw ?_⟩
    have hle := (of_mem_parts h.sized ha).1
    exact fun j n u hn hlow hhigh => hkept j n u hn (by omega) (by omega)

/-! ## Loads -/

section Fields

variable {ts : List Ty} {offset : Nat}

/-- Where a field starts and where it stops. -/
theorem field_places (offset : Nat) (h : LaidOut t) (hfit : alignUp offset (grain t) + 8 ≤ 2 ^ 63) :
    (do alignTo (.ofNat offset) (← alignOf t)) = .ok (.ofNat (alignUp offset (grain t))) ∧
      (do return Int64.ofNat (alignUp offset (grain t)) + (← sizeOf t)) =
        .ok (.ofNat (alignUp offset (grain t) + extent t)) := by
  obtain ⟨halign, hgrain⟩ := h.sized.alignOf
  rw [halign, h.sizeOf, Int64.ofNat_add]
  exact ⟨alignTo_of hgrain hfit, rfl⟩

theorem loadFields_eq (p : Pointer) (offset : Nat) (hts : ∀ t ∈ ts, Sized t)
    (hfit : fieldsExtent offset ts + 8 ≤ 2 ^ 63) :
    loadFields ts (.ofNat offset) p =
      (fieldParts offset ts).mapM fun a => load a.2 (p.shift (.ofNat a.1)) := by
  induction ts generalizing offset with
  | nil => rfl
  | cons t ts ih =>
    obtain ⟨ht, hts⟩ := List.forall_mem_cons.1 hts
    rw [fieldsExtent] at hfit
    have hle := le_fieldsExtent hts (alignUp offset (grain t) + extent t)
    obtain ⟨hstart, hstop⟩ := field_places offset ⟨ht, by omega⟩ (by omega)
    rw [loadFields, hstart, fieldParts, List.mapM_cons]
    simp only [Access.check, pure_bind, hstop, ih _ hts hfit]

end Fields

theorem Pointer.shift_zero : p.shift (.ofNat 0) = p := by
  rw [Pointer.shift, show Int64.ofNat 0 = 0 from rfl, Int64.add_zero]

theorem Pointer.shift_next (p : Pointer) {stride i : Nat} :
    (p.shift (.ofNat (i * stride))).shift (.ofNat stride) =
      p.shift (.ofNat ((i + 1) * stride)) := by
  simp only [Pointer.shift, Nat.succ_mul, Int64.ofNat_add, Int64.add_assoc]

theorem loadRun_eq (item : Pointer → Access Value) (p : Pointer) (stride i n : Nat)
    (acc : Array Value) : loadRun item (.ofNat stride) n (p.shift (.ofNat (i * stride))) acc = (do
      let vs ← (List.range' i n).mapM fun j => item (p.shift (.ofNat (j * stride)))
      return acc ++ vs.toArray) := by
  induction n generalizing i acc with
  | zero => simp [loadRun]
  | succ n ih =>
    rw [loadRun, p.shift_next, List.range'_succ, List.mapM_cons]
    simp only [ih, bind_assoc, pure_bind]
    refine bind_congr fun v => bind_congr fun vs => ?_
    simp

/-- The stride of an array without items does not matter. -/
theorem LaidOut.stride {len : Nat} (h : LaidOut (.array len t)) :
    ∃ stride, Interp.sizeOf t = .ok stride ∧ (len = 0 ∨ stride = .ofNat (extent t)) := by
  obtain rfl | hpos := Nat.eq_zero_or_pos len
  · cases h.sized with
    | array ht =>
      obtain ⟨stride, hstride⟩ := ht.exists_sizeOf
      exact ⟨stride, hstride, .inl rfl⟩
  · have hfirst : (0 * extent t, t) ∈ parts (.array len t) :=
      List.mem_map.2 ⟨0, List.mem_range.2 hpos, rfl⟩
    exact ⟨_, (h.part hfirst).sizeOf, .inr rfl⟩

/-- An aggregate is loaded part by part. -/
theorem load_agg (h : LaidOut t) (hcell : ¬ IsCell t) (hlen : ¬ tooLong t) : load t p = (do
    let _ ← checkAccess p (.ofNat (extent t))
    return .agg (← (parts t).mapM fun a => load a.2 (p.shift (.ofNat a.1)))) := by
  obtain ⟨hsized, hsmall⟩ := h
  cases hsized with
  | int | ptr => exact absurd trivial hcell
  | @array len elem helem =>
    obtain ⟨stride, hstride, hcase⟩ := LaidOut.stride ⟨.array helem, hsmall⟩
    have hrun : loadRun (load elem) stride len p #[] = (do
        let vs ← (parts (.array len elem)).mapM fun a => load a.2 (p.shift (.ofNat a.1))
        return vs.toArray) := by
      obtain rfl | rfl := hcase
      · simp [loadRun, parts]
      · have hrun := loadRun_eq (load elem) p (extent elem) 0 len #[]
        rw [Nat.zero_mul, Pointer.shift_zero] at hrun
        rw [hrun, parts, List.mapM_map, List.range_eq_range']
        simp only [Function.comp_def, Array.empty_append]
    rw [load, LaidOut.sizeOf ⟨.array helem, hsmall⟩, hstride]
    have hle : ¬ maxItems < len := hlen
    simp only [Access.check, pure_bind, if_neg hle, hrun, bind_assoc]
  | @struct name fields hfields =>
    have hle := fieldsExtent_le name hfields
    have hload := loadFields_eq p 0 hfields (by omega)
    rw [load, LaidOut.sizeOf ⟨.struct name hfields, hsmall⟩]
    simp only [Access.check, pure_bind]
    exact congrArg _ (funext fun _ => congrArg (· >>= _) hload)

theorem check_of_ok {x : Checked α} {a : α} (h : x = .ok a) : Access.check x m = .ok a m := by
  rw [h]
  rfl

theorem load_ne_ok_of_tooLong (h : tooLong t) : load t p m ≠ .ok v m' := by
  cases t with
  | array len elem =>
    intro hload
    rw [load] at hload
    obtain ⟨_, _, -, hload⟩ := Access.bind_ok hload
    obtain ⟨_, _, -, hload⟩ := Access.bind_ok hload
    obtain ⟨_, _, -, hload⟩ := Access.bind_ok hload
    have hlen : maxItems < len := h
    rw [if_pos hlen] at hload
    cases hload
  | _ => exact h.elim

theorem forall₂_of_mapM {β : Type} {f : α → Access β} {xs : List α} {ys : List β}
    (hf : ∀ x ∈ xs, Reads id (f x)) (h : xs.mapM f m = .ok ys m') :
    m = m' ∧ List.Forall₂ (fun x y => f x m = .ok y m) xs ys := by
  induction xs generalizing ys m' with
  | nil =>
    obtain ⟨rfl, rfl⟩ := Access.pure_ok h
    exact ⟨rfl, .nil⟩
  | cons x xs ih =>
    obtain ⟨hx, hxs⟩ := List.forall_mem_cons.1 hf
    rw [List.mapM_cons] at h
    obtain ⟨y, _, h1, hrest⟩ := Access.bind_ok h
    obtain ⟨rfl, -⟩ := hx h1
    obtain ⟨ys', _, h2, hrest⟩ := Access.bind_ok hrest
    obtain ⟨rfl, hys⟩ := ih hxs h2
    obtain ⟨rfl, rfl⟩ := Access.pure_ok hrest
    exact ⟨rfl, .cons h1 hys⟩

/-- A scalar is loaded from its cell. -/
theorem load_of_cell (ht : IsCell t) (hsize : sizeOf t = .ok (.ofNat n)) (hp : p.At m id k o)
    (hfit : ((k + n : Nat) : Int) ≤ o.size.toInt)
    (hcell : o.cells[Int64.ofNat k]? = some ⟨.ofNat n, v⟩) : load t p m = .ok v m := by
  obtain ⟨region, hbase⟩ := hp.into
  obtain ⟨hlow, hhigh⟩ := hp.bounds hfit
  rw [← hp.offset] at hcell
  rw [load_cell ht]
  exact loadScalar_of hsize hbase hp.object hp.alive hlow hhigh hcell

/-- Inside an object, a value is loaded exactly where its imprint is found. -/
theorem load_iff_imprint (h : LaidOut t) (hp : p.At m id k o)
    (hfit : ((k + extent t : Nat) : Int) ≤ o.size.toInt) :
    load t p m = .ok v m ↔ Imprint o.cells t v k := by
  have hcheck := hp.checkAccess hfit
  induction h using LaidOut.induction generalizing v k p with
  | cell t h hcell =>
    rw [imprint_cell hcell]
    refine ⟨fun hload => ?_, load_of_cell hcell h.sizeOf hp hfit⟩
    rw [load_cell hcell, loadScalar, Access.bind_of_ok (check_of_ok h.sizeOf),
      Access.bind_of_ok hcheck] at hload
    change cellValue t p _ m.objects[id]? m = _ at hload
    rw [hp.object, cellValue, Option.bind_some, hp.offset] at hload
    cases hc : o.cells[Int64.ofNat k]? with
    | none =>
      rw [hc] at hload
      cases hload
    | some c =>
      simp only [hc] at hload
      split at hload
      · cases hload
      · next hsize =>
        obtain ⟨rfl, -⟩ := Access.pure_ok hload
        rw [← not_ne_iff.mp hsize]
  | agg t h hcell ih =>
    by_cases hlen : tooLong t
    · rw [imprint_agg h.sized hcell]
      exact ⟨fun hload => absurd hload (load_ne_ok_of_tooLong hlen), fun hno => absurd hlen hno.1⟩
    have hpart : ∀ a ∈ parts t, ∀ w, load a.2 (p.shift (.ofNat a.1)) m = .ok w m ↔
        Imprint o.cells a.2 w (k + a.1) := by
      intro a ha w
      have hle := (of_mem_parts h.sized ha).1
      have hfit' : ((k + a.1 + extent a.2 : Nat) : Int) ≤ o.size.toInt := by omega
      exact ih a ha (hp.shift a.1) hfit' ((hp.shift a.1).checkAccess hfit')
    rw [load_agg h hcell hlen, Access.bind_of_ok hcheck, imprint_agg h.sized hcell]
    constructor
    · intro hload
      obtain ⟨items, _, hitems, hload⟩ := Access.bind_ok hload
      obtain ⟨rfl, -⟩ := Access.pure_ok hload
      obtain ⟨-, hitems⟩ := forall₂_of_mapM
        (fun a _ => reads_load a.2 (hp.into.shift (.ofNat a.1))) hitems
      exact ⟨hlen, items, rfl, forall₂_imp_mem hitems fun a ha w => (hpart a ha w).1⟩
    · rintro ⟨-, items, rfl, hitems⟩
      exact Access.bind_of_ok
        (Access.mapM_of_forall₂ (forall₂_imp_mem hitems fun a ha w => (hpart a ha w).2))

/-! ## Stores -/

/-- A store changes the cells of an object between two offsets, and leaves something there. -/
def Stores (x : Access Unit) (m : Memory) (id lo hi : Nat) (o : Object) (left : Cells → Prop) :
    Prop :=
  ∃ m' cells, x m = .ok () m' ∧ m'.objects[id]? = some { o with cells } ∧
    Cells.ChangedIn lo hi o.cells cells ∧ left cells

/-- Parts are stored one after the other. -/
def storeParts (p : Pointer) : List (Nat × Ty) → List Value → Access Unit
  | a :: as, v :: vs => do
    store a.2 v (p.shift (.ofNat a.1))
    storeParts p as vs
  | _, _ => pure ()

theorem storeFields_eq {ts : List Ty} (p : Pointer) (offset : Nat) (hts : ∀ t ∈ ts, Sized t)
    (hfit : fieldsExtent offset ts + 8 ≤ 2 ^ 63) (hlen : ts.length = vs.length) :
    storeFields ts vs (.ofNat offset) p = storeParts p (fieldParts offset ts) vs := by
  induction ts generalizing vs offset with
  | nil => rfl
  | cons t ts ih =>
    obtain ⟨v, vs, rfl⟩ := List.exists_cons_of_length_eq_add_one hlen.symm
    obtain ⟨ht, hts⟩ := List.forall_mem_cons.1 hts
    rw [fieldsExtent] at hfit
    have hle := le_fieldsExtent hts (alignUp offset (grain t) + extent t)
    obtain ⟨hstart, hstop⟩ := field_places offset ⟨ht, by omega⟩ (by omega)
    rw [storeFields, hstart, fieldParts, storeParts]
    simp only [Access.check, pure_bind, hstop, ih _ hts hfit (Nat.succ.inj hlen)]

theorem storeRun_eq (p : Pointer) (vs : List Value) {stride : Nat} (i : Nat)
    (hstride : stride = extent t) :
    storeRun (store t) (.ofNat stride) vs (p.shift (.ofNat (i * stride))) =
      storeParts p ((List.range' i vs.length).map fun j => (j * extent t, t)) vs := by
  induction vs generalizing i with
  | nil => rfl
  | cons v vs ih =>
    rw [storeRun, p.shift_next, ih, List.length_cons, List.range'_succ, List.map_cons, storeParts,
      hstride]

/-- An aggregate is stored part by part. -/
theorem store_agg (h : LaidOut t) (hcell : ¬ IsCell t) {items : List Value}
    (hlen : (parts t).length = items.length) : store t (.agg items) p = (do
      let _ ← checkAccess p (.ofNat (extent t))
      storeParts p (parts t) items) := by
  obtain ⟨hsized, hsmall⟩ := h
  cases hsized with
  | int | ptr => exact absurd trivial hcell
  | @array len elem helem =>
    obtain ⟨stride, hstride, hcase⟩ := LaidOut.stride ⟨.array helem, hsmall⟩
    obtain rfl : len = items.length := by simpa [parts] using hlen
    have hrun : storeRun (store elem) stride items p =
        storeParts p (parts (.array items.length elem)) items := by
      obtain hnil | rfl := hcase
      · rw [List.eq_nil_of_length_eq_zero hnil]
        rfl
      · have hrun := storeRun_eq p items (t := elem) 0 rfl
        rwa [Nat.zero_mul, Pointer.shift_zero, ← List.range_eq_range'] at hrun
    rw [store, LaidOut.sizeOf ⟨.array helem, hsmall⟩, hstride]
    simp only [Access.check, pure_bind, hrun]
  | @struct name fields hfields =>
    have hle := fieldsExtent_le name hfields
    have hcount : fields.length = items.length := by
      rw [← hlen, parts, ← List.length_map Prod.snd, map_snd_fieldParts]
    have hrun := storeFields_eq p 0 hfields (by omega) hcount
    rw [store, LaidOut.sizeOf ⟨.struct name hfields, hsmall⟩]
    simp only [Access.check, pure_bind]
    exact congrArg _ (funext fun _ => hrun)

theorem stores_parts {as : List (Nat × Ty)} (hp : p.At m id k o)
    (hfit : ((k + hi : Nat) : Int) ≤ o.size.toInt) (hlaid : ∀ a ∈ as, LaidOut a.2)
    (hapart : as.Pairwise fun a b => a.1 + extent a.2 ≤ b.1)
    (hrange : ∀ a ∈ as, lo ≤ a.1 ∧ a.1 + extent a.2 ≤ hi)
    (hstore : ∀ a ∈ as, ∀ w m o j (q : Pointer), q.At m id j o →
      ((j + extent a.2 : Nat) : Int) ≤ o.size.toInt → HasShape a.2 w →
      Stores (store a.2 w q) m id j (j + extent a.2) o fun cells => Imprint cells a.2 w j)
    (hshapes : List.Forall₂ (fun a w => HasShape a.2 w) as vs) :
    Stores (storeParts p as vs) m id (k + lo) (k + hi) o fun cells =>
      List.Forall₂ (fun a w => Imprint cells a.2 w (k + a.1)) as vs := by
  induction hshapes generalizing m o lo with
  | nil => exact ⟨m, o.cells, rfl, hp.object, .refl, .nil⟩
  | @cons a w as vs hshape _ ih =>
    obtain ⟨ha, has⟩ := List.forall_mem_cons.1 hlaid
    obtain ⟨hbehind, hapart⟩ := List.pairwise_cons.1 hapart
    obtain ⟨⟨hlow, hhigh⟩, hranges⟩ := List.forall_mem_cons.1 hrange
    obtain ⟨hfirst, hrest⟩ := List.forall_mem_cons.1 hstore
    have hlt := fits_word hfit
    obtain ⟨m1, cells1, hrun1, ho1, hchanged1, himprint1⟩ :=
      hfirst w m o _ _ (hp.shift a.1) (by omega) hshape
    have hp1 : p.At m1 id k { o with cells := cells1 } := { hp with object := ho1 }
    -- what is still to be stored lies behind the part
    have hrange2 : ∀ b ∈ as, a.1 + extent a.2 ≤ b.1 ∧ b.1 + extent b.2 ≤ hi :=
      fun b hb => ⟨hbehind b hb, (hranges b hb).2⟩
    obtain ⟨m2, cells2, hrun2, ho2, hchanged2, himprints2⟩ :=
      ih hp1 hfit has hapart hrange2 hrest
    refine ⟨m2, cells2, (Access.bind_of_ok hrun1).trans hrun2, ho2,
      (hchanged1.mono (by omega) (by omega)).trans (hchanged2.mono (by omega) (Nat.le_refl _)),
      .cons (himprint1.kept ha (hchanged2.keptIn (by omega) (.inl (by omega)))) himprints2⟩

/-- Inside an object, a store completes and leaves the imprint of its value. -/
theorem stores_store (h : LaidOut t) (hp : p.At m id k o)
    (hfit : ((k + extent t : Nat) : Int) ≤ o.size.toInt) (hshape : HasShape t v) :
    Stores (store t v p) m id k (k + extent t) o fun cells => Imprint cells t v k := by
  induction h using LaidOut.induction generalizing v k p m o with
  | cell t h hcell =>
    have hlt := fits_word hfit
    obtain ⟨hpos, hle⟩ := h.extent_cell hcell
    obtain ⟨region, hbase⟩ := hp.into
    obtain ⟨hlow, hhigh⟩ := hp.bounds hfit
    refine ⟨_, _, (congrFun (store_cell hcell v p) m).trans (storeScalar_of h.sizeOf hbase hp.object
      hp.alive hlow hhigh), Memory.getElem?_put_self hp.object, ?_, ?_⟩
    · rw [hp.offset]
      exact changedIn_putCell hpos hle hlt
    · refine (imprint_cell hcell).2 ?_
      rw [hp.offset]
      exact putCell_self
  | agg t h hcell ih =>
    obtain ⟨hlen, items, rfl, hshapes⟩ := (hasShape_agg h.sized hcell).1 hshape
    have hrange : ∀ a ∈ parts t, 0 ≤ a.1 ∧ a.1 + extent a.2 ≤ extent t := fun a ha =>
      ⟨Nat.zero_le _, (of_mem_parts h.sized ha).1⟩
    obtain ⟨m', cells, hrun, ho, hchanged, himprints⟩ := stores_parts hp hfit
      (fun a ha => h.part ha) (parts_apart h.sized) hrange
      (fun a ha w m o j q hq hfit hw => ih a ha hq hfit hw) hshapes
    refine ⟨m', cells, ?_, ho, hchanged, (imprint_agg h.sized hcell).2
      ⟨hlen, items, rfl, himprints⟩⟩
    rw [store_agg h hcell hshapes.length_eq, Access.bind_of_ok (hp.checkAccess hfit), hrun]

/-- A load or a store first checks all the bytes of its type. -/
theorem checked {x : Access α} (h : LaidOut t) (hx : ∃ next : Int64 → Nat → Access α,
      x = Access.check (sizeOf t) >>= fun bytes => checkAccess p bytes >>= next bytes) :
    ∃ next, x = checkAccess p (.ofNat (extent t)) >>= next := by
  obtain ⟨next, rfl⟩ := hx
  refine ⟨next (.ofNat (extent t)), funext fun m => ?_⟩
  rw [Access.bind_of_ok (check_of_ok h.sizeOf)]

theorem store_checked (h : LaidOut t) (v : Value) (p : Pointer) :
    ∃ next, store t v p = checkAccess p (.ofNat (extent t)) >>= next :=
  checked h (by cases t <;> exact ⟨_, rfl⟩)

/-! ## The value that was stored last -/

/-- What was stored last in an object, as a value of a type and at an offset, and whatever has
happened since but to the bytes it takes. -/
def LastStored (t : Ty) (v : Value) (id k : Nat) (o : Object) : Prop :=
  HasShape t v ∧ ∃ (p : Pointer) (m1 m2 : Memory) (o2 : Object), p.Into id ∧
    p.offset = .ofNat k ∧ store t v p m1 = .ok () m2 ∧ m2.objects[id]? = some o2 ∧
    Cells.KeptIn k (k + extent t) o2.cells o.cells

/-- The value that was stored last is loaded. -/
theorem LastStored.load (h : LastStored t v id k o) (hlaid : LaidOut t)
    (hp : p.At m id k o) (hfit : ((k + extent t : Nat) : Int) ≤ o.size.toInt) :
    load t p m = .ok v m := by
  obtain ⟨hshape, q, m1, m2, o2, ⟨region, hbase⟩, hoffset, hstore, ho2, hkept⟩ := h
  have hlt := fits_word hfit
  have hk := Int64.toInt_ofNat_of_lt (n := k) (by omega)
  obtain ⟨next, hnext⟩ := store_checked hlaid v q
  rw [hnext] at hstore
  obtain ⟨id', _, hcheck, -⟩ := Access.bind_ok hstore
  obtain ⟨rfl, -⟩ := checkAccess_ok hcheck
  rw [← hnext] at hstore
  obtain ⟨o1, hq, hfit1⟩ := at_of_checkAccess hcheck (by rw [hoffset, hk]; omega)
  obtain ⟨region', hbase'⟩ := hq.into
  obtain rfl : id = id' := by
    rw [hbase] at hbase'
    injection hbase'
  rw [hoffset, hk, Int.toNat_natCast] at hq hfit1
  obtain ⟨m', cells, hrun, ho, -, himprint⟩ := stores_store hlaid hq hfit1 hshape
  obtain rfl : m2 = m' := by
    rw [hstore] at hrun
    injection hrun
  obtain rfl := Option.some.inj (ho2.symm.trans ho)
  exact (load_iff_imprint hlaid hp hfit).2 (himprint.kept hlaid hkept)

end Tenure.Interp

import Tenure.Proofs.Imprints

/-!
# Parts of aggregates in memory

A path of indices leads to a part of a value and to a part of the memory that holds it.  `place`
computes where: the parts at different paths share no byte (`places_apart`), addresses are computed
to lead there (`elementOffset_place`), and what stands there is the part of the value at the path
(`extract_place`, `insert_place`).  So reading a part is reading the whole and taking the part, and
writing one is putting it into the whole (`parts_agree`).

The ends of accesses are checked in words, and `accesses_stay_inside` says when that is enough.
-/

namespace Tenure.Interp

open Ir (Ty)

variable {m m' : Memory} {id k d : Nat} {o : Object} {p : Pointer} {t u : Ty} {v x : Value}
variable {cells cells' : Cells} {path path' : List Nat}

/-! ## Paths -/

/-- Where the part at a path is, and its type. -/
def place : Ty → List Nat → Option (Nat × Ty)
  | t, [] => some (0, t)
  | t, i :: path =>
    (parts t)[i]?.bind fun a => (place a.2 path).map fun b => (a.1 + b.1, b.2)

theorem place_cons {i : Nat} (h : place t (i :: path) = some (d, u)) :
    ∃ a e, (parts t)[i]? = some a ∧ place a.2 path = some (e, u) ∧ d = a.1 + e := by
  obtain ⟨a, ha, h⟩ := Option.bind_eq_some_iff.1 h
  obtain ⟨b, hb, heq⟩ := Option.map_eq_some_iff.1 h
  obtain ⟨rfl, rfl⟩ := Prod.mk.inj heq
  exact ⟨a, b.1, ha, hb, rfl⟩

/-- The part at a path is inside the whole. -/
theorem LaidOut.place (h : LaidOut t) (hplace : place t path = some (d, u)) :
    LaidOut u ∧ d + extent u ≤ extent t := by
  induction path generalizing t d with
  | nil =>
    obtain ⟨rfl, rfl⟩ := Prod.mk.inj (Option.some.inj hplace)
    exact ⟨h, by omega⟩
  | cons i path ih =>
    obtain ⟨a, e, ha, hrest, rfl⟩ := place_cons hplace
    have hmem := List.mem_of_getElem? ha
    obtain ⟨hu, hle⟩ := ih (h.part hmem) hrest
    have := (of_mem_parts h.sized hmem).1
    exact ⟨hu, by omega⟩

theorem parts_cell (h : IsCell t) : parts t = [] := by
  cases t with
  | int | ptr => rfl
  | _ => exact h.elim

/-- Scalars at different paths share no byte. -/
theorem places_apart {d' : Nat} {u' : Ty} (h : LaidOut t) (hplace : place t path = some (d, u))
    (hplace' : place t path' = some (d', u')) (hu : IsCell u) (hu' : IsCell u')
    (hne : path ≠ path') : d + extent u ≤ d' ∨ d' + extent u' ≤ d := by
  induction path generalizing t path' d d' with
  | nil =>
    obtain ⟨-, rfl⟩ := Prod.mk.inj (Option.some.inj hplace)
    cases path' with
    | nil => exact absurd rfl hne
    | cons j path' =>
      obtain ⟨b, _, hb, -⟩ := place_cons hplace'
      simp [parts_cell hu] at hb
  | cons i path ih =>
    obtain ⟨a, e, ha, hrest, rfl⟩ := place_cons hplace
    cases path' with
    | nil =>
      obtain ⟨-, rfl⟩ := Prod.mk.inj (Option.some.inj hplace')
      simp [parts_cell hu'] at ha
    | cons j path' =>
      obtain ⟨b, e', hb, hrest', rfl⟩ := place_cons hplace'
      have hin := ((h.part (List.mem_of_getElem? ha)).place hrest).2
      have hin' := ((h.part (List.mem_of_getElem? hb)).place hrest').2
      by_cases hij : i = j
      · subst hij
        obtain rfl := Option.some.inj (ha.symm.trans hb)
        have := ih (h.part (List.mem_of_getElem? ha)) hrest hrest' fun heq => hne (heq ▸ rfl)
        omega
      · have := parts_apart_of_ne h.sized ha hb hij
        omega

theorem elementOffset_place (h : LaidOut t) (hplace : place t path = some (d, u))
    (hpath : ∀ i ∈ path, i < 2 ^ 63) :
    elementOffset t (.ofNat k) (path.map .ofNat) = .ok (.ofNat (k + d)) := by
  induction path generalizing t k d with
  | nil =>
    obtain ⟨rfl, rfl⟩ := Prod.mk.inj (Option.some.inj hplace)
    rfl
  | cons i path ih =>
    obtain ⟨a, e, ha, hrest, rfl⟩ := place_cons hplace
    obtain ⟨hi, hpath⟩ := List.forall_mem_cons.1 hpath
    have hmem := List.mem_of_getElem? ha
    have hle := (of_mem_parts h.sized hmem).1
    have hsmall := h.small
    rw [List.map_cons, elementOffset_part h.sized ha (by omega) hi, ih (h.part hmem) hrest hpath,
      Nat.add_assoc]

/-! ## Parts of values -/

theorem not_isCell_of_part {i : Nat} {a : Nat × Ty} (ha : (parts t)[i]? = some a) : ¬ IsCell t :=
  fun hcell => by simp [parts_cell hcell] at ha

/-- The part of a value at a path has its imprint at the place of the path. -/
theorem extract_place (h : LaidOut t) (himprint : Imprint cells t v k)
    (hplace : place t path = some (d, u)) :
    ∃ x, (∀ m, extract v path m = .ok x m) ∧ Imprint cells u x (k + d) := by
  induction path generalizing t v k d with
  | nil =>
    obtain ⟨rfl, rfl⟩ := Prod.mk.inj (Option.some.inj hplace)
    exact ⟨v, fun _ => rfl, himprint⟩
  | cons i path ih =>
    obtain ⟨a, e, ha, hrest, rfl⟩ := place_cons hplace
    obtain ⟨-, items, rfl, hitems⟩ := (imprint_agg h.sized (not_isCell_of_part ha)).1 himprint
    obtain ⟨w, hw, himprint⟩ := getElem?_forall₂ hitems ha
    obtain ⟨x, hx, himprint⟩ := ih (h.part (List.mem_of_getElem? ha)) himprint hrest
    refine ⟨x, fun m => ?_, by rwa [← Nat.add_assoc]⟩
    simp only [extract, asItems, pure_bind, hw]
    exact hx m

/-- Where the cells of one part change, the part of the value does. -/
theorem insert_place (h : LaidOut t) (hfit : k + extent t < 2 ^ 63)
    (himprint : Imprint cells t v k) (hplace : place t path = some (d, u))
    (hchanged : Cells.ChangedIn (k + d) (k + d + extent u) cells cells')
    (hx : Imprint cells' u x (k + d)) :
    ∃ v', (∀ m, insert v x path m = .ok v' m) ∧ Imprint cells' t v' k := by
  induction path generalizing t v k d with
  | nil =>
    obtain ⟨rfl, rfl⟩ := Prod.mk.inj (Option.some.inj hplace)
    exact ⟨x, fun _ => rfl, hx⟩
  | cons i path ih =>
    obtain ⟨a, e, ha, hrest, rfl⟩ := place_cons hplace
    have hcell := not_isCell_of_part ha
    obtain ⟨hlen, items, rfl, hitems⟩ := (imprint_agg h.sized hcell).1 himprint
    obtain ⟨w, hw, himprint⟩ := getElem?_forall₂ hitems ha
    have hmem := List.mem_of_getElem? ha
    have hin := (of_mem_parts h.sized hmem).1
    rw [← Nat.add_assoc] at hchanged hx
    obtain ⟨w', hw', himprint'⟩ := ih (h.part hmem) (by omega) himprint hrest hchanged hx
    refine ⟨.agg (items.set i w'), fun m => ?_,
      (imprint_agg h.sized hcell).2 ⟨hlen, _, rfl, ?_⟩⟩
    · simp only [insert, asItems, pure_bind, hw]
      exact Access.bind_of_ok (hw' m)
    · refine forall₂_set_right hitems ha himprint' fun j b w hij hb hw => ?_
      -- the bytes of another part have not changed
      have hapart := parts_apart_of_ne h.sized hb ha hij
      have hin' := (of_mem_parts h.sized (List.mem_of_getElem? hb)).1
      have hinner := ((h.part hmem).place hrest).2
      exact hw.kept (h.part (List.mem_of_getElem? hb)) (hchanged.keptIn (by omega) (by omega))

/-! ## Reading and writing parts -/

/-- A pointer to where a value of a type fits into a living object. -/
def Pointer.HasRoom (p : Pointer) (t : Ty) (m : Memory) : Prop :=
  ∃ id k o, p.At m id k o ∧ ((k + extent t : Nat) : Int) ≤ o.size.toInt

theorem elementAddress_place (h : LaidOut t) (hp : p.At m id k o)
    (hplace : place t path = some (d, u)) (hpath : ∀ i ∈ path, i < 2 ^ 63) :
    elementAddress t p (0 :: path.map .ofNat) = .ok (p.shift (.ofNat d)) := by
  refine (elementAddress_zero h.sized (w := p.offset + .ofNat d) ?_).trans rfl
  rw [hp.offset, elementOffset_place h hplace hpath, Int64.ofNat_add]

/-- The layout of a type, the addresses of its parts, and what is read and written there agree. -/
structure PartsAgree (t : Ty) : Prop where
  size : sizeOf t = .ok (.ofNat (extent t))
  inside : ∀ path d u, place t path = some (d, u) → d + extent u ≤ extent t
  apart : ∀ path path' d d' u u', place t path = some (d, u) → place t path' = some (d', u') →
    IsCell u → IsCell u' → path ≠ path' → d + extent u ≤ d' ∨ d' + extent u' ≤ d
  address : ∀ p m path d u, p.HasRoom t m → place t path = some (d, u) →
    (∀ i ∈ path, i < 2 ^ 63) →
    elementAddress t p (0 :: path.map .ofNat) = .ok (p.shift (.ofNat d))
  whole : ∀ p m v, p.HasRoom t m → HasShape t v →
    ∃ m', store t v p m = .ok () m' ∧ load t p m' = .ok v m'
  read : ∀ p m v path d u, p.HasRoom t m → load t p m = .ok v m → place t path = some (d, u) →
    ∃ x, extract v path m = .ok x m ∧ load u (p.shift (.ofNat d)) m = .ok x m
  write : ∀ p m v path d u x, p.HasRoom t m → load t p m = .ok v m →
    place t path = some (d, u) → HasShape u x →
    ∃ m' v', store u x (p.shift (.ofNat d)) m = .ok () m' ∧ insert v x path m' = .ok v' m' ∧
      load t p m' = .ok v' m'

theorem parts_agree (h : Sized t) (hsmall : extent t < 2 ^ 62) : PartsAgree t := by
  have hlaid : LaidOut t := ⟨h, by omega⟩
  refine
    { size := hlaid.sizeOf
      inside := fun path d u hplace => (hlaid.place hplace).2
      apart := fun path path' d d' u u' => places_apart hlaid
      address := ?address
      whole := ?whole
      read := ?read
      write := ?write }
  case address =>
    rintro p m path d u ⟨id, k, o, hp, -⟩ hplace hpath
    exact elementAddress_place hlaid hp hplace hpath
  case whole =>
    rintro p m v ⟨id, k, o, hp, hfit⟩ hshape
    obtain ⟨m', cells, hstore, ho, -, himprint⟩ := stores_store hlaid hp hfit hshape
    exact ⟨m', hstore, (load_iff_imprint hlaid ⟨hp.into, hp.offset, ho, hp.alive⟩ hfit).2 himprint⟩
  case read =>
    rintro p m v path d u ⟨id, k, o, hp, hfit⟩ hload hplace
    have himprint := (load_iff_imprint hlaid hp hfit).1 hload
    obtain ⟨x, hx, himprint⟩ := extract_place hlaid himprint hplace
    obtain ⟨hu, hin⟩ := hlaid.place hplace
    exact ⟨x, hx m, (load_iff_imprint hu (hp.shift d) (by omega)).2 himprint⟩
  case write =>
    rintro p m v path d u x ⟨id, k, o, hp, hfit⟩ hload hplace hshape
    have himprint := (load_iff_imprint hlaid hp hfit).1 hload
    obtain ⟨hu, hin⟩ := hlaid.place hplace
    obtain ⟨m', cells, hstore, ho, hchanged, hx⟩ :=
      stores_store hu (hp.shift d) (by omega) hshape
    obtain ⟨v', hv', himprint⟩ :=
      insert_place hlaid (fits_word hfit) himprint hplace hchanged hx
    exact ⟨m', v', hstore, hv' m',
      (load_iff_imprint hlaid ⟨hp.into, hp.offset, ho, hp.alive⟩ hfit).2 himprint⟩

theorem parts_agree_odd :
    PartsAgree (.struct "" [.int 24, .array 2 (.struct "" [.int 1, .ptr .i8])]) := by
  have hitem : Sized (.struct "" [.int 1, .ptr .i8]) :=
    .struct _ (by simpa using ⟨.int (by decide) (by decide), .ptr⟩)
  have hwhole : Sized (.struct "" [.int 24, .array 2 (.struct "" [.int 1, .ptr .i8])]) :=
    .struct _ (by simpa using ⟨.int (by decide) (by decide), .array hitem⟩)
  exact parts_agree hwhole (by decide)

/-! ## Bounds -/

theorem load_checked (h : LaidOut t) (p : Pointer) :
    ∃ next, load t p = checkAccess p (.ofNat (extent t)) >>= next :=
  checked h (by cases t <;> exact ⟨_, rfl⟩)

/-- A store stays inside the object it is to or leaves all objects as they are, and a load has read
what is inside its object. -/
structure StaysInside (t : Ty) (p : Pointer) (m : Memory) : Prop where
  stored : ∀ v, HasShape t v →
    (∃ id k o m' cells, p.At m id k o ∧ ((k + extent t : Nat) : Int) ≤ o.size.toInt ∧
      store t v p m = .ok () m' ∧ m.Edited id m' ∧ m'.objects[id]? = some { o with cells } ∧
      Cells.ChangedIn k (k + extent t) o.cells cells) ∨
    ∃ e, store t v p m = .error e m
  loaded : ∀ v m', load t p m = .ok v m' → m' = m ∧ ∃ id k o, p.At m id k o ∧
    ((k + extent t : Nat) : Int) ≤ o.size.toInt ∧ Imprint o.cells t v k

/-- The end of an access is computed in a word.  It is checked as long as it does not wrap. -/
theorem accesses_stay_inside (h : LaidOut t) (hend : p.offset.toInt + extent t < 2 ^ 63) :
    StaysInside t p m := by
  constructor
  · intro v hshape
    obtain ⟨next, hnext⟩ := store_checked h v p
    cases hcheck : checkAccess p (.ofNat (extent t)) m with
    | ok id m' =>
      obtain ⟨o, hp, hfit⟩ := at_of_checkAccess hcheck hend
      obtain ⟨m', cells, hstore, ho, hchanged, -⟩ := stores_store h hp hfit hshape
      exact .inl ⟨id, _, o, m', cells, hp, hfit, hstore, writes_store t hp.into hstore, ho,
        hchanged⟩
    | error e m' =>
      obtain rfl : m' = m := keeps_checkAccess.of_error (φ := id) hcheck
      exact .inr ⟨e, by rw [hnext, Access.bind_of_error hcheck]⟩
  · intro v m' hload
    obtain rfl : m' = m := (keeps_load t).same hload
    obtain ⟨next, hnext⟩ := load_checked h p
    obtain ⟨id, m'', hcheck, -⟩ := Access.bind_ok (hnext ▸ hload)
    obtain ⟨o, hp, hfit⟩ := at_of_checkAccess hcheck hend
    exact ⟨rfl, id, _, o, hp, hfit, (load_iff_imprint h hp hfit).1 hload⟩

/-- A stack slot of a size, and nothing else. -/
def oneSlot (size : Int64) : Memory :=
  { objects := #[{ region := .stack, address := 0x1000, size }] }

def pair : Ty := .struct "" [.i64, .i64]

/-- Two words are stored into a slot of that size; one word further on the first of them would
still be inside, but none is stored. -/
theorem accesses_stay_inside_pair :
    (StaysInside pair ⟨.object 0 .stack, 0⟩ (oneSlot 16) ∧
      ∃ m', store pair (.agg [.int 1, .int 2]) ⟨.object 0 .stack, 0⟩ (oneSlot 16) = .ok () m') ∧
    StaysInside pair ⟨.object 0 .stack, 8⟩ (oneSlot 16) ∧
      ∃ e, store pair (.agg [.int 1, .int 2]) ⟨.object 0 .stack, 8⟩ (oneSlot 16) =
        .error e (oneSlot 16) := by
  have hlaid : LaidOut pair := ⟨.struct _ (by simpa using .int (by decide) (by decide)), by decide⟩
  exact ⟨⟨accesses_stay_inside hlaid (by decide), _, rfl⟩, accesses_stay_inside hlaid (by decide),
    _, rfl⟩

/-- Where the end of an access wraps, the access is allowed. -/
theorem wrapped_end_is_allowed :
    ¬ StaysInside .i64 ⟨.object 0 .stack, 9223372036854775804⟩ (oneSlot 8) := by
  intro h
  obtain ⟨id, k, o, m', cells, hp, hfit, -⟩ | ⟨e, he⟩ := h.stored (.int 7) trivial
  · obtain ⟨region, hbase⟩ := hp.into
    cases hbase
    have hsize : o.size.toInt = 8 := by
      rw [← Option.some.inj hp.object]
      decide
    obtain rfl : k = 0 := by
      rw [show extent .i64 = 8 from rfl, hsize] at hfit
      omega
    exact absurd hp.offset (by decide)
  · have hsize : sizeOf .i64 = .ok 8 := rfl
    have hstore := storeScalar_of (m := (oneSlot 8)) (v := .int 7) hsize
      (p := ⟨.object 0 .stack, 9223372036854775804⟩) rfl rfl rfl (by decide) (by decide)
    cases hstore.symm.trans he

end Tenure.Interp

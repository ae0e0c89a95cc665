import Mathlib.Data.Int.ConditionallyCompleteOrder
import Mathlib.Data.List.Induction
import Mathlib.Order.CompletePartialOrder
import Mathlib.Order.ConditionallyCompleteLattice.Basic
import Mathlib.Order.Interval.Set.Disjoint
import Tenure.Proofs.Extents
import Tenure.Proofs.Recounting

/-!
# The last writer of the bytes of an object

A store puts one cell into an object and takes away the cells it overlaps, which it looks for
from seven bytes before its own first byte on.  As no scalar is longer than eight bytes, no
overlap is missed (`getElem?_putCell`), and the cells of an object are always those of the
stores whose bytes nothing has touched since (`Tells`).  So a load finds what the last store
to exactly its bytes wrote, or it fails (`loads_last_writer`).
-/

namespace Tenure.Interp

open Ir (Ty)

variable {m m' : Memory} {id n : Nat} {o : Object} {p : Pointer} {t : Ty} {v : Value}
variable {cells : Cells} {size : Int64}

/-! ## Scalars and their bytes -/

/-- Integers of up to 64 bits, and pointers. -/
def IsScalar : Ty → Prop
  | .int bits => 1 ≤ bits ∧ bits ≤ 64
  | .ptr _ => True
  | _ => False

/-- An integer takes as many bytes as hold its bits, a pointer eight. -/
def scalarBytes : Ty → Nat
  | .int bits => (bits + 7) / 8
  | _ => 8

theorem IsScalar.isCell (h : IsScalar t) : IsCell t := by
  cases t with
  | int | ptr => trivial
  | _ => exact h.elim

theorem IsScalar.sizeOf (h : IsScalar t) : sizeOf t = .ok (.ofNat (scalarBytes t)) := by
  cases t with
  | int bits => rw [Interp.sizeOf, intBytes_of_le h.2, scalarBytes]
  | ptr => rfl
  | _ => exact h.elim

theorem IsScalar.bytes_pos (h : IsScalar t) : 0 < scalarBytes t := by
  cases t with
  | int bits =>
    have := h.1
    simp only [scalarBytes]
    omega
  | ptr => simp [scalarBytes]
  | _ => exact h.elim

theorem IsScalar.bytes_le (h : IsScalar t) : scalarBytes t ≤ 8 := by
  cases t with
  | int bits =>
    have := h.2
    simp only [scalarBytes]
    omega
  | ptr => simp [scalarBytes]
  | _ => exact h.elim

/-- A number of bytes from an offset on. -/
def byteSpan (offset : Int64) (n : Nat) : Set Int := Set.Ico offset.toInt (offset.toInt + n)

variable {offset : Int64} {k : Nat} {c : Cell}

theorem byteSpan_disjoint {a b : Int64} (hn : 0 < n) (hk : 0 < k) :
    Disjoint (byteSpan a n) (byteSpan b k) ↔
      a.toInt + n ≤ b.toInt ∨ b.toInt + k ≤ a.toInt := by
  rw [byteSpan, byteSpan, Set.Ico_disjoint_Ico]
  omega

/-- All bytes are those of an object of a size. -/
def Inside (size offset : Int64) (n : Nat) : Prop :=
  0 ≤ offset.toInt ∧ offset.toInt + n ≤ size.toInt

theorem Inside.toInt_add (h : Inside size offset n) :
    (offset + .ofNat n).toInt = offset.toInt + n := by
  have hsize := size.toInt_lt
  obtain ⟨hlow, hhigh⟩ := h
  rw [Int64.toInt_add, Int64.toInt_ofNat_of_lt (by omega)]
  exact Int.bmod_eq_of_le (by omega) (by omega)

/-! ## One store -/

/-- A cell that is looked at goes if it reaches past the start. -/
theorem clearCells_reached {start first : Int64} (hc : cells[offset]? = some c)
    (hends : start < offset + c.size) (hmem : ∃ i < k, first + .ofNat i = offset) :
    (clearCells start k first cells)[offset]? = none := by
  rw [getElem?_clearCells, if_pos hmem]
  simp [hc, Option.filter, Int64.not_le.mpr hends]

/-- The window that a store clears: from seven bytes before it to its end. -/
theorem putCell_window (hin : Inside size offset n) (hn : n ≤ 8) (hk : k < n + 7) :
    (offset - 7 + .ofNat k).toInt = offset.toInt - 7 + k := by
  have hsize := size.toInt_lt
  obtain ⟨hlow, hhigh⟩ := hin
  rw [Int64.toInt_add, Int64.toInt_sub, Int64.toInt_ofNat_of_lt (by omega)]
  have hseven : (7 : Int64).toInt = 7 := rfl
  rw [hseven, Int.bmod_eq_of_le (n := offset.toInt - 7) (by omega) (by omega)]
  exact Int.bmod_eq_of_le (by omega) (by omega)

theorem putCell_eq (hin : Inside size offset n) (hn : n ≤ 8) (hpos : 0 < n) :
    putCell offset (.ofNat n) v cells =
      (clearCells offset (n + 7) (offset - 7) cells).insert offset ⟨.ofNat n, v⟩ := by
  have hlt : offset - 7 < offset + .ofNat n := by
    have hfirst : (offset - 7 + 0).toInt = _ := putCell_window (k := 0) hin hn (by omega)
    rw [Int64.add_zero] at hfirst
    rw [Int64.lt_iff_toInt_lt, hfirst, hin.toInt_add]
    omega
  have hcount : ∀ k : Fin 9, (Int64.ofNat k + 7).toNatClampNeg = k.val + 7 := by decide
  rw [putCell, if_pos hlt, hcount ⟨n, by omega⟩]

/-- A store keeps the cells that it does not overlap, and no other. -/
theorem getElem?_putCell {j : Int64} (hin : Inside size offset n) (hn : n ≤ 8) (hpos : 0 < n)
    (hc : cells[j]? = some c) (hsize : c.size = .ofNat k) (hcell : Inside size j k) (hk : k ≤ 8)
    (hkpos : 0 < k) :
    (putCell offset (.ofNat n) v cells)[j]? =
      if j = offset then some ⟨.ofNat n, v⟩
      else if offset.toInt + n ≤ j.toInt ∨ j.toInt + k ≤ offset.toInt then some c else none := by
  rw [putCell_eq hin hn hpos, Std.HashMap.getElem?_insert]
  by_cases hsame : j = offset
  · simp [hsame]
  rw [if_neg (by simpa using fun h => hsame h.symm), if_neg hsame]
  have hreach : offset < j + c.size ↔ offset.toInt < j.toInt + k := by
    rw [hsize, Int64.lt_iff_toInt_lt, hcell.toInt_add]
  by_cases hends : j.toInt + k ≤ offset.toInt
  · rw [if_pos (.inr hends), clearCells_kept hc (by rw [hreach]; omega)]
  by_cases hbehind : offset.toInt + n ≤ j.toInt
  · rw [if_pos (.inl hbehind), clearCells_outside fun i hi heq => ?_, hc]
    have hwindow := putCell_window hin hn hi
    rw [heq] at hwindow
    omega
  · rw [if_neg (by omega)]
    refine clearCells_reached hc (by rw [hreach]; omega) ?_
    -- the cell starts at most seven bytes before the store
    refine ⟨(j.toInt - (offset.toInt - 7)).toNat, by omega, ?_⟩
    apply Int64.toInt_inj.mp
    rw [putCell_window hin hn (by omega)]
    omega

/-! ## Stores one after the other -/

/-- A store of a scalar: as what it is stored, where, and its value. -/
structure Write where
  ty : Ty
  offset : Int64
  value : Value

namespace Write

variable {w w' u : Write} {ws : List Write}

def bytes (w : Write) : Nat := scalarBytes w.ty

/-- The bytes that are written. -/
def span (w : Write) : Set Int := byteSpan w.offset w.bytes

/-- A scalar all of whose bytes are those of an object of a size. -/
structure Fits (size : Int64) (w : Write) : Prop where
  scalar : IsScalar w.ty
  inside : Inside size w.offset w.bytes

/-- The cell that a store leaves. -/
def cell (w : Write) : Cell := ⟨.ofNat w.bytes, w.value⟩

theorem Fits.span_disjoint (hw : w.Fits size) (hw' : w'.Fits size) : Disjoint w.span w'.span ↔
    w.offset.toInt + w.bytes ≤ w'.offset.toInt ∨ w'.offset.toInt + w'.bytes ≤ w.offset.toInt :=
  byteSpan_disjoint hw.scalar.bytes_pos hw'.scalar.bytes_pos

/-- One of the stores has its bytes untouched by all later ones. -/
def Lasts (ws : List Write) (w : Write) : Prop :=
  ∃ before after, ws = before ++ w :: after ∧ ∀ w' ∈ after, Disjoint w'.span w.span

theorem Lasts.mem (h : Lasts ws w) : w ∈ ws := by
  obtain ⟨before, after, rfl, -⟩ := h
  simp

theorem lasts_concat : Lasts (ws ++ [u]) w ↔ w = u ∨ Lasts ws w ∧ Disjoint u.span w.span := by
  constructor
  · rintro ⟨before, after, heq, hafter⟩
    obtain rfl | ⟨rest, last, rfl⟩ := after.eq_nil_or_concat
    · have hlast := congrArg List.getLast? heq
      simp only [List.getLast?_append, List.getLast?_singleton, Option.some_or] at hlast
      exact .inl (Option.some.inj hlast).symm
    · rw [List.concat_eq_append] at heq hafter
      rw [← List.cons_append, ← List.append_assoc] at heq
      obtain ⟨rfl, hlast⟩ := List.append_inj' heq rfl
      obtain rfl := List.singleton_inj.mp hlast
      exact .inr ⟨⟨before, rest, rfl, fun w' hw' => hafter w' (by simp [hw'])⟩,
        hafter u (by simp)⟩
  · rintro (rfl | ⟨⟨before, after, rfl, hafter⟩, hu⟩)
    · exact ⟨ws, [], rfl, by simp⟩
    · refine ⟨before, after ++ [u], by simp, fun w' hw' => ?_⟩
      obtain hw' | rfl := List.mem_append.mp hw' |>.imp_right List.mem_singleton.mp
      · exact hafter w' hw'
      · exact hu

/-- Of two stores with untouched bytes, none shares a byte with the other. -/
theorem Lasts.disjoint (hw : Lasts ws w) (hw' : Lasts ws w') (hne : w ≠ w') :
    Disjoint w.span w'.span := by
  induction ws using List.reverseRecOn with
  | nil => exact absurd hw.mem (by simp)
  | append_singleton ws u ih =>
    rw [lasts_concat] at hw hw'
    obtain rfl | ⟨hw, hu⟩ := hw
    · obtain rfl | ⟨-, hu⟩ := hw'
      · exact absurd rfl hne
      · exact hu
    · obtain rfl | ⟨hw', hu'⟩ := hw'
      · exact hu.symm
      · exact ih hw hw'

/-- The cells of an object are those of the stores whose bytes are untouched. -/
def Tells (ws : List Write) (cells : Cells) : Prop :=
  ∀ offset c, cells[offset]? = some c ↔ ∃ w, Lasts ws w ∧ w.offset = offset ∧ c = w.cell

theorem tells_nil (h : ∀ offset : Int64, cells[offset]? = none) : Tells [] cells := by
  intro offset c
  rw [h offset]
  refine ⟨fun h => absurd h (by simp), fun ⟨w, hw, _⟩ => absurd hw.mem (by simp)⟩

/-- One more store. -/
theorem Tells.concat (h : Tells ws cells) (hws : ∀ w ∈ ws, w.Fits size) (hu : u.Fits size) :
    Tells (ws ++ [u]) (putCell u.offset (.ofNat u.bytes) u.value cells) := by
  have hupos : 0 < u.bytes := hu.scalar.bytes_pos
  intro offset c
  simp only [lasts_concat]
  constructor
  · intro hc
    by_cases hsame : offset = u.offset
    · subst hsame
      rw [putCell_self] at hc
      exact ⟨u, .inl rfl, rfl, (Option.some.inj hc).symm⟩
    · cases hold : cells[offset]? with
      | none =>
        rw [putCell, Std.HashMap.getElem?_insert, if_neg (by simpa using fun h => hsame h.symm),
          clearCells_absent hold] at hc
        cases hc
      | some d =>
        obtain ⟨w, hw, rfl, rfl⟩ := (h offset d).mp hold
        have hfits := hws w hw.mem
        rw [getElem?_putCell hu.inside hu.scalar.bytes_le hupos hold rfl hfits.inside
          hfits.scalar.bytes_le hfits.scalar.bytes_pos, if_neg hsame] at hc
        split at hc
        · next hapart =>
          exact ⟨w, .inr ⟨hw, (hu.span_disjoint hfits).mpr hapart⟩, rfl, (Option.some.inj hc).symm⟩
        · cases hc
  · rintro ⟨w, rfl | ⟨hw, hapart⟩, rfl, rfl⟩
    · exact putCell_self
    · have hfits := hws w hw.mem
      have hold := (h w.offset w.cell).mpr ⟨w, hw, rfl, rfl⟩
      rw [hu.span_disjoint hfits] at hapart
      have hne : w.offset ≠ u.offset := by
        intro heq
        have hpos : 0 < w.bytes := hfits.scalar.bytes_pos
        rw [heq] at hapart
        omega
      rw [getElem?_putCell hu.inside hu.scalar.bytes_le hupos hold rfl hfits.inside
        hfits.scalar.bytes_le hfits.scalar.bytes_pos, if_neg hne, if_pos hapart]

end Write

/-! ## What is in memory -/

/-- A living object of a size has been written to by a sequence of stores since it came into
being, and by nothing else; what happened to other objects in between is left open. -/
inductive Written (id : Nat) (size : Int64) : List Write → Memory → Prop
  | start {m : Memory} {o : Object} (object : m.objects[id]? = some o) (alive : o.dead = false)
      (extent : o.size = size) (empty : ∀ offset : Int64, o.cells[offset]? = none) :
      Written id size [] m
  | store {ws : List Write} {m m' : Memory} {w : Write} {region : Region}
    (past : Written id size ws m) (fits : w.Fits size)
      (stored : store w.ty w.value ⟨.object id region, w.offset⟩ m = .ok () m') :
      Written id size (ws ++ [w]) m'
  | elsewhere {ws : List Write} {m m' : Memory} (past : Written id size ws m)
      (same : m'.objects[id]? = m.objects[id]?) : Written id size ws m'

/-- An object after one more store. -/
def Object.put (o : Object) (w : Write) : Object :=
  { o with cells := putCell w.offset (.ofNat w.bytes) w.value o.cells }

/-- An object as it is after a sequence of stores. -/
structure Object.Holds (o : Object) (size : Int64) (ws : List Write) : Prop where
  alive : o.dead = false
  extent : o.size = size
  fits : ∀ w ∈ ws, w.Fits size
  tells : Write.Tells ws o.cells

section Access

variable {w u : Write} {ws : List Write} {region : Region}

/-- A store inside the object succeeds, and puts the cell. -/
theorem Object.Holds.store (h : o.Holds size ws) (ho : m.objects[id]? = some o)
    (hw : w.Fits size) :
    Interp.store w.ty w.value ⟨.object id region, w.offset⟩ m =
      .ok () (m.put id w.offset (.ofNat w.bytes) w.value) := by
  refine (congrFun (store_cell hw.scalar.isCell _ _) m).trans
    (storeScalar_of hw.scalar.sizeOf rfl ho h.alive ?_ ?_)
  · rw [Int64.le_iff_toInt_le]
    exact hw.inside.1
  · rw [h.extent, Int64.le_iff_toInt_le]
    exact hw.inside.toInt_add ▸ hw.inside.2

theorem Object.Holds.put (h : o.Holds size ws) (hw : w.Fits size) :
    (o.put w).Holds size (ws ++ [w]) where
  alive := h.alive
  extent := h.extent
  fits u hu := by
    obtain hu | rfl := List.mem_append.mp hu |>.imp_right List.mem_singleton.mp
    · exact h.fits u hu
    · exact hw
  tells := h.tells.concat h.fits hw

theorem Written.holds (h : Written id size ws m) :
    ∃ o, m.objects[id]? = some o ∧ o.Holds size ws := by
  induction h with
  | start object alive extent empty =>
    exact ⟨_, object, alive, extent, by simp, Write.tells_nil empty⟩
  | store past fits stored ih =>
    obtain ⟨o, ho, hholds⟩ := ih
    rw [hholds.store ho fits] at stored
    injection stored with _ hm
    exact ⟨_, hm ▸ Memory.getElem?_put_self ho, hholds.put fits⟩
  | elsewhere past same ih =>
    obtain ⟨o, ho, hholds⟩ := ih
    exact ⟨o, same.trans ho, hholds⟩

/-- An access to a living object is allowed or out of bounds. -/
theorem checkAccess_alive (bytes : Int64) (hp : p.Into id) (ho : m.objects[id]? = some o)
    (halive : o.dead = false) :
    checkAccess p bytes m = if p.offset < 0 ∨ o.size < p.offset + bytes then
      .error (.error (.outOfBounds bytes.toInt p.text o.size.toInt)) m else .ok id m := by
  obtain ⟨region, hbase⟩ := hp
  unfold checkAccess
  rw [hbase]
  have hget : (get : Access Memory) m = .ok m m := rfl
  simp only
  rw [Access.bind_of_ok hget]
  simp only [ho, Option.map_some, halive]
  rw [if_neg (by simp)]
  split <;> rfl

/-- A load that is allowed comes to what the cell at its offset has. -/
theorem load_eq_cellValue (ht : IsScalar t)
    (hcheck : checkAccess p (.ofNat (scalarBytes t)) m = .ok id m) :
    load t p m = cellValue t p (.ofNat (scalarBytes t)) m.objects[id]? m := by
  have hsize : Access.check (sizeOf t) m = .ok (.ofNat (scalarBytes t)) m := by
    rw [ht.sizeOf]
    rfl
  rw [load_cell ht.isCell, loadScalar, Access.bind_of_ok hsize, Access.bind_of_ok hcheck]
  rfl

theorem ofNat_bytes_inj {t' : Ty} (ht : IsScalar t) (ht' : IsScalar t') :
    Int64.ofNat (scalarBytes t) = .ofNat (scalarBytes t') ↔ scalarBytes t = scalarBytes t' := by
  have hall : ∀ a b : Fin 9, Int64.ofNat a = .ofNat b → a = b := by decide
  refine ⟨fun h => ?_, fun h => by rw [h]⟩
  have := hall ⟨scalarBytes t, by have := ht.bytes_le; omega⟩
    ⟨scalarBytes t', by have := ht'.bytes_le; omega⟩ h
  simpa using this

/-- The last store to exactly the bytes of a load wrote a value. -/
def Write.Last (ws : List Write) (t : Ty) (offset : Int64) (v : Value) : Prop :=
  ∃ w, Lasts ws w ∧ w.offset = offset ∧ w.bytes = scalarBytes t ∧ w.value = v

/-- What the last store to exactly its bytes wrote is loaded. -/
theorem Object.Holds.load_of_last (h : o.Holds size ws) (ho : m.objects[id]? = some o)
    (hp : p.Into id) (ht : IsScalar t) (hlast : Write.Last ws t p.offset v) :
    load t p m = .ok v m := by
  obtain ⟨w, hw, hoffset, hbytes, rfl⟩ := hlast
  obtain ⟨region, hbase⟩ := hp
  have hfits := h.fits w hw.mem
  have hcell := (h.tells p.offset w.cell).mpr ⟨w, hw, hoffset, rfl⟩
  rw [Write.cell, hbytes] at hcell
  have hinside := hfits.inside
  rw [hoffset, hbytes] at hinside
  refine (congrFun (load_cell ht.isCell p) m).trans
    (loadScalar_of ht.sizeOf hbase ho h.alive ?_ ?_ hcell)
  · rw [Int64.le_iff_toInt_le]
    exact hinside.1
  · rw [h.extent, Int64.le_iff_toInt_le]
    exact hinside.toInt_add ▸ hinside.2

/-- Without such a store, nothing is loaded. -/
theorem Object.Holds.load_of_not_last (h : o.Holds size ws) (ho : m.objects[id]? = some o)
    (hp : p.Into id) (ht : IsScalar t) (hlast : ∀ v, ¬ Write.Last ws t p.offset v) :
    ∃ e, load t p m = .error (.error e) m ∧ (Inside size p.offset (scalarBytes t) →
      e = .uninitialized p.text ∨ e = .misaligned t.text p.text) := by
  have hcheck := checkAccess_alive (.ofNat (scalarBytes t)) hp ho h.alive
  have hsize : Access.check (sizeOf t) m = .ok (.ofNat (scalarBytes t)) m := by
    rw [ht.sizeOf]
    rfl
  split at hcheck
  · next hout =>
    have hload : loadScalar t p m = _ :=
      (Access.bind_of_ok hsize).trans (Access.bind_of_error hcheck)
    refine ⟨_, (congrFun (load_cell ht.isCell p) m).trans hload, fun hin => ?_⟩
    have hadd := hin.toInt_add
    obtain ⟨hlow, hhigh⟩ := hin
    rw [h.extent, Int64.lt_iff_toInt_lt, Int64.lt_iff_toInt_lt, hadd, Int64.toInt_zero] at hout
    omega
  · rw [load_eq_cellValue ht hcheck, ho, cellValue, Option.bind_some]
    cases hcell : o.cells[p.offset]? with
    | none => exact ⟨_, rfl, fun _ => .inl rfl⟩
    | some c =>
      obtain ⟨w, hw, hoffset, rfl⟩ := (h.tells p.offset c).mp hcell
      have hne : w.cell.size ≠ .ofNat (scalarBytes t) := by
        intro heq
        have hbytes := (ofNat_bytes_inj (h.fits w hw.mem).scalar ht).mp heq
        exact hlast w.value ⟨w, hw, hoffset, hbytes, rfl⟩
      simp only
      rw [if_pos hne]
      exact ⟨_, rfl, fun _ => .inr rfl⟩

/-- Stores to different bytes leave the same object, whichever comes first. -/
theorem Object.Holds.put_comm (h : o.Holds size ws) (hw : w.Fits size) (hu : u.Fits size)
    (hapart : Disjoint w.span u.span) : ((o.put w).put u).Alike ((o.put u).put w) := by
  refine ⟨rfl, rfl, rfl, rfl, fun offset => Option.ext fun c => ?_⟩
  rw [((h.put hu).put hw).tells offset c, ((h.put hw).put hu).tells offset c]
  refine exists_congr fun x => and_congr_left fun _ => ?_
  simp only [Write.lasts_concat]
  constructor
  · rintro (rfl | ⟨rfl | ⟨hx, hxu⟩, hxw⟩)
    · exact .inr ⟨.inl rfl, hapart.symm⟩
    · exact .inl rfl
    · exact .inr ⟨.inr ⟨hx, hxw⟩, hxu⟩
  · rintro (rfl | ⟨rfl | ⟨hx, hxw⟩, hxu⟩)
    · exact .inr ⟨.inl rfl, hapart⟩
    · exact .inl rfl
    · exact .inr ⟨.inr ⟨hx, hxu⟩, hxw⟩

/-- The cells of an object share no byte. -/
theorem Object.Holds.cells_disjoint (h : o.Holds size ws) {offset offset' : Int64} {c c' : Cell}
    (hc : o.cells[offset]? = some c) (hc' : o.cells[offset']? = some c')
    (hne : offset ≠ offset') :
    Disjoint (Set.Ico offset.toInt (offset.toInt + c.size.toInt))
      (Set.Ico offset'.toInt (offset'.toInt + c'.size.toInt)) := by
  obtain ⟨w, hw, rfl, rfl⟩ := (h.tells offset c).mp hc
  obtain ⟨w', hw', rfl, rfl⟩ := (h.tells offset' c').mp hc'
  have hsize : ∀ w ∈ ws, w.cell.size.toInt = w.bytes := by
    intro w hw
    have hle : w.bytes ≤ 8 := (h.fits w hw).scalar.bytes_le
    exact Int64.toInt_ofNat_of_lt (by omega)
  rw [hsize w hw.mem, hsize w' hw'.mem]
  exact hw.disjoint hw' fun heq => hne (heq ▸ rfl)

end Access

/-- Memories that hold the same. -/
structure Memory.Alike (m m' : Memory) : Prop where
  address : m'.nextAddress = m.nextAddress
  heap : m'.heap = m.heap
  objects : ∀ i : Nat, Option.Rel Object.Alike m.objects[i]? m'.objects[i]?

/-- What there is to say about an object after a sequence of stores: a load gives what the last
store to exactly its bytes wrote and fails without one, every further store inside the object
succeeds, no two cells share a byte, and stores that share none can be exchanged. -/
structure KeepsLastWriter (id : Nat) (size : Int64) (ws : List Write) (m : Memory) : Prop where
  load_iff : ∀ (t : Ty) (p : Pointer) (v : Value), IsScalar t → p.Into id →
    (load t p m = .ok v m ↔ Write.Last ws t p.offset v)
  load_fails : ∀ (t : Ty) (p : Pointer), IsScalar t → p.Into id →
    (∀ v, ¬ Write.Last ws t p.offset v) → ∃ e, load t p m = .error (.error e) m ∧
      (Inside size p.offset (scalarBytes t) →
        e = .uninitialized p.text ∨ e = .misaligned t.text p.text)
  stores : ∀ (w : Write) (region : Region), w.Fits size →
    ∃ m', store w.ty w.value ⟨.object id region, w.offset⟩ m = .ok () m'
  cells_disjoint : ∀ (o : Object) (offset offset' : Int64) (c c' : Cell),
    m.objects[id]? = some o → o.cells[offset]? = some c → o.cells[offset']? = some c' →
    offset ≠ offset' → Disjoint (Set.Ico offset.toInt (offset.toInt + c.size.toInt))
      (Set.Ico offset'.toInt (offset'.toInt + c'.size.toInt))
  stores_commute : ∀ (w u : Write) (region region' : Region), w.Fits size → u.Fits size →
    Disjoint w.span u.span → ∃ m1 m2,
      (do store w.ty w.value ⟨.object id region, w.offset⟩
          store u.ty u.value ⟨.object id region', u.offset⟩ : Access Unit) m = .ok () m1 ∧
      (do store u.ty u.value ⟨.object id region', u.offset⟩
          store w.ty w.value ⟨.object id region, w.offset⟩ : Access Unit) m = .ok () m2 ∧
      m1.Alike m2

variable {ws : List Write}

theorem Object.Holds.stores_commute {w u : Write} {region region' : Region} (h : o.Holds size ws)
    (ho : m.objects[id]? = some o) (hw : w.Fits size) (hu : u.Fits size)
    (hapart : Disjoint w.span u.span) : ∃ m1 m2,
      (do Interp.store w.ty w.value ⟨.object id region, w.offset⟩
          Interp.store u.ty u.value ⟨.object id region', u.offset⟩ : Access Unit) m = .ok () m1 ∧
      (do Interp.store u.ty u.value ⟨.object id region', u.offset⟩
          Interp.store w.ty w.value ⟨.object id region, w.offset⟩ : Access Unit) m = .ok () m2 ∧
      m1.Alike m2 := by
  have hw1 : (m.put id w.offset (.ofNat w.bytes) w.value).objects[id]? = some (o.put w) :=
    Memory.getElem?_put_self ho
  have hu1 : (m.put id u.offset (.ofNat u.bytes) u.value).objects[id]? = some (o.put u) :=
    Memory.getElem?_put_self ho
  refine ⟨_, _, (Access.bind_of_ok (h.store ho hw)).trans ((h.put hw).store hw1 hu),
    (Access.bind_of_ok (h.store ho hu)).trans ((h.put hu).store hu1 hw), ?_, ?_, fun i => ?_⟩
  · simp only [Memory.put, Memory.modifyObject]
  · simp only [Memory.put, Memory.modifyObject]
  by_cases hi : i = id
  · subst hi
    rw [Memory.getElem?_put_self hw1, Memory.getElem?_put_self hu1]
    exact .some (h.put_comm hw hu hapart)
  · have hothers : ∀ (m : Memory) (w : Write),
        (m.put id w.offset (.ofNat w.bytes) w.value).objects[i]? = m.objects[i]? :=
      fun m w => Memory.edited_modify.others i hi
    rw [hothers, hothers, hothers, hothers]
    cases m.objects[i]? with
    | none => exact .none
    | some o => exact .some (.refl o)

/-- An object keeps, for every range of bytes, what the last store to exactly this range wrote,
until a store touches one of the bytes. -/
theorem loads_last_writer (h : Written id size ws m) : KeepsLastWriter id size ws m := by
  obtain ⟨o, ho, hholds⟩ := h.holds
  refine ⟨fun t p v ht hp => ⟨fun hload => ?_, hholds.load_of_last ho hp ht⟩,
    fun t p ht hp => hholds.load_of_not_last ho hp ht,
    fun w region hw => ⟨_, hholds.store ho hw⟩, fun o' offset offset' c c' ho' => ?_,
    fun w u region region' => hholds.stores_commute ho⟩
  · by_contra hlast
    have hnone : ∀ v', ¬ Write.Last ws t p.offset v' := by
      intro v' hv'
      have hload' := hholds.load_of_last ho hp ht hv'
      rw [hload] at hload'
      injection hload' with hv
      exact hlast (hv ▸ hv')
    obtain ⟨e, hfails, -⟩ := hholds.load_of_not_last ho hp ht hnone
    rw [hload] at hfails
    cases hfails
  · obtain rfl := Option.some.inj (ho.symm.trans ho')
    exact hholds.cells_disjoint

/-- Two words are written, and a byte over the end of the first: the first cannot be read any
more, the others can. -/
def overwritten : List Write :=
  [⟨.i64, 0, .int 5⟩, ⟨.i64, 8, .int 9⟩, ⟨.int 8, 7, .int 1⟩]

theorem fits_overwritten : ∀ w ∈ overwritten, w.Fits 16 := by
  intro w hw
  simp only [overwritten, List.mem_cons, List.not_mem_nil, or_false] at hw
  obtain rfl | rfl | rfl := hw <;> exact ⟨⟨by decide, by decide⟩, by decide, by decide⟩

/-- Stores inside an object that was just allocated can be done one after the other. -/
theorem exists_written (hws : ∀ w ∈ ws, w.Fits size) : ∃ m, Written 0 size ws m := by
  induction ws using List.reverseRecOn with
  | nil => exact ⟨{ objects := #[{ region := .heap, address := 0x1000, size }] },
      .start rfl rfl rfl fun _ => by simp⟩
  | append_singleton ws w ih =>
    obtain ⟨m, hm⟩ := ih fun u hu => hws u (List.mem_append_left _ hu)
    have hw := hws w (by simp)
    obtain ⟨o, ho, hholds⟩ := hm.holds
    have hstore : store w.ty w.value ⟨.object 0 .heap, w.offset⟩ m = _ := hholds.store ho hw
    exact ⟨_, .store hm hw hstore⟩

theorem loads_last_writer_overwritten : ∃ m, Written 0 16 overwritten m ∧
    load .i64 ⟨.object 0 .heap, 8⟩ m = .ok (.int 9) m ∧
    load (.int 8) ⟨.object 0 .heap, 7⟩ m = .ok (.int 1) m ∧
    ∃ e, load .i64 ⟨.object 0 .heap, 0⟩ m = .error (.error e) m := by
  obtain ⟨m, hm⟩ := exists_written fits_overwritten
  have hkeeps := loads_last_writer hm
  have hfits := fits_overwritten
  simp only [overwritten, List.forall_mem_cons] at hfits
  obtain ⟨hfirst, hsecond, hbyte, -⟩ := hfits
  refine ⟨m, hm, (hkeeps.load_iff _ _ _ hsecond.scalar ⟨_, rfl⟩).mpr ?_,
    (hkeeps.load_iff _ _ _ hbyte.scalar ⟨_, rfl⟩).mpr ?_, ?_⟩
  · refine ⟨_, ⟨[⟨.i64, 0, .int 5⟩], [⟨.int 8, 7, .int 1⟩], rfl, ?_⟩, rfl, rfl, rfl⟩
    intro w hw
    rw [List.mem_singleton.mp hw, hbyte.span_disjoint hsecond]
    decide
  · exact ⟨_, ⟨[⟨.i64, 0, .int 5⟩, ⟨.i64, 8, .int 9⟩], [], rfl, by simp⟩, rfl, rfl, rfl⟩
  · have hnone : ∀ v, ¬ Write.Last overwritten .i64 0 v := by
      rintro v ⟨w, hw, hoffset, -⟩
      change Write.Lasts ([⟨.i64, 0, .int 5⟩, ⟨.i64, 8, .int 9⟩] ++ [_]) w at hw
      obtain rfl | ⟨hw, hapart⟩ := Write.lasts_concat.mp hw
      · exact absurd hoffset (by decide)
      · obtain rfl | rfl : w = ⟨.i64, 0, .int 5⟩ ∨ w = ⟨.i64, 8, .int 9⟩ := by simpa using hw.mem
        · rw [hbyte.span_disjoint hfirst] at hapart
          exact absurd hapart (by decide)
        · exact absurd hoffset (by decide)
    obtain ⟨e, he, -⟩ := hkeeps.load_fails _ ⟨.object 0 .heap, 0⟩ hfirst.scalar ⟨_, rfl⟩ hnone
    exact ⟨e, he⟩

end Tenure.Interp

import Tenure.Proofs.Imprints
import Mathlib.Data.List.Nodup
import Mathlib.Data.List.Perm.Subperm

/-!
# Zero-terminated bytes

The string library reads and writes bytes one by one, each in a cell of its own.  `Spells` says
that a pointer leads to a run of bytes inside an object and `Memory.ChangedIn` that nothing has
changed outside a range of it.  All that the library writes is a run with a terminator behind it,
so copying, joining and formatting come to writing the bytes out (`copyBytes_eq`,
`concatStrings_eq`, `formatInt_eq`), and one lemma says what that does (`writes_terminated`).
-/

namespace Tenure.Interp


variable {m m' m'' : Memory} {p a b dest source : Pointer} {id id' k k' lo hi n : Nat} {o : Object}
variable {x : UInt8} {xs ys : List UInt8} {cells cells' : Cells}

/-! ## Changes in a range -/

/-- Of all cells, only those of one object between two offsets have changed. -/
structure Memory.ChangedIn (id lo hi : Nat) (m m' : Memory) : Prop where
  edited : m.Edited id m'
  object : ∀ o, m.objects[id]? = some o →
    ∃ cells, m'.objects[id]? = some { o with cells } ∧ Cells.ChangedIn lo hi o.cells cells

/-- Ranges that do not overlap, or are in different objects. -/
def Apart (id lo hi id' lo' hi' : Nat) : Prop := id ≠ id' ∨ hi ≤ lo' ∨ hi' ≤ lo

theorem Memory.ChangedIn.refl : m.ChangedIn id lo hi m :=
  ⟨.refl id m, fun o ho => ⟨o.cells, ho, .refl⟩⟩

theorem Memory.ChangedIn.trans (h : m.ChangedIn id lo hi m') (h' : m'.ChangedIn id lo hi m'') :
    m.ChangedIn id lo hi m'' where
  edited := h.edited.trans h'.edited
  object o ho := by
    obtain ⟨cells, ho', hcells⟩ := h.object o ho
    obtain ⟨cells', ho'', hcells'⟩ := h'.object _ ho'
    exact ⟨cells', ho'', hcells.trans hcells'⟩

theorem Memory.ChangedIn.mono {lo' hi' : Nat} (h : m.ChangedIn id lo hi m') (hlo : lo' ≤ lo)
    (hhi : hi ≤ hi') : m.ChangedIn id lo' hi' m' where
  edited := h.edited
  object o ho := by
    obtain ⟨cells, ho', hcells⟩ := h.object o ho
    exact ⟨cells, ho', hcells.mono hlo hhi⟩

/-- The object is still there, and so are its cells in any other range. -/
theorem Pointer.At.changed (h : p.At m id k o) (hm : m.ChangedIn id' lo hi m') :
    ∃ cells, p.At m' id k { o with cells } ∧ ∀ lo' hi', hi' < 2 ^ 63 →
      Apart id lo' hi' id' lo hi → Cells.KeptIn lo' hi' o.cells cells := by
  by_cases hid : id = id'
  · subst hid
    obtain ⟨cells, ho, hcells⟩ := hm.object o h.object
    refine ⟨cells, { h with object := ho }, fun lo' hi' hlt hapart => hcells.keptIn hlt ?_⟩
    exact hapart.resolve_left (absurd rfl)
  · exact ⟨o.cells, { h with object := (hm.edited.others id hid).trans h.object },
      fun _ _ _ _ _ _ _ _ _ _ hc => hc⟩

/-! ## Single bytes -/

/-- A byte is in a cell of its own. -/
def Cells.HasByte (cells : Cells) (k : Nat) (x : UInt8) : Prop :=
  ∃ v : Int64, cells[Int64.ofNat k]? = some ⟨.ofNat 1, .int v⟩ ∧ v.toInt8.toUInt8 = x

theorem Pointer.Into.part (h : p.Into id) (i : Int64) : p.part i = p.shift i := by
  obtain ⟨region, hbase⟩ := h
  rw [Pointer.part, hbase]

theorem changedIn_put {v : Value} (ho : m.objects[id]? = some o) (hlt : k + 1 < 2 ^ 63) :
    m.ChangedIn id k (k + 1) (m.put id (.ofNat k) (.ofNat 1) v) where
  edited := Memory.edited_modify
  object o' ho' := by
    obtain rfl := Option.some.inj (ho.symm.trans ho')
    exact ⟨_, Memory.getElem?_put_self ho, changedIn_putCell (by decide) (by decide) hlt⟩

theorem writeByte_error {i : Int64} {e : Fault} (h : writeByte p i x m = .error e m') : m' = m := by
  have hsize : Access.check (sizeOf .i8) m = .ok 1 m := rfl
  rw [writeByte, storeScalar, Access.bind_of_ok hsize] at h
  cases hcheck : checkAccess (p.part i) 1 m with
  | error e1 m1 =>
    rw [Access.bind_of_error hcheck] at h
    cases h
    exact keeps_checkAccess.of_error (φ := fun m => m) hcheck
  | ok id1 m1 =>
    rw [Access.bind_of_ok hcheck] at h
    cases h

/-- Whether it is written or not, a byte changes nothing but its own place. -/
theorem Pointer.At.changedIn_writeByte (h : p.At m id k o) (hlt : k + n + 1 < 2 ^ 63) (x : UInt8) :
    m.ChangedIn id (k + n) (k + n + 1) ((writeByte p (.ofNat n) x).final m) := by
  cases hwrite : writeByte p (.ofNat n) x m with
  | error e m1 =>
    rw [Access.final_of_error hwrite, writeByte_error hwrite]
    exact .refl
  | ok u m1 =>
    rw [Access.final_of_ok hwrite]
    rw [writeByte, h.into.part] at hwrite
    obtain ⟨bytes, id1, region, o1, hbytes, hbase, ho, -, -, -, rfl⟩ := storeScalar_ok hwrite
    obtain rfl : Int64.ofNat 1 = bytes := Except.ok.inj hbytes
    obtain ⟨region', hbase'⟩ := h.into
    obtain ⟨rfl, -⟩ : id1 = id ∧ region = region' := by
      injection hbase.symm.trans hbase' with h1 h2
      exact ⟨h1, h2⟩
    rw [(h.shift n).offset]
    exact changedIn_put ho hlt

/-- The number that a byte is kept as has the byte in its low bits. -/
theorem toUInt8_extended (x : UInt8) : x.toInt8.toInt64.toInt8.toUInt8 = x := by
  rw [Int8.toInt8_toInt64]
  rfl

/-- Where there is room for it, a byte is written. -/
theorem Pointer.At.writeByte (h : p.At m id k o) (hfit : ((k + n + 1 : Nat) : Int) ≤ o.size.toInt)
    (x : UInt8) : ∃ m' cells, writeByte p (.ofNat n) x m = .ok () m' ∧
      p.At m' id k { o with cells } ∧ cells.HasByte (k + n) x := by
  have hlaid : LaidOut .i8 := ⟨.int (by decide) (by decide), by decide⟩
  obtain ⟨m', cells, hstore, ho, -, hcell⟩ :=
    stores_store (v := .int x.toInt8.toInt64) hlaid (h.shift n) hfit trivial
  refine ⟨m', cells, ?_, { h with object := ho }, _, hcell, toUInt8_extended x⟩
  rw [Interp.writeByte, h.into.part]
  exact hstore

/-! ## Runs of bytes -/

/-- Bytes come one after the other, from an offset on. -/
def Cells.Spell (cells : Cells) : Nat → List UInt8 → Prop
  | _, [] => True
  | k, x :: xs => cells.HasByte k x ∧ cells.Spell (k + 1) xs

theorem Cells.Spell.kept (h : cells.Spell k xs)
    (hkept : Cells.KeptIn k (k + xs.length) cells cells') : cells'.Spell k xs := by
  induction xs generalizing k with
  | nil => trivial
  | cons x xs ih =>
    rw [List.length_cons] at hkept
    obtain ⟨⟨v, hv, hx⟩, hxs⟩ := h
    refine ⟨⟨v, hkept k 1 _ (by decide) (by omega) (by omega) hv, hx⟩, ih hxs ?_⟩
    exact fun j n u hn hlow hhigh => hkept j n u hn (by omega) (by omega)

theorem Cells.Spell.byte {i : Nat} (h : cells.Spell k xs) (hi : i < xs.length) :
    ∃ x, cells.HasByte (k + i) x := by
  induction xs generalizing k i with
  | nil => cases hi
  | cons x xs ih =>
    cases i with
    | zero => exact ⟨x, h.1⟩
    | succ i =>
      obtain ⟨y, hy⟩ := ih h.2 (Nat.lt_of_succ_lt_succ hi)
      exact ⟨y, by rwa [Nat.add_assoc, Nat.add_comm 1] at hy⟩

/-- Each byte is a cell of its own. -/
theorem Cells.Spell.length_le (h : cells.Spell k xs) (hlt : k + xs.length < 2 ^ 63) :
    xs.length ≤ cells.size := by
  have hkeys : ((List.range' k xs.length).map Int64.ofNat) ⊆ cells.keys := by
    intro z hz
    obtain ⟨j, hj, rfl⟩ := List.mem_map.mp hz
    obtain ⟨hlow, hhigh⟩ := List.mem_range'_1.mp hj
    obtain ⟨x, v, hv, -⟩ := h.byte (i := j - k) (by omega)
    rw [Nat.add_sub_cancel' hlow] at hv
    exact Std.HashMap.mem_keys.mpr (Std.HashMap.mem_iff_isSome_getElem?.mpr (by rw [hv]; rfl))
  have hnodup : ((List.range' k xs.length).map Int64.ofNat).Nodup := by
    refine (List.nodup_map_iff_inj_on List.nodup_range').mpr fun i hi j hj heq => ?_
    have hi' := List.mem_range'_1.mp hi
    have hj' := List.mem_range'_1.mp hj
    have hint := congrArg Int64.toInt heq
    rw [Int64.toInt_ofNat_of_lt (by omega), Int64.toInt_ofNat_of_lt (by omega)] at hint
    omega
  have hle := (hnodup.subperm hkeys).length_le
  rwa [List.length_map, List.length_range', Std.HashMap.length_keys] at hle

theorem ofNat_succ (n : Nat) : Int64.ofNat n + 1 = .ofNat (n + 1) := (Int64.ofNat_add n 1).symm

theorem writeBytes_append (p : Pointer) (i : Int64) : writeBytes p i (xs ++ ys) =
    writeBytes p i xs >>= fun j => writeBytes p j ys := by
  induction xs generalizing i with
  | nil => rfl
  | cons x xs ih => simp only [List.cons_append, writeBytes, bind_assoc, ih]

/-- Bytes that are written change their own places only, whether all of them are written or not. -/
theorem Pointer.At.changedIn_writeBytes (h : p.At m id k o) (xs : List UInt8)
    (hlt : k + n + xs.length < 2 ^ 63) :
    m.ChangedIn id (k + n) (k + n + xs.length) ((writeBytes p (.ofNat n) xs).final m) := by
  induction xs generalizing n m o with
  | nil => exact .refl
  | cons x xs ih =>
    rw [List.length_cons] at hlt ⊢
    have hfirst : m.ChangedIn id (k + n) (k + n + (xs.length + 1)) _ :=
      (h.changedIn_writeByte (n := n) (by omega) x).mono (by omega) (by omega)
    cases hwrite : Interp.writeByte p (.ofNat n) x m with
    | error e m1 =>
      rw [Access.final_of_error hwrite] at hfirst
      rwa [writeBytes, Access.final_of_error (Access.bind_of_error hwrite)]
    | ok u m1 =>
      rw [Access.final_of_ok hwrite] at hfirst
      obtain ⟨cells, h1, -⟩ := h.changed hfirst
      have hrest : m1.ChangedIn id (k + n) (k + n + (xs.length + 1)) _ :=
        (ih (n := n + 1) h1 (by omega)).mono (by omega) (by omega)
      have hfinal : (writeBytes p (.ofNat n) (x :: xs)).final m =
          (writeBytes p (.ofNat (n + 1)) xs).final m1 := by
        rw [Access.final, writeBytes, Access.bind_of_ok hwrite, ofNat_succ, Access.final]
      rw [hfinal]
      exact hfirst.trans hrest

/-- Where there is room for them, bytes are written. -/
theorem Pointer.At.writeBytes (h : p.At m id k o) (xs : List UInt8)
    (hfit : ((k + n + xs.length : Nat) : Int) ≤ o.size.toInt) : ∃ m' cells,
      writeBytes p (.ofNat n) xs m = .ok (.ofNat (n + xs.length)) m' ∧
      p.At m' id k { o with cells } ∧ cells.Spell (k + n) xs := by
  induction xs generalizing n m o with
  | nil => exact ⟨m, o.cells, rfl, h, trivial⟩
  | cons x xs ih =>
    rw [List.length_cons] at hfit ⊢
    have hlt := fits_word hfit
    obtain ⟨m1, cells1, hm1, h1, v, hv, hx⟩ := h.writeByte (n := n) (by omega) x
    obtain ⟨m2, cells2, hm2, h2, hxs⟩ := ih (n := n + 1) h1 (by simp only; omega)
    have hchanged := h1.changedIn_writeBytes (n := n + 1) xs (by omega)
    rw [Access.final_of_ok hm2] at hchanged
    obtain ⟨cells, h2', hkept⟩ := h1.changed hchanged
    obtain rfl : cells2 = cells :=
      congrArg Object.cells (Option.some.inj (h2.object.symm.trans h2'.object))
    refine ⟨m2, cells2, ?_, h2, ⟨v, ?_, hx⟩, hxs⟩
    · rw [Interp.writeBytes, Access.bind_of_ok hm1, ofNat_succ, hm2, Nat.add_assoc, Nat.add_comm 1]
    · exact hkept (k + n) (k + n + 1) (by omega) (.inr (.inl (by omega))) _ 1 _ (by decide)
        (by omega) (by omega) hv

/-- A number of bytes behind a pointer to an offset of a living object, there are bytes. -/
def Spells (m : Memory) (p : Pointer) (id k n : Nat) (xs : List UInt8) : Prop :=
  ∃ o, p.At m id k o ∧ ((k + n + xs.length : Nat) : Int) ≤ o.size.toInt ∧ o.cells.Spell (k + n) xs

theorem Spells.head (h : Spells m p id k n (x :: xs)) : readByte p (.ofNat n) m = .ok x m := by
  obtain ⟨o, hat, hfit, ⟨v, hv, rfl⟩, -⟩ := h
  rw [List.length_cons] at hfit
  have hload : loadScalar .i8 (p.shift (.ofNat n)) m = .ok (.int v) m :=
    load_of_cell (t := .i8) trivial rfl (hat.shift n) (n := 1) (by omega) hv
  rw [readByte, hat.into.part, Access.bind_of_ok hload]
  rfl

theorem Spells.tail (h : Spells m p id k n (x :: xs)) : Spells m p id k (n + 1) xs := by
  obtain ⟨o, hat, hfit, -, hxs⟩ := h
  rw [List.length_cons] at hfit
  exact ⟨o, hat, by omega, hxs⟩

/-- What is spelled elsewhere is still spelled. -/
theorem Spells.changed (h : Spells m p id k n xs) (hm : m.ChangedIn id' lo hi m')
    (hapart : Apart id (k + n) (k + n + xs.length) id' lo hi) : Spells m' p id k n xs := by
  obtain ⟨o, hat, hfit, hxs⟩ := h
  obtain ⟨cells, hat', hkept⟩ := hat.changed hm
  exact ⟨_, hat', hfit, hxs.kept (hkept _ _ (fits_word hfit) hapart)⟩

/-- A pointer leads to bytes, none of them zero, with a zero behind them. -/
structure Terminated (m : Memory) (p : Pointer) (id k : Nat) (xs : List UInt8) : Prop where
  bytes : Spells m p id k 0 (xs ++ [0])
  nonzero : 0 ∉ xs

/-! ## Reading strings -/

variable {fuel : Nat}

theorem Spells.readUntilZero {acc : ByteArray} (h : Spells m p id k n (xs ++ [0])) (hxs : 0 ∉ xs)
    (hfuel : xs.length < fuel) :
    readUntilZero p fuel (.ofNat n) acc m = .ok ⟨acc.data ++ xs.toArray⟩ m := by
  induction xs generalizing fuel n acc with
  | nil =>
    obtain ⟨fuel, rfl⟩ := Nat.exists_eq_succ_of_ne_zero (Nat.ne_of_gt hfuel)
    rw [Interp.readUntilZero, Access.bind_of_ok h.head, if_pos rfl, Array.append_empty]
    rfl
  | cons x xs ih =>
    obtain ⟨fuel, rfl⟩ := Nat.exists_eq_succ_of_ne_zero (Nat.ne_of_gt (Nat.zero_lt_of_lt hfuel))
    rw [List.mem_cons, not_or] at hxs
    rw [Interp.readUntilZero, Access.bind_of_ok h.head, if_neg (Ne.symm hxs.1), ofNat_succ,
      ih h.tail hxs.2 (Nat.lt_of_succ_lt_succ hfuel)]
    simp

/-- There is fuel to come to the end of a string. -/
theorem Terminated.cellCount (h : Terminated m p id k xs) :
    ∃ n, cellCount p m = .ok n m ∧ xs.length < n := by
  obtain ⟨o, hat, hfit, hs⟩ := h.bytes
  obtain ⟨region, hbase⟩ := hat.into
  have hle := hs.length_le (fits_word hfit)
  rw [List.length_append] at hle
  refine ⟨o.cells.size, ?_, hle⟩
  have hget : (get : Access Memory) m = .ok m m := rfl
  simp only [Interp.cellCount, hbase]
  rw [Access.bind_of_ok hget, hat.object]
  rfl

theorem Terminated.readString (h : Terminated m p id k xs) :
    readString p m = .ok ⟨xs.toArray⟩ m := by
  obtain ⟨n, hcount, hlt⟩ := h.cellCount
  rw [Interp.readString, Access.bind_of_ok hcount]
  refine (h.bytes.readUntilZero h.nonzero (Nat.lt_succ_of_lt hlt)).trans ?_
  simp

/-- Two strings are compared up to the first difference or to the end of both. -/
theorem Spells.equalUntilZero (ha : Spells m a id k n (xs ++ [0]))
    (hb : Spells m b id' k' n (ys ++ [0])) (hxs : 0 ∉ xs) (hys : 0 ∉ ys)
    (hfuel : xs.length < fuel) :
    equalUntilZero a b fuel (.ofNat n) m = .ok (decide (xs = ys)) m := by
  induction xs generalizing fuel n ys with
  | nil =>
    obtain ⟨fuel, rfl⟩ := Nat.exists_eq_succ_of_ne_zero (Nat.ne_of_gt hfuel)
    rw [Interp.equalUntilZero, Access.bind_of_ok ha.head]
    cases ys with
    | nil =>
      rw [Access.bind_of_ok hb.head, if_neg (by simp), if_pos rfl]
      rfl
    | cons y ys =>
      rw [List.mem_cons, not_or] at hys
      rw [Access.bind_of_ok hb.head, if_pos hys.1]
      rfl
  | cons x xs ih =>
    obtain ⟨fuel, rfl⟩ := Nat.exists_eq_succ_of_ne_zero (Nat.ne_of_gt (Nat.zero_lt_of_lt hfuel))
    rw [List.mem_cons, not_or] at hxs
    rw [Interp.equalUntilZero, Access.bind_of_ok ha.head]
    cases ys with
    | nil =>
      rw [Access.bind_of_ok hb.head, if_pos (Ne.symm hxs.1)]
      rfl
    | cons y ys =>
      rw [List.mem_cons, not_or] at hys
      rw [Access.bind_of_ok hb.head]
      by_cases hxy : x = y
      · subst hxy
        rw [if_neg (by simp), if_neg (Ne.symm hxs.1), ofNat_succ,
          ih ha.tail hb.tail hxs.2 hys.2 (Nat.lt_of_succ_lt_succ hfuel)]
        simp
      · rw [if_pos hxy]
        simp [hxy]
        rfl

theorem Terminated.equalStrings (ha : Terminated m a id k xs) (hb : Terminated m b id' k' ys) :
    equalStrings a b m = .ok (decide (xs = ys)) m := by
  obtain ⟨n, hcount, hlt⟩ := ha.cellCount
  rw [Interp.equalStrings, Access.bind_of_ok hcount]
  exact ha.bytes.equalUntilZero hb.bytes ha.nonzero hb.nonzero (Nat.lt_succ_of_lt hlt)

/-! ## Writing strings -/

/-- Writes bytes and a terminator behind them. -/
def writeString (dest : Pointer) (xs : List UInt8) : Access Unit := do
  let _ ← writeBytes dest 0 (xs ++ [0])

theorem writeString_eq : writeString dest xs = (do writeByte dest (← writeBytes dest 0 xs) 0) := by
  rw [writeString, writeBytes_append]
  simp [writeBytes]

theorem Pointer.At.changedIn_writeString (h : dest.At m id k o) (xs : List UInt8)
    (hlt : k + xs.length + 1 < 2 ^ 63) :
    m.ChangedIn id k (k + xs.length + 1) ((writeString dest xs).final m) := by
  have hchanged := h.changedIn_writeBytes (n := 0) (xs ++ [0])
    (by rw [List.length_append]; exact hlt)
  rw [List.length_append] at hchanged
  cases hwrite : Interp.writeBytes dest (.ofNat 0) (xs ++ [0]) m with
  | error e m1 =>
    rw [Access.final_of_error hwrite] at hchanged
    have hstring : writeString dest xs m = .error e m1 := Access.bind_of_error hwrite
    rwa [Access.final_of_error hstring]
  | ok j m1 =>
    rw [Access.final_of_ok hwrite] at hchanged
    have hstring : writeString dest xs m = .ok () m1 := Access.bind_of_ok hwrite
    rwa [Access.final_of_ok hstring]

/-- Strings are written where there is room for them, and nothing else changes. -/
theorem writes_terminated (h : dest.At m id k o)
    (hfit : ((k + xs.length + 1 : Nat) : Int) ≤ o.size.toInt) (hxs : 0 ∉ xs) :
    ∃ m', writeString dest xs m = .ok () m' ∧ Terminated m' dest id k xs ∧
      m.ChangedIn id k (k + xs.length + 1) m' := by
  obtain ⟨m', cells, hm', hat, hs⟩ := h.writeBytes (n := 0) (xs ++ [0])
    (by rw [List.length_append]; exact hfit)
  have hwrite : writeString dest xs m = .ok () m' := Access.bind_of_ok hm'
  have hchanged := h.changedIn_writeString xs (fits_word hfit)
  rw [Access.final_of_ok hwrite] at hchanged
  exact ⟨m', hwrite, ⟨⟨_, hat, by rw [List.length_append]; exact hfit, hs⟩, hxs⟩, hchanged⟩

/-- Copying bytes that are somewhere else is writing them. -/
theorem copyBytes_eq (length : Int64) {j : Int64} (hs : Spells m source id' k' n xs) (hxs : 0 ∉ xs)
    (hd : dest.At m id k o) (hlt : k + n + xs.length < 2 ^ 63)
    (hapart : Apart id' (k' + n) (k' + n + xs.length) id (k + n) (k + n + xs.length))
    (hwrite : writeBytes dest (.ofNat n) xs m = .ok j m') :
    copyBytes dest source length xs.length (.ofNat n) m = .ok () m' := by
  induction xs generalizing n m o with
  | nil =>
    obtain ⟨-, rfl⟩ := Access.pure_ok hwrite
    rfl
  | cons x xs ih =>
    rw [List.mem_cons, not_or] at hxs
    rw [List.length_cons] at hlt hapart ⊢
    obtain ⟨u, m1, hfirst, hrest⟩ := Access.bind_ok hwrite
    rw [copyBytes, Access.bind_of_ok hs.head, if_neg (Ne.symm hxs.1)]
    refine (Access.bind_of_ok hfirst).trans ?_
    have hchanged := hd.changedIn_writeByte (n := n) (by omega) x
    rw [Access.final_of_ok hfirst] at hchanged
    obtain ⟨cells, hd1, -⟩ := hd.changed hchanged
    have hs1 := hs.tail.changed hchanged (hapart.imp_right fun h => by omega)
    rw [ofNat_succ] at hrest ⊢
    exact ih hs1 hxs.2 hd1 (by omega) (hapart.imp_right fun h => by omega) hrest

theorem initString_eq (hs : Spells m source id' k' 0 xs) (hxs : 0 ∉ xs) (hd : dest.At m id k o)
    (hfit : ((k + xs.length + 1 : Nat) : Int) ≤ o.size.toInt)
    (hapart : Apart id' k' (k' + xs.length) id k (k + xs.length + 1)) :
    initString dest source (.ofNat xs.length) m = writeString dest xs m := by
  have hlt := fits_word hfit
  have hclamp : (Int64.ofNat xs.length).toNatClampNeg = xs.length := by
    rw [Int64.toNatClampNeg, Int64.toInt_ofNat_of_lt (by omega)]
    rfl
  obtain ⟨m1, cells, hm1, -⟩ := hd.writeBytes (n := 0) xs (by omega)
  have hcopy := copyBytes_eq (.ofNat xs.length) hs hxs hd (by omega)
    (hapart.imp_right fun h => by omega) hm1
  rw [initString, hclamp, writeString_eq]
  refine (Access.bind_of_ok hcopy).trans ?_
  exact ((Access.bind_of_ok hm1).trans (by rw [Nat.zero_add])).symm

theorem concatStrings_eq {ida idb ka kb : Nat} (ha : Terminated m a ida ka xs)
    (hb : Terminated m b idb kb ys) (hd : dest.At m id k o)
    (hfit : ((k + (xs ++ ys).length + 1 : Nat) : Int) ≤ o.size.toInt)
    (hapart : Apart idb kb (kb + ys.length + 1) id k (k + (xs ++ ys).length + 1)) :
    concatStrings a b dest m = writeString dest (xs ++ ys) m := by
  have hlt := fits_word hfit
  rw [List.length_append] at hapart hfit hlt
  obtain ⟨m1, cells, hm1, -⟩ := hd.writeBytes (n := 0) xs (by omega)
  have hchanged := hd.changedIn_writeBytes (n := 0) xs (by omega)
  rw [Access.final_of_ok hm1] at hchanged
  have hb1 : Terminated m1 b idb kb ys := by
    refine ⟨hb.bytes.changed hchanged ?_, hb.nonzero⟩
    rw [List.length_append]
    exact hapart.imp_right fun h => by
      rw [List.length_singleton]
      omega
  rw [concatStrings, Access.bind_of_ok ha.readString, writeString_eq, writeBytes_append, bind_assoc]
  have hm1 : writeBytes dest 0 xs m = .ok _ m1 := hm1
  rw [Access.bind_of_ok hm1, Access.bind_of_ok hm1, Access.bind_of_ok hb1.readString]

/-! ## Decimal texts -/

/-- The decimal text of a number, byte by byte. -/
def decimal (n : Int) : List UInt8 := (toString n).toUTF8.data.toList

theorem decimal_eq (n : Int) : decimal n = (toString n).toList.flatMap String.utf8EncodeChar := by
  rw [decimal, String.toUTF8, ← String.utf8Encode_toList, List.utf8Encode, List.data_toByteArray]

/-- Decimal texts are made of digits and, in front, a sign. -/
theorem mem_toString {n : Int} {c : Char} (h : c ∈ (toString n).toList) :
    c.isDigit = true ∨ c = '-' := by
  have hdigit : ∀ k : Nat, c ∈ (Nat.repr k).toList → c.isDigit = true := fun k hc => by
    rw [Nat.toList_repr] at hc
    exact Nat.isDigit_of_mem_toDigits (by decide) (by decide) hc
  cases n with
  | ofNat k => exact .inl (hdigit k h)
  | negSucc k =>
    rw [show toString (Int.negSucc k) = "-" ++ Nat.repr (k + 1) from rfl, String.toList_append,
      List.mem_append] at h
    rcases h with h | h
    · exact .inr (by simpa using h)
    · exact .inl (hdigit _ h)

theorem zero_notMem_decimal (n : Int) : 0 ∉ decimal n := by
  rw [decimal_eq, List.mem_flatMap]
  rintro ⟨c, hc, hzero⟩
  have hcode : c.toNat ≤ 127 ∧ c.toNat ≠ 0 := by
    rcases mem_toString hc with h | rfl
    · simp [Char.isDigit, UInt32.le_iff_toNat_le] at h
      omega
    · decide
  rw [String.utf8EncodeChar, if_pos (show c.val.toNat ≤ 127 from hcode.1),
    List.mem_singleton] at hzero
  have hnat := congrArg UInt8.toNat hzero
  simp at hnat
  omega

/-- As much of the decimal text of the low bits of a number as fits. -/
def fitting (n room : Int64) : List UInt8 :=
  (decimal (n.toInt.bmod (2 ^ 32))).take (room.toInt - 1).toNat

theorem zero_notMem_fitting (n room : Int64) : 0 ∉ fitting n room :=
  fun h => zero_notMem_decimal _ (List.mem_of_mem_take h)

theorem length_fitting_le {n room : Int64} (h : 0 < room) :
    ((fitting n room).length + 1 : Int) ≤ room.toInt := by
  rw [Int64.lt_iff_toInt_lt, Int64.toInt_zero] at h
  rw [fitting, List.length_take]
  omega

theorem formatInt_eq {n room : Int64} (h : 0 < room) :
    formatInt n dest room = writeString dest (fitting n room) := by
  rw [Int64.lt_iff_toInt_lt, Int64.toInt_zero] at h
  have hclamp : (room - 1).toNatClampNeg = (room.toInt - 1).toNat := by
    have hlt := room.toInt_lt
    rw [Int64.toNatClampNeg, Int64.toInt_sub, show (1 : Int64).toInt = 1 from rfl,
      Int.bmod_eq_of_le (by omega) (by omega)]
  have hroom : ¬ room ≤ 0 := by
    rw [Int64.le_iff_toInt_le, Int64.toInt_zero]
    omega
  rw [formatInt, if_neg hroom, writeString_eq, hclamp, fitting, Int64.toInt_toInt32]
  rfl

theorem formatInt_of_le {n room : Int64} (h : room ≤ 0) : formatInt n dest room = pure () := by
  rw [formatInt, if_pos h]

/-- No more bytes are written than there is room for. -/
theorem formatInt_atMost (n : Int64) (dest : Pointer) (room : Int64) : ∃ xs : List UInt8,
    xs.length ≤ room.toInt.toNat ∧
      formatInt n dest room = (do let _ ← writeBytes dest 0 xs) := by
  by_cases h : 0 < room
  · refine ⟨fitting n room ++ [0], ?_, formatInt_eq h⟩
    have hle := length_fitting_le (n := n) h
    rw [List.length_append, List.length_singleton]
    omega
  · exact ⟨[], Nat.zero_le _, formatInt_of_le (Int64.not_lt.mp h)⟩

/-! ## The contract of the library -/

/-- What the functions on strings do in a memory. -/
structure StringContract (m : Memory) : Prop where
  /-- strings are equal if their bytes are, whether they overlap or not; nothing has to stand
  behind their terminators -/
  compares : ∀ ⦃a b ida ka idb kb xs ys⦄, Terminated m a ida ka xs → Terminated m b idb kb ys →
    readString a m = .ok ⟨xs.toArray⟩ m ∧ readString b m = .ok ⟨ys.toArray⟩ m ∧
      equalStrings a b m = .ok (decide (xs = ys)) m
  /-- bytes are copied to a place apart from them and terminated there -/
  copies : ∀ ⦃source ids ks xs⦄, Spells m source ids ks 0 xs → 0 ∉ xs → ∀ ⦃dest id k o⦄,
    dest.At m id k o → ((k + xs.length + 1 : Nat) : Int) ≤ o.size.toInt →
    Apart ids ks (ks + xs.length) id k (k + xs.length + 1) →
    ∃ m', initString dest source (.ofNat xs.length) m = .ok () m' ∧
      readString dest m' = .ok ⟨xs.toArray⟩ m' ∧ m.ChangedIn id k (k + xs.length + 1) m'
  /-- strings are joined at a place apart from the second; the first has been read before
  anything is written -/
  joins : ∀ ⦃a b ida ka idb kb xs ys⦄, Terminated m a ida ka xs → Terminated m b idb kb ys →
    ∀ ⦃dest id k o⦄, dest.At m id k o → ((k + (xs ++ ys).length + 1 : Nat) : Int) ≤ o.size.toInt →
    Apart idb kb (kb + ys.length + 1) id k (k + (xs ++ ys).length + 1) →
    ∃ m', concatStrings a b dest m = .ok () m' ∧
      readString dest m' = .ok ⟨(xs ++ ys).toArray⟩ m' ∧
      m.ChangedIn id k (k + (xs ++ ys).length + 1) m'
  /-- no more bytes are written than are allowed -/
  formatsAtMost : ∀ n dest room, ∃ xs : List UInt8, xs.length ≤ room.toInt.toNat ∧
    formatInt n dest room = (do let _ ← writeBytes dest 0 xs)
  /-- nothing else changes, even if it ends in a fault -/
  formatsWithin : ∀ ⦃n dest room id k o⦄, dest.At m id k o →
    k + (fitting n room).length + 1 < 2 ^ 63 →
    m.ChangedIn id k (k + room.toInt.toNat) ((formatInt n dest room).final m)
  /-- what fits of the decimal text is written and terminated -/
  formats : ∀ ⦃n dest room id k o⦄, 0 < room → dest.At m id k o →
    ((k + (fitting n room).length + 1 : Nat) : Int) ≤ o.size.toInt →
    ∃ m', formatInt n dest room m = .ok () m' ∧
      readString dest m' = .ok ⟨(fitting n room).toArray⟩ m'

theorem strings_meet_contract (m : Memory) : StringContract m where
  compares _ _ _ _ _ _ _ _ ha hb := ⟨ha.readString, hb.readString, ha.equalStrings hb⟩
  copies _ _ _ _ hs hxs _ _ _ _ hd hfit hapart := by
    obtain ⟨m', hm', hterm, hchanged⟩ := writes_terminated hd hfit hxs
    exact ⟨m', (initString_eq hs hxs hd hfit hapart).trans hm', hterm.readString, hchanged⟩
  joins _ _ _ _ _ _ _ _ ha hb _ _ _ _ hd hfit hapart := by
    obtain ⟨m', hm', hterm, hchanged⟩ := writes_terminated hd hfit
      (List.mem_append.not.mpr (not_or.mpr ⟨ha.nonzero, hb.nonzero⟩))
    exact ⟨m', (concatStrings_eq ha hb hd hfit hapart).trans hm', hterm.readString, hchanged⟩
  formatsAtMost := formatInt_atMost
  formatsWithin n dest room id k o hd hlt := by
    by_cases h : 0 < room
    · have hle := length_fitting_le (n := n) h
      rw [formatInt_eq h]
      exact (hd.changedIn_writeString _ hlt).mono (Nat.le_refl _) (by omega)
    · rw [formatInt_of_le (Int64.not_lt.mp h)]
      exact .refl
  formats n dest room id k o h hd hfit := by
    obtain ⟨m', hm', hterm, -⟩ := writes_terminated hd hfit (zero_notMem_fitting n room)
    exact ⟨m', (congrFun (formatInt_eq h) m).trans hm', hterm.readString⟩

namespace Greeting

/-- Two objects of eight bytes. -/
def blank : Memory where
  objects := #[⟨.heap, 0x1000, 8, {}, false⟩, ⟨.heap, 0x1020, 8, {}, false⟩]

def text : Pointer := ⟨.object 0 .heap, 1⟩

def spare : Pointer := ⟨.object 1 .heap, 2⟩

/-- The first object has a string in it. -/
theorem exists_greeting :
    ∃ m, Terminated m text 0 1 [104, 105] ∧ ∃ o, spare.At m 1 2 o ∧ o.size = 8 := by
  have htext : text.At blank 0 1 ⟨.heap, 0x1000, 8, {}, false⟩ := ⟨⟨_, rfl⟩, rfl, rfl, rfl⟩
  have hspare : spare.At blank 1 2 ⟨.heap, 0x1020, 8, {}, false⟩ := ⟨⟨_, rfl⟩, rfl, rfl, rfl⟩
  obtain ⟨m, -, hterm, hchanged⟩ :=
    @writes_terminated _ _ _ _ _ [104, 105] htext (by decide) (by decide)
  obtain ⟨cells, hspare', -⟩ := hspare.changed hchanged
  exact ⟨m, hterm, _, hspare', rfl⟩

end Greeting

open Greeting in
theorem strings_meet_contract_greeting : ∃ m m', Terminated m text 0 1 [104, 105] ∧
    equalStrings text text m = .ok true m ∧ concatStrings text text spare m = .ok () m' ∧
      readString spare m' = .ok ⟨#[104, 105, 104, 105]⟩ m' ∧ m.ChangedIn 1 2 7 m' := by
  obtain ⟨m, htext, o, hspare, hsize⟩ := exists_greeting
  have h := strings_meet_contract m
  obtain ⟨m', hm', hread, hchanged⟩ := h.joins htext htext hspare (by rw [hsize]; decide)
    (.inl (by decide))
  exact ⟨m, m', htext, (h.compares htext htext).2.2, hm', hread, hchanged⟩

end Tenure.Interp

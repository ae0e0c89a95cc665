import Tenure.Program.Notation
import Tenure.Proofs.Outcomes
import Mathlib.Data.List.DropRight
import Mathlib.Tactic.Common

/-!
# Types read back

Reading takes every text of a type to its one canonical form: the type that is
read can be written, and what is written for it reads back as the same type.

* `Reference.Printable`: the types that have a written form under the declared names.
* `Notation.printable_of_readWithin`: whatever is read has a written form.
* `Notation.readWithin_text`: the written form of a type is read as that type.

Names are arbitrary texts, so brackets, angle brackets and blanks may stand inside
them.  Reading is safe from that because the closing bracket of a size is the first
one of the text and the closing angle bracket of an element the last one.
-/

namespace Tenure

variable {s : List Char} {c : Char} {r : Reference} {names : Declared}

/-! ## Trimmed texts -/

namespace Text

/-- A text with no blank at either end. -/
structure Trimmed (s : List Char) : Prop where
  first : ∀ c ∈ s.head?, isBlank c = false
  last : ∀ c ∈ s.getLast?, isBlank c = false

theorem Trimmed.of_ends {a b : Char} (hfirst : s.head? = some a)
    (hlast : s.getLast? = some b) (ha : isBlank a = false) (hb : isBlank b = false) :
    Trimmed s where
  first c hc := by
    obtain rfl := Option.some.inj (hfirst.symm.trans hc)
    exact ha
  last c hc := by
    obtain rfl := Option.some.inj (hlast.symm.trans hc)
    exact hb

theorem Trimmed.trim_eq (h : Trimmed s) : trim s = s := by
  have hfirst : s.dropWhile isBlank = s := by
    cases s with
    | nil => rfl
    | cons c s => rw [List.dropWhile_cons_of_neg (by simp [h.first c rfl])]
  have hlast : s.rdropWhile isBlank = s := by
    rw [List.rdropWhile_eq_self_iff]
    intro hne
    simp [h.last _ (List.getLast?_eq_some_getLast hne)]
  calc trim s = (s.dropWhile isBlank).rdropWhile isBlank := rfl
    _ = s := by rw [hfirst, hlast]

theorem trimmed_trim (s : List Char) : Trimmed (trim s) where
  first c hc := by
    -- what is left after both ends were trimmed begins as after the first was
    obtain ⟨rest, hrest⟩ := List.rdropWhile_prefix isBlank (s.dropWhile isBlank)
    have hhead : (s.dropWhile isBlank).head? = some c := by
      rw [← hrest, List.head?_append, show List.rdropWhile isBlank _ = trim s from rfl,
        Option.mem_def.mp hc]
      rfl
    have := List.head?_dropWhile_not isBlank s
    rwa [hhead] at this
  last c hc := by
    obtain ⟨hne, rfl⟩ := List.mem_getLast?_eq_getLast hc
    exact Bool.eq_false_iff.mpr (List.rdropWhile_last_not isBlank (s.dropWhile isBlank) hne)

/-- Trimming drops blanks only. -/
theorem mem_trim (hc : c ∈ s) (hblank : isBlank c = false) : c ∈ trim s := by
  have hdrop : ∀ t : List Char, c ∈ t → c ∈ t.dropWhile isBlank := by
    intro t ht
    rw [← List.takeWhile_append_dropWhile (p := isBlank) (l := t), List.mem_append] at ht
    refine ht.resolve_left fun hmem => ?_
    rw [List.mem_takeWhile_imp hmem] at hblank
    cases hblank
  rw [trim, List.mem_reverse]
  exact hdrop _ (List.mem_reverse.mpr (hdrop s hc))

/-! ## Numerals -/

theorem digitValue_digitChar {d : Nat} (hd : d < 10) : digitValue 10 d.digitChar = some d := by
  have hall : ∀ e ∈ List.range 10, digitValue 10 e.digitChar = some e := by decide
  exact hall d (List.mem_range.mpr hd)

theorem digits?_toDigits (n : Nat) : digits? 10 (Nat.toDigits 10 n) = some n := by
  induction n using Nat.strongRecOn with
  | ind n ih =>
    rw [Nat.toDigits_eq_if (by decide)]
    split
    · next hn => simp [digits?, digitValue_digitChar hn]
    · next hn =>
      have hfold := ih (n / 10) (by omega)
      rw [digits?] at hfold ⊢
      rw [List.foldlM_append, hfold]
      have hdigit := digitValue_digitChar (Nat.mod_lt n (by decide : 10 > 0))
      simp only [Option.bind_eq_bind, Option.bind_some, List.foldlM_cons, List.foldlM_nil, hdigit,
        Option.map_some, Option.pure_def]
      congr 1
      omega

theorem toList_toString_ofNat (n : Nat) : (toString (n : Int)).toList = Nat.toDigits 10 n := by
  rw [show toString (n : Int) = n.repr from rfl, Nat.toList_repr]

/-- A numeral holds digits only. -/
theorem isDigit_of_mem_toString {n : Nat} (h : c ∈ (toString (n : Int)).toList) :
    c.isDigit = true := by
  rw [toList_toString_ofNat] at h
  exact Nat.isDigit_of_mem_toDigits (by decide) (by decide) h

theorem splitSign_of_isDigit (h : ∀ c ∈ s, c.isDigit = true) : splitSign s = (false, s) := by
  unfold splitSign
  split
  · next s => exact absurd (h '+' List.mem_cons_self) (by decide)
  · next s => exact absurd (h '-' List.mem_cons_self) (by decide)
  · rfl

/-- The numeral of a number that a word holds is read as that number. -/
theorem integer?_toString {n : Int} (h0 : 0 ≤ n) (h1 : n ≤ maxInt64) :
    integer? 10 (toString n).toList = some n := by
  obtain ⟨k, rfl⟩ := Int.eq_ofNat_of_zero_le h0
  have hne : (toString (k : Int)).toList.isEmpty = false := by
    rw [toList_toString_ofNat, List.isEmpty_eq_false_iff]
    exact Nat.toDigits_ne_nil
  have hdigits : digits? 10 (toString (k : Int)).toList = some k := by
    rw [toList_toString_ofNat, digits?_toDigits]
  have hbound : minInt64 ≤ (k : Int) := by
    unfold minInt64
    omega
  unfold integer?
  rw [splitSign_of_isDigit fun c => isDigit_of_mem_toString]
  dsimp only
  rw [natural?, hne, if_neg (by simp), hdigits]
  exact if_pos ⟨hbound, h1⟩

theorem inInt64_le {m n : Int} (h : inInt64 m = some n) : n ≤ maxInt64 := by
  unfold inInt64 at h
  split at h
  · next hbounds =>
    cases h
    exact hbounds.2
  · cases h

theorem integer?_le {base : Nat} {n : Int} (h : integer? base s = some n) : n ≤ maxInt64 := by
  obtain ⟨k, -, hk⟩ := Option.bind_eq_some_iff.mp h
  exact inInt64_le hk

end Text

/-! ## Types with a written form -/

/-- A name that is read as a name: not a primitive, not the beginning of an array, and
the same after trimming. -/
structure IsTypeName (n : String) : Prop where
  nonempty : n ≠ ""
  trimmed : Text.Trimmed n.toList
  noBracket : n.toList.head? ≠ some '['
  notPrimitive : n ∉ ["int", "bool", "str", "void"]

/-- One of the three ownerships that there are words for. -/
def Ownership.Named (o : Ownership) : Prop := o = .own ∨ o = .borrow ∨ o = .share

/-- One of the two locations that there are words for. -/
def Location.Named (l : Location) : Prop := l = .inline ∨ l = .yonder

/-- A referend that has a written form: sizes are numbers of a word that are not
negative, nothing is left out, and a name is that of a declared struct or, where there is
no such struct, of a declared interface. -/
def Referend.Printable (names : Declared) : Referend → Prop
  | .int | .bool | .str | .void => True
  | .struct s => IsTypeName s.name ∧ s = .interned s.name ∧ s.name ∈ names.structs
  | .interface i =>
      IsTypeName i.name ∧ i = .interned i.name ∧ i.name ∉ names.structs ∧ i.name ∈ names.interfaces
  | .array size o l e =>
      (∀ n ∈ size, 0 ≤ n ∧ n ≤ Text.maxInt64) ∧ o.Named ∧ l.Named ∧ e.Printable names
  | .hollowArray _ | .missing => False

/-- A type that has a written form. -/
structure Reference.Printable (names : Declared) (r : Reference) : Prop where
  ownership : r.ownership.Named
  location : r.location.Named
  referend : r.referend.Printable names

namespace Notation

/-! ## Splitting -/

theorem splitAt?_append {a : List Char} (ha : c ∉ a) (b : List Char) :
    splitAt? c (a ++ c :: b) = some (a, b) := by
  induction a with
  | nil => simp [splitAt?]
  | cons d a ih =>
    rw [List.mem_cons, not_or] at ha
    rw [List.cons_append, splitAt?, if_neg (Ne.symm ha.1), ih ha.2]
    rfl

theorem splitAt?_ok {a b : List Char} (h : splitAt? c s = some (a, b)) : s = a ++ c :: b := by
  induction s generalizing a b with
  | nil => cases h
  | cons d s ih =>
    unfold splitAt? at h
    split at h
    · next hd =>
      cases h
      rw [hd]
      rfl
    · obtain ⟨⟨a', b'⟩, h', he⟩ := Option.map_eq_some_iff.mp h
      cases he
      rw [ih h']
      rfl

theorem arrayParts?_append {size : List Char} (hsize : ']' ∉ size) (elem : List Char) :
    arrayParts? ('[' :: size ++ ']' :: '<' :: elem ++ ['>']) = some (size, elem) := by
  have hsplit : splitAt? ']' (size ++ ']' :: '<' :: (elem ++ ['>'])) =
      some (size, '<' :: (elem ++ ['>'])) := splitAt?_append hsize _
  simp [arrayParts?, hsplit]

/-! ## What is read has a written form -/

theorem primitive?_eq_some {s : String} (h : primitive? s = some r) :
    s ∈ ["int", "bool", "str", "void"] ∧ r.ownership = .share ∧ r.location.Named ∧
      r.referend.text = s ∧ ∀ names, r.referend.Printable names := by
  unfold primitive? at h
  split at h <;> cases h <;>
    exact ⟨by decide, rfl, by simp [Location.Named, Reference.int, Reference.bool, Reference.str,
      Reference.void], rfl, fun _ => trivial⟩

theorem primitive?_eq_none {s : String} (h : s ∉ ["int", "bool", "str", "void"]) :
    primitive? s = none := by
  cases hp : primitive? s with
  | none => rfl
  | some r => exact absurd (primitive?_eq_some hp).1 h

theorem ofWord?_ownership {w : String} {o : Ownership} (h : Ownership.ofWord? w = some o) :
    o.Named := by
  unfold Ownership.ofWord? at h
  split at h <;> cases h <;> simp [Ownership.Named]

theorem ofWord?_location {w : String} {l : Location} (h : Location.ofWord? w = some l) :
    l.Named := by
  unfold Location.ofWord? at h
  split at h <;> cases h <;> simp [Location.Named]

/-- What stands after the qualifiers of a trimmed text is not empty. -/
theorem qualifiers_ok {rest : List Char} {o : Ownership} {l : Location}
    (h : qualifiers s = .ok (o, l, rest)) (hs : Text.Trimmed s) :
    o.Named ∧ l.Named ∧ rest ≠ [] ∧ Text.Trimmed rest := by
  unfold qualifiers at h
  dsimp only at h
  split at h
  · cases h
  next own s' hown =>
  split at h
  · cases h
  next loc rest' hloc =>
  split at h
  · cases h
  next o' ho =>
  split at h
  · cases h
  next l' hl =>
  cases h
  refine ⟨ofWord?_ownership ho, ofWord?_location hl, fun hnil => ?_, Text.trimmed_trim rest'⟩
  -- the last character is no blank, so it stands behind the second space
  have hlast : s.getLast? = (' ' :: rest').getLast? := by
    rw [splitAt?_ok hown, splitAt?_ok hloc, ← List.cons_append, ← List.append_assoc,
      List.getLast?_append_of_ne_nil _ (List.cons_ne_nil _ _)]
  obtain ⟨c, hc⟩ : ∃ c, (' ' :: rest').getLast? = some c :=
    ⟨_, List.getLast?_eq_some_getLast (List.cons_ne_nil _ _)⟩
  have hblank : Text.isBlank c = false := hs.last c (hlast.trans hc)
  rcases List.mem_cons.mp (List.mem_of_getLast? hc) with rfl | hmem
  · exact absurd hblank (by decide)
  · have := Text.mem_trim hmem hblank
    rw [hnil] at this
    cases this

theorem arraySize_ok {digits : List Char} {size : Option Int} (h : arraySize digits = .ok size) :
    ∀ n ∈ size, 0 ≤ n ∧ n ≤ Text.maxInt64 := by
  unfold arraySize at h
  split at h
  · cases h
    exact nofun
  · split at h
    · next n hn =>
      split at h
      · next hpos =>
        cases h
        rintro _ ⟨⟩
        exact ⟨hpos, Text.integer?_le hn⟩
      · cases h
    · cases h

/-- A declared name is read as the struct of that name, or else as the interface. -/
theorem simpleReferend_printable {names : Declared} {s : List Char} {e : Referend}
    (h : simpleReferend names (String.ofList s) = .ok e) (hne : s ≠ []) (hs : Text.Trimmed s)
    (hbracket : s.head? ≠ some '[') : e.Printable names := by
  unfold simpleReferend at h
  split at h
  · next r hr =>
    cases h
    exact (primitive?_eq_some hr).2.2.2.2 names
  next hr =>
  have hname : IsTypeName (String.ofList s) := {
    nonempty := by simpa using hne
    trimmed := by simpa using hs
    noBracket := by simpa using hbracket
    notPrimitive := fun hmem => by
      simp only [List.mem_cons, List.not_mem_nil, or_false] at hmem
      rcases hmem with heq | heq | heq | heq <;> rw [heq] at hr <;> cases hr }
  split at h
  · next hstruct =>
    cases h
    exact ⟨hname, rfl, List.contains_iff_mem.mp hstruct⟩
  next hstruct =>
  split at h
  · next hinterface =>
    cases h
    exact ⟨hname, rfl, mt List.contains_iff_mem.mpr hstruct, List.contains_iff_mem.mp hinterface⟩
  · cases h

/-- Whatever is read has a written form. -/
theorem printable_of_readWithin {fuel : Nat}
    (h : readWithin names fuel s = .ok r) : r.Printable names := by
  induction fuel generalizing s r with
  | zero => cases h
  | succ fuel ih =>
    rw [readWithin] at h
    dsimp only at h
    split at h
    · cases h
    split at h
    · next hr =>
      cases h
      obtain ⟨-, hown, hloc, -, hreferend⟩ := primitive?_eq_some hr
      exact ⟨by simp [Ownership.Named, hown], hloc, hreferend names⟩
    · obtain ⟨⟨o, l, rest⟩, hq, h⟩ := except_bind_ok h
      obtain ⟨ho, hl, hne, hrest⟩ := qualifiers_ok hq (Text.trimmed_trim s)
      dsimp only at h
      split at h
      · split at h
        · cases h
        · obtain ⟨e, he, h⟩ := except_bind_ok h
          obtain ⟨n, hn, h⟩ := except_bind_ok h
          cases h
          have helem := ih he
          exact ⟨ho, hl, arraySize_ok hn, helem.ownership, helem.location, helem.referend⟩
      · next hbracket =>
        obtain ⟨e, he, h⟩ := except_bind_ok h
        cases h
        exact ⟨ho, hl, simpleReferend_printable he hne hrest hbracket⟩

/-! ## What is written reads back -/

theorem ownership_reads {o : Ownership} (h : o.Named) :
    Ownership.ofWord? o.text = some o ∧ ' ' ∉ o.text.toList ∧
      ∃ c w, o.text.toList = c :: w ∧ Text.isBlank c = false := by
  rcases h with rfl | rfl | rfl <;> exact ⟨rfl, by decide, _, _, rfl, by decide⟩

theorem location_reads {l : Location} (h : l.Named) :
    Location.ofWord? l.text = some l ∧ ' ' ∉ l.text.toList := by
  rcases h with rfl | rfl <;> exact ⟨rfl, by decide⟩

/-- The bracket of an array holds what is read as its size. -/
theorem arrayHead_reads {size : Option Int} (h : ∀ n ∈ size, 0 ≤ n ∧ n ≤ Text.maxInt64) :
    ∃ digits, (arrayHead size).toList = '[' :: digits ++ [']'] ∧ ']' ∉ digits ∧
      arraySize digits = .ok size := by
  cases size with
  | none => exact ⟨[], rfl, List.not_mem_nil, rfl⟩
  | some n =>
    obtain ⟨hpos, hmax⟩ := h n rfl
    have hread := Text.integer?_toString hpos hmax
    obtain ⟨k, rfl⟩ := Int.eq_ofNat_of_zero_le hpos
    refine ⟨(toString (k : Int)).toList, ?_, fun hmem => ?_, ?_⟩
    · simp [arrayHead, show (toString "[").toList = ['['] from rfl, show (toString "]").toList =
        [']'] from rfl]
    · exact absurd (Text.isDigit_of_mem_toString hmem) (by decide)
    · have hne : (toString (k : Int)).toList.isEmpty = false := by
        rw [Text.toList_toString_ofNat, List.isEmpty_eq_false_iff]
        exact Nat.toDigits_ne_nil
      rw [arraySize, if_neg (by simp only [hne, Bool.false_eq_true, not_false_eq_true]), hread]
      exact if_pos hpos

theorem toList_text (r : Reference) :
    r.text.toList = r.ownership.text.toList ++ ' ' ::
      (r.location.text.toList ++ ' ' :: r.referend.text.toList) := by
  simp [Reference.text]

theorem toList_text_array (size : Option Int) (r : Reference) :
    (Referend.array size r.ownership r.location r.referend).text.toList =
      (arrayHead size).toList ++ '<' :: r.text.toList ++ ['>'] := by
  simp [Referend.text, Reference.text]

/-- The written form of a referend is a trimmed text. -/
theorem trimmed_referend {e : Referend} (h : e.Printable names) :
    e.text.toList ≠ [] ∧ Text.Trimmed e.text.toList := by
  cases e with
  | int | bool | str | void => exact ⟨by decide, .of_ends rfl rfl rfl rfl⟩
  | struct s | interface i => exact ⟨by simpa [Referend.text] using h.1.nonempty, h.1.trimmed⟩
  | array size o l e =>
    obtain ⟨digits, hhead, -⟩ := arrayHead_reads h.1
    rw [toList_text_array size ⟨o, l, e⟩, hhead]
    refine ⟨by simp, .of_ends (a := '[') (b := '>') (by simp) ?_ rfl rfl⟩
    rw [List.getLast?_append_of_ne_nil _ (List.cons_ne_nil _ _)]
    rfl
  | hollowArray size => exact h.elim
  | missing => exact h.elim

theorem getLast?_append_cons {a b : List Char} (hb : b ≠ []) :
    (a ++ c :: b).getLast? = b.getLast? := by
  rw [← List.singleton_append, ← List.append_assoc, List.getLast?_append_of_ne_nil _ hb]

theorem trimmed_text (h : r.Printable names) : Text.Trimmed r.text.toList := by
  obtain ⟨hne, hreferend⟩ := trimmed_referend h.referend
  obtain ⟨-, -, c, w, hown, hblank⟩ := ownership_reads h.ownership
  rw [toList_text]
  refine ⟨fun d hd => ?_, fun d hd => hreferend.last d ?_⟩
  · obtain rfl : c = d := by simpa [hown] using hd
    exact hblank
  · rwa [getLast?_append_cons (by simp), getLast?_append_cons hne] at hd

/-- A written type is not taken for a primitive: it holds spaces. -/
theorem primitive?_text (r : Reference) : primitive? r.text = none := by
  refine primitive?_eq_none fun hmem => ?_
  have hspace : ' ' ∈ r.text.toList := by simp [toList_text]
  simp only [List.mem_cons, List.not_mem_nil, or_false] at hmem
  rcases hmem with heq | heq | heq | heq <;> rw [heq] at hspace <;> exact absurd hspace (by decide)

theorem qualifiers_text (h : r.Printable names) :
    qualifiers r.text.toList = .ok (r.ownership, r.location, r.referend.text.toList) := by
  obtain ⟨hown, hspace, -⟩ := ownership_reads h.ownership
  obtain ⟨hloc, hspace'⟩ := location_reads h.location
  have hrest := (trimmed_referend h.referend).2.trim_eq
  unfold qualifiers
  dsimp only
  rw [toList_text, splitAt?_append hspace]
  dsimp only
  rw [splitAt?_append hspace']
  simp only [String.ofList_toList, hown, hloc, hrest]

/-- The written form of a referend that is no array is read as that referend. -/
theorem simpleReferend_text {e : Referend} (h : e.Printable names) (harray : e.elem? = none) :
    e.text.toList.head? ≠ some '[' ∧ simpleReferend names e.text = .ok e := by
  cases e with
  | int | bool | str | void => exact ⟨by decide, rfl⟩
  | struct s =>
    obtain ⟨hname, hs, hmem⟩ := h
    refine ⟨hname.noBracket, ?_⟩
    rw [hs, simpleReferend, Referend.text, Symbol.name, primitive?_eq_none hname.notPrimitive]
    exact if_pos (List.contains_iff_mem.mpr hmem)
  | interface i =>
    obtain ⟨hname, hi, hmem, hmem'⟩ := h
    refine ⟨hname.noBracket, ?_⟩
    rw [hi, simpleReferend, Referend.text, Symbol.name, primitive?_eq_none hname.notPrimitive]
    dsimp only
    rw [if_neg (mt List.contains_iff_mem.mp hmem), if_pos (List.contains_iff_mem.mpr hmem')]
  | array size o l e => cases harray
  | hollowArray size => cases harray
  | missing => exact h.elim

/-- The written form of a type is read as that type. -/
theorem readWithin_text (h : r.Printable names) {fuel : Nat}
    (hfuel : r.text.toList.length < fuel) : readWithin names fuel r.text.toList = .ok r := by
  induction fuel generalizing r with
  | zero => omega
  | succ fuel ih =>
    have hne : r.text.toList.isEmpty = false := by simp [toList_text]
    rw [readWithin, (trimmed_text h).trim_eq]
    dsimp only
    rw [if_neg (by simp only [hne, Bool.false_eq_true, not_false_eq_true]), String.ofList_toList,
      primitive?_text r, qualifiers_text h]
    obtain ⟨o, l, e⟩ := r
    show (if e.text.toList.head? = some '[' then _ else _ : Except NotationError Reference) = _
    cases hkind : e.elem? with
    | none =>
      obtain ⟨hbracket, hsimple⟩ := simpleReferend_text h.referend hkind
      rw [if_neg hbracket, String.ofList_toList, hsimple]
      rfl
    | some elem =>
      cases e with
      | array size o' l' e' =>
        obtain ⟨hsize, ho, hl, he⟩ := h.referend
        obtain ⟨digits, hhead, hdigits, hread⟩ := arrayHead_reads hsize
        have htext : (Referend.array size o' l' e').text.toList =
            '[' :: digits ++ ']' :: '<' :: (⟨o', l', e'⟩ : Reference).text.toList ++ ['>'] := by
          rw [toList_text_array size ⟨o', l', e'⟩, hhead]
          simp
        have helem := ih (r := ⟨o', l', e'⟩) ⟨ho, hl, he⟩ (by
          rw [toList_text, htext] at hfuel
          simp only [List.length_append, List.length_cons] at hfuel
          omega)
        have hbracket : (Referend.array size o' l' e').text.toList.head? = some '[' := by
          rw [htext]
          rfl
        rw [if_pos hbracket, htext]
        dsimp only
        rw [arrayParts?_append hdigits]
        dsimp only
        rw [helem, hread]
        rfl
      | hollowArray size => exact h.referend.elim
      | _ => cases hkind

end Notation

open Notation in
/-- Reading and printing types are inverse to each other: exactly the types with a written
form are read, from their written form and perhaps from others, so a type that was read is
read again from what is printed for it, and no two such types are printed alike. -/
theorem Reference.read_text (names : Declared) :
    (∀ s r, Reference.read names s = .ok r → r.Printable names) ∧
      (∀ r, r.Printable names → Reference.read names r.text = .ok r) ∧
      (∀ s r, Reference.read names s = .ok r → Reference.read names r.text = .ok r) ∧
      ∀ s s' r r', Reference.read names s = .ok r → Reference.read names s' = .ok r' →
        r.text = r'.text → r = r' := by
  have hread : ∀ s r, Reference.read names s = .ok r → r.Printable names :=
    fun s r h => printable_of_readWithin h
  have hback : ∀ r : Reference, r.Printable names → Reference.read names r.text = .ok r :=
    fun r h => readWithin_text h (Nat.lt_succ_self _)
  refine ⟨hread, hback, fun s r h => hback r (hread s r h), fun s s' r r' h h' heq => ?_⟩
  have hr := hback r (hread s r h)
  rw [heq, hback r' (hread s' r' h')] at hr
  exact (Except.ok.inj hr).symm

/-- Sizes may be written with leading zeros, blanks may surround a type, and a name may hold
brackets; what is printed is the canonical form. -/
theorem Reference.read_text_nested :
    ∃ r, Reference.read ⟨["a]> <b"], []⟩
        " own yonder  [007]<share yonder []<borrow inline a]> <b >> " = .ok r ∧
      r.text = "own yonder [7]<share yonder []<borrow inline a]> <b>>" ∧
      Reference.read ⟨["a]> <b"], []⟩ r.text = .ok r := by
  have hread : Reference.read ⟨["a]> <b"], []⟩
      " own yonder  [007]<share yonder []<borrow inline a]> <b >> " =
        .ok ⟨.own, .yonder, .array (some 7) .share .yonder
          (.array none .borrow .inline (.struct (.interned "a]> <b")))⟩ := by
    decide +kernel
  exact ⟨_, hread, by decide +kernel, (Reference.read_text _).2.2.1 _ _ hread⟩

end Tenure

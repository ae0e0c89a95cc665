/-!
# Text and bytes

Messages and string constants are byte strings: a message may quote a text cut
off in the middle of a character.  Names are texts, also those that are given as
bytes: `pack` makes a text of any byte string, and `unpack` gives the bytes back.
-/

namespace Tenure.Text

/-- The length in bytes of the character that starts with a byte. -/
def width (b : UInt8) : Nat :=
  if b < 0x80 then 1 else if b < 0xE0 then 2 else if b < 0xF0 then 3 else 4

/-- The character at the start of a byte string, with its length, if the bytes
are valid UTF-8 there. -/
def firstChar? (bytes : List UInt8) : Option (Char × Nat) :=
  match bytes with
  | [] => none
  | b :: _ =>
      match (String.fromUTF8? ⟨(bytes.take (width b)).toArray⟩).map String.toList with
      | some [c] => some (c, width b)
      | _ => none

/-- The characters of a byte string, with another one for every byte that is not
part of an accepted character; the fuel is the number of bytes. -/
def charsWith (accepts : Char → Bool) (other : UInt8 → Char) : Nat → List UInt8 → List Char
  | 0, _ => []
  | _, [] => []
  | fuel + 1, b :: rest =>
      match (firstChar? (b :: rest)).filter (accepts ·.1) with
      | some (c, n) => c :: charsWith accepts other fuel ((b :: rest).drop n)
      | none => other b :: charsWith accepts other fuel rest

/-- The text of a byte string, with replacement characters for what is not valid. -/
def ofBytes (bytes : ByteArray) : String :=
  match String.fromUTF8? bytes with
  | some s => s
  | none => String.ofList (charsWith (fun _ => true) (fun _ => '�') bytes.size bytes.data.toList)

/-- The last characters that there are stand for single bytes. -/
def byteChar (b : UInt8) : Char := Char.ofNat (0x10FF00 + b.toNat)

/-- A byte string as a text.  Bytes that are not part of valid UTF-8 are kept, and so
are those of the characters that stand for single bytes. -/
def pack (bytes : ByteArray) : String :=
  String.ofList (charsWith (·.toNat < 0x10FF00) byteChar bytes.size bytes.data.toList)

def packedBytes (c : Char) : List UInt8 :=
  if c.toNat < 0x10FF00 then String.utf8EncodeChar c else [UInt8.ofNat (c.toNat - 0x10FF00)]

/-- The byte string that a text stands for. -/
def unpack (s : String) : ByteArray := (s.toList.flatMap packedBytes).toByteArray

theorem width_pos (b : UInt8) : 0 < width b := by
  unfold width
  split
  · decide
  · split
    · decide
    · split <;> decide

theorem firstChar?_eq_some {bytes : List UInt8} {c : Char} {n : Nat}
    (h : firstChar? bytes = some (c, n)) : String.utf8EncodeChar c = bytes.take n ∧ 0 < n := by
  cases bytes with
  | nil => cases h
  | cons b rest =>
    rw [firstChar?] at h
    split at h
    · next c' hchunk =>
      cases h
      obtain ⟨s, hs, hc⟩ := Option.map_eq_some_iff.mp hchunk
      have hbytes : s.toByteArray = ⟨((b :: rest).take (width b)).toArray⟩ := by
        rw [String.fromUTF8?] at hs
        split at hs <;> cases hs
        rfl
      rw [← String.utf8Encode_toList, hc, List.utf8Encode_singleton] at hbytes
      exact ⟨by simpa using congrArg (·.data.toList) hbytes, width_pos b⟩
    · cases h

theorem packedBytes_byteChar (b : UInt8) : packedBytes (byteChar b) = [b] := by
  have hb := b.toNat_lt
  have hn : (byteChar b).toNat = 0x10FF00 + b.toNat := by
    rw [byteChar, Char.ofNat, dif_pos (.inr ⟨by omega, by omega⟩)]
    rfl
  rw [packedBytes, if_neg (by omega), hn, Nat.add_sub_cancel_left, UInt8.ofNat_toNat]

theorem flatMap_packedBytes {fuel : Nat} {bytes : List UInt8} (h : bytes.length ≤ fuel) :
    (charsWith (·.toNat < 0x10FF00) byteChar fuel bytes).flatMap packedBytes = bytes := by
  induction fuel generalizing bytes with
  | zero => simp [charsWith, List.eq_nil_of_length_eq_zero (Nat.le_zero.mp h)]
  | succ fuel ih =>
    cases bytes with
    | nil => rfl
    | cons b rest =>
      rw [charsWith]
      split
      · next c n hfirst =>
        obtain ⟨hfirst, hc⟩ := Option.filter_eq_some_iff.mp hfirst
        obtain ⟨hbytes, hn⟩ := firstChar?_eq_some hfirst
        have hc : c.toNat < 0x10FF00 := by simpa using hc
        rw [List.flatMap_cons, packedBytes, if_pos hc, hbytes, ih, List.take_append_drop]
        simp at h ⊢
        omega
      · rw [List.flatMap_cons, packedBytes_byteChar, ih (by simpa using h), List.singleton_append]

/-- No byte is lost in a text. -/
theorem unpack_pack (bytes : ByteArray) : unpack (pack bytes) = bytes := by
  rw [unpack, pack, String.toList_ofList, flatMap_packedBytes (by simp)]
  exact ByteArray.ext (by simp)

/-- The concatenation of byte strings. -/
def joinBytes (parts : List ByteArray) : ByteArray :=
  parts.foldl (· ++ ·) .empty

end Tenure.Text

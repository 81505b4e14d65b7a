import NameTables.Text.Split

/-! The numbered lines of a file.
The bytes are cut into lines before they are decoded, so an undecodable line spoils no other one.
The lines of an encoded text are the encoded lines of the text, since no byte of a longer character
is an ASCII one.
-/

namespace NameTables.Text

/-- A line with its number, counted from one. It has no text when it is not UTF-8. -/
structure Line where
  number : Nat
  text : Option String
  deriving DecidableEq

def decode (bytes : List UInt8) : Option String := String.fromUTF8? ⟨bytes.toArray⟩

def Line.ofContent (content : ByteArray) : List Line :=
  ((splitLines 10 13 content.data.toList).zipIdx 1).map fun (bytes, number) =>
    ⟨number, decode bytes⟩

/-- The first line of a text, empty if there is none. -/
def firstLine (text : String) : String :=
  String.ofList ((splitLines '\n' '\r' text.toList).headD [])

/-- The bytes of a text. -/
def encode (chars : List Char) : List UInt8 := chars.flatMap String.utf8EncodeChar

theorem data_toUTF8 (text : String)
    : text.toUTF8.data.toList = encode text.toList := by
  have same : text.toUTF8 = (encode text.toList).toByteArray := String.utf8Encode_toList.symm
  rw [same]
  simp

theorem decode_encode (chars : List Char)
    : decode (encode chars) = some (String.ofList chars) := by
  have same : (⟨(encode chars).toArray⟩ : ByteArray) = chars.utf8Encode := by
    change _ = (encode chars).toByteArray
    apply ByteArray.ext
    simp
  have valid : (⟨(encode chars).toArray⟩ : ByteArray).IsValidUTF8 := same ▸ .intro chars rfl
  simp only [decode, String.fromUTF8?, valid, dif_pos, Option.some.injEq]
  apply String.toByteArray_inj.mp
  simpa [String.fromUTF8] using same

/-- Only the bytes of a text are decoded to it. -/
theorem encode_of_decode {bytes : List UInt8} {text : String} (decoded : decode bytes = some text)
    : encode text.toList = bytes := by
  rw [← data_toUTF8]
  simp only [decode, String.fromUTF8?, Option.dite_none_right_eq_some, Option.some.injEq]
    at decoded
  obtain ⟨valid, rfl⟩ := decoded
  simp [String.fromUTF8]

/-- An ASCII byte is no part of a longer character. -/
theorem eq_of_mem_utf8EncodeChar {c : Char} {b : UInt8} (h : b ∈ String.utf8EncodeChar c)
    (ascii : b.toNat < 128)
    : c.toNat = b.toNat := by
  have value : c.val.toNat = c.toNat := rfl
  unfold String.utf8EncodeChar at h
  simp only [value] at h
  split at h
  · next small =>
    rw [List.mem_singleton] at h
    subst h
    simp only [UInt8.toNat_ofNat'] at *
    omega
  · exfalso
    split at h
    · simp only [List.mem_cons, List.not_mem_nil, or_false] at h
      rcases h with rfl | rfl <;> simp only [UInt8.toNat_ofNat'] at ascii <;> omega
    · split at h
      · simp only [List.mem_cons, List.not_mem_nil, or_false] at h
        rcases h with rfl | rfl | rfl <;> simp only [UInt8.toNat_ofNat'] at ascii <;> omega
      · simp only [List.mem_cons, List.not_mem_nil, or_false] at h
        rcases h with rfl | rfl | rfl | rfl <;>
          simp only [UInt8.toNat_ofNat'] at ascii <;> omega

/-- The byte of an ASCII character stands in no other one. -/
theorem not_mem_utf8EncodeChar {sep c : Char} {byte : UInt8}
    (coded : String.utf8EncodeChar sep = [byte]) (ascii : byte.toNat < 128) (other : c ≠ sep)
    : byte ∉ String.utf8EncodeChar c := by
  intro member
  have first := eq_of_mem_utf8EncodeChar member ascii
  have second := eq_of_mem_utf8EncodeChar (coded ▸ List.mem_singleton_self byte) ascii
  exact other (Char.toNat_inj.mp (first.trans second.symm))

/-- Encoding keeps the cuts at an ASCII character. -/
theorem splitOn_encode {sep : Char} {byte : UInt8}
    (coded : String.utf8EncodeChar sep = [byte]) (ascii : byte.toNat < 128) (chars : List Char)
    : (encode chars).splitOn byte = (chars.splitOn sep).map encode := by
  induction chars with
  | nil => simp [encode]
  | cons c chars ih =>
    have whole : encode (c :: chars) = String.utf8EncodeChar c ++ encode chars := by
      simp [encode]
    rw [whole, List.splitOn_cons_eq_if_modifyHead]
    by_cases same : c = sep
    · subst same
      rw [coded, List.singleton_append, List.splitOn_cons_eq_if_modifyHead, ih]
      simp [encode]
    · have absent := not_mem_utf8EncodeChar coded ascii same
      rw [splitOn_append_of_not_mem absent, ih]
      cases chars.splitOn sep with
      | nil => simp [same]
      | cons head tail => simp [same, encode]

/-- Encoding keeps a carriage return at the end. -/
theorem dropReturn_encode (chars : List Char)
    : dropReturn 13 (encode chars) = encode (dropReturn '\r' chars) := by
  rcases List.eq_nil_or_concat chars with rfl | ⟨front, last, rfl⟩
  · rfl
  · have whole : encode (front ++ [last]) = encode front ++ String.utf8EncodeChar last := by
      simp [encode]
    have coded : String.utf8EncodeChar '\r' = [13] := by decide
    by_cases same : last = '\r'
    · subst same
      simp [dropReturn, whole, coded]
    · have absent : (13 : UInt8) ∉ String.utf8EncodeChar last :=
        not_mem_utf8EncodeChar coded (by decide) same
      have kept : (encode (front ++ [last])).getLast? ≠ some 13 := by
        rw [whole]
        intro ends
        rw [List.getLast?_append, Option.or_of_isSome
          (List.getLast?_isSome.mpr String.utf8EncodeChar_ne_nil)] at ends
        exact absent (List.mem_of_getLast? ends)
      simp [dropReturn, kept, same]

/-- The lines of an encoded text are the encoded lines of the text. -/
theorem splitLines_encode (chars : List Char)
    : splitLines 10 13 (encode chars) = (splitLines '\n' '\r' chars).map encode := by
  have cuts : (encode chars).splitOn 10 = (chars.splitOn '\n').map encode :=
    splitOn_encode (by decide) (by decide) chars
  have empty (piece : List Char) : encode piece = [] ↔ piece = [] := by
    cases piece <;> simp [encode, String.utf8EncodeChar_ne_nil]
  simp only [splitLines, cuts, List.map_append, ← List.map_dropLast, List.map_map,
    List.getLast?_map]
  congr 1
  · apply List.map_congr_left
    intro piece _
    exact dropReturn_encode piece
  · cases (chars.splitOn '\n').getLast? with
    | none => rfl
    | some piece => by_cases h : piece = [] <;> simp [h, empty]

/-- The lines of a file that holds a text. -/
theorem Line.ofContent_toUTF8 (text : String)
    : Line.ofContent text.toUTF8
      = ((splitLines '\n' '\r' text.toList).zipIdx 1).map fun (chars, number) =>
          ⟨number, some (String.ofList chars)⟩ := by
  simp only [Line.ofContent, data_toUTF8, splitLines_encode, List.zipIdx_map, List.map_map]
  apply List.map_congr_left
  intro line _
  simp [decode_encode]

end NameTables.Text

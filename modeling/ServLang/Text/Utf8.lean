/-
  ServLang.Text.Utf8 — bytes read as UTF-8 (RFC 3629: no overlong form, no surrogate,
  nothing above U+10FFFF). `characters` reads one character after the other from a
  byte index on, as long as a whole character stands there, and returns the index
  where it stopped: the end of the longest valid part.

  Proved: bytes that encode characters are read as those characters, whatever stands
  before and behind them.
-/

namespace ServLang.Utf8

/-- The characters from byte `i` on, and where the first byte that starts none stands
    (or the size). -/
def characters (bytes : ByteArray) (i : Nat) : List Char × Nat :=
  match _h : bytes.utf8DecodeChar? i with
  | some c =>
    let (cs, stop) := characters bytes (i + c.utf8Size)
    (c :: cs, stop)
  | none => ([], i)
termination_by bytes.size - i
decreasing_by
  have := ByteArray.lt_size_of_isSome_utf8DecodeChar? (Option.isSome_of_eq_some ‹_›)
  have := c.utf8Size_pos
  omega

theorem characters_of_none {bytes : ByteArray} {i : Nat} (h : bytes.utf8DecodeChar? i = none) :
    characters bytes i = ([], i) := by
  rw [characters]
  split
  · next hsome =>
    rw [h] at hsome
    cases hsome
  · rfl

theorem characters_of_some {bytes : ByteArray} {i : Nat} {c : Char} (h : bytes.utf8DecodeChar? i = some c) :
    characters bytes i = (c :: (characters bytes (i + c.utf8Size)).1, (characters bytes (i + c.utf8Size)).2) := by
  rw [characters]
  split
  · next hsome =>
    rw [h] at hsome
    cases hsome
    rfl
  · next hnone =>
    rw [h] at hnone
    cases hnone

/-- Past the last byte there is nothing. -/
theorem characters_size (bytes : ByteArray) : characters bytes bytes.size = ([], bytes.size) := by
  apply characters_of_none
  rw [← Option.not_isSome_iff_eq_none]
  exact fun h => Nat.lt_irrefl _ (ByteArray.lt_size_of_isSome_utf8DecodeChar? h)

/-- Encoded characters are read whatever stands before and behind them. -/
theorem characters_append {bytes before after : ByteArray} {cs : List Char}
    (h : bytes = before ++ cs.utf8Encode ++ after) :
    characters bytes before.size =
      (cs ++ (characters bytes (before ++ cs.utf8Encode).size).1, (characters bytes (before ++ cs.utf8Encode).size).2) := by
  induction cs generalizing before with
  | nil => simp
  | cons c cs ih =>
    have next : before ++ (c :: cs).utf8Encode = before ++ [c].utf8Encode ++ cs.utf8Encode := by
      rw [List.utf8Encode_cons, ByteArray.append_assoc]
    have size : (before ++ [c].utf8Encode).size = before.size + c.utf8Size := by
      rw [ByteArray.size_append, List.utf8Encode_singleton, List.size_toByteArray, String.length_utf8EncodeChar]
    have first : bytes.utf8DecodeChar? before.size = some c := by
      rw [h]
      apply ByteArray.utf8DecodeChar?_append_eq_some
      rw [ByteArray.utf8DecodeChar?_eq_utf8DecodeChar?_extract,
        ByteArray.extract_append_eq_right rfl ByteArray.size_append, List.utf8DecodeChar?_utf8Encode_cons]
    rw [characters_of_some first, ← size, ih (h.trans (by rw [next])), ← next]
    rfl

end ServLang.Utf8

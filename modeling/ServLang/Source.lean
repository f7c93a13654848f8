/-
  ServLang.Source — a source file's bytes read as text. The whole file has to be
  UTF-8; the first byte that is not is reported where the text before it ends.

  Proved: a text's own bytes are read as that text.
-/

import ServLang.Text.Utf8
import ServLang.Token

namespace ServLang.Source

def decode (bytes : ByteArray) : Except LexError String :=
  let (text, stop) := Utf8.characters bytes 0
  match bytes[stop]? with
  | none => .ok (String.ofList text)
  | some byte => .error ⟨.invalidByte byte, Position.start.advance text⟩

theorem decode_toUTF8 (text : String) : decode text.toUTF8 = .ok text := by
  have split : text.toUTF8 = ByteArray.empty ++ text.toList.utf8Encode ++ ByteArray.empty := by
    rw [ByteArray.empty_append, ByteArray.append_empty, String.utf8Encode_toList, String.toUTF8_eq_toByteArray]
  have read := Utf8.characters_append split
  rw [← ByteArray.append_empty (b := ByteArray.empty ++ text.toList.utf8Encode), ← split, Utf8.characters_size,
    ByteArray.size_empty] at read
  rw [decode, read]
  simp

end ServLang.Source

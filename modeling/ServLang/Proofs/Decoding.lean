/-
  ServLang.Proofs.Decoding — what bytes are read as text. A character's bytes are one of
  the sequences of RFC 3629, section 4: a first byte that says how many follow, and bytes
  that go on, of which the second is held to a shorter range where the number would have
  a shorter spelling, be a surrogate, or lie above U+10FFFF. The bits that are left over
  are the number.

  The reader knows nothing of the table. It takes whole characters off the front as long
  as it finds one, so the two are compared by what a character is encoded as.

  Proved:
  - `Utf8.sequence_iff`: the sequences of the table are the encodings of the characters.
  - `Utf8.characters_reads`: what is read encodes the bytes up to where reading stops.
  - `Utf8.le_stop_of_wellFormed`: no well-formed part of the bytes goes on after that.
  - `Source.decode_iff_encodes`: what is decoded, and where decoding fails.
-/

import ServLang.Proofs.Positions
import ServLang.Source

namespace ServLang

namespace Utf8

/-! ## Sequences of bytes -/

/-- A byte that goes on with a character. -/
def Tail (b : Nat) : Prop := 0x80 ≤ b ∧ b ≤ 0xBF

/-- The bytes of one character, and its number. -/
inductive Sequence : List Nat → Nat → Prop
  | one {a n : Nat} : a ≤ 0x7F → n = a → Sequence [a] n
  | two {a b n : Nat} : 0xC2 ≤ a → a ≤ 0xDF → Tail b → n = a % 32 * 64 + b % 64 → Sequence [a, b] n
  /-- After `E0` a number below U+0800 would be spelled, after `ED` a surrogate. -/
  | three {a b c n : Nat} : 0xE0 ≤ a → a ≤ 0xEF → Tail b → Tail c → (a = 0xE0 → 0xA0 ≤ b) → (a = 0xED → b ≤ 0x9F) →
      n = a % 16 * 4096 + b % 64 * 64 + c % 64 → Sequence [a, b, c] n
  /-- After `F0` a number below U+10000 would be spelled, after `F4` one above U+10FFFF. -/
  | four {a b c d n : Nat} : 0xF0 ≤ a → a ≤ 0xF4 → Tail b → Tail c → Tail d → (a = 0xF0 → 0x90 ≤ b) →
      (a = 0xF4 → b ≤ 0x8F) → n = a % 8 * 262144 + b % 64 * 4096 + c % 64 * 64 + d % 64 → Sequence [a, b, c, d] n

inductive WellFormed : ByteArray → Prop
  | nil : WellFormed .empty
  | cons {bytes : List UInt8} {n : Nat} {rest : ByteArray} : Sequence (bytes.map UInt8.toNat) n → WellFormed rest →
      WellFormed (bytes.toByteArray ++ rest)

/-- The sequences of some characters, one after the other. -/
inductive Encodes : ByteArray → List Char → Prop
  | nil : Encodes .empty []
  | cons {bytes : List UInt8} {c : Char} {rest : ByteArray} {cs : List Char} :
      Sequence (bytes.map UInt8.toNat) c.toNat → Encodes rest cs → Encodes (bytes.toByteArray ++ rest) (c :: cs)

/-- The first `k` bytes are well-formed, and so are no more. -/
structure LongestWellFormed (bytes : ByteArray) (k : Nat) : Prop where
  wellFormed : WellFormed (bytes.extract 0 k)
  longest : ∀ j ≤ bytes.size, WellFormed (bytes.extract 0 j) → j ≤ k

def bytesOf (n : Nat) : List Nat :=
  if n ≤ 0x7F then [n]
  else if n ≤ 0x7FF then [n / 64 % 32 + 192, n % 64 + 128]
  else if n ≤ 0xFFFF then [n / 4096 % 16 + 224, n / 64 % 64 + 128, n % 64 + 128]
  else [n / 262144 % 8 + 240, n / 4096 % 64 + 128, n / 64 % 64 + 128, n % 64 + 128]

theorem map_toNat_utf8EncodeChar (c : Char) : (String.utf8EncodeChar c).map UInt8.toNat = bytesOf c.toNat := by
  have byte {n : Nat} (h : n < 256) : (UInt8.ofNat n).toNat = n := by
    rw [UInt8.toNat_ofNat', Nat.mod_eq_of_lt h]
  have number : c.val.toNat = c.toNat := rfl
  rw [String.utf8EncodeChar, bytesOf, number]
  generalize c.toNat = n
  by_cases h1 : n ≤ 0x7F
  · simp [h1, byte (show n < 256 by omega)]
  · by_cases h2 : n ≤ 0x7FF
    · simp only [h1, h2, if_true, if_false, List.map_cons, List.map_nil]
      rw [byte (by omega), byte (by omega)]
    · by_cases h3 : n ≤ 0xFFFF
      · simp only [h1, h2, h3, if_true, if_false, List.map_cons, List.map_nil]
        rw [byte (by omega), byte (by omega), byte (by omega)]
      · simp only [h1, h2, h3, if_false, List.map_cons, List.map_nil]
        rw [byte (by omega), byte (by omega), byte (by omega), byte (by omega)]

theorem tail_mod (n : Nat) : Tail (n % 64 + 128) := by
  unfold Tail
  omega

theorem sequence_bytesOf {n : Nat} (h : n.isValidChar) : Sequence (bytesOf n) n := by
  unfold Nat.isValidChar at h
  unfold bytesOf
  split
  · next h1 => exact .one h1 rfl
  · split
    · exact .two (by omega) (by omega) (tail_mod n) (by omega)
    · split
      · exact .three (by omega) (by omega) (tail_mod _) (tail_mod n) (by omega) (by omega) (by omega)
      · exact .four (by omega) (by omega) (tail_mod _) (tail_mod _) (tail_mod n) (by omega) (by omega) (by omega)

/-- A number has one spelling only. -/
theorem Sequence.eq_bytesOf {bytes : List Nat} {n : Nat} (h : Sequence bytes n) : bytes = bytesOf n := by
  cases h with
  | one ha hn => rw [bytesOf, if_pos (by omega), hn]
  | two ha ha' hb hn =>
    unfold Tail at hb
    rw [bytesOf, if_neg (by omega), if_pos (by omega)]
    simp only [List.cons.injEq, and_true]
    omega
  | three ha ha' hb hc hlow hhigh hn =>
    unfold Tail at hb hc
    rw [bytesOf, if_neg (by omega), if_neg (by omega), if_pos (by omega)]
    simp only [List.cons.injEq, and_true]
    omega
  | four ha ha' hb hc hd hlow hhigh hn =>
    unfold Tail at hb hc hd
    rw [bytesOf, if_neg (by omega), if_neg (by omega), if_neg (by omega)]
    simp only [List.cons.injEq, and_true]
    omega

theorem Sequence.isValidChar {bytes : List Nat} {n : Nat} (h : Sequence bytes n) : n.isValidChar := by
  unfold Nat.isValidChar
  cases h with
  | one ha hn => omega
  | two ha ha' hb hn => omega
  | three ha ha' hb hc hlow hhigh hn =>
    unfold Tail at hb
    omega
  | four ha ha' hb hc hd hlow hhigh hn =>
    unfold Tail at hb
    omega

/-- Every sequence is that of a character. -/
theorem Sequence.exists_char {bytes : List Nat} {n : Nat} (h : Sequence bytes n) : ∃ c : Char, c.toNat = n :=
  ⟨Char.ofNatAux n h.isValidChar, rfl⟩

/-- The table of byte sequences against the library's encoder, one character. -/
theorem sequence_iff {bytes : List UInt8} {c : Char} :
    Sequence (bytes.map UInt8.toNat) c.toNat ↔ bytes = String.utf8EncodeChar c := by
  constructor
  · intro h
    have spelled := h.eq_bytesOf
    rw [← map_toNat_utf8EncodeChar] at spelled
    exact (List.map_inj_right fun _ _ => UInt8.toNat.inj).1 spelled
  · rintro rfl
    rw [map_toNat_utf8EncodeChar]
    exact sequence_bytesOf c.valid

/-- The same for texts. -/
theorem encodes_iff {bytes : ByteArray} {cs : List Char} : Encodes bytes cs ↔ bytes = cs.utf8Encode := by
  constructor
  · intro h
    induction h with
    | nil => rw [List.utf8Encode_nil]
    | cons hfirst _ ih => rw [List.utf8Encode_cons, List.utf8Encode_singleton, ih, sequence_iff.1 hfirst]
  · rintro rfl
    induction cs with
    | nil =>
      rw [List.utf8Encode_nil]
      exact .nil
    | cons c cs ih =>
      rw [List.utf8Encode_cons, List.utf8Encode_singleton]
      exact .cons (sequence_iff.2 rfl) ih

theorem wellFormed_iff {bytes : ByteArray} : WellFormed bytes ↔ ∃ cs, Encodes bytes cs := by
  constructor
  · intro h
    induction h with
    | nil => exact ⟨[], .nil⟩
    | cons hfirst _ ih =>
      obtain ⟨c, rfl⟩ := hfirst.exists_char
      obtain ⟨cs, hcs⟩ := ih
      exact ⟨c :: cs, .cons hfirst hcs⟩
  · rintro ⟨cs, h⟩
    induction h with
    | nil => exact .nil
    | cons hfirst _ ih => exact .cons hfirst ih

/-! ## Reading to the end of the longest well-formed part -/

/-- What is read from byte `i` on encodes the bytes up to where reading stops. -/
theorem characters_reads {bytes : ByteArray} {i : Nat} (hi : i ≤ bytes.size) :
    i ≤ (characters bytes i).2 ∧ (characters bytes i).2 ≤ bytes.size ∧
      bytes.extract i (characters bytes i).2 = (characters bytes i).1.utf8Encode := by
  -- On the bytes left: a character takes at least one.
  induction hn : bytes.size - i using Nat.strongRecOn generalizing i with
  | ind n ih =>
    cases hc : bytes.utf8DecodeChar? i with
    | none =>
      rw [characters_of_none hc]
      exact ⟨Nat.le_refl i, hi, by rw [ByteArray.extract_same, List.utf8Encode_nil]⟩
    | some c =>
      have bound := ByteArray.le_size_of_utf8DecodeChar?_eq_some hc
      have pos := c.utf8Size_pos
      have first : bytes.extract i (i + c.utf8Size) = [c].utf8Encode := by
        rw [ByteArray.utf8DecodeChar?_eq_utf8DecodeChar?_extract] at hc
        have encoded := String.toByteArray_utf8EncodeChar_of_utf8DecodeChar?_eq_some hc
        rw [ByteArray.extract_extract, Nat.add_zero, Nat.min_eq_left bound] at encoded
        rw [← encoded, List.utf8Encode_singleton]
      obtain ⟨hle, hsize, hrest⟩ := ih (bytes.size - (i + c.utf8Size)) (by omega) bound rfl
      rw [characters_of_some hc]
      refine ⟨by omega, hsize, ?_⟩
      rw [ByteArray.extract_eq_extract_append_extract (i + c.utf8Size) (by omega) hle, first, hrest,
        ← List.utf8Encode_cons]

/-- Reading does not stop inside a well-formed part. -/
theorem le_stop_of_wellFormed {bytes : ByteArray} {j : Nat} (hj : j ≤ bytes.size)
    (h : WellFormed (bytes.extract 0 j)) : j ≤ (characters bytes 0).2 := by
  obtain ⟨cs, hcs⟩ := wellFormed_iff.1 h
  have encoded := encodes_iff.1 hcs
  have size : cs.utf8Encode.size = j := by
    rw [← encoded, ByteArray.size_extract]
    omega
  have split : bytes = ByteArray.empty ++ cs.utf8Encode ++ bytes.extract j bytes.size := by
    rw [ByteArray.empty_append, ← encoded, ← ByteArray.extract_eq_extract_append_extract j (Nat.zero_le j) hj,
      ByteArray.extract_zero_size]
  have read := characters_append split
  rw [ByteArray.size_empty, ByteArray.empty_append, size] at read
  rw [read]
  exact (characters_reads hj).1

theorem encodes_characters (bytes : ByteArray) :
    Encodes (bytes.extract 0 (characters bytes 0).2) (characters bytes 0).1 :=
  encodes_iff.2 (characters_reads (Nat.zero_le bytes.size)).2.2

/-- Reading stops where the longest well-formed prefix ends. -/
theorem longestWellFormed_iff {bytes : ByteArray} {k : Nat} (hk : k ≤ bytes.size) :
    LongestWellFormed bytes k ↔ k = (characters bytes 0).2 := by
  have stop := (characters_reads (Nat.zero_le bytes.size)).2.1
  have read := wellFormed_iff.2 ⟨_, encodes_characters bytes⟩
  constructor
  · intro h
    exact Nat.le_antisymm (le_stop_of_wellFormed hk h.wellFormed) (h.longest _ stop read)
  · rintro rfl
    exact ⟨read, fun j => le_stop_of_wellFormed⟩

/-- Bytes encode one text at most. -/
theorem Encodes.unique {bytes : ByteArray} {cs ds : List Char} (hcs : Encodes bytes cs) (hds : Encodes bytes ds) :
    cs = ds := by
  have same : (String.ofList cs).toByteArray = (String.ofList ds).toByteArray := by
    rw [String.toByteArray_ofList, String.toByteArray_ofList, ← encodes_iff.1 hcs, ← encodes_iff.1 hds]
  exact String.ofList_injective (String.toByteArray_inj.1 same)

end Utf8

/-! ## Decoding -/

namespace Source

theorem encodes_toList_iff {bytes : ByteArray} {text : String} :
    Utf8.Encodes bytes text.toList ↔ bytes = text.toUTF8 := by
  rw [Utf8.encodes_iff, String.utf8Encode_toList, String.toUTF8_eq_toByteArray]

theorem decode_eq_ok_iff {bytes : ByteArray} {text : String} :
    decode bytes = .ok text ↔ Utf8.Encodes bytes text.toList := by
  constructor
  · intro h
    have stop := (Utf8.characters_reads (Nat.zero_le bytes.size)).2.1
    have encodes := Utf8.encodes_characters bytes
    rw [decode] at h
    dsimp only at h
    split at h
    · next hnone =>
      have all : (Utf8.characters bytes 0).2 = bytes.size := by
        rw [getElem?_eq_none_iff] at hnone
        omega
      rw [all, ByteArray.extract_zero_size] at encodes
      rw [← Except.ok.inj h, String.toList_ofList]
      exact encodes
    · cases h
  · intro h
    rw [encodes_toList_iff.1 h]
    exact decode_toUTF8 text

theorem decode_eq_error_iff {bytes : ByteArray} {e : LexError} :
    decode bytes = .error e ↔
      ∃ h : (Utf8.characters bytes 0).2 < bytes.size,
        e = ⟨.invalidByte bytes[(Utf8.characters bytes 0).2], .behind (Utf8.characters bytes 0).1⟩ := by
  rw [decode]
  dsimp only
  split
  · next hnone =>
    rw [getElem?_eq_none_iff] at hnone
    constructor
    · intro h
      cases h
    · rintro ⟨h, -⟩
      exact absurd h hnone
  · next byte hsome =>
    obtain ⟨hstop, rfl⟩ := getElem?_eq_some_iff.1 hsome
    rw [Position.start_advance]
    constructor
    · intro h
      exact ⟨hstop, (Except.error.inj h).symm⟩
    · rintro ⟨_, rfl⟩
      rfl

/-- The place behind what is read: its offset counts the bytes that were read, its line and
    its column count characters. -/
theorem behind_characters (bytes : ByteArray) :
    Position.behind (Utf8.characters bytes 0).1 =
      ⟨(Utf8.characters bytes 0).2, 1 + (Utf8.characters bytes 0).1.count '\n',
        1 + ((Utf8.characters bytes 0).1.reverse.takeWhile (· ≠ '\n')).length⟩ := by
  have stop := (Utf8.characters_reads (Nat.zero_le bytes.size)).2.1
  have encoded := Utf8.encodes_iff.1 (Utf8.encodes_characters bytes)
  have size : (String.ofList (Utf8.characters bytes 0).1).utf8ByteSize = (Utf8.characters bytes 0).2 := by
    rw [← String.size_toByteArray, String.toByteArray_ofList, ← encoded, ByteArray.size_extract]
    omega
  rw [Position.behind, size]

/-- Bytes are decoded to the text whose encoding they are. If there is none, the error
    names the first byte behind the longest well-formed part, and its place counts that
    part in bytes, and its last line in characters. -/
theorem decode_iff_encodes (bytes : ByteArray) :
    (∀ text, decode bytes = .ok text ↔ Utf8.Encodes bytes text.toList) ∧
      (∀ text : String, Utf8.Encodes bytes text.toList ↔ bytes = text.toUTF8) ∧
      ((∃ text, decode bytes = .ok text) ↔ Utf8.WellFormed bytes) ∧
      ∀ e, decode bytes = .error e ↔
        ∃ k, ∃ h : k < bytes.size, ∃ cs, Utf8.LongestWellFormed bytes k ∧ Utf8.Encodes (bytes.extract 0 k) cs ∧
          e = ⟨.invalidByte bytes[k],
            ⟨k, 1 + cs.count '\n', 1 + (cs.reverse.takeWhile (· ≠ '\n')).length⟩⟩ := by
  refine ⟨fun text => decode_eq_ok_iff, fun text => encodes_toList_iff, ?_, ?_⟩
  · rw [Utf8.wellFormed_iff]
    constructor
    · rintro ⟨text, h⟩
      exact ⟨_, decode_eq_ok_iff.1 h⟩
    · rintro ⟨cs, h⟩
      exact ⟨String.ofList cs, decode_eq_ok_iff.2 (by rwa [String.toList_ofList])⟩
  · intro e
    have stop := (Utf8.characters_reads (Nat.zero_le bytes.size)).2.1
    have encodes := Utf8.encodes_characters bytes
    rw [decode_eq_error_iff, behind_characters]
    constructor
    · rintro ⟨h, rfl⟩
      exact ⟨_, h, _, (Utf8.longestWellFormed_iff stop).2 rfl, encodes, rfl⟩
    · rintro ⟨k, hk, cs, hlongest, hcs, rfl⟩
      -- Where reading stops and what it has read are determined.
      obtain rfl := (Utf8.longestWellFormed_iff (Nat.le_of_lt hk)).1 hlongest
      obtain rfl := hcs.unique encodes
      exact ⟨hk, rfl⟩

end Source

end ServLang

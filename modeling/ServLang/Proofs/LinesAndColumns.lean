/-
  ServLang.Proofs.LinesAndColumns — what a printed `line:column` tells. Offsets grow with
  every character. A column does not, since it falls back to 1 behind a line feed, and
  two characters of a text may well share a line or a column; but of two places in one
  text the earlier always comes first by line and then by column.

  One character takes a place to one that it precedes. A prefix of a text that is longer
  than another is that other prefix and some characters more, so everything else comes
  from this step.

  Proved:
  - `precedes_step`, `precedes_advance`: characters lead to places further on.
  - `length_lt_iff_precedes`, `offset_lt_iff_precedes`: for prefixes of one text, length,
    offset, and line with column are the same order.
  - `text_eq_iff`: a printed place can be read back.
  - `Lexer.identified_of_mem`, `Lexer.sequence_precedes`: an item's printed place is that
    of one character of the source, or of its end, and items come in the order of theirs.
  - `Position.additive_and_faithful`: all of it, with the errors of parsing and decoding.
-/

import ServLang.Proofs.Decoding
import ServLang.Proofs.Layout

namespace ServLang

namespace Position

/-! ## The order of places -/

/-- On an earlier line, or further left on the same. -/
def Precedes (p q : Position) : Prop := p.line < q.line ∨ p.line = q.line ∧ p.column < q.column

theorem Precedes.trans {p q r : Position} (h : p.Precedes q) (h' : q.Precedes r) : p.Precedes r := by
  unfold Precedes at *
  omega

theorem Precedes.asymm {p q : Position} (h : p.Precedes q) : ¬ q.Precedes p := by
  unfold Precedes at *
  omega

theorem precedes_step (p : Position) (c : Char) : p.Precedes (p.step c) := by
  unfold step Precedes
  split
  · exact Or.inl (Nat.lt_succ_self _)
  · exact Or.inr ⟨rfl, Nat.lt_succ_self _⟩

/-- Any text leads further on, by line and column. -/
theorem precedes_advance (p : Position) {text : List Char} (h : text ≠ []) : p.Precedes (p.advance text) := by
  induction text generalizing p with
  | nil => exact absurd rfl h
  | cons c text ih =>
    rw [advance_cons]
    cases text with
    | nil => exact p.precedes_step c
    | cons d text => exact (p.precedes_step c).trans (ih (p.step c) (List.cons_ne_nil _ _))

theorem foldl_advance (p : Position) (texts : List String) :
    texts.foldl (fun p text => p.advance text.toList) p = p.advance (String.join texts).toList := by
  rw [advance, String.toList_join, List.foldl_flatMap]
  rfl

/-! ## Prefixes of one text -/

section

variable {text before further : List Char}

/-- The longer of two prefixes is the other one and some characters more. -/
theorem advance_of_length_lt (hb : before <+: text) (hf : further <+: text) (h : before.length < further.length) :
    ∃ more, more ≠ [] ∧ start.advance further = (start.advance before).advance more := by
  obtain ⟨more, rfl⟩ := List.prefix_of_prefix_length_le hb hf (Nat.le_of_lt h)
  refine ⟨more, ?_, advance_append _ _ _⟩
  rintro rfl
  simp at h

/-- Of two prefixes the shorter ends at an earlier line and column. -/
theorem length_lt_iff_precedes (hb : before <+: text) (hf : further <+: text) :
    before.length < further.length ↔ (start.advance before).Precedes (start.advance further) := by
  have forward {before further : List Char} (hb : before <+: text) (hf : further <+: text)
      (h : before.length < further.length) : (start.advance before).Precedes (start.advance further) := by
    obtain ⟨more, hmore, hadvance⟩ := advance_of_length_lt hb hf h
    rw [hadvance]
    exact precedes_advance _ hmore
  constructor
  · exact forward hb hf
  · intro h
    rcases Nat.lt_trichotomy before.length further.length with hlt | heq | hgt
    · exact hlt
    · obtain rfl := (List.prefix_of_prefix_length_le hb hf (Nat.le_of_eq heq)).eq_of_length heq
      exact absurd h h.asymm
    · exact absurd h (forward hf hb hgt).asymm

theorem offset_lt_iff_precedes (hb : before <+: text) (hf : further <+: text) :
    (start.advance before).offset < (start.advance further).offset ↔
      (start.advance before).Precedes (start.advance further) := by
  rw [← length_lt_iff_precedes hb hf]
  constructor
  · intro h
    rcases Nat.lt_or_ge before.length further.length with hlt | hge
    · exact hlt
    · obtain ⟨more, rfl⟩ := List.prefix_of_prefix_length_le hf hb hge
      rw [advance_append] at h
      exact absurd h (Nat.not_lt_of_le (offset_le_advance _ more))
  · intro h
    obtain ⟨more, hmore, hadvance⟩ := advance_of_length_lt hb hf h
    rw [hadvance]
    exact offset_lt_advance _ hmore

end

/-! ## Printed places -/

/-- The colon ends the digits of the line. -/
theorem text_eq_iff {p q : Position} : p.text = q.text ↔ p.line = q.line ∧ p.column = q.column := by
  constructor
  · intro h
    -- No digit is a colon, so the number before it can be told from the one behind.
    have split (p : Position) :
        p.text.toList.takeWhile Char.isDigit = p.line.repr.toList ∧
          p.text.toList.dropWhile Char.isDigit = ':' :: p.column.repr.toList := by
      have digits : p.line.repr.toList.all Char.isDigit = true := by
        rw [Nat.toList_repr, List.all_eq_true]
        exact fun c hc => Nat.isDigit_of_mem_toDigits (by decide) (by decide) hc
      have whole : p.text.toList = p.line.repr.toList ++ ':' :: p.column.repr.toList := by simp [text]
      rw [whole]
      exact ⟨(EndsRun.cons rfl).takeWhile_append digits, (EndsRun.cons rfl).dropWhile_append digits⟩
    have decimals {m n : Nat} (h : m.repr.toList = n.repr.toList) : m = n := by
      rw [Nat.toList_repr, Nat.toList_repr] at h
      rw [← Nat.ofDigitChars_ten_toDigits (n := m), h, Nat.ofDigitChars_ten_toDigits]
    have line := (split p).1
    have column := (split p).2
    rw [h, (split q).1] at line
    rw [h, (split q).2] at column
    exact ⟨decimals line.symm, decimals (List.cons.inj column).2.symm⟩
  · intro h
    rw [text, text, h.1, h.2]

/-- The place is that behind `before`, and it is printed like no other place of the text. -/
structure Identified (text before after : List Char) (p : Position) : Prop where
  split : text = before ++ after
  position : p = start.advance before
  only : ∀ front, front <+: text → (start.advance front).text = p.text → front = before

theorem identified_advance (before after : List Char) :
    Identified (before ++ after) before after (start.advance before) := by
  refine ⟨rfl, rfl, fun front hfront h => ?_⟩
  obtain ⟨hline, hcolumn⟩ := text_eq_iff.1 h
  have hbefore : before <+: before ++ after := List.prefix_append _ _
  have shorter := length_lt_iff_precedes hfront hbefore
  have longer := length_lt_iff_precedes hbefore hfront
  unfold Precedes at shorter longer
  have length : front.length = before.length := by omega
  exact (List.prefix_of_prefix_length_le hfront hbefore (Nat.le_of_eq length)).eq_of_length length

end Position

/-! ## Items of a stream -/

def SourceError.item : SourceError → Item
  | lex e => .ending (.failed e)
  | parse e => e.found.item

theorem Found.position_item (f : Found) : f.item.position = f.position := by cases f <;> rfl

namespace Lexer

/-- An item stands behind a part of the text, and only the end stands behind all of it. -/
theorem stands_of_mem {before cs : List Char} {x : Item}
    (h : x ∈ (Lexer.mk cs (.behind before) false).scan.sequence) :
    ∃ front back, cs = front ++ back ∧ x.position = .behind (before ++ front) ∧
      (back = [] ↔ ∃ p, x = .ending (.finished p)) := by
  induction cs using text_induction generalizing before with
  | nil =>
    rw [scan_nil, Scan.sequence, List.map_nil, List.nil_append, List.mem_singleton] at h
    exact ⟨[], [], rfl, by rw [h, List.append_nil]; rfl, fun _ => ⟨_, h⟩, fun _ => rfl⟩
  | blank c cs hc ih =>
    rw [scan_blank _ hc, ← Position.behind_snoc] at h
    obtain ⟨front, back, rfl, hposition, hend⟩ := ih h
    exact ⟨c :: front, back, rfl, by simpa using hposition, hend⟩
  | lexeme cs l rest hm ih =>
    obtain ⟨rfl, hshort⟩ := Lexeme.munch?_eq_some hm
    rw [scan_lexeme _ hm, Scan.sequence, List.map_cons, List.cons_append, List.mem_cons] at h
    -- The token itself, or an item behind it.
    rcases h with rfl | h
    · refine ⟨[], l.text.toList ++ rest, rfl, by rw [List.append_nil]; rfl, fun hnil => ?_, ?_⟩
      · rw [hnil] at hshort
        exact absurd hshort (Nat.not_lt_zero _)
      · rintro ⟨p, hp⟩
        cases hp
    · rw [Position.behind_advance] at h
      obtain ⟨front, back, hrest, hposition, hend⟩ := ih h
      exact ⟨l.text.toList ++ front, back, by rw [hrest, List.append_assoc], by simpa using hposition, hend⟩
  | stuck c cs hc hm =>
    rw [scan_stuck _ hc hm, Scan.sequence, List.map_nil, List.nil_append, List.mem_singleton] at h
    subst h
    refine ⟨[], c :: cs, rfl, by rw [List.append_nil]; rfl, fun hnil => absurd hnil (List.cons_ne_nil _ _), ?_⟩
    rintro ⟨p, hp⟩
    cases hp

/-- An item's place tells where in the text it stands. -/
theorem identified_of_mem {source : String} {x : Item} (h : x ∈ (Scan.ofString source).sequence) :
    ∃ before after, Position.Identified source.toList before after x.position ∧
      (after = [] ↔ ∃ p, x = .ending (.finished p)) := by
  rw [Scan.ofString_eq] at h
  obtain ⟨before, after, hsplit, hposition, hend⟩ := stands_of_mem h
  rw [List.nil_append, ← Position.start_advance] at hposition
  rw [hsplit, hposition]
  exact ⟨before, after, Position.identified_advance before after, hend⟩

/-- Items are printed at places that follow one another. -/
theorem sequence_precedes (source : String) :
    (Scan.ofString source).sequence.Pairwise fun x y => x.position.Precedes y.position := by
  refine (sequence_pairwise source.toList .start).2.imp_of_mem fun {x y} hx hy hlt => ?_
  obtain ⟨before, _, hbefore, -⟩ := identified_of_mem hx
  obtain ⟨further, _, hfurther, -⟩ := identified_of_mem hy
  rw [hbefore.position, hfurther.position] at hlt ⊢
  exact (Position.offset_lt_iff_precedes ⟨_, hbefore.split.symm⟩ ⟨_, hfurther.split.symm⟩).1 hlt

end Lexer

/-! ## Errors -/

namespace Document

theorem item_mem_of_parse {source : String} {e : SourceError} (h : parse source = .error e) :
    e.item ∈ (Scan.ofString source).sequence := by
  cases e with
  | lex e =>
    have failed := tokenize_eq_error_iff.1 (parse_eq_lex_iff.1 h).1
    rw [Scan.sequence, failed]
    exact List.mem_append_right _ List.mem_cons_self
  | parse e =>
    obtain ⟨i, hi⟩ := exists_only_of_parse h
    exact List.mem_of_getElem? ((hi i).2 rfl)

end Document

/-! ## Positions as a whole -/

namespace Position

/-- Texts one after the other lead where they lead together. Of two prefixes of a text,
    the shorter one, in characters or in bytes, ends first by line and column. So the
    items of a source stand in the order of their lines and columns, and what is printed
    of an item's place, and with it of an error's, is that of one character of the source
    or of its end, and of nothing else. An error of decoding stands behind all that could
    be decoded. -/
theorem additive_and_faithful :
    (∀ texts : List String,
      texts.foldl (fun p text => p.advance text.toList) start = start.advance (String.join texts).toList) ∧
    (∀ text before further : List Char, before <+: text → further <+: text →
      (before.length < further.length ↔ (start.advance before).Precedes (start.advance further)) ∧
      ((start.advance before).offset < (start.advance further).offset ↔
        (start.advance before).Precedes (start.advance further))) ∧
    (∀ source : String,
      ((Scan.ofString source).sequence.Pairwise fun x y => x.position.Precedes y.position) ∧
      ∀ x ∈ (Scan.ofString source).sequence, ∃ before after, Identified source.toList before after x.position ∧
        (after = [] ↔ ∃ p, x = .ending (.finished p))) ∧
    (∀ source e, Document.parse source = .error e →
      e.item ∈ (Scan.ofString source).sequence ∧ ∃ words, e.cause = e.item.position.text ++ ": " ++ words) ∧
    ∀ bytes e, Source.decode bytes = .error e →
      (∃ words, e.message = e.position.text ++ ": " ++ words) ∧
      ∃ before, Utf8.Encodes (bytes.extract 0 e.position.offset) before ∧ Identified before before [] e.position := by
  refine ⟨foldl_advance start, fun text before further hb hf => ?_, fun source => ?_, fun source e h => ?_,
    fun bytes e h => ?_⟩
  · exact ⟨length_lt_iff_precedes hb hf, offset_lt_iff_precedes hb hf⟩
  · exact ⟨Lexer.sequence_precedes source, fun x hx => Lexer.identified_of_mem hx⟩
  · refine ⟨Document.item_mem_of_parse h, ?_⟩
    cases e with
    | lex e => exact ⟨_, rfl⟩
    | parse e =>
      have colon : ": expected " = ": " ++ "expected " := rfl
      refine ⟨"expected " ++ e.expected.text ++ ", found " ++ e.found.text, ?_⟩
      simp only [SourceError.cause, ParseError.message, SourceError.item, Found.position_item, colon, String.append_assoc]
  · obtain ⟨-, rfl⟩ := Source.decode_eq_error_iff.1 h
    refine ⟨⟨_, rfl⟩, (Utf8.characters bytes 0).1, ?_, ?_⟩
    · have offset : (behind (Utf8.characters bytes 0).1).offset = (Utf8.characters bytes 0).2 := by
        rw [Source.behind_characters]
      rw [offset]
      exact Utf8.encodes_characters bytes
    · have place := identified_advance (Utf8.characters bytes 0).1 []
      rwa [List.append_nil, start_advance] at place

/-- Two lines with a character of two bytes, and errors on second lines. -/
theorem additive_and_faithful_lines :
    ((['é'] : List Char) <+: ['é', '\n', 'b'] ∧ ['é', '\n'] <+: ['é', '\n', 'b'] ∧
      (1 < 2 ↔ (⟨2, 1, 2⟩ : Position).Precedes ⟨3, 2, 1⟩)) ∧
    (Document.parse "message M \x7b\n - \x7d" = .error (.lex ⟨.unexpectedChar '-', ⟨13, 2, 2⟩⟩) ∧
      .ending (.failed ⟨.unexpectedChar '-', ⟨13, 2, 2⟩⟩) ∈ (Scan.ofString "message M \x7b\n - \x7d").sequence ∧
      ∃ before after, Identified "message M \x7b\n - \x7d".toList before after ⟨13, 2, 2⟩ ∧
        (after = [] ↔ ∃ p, Item.ending (.failed ⟨.unexpectedChar '-', ⟨13, 2, 2⟩⟩) = .ending (.finished p))) ∧
    Source.decode ⟨#[10, 255]⟩ = .error ⟨.invalidByte 255, ⟨1, 2, 1⟩⟩ ∧
      ∃ before, Utf8.Encodes (ByteArray.extract ⟨#[10, 255]⟩ 0 1) before ∧ Identified before before [] ⟨1, 2, 1⟩ := by
  have parsed : Document.parse "message M \x7b\n - \x7d" = .error (.lex ⟨.unexpectedChar '-', ⟨13, 2, 2⟩⟩) := by
    decide +kernel
  have decoded : Source.decode ⟨#[10, 255]⟩ = .error ⟨.invalidByte 255, ⟨1, 2, 1⟩⟩ := by decide +kernel
  have listed := (additive_and_faithful.2.2.2.1 _ _ parsed).1
  refine ⟨⟨by decide, by decide, ?_⟩, ⟨parsed, listed, (additive_and_faithful.2.2.1 _).2 _ listed⟩, decoded,
    (additive_and_faithful.2.2.2.2 _ _ decoded).2⟩
  exact (additive_and_faithful.2.1 ['é', '\n', 'b'] ['é'] ['é', '\n'] (by decide) (by decide)).1

end Position

end ServLang

/-
  ServLang.Proofs.Tiling — a source as tokens and the blanks between them, with no lexer
  in sight. `Tiling before cs ts`: behind `before`, the text `cs` is tiled by the tokens
  `ts`. Each token's text stands at the token's own position, is of the class that the
  token says, and is not followed by what would make a longer token of that class; what
  stands between tokens are blanks.

  Proved:
  - `Lexer.tiling_iff_scan`: the stream of a text ends with it exactly if the text has a
    tiling, and the tokens of the stream are that tiling.
  - `tokenize_eq_ok_iff_sole_tiling`: where the lexer's states stand, and that the tokens
    of a source are its only tiling.
-/

import ServLang.Proofs.Positions
import ServLang.Proofs.Reading

namespace ServLang

/-! ## Tilings -/

/-- Tokens tile a text that stands behind `before`. -/
inductive Tiling : List Char → List Char → List Token → Prop
  | blanks {before gap : List Char} : gap.all isBlank = true → Tiling before gap []
  | token {before gap rest : List Char} {l : Lexeme} {ts : List Token} : gap.all isBlank = true → l.Classified →
      l.EndsBefore rest → Tiling (before ++ gap ++ l.text.toList) rest ts →
      Tiling before (gap ++ l.text.toList ++ rest) (⟨l, .behind (before ++ gap)⟩ :: ts)

namespace Tiling

/-- A blank belongs to the gap that a tiling starts with. -/
theorem blank {before cs : List Char} {c : Char} {ts : List Token} (hc : isBlank c = true)
    (h : Tiling (before ++ [c]) cs ts) : Tiling before (c :: cs) ts := by
  cases h with
  | blanks hgap =>
    refine .blanks ?_
    rw [List.all_cons, hc, hgap]
    rfl
  | @token _ gap rest l ts hgap hl hends hts =>
    have hgap' : (c :: gap).all isBlank = true := by
      rw [List.all_cons, hc, hgap]
      rfl
    have tail : Tiling (before ++ c :: gap ++ l.text.toList) rest ts := by simpa using hts
    simpa using token hgap' hl hends tail

/-- The lexeme that a text starts with is its first token. -/
theorem lexeme {before cs rest : List Char} {l : Lexeme} {ts : List Token} (hm : Lexeme.munch? cs = some (l, rest))
    (h : Tiling (before ++ l.text.toList) rest ts) : Tiling before cs (⟨l, .behind before⟩ :: ts) := by
  obtain ⟨rfl, hl, hends⟩ := Lexeme.munch?_eq_some_iff.1 hm
  rw [← List.append_nil before] at h ⊢
  simpa using @token _ [] _ _ _ rfl hl hends h

end Tiling

namespace Lexer

/-- Blanks at the front of a text make its tokens stand further on, and nothing else. -/
theorem scan_blanks {gap : List Char} (h : gap.all isBlank = true) (cs : List Char) (p : Position) :
    (Lexer.mk (gap ++ cs) p false).scan = (Lexer.mk cs (p.advance gap) false).scan := by
  induction gap generalizing p with
  | nil => rfl
  | cons c gap ih =>
    rw [List.all_cons, Bool.and_eq_true] at h
    rw [List.cons_append, scan_blank p h.1, ih h.2, Position.advance_cons]

theorem scan_of_tiling {before cs : List Char} {ts : List Token} (h : Tiling before cs ts) :
    (Lexer.mk cs (.behind before) false).scan = ⟨ts, .finished (.behind (before ++ cs))⟩ := by
  induction h with
  | @blanks before gap hgap =>
    have skip := scan_blanks hgap [] (.behind before)
    rw [List.append_nil] at skip
    rw [skip, scan_nil, Position.behind_advance]
  | @token before gap rest l ts hgap hl hends _ ih =>
    have hm : Lexeme.munch? (l.text.toList ++ rest) = some (l, rest) := Lexeme.munch?_eq_some_iff.2 ⟨rfl, hl, hends⟩
    rw [List.append_assoc, scan_blanks hgap, Position.behind_advance, scan_lexeme _ hm, Position.behind_advance, ih]
    simp only [List.append_assoc]

theorem tiling_of_scan {before cs : List Char} {ts : List Token} {p : Position}
    (h : (Lexer.mk cs (.behind before) false).scan = ⟨ts, .finished p⟩) : Tiling before cs ts := by
  induction cs using text_induction generalizing before ts with
  | nil =>
    rw [scan_nil] at h
    cases h
    exact .blanks rfl
  | blank c cs hc ih =>
    rw [scan_blank _ hc, ← Position.behind_snoc] at h
    exact .blank hc (ih h)
  | lexeme cs l rest hm ih =>
    rw [scan_lexeme _ hm, Position.behind_advance] at h
    obtain ⟨rfl, hp⟩ := Scan.mk.inj h
    exact .lexeme hm (ih (by rw [← hp]))
  | stuck c cs hc hm =>
    rw [scan_stuck _ hc hm] at h
    cases h

/-- The tilings of a text are its scan. -/
theorem tiling_iff_scan {before cs : List Char} {ts : List Token} :
    Tiling before cs ts ↔ (Lexer.mk cs (.behind before) false).scan = ⟨ts, .finished (.behind (before ++ cs))⟩ :=
  ⟨scan_of_tiling, tiling_of_scan⟩

end Lexer

theorem tokenize_eq_ok_iff_tiling {source : String} {ts : List Token} :
    tokenize source = .ok ts ↔ Tiling [] source.toList ts := by
  rw [tokenize_eq_ok_iff, Scan.ofString_eq, Lexer.tiling_iff_scan, Position.start_advance, List.nil_append]

/-- Wherever the lexer comes to in a source, its position is the one behind the text it
    has read, which is a whole number of characters; and the tokens of a source that is
    all tokens are its only tiling. -/
theorem tokenize_eq_ok_iff_sole_tiling (source : String) :
    (∀ n, ∃ before, source.toList = before ++ ((Lexer.ofString source).after n).rest ∧
      ((Lexer.ofString source).after n).position = .behind before ∧
      ((Lexer.ofString source).after n).position.offset ≤ source.utf8ByteSize ∧
      (String.Pos.Raw.mk ((Lexer.ofString source).after n).position.offset).IsValid source) ∧
    ∀ ts, tokenize source = .ok ts ↔ ∀ us, Tiling [] source.toList us ↔ us = ts := by
  refine ⟨fun n => ?_, fun ts => ?_⟩
  · obtain ⟨before, h⟩ := Lexer.stands_after source n
    exact ⟨before, h.text, h.position, h.isValid.le_rawEndPos, h.isValid⟩
  · simp only [← tokenize_eq_ok_iff_tiling]
    constructor
    · intro h us
      rw [h, Except.ok.injEq, eq_comm]
    · intro h
      exact (h ts).2 rfl

end ServLang

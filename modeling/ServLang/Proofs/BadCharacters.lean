/-
  ServLang.Proofs.BadCharacters — which sources are all tokens, by their characters. A
  character is bad if neither a token nor a gap can hold it: it is outside the alphabet
  of the language, or a `-` that no digit follows. Whether a text is all tokens is then
  a matter of single characters, although the lexer goes by whole lexemes: every
  character of a lexeme behind the first is one that words go on with, and those are
  never bad.

  Proved:
  - `bad_iff`: at the front of a text, a bad character is one that starts neither a
    blank nor a lexeme.
  - `Lexer.tiling_or_firstBad`: a text is clean and has a tiling, or has a first bad
    character; the stream then fails at it, after the tiling of what stands before.
  - `tokenize_error_iff_firstBad`: when a source is all tokens, where the lexer fails
    otherwise, and that it stops for good.
-/

import ServLang.Proofs.Tiling

namespace ServLang

/-- Neither a token nor a gap holds the character, if `after` stands behind it. -/
def Bad (c : Char) (after : List Char) : Prop :=
  (c.isAlphanum = false ∧ (∀ p : Punct, c ≠ p.sign) ∧ c ∉ ['_', '-', ' ', '\t', '\r', '\n']) ∨
  (c = '-' ∧ ∀ d ∈ after.head?, d.isDigit = false)

def Clean (cs rest : List Char) : Prop := ∀ before c after, cs = before ++ c :: after → ¬ Bad c (after ++ rest)

/-- The first bad character of a text, and what stands before and behind it. -/
structure FirstBad (cs before : List Char) (c : Char) (after : List Char) : Prop where
  text : cs = before ++ c :: after
  bad : Bad c after
  clean : Clean before (c :: after)

/-! ## Clean texts -/

namespace Clean

theorem nil (rest : List Char) : Clean [] rest := by
  intro before c after h
  simp at h

theorem cons {c : Char} {cs rest : List Char} (hc : ¬ Bad c (cs ++ rest)) (hcs : Clean cs rest) :
    Clean (c :: cs) rest := by
  intro before d after h
  cases before with
  | nil =>
    obtain ⟨rfl, rfl⟩ := List.cons.inj h
    exact hc
  | cons b before =>
    obtain ⟨rfl, rfl⟩ := List.cons.inj h
    exact hcs before d after rfl

theorem append {cs ds rest : List Char} (hcs : Clean cs (ds ++ rest)) (hds : Clean ds rest) : Clean (cs ++ ds) rest := by
  induction cs with
  | nil => exact hds
  | cons c cs ih =>
    have hc : ¬ Bad c (cs ++ ds ++ rest) := by
      rw [List.append_assoc]
      exact hcs [] c cs rfl
    exact cons hc (ih fun before d after h => hcs (c :: before) d after (by rw [h]; rfl))

end Clean

/-- Of two first bad characters, neither stands in the clean text before the other. -/
theorem FirstBad.unique {cs b b' a a' : List Char} {c c' : Char} (h : FirstBad cs b c a) (h' : FirstBad cs b' c' a') :
    b = b' ∧ c = c' := by
  have split : b ++ c :: a = b' ++ c' :: a' := h.text.symm.trans h'.text
  rcases List.append_eq_append_iff.1 split with ⟨x, hb, hx⟩ | ⟨x, hb, hx⟩
  · cases x with
    | nil => exact ⟨by simpa using hb.symm, (List.cons.inj hx).1⟩
    | cons d x =>
      obtain ⟨rfl, ha⟩ := List.cons.inj hx
      rw [List.append_eq] at ha
      exact absurd (ha ▸ h.bad) (h'.clean b c x hb)
  · cases x with
    | nil => exact ⟨by simpa using hb, (List.cons.inj hx).1.symm⟩
    | cons d x =>
      obtain ⟨rfl, ha⟩ := List.cons.inj hx
      rw [List.append_eq] at ha
      exact absurd (ha ▸ h'.bad) (h.clean b' c' x hb)

/-! ## What starts with a bad character -/

theorem not_bad_of_isWordRest {c : Char} (h : isWordRest c = true) (after : List Char) : ¬ Bad c after := by
  intro hbad
  rcases hbad with ⟨halnum, -, hc⟩ | ⟨rfl, -⟩
  · rw [isWordRest, halnum] at h
    exact hc (by simp_all)
  · exact absurd h (by decide)

theorem Punct.ofChar?_eq_none_iff {c : Char} : ofChar? c = none ↔ ∀ p : Punct, c ≠ p.sign := by
  rw [Option.eq_none_iff_forall_ne_some]
  exact forall_congr' fun p => not_congr (ofChar?_eq_some_iff.trans eq_comm)

theorem Lexeme.munch?_minus_eq_none_iff {after : List Char} :
    munch? ('-' :: after) = none ↔ ∀ d ∈ after.head?, d.isDigit = false := by
  have hstart : isWordStart '-' = false := by decide
  have hdigit : ('-' : Char).isDigit = false := by decide
  cases after with
  | nil => simp [munch?, hstart, hdigit]
  | cons d after => by_cases hd : d.isDigit = true <;> simp [munch?, hstart, hdigit, hd]

theorem Lexeme.munch?_eq_none_iff {c : Char} {after : List Char} (hc : c ≠ '-') :
    munch? (c :: after) = none ↔ isWordStart c = false ∧ c.isDigit = false ∧ ∀ p : Punct, c ≠ p.sign := by
  rw [munch?, ← Punct.ofChar?_eq_none_iff]
  by_cases hstart : isWordStart c = true
  · simp [hstart]
  by_cases hdigit : c.isDigit = true
  · simp [hstart, hdigit]
  simp [hstart, hdigit, hc]

/-- A character is bad where the lexer stops: it is no blank and starts no lexeme. -/
theorem bad_iff {c : Char} {after : List Char} :
    Bad c after ↔ isBlank c = false ∧ Lexeme.munch? (c :: after) = none := by
  by_cases hc : c = '-'
  · subst hc
    rw [Lexeme.munch?_minus_eq_none_iff, Bad]
    simp [isBlank]
  · rw [Lexeme.munch?_eq_none_iff hc, Bad]
    simp only [isBlank, isWordStart, Char.isAlphanum, hc, false_and, or_false, List.mem_cons, List.not_mem_nil,
      not_or, Bool.or_eq_false_iff, decide_eq_false_iff_not]
    grind

/-- A lexeme's first character starts the lexeme, and the others are those of words. -/
theorem Lexeme.exists_text {l : Lexeme} (h : l.Proper) :
    ∃ c run, l.text.toList = c :: run ∧ run.all isWordRest = true := by
  have ofWord {word : String} (hw : isWord word.toList = true) :
      ∃ c run, word.toList = c :: run ∧ run.all isWordRest = true := by
    rcases hcs : word.toList with _ | ⟨c, run⟩
    · simp [hcs, isWord] at hw
    · rw [hcs, isWord, Bool.and_eq_true] at hw
      exact ⟨c, run, rfl, hw.2⟩
  cases l with
  | keyword k => exact ofWord k.isWord_word
  | scalar s => exact ofWord s.isWord_keyword
  | identifier name => exact ofWord (isName_iff.1 h).1
  | punct p => exact ⟨p.sign, [], String.toList_singleton _, rfl⟩
  -- A `-` is only ever the first character.
  | integer literal =>
    obtain ⟨digits, hne, hd, hl⟩ := h
    have hrest : digits.all isWordRest = true := by
      refine List.all_eq_true.2 fun d hmem => ?_
      rw [isWordRest, Char.isAlphanum, List.all_eq_true.1 hd d hmem]
      simp
    rcases hl with hl | hl
    · cases digits with
      | nil => exact absurd rfl hne
      | cons d digits =>
        rw [List.all_cons, Bool.and_eq_true] at hrest
        exact ⟨d, digits, hl, hrest.2⟩
    · exact ⟨'-', digits, hl, hrest⟩

/-- The characters of a lexeme are not bad: each has the next one to lean on. -/
theorem clean_text {cs rest : List Char} {l : Lexeme} (h : Lexeme.munch? cs = some (l, rest)) :
    Clean l.text.toList rest := by
  obtain ⟨c, run, htext, hrun⟩ := Lexeme.exists_text (Lexeme.proper_of_munch? h).1
  rw [htext]
  refine .cons ?_ ?_
  · intro hbad
    have hnone := (bad_iff.1 hbad).2
    rw [← List.cons_append, ← htext, ← (Lexeme.munch?_eq_some h).1, h] at hnone
    cases hnone
  · intro before d after hd
    exact not_bad_of_isWordRest (List.all_eq_true.1 hrun d (by simp [hd])) _

/-! ## Where the stream of a text ends -/

namespace Lexer

/-- Scanning either tiles a text or comes to its first bad character. -/
theorem tiling_or_firstBad (before cs : List Char) :
    (Clean cs [] ∧ ∃ ts, Tiling before cs ts) ∨
    ∃ b c a ts, FirstBad cs b c a ∧ Tiling before b ts ∧
      (Lexer.mk cs (.behind before) false).scan = ⟨ts, .failed ⟨.unexpectedChar c, .behind (before ++ b)⟩⟩ := by
  -- By the ways a text goes on; the first bad character is that of the rest.
  induction cs using text_induction generalizing before with
  | nil => exact Or.inl ⟨.nil [], [], .blanks rfl⟩
  | blank x cs hx ih =>
    have hbad (after : List Char) : ¬ Bad x after := by
      intro h
      rw [(bad_iff.1 h).1] at hx
      cases hx
    rcases ih (before ++ [x]) with ⟨hclean, ts, hts⟩ | ⟨b, c, a, ts, hfirst, hts, hscan⟩
    · exact Or.inl ⟨.cons (hbad _) hclean, ts, .blank hx hts⟩
    · refine Or.inr ⟨x :: b, c, a, ts, ⟨by rw [hfirst.text]; rfl, hfirst.bad, .cons (hbad _) hfirst.clean⟩,
        .blank hx hts, ?_⟩
      rw [scan_blank _ hx, ← Position.behind_snoc, hscan, List.append_assoc, List.singleton_append]
  | lexeme cs l rest hm ih =>
    have hclean := clean_text hm
    obtain ⟨rfl, hl, hends⟩ := Lexeme.munch?_eq_some_iff.1 hm
    rcases ih (before ++ l.text.toList) with ⟨hrest, ts, hts⟩ | ⟨b, c, a, ts, hfirst, hts, hscan⟩
    · exact Or.inl ⟨.append (by rwa [List.append_nil]) hrest, _, .lexeme hm hts⟩
    · -- The lexeme is the same one if the text ends before the bad character.
      obtain rfl := hfirst.text
      have hm' : Lexeme.munch? (l.text.toList ++ b) = some (l, b) := Lexeme.munch?_eq_some_iff.2 ⟨rfl, hl, hends.left⟩
      refine Or.inr ⟨l.text.toList ++ b, c, a, _, ⟨(List.append_assoc _ _ _).symm, hfirst.bad, .append hclean hfirst.clean⟩,
        .lexeme hm' hts, ?_⟩
      rw [scan_lexeme _ hm, Position.behind_advance, hscan, List.append_assoc]
  | stuck c cs hc hm =>
    refine Or.inr ⟨[], c, cs, [], ⟨rfl, bad_iff.2 ⟨hc, hm⟩, .nil _⟩, .blanks rfl, ?_⟩
    rw [scan_stuck _ hc hm, List.append_nil]

end Lexer

theorem Clean.not_firstBad {cs b a : List Char} {c : Char} (h : Clean cs []) : ¬ FirstBad cs b c a := by
  intro hfirst
  refine h b c a hfirst.text ?_
  rw [List.append_nil]
  exact hfirst.bad

/-- Whether a text is tokenized is a matter of single characters. -/
theorem exists_tokenize_iff_clean {source : String} : (∃ ts, tokenize source = .ok ts) ↔ Clean source.toList [] := by
  simp only [tokenize_eq_ok_iff_tiling]
  rcases Lexer.tiling_or_firstBad [] source.toList with ⟨hclean, hts⟩ | ⟨b, c, a, ts, hfirst, -, hfail⟩
  · exact iff_of_true hts hclean
  · refine iff_of_false ?_ fun hclean => hclean.not_firstBad hfirst
    intro ⟨us, hus⟩
    rw [Lexer.scan_of_tiling hus] at hfail
    cases hfail

theorem tokenize_eq_error_iff_firstBad {source : String} {e : LexError} :
    tokenize source = .error e ↔
      ∃ before c after, FirstBad source.toList before c after ∧ e = ⟨.unexpectedChar c, .behind before⟩ ∧
        tokenize (String.ofList before) = .ok (Scan.ofString source).tokens := by
  rw [tokenize_eq_error_iff, Scan.ofString_eq]
  rcases Lexer.tiling_or_firstBad [] source.toList with ⟨hclean, ts, hts⟩ | ⟨b, c, a, ts, hfirst, hts, hfail⟩
  · refine iff_of_false ?_ ?_
    · rw [Lexer.scan_of_tiling hts]
      exact nofun
    · intro ⟨b, c, a, hfirst, _⟩
      exact hclean.not_firstBad hfirst
  · have htokens : tokenize (String.ofList b) = .ok ts := by rwa [tokenize_eq_ok_iff_tiling, String.toList_ofList]
    rw [hfail]
    constructor
    · intro h
      cases h
      exact ⟨b, c, a, hfirst, rfl, htokens⟩
    · intro ⟨b', c', a', hfirst', he, _⟩
      obtain ⟨rfl, rfl⟩ := hfirst.unique hfirst'
      rw [he]
      rfl

/-- A stream that has yielded no token is over. -/
theorem Lexer.next_after_of_no_token (x : Lexer) (n : Nat) (h : ∀ t, (x.after n).next.1 ≠ some (.ok t)) (m : Nat) :
    ((x.after (n + 1)).after m).next = (none, x.after (n + 1)) := by
  have hfinished : (x.after (n + 1)).finished = true :=
    (next_token_or_finished (x.after n)).resolve_left fun ⟨t, ht⟩ => h t ht
  rw [after_of_finished hfinished, next_of_finished hfinished]

/-- A source is all tokens exactly if no character of it is bad. Otherwise the lexer
    fails at the first bad one, and what it has yielded before are the tokens of the text
    before that. An item that is no token is followed by nothing, and the lexer stays
    where it is. -/
theorem tokenize_error_iff_firstBad (source : String) :
    ((∃ ts, tokenize source = .ok ts) ↔ Clean source.toList []) ∧
    (∀ e, tokenize source = .error e ↔
      ∃ before c after, FirstBad source.toList before c after ∧ e = ⟨.unexpectedChar c, .behind before⟩ ∧
        tokenize (String.ofList before) = .ok (Scan.ofString source).tokens) ∧
    ∀ n, (∃ t, ((Lexer.ofString source).after n).next.1 = some (.ok t)) ∨
      ∀ m, (((Lexer.ofString source).after (n + 1)).after m).next = (none, (Lexer.ofString source).after (n + 1)) := by
  refine ⟨exists_tokenize_iff_clean, fun e => tokenize_eq_error_iff_firstBad, fun n => ?_⟩
  by_cases htoken : ∃ t, ((Lexer.ofString source).after n).next.1 = some (.ok t)
  · exact Or.inl htoken
  · exact Or.inr (Lexer.next_after_of_no_token _ n fun t ht => htoken ⟨t, ht⟩)

end ServLang

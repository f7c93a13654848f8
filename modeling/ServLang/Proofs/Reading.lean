/-
  ServLang.Proofs.Reading — texts as lexemes and blanks, without places. A token stream
  is made by the lexer one token at a time, each with its position; `Reading cs ls` says
  of the characters alone that they are the lexemes, with any blanks between them.

  Proved:
  - `Lexer.scan_nil`, `scan_blank`, `scan_lexeme`, `scan_stuck`: the stream of a text by
    what the text starts with; `Lexer.text_induction` goes through a text that way.
  - `tokenize_eq_ok_iff`, `exists_tokenize_iff_reading`: a text is all tokens exactly if
    it has a reading; the tokens are then the lexemes of the reading, and the stream
    ends where the text does.
  - `Lexer.proper_of_mem_scan`, `Reading.isName`: every token is proper; every identifier in
    a reading is a name.
  - `Reading.name`, `keyword`, `scalar`, `punct`, `decimal`: a lexeme's text reads as the
    lexeme before whatever the text cannot go on with.
-/

import ServLang.Proofs.LongestLexeme
import ServLang.Text.Decimal

namespace ServLang

inductive Reading : List Char → List Lexeme → Prop
  | nil : Reading [] []
  | blank {c : Char} {cs : List Char} {ls : List Lexeme} : isBlank c = true → Reading cs ls → Reading (c :: cs) ls
  | lexeme {cs rest : List Char} {l : Lexeme} {ls : List Lexeme} : Lexeme.munch? cs = some (l, rest) →
      Reading rest ls → Reading cs (l :: ls)

/-! ## The stream of a text -/

/-- No lexeme starts with a blank. -/
theorem Lexeme.munch?_of_isBlank {c : Char} (cs : List Char) (h : isBlank c = true) : munch? (c :: cs) = none := by
  simp only [isBlank, Bool.or_eq_true, decide_eq_true_eq] at h
  obtain ((rfl | rfl) | rfl) | rfl := h <;> rfl

namespace Lexer

theorem scan_nil (p : Position) : (Lexer.mk [] p false).scan = ⟨[], .finished p⟩ :=
  scan_of_next_none (y := ⟨[], p, true⟩) rfl

theorem scan_blank {c : Char} {cs : List Char} (p : Position) (h : isBlank c = true) :
    (Lexer.mk (c :: cs) p false).scan = (Lexer.mk cs (p.step c) false).scan := by
  have skip : (Lexer.mk (c :: cs) p false).skipBlanks = (Lexer.mk cs (p.step c) false).skipBlanks := by
    simp [skipBlanks, h]
  have next_eq : (Lexer.mk (c :: cs) p false).next = (Lexer.mk cs (p.step c) false).next := by
    unfold next
    rw [skip]
    rfl
  rcases hy : (Lexer.mk cs (p.step c) false).next with ⟨_ | (e | t), y⟩
  · rw [scan_of_next_none hy, scan_of_next_none (next_eq.trans hy)]
  · rw [scan_of_next_error hy, scan_of_next_error (next_eq.trans hy)]
  · rw [scan_of_next_token hy, scan_of_next_token (next_eq.trans hy)]

theorem skipBlanks_of_not_isBlank {c : Char} (cs : List Char) (p : Position) (h : isBlank c = false) :
    (Lexer.mk (c :: cs) p false).skipBlanks = ⟨c :: cs, p, false⟩ := by
  simp [skipBlanks, h]

theorem scan_lexeme {cs rest : List Char} {l : Lexeme} (p : Position) (h : Lexeme.munch? cs = some (l, rest)) :
    (Lexer.mk cs p false).scan =
      ⟨⟨l, p⟩ :: (Lexer.mk rest (p.advance l.text.toList) false).scan.tokens,
        (Lexer.mk rest (p.advance l.text.toList) false).scan.ending⟩ := by
  cases cs with
  | nil => simp [Lexeme.munch?] at h
  | cons c cs =>
    have hc : isBlank c = false := by
      by_cases hc : isBlank c = true
      · rw [Lexeme.munch?_of_isBlank cs hc] at h
        cases h
      · simpa using hc
    apply scan_of_next_token
    simp [next, skipBlanks_of_not_isBlank cs p hc, h]

theorem scan_stuck {c : Char} {cs : List Char} (p : Position) (hc : isBlank c = false)
    (h : Lexeme.munch? (c :: cs) = none) :
    (Lexer.mk (c :: cs) p false).scan = ⟨[], .failed ⟨.unexpectedChar c, p⟩⟩ := by
  apply scan_of_next_error (y := ⟨c :: cs, p, true⟩)
  simp [next, skipBlanks_of_not_isBlank cs p hc, h]

/-- A text is empty, or starts with a blank, with a lexeme, or with neither. -/
@[elab_as_elim]
theorem text_induction {P : List Char → Prop} (nil : P []) (blank : ∀ c cs, isBlank c = true → P cs → P (c :: cs))
    (lexeme : ∀ cs l rest, Lexeme.munch? cs = some (l, rest) → P rest → P cs)
    (stuck : ∀ c cs, isBlank c = false → Lexeme.munch? (c :: cs) = none → P (c :: cs)) : ∀ cs, P cs
  | [] => nil
  | c :: cs => by
    by_cases hc : isBlank c = true
    · exact blank c cs hc (text_induction nil blank lexeme stuck cs)
    · rcases h : Lexeme.munch? (c :: cs) with _ | ⟨l, rest⟩
      · exact stuck c cs (by simpa using hc) h
      · have shorter : rest.length < (c :: cs).length := (Lexeme.munch?_eq_some h).2
        exact lexeme (c :: cs) l rest h (text_induction nil blank lexeme stuck rest)
termination_by cs => cs.length
decreasing_by
  · exact Nat.lt_succ_self _
  · exact shorter

/-- What reads so is scanned so. -/
theorem scan_of_reading {cs : List Char} {ls : List Lexeme} (h : Reading cs ls) (p : Position) :
    ∃ ts, (Lexer.mk cs p false).scan = ⟨ts, .finished (p.advance cs)⟩ ∧ ts.map Token.lexeme = ls := by
  induction h generalizing p with
  | nil => exact ⟨[], scan_nil p, rfl⟩
  | @blank c cs ls hc _ ih =>
    obtain ⟨ts, hts, hls⟩ := ih (p.step c)
    exact ⟨ts, by rw [scan_blank p hc, hts, Position.advance_cons], hls⟩
  | @lexeme cs rest l ls hm _ ih =>
    obtain ⟨ts, hts, hls⟩ := ih (p.advance l.text.toList)
    refine ⟨⟨l, p⟩ :: ts, ?_, by rw [List.map_cons, hls]⟩
    rw [scan_lexeme p hm, hts, (Lexeme.munch?_eq_some hm).1, Position.advance_append]

/-- And what is scanned to the end reads so. -/
theorem reading_of_scan {cs : List Char} {p q : Position} {ts : List Token}
    (h : (Lexer.mk cs p false).scan = ⟨ts, .finished q⟩) : Reading cs (ts.map Token.lexeme) := by
  induction cs using text_induction generalizing p ts with
  | nil =>
    rw [scan_nil] at h
    cases h
    exact .nil
  | blank c cs hc ih =>
    rw [scan_blank p hc] at h
    exact .blank hc (ih h)
  | lexeme cs l rest hm ih =>
    rw [scan_lexeme p hm] at h
    obtain ⟨rfl, hq⟩ := Scan.mk.inj h
    exact .lexeme hm (ih (by rw [← hq]))
  | stuck c cs hc hm =>
    rw [scan_stuck p hc hm] at h
    cases h

/-- Every token of a stream is proper, however the stream ends. -/
theorem proper_of_mem_scan {cs : List Char} {p : Position} {t : Token} (h : t ∈ (Lexer.mk cs p false).scan.tokens) :
    t.lexeme.Proper := by
  induction cs using text_induction generalizing p with
  | nil =>
    rw [scan_nil] at h
    cases h
  | blank c cs hc ih =>
    rw [scan_blank p hc] at h
    exact ih h
  | lexeme cs l rest hm ih =>
    rw [scan_lexeme p hm] at h
    rcases List.mem_cons.1 h with rfl | h
    · exact (Lexeme.proper_of_munch? hm).1
    · exact ih h
  | stuck c cs hc hm =>
    rw [scan_stuck p hc hm] at h
    cases h

end Lexer

/-- A stream that ends with its text ends where the text does. -/
theorem tokenize_eq_ok_iff {source : String} {ts : List Token} :
    tokenize source = .ok ts ↔ Scan.ofString source = ⟨ts, .finished (Position.start.advance source.toList)⟩ := by
  have finish {p : Position} (h : Scan.ofString source = ⟨ts, .finished p⟩) :
      p = Position.start.advance source.toList := by
    obtain ⟨us, hus, -⟩ := Lexer.scan_of_reading (Lexer.reading_of_scan h) Position.start
    have same : Scan.ofString source = ⟨us, .finished (Position.start.advance source.toList)⟩ := hus
    rw [h] at same
    cases same
    rfl
  rcases h : Scan.ofString source with ⟨us, p | e⟩
  · simp only [tokenize, h, Scan.complete, Except.ok.injEq, Scan.mk.injEq, Ending.finished.injEq]
    constructor
    · intro h
      cases h
      exact ⟨rfl, finish h⟩
    · exact And.left
  · simp [tokenize, h, Scan.complete]

theorem tokenize_eq_error_iff {source : String} {e : LexError} :
    tokenize source = .error e ↔ (Scan.ofString source).ending = .failed e := by
  rcases h : Scan.ofString source with ⟨us, p | e'⟩ <;> simp [tokenize, h, Scan.complete]

theorem exists_tokenize_iff_reading {source : String} {ls : List Lexeme} :
    (∃ ts, tokenize source = .ok ts ∧ ts.map Token.lexeme = ls) ↔ Reading source.toList ls := by
  constructor
  · intro h
    obtain ⟨ts, hts, rfl⟩ := h
    exact Lexer.reading_of_scan (tokenize_eq_ok_iff.1 hts)
  · intro h
    obtain ⟨ts, hts, hls⟩ := Lexer.scan_of_reading h Position.start
    exact ⟨ts, tokenize_eq_ok_iff.2 hts, hls⟩

/-! ## Names in a reading -/

theorem Reading.isName {cs : List Char} {ls : List Lexeme} (h : Reading cs ls) {name : String}
    (hname : .identifier name ∈ ls) : isName name = true := by
  induction h with
  | nil => cases hname
  | blank _ _ ih => exact ih hname
  | lexeme hm _ ih =>
    rcases List.mem_cons.1 hname with rfl | hname
    · exact (Lexeme.proper_of_munch? hm).1
    · exact ih hname

/-! ## Numbers in a reading -/

/-- Every integer lexeme denotes a number, however long. -/
theorem Decimal.isInteger_iff_denotes {literal : List Char} : IsInteger literal ↔ ∃ n, Denotes literal n := by
  constructor
  · intro ⟨digits, hne, hd, h⟩
    rcases h with rfl | rfl
    · exact ⟨_, .plain hne hd⟩
    · exact ⟨_, .negative hne hd⟩
  · intro ⟨n, h⟩
    cases h with
    | plain hne hd => exact ⟨_, hne, hd, Or.inl rfl⟩
    | negative hne hd => exact ⟨_, hne, hd, Or.inr rfl⟩

def Lexeme.HasNumber : Lexeme → Prop
  | integer literal => ∃ n, Decimal.Denotes literal.toList n
  | keyword _ | scalar _ | identifier _ | punct _ => True

theorem Lexeme.Proper.hasNumber {l : Lexeme} (h : l.Proper) : l.HasNumber := by
  cases l with
  | integer literal => exact Decimal.isInteger_iff_denotes.1 h
  | _ => trivial

theorem Scan.hasNumber {source : String} {t : Token} (h : t ∈ (ofString source).tokens) : t.lexeme.HasNumber :=
  (Lexer.proper_of_mem_scan h).hasNumber

theorem Reading.hasNumber {cs : List Char} {ls : List Lexeme} (h : Reading cs ls) : ∀ l ∈ ls, l.HasNumber := by
  induction h with
  | nil => exact nofun
  | blank _ _ ih => exact ih
  | lexeme hm _ ih => exact List.forall_mem_cons.2 ⟨(Lexeme.proper_of_munch? hm).1.hasNumber, ih⟩

/-! ## Texts that read as their lexemes -/

namespace Reading

variable {cs : List Char} {ls : List Lexeme}

/-- A proper lexeme is read before whatever ends it. -/
theorem text {l : Lexeme} (hl : l.Proper) (hcs : l.EndsBefore cs) (h : Reading cs ls) :
    Reading (l.text.toList ++ cs) (l :: ls) :=
  .lexeme (Lexeme.munch?_text hl hcs) h

theorem name {n : String} (hn : ServLang.isName n = true) (hcs : EndsRun isWordRest cs) (h : Reading cs ls) :
    Reading (n.toList ++ cs) (.identifier n :: ls) :=
  text (l := .identifier n) hn hcs h

theorem keyword (k : Keyword) (hcs : EndsRun isWordRest cs) (h : Reading cs ls) :
    Reading (k.word.toList ++ cs) (.keyword k :: ls) :=
  text (l := .keyword k) trivial hcs h

theorem scalar (s : Scalar) (hcs : EndsRun isWordRest cs) (h : Reading cs ls) :
    Reading (s.keyword.toList ++ cs) (.scalar s :: ls) :=
  text (l := .scalar s) trivial hcs h

theorem space (h : Reading cs ls) : Reading (' ' :: cs) ls := .blank rfl h

theorem newline (h : Reading cs ls) : Reading ('\n' :: cs) ls := .blank rfl h

theorem tabs (n : Nat) (h : Reading cs ls) : Reading (List.replicate n '\t' ++ cs) ls := by
  induction n with
  | zero => exact h
  | succ n ih => exact .blank rfl ih

theorem punct (p : Punct) (h : Reading cs ls) : Reading (p.sign :: cs) (.punct p :: ls) := by
  simpa [Lexeme.text, Punct.text] using text (l := .punct p) trivial trivial h

theorem decimal (v : Int) (hcs : EndsRun Char.isDigit cs) (h : Reading cs ls) :
    Reading (Decimal.write v ++ cs) (.integer (String.ofList (Decimal.write v)) :: ls) := by
  have hproper : (Lexeme.integer (String.ofList (Decimal.write v))).Proper := by
    rw [Lexeme.Proper, String.toList_ofList]
    exact Decimal.isInteger_iff_denotes.2 ⟨v, Decimal.denotes_write v⟩
  simpa [Lexeme.text] using text hproper hcs h

end Reading

end ServLang

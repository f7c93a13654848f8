/-
  ServLang.Proofs.LongestLexeme — the lexeme a text starts with, by classes of texts
  alone. A lexeme's class says what its text may be, and the text behind it must not
  start with a character that a longer lexeme of the class would go on with.

  Proved:
  - `Lexeme.munch?_text`: a proper lexeme is taken whole off every text that ends it.
  - `Lexeme.proper_of_munch?`: only proper lexemes are taken, as long as the text allows.
  - `Lexeme.classified_iff_proper`: a text belongs to one class, so a lexeme's class can
    be told by its text.
  - `Lexeme.munch?_eq_some_iff`: the three together.
-/

import ServLang.Document.WellFormed

namespace ServLang

/-! ## Runs of characters -/

/-- The text does not start with a character of this kind, so a run of them ends
    before it. -/
def EndsRun (p : Char → Bool) (cs : List Char) : Prop := ∀ c ∈ cs.head?, p c = false

namespace EndsRun

variable {p : Char → Bool} {run cs : List Char}

theorem nil : EndsRun p [] := nofun

theorem cons {c : Char} (h : p c = false) : EndsRun p (c :: cs) := by
  intro x hx
  cases hx
  exact h

theorem left {more : List Char} (h : EndsRun p (cs ++ more)) : EndsRun p cs := by
  cases cs with
  | nil => exact nil
  | cons c cs => exact cons (h c rfl)

theorem takeWhile_append (h : EndsRun p cs) (hrun : run.all p = true) : (run ++ cs).takeWhile p = run := by
  rw [List.takeWhile_append_of_pos (List.all_eq_true.1 hrun)]
  cases cs with
  | nil => simp
  | cons c cs => simp [h c rfl]

theorem dropWhile_append (h : EndsRun p cs) (hrun : run.all p = true) : (run ++ cs).dropWhile p = cs := by
  rw [List.dropWhile_append_of_pos (List.all_eq_true.1 hrun)]
  cases cs with
  | nil => simp
  | cons c cs => simp [h c rfl]

theorem dropWhile (p : Char → Bool) (cs : List Char) : EndsRun p (cs.dropWhile p) := by
  intro c hc
  have hnot := List.head?_dropWhile_not p cs
  rw [Option.mem_def.1 hc] at hnot
  exact hnot

end EndsRun

/-! ## Classes of texts -/

def IsInteger (text : List Char) : Prop :=
  ∃ digits, digits ≠ [] ∧ digits.all Char.isDigit = true ∧ (text = digits ∨ text = '-' :: digits)

theorem isName_iff {text : String} :
    isName text = true ↔
      isWord text.toList = true ∧ (∀ k : Keyword, text ≠ k.word) ∧ ∀ s : Scalar, text ≠ s.keyword := by
  have keywords : Keyword.ofWord? text = none ↔ ∀ k : Keyword, text ≠ k.word := by
    rw [Option.eq_none_iff_forall_ne_some]
    exact forall_congr' fun k => not_congr (Keyword.ofWord?_eq_some_iff.trans eq_comm)
  have scalars : Scalar.ofWord? text = none ↔ ∀ s : Scalar, text ≠ s.keyword := by
    rw [Option.eq_none_iff_forall_ne_some]
    exact forall_congr' fun s => not_congr (Scalar.ofWord?_eq_some_iff.trans eq_comm)
  simp only [isName, Bool.and_eq_true, Option.isNone_iff_eq_none, keywords, scalars, and_assoc]

theorem isWordRest_of_isWordStart {c : Char} (h : isWordStart c = true) : isWordRest c = true := by
  simp only [isWordStart, isWordRest, Char.isAlphanum, Bool.or_eq_true] at h ⊢
  exact h.imp_left Or.inl

theorem all_isWordRest_of_isWord {cs : List Char} (h : isWord cs = true) : cs.all isWordRest = true := by
  cases cs with
  | nil => rfl
  | cons c cs =>
    rw [isWord, Bool.and_eq_true] at h
    rw [List.all_cons, isWordRest_of_isWordStart h.1, h.2]
    rfl

theorem Keyword.isWord_word (k : Keyword) : isWord k.word.toList = true := by cases k <;> decide

theorem Scalar.isWord_keyword (s : Scalar) : isWord s.keyword.toList = true := by cases s <;> decide

namespace Lexeme

/-- A lexeme is of the class that its text belongs to, and of no other. -/
structure Classified (l : Lexeme) : Prop where
  keyword (k : Keyword) : l = .keyword k ↔ l.text = k.word
  scalar (s : Scalar) : l = .scalar s ↔ l.text = s.keyword
  identifier : (∃ name, l = .identifier name) ↔
    isWord l.text.toList = true ∧ (∀ k : Keyword, l.text ≠ k.word) ∧ ∀ s : Scalar, l.text ≠ s.keyword
  integer : (∃ literal, l = .integer literal) ↔ IsInteger l.text.toList
  punct (p : Punct) : l = .punct p ↔ l.text = p.text

/-- The text behind a lexeme does not start with a character that a longer one of its
    class would go on with. -/
def EndsBefore : Lexeme → List Char → Prop
  | keyword _ | scalar _ | identifier _ => EndsRun isWordRest
  | integer _ => EndsRun Char.isDigit
  | punct _ => fun _ => True

/-- What a class asks of the text that a lexeme brings with it. -/
def Proper : Lexeme → Prop
  | identifier name => isName name = true
  | integer literal => IsInteger literal.toList
  | keyword _ | scalar _ | punct _ => True

theorem endsBefore_nil (l : Lexeme) : l.EndsBefore [] := by
  cases l with
  | punct p => trivial
  | _ => exact EndsRun.nil

theorem EndsBefore.left {l : Lexeme} {cs more : List Char} (h : l.EndsBefore (cs ++ more)) : l.EndsBefore cs := by
  cases l with
  | punct p => trivial
  | _ => exact EndsRun.left h

/-! ## A lexeme's text is taken whole -/

theorem munch?_word {l : Lexeme} {cs : List Char} (hl : ofWord l.text = l) (hw : isWord l.text.toList = true)
    (hcs : EndsRun isWordRest cs) : munch? (l.text.toList ++ cs) = some (l, cs) := by
  rcases h : l.text.toList with _ | ⟨c, rest⟩
  · simp [h, isWord] at hw
  · rw [h, isWord, Bool.and_eq_true] at hw
    simp only [List.cons_append, munch?, hw.1, if_true, hcs.takeWhile_append hw.2, hcs.dropWhile_append hw.2]
    rw [← h, String.ofList_toList, hl]

theorem isWordStart_of_isDigit {c : Char} (h : c.isDigit = true) : isWordStart c = false := by
  have hne : c ≠ '_' := by
    intro h
    cases h
    cases h
  have halpha : c.isAlpha = false := by
    simp only [Char.isDigit, Bool.and_eq_true, decide_eq_true_eq, UInt32.le_iff_toNat_le] at h
    show (decide (65 ≤ c.val ∧ c.val ≤ 90) || (decide (97 ≤ c.val) && decide (c.val ≤ 122))) = false
    simp only [Bool.or_eq_false_iff, Bool.and_eq_false_iff, decide_eq_false_iff_not, UInt32.le_iff_toNat_le]
    simp at h ⊢
    omega
  simp [isWordStart, halpha, hne]

theorem munch?_digits {digits cs : List Char} (hne : digits ≠ []) (hd : digits.all Char.isDigit = true)
    (hcs : EndsRun Char.isDigit cs) : munch? (digits ++ cs) = some (integer (String.ofList digits), cs) := by
  cases digits with
  | nil => exact absurd rfl hne
  | cons c rest =>
    rw [List.all_cons, Bool.and_eq_true] at hd
    simp [munch?, isWordStart_of_isDigit hd.1, hd.1, hcs.takeWhile_append hd.2, hcs.dropWhile_append hd.2]

theorem munch?_minus_digits {digits cs : List Char} (hne : digits ≠ []) (hd : digits.all Char.isDigit = true)
    (hcs : EndsRun Char.isDigit cs) :
    munch? ('-' :: digits ++ cs) = some (integer (String.ofList ('-' :: digits)), cs) := by
  have hstart : isWordStart '-' = false := by decide
  have hdigit : ('-' : Char).isDigit = false := by decide
  simp [munch?, hstart, hdigit, hcs.takeWhile_append hd, hcs.dropWhile_append hd, hne]

theorem munch?_integer {literal : String} {cs : List Char} (h : IsInteger literal.toList)
    (hcs : EndsRun Char.isDigit cs) : munch? (literal.toList ++ cs) = some (.integer literal, cs) := by
  obtain ⟨digits, hne, hd, hl | hl⟩ := h
  · rw [hl, munch?_digits hne hd hcs, ← hl, String.ofList_toList]
  · rw [hl, munch?_minus_digits hne hd hcs, ← hl, String.ofList_toList]

/-- A lexeme whose text ends there is the one that is read. -/
theorem munch?_text {l : Lexeme} {rest : List Char} (h : l.Proper) (hrest : l.EndsBefore rest) :
    munch? (l.text.toList ++ rest) = some (l, rest) := by
  cases l with
  | keyword k =>
    have hk : ofWord k.word = .keyword k := by cases k <;> rfl
    exact munch?_word hk k.isWord_word hrest
  | scalar s =>
    have hs : ofWord s.keyword = .scalar s := by cases s <;> rfl
    exact munch?_word hs s.isWord_keyword hrest
  | identifier name =>
    have hname : isName name = true := h
    simp only [isName, Bool.and_eq_true, Option.isNone_iff_eq_none] at hname
    have hn : ofWord name = .identifier name := by rw [ofWord, hname.1.2, hname.2]
    exact munch?_word hn hname.1.1 hrest
  | integer literal => exact munch?_integer h hrest
  | punct p => cases p <;> rfl

/-! ## Only proper lexemes are taken -/

theorem proper_ofWord {word : String} (h : isWord word.toList = true) : (ofWord word).Proper := by
  unfold ofWord
  split
  · trivial
  · next hk =>
    split
    · trivial
    · next hs => simp [Proper, isName, h, hk, hs]

theorem endsBefore_ofWord {word : String} {cs : List Char} (h : EndsRun isWordRest cs) :
    (ofWord word).EndsBefore cs := by
  unfold ofWord
  split
  · exact h
  · split <;> exact h

/-- Only such lexemes are read. -/
theorem proper_of_munch? {cs rest : List Char} {l : Lexeme} (h : munch? cs = some (l, rest)) :
    l.Proper ∧ l.EndsBefore rest := by
  cases cs with
  | nil => simp [munch?] at h
  | cons c cs =>
    simp only [munch?] at h
    -- A word, digits, a `-` with digits, or a sign.
    split at h
    · next hc =>
      cases h
      have hword : isWord (String.ofList (c :: cs.takeWhile isWordRest)).toList = true := by
        rw [String.toList_ofList, isWord, hc, List.all_takeWhile]
        rfl
      exact ⟨proper_ofWord hword, endsBefore_ofWord (EndsRun.dropWhile _ _)⟩
    · split at h
      · next hc =>
        cases h
        have hd : (c :: cs.takeWhile Char.isDigit).all Char.isDigit = true := by
          rw [List.all_cons, hc, List.all_takeWhile]
          rfl
        exact ⟨⟨_, List.cons_ne_nil _ _, hd, Or.inl String.toList_ofList⟩, EndsRun.dropWhile _ _⟩
      · split at h
        · next hc =>
          split at h
          · cases h
          · next hne =>
            cases h
            have hl : (String.ofList (c :: cs.takeWhile Char.isDigit)).toList = '-' :: cs.takeWhile Char.isDigit := by
              rw [String.toList_ofList, hc]
            exact ⟨⟨_, by simpa using hne, List.all_takeWhile, Or.inr hl⟩, EndsRun.dropWhile _ _⟩
        · obtain ⟨p, -, hp⟩ := Option.map_eq_some_iff.1 h
          cases hp
          exact ⟨trivial, trivial⟩

/-! ## The one lexeme of a text -/

/-- Two lexemes of one text would both be taken off it. -/
theorem Proper.eq_of_text {l k : Lexeme} (hl : l.Proper) (hk : k.Proper) (h : l.text = k.text) : l = k := by
  have same := munch?_text hl l.endsBefore_nil
  rw [h, munch?_text hk k.endsBefore_nil] at same
  cases same
  rfl

/-- What a class asks of a text is that the text belongs to it. -/
theorem classified_iff_proper {l : Lexeme} : l.Classified ↔ l.Proper := by
  constructor
  · intro h
    cases l with
    | identifier name => exact isName_iff.2 (h.identifier.1 ⟨name, rfl⟩)
    | integer literal => exact h.integer.1 ⟨literal, rfl⟩
    | keyword k => trivial
    | scalar s => trivial
    | punct p => trivial
  · intro h
    -- Among proper lexemes the text decides.
    have only {k : Lexeme} (hk : k.Proper) : l = k ↔ l.text = k.text :=
      ⟨fun e => by rw [e], fun e => h.eq_of_text hk e⟩
    refine ⟨fun k => only (k := .keyword k) trivial, fun s => only (k := .scalar s) trivial, ?_, ?_,
      fun p => only (k := .punct p) trivial⟩
    · constructor
      · intro ⟨name, e⟩
        subst e
        exact isName_iff.1 h
      · intro hname
        exact ⟨l.text, (only (k := .identifier l.text) (isName_iff.2 hname)).2 rfl⟩
    · constructor
      · intro ⟨literal, e⟩
        subst e
        exact h
      · intro hint
        exact ⟨l.text, (only (k := .integer l.text) hint).2 rfl⟩

/-- What is read at the start of a text is the longest lexeme there. -/
theorem munch?_eq_some_iff {cs rest : List Char} {l : Lexeme} :
    munch? cs = some (l, rest) ↔ cs = l.text.toList ++ rest ∧ l.Classified ∧ l.EndsBefore rest := by
  rw [classified_iff_proper]
  constructor
  · intro h
    exact ⟨(munch?_eq_some h).1, proper_of_munch? h⟩
  · intro h
    obtain ⟨rfl, hproper, hends⟩ := h
    exact munch?_text hproper hends

end Lexeme

end ServLang

/-
  ServLang.Proofs.TokenGrammar — the lexemes by a parsing expression grammar. An
  expression takes a piece off the front of a text or fails; of two alternatives the
  second is tried only if the first fails, and what has been taken is not given back. The
  five rules for tokens are tried in order, and the first that takes a piece decides what
  it is.

  A reserved word has to end where it is found: it is one of some words, and no word
  character comes next. So `messages` fails for keywords although `message` was found,
  and is left to the rule for identifiers. `Lexeme.munch?` takes the whole word first and
  looks afterwards whether it is reserved. It comes to the same since no reserved word
  starts another one of its rule (`Reserved`): the first that is found is the only one.

  Proved:
  - `Peg.run_reserved`: the rule for reserved words, by the longest word.
  - `TokenGrammar.read?_eq_munch?`: the grammar takes the lexemes that `munch?` takes.
  - `Lexer.grammarNext_eq_next`: the stream by the grammar is the stream.
-/

import ServLang.Proofs.LongestLexeme

namespace ServLang

/-! ## Expressions -/

inductive Peg where
  | text (word : List Char)
  | one (p : Char → Bool)
  /-- As many characters of a kind as there are. -/
  | many (p : Char → Bool)
  | seq (first second : Peg)
  | choice (first second : Peg)
  /-- Takes nothing, where the expression fails. -/
  | absent (e : Peg)

namespace Peg

def run : Peg → List Char → Option (List Char × List Char)
  | text word, cs => if word.isPrefixOf cs then some (word, cs.drop word.length) else none
  | one p, c :: cs => if p c then some ([c], cs) else none
  | one _, [] => none
  | many p, cs => some (cs.takeWhile p, cs.dropWhile p)
  | seq first second, cs =>
    (first.run cs).bind fun x => (second.run x.2).map fun y => (x.1 ++ y.1, y.2)
  | choice first second, cs => (first.run cs).or (second.run cs)
  | absent e, cs => if (e.run cs).isSome then none else some ([], cs)

def maybe (e : Peg) : Peg := .choice e (.text [])

def several (p : Char → Bool) : Peg := .seq (.one p) (.many p)

def anyOf : List String → Peg
  | [] => .absent (.text [])
  | word :: words => .choice (.text word.toList) (anyOf words)

/-- One of these, with no word character behind it. -/
def reserved (words : List String) : Peg := .seq (anyOf words) (.absent (.one isWordRest))

end Peg

/-! ## The grammar of tokens -/

inductive TokenRule where
  | keyword | scalar | identifier | integer | punct
deriving DecidableEq, Repr

namespace TokenRule

def all : List TokenRule := [keyword, scalar, identifier, integer, punct]

def expression : TokenRule → Peg
  | keyword => .reserved ["message", "inbound", "outbound", "optional", "required", "enum"]
  | scalar => .reserved
      ["double", "float", "int32", "int64", "uint32", "uint64", "sint32", "sint64", "fixed32", "fixed64", "sfixed32",
        "sfixed64", "bool", "string", "bytes"]
  | identifier => .seq (.one isWordStart) (.many isWordRest)
  | integer => .seq (.maybe (.text ['-'])) (.several Char.isDigit)
  | punct => .anyOf ["\x7b", "\x7d", "(", ")", ",", ";", ":", ".", "<", ">", "="]

/-- What a piece is that a rule has taken. -/
def classify? : TokenRule → String → Option Lexeme
  | keyword, word => (Keyword.ofWord? word).map .keyword
  | scalar, word => (Scalar.ofWord? word).map .scalar
  | identifier, word => some (.identifier word)
  | integer, literal => some (.integer literal)
  | punct, sign => (Punct.ofText? sign).map .punct

end TokenRule

namespace TokenGrammar

def separator : Peg := .several isBlank

/-- The rule that takes a piece off a text, the piece, and the text after it. -/
def token? (cs : List Char) : Option (TokenRule × List Char × List Char) :=
  TokenRule.all.findSome? fun rule => (rule.expression.run cs).map (rule, ·)

def read? (cs : List Char) : Option (Lexeme × List Char) :=
  (token? cs).bind fun x => (x.1.classify? (String.ofList x.2.1)).map (·, x.2.2)

end TokenGrammar

namespace Lexer

def skipSeparator (x : Lexer) : Lexer :=
  match TokenGrammar.separator.run x.rest with
  | some (blanks, rest) => { x with rest := rest, position := x.position.advance blanks }
  | none => x

/-- One item off the stream, with separators and tokens by the grammar. -/
def grammarNext (x : Lexer) : Option (Except LexError Token) × Lexer :=
  if x.finished then (none, x)
  else
    let y := x.skipSeparator
    match y.rest with
    | [] => (none, { y with finished := true })
    | c :: cs =>
      match TokenGrammar.read? (c :: cs) with
      | some (lexeme, rest) =>
        (some (.ok ⟨lexeme, y.position⟩), ⟨rest, y.position.advance lexeme.text.toList, false⟩)
      | none => (some (.error ⟨.unexpectedChar c, y.position⟩), { y with finished := true })

end Lexer

/-! ## Reserved words -/

namespace Peg

structure Reserved (words : List String) : Prop where
  isWord : ∀ w ∈ words, isWord w.toList = true
  alone : ∀ w ∈ words, ∀ v ∈ words, w.toList <+: v.toList → w = v

theorem run_anyOf_eq_some {words : List String} {cs taken rest : List Char}
    (h : (anyOf words).run cs = some (taken, rest)) :
    ∃ w ∈ words, taken = w.toList ∧ cs = taken ++ rest := by
  induction words with
  | nil => cases h
  | cons w words ih =>
    rw [anyOf, run, Option.or_eq_some_iff] at h
    rcases h with h | ⟨-, h⟩
    · rw [run] at h
      split at h
      · next hw =>
        cases h
        exact ⟨w, List.mem_cons_self, rfl, (List.prefix_iff_eq_append.1 (List.isPrefixOf_iff_prefix.1 hw)).symm⟩
      · cases h
    · obtain ⟨v, hv, h⟩ := ih h
      exact ⟨v, List.mem_cons_of_mem _ hv, h⟩

theorem not_prefix_of_run_anyOf {words : List String} {cs : List Char} (h : (anyOf words).run cs = none) :
    ∀ w ∈ words, ¬ w.toList <+: cs := by
  induction words with
  | nil => exact nofun
  | cons w words ih =>
    rw [anyOf, run, Option.or_eq_none_iff] at h
    refine List.forall_mem_cons.2 ⟨fun hw => ?_, ih h.2⟩
    rw [run, if_pos (List.isPrefixOf_iff_prefix.2 hw)] at h
    cases h.1

theorem run_absent_one {p : Char → Bool} {cs : List Char} (h : EndsRun p cs) :
    (absent (one p)).run cs = some ([], cs) := by
  cases cs with
  | nil => rfl
  | cons c cs => simp [run, h c rfl]

theorem run_absent_one_cons {p : Char → Bool} {c : Char} (h : p c = true) (cs : List Char) :
    (absent (one p)).run (c :: cs) = none := by
  simp [run, h]

/-- A reserved word is found exactly if the longest word at the front is one. -/
theorem run_reserved {words : List String} (h : Reserved words) (cs : List Char) :
    (reserved words).run cs =
      if String.ofList (cs.takeWhile isWordRest) ∈ words then some (cs.takeWhile isWordRest, cs.dropWhile isWordRest)
      else none := by
  rw [reserved, run]
  rcases hany : (anyOf words).run cs with _ | ⟨taken, rest⟩
  · refine (if_neg fun hmem => not_prefix_of_run_anyOf hany _ hmem ?_).symm
    rw [String.toList_ofList]
    exact List.takeWhile_prefix _
  · obtain ⟨w, hw, rfl, rfl⟩ := run_anyOf_eq_some hany
    have inside : w.toList.all isWordRest = true := all_isWordRest_of_isWord (h.isWord w hw)
    cases rest with
    | nil =>
      rw [EndsRun.nil.takeWhile_append inside, EndsRun.nil.dropWhile_append inside, String.ofList_toList, if_pos hw]
      simp [run]
    | cons c rest =>
      by_cases hc : isWordRest c = true
      · -- The word found goes on, so it only starts the longest one, and that is not reserved.
        have longer : (w.toList ++ c :: rest).takeWhile isWordRest = w.toList ++ c :: rest.takeWhile isWordRest := by
          rw [List.takeWhile_append_of_pos (List.all_eq_true.1 inside), List.takeWhile_cons_of_pos hc]
        rw [longer, if_neg]
        · simp [run_absent_one_cons hc]
        · intro hmem
          have same := h.alone w hw _ hmem (by rw [String.toList_ofList]; exact List.prefix_append _ _)
          have size := congrArg String.length same
          simp at size
      · have ends : EndsRun isWordRest (c :: rest) := EndsRun.cons (by simpa using hc)
        rw [ends.takeWhile_append inside, ends.dropWhile_append inside, String.ofList_toList, if_pos hw]
        simp [run_absent_one ends]

/-- Reserved words start as words do. -/
theorem run_reserved_eq_none {words : List String} (h : Reserved words) {c : Char} (hc : isWordStart c = false)
    (cs : List Char) : (reserved words).run (c :: cs) = none := by
  rw [run_reserved h, if_neg]
  intro hmem
  have word := h.isWord _ hmem
  rw [String.toList_ofList, List.takeWhile_cons] at word
  split at word
  · rw [isWord, hc] at word
    cases word
  · cases word

theorem run_anyOf_signs (ps : List Punct) (c : Char) (cs : List Char) :
    (anyOf (ps.map Punct.text)).run (c :: cs) = (ps.find? (·.sign = c)).map fun p => ([p.sign], cs) := by
  induction ps with
  | nil => rfl
  | cons p ps ih =>
    rw [List.map_cons, anyOf, run, ih, List.find?_cons]
    by_cases hp : p.sign = c
    · simp [run, Punct.text, hp]
    · simp [run, Punct.text, hp]

end Peg

/-! ## Rule by rule -/

namespace TokenRule

open Peg

variable {α : Type} {c : Char}

/-- A rule for reserved words takes the longest word, if it stands for something. -/
theorem run_reserved_eq_map {words : List String} (h : Reserved words) {ofWord? : String → Option α}
    (hw : ∀ word, word ∈ words ↔ (ofWord? word).isSome = true) (cs : List Char) :
    (reserved words).run cs = (ofWord? (String.ofList (cs.takeWhile isWordRest))).map fun _ =>
      (cs.takeWhile isWordRest, cs.dropWhile isWordRest) := by
  rw [run_reserved h]
  cases hword : ofWord? (String.ofList (cs.takeWhile isWordRest)) <;> simp [hw, hword]

theorem reserved_keywords : Reserved (Keyword.all.map Keyword.word) where
  isWord := List.forall_mem_map.2 fun k _ => k.isWord_word
  alone := by decide

theorem reserved_scalars : Reserved (Scalar.all.map Scalar.keyword) where
  isWord := List.forall_mem_map.2 fun s _ => s.isWord_keyword
  alone := by decide

theorem run_keyword (cs : List Char) :
    keyword.expression.run cs = (Keyword.ofWord? (String.ofList (cs.takeWhile isWordRest))).map fun _ =>
      (cs.takeWhile isWordRest, cs.dropWhile isWordRest) := by
  refine run_reserved_eq_map reserved_keywords (fun word => ?_) cs
  rw [List.mem_map, Option.isSome_iff_exists]
  exact exists_congr fun k => (and_iff_right k.mem_all).trans Keyword.ofWord?_eq_some_iff.symm

theorem run_scalar (cs : List Char) :
    scalar.expression.run cs = (Scalar.ofWord? (String.ofList (cs.takeWhile isWordRest))).map fun _ =>
      (cs.takeWhile isWordRest, cs.dropWhile isWordRest) := by
  refine run_reserved_eq_map reserved_scalars (fun word => ?_) cs
  rw [List.mem_map, Option.isSome_iff_exists]
  exact exists_congr fun s => (and_iff_right s.mem_all).trans Scalar.ofWord?_eq_some_iff.symm

theorem run_identifier (hc : isWordStart c = true) (cs : List Char) :
    identifier.expression.run (c :: cs) = some (c :: cs.takeWhile isWordRest, cs.dropWhile isWordRest) := by
  simp [expression, run, hc]

/-- Words, and nothing else, start with a letter or an underscore. -/
theorem run_words_eq_none (hc : isWordStart c = false) (cs : List Char) :
    keyword.expression.run (c :: cs) = none ∧ scalar.expression.run (c :: cs) = none ∧
      identifier.expression.run (c :: cs) = none := by
  refine ⟨run_reserved_eq_none reserved_keywords hc cs, run_reserved_eq_none reserved_scalars hc cs, ?_⟩
  simp [expression, run, hc]

theorem run_integer_digit (hc : c.isDigit = true) (cs : List Char) :
    integer.expression.run (c :: cs) = some (c :: cs.takeWhile Char.isDigit, cs.dropWhile Char.isDigit) := by
  have hminus : c ≠ '-' := by
    rintro rfl
    cases hc
  simp [expression, maybe, several, run, hc, hminus.symm]

theorem run_integer_minus (cs : List Char) :
    integer.expression.run ('-' :: cs) =
      if (cs.takeWhile Char.isDigit).isEmpty then none
      else some ('-' :: cs.takeWhile Char.isDigit, cs.dropWhile Char.isDigit) := by
  cases cs with
  | nil => rfl
  | cons d cs => by_cases hd : d.isDigit = true <;> simp [expression, maybe, several, run, hd]

theorem run_integer_eq_none (hdigit : c.isDigit = false) (hminus : c ≠ '-') (cs : List Char) :
    integer.expression.run (c :: cs) = none := by
  simp [expression, maybe, several, run, hdigit, hminus.symm]

theorem run_punct (c : Char) (cs : List Char) :
    punct.expression.run (c :: cs) = (Punct.ofChar? c).map fun p => ([p.sign], cs) :=
  run_anyOf_signs Punct.all c cs

end TokenRule

/-! ## Lexemes and items -/

namespace TokenGrammar

variable {c : Char}

/-- At a word start the three rules for words are tried on the same word. -/
theorem read?_word (hc : isWordStart c = true) (cs : List Char) :
    read? (c :: cs) =
      some (Lexeme.ofWord (String.ofList (c :: cs.takeWhile isWordRest)), cs.dropWhile isWordRest) := by
  have taken := List.takeWhile_cons_of_pos (isWordRest_of_isWordStart hc) (l := cs)
  have left := List.dropWhile_cons_of_pos (isWordRest_of_isWordStart hc) (l := cs)
  simp only [read?, token?, TokenRule.all, List.findSome?_cons, TokenRule.run_keyword, TokenRule.run_scalar,
    TokenRule.run_identifier hc, taken, left, Lexeme.ofWord]
  cases hk : Keyword.ofWord? (String.ofList (c :: cs.takeWhile isWordRest)) with
  | some k => simp only [Option.map_some, Option.bind_some, TokenRule.classify?, hk]
  | none =>
    cases hs : Scalar.ofWord? (String.ofList (c :: cs.takeWhile isWordRest)) with
    | some s => simp only [Option.map_none, Option.map_some, Option.bind_some, TokenRule.classify?, hs]
    | none => simp only [Option.map_none, Option.map_some, Option.bind_some, TokenRule.classify?]

/-- Elsewhere a literal is tried, and then a sign. -/
theorem token?_no_word (hc : isWordStart c = false) (cs : List Char) :
    token? (c :: cs) = ((TokenRule.integer.expression.run (c :: cs)).map (.integer, ·)).or
      ((Punct.ofChar? c).map fun p => (.punct, [p.sign], cs)) := by
  obtain ⟨keyword, scalar, identifier⟩ := TokenRule.run_words_eq_none hc cs
  simp only [token?, TokenRule.all, List.findSome?_cons, keyword, scalar, identifier, TokenRule.run_punct]
  cases TokenRule.integer.expression.run (c :: cs) <;> cases Punct.ofChar? c <;> rfl

/-- The grammar takes the lexemes that `munch?` takes. -/
theorem read?_eq_munch? (cs : List Char) : read? cs = Lexeme.munch? cs := by
  cases cs with
  | nil => rfl
  | cons c cs =>
    rw [Lexeme.munch?]
    cases hword : isWordStart c with
    | true => rw [read?_word hword, if_pos rfl]
    | false =>
      rw [read?, token?_no_word hword, if_neg Bool.false_ne_true]
      cases hdigit : c.isDigit with
      | true => simp [TokenRule.run_integer_digit hdigit, TokenRule.classify?]
      | false =>
        by_cases hminus : c = '-'
        · subst hminus
          have sign : Punct.ofChar? '-' = none := rfl
          rw [TokenRule.run_integer_minus, sign]
          by_cases hdigits : cs.takeWhile Char.isDigit = []
          · simp [hdigits]
          · simp [hdigits, TokenRule.classify?]
        · rw [TokenRule.run_integer_eq_none hdigit hminus]
          cases hp : Punct.ofChar? c with
          | none => simp [hminus]
          | some p => simp [TokenRule.classify?, Punct.ofText?, Punct.ofChar?_sign, hminus]

example : read? "messages;".toList = some (.identifier "messages", [';']) ∧
    read? "message-1".toList = some (.keyword .message, "-1".toList) := by decide

end TokenGrammar

namespace Lexer

/-- The separator rule takes what the lexer skips. -/
theorem skipSeparator_eq_skipBlanks (x : Lexer) : x.skipSeparator = x.skipBlanks := by
  obtain ⟨rest, position, finished⟩ := x
  rw [skipSeparator, skipBlanks, TokenGrammar.separator, Peg.several, Peg.run]
  cases rest with
  | nil => rfl
  | cons c cs => by_cases hc : isBlank c = true <;> simp [Peg.run, hc]

/-- The stream of the grammar is the lexer's. -/
theorem grammarNext_eq_next (x : Lexer) : x.grammarNext = x.next := by
  unfold grammarNext
  simp only [skipSeparator_eq_skipBlanks, TokenGrammar.read?_eq_munch?]
  rfl

end Lexer

end ServLang

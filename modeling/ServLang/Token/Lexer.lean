/-
  ServLang.Token.Lexer — the token stream of a source text. `Lexeme.munch?` takes the
  longest lexeme a text starts with. A `Lexer` is a place in the stream: `next` skips
  blanks and takes one token; at the end of the text, and at a character that starts
  no lexeme, the stream is finished. `Lexer.scan` is the whole rest of a stream: its
  tokens, and how it ended.

  Blanks are space, tab, carriage return and line feed, and nothing else.

  Proved: a lexeme's text and what is left after it are the text it was taken from,
  and what is left is shorter, so every stream ends.
-/

import ServLang.Token

namespace ServLang

def isBlank (c : Char) : Bool := c = ' ' || c = '\t' || c = '\r' || c = '\n'

/-- ASCII letters and the underscore. -/
def isWordStart (c : Char) : Bool := c.isAlpha || c = '_'

def isWordRest (c : Char) : Bool := c.isAlphanum || c = '_'

namespace Lexeme

/-- The longest lexeme at the start of a text, and the text after it. -/
def munch? : List Char → Option (Lexeme × List Char)
  | [] => none
  | c :: cs =>
    if isWordStart c then
      some (ofWord (String.ofList (c :: cs.takeWhile isWordRest)), cs.dropWhile isWordRest)
    else if c.isDigit then
      some (integer (String.ofList (c :: cs.takeWhile Char.isDigit)), cs.dropWhile Char.isDigit)
    else if c = '-' then
      if (cs.takeWhile Char.isDigit).isEmpty then none
      else some (integer (String.ofList (c :: cs.takeWhile Char.isDigit)), cs.dropWhile Char.isDigit)
    else
      (Punct.ofChar? c).map fun p => (punct p, cs)

/-- A lexeme takes its own text off the front of the source and leaves less of it. -/
theorem munch?_eq_some {cs rest : List Char} {lexeme : Lexeme} (h : munch? cs = some (lexeme, rest)) :
    cs = lexeme.text.toList ++ rest ∧ rest.length < cs.length := by
  cases cs with
  | nil => simp [munch?] at h
  | cons c cs =>
    have shorter (p : Char → Bool) : (cs.dropWhile p).length < (c :: cs).length :=
      Nat.lt_succ_of_le (List.dropWhile_sublist p).length_le
    simp only [munch?] at h
    split at h
    · cases h
      exact ⟨by rw [text_ofWord]; simp [List.takeWhile_append_dropWhile], shorter _⟩
    · split at h
      · cases h
        exact ⟨by simp [text, List.takeWhile_append_dropWhile], shorter _⟩
      · split at h
        · split at h
          · cases h
          · cases h
            exact ⟨by simp [text, List.takeWhile_append_dropWhile], shorter _⟩
        · obtain ⟨p, hp, he⟩ := Option.map_eq_some_iff.1 h
          cases he
          exact ⟨by simp [text, Punct.text, Punct.sign_of_ofChar? hp], by simp⟩

end Lexeme

structure Lexer where
  rest : List Char
  /-- Where `rest` starts. -/
  position : Position
  finished : Bool
deriving DecidableEq, Repr

namespace Lexer

def ofString (source : String) : Lexer := ⟨source.toList, .start, false⟩

def skipBlanks (x : Lexer) : Lexer :=
  { x with rest := x.rest.dropWhile isBlank, position := x.position.advance (x.rest.takeWhile isBlank) }

/-- One token off the stream, the error that ends it, or nothing at its end. -/
def next (x : Lexer) : Option (Except LexError Token) × Lexer :=
  if x.finished then (none, x)
  else
    let y := x.skipBlanks
    match y.rest with
    | [] => (none, { y with finished := true })
    | c :: cs =>
      match Lexeme.munch? (c :: cs) with
      | some (lexeme, rest) =>
        (some (.ok ⟨lexeme, y.position⟩), ⟨rest, y.position.advance lexeme.text.toList, false⟩)
      | none => (some (.error ⟨.unexpectedChar c, y.position⟩), { y with finished := true })

/-- A token takes at least a character, so a stream ends. -/
theorem rest_length_lt_of_next {x y : Lexer} {t : Token} (h : x.next = (some (.ok t), y)) :
    y.rest.length < x.rest.length := by
  unfold next at h
  split at h
  · cases h
  · dsimp only at h
    split at h
    · cases h
    · next c cs hcs =>
      split at h
      · next lexeme rest hm =>
        cases h
        have blanks : (x.rest.dropWhile isBlank).length ≤ x.rest.length :=
          (List.dropWhile_sublist isBlank).length_le
        have shorter := (Lexeme.munch?_eq_some hm).2
        rw [← hcs] at shorter
        exact Nat.lt_of_lt_of_le shorter blanks
      · cases h

end Lexer

/-- How a token stream ends: with the text, or at a character that starts no lexeme. -/
inductive Ending where
  | finished (position : Position)
  | failed (error : LexError)
deriving DecidableEq, Repr

def Ending.position : Ending → Position
  | finished position => position
  | failed e => e.position

structure Scan where
  tokens : List Token
  ending : Ending
deriving DecidableEq, Repr

def Lexer.scan (x : Lexer) : Scan :=
  match _h : x.next with
  | (some (.ok t), y) =>
    let more := y.scan
    ⟨t :: more.tokens, more.ending⟩
  | (some (.error e), _) => ⟨[], .failed e⟩
  | (none, y) => ⟨[], .finished y.position⟩
termination_by x.rest.length
decreasing_by exact Lexer.rest_length_lt_of_next ‹_›

/-- The stream after its end. -/
def Lexer.exhausted (x : Lexer) : Lexer := ⟨[], x.scan.ending.position, true⟩

theorem Lexer.scan_of_next_token {x y : Lexer} {t : Token} (h : x.next = (some (.ok t), y)) :
    x.scan = ⟨t :: y.scan.tokens, y.scan.ending⟩ := by
  rw [Lexer.scan]
  split <;> rename_i h' <;> rw [h] at h' <;> cases h'
  rfl

theorem Lexer.scan_of_next_error {x y : Lexer} {e : LexError} (h : x.next = (some (.error e), y)) :
    x.scan = ⟨[], .failed e⟩ := by
  rw [Lexer.scan]
  split <;> rename_i h' <;> rw [h] at h' <;> cases h'
  rfl

theorem Lexer.scan_of_next_none {x y : Lexer} (h : x.next = (none, y)) :
    x.scan = ⟨[], .finished y.position⟩ := by
  rw [Lexer.scan]
  split <;> rename_i h' <;> rw [h] at h' <;> cases h'
  rfl

namespace Scan

/-- What the stream yields: its tokens, then the error that ends it, if one does. -/
def items (s : Scan) : List (Except LexError Token) :=
  s.tokens.map .ok ++
    match s.ending with
    | .finished _ => []
    | .failed e => [.error e]

def ofString (source : String) : Scan := (Lexer.ofString source).scan

def complete (s : Scan) : Except LexError (List Token) :=
  match s.ending with
  | .finished _ => .ok s.tokens
  | .failed e => .error e

end Scan

def tokenize (source : String) : Except LexError (List Token) := (Scan.ofString source).complete

end ServLang

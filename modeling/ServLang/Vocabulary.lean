/-
  ServLang.Vocabulary — the fixed words and signs of the language beside its scalar
  types: six keywords and eleven punctuation characters.

  Proved: reading a keyword's or a sign's own text gives it back, and nothing else
  reads as it.
-/

namespace ServLang

inductive Keyword where
  | message | inbound | outbound | optional | required | enumeration
deriving DecidableEq, Repr

namespace Keyword

def all : List Keyword := [message, inbound, outbound, optional, required, enumeration]

def word : Keyword → String
  | message => "message"
  | inbound => "inbound"
  | outbound => "outbound"
  | optional => "optional"
  | required => "required"
  | enumeration => "enum"

def label : Keyword → String
  | message => "Message"
  | inbound => "Inbound"
  | outbound => "Outbound"
  | optional => "Optional"
  | required => "Required"
  | enumeration => "Enum"

def ofWord? (word : String) : Option Keyword := all.find? (·.word = word)

theorem mem_all (k : Keyword) : k ∈ all := by cases k <;> decide

theorem ofWord?_word (k : Keyword) : ofWord? k.word = some k := by cases k <;> decide

theorem word_of_ofWord? {word : String} {k : Keyword} (h : ofWord? word = some k) :
    k.word = word := by
  simpa using List.find?_some h

theorem ofWord?_eq_some_iff {word : String} {k : Keyword} :
    ofWord? word = some k ↔ k.word = word :=
  ⟨word_of_ofWord?, fun h => h ▸ ofWord?_word k⟩

end Keyword

inductive Punct where
  | leftBrace | rightBrace | leftParen | rightParen
  | comma | semicolon | colon | dot | less | greater | equals
deriving DecidableEq, Repr

namespace Punct

def all : List Punct :=
  [leftBrace, rightBrace, leftParen, rightParen, comma, semicolon, colon, dot, less, greater, equals]

def sign : Punct → Char
  | leftBrace => '{'
  | rightBrace => '}'
  | leftParen => '('
  | rightParen => ')'
  | comma => ','
  | semicolon => ';'
  | colon => ':'
  | dot => '.'
  | less => '<'
  | greater => '>'
  | equals => '='

def text (p : Punct) : String := String.singleton p.sign

def label : Punct → String
  | leftBrace => "LBrace"
  | rightBrace => "RBrace"
  | leftParen => "LParen"
  | rightParen => "RParen"
  | comma => "Comma"
  | semicolon => "Semicolon"
  | colon => "Colon"
  | dot => "Dot"
  | less => "Lt"
  | greater => "Gt"
  | equals => "Eq"

def ofChar? (c : Char) : Option Punct := all.find? (·.sign = c)

def ofText? (text : String) : Option Punct :=
  match text.toList with
  | [c] => ofChar? c
  | _ => none

theorem ofChar?_sign (p : Punct) : ofChar? p.sign = some p := by cases p <;> decide

theorem sign_of_ofChar? {c : Char} {p : Punct} (h : ofChar? c = some p) : p.sign = c := by
  simpa using List.find?_some h

theorem ofChar?_eq_some_iff {c : Char} {p : Punct} : ofChar? c = some p ↔ p.sign = c :=
  ⟨sign_of_ofChar?, fun h => h ▸ ofChar?_sign p⟩

end Punct

end ServLang

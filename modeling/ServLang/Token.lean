/-
  ServLang.Token — what a source consists of besides blanks. A lexeme is one word,
  integer literal or sign with its meaning; a token is a lexeme and where it starts.
  A place where no lexeme starts, or a byte that starts no character, is a lex error.

  Proved: a word is the text of the lexeme it is read as.
-/

import ServLang.Scalar
import ServLang.Text.Position
import ServLang.Text.Quoted
import ServLang.Vocabulary

namespace ServLang

inductive Lexeme where
  | keyword (k : Keyword)
  | scalar (s : Scalar)
  | identifier (name : String)
  /-- Digits after an optional `-`, as written. -/
  | integer (literal : String)
  | punct (p : Punct)
deriving DecidableEq, Repr

namespace Lexeme

def text : Lexeme → String
  | keyword k => k.word
  | scalar s => s.keyword
  | identifier name => name
  | integer literal => literal
  | punct p => p.text

/-- The lexeme of a word: a reserved word is never an identifier. -/
def ofWord (word : String) : Lexeme :=
  match Keyword.ofWord? word with
  | some k => keyword k
  | none =>
    match Scalar.ofWord? word with
    | some s => scalar s
    | none => identifier word

def kind : Lexeme → String
  | keyword k => "Keyword(" ++ k.label ++ ")"
  | scalar s => "Scalar(" ++ s.label ++ ")"
  | identifier _ => "Ident"
  | integer _ => "Integer"
  | punct p => "Punct(" ++ p.label ++ ")"

def description : Lexeme → String
  | identifier name => "identifier `" ++ name ++ "`"
  | integer literal => "integer `" ++ literal ++ "`"
  | lexeme => "`" ++ lexeme.text ++ "`"

theorem text_ofWord (word : String) : (ofWord word).text = word := by
  unfold ofWord
  split
  · next k hk => exact Keyword.word_of_ofWord? hk
  · split
    · next s hs => exact Scalar.keyword_of_ofWord? hs
    · rfl

end Lexeme

structure Token where
  lexeme : Lexeme
  position : Position
deriving DecidableEq, Repr

inductive LexFault where
  /-- No lexeme starts with this character here. -/
  | unexpectedChar (c : Char)
  /-- No character is encoded by the bytes that start here. -/
  | invalidByte (byte : UInt8)
deriving DecidableEq, Repr

def LexFault.message : LexFault → String
  | .unexpectedChar c => "unrecognized character " ++ Text.quoted c
  | .invalidByte byte =>
    "invalid UTF-8 byte 0x" ++ String.ofList (Nat.toDigits 16 (byte.toNat / 16) ++ Nat.toDigits 16 (byte.toNat % 16))

structure LexError where
  fault : LexFault
  position : Position
deriving DecidableEq, Repr

def LexError.message (e : LexError) : String := e.position.text ++ ": " ++ e.fault.message

end ServLang

/-
  ServLang.Document.ParseError — why a text is no document: it holds something that is
  no token, or a token (or its end) stands where something else was expected. Each
  error knows its place and has a message of one line.
-/

import ServLang.Token

namespace ServLang

/-- What would have been right where something else was found. -/
inductive Expected where
  | definition
  | messageName | enumerationName | fieldName | serviceName
  | enumerationValue
  | type
  /-- A name after the dot of a path. -/
  | pathPart
  | integer
  /-- An integer literal stands there, but its value needs more than 64 bits. -/
  | int64
  | keyword (k : Keyword)
  | punct (p : Punct)
deriving DecidableEq, Repr

def Expected.text : Expected → String
  | definition => "`message`, `inbound` or `outbound`"
  | messageName => "message name"
  | enumerationName => "enum name"
  | fieldName => "field name"
  | serviceName => "service name"
  | enumerationValue => "enum value name or `\x7d`"
  | type => "type"
  | pathPart => "identifier after `.`"
  | integer => "integer literal"
  | int64 => "a 64-bit integer literal"
  | keyword k => "`" ++ k.word ++ "`"
  | punct p => "`" ++ p.text ++ "`"

/-- Where reading stopped: at a token, or at the end of the text. -/
inductive Found where
  | token (t : Token)
  | endOfInput (position : Position)
deriving DecidableEq, Repr

namespace Found

def position : Found → Position
  | token t => t.position
  | endOfInput p => p

def text : Found → String
  | token t => t.lexeme.description
  | endOfInput _ => "end of input"

end Found

structure ParseError where
  expected : Expected
  found : Found
deriving DecidableEq, Repr

def ParseError.message (e : ParseError) : String :=
  e.found.position.text ++ ": expected " ++ e.expected.text ++ ", found " ++ e.found.text

inductive SourceError where
  | lex (e : LexError)
  | parse (e : ParseError)
deriving DecidableEq, Repr

namespace SourceError

/-- The error alone, as its own stage words it. -/
def cause : SourceError → String
  | lex e => e.message
  | parse e => e.message

def message (e : SourceError) : String :=
  match e with
  | lex _ => "lex error at " ++ e.cause
  | parse _ => "parse error at " ++ e.cause

end SourceError

end ServLang

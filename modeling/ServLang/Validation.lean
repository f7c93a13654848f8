/-
  ServLang.Validation — the rules a document must keep beyond its grammar, and the
  first one it breaks. In this order:

  (1) no two messages have the same path, and no two services the same name;
  (2) every path in a service's types is that of a message;
  (3) in strict checking, every path in a field's type finds a message or an
      enumeration from the message it stands in.

  Each rule looks at the whole document before the next one does, so the order of
  definitions does not decide whether a path is found. The walk that checks the first
  rule fills the table that the other two look paths up in.
-/

import ServLang.Document.Symbols

namespace ServLang

inductive Violation where
  | duplicate (key : Key)
  | unknownMessage (service path : String)
  | unknownType (message field path : String)
deriving DecidableEq, Repr

namespace Key

def word : Key → String
  | message _ => "message"
  | service _ => "service"

def name : Key → String
  | message path => path
  | service name => name

end Key

def Violation.message : Violation → String
  | duplicate key => "duplicate " ++ key.word ++ " definition `" ++ key.name ++ "`"
  | unknownMessage service path => "service `" ++ service ++ "` references unknown message `" ++ path ++ "`"
  | unknownType message field path =>
    "field `" ++ field ++ "` of message `" ++ message ++ "` references unknown type `" ++ path ++ "`"

/-- The table of definitions that repeat nothing, or else the first key they repeat. -/
def Symbols.declareDistinct (s : Symbols) : List Definition → Except Key Symbols
  | [] => .ok s
  | x :: xs =>
    match x.declare s with
    | (_, some key) => .error key
    | (t, none) => t.declareDistinct xs

def Service.violation? (symbols : Symbols) (s : Service) : Option Violation :=
  ((s.types.flatMap Ty.references).find? (!symbols.hasMessage ·)).map (Violation.unknownMessage s.name)

def Field.violation? (symbols : Symbols) (scope : String) (f : Field) : Option Violation :=
  (f.type.references.find? (!symbols.resolves scope ·)).map (Violation.unknownType scope f.name)

namespace Member

mutual

def violation? (symbols : Symbols) (scope : String) : Member → Option Violation
  | field f => f.violation? symbols scope
  | enumeration _ => none
  | message name members => firstViolation? symbols (Path.join scope name) members

/-- The first in a body, the bodies inside it at their place. -/
def firstViolation? (symbols : Symbols) (scope : String) : List Member → Option Violation
  | [] => none
  | m :: ms => m.violation? symbols scope <|> firstViolation? symbols scope ms

end

end Member

namespace Document

def serviceViolation? (symbols : Symbols) (d : Document) : Option Violation :=
  d.services.findSome? fun s => s.2.violation? symbols

def fieldViolation? (symbols : Symbols) (d : Document) : Option Violation :=
  d.messages.findSome? fun m => Member.firstViolation? symbols m.name m.members

def violation? (strict : Bool) (d : Document) : Option Violation :=
  match Symbols.empty.declareDistinct d.definitions with
  | .error key => some (.duplicate key)
  | .ok symbols =>
    d.serviceViolation? symbols <|> (if strict then d.fieldViolation? symbols else none)

/-- The document itself, if it breaks no rule. -/
def validate (strict : Bool) (d : Document) : Except Violation Document :=
  match d.violation? strict with
  | none => .ok d
  | some v => .error v

theorem validate_eq_ok_iff {strict : Bool} {d d' : Document} :
    d.validate strict = .ok d' ↔ d = d' ∧ d.violation? strict = none := by
  rw [validate]
  cases d.violation? strict <;> simp

end Document

end ServLang

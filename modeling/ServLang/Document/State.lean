/-
  ServLang.Document.State — what has been read of a document, and how one more token
  changes it.

    document    ::= (definition ";"*)*
    definition  ::= message | service
    message     ::= "message" name "{" (member ";"*)* "}"
    member      ::= field | enumeration | message
    field       ::= ("optional" | "required")? type name
    enumeration ::= "enum" name "{" (name "=" integer ";"*)* "}"
    service     ::= ("inbound" | "outbound") name "(" (type ","*)* ")" (":" type)? ";"
    type        ::= scalar | "map" "<" type "," type ">" | name ("." name)*

  A `State` holds the finished parts and the constructs they stand in. `State.shift`
  takes one more token or says what was expected instead; it never looks ahead or
  back. `map` is a name like any other unless `<` follows it, so a path is a state of
  its own until the token after it is known.
-/

import ServLang.Document.Basic
import ServLang.Document.ParseError
import ServLang.Text.Decimal

namespace ServLang

/-- Where a message can stand: at the top level of a document after its earlier
    definitions, or in the body of a message after its earlier members. -/
inductive Site where
  | document (definitions : List Definition)
  | message (outer : Site) (name : String) (members : List Member)
deriving DecidableEq, Repr

structure Body where
  outer : Site
  name : String
  members : List Member
deriving DecidableEq, Repr

namespace Body

def site (b : Body) : Site := .message b.outer b.name b.members

def add (b : Body) (m : Member) : Body := { b with members := b.members ++ [m] }

end Body

structure OpenService where
  definitions : List Definition
  direction : Direction
  name : String
  request : List Ty
deriving DecidableEq, Repr

structure OpenEnumeration where
  body : Body
  name : String
  values : List EnumValue
deriving DecidableEq, Repr

/-- What the type that is being read is for. -/
inductive Goal where
  | field (body : Body) (modifier : Modifier)
  | request (s : OpenService)
  | response (s : OpenService)
  | mapKey (outer : Goal)
  | mapValue (outer : Goal) (key : Ty)
deriving DecidableEq, Repr

/-- What has been read, except in the middle of a path. The name of each place says
    what stands before it. -/
inductive Place where
  /-- Here a definition or a member may start. -/
  | site (s : Site)
  | messageKeyword (s : Site)
  | messageName (s : Site) (name : String)
  | enumKeyword (b : Body)
  | enumName (b : Body) (name : String)
  /-- Here an enumeration value may start. -/
  | enumBody (e : OpenEnumeration)
  | enumKey (e : OpenEnumeration) (key : String)
  | enumEquals (e : OpenEnumeration) (key : String)
  /-- Here a type has to start. -/
  | goal (g : Goal)
  | pathDot (g : Goal) (path : String)
  | mapKey (g : Goal) (key : Ty)
  | mapValue (g : Goal) (key value : Ty)
  | fieldType (b : Body) (modifier : Modifier) (ty : Ty)
  | serviceKeyword (definitions : List Definition) (direction : Direction)
  | serviceName (definitions : List Definition) (direction : Direction) (name : String)
  /-- Here a request type may start. -/
  | request (s : OpenService)
  | requestEnd (s : OpenService)
  | response (s : OpenService) (ty : Ty)
deriving DecidableEq, Repr

/-- What has been read: a place, or a path that may go on. -/
inductive State where
  | place (p : Place)
  | path (g : Goal) (path : String)
deriving DecidableEq, Repr

namespace Goal

def reach : Goal → Ty → Place
  | field b modifier, ty => .fieldType b modifier ty
  | request s, ty => .request { s with request := s.request ++ [ty] }
  | response s, ty => .response s ty
  | mapKey outer, key => .mapKey outer key
  | mapValue outer key, value => .mapValue outer key value

def shift (g : Goal) : Lexeme → Except Expected State
  | .scalar s => .ok (.place (g.reach (.scalar s)))
  | .identifier name => .ok (.path g name)
  | _ => .error .type

end Goal

def Site.addMessage (s : Site) (name : String) (members : List Member) : Site :=
  match s with
  | document definitions => document (definitions ++ [.message ⟨name, members⟩])
  | message outer enclosing earlier => message outer enclosing (earlier ++ [.message name members])

def OpenService.finish (s : OpenService) (response : Option Ty) : Site :=
  .document (s.definitions ++ [.service s.direction ⟨s.name, s.request, response⟩])

def OpenEnumeration.finish (e : OpenEnumeration) : Site :=
  (e.body.add (.enumeration ⟨e.name, e.values⟩)).site

namespace Place

def shiftPunct (p : Punct) (next : Place) (lexeme : Lexeme) : Except Expected State :=
  if lexeme = .punct p then .ok (.place next) else .error (.punct p)

def shiftName (expected : Expected) (next : String → State) : Lexeme → Except Expected State
  | .identifier name => .ok (next name)
  | _ => .error expected

/-- One token at the top level. Semicolons stand after definitions only. -/
def shiftDefinition (definitions : List Definition) : Lexeme → Except Expected State
  | .keyword .message => .ok (.place (messageKeyword (.document definitions)))
  | .keyword .inbound => .ok (.place (serviceKeyword definitions .inbound))
  | .keyword .outbound => .ok (.place (serviceKeyword definitions .outbound))
  | .punct .semicolon =>
    if definitions.isEmpty then .error .definition else .ok (.place (site (.document definitions)))
  | _ => .error .definition

def shiftMember (b : Body) : Lexeme → Except Expected State
  | .punct .rightBrace => .ok (.place (site (b.outer.addMessage b.name b.members)))
  | .keyword .enumeration => .ok (.place (enumKeyword b))
  | .keyword .message => .ok (.place (messageKeyword b.site))
  | .keyword .optional => .ok (.place (goal (.field b .optional)))
  | .keyword .required => .ok (.place (goal (.field b .required)))
  | .punct .semicolon =>
    if b.members.isEmpty then .error .type else .ok (.place (site b.site))
  | lexeme => (Goal.field b .plain).shift lexeme

def shiftEnumValue (e : OpenEnumeration) : Lexeme → Except Expected State
  | .punct .rightBrace => .ok (.place (site e.finish))
  | .punct .semicolon =>
    if e.values.isEmpty then .error .enumerationValue else .ok (.place (enumBody e))
  | lexeme => shiftName .enumerationValue (fun key => .place (enumKey e key)) lexeme

def shiftInteger (e : OpenEnumeration) (key : String) : Lexeme → Except Expected State
  | .integer literal =>
    match Decimal.int64? literal.toList with
    | some value => .ok (.place (enumBody { e with values := e.values ++ [⟨key, value⟩] }))
    | none => .error .int64
  | _ => .error .integer

/-- One token between a service's parentheses. Commas stand after types only. -/
def shiftRequest (s : OpenService) : Lexeme → Except Expected State
  | .punct .rightParen => .ok (.place (requestEnd s))
  | .punct .comma => if s.request.isEmpty then .error .type else .ok (.place (request s))
  | lexeme => (Goal.request s).shift lexeme

def shiftRequestEnd (s : OpenService) : Lexeme → Except Expected State
  | .punct .colon => .ok (.place (goal (.response s)))
  | lexeme => shiftPunct .semicolon (site (s.finish none)) lexeme

def shift : Place → Lexeme → Except Expected State
  | site (.document definitions) => shiftDefinition definitions
  | site (.message outer name members) => shiftMember ⟨outer, name, members⟩
  | messageKeyword s => shiftName .messageName fun name => .place (messageName s name)
  | messageName s name => shiftPunct .leftBrace (site (.message s name []))
  | enumKeyword b => shiftName .enumerationName fun name => .place (enumName b name)
  | enumName b name => shiftPunct .leftBrace (enumBody ⟨b, name, []⟩)
  | enumBody e => shiftEnumValue e
  | enumKey e key => shiftPunct .equals (enumEquals e key)
  | enumEquals e key => shiftInteger e key
  | goal g => g.shift
  | pathDot g path => shiftName .pathPart fun name => .path g (path ++ "." ++ name)
  | mapKey g key => shiftPunct .comma (goal (.mapValue g key))
  | mapValue g key value => shiftPunct .greater (g.reach (.map key value))
  | fieldType b modifier ty =>
    shiftName .fieldName fun name => .place (site (b.add (.field ⟨modifier, ty, name⟩)).site)
  | serviceKeyword definitions direction =>
    shiftName .serviceName fun name => .place (serviceName definitions direction name)
  | serviceName definitions direction name =>
    shiftPunct .leftParen (request ⟨definitions, direction, name, []⟩)
  | request s => shiftRequest s
  | requestEnd s => shiftRequestEnd s
  | response s ty => shiftPunct .semicolon (site (s.finish (some ty)))

def finish : Place → Except Expected Document
  | site (.document definitions) => .ok ⟨definitions⟩
  | site (.message _ _ _) => .error (.punct .rightBrace)
  | messageKeyword _ => .error .messageName
  | messageName _ _ => .error (.punct .leftBrace)
  | enumKeyword _ => .error .enumerationName
  | enumName _ _ => .error (.punct .leftBrace)
  | enumBody _ => .error .enumerationValue
  | enumKey _ _ => .error (.punct .equals)
  | enumEquals _ _ => .error .integer
  | goal _ => .error .type
  | pathDot _ _ => .error .pathPart
  | mapKey _ _ => .error (.punct .comma)
  | mapValue _ _ _ => .error (.punct .greater)
  | fieldType _ _ _ => .error .fieldName
  | serviceKeyword _ _ => .error .serviceName
  | serviceName _ _ _ => .error (.punct .leftParen)
  | request _ => .error .type
  | requestEnd _ => .error (.punct .semicolon)
  | response _ _ => .error (.punct .semicolon)

end Place

namespace State

def start : State := place (.site (.document []))

def settle : State → Place
  | place p => p
  | path g p => g.reach (.reference p)

def shift (s : State) (lexeme : Lexeme) : Except Expected State :=
  match s, lexeme with
  | path g p, .punct .dot => .ok (place (.pathDot g p))
  | path g p, .punct .less =>
    if p = "map" then .ok (place (.goal (.mapKey g))) else s.settle.shift lexeme
  | _, _ => s.settle.shift lexeme

def finish (s : State) : Except Expected Document := s.settle.finish

end State

end ServLang

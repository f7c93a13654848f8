/-
  ServLang.Lint — what is likely a mistake in a document, whether or not the document
  is valid. Each finding has the path of the message or enumeration it concerns.
  Findings come in the order of the source: a body's own finding first, then member
  by member, a repeated name before what is found in the member itself.
-/

import ServLang.Document.Symbols

namespace ServLang

inductive Severity where
  | error | warning
deriving DecidableEq, Repr

def Severity.word : Severity → String
  | error => "error"
  | warning => "warning"

inductive Rule where
  | unresolvedFieldReference | duplicateMember | duplicateEnumValue | emptyMessage | emptyEnum
deriving DecidableEq, Repr

namespace Rule

def id : Rule → String
  | unresolvedFieldReference => "unresolved-field-reference"
  | duplicateMember => "duplicate-member"
  | duplicateEnumValue => "duplicate-enum-value"
  | emptyMessage => "empty-message"
  | emptyEnum => "empty-enum"

/-- Only members of one name are an error: no generated type can have both. -/
def severity : Rule → Severity
  | duplicateMember => .error
  | _ => .warning

end Rule

inductive Issue where
  | unresolvedFieldReference (field path : String)
  | duplicateMember (name : String)
  | duplicateEnumValue (key : String)
  | emptyMessage (name : String)
  | emptyEnum (name : String)
deriving DecidableEq, Repr

namespace Issue

def rule : Issue → Rule
  | unresolvedFieldReference _ _ => .unresolvedFieldReference
  | duplicateMember _ => .duplicateMember
  | duplicateEnumValue _ => .duplicateEnumValue
  | emptyMessage _ => .emptyMessage
  | emptyEnum _ => .emptyEnum

def message : Issue → String
  | unresolvedFieldReference field path =>
    "field `" ++ field ++ "` references unknown type `" ++ path ++ "`"
  | duplicateMember name => "member `" ++ name ++ "` is declared more than once"
  | duplicateEnumValue key => "enum value `" ++ key ++ "` is declared more than once"
  | emptyMessage name => "message `" ++ name ++ "` has no members"
  | emptyEnum name => "enum `" ++ name ++ "` has no values"

end Issue

structure Finding where
  path : String
  issue : Issue
deriving DecidableEq, Repr

namespace Finding

def severity (f : Finding) : Severity := f.issue.rule.severity

def text (f : Finding) : String :=
  f.path ++ ": " ++ f.severity.word ++ ": " ++ f.issue.message ++ " [" ++ f.issue.rule.id ++ "]"

def when (found : Bool) (path : String) (issue : Issue) : List Finding :=
  if found then [⟨path, issue⟩] else []

end Finding

def Field.findings (symbols : Symbols) (scope : String) (f : Field) : List Finding :=
  f.type.references.flatMap fun path =>
    Finding.when (!symbols.resolves scope path) scope (.unresolvedFieldReference f.name path)

namespace Enumeration

/-- Values whose key stands among `earlier` or before them. -/
def repeatedKeys (path : String) (earlier : List String) : List EnumValue → List Finding
  | [] => []
  | v :: vs =>
    Finding.when (earlier.contains v.key) path (.duplicateEnumValue v.key) ++
      repeatedKeys path (v.key :: earlier) vs

def findings (path : String) (e : Enumeration) : List Finding :=
  Finding.when e.values.isEmpty path (.emptyEnum e.name) ++ repeatedKeys path [] e.values

end Enumeration

namespace Member

mutual

def findings (symbols : Symbols) (scope : String) : Member → List Finding
  | field f => f.findings symbols scope
  | enumeration e => e.findings (Path.join scope e.name)
  | message name members =>
    Finding.when members.isEmpty (Path.join scope name) (.emptyMessage name) ++
      findingsAll symbols (Path.join scope name) [] members

/-- What is found in the members of the message at `scope` that come after those
    named `earlier`. -/
def findingsAll (symbols : Symbols) (scope : String) (earlier : List String) : List Member → List Finding
  | [] => []
  | m :: ms =>
    Finding.when (earlier.contains m.name) scope (.duplicateMember m.name) ++
      m.findings symbols scope ++ findingsAll symbols scope (m.name :: earlier) ms

end

end Member

def Message.findings (symbols : Symbols) (m : Message) : List Finding :=
  Finding.when m.members.isEmpty m.name (.emptyMessage m.name) ++
    Member.findingsAll symbols m.name [] m.members

def Document.lint (d : Document) : List Finding :=
  d.messages.flatMap (Message.findings (Symbols.ofDocument d))

end ServLang

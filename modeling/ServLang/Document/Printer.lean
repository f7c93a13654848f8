/-
  ServLang.Document.Printer — a document as canonical source: one line for each field,
  enumeration value and service, a message's or enumeration's body between its head
  line and a closing brace, every level one tab deeper. At the top level an empty line
  stands before and after each message.

  A body is laid out as lines with their depth first; text is made of lines last.
-/

import ServLang.Document.Basic
import ServLang.Text.Decimal

namespace ServLang

structure Line where
  depth : Nat
  content : String
deriving DecidableEq, Repr

namespace Line

def text (l : Line) : String := String.ofList (List.replicate l.depth '\t') ++ l.content

def blank : Line := ⟨0, ""⟩

end Line

def Ty.text : Ty → String
  | scalar s => s.keyword
  | map key value => "map<" ++ key.text ++ ", " ++ value.text ++ ">"
  | reference path => path

/-- What stands before a field's type, the blank after the word included. -/
def Modifier.text : Modifier → String
  | plain => ""
  | optional => "optional "
  | required => "required "

def Field.text (f : Field) : String := f.modifier.text ++ f.type.text ++ " " ++ f.name ++ ";"

def EnumValue.text (v : EnumValue) : String :=
  v.key ++ " = " ++ String.ofList (Decimal.write v.value.toInt) ++ ";"

def Enumeration.lines (depth : Nat) (e : Enumeration) : List Line :=
  ⟨depth, "enum " ++ e.name ++ " \x7b"⟩ :: e.values.map (fun v => ⟨depth + 1, v.text⟩) ++ [⟨depth, "\x7d"⟩]

namespace Member

mutual

def lines (depth : Nat) : Member → List Line
  | field f => [⟨depth, f.text⟩]
  | enumeration e => e.lines depth
  | message name members =>
    ⟨depth, "message " ++ name ++ " \x7b"⟩ :: linesAll (depth + 1) members ++ [⟨depth, "\x7d"⟩]

def linesAll (depth : Nat) : List Member → List Line
  | [] => []
  | m :: ms => m.lines depth ++ linesAll depth ms

end

end Member

def Message.lines (m : Message) : List Line := (Member.message m.name m.members).lines 0

def Ty.listText (types : List Ty) : String := ", ".intercalate (types.map Ty.text)

def Service.text (direction : Direction) (s : Service) : String :=
  direction.word ++ " " ++ s.name ++ "(" ++ Ty.listText s.request ++ ")" ++
    (match s.response with
      | some type => ": " ++ type.text
      | none => "") ++ ";"

namespace Definition

def lines : Definition → List Line
  | message m => m.lines
  | service direction s => [⟨0, s.text direction⟩]

def isMessage : Definition → Bool
  | message _ => true
  | service _ _ => false

def text (d : Definition) : String := "\n".intercalate (d.lines.map Line.text)

/-- Definitions one after the other, an empty line between two of which one is a message. -/
def layout : List Definition → List Line
  | [] => []
  | [d] => d.lines
  | d :: e :: rest =>
    d.lines ++ (if d.isMessage || e.isMessage then [Line.blank] else []) ++ layout (e :: rest)

end Definition

namespace Document

def lines (d : Document) : List Line := Definition.layout d.definitions

def text (d : Document) : String := String.join (d.lines.map fun line => line.text ++ "\n")

end Document

end ServLang

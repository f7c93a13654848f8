/-
  ServLang.Document.WellFormed — documents that a source can describe. Every name is a
  word that is not reserved, and every reference is such words with dots between. What
  the names refer to, and whether they repeat, does not matter here.
-/

import ServLang.Document.Basic
import ServLang.Document.Path
import ServLang.Token.Lexer

namespace ServLang

def isWord : List Char → Bool
  | [] => false
  | c :: cs => isWordStart c && cs.all isWordRest

/-- A word that is neither a keyword nor a scalar type. -/
def isName (text : String) : Bool :=
  isWord text.toList && (Keyword.ofWord? text).isNone && (Scalar.ofWord? text).isNone

def Path.wellFormed (path : String) : Bool := (Path.parts path.toList).all fun part => isName (String.ofList part)

def Ty.wellFormed (ty : Ty) : Bool := ty.references.all Path.wellFormed

@[simp] theorem Ty.wellFormed_reference (path : String) : (reference path).wellFormed = Path.wellFormed path :=
  Bool.and_true _

@[simp] theorem Ty.wellFormed_map (key value : Ty) :
    (map key value).wellFormed = (key.wellFormed && value.wellFormed) :=
  List.all_append

def Field.wellFormed (f : Field) : Bool := isName f.name && f.type.wellFormed

def Enumeration.wellFormed (e : Enumeration) : Bool := isName e.name && e.values.all (isName ·.key)

namespace Member

mutual

def wellFormed : Member → Bool
  | field f => f.wellFormed
  | enumeration e => e.wellFormed
  | message name members => isName name && wellFormedAll members

def wellFormedAll : List Member → Bool
  | [] => true
  | m :: ms => m.wellFormed && wellFormedAll ms

end

theorem wellFormedAll_iff {members : List Member} :
    wellFormedAll members = true ↔ ∀ m ∈ members, m.wellFormed = true := by
  induction members with
  | nil => simp [wellFormedAll]
  | cons m ms ih => simp [wellFormedAll, ih]

end Member

def Message.wellFormed (m : Message) : Bool := isName m.name && Member.wellFormedAll m.members

/-- A message is well-formed if its name and its members are. -/
theorem Message.wellFormed_iff {m : Message} :
    m.wellFormed = true ↔ isName m.name = true ∧ ∀ x ∈ m.members, x.wellFormed = true := by
  rw [wellFormed, Bool.and_eq_true, Member.wellFormedAll_iff]

def Service.wellFormed (s : Service) : Bool := isName s.name && s.types.all Ty.wellFormed

def Definition.wellFormed : Definition → Bool
  | message m => m.wellFormed
  | service _ s => s.wellFormed

/-- A message is well-formed at the top level as it is in another message. -/
theorem Definition.wellFormed_message (m : Message) :
    (message m).wellFormed = (Member.message m.name m.members).wellFormed := by
  rw [wellFormed, Message.wellFormed, Member.wellFormed]

def Document.wellFormed (d : Document) : Bool := d.definitions.all Definition.wellFormed

end ServLang

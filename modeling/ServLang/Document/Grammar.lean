/-
  ServLang.Document.Grammar — which lexemes spell which document, rule by rule and
  with no parser in sight. Semicolons may follow definitions, members and enumeration
  values, and commas may follow request types, as many as one likes; an integer
  literal has to denote a 64-bit value. Blanks and positions play no part.

  Proved: runs of items are closed under appending, under an item at the end, and
  under a separator after the last item.
-/

import ServLang.Document.Basic
import ServLang.Document.Path
import ServLang.Text.Decimal
import ServLang.Token

namespace ServLang

def Punct.times (p : Punct) (n : Nat) : List Lexeme := List.replicate n (.punct p)

/-- Items one after the other, each with any number of separators behind it. -/
inductive Separated {α : Type} (separator : Punct) (spells : α → List Lexeme → Prop) : List α → List Lexeme → Prop
  | nil : Separated separator spells [] []
  | cons {x : α} {xs : List α} {ts rest : List Lexeme} (n : Nat) : spells x ts → Separated separator spells xs rest →
      Separated separator spells (x :: xs) (ts ++ separator.times n ++ rest)

/-- `map` is no keyword: it is told by its text. -/
inductive Ty.Spelling : Ty → List Lexeme → Prop
  | scalar (s : Scalar) : Spelling (.scalar s) [.scalar s]
  | map {key value : Ty} {ks vs : List Lexeme} : Spelling key ks → Spelling value vs →
      Spelling (.map key value)
        (.identifier "map" :: .punct .less :: ks ++ .punct .comma :: vs ++ [.punct .greater])
  | name (n : String) : Spelling (.reference n) [.identifier n]
  | dotted {path : String} {ts : List Lexeme} (n : String) : Spelling (.reference path) ts →
      Spelling (.reference (Path.join path n)) (ts ++ [.punct .dot, .identifier n])

def Modifier.lexemes : Modifier → List Lexeme
  | plain => []
  | optional => [.keyword .optional]
  | required => [.keyword .required]

inductive EnumValue.Spelling : EnumValue → List Lexeme → Prop
  | assign (key literal : String) {value : Int64} : Decimal.Denotes literal.toList value.toInt →
      Spelling ⟨key, value⟩ [.identifier key, .punct .equals, .integer literal]

inductive Member.Spelling : Member → List Lexeme → Prop
  | field {ty : Ty} {ts : List Lexeme} (modifier : Modifier) (name : String) : ty.Spelling ts →
      Spelling (.field ⟨modifier, ty, name⟩) (modifier.lexemes ++ ts ++ [.identifier name])
  | enumeration {values : List EnumValue} {ts : List Lexeme} (name : String) :
      Separated .semicolon EnumValue.Spelling values ts →
      Spelling (.enumeration ⟨name, values⟩)
        (.keyword .enumeration :: .identifier name :: .punct .leftBrace :: ts ++ [.punct .rightBrace])
  | message {members : List Member} {ts : List Lexeme} (name : String) : Separated .semicolon Spelling members ts →
      Spelling (.message name members)
        (.keyword .message :: .identifier name :: .punct .leftBrace :: ts ++ [.punct .rightBrace])

def Direction.keyword : Direction → Keyword
  | inbound => .inbound
  | outbound => .outbound

inductive Service.ResponseSpelling : Option Ty → List Lexeme → Prop
  | none : ResponseSpelling .none []
  | some {ty : Ty} {ts : List Lexeme} : ty.Spelling ts → ResponseSpelling (.some ty) (.punct .colon :: ts)

inductive Definition.Spelling : Definition → List Lexeme → Prop
  | message {m : Message} {ts : List Lexeme} : (Member.message m.name m.members).Spelling ts →
      Spelling (.message m) ts
  | service {request : List Ty} {response : Option Ty} {ts rs : List Lexeme} (direction : Direction) (name : String) :
      Separated .comma Ty.Spelling request ts → Service.ResponseSpelling response rs →
      Spelling (.service direction ⟨name, request, response⟩)
        (.keyword direction.keyword :: .identifier name :: .punct .leftParen :: ts ++
          .punct .rightParen :: rs ++ [.punct .semicolon])

def Document.Spelling (d : Document) (ts : List Lexeme) : Prop :=
  Separated .semicolon Definition.Spelling d.definitions ts

namespace Separated

variable {α : Type} {separator : Punct} {spells : α → List Lexeme → Prop}

theorem append {xs ys : List α} {ts us : List Lexeme} (hx : Separated separator spells xs ts)
    (hy : Separated separator spells ys us) : Separated separator spells (xs ++ ys) (ts ++ us) := by
  induction hx with
  | nil => exact hy
  | cons n h _ ih => simpa only [List.append_assoc, List.cons_append] using cons n h ih

theorem single {x : α} {ts : List Lexeme} (h : spells x ts) : Separated separator spells [x] ts := by
  have run : Separated separator spells [x] (ts ++ separator.times 0 ++ []) := cons 0 h nil
  simpa [Punct.times] using run

theorem snoc {x : α} {xs : List α} {ts us : List Lexeme} (hxs : Separated separator spells xs ts) (hx : spells x us) :
    Separated separator spells (xs ++ [x]) (ts ++ us) :=
  hxs.append (single hx)

/-- There is always room for one more separator after the last item. -/
theorem snoc_separator {xs : List α} {ts : List Lexeme} (h : Separated separator spells xs ts) (hne : xs ≠ []) :
    Separated separator spells xs (ts ++ [.punct separator]) := by
  induction h with
  | nil => exact absurd rfl hne
  | @cons x xs ts rest n hx hxs ih =>
    cases hxs with
    | nil =>
      have more : Separated separator spells [x] (ts ++ separator.times (n + 1) ++ []) := cons (n + 1) hx nil
      simpa [Punct.times, List.replicate_succ', List.append_assoc] using more
    | cons m hy hys =>
      simpa only [List.append_assoc] using cons n hx (ih (List.cons_ne_nil _ _))

end Separated

end ServLang

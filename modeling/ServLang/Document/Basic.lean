/-
  ServLang.Document.Basic — what a source describes. A document lists messages and
  services; a message has fields, enumerations and messages of its own; a service has
  request types and at most one response type. Types refer to messages and
  enumerations by name only, so a document is a tree.

  Proved: equality of documents is decidable; what holds of a message whenever it holds
  of its members holds of every member, and likewise for the messages inside a message.
-/

import ServLang.Scalar

namespace ServLang

inductive Ty where
  | scalar (s : Scalar)
  | map (key value : Ty)
  /-- A dotted path, as written. -/
  | reference (path : String)
deriving DecidableEq, Repr

inductive Modifier where
  | plain | optional | required
deriving DecidableEq, Repr

structure Field where
  modifier : Modifier
  type : Ty
  name : String
deriving DecidableEq, Repr

structure EnumValue where
  key : String
  value : Int64
deriving DecidableEq, Repr

structure Enumeration where
  name : String
  values : List EnumValue
deriving DecidableEq, Repr

inductive Member where
  | field (f : Field)
  | enumeration (e : Enumeration)
  | message (name : String) (members : List Member)
deriving Repr

namespace Member

mutual

def decEq (a b : Member) : Decidable (a = b) :=
  match a, b with
  | field f, field g => decidable_of_iff (f = g) (by simp)
  | enumeration e, enumeration g => decidable_of_iff (e = g) (by simp)
  | message n ms, message k ns =>
    have := decEqAll ms ns
    decidable_of_iff (n = k ∧ ms = ns) (by simp)
  | field _, enumeration _ | field _, message _ _ | enumeration _, field _
  | enumeration _, message _ _ | message _ _, field _ | message _ _, enumeration _ => isFalse nofun

def decEqAll (as bs : List Member) : Decidable (as = bs) :=
  match as, bs with
  | [], [] => isTrue rfl
  | a :: as, b :: bs =>
    have := decEq a b
    have := decEqAll as bs
    decidable_of_iff (a = b ∧ as = bs) (by simp)
  | [], _ :: _ | _ :: _, [] => isFalse nofun

end

instance : DecidableEq Member := decEq

/-- From the members of a message to the message. -/
@[elab_as_elim, induction_eliminator]
theorem induct {P : Member → Prop} (field : ∀ f, P (field f)) (enumeration : ∀ e, P (enumeration e))
    (message : ∀ name members, (∀ m ∈ members, P m) → P (message name members)) : ∀ m, P m
  | .field f => field f
  | .enumeration e => enumeration e
  | .message name members => message name members fun m _ => induct field enumeration message m

end Member

structure Message where
  name : String
  members : List Member
deriving DecidableEq, Repr

structure Service where
  name : String
  request : List Ty
  response : Option Ty
deriving DecidableEq, Repr

/-- Whether the server answers the call or makes it. -/
inductive Direction where
  | inbound | outbound
deriving DecidableEq, Repr

inductive Definition where
  | message (m : Message)
  | service (direction : Direction) (s : Service)
deriving DecidableEq, Repr

structure Document where
  definitions : List Definition
deriving DecidableEq, Repr

namespace Ty

/-- Every path a type mentions, left to right. -/
def references : Ty → List String
  | scalar _ => []
  | map key value => key.references ++ value.references
  | reference path => [path]

def target : Ty → String
  | scalar s => s.target
  | map key value => "map[" ++ key.target ++ "]" ++ value.target
  | reference path => path

end Ty

def Direction.word : Direction → String
  | inbound => "inbound"
  | outbound => "outbound"

namespace Member

def name : Member → String
  | field f => f.name
  | enumeration e => e.name
  | message n _ => n

def field? : Member → Option Field
  | field f => some f
  | _ => none

def enumeration? : Member → Option Enumeration
  | enumeration e => some e
  | _ => none

def message? : Member → Option Message
  | message name members => some ⟨name, members⟩
  | _ => none

theorem field?_eq_some_iff {x : Member} {f : Field} : x.field? = some f ↔ x = .field f := by
  cases x <;> simp [field?]

theorem enumeration?_eq_some_iff {x : Member} {e : Enumeration} : x.enumeration? = some e ↔ x = .enumeration e := by
  cases x <;> simp [enumeration?]

theorem message?_eq_some_iff {x : Member} {m : Message} : x.message? = some m ↔ x = .message m.name m.members := by
  obtain ⟨name, members⟩ := m
  cases x <;> simp [message?]

end Member

namespace Message

def fields (m : Message) : List Field := m.members.filterMap Member.field?

def enumerations (m : Message) : List Enumeration := m.members.filterMap Member.enumeration?

def messages (m : Message) : List Message := m.members.filterMap Member.message?

theorem mem_fields {m : Message} {f : Field} : f ∈ m.fields ↔ .field f ∈ m.members := by
  simp [fields, Member.field?_eq_some_iff]

theorem mem_enumerations {m : Message} {e : Enumeration} : e ∈ m.enumerations ↔ .enumeration e ∈ m.members := by
  simp [enumerations, Member.enumeration?_eq_some_iff]

theorem mem_messages {m n : Message} : n ∈ m.messages ↔ .message n.name n.members ∈ m.members := by
  simp [messages, Member.message?_eq_some_iff]

/-- From the messages inside a message to the message. -/
@[elab_as_elim]
theorem induct {P : Message → Prop} (step : ∀ m : Message, (∀ n ∈ m.messages, P n) → P m) (m : Message) : P m := by
  have inside (x : Member) : ∀ n : Message, x.message? = some n → P n := by
    induction x with
    | field f => exact nofun
    | enumeration e => exact nofun
    | message name members ih =>
      intro n hn
      cases hn
      exact step ⟨name, members⟩ fun n hn => ih _ (mem_messages.1 hn) n rfl
  exact inside (.message m.name m.members) m rfl

end Message

/-- Every type a service mentions, the response last. -/
def Service.types (s : Service) : List Ty := s.request ++ s.response.toList

namespace Definition

def name : Definition → String
  | message m => m.name
  | service _ s => s.name

def message? : Definition → Option Message
  | message m => some m
  | service _ _ => none

def service? : Definition → Option (Direction × Service)
  | message _ => none
  | service d s => some (d, s)

theorem message?_eq_some_iff {x : Definition} {m : Message} : x.message? = some m ↔ x = .message m := by
  cases x <;> simp [message?]

theorem service?_eq_some_iff {x : Definition} {s : Direction × Service} :
    x.service? = some s ↔ x = .service s.1 s.2 := by
  cases x <;> simp [service?, Prod.ext_iff]

end Definition

namespace Document

def messages (d : Document) : List Message := d.definitions.filterMap Definition.message?

def services (d : Document) : List (Direction × Service) := d.definitions.filterMap Definition.service?

def message? (d : Document) (name : String) : Option Message := d.messages.find? (·.name = name)

def service? (d : Document) (name : String) : Option (Direction × Service) :=
  d.services.find? (·.2.name = name)

end Document

end ServLang

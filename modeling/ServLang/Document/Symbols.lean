/-
  ServLang.Document.Symbols — the names a document declares, and how a type's path
  finds them. A message is known by its path: its own name after the names of the
  messages around it, with dots between. An enumeration has a path in the same way;
  services are known by name.

  The table of a document is filled in one walk over it, definition by definition and
  each message before its members. A name that is in the table already is added again
  and the walk goes on; the first such name is what the walk returns beside the table.

  A path used inside a message is looked up as it stands, and then below the message
  and below each of the messages around it.

  Proved: a path resolves exactly if it, or its join with one of the scopes around the
  place where it is used, is declared; going outwards scope by scope (`search`) gives
  the same as `resolves`, which goes through the table once.
-/

import ServLang.Document.Basic
import ServLang.Document.Path

namespace ServLang

structure ScopedMember where
  scope : String
  member : Member
deriving DecidableEq, Repr

namespace Member

mutual

def descendants (scope : String) : Member → List ScopedMember
  | field _ | enumeration _ => []
  | message name members => withDescendants (Path.join scope name) members

/-- Every member of a body, each followed by the members inside it. -/
def withDescendants (scope : String) : List Member → List ScopedMember
  | [] => []
  | m :: ms => ⟨scope, m⟩ :: m.descendants scope ++ withDescendants scope ms

end

end Member

namespace ScopedMember

def messagePath? (p : ScopedMember) : Option String :=
  p.member.message?.map fun m => Path.join p.scope m.name

def enumerationPath? (p : ScopedMember) : Option String :=
  p.member.enumeration?.map fun e => Path.join p.scope e.name

end ScopedMember

namespace Message

def descendants (m : Message) : List ScopedMember := Member.withDescendants m.name m.members

def paths (m : Message) : List String := m.name :: m.descendants.filterMap ScopedMember.messagePath?

end Message

namespace Document

def messagePaths (d : Document) : List String := d.messages.flatMap Message.paths

def enumerationPaths (d : Document) : List String :=
  d.messages.flatMap fun m => m.descendants.filterMap ScopedMember.enumerationPath?

end Document

/-- What must not be declared twice. -/
inductive Key where
  | message (path : String)
  | service (name : String)
deriving DecidableEq, Repr

structure Symbols where
  messages : List String
  services : List String
  /-- The paths of messages and enumerations, spelled backwards. -/
  types : List (List Char)
deriving DecidableEq, Repr

namespace Symbols

def empty : Symbols := ⟨[], [], []⟩

def hasMessage (s : Symbols) (path : String) : Bool := s.messages.contains path

def hasService (s : Symbols) (name : String) : Bool := s.services.contains name

def declares (s : Symbols) (path : String) : Bool := s.types.contains (Path.backwards path)

/-- Whether a path used in the message at `scope` finds a message or an enumeration. -/
def resolves (s : Symbols) (scope path : String) : Bool :=
  s.types.any (Path.finds (Path.backwards scope) (Path.backwards path))

/-- Whether a path is declared below `scope` or below a message around it, looking one
    message further out at a time. -/
def searchBelow (s : Symbols) (scope path : String) : Bool :=
  if s.declares (Path.join scope path) then true
  else
    match _h : Path.outer? scope with
    | some around => s.searchBelow around path
    | none => false
termination_by scope.length
decreasing_by exact Path.length_lt_of_outer? ‹_›

def search (s : Symbols) (scope path : String) : Bool := s.declares path || s.searchBelow scope path

def addMessage (s : Symbols) (path : String) : Symbols :=
  { s with messages := path :: s.messages, types := Path.backwards path :: s.types }

def addEnumeration (s : Symbols) (path : String) : Symbols := { s with types := Path.backwards path :: s.types }

def addService (s : Symbols) (name : String) : Symbols := { s with services := name :: s.services }

/-- A message's path, then what is inside it, and the first path of both that was in the
    table before its turn. -/
def declareMessage (s : Symbols) (path : String) (inside : Symbols → Symbols × Option String) :
    Symbols × Option String :=
  let (t, repeated) := inside (s.addMessage path)
  (t, (if s.hasMessage path then some path else none) <|> repeated)

theorem hasMessage_iff {s : Symbols} {path : String} : s.hasMessage path = true ↔ path ∈ s.messages :=
  List.contains_iff_mem

theorem hasService_iff {s : Symbols} {name : String} : s.hasService name = true ↔ name ∈ s.services :=
  List.contains_iff_mem

/-- What resolving comes to, with no order of search. -/
theorem resolves_iff {s : Symbols} {scope path : String} :
    s.resolves scope path = true ↔
      s.declares path = true ∨ ∃ around ∈ Path.enclosing scope, s.declares (Path.join around path) = true := by
  simp only [resolves, declares, List.any_eq_true, List.contains_iff_mem]
  constructor
  · intro ⟨full, hfull, h⟩
    obtain ⟨full, rfl⟩ := Path.exists_backwards full
    rcases Path.finds_backwards.1 h with rfl | ⟨around, hmem, rfl⟩
    · exact Or.inl hfull
    · exact Or.inr ⟨around, hmem, hfull⟩
  · intro h
    rcases h with h | ⟨around, hmem, h⟩
    · exact ⟨_, h, Path.finds_backwards.2 (Or.inl rfl)⟩
    · exact ⟨_, h, Path.finds_backwards.2 (Or.inr ⟨around, hmem, rfl⟩)⟩

theorem searchBelow_iff {s : Symbols} {scope path : String} :
    s.searchBelow scope path = true ↔ ∃ around ∈ Path.enclosing scope, s.declares (Path.join around path) = true := by
  -- By the loop: found here, one scope further out, or no scope left.
  fun_induction searchBelow s scope path with
  | case1 scope hfound => exact iff_of_true rfl ⟨scope, Path.mem_enclosing_iff_outer?.2 (Or.inl rfl), hfound⟩
  | case2 scope hfound around houter ih =>
    rw [ih]
    constructor
    · intro ⟨outer, hmem, h⟩
      exact ⟨outer, Path.mem_enclosing_iff_outer?.2 (Or.inr ⟨around, houter, hmem⟩), h⟩
    · intro ⟨outer, hmem, h⟩
      rcases Path.mem_enclosing_iff_outer?.1 hmem with rfl | ⟨_, houter', hmem⟩
      · exact absurd h hfound
      · rw [houter] at houter'
        cases houter'
        exact ⟨outer, hmem, h⟩
  | case3 scope hfound houter =>
    refine iff_of_false Bool.false_ne_true ?_
    intro ⟨outer, hmem, h⟩
    rcases Path.mem_enclosing_iff_outer?.1 hmem with rfl | ⟨_, houter', -⟩
    · exact hfound h
    · rw [houter] at houter'
      cases houter'

/-- Comparing backwards finds what going outwards finds. -/
theorem search_eq_resolves (s : Symbols) (scope path : String) : s.search scope path = s.resolves scope path := by
  rw [Bool.eq_iff_iff, resolves_iff, search, Bool.or_eq_true, searchBelow_iff]

end Symbols

namespace Member

mutual

def declare (scope : String) (s : Symbols) : Member → Symbols × Option String
  | field _ => (s, none)
  | enumeration e => (s.addEnumeration (Path.join scope e.name), none)
  | message name members =>
    s.declareMessage (Path.join scope name) fun t => declareAll (Path.join scope name) t members

/-- A repeated path does not keep the members after it from being added. -/
def declareAll (scope : String) (s : Symbols) : List Member → Symbols × Option String
  | [] => (s, none)
  | m :: ms =>
    let (t, repeated) := m.declare scope s
    let (u, later) := declareAll scope t ms
    (u, repeated <|> later)

end

end Member

def Definition.declare (s : Symbols) : Definition → Symbols × Option Key
  | message m =>
    let (t, repeated) := s.declareMessage m.name fun t => Member.declareAll m.name t m.members
    (t, repeated.map Key.message)
  | service _ sv => (s.addService sv.name, if s.hasService sv.name then some (.service sv.name) else none)

/-- The names of a document, whether or not they repeat. -/
def Symbols.ofDocument (d : Document) : Symbols := d.definitions.foldl (fun s x => (x.declare s).1) .empty

end ServLang

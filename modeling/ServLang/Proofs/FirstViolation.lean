/-
  ServLang.Proofs.FirstViolation — validation against the rules as they read. Each rule
  is about one kind of thing all over the document: nothing repeats among the keys, what
  a service mentions is the path of a message, what a field mentions finds a declaration
  from the message it stands in.

  A violation is the first of its kind by the place where it stands, and a rule is looked
  at only if the rules before it are kept. How the checker goes about it (a table that
  grows along the walk, three walks of different shapes, types flattened into lists,
  paths compared backwards) does not show.

  Proved: validation refuses a document with its first violation, and hands it back
  unchanged exactly if there is none (`validate_first_violation`); there is none exactly
  if every rule is kept (`violation?_eq_none_iff_valid`).
-/

import ServLang.Proofs.Mentions

namespace ServLang

/-! ## The rules -/

namespace Document

def Declares (d : Document) (path : String) : Prop := path ∈ d.messagePaths ∨ path ∈ d.enumerationPaths

/-- A path used in the message at `scope` is declared, or its join with that message or
    with one around it is. -/
def Finds (d : Document) (scope path : String) : Prop :=
  d.Declares path ∨
    ∃ around, (around = scope ∨ ∃ rest, scope = Path.join around rest) ∧ d.Declares (Path.join around path)

inductive FirstViolation (strict : Bool) (d : Document) : Violation → Prop
  | duplicate {before after : List Key} {k : Key} : d.keys = before ++ k :: after → before.Nodup → k ∈ before →
      FirstViolation strict d (.duplicate k)
  | unknownMessage {r : ServiceReference} : d.keys.Nodup →
      FirstAt d.ServiceMentions (fun r => r.path ∉ d.messagePaths) r →
      FirstViolation strict d (.unknownMessage r.service r.path)
  | unknownType {r : FieldReference} : strict = true → d.keys.Nodup →
      (∀ place r, d.ServiceMentions place r → r.path ∈ d.messagePaths) →
      FirstAt d.FieldMentions (fun r => ¬ d.Finds r.message r.path) r →
      FirstViolation strict d (.unknownType r.message r.field r.path)

structure Valid (strict : Bool) (d : Document) : Prop where
  distinct : d.keys.Nodup
  services : ∀ place r, d.ServiceMentions place r → r.path ∈ d.messagePaths
  fields : strict = true → ∀ place r, d.FieldMentions place r → d.Finds r.message r.path

end Document

/-! ## What the look-ups find -/

theorem Path.mem_enclosing_iff_join {around scope : String} :
    around ∈ enclosing scope ↔ around = scope ∨ ∃ rest, scope = join around rest := by
  rw [mem_enclosing]
  refine or_congr Iff.rfl ⟨?_, ?_⟩
  · rintro ⟨rest, h⟩
    refine ⟨String.ofList rest, String.toList_inj.1 ?_⟩
    simp [join, h]
  · rintro ⟨rest, h⟩
    exact ⟨rest.toList, by simp [h, join]⟩

/-- The look-up against the rule. -/
theorem Document.resolves_ofDocument {d : Document} {scope path : String} :
    (Symbols.ofDocument d).resolves scope path = true ↔ d.Finds scope path := by
  rw [Symbols.resolves_iff, declares_ofDocument]
  refine or_congr Iff.rfl (exists_congr fun around => ?_)
  rw [Path.mem_enclosing_iff_join, declares_ofDocument]
  rfl

/-! ## The walks over the references -/

def Violation.ofService (r : ServiceReference) : Violation := .unknownMessage r.service r.path

def Violation.ofField (r : FieldReference) : Violation := .unknownType r.message r.field r.path

theorem Service.violation?_eq (symbols : Symbols) (s : Service) :
    s.violation? symbols = (s.references.find? (!symbols.hasMessage ·.path)).map Violation.ofService := by
  rw [violation?, references, List.find?_map, Option.map_map]
  rfl

theorem Field.violation?_eq (symbols : Symbols) (scope : String) (f : Field) :
    f.violation? symbols scope =
      ((ScopedMember.mk scope (.field f)).references.find? fun r => !symbols.resolves r.message r.path).map
        Violation.ofField := by
  rw [violation?, ScopedMember.references, List.find?_map, Option.map_map]
  rfl

def ScopedMember.unresolved? (symbols : Symbols) (ps : List ScopedMember) : Option Violation :=
  ((ps.flatMap references).find? fun r => !symbols.resolves r.message r.path).map Violation.ofField

theorem ScopedMember.unresolved?_append (symbols : Symbols) (ps qs : List ScopedMember) :
    unresolved? symbols (ps ++ qs) = (unresolved? symbols ps <|> unresolved? symbols qs) := by
  rw [unresolved?, List.flatMap_append, List.find?_append, Option.map_or, Option.or_eq_orElse]
  rfl

namespace Member

theorem firstViolation?_eq_of_forall {symbols : Symbols} {scope : String} {ms : List Member}
    (h : ∀ m ∈ ms, m.violation? symbols scope =
      ScopedMember.unresolved? symbols (⟨scope, m⟩ :: m.descendants scope)) :
    firstViolation? symbols scope ms = ScopedMember.unresolved? symbols (withDescendants scope ms) := by
  induction ms with
  | nil => rfl
  | cons m ms ih =>
    rw [firstViolation?, withDescendants, ScopedMember.unresolved?_append, h m List.mem_cons_self,
      ih fun n hn => h n (List.mem_cons_of_mem _ hn)]

/-- The walk over a member looks at the references of what is inside it in pre-order. -/
theorem violation?_eq (symbols : Symbols) (m : Member) (scope : String) :
    m.violation? symbols scope = ScopedMember.unresolved? symbols (⟨scope, m⟩ :: m.descendants scope) := by
  induction m generalizing scope with
  | field f =>
    rw [violation?, Field.violation?_eq, descendants, ScopedMember.unresolved?, List.flatMap_cons, List.flatMap_nil,
      List.append_nil]
  | enumeration e => rfl
  | message name members ih =>
    rw [violation?, firstViolation?_eq_of_forall fun m hm => ih m hm _]
    rfl

theorem firstViolation?_eq (symbols : Symbols) (scope : String) (ms : List Member) :
    firstViolation? symbols scope ms = ScopedMember.unresolved? symbols (withDescendants scope ms) :=
  firstViolation?_eq_of_forall fun m _ => m.violation?_eq symbols scope

end Member

namespace Document

theorem serviceViolation?_eq (symbols : Symbols) (d : Document) :
    d.serviceViolation? symbols =
      (d.serviceReferences.find? (!symbols.hasMessage ·.path)).map Violation.ofService := by
  rw [serviceViolation?, serviceReferences, List.find?_flatMap, List.map_findSome?]
  congr
  funext s
  exact Service.violation?_eq symbols s.2

theorem fieldViolation?_eq (symbols : Symbols) (d : Document) :
    d.fieldViolation? symbols =
      (d.fieldReferences.find? fun r => !symbols.resolves r.message r.path).map Violation.ofField := by
  rw [fieldViolation?, fieldReferences, List.find?_flatMap, List.map_findSome?]
  congr
  funext m
  exact Member.firstViolation?_eq symbols m.name m.members

/-! ## The first violation -/

theorem not_hasMessage_iff {d : Document} {path : String} :
    (!(Symbols.ofDocument d).hasMessage path) = true ↔ path ∉ d.messagePaths := by
  rw [Bool.not_eq_true', ← Bool.not_eq_true, hasMessage_ofDocument]

theorem not_resolves_iff {d : Document} {scope path : String} :
    (!(Symbols.ofDocument d).resolves scope path) = true ↔ ¬ d.Finds scope path := by
  rw [Bool.not_eq_true', ← Bool.not_eq_true, resolves_ofDocument]

theorem firstRepeat?_keys_eq_some_iff {d : Document} {k : Key} :
    firstRepeat? [] d.keys = some k ↔ ∃ before after, d.keys = before ++ k :: after ∧ before.Nodup ∧ k ∈ before := by
  simp [firstRepeat?_eq_some_iff, firstRepeat?_eq_none_iff]

theorem firstRepeat?_keys_eq_none_iff {d : Document} : firstRepeat? [] d.keys = none ↔ d.keys.Nodup := by
  simp [firstRepeat?_eq_none_iff]

/-- The second rule, by places. -/
theorem serviceViolation?_eq_some_iff {d : Document} {v : Violation} :
    d.serviceViolation? (Symbols.ofDocument d) = some v ↔
      ∃ r, FirstAt d.ServiceMentions (fun r => r.path ∉ d.messagePaths) r ∧ Violation.ofService r = v := by
  rw [serviceViolation?_eq, Option.map_eq_some_iff]
  exact exists_congr fun r =>
    and_congr (d.serviceReferences_listed.find?_eq_some_iff fun r => not_hasMessage_iff) Iff.rfl

theorem serviceViolation?_eq_none_iff {d : Document} :
    d.serviceViolation? (Symbols.ofDocument d) = none ↔
      ∀ place r, d.ServiceMentions place r → r.path ∈ d.messagePaths := by
  rw [serviceViolation?_eq, Option.map_eq_none_iff]
  exact d.serviceReferences_listed.find?_eq_none_iff fun r => not_hasMessage_iff

/-- The third rule, by places. -/
theorem fieldViolation?_eq_some_iff {d : Document} {v : Violation} :
    d.fieldViolation? (Symbols.ofDocument d) = some v ↔
      ∃ r, FirstAt d.FieldMentions (fun r => ¬ d.Finds r.message r.path) r ∧ Violation.ofField r = v := by
  rw [fieldViolation?_eq, Option.map_eq_some_iff]
  exact exists_congr fun r => and_congr (d.fieldReferences_listed.find?_eq_some_iff fun r => not_resolves_iff) Iff.rfl

theorem fieldViolation?_eq_none_iff {d : Document} :
    d.fieldViolation? (Symbols.ofDocument d) = none ↔
      ∀ place r, d.FieldMentions place r → d.Finds r.message r.path := by
  rw [fieldViolation?_eq, Option.map_eq_none_iff]
  exact d.fieldReferences_listed.find?_eq_none_iff fun r => not_resolves_iff

/-- The rules in their order, over one table. -/
theorem violation?_eq (strict : Bool) (d : Document) :
    d.violation? strict =
      (((firstRepeat? [] d.keys).map Violation.duplicate).or
        ((d.serviceViolation? (Symbols.ofDocument d)).or
          (if strict then d.fieldViolation? (Symbols.ofDocument d) else none))) := by
  rw [violation?, declareDistinct_definitions]
  cases firstRepeat? [] d.keys with
  | some k => rfl
  | none =>
    show (_ <|> _) = _
    rw [Option.map_none, Option.none_or, Option.or_eq_orElse]
    rfl

/-- The three walks one after the other against the rules. -/
theorem violation?_eq_some_iff {strict : Bool} {d : Document} {v : Violation} :
    d.violation? strict = some v ↔ d.FirstViolation strict v := by
  rw [violation?_eq, Option.or_eq_some_iff, Option.or_eq_some_iff, Option.map_eq_some_iff, Option.map_eq_none_iff,
    firstRepeat?_keys_eq_none_iff, serviceViolation?_eq_some_iff, serviceViolation?_eq_none_iff]
  constructor
  · intro h
    rcases h with ⟨k, hk, rfl⟩ | ⟨hdistinct, ⟨r, hr, rfl⟩ | ⟨hservices, hfields⟩⟩
    · obtain ⟨before, after, hsplit, hnodup, hmem⟩ := firstRepeat?_keys_eq_some_iff.1 hk
      exact .duplicate hsplit hnodup hmem
    · exact .unknownMessage hdistinct hr
    · by_cases hstrict : strict = true
      · rw [if_pos hstrict] at hfields
        obtain ⟨r, hr, rfl⟩ := fieldViolation?_eq_some_iff.1 hfields
        exact .unknownType hstrict hdistinct hservices hr
      · rw [if_neg hstrict] at hfields
        cases hfields
  · intro h
    cases h with
    | duplicate hsplit hnodup hmem =>
      exact Or.inl ⟨_, firstRepeat?_keys_eq_some_iff.2 ⟨_, _, hsplit, hnodup, hmem⟩, rfl⟩
    | unknownMessage hdistinct hr => exact Or.inr ⟨hdistinct, Or.inl ⟨_, hr, rfl⟩⟩
    | unknownType hstrict hdistinct hservices hr =>
      refine Or.inr ⟨hdistinct, Or.inr ⟨hservices, ?_⟩⟩
      rw [if_pos hstrict]
      exact fieldViolation?_eq_some_iff.2 ⟨_, hr, rfl⟩

theorem violation?_eq_none_iff {strict : Bool} {d : Document} :
    d.violation? strict = none ↔ ∀ v, ¬ d.FirstViolation strict v := by
  rw [Option.eq_none_iff_forall_ne_some]
  exact forall_congr' fun v => not_congr violation?_eq_some_iff

/-- No first violation, no violation at all. -/
theorem violation?_eq_none_iff_valid {strict : Bool} {d : Document} : d.violation? strict = none ↔ d.Valid strict := by
  rw [violation?_eq, Option.or_eq_none_iff, Option.or_eq_none_iff, Option.map_eq_none_iff,
    firstRepeat?_keys_eq_none_iff, serviceViolation?_eq_none_iff]
  constructor
  · intro ⟨distinct, services, h⟩
    refine ⟨distinct, services, fun hstrict => ?_⟩
    rwa [if_pos hstrict, fieldViolation?_eq_none_iff] at h
  · intro h
    refine ⟨h.distinct, h.services, ?_⟩
    split
    · next hstrict => exact fieldViolation?_eq_none_iff.2 (h.fields hstrict)
    · rfl

/-- Validation refuses a document with its first violation, and hands it back unchanged if
    there is none. -/
theorem validate_first_violation (strict : Bool) (d : Document) :
    (∀ v, d.validate strict = .error v ↔ d.FirstViolation strict v) ∧
      ∀ d', d.validate strict = .ok d' ↔ d' = d ∧ ∀ v, ¬ d.FirstViolation strict v := by
  refine ⟨?_, ?_⟩
  · intro v
    rw [← violation?_eq_some_iff, validate]
    cases d.violation? strict with
    | none => simp
    | some w => simp
  · intro d'
    rw [← violation?_eq_none_iff, validate]
    cases d.violation? strict with
    | none => simp [eq_comm]
    | some w => simp

end Document

end ServLang

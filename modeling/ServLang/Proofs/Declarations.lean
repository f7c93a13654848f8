/-
  ServLang.Proofs.Declarations — what the walk over a document leaves in its table, and
  the repeated name it reports.

  The walk over a message is that over the list of its members at any depth, each before
  what is inside it: a repeated path is added once more and the walk goes on, so that
  the table after a message is the same whether or not something repeats, and of two
  repeated paths the one that comes first in that list is reported.

  Proved: the walk over a body is the walk over its members in pre-order
  (`declareAll_eq`); the table holds exactly the paths of the document
  (`declares_ofDocument`); a document is declared without an error exactly if no key of
  it repeats, and the error is the first repeated key otherwise (`declareDistinct_eq`).
-/

import ServLang.Validation

namespace ServLang

/-! ## The first repeated element of a list -/

/-- The first element that stands among `seen` or earlier in the list. -/
def firstRepeat? {α : Type} [DecidableEq α] (seen : List α) : List α → Option α
  | [] => none
  | x :: xs => if x ∈ seen then some x else firstRepeat? (x :: seen) xs

section FirstRepeat

variable {α β : Type} [DecidableEq α] [DecidableEq β] {seen xs : List α}

theorem firstRepeat?_append (seen xs ys : List α) :
    firstRepeat? seen (xs ++ ys) = (firstRepeat? seen xs <|> firstRepeat? (xs.reverse ++ seen) ys) := by
  induction xs generalizing seen with
  | nil => rfl
  | cons x xs ih =>
    rw [List.cons_append, firstRepeat?, firstRepeat?]
    split
    · rfl
    · rw [ih, List.reverse_cons, List.append_assoc, List.singleton_append]

/-- What is seen matters by its elements only. -/
theorem firstRepeat?_map {f : α → β} (hf : ∀ x ∈ xs, ∀ y ∈ xs, f x = f y → x = y) {seen' : List β}
    (h : ∀ x ∈ xs, f x ∈ seen' ↔ x ∈ seen) : firstRepeat? seen' (xs.map f) = (firstRepeat? seen xs).map f := by
  induction xs generalizing seen seen' with
  | nil => rfl
  | cons x xs ih =>
    rw [List.map_cons, firstRepeat?, firstRepeat?]
    by_cases hx : x ∈ seen
    · rw [if_pos hx, if_pos ((h x List.mem_cons_self).2 hx), Option.map_some]
    · rw [if_neg hx, if_neg fun hmem => hx ((h x List.mem_cons_self).1 hmem)]
      apply ih
      · intro y hy z hz
        exact hf y (List.mem_cons_of_mem _ hy) z (List.mem_cons_of_mem _ hz)
      · intro y hy
        rw [List.mem_cons, List.mem_cons, h y (List.mem_cons_of_mem _ hy)]
        exact or_congr ⟨hf y (List.mem_cons_of_mem _ hy) x List.mem_cons_self, congrArg f⟩ Iff.rfl

theorem firstRepeat?_congr {seen' : List α} (h : ∀ x, x ∈ seen' ↔ x ∈ seen) :
    firstRepeat? seen' xs = firstRepeat? seen xs := by
  have hmap : firstRepeat? seen' (xs.map id) = (firstRepeat? seen xs).map id :=
    firstRepeat?_map (fun _ _ _ _ => id) fun x _ => h x
  rwa [List.map_id, Option.map_id_fun, id] at hmap

/-- Without a first repeat nothing repeats. -/
theorem firstRepeat?_eq_none_iff : firstRepeat? seen xs = none ↔ xs.Nodup ∧ ∀ x ∈ xs, x ∉ seen := by
  induction xs generalizing seen with
  | nil => simp [firstRepeat?]
  | cons x xs ih =>
    rw [firstRepeat?, List.nodup_cons]
    by_cases hx : x ∈ seen
    · simp [hx]
    · rw [if_neg hx, ih]
      constructor
      · intro ⟨hxs, hall⟩
        refine ⟨⟨fun hmem => hall x hmem List.mem_cons_self, hxs⟩, ?_⟩
        intro y hy hmem
        rcases List.mem_cons.1 hy with rfl | hy
        · exact hx hmem
        · exact hall y hy (List.mem_cons_of_mem _ hmem)
      · intro ⟨⟨hnot, hxs⟩, hall⟩
        refine ⟨hxs, ?_⟩
        intro y hy hmem
        rcases List.mem_cons.1 hmem with rfl | hmem
        · exact hnot hy
        · exact hall y (List.mem_cons_of_mem _ hy) hmem

/-- The list splits at it: nothing repeats before. -/
theorem firstRepeat?_eq_some_iff {x : α} :
    firstRepeat? seen xs = some x ↔
      ∃ before after, xs = before ++ x :: after ∧ firstRepeat? seen before = none ∧
        (x ∈ seen ∨ x ∈ before) := by
  induction xs generalizing seen with
  | nil => simp [firstRepeat?]
  | cons y ys ih =>
    rw [firstRepeat?]
    by_cases hy : y ∈ seen
    · rw [if_pos hy]
      constructor
      · intro h
        cases h
        exact ⟨[], ys, rfl, rfl, Or.inl hy⟩
      · intro ⟨before, after, hsplit, hnone, _⟩
        cases before with
        | nil => exact congrArg some (List.cons.inj hsplit).1
        | cons z before =>
          obtain ⟨rfl, rfl⟩ := List.cons.inj hsplit
          rw [firstRepeat?, if_pos hy] at hnone
          cases hnone
    -- What was seen goes on with `y`, which the parts in front then start with.
    · rw [if_neg hy, ih]
      have hseen (before : List α) : x ∈ y :: seen ∨ x ∈ before ↔ x ∈ seen ∨ x ∈ y :: before := by
        rw [List.mem_cons, List.mem_cons, or_left_comm, or_assoc]
      constructor
      · intro ⟨before, after, hsplit, hnone, hx⟩
        refine ⟨y :: before, after, congrArg (y :: ·) hsplit, ?_, (hseen before).1 hx⟩
        rwa [firstRepeat?, if_neg hy]
      · intro ⟨before, after, hsplit, hnone, hx⟩
        cases before with
        | nil =>
          obtain ⟨rfl, rfl⟩ := List.cons.inj hsplit
          exact absurd (hx.resolve_right List.not_mem_nil) hy
        | cons z before =>
          obtain ⟨rfl, rfl⟩ := List.cons.inj hsplit
          rw [firstRepeat?, if_neg hy] at hnone
          exact ⟨before, after, rfl, hnone, (hseen before).2 hx⟩

end FirstRepeat

/-! ## The walk over a message -/

namespace Symbols

def add (s : Symbols) (p : ScopedMember) : Symbols × Option String :=
  match p.member with
  | .field _ => (s, none)
  | .enumeration e => (s.addEnumeration (Path.join p.scope e.name), none)
  | .message name _ =>
    let path := Path.join p.scope name
    (s.addMessage path, if s.hasMessage path then some path else none)

/-- The table after a list of members, and the first path that was there before its turn. -/
def addAll (s : Symbols) : List ScopedMember → Symbols × Option String
  | [] => (s, none)
  | p :: ps => (((s.add p).1.addAll ps).1, (s.add p).2 <|> ((s.add p).1.addAll ps).2)

theorem addAll_append (s : Symbols) (ps qs : List ScopedMember) :
    s.addAll (ps ++ qs) =
      (((s.addAll ps).1.addAll qs).1, (s.addAll ps).2 <|> ((s.addAll ps).1.addAll qs).2) := by
  induction ps generalizing s with
  | nil => rfl
  | cons p ps ih =>
    rw [List.cons_append, addAll, addAll, ih]
    cases (s.add p).2 <;> rfl

end Symbols

namespace Member

/-- The walk over a body is the walk over its members at any depth. -/
theorem declareAll_eq_of_forall {scope : String} {ms : List Member}
    (h : ∀ m ∈ ms, ∀ s, m.declare scope s = s.addAll (⟨scope, m⟩ :: m.descendants scope)) (s : Symbols) :
    declareAll scope s ms = s.addAll (withDescendants scope ms) := by
  induction ms generalizing s with
  | nil => rfl
  | cons m ms ih =>
    rw [declareAll, withDescendants, Symbols.addAll_append, h m List.mem_cons_self,
      ← ih fun n hn => h n (List.mem_cons_of_mem _ hn)]

theorem declare_eq (m : Member) (scope : String) (s : Symbols) :
    m.declare scope s = s.addAll (⟨scope, m⟩ :: m.descendants scope) := by
  induction m generalizing scope s with
  | field f => rfl
  | enumeration e => rfl
  | message name members ih =>
    rw [declare, Symbols.declareMessage, descendants, Symbols.addAll, Symbols.add,
      declareAll_eq_of_forall fun m hm s => ih m hm _ s]

theorem declareAll_eq (scope : String) (s : Symbols) (ms : List Member) :
    declareAll scope s ms = s.addAll (withDescendants scope ms) :=
  declareAll_eq_of_forall (fun m _ s => m.declare_eq scope s) s

end Member

/-! ## The table after a walk -/

theorem ScopedMember.paths_cons (p : ScopedMember) (ps : List ScopedMember) :
    (p :: ps).filterMap messagePath? = p.messagePath?.toList ++ ps.filterMap messagePath? := by
  rw [List.filterMap_cons]
  cases p.messagePath? <;> rfl

namespace Symbols

theorem add_messages (s : Symbols) (p : ScopedMember) :
    (s.add p).1.messages = p.messagePath?.toList ++ s.messages := by
  obtain ⟨scope, m⟩ := p
  cases m <;> rfl

theorem add_services (s : Symbols) (p : ScopedMember) : (s.add p).1.services = s.services := by
  obtain ⟨scope, m⟩ := p
  cases m <;> rfl

theorem add_repeat (s : Symbols) (p : ScopedMember) :
    (s.add p).2 = firstRepeat? s.messages p.messagePath?.toList := by
  obtain ⟨scope, m⟩ := p
  cases m with
  | field f => rfl
  | enumeration e => rfl
  | message name members => simp [add, hasMessage, ScopedMember.messagePath?, Member.message?, firstRepeat?]

theorem addAll_messages (s : Symbols) (ps : List ScopedMember) :
    (s.addAll ps).1.messages = (ps.filterMap ScopedMember.messagePath?).reverse ++ s.messages := by
  induction ps generalizing s with
  | nil => rfl
  | cons p ps ih =>
    rw [addAll, ih, add_messages, ScopedMember.paths_cons, List.reverse_append, List.append_assoc]
    cases p.messagePath? <;> rfl

theorem addAll_services (s : Symbols) (ps : List ScopedMember) : (s.addAll ps).1.services = s.services := by
  induction ps generalizing s with
  | nil => rfl
  | cons p ps ih => rw [addAll, ih, add_services]

/-- A repeated path is in the table after its turn as well, so that it is reported whatever
    comes later. -/
theorem addAll_repeat (s : Symbols) (ps : List ScopedMember) :
    (s.addAll ps).2 = firstRepeat? s.messages (ps.filterMap ScopedMember.messagePath?) := by
  induction ps generalizing s with
  | nil => rfl
  | cons p ps ih =>
    rw [addAll, ih, add_repeat, add_messages, ScopedMember.paths_cons, firstRepeat?_append]
    cases p.messagePath? <;> rfl

theorem declares_addMessage {s : Symbols} {path path' : String} :
    (s.addMessage path).declares path' = true ↔ path = path' ∨ s.declares path' = true := by
  rw [declares, declares, List.contains_iff_mem, List.contains_iff_mem, addMessage, List.mem_cons,
    Path.backwards_inj, eq_comm]

theorem declares_addEnumeration {s : Symbols} {path path' : String} :
    (s.addEnumeration path).declares path' = true ↔ path = path' ∨ s.declares path' = true := by
  rw [declares, declares, List.contains_iff_mem, List.contains_iff_mem, addEnumeration, List.mem_cons,
    Path.backwards_inj, eq_comm]

theorem declares_add {s : Symbols} {p : ScopedMember} {path : String} :
    (s.add p).1.declares path = true ↔
      p.messagePath? = some path ∨ p.enumerationPath? = some path ∨ s.declares path = true := by
  obtain ⟨scope, m⟩ := p
  cases m with
  | field f => simp [add, ScopedMember.messagePath?, ScopedMember.enumerationPath?, Member.message?,
      Member.enumeration?]
  | enumeration e => simp [add, declares_addEnumeration, ScopedMember.messagePath?,
      ScopedMember.enumerationPath?, Member.message?, Member.enumeration?]
  | message name members => simp [add, declares_addMessage, ScopedMember.messagePath?,
      ScopedMember.enumerationPath?, Member.message?, Member.enumeration?]

/-- What is in the table after a walk was there before or was added on it. -/
theorem declares_addAll {s : Symbols} {ps : List ScopedMember} {path : String} :
    (s.addAll ps).1.declares path = true ↔
      (∃ p ∈ ps, p.messagePath? = some path ∨ p.enumerationPath? = some path) ∨ s.declares path = true := by
  induction ps generalizing s with
  | nil => simp [addAll]
  | cons p ps ih =>
    rw [addAll, ih, declares_add]
    constructor
    · intro h
      rcases h with ⟨q, hq, h⟩ | h | h | h
      · exact Or.inl ⟨q, List.mem_cons_of_mem _ hq, h⟩
      · exact Or.inl ⟨p, List.mem_cons_self, Or.inl h⟩
      · exact Or.inl ⟨p, List.mem_cons_self, Or.inr h⟩
      · exact Or.inr h
    · intro h
      rcases h with ⟨q, hq, h⟩ | h
      · rcases List.mem_cons.1 hq with rfl | hq
        · exact Or.inr (h.elim Or.inl fun h => Or.inr (Or.inl h))
        · exact Or.inl ⟨q, hq, h⟩
      · exact Or.inr (Or.inr (Or.inr h))

end Symbols

/-! ## The walk over a document -/

def Definition.keys : Definition → List Key
  | message m => m.paths.map Key.message
  | service _ s => [Key.service s.name]

/-- Everything that is declared, in the order of the source. -/
def Document.keys (d : Document) : List Key := d.definitions.flatMap Definition.keys

def Symbols.keys (s : Symbols) : List Key := s.messages.map Key.message ++ s.services.map Key.service

namespace Symbols

theorem message_mem_keys {s : Symbols} {path : String} : Key.message path ∈ s.keys ↔ path ∈ s.messages := by
  simp [keys]

theorem service_mem_keys {s : Symbols} {name : String} : Key.service name ∈ s.keys ↔ name ∈ s.services := by
  simp [keys]

end Symbols

namespace Definition

theorem declare_message (s : Symbols) (m : Message) :
    (message m).declare s =
      (((s.addMessage m.name).addAll m.descendants).1, firstRepeat? s.keys (message m).keys) := by
  have hinside : firstRepeat? s.messages m.paths =
      ((if s.hasMessage m.name then some m.name else none) <|> ((s.addMessage m.name).addAll m.descendants).2) := by
    rw [Symbols.addAll_repeat, Message.paths, firstRepeat?]
    by_cases h : m.name ∈ s.messages
    · rw [if_pos h, if_pos (Symbols.hasMessage_iff.2 h)]
      rfl
    · rw [if_neg h, if_neg (mt Symbols.hasMessage_iff.1 h)]
      rfl
  rw [declare, Symbols.declareMessage, Member.declareAll_eq, keys,
    firstRepeat?_map (fun _ _ _ _ => Key.message.inj) fun _ _ => Symbols.message_mem_keys, hinside]
  rfl

theorem declare_service (s : Symbols) (direction : Direction) (sv : Service) :
    (service direction sv).declare s =
      (s.addService sv.name, firstRepeat? s.keys (service direction sv).keys) := by
  rw [declare, keys, firstRepeat?, firstRepeat?]
  by_cases h : sv.name ∈ s.services
  · rw [if_pos (Symbols.service_mem_keys.2 h), if_pos (Symbols.hasService_iff.2 h)]
  · rw [if_neg (mt Symbols.service_mem_keys.1 h), if_neg (mt Symbols.hasService_iff.1 h)]

/-- A definition reports its first key that repeats one of the table or of its own. -/
theorem declare_repeat (s : Symbols) (x : Definition) : (x.declare s).2 = firstRepeat? s.keys x.keys := by
  cases x with
  | message m => rw [declare_message]
  | service direction sv => rw [declare_service]

theorem mem_keys_declare {s : Symbols} {x : Definition} {k : Key} :
    k ∈ (x.declare s).1.keys ↔ k ∈ x.keys ∨ k ∈ s.keys := by
  cases x with
  | message m =>
    rw [declare_message, Symbols.keys, Symbols.addAll_messages, Symbols.addAll_services, keys, Message.paths,
      Symbols.keys]
    cases k <;> simp [Symbols.addMessage, or_left_comm, or_assoc]
  | service direction sv =>
    rw [declare_service, Symbols.keys, keys, Symbols.keys]
    cases k <;> simp [Symbols.addService]

def Declares (x : Definition) (path : String) : Prop :=
  ∃ m, x.message? = some m ∧ (path ∈ m.paths ∨ path ∈ m.descendants.filterMap ScopedMember.enumerationPath?)

theorem declares_declare {s : Symbols} {x : Definition} {path : String} :
    (x.declare s).1.declares path = true ↔ x.Declares path ∨ s.declares path = true := by
  cases x with
  | message m =>
    rw [declare_message, Symbols.declares_addAll, Symbols.declares_addMessage]
    simp only [Declares, message?, Option.some.injEq, exists_eq_left', Message.paths, List.mem_cons,
      List.mem_filterMap]
    constructor
    · intro h
      rcases h with ⟨p, hp, h | h⟩ | h | h
      · exact Or.inl (Or.inl (Or.inr ⟨p, hp, h⟩))
      · exact Or.inl (Or.inr ⟨p, hp, h⟩)
      · exact Or.inl (Or.inl (Or.inl h.symm))
      · exact Or.inr h
    · intro h
      rcases h with ((h | ⟨p, hp, h⟩) | ⟨p, hp, h⟩) | h
      · exact Or.inr (Or.inl h.symm)
      · exact Or.inl ⟨p, hp, Or.inl h⟩
      · exact Or.inl ⟨p, hp, Or.inr h⟩
      · exact Or.inr (Or.inr h)
  | service direction sv =>
    rw [declare_service]
    simp [Declares, message?, Symbols.declares, Symbols.addService]

end Definition

namespace Symbols

def declareEach (s : Symbols) (xs : List Definition) : Symbols := xs.foldl (fun s x => (x.declare s).1) s

theorem declareEach_cons (s : Symbols) (x : Definition) (xs : List Definition) :
    s.declareEach (x :: xs) = (x.declare s).1.declareEach xs := rfl

/-- The walk ends at the first repeated key of the whole list, and keeps the table of all
    definitions if there is none. -/
theorem declareDistinct_eq (s : Symbols) (xs : List Definition) :
    s.declareDistinct xs =
      match firstRepeat? s.keys (xs.flatMap Definition.keys) with
      | some key => .error key
      | none => .ok (s.declareEach xs) := by
  induction xs generalizing s with
  | nil => rfl
  | cons x xs ih =>
    -- The table after a definition has the keys seen so far, in another order.
    have hkeys : firstRepeat? (x.keys.reverse ++ s.keys) (xs.flatMap Definition.keys) =
        firstRepeat? (x.declare s).1.keys (xs.flatMap Definition.keys) := by
      apply firstRepeat?_congr
      intro k
      rw [List.mem_append, List.mem_reverse, Definition.mem_keys_declare]
    rw [declareDistinct, List.flatMap_cons, firstRepeat?_append, hkeys, ← Definition.declare_repeat,
      declareEach_cons]
    cases hx : x.declare s with
    | mk t repeated =>
      cases repeated with
      | some key => rfl
      | none =>
        show t.declareDistinct xs = _
        rw [ih t]
        rfl

theorem mem_keys_declareEach {s : Symbols} {xs : List Definition} {k : Key} :
    k ∈ (s.declareEach xs).keys ↔ k ∈ xs.flatMap Definition.keys ∨ k ∈ s.keys := by
  induction xs generalizing s with
  | nil => simp [declareEach]
  | cons x xs ih =>
    rw [declareEach_cons, ih, Definition.mem_keys_declare, List.flatMap_cons, List.mem_append, ← or_assoc,
      or_comm (a := k ∈ x.keys)]

theorem declares_declareEach {s : Symbols} {xs : List Definition} {path : String} :
    (s.declareEach xs).declares path = true ↔ (∃ x ∈ xs, x.Declares path) ∨ s.declares path = true := by
  induction xs generalizing s with
  | nil => simp [declareEach]
  | cons x xs ih =>
    rw [declareEach_cons, ih, Definition.declares_declare]
    constructor
    · intro h
      rcases h with ⟨y, hy, h⟩ | h | h
      · exact Or.inl ⟨y, List.mem_cons_of_mem _ hy, h⟩
      · exact Or.inl ⟨x, List.mem_cons_self, h⟩
      · exact Or.inr h
    · intro h
      rcases h with ⟨y, hy, h⟩ | h
      · rcases List.mem_cons.1 hy with rfl | hy
        · exact Or.inr (Or.inl h)
        · exact Or.inl ⟨y, hy, h⟩
      · exact Or.inr (Or.inr h)

end Symbols

namespace Document

theorem message_mem_keys {d : Document} {path : String} :
    Key.message path ∈ d.keys ↔ path ∈ d.messagePaths := by
  simp only [keys, messagePaths, messages, List.mem_flatMap, List.mem_filterMap]
  constructor
  · intro ⟨x, hx, h⟩
    cases x with
    | message m =>
      obtain ⟨p, hp, hpath⟩ := List.mem_map.1 h
      cases hpath
      exact ⟨m, ⟨_, hx, rfl⟩, hp⟩
    | service direction sv => exact absurd (List.mem_singleton.1 h) nofun
  · intro ⟨m, ⟨x, hx, hm⟩, h⟩
    cases x with
    | message n =>
      cases hm
      exact ⟨_, hx, List.mem_map_of_mem h⟩
    | service direction sv => cases hm

/-- A document's table has its messages, repeated or not. -/
theorem hasMessage_ofDocument {d : Document} {path : String} :
    (Symbols.ofDocument d).hasMessage path = true ↔ path ∈ d.messagePaths := by
  rw [Symbols.hasMessage_iff, ← Symbols.message_mem_keys, ← message_mem_keys]
  exact Symbols.mem_keys_declareEach.trans (or_iff_left List.not_mem_nil)

/-- A document's table has its messages and enumerations, and nothing else. -/
theorem declares_ofDocument {d : Document} {path : String} :
    (Symbols.ofDocument d).declares path = true ↔ path ∈ d.messagePaths ∨ path ∈ d.enumerationPaths := by
  have hempty : ¬ Symbols.empty.declares path = true := nofun
  refine Symbols.declares_declareEach.trans ((or_iff_left hempty).trans ?_)
  simp only [Definition.Declares, messagePaths, enumerationPaths, messages, List.mem_flatMap]
  constructor
  · intro ⟨x, hx, m, hm, h⟩
    have hmem := List.mem_filterMap.2 ⟨x, hx, hm⟩
    exact h.imp (fun h => ⟨m, hmem, h⟩) fun h => ⟨m, hmem, h⟩
  · intro h
    rcases h with ⟨m, hmem, h⟩ | ⟨m, hmem, h⟩
    · obtain ⟨x, hx, hm⟩ := List.mem_filterMap.1 hmem
      exact ⟨x, hx, m, hm, Or.inl h⟩
    · obtain ⟨x, hx, hm⟩ := List.mem_filterMap.1 hmem
      exact ⟨x, hx, m, hm, Or.inr h⟩

/-- The table a document is checked with is that of the whole document. -/
theorem declareDistinct_definitions (d : Document) :
    Symbols.empty.declareDistinct d.definitions =
      match firstRepeat? [] d.keys with
      | some key => .error key
      | none => .ok (Symbols.ofDocument d) :=
  Symbols.declareDistinct_eq .empty d.definitions

end Document

end ServLang

/-
  ServLang.Proofs.Nesting — the messages of a document and their paths. A path is a
  string that is put together on the way down, and the checker compares such strings
  only. In the tree it stands for a message and the messages around it. A message also
  has a place: which definition of the document, which member of it, which member of
  that, the members numbered from one.

  Proved: the members of a document at any depth are the members of its messages, each
  at its message's path (`mem_descendants_iff`), so that a string is the path of a
  message or of an enumeration exactly if one in the tree has it
  (`mem_messagePaths_iff`, `mem_enumerationPaths_iff`); if no path repeats, no two
  messages side by side have one name, at any depth (`distinct_of_keys_nodup`); the
  names between the dots of a path are the names on the way down (`Nested.names`); at a
  place there is one message (`At.unique`), and the messages at places are those at any
  depth (`exists_at_iff_nested`).
-/

import ServLang.Proofs.Declarations

namespace ServLang

/-- No two messages that stand side by side have one name, at any depth. -/
inductive Distinct : List Message → Prop
  | intro {ms : List Message} : (ms.map Message.name).Nodup → (∀ m ∈ ms, Distinct m.messages) → Distinct ms

namespace Document

/-- A message of the document, at any depth, and the messages around it, the innermost first. -/
inductive Nested (d : Document) : Message → List Message → Prop
  | top {m : Message} : m ∈ d.messages → Nested d m []
  | inside {m n : Message} {around : List Message} : Nested d m around → n ∈ m.messages → Nested d n (m :: around)

structure DotFree (d : Document) : Prop where
  message {m : Message} {around : List Message} : d.Nested m around → '.' ∉ m.name.toList
  enumeration {m : Message} {around : List Message} : d.Nested m around → ∀ e ∈ m.enumerations, '.' ∉ e.name.toList

/-- The path of a message with others around it, the innermost first. -/
def pathOf (m : Message) : List Message → String
  | [] => m.name
  | n :: around => Path.join (pathOf n around) m.name

def namesOf (m : Message) (around : List Message) : List String := ((m :: around).map Message.name).reverse

theorem namesOf_inside (n m : Message) (around : List Message) :
    namesOf n (m :: around) = namesOf m around ++ [n.name] := List.reverse_cons

end Document

/-! ## The names between the dots -/

namespace Path

/-- What stands between the dots of a path. -/
def names (path : String) : List String := (parts path.toList).map String.ofList

theorem names_ne_nil (path : String) : names path ≠ [] := by
  rw [names, Ne, List.map_eq_nil_iff]
  exact parts_ne_nil _

theorem names_of_dot_notMem {name : String} (h : '.' ∉ name.toList) : names name = [name] := by
  rw [names, parts_of_dot_notMem h, List.map_singleton, String.ofList_toList]

/-- Joining paths joins their names. -/
theorem names_join (scope path : String) : names (join scope path) = names scope ++ names path := by
  have split : (join scope path).toList = scope.toList ++ '.' :: path.toList := by simp [join]
  rw [names, split, parts_append_dot, List.map_append]
  rfl

end Path

/-! ## Names that do not repeat -/

section Nodup

variable {α β : Type} [DecidableEq β] {f : α → β} {xs : List α} {x : α}

theorem filter_eq_singleton_of_nodup (h : (xs.map f).Nodup) (hx : x ∈ xs) : xs.filter (f · = f x) = [x] := by
  induction xs with
  | nil => cases hx
  | cons y ys ih =>
    rw [List.map_cons, List.nodup_cons] at h
    rcases List.mem_cons.1 hx with rfl | hx
    · rw [List.filter_cons_of_pos (by simp), List.filter_eq_nil_iff.2]
      intro z hz heq
      rw [decide_eq_true_eq] at heq
      exact h.1 (heq ▸ List.mem_map_of_mem hz)
    · rw [List.filter_cons_of_neg, ih h.2 hx]
      rw [decide_eq_true_eq]
      intro heq
      exact h.1 (heq ▸ List.mem_map_of_mem hx)

theorem find?_eq_some_of_nodup (h : (xs.map f).Nodup) (hx : x ∈ xs) : xs.find? (f · = f x) = some x := by
  rw [← List.head?_filter, filter_eq_singleton_of_nodup h hx, List.head?_cons]

end Nodup

namespace Distinct

variable {ms : List Message} {m n : Message}

theorem names (h : Distinct ms) : (ms.map Message.name).Nodup := by
  cases h with
  | intro names _ => exact names

theorem inside (h : Distinct ms) (hm : m ∈ ms) : Distinct m.messages := by
  cases h with
  | intro _ inside => exact inside m hm

theorem filter (h : Distinct ms) (hm : m ∈ ms) : ms.filter (·.name = m.name) = [m] :=
  filter_eq_singleton_of_nodup h.names hm

theorem eq_of_name (h : Distinct ms) (hm : m ∈ ms) (hn : n ∈ ms) (hname : m.name = n.name) : m = n := by
  have only := h.filter hm
  rw [hname, h.filter hn] at only
  exact (List.singleton_inj.1 only).symm

end Distinct

/-! ## The members inside a message -/

namespace Member

theorem withDescendants_eq (scope : String) (ms : List Member) :
    withDescendants scope ms = ms.flatMap fun x => ⟨scope, x⟩ :: x.descendants scope := by
  induction ms with
  | nil => rfl
  | cons x xs ih => rw [withDescendants, ih, List.flatMap_cons]

theorem mem_descendants {p : ScopedMember} {scope : String} {x : Member} :
    p ∈ x.descendants scope ↔
      ∃ n, x.message? = some n ∧ p ∈ withDescendants (Path.join scope n.name) n.members := by
  cases x <;> simp [descendants, message?]

/-- The paths of the messages in a body, each before those of the messages inside it. -/
theorem messagePaths_withDescendants (scope : String) (ms : List Member) :
    (withDescendants scope ms).filterMap ScopedMember.messagePath? =
      (ms.filterMap message?).flatMap fun m => Path.join scope m.name ::
        (withDescendants (Path.join scope m.name) m.members).filterMap ScopedMember.messagePath? := by
  induction ms with
  | nil => rfl
  | cons x xs ih =>
    rw [withDescendants, List.filterMap_append, ih, ScopedMember.paths_cons, List.append_assoc]
    cases x <;> rfl

end Member

namespace Message

/-- A member inside a message stands in the message itself or inside a message in it. -/
theorem mem_withDescendants {m : Message} {scope : String} {p : ScopedMember} :
    p ∈ Member.withDescendants scope m.members ↔
      (p.scope = scope ∧ p.member ∈ m.members) ∨
        ∃ n ∈ m.messages, p ∈ Member.withDescendants (Path.join scope n.name) n.members := by
  obtain ⟨around, y⟩ := p
  simp only [Member.withDescendants_eq scope m.members, List.mem_flatMap, List.mem_cons, ScopedMember.mk.injEq,
    Member.mem_descendants, messages, List.mem_filterMap]
  constructor
  · rintro ⟨x, hx, h⟩
    rcases h with ⟨rfl, rfl⟩ | ⟨n, hn, h⟩
    · exact Or.inl ⟨rfl, hx⟩
    · exact Or.inr ⟨n, ⟨x, hx, hn⟩, h⟩
  · intro h
    rcases h with ⟨rfl, hy⟩ | ⟨n, ⟨x, hx, hn⟩, h⟩
    · exact ⟨y, hy, Or.inl ⟨rfl, rfl⟩⟩
    · exact ⟨x, hx, Or.inr ⟨n, hn, h⟩⟩

/-- With a message inside another, its members are inside as well. -/
theorem mem_withDescendants_of_mem {m n : Message} {scope around : String} {x : Member}
    (hn : ⟨around, .message n.name n.members⟩ ∈ Member.withDescendants scope m.members) (hx : x ∈ n.members) :
    ⟨Path.join around n.name, x⟩ ∈ Member.withDescendants scope m.members := by
  induction m using induct generalizing scope with
  | step m ih =>
    refine mem_withDescendants.2 (Or.inr ?_)
    rcases mem_withDescendants.1 hn with ⟨rfl, hm⟩ | ⟨k, hk, hn⟩
    · exact ⟨n, mem_messages.2 hm, mem_withDescendants.2 (Or.inl ⟨rfl, hx⟩)⟩
    · exact ⟨k, hk, ih k hk hn⟩

end Message

/-! ## The messages of a document -/

namespace Document

namespace Nested

variable {d : Document} {m : Message} {around : List Message}

theorem mem_descendants {x : Member} (h : d.Nested m around) (hx : x ∈ m.members) :
    ∃ top ∈ d.messages, ⟨pathOf m around, x⟩ ∈ top.descendants := by
  induction h generalizing x with
  | top hm => exact ⟨_, hm, Message.mem_withDescendants.2 (Or.inl ⟨rfl, hx⟩)⟩
  | inside _ hn ih =>
    obtain ⟨top, htop, hmem⟩ := ih (Message.mem_messages.1 hn)
    exact ⟨top, htop, Message.mem_withDescendants_of_mem hmem hx⟩

theorem of_mem_withDescendants {p : ScopedMember} (h : d.Nested m around)
    (hp : p ∈ Member.withDescendants (pathOf m around) m.members) :
    ∃ n outer, d.Nested n outer ∧ p.scope = pathOf n outer ∧ p.member ∈ n.members := by
  induction m using Message.induct generalizing around with
  | step m ih =>
    rcases Message.mem_withDescendants.1 hp with ⟨hscope, hmem⟩ | ⟨n, hn, hp⟩
    · exact ⟨m, around, h, hscope, hmem⟩
    · exact ih n hn (h.inside hn) hp

/-- Without dots in names, a path splits where it was joined. -/
theorem names (h : d.Nested m around) (hd : d.DotFree) : Path.names (pathOf m around) = namesOf m around := by
  induction h with
  | top hm => exact Path.names_of_dot_notMem (hd.message (.top hm))
  | inside h hn ih =>
    rw [pathOf, Path.names_join, ih, Path.names_of_dot_notMem (hd.message (h.inside hn)), namesOf_inside]

theorem distinct (h : d.Nested m around) (hd : Distinct d.messages) : Distinct m.messages := by
  induction h with
  | top hm => exact hd.inside hm
  | inside _ hn ih => exact ih.inside hn

/-- The first names on the way down to a message are those down to a message around it. -/
theorem exists_of_append {before after : List String} (h : d.Nested m around)
    (hnames : namesOf m around = before ++ after) (hbefore : before ≠ []) :
    ∃ n ∈ m :: around, ∃ outer, d.Nested n outer ∧ namesOf n outer = before := by
  induction h generalizing after with
  | top hm =>
    cases before with
    | nil => exact absurd rfl hbefore
    | cons name names =>
      obtain ⟨rfl, hnil⟩ := List.cons.inj hnames
      obtain ⟨rfl, _⟩ := List.append_eq_nil_iff.1 hnil.symm
      exact ⟨_, List.mem_cons_self, [], .top hm, rfl⟩
  | inside h hn ih =>
    rcases List.eq_nil_or_concat after with rfl | ⟨after, name, rfl⟩
    · rw [List.append_nil] at hnames
      exact ⟨_, List.mem_cons_self, _, h.inside hn, hnames⟩
    · rw [namesOf_inside, List.concat_eq_append, ← List.append_assoc] at hnames
      obtain ⟨k, hk, outer, houter, hbefore⟩ := ih (List.append_inj_left' hnames rfl)
      exact ⟨k, List.mem_cons_of_mem _ hk, outer, houter, hbefore⟩

end Nested

/-- The walk over a document meets each member at its message's path. -/
theorem mem_descendants_iff {d : Document} {p : ScopedMember} :
    (∃ top ∈ d.messages, p ∈ top.descendants) ↔
      ∃ m around, d.Nested m around ∧ p.scope = pathOf m around ∧ p.member ∈ m.members := by
  constructor
  · rintro ⟨top, htop, hp⟩
    exact (Nested.top htop).of_mem_withDescendants hp
  · rintro ⟨m, around, hm, hscope, hmem⟩
    obtain ⟨top, htop, hp⟩ := hm.mem_descendants hmem
    rw [← hscope] at hp
    exact ⟨top, htop, hp⟩

/-- A string is a message's path if a message in the tree has it. -/
theorem mem_messagePaths_iff {d : Document} {path : String} :
    path ∈ d.messagePaths ↔ ∃ m around, d.Nested m around ∧ path = pathOf m around := by
  simp only [messagePaths, List.mem_flatMap, Message.paths, List.mem_cons, List.mem_filterMap]
  constructor
  · rintro ⟨top, htop, h⟩
    rcases h with rfl | ⟨p, hp, hpath⟩
    · exact ⟨top, [], .top htop, rfl⟩
    · obtain ⟨m, around, hm, hscope, hmem⟩ := mem_descendants_iff.1 ⟨top, htop, hp⟩
      obtain ⟨n, hn, rfl⟩ := Option.map_eq_some_iff.1 hpath
      refine ⟨n, m :: around, hm.inside (List.mem_filterMap.2 ⟨_, hmem, hn⟩), ?_⟩
      rw [hscope, pathOf]
  · rintro ⟨m, around, hm, hpath⟩
    cases hm with
    | top hm => exact ⟨m, hm, Or.inl hpath⟩
    | inside h hn =>
      obtain ⟨top, htop, hp⟩ := h.mem_descendants (Message.mem_messages.1 hn)
      exact ⟨top, htop, Or.inr ⟨_, hp, congrArg some hpath.symm⟩⟩

theorem mem_enumerationPaths_iff {d : Document} {path : String} :
    path ∈ d.enumerationPaths ↔
      ∃ m around, d.Nested m around ∧ ∃ e ∈ m.enumerations, path = Path.join (pathOf m around) e.name := by
  simp only [enumerationPaths, List.mem_flatMap, List.mem_filterMap]
  constructor
  · rintro ⟨top, htop, p, hp, hpath⟩
    obtain ⟨m, around, hm, hscope, hmem⟩ := mem_descendants_iff.1 ⟨top, htop, hp⟩
    obtain ⟨e, he, rfl⟩ := Option.map_eq_some_iff.1 hpath
    exact ⟨m, around, hm, e, List.mem_filterMap.2 ⟨_, hmem, he⟩, by rw [hscope]⟩
  · rintro ⟨m, around, hm, e, he, hpath⟩
    obtain ⟨top, htop, hp⟩ := hm.mem_descendants (Message.mem_enumerations.1 he)
    exact ⟨top, htop, _, hp, congrArg some hpath.symm⟩

end Document

/-! ## Places -/

namespace Message

/-- The message at a place inside another, and its path if that of the other is `scope`. -/
inductive At : Message → String → List Nat → String → Message → Prop
  | self (m : Message) (path : String) : At m path [] path m
  | inside {m n k : Message} {scope path : String} {i : Nat} {place : List Nat} :
      m.members[i]? = some (.message n.name n.members) → At n (Path.join scope n.name) place path k →
      At m scope ((i + 1) :: place) path k

variable {m n : Message} {scope path : String} {place : List Nat}

theorem At.unique {n' : Message} {path' : String} (h : m.At scope place path n) (h' : m.At scope place path' n') :
    path = path' ∧ n = n' := by
  induction h with
  | self =>
    cases h'
    exact ⟨rfl, rfl⟩
  | inside hk _ ih =>
    cases h' with
    | inside hk' hn' =>
      obtain rfl := Option.some.inj (Member.message?_eq_some_iff.2 (Option.some.inj (hk.symm.trans hk')))
      exact ih hn'

theorem At.snoc {k : Message} {i : Nat} (h : m.At scope place path n)
    (hk : n.members[i]? = some (.message k.name k.members)) : m.At scope (place ++ [i + 1]) (Path.join path k.name) k := by
  induction h with
  | self => exact .inside hk (.self _ _)
  | inside hn _ ih => exact .inside hn (ih hk)

end Message

namespace Document

inductive At (d : Document) : List Nat → String → Message → Prop
  | intro {i : Nat} {top m : Message} {place : List Nat} {path : String} :
      d.definitions[i]? = some (.message top) → top.At top.name place path m → At d (i :: place) path m

variable {d : Document}

/-- One message at a place. -/
theorem At.unique {m m' : Message} {path path' : String} {place : List Nat} (h : d.At place path m)
    (h' : d.At place path' m') : path = path' ∧ m = m' := by
  cases h with
  | intro htop hm =>
    cases h' with
    | intro htop' hm' =>
      cases htop.symm.trans htop'
      exact hm.unique hm'

theorem Nested.of_at {m n : Message} {around : List Message} {place : List Nat} {path : String}
    (hm : d.Nested m around) (h : m.At (pathOf m around) place path n) :
    ∃ outer, d.Nested n outer ∧ path = pathOf n outer := by
  generalize hscope : pathOf m around = scope at h
  induction h generalizing around with
  | self => exact ⟨around, hm, hscope.symm⟩
  | inside hn _ ih =>
    refine ih (hm.inside (Message.mem_messages.2 (List.mem_of_getElem? hn))) ?_
    rw [pathOf, hscope]

/-- The messages at places are the messages at any depth, with their paths. -/
theorem exists_at_iff_nested {m : Message} {path : String} :
    (∃ place, d.At place path m) ↔ ∃ around, d.Nested m around ∧ path = pathOf m around := by
  constructor
  · rintro ⟨_, htop, hm⟩
    have top := Nested.top (List.mem_filterMap.2 ⟨_, List.mem_of_getElem? htop, rfl⟩)
    exact top.of_at hm
  · rintro ⟨around, hm, rfl⟩
    induction hm with
    | @top m hm =>
      obtain ⟨y, hy, htop⟩ := List.mem_filterMap.1 hm
      obtain ⟨i, hi⟩ := List.mem_iff_getElem?.1 hy
      cases y with
      | message n =>
        cases htop
        exact ⟨[i], .intro hi (.self m m.name)⟩
      | service direction s => cases htop
    | @inside m n around _ hn ih =>
      obtain ⟨_, htop, hm⟩ := ih
      obtain ⟨i, hi⟩ := List.mem_iff_getElem?.1 (Message.mem_messages.1 hn)
      exact ⟨_, .intro htop (hm.snoc hi)⟩

end Document

/-! ## Paths that do not repeat -/

namespace Distinct

/-- What is put before a name at one level does not matter, only that it is the same. -/
theorem of_flatMap_nodup {ms : List Message} (path : String → String) {inside : Message → List String}
    (h : (ms.flatMap fun m => path m.name :: inside m).Nodup)
    (hinside : ∀ m ∈ ms, (inside m).Nodup → Distinct m.messages) : Distinct ms := by
  obtain ⟨each, apart⟩ := List.pairwise_flatMap.1 h
  refine .intro ?_ fun m hm => hinside m hm (List.nodup_cons.1 (each m hm)).2
  refine List.pairwise_map.2 (apart.imp fun hpaths hnames => ?_)
  exact hpaths _ List.mem_cons_self _ List.mem_cons_self (congrArg path hnames)

theorem of_paths_nodup {m : Message} {scope : String}
    (h : ((Member.withDescendants scope m.members).filterMap ScopedMember.messagePath?).Nodup) :
    Distinct m.messages := by
  induction m using Message.induct generalizing scope with
  | step m ih =>
    rw [Member.messagePaths_withDescendants] at h
    exact of_flatMap_nodup (Path.join scope) h fun n hn => ih n hn

end Distinct

namespace Document

theorem messagePaths_sublist_keys (d : Document) : (d.messagePaths.map Key.message).Sublist d.keys := by
  obtain ⟨xs⟩ := d
  induction xs with
  | nil => exact List.nil_sublist _
  | cons x xs ih =>
    cases x with
    | message m =>
      show (List.map Key.message (m.paths ++ _)).Sublist _
      rw [List.map_append]
      exact (List.Sublist.refl _).append ih
    | service direction s => exact ih.cons _

theorem serviceNames_sublist_keys (d : Document) : (d.services.map fun s => Key.service s.2.name).Sublist d.keys := by
  obtain ⟨xs⟩ := d
  induction xs with
  | nil => exact List.nil_sublist _
  | cons x xs ih =>
    cases x with
    | message m => exact (List.nil_sublist _).append ih
    | service direction s => exact ih.cons_cons _

/-- Paths that do not repeat are names that do not repeat side by side. -/
theorem distinct_of_keys_nodup {d : Document} (h : d.keys.Nodup) : Distinct d.messages := by
  have paths : d.messagePaths.Nodup :=
    (List.pairwise_map.1 (h.sublist d.messagePaths_sublist_keys)).imp fun hne heq => hne (congrArg Key.message heq)
  exact .of_flatMap_nodup id paths fun m _ => .of_paths_nodup

theorem serviceNames_nodup_of_keys_nodup {d : Document} (h : d.keys.Nodup) : (d.services.map (·.2.name)).Nodup :=
  List.pairwise_map.2 ((List.pairwise_map.1 (h.sublist d.serviceNames_sublist_keys)).imp fun hne heq =>
    hne (congrArg Key.service heq))

end Document

end ServLang

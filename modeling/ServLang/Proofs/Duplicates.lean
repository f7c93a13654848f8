/-
  ServLang.Proofs.Duplicates — what validation calls a duplicate, against what the linter
  calls one. Validation looks for a path that stands twice in the whole document, the
  linter for a name that stands twice in one body. The two meet at the first path that
  repeats:

  - if the messages around its two places were not the same, they would have one path
    themselves, and the second of them would stand before the second place; so the two
    places are in one body, and there the linter reports the name;
  - a path that is a single name is that of two messages at the top level, which no body
    holds and the linter says nothing about.

  The argument is about lists of blocks: a message's own path and then those inside it.
  No path is in the blocks of two messages with different names, since the name of the
  message stands in it at the same place.

  Proved: the first repeat of a list of blocks is one among their heads or inside one of
  them (`firstRepeat?_blocks`); the first path that repeats is a repeated name of the top
  level or of one body (`Document.exists_repeat`); every duplicate that validation refuses
  is one of the linter's or of the top level (`Document.duplicate_message_lint`).
-/

import Mathlib.Data.List.Duplicate
import Mathlib.Data.List.Induction
import ServLang.Proofs.Places
import ServLang.Proofs.Scoping

namespace ServLang

/-! ## First repeats -/

section FirstRepeat

variable {α β : Type} [DecidableEq β] {y : β}

/-- What is seen but does not come does not matter. -/
theorem firstRepeat?_of_notMem {seen xs : List β} (h : ∀ x ∈ xs, x ∉ seen) :
    firstRepeat? seen xs = firstRepeat? [] xs := by
  have same : firstRepeat? seen (xs.map id) = (firstRepeat? [] xs).map id :=
    firstRepeat?_map (fun _ _ _ _ => id) fun x hx => iff_of_false (h x hx) List.not_mem_nil
  rwa [List.map_id, Option.map_id_fun, id] at same

/-- The first repeat of a list is the first among its elements of the same kind. -/
theorem firstRepeat?_filterMap [DecidableEq α] {f : α → Option β} (hf : ∀ a a' b, b ∈ f a → b ∈ f a' → a = a')
    {xs : List α} {x : α} (hx : f x = some y) (h : firstRepeat? [] xs = some x) :
    firstRepeat? [] (xs.filterMap f) = some y := by
  obtain ⟨before, after, rfl, hbefore, hmem⟩ := firstRepeat?_eq_some_iff.1 h
  have hmem : x ∈ before := hmem.resolve_left List.not_mem_nil
  refine firstRepeat?_eq_some_iff.2 ⟨before.filterMap f, after.filterMap f, ?_, ?_, ?_⟩
  · rw [List.filterMap_append, List.filterMap_cons_some hx]
  · rw [firstRepeat?_eq_none_iff] at hbefore ⊢
    exact ⟨hbefore.1.filterMap hf, fun _ _ => List.not_mem_nil⟩
  · exact Or.inr (List.mem_filterMap.2 ⟨x, hmem, hx⟩)

theorem not_nodup_of_firstRepeat? {xs : List β} (h : firstRepeat? [] xs = some y) : ¬ xs.Nodup := by
  intro hnodup
  rw [firstRepeat?_eq_none_iff.2 ⟨hnodup, fun _ _ => List.not_mem_nil⟩] at h
  cases h

/-- Of blocks that share nothing unless their heads are equal, and of which none has its
    head inside as well, the first repeat is among the heads or inside one block. -/
theorem firstRepeat?_blocks {head : α → β} {inside : α → List β} {ns : List α}
    (apart : ∀ m ∈ ns, ∀ n ∈ ns, ∀ x ∈ head m :: inside m, x ∈ head n :: inside n → head m = head n)
    (below : ∀ n ∈ ns, head n ∉ inside n)
    (h : firstRepeat? [] (ns.flatMap fun n => head n :: inside n) = some y) :
    List.Duplicate y (ns.map head) ∨ ∃ n ∈ ns, firstRepeat? [] (inside n) = some y := by
  induction ns using List.reverseRecOn with
  | nil => cases h
  | append_singleton ns n ih =>
    have last : n ∈ ns ++ [n] := List.mem_append_right _ List.mem_cons_self
    have earlier {m : α} (hm : m ∈ ns) : m ∈ ns ++ [n] := List.mem_append_left _ hm
    rw [List.flatMap_append, List.flatMap_singleton, firstRepeat?_append, List.append_nil] at h
    cases hns : firstRepeat? [] (ns.flatMap fun n => head n :: inside n) with
    | some z =>
      rw [hns] at h
      obtain rfl : z = y := Option.some.inj h
      rcases ih (fun m hm k hk => apart m (earlier hm) k (earlier hk)) (fun m hm => below m (earlier hm)) hns with
        hdup | ⟨m, hm, hdup⟩
      · exact Or.inl (hdup.mono_sublist ((List.sublist_append_left ns [n]).map head))
      · exact Or.inr ⟨m, earlier hm, hdup⟩
    | none =>
      rw [hns] at h
      change firstRepeat? _ (head n :: inside n) = some y at h
      -- A block seen before that shares something with this one has its head.
      have shared {x : β} (hx : x ∈ head n :: inside n)
          (hseen : x ∈ (ns.flatMap fun n => head n :: inside n).reverse) : head n ∈ ns.map head := by
        obtain ⟨m, hm, hxm⟩ := List.mem_flatMap.1 (List.mem_reverse.1 hseen)
        exact List.mem_map.2 ⟨m, hm, apart m (earlier hm) n last x hxm hx⟩
      rw [firstRepeat?] at h
      by_cases hhead : head n ∈ (ns.flatMap fun n => head n :: inside n).reverse
      · rw [if_pos hhead] at h
        obtain rfl : head n = y := Option.some.inj h
        left
        rw [List.duplicate_iff_two_le_count, List.map_append, List.count_append, List.map_singleton,
          List.count_singleton_self]
        have : 0 < (ns.map head).count (head n) := List.count_pos_iff.2 (shared List.mem_cons_self hhead)
        omega
      · rw [if_neg hhead, firstRepeat?_of_notMem] at h
        · exact Or.inr ⟨n, last, h⟩
        · intro x hx hseen
          rcases List.mem_cons.1 hseen with rfl | hseen
          · exact below n last hx
          · obtain ⟨m, hm, heq⟩ := List.mem_map.1 (shared (List.mem_cons_of_mem _ hx) hseen)
            apply hhead
            rw [List.mem_reverse, ← heq]
            exact List.mem_flatMap.2 ⟨m, hm, List.mem_cons_self⟩

end FirstRepeat

theorem exists_repeatedAt {xs : List String} {x : String} (h : List.Duplicate x xs) : ∃ i, RepeatedAt xs i x := by
  induction h with
  | cons_mem hx =>
    obtain ⟨i, hi⟩ := List.mem_iff_getElem?.1 hx
    exact ⟨i + 1, hi, List.mem_cons_self⟩
  | cons_duplicate _ ih =>
    obtain ⟨i, hi, hmem⟩ := ih
    exact ⟨i + 1, hi, List.mem_cons_of_mem _ hmem⟩

/-! ## The paths inside a message -/

namespace Message

def pathsInside (scope : String) (m : Message) : List String :=
  (Member.withDescendants scope m.members).filterMap ScopedMember.messagePath?

theorem pathsInside_eq (scope : String) (m : Message) :
    m.pathsInside scope =
      m.messages.flatMap fun n => Path.join scope n.name :: n.pathsInside (Path.join scope n.name) :=
  Member.messagePaths_withDescendants scope m.members

/-- Each of them goes on from the path of the message. -/
theorem names_of_mem_pathsInside {m : Message} {scope path : String} (h : path ∈ m.pathsInside scope) :
    ∃ rest, rest ≠ [] ∧ Path.names path = Path.names scope ++ rest := by
  induction m using induct generalizing scope with
  | step m ih =>
    rw [pathsInside_eq, List.mem_flatMap] at h
    obtain ⟨n, hn, hpath⟩ := h
    rcases List.mem_cons.1 hpath with rfl | hpath
    · exact ⟨Path.names n.name, Path.names_ne_nil _, Path.names_join scope n.name⟩
    · obtain ⟨rest, -, hrest⟩ := ih n hn hpath
      rw [Path.names_join, List.append_assoc] at hrest
      exact ⟨Path.names n.name ++ rest, by simp [Path.names_ne_nil], hrest⟩

/-- The first repeat among messages side by side, whose paths are one list of names and
    then their own, and the messages inside them: two of them have one name, or it is the
    first inside one of them. -/
theorem firstRepeat?_paths {ns : List Message} {path : String → String} {before : List String} {y : String}
    (hpath : ∀ n ∈ ns, Path.names (path n.name) = before ++ [n.name])
    (h : firstRepeat? [] (ns.flatMap fun n => path n.name :: n.pathsInside (path n.name)) = some y) :
    (∃ name, List.Duplicate name (ns.map Message.name) ∧ y = path name) ∨
      ∃ n ∈ ns, firstRepeat? [] (n.pathsInside (path n.name)) = some y := by
  -- A path tells the message it is in: its name stands behind those before.
  have block {n : Message} (hn : n ∈ ns) {x : String} (hx : x ∈ path n.name :: n.pathsInside (path n.name)) :
      ∃ rest, Path.names x = before ++ n.name :: rest := by
    rcases List.mem_cons.1 hx with rfl | hx
    · exact ⟨[], hpath n hn⟩
    · obtain ⟨rest, -, hrest⟩ := names_of_mem_pathsInside hx
      exact ⟨rest, by rw [hrest, hpath n hn, List.append_assoc, List.singleton_append]⟩
  have apart : ∀ m ∈ ns, ∀ n ∈ ns, ∀ x ∈ path m.name :: m.pathsInside (path m.name),
      x ∈ path n.name :: n.pathsInside (path n.name) → path m.name = path n.name := by
    intro m hm n hn x hxm hxn
    obtain ⟨rest, hrest⟩ := block hm hxm
    obtain ⟨rest', hrest'⟩ := block hn hxn
    rw [hrest, List.append_cancel_left_eq, List.cons.injEq] at hrest'
    rw [hrest'.1]
  have below : ∀ n ∈ ns, path n.name ∉ n.pathsInside (path n.name) := by
    intro n hn hmem
    obtain ⟨rest, hne, hrest⟩ := names_of_mem_pathsInside hmem
    exact hne (List.self_eq_append_right.1 hrest)
  rcases firstRepeat?_blocks apart below h with hdup | hinside
  · left
    rw [← Function.comp_def, ← List.map_map, List.duplicate_iff_sublist, List.sublist_map_iff] at hdup
    obtain ⟨twice, hsub, htwice⟩ := hdup
    obtain ⟨a, _, rfl, ha, htwice⟩ := List.map_eq_cons_iff.1 htwice.symm
    obtain ⟨b, rfl, hb⟩ := List.map_eq_singleton_iff.1 htwice
    obtain ⟨m, hm, rfl⟩ := List.mem_map.1 (hsub.subset List.mem_cons_self)
    obtain ⟨n, hn, rfl⟩ := List.mem_map.1 (hsub.subset (List.mem_cons_of_mem _ List.mem_cons_self))
    have names := hpath m hm
    rw [ha, ← hb, hpath n hn, List.append_cancel_left_eq, List.singleton_inj] at names
    rw [names] at hsub
    exact ⟨m.name, List.duplicate_iff_sublist.2 hsub, ha.symm⟩
  · exact Or.inr hinside

/-- Two messages of one name are two members of one name. -/
theorem messages_names_sublist (m : Message) :
    (m.messages.map Message.name).Sublist (m.members.map Member.name) := by
  obtain ⟨name, xs⟩ := m
  induction xs with
  | nil => exact .slnil
  | cons x xs ih =>
    cases x with
    | field f => exact ih.cons _
    | enumeration e => exact ih.cons _
    | message name members => exact ih.cons_cons _

end Message

/-! ## Keys of one kind -/

namespace Key

def path? : Key → Option String
  | message path => some path
  | service _ => none

def service? : Key → Option String
  | message _ => none
  | service name => some name

theorem path?_inj (k k' : Key) (path : String) (h : path ∈ k.path?) (h' : path ∈ k'.path?) : k = k' := by
  cases k <;> cases k' <;> simp_all [path?]

theorem service?_inj (k k' : Key) (name : String) (h : name ∈ k.service?) (h' : name ∈ k'.service?) : k = k' := by
  cases k <;> cases k' <;> simp_all [service?]

end Key

namespace Document

variable {d : Document}

theorem keys_filterMap_path? (d : Document) : d.keys.filterMap Key.path? = d.messagePaths := by
  obtain ⟨xs⟩ := d
  induction xs with
  | nil => rfl
  | cons x xs ih =>
    show (x.keys ++ (Document.mk xs).keys).filterMap Key.path? = _
    rw [List.filterMap_append, ih]
    cases x with
    | message m =>
      have own : (m.paths.map Key.message).filterMap Key.path? = m.paths := by
        rw [List.filterMap_map]
        exact List.filterMap_some
      show (m.paths.map Key.message).filterMap Key.path? ++ _ = _
      rw [own]
      rfl
    | service direction s => rfl

theorem keys_filterMap_service? (d : Document) : d.keys.filterMap Key.service? = d.services.map (·.2.name) := by
  obtain ⟨xs⟩ := d
  induction xs with
  | nil => rfl
  | cons x xs ih =>
    show (x.keys ++ (Document.mk xs).keys).filterMap Key.service? = _
    rw [List.filterMap_append, ih]
    cases x with
    | message m =>
      have own : (m.paths.map Key.message).filterMap Key.service? = [] := by
        rw [List.filterMap_map]
        exact List.filterMap_eq_nil_iff.2 fun _ _ => rfl
      show (m.paths.map Key.message).filterMap Key.service? ++ _ = _
      rw [own]
      rfl
    | service direction s => rfl

/-- A refusal for a duplicate names the first repeated key. -/
theorem firstRepeat?_keys_of_validate {strict : Bool} {k : Key} (h : d.validate strict = .error (.duplicate k)) :
    firstRepeat? [] d.keys = some k := by
  have violated : d.violation? strict = some (.duplicate k) := by
    rw [validate] at h
    cases hv : d.violation? strict with
    | none =>
      rw [hv] at h
      cases h
    | some v =>
      rw [hv] at h
      cases h
      rfl
  cases violation?_eq_some_iff.1 violated with
  | duplicate hsplit hnodup hmem => exact firstRepeat?_keys_eq_some_iff.2 ⟨_, _, hsplit, hnodup, hmem⟩

/-! ## The first path that repeats -/

/-- The messages inside a message: the first path among theirs that repeats is that of
    messages side by side. -/
theorem Nested.exists_repeat {m : Message} {around : List Message} {y : String} (hm : d.Nested m around)
    (hd : d.DotFree) (h : firstRepeat? [] (m.pathsInside (pathOf m around)) = some y) :
    ∃ n outer name, d.Nested n outer ∧ List.Duplicate name (n.messages.map Message.name) ∧
      y = Path.join (pathOf n outer) name := by
  induction m using Message.induct generalizing around with
  | step m ih =>
    have names (n : Message) (hn : n ∈ m.messages) :
        Path.names (Path.join (pathOf m around) n.name) = namesOf m around ++ [n.name] := by
      rw [Path.names_join, hm.names hd, Path.names_of_dot_notMem (hd.message (hm.inside hn))]
    rw [Message.pathsInside_eq] at h
    rcases Message.firstRepeat?_paths names h with ⟨name, hdup, hy⟩ | ⟨n, hn, hrepeat⟩
    · exact ⟨m, around, name, hm, hdup, hy⟩
    · exact ih n hn (hm.inside hn) hrepeat

theorem exists_repeat {y : String} (hd : d.DotFree) (h : firstRepeat? [] d.messagePaths = some y) :
    List.Duplicate y (d.messages.map Message.name) ∨
      ∃ m around name, d.Nested m around ∧ List.Duplicate name (m.messages.map Message.name) ∧
        y = Path.join (pathOf m around) name := by
  have names (n : Message) (hn : n ∈ d.messages) : Path.names (id n.name) = [] ++ [n.name] :=
    Path.names_of_dot_notMem (hd.message (.top hn))
  rcases Message.firstRepeat?_paths names h with ⟨name, hdup, rfl⟩ | ⟨n, hn, hrepeat⟩
  · exact Or.inl hdup
  · exact Or.inr ((Nested.top hn).exists_repeat hd hrepeat)

/-! ## Duplicates and findings -/

/-- A name that repeats in a message is reported there. -/
theorem Nested.mem_lint_of_duplicate {m : Message} {around : List Message} {name : String} (hm : d.Nested m around)
    (h : List.Duplicate name (m.members.map Member.name)) : ⟨pathOf m around, .duplicateMember name⟩ ∈ d.lint := by
  obtain ⟨i, hi⟩ := exists_repeatedAt h
  obtain ⟨node, hnode⟩ := exists_at_iff_nested.2 ⟨around, hm, rfl⟩
  exact d.listed.mem_iff.2 ⟨_, node, _, m, [i + 1], hnode, .duplicateMember hi, rfl⟩

/-- A path of validation's that repeats: a dotted one is a name that the linter reports in
    the body at the path before its last dot, and any other is the name of two messages at
    the top level. -/
theorem duplicate_message_of_validate {strict : Bool} {y : String} (hd : d.DotFree)
    (h : d.validate strict = .error (.duplicate (.message y))) :
    ('.' ∉ y.toList ∧ List.Duplicate y (d.messages.map Message.name)) ∨
      ∃ path name, y = Path.join path name ∧ '.' ∉ name.toList ∧ ⟨path, .duplicateMember name⟩ ∈ d.lint := by
  have repeated := firstRepeat?_filterMap Key.path?_inj rfl (firstRepeat?_keys_of_validate h)
  rw [keys_filterMap_path?] at repeated
  rcases exists_repeat hd repeated with hdup | ⟨m, around, name, hm, hdup, rfl⟩
  · obtain ⟨m, hm, rfl⟩ := List.mem_map.1 hdup.mem
    exact Or.inl ⟨hd.message (.top hm), hdup⟩
  · obtain ⟨n, hn, rfl⟩ := List.mem_map.1 hdup.mem
    exact Or.inr ⟨_, _, rfl, hd.message (hm.inside hn), hm.mem_lint_of_duplicate (hdup.mono_sublist m.messages_names_sublist)⟩

/-- Validation and the linter agree on what is a duplicate. If validation refuses a parsed
    document for a message's path with a dot, the linter has an error for the name after
    the last dot at the path before it; if the path has no dot, two messages at the top
    level have it for a name. So a document with distinct names at the top level and no
    errors of the linter's is never refused for a duplicate. -/
theorem duplicate_message_lint {source : String} {d : Document} (h : parse source = .ok d) (strict : Bool) :
    (∀ y, d.validate strict = .error (.duplicate (.message y)) →
      ('.' ∈ y.toList → ∃ path name, y = Path.join path name ∧ '.' ∉ name.toList ∧
        ⟨path, .duplicateMember name⟩ ∈ d.lint) ∧
      ('.' ∉ y.toList → 2 ≤ (d.messages.map Message.name).count y)) ∧
    ((d.messages.map Message.name).Nodup → (d.services.map (·.2.name)).Nodup →
      (∀ x ∈ d.lint, x.severity ≠ .error) → ∀ k, d.validate strict ≠ .error (.duplicate k)) := by
  have dotFree : d.DotFree := dotFree_of_wellFormed (wellFormed_of_parse h)
  refine ⟨?_, ?_⟩
  · intro y hy
    rcases duplicate_message_of_validate dotFree hy with ⟨hdot, hdup⟩ | ⟨path, name, rfl, hname⟩
    · exact ⟨fun hmem => absurd hmem hdot, fun _ => List.duplicate_iff_two_le_count.1 hdup⟩
    · have dotted : '.' ∈ (Path.join path name).toList := by simp [Path.join]
      exact ⟨fun _ => ⟨path, name, rfl, hname⟩, fun hdot => absurd dotted hdot⟩
  · intro messages services clean k hk
    cases k with
    | message y =>
      rcases duplicate_message_of_validate dotFree hk with ⟨-, hdup⟩ | ⟨path, name, -, -, hfinding⟩
      · exact List.nodup_iff_forall_not_duplicate.1 messages y hdup
      · exact clean _ hfinding rfl
    | service name =>
      have repeated := firstRepeat?_filterMap Key.service?_inj rfl (firstRepeat?_keys_of_validate hk)
      rw [keys_filterMap_service?] at repeated
      exact not_nodup_of_firstRepeat? repeated services

/-- The messages `M.A` repeat, and with them `M.A.B`. -/
theorem duplicate_message_lint_inner :
    ∃ d, parse "message M { message A { message B { } } message A { message B { } } }" = .ok d ∧
      d.validate true = .error (.duplicate (.message "M.A")) ∧
      ∃ path name, "M.A" = Path.join path name ∧ '.' ∉ name.toList ∧ ⟨path, .duplicateMember name⟩ ∈ d.lint := by
  have parsed : parse "message M { message A { message B { } } message A { message B { } } }" =
      .ok ⟨[.message ⟨"M", [.message "A" [.message "B" []], .message "A" [.message "B" []]]⟩]⟩ := by decide +kernel
  have refused : Document.validate true ⟨[.message ⟨"M", [.message "A" [.message "B" []],
      .message "A" [.message "B" []]]⟩]⟩ = .error (.duplicate (.message "M.A")) := by decide +kernel
  exact ⟨_, parsed, refused, ((duplicate_message_lint parsed true).1 "M.A" refused).1 (by decide)⟩

end Document

end ServLang

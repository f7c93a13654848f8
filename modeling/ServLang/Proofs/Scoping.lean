/-
  ServLang.Proofs.Scoping — what the table of names answers, in the tree. The table holds
  whole paths, and a name is looked for by joining it with the path of the place where it
  is used and with each part of that path before a dot. Read by the names between the
  dots, a path is a way down the tree, and the parts of a path before a dot are the ways
  down to the messages around.

  Names may repeat: a way down may lead to several messages, and a message of the same
  path as one around the place is as good as that one. The table cannot tell them apart,
  and the tree does not need to.

  Proved:
  - `Path.names_inj`, `Path.names_ofNames`: a path is the list of names between its dots.
  - `Document.declaredAt_iff_descent`: what stands in the tree is what a way down leads to.
  - `Document.finds_iff_names`: the scopes around a place are the starts of the names down to it.
  - `Document.symbols_iff_descent`: each look-up of the table against ways down the tree.
-/

import ServLang.Proofs.Descent

namespace ServLang

/-! ## Paths and lists of names -/

namespace Path

def ofNames (names : List String) : String := ".".intercalate names

theorem intercalate_parts (cs : List Char) : ['.'].intercalate (parts cs) = cs := by
  induction cs with
  | nil => rfl
  | cons c cs ih =>
    obtain ⟨first, rest, hparts, -⟩ := exists_parts cs
    rw [hparts] at ih
    rw [parts, hparts]
    split
    · next hc => rw [List.intercalate_cons_cons, ih, hc]; rfl
    · cases rest <;> simp_all

theorem ofNames_names (path : String) : ofNames (names path) = path := by
  have chars : (ofNames (names path)).toList = path.toList := by
    rw [ofNames, String.toList_intercalate, names, List.map_map]
    simpa [Function.comp_def] using intercalate_parts path.toList
  exact String.toList_inj.1 chars

/-- A path is what its names make. -/
theorem names_inj {p q : String} : names p = names q ↔ p = q :=
  ⟨fun h => by rw [← ofNames_names p, h, ofNames_names], congrArg names⟩

theorem ofNames_append {before rest : List String} (hbefore : before ≠ []) (hrest : rest ≠ []) :
    ofNames (before ++ rest) = join (ofNames before) (ofNames rest) :=
  String.intercalate_append_of_ne_nil hbefore hrest

theorem names_ofNames {ns : List String} (hne : ns ≠ []) (h : ∀ name ∈ ns, '.' ∉ name.toList) :
    names (ofNames ns) = ns := by
  induction ns with
  | nil => exact absurd rfl hne
  | cons name ns ih =>
    have first : names name = [name] := names_of_dot_notMem (h name List.mem_cons_self)
    by_cases hns : ns = []
    · rw [hns, ofNames, String.intercalate_singleton, first]
    · have split : ofNames (name :: ns) = join name (ofNames ns) := String.intercalate_cons_of_ne_nil hns
      rw [split, names_join, first, ih hns fun n hn => h n (List.mem_cons_of_mem _ hn), List.singleton_append]

/-- The scopes around a place, by their names. -/
theorem names_prefix_iff {around scope : String} :
    names around <+: names scope ↔ around = scope ∨ ∃ rest, scope = join around rest := by
  constructor
  · rintro ⟨rest, h⟩
    by_cases hrest : rest = []
    · rw [hrest, List.append_nil, names_inj] at h
      exact Or.inl h
    · refine Or.inr ⟨ofNames rest, ?_⟩
      rw [← ofNames_names scope, ← h, ofNames_append (names_ne_nil around) hrest, ofNames_names]
  · intro h
    rcases h with rfl | ⟨rest, rfl⟩
    · exact List.prefix_refl _
    · rw [names_join]
      exact List.prefix_append _ _

end Path

/-! ## Ways down to what is declared -/

namespace Document

/-- A message, or an enumeration directly inside a message, and the names on the way down to it. -/
inductive DeclaredAt (d : Document) : List String → Declaration → Prop
  | message {m : Message} {around : List Message} : d.Nested m around → DeclaredAt d (namesOf m around) (.message m)
  | enumeration {m : Message} {around : List Message} {e : Enumeration} : d.Nested m around → e ∈ m.enumerations →
      DeclaredAt d (namesOf m around ++ [e.name]) (.enumeration e)

end Document

namespace Descent

open Document

variable {ms : List Message} {es : List Enumeration} {names rest : List String} {t : Declaration}

/-- Below messages with the same names on the way down to them, these come first. -/
theorem declaredAt {d : Document} {before : List String} (h : Descent ms es names t)
    (hms : ∀ m ∈ ms, ∃ around, d.Nested m around ∧ namesOf m around = before ++ [m.name])
    (hes : ∀ e ∈ es, ∃ m around, d.Nested m around ∧ e ∈ m.enumerations ∧ namesOf m around = before) :
    d.DeclaredAt (before ++ names) t := by
  -- Along the way down, with the names so far in front.
  induction h generalizing before with
  | message hm =>
    obtain ⟨around, hm, hnames⟩ := hms _ hm
    rw [← hnames]
    exact .message hm
  | enumeration he =>
    obtain ⟨m, around, hm, he, rfl⟩ := hes _ he
    exact .enumeration hm he
  | @inside _ _ m _ _ hm _ ih =>
    obtain ⟨around, hm, hnames⟩ := hms m hm
    rw [List.append_cons, ← hnames]
    refine ih ?_ ?_
    · intro n hn
      exact ⟨m :: around, hm.inside hn, namesOf_inside n m around⟩
    · intro e he
      exact ⟨m, around, hm, he, rfl⟩

theorem of_singleton {name : String} {m : Message} (h : Descent ms es [name] (.message m)) : m ∈ ms ∧ m.name = name := by
  cases h with
  | message hm => exact ⟨hm, rfl⟩
  | inside _ h => cases h

/-- A way down leads to a message after each of its names but the last. -/
theorem split {before : List String} (h : Descent ms es (before ++ rest) t) (hbefore : before ≠ []) (hrest : rest ≠ []) :
    ∃ m, Descent ms es before (.message m) ∧ Descent m.messages m.enumerations rest t := by
  induction before generalizing ms es with
  | nil => exact absurd rfl hbefore
  | cons name before ih =>
    generalize hall : name :: before ++ rest = all at h
    cases h with
    | message _ => simp_all
    | enumeration _ => simp_all
    | inside hm h =>
      obtain ⟨rfl, rfl⟩ := List.cons.inj hall
      by_cases hnil : before = []
      · subst hnil
        exact ⟨_, .message hm, h⟩
      · obtain ⟨k, hk, ht⟩ := ih h hnil
        exact ⟨k, .inside hm hk, ht⟩

end Descent

namespace Document

variable {d : Document} {names : List String} {t : Declaration}

/-- Declared at some names is found on the way down by them. -/
theorem declaredAt_iff_descent : d.DeclaredAt names t ↔ Descent d.messages [] names t := by
  constructor
  · intro h
    cases h with
    | message hm => exact hm.descent []
    | enumeration hm he => exact (hm.descent []).append (.enumeration he)
  · intro h
    have fromTop : d.DeclaredAt ([] ++ names) t := h.declaredAt (fun m hm => ⟨[], .top hm, rfl⟩) nofun
    rwa [List.nil_append] at fromTop

/-- A way down from a message goes on from the way down to it. -/
theorem Nested.declaredAt {m : Message} {around : List Message} (h : d.Nested m around)
    (ht : Descent m.messages m.enumerations names t) : d.DeclaredAt (namesOf m around ++ names) t :=
  declaredAt_iff_descent.2 ((h.descent []).append ht)

/-- Every way down from the top passes through a message after each of its names but the last. -/
theorem DeclaredAt.split {before rest : List String} (h : d.DeclaredAt (before ++ rest) t) (hbefore : before ≠ [])
    (hrest : rest ≠ []) :
    ∃ m around, d.Nested m around ∧ namesOf m around = before ∧ Descent m.messages m.enumerations rest t := by
  obtain ⟨m, hm, ht⟩ := (declaredAt_iff_descent.1 h).split hbefore hrest
  cases declaredAt_iff_descent.2 hm with
  | message nested => exact ⟨m, _, nested, rfl, ht⟩

/-! ## What the table answers -/

theorem mem_messagePaths_iff_declaredAt (hd : d.DotFree) {path : String} :
    path ∈ d.messagePaths ↔ ∃ m, d.DeclaredAt (Path.names path) (.message m) := by
  rw [mem_messagePaths_iff]
  constructor
  · rintro ⟨m, around, hm, rfl⟩
    exact ⟨m, hm.names hd ▸ .message hm⟩
  · rintro ⟨m, h⟩
    generalize hnames : Path.names path = names at h
    cases h with
    | message hm => exact ⟨m, _, hm, Path.names_inj.1 (hnames.trans (hm.names hd).symm)⟩

theorem mem_enumerationPaths_iff_declaredAt (hd : d.DotFree) {path : String} :
    path ∈ d.enumerationPaths ↔ ∃ e, d.DeclaredAt (Path.names path) (.enumeration e) := by
  have split {m : Message} {around : List Message} (hm : d.Nested m around) {e : Enumeration} (he : e ∈ m.enumerations) :
      Path.names (Path.join (pathOf m around) e.name) = namesOf m around ++ [e.name] := by
    rw [Path.names_join, hm.names hd, Path.names_of_dot_notMem (hd.enumeration hm e he)]
  rw [mem_enumerationPaths_iff]
  constructor
  · rintro ⟨m, around, hm, e, he, rfl⟩
    exact ⟨e, split hm he ▸ .enumeration hm he⟩
  · rintro ⟨e, h⟩
    generalize hnames : Path.names path = names at h
    cases h with
    | enumeration hm he => exact ⟨_, _, hm, e, he, Path.names_inj.1 (hnames.trans (split hm he).symm)⟩

theorem declares_iff_declaredAt (hd : d.DotFree) {path : String} :
    d.Declares path ↔ ∃ t, d.DeclaredAt (Path.names path) t := by
  rw [Declares, mem_messagePaths_iff_declaredAt hd, mem_enumerationPaths_iff_declaredAt hd]
  constructor
  · intro h
    rcases h with ⟨m, h⟩ | ⟨e, h⟩
    · exact ⟨_, h⟩
    · exact ⟨_, h⟩
  · rintro ⟨t, h⟩
    cases t with
    | message m => exact Or.inl ⟨m, h⟩
    | enumeration e => exact Or.inr ⟨e, h⟩

/-- Finding a path, by lists of names instead of strings. -/
theorem finds_iff_names {scope path : String} :
    d.Finds scope path ↔
      d.Declares path ∨ ∃ around, Path.names around <+: Path.names scope ∧ d.Declares (Path.join around path) := by
  simp only [Finds, Path.names_prefix_iff]

/-- What the scopes around a message find is what a way down from the top finds, or one
    from a message with the path of the message or of one around it. -/
theorem Nested.finds_iff_descent {m : Message} {around : List Message} (h : d.Nested m around) (hd : d.DotFree)
    {path : String} :
    d.Finds (pathOf m around) path ↔
      (∃ t, Descent d.messages [] (Path.names path) t) ∨
        ∃ n outer, d.Nested n outer ∧ namesOf n outer <+: namesOf m around ∧
          ∃ t, Descent n.messages n.enumerations (Path.names path) t := by
  rw [finds_iff_names, h.names hd]
  refine or_congr ?_ ⟨?_, ?_⟩
  · rw [declares_iff_declaredAt hd]
    exact exists_congr fun t => declaredAt_iff_descent
  · rintro ⟨scope, hscope, hdeclares⟩
    obtain ⟨t, ht⟩ := (declares_iff_declaredAt hd).1 hdeclares
    rw [Path.names_join] at ht
    obtain ⟨n, outer, hn, hnames, ht⟩ := ht.split (Path.names_ne_nil scope) (Path.names_ne_nil path)
    exact ⟨n, outer, hn, hnames ▸ hscope, t, ht⟩
  · rintro ⟨n, outer, hn, hscope, t, ht⟩
    refine ⟨pathOf n outer, hn.names hd ▸ hscope, (declares_iff_declaredAt hd).2 ⟨t, ?_⟩⟩
    rw [Path.names_join, hn.names hd]
    exact hn.declaredAt ht

theorem message?_isSome_iff {name : String} : (d.message? name).isSome = true ↔ ∃ m ∈ d.messages, m.name = name := by
  simp [message?]

theorem service?_isSome_iff {name : String} : (d.service? name).isSome = true ↔ ∃ s ∈ d.services, s.2.name = name := by
  simp [service?]

theorem service_mem_keys {name : String} : Key.service name ∈ d.keys ↔ ∃ s ∈ d.services, s.2.name = name := by
  simp only [keys, services, List.mem_flatMap, List.mem_filterMap]
  constructor
  · rintro ⟨x, hx, h⟩
    cases x with
    | message m => simp [Definition.keys] at h
    | service direction s =>
      cases List.mem_singleton.1 h
      exact ⟨(direction, s), ⟨_, hx, rfl⟩, rfl⟩
  · rintro ⟨s, ⟨x, hx, hs⟩, rfl⟩
    cases x with
    | message m => cases hs
    | service direction s =>
      cases hs
      exact ⟨_, hx, List.mem_singleton.2 rfl⟩

theorem hasService_ofDocument {name : String} :
    (Symbols.ofDocument d).hasService name = true ↔ ∃ s ∈ d.services, s.2.name = name := by
  rw [Symbols.hasService_iff, ← Symbols.service_mem_keys, ← service_mem_keys]
  exact Symbols.mem_keys_declareEach.trans (or_iff_left List.not_mem_nil)

/-- The look-ups of a document's table, in the tree. A path is that of a message if its
    names lead down to one; a name without a dot or that of a service is found if a
    top-level message or a service bears it; a path used in a message is found if its
    names lead down to a message or an enumeration, from the top or from a message whose
    path the path of that message starts with. -/
theorem symbols_iff_descent (hd : d.DotFree) :
    (∀ path, (Symbols.ofDocument d).hasMessage path = true ↔
      ∃ m, Descent d.messages [] (Path.names path) (.message m)) ∧
    (∀ name, '.' ∉ name.toList →
      ((Symbols.ofDocument d).hasMessage name = true ↔ (d.message? name).isSome = true)) ∧
    (∀ name, (Symbols.ofDocument d).hasService name = true ↔ (d.service? name).isSome = true) ∧
    ∀ m around, d.Nested m around → ∀ path,
      (Symbols.ofDocument d).resolves (pathOf m around) path = true ↔
        (∃ t, Descent d.messages [] (Path.names path) t) ∨
          ∃ n outer, d.Nested n outer ∧ namesOf n outer <+: namesOf m around ∧
            ∃ t, Descent n.messages n.enumerations (Path.names path) t := by
  have message (path : String) : (Symbols.ofDocument d).hasMessage path = true ↔
      ∃ m, Descent d.messages [] (Path.names path) (.message m) := by
    rw [hasMessage_ofDocument, mem_messagePaths_iff_declaredAt hd]
    exact exists_congr fun m => declaredAt_iff_descent
  refine ⟨message, ?_, ?_, ?_⟩
  · intro name hname
    -- A name without a dot can only lead to a message at the top.
    rw [message, Path.names_of_dot_notMem hname, message?_isSome_iff]
    constructor
    · rintro ⟨m, h⟩
      exact ⟨m, h.of_singleton⟩
    · rintro ⟨m, hm, rfl⟩
      exact ⟨m, .message hm⟩
  · intro name
    rw [hasService_ofDocument, service?_isSome_iff]
  · intro m around hm path
    rw [resolves_ofDocument, hm.finds_iff_descent hd]

/-- Two messages of one path: what is declared in one of them is found from inside the
    other, but not below it, and a name that goes on after an enumeration is not found. -/
theorem symbols_iff_descent_repeated :
    ∃ d : Document, d.DotFree ∧ (Symbols.ofDocument d).resolves "A.B" "E" = true ∧
      (Symbols.ofDocument d).resolves "A.B" "C.E" = false ∧ (Symbols.ofDocument d).resolves "A.B" "E.X" = false ∧
      (∀ path, (Symbols.ofDocument d).hasMessage path = true ↔
        ∃ m, Descent d.messages [] (Path.names path) (.message m)) ∧
      (∀ name, '.' ∉ name.toList →
        ((Symbols.ofDocument d).hasMessage name = true ↔ (d.message? name).isSome = true)) ∧
      (∀ name, (Symbols.ofDocument d).hasService name = true ↔ (d.service? name).isSome = true) ∧
      ∀ m around, d.Nested m around → ∀ path,
        (Symbols.ofDocument d).resolves (pathOf m around) path = true ↔
          (∃ t, Descent d.messages [] (Path.names path) t) ∨
            ∃ n outer, d.Nested n outer ∧ namesOf n outer <+: namesOf m around ∧
              ∃ t, Descent n.messages n.enumerations (Path.names path) t := by
  let d : Document := ⟨[.message ⟨"A", [.message "B" [.field ⟨.plain, .reference "E", "x"⟩]]⟩,
    .message ⟨"A", [.enumeration ⟨"E", [⟨"X", 1⟩]⟩, .message "C" []]⟩, .service .outbound ⟨"B", [], none⟩]⟩
  have dotFree : d.DotFree := dotFree_of_wellFormed (by decide +kernel)
  exact ⟨d, dotFree, by decide +kernel, by decide +kernel, by decide +kernel, symbols_iff_descent dotFree⟩

end Document

end ServLang

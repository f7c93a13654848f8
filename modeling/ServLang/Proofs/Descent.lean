/-
  ServLang.Proofs.Descent — references as ways down the tree. The names of a reference
  are followed from the top of a document, or from a message around the place where it
  is used, one level for each name. Whoever holds a compiled document can do so without
  a look at the rules it was checked against:

  - a reference of a service leads to exactly one message, with one choice at each step;
  - a message and a service are found again by their names;
  - after strict checking, a reference of a field leads to a message or an enumeration.

  The checker has only said so of strings. That a string splits where its names were
  joined is the parser's doing: no name it reads holds a dot.

  Proved: a way down that ends at a message is the only one if no name repeats
  (`Descent.sole`); what a path finds by its scopes is found by a way down from a message
  around (`Finds.descent`); a compiled document is linked (`linked_of_compile`).
-/

import ServLang.Compilation
import ServLang.Proofs.FirstViolation
import ServLang.Proofs.RoundTrip

namespace ServLang

/-! ## Ways down -/

/-- The names lead down from some messages to one of them or to one inside, and at each
    step exactly one message has the name. -/
inductive SoleDescent : List Message → List String → Message → Prop
  | here {ms : List Message} {name : String} {m : Message} : ms.filter (·.name = name) = [m] →
      SoleDescent ms [name] m
  | inside {ms : List Message} {name : String} {m : Message} {names : List String} {n : Message} :
      ms.filter (·.name = name) = [m] → SoleDescent m.messages names n → SoleDescent ms (name :: names) n

inductive Declaration where
  | message (m : Message)
  | enumeration (e : Enumeration)

/-- The names lead down from the messages and enumerations of a body to one of them or to
    one inside. -/
inductive Descent : List Message → List Enumeration → List String → Declaration → Prop
  | message {ms : List Message} {es : List Enumeration} {m : Message} : m ∈ ms →
      Descent ms es [m.name] (.message m)
  | enumeration {ms : List Message} {es : List Enumeration} {e : Enumeration} : e ∈ es →
      Descent ms es [e.name] (.enumeration e)
  | inside {ms : List Message} {es : List Enumeration} {m : Message} {names : List String} {t : Declaration} :
      m ∈ ms → Descent m.messages m.enumerations names t → Descent ms es (m.name :: names) t

/-- Every name and every reference of the document stands for something. -/
structure Document.Linked (strict : Bool) (d : Document) : Prop where
  message : ∀ m ∈ d.messages, d.message? m.name = some m
  service : ∀ s ∈ d.services, d.service? s.2.name = some s
  serviceTypes : ∀ s ∈ d.services, ∀ j ty, s.2.TypeAt j ty → ∀ k r, ty.Mentions k r →
    ∃ m, SoleDescent d.messages (Path.names r) m
  fieldTypes : strict = true → ∀ m around, d.Nested m around → ∀ f ∈ m.fields, ∀ k r, f.type.Mentions k r →
    (∃ t, Descent d.messages [] (Path.names r) t) ∨
      ∃ n ∈ m :: around, ∃ t, Descent n.messages n.enumerations (Path.names r) t

namespace Descent

variable {ms : List Message} {es : List Enumeration} {m : Message} {names rest : List String} {t : Declaration}

theorem append (h : Descent ms es names (.message m)) (hrest : Descent m.messages m.enumerations rest t) :
    Descent ms es (names ++ rest) t := by
  generalize hu : Declaration.message m = u at h
  induction h with
  | message hm =>
    cases hu
    exact .inside hm hrest
  | enumeration he => cases hu
  | inside hm _ ih => exact .inside hm (ih hu)

/-- With no other message of the name, the way goes on from this one. -/
theorem tail (h : Descent ms es (m.name :: rest) t) (hd : Distinct ms) (hm : m ∈ ms) (hrest : rest ≠ []) :
    Descent m.messages m.enumerations rest t := by
  generalize hname : m.name = name at h
  cases h with
  | message _ => exact absurd rfl hrest
  | enumeration _ => exact absurd rfl hrest
  | inside hn h => exact hd.eq_of_name hm hn hname ▸ h

/-- Where names do not repeat, a way down is the only one. -/
theorem sole (h : Descent ms es names (.message m)) (hd : Distinct ms) : SoleDescent ms names m := by
  generalize ht : Declaration.message m = t at h
  induction h with
  | message hm =>
    cases ht
    exact .here (hd.filter hm)
  | enumeration he => cases ht
  | inside hm _ ih => exact .inside (hd.filter hm) (ih (hd.inside hm) ht)

end Descent

namespace Document

/-! ## From the names to the tree -/

namespace Nested

variable {d : Document} {m : Message} {around : List Message}

/-- The names of a message's path lead down to it. -/
theorem descent (h : d.Nested m around) (es : List Enumeration) :
    Descent d.messages es (namesOf m around) (.message m) := by
  induction h with
  | top hm => exact .message hm
  | inside _ hn ih =>
    rw [namesOf_inside]
    exact ih.append (.message hn)

/-- A way down by the names of a message's path and more passes through the message. -/
theorem descent_rest {es : List Enumeration} {rest : List String} {t : Declaration} (h : d.Nested m around)
    (hd : Distinct d.messages) (hrest : rest ≠ []) (ht : Descent d.messages es (namesOf m around ++ rest) t) :
    Descent m.messages m.enumerations rest t := by
  induction h generalizing rest with
  | top hm => exact ht.tail hd hm hrest
  | inside h hn ih =>
    rw [namesOf_inside, List.append_assoc] at ht
    exact (ih (List.cons_ne_nil _ _) ht).tail (h.distinct hd) hn hrest

theorem wellFormed (h : d.Nested m around) (hd : d.wellFormed = true) : m.wellFormed = true := by
  induction h with
  | top hm =>
    obtain ⟨x, hx, hxm⟩ := List.mem_filterMap.1 hm
    have hwf := List.all_eq_true.1 hd x hx
    cases x with
    | message m =>
      cases hxm
      exact hwf
    | service direction s => cases hxm
  | inside _ hn ih =>
    have hwf := (Message.wellFormed_iff.1 ih).2 _ (Message.mem_messages.1 hn)
    rwa [Member.wellFormed] at hwf

end Nested

/-- The parser's part: a name it reads has no dot. -/
theorem dotFree_of_wellFormed {d : Document} (h : d.wellFormed = true) : d.DotFree := by
  constructor
  · intro m around hm
    exact dot_notMem_of_isName (Message.wellFormed_iff.1 (hm.wellFormed h)).1
  · intro m around hm e he
    have hwf := (Message.wellFormed_iff.1 (hm.wellFormed h)).2 _ (Message.mem_enumerations.1 he)
    rw [Member.wellFormed, Enumeration.wellFormed, Bool.and_eq_true] at hwf
    exact dot_notMem_of_isName hwf.1

/-- A declared path leads down from the top of the document. -/
theorem Declares.descent {d : Document} {path : String} (h : d.Declares path) (hd : d.DotFree) :
    ∃ t, Descent d.messages [] (Path.names path) t := by
  rcases h with h | h
  · obtain ⟨m, around, hm, rfl⟩ := mem_messagePaths_iff.1 h
    exact ⟨.message m, hm.names hd ▸ hm.descent []⟩
  · obtain ⟨m, around, hm, e, he, rfl⟩ := mem_enumerationPaths_iff.1 h
    rw [Path.names_join, hm.names hd, Path.names_of_dot_notMem (hd.enumeration hm e he)]
    exact ⟨.enumeration e, (hm.descent []).append (.enumeration he)⟩

/-- A path that is found leads down from the top or from a message around. -/
theorem Finds.descent {d : Document} {m : Message} {around : List Message} {path : String}
    (h : d.Finds (pathOf m around) path) (hm : d.Nested m around) (hdot : d.DotFree) (hd : Distinct d.messages) :
    (∃ t, Descent d.messages [] (Path.names path) t) ∨
      ∃ n ∈ m :: around, ∃ t, Descent n.messages n.enumerations (Path.names path) t := by
  rcases h with h | ⟨scope, hscope, h⟩
  · exact Or.inl (h.descent hdot)
  have before : ∃ rest, namesOf m around = Path.names scope ++ rest := by
    rw [← hm.names hdot]
    rcases hscope with rfl | ⟨rest, hrest⟩
    · exact ⟨[], (List.append_nil _).symm⟩
    · exact ⟨Path.names rest, by rw [hrest, Path.names_join]⟩
  -- The scope is the path of a message around, and the way down to the join passes through it.
  obtain ⟨rest, hrest⟩ := before
  obtain ⟨n, hn, outer, houter, hnames⟩ := hm.exists_of_append hrest (Path.names_ne_nil scope)
  obtain ⟨t, ht⟩ := h.descent hdot
  rw [Path.names_join, ← hnames] at ht
  exact Or.inr ⟨n, hn, t, houter.descent_rest hd (Path.names_ne_nil path) ht⟩

/-! ## Where it is mentioned -/

theorem exists_serviceMentions {s : Direction × Service} {j k : Nat} {ty : Ty} {r : String} {d : Document}
    (hs : s ∈ d.services) (hty : s.2.TypeAt j ty) (hr : ty.Mentions k r) :
    ∃ place, d.ServiceMentions place ⟨s.2.name, r⟩ := by
  obtain ⟨x, hx, hxs⟩ := List.mem_filterMap.1 hs
  obtain ⟨i, hi⟩ := List.mem_iff_getElem?.1 hx
  cases Definition.service?_eq_some_iff.1 hxs
  exact ⟨_, .intro hi hty hr⟩

theorem Nested.exists_fieldMentions {d : Document} {m : Message} {around : List Message} {f : Field} {k : Nat}
    {r : String} (h : d.Nested m around) (hf : f ∈ m.fields) (hr : f.type.Mentions k r) :
    ∃ place, d.FieldMentions place ⟨pathOf m around, f.name, r⟩ := by
  obtain ⟨node, hnode⟩ := exists_at_iff_nested.2 ⟨around, h, rfl⟩
  obtain ⟨i, hi⟩ := List.mem_iff_getElem?.1 (Message.mem_fields.1 hf)
  exact ⟨_, .intro hnode hi hr⟩

/-! ## Compiled documents -/

theorem Valid.linked {strict : Bool} {d : Document} (h : d.Valid strict) (hdot : d.DotFree) : d.Linked strict := by
  have distinct := distinct_of_keys_nodup h.distinct
  constructor
  · intro m hm
    exact find?_eq_some_of_nodup distinct.names hm
  · intro s hs
    exact find?_eq_some_of_nodup (serviceNames_nodup_of_keys_nodup h.distinct) hs
  · intro s hs j ty hty k r hr
    obtain ⟨place, hplace⟩ := exists_serviceMentions hs hty hr
    obtain ⟨m, around, hm, hr⟩ := mem_messagePaths_iff.1 (h.services place _ hplace)
    obtain rfl : r = pathOf m around := hr
    exact ⟨m, hm.names hdot ▸ (hm.descent []).sole distinct⟩
  · intro hstrict m around hm f hf k r hr
    obtain ⟨place, hplace⟩ := hm.exists_fieldMentions hf hr
    exact (h.fields hstrict place _ hplace).descent hm hdot distinct

/-- Every name and every reference of a compiled document leads somewhere. -/
theorem linked_of_compile {strict : Bool} {bytes : ByteArray} {d : Document} (h : compile strict bytes = .ok d) :
    d.Linked strict := by
  obtain ⟨text, _, hparse, hvalid⟩ := compile_eq_ok_iff.1 h
  exact (violation?_eq_none_iff_valid.1 hvalid).linked (dotFree_of_wellFormed (wellFormed_of_parse hparse))

/-- Two messages refer to one another, and the inner one to an enumeration beside it. -/
theorem linked_of_compile_nested :
    ∃ d, compile true "message A { enum E { X = 1 } message B { E e; map<string, A> a } B b } inbound S(A.B);".toUTF8 =
        .ok d ∧ d.Linked true := by
  have parsed : parse "message A { enum E { X = 1 } message B { E e; map<string, A> a } B b } inbound S(A.B);" =
      .ok ⟨[.message ⟨"A", [.enumeration ⟨"E", [⟨"X", 1⟩]⟩,
          .message "B" [.field ⟨.plain, .reference "E", "e"⟩,
            .field ⟨.plain, .map (.scalar .string) (.reference "A"), "a"⟩],
          .field ⟨.plain, .reference "B", "b"⟩]⟩,
        .service .inbound ⟨"S", [.reference "A.B"], none⟩]⟩ := by decide +kernel
  have compiled := (@compile_eq_ok_iff true _ _).2 ⟨_, Source.decode_toUTF8 _, parsed, by decide +kernel⟩
  exact ⟨_, compiled, linked_of_compile compiled⟩

end Document

end ServLang

/-
  ServLang.Proofs.Reordering — the order in which a document is written. A document is
  reordered if its definitions come in another order, and so do the members of messages
  and the values of enumerations, at any depth.

  Which of two members of one name is reported as the repeated one depends on their
  order, and so does what a table holds when a reference is looked up in a walk. But a
  repeated name is reported as often as it is declared again, wherever that is, and no
  reference is looked up before the table is that of the whole document.

  Proved:
  - `Member.Reordered.descendants_flatMap`: what is read off each member alone, at any
    depth, is the same up to order.
  - `Document.Reordered.valid_iff`: the rules of validation do not depend on the order.
  - `Member.Reordered.findings_perm`: nor do the findings of the linter.
  - `Document.Reordered.accepted_iff_and_lint_perm`: the two for whole documents.
-/

import Mathlib.Data.List.Forall2
import ServLang.Proofs.Findings
import ServLang.Proofs.Nesting

namespace ServLang

/-! ## Reordered documents -/

/-- Members are reordered one by one, and then change places. -/
inductive Member.Reordered : Member → Member → Prop
  | field (f : Field) : Reordered (.field f) (.field f)
  | enumeration {name : String} {vs ws : List EnumValue} : vs.Perm ws →
      Reordered (.enumeration ⟨name, vs⟩) (.enumeration ⟨name, ws⟩)
  | message {name : String} {ms ns ps : List Member} : List.Forall₂ Reordered ms ns → ns.Perm ps →
      Reordered (.message name ms) (.message name ps)

def Message.Reordered (m n : Message) : Prop :=
  (Member.message m.name m.members).Reordered (.message n.name n.members)

inductive Definition.Reordered : Definition → Definition → Prop
  | message {m n : Message} : m.Reordered n → Reordered (.message m) (.message n)
  | service (direction : Direction) (s : Service) : Reordered (.service direction s) (.service direction s)

inductive Document.Reordered : Document → Document → Prop
  | intro {xs ys zs : List Definition} : List.Forall₂ Definition.Reordered xs ys → ys.Perm zs → Reordered ⟨xs⟩ ⟨zs⟩

/-! ## Lists in another order -/

section Lists

variable {α β γ : Type} {related : α → β → Prop} {xs : List α} {ys zs : List β}

theorem flatMap_perm_of_forall₂ {f : α → List γ} {g : β → List γ} (h : List.Forall₂ related xs ys) (hp : ys.Perm zs)
    (hfg : ∀ x ∈ xs, ∀ y, related x y → (f x).Perm (g y)) : (xs.flatMap f).Perm (zs.flatMap g) := by
  refine List.Perm.trans ?_ (hp.flatMap_right g)
  clear hp
  induction h with
  | nil => exact .refl _
  | cons hxy _ ih =>
    rw [List.flatMap_cons, List.flatMap_cons]
    exact (hfg _ List.mem_cons_self _ hxy).append (ih fun x hx y hy => hfg x (List.mem_cons_of_mem _ hx) y hy)

theorem map_perm_of_forall₂ {f : α → γ} {g : β → γ} (h : List.Forall₂ related xs ys) (hp : ys.Perm zs)
    (hfg : ∀ x y, related x y → f x = g y) : (xs.map f).Perm (zs.map g) := by
  rw [List.map_eq_flatMap, List.map_eq_flatMap]
  exact flatMap_perm_of_forall₂ h hp fun x _ y hxy => by rw [hfg x y hxy]

end Lists

namespace Member.Reordered

variable {x y : Member}

theorem name_eq (h : x.Reordered y) : x.name = y.name := by cases h <;> rfl

/-! ## What is read off each member -/

section Descendants

variable {β : Type} {f : ScopedMember → List β}

theorem withDescendants_flatMap_of_forall {ms ns ps : List Member} (h : List.Forall₂ Reordered ms ns) (hp : ns.Perm ps)
    (hf : ∀ scope x y, Reordered x y → f ⟨scope, x⟩ = f ⟨scope, y⟩) (scope : String)
    (inside : ∀ x ∈ ms, ∀ y, x.Reordered y → ((x.descendants scope).flatMap f).Perm ((y.descendants scope).flatMap f)) :
    ((withDescendants scope ms).flatMap f).Perm ((withDescendants scope ps).flatMap f) := by
  rw [withDescendants_eq, withDescendants_eq, List.flatMap_assoc, List.flatMap_assoc]
  refine flatMap_perm_of_forall₂ h hp fun x hx y hxy => ?_
  rw [List.flatMap_cons, List.flatMap_cons, hf scope x y hxy]
  exact (inside x hx y hxy).append_left _

/-- What is gathered inside a member is the same up to order. -/
theorem descendants_flatMap (h : x.Reordered y) (hf : ∀ scope x y, Reordered x y → f ⟨scope, x⟩ = f ⟨scope, y⟩)
    (scope : String) : ((x.descendants scope).flatMap f).Perm ((y.descendants scope).flatMap f) := by
  induction x generalizing y scope with
  | field g =>
    cases h
    exact .refl _
  | enumeration e =>
    cases h
    exact .refl _
  | message name members ih =>
    cases h with
    | message hms hps => exact withDescendants_flatMap_of_forall hms hps hf _ fun x hx y hxy => ih x hx hxy _

end Descendants

end Member.Reordered

namespace Message.Reordered

variable {m n : Message} {β : Type}

theorem descendants_flatMap {f : ScopedMember → List β} (h : m.Reordered n)
    (hf : ∀ scope x y, Member.Reordered x y → f ⟨scope, x⟩ = f ⟨scope, y⟩) :
    (m.descendants.flatMap f).Perm (n.descendants.flatMap f) := by
  obtain ⟨name, members⟩ := m
  obtain ⟨name', members'⟩ := n
  cases h with
  | message hms hps =>
    exact Member.Reordered.withDescendants_flatMap_of_forall hms hps hf name fun x _ y hxy =>
      hxy.descendants_flatMap hf name

theorem descendants_filterMap {f : ScopedMember → Option β} (h : m.Reordered n)
    (hf : ∀ scope x y, Member.Reordered x y → f ⟨scope, x⟩ = f ⟨scope, y⟩) :
    (m.descendants.filterMap f).Perm (n.descendants.filterMap f) := by
  rw [List.filterMap_eq_flatMap_toList, List.filterMap_eq_flatMap_toList]
  exact h.descendants_flatMap fun scope x y hxy => by rw [hf scope x y hxy]

theorem name_eq (h : m.Reordered n) : m.name = n.name := Member.Reordered.name_eq h

theorem paths_perm (h : m.Reordered n) : m.paths.Perm n.paths := by
  rw [Message.paths, Message.paths, h.name_eq]
  refine (h.descendants_filterMap fun scope x y hxy => ?_).cons _
  cases hxy <;> rfl

theorem enumerationPaths_perm (h : m.Reordered n) :
    (m.descendants.filterMap ScopedMember.enumerationPath?).Perm
      (n.descendants.filterMap ScopedMember.enumerationPath?) := by
  refine h.descendants_filterMap fun scope x y hxy => ?_
  cases hxy <;> rfl

theorem references_perm (h : m.Reordered n) :
    (m.descendants.flatMap ScopedMember.references).Perm (n.descendants.flatMap ScopedMember.references) := by
  refine h.descendants_flatMap fun scope x y hxy => ?_
  cases hxy <;> rfl

end Message.Reordered

/-! ## Validation -/

namespace Document

/-- All that the rules of validation look at is the same, up to order. -/
structure Alike (d e : Document) : Prop where
  keys : d.keys.Perm e.keys
  messagePaths : d.messagePaths.Perm e.messagePaths
  enumerationPaths : d.enumerationPaths.Perm e.enumerationPaths
  serviceReferences : d.serviceReferences.Perm e.serviceReferences
  fieldReferences : d.fieldReferences.Perm e.fieldReferences

namespace Alike

variable {d e : Document}

theorem symm (h : Alike d e) : Alike e d :=
  ⟨h.keys.symm, h.messagePaths.symm, h.enumerationPaths.symm, h.serviceReferences.symm, h.fieldReferences.symm⟩

theorem finds_iff (h : Alike d e) (scope path : String) : d.Finds scope path ↔ e.Finds scope path := by
  simp only [Finds, Declares, h.messagePaths.mem_iff, h.enumerationPaths.mem_iff]

/-- The rules are about elements, not about where they stand. -/
theorem valid (h : Alike d e) {strict : Bool} (hd : d.Valid strict) : e.Valid strict := by
  constructor
  · exact h.keys.nodup_iff.1 hd.distinct
  · refine e.serviceReferences_listed.forall_iff.1 fun r hr => h.messagePaths.mem_iff.1 ?_
    exact d.serviceReferences_listed.forall_iff.2 hd.services r (h.serviceReferences.mem_iff.2 hr)
  · intro hstrict
    refine e.fieldReferences_listed.forall_iff.1 fun r hr => (h.finds_iff _ _).1 ?_
    exact d.fieldReferences_listed.forall_iff.2 (hd.fields hstrict) r (h.fieldReferences.mem_iff.2 hr)

theorem resolves_eq (h : Alike d e) (scope path : String) :
    (Symbols.ofDocument d).resolves scope path = (Symbols.ofDocument e).resolves scope path := by
  rw [Bool.eq_iff_iff, resolves_ofDocument, resolves_ofDocument]
  exact h.finds_iff scope path

end Alike

namespace Reordered

variable {d e : Document} {β : Type}

theorem definitions_flatMap {f g : Definition → List β} (h : d.Reordered e)
    (hfg : ∀ x y, x.Reordered y → (f x).Perm (g y)) : (d.definitions.flatMap f).Perm (e.definitions.flatMap g) := by
  cases h with
  | intro hxs hp => exact flatMap_perm_of_forall₂ hxs hp fun x _ y hxy => hfg x y hxy

theorem messages_flatMap {f g : Message → List β} (h : d.Reordered e)
    (hfg : ∀ m n, m.Reordered n → (f m).Perm (g n)) : (d.messages.flatMap f).Perm (e.messages.flatMap g) := by
  rw [messages, messages, List.filterMap_eq_flatMap_toList, List.filterMap_eq_flatMap_toList, List.flatMap_assoc,
    List.flatMap_assoc]
  refine h.definitions_flatMap fun x y hxy => ?_
  cases hxy with
  | message hmn => simpa [Definition.message?] using hfg _ _ hmn
  | service direction s => exact .refl _

theorem services_flatMap (f : Direction × Service → List β) (h : d.Reordered e) :
    (d.services.flatMap f).Perm (e.services.flatMap f) := by
  rw [services, services, List.filterMap_eq_flatMap_toList, List.filterMap_eq_flatMap_toList, List.flatMap_assoc,
    List.flatMap_assoc]
  refine h.definitions_flatMap fun x y hxy => ?_
  cases hxy <;> exact .refl _

/-- A reordered document has the same keys, paths and references. -/
theorem alike (h : d.Reordered e) : Alike d e := by
  constructor
  · refine h.definitions_flatMap fun x y hxy => ?_
    cases hxy with
    | message hmn => exact hmn.paths_perm.map _
    | service direction s => exact .refl _
  · exact h.messages_flatMap fun m n hmn => hmn.paths_perm
  · exact h.messages_flatMap fun m n hmn => hmn.enumerationPaths_perm
  · exact h.services_flatMap _
  · exact h.messages_flatMap fun m n hmn => hmn.references_perm

theorem valid_iff (h : d.Reordered e) (strict : Bool) : d.Valid strict ↔ e.Valid strict :=
  ⟨h.alike.valid, h.alike.symm.valid⟩

end Reordered

end Document

/-! ## Findings -/

section Findings

variable {s t : Symbols}

namespace Member.Reordered

/-- The findings of a message are those of its body, wherever the message stands. -/
theorem findingsAll_perm_of_forall {ms ns ps : List Member} (h : List.Forall₂ Reordered ms ns) (hp : ns.Perm ps)
    (name path : String)
    (inside : ∀ x ∈ ms, ∀ y, x.Reordered y → (x.findings s path).Perm (y.findings t path)) :
    (Finding.when ms.isEmpty path (.emptyMessage name) ++ findingsAll s path [] ms).Perm
      (Finding.when ps.isEmpty path (.emptyMessage name) ++ findingsAll t path [] ps) := by
  have names : (ms.map Member.name).Perm (ps.map Member.name) := map_perm_of_forall₂ h hp fun x y hxy => hxy.name_eq
  have empty : ms.isEmpty = ps.isEmpty := by simpa using names.isEmpty_eq
  have all : (findingsAll s path [] ms).Perm (findingsAll t path [] ps) := by
    refine (findingsAll_perm s path [] ms).trans (List.Perm.trans ?_ (findingsAll_perm t path [] ps).symm)
    exact ((repeats_perm names).map _).append (flatMap_perm_of_forall₂ h hp inside)
  rw [empty]
  exact all.append_left _

theorem findings_perm {x y : Member} (h : x.Reordered y)
    (hst : ∀ scope path, s.resolves scope path = t.resolves scope path) (scope : String) :
    (x.findings s scope).Perm (y.findings t scope) := by
  induction x generalizing y scope with
  | field f =>
    cases h
    simp only [findings, Field.findings, hst, List.Perm.refl]
  | enumeration e =>
    cases h with
    | enumeration hvs =>
      simp only [findings, Enumeration.findings, Enumeration.repeatedKeys_eq, hvs.isEmpty_eq]
      exact ((repeats_perm (hvs.map _)).map _).append_left _
  | message name members ih =>
    cases h with
    | message hms hps => exact findingsAll_perm_of_forall hms hps name _ fun x hx y hxy => ih x hx hxy _

end Member.Reordered

/-- A reordered message has the same findings, up to order. -/
theorem Message.Reordered.findings_perm {m n : Message} (h : m.Reordered n)
    (hst : ∀ scope path, s.resolves scope path = t.resolves scope path) : (m.findings s).Perm (n.findings t) := by
  obtain ⟨name, members⟩ := m
  obtain ⟨name', members'⟩ := n
  cases h with
  | message hms hps =>
    exact Member.Reordered.findingsAll_perm_of_forall hms hps name name fun x _ y hxy => hxy.findings_perm hst name

end Findings

/-- The order of a document's parts does not matter: validation accepts the document in
    every order or in none, and the linter finds the same in all of them. -/
theorem Document.Reordered.accepted_iff_and_lint_perm {d e : Document} (h : d.Reordered e) :
    (∀ strict, d.validate strict = .ok d ↔ e.validate strict = .ok e) ∧ e.lint.Perm d.lint := by
  constructor
  · intro strict
    simp only [validate_eq_ok_iff, violation?_eq_none_iff_valid, true_and]
    exact h.valid_iff strict
  · exact (h.messages_flatMap fun m n hmn => hmn.findings_perm h.alike.resolves_eq).symm

/-- A service before and behind the messages it names, and the later one of two members
    of one name before and behind the other. -/
theorem Document.Reordered.accepted_iff_and_lint_perm_forward :
    ∃ d e : Document, d.Reordered e ∧ d.validate true = .ok d ∧ e.lint ≠ d.lint ∧
      (∀ strict, d.validate strict = .ok d ↔ e.validate strict = .ok e) ∧ e.lint.Perm d.lint := by
  let user : Definition := .service .inbound ⟨"S", [.reference "M.N"], none⟩
  let field (name : String) : Member := .field ⟨.plain, .reference "N", name⟩
  let nested : Member := .message "N" [.enumeration ⟨"E", [⟨"A", 1⟩, ⟨"B", 2⟩, ⟨"A", 3⟩]⟩]
  let nested' : Member := .message "N" [.enumeration ⟨"E", [⟨"A", 3⟩, ⟨"A", 1⟩, ⟨"B", 2⟩]⟩]
  let d : Document := ⟨[user, .message ⟨"M", [field "x", nested, field "x"]⟩]⟩
  let e : Document := ⟨[.message ⟨"M", [field "x", field "x", nested']⟩, user]⟩
  have inner : nested.Reordered nested' := .message (.cons (.enumeration (by decide +kernel)) .nil) (.refl _)
  have outer : (Message.mk "M" [field "x", nested, field "x"]).Reordered ⟨"M", [field "x", field "x", nested']⟩ :=
    .message (.cons (.field _) (.cons inner (.cons (.field _) .nil))) (.cons _ (.swap _ _ _))
  have reordered : d.Reordered e := .intro (.cons (.service _ _) (.cons (.message outer) .nil)) (.swap _ _ _)
  exact ⟨d, e, reordered, validate_eq_ok_iff.2 ⟨rfl, by decide +kernel⟩, by decide +kernel,
    reordered.accepted_iff_and_lint_perm⟩

end ServLang

/-
  ServLang.Proofs.Renaming — documents under other names. A renaming gives every name a
  name of its own, and a path the names of its parts. Validation and the linter only
  compare names and paths, so they say of a renamed document what they say of the
  document, in its new names.

  This would fail if two paths could be taken for one another: a name for one that starts
  with it, or a name for two names that meet at a dot. Paths are joined, cut at dots and
  looked up as strings; what keeps them apart is that no name is empty or holds a dot,
  before and after.

  Proved:
  - `Renaming.path_inj`, `path_join`: renaming paths keeps them apart and commutes with
    joining them.
  - `Member.withDescendants_rename`: the members of a renamed body, at any depth.
  - `Document.finds_rename`: a renamed path finds something exactly if the path did.
  - `Member.findings_rename`: the linter's walk over a renamed member.
  - `Document.validate_rename_and_lint`: both for whole documents.
-/

import Mathlib.Data.List.Basic
import Mathlib.Data.List.Find
import ServLang.Proofs.Findings
import ServLang.Proofs.Scoping

namespace ServLang

/-! ## Renamed documents -/

def IsPlain (name : String) : Prop := name ≠ "" ∧ '.' ∉ name.toList

structure Renaming where
  name : String → String
  plain : ∀ {n : String}, IsPlain n → IsPlain (name n)
  injective : ∀ {m n : String}, IsPlain m → IsPlain n → name m = name n → m = n

/-- Every name between the dots of a path is renamed. -/
def Renaming.path (ρ : Renaming) (path : String) : String := Path.ofNames ((Path.names path).map ρ.name)

section Rename

variable (ρ : Renaming)

def Ty.rename : Ty → Ty
  | scalar s => scalar s
  | map key value => map key.rename value.rename
  | reference path => reference (ρ.path path)

def Field.rename (f : Field) : Field := { f with name := ρ.name f.name, type := f.type.rename ρ }

def EnumValue.rename (v : EnumValue) : EnumValue := { v with key := ρ.name v.key }

def Enumeration.rename (e : Enumeration) : Enumeration := ⟨ρ.name e.name, e.values.map (EnumValue.rename ρ)⟩

namespace Member

mutual

def rename : Member → Member
  | field f => field (f.rename ρ)
  | enumeration e => enumeration (e.rename ρ)
  | message name members => message (ρ.name name) (renameAll members)

def renameAll : List Member → List Member
  | [] => []
  | m :: ms => m.rename :: renameAll ms

end

theorem renameAll_eq_map (ms : List Member) : renameAll ρ ms = ms.map (rename ρ) := by
  induction ms with
  | nil => rfl
  | cons m ms ih => rw [renameAll, ih, List.map_cons]

theorem name_rename (m : Member) : (m.rename ρ).name = ρ.name m.name := by
  cases m <;> rfl

end Member

def Message.rename (m : Message) : Message := ⟨ρ.name m.name, m.members.map (Member.rename ρ)⟩

def Service.rename (s : Service) : Service :=
  ⟨ρ.name s.name, s.request.map (Ty.rename ρ), s.response.map (Ty.rename ρ)⟩

def Definition.rename : Definition → Definition
  | message m => message (m.rename ρ)
  | service direction s => service direction (s.rename ρ)

def Document.rename (d : Document) : Document := ⟨d.definitions.map (Definition.rename ρ)⟩

def Key.rename : Key → Key
  | message path => message (ρ.path path)
  | service name => service (ρ.name name)

def Violation.rename : Violation → Violation
  | duplicate key => duplicate (key.rename ρ)
  | unknownMessage service path => unknownMessage (ρ.name service) (ρ.path path)
  | unknownType message field path => unknownType (ρ.path message) (ρ.name field) (ρ.path path)

def Issue.rename : Issue → Issue
  | unresolvedFieldReference field path => unresolvedFieldReference (ρ.name field) (ρ.path path)
  | duplicateMember name => duplicateMember (ρ.name name)
  | duplicateEnumValue key => duplicateEnumValue (ρ.name key)
  | emptyMessage name => emptyMessage (ρ.name name)
  | emptyEnum name => emptyEnum (ρ.name name)

def Finding.rename (x : Finding) : Finding := ⟨ρ.path x.path, x.issue.rename ρ⟩

theorem Issue.rule_rename (i : Issue) : (i.rename ρ).rule = i.rule := by
  cases i <;> rfl

def ScopedMember.rename (p : ScopedMember) : ScopedMember := ⟨ρ.path p.scope, p.member.rename ρ⟩

def ServiceReference.rename (r : ServiceReference) : ServiceReference := ⟨ρ.name r.service, ρ.path r.path⟩

def FieldReference.rename (r : FieldReference) : FieldReference := ⟨ρ.path r.message, ρ.name r.field, ρ.path r.path⟩

end Rename

/-! ## Documents with plain names -/

def Path.IsPlain (path : String) : Prop := ∀ name ∈ names path, ServLang.IsPlain name

def Ty.Plain (ty : Ty) : Prop := ∀ path ∈ ty.references, Path.IsPlain path

inductive Member.Plain : Member → Prop
  | field {f : Field} : IsPlain f.name → f.type.Plain → Plain (.field f)
  | enumeration {e : Enumeration} : IsPlain e.name → (∀ v ∈ e.values, IsPlain v.key) → Plain (.enumeration e)
  | message {name : String} {members : List Member} : IsPlain name → (∀ m ∈ members, Plain m) →
      Plain (.message name members)

structure Message.Plain (m : Message) : Prop where
  name : IsPlain m.name
  members : ∀ x ∈ m.members, x.Plain

structure Service.Plain (s : Service) : Prop where
  name : IsPlain s.name
  types : ∀ ty ∈ s.types, ty.Plain

inductive Definition.Plain : Definition → Prop
  | message {m : Message} : m.Plain → Plain (.message m)
  | service {direction : Direction} {s : Service} : s.Plain → Plain (.service direction s)

/-- Every name is plain, and every reference is plain names with dots between them. -/
def Document.Plain (d : Document) : Prop := ∀ x ∈ d.definitions, x.Plain

theorem Member.Plain.name {m : Member} (h : m.Plain) : IsPlain m.name := by
  cases h with
  | field h _ => exact h
  | enumeration h _ => exact h
  | message h _ => exact h

namespace Document.Plain

variable {d : Document}

theorem messages (h : d.Plain) : ∀ m ∈ d.messages, m.Plain := by
  intro m hm
  obtain ⟨x, hx, hxm⟩ := List.mem_filterMap.1 hm
  cases h x hx with
  | message h =>
    cases hxm
    exact h
  | service _ => cases hxm

theorem services (h : d.Plain) : ∀ s ∈ d.services, s.2.Plain := by
  intro s hs
  obtain ⟨x, hx, hxs⟩ := List.mem_filterMap.1 hs
  cases h x hx with
  | message _ => cases hxs
  | service h =>
    cases hxs
    exact h

end Document.Plain

/-! ## What a source can describe is plain -/

theorem isPlain_of_isName {name : String} (h : isName name = true) : IsPlain name := by
  refine ⟨?_, dot_notMem_of_isName h⟩
  rintro rfl
  cases h

theorem Ty.plain_of_wellFormed {ty : Ty} (h : ty.wellFormed = true) : ty.Plain := by
  intro path hpath name hname
  obtain ⟨part, hpart, rfl⟩ := List.mem_map.1 hname
  exact isPlain_of_isName (List.all_eq_true.1 (List.all_eq_true.1 h path hpath) part hpart)

theorem Member.plain_of_wellFormed {m : Member} (h : m.wellFormed = true) : m.Plain := by
  induction m with
  | field f =>
    rw [wellFormed, Field.wellFormed, Bool.and_eq_true] at h
    exact .field (isPlain_of_isName h.1) (Ty.plain_of_wellFormed h.2)
  | enumeration e =>
    rw [wellFormed, Enumeration.wellFormed, Bool.and_eq_true, List.all_eq_true] at h
    exact .enumeration (isPlain_of_isName h.1) fun v hv => isPlain_of_isName (h.2 v hv)
  | message name members ih =>
    rw [wellFormed, Bool.and_eq_true, wellFormedAll_iff] at h
    exact .message (isPlain_of_isName h.1) fun m hm => ih m hm (h.2 m hm)

theorem Document.plain_of_wellFormed {d : Document} (h : d.wellFormed = true) : d.Plain := by
  intro x hx
  have hwf := List.all_eq_true.1 h x hx
  cases x with
  | message m =>
    obtain ⟨hname, hmembers⟩ := Message.wellFormed_iff.1 hwf
    exact .message ⟨isPlain_of_isName hname, fun y hy => Member.plain_of_wellFormed (hmembers y hy)⟩
  | service direction s =>
    rw [Definition.wellFormed, Service.wellFormed, Bool.and_eq_true, List.all_eq_true] at hwf
    exact .service ⟨isPlain_of_isName hwf.1, fun ty hty => Ty.plain_of_wellFormed (hwf.2 ty hty)⟩

/-! ## Renamed paths -/

namespace Path

theorem isPlain_of_isPlain {name : String} (h : ServLang.IsPlain name) : IsPlain name := by
  intro n hn
  rw [names_of_dot_notMem h.2, List.mem_singleton] at hn
  exact hn ▸ h

theorem isPlain_join {scope name : String} (hscope : IsPlain scope) (hname : ServLang.IsPlain name) :
    IsPlain (join scope name) := by
  intro n hn
  rw [names_join, List.mem_append] at hn
  rcases hn with hn | hn
  · exact hscope n hn
  · exact isPlain_of_isPlain hname n hn

end Path

namespace Renaming

variable (ρ : Renaming) {p q scope name : String}

theorem path_of_isPlain (h : IsPlain name) : ρ.path name = ρ.name name := by
  rw [path, Path.names_of_dot_notMem h.2, List.map_singleton, Path.ofNames, String.intercalate_singleton]

theorem path_append (p q : String) : ρ.path (Path.join p q) = Path.join (ρ.path p) (ρ.path q) := by
  rw [path, Path.names_join, List.map_append, Path.ofNames_append]
  · rfl
  · simp [Path.names_ne_nil]
  · simp [Path.names_ne_nil]

/-- Renaming goes through paths name by name. -/
theorem path_join (h : IsPlain name) : ρ.path (Path.join scope name) = Path.join (ρ.path scope) (ρ.name name) := by
  rw [path_append, ρ.path_of_isPlain h]

theorem names_path (h : Path.IsPlain p) : Path.names (ρ.path p) = (Path.names p).map ρ.name := by
  refine Path.names_ofNames (by simp [Path.names_ne_nil]) ?_
  intro n hn
  obtain ⟨name, hname, rfl⟩ := List.mem_map.1 hn
  exact (ρ.plain (h name hname)).2

theorem map_name_inj {ms ns : List String} (hms : ∀ n ∈ ms, IsPlain n) (hns : ∀ n ∈ ns, IsPlain n)
    (h : ms.map ρ.name = ns.map ρ.name) : ms = ns := by
  induction ms generalizing ns with
  | nil => exact (List.map_eq_nil_iff.1 h.symm).symm
  | cons m ms ih =>
    cases ns with
    | nil => cases h
    | cons n ns =>
      obtain ⟨hmn, h⟩ := List.cons.inj h
      rw [ρ.injective (hms m List.mem_cons_self) (hns n List.mem_cons_self) hmn,
        ih (fun k hk => hms k (List.mem_cons_of_mem _ hk)) (fun k hk => hns k (List.mem_cons_of_mem _ hk)) h]

/-- Different plain paths keep different names. -/
theorem path_inj (hp : Path.IsPlain p) (hq : Path.IsPlain q) : ρ.path p = ρ.path q ↔ p = q := by
  refine ⟨fun h => ?_, congrArg ρ.path⟩
  rw [← Path.names_inj, ρ.names_path hp, ρ.names_path hq] at h
  exact Path.names_inj.1 (ρ.map_name_inj hp hq h)

theorem path_mem_map {paths : List String} (hpaths : ∀ q ∈ paths, Path.IsPlain q) (hp : Path.IsPlain p) :
    ρ.path p ∈ paths.map ρ.path ↔ p ∈ paths := by
  refine ⟨fun h => ?_, List.mem_map_of_mem⟩
  obtain ⟨q, hq, heq⟩ := List.mem_map.1 h
  exact (ρ.path_inj (hpaths q hq) hp).1 heq ▸ hq

theorem name_mem_map {names : List String} (hnames : ∀ n ∈ names, IsPlain n) (hname : IsPlain name) :
    ρ.name name ∈ names.map ρ.name ↔ name ∈ names := by
  refine ⟨fun h => ?_, List.mem_map_of_mem⟩
  obtain ⟨n, hn, heq⟩ := List.mem_map.1 h
  exact ρ.injective (hnames n hn) hname heq ▸ hn

/-- The scopes around a renamed place are the scopes around the place, renamed. -/
theorem names_prefix_path_iff (hscope : Path.IsPlain scope) {around : String} :
    Path.names around <+: Path.names (ρ.path scope) ↔
      ∃ outer, Path.names outer <+: Path.names scope ∧ ρ.path outer = around := by
  rw [ρ.names_path hscope, List.prefix_map_iff]
  constructor
  · rintro ⟨before, hbefore, hnames⟩
    have hne : before ≠ [] := by
      rintro rfl
      exact Path.names_ne_nil around hnames
    have hplain : ∀ n ∈ before, IsPlain n := fun n hn => hscope n (hbefore.subset hn)
    have hsplit : Path.names (Path.ofNames before) = before :=
      Path.names_ofNames hne fun n hn => (hplain n hn).2
    refine ⟨Path.ofNames before, by rwa [hsplit], Path.names_inj.1 ?_⟩
    rw [ρ.names_path fun n hn => hplain n (hsplit ▸ hn), hsplit, hnames]
  · rintro ⟨outer, houter, rfl⟩
    exact ⟨Path.names outer, houter, ρ.names_path fun n hn => hscope n (houter.subset hn)⟩

end Renaming

section Walks

variable {ρ : Renaming}

/-! ## The members of a renamed body -/

theorem Ty.references_rename (ty : Ty) : (ty.rename ρ).references = ty.references.map ρ.path := by
  induction ty with
  | scalar s => rfl
  | map key value ihk ihv => rw [rename, references, references, ihk, ihv, List.map_append]
  | reference path => rfl

namespace Member

theorem withDescendants_rename_of_forall {scope : String} {ms : List Member}
    (h : ∀ m ∈ ms, (m.rename ρ).descendants (ρ.path scope) = (m.descendants scope).map (ScopedMember.rename ρ)) :
    withDescendants (ρ.path scope) (ms.map (rename ρ)) = (withDescendants scope ms).map (ScopedMember.rename ρ) := by
  rw [withDescendants_eq, withDescendants_eq, List.flatMap_map, List.map_flatMap]
  refine List.flatMap_congr fun m hm => ?_
  rw [List.map_cons, h m hm]
  rfl

theorem descendants_rename {m : Member} (h : m.Plain) (scope : String) :
    (m.rename ρ).descendants (ρ.path scope) = (m.descendants scope).map (ScopedMember.rename ρ) := by
  induction m generalizing scope with
  | field f => rfl
  | enumeration e => rfl
  | message name members ih =>
    cases h with
    | message hname hmembers =>
      rw [rename, descendants, descendants, renameAll_eq_map, ← ρ.path_join hname]
      exact withDescendants_rename_of_forall fun m hm => ih m hm (hmembers m hm) _

theorem withDescendants_rename {ms : List Member} (h : ∀ m ∈ ms, m.Plain) (scope : String) :
    withDescendants (ρ.path scope) (ms.map (rename ρ)) = (withDescendants scope ms).map (ScopedMember.rename ρ) :=
  withDescendants_rename_of_forall fun m hm => descendants_rename (h m hm) scope

end Member

namespace ScopedMember

structure Plain (p : ScopedMember) : Prop where
  scope : Path.IsPlain p.scope
  member : p.member.Plain

variable {p : ScopedMember}

theorem messagePath?_rename (h : p.Plain) : (p.rename ρ).messagePath? = p.messagePath?.map ρ.path := by
  obtain ⟨scope, m⟩ := p
  cases m with
  | field f => rfl
  | enumeration e => rfl
  | message name members => exact congrArg some (ρ.path_join h.member.name).symm

theorem enumerationPath?_rename (h : p.Plain) : (p.rename ρ).enumerationPath? = p.enumerationPath?.map ρ.path := by
  obtain ⟨scope, m⟩ := p
  cases m with
  | field f => rfl
  | enumeration e => exact congrArg some (ρ.path_join h.member.name).symm
  | message name members => rfl

theorem references_rename (p : ScopedMember) : (p.rename ρ).references = p.references.map (FieldReference.rename ρ) := by
  obtain ⟨scope, m⟩ := p
  cases m with
  | field f =>
    show ((f.type.rename ρ).references.map fun path => FieldReference.mk (ρ.path scope) (ρ.name f.name) path) = _
    rw [Ty.references_rename, references, List.map_map, List.map_map]
    rfl
  | enumeration e => rfl
  | message name members => rfl

theorem Plain.messagePath {path : String} (h : p.Plain) (hp : p.messagePath? = some path) : Path.IsPlain path := by
  obtain ⟨m, hm, rfl⟩ := Option.map_eq_some_iff.1 hp
  have hname := h.member.name
  rw [Member.message?_eq_some_iff.1 hm] at hname
  exact Path.isPlain_join h.scope hname

theorem Plain.enumerationPath {path : String} (h : p.Plain) (hp : p.enumerationPath? = some path) :
    Path.IsPlain path := by
  obtain ⟨e, he, rfl⟩ := Option.map_eq_some_iff.1 hp
  have hname := h.member.name
  rw [Member.enumeration?_eq_some_iff.1 he] at hname
  exact Path.isPlain_join h.scope hname

theorem Plain.references (h : p.Plain) {r : FieldReference} (hr : r ∈ p.references) :
    Path.IsPlain r.message ∧ Path.IsPlain r.path := by
  obtain ⟨scope, m⟩ := p
  cases m with
  | field f =>
    obtain ⟨path, hpath, rfl⟩ := List.mem_map.1 hr
    cases h.member with
    | field _ htype => exact ⟨h.scope, htype path hpath⟩
  | enumeration e => cases hr
  | message name members => cases hr

end ScopedMember

theorem Message.Plain.withDescendants {m : Message} (h : m.Plain) {scope : String} (hscope : Path.IsPlain scope)
    {p : ScopedMember} (hp : p ∈ Member.withDescendants scope m.members) : p.Plain := by
  induction m using Message.induct generalizing scope with
  | step m ih =>
    rcases mem_withDescendants.1 hp with ⟨hscope', hmem⟩ | ⟨n, hn, hp⟩
    · exact ⟨hscope' ▸ hscope, h.members _ hmem⟩
    · have inside : n.Plain := by
        cases h.members _ (mem_messages.1 hn) with
        | message hname hmembers => exact ⟨hname, hmembers⟩
      exact ih n hn inside (Path.isPlain_join hscope inside.name) hp

namespace Message

variable {m : Message}

theorem Plain.descendants (h : m.Plain) : ∀ p ∈ m.descendants, p.Plain :=
  fun _ => h.withDescendants (Path.isPlain_of_isPlain h.name)

theorem descendants_rename (h : m.Plain) : (m.rename ρ).descendants = m.descendants.map (ScopedMember.rename ρ) := by
  rw [descendants, rename, ← ρ.path_of_isPlain h.name]
  exact Member.withDescendants_rename h.members m.name

/-- What each member gives a path for gives the renamed path. -/
theorem descendants_rename_filterMap (h : m.Plain) {f : ScopedMember → Option String}
    (hf : ∀ p : ScopedMember, p.Plain → f (p.rename ρ) = (f p).map ρ.path) :
    (m.rename ρ).descendants.filterMap f = (m.descendants.filterMap f).map ρ.path := by
  rw [descendants_rename h, List.filterMap_map, List.map_filterMap]
  exact List.filterMap_congr fun p hp => hf p (h.descendants p hp)

theorem paths_rename (h : m.Plain) : (m.rename ρ).paths = m.paths.map ρ.path := by
  rw [paths, descendants_rename_filterMap h fun p hp => p.messagePath?_rename hp, paths, List.map_cons,
    ρ.path_of_isPlain h.name]
  rfl

theorem Plain.paths (h : m.Plain) : ∀ path ∈ m.paths, Path.IsPlain path := by
  intro path hpath
  rcases List.mem_cons.1 hpath with rfl | hpath
  · exact Path.isPlain_of_isPlain h.name
  · obtain ⟨p, hp, hpath⟩ := List.mem_filterMap.1 hpath
    exact (h.descendants p hp).messagePath hpath

end Message

/-! ## What is looked at in a renamed document -/

theorem Service.references_rename (s : Service) :
    (s.rename ρ).references = s.references.map (ServiceReference.rename ρ) := by
  have types : (s.rename ρ).types = s.types.map (Ty.rename ρ) := by
    rw [Service.types, Service.types, rename, List.map_append]
    cases s.response <;> rfl
  rw [references, references, types, List.flatMap_map, List.map_map, List.map_flatMap, List.map_flatMap]
  refine List.flatMap_congr fun ty _ => ?_
  rw [Ty.references_rename, List.map_map]
  rfl

namespace Document

variable {d : Document}

theorem messages_rename (d : Document) : (d.rename ρ).messages = d.messages.map (Message.rename ρ) := by
  rw [messages, messages, rename, List.filterMap_map, List.map_filterMap]
  refine List.filterMap_congr fun x _ => ?_
  cases x <;> rfl

theorem services_rename (d : Document) : (d.rename ρ).services = d.services.map fun s => (s.1, s.2.rename ρ) := by
  rw [services, services, rename, List.filterMap_map, List.map_filterMap]
  refine List.filterMap_congr fun x _ => ?_
  cases x <;> rfl

/-- What is read off each message of a renamed document, if it is renamed in each of them. -/
theorem messages_rename_flatMap {α : Type} (h : d.Plain) {f f' : Message → List α} {g : α → α}
    (hf : ∀ m : Message, m.Plain → f' (m.rename ρ) = (f m).map g) :
    (d.rename ρ).messages.flatMap f' = (d.messages.flatMap f).map g := by
  rw [messages_rename, List.flatMap_map, List.map_flatMap]
  exact List.flatMap_congr fun m hm => hf m (h.messages m hm)

theorem messagePaths_rename (h : d.Plain) : (d.rename ρ).messagePaths = d.messagePaths.map ρ.path :=
  messages_rename_flatMap h fun _ => Message.paths_rename

theorem enumerationPaths_rename (h : d.Plain) : (d.rename ρ).enumerationPaths = d.enumerationPaths.map ρ.path :=
  messages_rename_flatMap h fun _ hm => Message.descendants_rename_filterMap hm fun p hp => p.enumerationPath?_rename hp

theorem fieldReferences_rename (h : d.Plain) :
    (d.rename ρ).fieldReferences = d.fieldReferences.map (FieldReference.rename ρ) := by
  refine messages_rename_flatMap h fun m hm => ?_
  rw [Message.descendants_rename hm, List.flatMap_map, List.map_flatMap]
  exact List.flatMap_congr fun p _ => p.references_rename

theorem serviceReferences_rename (d : Document) :
    (d.rename ρ).serviceReferences = d.serviceReferences.map (ServiceReference.rename ρ) := by
  rw [serviceReferences, services_rename, List.flatMap_map, serviceReferences, List.map_flatMap]
  exact List.flatMap_congr fun s _ => s.2.references_rename

theorem keys_rename (h : d.Plain) : (d.rename ρ).keys = d.keys.map (Key.rename ρ) := by
  rw [keys, rename, List.flatMap_map, keys, List.map_flatMap]
  refine List.flatMap_congr fun x hx => ?_
  cases h x hx with
  | message hm =>
    rw [Definition.rename, Definition.keys, Definition.keys, Message.paths_rename hm, List.map_map, List.map_map]
    rfl
  | service _ => rfl

namespace Plain

theorem messagePaths (h : d.Plain) : ∀ path ∈ d.messagePaths, Path.IsPlain path := by
  intro path hpath
  obtain ⟨m, hm, hpath⟩ := List.mem_flatMap.1 hpath
  exact (h.messages m hm).paths path hpath

theorem enumerationPaths (h : d.Plain) : ∀ path ∈ d.enumerationPaths, Path.IsPlain path := by
  intro path hpath
  obtain ⟨m, hm, hpath⟩ := List.mem_flatMap.1 hpath
  obtain ⟨p, hp, hpath⟩ := List.mem_filterMap.1 hpath
  exact ((h.messages m hm).descendants p hp).enumerationPath hpath

theorem fieldReferences (h : d.Plain) : ∀ r ∈ d.fieldReferences, Path.IsPlain r.message ∧ Path.IsPlain r.path := by
  intro r hr
  obtain ⟨m, hm, hr⟩ := List.mem_flatMap.1 hr
  obtain ⟨p, hp, hr⟩ := List.mem_flatMap.1 hr
  exact ((h.messages m hm).descendants p hp).references hr

theorem serviceReferences (h : d.Plain) : ∀ r ∈ d.serviceReferences, Path.IsPlain r.path := by
  intro r hr
  obtain ⟨s, hs, hr⟩ := List.mem_flatMap.1 hr
  obtain ⟨path, hpath, rfl⟩ := List.mem_map.1 hr
  obtain ⟨ty, hty, hpath⟩ := List.mem_flatMap.1 hpath
  exact (h.services s hs).types ty hty path hpath

/-- No keys become one by renaming. -/
theorem key_rename_inj (h : d.Plain) : ∀ k ∈ d.keys, ∀ l ∈ d.keys, k.rename ρ = l.rename ρ → k = l := by
  intro k hk l hl heq
  cases k with
  | message p =>
    cases l with
    | message q =>
      have hp := h.messagePaths p (message_mem_keys.1 hk)
      have hq := h.messagePaths q (message_mem_keys.1 hl)
      rw [(ρ.path_inj hp hq).1 (Key.message.inj heq)]
    | service n => cases heq
  | service m =>
    cases l with
    | message q => cases heq
    | service n =>
      obtain ⟨s, hs, rfl⟩ := service_mem_keys.1 hk
      obtain ⟨t, ht, rfl⟩ := service_mem_keys.1 hl
      rw [ρ.injective (h.services s hs).name (h.services t ht).name (Key.service.inj heq)]

end Plain

/-! ## Validation -/

theorem declares_rename (h : d.Plain) {path : String} (hpath : Path.IsPlain path) :
    (d.rename ρ).Declares (ρ.path path) ↔ d.Declares path := by
  rw [Declares, messagePaths_rename h, enumerationPaths_rename h, ρ.path_mem_map h.messagePaths hpath,
    ρ.path_mem_map h.enumerationPaths hpath]
  rfl

theorem finds_rename (h : d.Plain) {scope path : String} (hscope : Path.IsPlain scope) (hpath : Path.IsPlain path) :
    (d.rename ρ).Finds (ρ.path scope) (ρ.path path) ↔ d.Finds scope path := by
  have joined {outer : String} (houter : Path.names outer <+: Path.names scope) :
      (d.rename ρ).Declares (Path.join (ρ.path outer) (ρ.path path)) ↔ d.Declares (Path.join outer path) := by
    rw [← ρ.path_append]
    refine declares_rename h fun name hname => ?_
    rw [Path.names_join, List.mem_append] at hname
    exact hname.elim (fun hname => hscope name (houter.subset hname)) (hpath name)
  rw [finds_iff_names, finds_iff_names, declares_rename h hpath]
  refine or_congr Iff.rfl ?_
  constructor
  · rintro ⟨around, haround, hdeclares⟩
    obtain ⟨outer, houter, rfl⟩ := (ρ.names_prefix_path_iff hscope).1 haround
    exact ⟨outer, houter, (joined houter).1 hdeclares⟩
  · rintro ⟨outer, houter, hdeclares⟩
    exact ⟨ρ.path outer, (ρ.names_prefix_path_iff hscope).2 ⟨outer, houter, rfl⟩, (joined houter).2 hdeclares⟩

/-- A look-up finds the same under new names. -/
theorem resolves_rename (h : d.Plain) {scope path : String} (hscope : Path.IsPlain scope) (hpath : Path.IsPlain path) :
    (Symbols.ofDocument (d.rename ρ)).resolves (ρ.path scope) (ρ.path path) =
      (Symbols.ofDocument d).resolves scope path := by
  rw [Bool.eq_iff_iff, resolves_ofDocument, resolves_ofDocument]
  exact finds_rename h hscope hpath

theorem hasMessage_rename (h : d.Plain) {path : String} (hpath : Path.IsPlain path) :
    (Symbols.ofDocument (d.rename ρ)).hasMessage (ρ.path path) = (Symbols.ofDocument d).hasMessage path := by
  rw [Bool.eq_iff_iff, hasMessage_ofDocument, hasMessage_ofDocument, messagePaths_rename h,
    ρ.path_mem_map h.messagePaths hpath]

theorem serviceViolation?_rename (h : d.Plain) :
    (d.rename ρ).serviceViolation? (Symbols.ofDocument (d.rename ρ)) =
      (d.serviceViolation? (Symbols.ofDocument d)).map (Violation.rename ρ) := by
  rw [serviceViolation?_eq, serviceReferences_rename, List.find?_map, serviceViolation?_eq, Option.map_map,
    Option.map_map]
  refine congrArg _ (List.find?_congr fun r hr => ?_)
  exact congrArg not (hasMessage_rename h (h.serviceReferences r hr))

theorem fieldViolation?_rename (h : d.Plain) :
    (d.rename ρ).fieldViolation? (Symbols.ofDocument (d.rename ρ)) =
      (d.fieldViolation? (Symbols.ofDocument d)).map (Violation.rename ρ) := by
  rw [fieldViolation?_eq, fieldReferences_rename h, List.find?_map, fieldViolation?_eq, Option.map_map, Option.map_map]
  refine congrArg _ (List.find?_congr fun r hr => ?_)
  exact congrArg not (resolves_rename h (h.fieldReferences r hr).1 (h.fieldReferences r hr).2)

/-- The first violation, under its new names. -/
theorem violation?_rename (h : d.Plain) (strict : Bool) :
    (d.rename ρ).violation? strict = (d.violation? strict).map (Violation.rename ρ) := by
  have keys : firstRepeat? [] (d.rename ρ).keys = (firstRepeat? [] d.keys).map (Key.rename ρ) := by
    rw [keys_rename h]
    exact firstRepeat?_map h.key_rename_inj (by simp)
  have duplicate : (firstRepeat? [] (d.rename ρ).keys).map Violation.duplicate =
      ((firstRepeat? [] d.keys).map Violation.duplicate).map (Violation.rename ρ) := by
    rw [keys, Option.map_map, Option.map_map]
    rfl
  rw [violation?_eq, violation?_eq, duplicate, serviceViolation?_rename h, fieldViolation?_rename h, Option.map_or,
    Option.map_or]
  cases strict <;> rfl

end Document

/-! ## Findings -/

section Findings

variable {s t : Symbols}

theorem Finding.when_rename (found : Bool) (path : String) (issue : Issue) :
    (when found path issue).map (Finding.rename ρ) = when found (ρ.path path) (issue.rename ρ) := by
  cases found <;> rfl

theorem Enumeration.findings_rename {e : Enumeration} (h : ∀ v ∈ e.values, IsPlain v.key) (path : String) :
    (e.rename ρ).findings (ρ.path path) = (e.findings path).map (Finding.rename ρ) := by
  have keys : repeats [] ((e.values.map EnumValue.key).map ρ.name) =
      (repeats [] (e.values.map EnumValue.key)).map ρ.name := by
    refine repeats_map ?_ (by simp)
    intro k hk l hl heq
    obtain ⟨v, hv, rfl⟩ := List.mem_map.1 hk
    obtain ⟨w, hw, rfl⟩ := List.mem_map.1 hl
    exact ρ.injective (h v hv) (h w hw) heq
  have renamed : (e.rename ρ).values.map EnumValue.key = (e.values.map EnumValue.key).map ρ.name := by
    rw [rename, List.map_map, List.map_map]
    rfl
  rw [findings, findings, repeatedKeys_eq, repeatedKeys_eq, renamed, keys, List.map_append, Finding.when_rename,
    List.map_map, List.map_map]
  simp only [rename, List.isEmpty_map]
  rfl

/-- The two tables answer alike for the names of one document and their new ones. -/
def Symbols.Alike (ρ : Renaming) (s t : Symbols) : Prop :=
  ∀ scope path, Path.IsPlain scope → Path.IsPlain path →
    t.resolves (ρ.path scope) (ρ.path path) = s.resolves scope path

theorem Field.findings_rename {f : Field} (h : f.type.Plain) {scope : String} (hscope : Path.IsPlain scope)
    (hst : Symbols.Alike ρ s t) :
    (f.rename ρ).findings t (ρ.path scope) = (f.findings s scope).map (Finding.rename ρ) := by
  rw [findings, rename, Ty.references_rename, List.flatMap_map, findings, List.map_flatMap]
  refine List.flatMap_congr fun path hpath => ?_
  rw [Finding.when_rename, hst scope path hscope (h path hpath)]
  rfl

namespace Member

theorem findingsAll_rename_of_forall {scope : String} {earlier : List String} {ms : List Member}
    (hearlier : ∀ n ∈ earlier, IsPlain n) (hms : ∀ m ∈ ms, m.Plain)
    (h : ∀ m ∈ ms, (m.rename ρ).findings t (ρ.path scope) = (m.findings s scope).map (Finding.rename ρ)) :
    findingsAll t (ρ.path scope) (earlier.map ρ.name) (ms.map (rename ρ)) =
      (findingsAll s scope earlier ms).map (Finding.rename ρ) := by
  induction ms generalizing earlier with
  | nil => rfl
  | cons m ms ih =>
    have hname := (hms m List.mem_cons_self).name
    have repeated : (earlier.map ρ.name).contains (ρ.name m.name) = earlier.contains m.name := by
      rw [Bool.eq_iff_iff, List.contains_iff_mem, List.contains_iff_mem, ρ.name_mem_map hearlier hname]
    have rest := ih (List.forall_mem_cons.2 ⟨hname, hearlier⟩) (fun n hn => hms n (List.mem_cons_of_mem _ hn))
      fun n hn => h n (List.mem_cons_of_mem _ hn)
    rw [List.map_cons, findingsAll, findingsAll, name_rename, repeated, h m List.mem_cons_self, List.map_append,
      List.map_append, Finding.when_rename, ← rest]
    rfl

theorem findings_rename {m : Member} (h : m.Plain) {scope : String} (hscope : Path.IsPlain scope)
    (hst : Symbols.Alike ρ s t) :
    (m.rename ρ).findings t (ρ.path scope) = (m.findings s scope).map (Finding.rename ρ) := by
  induction m generalizing scope with
  | field f =>
    cases h with
    | field _ htype => exact Field.findings_rename htype hscope hst
  | enumeration e =>
    cases h with
    | enumeration hname hvalues =>
      rw [rename, findings, findings, ← Enumeration.findings_rename hvalues, ρ.path_join hname]
      rfl
  | message name members ih =>
    cases h with
    | message hname hmembers =>
      have all := findingsAll_rename_of_forall (List.forall_mem_nil IsPlain) hmembers fun m hm =>
        ih m hm (hmembers m hm) (Path.isPlain_join hscope hname)
      rw [rename, findings, findings, renameAll_eq_map, ← ρ.path_join hname, List.map_append, Finding.when_rename,
        ← all, List.isEmpty_map]
      rfl

end Member

theorem Message.findings_rename {m : Message} (h : m.Plain) (hst : Symbols.Alike ρ s t) :
    (m.rename ρ).findings t = (m.findings s).map (Finding.rename ρ) := by
  have hscope := Path.isPlain_of_isPlain h.name
  have all := Member.findingsAll_rename_of_forall (List.forall_mem_nil IsPlain) h.members fun x hx =>
    Member.findings_rename (h.members x hx) hscope hst
  rw [findings, findings, List.map_append, Finding.when_rename, ← all, rename, List.isEmpty_map,
    ρ.path_of_isPlain h.name]
  rfl

end Findings

end Walks

/-! ## Whole documents -/

namespace Document

/-- Under other names a document is accepted as before, or refused with the same
    violation in the new names, and the linter finds the same in the new names. -/
theorem validate_rename_and_lint (ρ : Renaming) {d : Document} (h : d.Plain) :
    (∀ strict, ((d.rename ρ).validate strict = .ok (d.rename ρ) ↔ d.validate strict = .ok d) ∧
      ∀ v, d.validate strict = .error v → (d.rename ρ).validate strict = .error (v.rename ρ)) ∧
    (d.rename ρ).lint = d.lint.map (Finding.rename ρ) ∧
    (d.rename ρ).lint.map (·.issue.rule) = d.lint.map (·.issue.rule) := by
  -- Both tables answer alike, so the walks find the same.
  have lint : (d.rename ρ).lint = d.lint.map (Finding.rename ρ) :=
    messages_rename_flatMap h fun m hm => Message.findings_rename hm fun _ _ => resolves_rename h
  refine ⟨?_, lint, ?_⟩
  · intro strict
    have hv : (d.rename ρ).violation? strict = (d.violation? strict).map (Violation.rename ρ) := violation?_rename h strict
    constructor
    · rw [validate_eq_ok_iff, validate_eq_ok_iff, hv, Option.map_eq_none_iff]
      simp
    · intro v hd
      rw [validate] at hd
      split at hd
      · cases hd
      · next w hw =>
        cases hd
        rw [validate, hv, hw]
        rfl
  · rw [lint, List.map_map]
    exact List.map_congr_left fun x _ => x.issue.rule_rename ρ

/-- A letter in front of every name makes one name the start of another: `A.B` stays apart
    from `AB`, and a reference that found nothing before finds nothing after. -/
theorem validate_rename_and_lint_prefixed :
    ∃ (ρ : Renaming) (d : Document), d.Plain ∧
      d.validate true = .error (.unknownType "A.B" "x" "AB.C") ∧
      (d.rename ρ).validate true = .error (.unknownType "AA.AB" "Ax" "AAB.AC") ∧
      (∀ strict, ((d.rename ρ).validate strict = .ok (d.rename ρ) ↔ d.validate strict = .ok d) ∧
        ∀ v, d.validate strict = .error v → (d.rename ρ).validate strict = .error (v.rename ρ)) ∧
      (d.rename ρ).lint = d.lint.map (Finding.rename ρ) ∧
      (d.rename ρ).lint.map (·.issue.rule) = d.lint.map (·.issue.rule) := by
  let ρ : Renaming :=
    { name := fun n => "A" ++ n
      plain := fun h => ⟨by simp, by simpa using h.2⟩
      injective := fun _ _ heq => by simpa using heq }
  let d : Document := ⟨[.message ⟨"A", [.message "B" [.message "C" [], .field ⟨.plain, .reference "B.C", "x"⟩,
    .field ⟨.plain, .map (.reference "A") (.reference "AB.C"), "x"⟩]]⟩, .message ⟨"AB", [.enumeration ⟨"D", []⟩]⟩]⟩
  have plain : d.Plain := plain_of_wellFormed (by decide +kernel)
  have broken : d.violation? true = some (.unknownType "A.B" "x" "AB.C") := by decide +kernel
  have refused : d.validate true = .error (.unknownType "A.B" "x" "AB.C") := by rw [validate, broken]
  have renamed := validate_rename_and_lint ρ plain
  exact ⟨ρ, d, plain, refused, (renamed.1 true).2 _ refused, renamed⟩

end Document

end ServLang

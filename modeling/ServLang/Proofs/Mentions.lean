/-
  ServLang.Proofs.Mentions — which references a document has, and where. A type mentions
  paths at its leaves, and the mentions are numbered from left to right: a map's value
  goes on where its key has stopped. A service mentions what its types do, the response
  being the one after the requests; a message mentions what its fields do.

  The checker and the linter flatten types into lists and go through these. Here a
  mention has a place of its own, with its number at the end, and nothing is flattened.

  Proved: the list of a type has its mentions by their numbers (`references_getElem?`),
  that of a service its types (`types_getElem?`), and the references of all services and
  of all fields, as the walks meet them, are the mentions in the order of their places
  (`serviceReferences_listed`, `fieldReferences_listed`).
-/

import ServLang.Proofs.Listing
import ServLang.Proofs.Nesting

namespace ServLang

/-! ## Types -/

namespace Ty

/-- How many paths with the property are mentioned. -/
def count (p : String → Bool) : Ty → Nat
  | scalar _ => 0
  | map key value => key.count p + value.count p
  | reference path => if p path then 1 else 0

/-- The mention with the number `k`. -/
inductive Mentions : Ty → Nat → String → Prop
  | reference (path : String) : Mentions (.reference path) 0 path
  | key {key value : Ty} {k : Nat} {path : String} : Mentions key k path → Mentions (.map key value) k path
  | value {key value : Ty} {k : Nat} {path : String} : Mentions value k path →
      Mentions (.map key value) (key.count (fun _ => true) + k) path

theorem count_eq_countP (p : String → Bool) (ty : Ty) : ty.count p = ty.references.countP p := by
  induction ty with
  | scalar s => rfl
  | map key value ihk ihv => rw [count, references, List.countP_append, ihk, ihv]
  | reference path => rw [count, references, List.countP_singleton]

theorem Mentions.lt {ty : Ty} {k : Nat} {path : String} (h : ty.Mentions k path) : k < ty.count fun _ => true := by
  induction h with
  | reference path => exact Nat.one_pos
  | key _ ih => exact Nat.lt_add_right _ ih
  | value _ ih => exact Nat.add_lt_add_left ih _

/-- The list of a type's references has its mentions by their numbers. -/
theorem references_getElem? {ty : Ty} {k : Nat} {path : String} :
    ty.references[k]? = some path ↔ ty.Mentions k path := by
  induction ty generalizing k with
  | scalar s => exact ⟨nofun, nofun⟩
  | map key value ihk ihv =>
    -- The value's numbers start where the key's list ends.
    have length : key.references.length = key.count fun _ => true := by rw [count_eq_countP, List.countP_true]
    rw [references, List.getElem?_append, length]
    constructor
    · intro h
      split at h
      · exact .key (ihk.1 h)
      · next hk =>
        have value : (map key value).Mentions _ path := .value (ihv.1 h)
        rwa [Nat.add_sub_cancel' (Nat.le_of_not_lt hk)] at value
    · intro h
      cases h with
      | key h => rw [if_pos h.lt, ihk.2 h]
      | value h => rw [if_neg (Nat.not_lt.2 (Nat.le_add_right _ _)), Nat.add_sub_cancel_left, ihv.2 h]
  | reference name =>
    rw [references, List.getElem?_singleton]
    constructor
    · intro h
      split at h
      · next hk =>
        cases hk
        exact Option.some.inj h ▸ .reference name
      · cases h
    · intro h
      cases h
      rfl

end Ty

/-! ## Services -/

namespace Service

inductive TypeAt (s : Service) : Nat → Ty → Prop
  | request {j : Nat} {ty : Ty} : s.request[j]? = some ty → TypeAt s j ty
  | response {ty : Ty} : s.response = some ty → TypeAt s s.request.length ty

/-- The list of a service's types has the response at its end. -/
theorem types_getElem? {s : Service} {j : Nat} {ty : Ty} : s.types[j]? = some ty ↔ s.TypeAt j ty := by
  rw [types, List.getElem?_append]
  constructor
  · intro h
    split at h
    · exact .request h
    · next hj =>
      cases hresponse : s.response with
      | none =>
        rw [hresponse] at h
        cases h
      | some ty' =>
        rw [hresponse, Option.toList_some, List.getElem?_singleton] at h
        split at h
        · next heq =>
          -- No type of the request, and one more at most.
          obtain rfl : j = s.request.length := by omega
          exact .response (hresponse.trans h)
        · cases h
  · intro h
    cases h with
    | request h => rw [if_pos (List.getElem?_eq_some_iff.1 h).1, h]
    | response h => rw [if_neg (Nat.lt_irrefl _), Nat.sub_self, h]; rfl

end Service

/-! ## References -/

structure ServiceReference where
  service : String
  path : String

structure FieldReference where
  /-- The path of the message around the field. -/
  message : String
  field : String
  path : String

def Service.references (s : Service) : List ServiceReference :=
  (s.types.flatMap Ty.references).map fun path => ⟨s.name, path⟩

def ScopedMember.references (p : ScopedMember) : List FieldReference :=
  match p.member with
  | .field f => f.type.references.map fun path => ⟨p.scope, f.name, path⟩
  | .enumeration _ | .message _ _ => []

namespace Document

inductive ServiceMentions (d : Document) : List Nat → ServiceReference → Prop
  | intro {i j k : Nat} {direction : Direction} {s : Service} {ty : Ty} {path : String} :
      d.definitions[i]? = some (.service direction s) → s.TypeAt j ty → ty.Mentions k path →
      ServiceMentions d [i, j, k] ⟨s.name, path⟩

inductive FieldMentions (d : Document) : List Nat → FieldReference → Prop
  | intro {node : List Nat} {scope : String} {m : Message} {i k : Nat} {f : Field} {path : String} :
      d.At node scope m → m.members[i]? = some (.field f) → f.type.Mentions k path →
      FieldMentions d (node ++ [i + 1, k + 1]) ⟨scope, f.name, path⟩

def serviceReferences (d : Document) : List ServiceReference := d.services.flatMap fun s => s.2.references

def fieldReferences (d : Document) : List FieldReference :=
  d.messages.flatMap fun m => m.descendants.flatMap ScopedMember.references

end Document

/-! ## The lists have them in order -/

theorem Ty.listed (ty : Ty) (first : Nat) :
    Listed (fun p path => ∃ k, ty.Mentions k path ∧ p = [k + first]) ty.references := by
  refine (Listed.self ty.references first).congr fun p path => exists_congr fun k => ?_
  rw [references_getElem?]

theorem Service.listed (s : Service) :
    Listed (fun p r => ∃ j k ty path, s.TypeAt j ty ∧ ty.Mentions k path ∧ p = [j, k] ∧ r = ⟨s.name, path⟩)
      s.references := by
  have types := Listed.walk (fun j ty (_ : s.types[j]? = some ty) => ty.listed 0) 0
  rw [references, flatMap_eq_flatten_mapIdx]
  refine (types.map fun path => ServiceReference.mk s.name path).congr fun p r => ?_
  simp only [types_getElem?]
  constructor
  · rintro ⟨j, k, ty, path, hty, hpath, rfl, rfl⟩
    exact ⟨path, ⟨j, ty, [k], hty, rfl, k, hpath, rfl⟩, rfl⟩
  · rintro ⟨path, ⟨j, ty, _, hty, rfl, k, hpath, rfl⟩, rfl⟩
    exact ⟨j, k, ty, path, hty, hpath, rfl, rfl⟩

/-- What the fields inside a message mention, the message being at `scope`. -/
def Message.Mentions (m : Message) (scope : String) (place : List Nat) (r : FieldReference) : Prop :=
  ∃ node path n i k f name, m.At scope node path n ∧ n.members[i]? = some (.field f) ∧ f.type.Mentions k name ∧
    place = node ++ [i + 1, k + 1] ∧ r = ⟨path, f.name, name⟩

def Member.Mentions (scope : String) : Member → List Nat → FieldReference → Prop
  | field f, place, r => ∃ k name, f.type.Mentions k name ∧ place = [k + 1] ∧ r = ⟨scope, f.name, name⟩
  | enumeration _, _, _ => False
  | message name members, place, r => Message.Mentions ⟨name, members⟩ (Path.join scope name) place r

/-- A mention inside a message is one of a field of it or one inside a message of it. -/
theorem Message.mentions_iff {m : Message} {scope : String} {place : List Nat} {r : FieldReference} :
    m.Mentions scope place r ↔ ∃ i x q, m.members[i]? = some x ∧ place = (i + 1) :: q ∧ x.Mentions scope q r := by
  constructor
  · rintro ⟨node, path, n, i, k, f, name, hn, hf, hname, rfl, rfl⟩
    cases hn with
    | self => exact ⟨i, _, _, hf, rfl, k, name, hname, rfl, rfl⟩
    | inside hk hn => exact ⟨_, _, _, hk, rfl, _, _, _, _, _, _, _, hn, hf, hname, rfl, rfl⟩
  · rintro ⟨i, x, q, hx, rfl, h⟩
    cases x with
    | field f =>
      obtain ⟨k, name, hname, rfl, rfl⟩ := h
      exact ⟨[], scope, m, i, k, f, name, .self m scope, hx, hname, rfl, rfl⟩
    | enumeration e => exact h.elim
    | message name members =>
      obtain ⟨node, path, n, j, k, f, name, hn, hf, hname, rfl, rfl⟩ := h
      exact ⟨_, path, n, j, k, f, name, .inside (n := ⟨_, members⟩) hx hn, hf, hname, rfl, rfl⟩

/-- By the tree: a message inside is listed by the same walk. -/
theorem Message.listed_references (m : Message) (scope : String) :
    Listed (m.Mentions scope) ((Member.withDescendants scope m.members).flatMap ScopedMember.references) := by
  induction m using induct generalizing scope with
  | step m ih =>
    have member (i : Nat) (x : Member) (hx : m.members[i]? = some x) :
        Listed (x.Mentions scope) ((⟨scope, x⟩ :: x.descendants scope).flatMap ScopedMember.references) := by
      rw [List.flatMap_cons]
      cases x with
      | field f =>
        rw [Member.descendants, List.flatMap_nil, List.append_nil]
        refine ((f.type.listed 1).map fun path => FieldReference.mk scope f.name path).congr fun p r => ?_
        constructor
        · rintro ⟨k, name, hname, rfl, rfl⟩
          exact ⟨name, ⟨k, hname, rfl⟩, rfl⟩
        · rintro ⟨name, ⟨k, hname, rfl⟩, rfl⟩
          exact ⟨k, name, hname, rfl, rfl⟩
      | enumeration e => exact .nil fun _ _ h => h
      | message name members =>
        rw [Member.descendants]
        exact ih ⟨name, members⟩ (mem_messages.2 (List.mem_of_getElem? hx)) (Path.join scope name)
    rw [Member.withDescendants_eq, List.flatMap_assoc, flatMap_eq_flatten_mapIdx]
    exact (Listed.walk member 1).congr fun _ _ => mentions_iff

namespace Document

/-- The references of all services, as the checker meets them, are in the order of their
    places. -/
theorem serviceReferences_listed (d : Document) : Listed d.ServiceMentions d.serviceReferences := by
  refine (Listed.picked Definition.service? fun s => s.2.listed).congr fun p r => ?_
  constructor
  · rintro ⟨hs, hty, hpath⟩
    exact ⟨_, _, _, _, hs, rfl, rfl, _, _, _, _, hty, hpath, rfl, rfl⟩
  · rintro ⟨i, y, s, _, hy, hs, rfl, j, k, ty, path, hty, hpath, rfl, rfl⟩
    cases Definition.service?_eq_some_iff.1 hs
    exact .intro hy hty hpath

/-- So are the references of all fields. -/
theorem fieldReferences_listed (d : Document) : Listed d.FieldMentions d.fieldReferences := by
  refine (Listed.picked Definition.message? fun m => m.listed_references m.name).congr fun p r => ?_
  constructor
  · rintro ⟨⟨htop, hm⟩, hf, hname⟩
    exact ⟨_, _, _, _, htop, rfl, rfl, _, _, _, _, _, _, _, hm, hf, hname, rfl, rfl⟩
  · rintro ⟨i, y, top, _, hy, htop, rfl, node, path, m, j, k, f, name, hm, hf, hname, rfl, rfl⟩
    cases Definition.message?_eq_some_iff.1 htop
    exact .intro (.intro hy hm) hf hname

end Document

end ServLang

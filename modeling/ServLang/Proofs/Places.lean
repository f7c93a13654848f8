/-
  ServLang.Proofs.Places — what the linter finds, where, and in which order. A place is a
  list of numbers, the way down from the document: which definition, which member of it,
  which member of that, numbered from one, and at last which value or which reference.
  The number zero is what concerns a whole body, so that places in their lexicographic
  order are the places of a walk over the document, each body before its members.

  `Document.Found` says what there is to find at a place, rule by rule and without any
  walk. The linter's walk is put together from walks over lists (`Listed.walk`), each of
  which finds all there is below its place and nothing else.

  Proved:
  - `RepeatedAt`, `length_repeats`: in a list every element but the first of its name
    repeats an earlier one.
  - `Message.listed`: the findings of a message and of everything inside it.
  - `InOrder.tally_eq`, `Document.tally_eq`: how often a rule is broken in one body can be
    counted in any listing of it.
  - `Document.lint_in_order`: the linter finds what there is to find, in the order of the
    places, so often in each message and enumeration, and nothing in a clean document.
-/

import Mathlib.Data.List.Dedup
import ServLang.Proofs.Findings
import ServLang.Proofs.Nesting

namespace ServLang

/-! ## Names that repeat, by where they stand -/

/-- The name `x` stands at `i`, and before it as well. -/
def RepeatedAt (xs : List String) (i : Nat) (x : String) : Prop := xs[i]? = some x ∧ x ∈ xs.take i

/-- Nothing repeats if nothing stands again. -/
theorem nodup_iff_not_repeatedAt {xs : List String} : xs.Nodup ↔ ∀ i x, ¬ RepeatedAt xs i x := by
  rw [List.nodup_iff_getElem?_ne_getElem?]
  constructor
  · rintro h i x ⟨hx, hmem⟩
    obtain ⟨j, hj, rfl⟩ := List.mem_take_iff_getElem.1 hmem
    have hi : i < xs.length := (List.getElem?_eq_some_iff.1 hx).1
    exact h j i (by omega) hi (by rw [hx, List.getElem?_eq_getElem])
  · intro h i j hij hj heq
    refine h j xs[j] ⟨List.getElem?_eq_getElem hj, List.mem_take_iff_getElem.2 ⟨i, by omega, ?_⟩⟩
    rw [List.getElem?_eq_getElem hj, List.getElem?_eq_getElem (by omega)] at heq
    exact Option.some.inj heq

/-- What repeats and what is there at all make up the list. -/
theorem length_repeats (xs : List String) : (repeats [] xs).length = xs.length - xs.dedup.length := by
  have perm : (repeats [] xs ++ xs.dedup).Perm xs := by
    rw [List.perm_iff_count]
    intro x
    rw [List.count_append, count_repeats, if_neg List.not_mem_nil, List.count_dedup]
    by_cases hx : x ∈ xs
    · have : 0 < xs.count x := List.count_pos_iff.2 hx
      rw [if_pos hx]
      omega
    · rw [if_neg hx, List.count_eq_zero_of_not_mem hx]
  have := perm.length_eq
  rw [List.length_append] at this
  omega

/-- The names seen before those of a list, as the walk goes on to its second element. -/
theorem mem_seen_or_mem_take (x y : String) (seen xs : List String) (i : Nat) :
    y ∈ x :: seen ∨ y ∈ xs.take i ↔ y ∈ seen ∨ y ∈ (x :: xs).take (i + 1) := by
  rw [List.take_succ_cons, List.mem_cons, List.mem_cons, or_assoc, or_left_comm]

theorem repeats_eq_flatten (seen xs : List String) (path : String) (issue : String → Issue) :
    (repeats seen xs).map (fun x => Finding.mk path (issue x)) =
      (xs.mapIdx fun i x => Finding.when (decide (x ∈ seen ∨ x ∈ xs.take i)) path (issue x)).flatten := by
  induction xs generalizing seen with
  | nil => rfl
  | cons x xs ih =>
    rw [List.mapIdx_cons, List.flatten_cons, repeats]
    simp only [← mem_seen_or_mem_take, ← ih, List.take_zero, List.not_mem_nil, or_false]
    by_cases hx : x ∈ seen <;> simp [Finding.when, hx]

theorem Member.findingsAll_eq_flatten (symbols : Symbols) (scope : String) (earlier : List String) (ms : List Member) :
    findingsAll symbols scope earlier ms =
      (ms.mapIdx fun i m =>
        Finding.when (decide (m.name ∈ earlier ∨ m.name ∈ (ms.map name).take i)) scope (.duplicateMember m.name) ++
          m.findings symbols scope).flatten := by
  induction ms generalizing earlier with
  | nil => rfl
  | cons m ms ih =>
    rw [List.mapIdx_cons, List.flatten_cons, findingsAll, List.map_cons]
    simp only [← mem_seen_or_mem_take, ← ih, List.take_zero, List.not_mem_nil, or_false, List.contains_eq_mem]

/-! ## Findings in the order of their places -/

namespace Listed

theorem when (c : Bool) (place : List Nat) (path : String) (issue : Issue) :
    Listed (fun p x => c = true ∧ p = place ∧ x = ⟨path, issue⟩) (Finding.when c path issue) := by
  cases c with
  | false => exact nil fun p x h => Bool.false_ne_true h.1
  | true => exact ⟨[(place, ⟨path, issue⟩)], rfl, List.pairwise_singleton _ _, by simp⟩

/-- A walk that looks at each element once. -/
theorem walkEach {α : Type} (xs : List α) (found : Nat → α → Bool) (path : String) (issue : α → Issue) :
    Listed (fun p y => ∃ i x, xs[i]? = some x ∧ found i x = true ∧ p = [i + 1] ∧ y = ⟨path, issue x⟩)
      (xs.mapIdx fun i x => Finding.when (found i x) path (issue x)).flatten := by
  refine (walk (fun i x _ => when (found i x) [] path (issue x)) 1).congr fun p y => ?_
  constructor
  · rintro ⟨i, x, hx, hfound, rfl, rfl⟩
    exact ⟨i, x, [], hx, rfl, hfound, rfl, rfl⟩
  · rintro ⟨i, x, q, hx, rfl, hfound, rfl, rfl⟩
    exact ⟨i, x, hx, hfound, rfl, rfl⟩

theorem repeated (xs : List String) (path : String) (issue : String → Issue) :
    Listed (fun p y => ∃ i x, RepeatedAt xs i x ∧ p = [i + 1] ∧ y = ⟨path, issue x⟩)
      ((repeats [] xs).map fun x => Finding.mk path (issue x)) := by
  rw [repeats_eq_flatten]
  refine (walkEach xs _ path issue).congr fun p y => ?_
  simp only [RepeatedAt, and_assoc, decide_eq_true_eq, List.not_mem_nil, false_or]

end Listed

/-- How many of the findings of a rule belong to a message, an enumeration or a field:
    a body's own and those about one member, value or reference. -/
def tally (placed : List (List Nat × Finding)) (node : List Nat) (rule : Rule) : Nat :=
  placed.countP fun x => x.1.dropLast = node ∧ x.2.issue.rule = rule

/-- Findings of one rule that belong together are as many however they are listed. -/
theorem InOrder.tally_eq {found found' : List Nat → Finding → Prop} {fs gs : List Finding}
    {placed : List (List Nat × Finding)} (h : InOrder found fs placed) (h' : Listed found' gs) {node : List Nat}
    {rule : Rule} (hiff : ∀ p x, found' p x ↔ found p x ∧ p.dropLast = node ∧ x.issue.rule = rule) :
    tally placed node rule = gs.length := by
  obtain ⟨placed', h'⟩ := h'
  have perm : (placed.filter fun x => decide (x.1.dropLast = node ∧ x.2.issue.rule = rule)).Perm placed' := by
    rw [List.perm_ext_iff_of_nodup (h.nodup.filter _) h'.nodup]
    rintro ⟨p, x⟩
    rw [List.mem_filter, h.mem, h'.mem, hiff, decide_eq_true_eq]
  rw [tally, List.countP_eq_length_filter, perm.length_eq, ← h'.elements, List.length_map]

/-! ## What there is to find -/

namespace Message

/-- What the rules say about a message at `path`, about its members by their names, about
    the types of its fields and the values of its enumerations, each at its place. -/
inductive Found (symbols : Symbols) (path : String) (m : Message) : List Nat → Finding → Prop
  | emptyMessage : m.members = [] → Found symbols path m [0] ⟨path, .emptyMessage m.name⟩
  | duplicateMember {i : Nat} {name : String} :
      RepeatedAt (m.members.map Member.name) i name →
      Found symbols path m [i + 1] ⟨path, .duplicateMember name⟩
  | unresolvedFieldReference {i k : Nat} {f : Field} {name : String} :
      m.members[i]? = some (.field f) → f.type.Mentions k name → symbols.resolves path name = false →
      Found symbols path m [i + 1, k + 1] ⟨path, .unresolvedFieldReference f.name name⟩
  | emptyEnum {i : Nat} {e : Enumeration} :
      m.members[i]? = some (.enumeration e) → e.values = [] →
      Found symbols path m [i + 1, 0] ⟨Path.join path e.name, .emptyEnum e.name⟩
  | duplicateEnumValue {i k : Nat} {e : Enumeration} {key : String} :
      m.members[i]? = some (.enumeration e) → RepeatedAt (e.values.map EnumValue.key) k key →
      Found symbols path m [i + 1, k + 1] ⟨Path.join path e.name, .duplicateEnumValue key⟩

def FoundIn (symbols : Symbols) (scope : String) (m : Message) (place : List Nat) (x : Finding) : Prop :=
  ∃ node path n here, m.At scope node path n ∧ n.Found symbols path here x ∧ place = node ++ here

end Message

def Member.FoundIn (symbols : Symbols) (scope : String) : Member → List Nat → Finding → Prop
  | field f, place, x =>
    ∃ k name, f.type.Mentions k name ∧ (!symbols.resolves scope name) = true ∧ place = [k + 1] ∧
      x = ⟨scope, .unresolvedFieldReference f.name name⟩
  | enumeration e, place, x =>
    (e.values.isEmpty = true ∧ place = [0] ∧ x = ⟨Path.join scope e.name, .emptyEnum e.name⟩) ∨
      ∃ k key, RepeatedAt (e.values.map EnumValue.key) k key ∧ place = [k + 1] ∧
        x = ⟨Path.join scope e.name, .duplicateEnumValue key⟩
  | message name members, place, x => Message.FoundIn symbols (Path.join scope name) ⟨name, members⟩ place x

theorem Member.FoundIn.ne_nil {symbols : Symbols} {scope : String} {y : Member} {place : List Nat} {x : Finding}
    (h : y.FoundIn symbols scope place x) : place ≠ [] := by
  cases y with
  | field f =>
    obtain ⟨k, name, -, -, rfl, -⟩ := h
    exact List.cons_ne_nil _ _
  | enumeration e =>
    rcases h with ⟨-, rfl, -⟩ | ⟨k, key, -, rfl, -⟩ <;> exact List.cons_ne_nil _ _
  | message name members =>
    obtain ⟨node, path, n, here, -, hx, rfl⟩ := h
    cases hx <;> simp

namespace Message

variable {symbols : Symbols} {scope : String} {m : Message}

/-- What is found inside a message concerns it as a whole or the name of a member, or is
    found in a member. -/
theorem foundIn_iff {place : List Nat} {x : Finding} :
    m.FoundIn symbols scope place x ↔
      (m.members.isEmpty = true ∧ place = [0] ∧ x = ⟨scope, .emptyMessage m.name⟩) ∨
        ∃ i y q, m.members[i]? = some y ∧ place = (i + 1) :: q ∧
          ((decide (y.name ∈ (m.members.map Member.name).take i) = true ∧ q = [] ∧ x = ⟨scope, .duplicateMember y.name⟩) ∨
            y.FoundIn symbols scope q x) := by
  constructor
  -- By where the finding is: in the message itself, or in one inside.
  · rintro ⟨node, path, n, here, hn, hx, rfl⟩
    cases hn with
    | self =>
      cases hx with
      | emptyMessage h => exact Or.inl ⟨List.isEmpty_iff.2 h, rfl, rfl⟩
      | duplicateMember h =>
        obtain ⟨y, hy, rfl⟩ := Option.map_eq_some_iff.1 (List.getElem?_map ▸ h.1)
        exact Or.inr ⟨_, y, [], hy, rfl, Or.inl ⟨decide_eq_true h.2, rfl, rfl⟩⟩
      | unresolvedFieldReference hf hname h =>
        exact Or.inr ⟨_, _, _, hf, rfl, Or.inr ⟨_, _, hname, by rw [h, Bool.not_false], rfl, rfl⟩⟩
      | emptyEnum he h => exact Or.inr ⟨_, _, _, he, rfl, Or.inr (Or.inl ⟨List.isEmpty_iff.2 h, rfl, rfl⟩)⟩
      | duplicateEnumValue he h => exact Or.inr ⟨_, _, _, he, rfl, Or.inr (Or.inr ⟨_, _, h, rfl, rfl⟩)⟩
    | inside hk hn => exact Or.inr ⟨_, _, _, hk, rfl, Or.inr ⟨_, _, _, _, hn, hx, rfl⟩⟩
  · rintro (⟨h, rfl, rfl⟩ | ⟨i, y, q, hy, rfl, ⟨h, rfl, rfl⟩ | h⟩)
    · exact ⟨[], scope, m, [0], .self m scope, .emptyMessage (List.isEmpty_iff.1 h), rfl⟩
    · have name : (m.members.map Member.name)[i]? = some y.name := by rw [List.getElem?_map, hy, Option.map_some]
      exact ⟨[], scope, m, [i + 1], .self m scope, .duplicateMember ⟨name, of_decide_eq_true h⟩, rfl⟩
    · cases y with
      | field f =>
        obtain ⟨k, name, hname, h, rfl, rfl⟩ := h
        exact ⟨[], scope, m, _, .self m scope, .unresolvedFieldReference hy hname (Bool.not_eq_true' _ ▸ h), rfl⟩
      | enumeration e =>
        rcases h with ⟨h, rfl, rfl⟩ | ⟨k, key, h, rfl, rfl⟩
        · exact ⟨[], scope, m, _, .self m scope, .emptyEnum hy (List.isEmpty_iff.1 h), rfl⟩
        · exact ⟨[], scope, m, _, .self m scope, .duplicateEnumValue hy h, rfl⟩
      | message name members =>
        obtain ⟨node, path, n, here, hn, hx, rfl⟩ := h
        exact ⟨(i + 1) :: node, path, n, here, .inside (n := ⟨name, members⟩) hy hn, hx, rfl⟩

end Message

/-! ## The walk finds it -/

theorem Field.listed (symbols : Symbols) (scope : String) (f : Field) :
    Listed ((Member.field f).FoundIn symbols scope) (f.findings symbols scope) := by
  rw [findings, flatMap_eq_flatten_mapIdx]
  refine (Listed.walkEach _ _ _ _).congr fun p x => ?_
  simp only [Ty.references_getElem?]
  rfl

theorem Enumeration.listed (symbols : Symbols) (scope : String) (e : Enumeration) :
    Listed ((Member.enumeration e).FoundIn symbols scope) (e.findings (Path.join scope e.name)) := by
  rw [findings, repeatedKeys_eq]
  refine (Listed.when _ [0] _ _).append (.repeated _ _ _) ?_
  rintro _ _ _ _ ⟨-, rfl, -⟩ ⟨k, key, -, rfl, -⟩
  exact List.cons_lt_cons_iff.2 (Or.inl (Nat.succ_pos k))

/-- By the tree: a message inside is walked in the same way. -/
theorem Message.listed (symbols : Symbols) (m : Message) (scope : String) :
    Listed (m.FoundIn symbols scope)
      (Finding.when m.members.isEmpty scope (.emptyMessage m.name) ++ Member.findingsAll symbols scope [] m.members) := by
  induction m using induct generalizing scope with
  | step m ih =>
    have inside (y : Member) (hy : y ∈ m.members) : Listed (y.FoundIn symbols scope) (y.findings symbols scope) := by
      cases y with
      | field f =>
        rw [Member.findings]
        exact f.listed symbols scope
      | enumeration e =>
        rw [Member.findings]
        exact e.listed symbols scope
      | message name members =>
        rw [Member.findings]
        exact ih ⟨name, members⟩ (mem_messages.2 hy) (Path.join scope name)
    -- A member's name is at the member's own place, and so before all that is inside it.
    have member (i : Nat) (y : Member) (hy : m.members[i]? = some y) :=
      (Listed.when (decide (y.name ∈ [] ∨ y.name ∈ (m.members.map Member.name).take i)) [] scope
        (.duplicateMember y.name)).append (inside y (List.mem_of_getElem? hy)) (by
          rintro _ _ q _ ⟨-, rfl, -⟩ hq
          obtain ⟨n, rest, rfl⟩ := List.exists_cons_of_ne_nil hq.ne_nil
          exact List.nil_lt_cons _ _)
    rw [Member.findingsAll_eq_flatten]
    refine ((Listed.when _ [0] _ _).append (.walk member 1) ?_).congr fun p x => ?_
    · rintro _ _ _ _ ⟨-, rfl, -⟩ ⟨i, y, q, -, rfl, -⟩
      exact List.cons_lt_cons_iff.2 (Or.inl (Nat.succ_pos i))
    · simpa only [List.not_mem_nil, false_or] using foundIn_iff

namespace Document

def Found (d : Document) (place : List Nat) (x : Finding) : Prop :=
  ∃ node path m here, d.At node path m ∧ m.Found (Symbols.ofDocument d) path here x ∧ place = node ++ here

/-- The linter's walk lists what there is to find. -/
theorem listed (d : Document) : Listed d.Found d.lint := by
  have top (m : Message) : Listed (m.FoundIn (Symbols.ofDocument d) m.name) (m.findings (Symbols.ofDocument d)) :=
    m.listed _ _
  refine (Listed.picked Definition.message? top).congr fun p x => ?_
  constructor
  · rintro ⟨_, path, m, here, ⟨htop, hm⟩, hx, rfl⟩
    exact ⟨_, _, _, _, htop, rfl, rfl, _, path, m, here, hm, hx, rfl⟩
  · rintro ⟨i, y, top, _, hy, htop, rfl, node, path, m, here, hm, hx, rfl⟩
    cases Definition.message?_eq_some_iff.1 htop
    exact ⟨i :: node, path, m, here, .intro hy hm, hx, rfl⟩

end Document

/-! ## How often -/

def Rule.depth : Rule → Nat
  | emptyMessage | duplicateMember => 1
  | emptyEnum | duplicateEnumValue | unresolvedFieldReference => 2

namespace Message

variable {symbols : Symbols} {path : String} {m : Message}

theorem Found.length {here : List Nat} {x : Finding} (h : m.Found symbols path here x) :
    here.length = x.issue.rule.depth := by
  cases h <;> rfl

theorem found_emptyMessage_iff {q : List Nat} {x : Finding} :
    m.Found symbols path q x ∧ q.dropLast = [] ∧ x.issue.rule = .emptyMessage ↔
      m.members.isEmpty = true ∧ q = [0] ∧ x = ⟨path, .emptyMessage m.name⟩ := by
  constructor
  · rintro ⟨hx, -, hrule⟩
    cases hx with
    | emptyMessage h => exact ⟨List.isEmpty_iff.2 h, rfl, rfl⟩
    | _ => cases hrule
  · rintro ⟨h, rfl, rfl⟩
    exact ⟨.emptyMessage (List.isEmpty_iff.1 h), rfl, rfl⟩

theorem found_duplicateMember_iff {q : List Nat} {x : Finding} :
    m.Found symbols path q x ∧ q.dropLast = [] ∧ x.issue.rule = .duplicateMember ↔
      ∃ i name, RepeatedAt (m.members.map Member.name) i name ∧ q = [i + 1] ∧ x = ⟨path, .duplicateMember name⟩ := by
  constructor
  · rintro ⟨hx, -, hrule⟩
    cases hx with
    | duplicateMember h => exact ⟨_, _, h, rfl, rfl⟩
    | _ => cases hrule
  · rintro ⟨i, name, h, rfl, rfl⟩
    exact ⟨.duplicateMember h, rfl, rfl⟩

section Inside

variable {i : Nat}

theorem found_emptyEnum_iff {e : Enumeration} (he : m.members[i]? = some (.enumeration e)) {q : List Nat} {x : Finding} :
    m.Found symbols path q x ∧ q.dropLast = [i + 1] ∧ x.issue.rule = .emptyEnum ↔
      e.values.isEmpty = true ∧ q = [i + 1, 0] ∧ x = ⟨Path.join path e.name, .emptyEnum e.name⟩ := by
  constructor
  · rintro ⟨hx, hhere, hrule⟩
    cases hx with
    | emptyEnum he' h =>
      cases hhere
      cases he.symm.trans he'
      exact ⟨List.isEmpty_iff.2 h, rfl, rfl⟩
    | _ => cases hrule
  · rintro ⟨h, rfl, rfl⟩
    exact ⟨.emptyEnum he (List.isEmpty_iff.1 h), rfl, rfl⟩

theorem found_duplicateEnumValue_iff {e : Enumeration} (he : m.members[i]? = some (.enumeration e)) {q : List Nat}
    {x : Finding} :
    m.Found symbols path q x ∧ q.dropLast = [i + 1] ∧ x.issue.rule = .duplicateEnumValue ↔
      ∃ p, q = [i + 1] ++ p ∧ ∃ k key, RepeatedAt (e.values.map EnumValue.key) k key ∧ p = [k + 1] ∧
        x = ⟨Path.join path e.name, .duplicateEnumValue key⟩ := by
  constructor
  · rintro ⟨hx, hhere, hrule⟩
    cases hx with
    | duplicateEnumValue he' h =>
      cases hhere
      cases he.symm.trans he'
      exact ⟨_, rfl, _, _, h, rfl, rfl⟩
    | _ => cases hrule
  · rintro ⟨_, rfl, k, key, h, rfl, rfl⟩
    exact ⟨.duplicateEnumValue he h, rfl, rfl⟩

theorem found_unresolvedFieldReference_iff {f : Field} (hf : m.members[i]? = some (.field f)) {q : List Nat}
    {x : Finding} :
    m.Found symbols path q x ∧ q.dropLast = [i + 1] ∧ x.issue.rule = .unresolvedFieldReference ↔
      ∃ p, q = [i + 1] ++ p ∧ (Member.field f).FoundIn symbols path p x := by
  constructor
  · rintro ⟨hx, hhere, hrule⟩
    cases hx with
    | unresolvedFieldReference hf' hname h =>
      cases hhere
      cases hf.symm.trans hf'
      exact ⟨_, rfl, _, _, hname, by rw [h, Bool.not_false], rfl, rfl⟩
    | _ => cases hrule
  · rintro ⟨_, rfl, k, name, hname, h, rfl, rfl⟩
    exact ⟨.unresolvedFieldReference hf hname (Bool.not_eq_true' _ ▸ h), rfl, rfl⟩

end Inside

/-- How many findings of each rule there are for a message at `node`, for each of its
    enumerations and for each of its fields. -/
structure Tallied (symbols : Symbols) (placed : List (List Nat × Finding)) (node : List Nat) (path : String)
    (m : Message) : Prop where
  emptyMessage : tally placed node .emptyMessage = if m.members = [] then 1 else 0
  duplicateMember :
    tally placed node .duplicateMember = m.members.length - (m.members.map Member.name).dedup.length
  emptyEnum (i : Nat) (e : Enumeration) : m.members[i]? = some (.enumeration e) →
    tally placed (node ++ [i + 1]) .emptyEnum = if e.values = [] then 1 else 0
  duplicateEnumValue (i : Nat) (e : Enumeration) : m.members[i]? = some (.enumeration e) →
    tally placed (node ++ [i + 1]) .duplicateEnumValue = e.values.length - (e.values.map EnumValue.key).dedup.length
  unresolvedFieldReference (i : Nat) (f : Field) : m.members[i]? = some (.field f) →
    tally placed (node ++ [i + 1]) .unresolvedFieldReference =
      f.type.count fun name => !symbols.resolves path name

end Message

namespace Document

variable {d : Document} {placed : List (List Nat × Finding)} {node : List Nat} {path : String} {m : Message}

/-- Findings of one rule are those of one message if they belong to it or to a member of it. -/
theorem tally_eq (h : InOrder d.Found d.lint placed) (hm : d.At node path m) (here : List Nat) (rule : Rule)
    (hdepth : rule.depth = here.length + 1) {found : List Nat → Finding → Prop} {fs : List Finding} (hl : Listed found fs)
    (hiff : ∀ q x, m.Found (Symbols.ofDocument d) path q x ∧ q.dropLast = here ∧ x.issue.rule = rule ↔ found q x) :
    tally placed (node ++ here) rule = fs.length := by
  -- The rule tells how much of a place is below the message, so two messages cannot both have it.
  have length {m : Message} {path : String} {q : List Nat} {x : Finding}
      (hx : m.Found (Symbols.ofDocument d) path q x) (hrule : x.issue.rule = rule) : q.length = here.length + 1 := by
    rw [hx.length, hrule, hdepth]
  refine h.tally_eq (hl.under node) fun p x => ?_
  constructor
  · rintro ⟨q, rfl, hq⟩
    obtain ⟨hx, hhere, hrule⟩ := (hiff q x).2 hq
    rw [List.dropLast_append_of_ne_nil (List.ne_nil_of_length_eq_add_one (length hx hrule)), hhere]
    exact ⟨⟨node, path, m, q, hm, hx, rfl⟩, rfl, hrule⟩
  · rintro ⟨⟨node', path', m', q, hm', hx, rfl⟩, hnode, hrule⟩
    rw [List.dropLast_append_of_ne_nil (List.ne_nil_of_length_eq_add_one (length hx hrule))] at hnode
    obtain ⟨rfl, hhere⟩ := List.append_inj' hnode (by rw [List.length_dropLast, length hx hrule, Nat.add_sub_cancel])
    obtain ⟨rfl, rfl⟩ := hm.unique hm'
    exact ⟨q, rfl, (hiff q x).1 ⟨hx, hhere, hrule⟩⟩

/-- The counts, each by a listing of its own of what one rule finds in one body. -/
theorem tallied (h : InOrder d.Found d.lint placed) (hm : d.At node path m) :
    m.Tallied (Symbols.ofDocument d) placed node path where
  emptyMessage := by
    have own := tally_eq h hm [] .emptyMessage rfl (.when m.members.isEmpty [0] path (.emptyMessage m.name))
      fun _ _ => Message.found_emptyMessage_iff
    rw [List.append_nil] at own
    rw [own]
    cases m.members <;> rfl
  duplicateMember := by
    have own := tally_eq h hm [] .duplicateMember rfl (.repeated (m.members.map Member.name) path .duplicateMember)
      fun _ _ => Message.found_duplicateMember_iff
    rw [List.append_nil] at own
    rw [own, List.length_map, length_repeats, List.length_map]
  emptyEnum i e he := by
    rw [tally_eq h hm [i + 1] .emptyEnum rfl (.when e.values.isEmpty [i + 1, 0] (Path.join path e.name) (.emptyEnum e.name))
      fun _ _ => Message.found_emptyEnum_iff he]
    cases e.values <;> rfl
  duplicateEnumValue i e he := by
    have values := Listed.repeated (e.values.map EnumValue.key) (Path.join path e.name) .duplicateEnumValue
    rw [tally_eq h hm [i + 1] .duplicateEnumValue rfl (values.under [i + 1])
      fun _ _ => Message.found_duplicateEnumValue_iff he, List.length_map, length_repeats, List.length_map]
  unresolvedFieldReference i f hf := by
    rw [tally_eq h hm [i + 1] .unresolvedFieldReference rfl ((f.listed (Symbols.ofDocument d) path).under [i + 1])
      fun _ _ => Message.found_unresolvedFieldReference_iff hf, Field.findings_eq, ScopedMember.unresolved, List.length_map,
      ← List.countP_eq_length_filter, List.flatMap_singleton, Ty.count_eq_countP]
    exact List.countP_map

end Document

/-! ## Clean documents -/

/-- A message in which there is nothing to find, whatever is inside the messages in it. -/
structure Message.Clean (symbols : Symbols) (path : String) (m : Message) : Prop where
  members : m.members ≠ []
  names : (m.members.map Member.name).Nodup
  enumerations : ∀ e ∈ m.enumerations, e.values ≠ [] ∧ (e.values.map EnumValue.key).Nodup
  fields : ∀ f ∈ m.fields, ∀ k name, f.type.Mentions k name → symbols.resolves path name = true

theorem Message.clean_iff_not_found {symbols : Symbols} {path : String} {m : Message} :
    m.Clean symbols path ↔ ∀ q x, ¬ m.Found symbols path q x := by
  constructor
  · intro h q x hx
    cases hx with
    | emptyMessage hempty => exact h.members hempty
    | duplicateMember hrepeated => exact nodup_iff_not_repeatedAt.1 h.names _ _ hrepeated
    | unresolvedFieldReference hf hname hresolves =>
      have := h.fields _ (mem_fields.2 (List.mem_of_getElem? hf)) _ _ hname
      exact Bool.false_ne_true (hresolves.symm.trans this)
    | emptyEnum he hempty => exact (h.enumerations _ (mem_enumerations.2 (List.mem_of_getElem? he))).1 hempty
    | duplicateEnumValue he hrepeated =>
      have := (h.enumerations _ (mem_enumerations.2 (List.mem_of_getElem? he))).2
      exact nodup_iff_not_repeatedAt.1 this _ _ hrepeated
  · intro h
    refine ⟨fun hempty => h _ _ (.emptyMessage hempty), ?_, ?_, ?_⟩
    · exact nodup_iff_not_repeatedAt.2 fun i name hrepeated => h _ _ (.duplicateMember hrepeated)
    · intro e he
      obtain ⟨i, hi⟩ := List.mem_iff_getElem?.1 (mem_enumerations.1 he)
      refine ⟨fun hempty => h _ _ (.emptyEnum hi hempty), ?_⟩
      exact nodup_iff_not_repeatedAt.2 fun k key hrepeated => h _ _ (.duplicateEnumValue hi hrepeated)
    · intro f hf k name hname
      obtain ⟨i, hi⟩ := List.mem_iff_getElem?.1 (mem_fields.1 hf)
      by_contra hresolves
      exact h _ _ (.unresolvedFieldReference hi hname (Bool.eq_false_iff.2 hresolves))

namespace Document

/-- A document is clean if each of its messages is. -/
theorem lint_eq_nil_iff {d : Document} :
    d.lint = [] ↔ ∀ m around, d.Nested m around → m.Clean (Symbols.ofDocument d) (pathOf m around) := by
  rw [d.listed.eq_nil_iff]
  constructor
  · intro h m around hm
    obtain ⟨node, hnode⟩ := exists_at_iff_nested.2 ⟨around, hm, rfl⟩
    exact Message.clean_iff_not_found.2 fun q x hx => h _ x ⟨node, _, m, q, hnode, hx, rfl⟩
  · rintro h _ x ⟨node, _, m, q, hnode, hx, rfl⟩
    obtain ⟨around, hm, rfl⟩ := exists_at_iff_nested.1 ⟨node, hnode⟩
    exact Message.clean_iff_not_found.1 (h m around hm) q x hx

/-- The linter finds what there is to find at each place and nothing else, in the order
    of the places. So it has one finding for a body without members or values, as many
    for a body as it has names or keys too many, and one for each reference that finds
    nothing; and it has none for a document exactly if all of its messages are clean. -/
theorem lint_in_order (d : Document) :
    (∃ placed, InOrder d.Found d.lint placed ∧
      ∀ node path m, d.At node path m → m.Tallied (Symbols.ofDocument d) placed node path) ∧
      (d.lint = [] ↔ ∀ m around, d.Nested m around → m.Clean (Symbols.ofDocument d) (pathOf m around)) := by
  obtain ⟨placed, h⟩ := d.listed
  exact ⟨⟨placed, h, fun node path m hm => tallied h hm⟩, lint_eq_nil_iff⟩

end Document

end ServLang

/-
  ServLang.Proofs.Findings — the linter's findings by their rules. The linter goes over
  a document once and reports whatever it comes to. Here that is taken apart: what is
  found about names that repeat, in a body or an enumeration, depends on the list of the
  names alone (`repeats`), and what is found about references are those references of
  fields that find nothing, in the order of the source.

  Strict validation looks at the same references in a walk of its own, which ends at the
  first that finds nothing, and with a table of its own, which is the linter's if no name
  of the document repeats. So it refuses exactly what the linter has such a finding for,
  and the violation is the first of them.

  Proved:
  - `count_repeats`: how often a name is reported as repeated.
  - `Enumeration.repeatedKeys_eq`, `Member.findingsAll_perm`: the findings of an
    enumeration's values and of a body's members.
  - `Document.lint_ofRule_unresolved`: the findings about references.
  - `Document.validate_strict_iff_lint`: strict validation against the linter.
-/

import ServLang.Lint
import ServLang.Proofs.FirstViolation

namespace ServLang

/-! ## Names that repeat -/

/-- Every element that stands among `seen` or earlier in the list, as often as it does so. -/
def repeats {α : Type} [DecidableEq α] (seen : List α) : List α → List α
  | [] => []
  | x :: xs => if x ∈ seen then x :: repeats (x :: seen) xs else repeats (x :: seen) xs

section Repeats

variable {α β : Type} [DecidableEq α] [DecidableEq β] {seen xs ys : List α}

/-- All of its places count except the first, if it was not seen before. -/
theorem count_repeats (x : α) : (repeats seen xs).count x = xs.count x - if x ∈ seen then 0 else 1 := by
  induction xs generalizing seen with
  | nil => simp [repeats]
  | cons y ys ih =>
    rw [repeats]
    by_cases hxy : y = x
    · subst hxy
      split <;> simp [*]
    · have hmem : x ∈ y :: seen ↔ x ∈ seen := by simp [Ne.symm hxy]
      rw [List.count_cons_of_ne hxy]
      split <;> simp only [List.count_cons_of_ne hxy, ih, hmem]

theorem repeats_map {f : α → β} (hf : ∀ x ∈ xs, ∀ y ∈ xs, f x = f y → x = y) {seen' : List β}
    (h : ∀ x ∈ xs, f x ∈ seen' ↔ x ∈ seen) : repeats seen' (xs.map f) = (repeats seen xs).map f := by
  induction xs generalizing seen seen' with
  | nil => rfl
  | cons x xs ih =>
    have rest : repeats (f x :: seen') (xs.map f) = (repeats (x :: seen) xs).map f := by
      apply ih
      · intro y hy z hz
        exact hf y (List.mem_cons_of_mem _ hy) z (List.mem_cons_of_mem _ hz)
      · intro y hy
        rw [List.mem_cons, List.mem_cons, h y (List.mem_cons_of_mem _ hy)]
        exact or_congr ⟨hf y (List.mem_cons_of_mem _ hy) x List.mem_cons_self, congrArg f⟩ Iff.rfl
    rw [List.map_cons, repeats, repeats, rest]
    by_cases hx : x ∈ seen
    · rw [if_pos hx, if_pos ((h x List.mem_cons_self).2 hx), List.map_cons]
    · rw [if_neg hx, if_neg (mt (h x List.mem_cons_self).1 hx)]

theorem repeats_perm (h : xs.Perm ys) : (repeats seen xs).Perm (repeats seen ys) := by
  rw [List.perm_iff_count]
  intro x
  rw [count_repeats, count_repeats, h.count_eq]

end Repeats

/-- An enumeration's repeated values, by the keys alone. -/
theorem Enumeration.repeatedKeys_eq (path : String) (earlier : List String) (vs : List EnumValue) :
    repeatedKeys path earlier vs =
      (repeats earlier (vs.map EnumValue.key)).map fun key => ⟨path, .duplicateEnumValue key⟩ := by
  induction vs generalizing earlier with
  | nil => rfl
  | cons v vs ih =>
    rw [repeatedKeys, ih, List.map_cons, repeats, Finding.when]
    by_cases h : v.key ∈ earlier
    · rw [if_pos h, if_pos (List.contains_iff_mem.2 h)]
      rfl
    · rw [if_neg h, if_neg (mt List.contains_iff_mem.1 h)]
      rfl

/-- The linter reports a repeated name just before what it finds in the member itself. -/
theorem Member.findingsAll_perm (symbols : Symbols) (scope : String) (earlier : List String) (ms : List Member) :
    (findingsAll symbols scope earlier ms).Perm
      (((repeats earlier (ms.map Member.name)).map fun name => ⟨scope, .duplicateMember name⟩) ++
        ms.flatMap (findings symbols scope)) := by
  induction ms generalizing earlier with
  | nil => exact .refl _
  | cons m ms ih =>
    have each := ((ih (m.name :: earlier)).append_left (m.findings symbols scope)).trans
      (List.perm_append_comm_assoc _ _ _)
    rw [findingsAll, List.append_assoc, List.map_cons, repeats, List.flatMap_cons, Finding.when]
    by_cases h : m.name ∈ earlier
    · rw [if_pos h, if_pos (List.contains_iff_mem.2 h)]
      exact each.append_left _
    · rw [if_neg h, if_neg (mt List.contains_iff_mem.1 h)]
      exact each

/-! ## Findings of one rule -/

namespace Finding

def ofRule (r : Rule) (fs : List Finding) : List Finding := fs.filter (·.issue.rule = r)

variable {r : Rule}

theorem ofRule_append (fs gs : List Finding) : ofRule r (fs ++ gs) = ofRule r fs ++ ofRule r gs := List.filter_append fs gs

theorem ofRule_eq_nil_iff {fs : List Finding} : ofRule r fs = [] ↔ ∀ x ∈ fs, x.issue.rule ≠ r := by
  simp [ofRule, List.filter_eq_nil_iff]

/-- A finding of another rule in front does not count. -/
theorem ofRule_when_append {found : Bool} {path : String} {issue : Issue} (h : issue.rule ≠ r) (fs : List Finding) :
    ofRule r (when found path issue ++ fs) = ofRule r fs := by
  have other : ofRule r (when found path issue) = [] := by
    rw [ofRule_eq_nil_iff]
    intro x hx
    unfold when at hx
    split at hx
    · rw [List.mem_singleton.1 hx]
      exact h
    · cases hx
  rw [ofRule_append, other, List.nil_append]

end Finding

/-! ## References that find nothing -/

def FieldReference.finding (r : FieldReference) : Finding := ⟨r.message, .unresolvedFieldReference r.field r.path⟩

def ScopedMember.unresolved (symbols : Symbols) (ps : List ScopedMember) : List Finding :=
  ((ps.flatMap references).filter fun r => !symbols.resolves r.message r.path).map FieldReference.finding

theorem ScopedMember.unresolved_append (symbols : Symbols) (ps qs : List ScopedMember) :
    unresolved symbols (ps ++ qs) = unresolved symbols ps ++ unresolved symbols qs := by
  rw [unresolved, List.flatMap_append, List.filter_append, List.map_append]
  rfl

/-- All that is found in a field is about its references. -/
theorem Field.findings_eq (symbols : Symbols) (scope : String) (f : Field) :
    f.findings symbols scope = ScopedMember.unresolved symbols [⟨scope, .field f⟩] := by
  have each (paths : List String) :
      (paths.flatMap fun path => Finding.when (!symbols.resolves scope path) scope (.unresolvedFieldReference f.name path)) =
        ((paths.map fun path => FieldReference.mk scope f.name path).filter fun r =>
          !symbols.resolves r.message r.path).map FieldReference.finding := by
    induction paths with
    | nil => rfl
    | cons path paths ih =>
      rw [List.flatMap_cons, ih, List.map_cons, List.filter_cons]
      cases symbols.resolves scope path <;> rfl
  rw [findings, each, ScopedMember.unresolved, List.flatMap_singleton]
  rfl

theorem Finding.ofRule_unresolved (symbols : Symbols) (ps : List ScopedMember) :
    ofRule .unresolvedFieldReference (ScopedMember.unresolved symbols ps) = ScopedMember.unresolved symbols ps := by
  refine List.filter_eq_self.2 fun x hx => ?_
  obtain ⟨r, -, rfl⟩ := List.mem_map.1 hx
  rfl

theorem Enumeration.ofRule_unresolved_findings (path : String) (e : Enumeration) :
    Finding.ofRule .unresolvedFieldReference (e.findings path) = [] := by
  have keys : Finding.ofRule .unresolvedFieldReference (repeatedKeys path [] e.values) = [] := by
    rw [repeatedKeys_eq, Finding.ofRule_eq_nil_iff]
    intro x hx
    obtain ⟨key, -, rfl⟩ := List.mem_map.1 hx
    exact nofun
  rw [findings, Finding.ofRule_when_append (by simp [Issue.rule]), keys]

namespace Member

theorem ofRule_unresolved_findingsAll_of_forall {symbols : Symbols} {scope : String} {ms : List Member}
    (h : ∀ m ∈ ms, Finding.ofRule .unresolvedFieldReference (m.findings symbols scope) =
      ScopedMember.unresolved symbols (⟨scope, m⟩ :: m.descendants scope)) (earlier : List String) :
    Finding.ofRule .unresolvedFieldReference (findingsAll symbols scope earlier ms) =
      ScopedMember.unresolved symbols (withDescendants scope ms) := by
  induction ms generalizing earlier with
  | nil => rfl
  | cons m ms ih =>
    rw [findingsAll, Finding.ofRule_append, Finding.ofRule_when_append (by simp [Issue.rule]), h m List.mem_cons_self,
      ih fun n hn => h n (List.mem_cons_of_mem _ hn), withDescendants, ScopedMember.unresolved_append]

theorem ofRule_unresolved_findings (symbols : Symbols) (m : Member) (scope : String) :
    Finding.ofRule .unresolvedFieldReference (m.findings symbols scope) =
      ScopedMember.unresolved symbols (⟨scope, m⟩ :: m.descendants scope) := by
  induction m generalizing scope with
  | field f => rw [findings, Field.findings_eq, Finding.ofRule_unresolved, descendants]
  | enumeration e => exact e.ofRule_unresolved_findings _
  | message name members ih =>
    rw [findings, Finding.ofRule_when_append (by simp [Issue.rule]),
      ofRule_unresolved_findingsAll_of_forall fun m hm => ih m hm _]
    rfl

end Member

namespace Document

/-- The findings about references are the field references that find nothing, in their
    order. -/
theorem lint_ofRule_unresolved (d : Document) :
    Finding.ofRule .unresolvedFieldReference d.lint =
      (d.fieldReferences.filter fun r => !(Symbols.ofDocument d).resolves r.message r.path).map FieldReference.finding := by
  rw [lint, Finding.ofRule, List.filter_flatMap, fieldReferences, List.filter_flatMap, List.map_flatMap]
  congr
  funext m
  show Finding.ofRule _ (m.findings _) = ScopedMember.unresolved _ m.descendants
  rw [Message.findings, Finding.ofRule_when_append (by simp [Issue.rule]),
    Member.ofRule_unresolved_findingsAll_of_forall fun x _ => x.ofRule_unresolved_findings _ _]
  rfl

/-! ## Strict validation -/

/-- So the first such finding is about the first such reference. -/
theorem lint_find?_unresolved (d : Document) :
    d.lint.find? (·.issue.rule = .unresolvedFieldReference) =
      (d.fieldReferences.find? fun r => !(Symbols.ofDocument d).resolves r.message r.path).map FieldReference.finding := by
  rw [← List.head?_filter, ← List.head?_filter, ← List.head?_map, ← lint_ofRule_unresolved]
  rfl

/-- With the other rules kept, only references of fields are left to be refused. -/
theorem violation?_strict {d : Document} (h : d.validate false = .ok d) :
    d.violation? true =
      (d.fieldReferences.find? fun r => !(Symbols.ofDocument d).resolves r.message r.path).map Violation.ofField := by
  have hnone := (validate_eq_ok_iff.1 h).2
  rw [violation?_eq, Option.or_eq_none_iff, Option.or_eq_none_iff] at hnone
  rw [violation?_eq, hnone.1, hnone.2.1, Option.none_or, Option.none_or, if_pos rfl, fieldViolation?_eq]

/-- Of a document that keeps the other rules, strict validation and the linter say the
    same about the references of fields: one refuses it exactly if the other has a
    finding, and the violation tells what the first of the findings tells. -/
theorem validate_strict_iff_lint {d : Document} (h : d.validate false = .ok d) :
    (d.validate true = .ok d ↔ ∀ x ∈ d.lint, x.issue.rule ≠ .unresolvedFieldReference) ∧
      ∀ v, d.validate true = .error v →
        ∃ path field name x, v = .unknownType path field name ∧
          First (fun x => x.issue.rule = .unresolvedFieldReference) d.lint x ∧ x.path = path ∧
          x.issue = .unresolvedFieldReference field name ∧
          x.issue.message = "field `" ++ field ++ "` references unknown type `" ++ name ++ "`" := by
  have strict := violation?_strict h
  have found := lint_find?_unresolved d
  refine ⟨?_, ?_⟩
  · rw [validate_eq_ok_iff, strict, Option.map_eq_none_iff, ← Option.map_eq_none_iff, ← found, List.find?_eq_none]
    simp
  · intro v hv
    cases hr : d.fieldReferences.find? fun r => !(Symbols.ofDocument d).resolves r.message r.path with
    | none =>
      rw [hr, Option.map_none] at strict
      rw [validate, strict] at hv
      cases hv
    | some r =>
      rw [hr, Option.map_some] at strict found
      rw [validate, strict] at hv
      cases hv
      refine ⟨r.message, r.field, r.path, r.finding, rfl, ?_, rfl, rfl, rfl⟩
      exact (find?_eq_some_iff_first fun x => decide_eq_true_iff).1 found

/-- Two members of one name, and a type that names an enumeration declared after it
    before a type that is not there. -/
theorem validate_strict_iff_lint_repeated :
    ∃ d : Document, d.validate false = .ok d ∧ d.validate true = .error (.unknownType "M.N" "x" "F") ∧
      (d.validate true = .ok d ↔ ∀ x ∈ d.lint, x.issue.rule ≠ .unresolvedFieldReference) ∧
      ∃ path field name x, Violation.unknownType "M.N" "x" "F" = .unknownType path field name ∧
        First (fun x => x.issue.rule = .unresolvedFieldReference) d.lint x ∧ x.path = path ∧
        x.issue = .unresolvedFieldReference field name ∧
        x.issue.message = "field `" ++ field ++ "` references unknown type `" ++ name ++ "`" := by
  let d : Document := ⟨[.message ⟨"M", [
    .message "N" [.field ⟨.plain, .map (.reference "E") (.reference "F"), "x"⟩, .field ⟨.plain, .reference "G", "x"⟩],
    .enumeration ⟨"E", []⟩]⟩]⟩
  have kept : d.validate false = .ok d := validate_eq_ok_iff.2 ⟨rfl, by decide +kernel⟩
  have broken : d.violation? true = some (.unknownType "M.N" "x" "F") := by decide +kernel
  have refused : d.validate true = .error (.unknownType "M.N" "x" "F") := by rw [validate, broken]
  exact ⟨d, kept, refused, (validate_strict_iff_lint kept).1, (validate_strict_iff_lint kept).2 _ refused⟩

end Document

end ServLang

/-
  ServLang.Proofs.TargetTypes — types in generated code. The spelling of a map is
  `map[K]V`, a prefix notation without a closing sign for the value, in which keys may
  hold brackets of their own: those of further maps, and those of `[]byte`. Scalars of one
  spelling are one type there, and so are a scalar and a reference called like it.

  What is left of a type is its `Outline`: the maps, and the spellings at their ends. A
  spelling can be told from what comes behind it, since that is nothing or the bracket
  that closes a key. Up to there a leaf has no bracket, or is `[]byte`; a map starts
  with the one bracket that follows a name.

  Proved:
  - `Outline.decode`: the spelling of an outline, in front of what ends it, gives back the
    outline and the rest.
  - `Ty.target_eq_iff_outline_eq`: types are spelled alike exactly if their outlines are
    the same.
-/

import ServLang.Proofs.RoundTrip

namespace ServLang

/-- A type as its maps, and what is written at each end of them. -/
inductive Outline where
  | leaf (text : String)
  | map (key value : Outline)
deriving DecidableEq, Repr

def Ty.outline : Ty → Outline
  | scalar s => .leaf s.target
  | map key value => .map key.outline value.outline
  | reference path => .leaf path

namespace Outline

def text : Outline → String
  | leaf text => text
  | map key value => "map[" ++ key.text ++ "]" ++ value.text

def isUnbracketed (c : Char) : Bool := c ≠ '[' && c ≠ ']'

/-- What can be written at an end: no brackets, or the bytes. -/
def IsLeaf (text : List Char) : Prop := text.all isUnbracketed = true ∨ text = "[]byte".toList

def Proper : Outline → Prop
  | leaf text => IsLeaf text.toList
  | map key value => key.Proper ∧ value.Proper

/-- A spelling ends with the text, or at the bracket that closes a key. -/
def Ends (cs : List Char) : Prop := ∀ c ∈ cs.head?, c = ']'

/-! ## Leaves -/

section

variable {text text' xs ys : List Char}

theorem Ends.endsRun (h : Ends xs) : EndsRun isUnbracketed xs := by
  intro c hc
  rw [h c hc]
  rfl

theorem Ends.nil : Ends [] := by
  intro c hc
  cases hc

theorem Ends.close : Ends (']' :: xs) := by
  intro c hc
  cases hc
  rfl

theorem Ends.not_open : ¬ Ends ('[' :: xs) := fun h => absurd (h '[' rfl) (by decide)

/-- A leaf without brackets is the run of what is in front of the first bracket. -/
theorem run_of_unbracketed (h : text.all isUnbracketed = true) (hx : Ends xs) :
    (text ++ xs).takeWhile isUnbracketed = text ∧ (text ++ xs).dropWhile isUnbracketed = xs :=
  ⟨hx.endsRun.takeWhile_append h, hx.endsRun.dropWhile_append h⟩

/-- The bytes start with a bracket, so nothing else at an end does. -/
theorem bytes_ne_unbracketed (h : text.all isUnbracketed = true) (hx : Ends xs) :
    text ++ xs ≠ "[]byte".toList ++ ys := by
  intro heq
  have rest : xs = '[' :: ("]byte".toList ++ ys) := by
    rw [← (run_of_unbracketed h hx).2, heq]
    rfl
  rw [rest] at hx
  exact hx.not_open

/-- A leaf can be told from what stands behind it. -/
theorem IsLeaf.decode (h : IsLeaf text) (h' : IsLeaf text') (hx : Ends xs) (hy : Ends ys)
    (heq : text ++ xs = text' ++ ys) : text = text' ∧ xs = ys := by
  rcases h with h | rfl <;> rcases h' with h' | rfl
  · obtain ⟨hrun, hrest⟩ := run_of_unbracketed h hx
    obtain ⟨hrun', hrest'⟩ := run_of_unbracketed h' hy
    rw [heq] at hrun hrest
    exact ⟨hrun.symm.trans hrun', hrest.symm.trans hrest'⟩
  · exact absurd heq (bytes_ne_unbracketed h hx)
  · exact absurd heq.symm (bytes_ne_unbracketed h' hy)
  · exact ⟨rfl, List.append_cancel_left heq⟩

/-- No leaf starts a map: `map` may be one, but then no bracket opens behind it. -/
theorem IsLeaf.not_map (h : IsLeaf text) (hx : Ends xs) : text ++ xs ≠ "map[".toList ++ ys := by
  intro heq
  rcases h with h | rfl
  · have rest : xs = '[' :: ys := by
      rw [← (run_of_unbracketed h hx).2, heq]
      rfl
    rw [rest] at hx
    exact hx.not_open
  · cases heq

end

/-! ## Outlines -/

theorem text_map_append (key value : Outline) (rest : List Char) :
    (map key value).text.toList ++ rest =
      "map[".toList ++ (key.text.toList ++ ']' :: (value.text.toList ++ rest)) := by
  simp [text]

/-- By both trees: the bracket that closes a key is found again. -/
theorem decode {a b : Outline} {xs ys : List Char} (ha : a.Proper) (hb : b.Proper) (hx : Ends xs) (hy : Ends ys)
    (h : a.text.toList ++ xs = b.text.toList ++ ys) : a = b ∧ xs = ys := by
  induction a generalizing b xs ys with
  | leaf text =>
    cases b with
    | leaf text' =>
      obtain ⟨htext, hrest⟩ := IsLeaf.decode ha hb hx hy h
      exact ⟨congrArg leaf (String.toList_inj.1 htext), hrest⟩
    | map key value =>
      rw [text_map_append] at h
      exact absurd h (IsLeaf.not_map ha hx)
  | map key value ihk ihv =>
    rw [text_map_append] at h
    cases b with
    | leaf text => exact absurd h.symm (IsLeaf.not_map hb hy)
    | map key' value' =>
      rw [text_map_append] at h
      -- Behind both keys stands their closing bracket.
      obtain ⟨rfl, hvalue⟩ := ihk ha.1 hb.1 .close .close (List.append_cancel_left h)
      obtain ⟨rfl, hrest⟩ := ihv ha.2 hb.2 hx hy (List.cons.inj hvalue).2
      exact ⟨rfl, hrest⟩

end Outline

/-! ## Types -/

namespace Ty

theorem target_eq_text (ty : Ty) : ty.target = ty.outline.text := by
  induction ty with
  | scalar s => rfl
  | map key value ihk ihv => rw [target, ihk, ihv, outline, Outline.text]
  | reference path => rfl

theorem proper_outline {ty : Ty} (h : ty.wellFormed = true) : ty.outline.Proper := by
  induction ty with
  | scalar s => cases s <;> first | exact Or.inl (by decide) | exact Or.inr rfl
  | map key value ihk ihv =>
    rw [wellFormed_map, Bool.and_eq_true] at h
    exact ⟨ihk h.1, ihv h.2⟩
  | reference path =>
    rw [wellFormed_reference] at h
    refine Or.inl (List.all_eq_true.2 fun c hc => ?_)
    rcases Path.isWordRest_of_wellFormed h hc with hword | rfl
    · rw [Outline.isUnbracketed, Bool.and_eq_true, decide_eq_true_eq, decide_eq_true_eq]
      constructor
      · rintro rfl
        cases hword
      · rintro rfl
        cases hword
    · rfl

/-- Generated code spells two types alike exactly if they have the same maps, with the
    same spellings at their ends. -/
theorem target_eq_iff_outline_eq {a b : Ty} (ha : a.wellFormed = true) (hb : b.wellFormed = true) :
    a.target = b.target ↔ a.outline = b.outline := by
  rw [target_eq_text, target_eq_text]
  constructor
  · intro h
    have same : a.outline.text.toList ++ [] = b.outline.text.toList ++ [] := by rw [h]
    exact (Outline.decode (proper_outline ha) (proper_outline hb) .nil .nil same).1
  · exact congrArg Outline.text

/-- Maps in keys, with `[]byte` and a message `map` for leaves, and a scalar that is spelled
    like a message. -/
theorem target_eq_iff_outline_eq_keys :
    (map (map (scalar .bytes) (reference "map")) (scalar .double)).wellFormed = true ∧
      (map (map (scalar .bytes) (reference "map")) (reference "float64")).wellFormed = true ∧
      (map (scalar .bytes) (map (reference "map") (scalar .double))).wellFormed = true ∧
      (map (map (scalar .bytes) (reference "map")) (scalar .double)).target =
        (map (map (scalar .bytes) (reference "map")) (reference "float64")).target ∧
      (map (map (scalar .bytes) (reference "map")) (scalar .double)).target ≠
        (map (scalar .bytes) (map (reference "map") (scalar .double))).target := by
  have nested : (map (map (scalar .bytes) (reference "map")) (scalar .double)).wellFormed = true := by decide +kernel
  have named : (map (map (scalar .bytes) (reference "map")) (reference "float64")).wellFormed = true := by
    decide +kernel
  have turned : (map (scalar .bytes) (map (reference "map") (scalar .double))).wellFormed = true := by decide +kernel
  exact ⟨nested, named, turned, (target_eq_iff_outline_eq nested named).2 rfl,
    fun h => absurd ((target_eq_iff_outline_eq nested turned).1 h) (by decide)⟩

end Ty

end ServLang

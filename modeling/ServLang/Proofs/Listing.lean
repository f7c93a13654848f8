/-
  ServLang.Proofs.Listing — what stands at places, as a list. A place is a list of
  numbers, the way down a tree, and places in their lexicographic order are those of a
  walk from left to right, each node before what is inside it. A rule says what stands at
  a place and knows of no walk; a program goes through the tree and keeps a list.

  A list is a listing of a rule if it has what stands anywhere, in the order of the
  places and no two things at one place. Listings are put together as walks are: side by
  side, one step further down, over the elements of a list.

  Proved:
  - `Listed.walk`, `Listed.picked`: a walk over a list, or over the elements picked from
    one, lists what is in each below the element's number.
  - `Listed.mem_iff`, `Listed.forall_iff`, `Listed.first_iff`: what a listing has, what is
    true of all of it, and its first element with a property, by places alone.
  - `Listed.find?_eq_some_iff`, `Listed.find?_eq_none_iff`: a search of a listing, likewise.
-/

import Mathlib.Data.List.Basic

namespace ServLang

/-- An element with the property that stands after none with it. -/
def First {α : Type} (P : α → Prop) (xs : List α) (x : α) : Prop :=
  P x ∧ ∃ before after, xs = before ++ x :: after ∧ ∀ y ∈ before, ¬ P y

theorem find?_eq_some_iff_first {α : Type} {p : α → Bool} {P : α → Prop} (h : ∀ x, p x = true ↔ P x)
    {xs : List α} {x : α} : xs.find? p = some x ↔ First P xs x := by
  rw [List.find?_eq_some_iff_append, First, h]
  refine and_congr Iff.rfl (exists_congr fun before => exists_congr fun after => and_congr Iff.rfl ?_)
  refine forall_congr' fun y => forall_congr' fun _ => ?_
  rw [← h, Bool.not_eq_true', Bool.not_eq_true]

theorem flatMap_eq_flatten_mapIdx {α β : Type} (f : α → List β) (xs : List α) :
    xs.flatMap f = (xs.mapIdx fun _ x => f x).flatten := by
  rw [List.flatMap_def, List.mapIdx_eq_iff.2 fun _ => List.getElem?_map]

/-! ## Places -/

/-- What is `found` with the property at some place, and at no place before that one. -/
def FirstAt {α : Type} (found : List Nat → α → Prop) (P : α → Prop) (x : α) : Prop :=
  ∃ place, found place x ∧ P x ∧ ∀ earlier y, found earlier y → earlier < place → ¬ P y

/-- The elements of `xs`, each with its place: they stand in the order of the places, no
    two at one place, and are exactly what is `found`. -/
structure InOrder {α : Type} (found : List Nat → α → Prop) (xs : List α) (placed : List (List Nat × α)) : Prop where
  elements : placed.map Prod.snd = xs
  ordered : placed.Pairwise (·.1 < ·.1)
  mem (place : List Nat) (x : α) : (place, x) ∈ placed ↔ found place x

theorem InOrder.nodup {α : Type} {found : List Nat → α → Prop} {xs : List α} {placed : List (List Nat × α)}
    (h : InOrder found xs placed) : placed.Nodup := by
  refine h.ordered.imp fun hlt heq => ?_
  rw [heq] at hlt
  exact List.lt_irrefl _ hlt

def Listed {α : Type} (found : List Nat → α → Prop) (xs : List α) : Prop := ∃ placed, InOrder found xs placed

namespace Listed

variable {α β : Type} {found found' : List Nat → α → Prop} {xs ys : List α}

theorem congr (h : Listed found xs) (hiff : ∀ place x, found' place x ↔ found place x) : Listed found' xs := by
  obtain ⟨placed, h⟩ := h
  exact ⟨placed, h.elements, h.ordered, fun place x => (h.mem place x).trans (hiff place x).symm⟩

theorem nil (h : ∀ place x, ¬ found place x) : Listed found [] :=
  ⟨[], rfl, .nil, fun place x => iff_of_false List.not_mem_nil (h place x)⟩

theorem singleton (place : List Nat) (x : α) : Listed (fun p y => p = place ∧ y = x) [x] :=
  ⟨[(place, x)], rfl, List.pairwise_singleton _ _, by simp⟩

/-- What is made of each element stands where the element does. -/
theorem map (h : Listed found xs) (f : α → β) : Listed (fun p y => ∃ x, found p x ∧ y = f x) (xs.map f) := by
  obtain ⟨placed, rfl, ordered, mem⟩ := h
  refine ⟨placed.map fun x => (x.1, f x.2), ?_, List.pairwise_map.2 ordered, fun p y => ?_⟩
  · rw [List.map_map, List.map_map]
    rfl
  · rw [List.mem_map]
    constructor
    · rintro ⟨⟨q, x⟩, hmem, heq⟩
      cases heq
      exact ⟨x, (mem q x).1 hmem, rfl⟩
    · rintro ⟨x, hx, rfl⟩
      exact ⟨(p, x), (mem p x).2 hx, rfl⟩

/-- Side by side, if all of one is before all of the other. -/
theorem append (h : Listed found xs) (h' : Listed found' ys)
    (before : ∀ p x q y, found p x → found' q y → p < q) :
    Listed (fun p x => found p x ∨ found' p x) (xs ++ ys) := by
  obtain ⟨placed, rfl, ordered, mem⟩ := h
  obtain ⟨placed', rfl, ordered', mem'⟩ := h'
  refine ⟨placed ++ placed', List.map_append, List.pairwise_append.2 ⟨ordered, ordered', ?_⟩, fun p x => ?_⟩
  · intro x hx y hy
    exact before _ _ _ _ ((mem _ _).1 hx) ((mem' _ _).1 hy)
  · rw [List.mem_append, mem, mem']

/-- One step further down. -/
theorem cons (n : Nat) (h : Listed found xs) : Listed (fun p x => ∃ q, p = n :: q ∧ found q x) xs := by
  obtain ⟨placed, rfl, ordered, mem⟩ := h
  refine ⟨placed.map fun x => (n :: x.1, x.2), ?_, ?_, fun p x => ?_⟩
  · rw [List.map_map]
    rfl
  · rw [List.pairwise_map]
    exact ordered.imp fun hlt => List.cons_lt_cons_iff.2 (Or.inr ⟨rfl, hlt⟩)
  · rw [List.mem_map]
    constructor
    · rintro ⟨⟨q, y⟩, hmem, heq⟩
      cases heq
      exact ⟨q, rfl, (mem q y).1 hmem⟩
    · rintro ⟨q, rfl, hq⟩
      exact ⟨(q, x), (mem q x).2 hq, rfl⟩

/-- Some steps further down. -/
theorem under (node : List Nat) (h : Listed found xs) : Listed (fun p x => ∃ q, p = node ++ q ∧ found q x) xs := by
  induction node with
  | nil => exact h.congr (by simp)
  | cons n node ih => exact (ih.cons n).congr (by simp)

/-- A walk over a list lists what is found in its elements, each element's share at
    places below the element's own number. -/
theorem walk {zs : List β} {step : Nat → β → List α} {found : Nat → β → List Nat → α → Prop}
    (h : ∀ i z, zs[i]? = some z → Listed (found i z) (step i z)) (first : Nat) :
    Listed (fun p x => ∃ i z q, zs[i]? = some z ∧ p = (i + first) :: q ∧ found i z q x) (zs.mapIdx step).flatten := by
  -- The rest is walked with numbers that start one higher.
  induction zs generalizing step found first with
  | nil => exact nil (by simp)
  | cons z zs ih =>
    have here := (h 0 z rfl).cons first
    have rest := ih (fun i y hy => h (i + 1) y hy) (first + 1)
    rw [List.mapIdx_cons, List.flatten_cons]
    refine (here.append rest ?_).congr fun p x => ?_
    · rintro _ _ _ _ ⟨q, rfl, -⟩ ⟨i, -, q', -, rfl, -⟩
      exact List.cons_lt_cons_iff.2 (Or.inl (by omega))
    · constructor
      · rintro ⟨i, y, q, hy, rfl, hq⟩
        cases i with
        | zero =>
          cases hy
          exact Or.inl ⟨q, by rw [Nat.zero_add], hq⟩
        | succ i => exact Or.inr ⟨i, y, q, hy, by rw [Nat.add_right_comm, Nat.add_assoc], hq⟩
      · rintro (⟨q, rfl, hq⟩ | ⟨i, y, q, hy, rfl, hq⟩)
        · exact ⟨0, z, q, rfl, by rw [Nat.zero_add], hq⟩
        · exact ⟨i + 1, y, q, hy, by rw [Nat.add_right_comm, Nat.add_assoc], hq⟩

/-- A walk that skips elements: what is picked keeps the number of where it was. -/
theorem picked {γ : Type} {zs : List γ} (pick : γ → Option β) {step : β → List α} {found : β → List Nat → α → Prop}
    (h : ∀ y, Listed (found y) (step y)) :
    Listed (fun p x => ∃ i z y q, zs[i]? = some z ∧ pick z = some y ∧ p = i :: q ∧ found y q x)
      ((zs.filterMap pick).flatMap step) := by
  have each (i : Nat) (z : γ) (_ : zs[i]? = some z) :
      Listed (fun q x => ∃ y, pick z = some y ∧ found y q x) ((pick z).toList.flatMap step) := by
    cases pick z with
    | none => exact nil (by simp)
    | some y =>
      rw [Option.toList_some, List.flatMap_singleton]
      exact (h y).congr (by simp)
  rw [List.filterMap_eq_flatMap_toList, List.flatMap_assoc, flatMap_eq_flatten_mapIdx]
  refine (walk each 0).congr fun p x => ?_
  constructor
  · rintro ⟨i, z, y, q, hz, hy, rfl, hq⟩
    exact ⟨i, z, q, hz, rfl, y, hy, hq⟩
  · rintro ⟨i, z, q, hz, rfl, y, hy, hq⟩
    exact ⟨i, z, y, q, hz, hy, rfl, hq⟩

/-- A list lists its own elements, each at its number. -/
theorem self (xs : List α) (first : Nat) : Listed (fun p x => ∃ i, xs[i]? = some x ∧ p = [i + first]) xs := by
  have each := walk (fun i x (_ : xs[i]? = some x) => singleton [] x) first
  rw [← flatMap_eq_flatten_mapIdx, List.flatMap_singleton'] at each
  refine each.congr fun p x => ?_
  constructor
  · rintro ⟨i, hx, rfl⟩
    exact ⟨i, x, [], hx, rfl, rfl, rfl⟩
  · rintro ⟨i, y, q, hy, rfl, rfl, rfl⟩
    exact ⟨i, hy, rfl⟩

/-! ## What a listing tells -/

theorem mem_iff (h : Listed found xs) {x : α} : x ∈ xs ↔ ∃ place, found place x := by
  obtain ⟨placed, rfl, -, mem⟩ := h
  constructor
  · intro hx
    obtain ⟨⟨place, _⟩, hmem, rfl⟩ := List.mem_map.1 hx
    exact ⟨place, (mem _ _).1 hmem⟩
  · rintro ⟨place, hx⟩
    exact List.mem_map.2 ⟨(place, x), (mem _ _).2 hx, rfl⟩

theorem forall_iff (h : Listed found xs) {P : α → Prop} : (∀ x ∈ xs, P x) ↔ ∀ place x, found place x → P x := by
  constructor
  · intro hall place x hx
    exact hall x (h.mem_iff.2 ⟨place, hx⟩)
  · intro hall x hx
    obtain ⟨place, hplace⟩ := h.mem_iff.1 hx
    exact hall place x hplace

theorem eq_nil_iff (h : Listed found xs) : xs = [] ↔ ∀ place x, ¬ found place x :=
  List.eq_nil_iff_forall_not_mem.trans h.forall_iff

/-- The first element of a list with a property is the one at the first place. -/
theorem first_iff (h : Listed found xs) {P : α → Prop} {x : α} : First P xs x ↔ FirstAt found P x := by
  obtain ⟨placed, rfl, ordered, mem⟩ := h
  constructor
  · rintro ⟨hx, before, after, hsplit, hbefore⟩
    obtain ⟨placedBefore, _, rfl, rfl, hrest⟩ := List.map_eq_append_iff.1 hsplit
    obtain ⟨⟨place, _⟩, placedAfter, rfl, rfl, rfl⟩ := List.map_eq_cons_iff.1 hrest
    refine ⟨place, (mem _ _).1 (List.mem_append_right _ List.mem_cons_self), hx, fun earlier y hy hlt => ?_⟩
    obtain ⟨-, after, -⟩ := List.pairwise_append.1 ordered
    -- Whatever stands earlier is in front, since the rest is at later places.
    rcases List.mem_append.1 ((mem _ _).2 hy) with hmem | hmem
    · exact hbefore y (List.mem_map_of_mem hmem)
    · rcases List.mem_cons.1 hmem with heq | hmem
      · cases heq
        exact absurd hlt (List.lt_irrefl _)
      · exact absurd (List.lt_trans hlt ((List.pairwise_cons.1 after).1 _ hmem)) (List.lt_irrefl _)
  · rintro ⟨place, hplace, hx, hfirst⟩
    obtain ⟨before, after, rfl⟩ := List.append_of_mem ((mem _ _).2 hplace)
    refine ⟨hx, before.map Prod.snd, after.map Prod.snd, by rw [List.map_append, List.map_cons], fun y hy => ?_⟩
    obtain ⟨⟨earlier, _⟩, hmem, rfl⟩ := List.mem_map.1 hy
    refine hfirst earlier _ ((mem _ _).1 (List.mem_append_left _ hmem)) ?_
    exact (List.pairwise_append.1 ordered).2.2 _ hmem _ List.mem_cons_self

theorem find?_eq_some_iff (h : Listed found xs) {p : α → Bool} {P : α → Prop} (hp : ∀ x, p x = true ↔ P x) {x : α} :
    xs.find? p = some x ↔ FirstAt found P x :=
  (find?_eq_some_iff_first hp).trans h.first_iff

theorem find?_eq_none_iff (h : Listed found xs) {p : α → Bool} {P : α → Prop} (hp : ∀ x, p x = true ↔ ¬ P x) :
    xs.find? p = none ↔ ∀ place x, found place x → P x := by
  rw [List.find?_eq_none, ← h.forall_iff]
  refine forall_congr' fun x => forall_congr' fun _ => ?_
  rw [hp, Classical.not_not]

end Listed

end ServLang

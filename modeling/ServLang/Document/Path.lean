/-
  ServLang.Document.Path — dotted paths: the parts between a path's dots, and the
  scopes around it.

  The paths of a deeply nested document begin alike for a long way and differ at the
  end, so they are compared from the end: spelled `backwards`, in one walk, without
  a join being built.

  Proved: the parts of a path with dots between them are the path again; the scopes
  around a path are the path itself and what stands before each of its dots, and nothing
  else, and going from a path to its `outer?` one comes past all of them; a path finds a declaration exactly if it is its path, or a join with a scope
  around the place where it is used is.
-/

namespace ServLang

namespace Path

/-- The path of something declared inside the message at `scope`. -/
def join (scope name : String) : String := scope ++ "." ++ name

/-- What stands between the dots of a text: one part more than there are dots. -/
def parts : List Char → List (List Char)
  | [] => [[]]
  | c :: cs =>
    if c = '.' then [] :: parts cs
    else
      match parts cs with
      | [] => [[c]]
      | part :: rest => (c :: part) :: rest

/-- The whole text, and every part of it that ends before a dot, the shortest first. -/
def enclosingChars : List Char → List (List Char)
  | [] => [[]]
  | c :: cs => (if c = '.' then [[]] else []) ++ (enclosingChars cs).map (c :: ·)

def enclosing (path : String) : List String := (enclosingChars path.toList).map String.ofList

def beforeDot? : List Char → Option (List Char)
  | [] => none
  | c :: cs =>
    match beforeDot? cs with
    | some before => some (c :: before)
    | none => if c = '.' then some [] else none

/-- The path of the message around the one at `path`. -/
def outer? (path : String) : Option String := (beforeDot? path.toList).map String.ofList

def backwards (path : String) : List Char := path.toList.reverse

/-- Whether a path used in the message at `scope` finds the declaration at `full`: it is
    `full`, or `full` is its join with a scope around. All three are spelled backwards. -/
def finds (scope : List Char) : List Char → List Char → Bool
  | [], [] => true
  | [], c :: around => c = '.' && (around = scope || ('.' :: around).isSuffixOf scope)
  | _ :: _, [] => false
  | a :: path, b :: full => a = b && finds scope path full

theorem parts_ne_nil (cs : List Char) : parts cs ≠ [] := by
  cases cs with
  | nil => simp [parts]
  | cons c cs =>
    rw [parts]
    split
    · exact List.cons_ne_nil _ _
    · split <;> exact List.cons_ne_nil _ _

theorem parts_of_dot_notMem {cs : List Char} (h : '.' ∉ cs) : parts cs = [cs] := by
  induction cs with
  | nil => rfl
  | cons c cs ih =>
    rw [List.mem_cons, not_or] at h
    rw [parts, if_neg (Ne.symm h.1), ih h.2]

theorem parts_append_dot (cs ds : List Char) : parts (cs ++ '.' :: ds) = parts cs ++ parts ds := by
  induction cs with
  | nil => simp [parts]
  | cons c cs ih =>
    rw [List.cons_append, parts, parts, ih]
    split
    · rfl
    · split
      · next heq => exact absurd heq (by simp [parts_ne_nil])
      · next first rest heq =>
        cases hcs : parts cs with
        | nil => exact absurd hcs (parts_ne_nil cs)
        | cons part more =>
          rw [hcs, List.cons_append] at heq
          cases heq
          rfl

/-- The parts of a text, with dots between them, are the text. -/
theorem exists_parts (cs : List Char) :
    ∃ first rest, parts cs = first :: rest ∧ cs = first ++ rest.flatMap ('.' :: ·) := by
  induction cs with
  | nil => exact ⟨[], [], rfl, rfl⟩
  | cons c cs ih =>
    obtain ⟨first, rest, hparts, hcs⟩ := ih
    rw [parts]
    split
    · next hc => exact ⟨[], first :: rest, by rw [hparts], by simp [hc, ← hcs]⟩
    · exact ⟨c :: first, rest, by rw [hparts], by rw [List.cons_append, ← hcs]⟩

/-- Around a text are the text itself and what stands before one of its dots. -/
theorem mem_enclosingChars {around cs : List Char} :
    around ∈ enclosingChars cs ↔ around = cs ∨ ∃ rest, cs = around ++ '.' :: rest := by
  induction cs generalizing around with
  | nil => simp [enclosingChars]
  | cons c cs ih =>
    rw [enclosingChars, List.mem_append, List.mem_map]
    constructor
    · intro h
      rcases h with h | ⟨a, ha, rfl⟩
      · split at h
        · next hc =>
          obtain rfl := List.mem_singleton.1 h
          exact Or.inr ⟨cs, by rw [hc]; rfl⟩
        · cases h
      · rcases ih.1 ha with rfl | ⟨rest, hrest⟩
        · exact Or.inl rfl
        · exact Or.inr ⟨rest, by rw [hrest]; rfl⟩
    · intro h
      rcases h with rfl | ⟨rest, hrest⟩
      · exact Or.inr ⟨cs, ih.2 (Or.inl rfl), rfl⟩
      · cases around with
        | nil =>
          obtain ⟨rfl, rfl⟩ := List.cons.inj hrest
          exact Or.inl (by simp)
        | cons a around =>
          obtain ⟨rfl, rfl⟩ := List.cons.inj hrest
          exact Or.inr ⟨around, ih.2 (Or.inr ⟨rest, rfl⟩), rfl⟩

theorem mem_enclosing {around path : String} :
    around ∈ enclosing path ↔ around = path ∨ ∃ rest, path.toList = around.toList ++ '.' :: rest := by
  rw [enclosing, List.mem_map]
  constructor
  · intro h
    obtain ⟨cs, hcs, rfl⟩ := h
    rcases mem_enclosingChars.1 hcs with rfl | ⟨rest, h⟩
    · exact Or.inl (String.ofList_toList)
    · exact Or.inr ⟨rest, by rw [h, String.toList_ofList]⟩
  · intro h
    rcases h with rfl | ⟨rest, h⟩
    · exact ⟨_, mem_enclosingChars.2 (Or.inl rfl), String.ofList_toList⟩
    · exact ⟨_, mem_enclosingChars.2 (Or.inr ⟨rest, h⟩), String.ofList_toList⟩

theorem beforeDot?_eq_none_iff {cs : List Char} : beforeDot? cs = none ↔ '.' ∉ cs := by
  induction cs with
  | nil => simp [beforeDot?]
  | cons c cs ih =>
    rw [beforeDot?, List.mem_cons, not_or, ← ih]
    cases beforeDot? cs <;> simp [eq_comm]

theorem beforeDot?_eq_some {cs before : List Char} (h : beforeDot? cs = some before) :
    ∃ last, cs = before ++ '.' :: last ∧ '.' ∉ last := by
  induction cs generalizing before with
  | nil => cases h
  | cons c cs ih =>
    rw [beforeDot?] at h
    cases hcs : beforeDot? cs with
    | some inner =>
      rw [hcs] at h
      cases h
      obtain ⟨last, rfl, hlast⟩ := ih hcs
      exact ⟨last, rfl, hlast⟩
    | none =>
      rw [hcs] at h
      obtain ⟨rfl, ⟨⟩⟩ := Option.ite_none_right_eq_some.1 h
      exact ⟨cs, rfl, beforeDot?_eq_none_iff.1 hcs⟩

theorem outer?_eq_none_iff {path : String} : outer? path = none ↔ '.' ∉ path.toList := by
  rw [outer?, Option.map_eq_none_iff, beforeDot?_eq_none_iff]

theorem outer?_eq_some {path around : String} (h : outer? path = some around) :
    ∃ last, path.toList = around.toList ++ '.' :: last ∧ '.' ∉ last := by
  obtain ⟨before, hbefore, rfl⟩ := Option.map_eq_some_iff.1 h
  rw [String.toList_ofList]
  exact beforeDot?_eq_some hbefore

/-- The measure by which the search below a scope ends. -/
theorem length_lt_of_outer? {path around : String} (h : outer? path = some around) : around.length < path.length := by
  obtain ⟨last, hlast, -⟩ := outer?_eq_some h
  rw [← String.length_toList, ← String.length_toList, hlast, List.length_append, List.length_cons]
  omega

/-- Around a path are the path itself and what is around its outer path. -/
theorem mem_enclosing_iff_outer? {around path : String} :
    around ∈ enclosing path ↔ around = path ∨ ∃ outer, outer? path = some outer ∧ around ∈ enclosing outer := by
  rw [mem_enclosing]
  refine or_congr Iff.rfl ⟨?_, ?_⟩
  · intro ⟨rest, h⟩
    cases houter : outer? path with
    | none =>
      rw [outer?_eq_none_iff, h] at houter
      exact absurd (List.mem_append_right _ List.mem_cons_self) houter
    | some outer =>
      obtain ⟨last, hlast, hdot⟩ := outer?_eq_some houter
      refine ⟨outer, rfl, mem_enclosing.2 ?_⟩
      -- Both stand before a dot of the path, and behind the outer one's dot there is none.
      rcases List.append_eq_append_iff.1 (h.symm.trans hlast) with ⟨more, ho, hr⟩ | ⟨more, ha, hl⟩
      · rcases List.cons_eq_append_iff.1 hr with ⟨rfl, -⟩ | ⟨more, rfl, -⟩
        · exact Or.inl (String.toList_inj.1 (by rw [ho, List.append_nil]))
        · exact Or.inr ⟨more, ho⟩
      · rcases List.cons_eq_append_iff.1 hl with ⟨rfl, -⟩ | ⟨more, rfl, hbehind⟩
        · exact Or.inl (String.toList_inj.1 (by rw [ha, List.append_nil]))
        · rw [hbehind] at hdot
          exact absurd (List.mem_append_right _ List.mem_cons_self) hdot
  · intro ⟨outer, houter, h⟩
    obtain ⟨last, hlast, -⟩ := outer?_eq_some houter
    rcases mem_enclosing.1 h with rfl | ⟨rest, h⟩
    · exact ⟨last, hlast⟩
    · exact ⟨rest ++ '.' :: last, by rw [hlast, h, List.append_assoc, List.cons_append]⟩

theorem backwards_inj {p q : String} : backwards p = backwards q ↔ p = q := by
  rw [backwards, backwards, List.reverse_inj, String.toList_inj]

/-- Every list of characters spells a path backwards. -/
theorem exists_backwards (cs : List Char) : ∃ path, backwards path = cs :=
  ⟨String.ofList cs.reverse, by simp [backwards]⟩

theorem backwards_join {scope name : String} :
    backwards (join scope name) = backwards name ++ '.' :: backwards scope := by
  simp [backwards, join]

/-- The comparison from the end, against the join with each scope around. -/
theorem finds_iff {scope path full : List Char} :
    finds scope path full = true ↔
      full = path ∨ ∃ around, full = path ++ '.' :: around ∧ (around = scope ∨ '.' :: around <:+ scope) := by
  -- Both are read from their ends, so the join is with what is left of `full`.
  induction path generalizing full with
  | nil =>
    cases full with
    | nil => simp [finds]
    | cons c around =>
      simp only [finds, Bool.and_eq_true, Bool.or_eq_true, decide_eq_true_eq, List.isSuffixOf_iff_suffix]
      constructor
      · intro h
        obtain ⟨rfl, h⟩ := h
        exact Or.inr ⟨around, rfl, h⟩
      · intro h
        rcases h with h | ⟨_, hfull, h⟩
        · cases h
        · obtain ⟨rfl, rfl⟩ := List.cons.inj hfull
          exact ⟨rfl, h⟩
  | cons a path ih =>
    cases full with
    | nil => simp [finds]
    | cons b full =>
      rw [finds, Bool.and_eq_true, decide_eq_true_eq, ih]
      constructor
      · intro h
        rcases h with ⟨rfl, rfl | ⟨around, rfl, h⟩⟩
        · exact Or.inl rfl
        · exact Or.inr ⟨around, rfl, h⟩
      · intro h
        rcases h with h | ⟨around, hfull, h⟩
        · obtain ⟨rfl, rfl⟩ := List.cons.inj h
          exact ⟨rfl, Or.inl rfl⟩
        · obtain ⟨rfl, rfl⟩ := List.cons.inj hfull
          exact ⟨rfl, Or.inr ⟨around, rfl, h⟩⟩

/-- A scope around a path, backwards, is the path or what follows a dot of it. -/
theorem mem_enclosing_iff_backwards {around scope : String} :
    around ∈ enclosing scope ↔
      backwards around = backwards scope ∨ '.' :: backwards around <:+ backwards scope := by
  rw [mem_enclosing, backwards_inj, backwards, backwards]
  refine or_congr Iff.rfl ⟨?_, ?_⟩
  · intro ⟨rest, h⟩
    exact ⟨rest.reverse, by simp [h]⟩
  · intro ⟨rest, h⟩
    exact ⟨rest.reverse, by simpa using (congrArg List.reverse h).symm⟩

theorem finds_backwards {scope path full : String} :
    finds (backwards scope) (backwards path) (backwards full) = true ↔
      full = path ∨ ∃ around ∈ enclosing scope, full = join around path := by
  rw [finds_iff, backwards_inj]
  refine or_congr Iff.rfl ⟨?_, ?_⟩
  · intro ⟨around, hfull, h⟩
    obtain ⟨around, rfl⟩ := exists_backwards around
    rw [← backwards_join, backwards_inj] at hfull
    exact ⟨_, mem_enclosing_iff_backwards.2 h, hfull⟩
  · intro h
    obtain ⟨around, hmem, rfl⟩ := h
    exact ⟨_, backwards_join, mem_enclosing_iff_backwards.1 hmem⟩

end Path

end ServLang

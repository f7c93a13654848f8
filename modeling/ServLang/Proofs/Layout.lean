/-
  ServLang.Proofs.Layout — what the parser's answer depends on. It is neither the places
  of the tokens, and with them the blanks of a source, nor what comes after the token
  that does not fit, be it more tokens or a character that starts none.

  A stream is a `sequence` of items: its tokens, and then its end or its error. What is
  seen of an item without its place is its `Sight`. Two streams with the same sights lead
  the parser through the same states; if only their first items look alike, they do so
  as far as these items go.

  Proved:
  - `Lexer.sequence_pairwise`: the items of a stream stand one behind the other, so an
    item has one index in it (`Scan.only_of_getElem?`).
  - `State.stops_iff`: the parser stops at an item exactly if the sights before it are
    read and its own sight is refused.
  - `Document.parse_of_same_sights`: sources with the same sights have the same outcome,
    and a grammar error depends on the sights up to it.
-/

import ServLang.Proofs.ViablePrefix

namespace ServLang

/-! ## Items -/

inductive Item where
  | token (t : Token)
  | ending (e : Ending)
deriving DecidableEq, Repr

/-- Kind and text of an item, without its place. -/
inductive Sight where
  | lexeme (l : Lexeme)
  | endOfText
  | fault (f : LexFault)
deriving DecidableEq, Repr

def Ending.sight : Ending → Sight
  | finished _ => .endOfText
  | failed e => .fault e.fault

namespace Item

def position : Item → Position
  | token t => t.position
  | ending e => e.position

def sight : Item → Sight
  | token t => .lexeme t.lexeme
  | ending e => e.sight

end Item

namespace Scan

def sequence (s : Scan) : List Item := s.tokens.map .token ++ [.ending s.ending]

def sights (s : Scan) : List Sight := s.sequence.map Item.sight

/-- The item with this index, and no other item of the stream, is `x`. -/
def Only (s : Scan) (i : Nat) (x : Item) : Prop := ∀ j, s.sequence[j]? = some x ↔ j = i

end Scan

def Found.item : Found → Item
  | token t => .token t
  | endOfInput p => .ending (.finished p)

/-! ## One behind the other -/

namespace Position

theorem offset_step (p : Position) (c : Char) : (p.step c).offset = p.offset + c.utf8Size := by
  unfold step
  split <;> rfl

theorem offset_le_advance (p : Position) (cs : List Char) : p.offset ≤ (p.advance cs).offset := by
  induction cs generalizing p with
  | nil => exact Nat.le_refl _
  | cons c cs ih =>
    have := ih (p.step c)
    rw [offset_step] at this
    rw [advance_cons]
    omega

theorem offset_lt_advance (p : Position) {cs : List Char} (h : cs ≠ []) : p.offset < (p.advance cs).offset := by
  cases cs with
  | nil => exact absurd rfl h
  | cons c cs =>
    have := offset_le_advance (p.step c) cs
    have := c.utf8Size_pos
    rw [offset_step] at *
    rw [advance_cons]
    omega

end Position

/-- Items stand further and further on. -/
theorem Lexer.sequence_pairwise (cs : List Char) (p : Position) :
    (∀ x ∈ (Lexer.mk cs p false).scan.sequence, p.offset ≤ x.position.offset) ∧
      (Lexer.mk cs p false).scan.sequence.Pairwise fun x y => x.position.offset < y.position.offset := by
  -- The bound on all offsets carries the order through the induction.
  induction cs using text_induction generalizing p with
  | nil => simp [scan_nil, Scan.sequence, Item.position, Ending.position]
  | blank c cs hc ih =>
    obtain ⟨hle, hlt⟩ := ih (p.step c)
    rw [scan_blank p hc]
    refine ⟨fun x hx => ?_, hlt⟩
    have := hle x hx
    rw [Position.offset_step] at this
    omega
  | lexeme cs l rest hm ih =>
    obtain ⟨hle, hlt⟩ := ih (p.advance l.text.toList)
    obtain ⟨hcs, hshort⟩ := Lexeme.munch?_eq_some hm
    have hne : l.text.toList ≠ [] := by
      intro h
      rw [h, List.nil_append] at hcs
      rw [hcs] at hshort
      omega
    have behind := p.offset_lt_advance hne
    have first : (Lexer.mk cs p false).scan.sequence =
        .token ⟨l, p⟩ :: (Lexer.mk rest (p.advance l.text.toList) false).scan.sequence := by
      rw [scan_lexeme p hm]
      rfl
    rw [first]
    refine ⟨?_, List.pairwise_cons.2 ⟨fun y hy => ?_, hlt⟩⟩
    · intro x hx
      rcases List.mem_cons.1 hx with rfl | hx
      · exact Nat.le_refl _
      · have := hle x hx
        omega
    · exact Nat.lt_of_lt_of_le behind (hle y hy)
  | stuck c cs hc hm => simp [scan_stuck p hc hm, Scan.sequence, Item.position, Ending.position]

theorem Scan.only_of_getElem? {source : String} {i : Nat} {x : Item} (h : (ofString source).sequence[i]? = some x) :
    (ofString source).Only i x := by
  intro j
  constructor
  · intro hj
    have apart := (Lexer.sequence_pairwise source.toList .start).2
    have hi := (List.getElem?_eq_some_iff.1 h).1
    have distinct : (ofString source).sequence.Nodup := by
      refine List.Pairwise.imp (fun {x y} hlt => ?_) apart
      rintro rfl
      exact Nat.lt_irrefl _ hlt
    exact ((List.getElem?_inj hi distinct).1 (h.trans hj.symm)).symm
  · intro hj
    rw [hj, h]

namespace Scan

variable {s s' : Scan} {i : Nat}

theorem sequence_eq_token_iff {t : Token} : s.sequence[i]? = some (.token t) ↔ s.tokens[i]? = some t := by
  rw [sequence, List.getElem?_append, List.length_map]
  split
  · simp
  · next hi =>
    rw [List.getElem?_eq_none (Nat.le_of_not_lt hi), List.getElem?_singleton]
    split <;> simp

theorem sequence_eq_ending_iff {e : Ending} :
    s.sequence[i]? = some (.ending e) ↔ i = s.tokens.length ∧ s.ending = e := by
  rw [sequence, List.getElem?_append, List.length_map]
  split
  · next hi =>
    have : i ≠ s.tokens.length := by omega
    simp [this]
  · next hi =>
    rw [List.getElem?_singleton]
    by_cases h : i = s.tokens.length
    · simp [h]
    · have : i - s.tokens.length ≠ 0 := by omega
      simp [h, this]

/-- The sights before an item are those of tokens. -/
theorem sights_take (h : i ≤ s.tokens.length) : s.sights.take i = (s.tokens.take i).map fun t => .lexeme t.lexeme := by
  rw [sights, sequence, List.map_append, List.take_append_of_le_length (by simpa using h), List.map_map, List.map_take]
  rfl

theorem le_length_of_sequence {x : Item} (h : s.sequence[i]? = some x) : i ≤ s.tokens.length := by
  have := (List.getElem?_eq_some_iff.1 h).1
  rw [sequence, List.length_append, List.length_map, List.length_singleton] at this
  omega

theorem lexemes_eq_of_sights {ts us : List Token}
    (h : ts.map (fun t => Sight.lexeme t.lexeme) = us.map fun t => .lexeme t.lexeme) :
    ts.map Token.lexeme = us.map Token.lexeme := by
  have inj : Function.Injective Sight.lexeme := fun _ _ => Sight.lexeme.inj
  rw [← List.map_inj_right inj, List.map_map, List.map_map]
  exact h

/-- Streams whose first items look alike: the last of these items, and the lexemes before it. -/
theorem exists_of_sights_take {x : Item} (h : s.sights.take (i + 1) = s'.sights.take (i + 1))
    (hx : s.sequence[i]? = some x) :
    ∃ y, s'.sequence[i]? = some y ∧ y.sight = x.sight ∧
      (s.tokens.take i).map Token.lexeme = (s'.tokens.take i).map Token.lexeme := by
  have last : (s'.sequence[i]?).map Item.sight = some x.sight := by
    have sight := congrArg (·[i]?) h
    simp only [List.getElem?_take_of_lt (Nat.lt_succ_self i), sights, List.getElem?_map] at sight
    rw [← sight, hx, Option.map_some]
  obtain ⟨y, hy, hsight⟩ := Option.map_eq_some_iff.1 last
  refine ⟨y, hy, hsight, ?_⟩
  have before := congrArg (List.take i) h
  rw [List.take_take, List.take_take, Nat.min_eq_left (Nat.le_succ i), sights_take (le_length_of_sequence hx),
    sights_take (le_length_of_sequence hy)] at before
  exact lexemes_eq_of_sights before

end Scan

/-! ## What the parser refuses -/

namespace State

/-- No item of this sight may come next. -/
inductive Refuses (s : State) : Sight → Expected → Prop
  | lexeme {l : Lexeme} {expected : Expected} : s.shift l = .error expected → Refuses s (.lexeme l) expected
  | endOfText {expected : Expected} : s.finish = .error expected → Refuses s .endOfText expected

/-- Where a run stops, by what is seen of the items alone. -/
theorem stops_iff {s : State} {x : Scan} {expected : Expected} {found : Found} :
    Stops s x.tokens x.ending expected found ↔
      ∃ i u, x.sequence[i]? = some found.item ∧ Reads s ((x.tokens.take i).map Token.lexeme) u ∧
        u.Refuses found.item.sight expected := by
  constructor
  · intro h
    cases h with
    | token before after hts hu he =>
      refine ⟨before.length, _, ?_, ?_, .lexeme he⟩
      · simp [Found.item, Scan.sequence_eq_token_iff, hts]
      · rwa [hts, List.take_left]
    | endOfInput hp hu he =>
      refine ⟨x.tokens.length, _, Scan.sequence_eq_ending_iff.2 ⟨rfl, hp⟩, ?_, .endOfText he⟩
      rwa [List.take_length]
  · intro ⟨i, u, hi, hu, he⟩
    cases found with
    | token t =>
      obtain ⟨hlt, rfl⟩ := List.getElem?_eq_some_iff.1 (Scan.sequence_eq_token_iff.1 hi)
      have split : x.tokens = x.tokens.take i ++ x.tokens[i] :: x.tokens.drop (i + 1) := by
        rw [List.getElem_cons_drop, List.take_append_drop]
      cases he with
      | lexeme he => exact .token _ _ split hu he
    | endOfInput p =>
      obtain ⟨rfl, hp⟩ := Scan.sequence_eq_ending_iff.1 hi
      rw [List.take_length] at hu
      cases he with
      | endOfText he => exact .endOfInput hp hu he

/-- What is refused is a token or the end of the text, and no error of the lexer. -/
theorem Refuses.exists_found {u : State} {y : Item} {expected : Expected} (h : u.Refuses y.sight expected) :
    ∃ found : Found, found.item = y := by
  cases y with
  | token t => exact ⟨.token t, rfl⟩
  | ending e =>
    cases e with
    | finished p => exact ⟨.endOfInput p, rfl⟩
    | failed e => cases h

end State

theorem Found.text_eq_of_sight {f g : Found} (h : f.item.sight = g.item.sight) : f.text = g.text := by
  cases f with
  | token t =>
    cases g with
    | token t' => exact congrArg Lexeme.description (Sight.lexeme.inj h)
    | endOfInput p => cases h
  | endOfInput p =>
    cases g with
    | token t' => cases h
    | endOfInput q => rfl

/-! ## Outcomes -/

theorem Scan.eq_of_sights_eq {s s' : Scan} (h : s.sights = s'.sights) :
    s.tokens.map Token.lexeme = s'.tokens.map Token.lexeme ∧ s.ending.sight = s'.ending.sight := by
  have parts (x : Scan) : x.sights = x.tokens.map (fun t => Sight.lexeme t.lexeme) ++ [x.ending.sight] := by
    rw [sights, sequence, List.map_append, List.map_map]
    rfl
  rw [parts, parts] at h
  obtain ⟨hlexemes, hending⟩ := List.append_inj' h rfl
  exact ⟨lexemes_eq_of_sights hlexemes, List.singleton_inj.1 hending⟩

namespace Document

variable {source source' : String}

/-- A parse error stands at one item of the stream. -/
theorem exists_only_of_parse {e : ParseError} (h : parse source = .error (.parse e)) :
    ∃ i, (Scan.ofString source).Only i e.found.item := by
  obtain ⟨i, u, hi, -, -⟩ := State.stops_iff.1 (parse_eq_parse_iff.1 h)
  exact ⟨i, Scan.only_of_getElem? hi⟩

/-- A grammar error comes from the items up to the one it stands at. -/
theorem parse_of_sights_take {e : ParseError} {i : Nat} (h : parse source = .error (.parse e))
    (hi : (Scan.ofString source).Only i e.found.item)
    (hs : (Scan.ofString source).sights.take (i + 1) = (Scan.ofString source').sights.take (i + 1)) :
    ∃ e', parse source' = .error (.parse e') ∧ e'.expected = e.expected ∧ e'.found.text = e.found.text ∧
      (Scan.ofString source').Only i e'.found.item := by
  obtain ⟨j, u, hj, hu, he⟩ := State.stops_iff.1 (parse_eq_parse_iff.1 h)
  obtain rfl := (hi j).1 hj
  obtain ⟨y, hy, hsight, hlexemes⟩ := Scan.exists_of_sights_take hs hj
  rw [hlexemes] at hu
  rw [← hsight] at he
  obtain ⟨found, rfl⟩ := he.exists_found
  exact ⟨⟨e.expected, found⟩, parse_eq_parse_iff.2 (State.stops_iff.2 ⟨j, u, hy, hu, he⟩), rfl,
    Found.text_eq_of_sight hsight, Scan.only_of_getElem? hy⟩

/-- A document depends on what is seen of its tokens. -/
theorem parse_ok_of_sights_eq {d : Document} (h : parse source = .ok d)
    (hs : (Scan.ofString source).sights = (Scan.ofString source').sights) : parse source' = .ok d := by
  obtain ⟨hlexemes, hending⟩ := Scan.eq_of_sights_eq hs
  obtain ⟨p, t, hp, ht, hd⟩ := State.run_eq_ok_iff.1 h
  rw [hlexemes] at ht
  rw [hp] at hending
  cases hp' : (Scan.ofString source').ending with
  | finished q => exact State.run_eq_ok_iff.2 ⟨q, t, hp', ht, hd⟩
  | failed e =>
    rw [hp'] at hending
    cases hending

theorem parse_lex_of_sights_eq {e : LexError} (h : parse source = .error (.lex e))
    (hs : (Scan.ofString source).sights = (Scan.ofString source').sights) :
    ∃ e', parse source' = .error (.lex e') ∧ e'.fault = e.fault := by
  obtain ⟨hlexemes, hending⟩ := Scan.eq_of_sights_eq hs
  obtain ⟨he, t, ht⟩ := State.run_eq_lex_iff.1 h
  rw [hlexemes] at ht
  rw [he] at hending
  cases he' : (Scan.ofString source').ending with
  | finished q =>
    rw [he'] at hending
    cases hending
  | failed e' =>
    rw [he'] at hending
    exact ⟨e', State.run_eq_lex_iff.2 ⟨he', t, ht⟩, (Sight.fault.inj hending).symm⟩

/-- Two sources whose items look alike, and end alike, parse to one document, or fail
    with the same grammar error at the same item, or with the errors of the lexer that
    they end with. A grammar error is the same for every source whose items look alike
    up to the one it stands at. -/
theorem parse_of_same_sights :
    (∀ source source' : String, (Scan.ofString source).sights = (Scan.ofString source').sights →
      (∃ d, parse source = .ok d ∧ parse source' = .ok d) ∨
      (∃ e e' i, parse source = .error (.parse e) ∧ parse source' = .error (.parse e') ∧
        e'.expected = e.expected ∧ e'.found.text = e.found.text ∧
        (Scan.ofString source).Only i e.found.item ∧ (Scan.ofString source').Only i e'.found.item) ∨
      (∃ e e', parse source = .error (.lex e) ∧ parse source' = .error (.lex e') ∧ e'.fault = e.fault ∧
        tokenize source = .error e ∧ tokenize source' = .error e')) ∧
    ∀ (source : String) (e : ParseError), parse source = .error (.parse e) →
      ∃ i, (Scan.ofString source).Only i e.found.item ∧
        ∀ source' : String, (Scan.ofString source).sights.take (i + 1) = (Scan.ofString source').sights.take (i + 1) →
          ∃ e', parse source' = .error (.parse e') ∧ e'.expected = e.expected ∧ e'.found.text = e.found.text ∧
            (Scan.ofString source').Only i e'.found.item := by
  refine ⟨fun source source' hs => ?_, fun source e h => ?_⟩
  · cases h : parse source with
    | ok d => exact Or.inl ⟨d, rfl, parse_ok_of_sights_eq h hs⟩
    | error e =>
      cases e with
      | lex e =>
        obtain ⟨e', h', hfault⟩ := parse_lex_of_sights_eq h hs
        exact Or.inr (Or.inr ⟨e, e', rfl, h', hfault, (parse_eq_lex_iff.1 h).1, (parse_eq_lex_iff.1 h').1⟩)
      | parse e =>
        obtain ⟨i, hi⟩ := exists_only_of_parse h
        obtain ⟨e', h', hexpected, htext, hi'⟩ := parse_of_sights_take h hi (congrArg (List.take (i + 1)) hs)
        exact Or.inr (Or.inl ⟨e, e', i, rfl, h', hexpected, htext, hi, hi'⟩)
  · obtain ⟨i, hi⟩ := exists_only_of_parse h
    exact ⟨i, hi, fun source' hs => parse_of_sights_take h hi hs⟩

/-- A type with two keys, spaced in another way, and with a lone `-` behind the second key. -/
theorem parse_of_same_sights_respaced :
    (Scan.ofString "message M { map<a b> c }").sights = (Scan.ofString "message\nM{map < a  b > c}").sights ∧
      ((∃ d, parse "message M { map<a b> c }" = .ok d ∧ parse "message\nM{map < a  b > c}" = .ok d) ∨
        (∃ e e' i, parse "message M { map<a b> c }" = .error (.parse e) ∧
          parse "message\nM{map < a  b > c}" = .error (.parse e') ∧
          e'.expected = e.expected ∧ e'.found.text = e.found.text ∧
          (Scan.ofString "message M { map<a b> c }").Only i e.found.item ∧
          (Scan.ofString "message\nM{map < a  b > c}").Only i e'.found.item) ∨
        (∃ e e', parse "message M { map<a b> c }" = .error (.lex e) ∧
          parse "message\nM{map < a  b > c}" = .error (.lex e') ∧ e'.fault = e.fault ∧
          tokenize "message M { map<a b> c }" = .error e ∧ tokenize "message\nM{map < a  b > c}" = .error e')) ∧
      ∃ e', parse "message M{map<a b - }" = .error (.parse e') ∧ e'.expected = .punct .comma ∧
        e'.found.text = "identifier `b`" ∧ (Scan.ofString "message M{map<a b - }").Only 6 e'.found.item := by
  have same : (Scan.ofString "message M { map<a b> c }").sights = (Scan.ofString "message\nM{map < a  b > c}").sights := by
    decide +kernel
  have failed : parse "message M { map<a b> c }" =
      .error (.parse ⟨.punct .comma, .token ⟨.identifier "b", ⟨18, 1, 19⟩⟩⟩) := by decide +kernel
  refine ⟨same, parse_of_same_sights.1 _ _ same, ?_⟩
  obtain ⟨i, hi, later⟩ := parse_of_same_sights.2 _ _ failed
  obtain rfl : 6 = i := (hi 6).1 (by decide +kernel)
  exact later _ (by decide +kernel)

end Document

end ServLang

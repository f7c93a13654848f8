/-
  ServLang.Proofs.Positions — where the lexer stands. A position is kept up character by
  character; `Position.behind` reads it off the text before it instead: the size of that
  text, the line feeds in it, and the characters since the last of them.

  `x.after n` is the state of a lexer after `n` items were asked for. What holds of every
  such state holds of the first and is kept by `next`, whether `next` takes a token,
  fails, or finds the text at its end.

  Proved:
  - `Lexer.next_rest`: what an item takes off the front of the text.
  - `Position.start_advance`: the position after a text is the one behind it.
  - `Lexer.stands_after`: every state has taken a part off the front of the source, and
    its position is the one behind that part.
  - `Lexer.StandsIn.isValid`: so its offset is the start of a character, or the end.
  - `Lexer.next_token_or_finished`, `after_of_finished`: what is no token finishes the
    stream, and a finished stream stays as it is.
-/

import ServLang.Token.Lexer

namespace ServLang

/-! ## The position behind a text -/

namespace Position

def behind (before : List Char) : Position where
  offset := (String.ofList before).utf8ByteSize
  line := 1 + before.count '\n'
  column := 1 + (before.reverse.takeWhile (· ≠ '\n')).length

theorem behind_snoc (before : List Char) (c : Char) : behind (before ++ [c]) = (behind before).step c := by
  have size : (String.ofList (before ++ [c])).utf8ByteSize = (String.ofList before).utf8ByteSize + c.utf8Size := by
    rw [String.ofList_append, String.utf8ByteSize_append, ← String.singleton_eq_ofList, String.utf8ByteSize_singleton]
  unfold step
  split
  · next hc =>
    have line : (before ++ [c]).count '\n' = before.count '\n' + 1 := by simp [hc]
    have column : (before ++ [c]).reverse.takeWhile (· ≠ '\n') = [] := by simp [hc]
    simp only [behind, size, line, column, List.length_nil, Nat.add_assoc]
  · next hc =>
    have line : (before ++ [c]).count '\n' = before.count '\n' := by simp [List.count_append, hc]
    have column : ((before ++ [c]).reverse.takeWhile (· ≠ '\n')).length =
        (before.reverse.takeWhile (· ≠ '\n')).length + 1 := by simp [hc]
    simp only [behind, size, line, column, Nat.add_assoc]

/-- Counting on from a text is counting the whole. -/
theorem behind_advance (before text : List Char) : (behind before).advance text = behind (before ++ text) := by
  induction text generalizing before with
  | nil => rw [advance_nil, List.append_nil]
  | cons c text ih => rw [advance_cons, ← behind_snoc, ih, List.append_assoc, List.singleton_append]

theorem start_eq_behind : start = behind [] := by decide

theorem start_advance (text : List Char) : start.advance text = behind text := by
  rw [start_eq_behind, behind_advance, List.nil_append]

end Position

theorem Scan.ofString_eq (source : String) :
    Scan.ofString source = (Lexer.mk source.toList (.behind []) false).scan := by
  rw [← Position.start_eq_behind]
  rfl

/-! ## The states of a lexer -/

namespace Lexer

def after (x : Lexer) : Nat → Lexer
  | 0 => x
  | n + 1 => (x.after n).next.2

/-- What an item takes off the front of the text; a token takes at least one character. -/
theorem next_rest (x : Lexer) :
    ∃ text, x.rest = text ++ x.next.2.rest ∧ x.next.2.position = x.position.advance text ∧
      ∀ t, x.next.1 = some (.ok t) → text ≠ [] := by
  have blanks : x.rest = x.rest.takeWhile isBlank ++ x.rest.dropWhile isBlank := by simp
  unfold next
  split
  · exact ⟨[], rfl, rfl, nofun⟩
  · dsimp only
    split
    · exact ⟨_, blanks, rfl, nofun⟩
    · next c cs hcs =>
      split
      · next lexeme rest hm =>
        obtain ⟨htext, hshort⟩ := Lexeme.munch?_eq_some hm
        refine ⟨x.rest.takeWhile isBlank ++ lexeme.text.toList, ?_, (Position.advance_append _ _ _).symm, ?_⟩
        · rw [List.append_assoc, ← htext, ← hcs]
          exact blanks
        · intro t _ hnil
          rw [(List.append_eq_nil_iff.1 hnil).2] at htext
          rw [htext] at hshort
          exact Nat.lt_irrefl _ hshort
      · exact ⟨_, blanks, rfl, nofun⟩

/-- The state has `before` behind it and the rest of the source ahead. -/
structure StandsIn (source : String) (before : List Char) (x : Lexer) : Prop where
  text : source.toList = before ++ x.rest
  position : x.position = .behind before

namespace StandsIn

variable {source : String} {before : List Char} {x : Lexer}

theorem start (source : String) : StandsIn source [] (ofString source) := ⟨rfl, Position.start_eq_behind⟩

/-- Some more of the source is behind. -/
theorem advance (h : StandsIn source before x) {text rest : List Char} (hrest : x.rest = text ++ rest) (finished : Bool) :
    StandsIn source (before ++ text) ⟨rest, x.position.advance text, finished⟩ where
  text := by rw [h.text, hrest, List.append_assoc]
  position := by rw [h.position, Position.behind_advance]

theorem next (h : StandsIn source before x) : ∃ more, StandsIn source (before ++ more) x.next.2 := by
  obtain ⟨text, hrest, hposition, -⟩ := x.next_rest
  have stands := h.advance hrest x.next.2.finished
  rw [← hposition] at stands
  exact ⟨text, stands⟩

/-- Nothing can be sliced in the middle of a character. -/
theorem isValid (h : StandsIn source before x) : (String.Pos.Raw.mk x.position.offset).IsValid source := by
  rw [String.Pos.Raw.isValid_iff_exists_append]
  refine ⟨String.ofList before, String.ofList x.rest, ?_, ?_⟩
  · rw [← String.ofList_append, ← h.text, String.ofList_toList]
  · rw [h.position]
    rfl

end StandsIn

/-- After any number of items the lexer has a prefix behind it and the rest ahead. -/
theorem stands_after (source : String) (n : Nat) : ∃ before, StandsIn source before ((ofString source).after n) := by
  induction n with
  | zero => exact ⟨[], .start source⟩
  | succ n ih =>
    obtain ⟨before, h⟩ := ih
    obtain ⟨more, h⟩ := h.next
    exact ⟨before ++ more, h⟩

/-! ## Finished streams -/

theorem next_token_or_finished (x : Lexer) : (∃ t, x.next.1 = some (.ok t)) ∨ x.next.2.finished = true := by
  unfold next
  split
  · exact Or.inr ‹_›
  · dsimp only
    split
    · exact Or.inr rfl
    · split
      · exact Or.inl ⟨_, rfl⟩
      · exact Or.inr rfl

theorem next_of_finished {x : Lexer} (h : x.finished = true) : x.next = (none, x) := by
  rw [next, if_pos h]

theorem after_of_finished {x : Lexer} (h : x.finished = true) (n : Nat) : x.after n = x := by
  induction n with
  | zero => rfl
  | succ n ih => rw [after, ih, next_of_finished h]

end Lexer

end ServLang

/-
  ServLang.Proofs.Termination — the descent ends, whatever it reads. A closing token may
  never come, and at its end the token stream yields nothing for ever; so no loop is
  bounded by what it waits for. What falls is the unread input: the bytes that are left and
  the token that was looked at.

  Not every call takes a token first. A procedure that calls another one before it took
  any is the higher of the two (`Procedure.rank`), and every procedure takes as many tokens
  as its callers rely on (`Procedure.least`). Both are properties of the bodies one by one,
  with nothing said of the place in a document.

  Proved:
  - `Procedure.spends`: what a body does before its first token, and how many it takes.
  - `Call.Within.trans`, `Call.wellFounded_within`: calls within calls are well-founded.
  - `Document.descent_ends_with_parse`: every call has one answer, the answer for a source is
    what `Document.parse` gives, and between two calls of one procedure at least one token
    is taken.
-/

import ServLang.Proofs.RecursiveDescent

namespace ServLang

/-! ## What is left to read -/

/-- At least so many tokens are taken from one cursor to the other. -/
def Cursor.Reaches (x : Cursor) (n : Nat) (y : Cursor) : Prop := ∃ ts, x.Passed ts y ∧ n ≤ ts.length

namespace Cursor.Reaches

variable {x y z : Cursor} {n k : Nat}

theorem refl (x : Cursor) : x.Reaches 0 x := ⟨[], .refl x, Nat.le_refl 0⟩

theorem mono (h : x.Reaches n y) (hk : k ≤ n) : x.Reaches k y := by
  obtain ⟨ts, hp, hn⟩ := h
  exact ⟨ts, hp, Nat.le_trans hk hn⟩

theorem trans (h : x.Reaches n y) (h' : y.Reaches k z) : x.Reaches (n + k) z := by
  obtain ⟨ts, hp, hn⟩ := h
  obtain ⟨us, hp', hk⟩ := h'
  exact ⟨ts ++ us, hp.trans hp', by rw [List.length_append]; omega⟩

theorem unread (h : x.Reaches n y) : y.unread + n ≤ x.unread := by
  obtain ⟨ts, hp, hn⟩ := h
  have := hp.unread
  omega

end Cursor.Reaches

/-! ## Which call may make which -/

namespace Procedure

def least : Procedure → Nat
  | definitions | separators _ | path => 0
  | _ => 1

/-- The order in which procedures call each other before the first token is taken. -/
def rank : Procedure → Nat
  | members => 3
  | definitions | member => 2
  | definition | field | values | requests => 1
  | _ => 0

end Procedure

namespace Call

/-- A call that is made after a token was taken, or by a procedure of higher rank. -/
def Within (c' c : Call) : Prop :=
  c.cursor.Reaches 1 c'.cursor ∨ c.cursor.Reaches 0 c'.cursor ∧ c'.procedure.rank < c.procedure.rank

def Consumes (c : Call) (r : c.Answer) : Prop := ∀ a, r = .ok a → c.cursor.Reaches c.procedure.least a.2

theorem Within.trans {c c' c'' : Call} (h' : c''.Within c') (h : c'.Within c) : c''.Within c := by
  rcases h with h | ⟨h, hr⟩
  · rcases h' with h' | ⟨h', -⟩
    · exact .inl ((h.trans h').mono (Nat.le_add_left 1 1))
    · exact .inl (h.trans h')
  · rcases h' with h' | ⟨h', hr'⟩
    · exact .inl (h.trans h')
    · exact .inr ⟨h.trans h', Nat.lt_trans hr' hr⟩

/-- The measure: what is unread, then the rank. -/
theorem Within.lex {c c' : Call} (h : c'.Within c) :
    Prod.Lex (· < ·) (· < ·) (c'.cursor.unread, c'.procedure.rank) (c.cursor.unread, c.procedure.rank) := by
  rw [Prod.lex_def]
  rcases h with h | ⟨h, hr⟩
  · have := h.unread
    exact .inl (by omega)
  · have := h.unread
    rcases Nat.lt_or_eq_of_le this with hlt | heq
    · exact .inl hlt
    · exact .inr ⟨heq, hr⟩

/-- No chain of calls goes on for ever. -/
theorem wellFounded_within : WellFounded Within := by
  have lex := (Prod.lex (measure id) (measure id)).wf
  refine Subrelation.wf (fun h => ?_) (InvImage.wf (fun c : Call => (c.cursor.unread, c.procedure.rank)) lex)
  exact h.lex

end Call

namespace Parse

variable {α β : Type} {c : Call} {n : Nat}

/-- From a cursor that is `n` tokens on in the call, to one that is as many on as the result
    tells. -/
def Spends (c : Call) (n : Nat) (m : Parse α) (k : α → Nat) : Prop :=
  ∀ x, c.cursor.Reaches n x →
    (m x).Meets (Call.Within · c) Call.Consumes fun r => ∀ a, r = .ok a → c.cursor.Reaches (k a.1) a.2

namespace Spends

variable {k : α → Nat}

theorem pure {a : α} (h : k a ≤ n) : Spends c n (pure a) k := by
  intro x hx b hb
  cases hb
  exact hx.mono h

theorem mono {m : Parse α} {k' : α → Nat} (h : Spends c n m k) (hk : ∀ a, k' a ≤ k a) : Spends c n m k' :=
  fun x hx => Script.Meets.mono (h x hx) fun _ hr a ha => (hr a ha).mono (hk _)

theorem bind {m : Parse α} {f : α → Parse β} {k' : β → Nat} (h : Spends c n m k)
    (hf : ∀ a, Spends c (k a) (f a) k') : Spends c n (m >>= f) k' := by
  intro x hx
  refine Script.Meets.bind (Script.Meets.mono (h x hx) fun r hr => ?_)
  cases r with
  | ok a => exact hf a.1 a.2 (hr a rfl)
  | error e => exact nofun

theorem ite {p : Prop} [Decidable p] {m m' : Parse α} (h : p → Spends c n m k) (h' : ¬p → Spends c n m' k) :
    Spends c n (if p then m else m') k := by
  split
  · exact h ‹_›
  · exact h' ‹_›

theorem call {p : Procedure} (h : 0 < n ∨ p.rank < c.procedure.rank) :
    Spends c n (Parse.call p) fun _ => n + p.least := by
  intro x hx
  refine ⟨?_, fun r hr a ha => hx.trans (hr a ha)⟩
  rcases h with h | h
  · exact .inl (hx.mono h)
  · exact .inr ⟨hx.mono (Nat.zero_le n), h⟩

/-- Before the first token, a procedure calls those of lower rank. -/
theorem first {p q : Procedure} {x : Cursor} (h : q.rank < p.rank) :
    Spends ⟨p, x⟩ 0 (Parse.call q) fun _ => q.least :=
  mono (call (.inr h)) fun _ => Nat.le_add_left _ _

theorem later {p : Procedure} : Spends c (n + 1) (Parse.call p) fun _ => n + 1 + p.least := call (.inl (Nat.succ_pos n))

theorem peek : Spends c n Parse.peek fun _ => n := by
  intro x hx
  obtain ⟨r, hr, h⟩ := peek_cases x
  rw [hr]
  intro a ha
  cases h with
  | token hp _ =>
    cases ha
    exact hx.trans ⟨_, hp, Nat.zero_le _⟩
  | atEnd hp _ =>
    cases ha
    exact hx.trans ⟨_, hp, Nat.zero_le _⟩
  | failed => cases ha

theorem accept {f : Lexeme → Option α} : Spends c n (Parse.accept f) fun a => if a.isSome then n + 1 else n := by
  intro x hx
  obtain ⟨r, hr, h⟩ := accept_cases f x
  rw [hr]
  intro a ha
  cases h with
  | taken hp _ =>
    cases ha
    exact hx.trans ⟨_, hp, Nat.le_refl 1⟩
  | left hp _ =>
    cases ha
    exact hx.trans ⟨_, hp, Nat.zero_le _⟩
  | failed => cases ha

theorem eat {sign : Punct} : Spends c n (Parse.eat sign) fun b => if b then n + 1 else n :=
  bind accept fun _ => pure (Nat.le_refl _)

theorem expect {f : Lexeme → Except Expected α} {atEnd : Expected} :
    Spends c n (Parse.expect f atEnd) fun _ => n + 1 := by
  intro x hx
  obtain ⟨r, hr, h⟩ := expect_cases f atEnd x
  rw [hr]
  intro a ha
  cases h with
  | taken hp _ =>
    cases ha
    exact hx.trans ⟨_, hp, Nat.le_refl 1⟩
  | refused => cases ha

theorem refuse {expected : Expected} : Spends c n (Parse.refuse expected) k := by
  intro x _
  rw [refuse_eq]
  exact nofun

theorem each {stop : Parse Bool} {item : Parse α} {sign : Punct} {again : Parse (List α)} {i j : Nat}
    (hstop : Spends c n stop fun done => if done then j else n) (hitem : Spends c n item fun _ => i + 1)
    (hagain : Spends c (i + 1) again fun _ => j) : Spends c n (Parse.each stop item sign again) fun _ => j := by
  refine bind hstop fun done => ite (fun hd => ?_) fun hd => ?_
  · rw [if_pos hd]
    exact pure (Nat.le_refl _)
  · rw [if_neg hd]
    exact bind hitem fun _ => bind later fun _ => bind hagain fun _ => pure (Nat.le_refl _)

end Spends

theorem Spends.named {name : String} : Spends c (n + 1) (Parse.named name) fun _ => n + 1 := by
  refine .bind .peek fun _ => .ite (fun _ => ?_) fun _ => ?_
  · exact .mono .later fun _ => Nat.le_add_right _ _
  · exact .bind .later fun _ => .pure (Nat.le_add_right _ _)

theorem Spends.field {modifier : Modifier} (h : Spends c n (Parse.call .type) fun _ => n + 1) :
    Spends c n (Parse.field modifier) fun _ => 1 :=
  .bind h fun _ => .bind .expect fun _ => .pure (Nat.succ_pos _)

theorem Spends.heading {k : Keyword} {expected : Expected} {sign : Punct} :
    Spends c n (Parse.heading k expected sign) fun _ => n + 3 :=
  .bind .expect fun _ => .bind .expect fun _ => .bind .expect fun _ => .pure (Nat.le_refl _)

theorem Spends.response : Spends c (n + 1) Parse.response fun _ => n + 1 := by
  refine .bind .eat fun colon => ?_
  cases colon with
  | false => exact .pure (Nat.le_refl _)
  | true => exact .bind .later fun _ => .pure (by omega)

end Parse

namespace Procedure

open Parse (Spends)

/-- What a procedure does before its first token it leaves to procedures of lower rank, and
    it ends with its least number of tokens at least. -/
theorem spends (p : Procedure) (x : Cursor) : Spends ⟨p, x⟩ 0 p.body fun _ => p.least := by
  -- The first call of a body takes a lower rank, every later one comes behind a token.
  cases p with
  | definitions =>
    have stop : Spends ⟨definitions, x⟩ 0 (return (← Parse.peek).isNone) fun done => if done then 0 else 0 :=
      .bind .peek fun _ => .pure (by simp)
    exact .each stop (.first (by decide)) (.mono .later fun _ => Nat.zero_le _)
  | definition =>
    refine .bind .peek fun _ => ?_
    split
    · exact .bind (.first (by decide)) fun _ => .pure (Nat.le_refl 1)
    · exact .bind (.first (by decide)) fun _ => .pure (Nat.le_refl 1)
    · exact .bind (.first (by decide)) fun _ => .pure (Nat.le_refl 1)
    · exact .refuse
  | message => exact .bind .heading fun _ => .bind .later fun _ => .pure (by decide)
  | members => exact .each .eat (.first (by decide)) (.mono .later fun _ => by decide)
  | member =>
    refine .bind .peek fun _ => ?_
    split
    · exact .bind (.first (by decide)) fun _ => .pure (Nat.le_refl 1)
    · exact .bind (.first (by decide)) fun _ => .pure (Nat.le_refl 1)
    · exact .refuse
    · exact .bind (.first (by decide)) fun _ => .pure (Nat.le_refl 1)
  | field =>
    refine .bind .accept fun modifier => ?_
    cases modifier with
    | none => exact .field (.first (by decide))
    | some m => exact .field .later
  | enumeration => exact .bind .heading fun _ => .bind .later fun _ => .pure (by decide)
  | values => exact .each .eat (.first (by decide)) (.mono .later fun _ => by decide)
  | value => exact .bind .expect fun _ => .bind .expect fun _ => .bind .expect fun _ => .pure (by decide)
  | service d =>
    refine .bind .heading fun _ => .bind .later fun _ => .bind .response fun _ => .bind .expect fun _ => .pure ?_
    exact Nat.succ_pos _
  | requests => exact .each .eat (.first (by decide)) (.mono .later fun _ => by decide)
  | separators sign =>
    refine .bind .eat fun eaten => ?_
    cases eaten with
    | false => exact .pure (Nat.zero_le _)
    | true => exact .mono .later fun _ => Nat.zero_le _
  | type =>
    refine .bind .expect fun head => ?_
    cases head with
    | inl s => exact .pure (Nat.le_refl 1)
    | inr name => exact .named
  | map =>
    refine .bind .expect fun _ => .bind .later fun _ => .bind .expect fun _ => ?_
    exact .bind .later fun _ => .bind .expect fun _ => .pure (by decide)
  | path =>
    refine .bind .eat fun eaten => ?_
    cases eaten with
    | false => exact .pure (Nat.zero_le _)
    | true => exact .bind .expect fun _ => .bind .later fun _ => .pure (Nat.zero_le _)

end Procedure

theorem Call.body_descends (c : Call) : c.body.Meets (Within · c) Consumes c.Consumes :=
  c.procedure.spends c.cursor c.cursor (.refl _)

/-- A call that is made further down is lower as well. -/
theorem Call.within_of_calls {c c' : Call} (h : Relation.TransGen (Calls Call.body) c c') : c'.Within c := by
  induction h with
  | single h => exact Calls.descends Call.body_descends h
  | tail _ h ih => exact (Calls.descends Call.body_descends h).trans ih

namespace Document

/-- Reading by descent ends for every source, with the document or the error of `parse`. A
    call leaves less unread input to the calls it makes, or leaves them to a procedure of
    lower rank; from a call of a procedure to one of the same procedure within it, be it
    the next iteration of a loop or a part of the same kind, at least one token is taken. -/
theorem descent_ends_with_parse (source : String) :
    (∃ r, Answers Call.body (.start source) r ∧ parse source = r.map fun a => ⟨a.1⟩) ∧
      (∀ c, ∃ r, ∀ r', Answers Call.body c r' ↔ r' = r) ∧
      (∀ c c', Calls Call.body c c' →
        Prod.Lex (· < ·) (· < ·) (c'.cursor.unread, c'.procedure.rank) (c.cursor.unread, c.procedure.rank)) ∧
      (∀ c c', Relation.TransGen (Calls Call.body) c c' → c'.procedure = c.procedure →
        ∃ t ts, c.cursor.ahead = t :: ts ++ c'.cursor.ahead ∧ c'.cursor.unread < c.cursor.unread) ∧
      ∀ (x y : Lexer) (t : Token), x.next = (some (.ok t), y) → x.position.offset < y.position.offset := by
  have ends (c : Call) : ∃ r, Answers Call.body c r := exists_answers Call.body_descends Call.wellFounded_within c
  refine ⟨?_, fun c => ?_, fun c c' h => ?_, fun c c' h hp => ?_, fun x y t h => ?_⟩
  · obtain ⟨r, hr⟩ := ends (.start source)
    exact ⟨r, hr, parse_of_answers hr⟩
  · obtain ⟨r, hr⟩ := ends c
    exact ⟨r, fun r' => ⟨fun hr' => hr'.unique hr, fun h => h ▸ hr⟩⟩
  · exact (Calls.descends Call.body_descends h).lex
  · rcases Call.within_of_calls h with h | ⟨-, hr⟩
    · have := h.unread
      obtain ⟨ts, hts, hlen⟩ := h
      cases ts with
      | nil => cases hlen
      | cons t ts => exact ⟨t, ts, hts.ahead, this⟩
    · rw [hp] at hr
      exact absurd hr (Nat.lt_irrefl _)
  · obtain ⟨text, -, hposition, hne⟩ := x.next_rest
    rw [h] at hposition hne
    rw [hposition]
    exact Position.offset_lt_advance _ (hne t rfl)

/-- A message in a message: the inner one is read with less input left than the outer one. -/
theorem descent_ends_with_parse_nested :
    ∃ c c', Relation.TransGen (Calls Call.body) (.start "message A{message B{}}") c ∧
      Relation.TransGen (Calls Call.body) c c' ∧ c.procedure = .message ∧ c'.procedure = .message ∧
      c'.cursor.unread < c.cursor.unread := by
  have outer : ∃ c, Relation.TransGen (Calls Call.body) (.start "message A{message B{}}") c ∧
      c.procedure = .message ∧ ∃ c', Relation.TransGen (Calls Call.body) c c' ∧ c'.procedure = .message := by
    -- `definitions`, `definition`, `message`; then `members`, `member`, `message`.
    refine ⟨_, .tail (.single (.first _)) (.first _), rfl, ?_⟩
    exact ⟨_, .tail (.tail (.single (.first _)) (.first _)) (.first _), rfl⟩
  obtain ⟨c, hstart, hc, c', h, hc'⟩ := outer
  obtain ⟨-, -, -, between, -⟩ := descent_ends_with_parse "message A{message B{}}"
  obtain ⟨t, ts, -, hless⟩ := between c c' h (hc'.trans hc.symm)
  exact ⟨c, c', hstart, h, hc, hc', hless⟩

end Document

end ServLang

/-
  ServLang.Proofs.Procedures — recursive descent: one procedure for each rule of the
  grammar and for each of its loops, with one token of lookahead. `Document.parse` walks
  through states instead and so has neither calls nor loops to speak of. Here the calls
  are data (`ServLang.Proofs.Calls`), and the definitions do not say that they end.

  A loop is a procedure of its own, its iterations are its calls of itself. What it has
  read is not passed on but put together from the answers, so the next iteration is a
  call of the very same procedure, at another cursor.

  Proved:
  - `Lexer.bytes_of_next`: no item leaves more bytes than there were, and a token fewer.
  - `peek_cases`, `accept_cases`, `expect_cases`, `refuse_eq`: what the steps at a cursor
    do, in terms of the tokens that are taken.
-/

import ServLang.Proofs.Calls
import ServLang.Proofs.Layout
import ServLang.Proofs.Positions

namespace ServLang

/-! ## The cursor -/

def Lexer.bytes (x : Lexer) : Nat := (String.ofList x.rest).utf8ByteSize

/-- Where the procedures stand: a token stream, and the token that has been looked at. -/
structure Cursor where
  lexer : Lexer
  peeked : Option Token
deriving DecidableEq, Repr

namespace Cursor

def ofString (source : String) : Cursor := ⟨.ofString source, none⟩

def ahead (x : Cursor) : List Token := x.peeked.toList ++ x.lexer.scan.tokens

def ending (x : Cursor) : Ending := x.lexer.scan.ending

def sight (x : Cursor) : Sight :=
  match x.ahead with
  | t :: _ => .lexeme t.lexeme
  | [] => x.ending.sight

/-- Unread input: the bytes the stream has left, and the token that has been looked at. -/
def unread (x : Cursor) : Nat := x.lexer.bytes + x.peeked.toList.length

/-- From one cursor to the other, exactly these tokens are taken. -/
structure Passed (x : Cursor) (ts : List Token) (y : Cursor) : Prop where
  ahead : x.ahead = ts ++ y.ahead
  ending : y.ending = x.ending
  unread : y.unread + ts.length ≤ x.unread

end Cursor

/-! ## Procedures -/

inductive Procedure where
  | definitions | definition
  | message | members | member | field
  | enumeration | values | value
  | service (d : Direction) | requests
  /-- All the separators that stand here. -/
  | separators (sign : Punct)
  | type
  /-- A map's body, from its `<` on. -/
  | map
  /-- What follows the first name of a path. -/
  | path
deriving DecidableEq, Repr

abbrev Procedure.Result : Procedure → Type
  | definitions => List Definition
  | definition => Definition
  | message => Message
  | members => List Member
  | member => Member
  | field => Field
  | enumeration => Enumeration
  | values => List EnumValue
  | value => EnumValue
  | service _ => Service
  | requests => List Ty
  | separators _ => Unit
  | type => Ty
  | map => Ty
  | path => String

structure Call where
  procedure : Procedure
  cursor : Cursor

abbrev Call.Answer (c : Call) : Type := Except SourceError (c.procedure.Result × Cursor)

def Parse (α : Type) : Type := Cursor → Script Call Call.Answer (Except SourceError (α × Cursor))

namespace Parse

variable {α β : Type}

instance : Monad Parse where
  pure a x := .done (.ok (a, x))
  bind m f x := (m x).bind fun
    | .ok (a, y) => f a y
    | .error e => .done (.error e)

def call (p : Procedure) : Parse p.Result := fun x => .ask ⟨p, x⟩ .done

/-- The next token, which stays where it is. -/
def peek : Parse (Option Token) := fun x =>
  match x.peeked with
  | some t => .done (.ok (some t, x))
  | none =>
    match x.lexer.next with
    | (some (.ok t), y) => .done (.ok (some t, ⟨y, some t⟩))
    | (some (.error e), _) => .done (.error (.lex e))
    | (none, y) => .done (.ok (none, ⟨y, none⟩))

def drop : Parse Unit := fun x => .done (.ok ((), { x with peeked := none }))

def fail (expected : Expected) (found : Option Token) : Parse α := fun x =>
  .done (.error (.parse ⟨expected, (found.map Found.token).getD (.endOfInput x.lexer.position)⟩))

def refuse (expected : Expected) : Parse α := do
  fail expected (← peek)

/-- Takes the next token if it is one of those. -/
def accept (f : Lexeme → Option α) : Parse (Option α) := do
  match (← peek).bind fun t => f t.lexeme with
  | some a =>
    drop
    return some a
  | none => return none

/-- Takes the next token, which has to be one of those. -/
def expect (f : Lexeme → Except Expected α) (atEnd : Expected) : Parse α := do
  match ← peek with
  | none => fail atEnd none
  | some t =>
    match f t.lexeme with
    | .ok a =>
      drop
      return a
    | .error expected => fail expected (some t)

def eat (sign : Punct) : Parse Bool := do
  return (← accept fun l => if l = .punct sign then some () else none).isSome

def expectKeyword (k : Keyword) : Parse Unit :=
  expect (fun l => if l = .keyword k then .ok () else .error (.keyword k)) (.keyword k)

def expectPunct (sign : Punct) : Parse Unit :=
  expect (fun l => if l = .punct sign then .ok () else .error (.punct sign)) (.punct sign)

def expectName (expected : Expected) : Parse String :=
  expect (fun | .identifier name => .ok name | _ => .error expected) expected

/-! ## Bodies -/

/-- One iteration of a loop over items with separators behind them, and the iterations
    after it. -/
def each (stop : Parse Bool) (item : Parse α) (sign : Punct) (again : Parse (List α)) : Parse (List α) := do
  if ← stop then
    return []
  else
    let a ← item
    call (.separators sign)
    return a :: (← again)

def heading (k : Keyword) (expected : Expected) (sign : Punct) : Parse String := do
  expectKeyword k
  let name ← expectName expected
  expectPunct sign
  return name

def modifier? : Lexeme → Option Modifier
  | .keyword .optional => some .optional
  | .keyword .required => some .required
  | _ => none

def int64 : Lexeme → Except Expected Int64
  | .integer literal =>
    match Decimal.int64? literal.toList with
    | some value => .ok value
    | none => .error .int64
  | _ => .error .integer

def typeHead : Lexeme → Except Expected (Scalar ⊕ String)
  | .scalar s => .ok (.inl s)
  | .identifier name => .ok (.inr name)
  | _ => .error .type

def definition : Parse Definition := do
  match (← peek).map Token.lexeme with
  | some (.keyword .message) => return .message (← call .message)
  | some (.keyword .inbound) => return .service .inbound (← call (.service .inbound))
  | some (.keyword .outbound) => return .service .outbound (← call (.service .outbound))
  | _ => refuse .definition

def member : Parse Member := do
  match (← peek).map Token.lexeme with
  | some (.keyword .enumeration) => return .enumeration (← call .enumeration)
  | some (.keyword .message) =>
    let m ← call .message
    return .message m.name m.members
  | none => refuse (.punct .rightBrace)
  | some _ => return .field (← call .field)

def field (modifier : Modifier) : Parse Field := do
  let ty ← call .type
  let name ← expectName .fieldName
  return ⟨modifier, ty, name⟩

def response : Parse (Option Ty) := do
  if ← eat .colon then
    return some (← call .type)
  else
    return none

/-- A type that starts with a name: `map` starts a map only if `<` follows it. -/
def named (name : String) : Parse Ty := do
  if name = "map" ∧ (← peek).map Token.lexeme = some (.punct .less) then
    call .map
  else
    return .reference (name ++ (← call .path))

end Parse

open Parse

def Procedure.body : (p : Procedure) → Parse p.Result
  | definitions => each (return (← peek).isNone) (call .definition) .semicolon (call .definitions)
  | definition => Parse.definition
  | message => do
    let name ← heading .message .messageName .leftBrace
    return ⟨name, ← call .members⟩
  | members => each (eat .rightBrace) (call .member) .semicolon (call .members)
  | member => Parse.member
  | field => do
    let modifier ← accept modifier?
    Parse.field (modifier.getD .plain)
  | enumeration => do
    let name ← heading .enumeration .enumerationName .leftBrace
    return ⟨name, ← call .values⟩
  | values => each (eat .rightBrace) (call .value) .semicolon (call .values)
  | value => do
    let key ← expectName .enumerationValue
    expectPunct .equals
    return ⟨key, ← expect int64 .integer⟩
  | service d => do
    let name ← heading d.keyword .serviceName .leftParen
    let request ← call .requests
    let response ← response
    expectPunct .semicolon
    return ⟨name, request, response⟩
  | requests => each (eat .rightParen) (call .type) .comma (call .requests)
  | separators sign => do
    if ← eat sign then
      call (.separators sign)
    else
      return ()
  | type => do
    match ← expect typeHead .type with
    | .inl s => return .scalar s
    | .inr name => named name
  | map => do
    expectPunct .less
    let key ← call .type
    expectPunct .comma
    let value ← call .type
    expectPunct .greater
    return .map key value
  | path => do
    if ← eat .dot then
      let name ← expectName .pathPart
      return "." ++ name ++ (← call .path)
    else
      return ""

namespace Call

def body (c : Call) : Script Call Answer c.Answer := c.procedure.body c.cursor

abbrev start (source : String) : Call := ⟨.definitions, .ofString source⟩

end Call

/-! ## Taking tokens -/

/-- An item leaves no more bytes than there were, and a token leaves fewer. -/
theorem Lexer.bytes_of_next (x : Lexer) :
    x.next.2.bytes ≤ x.bytes ∧ ∀ t, x.next.1 = some (.ok t) → x.next.2.bytes < x.bytes := by
  obtain ⟨text, htext, -, hne⟩ := x.next_rest
  have size : x.bytes = (String.ofList text).utf8ByteSize + x.next.2.bytes := by
    rw [bytes, htext, String.ofList_append, String.utf8ByteSize_append]
    rfl
  refine ⟨by omega, fun t ht => ?_⟩
  cases text with
  | nil => exact absurd rfl (hne t ht)
  | cons c cs =>
    have first : (String.ofList (c :: cs)).utf8ByteSize = c.utf8Size + (String.ofList cs).utf8ByteSize := by
      rw [← List.singleton_append, String.ofList_append, String.utf8ByteSize_append, ← String.singleton_eq_ofList,
        String.utf8ByteSize_singleton]
    have := c.utf8Size_pos
    omega

namespace Cursor

/-- The error for what comes next, where something else was expected. What starts no token is
    an error of its own. -/
def refusal (x : Cursor) (expected : Expected) : SourceError :=
  match x.ahead, x.ending with
  | t :: _, _ => .parse ⟨expected, .token t⟩
  | [], .finished p => .parse ⟨expected, .endOfInput p⟩
  | [], .failed e => .lex e

theorem ahead_of_peeked {x : Cursor} {t : Token} (h : x.peeked = some t) : x.ahead = t :: x.lexer.scan.tokens := by
  rw [ahead, h]
  rfl

theorem sight_of_peeked {x : Cursor} {t : Token} (h : x.peeked = some t) : x.sight = .lexeme t.lexeme := by
  rw [sight, ahead_of_peeked h]

theorem refusal_of_peeked {x : Cursor} {t : Token} (h : x.peeked = some t) (expected : Expected) :
    x.refusal expected = .parse ⟨expected, .token t⟩ := by
  rw [refusal, ahead_of_peeked h]

def AtEnd (x : Cursor) : Prop := x.ahead = [] ∧ x.ending = .finished x.lexer.position

theorem AtEnd.sight {x : Cursor} (h : x.AtEnd) : x.sight = .endOfText := by
  rw [Cursor.sight, h.1, h.2]
  rfl

theorem AtEnd.refusal {x : Cursor} (h : x.AtEnd) (expected : Expected) :
    x.refusal expected = .parse ⟨expected, .endOfInput x.lexer.position⟩ := by
  rw [Cursor.refusal, h.1, h.2]

namespace Passed

variable {x y z : Cursor} {ts us : List Token}

theorem refl (x : Cursor) : x.Passed [] x := ⟨rfl, rfl, Nat.le_refl _⟩

theorem trans (h : x.Passed ts y) (h' : y.Passed us z) : x.Passed (ts ++ us) z where
  ahead := by rw [h.ahead, h'.ahead, List.append_assoc]
  ending := h'.ending.trans h.ending
  unread := by
    have := h.unread
    have := h'.unread
    rw [List.length_append]
    omega

theorem sight (h : x.Passed [] y) : y.sight = x.sight := by
  rw [Cursor.sight, Cursor.sight, h.ending, h.ahead, List.nil_append]

theorem refusal (h : x.Passed [] y) (expected : Expected) : y.refusal expected = x.refusal expected := by
  rw [Cursor.refusal, Cursor.refusal, h.ending, h.ahead, List.nil_append]

theorem sight_of_cons {t : Token} (h : x.Passed (t :: ts) y) : x.sight = .lexeme t.lexeme := by
  rw [Cursor.sight, h.ahead]
  rfl

theorem drop {t : Token} (h : x.Passed [] y) (ht : y.peeked = some t) :
    x.Passed [t] { y with peeked := none } := by
  have taken : y.Passed [t] { y with peeked := none } := by
    constructor
    · simp [Cursor.ahead, ht]
    · rfl
    · simp [Cursor.unread, ht]
  exact h.trans taken

end Passed

end Cursor

namespace Parse

variable {α β : Type}

theorem bind_ok {m : Parse α} {f : α → Parse β} {x y : Cursor} {a : α} (h : m x = .done (.ok (a, y))) :
    (m >>= f) x = f a y := by
  show (m x).bind _ = _
  rw [h]
  rfl

theorem bind_error {m : Parse α} {f : α → Parse β} {x : Cursor} {e : SourceError} (h : m x = .done (.error e)) :
    (m >>= f) x = .done (.error e) := by
  show (m x).bind _ = _
  rw [h]
  rfl

/-- Looking takes nothing: there is a token, or the text ends, or its error comes next. -/
inductive Peeked (x : Cursor) : Except SourceError (Option Token × Cursor) → Prop
  | token {y : Cursor} {t : Token} : x.Passed [] y → y.peeked = some t → Peeked x (.ok (some t, y))
  | atEnd {y : Cursor} : x.Passed [] y → y.AtEnd → Peeked x (.ok (none, y))
  | failed {e : LexError} : x.ahead = [] → x.ending = .failed e → Peeked x (.error (.lex e))

/-- Looking has one of three results, and takes nothing. -/
theorem peek_cases (x : Cursor) : ∃ r, peek x = .done r ∧ Peeked x r := by
  obtain ⟨lexer, peeked⟩ := x
  cases peeked with
  | some t => exact ⟨_, rfl, .token (.refl _) rfl⟩
  | none =>
    unfold peek
    dsimp only
    split
    · next t y h =>
      have bytes := lexer.bytes_of_next.2 t (by rw [h])
      rw [h] at bytes
      refine ⟨_, rfl, .token ⟨?_, ?_, ?_⟩ rfl⟩
      · simp [Cursor.ahead, Lexer.scan_of_next_token h]
      · simp [Cursor.ending, Lexer.scan_of_next_token h]
      · simpa [Cursor.unread, Nat.succ_le_iff] using bytes
    · next e y h =>
      refine ⟨_, rfl, .failed ?_ ?_⟩
      · simp [Cursor.ahead, Lexer.scan_of_next_error h]
      · simp [Cursor.ending, Lexer.scan_of_next_error h]
    · next y h =>
      have bytes := lexer.bytes_of_next.1
      have finished := lexer.next_token_or_finished
      rw [h] at bytes finished
      -- Without an item and without an error the stream has ended with its text.
      have stays : y.next = (none, y) := Lexer.next_of_finished (finished.resolve_left nofun)
      refine ⟨_, rfl, .atEnd ⟨?_, ?_, ?_⟩ ⟨?_, ?_⟩⟩
      · simp [Cursor.ahead, Lexer.scan_of_next_none h, Lexer.scan_of_next_none stays]
      · simp [Cursor.ending, Lexer.scan_of_next_none h, Lexer.scan_of_next_none stays]
      · simpa [Cursor.unread] using bytes
      · simp [Cursor.ahead, Lexer.scan_of_next_none stays]
      · simp [Cursor.ending, Lexer.scan_of_next_none stays]

inductive Accepted (f : Lexeme → Option α) (x : Cursor) : Except SourceError (Option α × Cursor) → Prop
  | taken {y : Cursor} {t : Token} {a : α} : x.Passed [t] y → f t.lexeme = some a → Accepted f x (.ok (some a, y))
  | left {y : Cursor} : x.Passed [] y → (∀ l, x.sight = .lexeme l → f l = none) → Accepted f x (.ok (none, y))
  | failed {e : LexError} : x.ahead = [] → x.ending = .failed e → Accepted f x (.error (.lex e))

theorem accept_cases (f : Lexeme → Option α) (x : Cursor) : ∃ r, accept f x = .done r ∧ Accepted f x r := by
  obtain ⟨r, hr, h⟩ := peek_cases x
  unfold accept
  cases h with
  | @token y t hp ht =>
    rw [bind_ok hr]
    have sight : x.sight = .lexeme t.lexeme := by rw [← hp.sight, Cursor.sight_of_peeked ht]
    cases hf : f t.lexeme with
    | some a =>
      simp only [Option.bind, hf]
      exact ⟨_, rfl, .taken (hp.drop ht) hf⟩
    | none =>
      simp only [Option.bind, hf]
      refine ⟨_, rfl, .left hp fun l hl => ?_⟩
      rw [sight] at hl
      cases hl
      exact hf
  | atEnd hp he =>
    rw [bind_ok hr]
    exact ⟨_, rfl, .left hp (by simp [← hp.sight, he.sight])⟩
  | failed ha he => exact ⟨_, bind_error hr, .failed ha he⟩

inductive Checked (f : Lexeme → Except Expected α) (atEnd : Expected) (x : Cursor) :
    Except SourceError (α × Cursor) → Prop
  | taken {y : Cursor} {t : Token} {a : α} : x.Passed [t] y → f t.lexeme = .ok a → Checked f atEnd x (.ok (a, y))
  | refused {expected : Expected} : (∀ l, x.sight = .lexeme l → f l = .error expected) →
      (x.sight = .endOfText → expected = atEnd) → Checked f atEnd x (.error (x.refusal expected))

/-- Taking what has to come, or refusing what comes instead. -/
theorem expect_cases (f : Lexeme → Except Expected α) (atEnd : Expected) (x : Cursor) :
    ∃ r, expect f atEnd x = .done r ∧ Checked f atEnd x r := by
  obtain ⟨r, hr, h⟩ := peek_cases x
  unfold expect
  cases h with
  | @token y t hp ht =>
    rw [bind_ok hr]
    dsimp only
    have sight : x.sight = .lexeme t.lexeme := by rw [← hp.sight, Cursor.sight_of_peeked ht]
    cases hf : f t.lexeme with
    | ok a => exact ⟨_, rfl, .taken (hp.drop ht) hf⟩
    | error expected =>
      have refused : Checked f atEnd x (.error (x.refusal expected)) := by
        refine .refused (fun l hl => ?_) (by simp [sight])
        rw [sight] at hl
        cases hl
        exact hf
      rw [← hp.refusal, Cursor.refusal_of_peeked ht] at refused
      exact ⟨_, rfl, refused⟩
  | atEnd hp he =>
    rw [bind_ok hr]
    have refused : Checked f atEnd x (.error (x.refusal atEnd)) :=
      .refused (by simp [← hp.sight, he.sight]) fun _ => rfl
    rw [← hp.refusal, he.refusal] at refused
    exact ⟨_, rfl, refused⟩
  | failed ha he =>
    have refused : Checked f atEnd x (.error (x.refusal atEnd)) :=
      .refused (by simp [Cursor.sight, ha, he, Ending.sight]) fun _ => rfl
    rw [Cursor.refusal, ha, he] at refused
    exact ⟨_, bind_error hr, refused⟩

theorem refuse_eq (expected : Expected) (x : Cursor) :
    (refuse expected : Parse α) x = .done (.error (x.refusal expected)) := by
  obtain ⟨r, hr, h⟩ := peek_cases x
  unfold refuse
  cases h with
  | token hp ht =>
    rw [bind_ok hr, ← hp.refusal, Cursor.refusal_of_peeked ht]
    rfl
  | atEnd hp he =>
    rw [bind_ok hr, ← hp.refusal, he.refusal]
    rfl
  | failed ha he => rw [bind_error hr, Cursor.refusal, ha, he]

end Parse

end ServLang

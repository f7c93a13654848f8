/-
  ServLang.Proofs.IntegerLiterals — integer literals and the 64 bits they are kept in. A
  literal may have any number of digits, and stands for a number by the places of its
  digits. Reading it with 64 bits only goes digit by digit, and has to notice at once when
  the number, or its tenfold, is out of reach: above for plain digits, below behind a `-`,
  where there is one number more. `Decimal.int64?` looks at the number as a whole
  instead.

  Digits only lead away from zero. So once out of reach a number stays there, whatever
  digits follow, and both ways give the same.

  Proved:
  - `accumulate?_eq_int64?`: reading digit by digit with 64 bits is `int64?`.
  - `State.shift_integer_eq_ok_iff`, `shift_integer_elsewhere`: where an integer literal may
    stand, and what is read there.
  - `Procedure.value_exact`: the same of the procedure for a value, which leaves a literal
    that does not fit where it is.
  - `Document.Spelling.literals`: the literals of a document's spelling stand for the
    values in it, one for one.
  - `Document.integer_literal_exact`: all of it for the literals of a source, and that an
    enumeration value is printed with a literal that is read as it.
-/

import Mathlib.Data.List.Forall2
import ServLang.Proofs.Procedures
import ServLang.Proofs.RoundTrip

namespace ServLang

namespace Decimal

/-! ## Digit by digit -/

/-- One digit more, away from zero, as long as 64 bits hold the number and its tenfold. -/
def push? (negative : Bool) (v : Int64) (c : Char) : Option Int64 :=
  (fit? (v.toInt * 10)).bind fun tenfold =>
    fit? (if negative then tenfold.toInt - digit c else tenfold.toInt + digit c)

def accumulate? : List Char → Option Int64
  | '-' :: digits => digits.foldlM (push? true) 0
  | digits => digits.foldlM (push? false) 0

def signed (negative : Bool) (n : Nat) : Int := if negative then -n else n

/-- Out of reach is out of reach of everything further from zero. -/
theorem fit?_signed_eq_none {negative : Bool} {m n : Nat} (h : fit? (signed negative m) = none) (hmn : m ≤ n) :
    fit? (signed negative n) = none := by
  rw [fit?_eq_none_iff] at *
  unfold InReach signed at *
  cases negative <;> simp only [if_true, Bool.false_eq_true, if_false] at * <;> omega

/-- One checked step is one unchecked step and a look at the result. -/
theorem push?_eq {negative : Bool} {v : Int64} {n : Nat} (hv : v.toInt = signed negative n) (c : Char) :
    push? negative v c = fit? (signed negative (10 * n + digit c)) := by
  have tenfold : v.toInt * 10 = signed negative (10 * n) := by
    rw [hv]
    unfold signed
    split <;> omega
  unfold push?
  rw [tenfold]
  cases h : fit? (signed negative (10 * n)) with
  | none => exact (fit?_signed_eq_none h (Nat.le_add_right _ _)).symm
  | some w =>
    show fit? _ = fit? _
    rw [fit?_eq_some_iff.1 h]
    congr 1
    unfold signed
    cases negative <;> simp only [if_true, Bool.false_eq_true, if_false] <;> omega

theorem foldlM_push?_eq {negative : Bool} {v : Int64} {n : Nat} (hv : v.toInt = signed negative n)
    (digits : List Char) :
    digits.foldlM (push? negative) v = fit? (signed negative (Nat.ofDigitChars 10 digits n)) := by
  induction digits generalizing v n with
  | nil => exact (fit?_eq_some_iff.2 hv).symm
  | cons c cs ih =>
    rw [List.foldlM_cons, push?_eq hv, Nat.ofDigitChars_cons]
    cases h : fit? (signed negative (10 * n + digit c)) with
    | some w => exact ih (fit?_eq_some_iff.1 h)
    | none =>
      -- The digits left are never read; the whole number is at least as far out.
      refine (fit?_signed_eq_none h ?_).symm
      rw [ofDigitChars_eq]
      exact Nat.le_add_right_of_le (Nat.le_mul_of_pos_right _ (Nat.pow_pos (by decide)))

/-- Looking after each digit and looking once at the end come to the same. -/
theorem accumulate?_eq_int64? (literal : List Char) : accumulate? literal = int64? literal := by
  have zero (negative : Bool) : (0 : Int64).toInt = signed negative 0 := by cases negative <;> rfl
  unfold accumulate?
  split
  · exact foldlM_push?_eq (zero true) _
  · next hplain =>
    rw [int64?_eq, value_of_plain hplain]
    exact foldlM_push?_eq (zero false) _

example : int64? "-0".toList = some 0 ∧ int64? "000".toList = some 0 ∧
    int64? "-9223372036854775808".toList = some Int64.minValue := by decide +kernel

end Decimal

/-! ## Literals in a source -/

/-- A literal on its own is one token. -/
theorem tokenize_integer {literal : List Char} {n : Int} (h : Decimal.Denotes literal n) :
    tokenize (String.ofList literal) = .ok [⟨.integer (String.ofList literal), .start⟩] := by
  have hint : IsInteger (String.ofList literal).toList := by
    rw [String.toList_ofList]
    exact Decimal.isInteger_iff_denotes.2 ⟨n, h⟩
  have whole := @Lexeme.munch?_integer _ [] hint .nil
  rw [List.append_nil] at whole
  rw [tokenize_eq_ok_iff, Scan.ofString, Lexer.ofString, Lexer.scan_lexeme _ whole, Lexer.scan_nil]
  rfl

namespace State

/-- Behind the key of an enumeration value and its `=`, a literal fits if 64 bits hold
    its number, and this number is the value. -/
theorem shift_integer_eq_ok_iff {e : OpenEnumeration} {key literal : String} {n : Int}
    (h : Decimal.Denotes literal.toList n) {s : State} :
    (place (.enumEquals e key)).shift (.integer literal) = .ok s ↔
      ∃ v : Int64, v.toInt = n ∧ s = .place (.enumBody { e with values := e.values ++ [⟨key, v⟩] }) := by
  show Place.shiftInteger e key (.integer literal) = .ok s ↔ _
  simp only [← h.int64?_eq_some_iff, Place.shiftInteger]
  cases Decimal.int64? literal.toList with
  | none => simp
  | some v => simp [eq_comm]

/-- A literal out of reach is refused as such, not as a wrong token. -/
theorem shift_integer_of_not_inReach {e : OpenEnumeration} {key literal : String} {n : Int}
    (h : Decimal.Denotes literal.toList n) (hn : ¬ Decimal.InReach n) :
    (place (.enumEquals e key)).shift (.integer literal) = .error .int64 := by
  show Place.shiftInteger e key (.integer literal) = .error .int64
  rw [Place.shiftInteger, h.int64?_eq, Decimal.fit?_eq_none_iff.2 hn]

/-- Nowhere else does a literal fit, whatever its number is. -/
theorem shift_integer_elsewhere {s : State} (h : ∀ e key, s ≠ place (.enumEquals e key)) (literal : String) :
    ∃ expected, expected ≠ .int64 ∧ s.shift (.integer literal) = .error expected := by
  cases s with
  | path g path => cases g <;> exact ⟨_, by nofun, rfl⟩
  | place p =>
    cases p with
    | enumEquals e key => exact absurd rfl (h e key)
    | site s => cases s <;> exact ⟨_, by nofun, rfl⟩
    | _ => exact ⟨_, by nofun, rfl⟩

end State

/-! ## Literals in value position -/

namespace Parse

variable {α : Type} {f : Lexeme → Except Expected α} {atEnd : Expected} {x : Cursor} {t : Token} {ts : List Token}

/-- With a token ahead, that token is taken or refused. -/
theorem expect_of_ahead (f : Lexeme → Except Expected α) (atEnd : Expected) (hx : x.ahead = t :: ts) :
    (∃ a y, f t.lexeme = .ok a ∧ expect f atEnd x = .done (.ok (a, y)) ∧ x.Passed [t] y) ∨
    ∃ expected, f t.lexeme = .error expected ∧ expect f atEnd x = .done (.error (x.refusal expected)) := by
  obtain ⟨r, hr, h⟩ := expect_cases f atEnd x
  cases h with
  | @taken y u a hp ha =>
    have ahead := hp.ahead
    rw [hx] at ahead
    cases ahead
    exact Or.inl ⟨a, y, ha, hr, hp⟩
  | refused hother _ => exact Or.inr ⟨_, hother t.lexeme (by rw [Cursor.sight, hx]), hr⟩

theorem expect_of_ok {a : α} (hx : x.ahead = t :: ts) (hf : f t.lexeme = .ok a) :
    ∃ y, expect f atEnd x = .done (.ok (a, y)) ∧ x.Passed [t] y := by
  rcases expect_of_ahead f atEnd hx with ⟨b, y, hb, taken, passed⟩ | ⟨_, refused, -⟩
  · rw [hf] at hb
    cases hb
    exact ⟨y, taken, passed⟩
  · rw [hf] at refused
    cases refused

theorem expect_of_error {expected : Expected} (hx : x.ahead = t :: ts) (hf : f t.lexeme = .error expected) :
    expect f atEnd x = .done (.error (x.refusal expected)) := by
  rcases expect_of_ahead f atEnd hx with ⟨_, _, taken, -⟩ | ⟨other, hother, refused⟩
  · rw [hf] at taken
    cases taken
  · rw [hf] at hother
    cases hother
    exact refused

theorem expectName_of_identifier {name : String} (expected : Expected) (hx : x.ahead = t :: ts)
    (ht : t.lexeme = .identifier name) :
    ∃ y, expectName expected x = .done (.ok (name, y)) ∧ x.Passed [t] y :=
  expect_of_ok hx (by rw [ht])

theorem expectPunct_of_punct {sign : Punct} (hx : x.ahead = t :: ts) (ht : t.lexeme = .punct sign) :
    ∃ y, expectPunct sign x = .done (.ok ((), y)) ∧ x.Passed [t] y :=
  expect_of_ok hx (by rw [ht, if_pos rfl])

/-- A key and its `=` are taken, and then the literal decides. -/
theorem value_body {k eq : Token} {key : String} (hx : x.ahead = k :: eq :: ts) (hk : k.lexeme = .identifier key)
    (heq : eq.lexeme = .punct .equals) :
    ∃ y, x.Passed [k, eq] y ∧ y.ahead = ts ∧
      Procedure.value.body x = (do return ⟨key, ← expect int64 .integer⟩ : Parse EnumValue) y := by
  obtain ⟨y, hy, first⟩ := expectName_of_identifier .enumerationValue hx hk
  have behind : y.ahead = eq :: ts := (List.cons.inj (hx.symm.trans first.ahead)).2.symm
  obtain ⟨z, hz, second⟩ := expectPunct_of_punct behind heq
  refine ⟨z, first.trans second, (List.cons.inj (behind.symm.trans second.ahead)).2.symm, ?_⟩
  exact (bind_ok hy).trans (bind_ok hz)

end Parse

/-- The procedure for enumeration values takes a literal that 64 bits hold, and stores its
    number. Otherwise it ends in front of the literal, which is what it found. -/
theorem Procedure.value_exact {x : Cursor} {k eq t : Token} {after : List Token} {key literal : String} {n : Int}
    (hx : x.ahead = k :: eq :: t :: after) (hk : k.lexeme = .identifier key) (heq : eq.lexeme = .punct .equals)
    (ht : t.lexeme = .integer literal) (h : Decimal.Denotes literal.toList n) :
    (∀ v : Int64, v.toInt = n → ∃ y, value.body x = .done (.ok (⟨key, v⟩, y)) ∧ y.ahead = after) ∧
    (¬ Decimal.InReach n → ∃ y, x.Passed [k, eq] y ∧ y.ahead = t :: after ∧
      value.body x = .done (.error (.parse ⟨.int64, .token t⟩))) := by
  obtain ⟨y, passed, behind, body⟩ := Parse.value_body hx hk heq
  refine ⟨fun v hv => ?_, fun hn => ?_⟩
  · have fits : Parse.int64 t.lexeme = .ok v := by rw [ht, Parse.int64, h.int64?_eq_some_iff.2 hv]
    obtain ⟨z, hz, taken⟩ := Parse.expect_of_ok behind fits
    exact ⟨z, body.trans (Parse.bind_ok hz), (List.cons.inj (behind.symm.trans taken.ahead)).2.symm⟩
  · have refused : Parse.int64 t.lexeme = .error .int64 := by
      rw [ht, Parse.int64, h.int64?_eq, Decimal.fit?_eq_none_iff.2 hn]
    have failed : Parse.expect Parse.int64 .integer y = .done (.error (y.refusal .int64)) :=
      Parse.expect_of_error behind refused
    rw [Cursor.refusal, behind] at failed
    exact ⟨y, passed, behind, body.trans (Parse.bind_error failed)⟩

/-! ## Literals in a document -/

def Lexeme.integer? : Lexeme → Option String
  | integer literal => some literal
  | _ => none

namespace Member

mutual

def values : Member → List EnumValue
  | field _ => []
  | enumeration e => e.values
  | message _ members => valuesAll members

def valuesAll : List Member → List EnumValue
  | [] => []
  | m :: ms => m.values ++ valuesAll ms

end

theorem valuesAll_eq_flatMap (members : List Member) : valuesAll members = members.flatMap values := by
  induction members with
  | nil => rfl
  | cons m ms ih => rw [valuesAll, ih, List.flatMap_cons]

end Member

def Definition.values : Definition → List EnumValue
  | message m => Member.valuesAll m.members
  | service _ _ => []

def Document.values (d : Document) : List EnumValue := d.definitions.flatMap Definition.values

/-- The integer literals among the lexemes denote the values, one for one. -/
def Literals (ls : List Lexeme) (vs : List EnumValue) : Prop :=
  List.Forall₂ (fun literal v => Decimal.Denotes literal.toList v.value.toInt) (ls.filterMap Lexeme.integer?) vs

namespace Literals

variable {ls ks : List Lexeme} {vs us : List EnumValue}

theorem append (h : Literals ls vs) (h' : Literals ks us) : Literals (ls ++ ks) (vs ++ us) := by
  rw [Literals, List.filterMap_append]
  exact List.rel_append h h'

theorem none (h : ls.filterMap Lexeme.integer? = []) : Literals ls [] := by
  rw [Literals, h]
  exact .nil

/-- A head and a brace around a body hold no literals. -/
theorem block {k : Keyword} {name : String} (h : Literals ls vs) :
    Literals (.keyword k :: .identifier name :: .punct .leftBrace :: ls ++ [.punct .rightBrace]) vs := by
  have brace : Literals [.punct .rightBrace] [] := none rfl
  have body := h.append brace
  rwa [List.append_nil] at body

end Literals

theorem Separated.literals {α : Type} {separator : Punct} {spells : α → List Lexeme → Prop} {xs : List α}
    {ts : List Lexeme} (h : Separated separator spells xs ts) (values : α → List EnumValue)
    (item : ∀ x ∈ xs, ∀ us, spells x us → Literals us (values x)) : Literals ts (xs.flatMap values) := by
  induction h with
  | nil => exact .nil
  | @cons x xs us rest n hx _ ih =>
    have signs : Literals (separator.times n) [] := .none (by simp [Punct.times, Lexeme.integer?])
    have first := (item x List.mem_cons_self us hx).append signs
    rw [List.append_nil] at first
    exact first.append (ih fun y hy => item y (List.mem_cons_of_mem _ hy))

theorem Ty.Spelling.literals {ty : Ty} {ts : List Lexeme} (h : ty.Spelling ts) : Literals ts [] := by
  induction h with
  | scalar s => exact .none rfl
  | @map key value ks vs _ _ ihk ihv =>
    have inside : Literals (.identifier "map" :: .punct .less :: ks ++ .punct .comma :: vs) [] := ihk.append ihv
    exact inside.append (.none rfl)
  | name n => exact .none rfl
  | dotted n _ ih => exact ih.append (.none rfl)

theorem EnumValue.Spelling.literals {v : EnumValue} {ts : List Lexeme} (h : v.Spelling ts) : Literals ts [v] := by
  cases h with
  | assign key literal h => exact .cons h .nil

theorem Member.Spelling.literals {m : Member} {ts : List Lexeme} (h : m.Spelling ts) : Literals ts m.values := by
  induction m generalizing ts with
  | field f =>
    cases h with
    | field modifier name hty =>
      have words : Literals modifier.lexemes [] := .none (by cases modifier <;> rfl)
      exact (words.append hty.literals).append (.none rfl)
  | enumeration e =>
    cases h with
    | enumeration name hvs =>
      have values := hvs.literals (fun v => [v]) fun v _ us hus => hus.literals
      rw [List.flatMap_singleton'] at values
      exact values.block
  | message name members ih =>
    cases h with
    | message name hms =>
      rw [values, valuesAll_eq_flatMap]
      exact (hms.literals values fun m hm us hus => ih m hm hus).block

theorem Definition.Spelling.literals {d : Definition} {ts : List Lexeme} (h : d.Spelling ts) : Literals ts d.values := by
  cases h with
  | message hm => exact hm.literals
  | @service request response us rs direction name hreq hres =>
    have types := hreq.literals (fun _ => []) fun ty _ us hus => hus.literals
    have answer : Literals rs [] := by
      cases hres with
      | none => exact .nil
      | some hty => exact hty.literals
    rw [List.flatMap_eq_nil_iff.2 fun _ _ => rfl] at types
    have head : Literals (.keyword direction.keyword :: .identifier name :: .punct .leftParen :: us) [] := types
    have behind : Literals (.punct .rightParen :: rs) [] := answer
    exact (head.append behind).append (.none rfl)

/-- The literals of a spelling are the document's values, in order. -/
theorem Document.Spelling.literals {d : Document} {ts : List Lexeme} (h : d.Spelling ts) : Literals ts d.values :=
  Separated.literals h Definition.values fun _ _ _ hus => hus.literals

/-- A printed value is tokenized to its own lexemes. -/
theorem EnumValue.exists_tokenize_text {v : EnumValue} (h : isName v.key = true) :
    ∃ ts, tokenize v.text = .ok ts ∧ ts.map Token.lexeme = v.lexemes := by
  refine exists_tokenize_iff_reading.2 ?_
  have printed := EnumValue.prints h [] [] .nil
  rwa [List.append_nil, List.append_nil] at printed

namespace Document

/-- Every integer token of a source denotes a number, and every literal is a token. Reading
    a literal digit by digit with 64 bits is exact: it succeeds if and only if 64 bits hold
    the number, with that number. In value position the literal is then read as the value,
    and otherwise refused where it stands; elsewhere it never fits. The procedure for
    enumeration values does the same at any cursor, and what it refuses it does not take.
    The values of a document that is returned are the numbers of the literals in its source,
    one for one. What is printed for an enumeration value is its key, `=`, one literal that
    is read as the value, and `;`. -/
theorem integer_literal_exact :
    (∀ source, ∀ t ∈ (Scan.ofString source).tokens, ∀ literal, t.lexeme = .integer literal →
      ∃ n, Decimal.Denotes literal.toList n) ∧
    (∀ literal n, Decimal.Denotes literal n →
      tokenize (String.ofList literal) = .ok [⟨.integer (String.ofList literal), .start⟩] ∧
      Decimal.int64? literal = Decimal.accumulate? literal ∧
      ((∃ v, Decimal.int64? literal = some v) ↔ Decimal.InReach n) ∧
      ∀ v, Decimal.int64? literal = some v ↔ v.toInt = n) ∧
    (∀ source before t after literal n s, (Scan.ofString source).tokens = before ++ t :: after →
      t.lexeme = .integer literal → Decimal.Denotes literal.toList n →
      State.start.Reads (before.map Token.lexeme) s →
      (∀ e key, s = .place (.enumEquals e key) →
        (∀ u, State.start.Reads ((before ++ [t]).map Token.lexeme) u ↔
          ∃ v : Int64, v.toInt = n ∧ u = .place (.enumBody { e with values := e.values ++ [⟨key, v⟩] })) ∧
        (¬ Decimal.InReach n → ∃ error, parse source = .error (.parse error) ∧
          error.expected.text = "a 64-bit integer literal" ∧ error.found = .token t)) ∧
      ((∀ e key, s ≠ .place (.enumEquals e key)) →
        ∃ expected, expected ≠ .int64 ∧ parse source = .error (.parse ⟨expected, .token t⟩))) ∧
    (∀ (x : Cursor) (k eq t : Token) after key literal n, x.ahead = k :: eq :: t :: after →
      k.lexeme = .identifier key → eq.lexeme = .punct .equals → t.lexeme = .integer literal →
      Decimal.Denotes literal.toList n →
      (∀ v : Int64, v.toInt = n → ∃ y, Procedure.value.body x = .done (.ok (⟨key, v⟩, y)) ∧ y.ahead = after) ∧
      (¬ Decimal.InReach n → ∃ y, x.Passed [k, eq] y ∧ y.ahead = t :: after ∧
        Procedure.value.body x = .done (.error (.parse ⟨.int64, .token t⟩)))) ∧
    (∀ source d, parse source = .ok d →
      ∃ ts, tokenize source = .ok ts ∧ Literals (ts.map Token.lexeme) d.values) ∧
    (∀ v : EnumValue, isName v.key = true →
      ∃ literal ts, tokenize v.text = .ok ts ∧
        ts.map Token.lexeme = [.identifier v.key, .punct .equals, .integer literal, .punct .semicolon] ∧
        Decimal.int64? literal.toList = some v.value) := by
  refine ⟨?_, ?_, ?_, ?_, ?_, ?_⟩
  · intro source t ht literal hl
    have number := Scan.hasNumber ht
    rwa [hl] at number
  · intro literal n h
    refine ⟨tokenize_integer h, (Decimal.accumulate?_eq_int64? literal).symm, ?_, fun v => ?_⟩
    · rw [h.int64?_eq, Decimal.exists_fit?_iff]
    · exact h.int64?_eq_some_iff
  · intro source before t after literal n s hts hl h hs
    -- The run has come to the literal, so an error there is the parser's.
    have refused {expected : Expected} (he : s.shift (.integer literal) = .error expected) :
        parse source = .error (.parse ⟨expected, .token t⟩) :=
      parse_eq_parse_iff.2 (.token before after hts hs (by rw [hl, he]))
    refine ⟨?_, fun helse => ?_⟩
    · rintro e key rfl
      refine ⟨fun u => ?_, fun hn => ?_⟩
      · rw [List.map_append, List.map_singleton, hl, State.Reads.snoc_iff, ← State.shift_integer_eq_ok_iff h]
        constructor
        · rintro ⟨s', hs', hu⟩
          rwa [hs.unique hs']
        · intro hu
          exact ⟨_, hs, hu⟩
      · exact ⟨_, refused (State.shift_integer_of_not_inReach h hn), rfl, rfl⟩
    · obtain ⟨expected, hne, he⟩ := State.shift_integer_elsewhere helse literal
      exact ⟨expected, hne, refused he⟩
  · intro x k eq t after key literal n hx hk heq ht h
    exact Procedure.value_exact hx hk heq ht h
  · intro source d h
    obtain ⟨ls, hls, hd⟩ := parse_eq_ok_iff.1 h
    obtain ⟨ts, hts, rfl⟩ := exists_tokenize_iff_reading.2 hls
    exact ⟨ts, hts, hd.literals⟩
  · intro v hv
    obtain ⟨ts, hts, hls⟩ := EnumValue.exists_tokenize_text hv
    refine ⟨_, ts, hts, hls, ?_⟩
    rw [String.toList_ofList, Decimal.int64?_write]

/-- The least 64-bit integer, and the first above the greatest. -/
theorem integer_literal_exact_ends :
    (∃ n, Decimal.Denotes "9223372036854775808".toList n) ∧
    Decimal.int64? "-9223372036854775808".toList = some Int64.minValue ∧
    (∃ error, parse "message M { enum E { K = 9223372036854775808 } }" = .error (.parse error) ∧
      error.expected.text = "a 64-bit integer literal" ∧
      error.found = .token ⟨.integer "9223372036854775808", ⟨25, 1, 26⟩⟩) ∧
    (∃ expected, expected ≠ .int64 ∧
      parse "5" = .error (.parse ⟨expected, .token ⟨.integer "5", ⟨0, 1, 1⟩⟩⟩)) ∧
    (∃ y, (Cursor.ofString "K = 9223372036854775808").Passed
        [⟨.identifier "K", ⟨0, 1, 1⟩⟩, ⟨.punct .equals, ⟨2, 1, 3⟩⟩] y ∧
      y.ahead = [⟨.integer "9223372036854775808", ⟨4, 1, 5⟩⟩] ∧
      Procedure.value.body (.ofString "K = 9223372036854775808") =
        .done (.error (.parse ⟨.int64, .token ⟨.integer "9223372036854775808", ⟨4, 1, 5⟩⟩⟩))) ∧
    (∃ ts, tokenize "message M { enum E { K = -0; L = 007 } }" = .ok ts ∧
      Literals (ts.map Token.lexeme) [⟨"K", 0⟩, ⟨"L", 7⟩]) ∧
    ∃ literal ts, tokenize (EnumValue.text ⟨"K", Int64.minValue⟩) = .ok ts ∧
      ts.map Token.lexeme = [.identifier "K", .punct .equals, .integer literal, .punct .semicolon] ∧
      Decimal.int64? literal.toList = some Int64.minValue := by
  have beyond : Decimal.Denotes "9223372036854775808".toList (Decimal.worth "9223372036854775808".toList) :=
    .plain (by decide +kernel) (by decide +kernel)
  have least : Decimal.Denotes ('-' :: "9223372036854775808".toList) (-(Decimal.worth "9223372036854775808".toList)) :=
    .negative (by decide +kernel) (by decide +kernel)
  have stream : (Scan.ofString "message M { enum E { K = 9223372036854775808 } }").tokens =
      [⟨.keyword .message, ⟨0, 1, 1⟩⟩, ⟨.identifier "M", ⟨8, 1, 9⟩⟩, ⟨.punct .leftBrace, ⟨10, 1, 11⟩⟩,
        ⟨.keyword .enumeration, ⟨12, 1, 13⟩⟩, ⟨.identifier "E", ⟨17, 1, 18⟩⟩, ⟨.punct .leftBrace, ⟨19, 1, 20⟩⟩,
        ⟨.identifier "K", ⟨21, 1, 22⟩⟩, ⟨.punct .equals, ⟨23, 1, 24⟩⟩] ++
      ⟨.integer "9223372036854775808", ⟨25, 1, 26⟩⟩ ::
        [⟨.punct .rightBrace, ⟨45, 1, 46⟩⟩, ⟨.punct .rightBrace, ⟨47, 1, 48⟩⟩] := by decide +kernel
  have inside : State.start.Reads
      [.keyword .message, .identifier "M", .punct .leftBrace, .keyword .enumeration, .identifier "E", .punct .leftBrace,
        .identifier "K", .punct .equals]
      (.place (.enumEquals ⟨⟨.document [], "M", []⟩, "E", []⟩ "K")) :=
    .cons rfl (.cons rfl (.cons rfl (.cons rfl (.cons rfl (.cons rfl (.cons rfl (.single rfl)))))))
  have mem : ⟨.integer "9223372036854775808", ⟨25, 1, 26⟩⟩ ∈
      (Scan.ofString "message M { enum E { K = 9223372036854775808 } }").tokens := by
    rw [stream]
    exact List.mem_append_right _ List.mem_cons_self
  have five : Decimal.Denotes "5".toList (Decimal.worth "5".toList) := .plain (by decide +kernel) (by decide +kernel)
  have alone : (Cursor.ofString "K = 9223372036854775808").ahead =
      [⟨.identifier "K", ⟨0, 1, 1⟩⟩, ⟨.punct .equals, ⟨2, 1, 3⟩⟩, ⟨.integer "9223372036854775808", ⟨4, 1, 5⟩⟩] := by
    decide +kernel
  obtain ⟨tokens, literals, places, procedure, values, printed⟩ := integer_literal_exact
  refine ⟨tokens _ _ mem _ rfl, ((literals _ _ least).2.2.2 _).2 (by decide +kernel), ?_, ?_, ?_, ?_,
    printed ⟨"K", Int64.minValue⟩ (by decide +kernel)⟩
  · exact ((places _ _ _ _ _ _ _ stream rfl beyond inside).1 _ _ rfl).2 (by decide +kernel)
  · exact (places "5" [] _ [] "5" _ .start (by decide +kernel) rfl five (.nil _)).2 nofun
  · exact (procedure _ _ _ _ _ _ _ _ alone rfl rfl rfl beyond).2 (by decide +kernel)
  · exact values _ ⟨[.message ⟨"M", [.enumeration ⟨"E", [⟨"K", 0⟩, ⟨"L", 7⟩]⟩]⟩]⟩ (by decide +kernel)

end Document

end ServLang

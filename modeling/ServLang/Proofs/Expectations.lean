/-
  ServLang.Proofs.Expectations — what a parse error says was expected would have been
  right. The text of an error names a token, several tokens or a class of tokens; whatever
  of these had stood in the place of the item that was found, what has been read would
  still start a document.

  A place refuses a token, and the end of the text, with one text for whoever comes there,
  though a place may be reached in many ways: inside a type it does not matter what the
  type is for, and a field's first token is asked for in the same words as a request's. So
  what is expected is checked against the place itself, and `Place.closable` finds a
  document for the place after.

  Not everything that is right is named. A message's body at the end of the text asks for
  its brace only, although a member would do, and where a path has just ended a dot would
  be read as well.

  Proved:
  - `Lexeme.fits_text_iff`: what the text of each error names.
  - `Place.shifts_of_error`, `Place.shifts_of_finish`: a place takes what it asks for.
  - `Document.expected_viable`: the text of a parse error names something, and all that it
    names goes on with what was read.
-/

import Mathlib.Data.List.Basic
import ServLang.Proofs.ViablePrefix

namespace ServLang

/-! ## What a text names -/

/-- The lexeme is what the text of an error names: the sign or one of the keywords in it,
    a name, a type's first word, or an integer with a 64-bit value. A reserved word is no
    name, since it is read as another lexeme. -/
def Lexeme.Fits (text : String) : Lexeme → Prop
  | punct p => text = "`" ++ p.text ++ "`" ∨ (text = "enum value name or `\x7d`" ∧ p = .rightBrace)
  | keyword k => ("`" ++ k.word ++ "`").toList <:+: text.toList
  | scalar _ => text = "type"
  | identifier _ =>
    text ∈ ["message name", "service name", "enum name", "field name", "identifier after `.`",
      "enum value name or `\x7d`", "type"]
  | integer literal =>
    (∃ n, Decimal.Denotes literal.toList n ∧ Decimal.InReach n) ∧
      text ∈ ["integer literal", "a 64-bit integer literal"]

theorem Lexeme.Fits.hasNumber {text : String} {l : Lexeme} (h : l.Fits text) : l.HasNumber := by
  cases l with
  | integer literal =>
    obtain ⟨⟨n, hn, -⟩, -⟩ := h
    exact ⟨n, hn⟩
  | _ => trivial

def Expected.Admits : Expected → Lexeme → Prop
  | definition, l => ∃ k ∈ [Keyword.message, .inbound, .outbound], l = .keyword k
  | messageName, l | enumerationName, l | fieldName, l | serviceName, l | pathPart, l => ∃ name, l = .identifier name
  | enumerationValue, l => (∃ name, l = .identifier name) ∨ l = .punct .rightBrace
  | type, l => (∃ s, l = .scalar s) ∨ ∃ name, l = .identifier name
  | integer, l | int64, l =>
    ∃ literal n, Decimal.Denotes literal.toList n ∧ Decimal.InReach n ∧ l = .integer literal
  | keyword k, l => l = .keyword k
  | punct p, l => l = .punct p

namespace Expected

def all : List Expected :=
  [definition, messageName, enumerationName, fieldName, serviceName, enumerationValue, type, pathPart, integer, int64] ++
    Keyword.all.map keyword ++ Punct.all.map punct

theorem mem_all (e : Expected) : e ∈ all := by
  cases e with
  | keyword k => cases k <;> decide
  | punct p => cases p <;> decide
  | _ => decide

/-- No two expectations have one text. -/
theorem text_inj : Function.Injective text := by
  have each : ∀ e ∈ all, ∀ e' ∈ all, e.text = e'.text → e = e' := by decide +kernel
  intro e e' h
  exact each e (mem_all e) e' (mem_all e') h

theorem quoted_infix_text_iff {e : Expected} {k : Keyword} :
    ("`" ++ k.word ++ "`").toList <:+: e.text.toList ↔
      (e = definition ∧ k ∈ [Keyword.message, .inbound, .outbound]) ∨ e = keyword k := by
  have each : ∀ e ∈ all, ∀ k, ("`" ++ Keyword.word k ++ "`").toList <:+: e.text.toList ↔
      (e = definition ∧ k ∈ [Keyword.message, .inbound, .outbound]) ∨ e = keyword k := by
    intro e he k
    revert e
    cases k <;> decide +kernel
  exact each e (mem_all e) k

end Expected

/-- A text tells what it asks for: no two expectations are worded alike. -/
theorem Lexeme.fits_text_iff {e : Expected} {l : Lexeme} : l.Fits e.text ↔ e.Admits l := by
  have text (e' : Expected) : e.text = e'.text ↔ e = e' := Expected.text_inj.eq_iff
  cases l with
  | punct p =>
    show e.text = (Expected.punct p).text ∨ (e.text = Expected.enumerationValue.text ∧ p = .rightBrace) ↔ _
    rw [text, text]
    cases e <;> simp [Expected.Admits, eq_comm]
  | keyword k =>
    rw [Fits, Expected.quoted_infix_text_iff]
    cases e <;> simp [Expected.Admits, eq_comm]
  | scalar s =>
    show e.text = Expected.type.text ↔ _
    rw [text]
    cases e <;> simp [Expected.Admits]
  | identifier name =>
    show e.text ∈ [Expected.messageName, .serviceName, .enumerationName, .fieldName, .pathPart, .enumerationValue,
      .type].map Expected.text ↔ _
    rw [List.mem_map_of_injective Expected.text_inj]
    cases e <;> simp [Expected.Admits]
  | integer literal =>
    show _ ∧ e.text ∈ [Expected.integer, .int64].map Expected.text ↔ _
    rw [List.mem_map_of_injective Expected.text_inj]
    cases e <;> simp [Expected.Admits]

/-- Every expectation is of something. -/
theorem Expected.exists_admits (e : Expected) : ∃ l, e.Admits l := by
  cases e with
  | definition => exact ⟨.keyword .message, .message, List.mem_cons_self, rfl⟩
  | messageName | enumerationName | fieldName | serviceName | pathPart => exact ⟨.identifier "x", "x", rfl⟩
  | enumerationValue => exact ⟨.punct .rightBrace, Or.inr rfl⟩
  | type => exact ⟨.identifier "x", Or.inr ⟨"x", rfl⟩⟩
  | integer | int64 => exact ⟨.integer "0", "0", 0, .plain nofun rfl, by decide, rfl⟩
  | keyword k => exact ⟨.keyword k, rfl⟩
  | punct p => exact ⟨.punct p, rfl⟩

/-! ## Places take what they ask for -/

def Shifts (shift : Lexeme → Except Expected State) (e : Expected) : Prop :=
  ∀ l, e.Admits l → ∃ s, shift l = .ok s

/-- Whatever starts a type is taken where one is asked for. -/
theorem Goal.shifts_type (g : Goal) : Shifts g.shift .type := by
  intro l hl
  rcases hl with ⟨s, rfl⟩ | ⟨name, rfl⟩
  · exact ⟨_, rfl⟩
  · exact ⟨_, rfl⟩

theorem Goal.type_of_error {g : Goal} {l : Lexeme} {e : Expected} (h : g.shift l = .error e) : e = .type := by
  cases l <;> cases h <;> rfl

namespace Place

theorem shifts_of_shiftPunct {p : Punct} {next : Place} {l : Lexeme} {e : Expected}
    (h : shiftPunct p next l = .error e) : Shifts (shiftPunct p next) e := by
  unfold shiftPunct at h
  split at h
  · cases h
  · cases h
    intro l hl
    exact ⟨_, if_pos hl⟩

theorem shifts_of_shiftName {expected : Expected} {next : String → State} {l : Lexeme} {e : Expected}
    (hname : ∀ l, expected.Admits l → ∃ name, l = .identifier name) (h : shiftName expected next l = .error e) :
    Shifts (shiftName expected next) e := by
  have asked : e = expected := by
    cases l <;> cases h <;> rfl
  subst asked
  intro l hl
  obtain ⟨name, rfl⟩ := hname l hl
  exact ⟨next name, rfl⟩

theorem shifts_definition (ds : List Definition) : Shifts (shiftDefinition ds) .definition := by
  intro l hl
  obtain ⟨k, hk, rfl⟩ := hl
  simp only [List.mem_cons, List.not_mem_nil, or_false] at hk
  rcases hk with rfl | rfl | rfl <;> exact ⟨_, rfl⟩

theorem shifts_of_shiftDefinition {ds : List Definition} {l : Lexeme} {e : Expected}
    (h : shiftDefinition ds l = .error e) : Shifts (shiftDefinition ds) e := by
  have asked : e = .definition := by
    unfold shiftDefinition at h
    split at h
    · cases h
    · cases h
    · cases h
    · split at h <;> cases h
      rfl
    · cases h
      rfl
  rw [asked]
  exact shifts_definition ds

theorem shifts_of_shiftMember {b : Body} {l : Lexeme} {e : Expected} (h : shiftMember b l = .error e) :
    Shifts (shiftMember b) e := by
  have asked : e = .type := by
    unfold shiftMember at h
    split at h
    · cases h
    · cases h
    · cases h
    · cases h
    · cases h
    · split at h <;> cases h
      rfl
    · exact Goal.type_of_error h
  rw [asked]
  intro l hl
  rcases hl with ⟨s, rfl⟩ | ⟨name, rfl⟩ <;> exact ⟨_, rfl⟩

theorem shifts_enumerationValue (e : OpenEnumeration) : Shifts (shiftEnumValue e) .enumerationValue := by
  intro l hl
  rcases hl with ⟨name, rfl⟩ | rfl <;> exact ⟨_, rfl⟩

theorem shifts_of_shiftEnumValue {x : OpenEnumeration} {l : Lexeme} {e : Expected} (h : shiftEnumValue x l = .error e) :
    Shifts (shiftEnumValue x) e := by
  have asked : e = .enumerationValue := by
    unfold shiftEnumValue at h
    split at h
    · cases h
    · split at h <;> cases h
      rfl
    · unfold shiftName at h
      split at h <;> cases h
      rfl
  rw [asked]
  exact shifts_enumerationValue x

/-- A value that does not fit is refused in other words than another token. -/
theorem shifts_of_shiftInteger {x : OpenEnumeration} {key : String} {l : Lexeme} {e : Expected}
    (h : shiftInteger x key l = .error e) : Shifts (shiftInteger x key) e := by
  have asked : e = .integer ∨ e = .int64 := by
    unfold shiftInteger at h
    split at h
    · split at h <;> cases h
      exact Or.inr rfl
    · cases h
      exact Or.inl rfl
  have shifts (literal : String) (n : Int) (h : Decimal.Denotes literal.toList n) (hn : Decimal.InReach n) :
      ∃ s, shiftInteger x key (.integer literal) = .ok s := by
    obtain ⟨v, hv⟩ := Decimal.exists_fit?_iff.2 hn
    rw [shiftInteger, h.int64?_eq, hv]
    exact ⟨_, rfl⟩
  intro l hl
  rcases asked with rfl | rfl <;> obtain ⟨literal, n, h, hn, rfl⟩ := hl
  · exact shifts literal n h hn
  · exact shifts literal n h hn

theorem shifts_of_shiftRequest {r : OpenService} {l : Lexeme} {e : Expected} (h : shiftRequest r l = .error e) :
    Shifts (shiftRequest r) e := by
  have asked : e = .type := by
    unfold shiftRequest at h
    split at h
    · cases h
    · split at h <;> cases h
      rfl
    · exact Goal.type_of_error h
  rw [asked]
  intro l hl
  rcases hl with ⟨s, rfl⟩ | ⟨name, rfl⟩ <;> exact ⟨_, rfl⟩

theorem shifts_of_shiftRequestEnd {r : OpenService} {l : Lexeme} {e : Expected} (h : shiftRequestEnd r l = .error e) :
    Shifts (shiftRequestEnd r) e := by
  have asked : e = .punct .semicolon := by
    unfold shiftRequestEnd at h
    split at h
    · cases h
    · unfold shiftPunct at h
      split at h <;> cases h
      rfl
  rw [asked]
  intro l hl
  obtain rfl : l = .punct .semicolon := hl
  exact ⟨_, rfl⟩

/-- A place takes whatever it asks for instead of a token that it refuses. -/
theorem shifts_of_error {p : Place} {l : Lexeme} {e : Expected} (h : p.shift l = .error e) : Shifts p.shift e := by
  -- A place errs with what it asks for, and takes that: a case for each.
  cases p with
  | site s =>
    cases s with
    | document ds => exact shifts_of_shiftDefinition h
    | message outer name members => exact shifts_of_shiftMember h
  | messageKeyword s => exact shifts_of_shiftName (fun _ => id) h
  | messageName s name => exact shifts_of_shiftPunct h
  | enumKeyword b => exact shifts_of_shiftName (fun _ => id) h
  | enumName b name => exact shifts_of_shiftPunct h
  | enumBody x => exact shifts_of_shiftEnumValue h
  | enumKey x key => exact shifts_of_shiftPunct h
  | enumEquals x key => exact shifts_of_shiftInteger h
  | goal g =>
    obtain rfl := Goal.type_of_error h
    exact g.shifts_type
  | pathDot g path => exact shifts_of_shiftName (fun _ => id) h
  | mapKey g key => exact shifts_of_shiftPunct h
  | mapValue g key value => exact shifts_of_shiftPunct h
  | fieldType b modifier ty => exact shifts_of_shiftName (fun _ => id) h
  | serviceKeyword ds direction => exact shifts_of_shiftName (fun _ => id) h
  | serviceName ds direction name => exact shifts_of_shiftPunct h
  | request r => exact shifts_of_shiftRequest h
  | requestEnd r => exact shifts_of_shiftRequestEnd h
  | response r ty => exact shifts_of_shiftPunct h

/-- A place takes whatever it asks for instead of the end of the text. -/
theorem shifts_of_finish {p : Place} {e : Expected} (h : p.finish = .error e) : Shifts p.shift e := by
  -- Most places have the same words for the end of the text as for a semicolon.
  have refused (l : Lexeme) (hl : p.shift l = .error e) : Shifts p.shift e := shifts_of_error hl
  cases p with
  | site s =>
    cases s with
    | document ds => cases h
    | message outer name members =>
      cases h
      intro l hl
      obtain rfl : l = .punct .rightBrace := hl
      exact ⟨_, rfl⟩
  | enumBody x =>
    cases h
    exact shifts_enumerationValue x
  | requestEnd r =>
    cases h
    exact refused (.punct .dot) rfl
  | response r ty =>
    cases h
    exact refused (.punct .dot) rfl
  | _ =>
    cases h
    exact refused (.punct .semicolon) rfl

end Place

/-- In a path all is taken that the place behind it takes. -/
theorem State.exists_shift_of_settle {s : State} {l : Lexeme} {t : State} (h : s.settle.shift l = .ok t) :
    ∃ u, s.shift l = .ok u := by
  unfold State.shift
  split
  · exact ⟨_, rfl⟩
  · split
    · exact ⟨_, rfl⟩
    · exact ⟨t, h⟩
  · exact ⟨t, h⟩

/-- A path that may go on errs where its end would. -/
theorem State.settle_shift_of_error {s : State} {l : Lexeme} {e : Expected} (h : s.shift l = .error e) :
    s.settle.shift l = .error e := by
  unfold State.shift at h
  split at h
  · cases h
  · split at h
    · cases h
    · exact h
  · exact h

/-! ## Truthful errors -/

namespace Document

/-- What a state's place takes goes on with what was read to it. -/
theorem viable_of_shifts {ls : List Lexeme} {u : State} {e : Expected} (hls : ∀ l ∈ ls, l.HasNumber)
    (hu : State.start.Reads ls u) (h : Shifts u.settle.shift e) : ∀ l, l.Fits e.text → Viable (ls ++ [l]) := by
  intro l hl
  obtain ⟨t, ht⟩ := h l (Lexeme.fits_text_iff.1 hl)
  obtain ⟨v, hv⟩ := State.exists_shift_of_settle ht
  have numbers : ∀ k ∈ ls ++ [l], k.HasNumber :=
    List.forall_mem_append.2 ⟨hls, List.forall_mem_singleton.2 hl.hasNumber⟩
  exact (viable_iff_reads numbers).2 ⟨v, State.Reads.snoc_iff.2 ⟨u, hu, hv⟩⟩

/-- The text of a parse error tells the truth: whatever it names, and it names something,
    would have gone on with the tokens before the one that was found, or before the end of
    the text, to a document. -/
theorem expected_viable {source : String} {e : ParseError} (h : parse source = .error (.parse e)) :
    (∃ l : Lexeme, l.Fits e.expected.text) ∧
    ((∃ before t after, (Scan.ofString source).tokens = before ++ t :: after ∧ e.found = .token t ∧
        ∀ l : Lexeme, l.Fits e.expected.text → Viable (before.map Token.lexeme ++ [l])) ∨
      (∃ ts p, tokenize source = .ok ts ∧ e.found = .endOfInput p ∧
        ∀ l : Lexeme, l.Fits e.expected.text → Viable (ts.map Token.lexeme ++ [l]))) := by
  obtain ⟨expected, found⟩ := e
  refine ⟨?_, ?_⟩
  · obtain ⟨l, hl⟩ := expected.exists_admits
    exact ⟨l, Lexeme.fits_text_iff.2 hl⟩
  · cases parse_eq_parse_iff.1 h with
    | @token t u _ before after hts hu he =>
      left
      have read : before ⊆ (Scan.ofString source).tokens := hts ▸ List.subset_append_left before (t :: after)
      have numbers := hasNumber_of_tokens read
      have shifts := Place.shifts_of_error (State.settle_shift_of_error he)
      exact ⟨before, t, after, hts, rfl, viable_of_shifts numbers hu shifts⟩
    | @endOfInput p u _ hp hu he =>
      right
      have numbers := hasNumber_of_tokens (List.Subset.refl (Scan.ofString source).tokens)
      refine ⟨_, p, ?_, rfl, viable_of_shifts numbers hu (Place.shifts_of_finish he)⟩
      rw [tokenize, Scan.complete, hp]

/-- A number where a type may stand, inside a `map`. -/
theorem expected_viable_map :
    parse "message M { map<string, 1> x }" =
        .error (.parse ⟨.type, .token ⟨.integer "1", ⟨24, 1, 25⟩⟩⟩) ∧
      ((∃ before t after, (Scan.ofString "message M { map<string, 1> x }").tokens = before ++ t :: after ∧
          Found.token ⟨.integer "1", ⟨24, 1, 25⟩⟩ = .token t ∧
          ∀ l : Lexeme, l.Fits "type" → Viable (before.map Token.lexeme ++ [l])) ∨
        (∃ ts p, tokenize "message M { map<string, 1> x }" = .ok ts ∧
          Found.token ⟨.integer "1", ⟨24, 1, 25⟩⟩ = .endOfInput p ∧
          ∀ l : Lexeme, l.Fits "type" → Viable (ts.map Token.lexeme ++ [l]))) := by
  have h : parse "message M { map<string, 1> x }" =
      .error (.parse ⟨.type, .token ⟨.integer "1", ⟨24, 1, 25⟩⟩⟩) := by decide +kernel
  exact ⟨h, (expected_viable h).2⟩

end Document

end ServLang

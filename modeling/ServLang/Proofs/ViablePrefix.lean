/-
  ServLang.Proofs.ViablePrefix — the parser stops at the first item of a text with which
  no document goes on. Lexemes are viable if some more of them make a spelling of a
  document; every state can be closed into a document by a few more tokens
  (`Place.Closable`), so exactly the viable lexemes are read without an error.

  Proved:
  - `Place.closable`: from every place, some tokens lead to the end of a document.
  - `Document.viable_iff_reads`: lexemes are viable exactly if they are read.
  - `Document.parse_error_earliest`: what each kind of error says about the items
    before it, and about the item it stands at.
-/

import ServLang.Proofs.Acceptance

namespace ServLang

/-! ## Closing what is open -/

namespace Place

def Closable (p : Place) : Prop := ∃ ls ds, (∀ l ∈ ls, l.HasNumber) ∧ Leads p ls (.site (.document ds))

namespace Closable

theorem done (ds : List Definition) : (site (.document ds)).Closable := ⟨[], ds, nofun, .refl _⟩

theorem step {p q : Place} (h : q.Closable) (l : Lexeme) (hn : l.HasNumber) (hl : l.continuesPath = false)
    (hp : p.shift l = .ok (.place q)) : p.Closable := by
  obtain ⟨ls, ds, hls, hq⟩ := h
  exact ⟨l :: ls, ds, List.forall_mem_cons.2 ⟨hn, hls⟩, .step hl hp hq⟩

end Closable

/-- A body is closed by its brace, and then the site around it. What is finished at a
    site does not matter. -/
theorem closable_site (s : Site) : (site s).Closable ∧ ∀ name members, (site (s.addMessage name members)).Closable := by
  induction s with
  | document ds => exact ⟨.done ds, fun name members => .done _⟩
  | message outer name members ih =>
    -- The brace makes the message a part of the site around, so that site is not the one of `ih.1`.
    have body (ms : List Member) : (site (.message outer name ms)).Closable :=
      (ih.2 name ms).step (.punct .rightBrace) trivial rfl rfl
    exact ⟨body members, fun _ _ => body _⟩

theorem closable_finish (s : OpenService) (response : Option Ty) : (site (s.finish response)).Closable :=
  (closable_site _).1

theorem closable_reach (g : Goal) (ty : Ty) : (g.reach ty).Closable := by
  induction g generalizing ty with
  | field b modifier => exact (closable_site (b.add (.field ⟨modifier, ty, "x"⟩)).site).1.step (.identifier "x") trivial rfl rfl
  | request s =>
    have requestEnd : (requestEnd { s with request := s.request ++ [ty] }).Closable :=
      (closable_finish _ none).step (.punct .semicolon) trivial rfl rfl
    exact requestEnd.step (.punct .rightParen) trivial rfl rfl
  | response s => exact (closable_finish s (some ty)).step (.punct .semicolon) trivial rfl rfl
  | mapValue outer key ih => exact (ih (.map key ty)).step (.punct .greater) trivial rfl rfl
  | mapKey outer ih =>
    have value : (goal (.mapValue outer ty)).Closable := by
      have close : (mapValue outer ty (.scalar .bool)).Closable :=
        (ih (.map ty (.scalar .bool))).step (.punct .greater) trivial rfl rfl
      exact close.step (.scalar .bool) trivial rfl rfl
    exact value.step (.punct .comma) trivial rfl rfl

theorem closable_goal (g : Goal) : (goal g).Closable := (closable_reach g (.scalar .bool)).step (.scalar .bool) trivial rfl rfl

theorem closable_enumBody (e : OpenEnumeration) : (enumBody e).Closable :=
  (closable_site e.finish).1.step (.punct .rightBrace) trivial rfl rfl

theorem closable_enumEquals (e : OpenEnumeration) (key : String) : (enumEquals e key).Closable :=
  (closable_enumBody { e with values := e.values ++ [⟨key, 0⟩] }).step (.integer "0") ⟨0, .plain nofun rfl⟩ rfl rfl

theorem closable_messageName (s : Site) (name : String) : (messageName s name).Closable :=
  (closable_site (.message s name [])).1.step (.punct .leftBrace) trivial rfl rfl

theorem closable_enumName (b : Body) (name : String) : (enumName b name).Closable :=
  (closable_enumBody ⟨b, name, []⟩).step (.punct .leftBrace) trivial rfl rfl

theorem closable_requestEnd (s : OpenService) : (requestEnd s).Closable :=
  (closable_finish s none).step (.punct .semicolon) trivial rfl rfl

theorem closable_request (s : OpenService) : (request s).Closable :=
  (closable_requestEnd s).step (.punct .rightParen) trivial rfl rfl

theorem closable_serviceName (ds : List Definition) (direction : Direction) (name : String) :
    (serviceName ds direction name).Closable :=
  (closable_request ⟨ds, direction, name, []⟩).step (.punct .leftParen) trivial rfl rfl

theorem closable_pathDot (g : Goal) (path : String) : (pathDot g path).Closable := by
  have name : Leads (pathDot g path) [.identifier "x"] (g.reach (.reference (Path.join path "x"))) :=
    .of_reads (t := .path g (Path.join path "x")) rfl (.single rfl)
  obtain ⟨ls, ds, hls, h⟩ := closable_reach g (.reference (Path.join path "x"))
  exact ⟨.identifier "x" :: ls, ds, List.forall_mem_cons.2 ⟨trivial, hls⟩, name.trans h⟩

/-- Every place can be left for the end of a document. -/
theorem closable (p : Place) : p.Closable := by
  cases p with
  | site s => exact (closable_site s).1
  | messageKeyword s => exact (closable_messageName s "x").step (.identifier "x") trivial rfl rfl
  | messageName s name => exact closable_messageName s name
  | enumKeyword b => exact (closable_enumName b "x").step (.identifier "x") trivial rfl rfl
  | enumName b name => exact closable_enumName b name
  | enumBody e => exact closable_enumBody e
  | enumKey e key => exact (closable_enumEquals e key).step (.punct .equals) trivial rfl rfl
  | enumEquals e key => exact closable_enumEquals e key
  | goal g => exact closable_goal g
  | pathDot g path => exact closable_pathDot g path
  | mapKey g key => exact closable_reach (.mapKey g) key
  | mapValue g key value => exact closable_reach (.mapValue g key) value
  | fieldType b modifier ty => exact closable_reach (.field b modifier) ty
  | serviceKeyword ds direction => exact (closable_serviceName ds direction "x").step (.identifier "x") trivial rfl rfl
  | serviceName ds direction name => exact closable_serviceName ds direction name
  | request s => exact closable_request s
  | requestEnd s => exact closable_requestEnd s
  | response s ty => exact closable_reach (.response s) ty

end Place

/-! ## Viable lexemes -/

namespace Document

/-- The lexemes start a spelling of some document. -/
def Viable (ls : List Lexeme) : Prop := ∃ rest, ∃ d : Document, d.Spelling (ls ++ rest)

theorem Viable.reads {ls : List Lexeme} (h : Viable ls) : ∃ t, State.start.Reads ls t := by
  obtain ⟨rest, d, hd⟩ := h
  obtain ⟨u, hu, -⟩ := hd.reads
  obtain ⟨t, ht, -⟩ := State.Reads.append_iff.1 hu
  exact ⟨t, ht⟩

/-- Lexemes start a document if the states take them. -/
theorem viable_iff_reads {ls : List Lexeme} (hls : ∀ l ∈ ls, l.HasNumber) :
    Viable ls ↔ ∃ t, State.start.Reads ls t := by
  refine ⟨Viable.reads, ?_⟩
  intro ⟨t, ht⟩
  obtain ⟨rest, ds, hrest, hleads⟩ := Place.closable t.settle
  obtain ⟨u, hu, hd⟩ := hleads t rfl
  have numbers : ∀ l ∈ ls ++ rest, l.HasNumber := List.forall_mem_append.2 ⟨hls, hrest⟩
  exact ⟨rest, ⟨ds⟩, (spelling_iff_reads numbers).2 ⟨u, ht.append hu, State.finish_eq_ok_iff.2 hd⟩⟩

/-- A lexeme that does not fit after a run makes it one that no document goes on. -/
theorem not_viable_snoc {ls : List Lexeme} {l : Lexeme} {t : State} {expected : Expected}
    (ht : State.start.Reads ls t) (hl : t.shift l = .error expected) : ¬ Viable (ls ++ [l]) := by
  intro h
  obtain ⟨u, hu⟩ := h.reads
  obtain ⟨t', ht', hl'⟩ := State.Reads.snoc_iff.1 hu
  rw [ht'.unique ht, hl] at hl'
  cases hl'

theorem not_spelling_of_finish {ls : List Lexeme} {t : State} {expected : Expected} (ht : State.start.Reads ls t)
    (he : t.finish = .error expected) (d : Document) : ¬ d.Spelling ls := by
  intro h
  obtain ⟨u, hu, hd⟩ := h.reads
  rw [hu.unique ht, he] at hd
  cases hd

/-! ## The earliest error -/

theorem hasNumber_of_tokens {source : String} {ts : List Token} (h : ts ⊆ (Scan.ofString source).tokens) :
    ∀ l ∈ ts.map Token.lexeme, l.HasNumber :=
  List.forall_mem_map.2 fun _ ht => Scan.hasNumber (h ht)

/-- A lex error is reported if nothing before it is wrong. -/
theorem parse_eq_lex_iff {source : String} {e : LexError} :
    parse source = .error (.lex e) ↔
      tokenize source = .error e ∧ Viable ((Scan.ofString source).tokens.map Token.lexeme) := by
  rw [parse, ofScan, State.run_eq_lex_iff, tokenize_eq_error_iff,
    viable_iff_reads (hasNumber_of_tokens (List.Subset.refl _))]

theorem parse_eq_parse_iff {source : String} {e : ParseError} :
    parse source = .error (.parse e) ↔
      State.start.Stops (Scan.ofString source).tokens (Scan.ofString source).ending e.expected e.found :=
  State.run_eq_parse_iff

/-- The parser reports the earliest error, and never hides an error of the lexer. A lex
    error is reported exactly if it is the lexer's own and all tokens before it start a
    document. A grammar error stands at the first token with which the tokens so far no
    longer start a document, or else at the end of a text that is all tokens and only
    starts one. -/
theorem parse_error_earliest (source : String) :
    (∀ e, parse source = .error (.lex e) ↔
      tokenize source = .error e ∧ Viable ((Scan.ofString source).tokens.map Token.lexeme)) ∧
    (∀ e, parse source = .error (.parse e) →
      (∃ before t after, (Scan.ofString source).tokens = before ++ t :: after ∧
        Viable (before.map Token.lexeme) ∧ ¬ Viable ((before ++ [t]).map Token.lexeme) ∧
        e.found.position = t.position ∧ e.found.text = t.lexeme.description) ∨
      (∃ ts, tokenize source = .ok ts ∧
        Viable (ts.map Token.lexeme) ∧ (∀ d : Document, ¬ d.Spelling (ts.map Token.lexeme)) ∧
        e.found.position = Position.start.advance source.toList ∧ e.found.text = "end of input")) := by
  refine ⟨fun e => parse_eq_lex_iff, fun e h => ?_⟩
  obtain ⟨expected, found⟩ := e
  cases parse_eq_parse_iff.1 h with
  | @token t u _ before after hts hu he =>
    left
    have read : before ⊆ (Scan.ofString source).tokens := hts ▸ List.subset_append_left before (t :: after)
    have numbers := hasNumber_of_tokens read
    refine ⟨before, t, after, hts, (viable_iff_reads numbers).2 ⟨u, hu⟩, ?_, rfl, rfl⟩
    rw [List.map_append]
    exact not_viable_snoc hu he
  | @endOfInput p u _ hp hu he =>
    right
    have hscan : Scan.ofString source = ⟨(Scan.ofString source).tokens, .finished p⟩ := by rw [← hp]
    have reading := Lexer.reading_of_scan hscan
    obtain ⟨ts, hts, hls⟩ := exists_tokenize_iff_reading.2 reading
    have viable := (viable_iff_reads reading.hasNumber).2 ⟨u, hu⟩
    rw [← hls] at hu viable
    refine ⟨ts, hts, viable, not_spelling_of_finish hu he, ?_, rfl⟩
    rw [tokenize_eq_ok_iff.1 hts] at hp
    exact (Ending.finished.inj hp).symm

/-- Two types in a `map` with nothing between them. -/
theorem parse_error_earliest_map :
    parse "message M { map<a b> c }" =
        .error (.parse ⟨.punct .comma, .token ⟨.identifier "b", ⟨18, 1, 19⟩⟩⟩) ∧
      ((∃ before t after, (Scan.ofString "message M { map<a b> c }").tokens = before ++ t :: after ∧
        Viable (before.map Token.lexeme) ∧ ¬ Viable ((before ++ [t]).map Token.lexeme) ∧
        ⟨18, 1, 19⟩ = t.position ∧ "identifier `b`" = t.lexeme.description) ∨
      (∃ ts, tokenize "message M { map<a b> c }" = .ok ts ∧
        Viable (ts.map Token.lexeme) ∧ (∀ d : Document, ¬ d.Spelling (ts.map Token.lexeme)) ∧
        ⟨18, 1, 19⟩ = Position.start.advance "message M { map<a b> c }".toList ∧
        "identifier `b`" = "end of input")) := by
  have h : parse "message M { map<a b> c }" =
      .error (.parse ⟨.punct .comma, .token ⟨.identifier "b", ⟨18, 1, 19⟩⟩⟩) := by decide +kernel
  exact ⟨h, (parse_error_earliest _).2 _ h⟩

end Document

end ServLang

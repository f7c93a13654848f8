/-
  ServLang.Proofs.Concatenation — sources one after the other. A text that parses can go
  on with any text that does not start with a semicolon, and no blank is needed between
  them: what is parsed of the first stays, and the second is parsed as if it stood alone,
  only that its definitions and the places of its errors come after those of the first.

  Three things make it so. The last lexeme of a document is a sign, so no lexeme goes on
  across the seam. Positions move with the text in front of them, the column only on the
  first line, so the second text has the same stream with its places moved. And behind
  the first text the parser is where it was at the start, with definitions in front;
  only a semicolon tells such a state from the start.

  Proved:
  - `Position.translate_advance`: moving a place and reading on from it commute.
  - `Lexer.scan_append`, `scan_translate`: the stream of two texts, and of a moved one.
  - `State.shift_prepend`, `run_prepend`: definitions in front change nothing else.
  - `Document.parse_append`: what two texts are parsed to.
-/

import ServLang.Proofs.Acceptance
import ServLang.Proofs.Positions

namespace ServLang

/-! ## Places behind another text -/

namespace Position

/-- A place in a text, if another text is put in front. Only the first line of the text
    goes on with a line of the other. -/
def translate (front : String) (p : Position) : Position where
  offset := front.utf8ByteSize + p.offset
  line := front.toList.count '\n' + p.line
  column := if p.line = 1 then (front.toList.reverse.takeWhile (· ≠ '\n')).length + p.column else p.column

theorem translate_start (front : String) : start.translate front = behind front.toList := by
  rw [behind, String.ofList_toList, Nat.add_comm 1, Nat.add_comm 1]
  rfl

theorem line_pos_step {p : Position} (hp : 0 < p.line) (c : Char) : 0 < (p.step c).line := by
  unfold step
  split
  · exact Nat.succ_pos _
  · exact hp

theorem line_pos_advance {p : Position} (hp : 0 < p.line) (text : List Char) : 0 < (p.advance text).line := by
  induction text generalizing p with
  | nil => exact hp
  | cons c text ih => exact ih (line_pos_step hp c)

/-- A line feed leaves the first line for good, as lines count from 1. -/
theorem translate_step (front : String) {p : Position} (hp : 0 < p.line) (c : Char) :
    (p.step c).translate front = (p.translate front).step c := by
  unfold step
  split
  · have later : p.line + 1 ≠ 1 := by omega
    rw [translate, if_neg later, translate, ← Nat.add_assoc, ← Nat.add_assoc]
  · unfold translate
    split <;> simp only [Nat.add_assoc]

theorem translate_advance (front : String) {p : Position} (hp : 0 < p.line) (text : List Char) :
    (p.advance text).translate front = (p.translate front).advance text := by
  induction text generalizing p with
  | nil => rfl
  | cons c text ih => rw [advance_cons, ih (line_pos_step hp c), translate_step front hp, advance_cons]

end Position

/-! ## Tokens, streams and errors with their places moved -/

def Token.move (f : Position → Position) (t : Token) : Token := { t with position := f t.position }

def LexError.move (f : Position → Position) (e : LexError) : LexError := { e with position := f e.position }

def Ending.move (f : Position → Position) : Ending → Ending
  | finished p => finished (f p)
  | failed e => failed (e.move f)

def Scan.move (f : Position → Position) (s : Scan) : Scan := ⟨s.tokens.map (Token.move f), s.ending.move f⟩

def Found.move (f : Position → Position) : Found → Found
  | token t => token (t.move f)
  | endOfInput p => endOfInput (f p)

def ParseError.move (f : Position → Position) (e : ParseError) : ParseError := { e with found := e.found.move f }

def SourceError.move (f : Position → Position) : SourceError → SourceError
  | lex e => lex (e.move f)
  | parse e => parse (e.move f)

/-- The parser reads lexemes; it only hands places on. -/
theorem State.run_move (f : Position → Position) (s : State) (ts : List Token) (ending : Ending) :
    s.run (ts.map (Token.move f)) (ending.move f) = (s.run ts ending).mapError (SourceError.move f) := by
  induction ts generalizing s with
  | nil =>
    cases ending with
    | failed e => rfl
    | finished p =>
      rw [List.map_nil, Ending.move, run, run]
      cases s.finish <;> rfl
  | cons t ts ih =>
    have lexeme : (t.move f).lexeme = t.lexeme := rfl
    rw [List.map_cons, run, run, lexeme]
    cases s.shift t.lexeme with
    | ok s' => exact ih s'
    | error expected => rfl

/-- A scan does not depend on where it starts, but for the places of its tokens. -/
theorem Lexer.scan_translate (front : String) (cs : List Char) {p : Position} (hp : 0 < p.line) :
    (Lexer.mk cs (p.translate front) false).scan = (Lexer.mk cs p false).scan.move (.translate front) := by
  induction cs using text_induction generalizing p with
  | nil =>
    rw [scan_nil, scan_nil]
    rfl
  | blank c cs hc ih =>
    rw [scan_blank _ hc, scan_blank _ hc, ← Position.translate_step front hp, ih (Position.line_pos_step hp c)]
  | lexeme cs l rest hm ih =>
    rw [scan_lexeme _ hm, scan_lexeme _ hm, ← Position.translate_advance front hp, ih (Position.line_pos_advance hp _)]
    rfl
  | stuck c cs hc hm =>
    rw [scan_stuck _ hc hm, scan_stuck _ hc hm]
    rfl

/-! ## The seam -/

def EndsInSign (ls : List Lexeme) : Prop := ∀ l ∈ ls.getLast?, ∃ p, l = .punct p

namespace EndsInSign

variable {ls ks : List Lexeme}

theorem nil : EndsInSign [] := nofun

theorem snoc (ls : List Lexeme) (p : Punct) : EndsInSign (ls ++ [.punct p]) := by
  intro l hl
  rw [List.getLast?_concat] at hl
  cases hl
  exact ⟨p, rfl⟩

theorem append (h : EndsInSign ls) (h' : EndsInSign ks) : EndsInSign (ls ++ ks) := by
  intro l hl
  rw [List.getLast?_append, Option.mem_def, Option.or_eq_some_iff] at hl
  rcases hl with hl | ⟨-, hl⟩
  · exact h' l hl
  · exact h l hl

theorem times (p : Punct) (n : Nat) : EndsInSign (p.times n) := by
  intro l hl
  exact ⟨p, List.eq_of_mem_replicate (List.mem_of_getLast? hl)⟩

theorem tail {l : Lexeme} (h : EndsInSign (l :: ls)) : EndsInSign ls := by
  cases ls with
  | nil => exact nil
  | cons k ls =>
    intro l hl
    exact h l (by rwa [List.getLast?_cons_cons])

end EndsInSign

theorem Separated.endsInSign {α : Type} {separator : Punct} {spells : α → List Lexeme → Prop} {xs : List α}
    {ts : List Lexeme} (h : Separated separator spells xs ts) (item : ∀ x us, spells x us → EndsInSign us) :
    EndsInSign ts := by
  induction h with
  | nil => exact .nil
  | cons n hx _ ih => exact ((item _ _ hx).append (.times separator n)).append ih

theorem Definition.Spelling.endsInSign {d : Definition} {ts : List Lexeme} (h : d.Spelling ts) : EndsInSign ts := by
  cases h with
  | message hm =>
    cases hm with
    | message => exact .snoc _ _
  | service => exact .snoc _ _

/-- A document ends with a sign, so its last token does not run on into the next text. -/
theorem Document.Spelling.endsInSign {d : Document} {ts : List Lexeme} (h : d.Spelling ts) : EndsInSign ts :=
  Separated.endsInSign h fun _ _ hd => hd.endsInSign

/-- More text leaves a lexeme as it is if there was text behind it before, or if it is a sign. -/
theorem Lexeme.EndsBefore.append {l : Lexeme} {cs : List Char} (h : l.EndsBefore cs)
    (hl : cs = [] → ∃ p, l = .punct p) (more : List Char) : l.EndsBefore (cs ++ more) := by
  cases cs with
  | nil =>
    obtain ⟨p, rfl⟩ := hl rfl
    trivial
  | cons c cs =>
    cases l with
    | punct p => trivial
    | _ => exact EndsRun.cons (h c rfl)

/-- More text behind it changes a lexeme only at the end of a text, and never a sign. -/
theorem Lexeme.munch?_append {l : Lexeme} {cs rest : List Char} (h : munch? cs = some (l, rest))
    (hl : rest = [] → ∃ p, l = .punct p) (more : List Char) : munch? (cs ++ more) = some (l, rest ++ more) := by
  obtain ⟨rfl, hclass, hends⟩ := munch?_eq_some_iff.1 h
  exact munch?_eq_some_iff.2 ⟨List.append_assoc _ _ _, hclass, hends.append hl more⟩

/-- Behind a text whose last lexeme is a sign, the stream goes on as if the next text
    started there. -/
theorem Lexer.scan_append {cs : List Char} {ls : List Lexeme} (h : Reading cs ls) (hls : EndsInSign ls)
    (more : List Char) (p : Position) :
    ∃ ts, ts.map Token.lexeme = ls ∧
      (Lexer.mk (cs ++ more) p false).scan =
        ⟨ts ++ (Lexer.mk more (p.advance cs) false).scan.tokens, (Lexer.mk more (p.advance cs) false).scan.ending⟩ := by
  induction h generalizing p with
  | nil => exact ⟨[], rfl, rfl⟩
  | @blank c cs ls hc _ ih =>
    obtain ⟨ts, hts, hscan⟩ := ih hls (p.step c)
    exact ⟨ts, hts, by rw [List.cons_append, scan_blank p hc, hscan, Position.advance_cons]⟩
  | @lexeme cs rest l ls hm hrest ih =>
    -- Only the last lexeme touches the seam.
    have last : rest = [] → ∃ p, l = .punct p := by
      rintro rfl
      cases hrest with
      | nil => exact hls l rfl
      | lexeme hm => cases hm
    obtain ⟨ts, hts, hscan⟩ := ih hls.tail (p.advance l.text.toList)
    refine ⟨⟨l, p⟩ :: ts, by rw [List.map_cons, hts], ?_⟩
    rw [scan_lexeme p (Lexeme.munch?_append hm last more), hscan, (Lexeme.munch?_eq_some hm).1, Position.advance_append]
    rfl

/-! ## Definitions in front -/

def Document.prepend (ds : List Definition) (d : Document) : Document := ⟨ds ++ d.definitions⟩

def Site.prepend (ds : List Definition) : Site → Site
  | document definitions => document (ds ++ definitions)
  | message outer name members => message (outer.prepend ds) name members

def Body.prepend (ds : List Definition) (b : Body) : Body := { b with outer := b.outer.prepend ds }

def OpenService.prepend (ds : List Definition) (s : OpenService) : OpenService :=
  { s with definitions := ds ++ s.definitions }

def OpenEnumeration.prepend (ds : List Definition) (e : OpenEnumeration) : OpenEnumeration :=
  { e with body := e.body.prepend ds }

def Goal.prepend (ds : List Definition) : Goal → Goal
  | field b modifier => field (b.prepend ds) modifier
  | request s => request (s.prepend ds)
  | response s => response (s.prepend ds)
  | mapKey outer => mapKey (outer.prepend ds)
  | mapValue outer key => mapValue (outer.prepend ds) key

def Place.prepend (ds : List Definition) : Place → Place
  | site s => site (s.prepend ds)
  | messageKeyword s => messageKeyword (s.prepend ds)
  | messageName s name => messageName (s.prepend ds) name
  | enumKeyword b => enumKeyword (b.prepend ds)
  | enumName b name => enumName (b.prepend ds) name
  | enumBody e => enumBody (e.prepend ds)
  | enumKey e key => enumKey (e.prepend ds) key
  | enumEquals e key => enumEquals (e.prepend ds) key
  | goal g => goal (g.prepend ds)
  | pathDot g path => pathDot (g.prepend ds) path
  | mapKey g key => mapKey (g.prepend ds) key
  | mapValue g key value => mapValue (g.prepend ds) key value
  | fieldType b modifier ty => fieldType (b.prepend ds) modifier ty
  | serviceKeyword definitions direction => serviceKeyword (ds ++ definitions) direction
  | serviceName definitions direction name => serviceName (ds ++ definitions) direction name
  | request s => request (s.prepend ds)
  | requestEnd s => requestEnd (s.prepend ds)
  | response s ty => response (s.prepend ds) ty

def State.prepend (ds : List Definition) : State → State
  | place p => place (p.prepend ds)
  | path g p => path (g.prepend ds) p

section Prepend

variable (ds : List Definition)

theorem Site.addMessage_prepend (s : Site) (name : String) (members : List Member) :
    (s.prepend ds).addMessage name members = (s.addMessage name members).prepend ds := by
  cases s with
  | document definitions => simp only [prepend, addMessage, List.append_assoc]
  | message outer enclosing earlier => rfl

theorem OpenService.finish_prepend (s : OpenService) (response : Option Ty) :
    (s.prepend ds).finish response = (s.finish response).prepend ds := by
  simp only [finish, prepend, Site.prepend, List.append_assoc]

theorem Goal.reach_prepend (g : Goal) (ty : Ty) : (g.prepend ds).reach ty = (g.reach ty).prepend ds := by
  cases g <;> rfl

theorem Goal.shift_prepend (g : Goal) (l : Lexeme) :
    (g.prepend ds).shift l = (g.shift l).map (State.prepend ds) := by
  cases l with
  | scalar s =>
    rw [shift, reach_prepend]
    rfl
  | _ => rfl

namespace Place

theorem shiftPunct_prepend (p : Punct) (next : Place) (l : Lexeme) :
    shiftPunct p (next.prepend ds) l = (shiftPunct p next l).map (State.prepend ds) := by
  unfold shiftPunct
  split <;> rfl

theorem shiftName_prepend (expected : Expected) (next : String → State) (l : Lexeme) :
    shiftName expected (fun name => (next name).prepend ds) l = (shiftName expected next l).map (State.prepend ds) := by
  cases l <;> rfl

/-- A semicolon at the top level asks whether there is a definition before it. -/
theorem shiftDefinition_prepend {definitions : List Definition} {l : Lexeme}
    (h : definitions = [] → l ≠ .punct .semicolon) :
    shiftDefinition (ds ++ definitions) l = (shiftDefinition definitions l).map (State.prepend ds) := by
  cases l with
  | keyword k => cases k <;> rfl
  | punct p =>
    cases p with
    | semicolon =>
      cases definitions with
      | nil => exact absurd rfl (h rfl)
      | cons d definitions => cases ds <;> rfl
    | _ => rfl
  | _ => rfl

theorem shiftMember_prepend (b : Body) (l : Lexeme) :
    shiftMember (b.prepend ds) l = (shiftMember b l).map (State.prepend ds) := by
  cases l with
  | keyword k => cases k <;> rfl
  | punct p =>
    cases p with
    | rightBrace =>
      have close := b.outer.addMessage_prepend ds b.name b.members
      exact congrArg (fun s => Except.ok (State.place (site s))) close
    | semicolon =>
      obtain ⟨outer, name, members⟩ := b
      cases members <;> rfl
    | _ => rfl
  | _ => rfl

theorem shiftEnumValue_prepend (e : OpenEnumeration) (l : Lexeme) :
    shiftEnumValue (e.prepend ds) l = (shiftEnumValue e l).map (State.prepend ds) := by
  cases l with
  | punct p =>
    cases p with
    | semicolon =>
      obtain ⟨body, name, values⟩ := e
      cases values <;> rfl
    | _ => rfl
  | _ => rfl

theorem shiftInteger_prepend (e : OpenEnumeration) (key : String) (l : Lexeme) :
    shiftInteger (e.prepend ds) key l = (shiftInteger e key l).map (State.prepend ds) := by
  cases l with
  | integer literal =>
    dsimp only [shiftInteger]
    cases Decimal.int64? literal.toList <;> rfl
  | _ => rfl

theorem shiftRequest_prepend (s : OpenService) (l : Lexeme) :
    shiftRequest (s.prepend ds) l = (shiftRequest s l).map (State.prepend ds) := by
  cases l with
  | punct p =>
    cases p with
    | comma =>
      obtain ⟨definitions, direction, name, request⟩ := s
      cases request <;> rfl
    | _ => rfl
  | _ => rfl

theorem shiftRequestEnd_prepend (s : OpenService) (l : Lexeme) :
    shiftRequestEnd (s.prepend ds) l = (shiftRequestEnd s l).map (State.prepend ds) := by
  have close (l : Lexeme) : shiftPunct .semicolon (site ((s.prepend ds).finish none)) l =
      (shiftPunct .semicolon (site (s.finish none)) l).map (State.prepend ds) := by
    rw [s.finish_prepend]
    exact shiftPunct_prepend ds .semicolon (site (s.finish none)) l
  cases l with
  | punct p =>
    cases p with
    | colon => rfl
    | _ => exact close _
  | _ => exact close _

/-- One token leads on from a place as it does without the definitions in front. -/
theorem shift_prepend {p : Place} {l : Lexeme} (h : p = .site (.document []) → l ≠ .punct .semicolon) :
    (p.prepend ds).shift l = (p.shift l).map (State.prepend ds) := by
  cases p with
  | site s =>
    cases s with
    -- The only place that tells whether a definition stands before it.
    | document definitions => exact shiftDefinition_prepend ds fun he => h (by rw [he])
    | message outer name members => exact shiftMember_prepend ds ⟨outer, name, members⟩ l
  | messageKeyword s => exact shiftName_prepend ds .messageName (fun name => .place (messageName s name)) l
  | messageName s name => exact shiftPunct_prepend ds .leftBrace (site (.message s name [])) l
  | enumKeyword b => exact shiftName_prepend ds .enumerationName (fun name => .place (enumName b name)) l
  | enumName b name => exact shiftPunct_prepend ds .leftBrace (enumBody ⟨b, name, []⟩) l
  | enumBody e => exact shiftEnumValue_prepend ds e l
  | enumKey e key => exact shiftPunct_prepend ds .equals (enumEquals e key) l
  | enumEquals e key => exact shiftInteger_prepend ds e key l
  | goal g => exact g.shift_prepend ds l
  | pathDot g path => exact shiftName_prepend ds .pathPart (fun name => .path g (path ++ "." ++ name)) l
  | mapKey g key => exact shiftPunct_prepend ds .comma (goal (.mapValue g key)) l
  | mapValue g key value =>
    rw [prepend, shift, g.reach_prepend]
    exact shiftPunct_prepend ds .greater (g.reach (.map key value)) l
  | fieldType b modifier ty =>
    exact shiftName_prepend ds .fieldName (fun name => .place (site (b.add (.field ⟨modifier, ty, name⟩)).site)) l
  | serviceKeyword definitions direction =>
    exact shiftName_prepend ds .serviceName (fun name => .place (serviceName definitions direction name)) l
  | serviceName definitions direction name =>
    exact shiftPunct_prepend ds .leftParen (request ⟨definitions, direction, name, []⟩) l
  | request s => exact shiftRequest_prepend ds s l
  | requestEnd s => exact shiftRequestEnd_prepend ds s l
  | response s ty =>
    rw [prepend, shift, s.finish_prepend]
    exact shiftPunct_prepend ds .semicolon (site (s.finish (some ty))) l

theorem finish_prepend (p : Place) : (p.prepend ds).finish = p.finish.map (Document.prepend ds) := by
  cases p with
  | site s => cases s <;> rfl
  | _ => rfl

end Place

namespace State

theorem settle_prepend (s : State) : (s.prepend ds).settle = s.settle.prepend ds := by
  cases s with
  | place p => rfl
  | path g path => exact g.reach_prepend ds _

theorem shift_prepend {s : State} {l : Lexeme} (h : s = start → l ≠ .punct .semicolon) :
    (s.prepend ds).shift l = (s.shift l).map (State.prepend ds) := by
  cases s with
  | place p =>
    refine Place.shift_prepend ds fun hp => h ?_
    rw [hp, start]
  | path g path =>
    have settled : ((g.prepend ds).reach (.reference path)).shift l =
        ((g.reach (.reference path)).shift l).map (State.prepend ds) := by
      rw [g.reach_prepend]
      refine Place.shift_prepend ds fun hp => ?_
      -- No place behind a type is a site.
      cases g <;> cases hp
    cases l with
    | punct p =>
      cases p with
      | dot => rfl
      | less =>
        unfold shift
        dsimp only [prepend]
        split
        · rfl
        · exact settled
      | _ => exact settled
    | _ => exact settled

theorem finish_prepend (s : State) : (s.prepend ds).finish = s.finish.map (Document.prepend ds) := by
  rw [finish, finish, settle_prepend, Place.finish_prepend]

/-- Only where nothing has been read is the state the one at the start. -/
theorem Spelled.eq_nil {read : List Lexeme} (h : start.Spelled read) : read = [] := by
  cases h
  rfl

/-- Definitions in front show in the document only. Once a token has been read, no state is
    the start again, so only the first token must not be a semicolon. -/
theorem run_prepend {s : State} {read : List Lexeme} {ts : List Token} (ending : Ending) (hs : s.Spelled read)
    (hts : ∀ t ∈ ts, t.lexeme.HasNumber) (h : read = [] → ∀ t ∈ ts.head?, t.lexeme ≠ .punct .semicolon) :
    (s.prepend ds).run ts ending = (s.run ts ending).map (Document.prepend ds) := by
  induction ts generalizing s read with
  | nil =>
    cases ending with
    | failed e => rfl
    | finished p =>
      rw [run, run, finish_prepend]
      cases s.finish <;> rfl
  | cons t ts ih =>
    have fits : s = start → t.lexeme ≠ .punct .semicolon := by
      rintro rfl
      exact h (Spelled.eq_nil hs) t rfl
    obtain ⟨number, numbers⟩ := List.forall_mem_cons.1 hts
    rw [run, run, shift_prepend ds fits]
    cases hl : s.shift t.lexeme with
    | error expected => rfl
    | ok s' => exact ih (shift_spelled hs number hl) numbers (by simp)

end State

end Prepend

/-! ## Two sources -/

/-- Behind a whole document, the parser is where it started, with the definitions in front. -/
theorem State.eq_prepend_of_finish {s : State} {d : Document} (h : s.finish = .ok d) :
    s = start.prepend d.definitions := by
  have hs := finish_eq_ok_iff.1 h
  cases s with
  | place p =>
    have hp : p = .site (.document d.definitions) := hs
    rw [hp, start, prepend, Place.prepend, Site.prepend, List.append_nil]
  | path g path => cases g <;> cases hs

/-- Behind a text whose last lexeme is a sign, the stream of another text has the same
    lexemes and the same end, further on. -/
theorem Scan.ofString_append {a : String} {ls : List Lexeme} (h : Reading a.toList ls) (hls : EndsInSign ls)
    (b : String) :
    ∃ ts, ts.map Token.lexeme = ls ∧
      ofString (a ++ b) = ⟨ts ++ (ofString b).tokens.map (Token.move (.translate a)),
        (ofString b).ending.move (.translate a)⟩ := by
  obtain ⟨ts, hts, hscan⟩ := Lexer.scan_append h hls b.toList .start
  have second : (Lexer.mk b.toList (Position.start.advance a.toList) false).scan =
      (ofString b).move (.translate a) := by
    rw [Position.start_advance, ← Position.translate_start, Lexer.scan_translate a b.toList Nat.one_pos]
    rfl
  rw [second, ← String.toList_append] at hscan
  exact ⟨ts, hts, hscan⟩

namespace Document

variable {a b : String} {d : Document}

/-- The joined text is parsed as the second alone, moved and with the definitions in front.
    -/
theorem parse_append_eq (ha : parse a = .ok d)
    (hb : ∀ t ∈ (Scan.ofString b).tokens.head?, t.lexeme ≠ .punct .semicolon) :
    parse (a ++ b) = ((parse b).mapError (SourceError.move (.translate a))).map (prepend d.definitions) := by
  obtain ⟨ls, hls, hd⟩ := parse_eq_ok_iff.1 ha
  obtain ⟨ts, rfl, hscan⟩ := Scan.ofString_append hls hd.endsInSign b
  obtain ⟨t, ht, hfinish⟩ := hd.reads
  have start_spelled : State.start.Spelled [] := .nil
  have first : ∀ t ∈ ((Scan.ofString b).tokens.map (Token.move (.translate a))).head?, t.lexeme ≠ .punct .semicolon := by
    intro t ht
    rw [List.head?_map] at ht
    obtain ⟨u, hu, rfl⟩ := Option.map_eq_some_iff.1 ht
    exact hb u hu
  have numbers : ∀ t ∈ (Scan.ofString b).tokens.map (Token.move (.translate a)), t.lexeme.HasNumber :=
    List.forall_mem_map.2 fun t ht => show t.lexeme.HasNumber from Scan.hasNumber ht
  rw [parse, ofScan, hscan, ht.run_append, State.eq_prepend_of_finish hfinish,
    State.run_prepend _ _ start_spelled numbers fun _ => first, State.run_move]
  rfl

/-- Behind a source that parses, another one is parsed as it is alone, unless it starts
    with a semicolon: its definitions come after those of the first, and the place of its
    error is counted from the start of the first. -/
theorem parse_append (ha : parse a = .ok d)
    (hb : ∀ t, (Scan.ofString b).items.head? = some (.ok t) → t.lexeme ≠ .punct .semicolon) :
    (∀ d', parse b = .ok d' → parse (a ++ b) = .ok ⟨d.definitions ++ d'.definitions⟩) ∧
      ∀ e, parse b = .error e → parse (a ++ b) = .error (e.move (Position.translate a)) := by
  have whole : parse (a ++ b) = ((parse b).mapError (SourceError.move (.translate a))).map (prepend d.definitions) := by
    refine parse_append_eq ha fun t ht => hb t ?_
    rw [Scan.items, List.head?_append, List.head?_map, Option.mem_def.1 ht]
    rfl
  constructor
  · intro d' h
    rw [whole, h]
    rfl
  · intro e h
    rw [whole, h]
    rfl

/-- Another message right behind the brace of one, and a number in place of its name: on
    the same line, and on the next one. -/
theorem parse_append_seam :
    parse ("inbound f();\nmessage A {}" ++ "message B {}") =
        .ok ⟨[.service .inbound ⟨"f", [], none⟩, .message ⟨"A", []⟩] ++ [.message ⟨"B", []⟩]⟩ ∧
      parse ("inbound f();\nmessage A {}" ++ "message 7") =
        .error (.parse ⟨.messageName, .token ⟨.integer "7", ⟨33, 2, 21⟩⟩⟩) ∧
      parse ("inbound f();\nmessage A {}" ++ "message\n 7") =
        .error (.parse ⟨.messageName, .token ⟨.integer "7", ⟨34, 3, 2⟩⟩⟩) := by
  have first : parse "inbound f();\nmessage A {}" =
      .ok ⟨[.service .inbound ⟨"f", [], none⟩, .message ⟨"A", []⟩]⟩ := by decide +kernel
  have starts {b : String} (h : (Scan.ofString b).items.head? = some (.ok ⟨.keyword .message, .start⟩)) :
      ∀ t, (Scan.ofString b).items.head? = some (.ok t) → t.lexeme ≠ .punct .semicolon := by
    intro t ht
    rw [h] at ht
    cases ht
    decide
  have sameLine := (parse_append first (starts (b := "message 7") (by decide +kernel))).2
    (.parse ⟨.messageName, .token ⟨.integer "7", ⟨8, 1, 9⟩⟩⟩) (by decide +kernel)
  have nextLine := (parse_append first (starts (b := "message\n 7") (by decide +kernel))).2
    (.parse ⟨.messageName, .token ⟨.integer "7", ⟨9, 2, 2⟩⟩⟩) (by decide +kernel)
  refine ⟨?_, sameLine.trans (by decide +kernel), nextLine.trans (by decide +kernel)⟩
  exact (parse_append first (starts (by decide +kernel))).1 ⟨[.message ⟨"B", []⟩]⟩ (by decide +kernel)

/-- A semicolon at the front would belong to the last definition of the first source. -/
example : parse "message A {}" = .ok ⟨[.message ⟨"A", []⟩]⟩ ∧ parse ("message A {}" ++ ";") = .ok ⟨[.message ⟨"A", []⟩]⟩ ∧
    parse ";" = .error (.parse ⟨.definition, .token ⟨.punct .semicolon, ⟨0, 1, 1⟩⟩⟩) := by decide +kernel

end Document

end ServLang

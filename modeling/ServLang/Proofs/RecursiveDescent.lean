/-
  ServLang.Proofs.RecursiveDescent — the procedures find what the states find. Where a
  procedure may stand, and which place it leads to, is `Procedure.Spans`: a procedure reads
  one part of a document, from the state before it to the place behind it.

  Every answer is compared with the states, whether calls end or not: `Parse.Leads` asks of
  a step at a cursor that the states, run over what is left there, come to the same end as
  before the step.

  Proved:
  - `Leads.peek`, `accept`, `expect`, `refuse`, `call`: a rule for each step.
  - `Procedure.Spans.leads`: each procedure spans what it should.
  - `Document.parse_of_answers`: what the descent answers for a source is what
    `Document.parse` gives, the error included.
-/

import ServLang.Proofs.Procedures
import ServLang.Proofs.Progress

namespace ServLang

/-! ## The states at a cursor -/

namespace Cursor

variable {x y : Cursor} {s s' : State}

def run (x : Cursor) (s : State) : Except SourceError Document := s.run x.ahead x.ending

theorem Passed.run_nil (h : x.Passed [] y) (s : State) : y.run s = x.run s := by
  rw [Cursor.run, Cursor.run, h.ahead, h.ending]
  rfl

theorem Passed.run_single {t : Token} (h : x.Passed [t] y) (hs : s.shift t.lexeme = .ok s') :
    y.run s' = x.run s := by
  rw [Cursor.run, Cursor.run, h.ahead, h.ending, List.singleton_append, State.run, hs]

theorem run_of_failed {e : LexError} (ha : x.ahead = []) (he : x.ending = .failed e) : x.run s = .error (.lex e) := by
  rw [Cursor.run, ha, he]
  rfl

/-- Where the states take nothing of what comes next, they err as the procedure does. -/
theorem run_eq_refusal {expected : Expected} (token : ∀ l, x.sight = .lexeme l → s.shift l = .error expected)
    (atEnd : x.sight = .endOfText → s.finish = .error expected) : x.run s = .error (x.refusal expected) := by
  unfold run refusal
  unfold sight at token atEnd
  cases ahead : x.ahead with
  | cons t ts =>
    rw [ahead] at token
    rw [State.run, token _ rfl]
  | nil =>
    rw [ahead] at atEnd
    cases ending : x.ending with
    | finished p =>
      rw [ending] at atEnd
      rw [State.run, atEnd rfl]
    | failed e => rfl

theorem run_eq_ok {d : Document} (atEnd : x.sight = .endOfText) (h : s.finish = .ok d) : x.run s = .ok d := by
  unfold run
  unfold sight at atEnd
  cases ahead : x.ahead with
  | cons t ts =>
    rw [ahead] at atEnd
    cases atEnd
  | nil =>
    rw [ahead] at atEnd
    cases ending : x.ending with
    | finished p => rw [State.run, h]
    | failed e =>
      rw [ending] at atEnd
      cases atEnd

/-- States that take what comes next alike are alike. -/
theorem run_congr (token : ∀ l, x.sight = .lexeme l → s.shift l = s'.shift l)
    (atEnd : x.sight = .endOfText → s.finish = s'.finish) : x.run s = x.run s' := by
  unfold run
  unfold sight at token atEnd
  cases ahead : x.ahead with
  | cons t ts =>
    rw [ahead] at token
    rw [State.run, State.run, token _ rfl]
  | nil =>
    rw [ahead] at atEnd
    cases ending : x.ending with
    | finished p =>
      rw [ending] at atEnd
      rw [State.run, State.run, atEnd rfl]
    | failed e => rfl

end Cursor

/-! ## Where an item starts -/

namespace Place

theorem shiftDefinition_of_other {ds : List Definition} {l : Lexeme} (hmessage : l ≠ .keyword .message)
    (hinbound : l ≠ .keyword .inbound) (houtbound : l ≠ .keyword .outbound)
    (hsemicolon : ds = [] ∨ l ≠ .punct .semicolon) : shiftDefinition ds l = .error .definition := by
  unfold shiftDefinition
  split
  · exact absurd rfl hmessage
  · exact absurd rfl hinbound
  · exact absurd rfl houtbound
  · rcases hsemicolon with rfl | h
    · rfl
    · exact absurd rfl h
  · rfl

theorem shiftMember_of_type {b : Body} {l : Lexeme} (hbrace : l ≠ .punct .rightBrace)
    (hsemicolon : b.members = [] ∨ l ≠ .punct .semicolon) (henum : l ≠ .keyword .enumeration)
    (hmessage : l ≠ .keyword .message) (hmodifier : Parse.modifier? l = none) :
    shiftMember b l = (Goal.field b .plain).shift l := by
  unfold shiftMember
  split
  · exact absurd rfl hbrace
  · exact absurd rfl henum
  · exact absurd rfl hmessage
  · cases hmodifier
  · cases hmodifier
  · rcases hsemicolon with h | h
    · rw [h]
      rfl
    · exact absurd rfl h
  · rfl

theorem shiftEnumValue_of_name {e : OpenEnumeration} {l : Lexeme} (hbrace : l ≠ .punct .rightBrace)
    (hsemicolon : e.values = [] ∨ l ≠ .punct .semicolon) :
    shiftEnumValue e l = shiftName .enumerationValue (fun key => .place (.enumKey e key)) l := by
  unfold shiftEnumValue
  split
  · exact absurd rfl hbrace
  · rcases hsemicolon with h | h
    · rw [h]
      rfl
    · exact absurd rfl h
  · rfl

theorem shiftInteger_eq_map (e : OpenEnumeration) (key : String) (l : Lexeme) :
    shiftInteger e key l =
      (Parse.int64 l).map fun v => .place (.enumBody { e with values := e.values ++ [⟨key, v⟩] }) := by
  cases l with
  | integer literal =>
    unfold shiftInteger Parse.int64
    dsimp only
    cases Decimal.int64? literal.toList with
    | some value => rfl
    | none => rfl
  | _ => rfl

theorem shiftRequest_of_type {s : OpenService} {l : Lexeme} (hparen : l ≠ .punct .rightParen)
    (hcomma : s.request = [] ∨ l ≠ .punct .comma) : shiftRequest s l = (Goal.request s).shift l := by
  unfold shiftRequest
  split
  · exact absurd rfl hparen
  · rcases hcomma with h | h
    · rw [h]
      rfl
    · exact absurd rfl h
  · rfl

theorem shiftRequestEnd_of_semicolon {s : OpenService} {l : Lexeme} (hcolon : l ≠ .punct .colon) :
    shiftRequestEnd s l = shiftPunct .semicolon (site (s.finish none)) l := by
  unfold shiftRequestEnd
  split
  · exact absurd rfl hcolon
  · rfl

end Place

/-- A path ends before everything but the signs that it goes on with. -/
theorem State.shift_path_of_end {g : Goal} {path : String} {l : Lexeme} (hdot : l ≠ .punct .dot)
    (hless : path = "map" → l ≠ .punct .less) :
    (State.path g path).shift l = (State.place (g.reach (.reference path))).shift l := by
  unfold shift
  split
  · exact absurd rfl hdot
  · next hp =>
    cases hp
    split
    · next hmap => exact absurd rfl (hless hmap)
    · rfl
  · rfl

/-! ## What each procedure spans -/

namespace Procedure

/-- With `l` coming next, the procedure leads from the state to the place that its result
    tells. Behind an item its separators have been taken, before the first item there
    are none to take. -/
inductive Spans : (p : Procedure) → Sight → State → (p.Result → Place) → Prop
  | definitions {l : Sight} (ds : List Definition) : (ds = [] ∨ l ≠ .lexeme (.punct .semicolon)) →
      Spans .definitions l (.place (.site (.document ds))) fun more => .site (.document (ds ++ more))
  | definition {l : Sight} (ds : List Definition) : l ≠ .endOfText →
      (ds = [] ∨ l ≠ .lexeme (.punct .semicolon)) →
      Spans .definition l (.place (.site (.document ds))) fun d => .site (.document (ds ++ [d]))
  | message (s : Site) : Spans .message (.lexeme (.keyword .message)) (.place (.site s)) fun m =>
      .site (s.addMessage m.name m.members)
  | members {l : Sight} (b : Body) : (b.members = [] ∨ l ≠ .lexeme (.punct .semicolon)) →
      Spans .members l (.place (.site b.site)) fun more => .site (b.outer.addMessage b.name (b.members ++ more))
  | member {l : Sight} (b : Body) : l ≠ .lexeme (.punct .rightBrace) →
      (b.members = [] ∨ l ≠ .lexeme (.punct .semicolon)) →
      Spans .member l (.place (.site b.site)) fun m => .site (b.add m).site
  | field {l : Lexeme} (b : Body) : l ≠ .punct .rightBrace → (b.members = [] ∨ l ≠ .punct .semicolon) →
      l ≠ .keyword .enumeration → l ≠ .keyword .message →
      Spans .field (.lexeme l) (.place (.site b.site)) fun f => .site (b.add (.field f)).site
  | enumeration (b : Body) : Spans .enumeration (.lexeme (.keyword .enumeration)) (.place (.site b.site)) fun e =>
      .site (b.add (.enumeration e)).site
  | values {l : Sight} (e : OpenEnumeration) : (e.values = [] ∨ l ≠ .lexeme (.punct .semicolon)) →
      Spans .values l (.place (.enumBody e)) fun more => .site { e with values := e.values ++ more }.finish
  | value {l : Sight} (e : OpenEnumeration) : l ≠ .lexeme (.punct .rightBrace) →
      (e.values = [] ∨ l ≠ .lexeme (.punct .semicolon)) →
      Spans .value l (.place (.enumBody e)) fun v => .enumBody { e with values := e.values ++ [v] }
  | service (ds : List Definition) (d : Direction) :
      Spans (.service d) (.lexeme (.keyword d.keyword)) (.place (.site (.document ds))) fun s =>
        .site (.document (ds ++ [.service d s]))
  | requests {l : Sight} (s : OpenService) : (s.request = [] ∨ l ≠ .lexeme (.punct .comma)) →
      Spans .requests l (.place (.request s)) fun more => .requestEnd { s with request := s.request ++ more }
  | separators {l : Sight} {sign : Punct} (p : Place) : p.shift (.punct sign) = .ok (.place p) →
      Spans (.separators sign) l (.place p) fun _ => p
  | type {l : Sight} (g : Goal) : Spans .type l (.place (.goal g)) g.reach
  | map (g : Goal) : Spans .map (.lexeme (.punct .less)) (.path g "map") g.reach
  | path {l : Sight} (g : Goal) (first : String) : (first = "map" → l ≠ .lexeme (.punct .less)) →
      Spans .path l (.path g first) fun rest => g.reach (.reference (first ++ rest))

def Leaves : Procedure → Sight → Prop
  | definitions, l => l = .endOfText
  | separators sign, l => l ≠ .lexeme (.punct sign)
  | _, _ => True

/-- Where a procedure is done. -/
def Ends (p : Procedure) (t : p.Result → Place) (a : p.Result) (y : Cursor) (s : State) : Prop :=
  s = .place (t a) ∧ p.Leaves y.sight

end Procedure

/-! ## Steps at a cursor -/

/-- The result, and the state then, are as told; an error is the one that the states find. -/
def Cursor.Follows {α : Type} (x : Cursor) (s : State) (post : α → Cursor → State → Prop) :
    Except SourceError (α × Cursor) → Prop
  | .ok (a, y) => ∃ s', y.run s' = x.run s ∧ post a y s'
  | .error e => x.run s = .error e

/-- The answer to a call follows the states wherever the procedure may stand. -/
def Call.Follows (c : Call) (r : c.Answer) : Prop :=
  ∀ s t, c.procedure.Spans c.cursor.sight s t → c.cursor.Follows s (c.procedure.Ends t) r

namespace Parse

variable {α β : Type}

def Leads (m : Parse α) (x : Cursor) (s : State) (post : α → Cursor → State → Prop) : Prop :=
  (m x).Meets (fun _ => True) Call.Follows (x.Follows s post)

namespace Leads

variable {x : Cursor} {s s' : State} {post : α → Cursor → State → Prop}

theorem pure {a : α} (h : post a x s) : Leads (pure a) x s post := ⟨s, rfl, h⟩

theorem of_run {m : Parse α} (s' : State) (hrun : x.run s = x.run s') (h : Leads m x s' post) : Leads m x s post := by
  refine Script.Meets.mono h fun r hr => ?_
  cases r with
  | ok a =>
    obtain ⟨t, ht, hp⟩ := hr
    exact ⟨t, ht.trans hrun.symm, hp⟩
  | error e => exact hrun.trans hr

theorem mono {m : Parse α} {post' : α → Cursor → State → Prop} (h : Leads m x s post)
    (hp : ∀ a y t, post a y t → post' a y t) : Leads m x s post' := by
  refine Script.Meets.mono h fun r hr => ?_
  cases r with
  | ok a =>
    obtain ⟨t, ht, ha⟩ := hr
    exact ⟨t, ht, hp _ _ _ ha⟩
  | error e => exact hr

/-- What follows from one step is the ground for the next. -/
theorem bind {m : Parse α} {f : α → Parse β} {post : β → Cursor → State → Prop}
    (h : Leads m x s fun a y t => Leads (f a) y t post) : Leads (m >>= f) x s post := by
  refine Script.Meets.bind (Script.Meets.mono h fun r hr => ?_)
  cases r with
  | ok a =>
    obtain ⟨t, ht, ha⟩ := hr
    refine Script.Meets.mono ha fun r hr => ?_
    cases r with
    | ok b =>
      obtain ⟨u, hu, hb⟩ := hr
      exact ⟨u, hu.trans ht, hb⟩
    | error e => exact ht.symm.trans hr
  | error e => exact hr

theorem ite {c : Prop} [Decidable c] {m m' : Parse α} (h : c → Leads m x s post) (h' : ¬c → Leads m' x s post) :
    Leads (if c then m else m') x s post := by
  split
  · exact h ‹_›
  · exact h' ‹_›

theorem call {p : Procedure} {t : p.Result → Place} {post : p.Result → Cursor → State → Prop}
    (hs : p.Spans x.sight s t) (h : ∀ a y, p.Leaves y.sight → post a y (.place (t a))) :
    Leads (Parse.call p) x s post := by
  refine ⟨trivial, fun r hr => ?_⟩
  have hr := hr s t hs
  cases r with
  | ok a =>
    obtain ⟨_, hrun, rfl, hl⟩ := hr
    exact ⟨_, hrun, h _ _ hl⟩
  | error e => exact hr

def shows : Option Token → Sight
  | some t => .lexeme t.lexeme
  | none => .endOfText

theorem shows_eq_iff {o : Option Token} {l : Lexeme} : shows o = .lexeme l ↔ o.map Token.lexeme = some l := by
  cases o <;> simp [shows]

theorem peek {post : Option Token → Cursor → State → Prop}
    (h : ∀ o y, y.sight = x.sight → x.sight = shows o → post o y s) : Leads Parse.peek x s post := by
  obtain ⟨r, hr, hx⟩ := peek_cases x
  unfold Leads
  rw [hr]
  cases hx with
  | token hp ht => exact ⟨s, hp.run_nil s, h _ _ hp.sight (hp.sight ▸ Cursor.sight_of_peeked ht)⟩
  | atEnd hp he => exact ⟨s, hp.run_nil s, h _ _ hp.sight (hp.sight ▸ he.sight)⟩
  | failed ha he => exact Cursor.run_of_failed ha he

theorem accept {f : Lexeme → Option α} {post : Option α → Cursor → State → Prop}
    (taken : ∀ l a, x.sight = .lexeme l → f l = some a → ∃ t, s.shift l = .ok t ∧ ∀ y, post (some a) y t)
    (left : ∀ y, y.sight = x.sight → (∀ l, x.sight = .lexeme l → f l = none) → post none y s) :
    Leads (Parse.accept f) x s post := by
  obtain ⟨r, hr, hx⟩ := accept_cases f x
  unfold Leads
  rw [hr]
  cases hx with
  | taken hp hf =>
    obtain ⟨t, ht, h⟩ := taken _ _ hp.sight_of_cons hf
    exact ⟨t, hp.run_single ht, h _⟩
  | left hp hf => exact ⟨s, hp.run_nil s, left _ hp.sight hf⟩
  | failed ha he => exact Cursor.run_of_failed ha he

theorem eat {sign : Punct} {post : Bool → Cursor → State → Prop}
    (taken : x.sight = .lexeme (.punct sign) → ∃ t, s.shift (.punct sign) = .ok t ∧ ∀ y, post true y t)
    (left : ∀ y, y.sight = x.sight → x.sight ≠ .lexeme (.punct sign) → post false y s) :
    Leads (Parse.eat sign) x s post := by
  refine bind (accept (fun l a hl ha => ?_) fun y hy hn => .pure (left y hy ?_))
  · split at ha
    · next h =>
      subst h
      obtain ⟨t, ht, h⟩ := taken hl
      exact ⟨t, ht, fun y => .pure (h y)⟩
    · cases ha
  · intro hl
    simpa using hn _ hl

theorem expect {f : Lexeme → Except Expected α} {atEnd : Expected} (next : α → State)
    (token : ∀ l, x.sight = .lexeme l → s.shift l = (f l).map next)
    (last : x.sight = .endOfText → s.finish = .error atEnd) (h : ∀ a y, post a y (next a)) :
    Leads (Parse.expect f atEnd) x s post := by
  obtain ⟨r, hr, hx⟩ := expect_cases f atEnd x
  unfold Leads
  rw [hr]
  cases hx with
  | taken hp hf =>
    refine ⟨_, hp.run_single ?_, h _ _⟩
    rw [token _ hp.sight_of_cons, hf]
    rfl
  | refused hf he =>
    refine Cursor.run_eq_refusal (fun l hl => ?_) fun hl => ?_
    · rw [token l hl, hf l hl]
      rfl
    · rw [last hl, he hl]

theorem expectKeyword {k : Keyword} {next : Place} {post : Unit → Cursor → State → Prop}
    (hx : x.sight = .lexeme (.keyword k)) (keyword : s.shift (.keyword k) = .ok (.place next))
    (h : ∀ y, post () y (.place next)) : Leads (Parse.expectKeyword k) x s post := by
  refine expect (fun _ => .place next) (fun l hl => ?_) (fun hl => ?_) fun _ => h
  · rw [hx] at hl
    cases hl
    rw [keyword, if_pos rfl]
    rfl
  · rw [hx] at hl
    cases hl

theorem expectPunct {sign : Punct} (next : Place) {post : Unit → Cursor → State → Prop}
    (token : ∀ l, x.sight = .lexeme l → s.shift l = Place.shiftPunct sign next l)
    (last : x.sight = .endOfText → s.finish = .error (.punct sign))
    (h : ∀ y, post () y (.place next)) : Leads (Parse.expectPunct sign) x s post := by
  refine expect (fun _ => .place next) (fun l hl => ?_) last fun _ => h
  rw [token l hl, Place.shiftPunct]
  split <;> rfl

theorem expectName {expected : Expected} (next : String → State) {post : String → Cursor → State → Prop}
    (token : ∀ l, x.sight = .lexeme l → s.shift l = Place.shiftName expected next l)
    (last : x.sight = .endOfText → s.finish = .error expected) (h : ∀ name y, post name y (next name)) :
    Leads (Parse.expectName expected) x s post := by
  refine expect next (fun l hl => ?_) last h
  rw [token l hl]
  cases l <;> rfl

theorem refuse {expected : Expected} (h : s.Refuses x.sight expected) :
    Leads (Parse.refuse expected) x s post := by
  unfold Leads
  rw [refuse_eq]
  refine Cursor.run_eq_refusal (fun l hl => ?_) fun hl => ?_
  · rw [hl] at h
    cases h with
    | lexeme h => exact h
  · rw [hl] at h
    cases h with
    | endOfText h => exact h

/-- A loop from the place after some items to the place after all of them. -/
theorem each {stop : Parse Bool} {item : Parse α} {sign : Punct} {again : Parse (List α)} {xs : List α}
    (place after : List α → Place) (ends : Sight → Prop)
    (stay : ∀ b bs, (place (b :: bs)).shift (.punct sign) = .ok (.place (place (b :: bs))))
    (hstop : Leads stop x (.place (place xs)) fun done y s =>
      if done then s = .place (after xs) ∧ ends y.sight
      else Leads item y s fun a _ t => t = .place (place (xs ++ [a])))
    (hagain : ∀ a y, y.sight ≠ .lexeme (.punct sign) → Leads again y (.place (place (xs ++ [a]))) fun more z t =>
      t = .place (after (xs ++ [a] ++ more)) ∧ ends z.sight) :
    Leads (Parse.each stop item sign again) x (.place (place xs)) fun more y t =>
      t = .place (after (xs ++ more)) ∧ ends y.sight := by
  refine bind (hstop.mono fun done y t ht => ite (fun hd => ?_) fun hd => ?_)
  · rw [if_pos hd] at ht
    exact .pure (by rwa [List.append_nil])
  · rw [if_neg hd] at ht
    refine bind (ht.mono fun a z u hu => ?_)
    subst hu
    -- Behind an item its separators leave the state where it is.
    have skip : (place (xs ++ [a])).shift (.punct sign) = .ok (.place (place (xs ++ [a]))) := by
      obtain ⟨b, bs, hcons⟩ := List.exists_cons_of_ne_nil (l := xs ++ [a]) (by simp)
      rw [hcons]
      exact stay b bs
    refine bind (call (.separators _ skip) fun _ w hw => bind ((hagain a w hw).mono fun more v t ht => .pure ?_))
    rwa [List.append_assoc] at ht

/-- The keyword has been seen already, so looking at it again refuses nothing. -/
theorem heading {k : Keyword} {expected : Expected} {sign : Punct} {p : Place} {named opened : String → Place}
    {post : String → Cursor → State → Prop} (hx : x.sight = .lexeme (.keyword k))
    (keyword : s.shift (.keyword k) = .ok (.place p))
    (name : p.shift = Place.shiftName expected fun n => .place (named n)) (nameEnd : p.finish = .error expected)
    (opens : ∀ n, (named n).shift = Place.shiftPunct sign (opened n))
    (opensEnd : ∀ n, (named n).finish = .error (.punct sign)) (h : ∀ n y, post n y (.place (opened n))) :
    Leads (Parse.heading k expected sign) x s post := by
  refine bind (expectKeyword hx keyword fun y => ?_)
  refine bind (expectName _ (fun l _ => congrFun name l) (fun _ => nameEnd) fun n z => ?_)
  exact bind (expectPunct _ (fun l _ => congrFun (opens n) l) (fun _ => opensEnd n) fun w => .pure (h n w))

theorem field {b : Body} {modifier : Modifier} {post : Field → Cursor → State → Prop}
    (h : ∀ f y, post f y (.place (.site (b.add (.field f)).site))) :
    Leads (Parse.field modifier) x (.place (.goal (.field b modifier))) post := by
  refine bind (call (.type _) fun ty y _ => ?_)
  exact bind (expectName _ (fun _ _ => rfl) (fun _ => rfl) fun name z => .pure (h ⟨modifier, ty, name⟩ z))

theorem response {s : OpenService} {post : Option Ty → Cursor → State → Prop}
    (some : ∀ ty y, post (some ty) y (.place (.response s ty)))
    (none : ∀ y, y.sight ≠ .lexeme (.punct .colon) → post none y (.place (.requestEnd s))) :
    Leads Parse.response x (.place (.requestEnd s)) post := by
  refine bind (eat (fun _ => ⟨_, rfl, fun y => ite (fun _ => ?_) fun h => absurd rfl h⟩)
    fun y hy hx => ite nofun fun _ => ?_)
  · exact bind (call (.type (.response s)) fun ty z _ => .pure (some ty z))
  · exact .pure (none y (hy ▸ hx))

theorem named {g : Goal} {name : String} {post : Ty → Cursor → State → Prop}
    (h : ∀ ty y, post ty y (.place (g.reach ty))) : Leads (Parse.named name) x (.path g name) post := by
  refine bind (peek fun o y hy ho => ite (fun hmap => ?_) fun hmap => ?_)
  · obtain ⟨rfl, hl⟩ := hmap
    have less : y.sight = .lexeme (.punct .less) := by rw [hy, ho, shows_eq_iff, hl]
    exact call (less ▸ .map g) fun ty z _ => h ty z
  · refine bind (call (.path g name fun hname hless => hmap ⟨hname, ?_⟩) fun rest z _ => .pure (h _ z))
    rw [← shows_eq_iff, ← ho, ← hy, hless]

end Leads

end Parse

/-! ## Bodies -/

namespace Procedure

open Parse

variable {x : Cursor}

theorem leads_definitions {ds : List Definition} (h : ds = [] ∨ x.sight ≠ .lexeme (.punct .semicolon)) :
    Leads (body .definitions) x (.place (.site (.document ds)))
      (Ends .definitions fun more => .site (.document (ds ++ more))) := by
  refine Leads.each (fun ds => .site (.document ds)) (fun ds => .site (.document ds)) (· = .endOfText)
    (fun _ _ => rfl) ?_ fun d y hy => ?_
  · refine .bind (.peek fun o y hy ho => .pure ?_)
    cases o with
    | none => exact ⟨rfl, hy.trans ho⟩
    | some t =>
      refine .call (.definition ds ?_ (hy ▸ h)) fun d _ _ => rfl
      rw [hy, ho]
      exact nofun
  · exact .call (.definitions _ (.inr hy)) fun more z hz => ⟨rfl, hz⟩

theorem leads_message (s : Site) (hx : x.sight = .lexeme (.keyword .message)) :
    Leads (body .message) x (.place (.site s)) (Ends .message fun m => .site (s.addMessage m.name m.members)) := by
  refine .bind (.heading (p := .messageKeyword s) hx ?_ rfl rfl (fun _ => rfl) (fun _ => rfl) fun name y => ?_)
  · cases s <;> rfl
  · exact .bind (.call (.members ⟨s, name, []⟩ (.inl rfl)) fun members z _ => .pure ⟨rfl, trivial⟩)

theorem leads_definition {ds : List Definition} (hend : x.sight ≠ .endOfText)
    (h : ds = [] ∨ x.sight ≠ .lexeme (.punct .semicolon)) :
    Leads (body .definition) x (.place (.site (.document ds)))
      (Ends .definition fun d => .site (.document (ds ++ [d]))) := by
  refine .bind (.peek fun o y hy ho => ?_)
  cases o with
  | none => exact absurd ho hend
  | some t =>
    obtain ⟨l, position⟩ := t
    replace ho : x.sight = .lexeme l := ho
    rw [← hy] at h ho
    dsimp only [Option.map]
    split
    · next hl =>
      cases hl
      exact .bind (.call (ho ▸ .message (.document ds)) fun m z _ => .pure ⟨rfl, trivial⟩)
    · next hl =>
      cases hl
      exact .bind (.call (ho ▸ .service ds .inbound) fun m z _ => .pure ⟨rfl, trivial⟩)
    · next hl =>
      cases hl
      exact .bind (.call (ho ▸ .service ds .outbound) fun m z _ => .pure ⟨rfl, trivial⟩)
    -- What is no such keyword is refused by the state for the same reason.
    · next hmessage hinbound houtbound =>
      rw [ho] at h
      refine .refuse (ho ▸ .lexeme (Place.shiftDefinition_of_other ?_ ?_ ?_ ?_))
      · exact mt (congrArg _) hmessage
      · exact mt (congrArg _) hinbound
      · exact mt (congrArg _) houtbound
      · exact h.imp_right (mt (congrArg _))

theorem leads_members {b : Body} (h : b.members = [] ∨ x.sight ≠ .lexeme (.punct .semicolon)) :
    Leads (body .members) x (.place (.site b.site))
      (Ends .members fun more => .site (b.outer.addMessage b.name (b.members ++ more))) := by
  refine Leads.each (fun ms => .site (.message b.outer b.name ms)) (fun ms => .site (b.outer.addMessage b.name ms))
    (fun _ => True) (fun _ _ => rfl) ?_ fun m y hy => ?_
  · refine .eat (fun _ => ⟨_, rfl, fun _ => ⟨rfl, trivial⟩⟩) fun y hy hx => ?_
    exact .call (.member b (hy ▸ hx) (hy ▸ h)) fun m _ _ => rfl
  · exact .call (.members (b.add m) (.inr hy)) fun more z hz => ⟨rfl, hz⟩

theorem leads_field {b : Body} {l : Lexeme} (hx : x.sight = .lexeme l) (hbrace : l ≠ .punct .rightBrace)
    (hsemicolon : b.members = [] ∨ l ≠ .punct .semicolon) (henum : l ≠ .keyword .enumeration)
    (hmessage : l ≠ .keyword .message) :
    Leads (body .field) x (.place (.site b.site)) (Ends .field fun f => .site (b.add (.field f)).site) := by
  refine .bind (.accept (fun k modifier hk hm => ?_) fun y hy hn => ?_)
  · unfold modifier? at hm
    split at hm
    · cases hm
      exact ⟨_, rfl, fun y => .field fun f z => ⟨rfl, trivial⟩⟩
    · cases hm
      exact ⟨_, rfl, fun y => .field fun f z => ⟨rfl, trivial⟩⟩
    · cases hm
  · -- Without a modifier the type starts where the member does.
    have none := hn l hx
    rw [← hy] at hx
    refine .of_run (.place (.goal (.field b .plain))) (Cursor.run_congr (fun k hk => ?_) fun he => ?_)
      (.field fun f z => ⟨rfl, trivial⟩)
    · rw [hx] at hk
      cases hk
      exact Place.shiftMember_of_type hbrace hsemicolon henum hmessage none
    · rw [hx] at he
      cases he

theorem leads_member {b : Body} (hbrace : x.sight ≠ .lexeme (.punct .rightBrace))
    (h : b.members = [] ∨ x.sight ≠ .lexeme (.punct .semicolon)) :
    Leads (body .member) x (.place (.site b.site)) (Ends .member fun m => .site (b.add m).site) := by
  refine .bind (.peek fun o y hy ho => ?_)
  rw [← hy] at hbrace h ho
  cases o with
  | none => exact .refuse (ho ▸ .endOfText rfl)
  | some t =>
    obtain ⟨l, position⟩ := t
    replace ho : y.sight = .lexeme l := ho
    dsimp only [Option.map]
    split
    · next hl =>
      cases hl
      exact .bind (.call (ho ▸ .enumeration b) fun e z _ => .pure ⟨rfl, trivial⟩)
    · next hl =>
      cases hl
      exact .bind (.call (ho ▸ .message b.site) fun m z _ => .pure ⟨rfl, trivial⟩)
    · next hl => cases hl
    -- Neither a brace nor a keyword of the body: a field, or nothing.
    · next k henum hmessage hl =>
      cases hl
      rw [ho] at hbrace h
      refine .bind (.call (ho ▸ .field b ?_ ?_ ?_ ?_) fun f z _ => .pure ⟨rfl, trivial⟩)
      · exact mt (congrArg _) hbrace
      · exact h.imp_right (mt (congrArg _))
      · exact henum
      · exact hmessage

theorem leads_enumeration {b : Body} (hx : x.sight = .lexeme (.keyword .enumeration)) :
    Leads (body .enumeration) x (.place (.site b.site))
      (Ends .enumeration fun e => .site (b.add (.enumeration e)).site) := by
  refine .bind (.heading (p := .enumKeyword b) hx rfl rfl rfl (fun _ => rfl) (fun _ => rfl) fun name y => ?_)
  exact .bind (.call (.values ⟨b, name, []⟩ (.inl rfl)) fun values z _ => .pure ⟨rfl, trivial⟩)

theorem leads_values {e : OpenEnumeration} (h : e.values = [] ∨ x.sight ≠ .lexeme (.punct .semicolon)) :
    Leads (body .values) x (.place (.enumBody e))
      (Ends .values fun more => .site { e with values := e.values ++ more }.finish) := by
  refine Leads.each (fun vs => .enumBody { e with values := vs }) (fun vs => .site { e with values := vs }.finish)
    (fun _ => True) ?_ ?_ fun v y hy => ?_
  · exact fun v vs => rfl
  · refine .eat (fun _ => ⟨_, rfl, fun _ => ⟨rfl, trivial⟩⟩) fun y hy hx => ?_
    exact .call (.value e (hy ▸ hx) (hy ▸ h)) fun v _ _ => rfl
  · exact .call (.values { e with values := e.values ++ [v] } (.inr hy)) fun more z hz => ⟨rfl, hz⟩

theorem leads_value {e : OpenEnumeration} (hbrace : x.sight ≠ .lexeme (.punct .rightBrace))
    (h : e.values = [] ∨ x.sight ≠ .lexeme (.punct .semicolon)) :
    Leads (body .value) x (.place (.enumBody e))
      (Ends .value fun v => .enumBody { e with values := e.values ++ [v] }) := by
  refine .bind (.expectName (fun key => .place (.enumKey e key)) (fun l hl => ?_) (fun _ => rfl) fun key y => ?_)
  · rw [hl] at hbrace h
    refine Place.shiftEnumValue_of_name (mt (congrArg _) hbrace) ?_
    exact h.imp_right (mt (congrArg _))
  · refine .bind (.expectPunct (.enumEquals e key) (fun _ _ => rfl) (fun _ => rfl) fun z => ?_)
    exact .bind (.expect _ (fun l _ => Place.shiftInteger_eq_map e key l) (fun _ => rfl)
      fun v w => .pure ⟨rfl, trivial⟩)

theorem leads_requests {s : OpenService} (h : s.request = [] ∨ x.sight ≠ .lexeme (.punct .comma)) :
    Leads (body .requests) x (.place (.request s))
      (Ends .requests fun more => .requestEnd { s with request := s.request ++ more }) := by
  refine Leads.each (fun tys => .request { s with request := tys }) (fun tys => .requestEnd { s with request := tys })
    (fun _ => True) (fun _ _ => rfl) ?_ fun ty y hy => ?_
  · refine .eat (fun _ => ⟨_, rfl, fun _ => ⟨rfl, trivial⟩⟩) fun y hy hx => ?_
    rw [← hy] at hx h
    refine .of_run (.place (.goal (.request s))) (Cursor.run_congr (fun l hl => ?_) fun _ => rfl)
      (.call (.type (.request s)) fun ty _ _ => rfl)
    rw [hl] at hx h
    refine Place.shiftRequest_of_type (mt (congrArg _) hx) ?_
    exact h.imp_right (mt (congrArg _))
  · exact .call (.requests { s with request := s.request ++ [ty] } (.inr hy)) fun more z hz => ⟨rfl, hz⟩

theorem leads_service {ds : List Definition} {d : Direction} (hx : x.sight = .lexeme (.keyword d.keyword)) :
    Leads (body (.service d)) x (.place (.site (.document ds)))
      (Ends (.service d) fun s => .site (.document (ds ++ [.service d s]))) := by
  refine .bind (.heading (p := .serviceKeyword ds d) hx ?_ rfl rfl (fun _ => rfl) (fun _ => rfl) fun name y => ?_)
  · cases d <;> rfl
  refine .bind (.call (.requests ⟨ds, d, name, []⟩ (.inl rfl)) fun request z _ => .bind (.response ?_ ?_))
  · intro ty w
    exact .bind (.expectPunct _ (fun _ _ => rfl) (fun _ => rfl) fun u => .pure ⟨rfl, trivial⟩)
  · intro w hcolon
    refine .bind (.expectPunct _ (fun l hl => ?_) (fun _ => rfl) fun u => .pure ⟨rfl, trivial⟩)
    rw [hl] at hcolon
    exact Place.shiftRequestEnd_of_semicolon (mt (congrArg _) hcolon)

theorem leads_separators {sign : Punct} {p : Place} (h : p.shift (.punct sign) = .ok (.place p)) :
    Leads (body (.separators sign)) x (.place p) (Ends (.separators sign) fun _ => p) := by
  refine .bind (.eat (fun _ => ⟨.place p, h, fun y => .ite (fun _ => ?_) fun h => absurd rfl h⟩) fun y hy hx => ?_)
  · exact .call (.separators p h) fun _ z hz => ⟨rfl, hz⟩
  · exact .ite nofun fun _ => .pure ⟨rfl, hy ▸ hx⟩

theorem leads_type (g : Goal) : Leads (body .type) x (.place (.goal g)) (Ends .type g.reach) := by
  refine .bind (.expect (Sum.elim (fun s => .place (g.reach (.scalar s))) (.path g)) (fun l _ => ?_) (fun _ => rfl)
    fun a y => ?_)
  · cases l <;> rfl
  · cases a with
    | inl s => exact .pure ⟨rfl, trivial⟩
    | inr name => exact .named fun ty z => ⟨rfl, trivial⟩

theorem leads_map {g : Goal} (hx : x.sight = .lexeme (.punct .less)) :
    Leads (body .map) x (.path g "map") (Ends .map g.reach) := by
  refine .bind (.expectPunct (.goal (.mapKey g)) (fun l hl => ?_) (fun he => ?_) fun y => ?_)
  · rw [hx] at hl
    cases hl
    rfl
  · rw [hx] at he
    cases he
  · refine .bind (.call (.type _) fun key z _ => .bind (.expectPunct _ (fun _ _ => rfl) (fun _ => rfl) fun w => ?_))
    refine .bind (.call (.type _) fun value v _ => .bind (.expectPunct _ (fun _ _ => rfl) (fun _ => rfl) fun u => ?_))
    exact .pure ⟨rfl, trivial⟩

theorem leads_path {g : Goal} {first : String} (h : first = "map" → x.sight ≠ .lexeme (.punct .less)) :
    Leads (body .path) x (.path g first) (Ends .path fun rest => g.reach (.reference (first ++ rest))) := by
  refine .bind (.eat (fun _ => ⟨_, rfl, fun y => .ite (fun _ => ?_) fun h => absurd rfl h⟩) fun y hy hx => ?_)
  · refine .bind (.expectName (fun name => .path g (first ++ "." ++ name)) (fun _ _ => rfl) (fun _ => rfl)
      fun name z => ?_)
    refine .bind (.call (.path g _ ?_) fun rest w _ => .pure ⟨?_, trivial⟩)
    · intro hmap
      have dot : '.' ∈ (first ++ "." ++ name).toList := by simp
      rw [hmap] at dot
      exact absurd dot (by decide)
    · rw [String.append_assoc, String.append_assoc, String.append_assoc]
  · refine .ite nofun fun _ => .of_run (.place (g.reach (.reference first)))
      (Cursor.run_congr (fun l hl => ?_) fun _ => rfl) (.pure ⟨?_, trivial⟩)
    · rw [hy] at hl
      rw [hl] at h hx
      exact State.shift_path_of_end (mt (congrArg _) hx) fun hmap => mt (congrArg _) (h hmap)
    · show State.place (g.reach (.reference first)) = .place (g.reach (.reference (first ++ "")))
      rw [String.append_empty]

/-- Every procedure follows the states wherever it may stand. -/
theorem Spans.leads {p : Procedure} {s : State} {t : p.Result → Place} (h : p.Spans x.sight s t) :
    Leads p.body x s (p.Ends t) := by
  generalize hx : x.sight = l at h
  cases h with
  | definitions ds h => exact leads_definitions (hx ▸ h)
  | definition ds hend h => exact leads_definition (hx ▸ hend) (hx ▸ h)
  | message s => exact leads_message s hx
  | members b h => exact leads_members (hx ▸ h)
  | member b hbrace h => exact leads_member (hx ▸ hbrace) (hx ▸ h)
  | field b hbrace hsemicolon henum hmessage => exact leads_field hx hbrace hsemicolon henum hmessage
  | enumeration b => exact leads_enumeration hx
  | values e h => exact leads_values (hx ▸ h)
  | value e hbrace h => exact leads_value (hx ▸ hbrace) (hx ▸ h)
  | service ds d => exact leads_service hx
  | requests s h => exact leads_requests (hx ▸ h)
  | separators p h => exact leads_separators h
  | type g => exact leads_type g
  | map g => exact leads_map hx
  | path g first h => exact leads_path (hx ▸ h)

end Procedure

/-- Each body follows the states if the calls in it do: a case for each procedure. -/
theorem Call.body_meets (c : Call) : c.body.Meets (fun _ => True) Call.Follows c.Follows := by
  refine Script.Meets.all fun s => Script.Meets.all fun t => Script.Meets.all fun h => ?_
  exact Procedure.Spans.leads h

namespace Document

/-- What the descent answers for a source is what the states find. -/
theorem parse_of_answers {source : String} {r : (Call.start source).Answer} (h : Answers Call.body (.start source) r) :
    parse source = r.map fun a => ⟨a.1⟩ := by
  have follows : (Call.start source).Follows r := Answers.meets Call.body_meets h
  have answer := follows _ _ (.definitions [] (.inl rfl))
  show (Cursor.ofString source).run .start = _
  cases r with
  | error e => exact answer
  | ok a =>
    obtain ⟨_, hrun, rfl, hend⟩ := answer
    exact hrun.symm.trans (Cursor.run_eq_ok hend rfl)

end Document

end ServLang

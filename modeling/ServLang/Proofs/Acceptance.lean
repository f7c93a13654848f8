/-
  ServLang.Proofs.Acceptance — the parser accepts exactly the grammar. What has been
  read before a state spells the parts finished in it and the constructs that are open
  (`State.Spelled`), and each token keeps that true; so a run that ends in a document
  has read a spelling of it. `ServLang.Proofs.Progress` is the way back.

  Proved:
  - `State.shift_spelled`, `State.Reads.spelled`: one token, and so every run, keeps
    `Spelled`.
  - `Document.spelling_iff_reads`: a document's spellings are the runs that end in it.
  - `Document.Spelling.unique`: the grammar is unambiguous, since runs are.
  - `Document.parse_ok_iff_spelling`: what the parser returns, against the grammar.
-/

import ServLang.Proofs.Progress
import ServLang.Proofs.Reading

namespace ServLang

/-! ## What a state has read -/

def Then (first second : List Lexeme → Prop) (ts : List Lexeme) : Prop :=
  ∃ bs us, first bs ∧ second us ∧ ts = bs ++ us

def After (first : List Lexeme → Prop) (us : List Lexeme) : List Lexeme → Prop := Then first (· = us)

theorem Then.mk {first second : List Lexeme → Prop} {bs us : List Lexeme} (hb : first bs) (hu : second us) :
    Then first second (bs ++ us) := ⟨bs, us, hb, hu, rfl⟩

theorem Then.start {first second : List Lexeme → Prop} {bs : List Lexeme} (hb : first bs) (hu : second []) :
    Then first second bs := ⟨bs, [], hb, hu, bs.append_nil.symm⟩

theorem After.mk {first : List Lexeme → Prop} {bs : List Lexeme} (us : List Lexeme) (hb : first bs) :
    After first us (bs ++ us) := Then.mk hb rfl

/-- Whatever makes the second part complete makes the whole complete. -/
theorem Then.close {first second third : List Lexeme → Prop} {ts us : List Lexeme} (h : Then first second ts)
    (hc : ∀ {vs}, second vs → third (vs ++ us)) : Then first third (ts ++ us) := by
  obtain ⟨bs, vs, hb, hv, rfl⟩ := h
  exact ⟨bs, vs ++ us, hb, hc hv, by rw [List.append_assoc]⟩

theorem After.snoc {first : List Lexeme → Prop} {us ts : List Lexeme} {l : Lexeme} (h : After first us ts) :
    After first (us ++ [l]) (ts ++ [l]) := h.close fun hv => by rw [hv]

/-- What has been read before a site spells the parts finished there, and the heads and
    finished members of the messages around. -/
def Site.Spelled : Site → List Lexeme → Prop
  | document ds => Separated .semicolon Definition.Spelling ds
  | message outer name members =>
    Then (After outer.Spelled [.keyword .message, .identifier name, .punct .leftBrace])
      (Separated .semicolon Member.Spelling members)

def OpenEnumeration.Spelled (e : OpenEnumeration) : List Lexeme → Prop :=
  Then (After e.body.site.Spelled [.keyword .enumeration, .identifier e.name, .punct .leftBrace])
    (Separated .semicolon EnumValue.Spelling e.values)

def OpenService.Spelled (s : OpenService) : List Lexeme → Prop :=
  Then (After (Site.document s.definitions).Spelled
      [.keyword s.direction.keyword, .identifier s.name, .punct .leftParen])
    (Separated .comma Ty.Spelling s.request)

def Goal.Spelled : Goal → List Lexeme → Prop
  | field b modifier => After b.site.Spelled modifier.lexemes
  | request s => s.Spelled
  | response s => After s.Spelled [.punct .rightParen, .punct .colon]
  | mapKey outer => After outer.Spelled [.identifier "map", .punct .less]
  | mapValue outer key =>
    After (Then (After outer.Spelled [.identifier "map", .punct .less]) key.Spelling) [.punct .comma]

def Place.Spelled : Place → List Lexeme → Prop
  | site s => s.Spelled
  | messageKeyword s => After s.Spelled [.keyword .message]
  | messageName s name => After s.Spelled [.keyword .message, .identifier name]
  | enumKeyword b => After b.site.Spelled [.keyword .enumeration]
  | enumName b name => After b.site.Spelled [.keyword .enumeration, .identifier name]
  | enumBody e => e.Spelled
  | enumKey e key => After e.Spelled [.identifier key]
  | enumEquals e key => After e.Spelled [.identifier key, .punct .equals]
  | goal g => g.Spelled
  | pathDot g path => After (Then g.Spelled (Ty.reference path).Spelling) [.punct .dot]
  | mapKey g key => Then (Goal.mapKey g).Spelled key.Spelling
  | mapValue g key value => Then (Goal.mapValue g key).Spelled value.Spelling
  | fieldType b modifier ty => Then (Goal.field b modifier).Spelled ty.Spelling
  | serviceKeyword ds direction => After (Site.document ds).Spelled [.keyword direction.keyword]
  | serviceName ds direction name => After (Site.document ds).Spelled [.keyword direction.keyword, .identifier name]
  | request s => s.Spelled
  | requestEnd s => After s.Spelled [.punct .rightParen]
  | response s ty => Then (Goal.response s).Spelled ty.Spelling

/-- The lexemes spell what is finished in the state, and the constructs that are open. -/
def State.Spelled : State → List Lexeme → Prop
  | place p => p.Spelled
  | path g p => Then g.Spelled (Ty.reference p).Spelling

/-! ## Finished parts -/

/-- A type that is spelled takes its goal to the next place. -/
theorem Goal.spelled_reach {g : Goal} {ty : Ty} {ts : List Lexeme} (h : Then g.Spelled ty.Spelling ts) :
    (g.reach ty).Spelled ts := by
  cases g with
  | request s =>
    obtain ⟨_, us, ⟨bs, vs, hb, hv, rfl⟩, hu, rfl⟩ := h
    rw [List.append_assoc]
    exact Then.mk hb (hv.snoc hu)
  | field b modifier => exact h
  | response s => exact h
  | mapKey outer => exact h
  | mapValue outer key => exact h

/-- The end of a path changes the state, not what has been spelled. -/
theorem State.spelled_settle {s : State} {ts : List Lexeme} (h : s.Spelled ts) : s.settle.Spelled ts := by
  cases s with
  | place p => exact h
  | path g path => exact Goal.spelled_reach h

theorem Body.spelled_add {b : Body} {m : Member} {bs us : List Lexeme} (hb : b.site.Spelled bs) (hm : m.Spelling us) :
    (b.add m).site.Spelled (bs ++ us) :=
  Then.close hb fun hv => hv.snoc hm

/-- A finished message belongs to the site around it. -/
theorem Site.spelled_addMessage {s : Site} {name : String} {members : List Member} {ts : List Lexeme}
    (h : (Site.message s name members).Spelled ts) :
    (s.addMessage name members).Spelled (ts ++ [.punct .rightBrace]) := by
  obtain ⟨_, us, ⟨bs, _, hb, rfl, rfl⟩, hu, rfl⟩ := h
  have hm : (Member.message name members).Spelling
      ([.keyword .message, .identifier name, .punct .leftBrace] ++ us ++ [.punct .rightBrace]) := .message name hu
  rw [List.append_assoc, List.append_assoc, ← List.append_assoc _ us]
  cases s with
  | document ds => exact Separated.snoc hb (.message (m := ⟨name, members⟩) hm)
  | message outer enclosing earlier => exact Body.spelled_add (b := ⟨outer, enclosing, earlier⟩) hb hm

theorem OpenEnumeration.spelled_finish {e : OpenEnumeration} {ts : List Lexeme} (h : e.Spelled ts) :
    e.finish.Spelled (ts ++ [.punct .rightBrace]) := by
  obtain ⟨_, us, ⟨bs, _, hb, rfl, rfl⟩, hu, rfl⟩ := h
  rw [List.append_assoc, List.append_assoc, ← List.append_assoc _ us]
  exact Body.spelled_add hb (.enumeration e.name hu)

theorem OpenService.spelled_finish {s : OpenService} {response : Option Ty} {ts rs : List Lexeme} (h : s.Spelled ts)
    (hr : Service.ResponseSpelling response rs) :
    (s.finish response).Spelled (ts ++ .punct .rightParen :: rs ++ [.punct .semicolon]) := by
  obtain ⟨_, us, ⟨bs, _, hb, rfl, rfl⟩, hu, rfl⟩ := h
  have whole := Separated.snoc hb (Definition.Spelling.service s.direction s.name hu hr)
  simpa [Site.Spelled, OpenService.finish] using whole

/-! ## One token -/

namespace Place

theorem shiftPunct_eq_ok_iff {p : Punct} {next : Place} {l : Lexeme} {s : State} :
    shiftPunct p next l = .ok s ↔ l = .punct p ∧ s = .place next := by
  unfold shiftPunct
  split <;> simp_all [eq_comm]

theorem shiftName_eq_ok_iff {expected : Expected} {next : String → State} {l : Lexeme} {s : State} :
    shiftName expected next l = .ok s ↔ ∃ name, l = .identifier name ∧ s = next name := by
  cases l <;> simp [shiftName, eq_comm]

end Place

theorem Goal.shift_spelled {g : Goal} {l : Lexeme} {s : State} {ts : List Lexeme} (hg : g.Spelled ts)
    (h : g.shift l = .ok s) : s.Spelled (ts ++ [l]) := by
  cases l with
  | scalar k =>
    cases h
    exact Goal.spelled_reach (Then.mk hg (.scalar k))
  | identifier name =>
    cases h
    exact Then.mk hg (Ty.Spelling.name name)
  | _ => cases h

namespace Place

theorem shiftDefinition_spelled {ds : List Definition} {l : Lexeme} {s : State} {ts : List Lexeme}
    (hd : (Site.document ds).Spelled ts) (h : shiftDefinition ds l = .ok s) : s.Spelled (ts ++ [l]) := by
  unfold shiftDefinition at h
  split at h
  · cases h
    exact After.mk _ hd
  · cases h
    exact After.mk _ hd
  · cases h
    exact After.mk _ hd
  · split at h
    · cases h
    · next hne =>
      cases h
      exact Separated.snoc_separator hd (by simpa using hne)
  · cases h

theorem shiftMember_spelled {b : Body} {l : Lexeme} {s : State} {ts : List Lexeme} (hb : b.site.Spelled ts)
    (h : shiftMember b l = .ok s) : s.Spelled (ts ++ [l]) := by
  unfold shiftMember at h
  split at h
  · cases h
    exact Site.spelled_addMessage hb
  · cases h
    exact After.mk _ hb
  · cases h
    exact After.mk _ hb
  · cases h
    exact After.mk _ hb
  · cases h
    exact After.mk _ hb
  · split at h
    · cases h
    · next hne =>
      cases h
      exact Then.close hb fun hms => hms.snoc_separator (by simpa using hne)
  · exact Goal.shift_spelled (g := .field b .plain) (Then.start hb rfl) h

theorem shiftEnumValue_spelled {e : OpenEnumeration} {l : Lexeme} {s : State} {ts : List Lexeme} (he : e.Spelled ts)
    (h : shiftEnumValue e l = .ok s) : s.Spelled (ts ++ [l]) := by
  unfold shiftEnumValue at h
  split at h
  · cases h
    exact OpenEnumeration.spelled_finish he
  · split at h
    · cases h
    · next hne =>
      cases h
      exact Then.close he fun hvs => hvs.snoc_separator (by simpa using hne)
  · obtain ⟨key, rfl, rfl⟩ := shiftName_eq_ok_iff.1 h
    exact After.mk _ he

theorem shiftInteger_spelled {e : OpenEnumeration} {key : String} {l : Lexeme} {s : State} {ts : List Lexeme}
    (he : After e.Spelled [.identifier key, .punct .equals] ts) (hl : l.HasNumber) (h : shiftInteger e key l = .ok s) :
    s.Spelled (ts ++ [l]) := by
  unfold shiftInteger at h
  split at h
  · next literal =>
    split at h
    · next value hv =>
      cases h
      obtain ⟨bs, _, hb, rfl, rfl⟩ := he
      obtain ⟨n, hn⟩ := hl
      obtain rfl := hn.int64?_eq_some_iff.1 hv
      rw [List.append_assoc]
      exact Then.close hb fun hvs => hvs.snoc (.assign key literal hn)
    · cases h
  · cases h

theorem shiftRequest_spelled {r : OpenService} {l : Lexeme} {s : State} {ts : List Lexeme} (hr : r.Spelled ts)
    (h : shiftRequest r l = .ok s) : s.Spelled (ts ++ [l]) := by
  unfold shiftRequest at h
  split at h
  · cases h
    exact After.mk _ hr
  · split at h
    · cases h
    · next hne =>
      cases h
      exact Then.close hr fun hts => hts.snoc_separator (by simpa using hne)
  · exact Goal.shift_spelled (g := .request r) hr h

theorem shiftRequestEnd_spelled {r : OpenService} {l : Lexeme} {s : State} {ts : List Lexeme}
    (hr : After r.Spelled [.punct .rightParen] ts) (h : shiftRequestEnd r l = .ok s) : s.Spelled (ts ++ [l]) := by
  unfold shiftRequestEnd at h
  split at h
  · cases h
    exact hr.snoc
  · obtain ⟨rfl, rfl⟩ := shiftPunct_eq_ok_iff.1 h
    obtain ⟨bs, _, hb, rfl, rfl⟩ := hr
    exact OpenService.spelled_finish hb .none

/-- One token keeps what the place says of the lexemes: a case for each place. -/
theorem shift_spelled {p : Place} {l : Lexeme} {s : State} {ts : List Lexeme} (hp : p.Spelled ts) (hl : l.HasNumber)
    (h : p.shift l = .ok s) : s.Spelled (ts ++ [l]) := by
  cases p with
  | site site =>
    cases site with
    | document ds => exact shiftDefinition_spelled hp h
    | message outer name members => exact shiftMember_spelled (b := ⟨outer, name, members⟩) hp h
  | messageKeyword site =>
    obtain ⟨name, rfl, rfl⟩ := shiftName_eq_ok_iff.1 h
    exact After.snoc hp
  | messageName site name =>
    obtain ⟨rfl, rfl⟩ := shiftPunct_eq_ok_iff.1 h
    exact Then.start (After.snoc hp) .nil
  | enumKeyword b =>
    obtain ⟨name, rfl, rfl⟩ := shiftName_eq_ok_iff.1 h
    exact After.snoc hp
  | enumName b name =>
    obtain ⟨rfl, rfl⟩ := shiftPunct_eq_ok_iff.1 h
    exact Then.start (After.snoc hp) .nil
  | enumBody e => exact shiftEnumValue_spelled hp h
  | enumKey e key =>
    obtain ⟨rfl, rfl⟩ := shiftPunct_eq_ok_iff.1 h
    exact After.snoc hp
  | enumEquals e key => exact shiftInteger_spelled hp hl h
  | goal g => exact Goal.shift_spelled hp h
  | pathDot g path =>
    obtain ⟨name, rfl, rfl⟩ := shiftName_eq_ok_iff.1 h
    obtain ⟨_, _, ⟨bs, us, hb, hu, rfl⟩, rfl, rfl⟩ := hp
    rw [List.append_assoc, List.append_assoc]
    exact Then.mk hb (Ty.Spelling.dotted name hu)
  | mapKey g key =>
    obtain ⟨rfl, rfl⟩ := shiftPunct_eq_ok_iff.1 h
    exact After.mk _ hp
  -- The bracket closes the map, and with it the type for the goal.
  | mapValue g key value =>
    obtain ⟨rfl, rfl⟩ := shiftPunct_eq_ok_iff.1 h
    obtain ⟨_, vs, ⟨_, _, ⟨_, ks, ⟨bs, _, hb, rfl, rfl⟩, hk, rfl⟩, rfl, rfl⟩, hv, rfl⟩ := hp
    refine Goal.spelled_reach ?_
    simpa using Then.mk hb (Ty.Spelling.map hk hv)
  | fieldType b modifier ty =>
    obtain ⟨name, rfl, rfl⟩ := shiftName_eq_ok_iff.1 h
    obtain ⟨_, us, ⟨bs, _, hb, rfl, rfl⟩, hu, rfl⟩ := hp
    rw [List.append_assoc, List.append_assoc, ← List.append_assoc _ us]
    exact Body.spelled_add hb (.field modifier name hu)
  | serviceKeyword ds direction =>
    obtain ⟨name, rfl, rfl⟩ := shiftName_eq_ok_iff.1 h
    exact After.snoc hp
  | serviceName ds direction name =>
    obtain ⟨rfl, rfl⟩ := shiftPunct_eq_ok_iff.1 h
    exact Then.start (After.snoc hp) .nil
  | request r => exact shiftRequest_spelled hp h
  | requestEnd r => exact shiftRequestEnd_spelled hp h
  | response r ty =>
    obtain ⟨rfl, rfl⟩ := shiftPunct_eq_ok_iff.1 h
    obtain ⟨_, us, ⟨bs, _, hb, rfl, rfl⟩, hu, rfl⟩ := hp
    show (r.finish (some ty)).Spelled _
    simpa using OpenService.spelled_finish hb (.some hu)

end Place

/-- Only a name has no dot, so a path that is `map` is the one name. -/
theorem Ty.Spelling.eq_name {path : String} {ts : List Lexeme} (h : (Ty.reference path).Spelling ts)
    (hdot : '.' ∉ path.toList) : ts = [.identifier path] := by
  cases h with
  | name => rfl
  | dotted n h => exact absurd (by simp [Path.join]) hdot

namespace State

theorem shift_spelled {s s' : State} {l : Lexeme} {ts : List Lexeme} (hs : s.Spelled ts) (hl : l.HasNumber)
    (h : s.shift l = .ok s') : s'.Spelled (ts ++ [l]) := by
  unfold State.shift at h
  split at h
  · cases h
    exact After.mk _ hs
  · split at h
    · next hmap =>
      -- What was read as a path is the sign of a map after all; it was one name.
      cases h
      obtain ⟨bs, us, hb, hu, rfl⟩ := hs
      obtain rfl := hu.eq_name (by rw [hmap]; decide)
      rw [List.append_assoc, hmap]
      exact After.mk _ hb
    · exact Place.shift_spelled (spelled_settle hs) hl h
  · exact Place.shift_spelled (spelled_settle hs) hl h

/-- From one token to a run: what is read is spelled. -/
theorem Reads.spelled {s t : State} {ls ts : List Lexeme} (h : Reads s ls t) (hls : ∀ l ∈ ls, l.HasNumber)
    (hs : s.Spelled ts) : t.Spelled (ts ++ ls) := by
  induction h generalizing ts with
  | nil s => simpa using hs
  | cons hl _ ih =>
    obtain ⟨number, numbers⟩ := List.forall_mem_cons.1 hls
    simpa using ih numbers (shift_spelled hs number hl)

end State

/-! ## The grammar and the parser -/

theorem State.finish_eq_ok_iff {s : State} {d : Document} :
    s.finish = .ok d ↔ s.settle = .site (.document d.definitions) := by
  obtain ⟨ds⟩ := d
  unfold State.finish Place.finish
  split <;> simp_all

/-- The other direction, along the derivation. -/
theorem Document.Spelling.reads {d : Document} {ls : List Lexeme} (h : d.Spelling ls) :
    ∃ t, State.start.Reads ls t ∧ t.finish = .ok d := by
  obtain ⟨t, ht, hd⟩ := Spelling.leads h .start rfl
  exact ⟨t, ht, State.finish_eq_ok_iff.2 hd⟩

/-- A document's spellings are the runs that end in it. States do not look whether an
    integer lexeme is one; those of a text are. -/
theorem Document.spelling_iff_reads {d : Document} {ls : List Lexeme} (hls : ∀ l ∈ ls, l.HasNumber) :
    d.Spelling ls ↔ ∃ t, State.start.Reads ls t ∧ t.finish = .ok d := by
  refine ⟨Spelling.reads, ?_⟩
  intro ⟨t, ht, hd⟩
  have spelled : t.settle.Spelled ([] ++ ls) := State.spelled_settle (ht.spelled hls (.nil : State.start.Spelled []))
  rw [State.finish_eq_ok_iff.1 hd] at spelled
  exact spelled

/-- No lexemes spell two documents. -/
theorem Document.Spelling.unique {d d' : Document} {ls : List Lexeme} (h : d.Spelling ls) (h' : d'.Spelling ls) :
    d = d' := by
  obtain ⟨t, ht, hd⟩ := h.reads
  obtain ⟨t', ht', hd'⟩ := h'.reads
  rw [ht.unique ht', hd'] at hd
  cases hd
  rfl

theorem Document.parse_eq_ok_iff {source : String} {d : Document} :
    parse source = .ok d ↔ ∃ ls, Reading source.toList ls ∧ d.Spelling ls := by
  rw [parse, ofScan, State.run_eq_ok_iff]
  constructor
  · intro ⟨p, t, hp, ht, hd⟩
    have hscan : Scan.ofString source = ⟨(Scan.ofString source).tokens, .finished p⟩ := by rw [← hp]
    have reading := Lexer.reading_of_scan hscan
    exact ⟨_, reading, (spelling_iff_reads reading.hasNumber).2 ⟨t, ht, hd⟩⟩
  · intro ⟨ls, hls, hspell⟩
    obtain ⟨t, ht, hd⟩ := hspell.reads
    obtain ⟨ts, hts, rfl⟩ := exists_tokenize_iff_reading.2 hls
    rw [tokenize_eq_ok_iff.1 hts]
    exact ⟨_, t, rfl, ht, hd⟩

/-- The parser accepts exactly the grammar: a text parses to a document if and only if
    the whole of it is tokens and these spell the document; and no lexemes spell two. -/
theorem Document.parse_ok_iff_spelling :
    (∀ (source : String) (d : Document),
      parse source = .ok d ↔ ∃ ts, tokenize source = .ok ts ∧ d.Spelling (ts.map Token.lexeme)) ∧
    (∀ (ls : List Lexeme) (d d' : Document), d.Spelling ls → d'.Spelling ls → d = d') := by
  refine ⟨fun source d => ?_, fun ls d d' h h' => h.unique h'⟩
  simp only [parse_eq_ok_iff, ← exists_tokenize_iff_reading]
  constructor
  · intro h
    obtain ⟨_, ⟨ts, hts, rfl⟩, hd⟩ := h
    exact ⟨ts, hts, hd⟩
  · intro ⟨ts, hts, hd⟩
    exact ⟨_, ⟨ts, hts, rfl⟩, hd⟩

/-- Each `map` of `map<map, map> map` is told by what follows it. -/
theorem Document.parse_ok_iff_spelling_map :
    ∃ ts, tokenize "message M { map<map, map> map; }" = .ok ts ∧
      ∀ d : Document, d.Spelling (ts.map Token.lexeme) ↔
        d = ⟨[.message ⟨"M", [.field ⟨.plain, .map (.reference "map") (.reference "map"), "map"⟩]⟩]⟩ := by
  have h : parse "message M { map<map, map> map; }" =
      .ok ⟨[.message ⟨"M", [.field ⟨.plain, .map (.reference "map") (.reference "map"), "map"⟩]⟩]⟩ := by decide +kernel
  obtain ⟨ts, hts, hd⟩ := (parse_ok_iff_spelling.1 _ _).1 h
  refine ⟨ts, hts, fun d => ⟨fun h' => parse_ok_iff_spelling.2 _ _ _ h' hd, ?_⟩⟩
  intro h'
  rw [h']
  exact hd

end ServLang

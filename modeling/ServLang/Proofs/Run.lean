/-
  ServLang.Proofs.Run — runs of the states of `ServLang.Document.State` over lexemes,
  and what they say about reading a token stream. `Reads s ts t`: from `s`, every one
  of the lexemes fits, and `t` is the state after them.

  Proved:
  - `Reads.unique`, `Reads.append_iff`: a run has one end, and splits where its
    lexemes do.
  - `run_eq_ok_iff`, `run_eq_lex_iff`, `run_eq_parse_iff`: each of the three results of
    reading a stream says exactly what run there is, and where it stops.
  - `Reads.run_append`: reading a stream goes on behind a run.
-/

import ServLang.Document.Parser

namespace ServLang

namespace State

inductive Reads : State → List Lexeme → State → Prop
  | nil (s : State) : Reads s [] s
  | cons {s s' t : State} {l : Lexeme} {ls : List Lexeme} : s.shift l = .ok s' → Reads s' ls t → Reads s (l :: ls) t

/-! ## Runs -/

namespace Reads

theorem single {s t : State} {l : Lexeme} (h : s.shift l = .ok t) : Reads s [l] t := .cons h (.nil t)

theorem nil_iff {s t : State} : Reads s [] t ↔ s = t := by
  constructor
  · intro h
    cases h
    rfl
  · intro h
    cases h
    exact .nil s

theorem cons_iff_of_ok {s s' t : State} {l : Lexeme} {ls : List Lexeme} (hs : s.shift l = .ok s') :
    Reads s (l :: ls) t ↔ Reads s' ls t := by
  constructor
  · intro h
    cases h with
    | cons hs' h =>
      rw [hs] at hs'
      cases hs'
      exact h
  · exact .cons hs

theorem not_cons_of_error {s t : State} {l : Lexeme} {ls : List Lexeme} {expected : Expected}
    (hs : s.shift l = .error expected) : ¬ Reads s (l :: ls) t := by
  intro h
  cases h with
  | cons hs' _ =>
    rw [hs] at hs'
    cases hs'

theorem append {s t u : State} {ls ks : List Lexeme} (h : Reads s ls t) (hk : Reads t ks u) : Reads s (ls ++ ks) u := by
  induction h with
  | nil s => exact hk
  | cons hs _ ih => exact .cons hs (ih hk)

/-- A run over two lists passes through a state between them. -/
theorem append_iff {s u : State} {ls ks : List Lexeme} :
    Reads s (ls ++ ks) u ↔ ∃ t, Reads s ls t ∧ Reads t ks u := by
  constructor
  · intro h
    induction ls generalizing s with
    | nil => exact ⟨s, .nil s, h⟩
    | cons l ls ih =>
      cases h with
      | cons hs h =>
        obtain ⟨t, h1, h2⟩ := ih h
        exact ⟨t, .cons hs h1, h2⟩
  · intro ⟨t, h1, h2⟩
    exact h1.append h2

/-- The state after some lexemes is one. -/
theorem unique {s t u : State} {ls : List Lexeme} (ht : Reads s ls t) (hu : Reads s ls u) : t = u := by
  induction ht with
  | nil s => exact nil_iff.1 hu
  | cons hs _ ih => exact ih ((cons_iff_of_ok hs).1 hu)

/-- A run over lexemes and one more has its last step at the end. -/
theorem snoc_iff {s u : State} {ls : List Lexeme} {l : Lexeme} :
    Reads s (ls ++ [l]) u ↔ ∃ t, Reads s ls t ∧ t.shift l = .ok u := by
  rw [append_iff]
  constructor
  · intro ⟨t, h, hl⟩
    cases hl with
    | cons hs hn =>
      cases hn
      exact ⟨t, h, hs⟩
  · intro ⟨t, h, hs⟩
    exact ⟨t, h, .single hs⟩

end Reads

/-! ## Reading a token stream -/

/-- A document is found if all tokens are read and the text may end there. -/
theorem run_eq_ok_iff {s : State} {ts : List Token} {ending : Ending} {d : Document} :
    s.run ts ending = .ok d ↔
      ∃ p t, ending = .finished p ∧ Reads s (ts.map Token.lexeme) t ∧ t.finish = .ok d := by
  induction ts generalizing s with
  | nil =>
    simp only [List.map_nil, Reads.nil_iff]
    cases ending with
    | failed e => simp [run]
    | finished p =>
      rw [run]
      split
      · next d' hd => simp [hd]
      · next e he => simp [he]
  | cons t ts ih =>
    rw [run, List.map_cons]
    split
    · next s' hs =>
      rw [ih]
      simp only [Reads.cons_iff_of_ok hs]
    · next e hs => simp [Reads.not_cons_of_error hs]

theorem run_eq_lex_iff {s : State} {ts : List Token} {ending : Ending} {e : LexError} :
    s.run ts ending = .error (.lex e) ↔ ending = .failed e ∧ ∃ t, Reads s (ts.map Token.lexeme) t := by
  induction ts generalizing s with
  | nil =>
    simp only [List.map_nil, Reads.nil_iff]
    cases ending with
    | failed e' => simp [run]
    | finished p =>
      rw [run]
      split <;> simp
  | cons t ts ih =>
    rw [run, List.map_cons]
    split
    · next s' hs =>
      rw [ih]
      simp only [Reads.cons_iff_of_ok hs]
    · next e' hs => simp [Reads.not_cons_of_error hs]

/-- Reading goes on where a run has led. -/
theorem Reads.run_append {s t : State} {ts : List Token} (h : Reads s (ts.map Token.lexeme) t) (more : List Token)
    (ending : Ending) : s.run (ts ++ more) ending = t.run more ending := by
  induction ts generalizing s with
  | nil => rw [Reads.nil_iff.1 h, List.nil_append]
  | cons x ts ih =>
    cases h with
    | cons hs h =>
      rw [List.cons_append, run, hs]
      exact ih h

/-- Where a run stops that finds no document: before a token that does not fit, or at
    the end of the text. -/
inductive Stops (s : State) (ts : List Token) (ending : Ending) : Expected → Found → Prop
  | token {t : Token} {u : State} {expected : Expected} (before after : List Token) :
      ts = before ++ t :: after → Reads s (before.map Token.lexeme) u → u.shift t.lexeme = .error expected →
      Stops s ts ending expected (.token t)
  | endOfInput {p : Position} {u : State} {expected : Expected} :
      ending = .finished p → Reads s (ts.map Token.lexeme) u → u.finish = .error expected →
      Stops s ts ending expected (.endOfInput p)

namespace Stops

theorem nil_iff {s : State} {ending : Ending} {expected : Expected} {found : Found} :
    Stops s [] ending expected found ↔
      ∃ p, ending = .finished p ∧ s.finish = .error expected ∧ found = .endOfInput p := by
  constructor
  · intro h
    cases h with
    | token before after hts => simp at hts
    | endOfInput hp hu he =>
      cases hu
      exact ⟨_, hp, he, rfl⟩
  · intro h
    obtain ⟨p, hp, he, rfl⟩ := h
    exact .endOfInput hp (.nil s) he

theorem cons_iff_of_ok {s s' : State} {t : Token} {ts : List Token} {ending : Ending} {expected : Expected}
    {found : Found} (hs : s.shift t.lexeme = .ok s') :
    Stops s (t :: ts) ending expected found ↔ Stops s' ts ending expected found := by
  constructor
  · intro h
    cases h with
    | token before after hts hu he =>
      cases before with
      | nil =>
        obtain ⟨rfl, rfl⟩ := List.cons.inj hts
        rw [← Reads.nil_iff.1 hu, hs] at he
        cases he
      | cons x before =>
        obtain ⟨rfl, rfl⟩ := List.cons.inj hts
        exact .token before after rfl ((Reads.cons_iff_of_ok hs).1 hu) he
    | endOfInput hp hu he => exact .endOfInput hp ((Reads.cons_iff_of_ok hs).1 hu) he
  · intro h
    cases h with
    | token before after hts hu he => exact .token (t :: before) after (by rw [hts]; rfl) (.cons hs hu) he
    | endOfInput hp hu he => exact .endOfInput hp (.cons hs hu) he

theorem cons_iff_of_error {s : State} {t : Token} {ts : List Token} {ending : Ending} {expected e : Expected}
    {found : Found} (hs : s.shift t.lexeme = .error e) :
    Stops s (t :: ts) ending expected found ↔ expected = e ∧ found = .token t := by
  constructor
  · intro h
    cases h with
    | token before after hts hu he =>
      cases before with
      | nil =>
        obtain ⟨rfl, rfl⟩ := List.cons.inj hts
        rw [← Reads.nil_iff.1 hu, hs] at he
        cases he
        exact ⟨rfl, rfl⟩
      | cons x before =>
        obtain ⟨rfl, rfl⟩ := List.cons.inj hts
        exact absurd hu (Reads.not_cons_of_error hs)
    | endOfInput hp hu he => exact absurd hu (Reads.not_cons_of_error hs)
  · intro h
    obtain ⟨rfl, rfl⟩ := h
    exact .token [] ts rfl (.nil s) hs

end Stops

/-- A parse error is where the run stops. -/
theorem run_eq_parse_iff {s : State} {ts : List Token} {ending : Ending} {e : ParseError} :
    s.run ts ending = .error (.parse e) ↔ Stops s ts ending e.expected e.found := by
  obtain ⟨expected, found⟩ := e
  induction ts generalizing s with
  | nil =>
    rw [Stops.nil_iff]
    cases ending with
    | failed e' => simp [run]
    | finished p =>
      rw [run]
      split
      · next d hd => simp [hd]
      · next e he => simp [he, eq_comm]
  | cons t ts ih =>
    rw [run]
    split
    · next s' hs => rw [ih, Stops.cons_iff_of_ok hs]
    · next e' hs => simp [Stops.cons_iff_of_error hs, eq_comm]

end State

end ServLang

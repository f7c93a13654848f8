/-
  ServLang.Proofs.CanonicalLayout — what canonical text looks like. Blanks mean nothing to
  a reader, so that the text can be read back says nothing about them. A line has as many
  tabs as there are braces open before it, and that is a property of the characters
  alone; the printer counts no braces, but passes a depth down.

  The two agree because a definition, a member and an enumeration each close what they
  open: whatever is open before their lines is open behind them (`Tidy n text n`). Nothing
  else in a line is a brace, since names, paths and numbers have none.

  Proved:
  - `Enumeration.tidy`, `Member.tidy`, `Definition.tidy`: their lines are laid out for the
    depth they are printed at, and close what they open.
  - `Definition.layout_append`, `isLine_empty_layout_iff`: where the empty lines stand.
  - `Document.text_laidOut`: the layout of a document's canonical text.
-/

import ServLang.Proofs.RoundTrip

namespace ServLang

/-! ## Lines and braces of a text -/

/-- `line` is one of the lines that end in the text, and `before` is all that stands
    before it. -/
inductive IsLine : List Char → List Char → List Char → Prop
  | first {line rest : List Char} : '\n' ∉ line → IsLine (line ++ '\n' :: rest) [] line
  | later {first rest before line : List Char} : '\n' ∉ first → IsLine rest before line →
      IsLine (first ++ '\n' :: rest) (first ++ '\n' :: before) line

def brace (opened : Nat) (c : Char) : Nat :=
  if c = '{' then opened + 1 else if c = '}' then opened - 1 else opened

def unclosed (opened : Nat) (cs : List Char) : Nat := cs.foldl brace opened

def Starts (cs : List Char) : Prop := ∃ c rest, cs = c :: rest ∧ isBlank c = false

/-- Something with no blank at either end, and no opening brace before its end. -/
structure Tight (content : List Char) : Prop where
  first : Starts content
  last : ∃ cs c, content = cs ++ [c] ∧ isBlank c = false ∧ '{' ∉ cs

/-- A line where `depth` braces are open. A closing brace stands alone, one tab less deep. -/
inductive LaidOut : Nat → List Char → Prop
  | plain {depth : Nat} {content : List Char} : Tight content → '}' ∉ content →
      LaidOut depth (List.replicate depth '\t' ++ content)
  | closing (depth : Nat) : LaidOut (depth + 1) (List.replicate depth '\t' ++ ['}'])

theorem LaidOut.ne_nil {depth : Nat} {line : List Char} (h : LaidOut depth line) : line ≠ [] := by
  cases h with
  | plain tight _ =>
    obtain ⟨c, rest, rfl, -⟩ := tight.first
    simp
  | closing => simp

theorem unclosed_append (n : Nat) (cs ds : List Char) : unclosed n (cs ++ ds) = unclosed (unclosed n cs) ds :=
  List.foldl_append

theorem Starts.append {cs : List Char} (h : Starts cs) (more : List Char) : Starts (cs ++ more) := by
  obtain ⟨c, rest, rfl, hc⟩ := h
  exact ⟨c, rest ++ more, rfl, hc⟩

/-- A text starts with one line only. -/
theorem line_inj {a b xs ys : List Char} (ha : '\n' ∉ a) (hb : '\n' ∉ b) (h : a ++ '\n' :: xs = b ++ '\n' :: ys) :
    a = b ∧ xs = ys := by
  have take {cs : List Char} (hcs : '\n' ∉ cs) (rest : List Char) :
      (cs ++ '\n' :: rest).takeWhile (· ≠ '\n') = cs := by
    refine EndsRun.takeWhile_append (.cons (by decide)) (List.all_eq_true.2 fun c hc => ?_)
    exact decide_eq_true (ne_of_mem_of_not_mem hc hcs)
  have same : a = b := by rw [← take ha xs, h, take hb]
  subst same
  exact ⟨rfl, by simpa using h⟩

namespace IsLine

theorem not_nil {before line : List Char} : ¬ IsLine [] before line := by
  intro h
  generalize htext : ([] : List Char) = text at h
  cases h <;> simp at htext

/-- A line is the first of its text, or one of the lines behind. -/
theorem cons_iff {first rest before line : List Char} (hfirst : '\n' ∉ first) :
    IsLine (first ++ '\n' :: rest) before line ↔
      before = [] ∧ line = first ∨ ∃ b, before = first ++ '\n' :: b ∧ IsLine rest b line := by
  constructor
  · intro h
    generalize htext : first ++ '\n' :: rest = text at h
    cases h with
    | first hline => exact Or.inl ⟨rfl, (line_inj hline hfirst htext.symm).1⟩
    | later hline h =>
      obtain ⟨rfl, rfl⟩ := line_inj hline hfirst htext.symm
      exact Or.inr ⟨_, rfl, h⟩
  · rintro (⟨rfl, rfl⟩ | ⟨b, rfl, h⟩)
    · exact .first hfirst
    · exact .later hfirst h

end IsLine

/-! ## Lines laid out one after the other -/

/-- Lines for `n` braces that are open before them, and `m` that are open behind them. -/
inductive Tidy : Nat → List Char → Nat → Prop
  | nil (n : Nat) : Tidy n [] n
  | cons {n m : Nat} {line rest : List Char} : '\n' ∉ line → LaidOut n line → Tidy (unclosed n line) rest m →
      Tidy n (line ++ '\n' :: rest) m

namespace Tidy

variable {n m k : Nat} {text more before line : List Char}

theorem append (h : Tidy n text m) (h' : Tidy m more k) : Tidy n (text ++ more) k := by
  induction h with
  | nil => exact h'
  | cons hline hl _ ih =>
    rw [List.append_assoc]
    exact .cons hline hl (ih h')

theorem flatMap {α : Type} {f : α → List Char} {xs : List α} (h : ∀ x ∈ xs, Tidy n (f x) n) :
    Tidy n (xs.flatMap f) n := by
  induction xs with
  | nil => exact .nil n
  | cons x xs ih =>
    rw [List.flatMap_cons]
    exact (h x List.mem_cons_self).append (ih fun y hy => h y (List.mem_cons_of_mem _ hy))

/-- Tidy lines leave open what they say they do. -/
theorem unclosed_eq (h : Tidy n text m) : unclosed n text = m := by
  induction h with
  | nil => rfl
  | cons _ _ _ ih => rwa [unclosed_append]

/-- Every line of tidy lines is laid out at the depth where it stands. -/
theorem laidOut (h : Tidy n text m) (hl : IsLine text before line) : LaidOut (unclosed n before) line := by
  induction h generalizing before with
  | nil => exact absurd hl IsLine.not_nil
  | cons hfirst first _ ih =>
    rcases (IsLine.cons_iff hfirst).1 hl with ⟨rfl, rfl⟩ | ⟨b, rfl, hb⟩
    · exact first
    · rw [unclosed_append]
      -- The end of the first line is no brace.
      show LaidOut (unclosed (unclosed _ _) b) line
      exact ih hb

/-- Lines that are followed by others stay the lines they are. -/
theorem isLine_append_iff (h : Tidy n text m) :
    IsLine (text ++ more) before line ↔ IsLine text before line ∨ ∃ b, before = text ++ b ∧ IsLine more b line := by
  induction h generalizing before with
  | nil => simp [IsLine.not_nil]
  | @cons n m first rest hfirst _ _ ih =>
    rw [List.append_assoc, List.cons_append, IsLine.cons_iff hfirst, IsLine.cons_iff hfirst]
    constructor
    · rintro (hl | ⟨b, rfl, hb⟩)
      · exact Or.inl (Or.inl hl)
      · rcases ih.1 hb with h' | ⟨b', rfl, h'⟩
        · exact Or.inl (Or.inr ⟨b, rfl, h'⟩)
        · exact Or.inr ⟨b', by rw [List.append_assoc, List.cons_append], h'⟩
    · rintro ((hl | ⟨b, rfl, hb⟩) | ⟨b, rfl, hb⟩)
      · exact Or.inl hl
      · exact Or.inr ⟨b, rfl, ih.2 (Or.inl hb)⟩
      · exact Or.inr ⟨rest ++ b, by rw [List.append_assoc, List.cons_append], ih.2 (Or.inr ⟨b, rfl, hb⟩)⟩

theorem eq_nil_or_ends (h : Tidy n text m) : text = [] ∨ ∃ cs c, text = cs ++ [c, '\n'] ∧ c ≠ '\n' := by
  induction h with
  | nil => exact Or.inl rfl
  | @cons n m line rest hline laid _ ih =>
    right
    rcases ih with rfl | ⟨cs, c, rfl, hc⟩
    · obtain ⟨cs, c, rfl⟩ := (List.eq_nil_or_concat line).resolve_left laid.ne_nil
      exact ⟨cs, c, by simp, ne_of_mem_of_not_mem (by simp) hline⟩
    · exact ⟨line ++ '\n' :: cs, c, by simp, hc⟩

end Tidy

/-! ## What stands in a line -/

def Inline (cs : List Char) : Prop := ∀ c ∈ cs, c ≠ '\n' ∧ c ≠ '{' ∧ c ≠ '}'

instance (cs : List Char) : Decidable (Inline cs) :=
  List.decidableBAll (fun c => c ≠ '\n' ∧ c ≠ '{' ∧ c ≠ '}') cs

namespace Inline

variable {cs ds : List Char}

theorem append (h : Inline cs) (h' : Inline ds) : Inline (cs ++ ds) := by
  intro c hc
  rcases List.mem_append.1 hc with hc | hc
  · exact h c hc
  · exact h' c hc

theorem text (h : Inline cs) (more : String) (hmore : Inline more.toList := by decide) : Inline (cs ++ more.toList) :=
  h.append hmore

theorem unclosed_eq (h : Inline cs) (n : Nat) : unclosed n cs = n := by
  induction cs with
  | nil => rfl
  | cons c cs ih =>
    have hc := h c List.mem_cons_self
    show unclosed (brace n c) cs = n
    rw [brace, if_neg hc.2.1, if_neg hc.2.2, ih fun d hd => h d (List.mem_cons_of_mem _ hd)]

theorem tabs (n : Nat) : Inline (List.replicate n '\t') := by
  intro c hc
  rw [List.eq_of_mem_replicate hc]
  decide

theorem of_isWordRest (h : ∀ c ∈ cs, isWordRest c = true ∨ c = '.' ∨ c = '-') : Inline cs := by
  intro c hc
  refine ⟨?_, ?_, ?_⟩ <;> rintro rfl <;> exact absurd (h _ hc) (by decide)

end Inline

theorem Path.inline {path : String} (h : wellFormed path = true) : Inline path.toList :=
  .of_isWordRest fun _ hc => (isWordRest_of_wellFormed h hc).imp_right Or.inl

theorem Path.starts {path : String} (h : wellFormed path = true) : Starts path.toList := by
  cases hpath : path.toList with
  | nil =>
    rw [String.toList_eq_nil_iff.1 hpath] at h
    exact absurd h (by decide)
  | cons c cs =>
    have hc : isWordRest c = true ∨ c = '.' := isWordRest_of_wellFormed h (by rw [hpath]; exact List.mem_cons_self)
    refine ⟨c, cs, rfl, Bool.eq_false_iff.2 fun hblank => ?_⟩
    simp only [isBlank, Bool.or_eq_true, decide_eq_true_eq] at hblank
    rcases hblank with ((rfl | rfl) | rfl) | rfl <;> exact absurd hc (by decide)

theorem Decimal.Denotes.inline {literal : List Char} {n : Int} (h : Denotes literal n) : Inline literal := by
  have digits {cs : List Char} (hd : cs.all Char.isDigit = true) (c : Char) (hc : c ∈ cs) : isWordRest c = true := by
    simp [isWordRest, Char.isAlphanum, List.all_eq_true.1 hd c hc]
  refine .of_isWordRest fun c hc => ?_
  cases h with
  | plain _ hd => exact Or.inl (digits hd c hc)
  | negative _ hd =>
    rcases List.mem_cons.1 hc with rfl | hc
    · exact Or.inr (Or.inr rfl)
    · exact Or.inl (digits hd c hc)

theorem Ty.inline {ty : Ty} (h : ty.wellFormed = true) : Inline ty.text.toList := by
  induction ty with
  | scalar s => cases s <;> decide
  | reference path =>
    rw [wellFormed_reference] at h
    exact Path.inline h
  | map key value ihk ihv =>
    rw [wellFormed_map, Bool.and_eq_true] at h
    simp only [text, String.toList_append]
    exact (((Inline.append (by decide) (ihk h.1)).append (by decide)).append (ihv h.2)).append (by decide)

theorem Ty.starts {ty : Ty} (h : ty.wellFormed = true) : Starts ty.text.toList := by
  cases ty with
  | scalar s => cases s <;> exact ⟨_, _, rfl, rfl⟩
  | reference path =>
    rw [wellFormed_reference] at h
    exact Path.starts h
  | map key value =>
    simp only [text, String.toList_append, List.append_assoc]
    exact Starts.append ⟨_, _, rfl, rfl⟩ _

theorem Ty.inline_listText {types : List Ty} (h : types.all Ty.wellFormed = true) : Inline (listText types).toList := by
  fun_induction listLexemes types with
  | case1 => decide
  | case2 ty => simpa [listText] using Ty.inline (by simpa using h)
  | case3 ty next rest ih =>
    rw [List.all_cons, Bool.and_eq_true] at h
    have list := ((Ty.inline h.1).text ", ").append (ih h.2)
    simpa [listText, String.intercalate_cons_cons] using list

/-! ## Lines of a document -/

/-- A tight content is one tidy line, at its depth. -/
theorem Tidy.single {n m depth : Nat} {content : String} (hnewline : '\n' ∉ content.toList)
    (hlaid : LaidOut n (List.replicate depth '\t' ++ content.toList)) (hm : unclosed n content.toList = m) :
    Tidy n (Line.textAll [⟨depth, content⟩]) m := by
  have text : Line.textAll [⟨depth, content⟩] = (List.replicate depth '\t' ++ content.toList) ++ '\n' :: [] := by
    simp [Line.textAll, Line.text]
  have newline : '\n' ∉ List.replicate depth '\t' ++ content.toList := by
    rw [List.mem_append]
    rintro (h | h)
    · exact (Inline.tabs depth _ h).1 rfl
    · exact hnewline h
  rw [text]
  refine .cons newline hlaid ?_
  rw [unclosed_append, (Inline.tabs depth).unclosed_eq, hm]
  exact .nil m

/-- A line for its depth: nothing blank at its ends, and no brace but at the end. -/
theorem Tidy.line {n : Nat} {content : String} {cs : List Char} {c : Char} (hcontent : content.toList = cs ++ [c])
    (hstart : Starts content.toList) (hin : Inline cs) (hblank : isBlank c = false) (hc : c ≠ '}') :
    Tidy n (Line.textAll [⟨n, content⟩]) (brace n c) := by
  have notMem {x : Char} (hx : x = '\n' ∨ x = '}') : x ∉ content.toList := by
    rw [hcontent, List.mem_append, List.mem_singleton]
    rintro (h | rfl)
    · exact hx.elim (hin x h).1 (hin x h).2.2
    · rcases hx with rfl | rfl
      · exact absurd hblank (by decide)
      · exact hc rfl
  have tight : Tight content.toList := ⟨hstart, cs, c, hcontent, hblank, fun h => (hin _ h).2.1 rfl⟩
  refine Tidy.single (notMem (Or.inl rfl)) (.plain tight (notMem (Or.inr rfl))) ?_
  rw [hcontent, unclosed_append, hin.unclosed_eq]
  rfl

theorem Tidy.closing (n : Nat) : Tidy (n + 1) (Line.textAll [⟨n, "\x7d"⟩]) n :=
  .single (by decide) (.closing n) rfl

/-- A body between a head and a closing brace. -/
theorem Tidy.block {n : Nat} {word name : String} {body : List Line} (hname : isName name = true)
    (hstart : Starts word.toList) (hword : Inline word.toList) (h : Tidy (n + 1) (Line.textAll body) (n + 1)) :
    Tidy n (Line.textAll (⟨n, word ++ name ++ " \x7b"⟩ :: body ++ [⟨n, "\x7d"⟩])) n := by
  have head : Tidy n (Line.textAll [⟨n, word ++ name ++ " \x7b"⟩]) (n + 1) := by
    have front := (hword.append (Path.inline (Path.wellFormed_of_isName hname))).text " "
    refine Tidy.line (c := '{') (by simp) ?_ front (by decide) (by decide)
    rw [String.toList_append, String.toList_append, List.append_assoc]
    exact hstart.append _
  have whole := (head.append h).append (Tidy.closing n)
  rwa [← Line.textAll_append, ← Line.textAll_append] at whole

theorem Field.tidy {f : Field} (h : f.wellFormed = true) (n : Nat) : Tidy n (Line.textAll [⟨n, f.text⟩]) n := by
  rw [wellFormed, Bool.and_eq_true] at h
  have name := Path.inline (Path.wellFormed_of_isName h.1)
  have start : Starts f.text.toList := by
    simp only [text, String.toList_append, List.append_assoc]
    cases f.modifier with
    | plain => exact (Ty.starts h.2).append _
    | optional => exact Starts.append ⟨_, _, rfl, rfl⟩ _
    | required => exact Starts.append ⟨_, _, rfl, rfl⟩ _
  have modifier : Inline f.modifier.text.toList := by cases f.modifier <;> decide
  have front := ((modifier.append (Ty.inline h.2)).text " ").append name
  exact Tidy.line (c := ';') (by simp [text]) start front (by decide) (by decide)

theorem EnumValue.tidy {v : EnumValue} (h : isName v.key = true) (n : Nat) : Tidy n (Line.textAll [⟨n, v.text⟩]) n := by
  have key := Path.wellFormed_of_isName h
  have start : Starts v.text.toList := by
    simp only [text, String.toList_append, List.append_assoc]
    exact (Path.starts key).append _
  have front := ((Path.inline key).text " = ").append (Decimal.denotes_write v.value.toInt).inline
  exact Tidy.line (c := ';') (by simp [text]) start front (by decide) (by decide)

theorem Enumeration.tidy {e : Enumeration} (h : e.wellFormed = true) (n : Nat) :
    Tidy n (Line.textAll (e.lines n)) n := by
  rw [wellFormed, Bool.and_eq_true, List.all_eq_true] at h
  have values : Tidy (n + 1) (Line.textAll (e.values.map fun v => ⟨n + 1, v.text⟩)) (n + 1) := by
    rw [Line.textAll, List.flatMap_map]
    refine .flatMap fun v hv => ?_
    simpa [Line.textAll] using EnumValue.tidy (h.2 v hv) (n + 1)
  exact .block h.1 ⟨_, _, rfl, rfl⟩ (by decide) values

/-- What a member opens it closes, at every depth. -/
theorem Member.tidy {m : Member} (h : m.wellFormed = true) (n : Nat) : Tidy n (Line.textAll (m.lines n)) n := by
  induction m generalizing n with
  | field f => exact Field.tidy (by simpa [wellFormed] using h) n
  | enumeration e => exact Enumeration.tidy (by simpa [wellFormed] using h) n
  | message name members ih =>
    rw [wellFormed, Bool.and_eq_true, wellFormedAll_iff] at h
    have body : Tidy (n + 1) (Line.textAll (linesAll (n + 1) members)) (n + 1) := by
      rw [linesAll_eq_flatMap, Line.textAll, List.flatMap_assoc]
      exact .flatMap fun m hm => ih m hm (h.2 m hm) (n + 1)
    exact .block h.1 ⟨_, _, rfl, rfl⟩ (by decide) body

theorem Service.tidy {s : Service} (h : s.wellFormed = true) (direction : Direction) (n : Nat) :
    Tidy n (Line.textAll [⟨n, s.text direction⟩]) n := by
  simp only [wellFormed, types, List.all_append, Bool.and_eq_true] at h
  obtain ⟨hname, hreq, hres⟩ := h
  have word : Starts direction.word.toList ∧ Inline direction.word.toList := by
    cases direction <;> exact ⟨⟨_, _, rfl, rfl⟩, by decide⟩
  have start : Starts (s.text direction).toList := by
    simp only [text, String.toList_append, List.append_assoc]
    exact word.1.append _
  have name := Path.inline (Path.wellFormed_of_isName hname)
  have head := ((word.2.text " ").append name).text "("
  have request := (head.append (Ty.inline_listText hreq)).text ")"
  rcases s with ⟨name, request, _ | ty⟩
  · exact Tidy.line (c := ';') (by simp [text]) start request (by decide) (by decide)
  · have response := (request.text ": ").append (Ty.inline (by simpa using hres))
    exact Tidy.line (c := ';') (by simp [text]) start response (by decide) (by decide)

/-- A definition opens and closes its own braces. -/
theorem Definition.tidy {d : Definition} (h : d.wellFormed = true) : Tidy 0 (Line.textAll d.lines) 0 := by
  cases d with
  | message m =>
    rw [wellFormed_message] at h
    exact Member.tidy h 0
  | service direction s => exact Service.tidy h direction 0

/-! ## Empty lines -/

namespace Definition

def gap (d e : Definition) : List Char := if d.isMessage || e.isMessage then ['\n'] else []

/-- The gap behind a definition depends on the next one only. -/
theorem textAll_layout_cons {d e : Definition} {ds : List Definition} (h : ds.head? = some e) :
    Line.textAll (layout (d :: ds)) = Line.textAll (layout [d]) ++ (gap d e ++ Line.textAll (layout ds)) := by
  cases ds with
  | nil => cases h
  | cons e ds =>
    cases h
    rw [layout, layout, Line.textAll_append, Line.textAll_append, List.append_assoc]
    congr 2
    unfold gap
    split <;> rfl

/-- The empty line between two definitions, if either is a message. -/
theorem isLine_gap_append_iff {d e : Definition} {text before line : List Char} :
    IsLine (gap d e ++ text) before line ↔
      (d.isMessage = true ∨ e.isMessage = true) ∧ before = [] ∧ line = [] ∨
        ∃ b, before = gap d e ++ b ∧ IsLine text b line := by
  unfold gap
  split
  · next h =>
    rw [Bool.or_eq_true] at h
    simpa [h] using @IsLine.cons_iff [] text before line (by simp)
  · next h =>
    rw [Bool.or_eq_true] at h
    simp [h]

/-- The lines of definitions are those of the first one, the empty line behind it, if there
    is one, and those of the others. -/
theorem isLine_layout_cons_iff {d e : Definition} {rest : List Definition} (h : d.wellFormed = true)
    {before line : List Char} :
    IsLine (Line.textAll (layout (d :: e :: rest))) before line ↔
      IsLine (Line.textAll (layout [d])) before line ∨
      ((d.isMessage = true ∨ e.isMessage = true) ∧ before = Line.textAll (layout [d]) ∧ line = []) ∨
      ∃ b, before = Line.textAll (layout [d]) ++ (gap d e ++ b) ∧ IsLine (Line.textAll (layout (e :: rest))) b line := by
  have first : Tidy 0 (Line.textAll (layout [d])) 0 := tidy h
  rw [textAll_layout_cons rfl, first.isLine_append_iff]
  simp only [isLine_gap_append_iff]
  constructor
  · rintro (h | ⟨b, rfl, ⟨hm, rfl, rfl⟩ | ⟨b, rfl, h⟩⟩)
    · exact Or.inl h
    · exact Or.inr (Or.inl ⟨hm, by simp, rfl⟩)
    · exact Or.inr (Or.inr ⟨b, rfl, h⟩)
  · rintro (h | ⟨hm, rfl, rfl⟩ | ⟨b, rfl, h⟩)
    · exact Or.inl h
    · exact Or.inr ⟨[], by simp, Or.inl ⟨hm, rfl, rfl⟩⟩
    · exact Or.inr ⟨_, rfl, Or.inr ⟨b, rfl, h⟩⟩

/-- The lines of all definitions, by induction over these. -/
theorem laidOut_layout {ds : List Definition} (h : ∀ d ∈ ds, d.wellFormed = true) {before line : List Char}
    (hl : IsLine (Line.textAll (layout ds)) before line) (hne : line ≠ []) : LaidOut (unclosed 0 before) line := by
  fun_induction layout ds generalizing before with
  | case1 => exact absurd hl IsLine.not_nil
  | case2 d => exact (tidy (h d List.mem_cons_self)).laidOut hl
  | case3 d e rest ih =>
    have first : Tidy 0 (Line.textAll (layout [d])) 0 := tidy (h d List.mem_cons_self)
    rcases (isLine_layout_cons_iff (h d List.mem_cons_self)).1 hl with hd | ⟨-, -, rfl⟩ | ⟨b, rfl, hrest⟩
    · exact first.laidOut hd
    · exact absurd rfl hne
    · have gap : unclosed 0 (gap d e) = 0 := by
        unfold Definition.gap
        split <;> rfl
      rw [unclosed_append, first.unclosed_eq, unclosed_append, gap]
      exact ih (fun x hx => h x (List.mem_cons_of_mem _ hx)) hrest

/-- An empty line stands behind each definition that another follows if one of the two is a
    message, and nowhere else. -/
theorem isLine_empty_layout_iff {ds : List Definition} (h : ∀ d ∈ ds, d.wellFormed = true) {before : List Char} :
    IsLine (Line.textAll (layout ds)) before [] ↔
      ∃ front x y back, ds = front ++ x :: y :: back ∧ (x.isMessage = true ∨ y.isMessage = true) ∧
        before = Line.textAll (layout (front ++ [x])) := by
  have full {d : Definition} (hd : d.wellFormed = true) {before : List Char} :
      ¬ IsLine (Line.textAll (layout [d])) before [] := fun hl => ((tidy hd).laidOut hl).ne_nil rfl
  induction ds generalizing before with
  | nil => simp [layout, Line.textAll, IsLine.not_nil]
  | cons d rest ih =>
    have hd := h d List.mem_cons_self
    cases rest with
    | nil =>
      refine ⟨fun hl => absurd hl (full hd), ?_⟩
      rintro ⟨front, x, y, back, hds, -⟩
      have short := congrArg List.length hds
      simp at short
      omega
    | cons e rest =>
      have others {b : List Char} := @ih (fun x hx => h x (List.mem_cons_of_mem _ hx)) b
      -- A later empty line has the first definition and its gap before what `ih` puts there.
      have join {front back : List Definition} {x y : Definition} (hds : e :: rest = front ++ x :: y :: back) :
          Line.textAll (layout (d :: (front ++ [x]))) =
            Line.textAll (layout [d]) ++ (gap d e ++ Line.textAll (layout (front ++ [x]))) :=
        textAll_layout_cons (by cases front <;> cases hds <;> rfl)
      rw [isLine_layout_cons_iff hd]
      constructor
      · rintro (hl | ⟨hm, rfl, -⟩ | ⟨b, rfl, hl⟩)
        · exact absurd hl (full hd)
        · exact ⟨[], d, e, rest, rfl, hm, rfl⟩
        · obtain ⟨front, x, y, back, hds, hm, rfl⟩ := others.1 hl
          exact ⟨d :: front, x, y, back, by rw [hds]; rfl, hm, (join hds).symm⟩
      · rintro ⟨front, x, y, back, hds, hm, rfl⟩
        rcases front with _ | ⟨f, front⟩
        · cases hds
          exact Or.inr (Or.inl ⟨hm, rfl, rfl⟩)
        · obtain ⟨rfl, htail⟩ := List.cons.inj hds
          exact Or.inr (Or.inr ⟨_, join htail, others.2 ⟨front, x, y, back, htail, hm, rfl⟩⟩)

/-- Definitions are printed one after the other, with a gap between each two. -/
theorem textAll_layout_append (front : List Definition) (x y : Definition) (back : List Definition) :
    Line.textAll (layout (front ++ x :: y :: back)) =
      Line.textAll (layout (front ++ [x])) ++ gap x y ++ Line.textAll (layout (y :: back)) := by
  induction front with
  | nil =>
    rw [List.nil_append, textAll_layout_cons rfl, List.append_assoc]
    rfl
  | cons d front ih =>
    obtain ⟨e, hshort, hlong⟩ : ∃ e, (front ++ [x]).head? = some e ∧ (front ++ x :: y :: back).head? = some e := by
      cases front <;> exact ⟨_, rfl, rfl⟩
    rw [List.cons_append, List.cons_append, textAll_layout_cons hlong, textAll_layout_cons hshort, ih]
    simp only [List.append_assoc]

theorem layout_ends {ds : List Definition} (h : ∀ d ∈ ds, d.wellFormed = true) (hne : ds ≠ []) :
    ∃ cs c, Line.textAll (layout ds) = cs ++ [c, '\n'] ∧ c ≠ '\n' := by
  fun_induction layout ds with
  | case1 => exact absurd rfl hne
  | case2 d =>
    refine (tidy (h d List.mem_cons_self)).eq_nil_or_ends.resolve_left ?_
    cases d <;> simp [lines, Message.lines, Member.lines, Line.textAll]
  | case3 d e rest ih =>
    obtain ⟨cs, c, hcs, hc⟩ := ih (fun x hx => h x (List.mem_cons_of_mem _ hx)) (List.cons_ne_nil _ _)
    exact ⟨_, c, by rw [Line.textAll_append, hcs, ← List.append_assoc], hc⟩

end Definition

namespace Document

/-- Canonical text is empty for a document without definitions, and else ends with one line
    end. A line that is not empty has a tab for each brace that is open before it, one less
    if it is a closing brace, and no other blank at its ends; braces open at the end of a
    line only, and close on lines of their own. Between two definitions there is one empty
    line if one of them is a message, and none if both are services; no other line is empty. -/
theorem text_laidOut {d : Document} (h : d.wellFormed = true) :
    (d.definitions = [] → d.text = "") ∧
    (d.definitions ≠ [] → ∃ cs c, d.text.toList = cs ++ [c, '\n'] ∧ c ≠ '\n') ∧
    (∀ before line, IsLine d.text.toList before line → line ≠ [] → LaidOut (unclosed 0 before) line) ∧
    (∀ front x y back, d.definitions = front ++ x :: y :: back →
      d.text.toList =
        (mk (front ++ [x])).text.toList ++ Definition.gap x y ++ (mk (y :: back)).text.toList) ∧
    (∀ before, IsLine d.text.toList before [] ↔
      ∃ front x y back, d.definitions = front ++ x :: y :: back ∧ (x.isMessage = true ∨ y.isMessage = true) ∧
        before = (mk (front ++ [x])).text.toList) := by
  have all := List.all_eq_true.1 h
  simp only [toList_text]
  refine ⟨fun hnil => ?_, Definition.layout_ends all, fun before line => Definition.laidOut_layout all, ?_, fun before =>
    Definition.isLine_empty_layout_iff all⟩
  · rw [text, lines, hnil]
    rfl
  · intro front x y back hds
    rw [hds, Definition.textAll_layout_append]

/-- An enumeration in a message, and two services. -/
theorem text_laidOut_enumeration :
    (mk []).text = "" ∧
    let d : Document := ⟨[.message ⟨"M", [.enumeration ⟨"E", [⟨"K", 1⟩]⟩]⟩, .service .inbound ⟨"s", [], none⟩,
      .service .outbound ⟨"t", [], some (.scalar .bool)⟩]⟩
    (∃ cs c, d.text.toList = cs ++ [c, '\n'] ∧ c ≠ '\n') ∧
    LaidOut 2 "\t\tK = 1;".toList ∧
    IsLine d.text.toList "message M \x7b\n\tenum E \x7b\n\t\tK = 1;\n\t\x7d\n\x7d\n".toList [] ∧
    d.text.toList = (mk (d.definitions.take 2)).text.toList ++ [] ++ (mk (d.definitions.drop 2)).text.toList := by
  refine ⟨(text_laidOut (d := ⟨[]⟩) rfl).1 rfl, ?_⟩
  intro d
  have hd : d.wellFormed = true := by decide +kernel
  have text : d.text.toList = "message M \x7b".toList ++ '\n' :: ("\tenum E \x7b".toList ++ '\n' ::
      ("\t\tK = 1;".toList ++ '\n' :: "\t\x7d\n\x7d\n\ninbound s();\noutbound t(): bool;\n".toList)) := by
    decide +kernel
  have line : IsLine d.text.toList ("message M \x7b".toList ++ '\n' :: ("\tenum E \x7b".toList ++ '\n' :: []))
      "\t\tK = 1;".toList := by
    rw [text]
    exact .later (by decide) (.later (by decide) (.first (by decide)))
  have depth : unclosed 0 ("message M \x7b".toList ++ '\n' :: ("\tenum E \x7b".toList ++ '\n' :: [])) = 2 := by
    decide +kernel
  obtain ⟨-, ends, laid, split, empty⟩ := text_laidOut hd
  refine ⟨ends (List.cons_ne_nil _ _), depth ▸ laid _ _ line (by decide), ?_, ?_⟩
  · exact (empty _).2 ⟨[], _, _, _, rfl, Or.inl rfl, by decide +kernel⟩
  · exact split [_] _ _ _ rfl

end Document

end ServLang

/-
  ServLang.Proofs.RoundTrip — canonical text and the documents it is read from. A
  document's canonical text consists of the document's canonical `lexemes`, and these
  spell the document, whatever its names are. If the names are names, the text is read
  as these lexemes, so it parses to the document; and a document that any text parses
  to has names only, since the lexer makes no other identifiers.

  Proved:
  - `Document.spelling_lexemes`: the canonical lexemes spell the document.
  - `Document.reading_text`: the canonical text of a well-formed document is read as
    them.
  - `Document.wellFormed_of_parse`: what is parsed is well-formed.
  - `Document.parse_text_iff_wellFormed`: printing and parsing are inverse on the
    well-formed documents, which are those that a text parses to, and on no other.
-/

import ServLang.Document.Printer
import ServLang.Proofs.Acceptance

namespace ServLang

/-! ## Canonical lexemes -/

def Path.lexemes (path : String) : List Lexeme :=
  match Path.parts path.toList with
  | [] => []
  | first :: rest =>
    .identifier (String.ofList first) :: rest.flatMap fun part => [.punct .dot, .identifier (String.ofList part)]

namespace Ty

def lexemes : Ty → List Lexeme
  | scalar s => [.scalar s]
  | map key value =>
    .identifier "map" :: .punct .less :: key.lexemes ++ .punct .comma :: value.lexemes ++ [.punct .greater]
  | reference path => Path.lexemes path

def listLexemes : List Ty → List Lexeme
  | [] => []
  | [ty] => ty.lexemes
  | ty :: next :: rest => ty.lexemes ++ .punct .comma :: listLexemes (next :: rest)

end Ty

def EnumValue.lexemes (v : EnumValue) : List Lexeme :=
  [.identifier v.key, .punct .equals, .integer (String.ofList (Decimal.write v.value.toInt)), .punct .semicolon]

def Enumeration.lexemes (e : Enumeration) : List Lexeme :=
  .keyword .enumeration :: .identifier e.name :: .punct .leftBrace :: e.values.flatMap EnumValue.lexemes ++
    [.punct .rightBrace]

namespace Member

mutual

/-- A field ends with a semicolon, and nothing else does. -/
def lexemes : Member → List Lexeme
  | field f => f.modifier.lexemes ++ f.type.lexemes ++ [.identifier f.name, .punct .semicolon]
  | enumeration e => e.lexemes
  | message name members =>
    .keyword .message :: .identifier name :: .punct .leftBrace :: lexemesAll members ++ [.punct .rightBrace]

def lexemesAll : List Member → List Lexeme
  | [] => []
  | m :: ms => m.lexemes ++ lexemesAll ms

end

end Member

def Service.lexemes (direction : Direction) (s : Service) : List Lexeme :=
  .keyword direction.keyword :: .identifier s.name :: .punct .leftParen :: Ty.listLexemes s.request ++
    .punct .rightParen ::
      (match s.response with
        | some ty => .punct .colon :: ty.lexemes
        | none => []) ++ [.punct .semicolon]

def Definition.lexemes : Definition → List Lexeme
  | message m => (Member.message m.name m.members).lexemes
  | service direction s => s.lexemes direction

def Document.lexemes (d : Document) : List Lexeme := d.definitions.flatMap Definition.lexemes

/-! ## They spell the document -/

theorem Path.spelling_rest {base : String} {ts : List Lexeme} (h : (Ty.reference base).Spelling ts)
    (rest : List (List Char)) :
    (Ty.reference (String.ofList (base.toList ++ rest.flatMap ('.' :: ·)))).Spelling
      (ts ++ rest.flatMap fun part => [.punct .dot, .identifier (String.ofList part)]) := by
  induction rest generalizing base ts with
  | nil => simpa using h
  | cons part rest ih =>
    have next := ih (.dotted (String.ofList part) h)
    simpa [Path.join] using next

theorem Path.spelling_lexemes (path : String) : (Ty.reference path).Spelling (Path.lexemes path) := by
  obtain ⟨first, rest, hparts, hpath⟩ := Path.exists_parts path.toList
  have h := Path.spelling_rest (.name (String.ofList first)) rest
  rw [String.toList_ofList, ← hpath, String.ofList_toList] at h
  simpa [Path.lexemes, hparts] using h

theorem Ty.spelling_lexemes (ty : Ty) : ty.Spelling ty.lexemes := by
  induction ty with
  | scalar s => exact .scalar s
  | map key value ihk ihv => exact .map ihk ihv
  | reference path => exact Path.spelling_lexemes path

theorem Ty.spelling_listLexemes (types : List Ty) : Separated .comma Ty.Spelling types (listLexemes types) := by
  fun_induction listLexemes types with
  | case1 => exact .nil
  | case2 ty => exact .single ty.spelling_lexemes
  | case3 ty next rest ih =>
    have h : Separated .comma Ty.Spelling (ty :: next :: rest)
        (ty.lexemes ++ Punct.comma.times 1 ++ listLexemes (next :: rest)) := .cons 1 ty.spelling_lexemes ih
    simpa [Punct.times] using h

/-- Items that end with as many separators as they like make a run of them. -/
theorem Separated.flatMap {α : Type} {separator : Punct} {spells : α → List Lexeme → Prop} {f : α → List Lexeme}
    {xs : List α} (h : ∀ x ∈ xs, Separated separator spells [x] (f x)) :
    Separated separator spells xs (xs.flatMap f) := by
  induction xs with
  | nil => exact .nil
  | cons x xs ih =>
    rw [List.flatMap_cons]
    exact (h x List.mem_cons_self).append (ih fun y hy => h y (List.mem_cons_of_mem _ hy))

theorem EnumValue.spelling_lexemes (v : EnumValue) : Separated .semicolon EnumValue.Spelling [v] v.lexemes := by
  have value : Decimal.Denotes (String.ofList (Decimal.write v.value.toInt)).toList v.value.toInt := by
    rw [String.toList_ofList]
    exact Decimal.denotes_write _
  exact (Separated.single (EnumValue.Spelling.assign v.key _ value)).snoc_separator (List.cons_ne_nil _ _)

theorem Member.lexemesAll_eq_flatMap (members : List Member) : lexemesAll members = members.flatMap lexemes := by
  induction members with
  | nil => rfl
  | cons m ms ih => rw [lexemesAll, ih, List.flatMap_cons]

theorem Member.spelling_lexemes (m : Member) : Separated .semicolon Member.Spelling [m] m.lexemes := by
  induction m with
  | field f =>
    have field : (Member.field f).Spelling (f.modifier.lexemes ++ f.type.lexemes ++ [.identifier f.name]) :=
      .field f.modifier f.name f.type.spelling_lexemes
    simpa [lexemes] using (Separated.single field).snoc_separator (List.cons_ne_nil _ _)
  | enumeration e =>
    have values : Separated .semicolon EnumValue.Spelling e.values (e.values.flatMap EnumValue.lexemes) :=
      .flatMap fun v _ => v.spelling_lexemes
    simpa [lexemes] using Separated.single (.enumeration e.name values)
  | message name members ih =>
    rw [lexemes, lexemesAll_eq_flatMap]
    exact .single (.message name (.flatMap ih))

theorem Definition.spelling_lexemes (d : Definition) : d.Spelling d.lexemes := by
  cases d with
  | message m =>
    rw [lexemes, Member.lexemes, Member.lexemesAll_eq_flatMap]
    exact .message (.message m.name (.flatMap fun m _ => m.spelling_lexemes))
  | service direction s =>
    have response : Service.ResponseSpelling s.response
        (match s.response with
          | some ty => .punct .colon :: ty.lexemes
          | none => []) := by
      cases s.response with
      | none => exact .none
      | some ty => exact .some ty.spelling_lexemes
    exact .service direction s.name (Ty.spelling_listLexemes s.request) response

/-- What is printed is a spelling of the document. -/
theorem Document.spelling_lexemes (d : Document) : d.Spelling d.lexemes :=
  Separated.flatMap fun x _ => .single x.spelling_lexemes

/-! ## Canonical text reads as them -/

/-- Whatever comes behind, the text reads as the lexemes. -/
def Prints (text : List Char) (ls : List Lexeme) : Prop :=
  ∀ cs ks, Reading cs ks → Reading (text ++ cs) (ls ++ ks)

theorem Prints.append {text more : List Char} {ls ks : List Lexeme} (h : Prints text ls) (h' : Prints more ks) :
    Prints (text ++ more) (ls ++ ks) := by
  intro cs rest hcs
  rw [List.append_assoc, List.append_assoc]
  exact h _ _ (h' _ _ hcs)

theorem Prints.flatMap {α : Type} {text : α → List Char} {ls : α → List Lexeme} {xs : List α}
    (h : ∀ x ∈ xs, Prints (text x) (ls x)) : Prints (xs.flatMap text) (xs.flatMap ls) := by
  induction xs with
  | nil => exact fun _ _ h => h
  | cons x xs ih =>
    rw [List.flatMap_cons, List.flatMap_cons]
    exact (h x List.mem_cons_self).append (ih fun y hy => h y (List.mem_cons_of_mem _ hy))

theorem Path.reading_rest {rest : List (List Char)} (h : ∀ part ∈ rest, isName (String.ofList part) = true)
    {cs : List Char} {ks : List Lexeme} (hcs : EndsRun isWordRest cs) (hks : Reading cs ks) :
    EndsRun isWordRest (rest.flatMap ('.' :: ·) ++ cs) ∧
    Reading (rest.flatMap ('.' :: ·) ++ cs)
      ((rest.flatMap fun part => [.punct .dot, .identifier (String.ofList part)]) ++ ks) := by
  induction rest with
  | nil => exact ⟨hcs, hks⟩
  | cons part rest ih =>
    obtain ⟨hrun, hread⟩ := ih fun x hx => h x (List.mem_cons_of_mem _ hx)
    have name := Reading.name (h part List.mem_cons_self) hrun hread
    rw [String.toList_ofList] at name
    refine ⟨.cons rfl, ?_⟩
    simpa [Punct.sign] using Reading.punct .dot name

theorem Path.reading {path : String} (h : Path.wellFormed path = true) {cs : List Char} {ks : List Lexeme}
    (hcs : EndsRun isWordRest cs) (hks : Reading cs ks) : Reading (path.toList ++ cs) (Path.lexemes path ++ ks) := by
  obtain ⟨first, rest, hparts, hpath⟩ := Path.exists_parts path.toList
  rw [Path.wellFormed, hparts, List.all_cons, Bool.and_eq_true, List.all_eq_true] at h
  obtain ⟨hrun, hread⟩ := Path.reading_rest h.2 hcs hks
  have name := Reading.name h.1 hrun hread
  rw [String.toList_ofList, ← List.append_assoc, ← hpath] at name
  simpa [Path.lexemes, hparts] using name

theorem Ty.reading {ty : Ty} (h : ty.wellFormed = true) {cs : List Char} {ks : List Lexeme}
    (hcs : EndsRun isWordRest cs) (hks : Reading cs ks) : Reading (ty.text.toList ++ cs) (ty.lexemes ++ ks) := by
  induction ty generalizing cs ks with
  | scalar s => exact .scalar s hcs hks
  | reference path =>
    rw [wellFormed_reference] at h
    exact Path.reading h hcs hks
  | map key value ihk ihv =>
    rw [wellFormed_map, Bool.and_eq_true] at h
    have value_read := ihv h.2 (.cons rfl) (Reading.punct .greater hks)
    have key_read := ihk h.1 (.cons rfl) (Reading.punct .comma (.space value_read))
    have map_read := Reading.name (n := "map") (by decide) (.cons rfl) (Reading.punct .less key_read)
    simpa [text, lexemes, Punct.sign] using map_read

/-- A list of types, before the parenthesis that ends it. -/
theorem Ty.reading_listText {types : List Ty} (h : types.all Ty.wellFormed = true) {cs : List Char} {ks : List Lexeme}
    (hcs : EndsRun isWordRest cs) (hks : Reading cs ks) :
    Reading ((listText types).toList ++ cs) (listLexemes types ++ ks) := by
  fun_induction listLexemes types with
  | case1 => simpa [listText] using hks
  | case2 ty =>
    have hty : ty.wellFormed = true := by simpa using h
    simpa [listText] using Ty.reading hty hcs hks
  | case3 ty next rest ih =>
    rw [List.all_cons, Bool.and_eq_true] at h
    have rest_read := Reading.punct .comma (.space (ih h.2))
    have list_read := Ty.reading h.1 (.cons rfl) rest_read
    simpa [listText, String.intercalate_cons_cons, Punct.sign] using list_read

theorem Modifier.prints (m : Modifier) : Prints m.text.toList m.lexemes := by
  intro cs ks h
  cases m with
  | plain => exact h
  | optional => exact Reading.keyword .optional (.cons rfl) (.space h)
  | required => exact Reading.keyword .required (.cons rfl) (.space h)

theorem Field.prints {f : Field} (h : f.wellFormed = true) : Prints f.text.toList (Member.field f).lexemes := by
  intro cs ks hks
  rw [wellFormed, Bool.and_eq_true] at h
  have name := Reading.name h.1 (.cons rfl) (Reading.punct .semicolon hks)
  have field := f.modifier.prints _ _ (Ty.reading h.2 (.cons rfl) (.space name))
  simpa [text, Member.lexemes, Punct.sign] using field

theorem EnumValue.prints {v : EnumValue} (h : isName v.key = true) : Prints v.text.toList v.lexemes := by
  intro cs ks hks
  have value := Reading.decimal v.value.toInt (.cons rfl) (Reading.punct .semicolon hks)
  have equals := Reading.punct .equals (.space value)
  have assign := Reading.name h (.cons rfl) (.space equals)
  simpa [text, lexemes, Punct.sign] using assign

/-! ### Lines -/

def Line.textAll (lines : List Line) : List Char := lines.flatMap fun line => line.text.toList ++ ['\n']

@[simp] theorem Line.textAll_append (lines more : List Line) :
    textAll (lines ++ more) = textAll lines ++ textAll more :=
  List.flatMap_append

theorem Line.prints {content : String} {ls : List Lexeme} (h : Prints content.toList ls) (depth : Nat) :
    Prints (textAll [⟨depth, content⟩]) ls := by
  intro cs ks hks
  have line := Reading.tabs depth (h _ _ (.newline hks))
  simpa [textAll, text] using line

theorem Prints.closingBrace : Prints "\x7d".toList [.punct .rightBrace] := fun _ _ h => .punct .rightBrace h

theorem Enumeration.prints {e : Enumeration} (h : e.wellFormed = true) (depth : Nat) :
    Prints (Line.textAll (e.lines depth)) e.lexemes := by
  rw [wellFormed, Bool.and_eq_true, List.all_eq_true] at h
  have head : Prints ("enum " ++ e.name ++ " \x7b").toList
      [.keyword .enumeration, .identifier e.name, .punct .leftBrace] := by
    intro cs ks hks
    have name := Reading.name h.1 (.cons rfl) (.space (Reading.punct .leftBrace hks))
    simpa [Keyword.word, Punct.sign] using Reading.keyword .enumeration (.cons rfl) (.space name)
  have values : Prints (Line.textAll (e.values.map fun v => ⟨depth + 1, v.text⟩))
      (e.values.flatMap EnumValue.lexemes) := by
    rw [Line.textAll, List.flatMap_map]
    refine .flatMap fun v hv => ?_
    simpa [Line.textAll] using Line.prints (EnumValue.prints (h.2 v hv)) (depth + 1)
  have whole := ((Line.prints head depth).append values).append (Line.prints .closingBrace depth)
  simpa [lines, lexemes, Line.textAll] using whole

theorem Member.linesAll_eq_flatMap (depth : Nat) (members : List Member) :
    linesAll depth members = members.flatMap (lines depth) := by
  induction members with
  | nil => rfl
  | cons m ms ih => rw [linesAll, ih, List.flatMap_cons]

/-- By the tree: the lines of a member read as its lexemes. -/
theorem Member.prints {m : Member} (h : m.wellFormed = true) (depth : Nat) :
    Prints (Line.textAll (m.lines depth)) m.lexemes := by
  induction m generalizing depth with
  | field f => exact Line.prints (Field.prints (by simpa [wellFormed] using h)) depth
  | enumeration e => exact Enumeration.prints (by simpa [wellFormed] using h) depth
  | message name members ih =>
    rw [wellFormed, Bool.and_eq_true, wellFormedAll_iff] at h
    have head : Prints ("message " ++ name ++ " \x7b").toList
        [.keyword .message, .identifier name, .punct .leftBrace] := by
      intro cs ks hks
      have name := Reading.name h.1 (.cons rfl) (.space (Reading.punct .leftBrace hks))
      simpa [Keyword.word, Punct.sign] using Reading.keyword .message (.cons rfl) (.space name)
    have body : Prints (Line.textAll (linesAll (depth + 1) members)) (lexemesAll members) := by
      rw [linesAll_eq_flatMap, lexemesAll_eq_flatMap, Line.textAll, List.flatMap_assoc]
      exact .flatMap fun m hm => ih m hm (h.2 m hm) (depth + 1)
    have whole := ((Line.prints head depth).append body).append (Line.prints .closingBrace depth)
    simpa [lines, lexemes, Line.textAll] using whole

/-! ### Definitions -/

theorem Service.reading_head {direction : Direction} {name : String} {request : List Ty} (hname : isName name = true)
    (hreq : request.all Ty.wellFormed = true) {cs : List Char} {ks : List Lexeme} (hcs : EndsRun isWordRest cs)
    (hks : Reading cs ks) :
    Reading ((direction.word ++ " " ++ name ++ "(" ++ Ty.listText request).toList ++ cs)
      (.keyword direction.keyword :: .identifier name :: .punct .leftParen :: Ty.listLexemes request ++ ks) := by
  have types := Reading.punct .leftParen (Ty.reading_listText hreq hcs hks)
  have start := Reading.keyword direction.keyword (.cons rfl) (.space (.name hname (.cons rfl) types))
  have word : direction.keyword.word = direction.word := by cases direction <;> rfl
  rw [word] at start
  simpa [Punct.sign] using start

theorem Service.prints {s : Service} (h : s.wellFormed = true) (direction : Direction) :
    Prints (s.text direction).toList (s.lexemes direction) := by
  intro cs ks hks
  simp only [wellFormed, types, List.all_append, Bool.and_eq_true] at h
  obtain ⟨hname, hreq, hres⟩ := h
  have stop := Reading.punct .semicolon hks
  rcases s with ⟨name, request, _ | ty⟩
  · have close := Reading.punct .rightParen stop
    simpa [text, lexemes, Punct.sign] using reading_head hname hreq (.cons rfl) close
  · have type := Ty.reading (by simpa using hres) (.cons rfl) stop
    have close := Reading.punct .rightParen (Reading.punct .colon (.space type))
    simpa [text, lexemes, Punct.sign] using reading_head hname hreq (.cons rfl) close

theorem Definition.prints {d : Definition} (h : d.wellFormed = true) : Prints (Line.textAll d.lines) d.lexemes := by
  cases d with
  | message m =>
    rw [wellFormed_message] at h
    exact Member.prints h 0
  | service direction s => exact Line.prints (Service.prints h direction) 0

theorem Definition.prints_layout {ds : List Definition} (h : ∀ d ∈ ds, d.wellFormed = true) :
    Prints (Line.textAll (layout ds)) (ds.flatMap lexemes) := by
  fun_induction layout ds with
  | case1 => exact fun _ _ h => h
  | case2 d => simpa using Definition.prints (h d List.mem_cons_self)
  | case3 d e rest ih =>
    have first := Definition.prints (h d List.mem_cons_self)
    have others := ih fun x hx => h x (List.mem_cons_of_mem _ hx)
    have empty : Prints (Line.textAll (if d.isMessage || e.isMessage then [Line.blank] else [])) [] := by
      intro cs ks hks
      split
      · exact .newline hks
      · exact hks
    simpa using (first.append empty).append others

theorem Document.toList_text (d : Document) : d.text.toList = Line.textAll (Definition.layout d.definitions) := by
  simp [text, lines, Line.textAll, String.toList_join, List.flatMap_map]

/-- The canonical text reads as the document's lexemes. -/
theorem Document.reading_text {d : Document} (h : d.wellFormed = true) : Reading d.text.toList d.lexemes := by
  have whole := Definition.prints_layout (List.all_eq_true.1 h) [] [] .nil
  rwa [List.append_nil, List.append_nil, ← toList_text] at whole

/-! ## What is parsed is well-formed -/

theorem isWordRest_of_isName {name : String} (h : isName name = true) {c : Char} (hc : c ∈ name.toList) :
    isWordRest c = true := by
  simp only [isName, Bool.and_eq_true] at h
  exact List.all_eq_true.1 (all_isWordRest_of_isWord h.1.1) c hc

theorem dot_notMem_of_isName {name : String} (h : isName name = true) : '.' ∉ name.toList := fun hdot =>
  absurd (isWordRest_of_isName h hdot) (by decide)

/-- A path is written with the characters of its names, and dots. -/
theorem Path.isWordRest_of_wellFormed {path : String} (h : wellFormed path = true) {c : Char} (hc : c ∈ path.toList) :
    isWordRest c = true ∨ c = '.' := by
  obtain ⟨first, rest, hparts, hpath⟩ := exists_parts path.toList
  rw [wellFormed, hparts, List.all_cons, Bool.and_eq_true, List.all_eq_true] at h
  have name {part : List Char} (hname : isName (String.ofList part) = true) (hc : c ∈ part) : isWordRest c = true :=
    isWordRest_of_isName hname (by rwa [String.toList_ofList])
  rw [hpath, List.mem_append, List.mem_flatMap] at hc
  rcases hc with hc | ⟨part, hpart, hc⟩
  · exact Or.inl (name h.1 hc)
  · rcases List.mem_cons.1 hc with rfl | hc
    · exact Or.inr rfl
    · exact Or.inl (name (h.2 part hpart) hc)

theorem Path.wellFormed_of_isName {name : String} (h : isName name = true) : Path.wellFormed name = true := by
  simp [wellFormed, parts_of_dot_notMem (dot_notMem_of_isName h), h]

theorem Path.wellFormed_join {path name : String} :
    Path.wellFormed (join path name) = (Path.wellFormed path && Path.wellFormed name) := by
  have split : (join path name).toList = path.toList ++ '.' :: name.toList := by simp [join]
  rw [wellFormed, split, parts_append_dot, List.all_append]
  rfl

/-- Every identifier among the lexemes is a name. -/
def Named (ls : List Lexeme) : Prop := ∀ n, .identifier n ∈ ls → isName n = true

theorem Named.left {ls ks : List Lexeme} (h : Named (ls ++ ks)) : Named ls := fun n hn =>
  h n (List.mem_append_left _ hn)

theorem Named.right {ls ks : List Lexeme} (h : Named (ls ++ ks)) : Named ks := fun n hn =>
  h n (List.mem_append_right _ hn)

theorem Separated.forall_of_named {α : Type} {separator : Punct} {spells : α → List Lexeme → Prop} {xs : List α}
    {ts : List Lexeme} (h : Separated separator spells xs ts) (hts : Named ts) {P : α → Prop}
    (item : ∀ x ∈ xs, ∀ us, spells x us → Named us → P x) : ∀ x ∈ xs, P x := by
  induction h with
  | nil => simp
  | cons n hx _ ih =>
    intro y hy
    rcases List.mem_cons.1 hy with rfl | hy
    · exact item _ List.mem_cons_self _ hx hts.left.left
    · exact ih hts.right (fun x hx => item x (List.mem_cons_of_mem _ hx)) y hy

theorem Ty.Spelling.wellFormed {ty : Ty} {ts : List Lexeme} (h : ty.Spelling ts) (hts : Named ts) :
    ty.wellFormed = true := by
  induction h with
  | scalar s => rfl
  | name n =>
    rw [wellFormed_reference]
    exact Path.wellFormed_of_isName (hts n List.mem_cons_self)
  | @dotted path ts n _ ih =>
    have hpath := ih hts.left
    have hn : isName n = true := hts n (by simp)
    rw [wellFormed_reference] at hpath ⊢
    rw [Path.wellFormed_join, hpath, Path.wellFormed_of_isName hn]
    rfl
  | @map key value ks vs _ _ ihk ihv =>
    have hk := ihk fun n hn => hts n (by simp [hn])
    have hv := ihv fun n hn => hts n (by simp [hn])
    rw [wellFormed_map, hk, hv]
    rfl

theorem Enumeration.wellFormed_of_spelling {e : Enumeration} {ts : List Lexeme}
    (h : (Member.enumeration e).Spelling ts) (hts : Named ts) : e.wellFormed = true := by
  cases h with
  | @enumeration values us name hvs =>
    have keys := hvs.forall_of_named (P := fun v => isName v.key = true) (fun n hn => hts n (by simp [hn])) (by
      intro v _ us hv hus
      cases hv with
      | assign key literal => exact hus key List.mem_cons_self)
    have hname : isName name = true := hts name (by simp)
    rw [wellFormed, hname, List.all_eq_true.2 keys]
    rfl

theorem Member.Spelling.wellFormed {m : Member} {ts : List Lexeme} (h : m.Spelling ts) (hts : Named ts) :
    m.wellFormed = true := by
  induction m generalizing ts with
  | field f =>
    cases h with
    | @field ty ts modifier name hty =>
      have type := hty.wellFormed hts.left.right
      have hname : isName name = true := hts name (by simp)
      simp [Member.wellFormed, Field.wellFormed, type, hname]
  | enumeration e => exact Enumeration.wellFormed_of_spelling h hts
  | message name members ih =>
    cases h with
    | @message members us name hms =>
      have body := hms.forall_of_named (fun n hn => hts n (by simp [hn])) fun m hm us hus hnamed => ih m hm hus hnamed
      have hname : isName name = true := hts name (by simp)
      rw [Member.wellFormed, hname, Member.wellFormedAll_iff.2 body]
      rfl

theorem Definition.Spelling.wellFormed {d : Definition} {ts : List Lexeme} (h : d.Spelling ts) (hts : Named ts) :
    d.wellFormed = true := by
  cases h with
  | @message m ts hm =>
    rw [wellFormed_message]
    exact hm.wellFormed hts
  | @service request response ts rs direction name hreq hres =>
    have types := hreq.forall_of_named (fun n hn => hts n (by simp [hn]))
      fun ty _ us hus hnamed => hus.wellFormed hnamed
    have answer : ∀ ty ∈ response, ty.wellFormed = true := by
      intro ty hty
      cases hres with
      | none => cases hty
      | some h =>
        cases hty
        exact h.wellFormed fun n hn => hts n (by simp [hn])
    have hname : isName name = true := hts name (by simp)
    simp only [Definition.wellFormed, Service.wellFormed, Service.types, List.all_append, Bool.and_eq_true,
      List.all_eq_true, Option.mem_toList]
    exact ⟨hname, types, answer⟩

/-- What is parsed is well-formed. -/
theorem Document.wellFormed_of_parse {source : String} {d : Document} (h : parse source = .ok d) :
    d.wellFormed = true := by
  obtain ⟨ls, hls, hd⟩ := parse_eq_ok_iff.1 h
  have named : Named ls := fun _ hn => hls.isName hn
  exact List.all_eq_true.2 (Separated.forall_of_named hd named fun d _ us hus hnamed => hus.wellFormed hnamed)

theorem Document.parse_text {d : Document} (h : d.wellFormed = true) : parse d.text = .ok d :=
  parse_eq_ok_iff.2 ⟨d.lexemes, reading_text h, d.spelling_lexemes⟩

/-- Printing and parsing are inverse on the well-formed documents and on no other, and
    these are the documents that texts parse to. -/
theorem Document.parse_text_iff_wellFormed :
    (∀ d : Document, parse d.text = .ok d ↔ d.wellFormed = true) ∧
    (∀ d : Document, (∃ source, parse source = .ok d) ↔ d.wellFormed = true) := by
  refine ⟨fun d => ⟨wellFormed_of_parse, parse_text⟩, fun d => ⟨?_, fun h => ⟨d.text, parse_text h⟩⟩⟩
  intro h
  obtain ⟨source, hsource⟩ := h
  exact wellFormed_of_parse hsource

end ServLang

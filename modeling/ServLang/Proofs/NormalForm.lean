/-
  ServLang.Proofs.NormalForm — what a document keeps of its source. The normal form of a
  source's tokens is what is left of them without places, without semicolons, without
  the commas outside angle brackets, and with the value of an integer literal in place
  of its spelling. A document has a content in the same signs, read off its tree.

  Every spelling of a document has the document's content as its normal form, since a
  spelling is free in just these points. The content says where each part of it ends
  although no separator is left: a type ends before what is no dot and no `<`, a request
  at its parenthesis, a body at its brace, and a response at the next keyword or the end.

  Proved:
  - `Document.Spelling.contents`: the normal form of a spelling is the content.
  - `decode_flatMap`: items that can be told from what follows them make lists that can.
  - `Ty.decode`, `Member.decode`, `Definition.decode`, `Document.content_inj`: documents
    of one content are the same.
  - `Document.eq_iff_normalForm_eq`: two sources parse to one document exactly if their
    normal forms are the same, and printing keeps the normal form.
-/

import ServLang.Proofs.RoundTrip

namespace ServLang

/-! ## Normal forms -/

/-- A token without its place, and an integer literal by its value. -/
inductive Content where
  | keyword (k : Keyword)
  | scalar (s : Scalar)
  | identifier (name : String)
  | value (v : Int)
  | punct (p : Punct)
deriving DecidableEq, Repr

namespace Lexeme

def depthAfter (depth : Nat) : Lexeme → Nat
  | punct .less => depth + 1
  | punct .greater => depth - 1
  | _ => depth

/-- What documents depend on. A comma between angle brackets is part of a `map`. -/
def content (depth : Nat) : Lexeme → List Content
  | keyword k => [.keyword k]
  | scalar s => [.scalar s]
  | identifier name => [.identifier name]
  | integer literal => [.value (Decimal.value literal.toList)]
  | punct .semicolon => []
  | punct .comma => if depth = 0 then [] else [.punct .comma]
  | punct p => [.punct p]

def contents (depth : Nat) : List Lexeme → List Content
  | [] => []
  | l :: ls => l.content depth ++ contents (l.depthAfter depth) ls

end Lexeme

def normalForm (ts : List Token) : List Content := Lexeme.contents 0 (ts.map Token.lexeme)

/-! ## The content of a document -/

def Path.content (path : String) : List Content := (Path.lexemes path).flatMap (Lexeme.content 0)

def Ty.content : Ty → List Content
  | scalar s => [.scalar s]
  | map key value =>
    .identifier "map" :: .punct .less :: key.content ++ .punct .comma :: value.content ++ [.punct .greater]
  | reference path => Path.content path

def Modifier.content : Modifier → List Content
  | plain => []
  | optional => [.keyword .optional]
  | required => [.keyword .required]

def EnumValue.content (v : EnumValue) : List Content := [.identifier v.key, .punct .equals, .value v.value.toInt]

def Enumeration.content (e : Enumeration) : List Content :=
  .keyword .enumeration :: .identifier e.name :: .punct .leftBrace :: e.values.flatMap EnumValue.content ++
    [.punct .rightBrace]

namespace Member

mutual

def content : Member → List Content
  | field f => f.modifier.content ++ f.type.content ++ [.identifier f.name]
  | enumeration e => e.content
  | message name members =>
    .keyword .message :: .identifier name :: .punct .leftBrace :: contentAll members ++ [.punct .rightBrace]

def contentAll : List Member → List Content
  | [] => []
  | m :: ms => m.content ++ contentAll ms

end

theorem contentAll_eq_flatMap (members : List Member) : contentAll members = members.flatMap content := by
  induction members with
  | nil => rfl
  | cons m ms ih => rw [contentAll, ih, List.flatMap_cons]

end Member

def Service.responseContent : Option Ty → List Content
  | none => []
  | some ty => .punct .colon :: ty.content

def Service.content (direction : Direction) (s : Service) : List Content :=
  .keyword direction.keyword :: .identifier s.name :: .punct .leftParen :: s.request.flatMap Ty.content ++
    .punct .rightParen :: responseContent s.response

def Definition.content : Definition → List Content
  | message m => (Member.message m.name m.members).content
  | service direction s => s.content direction

def Document.content (d : Document) : List Content := d.definitions.flatMap Definition.content

/-! ## Spellings have the content of what they spell -/

/-- Inside so many angle brackets, and whatever comes behind, the lexemes show this and
    leave as many brackets open. -/
def Shows (depth : Nat) (ls : List Lexeme) (cs : List Content) : Prop :=
  ∀ rest, Lexeme.contents depth (ls ++ rest) = cs ++ Lexeme.contents depth rest

namespace Shows

variable {depth : Nat} {ls ks : List Lexeme} {cs ds : List Content}

theorem nil (depth : Nat) : Shows depth [] [] := fun _ => rfl

theorem append (h : Shows depth ls cs) (h' : Shows depth ks ds) : Shows depth (ls ++ ks) (cs ++ ds) := by
  intro rest
  rw [List.append_assoc, h, h', List.append_assoc]

theorem cons {l : Lexeme} (h : Shows depth ls cs) (hl : l.depthAfter depth = depth := by rfl) :
    Shows depth (l :: ls) (l.content depth ++ cs) := by
  intro rest
  rw [List.cons_append, Lexeme.contents, hl, h, List.append_assoc]

theorem single {l : Lexeme} (hl : l.depthAfter depth = depth := by rfl) : Shows depth [l] (l.content depth) := by
  simpa using cons (nil depth) hl

/-- Angle brackets around lexemes are one level more, and the level before behind them. -/
theorem brackets (h : Shows (depth + 1) ls cs) :
    Shows depth (.punct .less :: ls ++ [.punct .greater]) (.punct .less :: cs ++ [.punct .greater]) := by
  intro rest
  have inside := h (.punct .greater :: rest)
  simp only [List.cons_append, List.append_assoc, List.nil_append, Lexeme.contents, Lexeme.content, Lexeme.depthAfter]
  rw [inside]
  simp [Lexeme.contents, Lexeme.content, Lexeme.depthAfter]

theorem separators {separator : Punct} (h : (Lexeme.punct separator).content 0 = [])
    (hl : (Lexeme.punct separator).depthAfter 0 = 0) (n : Nat) : Shows 0 (separator.times n) [] := by
  induction n with
  | zero => exact nil 0
  | succ n ih => simpa [h, Punct.times, List.replicate_succ] using cons (l := .punct separator) ih hl

end Shows

theorem Path.content_of_isName {name : String} (h : isName name = true) : content name = [.identifier name] := by
  simp [content, lexemes, parts_of_dot_notMem (dot_notMem_of_isName h), Lexeme.content]

theorem Path.content_join {path name : String} (h : isName name = true) :
    content (join path name) = content path ++ [.punct .dot, .identifier name] := by
  have split : (join path name).toList = path.toList ++ '.' :: name.toList := by simp [join]
  have hparts : parts (join path name).toList = parts path.toList ++ [name.toList] := by
    rw [split, parts_append_dot, parts_of_dot_notMem (dot_notMem_of_isName h)]
  obtain ⟨first, rest, hpath, -⟩ := exists_parts path.toList
  simp [content, lexemes, hparts, hpath, Lexeme.content, List.flatMap_assoc]

/-- A spelled type shows its content, whichever separators it was spelled with. -/
theorem Ty.Spelling.shows {ty : Ty} {ts : List Lexeme} (h : ty.Spelling ts) (hts : Named ts) (depth : Nat) :
    Shows depth ts ty.content := by
  induction h generalizing depth with
  | scalar s => exact .single
  | name n =>
    rw [Ty.content, Path.content_of_isName (hts n List.mem_cons_self)]
    exact .single
  | @dotted path ts n _ ih =>
    rw [Ty.content, Path.content_join (hts n (by simp))]
    exact (ih hts.left depth).append (.cons (l := .punct .dot) .single)
  | @map key value ks vs _ _ ihk ihv =>
    have hk := ihk (fun n hn => hts n (by simp [hn])) (depth + 1)
    have hv := ihv (fun n hn => hts n (by simp [hn])) (depth + 1)
    have inside := hk.append (.cons (l := .punct .comma) hv)
    simpa [Ty.content, Lexeme.content] using Shows.cons (l := .identifier "map") inside.brackets

/-- A run of items shows its items: at the top level, separators show nothing. -/
theorem Separated.shows {α : Type} {separator : Punct} {spells : α → List Lexeme → Prop} {xs : List α}
    {ts : List Lexeme} (h : Separated separator spells xs ts) (content : α → List Content) (hts : Named ts)
    (hs : (Lexeme.punct separator).content 0 = []) (hl : (Lexeme.punct separator).depthAfter 0 = 0)
    (item : ∀ x ∈ xs, ∀ us, spells x us → Named us → Shows 0 us (content x)) : Shows 0 ts (xs.flatMap content) := by
  induction h with
  | nil => exact .nil 0
  | @cons x xs us rest n hx _ ih =>
    have first := item x List.mem_cons_self us hx hts.left.left
    have others := ih hts.right fun y hy => item y (List.mem_cons_of_mem _ hy)
    simpa using (first.append (.separators hs hl n)).append others

theorem EnumValue.Spelling.shows {v : EnumValue} {ts : List Lexeme} (h : v.Spelling ts) : Shows 0 ts v.content := by
  cases h with
  | @assign key literal value hv =>
    rw [EnumValue.content, ← hv.value_eq]
    exact .cons (l := .identifier key) (.cons (l := .punct .equals) (.single (l := .integer literal)))

/-- A head, a body in braces. -/
theorem Shows.block {k : Keyword} {name : String} {ts : List Lexeme} {cs : List Content} (h : Shows 0 ts cs) :
    Shows 0 (.keyword k :: .identifier name :: .punct .leftBrace :: ts ++ [.punct .rightBrace])
      (.keyword k :: .identifier name :: .punct .leftBrace :: cs ++ [.punct .rightBrace]) := by
  have body := h.append (.single (l := .punct .rightBrace))
  exact .cons (l := .keyword k) (.cons (l := .identifier name) (.cons (l := .punct .leftBrace) body))

theorem Modifier.shows (m : Modifier) : Shows 0 m.lexemes m.content := by
  cases m with
  | plain => exact .nil 0
  | optional => exact .single
  | required => exact .single

theorem Member.Spelling.shows {m : Member} {ts : List Lexeme} (h : m.Spelling ts) (hts : Named ts) :
    Shows 0 ts m.content := by
  induction m generalizing ts with
  | field f =>
    cases h with
    | @field ty us modifier name hty =>
      exact (modifier.shows.append (hty.shows hts.left.right 0)).append (.single (l := .identifier name))
  | enumeration e =>
    cases h with
    | @enumeration values us name hvs =>
      have body := hvs.shows EnumValue.content (fun n hn => hts n (by simp [hn])) rfl rfl
        fun v _ us hv _ => hv.shows
      exact body.block
  | message name members ih =>
    cases h with
    | @message members us name hms =>
      have body := hms.shows Member.content (fun n hn => hts n (by simp [hn])) rfl rfl
        fun m hm us hus hnamed => ih m hm hus hnamed
      rw [Member.content, contentAll_eq_flatMap]
      exact body.block

theorem Definition.Spelling.shows {d : Definition} {ts : List Lexeme} (h : d.Spelling ts) (hts : Named ts) :
    Shows 0 ts d.content := by
  cases h with
  | message hm => exact hm.shows hts
  | @service request response us rs direction name hreq hres =>
    have types := hreq.shows Ty.content (fun n hn => hts n (by simp [hn])) rfl rfl
      fun ty _ us hus hnamed => hus.shows hnamed 0
    have answer : Shows 0 rs (Service.responseContent response) := by
      cases hres with
      | none => exact .nil 0
      | some hty => exact .cons (l := .punct .colon) (hty.shows (fun n hn => hts n (by simp [hn])) 0)
    have close := answer.append (.single (l := .punct .semicolon))
    have inside := types.append (.cons (l := .punct .rightParen) close)
    have whole := Shows.cons (l := .keyword direction.keyword) (.cons (l := .identifier name)
      (.cons (l := .punct .leftParen) inside))
    simpa [Definition.content, Service.content, Lexeme.content] using whole

/-- Every spelling of a document has the same normal form. -/
theorem Document.Spelling.contents {d : Document} {ts : List Lexeme} (h : d.Spelling ts) (hts : Named ts) :
    Lexeme.contents 0 ts = d.content := by
  have shows_all := Separated.shows h Definition.content hts rfl rfl fun x _ us hus hnamed => hus.shows hnamed
  simpa [Lexeme.contents, content] using shows_all []

/-! ## Reading the content back -/

/-- Lists of items that can be told from what follows them, up to a tail that starts no
    item. `F` is what follows an item. -/
theorem decode_flatMap {α β : Type} {f : α → List β} {F : List β → Prop} {xs ys : List α} {us vs : List β}
    (h : xs.flatMap f ++ us = ys.flatMap f ++ vs)
    (item : ∀ x ∈ xs, ∀ y ws zs, f x ++ ws = f y ++ zs → F ws → F zs → x = y ∧ ws = zs)
    (more : ∀ x ws, F (f x ++ ws)) (hu : F us) (hv : F vs) (stop_us : ∀ x ws, us ≠ f x ++ ws)
    (stop_vs : ∀ x ws, vs ≠ f x ++ ws) : xs = ys ∧ us = vs := by
  -- What follows an item is the next one or what is behind them all.
  have follow {ws : List β} (hws : F ws) (zs : List α) : F (zs.flatMap f ++ ws) := by
    cases zs with
    | nil => exact hws
    | cons z zs =>
      rw [List.flatMap_cons, List.append_assoc]
      exact more z _
  induction xs generalizing ys with
  | nil =>
    cases ys with
    | nil => exact ⟨rfl, h⟩
    | cons y ys =>
      rw [List.flatMap_cons, List.append_assoc] at h
      exact absurd h (stop_us y _)
  | cons x xs ih =>
    cases ys with
    | nil =>
      rw [List.flatMap_cons, List.append_assoc] at h
      exact absurd h.symm (stop_vs x _)
    | cons y ys =>
      rw [List.flatMap_cons, List.flatMap_cons, List.append_assoc, List.append_assoc] at h
      obtain ⟨rfl, hrest⟩ := item x List.mem_cons_self y _ _ h (follow hu xs) (follow hv ys)
      obtain ⟨rfl, htail⟩ := ih hrest fun z hz => item z (List.mem_cons_of_mem _ hz)
      exact ⟨rfl, htail⟩

/-! ### Types -/

/-- A path, or the name `map`, does not go on with the signs that start so. -/
def EndsType (cs : List Content) : Prop := ∀ c ∈ cs.head?, c ≠ .punct .dot ∧ c ≠ .punct .less

theorem EndsType.cons {c : Content} {cs : List Content} (h : c ≠ .punct .dot ∧ c ≠ .punct .less) : EndsType (c :: cs) := by
  intro x hx
  cases hx
  exact h

theorem Path.exists_content (path : String) :
    ∃ (first : List Char) (rest : List (List Char)), path.toList = first ++ rest.flatMap ('.' :: ·) ∧
      content path = .identifier (String.ofList first) ::
        rest.flatMap fun part => [.punct .dot, .identifier (String.ofList part)] := by
  obtain ⟨first, rest, hparts, hpath⟩ := exists_parts path.toList
  exact ⟨first, rest, hpath, by simp [content, lexemes, hparts, Lexeme.content, List.flatMap_assoc]⟩

theorem Path.decode {p q : String} {xs ys : List Content} (h : content p ++ xs = content q ++ ys) (hx : EndsType xs)
    (hy : EndsType ys) : p = q ∧ xs = ys := by
  obtain ⟨first, rest, hp, hpc⟩ := exists_content p
  obtain ⟨first', rest', hq, hqc⟩ := exists_content q
  rw [hpc, hqc, List.cons_append, List.cons_append] at h
  obtain ⟨hfirst, hrest⟩ := List.cons.inj h
  have stop {ws : List Content} (hws : EndsType ws) (part : List Char) (zs : List Content) :
      ws ≠ [.punct .dot, .identifier (String.ofList part)] ++ zs := by
    rintro rfl
    exact (hws _ rfl).1 rfl
  obtain ⟨rfl, htail⟩ := decode_flatMap (F := fun _ => True) hrest
    (fun part _ part' ws zs hpart _ _ => by simpa [String.ofList_inj] using hpart)
    (fun _ _ => trivial) trivial trivial (stop hx) (stop hy)
  have hsame : first = first' := by simpa [String.ofList_inj] using hfirst
  exact ⟨String.toList_inj.1 (by rw [hp, hq, hsame]), htail⟩

/-- A type starts with a scalar or a name. -/
theorem Ty.exists_content (ty : Ty) :
    ∃ c cs, ty.content = c :: cs ∧ ((∃ s, c = .scalar s) ∨ ∃ n, c = .identifier n) := by
  cases ty with
  | scalar s => exact ⟨_, _, rfl, Or.inl ⟨s, rfl⟩⟩
  | map key value => exact ⟨_, _, rfl, Or.inr ⟨_, rfl⟩⟩
  | reference path =>
    obtain ⟨first, rest, -, hpc⟩ := Path.exists_content path
    exact ⟨_, _, hpc, Or.inr ⟨_, rfl⟩⟩

theorem Ty.decode_reference_map {path : String} {key value : Ty} {xs ys : List Content} (hx : EndsType xs) :
    (reference path).content ++ xs ≠ (map key value).content ++ ys := by
  intro h
  obtain ⟨first, rest, -, hpc⟩ := Path.exists_content path
  rw [content, content, hpc, List.cons_append] at h
  have htail := (List.cons.inj h).2
  cases rest with
  | nil =>
    subst htail
    exact (hx _ rfl).2 rfl
  | cons part rest => cases htail

theorem Ty.decode {a b : Ty} {xs ys : List Content} (h : a.content ++ xs = b.content ++ ys) (hx : EndsType xs)
    (hy : EndsType ys) : a = b ∧ xs = ys := by
  induction a generalizing b xs ys with
  | scalar s =>
    cases b with
    | scalar s' =>
      obtain ⟨hs, htail⟩ := List.cons.inj h
      cases hs
      exact ⟨rfl, htail⟩
    | map key value => cases h
    | reference path =>
      obtain ⟨first, rest, -, hpc⟩ := Path.exists_content path
      rw [content, content, hpc] at h
      cases h
  | map key value ihk ihv =>
    cases b with
    | scalar s => cases h
    | map key' value' =>
      simp only [content, List.cons_append, List.append_assoc, List.cons.injEq, true_and] at h
      obtain ⟨rfl, hvalue⟩ := ihk h (.cons ⟨nofun, nofun⟩) (.cons ⟨nofun, nofun⟩)
      obtain ⟨rfl, hclose⟩ := ihv (List.cons.inj hvalue).2 (.cons ⟨nofun, nofun⟩) (.cons ⟨nofun, nofun⟩)
      exact ⟨rfl, (List.cons.inj hclose).2⟩
    | reference path => exact absurd h.symm (decode_reference_map hy)
  | reference path =>
    cases b with
    | scalar s =>
      obtain ⟨first, rest, -, hpc⟩ := Path.exists_content path
      rw [content, content, hpc] at h
      cases h
    | map key value => exact absurd h (decode_reference_map hx)
    | reference path' =>
      obtain ⟨rfl, htail⟩ := Path.decode h hx hy
      exact ⟨rfl, htail⟩

/-! ### Members -/

theorem EnumValue.decode {v w : EnumValue} {xs ys : List Content} (h : v.content ++ xs = w.content ++ ys) :
    v = w ∧ xs = ys := by
  obtain ⟨key, value⟩ := v
  obtain ⟨key', value'⟩ := w
  simpa [content, Int64.toInt_inj, and_assoc] using h

theorem Enumeration.decode {e g : Enumeration} {xs ys : List Content} (h : e.content ++ xs = g.content ++ ys) :
    e = g ∧ xs = ys := by
  obtain ⟨name, values⟩ := e
  obtain ⟨name', values'⟩ := g
  simp only [content, List.cons_append, List.append_assoc, List.cons.injEq, true_and] at h
  obtain ⟨hname, hbody⟩ := h
  cases hname
  obtain ⟨rfl, hclose⟩ := decode_flatMap (F := fun _ => True) hbody (fun v _ w _ _ h _ _ => EnumValue.decode h)
    (fun _ _ => trivial) trivial trivial (fun _ _ => nofun) (fun _ _ => nofun)
  exact ⟨rfl, (List.cons.inj hclose).2⟩

/-- Only a modifier's own keyword can stand before a type. -/
theorem Modifier.decode {m n : Modifier} {a b : Ty} {xs ys : List Content}
    (h : m.content ++ (a.content ++ xs) = n.content ++ (b.content ++ ys)) :
    m = n ∧ a.content ++ xs = b.content ++ ys := by
  obtain ⟨c, cs, ha, hc⟩ := a.exists_content
  obtain ⟨d, ds, hb, hd⟩ := b.exists_content
  rw [ha, hb] at h ⊢
  cases m <;> cases n <;> simp_all [content] <;> grind

theorem Field.decode {f g : Field} {xs ys : List Content}
    (h : (Member.field f).content ++ xs = (Member.field g).content ++ ys) : f = g ∧ xs = ys := by
  obtain ⟨modifier, type, name⟩ := f
  obtain ⟨modifier', type', name'⟩ := g
  simp only [Member.content, List.append_assoc] at h
  obtain ⟨rfl, htype⟩ := Modifier.decode h
  obtain ⟨rfl, hname⟩ := Ty.decode htype (.cons ⟨nofun, nofun⟩) (.cons ⟨nofun, nofun⟩)
  obtain ⟨hname, htail⟩ := List.cons.inj hname
  cases hname
  exact ⟨rfl, htail⟩

/-- A field starts with no sign, and not as a message or an enumeration does. -/
theorem Field.exists_content (f : Field) :
    ∃ c cs, (Member.field f).content = c :: cs ∧
      c ≠ .keyword .message ∧ c ≠ .keyword .enumeration ∧ ∀ p, c ≠ .punct p := by
  obtain ⟨modifier, type, name⟩ := f
  cases modifier with
  | plain =>
    obtain ⟨c, cs, htype, hc⟩ := type.exists_content
    refine ⟨c, cs ++ [.identifier name], by simp [Member.content, Modifier.content, htype], ?_⟩
    rcases hc with ⟨s, rfl⟩ | ⟨n, rfl⟩
    · exact ⟨nofun, nofun, fun p => nofun⟩
    · exact ⟨nofun, nofun, fun p => nofun⟩
  | optional => exact ⟨_, _, rfl, nofun, nofun, fun p => nofun⟩
  | required => exact ⟨_, _, rfl, nofun, nofun, fun p => nofun⟩

namespace Member

theorem exists_content (m : Member) : ∃ c cs, m.content = c :: cs ∧ ∀ p, c ≠ .punct p := by
  cases m with
  | field f =>
    obtain ⟨c, cs, h, -, -, hc⟩ := f.exists_content
    exact ⟨c, cs, h, hc⟩
  | enumeration e => exact ⟨_, _, rfl, fun p => nofun⟩
  | message name members => exact ⟨_, _, rfl, fun p => nofun⟩

/-- Bodies of members that can be told from what follows them can be, up to their brace. -/
theorem decode_body {ms ns : List Member} {xs ys : List Content}
    (h : ms.flatMap content ++ .punct .rightBrace :: xs = ns.flatMap content ++ .punct .rightBrace :: ys)
    (item : ∀ m ∈ ms, ∀ (n : Member) ws zs, m.content ++ ws = n.content ++ zs → m = n ∧ ws = zs) :
    ms = ns ∧ xs = ys := by
  have stop (ws : List Content) (m : Member) (zs : List Content) : .punct .rightBrace :: ws ≠ m.content ++ zs := by
    obtain ⟨c, cs, hm, hc⟩ := m.exists_content
    rw [hm]
    intro e
    exact hc _ (List.cons.inj e).1.symm
  obtain ⟨hms, hclose⟩ := decode_flatMap (F := fun _ => True) h (fun m hm n ws zs e _ _ => item m hm n ws zs e)
    (fun _ _ => trivial) trivial trivial (stop xs) (stop ys)
  exact ⟨hms, (List.cons.inj hclose).2⟩

/-- By the tree: members have their own ends, so bodies can be told apart. -/
theorem decode {m n : Member} {xs ys : List Content} (h : m.content ++ xs = n.content ++ ys) : m = n ∧ xs = ys := by
  -- Members of different kinds start with different contents.
  induction m generalizing n xs ys with
  | field f =>
    obtain ⟨c, cs, hf, hmessage, henum, -⟩ := f.exists_content
    cases n with
    | field g =>
      obtain ⟨rfl, htail⟩ := Field.decode h
      exact ⟨rfl, htail⟩
    | enumeration g =>
      rw [hf] at h
      exact absurd (List.cons.inj h).1 henum
    | message name members =>
      rw [hf] at h
      exact absurd (List.cons.inj h).1 hmessage
  | enumeration e =>
    cases n with
    | field g =>
      obtain ⟨c, cs, hg, -, henum, -⟩ := g.exists_content
      rw [hg] at h
      exact absurd (List.cons.inj h).1.symm henum
    | enumeration g =>
      obtain ⟨rfl, htail⟩ := Enumeration.decode h
      exact ⟨rfl, htail⟩
    | message name members => cases h
  | message name members ih =>
    cases n with
    | field g =>
      obtain ⟨c, cs, hg, hmessage, -, -⟩ := g.exists_content
      rw [hg] at h
      exact absurd (List.cons.inj h).1.symm hmessage
    | enumeration g => cases h
    | message name' members' =>
      simp only [content, contentAll_eq_flatMap, List.cons_append, List.append_assoc, List.cons.injEq, true_and] at h
      obtain ⟨hname, hbody⟩ := h
      cases hname
      obtain ⟨rfl, htail⟩ := decode_body hbody fun m hm n ws zs e => ih m hm e
      exact ⟨rfl, htail⟩

end Member

/-! ### Definitions -/

def EndsDefinition (cs : List Content) : Prop := ∀ c ∈ cs.head?, ∃ k, c = .keyword k

theorem EndsDefinition.endsType {cs : List Content} (h : EndsDefinition cs) : EndsType cs := by
  intro c hc
  obtain ⟨k, rfl⟩ := h c hc
  exact ⟨nofun, nofun⟩

theorem Service.decode_response {r r' : Option Ty} {xs ys : List Content}
    (h : responseContent r ++ xs = responseContent r' ++ ys) (hx : EndsDefinition xs) (hy : EndsDefinition ys) :
    r = r' ∧ xs = ys := by
  have colon {ws : List Content} (hws : EndsDefinition ws) (zs : List Content) : ws ≠ .punct .colon :: zs := by
    rintro rfl
    obtain ⟨k, hk⟩ := hws _ rfl
    cases hk
  cases r with
  | none =>
    cases r' with
    | none => exact ⟨rfl, h⟩
    | some ty => exact absurd h (colon hx _)
  | some ty =>
    cases r' with
    | none => exact absurd h.symm (colon hy _)
    | some ty' =>
      obtain ⟨rfl, htail⟩ := Ty.decode (List.cons.inj h).2 hx.endsType hy.endsType
      exact ⟨rfl, htail⟩

theorem Service.decode {direction direction' : Direction} {s t : Service} {xs ys : List Content}
    (h : s.content direction ++ xs = t.content direction' ++ ys) (hx : EndsDefinition xs) (hy : EndsDefinition ys) :
    direction = direction' ∧ s = t ∧ xs = ys := by
  obtain ⟨name, request, response⟩ := s
  obtain ⟨name', request', response'⟩ := t
  have more (ty : Ty) (ws : List Content) : EndsType (ty.content ++ ws) := by
    obtain ⟨c, cs, hty, hc⟩ := ty.exists_content
    rw [hty]
    rcases hc with ⟨s, rfl⟩ | ⟨n, rfl⟩
    · exact .cons ⟨nofun, nofun⟩
    · exact .cons ⟨nofun, nofun⟩
  -- The parenthesis ends the list of types, since no type starts with it.
  have stop (ws : List Content) (ty : Ty) (zs : List Content) : .punct .rightParen :: ws ≠ ty.content ++ zs := by
    obtain ⟨c, cs, hty, hc⟩ := ty.exists_content
    rw [hty]
    rcases hc with ⟨s, rfl⟩ | ⟨n, rfl⟩
    · exact nofun
    · exact nofun
  simp only [content, List.cons_append, List.append_assoc, List.cons.injEq] at h
  obtain ⟨hdirection, hname, -, hrequest⟩ := h
  have same : direction = direction' := by cases direction <;> cases direction' <;> first | rfl | cases hdirection
  cases hname
  obtain ⟨rfl, hclose⟩ := decode_flatMap (F := EndsType) hrequest (fun a _ b ws zs => Ty.decode) more
    (.cons ⟨nofun, nofun⟩) (.cons ⟨nofun, nofun⟩) (stop _) (stop _)
  obtain ⟨rfl, htail⟩ := decode_response (List.cons.inj hclose).2 hx hy
  exact ⟨same, rfl, htail⟩

theorem Definition.exists_content (d : Definition) : ∃ k cs, d.content = .keyword k :: cs := by
  cases d with
  | message m => exact ⟨_, _, rfl⟩
  | service direction s => exact ⟨_, _, rfl⟩

theorem Definition.decode {d e : Definition} {xs ys : List Content} (h : d.content ++ xs = e.content ++ ys)
    (hx : EndsDefinition xs) (hy : EndsDefinition ys) : d = e ∧ xs = ys := by
  cases d with
  | message m =>
    cases e with
    | message n =>
      obtain ⟨hmember, htail⟩ := Member.decode h
      obtain ⟨hname, hmembers⟩ := Member.message.inj hmember
      cases m
      cases n
      cases hname
      cases hmembers
      exact ⟨rfl, htail⟩
    | service direction s => cases direction <;> cases h
  | service direction s =>
    cases e with
    | message m => cases direction <;> cases h
    | service direction' t =>
      obtain ⟨rfl, rfl, htail⟩ := Service.decode h hx hy
      exact ⟨rfl, htail⟩

/-- No two documents have one normal form. -/
theorem Document.content_inj {d e : Document} (h : d.content = e.content) : d = e := by
  have more (x : Definition) (ws : List Content) : EndsDefinition (x.content ++ ws) := by
    obtain ⟨k, cs, hx⟩ := x.exists_content
    rw [hx]
    rintro c hc
    cases hc
    exact ⟨k, rfl⟩
  have stop (x : Definition) (ws : List Content) : [] ≠ x.content ++ ws := by
    obtain ⟨k, cs, hx⟩ := x.exists_content
    rw [hx]
    exact nofun
  have ended : EndsDefinition [] := nofun
  have hlists : d.definitions.flatMap Definition.content ++ [] = e.definitions.flatMap Definition.content ++ [] := by
    rw [List.append_nil, List.append_nil]
    exact h
  obtain ⟨hdefinitions, -⟩ := decode_flatMap hlists (fun x _ y ws zs => Definition.decode) more ended ended stop stop
  cases d
  cases e
  cases hdefinitions
  rfl

/-! ## Sources of one document -/

theorem Document.exists_tokenize_of_parse {source : String} {d : Document} (h : parse source = .ok d) :
    ∃ ts, tokenize source = .ok ts ∧ normalForm ts = d.content := by
  obtain ⟨ls, hls, hd⟩ := parse_eq_ok_iff.1 h
  obtain ⟨ts, hts, rfl⟩ := exists_tokenize_iff_reading.2 hls
  exact ⟨ts, hts, hd.contents fun _ hn => hls.isName hn⟩

/-- Two sources that parse give the same document exactly if their tokens have the same
    normal form. Printing a document keeps the normal form of the source it came from. -/
theorem Document.eq_iff_normalForm_eq :
    (∀ (source source' : String) (d d' : Document), parse source = .ok d → parse source' = .ok d' →
      ∃ ts ts', tokenize source = .ok ts ∧ tokenize source' = .ok ts' ∧
        (d = d' ↔ normalForm ts = normalForm ts')) ∧
    (∀ (source : String) (d : Document), parse source = .ok d →
      ∃ ts ts', tokenize source = .ok ts ∧ tokenize d.text = .ok ts' ∧ normalForm ts' = normalForm ts) := by
  refine ⟨fun source source' d d' h h' => ?_, fun source d h => ?_⟩
  · obtain ⟨ts, hts, hd⟩ := exists_tokenize_of_parse h
    obtain ⟨ts', hts', hd'⟩ := exists_tokenize_of_parse h'
    refine ⟨ts, ts', hts, hts', ?_⟩
    rw [hd, hd']
    exact ⟨congrArg content, content_inj⟩
  · obtain ⟨ts, hts, hd⟩ := exists_tokenize_of_parse h
    obtain ⟨ts', hts', hd'⟩ := exists_tokenize_of_parse (parse_text (wellFormed_of_parse h))
    exact ⟨ts, ts', hts, hts', hd'.trans hd.symm⟩

/-- One document, without separators and with as many as there can be. -/
theorem Document.eq_iff_normalForm_eq_respelled :
    ∃ d : Document,
      parse "message M { enum E { A = -0 } map<int32, a.M> x } inbound S(M M): M;" = .ok d ∧
      parse "message M{enum E{A=000;;};map<int32,a . M>x;;};inbound S(M,,M,):M;;" = .ok d ∧
      (∃ ts ts', tokenize "message M { enum E { A = -0 } map<int32, a.M> x } inbound S(M M): M;" = .ok ts ∧
        tokenize "message M{enum E{A=000;;};map<int32,a . M>x;;};inbound S(M,,M,):M;;" = .ok ts' ∧
        (d = d ↔ normalForm ts = normalForm ts')) ∧
      ∃ ts ts', tokenize "message M { enum E { A = -0 } map<int32, a.M> x } inbound S(M M): M;" = .ok ts ∧
        tokenize d.text = .ok ts' ∧ normalForm ts' = normalForm ts := by
  have h : parse "message M { enum E { A = -0 } map<int32, a.M> x } inbound S(M M): M;" =
      .ok ⟨[.message ⟨"M", [.enumeration ⟨"E", [⟨"A", 0⟩]⟩,
          .field ⟨.plain, .map (.scalar .int32) (.reference "a.M"), "x"⟩]⟩,
        .service .inbound ⟨"S", [.reference "M", .reference "M"], some (.reference "M")⟩]⟩ := by decide +kernel
  have h' : parse "message M{enum E{A=000;;};map<int32,a . M>x;;};inbound S(M,,M,):M;;" =
      .ok ⟨[.message ⟨"M", [.enumeration ⟨"E", [⟨"A", 0⟩]⟩,
          .field ⟨.plain, .map (.scalar .int32) (.reference "a.M"), "x"⟩]⟩,
        .service .inbound ⟨"S", [.reference "M", .reference "M"], some (.reference "M")⟩]⟩ := by decide +kernel
  exact ⟨_, h, h', eq_iff_normalForm_eq.1 _ _ _ _ h h', eq_iff_normalForm_eq.2 _ _ h⟩

end ServLang

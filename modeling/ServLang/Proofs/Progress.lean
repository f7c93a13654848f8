/-
  ServLang.Proofs.Progress — what the grammar spells, the states read. A spelling of the
  next part of a document leads from the place before that part to the place after it,
  whichever of the choices that the grammar leaves open the spelling takes.

  A place is left by the same tokens whether it was reached by a finished part or in a
  path that may still go on, except at the two signs that a path goes on with. So
  `Place.Leads` starts from every state at a place, and asks only of the first token
  that it is neither sign.

  Proved: `leads` for the spellings of types, enumeration values, members, definitions
  and documents; `Separated.leads` is the induction that the four lists share.
-/

import ServLang.Document.Grammar
import ServLang.Proofs.Run

namespace ServLang

/-! ## Types -/

/-- The signs by which a name that has been read may turn out to be part of a longer
    path, or of a map. -/
def Lexeme.continuesPath : Lexeme → Bool
  | .punct .dot | .punct .less => true
  | _ => false

/-- A token that continues no path finds the path ended. -/
theorem State.shift_eq_shift_settle (s : State) {l : Lexeme} (hl : l.continuesPath = false) :
    s.shift l = s.settle.shift l := by
  unfold State.shift
  split
  · cases hl
  · cases hl
  · rfl

def Goal.after (g : Goal) : Ty → State
  | .reference path => .path g path
  | ty => .place (g.reach ty)

theorem Goal.settle_after (g : Goal) (ty : Ty) : (g.after ty).settle = g.reach ty := by cases ty <;> rfl

theorem Goal.shift_after (g : Goal) (ty : Ty) {l : Lexeme} (hl : l.continuesPath = false) :
    (g.after ty).shift l = (g.reach ty).shift l := by
  rw [State.shift_eq_shift_settle _ hl, Goal.settle_after]

/-- A type is read whole, and the state after it can go on with its path only. -/
theorem Ty.Spelling.reads {ty : Ty} {ts : List Lexeme} (h : ty.Spelling ts) (g : Goal) :
    State.Reads (.place (.goal g)) ts (g.after ty) := by
  induction h generalizing g with
  | scalar s => exact .single rfl
  | name n => exact .single rfl
  | @dotted path ts n _ ih =>
    have dot : (g.after (.reference path)).shift (.punct .dot) = .ok (.place (.pathDot g path)) := rfl
    exact (ih g).append (.cons dot (.single rfl))
  | @map key value ks vs _ _ ihk ihv =>
    -- The key and the value may end in a path that could go on; the two signs after them end it.
    have less : (State.path g "map").shift (.punct .less) = .ok (.place (.goal (.mapKey g))) := by simp [State.shift]
    have comma : ((Goal.mapKey g).after key).shift (.punct .comma) = .ok (.place (.goal (.mapValue g key))) :=
      Goal.shift_after _ key rfl
    have greater : ((Goal.mapValue g key).after value).shift (.punct .greater) = .ok (g.after (.map key value)) :=
      Goal.shift_after _ value rfl
    have inner := (ihk (.mapKey g)).append (.cons comma (ihv (.mapValue g key)))
    exact .cons rfl (.cons less (inner.append (.single greater)))

theorem Ty.Spelling.head {ty : Ty} {ts : List Lexeme} (h : ty.Spelling ts) :
    ∃ l ls, ts = l :: ls ∧ ((∃ s, l = .scalar s) ∨ ∃ n, l = .identifier n) := by
  induction h with
  | scalar s => exact ⟨_, _, rfl, .inl ⟨s, rfl⟩⟩
  | map => exact ⟨_, _, rfl, .inr ⟨_, rfl⟩⟩
  | name n => exact ⟨_, _, rfl, .inr ⟨n, rfl⟩⟩
  | dotted n _ ih =>
    obtain ⟨l, ls, rfl, hl⟩ := ih
    exact ⟨l, _, rfl, hl⟩

/-! ## From place to place -/

namespace Place

/-- From every state at `p`, the lexemes lead to a state at `q`. -/
def Leads (p : Place) (ts : List Lexeme) (q : Place) : Prop :=
  ∀ s : State, s.settle = p → ∃ t, s.Reads ts t ∧ t.settle = q

namespace Leads

theorem refl (p : Place) : Leads p [] p := fun s hs => ⟨s, .nil s, hs⟩

theorem trans {p q r : Place} {ts us : List Lexeme} (h : Leads p ts q) (h' : Leads q us r) : Leads p (ts ++ us) r := by
  intro s hs
  obtain ⟨t, ht, hq⟩ := h s hs
  obtain ⟨u, hu, hr⟩ := h' t hq
  exact ⟨u, ht.append hu, hr⟩

/-- A run from a place is one from every state there, unless it starts with a sign that
    may go on with a path. -/
theorem of_reads {p : Place} {l : Lexeme} {ls : List Lexeme} {t : State} (hl : l.continuesPath = false)
    (h : State.Reads (.place p) (l :: ls) t) : Leads p (l :: ls) t.settle := by
  intro s hs
  subst hs
  cases h with
  | cons hs h =>
    rw [State.shift_eq_shift_settle _ hl] at hs
    exact ⟨t, .cons ((s.shift_eq_shift_settle hl).trans hs) h, rfl⟩

theorem step {p q r : Place} {l : Lexeme} {ls : List Lexeme} (hl : l.continuesPath = false)
    (hp : p.shift l = .ok (.place q)) (h : Leads q ls r) : Leads p (l :: ls) r :=
  (of_reads hl (.single ((State.shift_eq_shift_settle _ hl).trans hp))).trans h

end Leads

end Place

open Place (Leads)

/-- A type leads on from every place that takes its first token as a type. -/
theorem Ty.Spelling.leads {ty : Ty} {ts : List Lexeme} (h : ty.Spelling ts) {p : Place} (g : Goal)
    (scalar : ∀ s, p.shift (.scalar s) = g.shift (.scalar s) := by exact fun _ => rfl)
    (name : ∀ n, p.shift (.identifier n) = g.shift (.identifier n) := by exact fun _ => rfl) :
    Leads p ts (g.reach ty) := by
  obtain ⟨l, ls, rfl, hl⟩ := h.head
  have hr := h.reads g
  rw [← Goal.settle_after]
  cases hr with
  | cons hs hr =>
    obtain ⟨s, rfl⟩ | ⟨n, rfl⟩ := hl
    · exact .of_reads rfl (.cons ((scalar s).trans hs) hr)
    · exact .of_reads rfl (.cons ((name n).trans hs) hr)

/-- A run of items leads through the places after each of them, if every item leads on
    and a separator after an item changes nothing. -/
theorem Separated.leads {α : Type} {separator : Punct} {spells : α → List Lexeme → Prop} {ys : List α}
    {ts : List Lexeme} (h : Separated separator spells ys ts) (place : List α → Place)
    (hc : (Lexeme.punct separator).continuesPath = false)
    (item : ∀ xs, ∀ y ∈ ys, ∀ us, spells y us → Leads (place xs) us (place (xs ++ [y])))
    (stay : ∀ xs, xs ≠ [] → (place xs).shift (.punct separator) = .ok (.place (place xs))) (xs : List α) :
    Leads (place xs) ts (place (xs ++ ys)) := by
  have separators (xs : List α) (hne : xs ≠ []) (n : Nat) : Leads (place xs) (separator.times n) (place xs) := by
    induction n with
    | zero => exact .refl _
    | succ n ih => exact .step hc (stay xs hne) ih
  induction h generalizing xs with
  | nil => simpa using Leads.refl (place xs)
  | @cons y ys us rest n hy _ ih =>
    have first := item xs y List.mem_cons_self us hy
    have rest := ih (fun xs y hy => item xs y (List.mem_cons_of_mem _ hy)) (xs ++ [y])
    rw [List.append_cons]
    exact (first.trans (separators _ (by simp) n)).trans rest

/-! ## Enumerations and messages -/

theorem EnumValue.Spelling.leads {v : EnumValue} {ts : List Lexeme} (h : v.Spelling ts) (b : Body) (name : String)
    (values : List EnumValue) : Leads (.enumBody ⟨b, name, values⟩) ts (.enumBody ⟨b, name, values ++ [v]⟩) := by
  cases h with
  | assign key literal hv =>
    refine .step (q := .enumKey ⟨b, name, values⟩ key) rfl rfl ?_
    refine .step (q := .enumEquals ⟨b, name, values⟩ key) rfl rfl ?_
    refine .step rfl ?_ (.refl _)
    simp [Place.shift, Place.shiftInteger, hv.int64?_eq_some_iff.2 rfl]

/-- A message can stand at every site, and its members are read in its body. -/
theorem Place.leads_message {members : List Member} {ts : List Lexeme} (name : String)
    (h : Separated .semicolon Member.Spelling members ts)
    (item : ∀ m ∈ members, ∀ us, m.Spelling us → ∀ b : Body, Leads (.site b.site) us (.site (b.add m).site))
    (s : Site) :
    Leads (.site s) (.keyword .message :: .identifier name :: .punct .leftBrace :: ts ++ [.punct .rightBrace])
      (.site (s.addMessage name members)) := by
  have body : Leads (.site (.message s name [])) ts (.site (.message s name members)) := by
    refine h.leads (fun xs => .site (.message s name xs)) rfl ?_ ?_ []
    · intro xs m hm us hus
      exact item m hm us hus ⟨s, name, xs⟩
    · intro xs hne
      simp [Place.shift, Place.shiftMember, hne, Body.site]
  have close : Leads (.site (.message s name members)) [.punct .rightBrace] (.site (s.addMessage name members)) :=
    .step rfl rfl (.refl _)
  have start : (Place.site s).shift (.keyword .message) = .ok (.place (.messageKeyword s)) := by cases s <;> rfl
  exact .step rfl start (.step rfl rfl (.step rfl rfl (body.trans close)))

theorem Member.Spelling.leads {m : Member} {ts : List Lexeme} (h : m.Spelling ts) (b : Body) :
    Leads (.site b.site) ts (.site (b.add m).site) := by
  induction m generalizing b ts with
  | field f =>
    cases h with
    | @field ty ts modifier name hty =>
      -- The type leads to the place before the name, with or without a modifier.
      have name_read : Leads (.fieldType b modifier ty) [.identifier name]
          (.site (b.add (.field ⟨modifier, ty, name⟩)).site) := .step rfl rfl (.refl _)
      have goal : Leads (.goal (.field b modifier)) ts (.fieldType b modifier ty) := hty.leads (.field b modifier)
      refine Leads.trans ?_ name_read
      cases modifier with
      | plain => exact hty.leads (.field b .plain)
      | optional => exact .step rfl rfl goal
      | required => exact .step rfl rfl goal
  | enumeration e =>
    cases h with
    | @enumeration values ts name hvs =>
      have body : Leads (.enumBody ⟨b, name, []⟩) ts (.enumBody ⟨b, name, values⟩) := by
        refine hvs.leads (fun vs => .enumBody ⟨b, name, vs⟩) rfl ?_ ?_ []
        · intro vs v _ us hus
          exact hus.leads b name vs
        · intro vs hne
          simp [Place.shift, Place.shiftEnumValue, hne]
      have close : Leads (.enumBody ⟨b, name, values⟩) [.punct .rightBrace]
          (.site (b.add (.enumeration ⟨name, values⟩)).site) := .step rfl rfl (.refl _)
      exact .step rfl rfl (.step rfl rfl (.step rfl rfl (body.trans close)))
  | message name members ih =>
    cases h with
    | message _ hms => exact Place.leads_message name hms (fun m hm us hus b => ih m hm hus b) b.site

/-! ## Services and documents -/

theorem Definition.Spelling.leads {d : Definition} {ts : List Lexeme} (h : d.Spelling ts) (ds : List Definition) :
    Leads (.site (.document ds)) ts (.site (.document (ds ++ [d]))) := by
  cases h with
  | @message m ts hm =>
    cases hm with
    | message _ hms => exact Place.leads_message m.name hms (fun m _ us hus b => hus.leads b) (.document ds)
  | @service request response ts rs direction name hreq hres =>
    -- From the keyword to the parenthesis, through the types, to the end.
    have start : (Place.site (.document ds)).shift (.keyword direction.keyword) =
        .ok (.place (.serviceKeyword ds direction)) := by cases direction <;> rfl
    have types : Leads (.request ⟨ds, direction, name, []⟩) ts (.request ⟨ds, direction, name, request⟩) := by
      refine hreq.leads (fun tys => .request ⟨ds, direction, name, tys⟩) rfl ?_ ?_ []
      · intro tys ty _ us hus
        exact hus.leads (.request ⟨ds, direction, name, tys⟩)
      · intro tys hne
        simp [Place.shift, Place.shiftRequest, hne]
    have answer : Leads (.requestEnd ⟨ds, direction, name, request⟩) (rs ++ [.punct .semicolon])
        (.site (.document (ds ++ [.service direction ⟨name, request, response⟩]))) := by
      cases hres with
      | none => exact .step rfl rfl (.refl _)
      | @some ty ts hty =>
        have ty_read : Leads (.goal (.response ⟨ds, direction, name, request⟩)) ts
            (.response ⟨ds, direction, name, request⟩ ty) := hty.leads (.response _)
        exact .step rfl rfl (ty_read.trans (.step rfl rfl (.refl _)))
    have rest := types.trans (.step (l := .punct .rightParen) rfl rfl answer)
    refine .step (by cases direction <;> rfl) start (.step rfl rfl (.step rfl rfl ?_))
    simpa only [List.append_eq, List.append_assoc, List.cons_append] using rest

/-- A spelling leads from the empty document to the document. -/
theorem Document.Spelling.leads {d : Document} {ts : List Lexeme} (h : d.Spelling ts) :
    Leads (.site (.document [])) ts (.site (.document d.definitions)) := by
  refine Separated.leads h (fun ds => .site (.document ds)) rfl ?_ ?_ []
  · intro ds d _ us hus
    exact hus.leads ds
  · intro ds hne
    simp [Place.shift, Place.shiftDefinition, hne]

end ServLang

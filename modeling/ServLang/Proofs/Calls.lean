/-
  ServLang.Proofs.Calls — recursion with its calls as data. A `Script` is the body of a
  procedure for one set of arguments: it is done, or it makes a call and goes on with the
  answer. What a procedure answers is a relation, `Answers`, by derivations in which
  every call is answered by its own body; a procedure that does not end has no
  derivation, and no bound on depth or steps occurs.

  Proved, for bodies that keep to a specification of the calls they make
  (`Script.Meets`):
  - `Answers.meets`: every answer is to the specification, whether all calls have one or not.
  - `Calls.descends`: a call makes only such calls as its body is allowed.
  - `exists_answers`: if these descend in a well-founded order, every call has an answer.
  A call has one answer at most (`Answers.unique`).
-/

import Mathlib.Logic.Relation

namespace ServLang

inductive Script (Call : Type) (Answer : Call → Type) (α : Type) where
  | done (a : α)
  | ask (c : Call) (resume : Answer c → Script Call Answer α)

variable {Call : Type} {Answer : Call → Type} {α β : Type}

namespace Script

def bind : Script Call Answer α → (α → Script Call Answer β) → Script Call Answer β
  | done a, f => f a
  | ask c resume, f => ask c fun r => (resume r).bind f

/-- The script's calls are all allowed, and its result is as it should be, if every call is
    answered to its specification. -/
def Meets (allowed : Call → Prop) (spec : (c : Call) → Answer c → Prop) (post : α → Prop) :
    Script Call Answer α → Prop
  | done a => post a
  | ask c resume => allowed c ∧ ∀ r, spec c r → (resume r).Meets allowed spec post

namespace Meets

variable {allowed : Call → Prop} {spec : (c : Call) → Answer c → Prop} {s : Script Call Answer α}

theorem mono {post post' : α → Prop} (h : s.Meets allowed spec post) (hp : ∀ a, post a → post' a) :
    s.Meets allowed spec post' := by
  induction s with
  | done a => exact hp a h
  | ask c resume ih => exact ⟨h.1, fun r hr => ih r (h.2 r hr)⟩

theorem bind {f : α → Script Call Answer β} {post : β → Prop}
    (h : s.Meets allowed spec fun a => (f a).Meets allowed spec post) : (s.bind f).Meets allowed spec post := by
  induction s with
  | done a => exact h
  | ask c resume ih => exact ⟨h.1, fun r hr => ih r (h.2 r hr)⟩

/-- Where every call is allowed, a script meets all of what it meets one by one. -/
theorem all {ι : Sort _} {post : ι → α → Prop} (h : ∀ i, s.Meets (fun _ => True) spec (post i)) :
    s.Meets (fun _ => True) spec fun a => ∀ i, post i a := by
  induction s with
  | done a => exact h
  | ask c resume ih => exact ⟨trivial, fun r hr => ih r fun i => (h i).2 r hr⟩

end Meets

end Script

/-! ## Answers -/

variable (body : (c : Call) → Script Call Answer (Answer c))

/-- The result of a script, each of its calls answered by the call's body. -/
inductive Yields : {α : Type} → Script Call Answer α → α → Prop
  | done {α : Type} (a : α) : Yields (.done a) a
  | ask {α : Type} {c : Call} {resume : Answer c → Script Call Answer α} {r : Answer c} {a : α} :
      Yields (body c) r → Yields (resume r) a → Yields (.ask c resume) a

/-- A call the script comes to make, the calls before it being answered. -/
inductive Makes : {α : Type} → Script Call Answer α → Call → Prop
  | first {α : Type} {c : Call} (resume : Answer c → Script Call Answer α) : Makes (.ask c resume) c
  | later {α : Type} {c c' : Call} {resume : Answer c → Script Call Answer α} {r : Answer c} :
      Yields body (body c) r → Makes (resume r) c' → Makes (.ask c resume) c'

def Answers (c : Call) (r : Answer c) : Prop := Yields body (body c) r

/-- One call makes the other while it is answered. -/
def Calls (c c' : Call) : Prop := Makes body (body c) c'

variable {body}

theorem Yields.unique {s : Script Call Answer α} {a b : α} (ha : Yields body s a) (hb : Yields body s b) : a = b := by
  induction ha with
  | done a =>
    cases hb
    rfl
  | ask _ _ ihr iha =>
    cases hb with
    | ask hr hb =>
      cases ihr hr
      exact iha hb

/-- A call has at most one answer. -/
theorem Answers.unique {c : Call} {r r' : Answer c} (h : Answers body c r) (h' : Answers body c r') : r = r' :=
  Yields.unique h h'

/-! ## Specifications -/

section

variable {lower : Call → Call → Prop} {spec : (c : Call) → Answer c → Prop}
  (bodies : ∀ c, (body c).Meets (lower · c) spec (spec c))
include bodies

theorem Yields.meets {s : Script Call Answer α} {a : α} (h : Yields body s a) {allowed : Call → Prop}
    {post : α → Prop} (hs : s.Meets allowed spec post) : post a := by
  induction h generalizing allowed with
  | done a => exact hs
  | @ask _ c _ r _ _ _ ihr iha => exact iha (hs.2 r (ihr (bodies c)))

/-- Answers keep to a specification that each body keeps to. -/
theorem Answers.meets {c : Call} {r : Answer c} (h : Answers body c r) : spec c r := Yields.meets bodies h (bodies c)

theorem Makes.allowed {s : Script Call Answer α} {c : Call} (h : Makes body s c) {allowed : Call → Prop}
    {post : α → Prop} (hs : s.Meets allowed spec post) : allowed c := by
  induction h with
  | first resume => exact hs.1
  | later hr _ ih => exact ih (hs.2 _ (Answers.meets bodies hr))

/-- What a body may call is what it does call. -/
theorem Calls.descends {c c' : Call} (h : Calls body c c') : lower c' c := Makes.allowed bodies h (bodies c)

theorem exists_yields {s : Script Call Answer α} {allowed : Call → Prop} {post : α → Prop}
    (hs : s.Meets allowed spec post) (ih : ∀ c, allowed c → ∃ r, Answers body c r) : ∃ a, Yields body s a := by
  induction s with
  | done a => exact ⟨a, .done a⟩
  | ask c resume ihs =>
    obtain ⟨r, hr⟩ := ih c hs.1
    obtain ⟨a, ha⟩ := ihs r (hs.2 r (Answers.meets bodies hr))
    exact ⟨a, .ask hr ha⟩

/-- Calls that descend in a well-founded order are all answered. -/
theorem exists_answers (wf : WellFounded lower) (c : Call) : ∃ r, Answers body c r := by
  induction c using wf.induction with
  | _ c ih => exact exists_yields bodies (bodies c) ih

end

end ServLang

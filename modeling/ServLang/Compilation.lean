/-
  ServLang.Compilation — from a file's bytes to a valid document: the bytes as text,
  the text as a document, the document checked. The first of the three that fails
  decides the error.

  Proved: what compiles is what a text parses to that breaks no rule.
-/

import ServLang.Document.Parser
import ServLang.Source
import ServLang.Validation

namespace ServLang

inductive CompileError where
  | source (e : SourceError)
  | violation (v : Violation)
deriving DecidableEq, Repr

def CompileError.message : CompileError → String
  | source e => e.message
  | violation v => "validation error: " ++ v.message

section Errors

variable {ε ε' α β : Type}

theorem mapError_eq_ok_iff {f : ε → ε'} {x : Except ε α} {a : α} : x.mapError f = .ok a ↔ x = .ok a := by
  cases x with
  | error e => exact ⟨nofun, nofun⟩
  | ok b => exact ⟨fun h => congrArg Except.ok (Except.ok.inj h), fun h => congrArg Except.ok (Except.ok.inj h)⟩

theorem mapError_bind_eq_ok_iff {f : ε → ε'} {x : Except ε α} {g : α → Except ε' β} {b : β} :
    (x.mapError f >>= g) = .ok b ↔ ∃ a, x = .ok a ∧ g a = .ok b := by
  cases x with
  | error e => exact ⟨nofun, nofun⟩
  | ok a => exact ⟨fun h => ⟨a, rfl, h⟩, fun ⟨_, ha, h⟩ => Except.ok.inj ha ▸ h⟩

end Errors

namespace Document

def compile (strict : Bool) (bytes : ByteArray) : Except CompileError Document := do
  let text ← (Source.decode bytes).mapError (CompileError.source ∘ SourceError.lex)
  let document ← (parse text).mapError CompileError.source
  (document.validate strict).mapError CompileError.violation

/-- A source compiles if its text parses and validation hands the document back. -/
theorem compile_eq_ok_iff {strict : Bool} {bytes : ByteArray} {d : Document} :
    compile strict bytes = .ok d ↔
      ∃ text, Source.decode bytes = .ok text ∧ parse text = .ok d ∧ d.violation? strict = none := by
  rw [compile, mapError_bind_eq_ok_iff]
  refine exists_congr fun text => and_congr Iff.rfl ?_
  rw [mapError_bind_eq_ok_iff]
  simp only [mapError_eq_ok_iff, validate_eq_ok_iff]
  constructor
  · intro ⟨_, hparse, rfl, hvalid⟩
    exact ⟨hparse, hvalid⟩
  · intro ⟨hparse, hvalid⟩
    exact ⟨d, hparse, rfl, hvalid⟩

end Document

end ServLang

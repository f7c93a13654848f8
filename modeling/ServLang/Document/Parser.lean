/-
  ServLang.Document.Parser — the document a token stream describes. Tokens are read
  one at a time, so the first error in the text is the one that is reported, whether
  it is a character that starts no token or a token that continues no document.
-/

import ServLang.Document.State
import ServLang.Token.Lexer

namespace ServLang

instance decEqExcept {ε α : Type} [DecidableEq ε] [DecidableEq α] : DecidableEq (Except ε α)
  | .error e, .error e' => decidable_of_iff (e = e') (by simp)
  | .ok a, .ok b => decidable_of_iff (a = b) (by simp)
  | .error _, .ok _ | .ok _, .error _ => isFalse nofun

namespace State

/-- Reads tokens to the end of their stream. -/
def run : State → List Token → Ending → Except SourceError Document
  | s, [], .finished position =>
    match s.finish with
    | .ok d => .ok d
    | .error expected => .error (.parse ⟨expected, .endOfInput position⟩)
  | _, [], .failed e => .error (.lex e)
  | s, t :: ts, ending =>
    match s.shift t.lexeme with
    | .ok s' => s'.run ts ending
    | .error expected => .error (.parse ⟨expected, .token t⟩)

end State

namespace Document

def ofScan (s : Scan) : Except SourceError Document := State.start.run s.tokens s.ending

def parse (source : String) : Except SourceError Document := ofScan (Scan.ofString source)

end Document

end ServLang

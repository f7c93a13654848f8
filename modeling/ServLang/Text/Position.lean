/-
  ServLang.Text.Position — places in a source text. A position counts the UTF-8
  bytes before it (`offset`, from 0), the line it stands on (from 1) and the
  characters before it on that line (`column`, from 1). Only a line feed ends a line.

  Proved: advancing over two texts one after the other is advancing over both at once.
-/

namespace ServLang

structure Position where
  offset : Nat
  line : Nat
  column : Nat
deriving DecidableEq, Repr

namespace Position

def start : Position := ⟨0, 1, 1⟩

def step (p : Position) (c : Char) : Position :=
  if c = '\n' then ⟨p.offset + c.utf8Size, p.line + 1, 1⟩
  else ⟨p.offset + c.utf8Size, p.line, p.column + 1⟩

/-- The position after a run of characters that starts at `p`. -/
def advance (p : Position) (text : List Char) : Position := text.foldl step p

def text (p : Position) : String := p.line.repr ++ ":" ++ p.column.repr

@[simp] theorem advance_nil (p : Position) : p.advance [] = p := rfl

@[simp] theorem advance_cons (p : Position) (c : Char) (cs : List Char) :
    p.advance (c :: cs) = (p.step c).advance cs := rfl

theorem advance_append (p : Position) (xs ys : List Char) :
    p.advance (xs ++ ys) = (p.advance xs).advance ys := List.foldl_append

end Position

end ServLang

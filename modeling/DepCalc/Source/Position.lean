/-!
Places in a source text.
-/
namespace DepCalc.Source

/-- Lines and columns count from one, the index counts characters from zero. -/
structure Position where
  line : Nat
  column : Nat
  index : Nat
  deriving DecidableEq, Repr

namespace Position

def start : Position := ⟨1, 1, 0⟩

/-- The place behind one character. -/
def next (pos : Position) (c : Char) : Position :=
  if c = '\n' then ⟨pos.line + 1, 1, pos.index + 1⟩
  else ⟨pos.line, pos.column + 1, pos.index + 1⟩

/-- The place behind a piece of text. -/
def after (pos : Position) (text : List Char) : Position :=
  text.foldl next pos

/-- Line and column as they stand in messages. -/
def text (pos : Position) : String :=
  pos.line.repr ++ ":" ++ pos.column.repr

end Position
end DepCalc.Source

import DepCalc.Text.Utf8

/-!
Lines of a byte sequence.
-/
namespace DepCalc.Text.Bytes

def lineFeed : UInt8 := 0x0a
def carriageReturn : UInt8 := 0x0d

def inLine (b : UInt8) : Bool :=
  b != lineFeed

/-- What stands behind the first line feed. -/
def afterLine (bytes : Bytes) : Bytes :=
  (bytes.dropWhile inLine).drop 1

/-- All lines, without their line feeds. Nothing behind the last line feed is no line. -/
def lines (bytes : Bytes) : List Bytes :=
  match bytes with
  | [] => []
  | b :: rest => (b :: rest).takeWhile inLine :: lines (afterLine (b :: rest))
termination_by bytes.length
decreasing_by
  have := (List.dropWhile_sublist inLine (l := b :: rest)).length_le
  simp only [afterLine, List.length_drop, List.length_cons] at *
  omega

/-- The line without one carriage return at its end. -/
def trimReturn (line : Bytes) : Bytes :=
  if line.getLast? = some carriageReturn then line.dropLast else line

end DepCalc.Text.Bytes

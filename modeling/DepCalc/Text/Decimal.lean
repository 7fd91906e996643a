/-!
Decimal notation of integers. Written numbers have no leading zeros; read numbers may, and only the
ASCII digits have a value.
-/
namespace DepCalc.Text.Decimal

def ofInt (n : Int) : String :=
  if n < 0 then "-" ++ n.natAbs.repr else n.natAbs.repr

/-- The number that a nonempty run of ASCII digits denotes. -/
def value? (text : List Char) : Option Nat :=
  if text ≠ [] ∧ text.all Char.isDigit then some (Nat.ofDigitChars 10 text 0) else none

/-- The number that `text` denotes, if it fits a signed 64-bit word. -/
def word? (text : List Char) : Option Int64 :=
  match value? text with
  | some n => if n ≤ Int64.maxValue.toInt then some (Int64.ofNat n) else none
  | none => none

end DepCalc.Text.Decimal

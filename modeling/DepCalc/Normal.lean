import DepCalc.Term.Alpha
import DepCalc.Value.Reading

/-!
Normal forms, and conversion by comparing them.
-/
namespace DepCalc.Term

/-- The normal form of a term whose variables are those named in `scope`, innermost first. -/
def normalize (fuel : Nat) (scope : List Name) (t : Indexed) : Except Halt Indexed := do
  let v ← eval fuel (Env.ofNames scope) t
  v.quote fuel (Int64.ofNat scope.length)

/-- Whether two terms have the same normal form up to names. -/
def convertible (fuel : Nat) (scope : List Name) (s t : Indexed) : Except Halt Bool := do
  let left ← s.normalize fuel scope
  let right ← t.normalize fuel scope
  return decide (AlphaEq left right)

end DepCalc.Term

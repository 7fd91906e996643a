import DepCalc.Value.Basic

/-!
Why evaluation or reading back gives no result: the term or value is not fit for it, or the fuel
does not suffice.
-/
namespace DepCalc

inductive Halt where
  | outOfFuel
  | indexOutOfRange (ix : Int64) (size : Nat)
  | cannotNegate (found : ValueKind)
  | cannotApply (found : ValueKind)
  | cannotBranch (found : ValueKind)
  | operands (left : ValueKind) (op : Operator) (right : ValueKind)
  /-- The variable `x`, bound at level `bound`, is not in scope at level `level`. -/
  | outOfScope (x : Name) (bound level : Int64)
  deriving DecidableEq, Repr

def Halt.message (h : Halt) : String :=
  "internal error: " ++ match h with
  | outOfFuel => "evaluation ran out of fuel"
  | indexOutOfRange ix size =>
    "variable index " ++ Text.Decimal.ofInt ix.toInt ++ " out of range (" ++ size.repr ++
      " in scope)"
  | cannotNegate found => "cannot negate " ++ found.text
  | cannotApply found => "cannot apply " ++ found.text
  | cannotBranch found => "cannot branch on " ++ found.text
  | operands left op right =>
    "operands " ++ left.text ++ " " ++ op.symbol ++ " " ++ right.text
  | outOfScope x bound level =>
    "variable " ++ x ++ " at level " ++ Text.Decimal.ofInt bound.toInt ++ " quoted at level " ++
      Text.Decimal.ofInt level.toInt

end DepCalc

import DepCalc.Operator
import DepCalc.Text.Decimal

/-!
Constants of the calculus and what the operators compute on them. Integers and universe levels are
signed 64-bit words whose arithmetic wraps around.
-/
namespace DepCalc

inductive Constant where
  | int (n : Int64)
  | bool (b : Bool)
  | intType
  | boolType
  | univ (level : Int64)
  deriving DecidableEq, Repr

/-- Largest multiple of `y` not above `x`, counted in `y`, for a positive `y`. -/
def floorDiv (x y : Int64) : Int64 :=
  if x % y < 0 then x / y - 1 else x / y

/-- Division with a remainder that is never negative: divide by the magnitude of the divisor and put
its sign back. Division by zero gives zero. The magnitude of the least word is that word itself. -/
def euclideanDiv (x y : Int64) : Int64 :=
  if y = 0 then 0
  else if 0 < y then floorDiv x y
  else -floorDiv x (-y)

namespace Constant

def text : Constant → String
  | int n => Text.Decimal.ofInt n.toInt
  | bool true => "True"
  | bool false => "False"
  | intType => "Int"
  | boolType => "Bool"
  | univ level => if level = 0 then "Type" else "U" ++ Text.Decimal.ofInt level.toInt

/-- A negative literal needs brackets where an atom is wanted. -/
def tier : Constant → Nat
  | int n => if n < 0 then Tier.unary else Tier.atom
  | _ => Tier.atom

end Constant

namespace Operator

def onInts : Operator → Int64 → Int64 → Option Constant
  | add, x, y => some (.int (x + y))
  | sub, x, y => some (.int (x - y))
  | mul, x, y => some (.int (x * y))
  | div, x, y => some (.int (euclideanDiv x y))
  | eq, x, y => some (.bool (x == y))
  | lt, x, y => some (.bool (x < y))
  | and, _, _ | or, _, _ => none

def onBools : Operator → Bool → Bool → Option Constant
  | and, x, y => some (.bool (x && y))
  | or, x, y => some (.bool (x || y))
  | _, _, _ => none

/-- The result on two literals of the operator's own sort. -/
def compute? (op : Operator) : Constant → Constant → Option Constant
  | .int x, .int y => op.onInts x y
  | .bool x, .bool y => op.onBools x y
  | _, _ => none

/-- The type of both operands. -/
def operandType : Operator → Constant
  | and | or => .boolType
  | _ => .intType

def resultType : Operator → Constant
  | add | sub | mul | div => .intType
  | _ => .boolType

end Operator
end DepCalc

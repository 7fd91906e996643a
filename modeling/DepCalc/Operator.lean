/-!
Binary operators and the tiers of the grammar.

A form of a lower tier binds more tightly. Atoms have tier 0, applications 1, negation and negative
literals 2, the operators 3 to 7, arrows 8; binders and conditionals reach as far right as they can
and have tier 9.
-/
namespace DepCalc

inductive Operator where
  | add | sub | mul | div | eq | lt | and | or
  deriving DecidableEq, Repr

namespace Tier

def atom : Nat := 0
def application : Nat := 1
def unary : Nat := 2
def arrow : Nat := 8
def term : Nat := 9

/-- How many tiers of operators there are. -/
def operators : Nat := 5

end Tier

namespace Operator

def symbol : Operator → String
  | add => "+"
  | sub => "-"
  | mul => "*"
  | div => "/"
  | eq => "=="
  | lt => "<"
  | and => "&&"
  | or => "||"

def tier : Operator → Nat
  | mul | div => 3
  | add | sub => 4
  | eq | lt => 5
  | and => 6
  | or => 7

/-- Comparisons do not associate; all other operators associate to the left. -/
def isComparison : Operator → Bool
  | eq | lt => true
  | _ => false

end Operator
end DepCalc

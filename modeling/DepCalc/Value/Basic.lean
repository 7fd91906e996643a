import DepCalc.Term.Basic

/-!
Values: terms evaluated as far as the values of their variables allow. A binder's body stays a term
with the environment it was met in; what waits for a variable is neutral.
-/
namespace DepCalc

mutual

inductive Value where
  | const (c : Constant)
  /-- A binder with its evaluated domain, the environment of its body, and the body. -/
  | bind (b : Binder) (dom : Value) (x : Name) (env : List Value) (body : Indexed)
  | neutral (n : Neutral)

inductive Neutral where
  /-- Levels count binders from the outside in, starting at one. -/
  | var (x : Name) (level : Int64)
  | binop (op : Operator) (left right : Value)
  | not (operand : Neutral)
  | app (fn : Neutral) (arg : Value)
  | cond (test : Neutral) (yes no : Value)

end

/-- The values of the variables in scope, innermost first. -/
abbrev Env := List Value

/-- The variable bound at `level`. -/
def Value.fresh (x : Name) (level : Int64) : Value :=
  .neutral (.var x level)

/-- Variables with these names, bound at `level` and the levels below it. -/
def Env.descending (level : Int64) : List Name → Env
  | [] => []
  | x :: rest => Value.fresh x level :: Env.descending (level - 1) rest

/-- Every name bound to a variable of its own; the outermost has level one. -/
def Env.ofNames (names : List Name) : Env :=
  Env.descending (Int64.ofNat names.length) names

/-- What sort of value stands where another was needed. -/
inductive ValueKind where
  | int | bool | lam | pi | sigma | intType | boolType | univ | neutral
  deriving DecidableEq, Repr

def Value.kind : Value → ValueKind
  | const (.int _) => .int
  | const (.bool _) => .bool
  | const .intType => .intType
  | const .boolType => .boolType
  | const (.univ _) => .univ
  | bind .lam .. => .lam
  | bind .pi .. => .pi
  | bind .sigma .. => .sigma
  | neutral _ => .neutral

def ValueKind.text : ValueKind → String
  | int => "nbe.VIntLit"
  | bool => "nbe.VBoolLit"
  | lam => "nbe.VLam"
  | pi => "nbe.VForall"
  | sigma => "nbe.VExists"
  | intType => "nbe.VIntType"
  | boolType => "nbe.VBoolType"
  | univ => "nbe.VUniverse"
  | neutral => "nbe.VNeutral"

end DepCalc

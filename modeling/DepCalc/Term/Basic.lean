import DepCalc.Constant
import DepCalc.Name

/-!
Terms of the calculus, parameterised by what a variable occurrence is: a name as written in
surface terms, a name with its index in indexed terms. Programs count indices in words.
-/
namespace DepCalc

inductive Binder where
  | lam | pi | sigma
  deriving DecidableEq, Repr

def Binder.glyph : Binder → String
  | lam => "λ"
  | pi => "∀"
  | sigma => "∃"

/-- In `bind b x dom body` the variable `x` is bound in `body` only. -/
inductive Term (ν : Type) where
  | var (v : ν)
  | const (c : Constant)
  | binop (op : Operator) (left right : Term ν)
  | not (operand : Term ν)
  | app (fn arg : Term ν)
  | bind (b : Binder) (x : Name) (dom body : Term ν)
  | cond (test yes no : Term ν)
  | ascribe (subject type : Term ν)
  deriving DecidableEq, Repr

abbrev Surface := Term Name

/-- A variable of an indexed term: `ix` binders stand between it and its own. The name is kept for
display only. -/
structure Variable (ι : Type) where
  name : Name
  ix : ι
  deriving DecidableEq, Repr

abbrev Occurrence := Variable Int64

abbrev Indexed := Term Occurrence

/-- The entry at a signed index, if there is one. -/
def atIndex? {α : Type} (entries : List α) (ix : Int64) : Option α :=
  if ix < 0 then none else entries[ix.toNatClampNeg]?

end DepCalc

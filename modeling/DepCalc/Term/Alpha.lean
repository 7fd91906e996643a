import DepCalc.Term.Basic

/-!
Equality of indexed terms up to the names they carry.
-/
namespace DepCalc.Term

variable {ι : Type}

/-- The term with every name, of a variable or of a binder, replaced by the empty one. -/
def forgetNames : Term (Variable ι) → Term (Variable ι)
  | var v => var { v with name := "" }
  | const c => const c
  | binop op l r => binop op l.forgetNames r.forgetNames
  | not t => not t.forgetNames
  | app f a => app f.forgetNames a.forgetNames
  | bind b _ dom body => bind b "" dom.forgetNames body.forgetNames
  | cond c t e => cond c.forgetNames t.forgetNames e.forgetNames
  | ascribe t type => ascribe t.forgetNames type.forgetNames

/-- Same structure and same indices. -/
def AlphaEq (s t : Term (Variable ι)) : Prop :=
  s.forgetNames = t.forgetNames

instance [DecidableEq ι] (s t : Term (Variable ι)) : Decidable (AlphaEq s t) :=
  inferInstanceAs (Decidable (s.forgetNames = t.forgetNames))

end DepCalc.Term

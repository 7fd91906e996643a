import DepCalc.Term.Basic

/-!
Texts in which every compound form but negation and the conditional stands in brackets, so that no
tiers are needed to read them.
-/
namespace DepCalc.Term

/-- The common layout; `occurrence` writes a variable and `binding` a binder with the texts of its
domain and body. -/
def bracketed {ν : Type} (occurrence : ν → String)
    (binding : Binder → Name → String → String → String) : Term ν → String
  | var v => occurrence v
  | const c => c.text
  | binop op l r =>
    "(" ++ l.bracketed occurrence binding ++ " " ++ op.symbol ++ " " ++
      r.bracketed occurrence binding ++ ")"
  | not t => "!" ++ t.bracketed occurrence binding
  | app f a =>
    "(" ++ f.bracketed occurrence binding ++ " " ++ a.bracketed occurrence binding ++ ")"
  | bind b x dom body =>
    binding b x (dom.bracketed occurrence binding) (body.bracketed occurrence binding)
  | cond t yes no =>
    "if " ++ t.bracketed occurrence binding ++ " then " ++ yes.bracketed occurrence binding ++
      " else " ++ no.bracketed occurrence binding
  | ascribe t type =>
    "(" ++ t.bracketed occurrence binding ++ " : " ++ type.bracketed occurrence binding ++ ")"

/-- A quantifier over the wildcard is written as an arrow. -/
def namedBinding : Binder → Name → String → String → String
  | .lam, x, dom, body => "(λ" ++ x ++ ":" ++ dom ++ "." ++ body ++ ")"
  | .pi, x, dom, body =>
    if x = wildcard then "(" ++ dom ++ " -> " ++ body ++ ")"
    else "(∀(" ++ x ++ ":" ++ dom ++ ")." ++ body ++ ")"
  | .sigma, x, dom, body => "(∃(" ++ x ++ ":" ++ dom ++ ")." ++ body ++ ")"

def named (t : Surface) : String :=
  t.bracketed id namedBinding

def numberedBinding (b : Binder) (_ : Name) (dom body : String) : String :=
  "(" ++ b.glyph ++ ":" ++ dom ++ "." ++ body ++ ")"

/-- Indices in place of names. -/
def numbered (t : Indexed) : String :=
  t.bracketed (fun v => Text.Decimal.ofInt v.ix.toInt) numberedBinding

end DepCalc.Term

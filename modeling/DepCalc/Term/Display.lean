import DepCalc.Term.Basic

/-!
Texts of indexed terms under the names in scope, with no more brackets than the tiers ask for.
Binders are renamed on the way so that no displayed name but the wildcard shadows another.
-/
namespace DepCalc.Term

/-- Brackets around a form of tier `tier` where only tiers up to `limit` may stand. -/
def bracketAbove (limit tier : Nat) (text : String) : String :=
  if limit < tier then "(" ++ text ++ ")" else text

/-- What stands before the dot of a binder. -/
def binderHead : Binder → Name → String → String
  | .lam, x, dom => "λ" ++ x ++ ":" ++ dom
  | b, x, dom => b.glyph ++ "(" ++ x ++ ":" ++ dom ++ ")"

/-- The text of a term where tiers up to `limit` may stand. A variable beyond the scope shows the
name it carries. -/
def render (scope : List Name) (limit : Nat) : Indexed → String
  | var v => (atIndex? scope v.ix).getD v.name
  | const c => bracketAbove limit c.tier c.text
  | binop op l r =>
    let leftLimit := if op.isComparison then op.tier - 1 else op.tier
    bracketAbove limit op.tier
      (l.render scope leftLimit ++ " " ++ op.symbol ++ " " ++ r.render scope (op.tier - 1))
  | not t => bracketAbove limit Tier.unary ("!" ++ t.render scope Tier.atom)
  | app f a =>
    bracketAbove limit Tier.application
      (f.render scope Tier.application ++ " " ++ a.render scope Tier.atom)
  | bind b x dom body =>
    let shown := freshen scope x
    if b = .pi ∧ x = wildcard then
      bracketAbove limit Tier.arrow
        (dom.render scope (Tier.arrow - 1) ++ " -> " ++ body.render (shown :: scope) Tier.arrow)
    else
      bracketAbove limit Tier.term
        (binderHead b shown (dom.render scope Tier.term) ++ ". " ++
          body.render (shown :: scope) Tier.term)
  | cond t yes no =>
    bracketAbove limit Tier.term
      ("if " ++ t.render scope Tier.term ++ " then " ++ yes.render scope Tier.term ++
        " else " ++ no.render scope Tier.term)
  | ascribe t type =>
    "(" ++ t.render scope Tier.term ++ " : " ++ type.render scope Tier.term ++ ")"

/-- The first negative index, from left to right. -/
def negativeIndex? : Indexed → Option Int64
  | var v => if v.ix < 0 then some v.ix else none
  | const _ => none
  | binop _ l r => l.negativeIndex? <|> r.negativeIndex?
  | not t => t.negativeIndex?
  | app f a => f.negativeIndex? <|> a.negativeIndex?
  | bind _ _ dom body => dom.negativeIndex? <|> body.negativeIndex?
  | cond t yes no => t.negativeIndex? <|> yes.negativeIndex? <|> no.negativeIndex?
  | ascribe t type => t.negativeIndex? <|> type.negativeIndex?

/-- A variable with a negative index refers to nothing and cannot be displayed. -/
structure NegativeIndex where
  ix : Int64
  deriving DecidableEq, Repr

def NegativeIndex.message (fault : NegativeIndex) : String :=
  "runtime error: index out of range [" ++ Text.Decimal.ofInt fault.ix.toInt ++ "]"

def display (scope : List Name) (t : Indexed) : Except NegativeIndex String :=
  match t.negativeIndex? with
  | some ix => .error ⟨ix⟩
  | none => .ok (t.render scope Tier.term)

end DepCalc.Term

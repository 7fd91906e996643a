import DepCalc.Term.Basic

/-!
Shifting and substitution on indexed terms, for any numbers that count binders. Where these are
words, `+` wraps around.
-/
namespace DepCalc.Term

variable {ι : Type} [Add ι] [Neg ι] [OfNat ι 0] [OfNat ι 1] [LT ι] [DecidableLT ι] [DecidableEq ι]

/-- Add `d` to every index that is at least `c`. -/
@[specialize]
def shift (d c : ι) : Term (Variable ι) → Term (Variable ι)
  | var v => if v.ix < c then var v else var { v with ix := v.ix + d }
  | const k => const k
  | binop op l r => binop op (l.shift d c) (r.shift d c)
  | not t => not (t.shift d c)
  | app f a => app (f.shift d c) (a.shift d c)
  | bind b x dom body => bind b x (dom.shift d c) (body.shift d (c + 1))
  | cond t yes no => cond (t.shift d c) (yes.shift d c) (no.shift d c)
  | ascribe t type => ascribe (t.shift d c) (type.shift d c)

/-- Put `s` in the place of index `j`. -/
@[specialize]
def subst (j : ι) (s : Term (Variable ι)) : Term (Variable ι) → Term (Variable ι)
  | var v => if v.ix = j then s else var v
  | const k => const k
  | binop op l r => binop op (subst j s l) (subst j s r)
  | not t => not (subst j s t)
  | app f a => app (subst j s f) (subst j s a)
  | bind b x dom body => bind b x (subst j s dom) (subst (j + 1) (s.shift 1 0) body)
  | cond t yes no => cond (subst j s t) (subst j s yes) (subst j s no)
  | ascribe t type => ascribe (subst j s t) (subst j s type)

/-- The body of a binder with `s` for the bound variable. -/
@[specialize]
def instantiate (s body : Term (Variable ι)) : Term (Variable ι) :=
  shift (-1) 0 (subst 0 (s.shift 1 0) body)

end DepCalc.Term

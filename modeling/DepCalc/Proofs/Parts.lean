import DepCalc.Proofs.Weakening

/-!
What holds of all parts of a term or value. A property of constants and of indices is handed from a
term and the values of its variables to the value of the term; whatever evaluation meets, the bodies
of closures included, has it. This asks neither for types nor for variables in scope.
-/
namespace DepCalc

/-- A property of constants, and one of indices in a scope of some size. Literals have the first,
since evaluation computes them. -/
structure Parts where
  constant : Constant → Prop
  index : Nat → Int64 → Prop
  int : ∀ n, constant (.int n)
  bool : ∀ b, constant (.bool b)

/-- All constants and indices of a term in a scope of `n` variables have the properties. -/
def Term.All (p : Parts) : Nat → Indexed → Prop
  | n, var v => p.index n v.ix
  | _, const c => p.constant c
  | n, binop _ l r => l.All p n ∧ r.All p n
  | n, not t => t.All p n
  | n, app f a => f.All p n ∧ a.All p n
  | n, bind _ _ dom body => dom.All p n ∧ body.All p (n + 1)
  | n, cond t yes no => t.All p n ∧ yes.All p n ∧ no.All p n
  | n, ascribe t type => t.All p n ∧ type.All p n

mutual

/-- All constants and bodies of a value have the properties, and `bound` holds of every variable with
the level at which it is bound. -/
def Value.All (p : Parts) (bound : Name → Int64 → Prop) : Value → Prop
  | .const c => p.constant c
  | .bind _ dom _ env body => dom.All p bound ∧ Env.All p bound env ∧ body.All p (env.length + 1)
  | .neutral n => n.All p bound

def Neutral.All (p : Parts) (bound : Name → Int64 → Prop) : Neutral → Prop
  | .var x level => bound x level
  | .binop _ l r => l.All p bound ∧ r.All p bound
  | .not n => n.All p bound
  | .app f a => f.All p bound ∧ a.All p bound
  | .cond t y n => t.All p bound ∧ y.All p bound ∧ n.All p bound

def Env.All (p : Parts) (bound : Name → Int64 → Prop) : List Value → Prop
  | [] => True
  | v :: rest => v.All p bound ∧ Env.All p bound rest

end

/-- Any variable, whatever its level. -/
abbrev anyVariable : Name → Int64 → Prop := fun _ _ => True

/-- What a fault of evaluation says about the term. An index out of range is an index of it. -/
def Parts.Explains (p : Parts) : Halt → Prop
  | .indexOutOfRange ix size => p.index size ix ∧ Beyond size ix
  | .outOfScope .. => False
  | _ => True

variable {p : Parts} {bound bound' : Name → Int64 → Prop}

mutual

theorem Value.All.mono {v : Value} (all : v.All p bound)
    (weaker : ∀ x level, bound x level → bound' x level) : v.All p bound' := by
  cases v with
  | const c => exact all
  | neutral n => exact Neutral.All.mono (n := n) all weaker
  | bind b dom x env body =>
    exact ⟨Value.All.mono all.1 weaker, Env.All.mono all.2.1 weaker, all.2.2⟩

theorem Neutral.All.mono {n : Neutral} (all : n.All p bound)
    (weaker : ∀ x level, bound x level → bound' x level) : n.All p bound' := by
  cases n with
  | var x level => exact weaker x level all
  | binop op l r => exact ⟨Value.All.mono all.1 weaker, Value.All.mono all.2 weaker⟩
  | not n => exact Neutral.All.mono (n := n) all weaker
  | app f a => exact ⟨Neutral.All.mono all.1 weaker, Value.All.mono all.2 weaker⟩
  | cond t y n =>
    exact ⟨Neutral.All.mono all.1 weaker, Value.All.mono all.2.1 weaker,
      Value.All.mono all.2.2 weaker⟩

theorem Env.All.mono {env : List Value} (all : Env.All p bound env)
    (weaker : ∀ x level, bound x level → bound' x level) : Env.All p bound' env := by
  cases env with
  | nil => trivial
  | cons v rest => exact ⟨Value.All.mono all.1 weaker, Env.All.mono all.2 weaker⟩

end

theorem Env.All.get {env : List Value} {i : Nat} {v : Value} (all : Env.All p bound env)
    (found : env[i]? = some v) : v.All p bound := by
  induction env generalizing i with
  | nil => simp at found
  | cons w rest ih =>
    cases i with
    | zero =>
      cases found
      exact all.1
    | succ i => exact ih all.2 (by simpa using found)

theorem Env.All.ofNames {names : List Name} : Env.All p anyVariable (Env.ofNames names) := by
  unfold Env.ofNames
  generalize Int64.ofNat names.length = level
  induction names generalizing level with
  | nil => trivial
  | cons x rest ih => exact ⟨trivial, ih (level - 1)⟩

theorem beyond_of_atIndex? {α : Type} {entries : List α} {ix : Int64}
    (missing : atIndex? entries ix = none) : Beyond entries.length ix := by
  unfold atIndex? at missing
  split at missing
  · rename_i negative
    rw [Int64.lt_iff_toInt_lt] at negative
    exact .inl negative
  · rename_i nonneg
    rw [Int64.lt_iff_toInt_lt, Int64.toInt_zero] at nonneg
    rw [List.getElem?_eq_none_iff, ← Int64.toNat_toInt] at missing
    right
    omega

theorem lookup_parts {env : Env} {ix : Int64} (all : Env.All p bound env)
    (index : p.index env.length ix) :
    Outcome p.Explains (Value.All p bound) (env.lookup ix) := by
  unfold Env.lookup
  cases found : atIndex? env ix with
  | none => exact ⟨index, beyond_of_atIndex? found⟩
  | some v =>
    unfold atIndex? at found
    split at found
    · cases found
    · exact all.get found

theorem negate_parts {v : Value} (all : v.All p bound) :
    Outcome p.Explains (Value.All p bound) v.negate := by
  unfold Value.negate
  split
  · exact p.bool _
  · exact all
  · trivial

/-- What an operator computes is a literal. -/
theorem compute_parts {op : Operator} {c d result : Constant}
    (computed : op.compute? c d = some result) : p.constant result := by
  unfold Operator.compute? at computed
  split at computed
  · cases op with
    | add | sub | mul | div =>
      cases computed
      exact p.int _
    | eq | lt =>
      cases computed
      exact p.bool _
    | and | or => cases computed
  · cases op with
    | and | or =>
      cases computed
      exact p.bool _
    | _ => cases computed
  · cases computed

theorem onValues_parts {op : Operator} {l r : Value} (left : l.All p bound)
    (right : r.All p bound) : Outcome p.Explains (Value.All p bound) (op.onValues l r) := by
  unfold Operator.onValues
  split
  · split
    · rename_i computed
      exact compute_parts computed
    · trivial
  · exact ⟨left, right⟩
  · exact ⟨left, right⟩
  · trivial

/-- The induction is on the fuel: the body of a closure has the properties because the closure
does, not because the term has them. -/
theorem eval_parts {fuel : Nat} {env : Env} {t : Indexed} (values : Env.All p bound env)
    (all : t.All p env.length) : Outcome p.Explains (Value.All p bound) (eval fuel env t) := by
  induction fuel generalizing env t with
  | zero => trivial
  | succ fuel ih =>
    cases t with
    | var v => exact lookup_parts values all
    | const c => exact all
    | ascribe t type => exact ih values all.1
    | binop op l r =>
      apply (ih values all.1).bind
      intro left leftAll
      apply (ih values all.2).bind
      intro right rightAll
      exact onValues_parts leftAll rightAll
    | not t =>
      apply (ih (t := t) values all).bind
      intro operand operandAll
      exact negate_parts operandAll
    | bind b x dom body =>
      apply (ih values all.1).bind
      intro domain domainAll
      exact ⟨domainAll, values, all.2⟩
    | app f a =>
      apply (ih values all.1).bind
      intro fn fnAll
      apply (ih values all.2).bind
      intro arg argAll
      cases fn with
      | const c => trivial
      | neutral n => exact ⟨fnAll, argAll⟩
      | bind b dom x captured body =>
        cases b with
        | pi => trivial
        | sigma => trivial
        | lam =>
          obtain ⟨-, capturedAll, bodyAll⟩ := fnAll
          have inside : Env.All p bound (arg :: captured) := ⟨argAll, capturedAll⟩
          exact ih inside bodyAll
    | cond t y n =>
      apply (ih values all.1).bind
      intro test testAll
      cases test with
      | bind b dom x captured body => trivial
      | neutral stuck =>
        apply (ih values all.2.1).bind
        intro yes yesAll
        apply (ih values all.2.2).bind
        intro no noAll
        exact ⟨testAll, yesAll, noAll⟩
      | const c =>
        cases c with
        | bool b =>
          cases b with
          | true => exact ih values all.2.1
          | false => exact ih values all.2.2
        | _ => trivial

end DepCalc

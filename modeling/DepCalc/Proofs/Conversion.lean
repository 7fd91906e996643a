import DepCalc.Proofs.Fuel
import DepCalc.Proofs.Meaning

/-!
Reduction and conversion of indexed terms, by contracting redexes in place with shifting and
substitution. They are told of terms whose indices are integers: on words a step might wrap around an
index, though perhaps in a part that is dropped later (`widen_instantiate` says when it does not).
They do not ask for types, nor for variables in scope. Main results: a term reduces in steps to its
normal form, up to names, and comparing normal forms decides conversion.
-/
namespace DepCalc.Term

/-- The redexes, and what each is contracted to. -/
inductive Contracts : Term (Variable Int) → Term (Variable Int) → Prop
  | beta (x : Name) (dom body s : Term (Variable Int)) :
      Contracts (.app (.bind .lam x dom body) s) (instantiate s body)
  | ascription (t type : Term (Variable Int)) : Contracts (.ascribe t type) t
  | selection (b : Bool) (yes no : Term (Variable Int)) :
      Contracts (.cond (.const (.bool b)) yes no) (bif b then yes else no)
  | negation (b : Bool) : Contracts (.not (.const (.bool b))) (.const (.bool (!b)))
  | computation {op : Operator} {c d result : Constant} (computed : op.compute? c d = some result) :
      Contracts (.binop op (.const c) (.const d)) (.const result)

/-- One step contracts a redex in any position of the term. -/
inductive Step : Term (Variable Int) → Term (Variable Int) → Prop
  | contract {t u : Term (Variable Int)} (redex : Contracts t u) : Step t u
  | left {op : Operator} {l l' r : Term (Variable Int)} (step : Step l l') :
      Step (.binop op l r) (.binop op l' r)
  | right {op : Operator} {l r r' : Term (Variable Int)} (step : Step r r') :
      Step (.binop op l r) (.binop op l r')
  | operand {t t' : Term (Variable Int)} (step : Step t t') : Step (.not t) (.not t')
  | fn {f f' a : Term (Variable Int)} (step : Step f f') : Step (.app f a) (.app f' a)
  | arg {f a a' : Term (Variable Int)} (step : Step a a') : Step (.app f a) (.app f a')
  | domain {b : Binder} {x : Name} {dom dom' body : Term (Variable Int)} (step : Step dom dom') :
      Step (.bind b x dom body) (.bind b x dom' body)
  | under {b : Binder} {x : Name} {dom body body' : Term (Variable Int)} (step : Step body body') :
      Step (.bind b x dom body) (.bind b x dom body')
  | test {t t' yes no : Term (Variable Int)} (step : Step t t') :
      Step (.cond t yes no) (.cond t' yes no)
  | yes {t yes yes' no : Term (Variable Int)} (step : Step yes yes') :
      Step (.cond t yes no) (.cond t yes' no)
  | no {t yes no no' : Term (Variable Int)} (step : Step no no') :
      Step (.cond t yes no) (.cond t yes no')
  | subject {t t' type : Term (Variable Int)} (step : Step t t') :
      Step (.ascribe t type) (.ascribe t' type)
  | type {t type type' : Term (Variable Int)} (step : Step type type') :
      Step (.ascribe t type) (.ascribe t type')

/-- Any number of steps, or none. -/
def Steps : Term (Variable Int) → Term (Variable Int) → Prop := Relation.ReflTransGen Step

/-- The least equivalence and congruence that ignores names and contracts redexes. -/
inductive Conv : Term (Variable Int) → Term (Variable Int) → Prop
  | names {t u : Term (Variable Int)} (same : AlphaEq t u) : Conv t u
  | contract {t u : Term (Variable Int)} (redex : Contracts t u) : Conv t u
  | symm {t u : Term (Variable Int)} (h : Conv t u) : Conv u t
  | trans {t u v : Term (Variable Int)} (first : Conv t u) (second : Conv u v) : Conv t v
  | binop {op : Operator} {l l' r r' : Term (Variable Int)} (left : Conv l l')
      (right : Conv r r') : Conv (.binop op l r) (.binop op l' r')
  | not {t t' : Term (Variable Int)} (operand : Conv t t') : Conv (.not t) (.not t')
  | app {f f' a a' : Term (Variable Int)} (fn : Conv f f') (arg : Conv a a') :
      Conv (.app f a) (.app f' a')
  | bind {b : Binder} {x : Name} {dom dom' body body' : Term (Variable Int)}
      (domain : Conv dom dom') (under : Conv body body') :
      Conv (.bind b x dom body) (.bind b x dom' body')
  | cond {t t' yes yes' no no' : Term (Variable Int)} (test : Conv t t') (whenTrue : Conv yes yes')
      (whenFalse : Conv no no') : Conv (.cond t yes no) (.cond t' yes' no')
  | ascribe {t t' type type' : Term (Variable Int)} (subject : Conv t t')
      (ascribed : Conv type type') : Conv (.ascribe t type) (.ascribe t' type')

namespace Steps

theorem refl (t : Term (Variable Int)) : Steps t t := Relation.ReflTransGen.refl

theorem trans {t u v : Term (Variable Int)} (first : Steps t u) (second : Steps u v) : Steps t v :=
  Relation.ReflTransGen.trans first second

theorem contract {t u : Term (Variable Int)} (redex : Contracts t u) : Steps t u :=
  Relation.ReflTransGen.single (.contract redex)

theorem binop {op : Operator} {l l' r r' : Term (Variable Int)} (left : Steps l l')
    (right : Steps r r') : Steps (.binop op l r) (.binop op l' r') :=
  (left.lift (Term.binop op · r) fun _ _ => .left).trans
    (right.lift (Term.binop op l' ·) fun _ _ => .right)

theorem not {t t' : Term (Variable Int)} (operand : Steps t t') : Steps (.not t) (.not t') :=
  operand.lift Term.not fun _ _ => .operand

theorem app {f f' a a' : Term (Variable Int)} (fn : Steps f f') (arg : Steps a a') :
    Steps (.app f a) (.app f' a') :=
  (fn.lift (Term.app · a) fun _ _ => .fn).trans (arg.lift (Term.app f' ·) fun _ _ => .arg)

theorem bind {b : Binder} {x : Name} {dom dom' body body' : Term (Variable Int)}
    (domain : Steps dom dom') (under : Steps body body') :
    Steps (.bind b x dom body) (.bind b x dom' body') :=
  (domain.lift (Term.bind b x · body) fun _ _ => .domain).trans
    (under.lift (Term.bind b x dom' ·) fun _ _ => .under)

theorem cond {t t' yes yes' no no' : Term (Variable Int)} (test : Steps t t')
    (whenTrue : Steps yes yes') (whenFalse : Steps no no') :
    Steps (.cond t yes no) (.cond t' yes' no') :=
  ((test.lift (Term.cond · yes no) fun _ _ => .test).trans
    (whenTrue.lift (Term.cond t' · no) fun _ _ => .yes)).trans
    (whenFalse.lift (Term.cond t' yes' ·) fun _ _ => .no)

/-- Ascriptions can be dropped everywhere. -/
theorem strip (t : Term (Variable Int)) : Steps t t.strip := by
  induction t with
  | var v => exact .refl _
  | const c => exact .refl _
  | binop op l r left right => exact left.binop right
  | not t operand => exact operand.not
  | app f a fn arg => exact fn.app arg
  | bind b x dom body domain under => exact domain.bind under
  | cond t yes no test whenTrue whenFalse => exact test.cond whenTrue whenFalse
  | ascribe t type subject _ => exact (contract (.ascription t type)).trans subject

end Steps

theorem steps_const {t : Term (Variable Int)} {c : Constant} (shown : t.bare = .const c) :
    Steps t (.const c) := by
  induction t with
  | const d =>
    cases shown
    exact .refl _
  | ascribe t type ih _ => exact (Steps.contract (.ascription t type)).trans (ih shown)
  | var v =>
    simp only [bare, Bare.ofIndex] at shown
    split at shown <;> cases shown
  | _ => cases shown

theorem steps_bind {t : Term (Variable Int)} {b : Binder} {dom body : Bare}
    (shown : t.bare = .bind b dom body) :
    ∃ x dom' body', Steps t (.bind b x dom' body') ∧ body'.bare = body := by
  induction t with
  | bind _ x dom' body' _ _ =>
    cases shown
    exact ⟨x, dom', body', .refl _, rfl⟩
  | ascribe t type ih _ =>
    obtain ⟨x, dom', body', steps, same⟩ := ih shown
    exact ⟨x, dom', body', (Steps.contract (.ascription t type)).trans steps, same⟩
  | var v =>
    simp only [bare, Bare.ofIndex] at shown
    split at shown <;> cases shown
  | _ => cases shown

/-- A parallel step of the bare term is made by steps of the term. The induction is on the term: to
contract an application, the function first makes the steps of its body. -/
theorem steps_of_par {t : Term (Variable Int)} {u : Bare} (step : Bare.Par t.bare u) :
    ∃ t', Steps t t' ∧ t'.bare = u := by
  induction t generalizing u with
  | var v => exact ⟨_, .refl _, (Bare.Rigid.ofIndex v.ix u step).symm⟩
  | const c => exact ⟨_, .refl _, step.const_inv.symm⟩
  | ascribe t type ih _ =>
    obtain ⟨t', steps, same⟩ := ih step
    exact ⟨t', (Steps.contract (.ascription t type)).trans steps, same⟩
  | bind b x dom body domain under =>
    cases step with
    | bind domainStep underStep =>
      obtain ⟨dom', domainSteps, rfl⟩ := domain domainStep
      obtain ⟨body', underSteps, rfl⟩ := under underStep
      exact ⟨.bind b x dom' body', domainSteps.bind underSteps, rfl⟩
  | binop op l r left right =>
    generalize leftShown : l.bare = l₀, rightShown : r.bare = r₀ at *
    rw [bare, leftShown, rightShown] at step
    cases step with
    | binop leftStep rightStep =>
      obtain ⟨l', leftSteps, rfl⟩ := left leftStep
      obtain ⟨r', rightSteps, rfl⟩ := right rightStep
      exact ⟨.binop op l' r', leftSteps.binop rightSteps, rfl⟩
    | @compute _ c d result computed =>
      have literals : Steps (.binop op l r) (.binop op (.const c) (.const d)) :=
        (steps_const leftShown).binop (steps_const rightShown)
      exact ⟨.const result, literals.trans (.contract (.computation computed)), rfl⟩
  | not t operand =>
    generalize shown : t.bare = t₀ at *
    rw [bare, shown] at step
    cases step with
    | not operandStep =>
      obtain ⟨t', steps, rfl⟩ := operand operandStep
      exact ⟨.not t', steps.not, rfl⟩
    | negate b => exact ⟨_, (steps_const shown).not.trans (.contract (.negation b)), rfl⟩
  | app f a fn arg =>
    generalize shown : f.bare = f₀ at *
    rw [bare, shown] at step
    cases step with
    | app fnStep argStep =>
      obtain ⟨f', fnSteps, rfl⟩ := fn fnStep
      obtain ⟨a', argSteps, rfl⟩ := arg argStep
      exact ⟨.app f' a', fnSteps.app argSteps, rfl⟩
    | @beta dom body body₁ _ _ underStep argStep =>
      obtain ⟨f', fnSteps, fnShown⟩ := fn (.bind (.refl dom) underStep)
      obtain ⟨x, dom', body', moreSteps, rfl⟩ := steps_bind fnShown
      obtain ⟨a', argSteps, rfl⟩ := arg argStep
      have redex := (fnSteps.trans moreSteps).app argSteps
      exact ⟨instantiate a' body', redex.trans (.contract (.beta x dom' body' a')),
        bare_instantiate a' body'⟩
  | cond t y n test yes no =>
    generalize shown : t.bare = t₀ at *
    rw [bare, shown] at step
    cases step with
    | cond testStep yesStep noStep =>
      obtain ⟨t', testSteps, rfl⟩ := test testStep
      obtain ⟨y', yesSteps, rfl⟩ := yes yesStep
      obtain ⟨n', noSteps, rfl⟩ := no noStep
      exact ⟨.cond t' y' n', testSteps.cond yesSteps noSteps, rfl⟩
    | selectYes yesStep =>
      obtain ⟨y', yesSteps, rfl⟩ := yes yesStep
      have redex := (steps_const shown).cond yesSteps (.refl n)
      exact ⟨y', redex.trans (.contract (.selection true y' n)), rfl⟩
    | selectNo noStep =>
      obtain ⟨n', noSteps, rfl⟩ := no noStep
      have redex := (steps_const shown).cond (.refl y) noSteps
      exact ⟨n', redex.trans (.contract (.selection false y n')), rfl⟩

theorem steps_of_reduces {t : Term (Variable Int)} {u : Bare} (reduces : Bare.Reduces t.bare u) :
    ∃ t', Steps t t' ∧ t'.bare = u := by
  induction reduces with
  | refl => exact ⟨t, .refl t, rfl⟩
  | tail _ step ih =>
    obtain ⟨t', steps, rfl⟩ := ih
    obtain ⟨t'', more, same⟩ := steps_of_par step
    exact ⟨t'', steps.trans more, same⟩

/-- The normal form of a term is reached, up to names, by contracting redexes one at a time. -/
theorem normalize_reached_by_steps {fuel : Nat} {scope : List Name} {t n : Indexed}
    (normalized : t.normalize fuel scope = .ok n) (room : scope.length + n.depth < 2 ^ 63) :
    ∃ n', Steps t.widen n' ∧ AlphaEq n' n.widen := by
  have reads := normalize_reads normalized room
  obtain ⟨n', steps, same⟩ := steps_of_reduces reads.reduces
  have stripped : AlphaEq n'.strip n.widen.strip := bare_eq_iff.mp same
  rw [reads.normal.widen.strip_eq] at stripped
  exact ⟨n'.strip, steps.trans (.strip n'), stripped⟩

/-- A function with a free variable, handed under a binder to an ascribed call. -/
def handedInward : Indexed :=
  .app
    (.bind .lam "f" (.bind .pi "_" (.const .intType) (.const .intType))
      (.bind .lam "y" (.const .intType)
        (.ascribe (.app (.var ⟨"f", 1⟩) (.var ⟨"y", 0⟩)) (.const .intType))))
    (.bind .lam "z" (.const .intType) (.binop .add (.var ⟨"z", 0⟩) (.var ⟨"n", 1⟩)))

/-- The free variable is one binder further away, and stays the same variable. -/
def handedInwardNormal (x : Name) : Indexed :=
  .bind .lam x (.const .intType) (.binop .add (.var ⟨x, 0⟩) (.var ⟨"n", 1⟩))

theorem normalize_reached_by_steps_inward :
    handedInward.normalize 10 ["n"] = .ok (handedInwardNormal "y") ∧
      ∃ n', Steps handedInward.widen n' ∧ AlphaEq n' (handedInwardNormal "y").widen :=
  ⟨by rfl, normalize_reached_by_steps (by rfl : handedInward.normalize 10 ["n"] = _) (by decide)⟩

theorem Contracts.bare_reduces {t u : Term (Variable Int)} (redex : Contracts t u) :
    Bare.Reduces t.bare u.bare := by
  cases redex with
  | beta x dom body s =>
    rw [bare_instantiate]
    exact (Bare.Par.beta (.refl body.bare) (.refl s.bare)).reduces
  | ascription t type => exact .refl _
  | selection b yes no =>
    cases b with
    | true => exact (Bare.Par.selectYes (.refl yes.bare)).reduces
    | false => exact (Bare.Par.selectNo (.refl no.bare)).reduces
  | negation b => exact (Bare.Par.negate b).reduces
  | computation computed => exact (Bare.Par.compute computed).reduces

theorem Conv.joinable {t u : Term (Variable Int)} (h : Conv t u) : Bare.Joinable t.bare u.bare := by
  induction h with
  | names same =>
    rw [← bare_forgetNames, same, bare_forgetNames]
    exact .refl _
  | contract redex => exact redex.bare_reduces.joinable
  | symm _ ih => exact ih.symm
  | trans _ _ first second => exact first.trans second
  | binop _ _ left right => exact left.binop right
  | not _ operand => exact operand.not
  | app _ _ fn arg => exact fn.app arg
  | bind _ _ domain under => exact domain.bind under
  | cond _ _ _ test whenTrue whenFalse => exact test.cond whenTrue whenFalse
  | ascribe _ _ subject _ => exact subject

theorem Conv.refl (t : Term (Variable Int)) : Conv t t := .names rfl

theorem Step.conv {t u : Term (Variable Int)} (step : Step t u) : Conv t u := by
  induction step with
  | contract redex => exact .contract redex
  | left _ ih => exact .binop ih (.refl _)
  | right _ ih => exact .binop (.refl _) ih
  | operand _ ih => exact .not ih
  | fn _ ih => exact .app ih (.refl _)
  | arg _ ih => exact .app (.refl _) ih
  | domain _ ih => exact .bind ih (.refl _)
  | under _ ih => exact .bind (.refl _) ih
  | test _ ih => exact .cond ih (.refl _) (.refl _)
  | yes _ ih => exact .cond (.refl _) ih (.refl _)
  | no _ ih => exact .cond (.refl _) (.refl _) ih
  | subject _ ih => exact .ascribe ih (.refl _)
  | type _ ih => exact .ascribe (.refl _) ih

theorem Steps.conv {t u : Term (Variable Int)} (steps : Steps t u) : Conv t u := by
  induction steps with
  | refl => exact .refl t
  | tail _ step ih => exact ih.trans step.conv

theorem conv_iff_joinable {t u : Term (Variable Int)} :
    Conv t u ↔ Bare.Joinable t.bare u.bare := by
  refine ⟨Conv.joinable, ?_⟩
  rintro ⟨common, left, right⟩
  obtain ⟨t', leftSteps, leftShows⟩ := steps_of_reduces left
  obtain ⟨u', rightSteps, rightShows⟩ := steps_of_reduces right
  have names : AlphaEq t'.strip u'.strip := bare_eq_iff.mp (leftShows.trans rightShows.symm)
  have leftConv : Conv t t'.strip := (leftSteps.trans (.strip t')).conv
  have rightConv : Conv u u'.strip := (rightSteps.trans (.strip u')).conv
  exact (leftConv.trans (.names names)).trans rightConv.symm

/-- Comparing normal forms decides conversion: where both terms have one, some fuel suffices for an
answer, and with whatever fuel an answer is reached, it is the right one. -/
theorem convertible_decides_conv {fuelLeft fuelRight : Nat} {scope : List Name} {t u n m : Indexed}
    (left : t.normalize fuelLeft scope = .ok n) (right : u.normalize fuelRight scope = .ok m)
    (roomLeft : scope.length + n.depth < 2 ^ 63) (roomRight : scope.length + m.depth < 2 ^ 63) :
    ((∃ fuel, t.convertible fuel scope u = .ok true) ↔ Conv t.widen u.widen) ∧
      ((∃ fuel, t.convertible fuel scope u = .ok false) ↔ ¬ Conv t.widen u.widen) := by
  have decides : AlphaEq n m ↔ Conv t.widen u.widen := by
    rw [conv_iff_joinable]
    exact (normalize_reads left roomLeft).alphaEq_iff (normalize_reads right roomRight)
  have answer : t.convertible (max fuelLeft fuelRight) scope u = .ok (decide (AlphaEq n m)) := by
    have leftAgain := normalize_mono (Nat.le_max_left fuelLeft fuelRight) (by rw [left]; simp)
    have rightAgain := normalize_mono (Nat.le_max_right fuelLeft fuelRight) (by rw [right]; simp)
    rw [convertible, leftAgain, rightAgain, left, right]
    rfl
  rw [← decides]
  constructor
  · constructor
    · rintro ⟨fuel, found⟩
      exact of_decide_eq_true (convertible_unique answer found)
    · intro same
      exact ⟨_, answer.trans (by rw [decide_eq_true same])⟩
  · constructor
    · rintro ⟨fuel, found⟩
      exact of_decide_eq_false (convertible_unique answer found)
    · intro differ
      exact ⟨_, answer.trans (by rw [decide_eq_false differ])⟩

theorem convertible_decides_conv_inward :
    (handedInward.normalize 10 ["n"] = .ok (handedInwardNormal "y") ∧
      (handedInwardNormal "w").normalize 5 ["n"] = .ok (handedInwardNormal "w")) ∧
    ((∃ fuel, handedInward.convertible fuel ["n"] (handedInwardNormal "w") = .ok true) ↔
      Conv handedInward.widen (handedInwardNormal "w").widen) ∧
    ((∃ fuel, handedInward.convertible fuel ["n"] (handedInwardNormal "w") = .ok false) ↔
      ¬ Conv handedInward.widen (handedInwardNormal "w").widen) :=
  ⟨⟨by rfl, by rfl⟩,
    convertible_decides_conv (by rfl : handedInward.normalize 10 ["n"] = _)
      (by rfl : (handedInwardNormal "w").normalize 5 ["n"] = _) (by decide) (by decide)⟩

end DepCalc.Term

import DepCalc.Proofs.Bare.Reduction

/-!
Reduction that comes to an end. One step contracts one redex, anywhere in the term; parallel steps are
sequences of them. A term halts if no sequence of steps from it goes on for ever, and then no sequence
of steps and descents into parts does, which is what an evaluator needs that follows both. A descent
into the body of a binder may put any variable for the one that is bound.
-/
namespace DepCalc.Bare

inductive Step : Bare → Bare → Prop
  | binopLeft {op : Operator} {l l' : Bare} (r : Bare) (left : Step l l') :
      Step (.binop op l r) (.binop op l' r)
  | binopRight {op : Operator} {r r' : Bare} (l : Bare) (right : Step r r') :
      Step (.binop op l r) (.binop op l r')
  | not {t t' : Bare} (operand : Step t t') : Step (.not t) (.not t')
  | appFn {f f' : Bare} (a : Bare) (fn : Step f f') : Step (.app f a) (.app f' a)
  | appArg {a a' : Bare} (f : Bare) (arg : Step a a') : Step (.app f a) (.app f a')
  | bindDom {b : Binder} {dom dom' : Bare} (body : Bare) (domain : Step dom dom') :
      Step (.bind b dom body) (.bind b dom' body)
  | bindBody {b : Binder} {body body' : Bare} (dom : Bare) (under : Step body body') :
      Step (.bind b dom body) (.bind b dom body')
  | condTest {t t' : Bare} (y n : Bare) (test : Step t t') : Step (.cond t y n) (.cond t' y n)
  | condYes {y y' : Bare} (t n : Bare) (yes : Step y y') : Step (.cond t y n) (.cond t y' n)
  | condNo {n n' : Bare} (t y : Bare) (no : Step n n') : Step (.cond t y n) (.cond t y n')
  | beta (dom body s : Bare) : Step (.app (.bind .lam dom body) s) (inst s body)
  | selectYes (y n : Bare) : Step (.cond (.const (.bool true)) y n) y
  | selectNo (y n : Bare) : Step (.cond (.const (.bool false)) y n) n
  | negate (b : Bool) : Step (.not (.const (.bool b))) (.const (.bool (!b)))
  | compute {op : Operator} {c d result : Constant} (computed : op.compute? c d = some result) :
      Step (.binop op (.const c) (.const d)) (.const result)

theorem Step.par {t u : Bare} (step : Step t u) : Par t u := by
  induction step with
  | binopLeft r _ left => exact .binop left (.refl r)
  | binopRight l _ right => exact .binop (.refl l) right
  | not _ operand => exact .not operand
  | appFn a _ fn => exact .app fn (.refl a)
  | appArg f _ arg => exact .app (.refl f) arg
  | bindDom body _ domain => exact .bind domain (.refl body)
  | bindBody dom _ under => exact .bind (.refl dom) under
  | condTest y n _ test => exact .cond test (.refl y) (.refl n)
  | condYes t n _ yes => exact .cond (.refl t) yes (.refl n)
  | condNo t y _ no => exact .cond (.refl t) (.refl y) no
  | beta dom body s => exact .beta (.refl body) (.refl s)
  | selectYes y n => exact .selectYes (.refl y)
  | selectNo y n => exact .selectNo (.refl n)
  | negate b => exact .negate b
  | compute computed => exact .compute computed

theorem Step.reduces {t u : Bare} (step : Step t u) : Reduces t u :=
  step.par.reduces

theorem Step.subst {t u : Bare} (step : Step t u) (σ : Nat → Bare) :
    Step (t.subst σ) (u.subst σ) := by
  induction step generalizing σ with
  | binopLeft r _ left => exact .binopLeft _ (left σ)
  | binopRight l _ right => exact .binopRight _ (right σ)
  | not _ operand => exact .not (operand σ)
  | appFn a _ fn => exact .appFn _ (fn σ)
  | appArg f _ arg => exact .appArg _ (arg σ)
  | bindDom body _ domain => exact .bindDom _ (domain σ)
  | bindBody dom _ under => exact .bindBody _ (under (up σ))
  | condTest y n _ test => exact .condTest _ _ (test σ)
  | condYes t n _ yes => exact .condYes _ _ (yes σ)
  | condNo t y _ no => exact .condNo _ _ (no σ)
  | beta dom body s =>
    rw [subst_inst]
    exact .beta _ _ _
  | selectYes y n => exact .selectYes _ _
  | selectNo y n => exact .selectNo _ _
  | negate b => exact .negate b
  | compute computed => exact .compute computed

def Steps : Bare → Bare → Prop := Relation.ReflTransGen Step

namespace Steps

theorem refl (t : Bare) : Steps t t := Relation.ReflTransGen.refl

theorem trans {t u v : Bare} (first : Steps t u) (second : Steps u v) : Steps t v :=
  Relation.ReflTransGen.trans first second

theorem binop {op : Operator} {l l' r r' : Bare} (left : Steps l l') (right : Steps r r') :
    Steps (.binop op l r) (.binop op l' r') :=
  (left.lift (Bare.binop op · r) fun _ _ => .binopLeft r).trans
    (right.lift (Bare.binop op l' ·) fun _ _ => .binopRight l')

theorem not {t t' : Bare} (operand : Steps t t') : Steps (.not t) (.not t') :=
  operand.lift Bare.not fun _ _ => .not

theorem app {f f' a a' : Bare} (fn : Steps f f') (arg : Steps a a') :
    Steps (.app f a) (.app f' a') :=
  (fn.lift (Bare.app · a) fun _ _ => .appFn a).trans (arg.lift (Bare.app f' ·) fun _ _ => .appArg f')

theorem bind {b : Binder} {dom dom' body body' : Bare} (domain : Steps dom dom')
    (under : Steps body body') : Steps (.bind b dom body) (.bind b dom' body') :=
  (domain.lift (Bare.bind b · body) fun _ _ => .bindDom body).trans
    (under.lift (Bare.bind b dom' ·) fun _ _ => .bindBody dom')

theorem cond {t t' y y' n n' : Bare} (test : Steps t t') (yes : Steps y y') (no : Steps n n') :
    Steps (.cond t y n) (.cond t' y' n') :=
  ((test.lift (Bare.cond · y n) fun _ _ => .condTest y n).trans
    (yes.lift (Bare.cond t' · n) fun _ _ => .condYes t' n)).trans
    (no.lift (Bare.cond t' y' ·) fun _ _ => .condNo t' y')

end Steps

/-- A parallel step contracts its redexes one after the other, the inner ones first. -/
theorem Par.steps {t u : Bare} (step : Par t u) : Steps t u := by
  induction step with
  | var i => exact .refl _
  | stray ix => exact .refl _
  | const c => exact .refl _
  | binop _ _ left right => exact left.binop right
  | not _ operand => exact operand.not
  | app _ _ fn arg => exact fn.app arg
  | bind _ _ domain under => exact domain.bind under
  | cond _ _ _ test yes no => exact test.cond yes no
  | @beta dom _ _ _ _ _ _ under arg =>
    exact (((Steps.refl dom).bind under).app arg).tail (.beta _ _ _)
  | selectYes _ yes => exact .head (.selectYes _ _) yes
  | selectNo _ no => exact .head (.selectNo _ _) no
  | negate b => exact .single (.negate b)
  | compute computed => exact .single (.compute computed)

theorem Reduces.steps {t u : Bare} (reduces : Reduces t u) : Steps t u := by
  induction reduces with
  | refl => exact .refl t
  | tail _ step ih => exact ih.trans step.steps

/-- Every sequence of steps from the term comes to an end. -/
def Halts : Bare → Prop := Acc fun u t => Step t u

namespace Halts

theorem of_steps {t : Bare} (steps : ∀ u, Step t u → Halts u) : Halts t := Acc.intro t steps

theorem step {t u : Bare} (halts : Halts t) (step : Step t u) : Halts u := Acc.inv halts step

theorem steps {t u : Bare} (halts : Halts t) (steps : Steps t u) : Halts u := by
  induction steps with
  | refl => exact halts
  | tail _ step ih => exact ih.step step

theorem reduces {t u : Bare} (halts : Halts t) (reduces : Reduces t u) : Halts u :=
  halts.steps reduces.steps

/-- A term halts if it does in some place where its steps are steps of the whole. -/
theorem of_place {place : Bare → Bare} (steps : ∀ t u, Step t u → Step (place t) (place u))
    {t : Bare} (halts : Halts (place t)) : Halts t :=
  Subrelation.accessible (fun step => steps _ _ step) (InvImage.accessible place halts)

theorem of_subst {t : Bare} {σ : Nat → Bare} (halts : Halts (t.subst σ)) : Halts t :=
  of_place (fun _ _ step => step.subst σ) halts

theorem of_app {f a : Bare} (halts : Halts (.app f a)) : Halts f :=
  of_place (fun _ _ => .appFn a) halts

theorem of_bind {b : Binder} {dom body : Bare} (halts : Halts (.bind b dom body)) :
    Halts dom ∧ Halts body :=
  ⟨of_place (fun _ _ => .bindDom body) halts, of_place (fun _ _ => .bindBody dom) halts⟩

theorem const (c : Constant) : Halts (.const c) := of_steps fun _ step => nomatch step

theorem binop {op : Operator} {l r : Bare} (left : Halts l) (right : Halts r) :
    Halts (.binop op l r) := by
  induction left generalizing r with
  | intro l leftHalts leftIh =>
    induction right with
    | intro r rightHalts rightIh =>
      apply of_steps
      intro u step
      cases step with
      | binopLeft _ leftStep => exact leftIh _ leftStep (.intro r rightHalts)
      | binopRight _ rightStep => exact rightIh _ rightStep
      | compute computed => exact .const _

theorem not {t : Bare} (operand : Halts t) : Halts (.not t) := by
  induction operand with
  | intro t _ ih =>
    apply of_steps
    intro u step
    cases step with
    | not operandStep => exact ih _ operandStep
    | negate b => exact .const _

theorem bind {b : Binder} {dom body : Bare} (domain : Halts dom) (under : Halts body) :
    Halts (.bind b dom body) := by
  induction domain generalizing body with
  | intro dom domHalts domIh =>
    induction under with
    | intro body bodyHalts bodyIh =>
      apply of_steps
      intro u step
      cases step with
      | bindDom _ domStep => exact domIh _ domStep (.intro body bodyHalts)
      | bindBody _ bodyStep => exact bodyIh _ bodyStep

end Halts

/-- A variable, or an index that refers to none. -/
inductive Atom : Bare → Prop
  | var (i : Nat) : Atom (.var i)
  | stray (ix : Int) : Atom (.stray ix)

namespace Atom

theorem ofIndex (ix : Int) : Atom (.ofIndex ix) := by
  unfold Bare.ofIndex
  split
  · exact .stray ix
  · exact .var _

theorem no_step {a u : Bare} (atom : Atom a) : ¬ Step a u := by
  intro step
  cases atom <;> cases step

theorem weaken {a : Bare} (atom : Atom a) : Atom a.weaken := by
  cases atom with
  | var i => exact .var (i + 1)
  | stray ix => exact .stray ix

theorem up {σ : Nat → Bare} (atoms : ∀ i, Atom (σ i)) (i : Nat) : Atom (up σ i) := by
  cases i with
  | zero => exact .var 0
  | succ i => exact (atoms i).weaken

theorem extend {a : Bare} {σ : Nat → Bare} (atom : Atom a) (atoms : ∀ i, Atom (σ i)) (i : Nat) :
    Atom (extend a σ i) := by
  cases i with
  | zero => exact atom
  | succ i => exact atoms i

variable {σ : Nat → Bare}

theorem eq_const_of_subst (atoms : ∀ i, Atom (σ i)) {t : Bare} {c : Constant}
    (shown : t.subst σ = .const c) : t = .const c := by
  cases t with
  | var i =>
    have atom := atoms i
    rw [subst] at shown
    rw [shown] at atom
    cases atom
  | const d => exact shown
  | _ => simp [subst] at shown

theorem eq_bind_of_subst (atoms : ∀ i, Atom (σ i)) {t dom body : Bare} {b : Binder}
    (shown : t.subst σ = .bind b dom body) :
    ∃ dom' body', t = .bind b dom' body' ∧ dom'.subst σ = dom ∧ body'.subst (Bare.up σ) = body := by
  cases t with
  | var i =>
    have atom := atoms i
    rw [subst] at shown
    rw [shown] at atom
    cases atom
  | bind b' dom' body' =>
    simp only [subst, bind.injEq] at shown
    obtain ⟨rfl, domain, under⟩ := shown
    exact ⟨dom', body', rfl, domain, under⟩
  | _ => simp [subst] at shown

end Atom

/-- Putting variables for variables makes no redex. -/
theorem Step.of_subst {σ : Nat → Bare} (atoms : ∀ i, Atom (σ i)) {t u : Bare}
    (step : Step (t.subst σ) u) : ∃ t', Step t t' ∧ t'.subst σ = u := by
  induction t generalizing σ u with
  | var i => exact absurd step (atoms i).no_step
  | stray ix => cases step
  | const c => cases step
  | binop op l r leftIh rightIh =>
    rw [Bare.subst] at step
    generalize left : l.subst σ = l₁, right : r.subst σ = r₁ at step
    cases step with
    | binopLeft _ leftStep =>
      obtain ⟨l', onward, rfl⟩ := leftIh atoms (left ▸ leftStep)
      exact ⟨_, .binopLeft r onward, by rw [Bare.subst, right]⟩
    | binopRight _ rightStep =>
      obtain ⟨r', onward, rfl⟩ := rightIh atoms (right ▸ rightStep)
      exact ⟨_, .binopRight l onward, by rw [Bare.subst, left]⟩
    | compute computed =>
      obtain rfl := Atom.eq_const_of_subst atoms left
      obtain rfl := Atom.eq_const_of_subst atoms right
      exact ⟨_, .compute computed, rfl⟩
  | not t ih =>
    rw [Bare.subst] at step
    generalize operand : t.subst σ = t₁ at step
    cases step with
    | not operandStep =>
      obtain ⟨t', onward, rfl⟩ := ih atoms (operand ▸ operandStep)
      exact ⟨_, .not onward, rfl⟩
    | negate b =>
      obtain rfl := Atom.eq_const_of_subst atoms operand
      exact ⟨_, .negate b, rfl⟩
  | app f a fnIh argIh =>
    rw [Bare.subst] at step
    generalize fn : f.subst σ = f₁, arg : a.subst σ = a₁ at step
    cases step with
    | appFn _ fnStep =>
      obtain ⟨f', onward, rfl⟩ := fnIh atoms (fn ▸ fnStep)
      exact ⟨_, .appFn a onward, by rw [Bare.subst, arg]⟩
    | appArg _ argStep =>
      obtain ⟨a', onward, rfl⟩ := argIh atoms (arg ▸ argStep)
      exact ⟨_, .appArg f onward, by rw [Bare.subst, fn]⟩
    | beta dom body s =>
      obtain ⟨dom', body', rfl, -, rfl⟩ := Atom.eq_bind_of_subst atoms fn
      exact ⟨_, .beta dom' body' a, by rw [subst_inst, arg]⟩
  | bind b dom body domIh bodyIh =>
    rw [Bare.subst] at step
    generalize domain : dom.subst σ = dom₁, under : body.subst (up σ) = body₁ at step
    cases step with
    | bindDom _ domStep =>
      obtain ⟨dom', onward, rfl⟩ := domIh atoms (domain ▸ domStep)
      exact ⟨_, .bindDom body onward, by rw [Bare.subst, under]⟩
    | bindBody _ bodyStep =>
      obtain ⟨body', onward, rfl⟩ := bodyIh (Atom.up atoms) (under ▸ bodyStep)
      exact ⟨_, .bindBody dom onward, by rw [Bare.subst, domain]⟩
  | cond t y n testIh yesIh noIh =>
    rw [Bare.subst] at step
    generalize test : t.subst σ = t₁, yes : y.subst σ = y₁, no : n.subst σ = n₁ at step
    cases step with
    | condTest _ _ testStep =>
      obtain ⟨t', onward, rfl⟩ := testIh atoms (test ▸ testStep)
      exact ⟨_, .condTest y n onward, by rw [Bare.subst, yes, no]⟩
    | condYes _ _ yesStep =>
      obtain ⟨y', onward, rfl⟩ := yesIh atoms (yes ▸ yesStep)
      exact ⟨_, .condYes t n onward, by rw [Bare.subst, test, no]⟩
    | condNo _ _ noStep =>
      obtain ⟨n', onward, rfl⟩ := noIh atoms (no ▸ noStep)
      exact ⟨_, .condNo t y onward, by rw [Bare.subst, test, yes]⟩
    | selectYes _ _ =>
      obtain rfl := Atom.eq_const_of_subst atoms test
      exact ⟨_, .selectYes y n, yes⟩
    | selectNo _ _ =>
      obtain rfl := Atom.eq_const_of_subst atoms test
      exact ⟨_, .selectNo y n, no⟩

theorem Halts.subst_atoms {σ : Nat → Bare} (atoms : ∀ i, Atom (σ i)) {t : Bare}
    (halts : Halts t) : Halts (t.subst σ) := by
  induction halts with
  | intro t _ ih =>
    apply of_steps
    intro u step
    obtain ⟨t', onward, rfl⟩ := step.of_subst atoms
    exact ih t' onward

/-- The first term is an immediate part of the second. Outside of its binder a body has a variable put
for the bound one. -/
inductive Part : Bare → Bare → Prop
  | left (op : Operator) (l r : Bare) : Part l (.binop op l r)
  | right (op : Operator) (l r : Bare) : Part r (.binop op l r)
  | operand (t : Bare) : Part t (.not t)
  | fn (f a : Bare) : Part f (.app f a)
  | arg (f a : Bare) : Part a (.app f a)
  | dom (b : Binder) (dom body : Bare) : Part dom (.bind b dom body)
  | body (b : Binder) (dom body : Bare) {a : Bare} (atom : Atom a) :
      Part (inst a body) (.bind b dom body)
  | test (t y n : Bare) : Part t (.cond t y n)
  | yes (t y n : Bare) : Part y (.cond t y n)
  | no (t y n : Bare) : Part n (.cond t y n)

/-- The first term is reached from the second by one step or by descending into a part. -/
def Inside (u t : Bare) : Prop := Step t u ∨ Part u t

theorem Part.step {s t u : Bare} (part : Part s t) (step : Step s u) :
    ∃ t', Step t t' ∧ Part u t' := by
  cases part with
  | left op l r => exact ⟨_, .binopLeft r step, .left op u r⟩
  | right op l r => exact ⟨_, .binopRight l step, .right op l u⟩
  | operand t => exact ⟨_, .not step, .operand u⟩
  | fn f a => exact ⟨_, .appFn a step, .fn u a⟩
  | arg f a => exact ⟨_, .appArg f step, .arg f u⟩
  | dom b dom body => exact ⟨_, .bindDom body step, .dom b u body⟩
  | body b dom body atom =>
    obtain ⟨body', onward, rfl⟩ := step.of_subst (atom.extend .var)
    exact ⟨_, .bindBody dom onward, .body b dom body' atom⟩
  | test t y n => exact ⟨_, .condTest y n step, .test u y n⟩
  | yes t y n => exact ⟨_, .condYes t n step, .yes t u n⟩
  | no t y n => exact ⟨_, .condNo t y step, .no t y u⟩

theorem Atom.acc_part {a : Bare} (atom : Atom a) : Acc Part a := by
  constructor
  intro u part
  cases atom <;> cases part

theorem acc_part_subst (t : Bare) {σ : Nat → Bare} (atoms : ∀ i, Atom (σ i)) :
    Acc Part (t.subst σ) := by
  induction t generalizing σ with
  | var i => exact (atoms i).acc_part
  | bind b dom body domIh bodyIh =>
    constructor
    intro u part
    cases part with
    | dom => exact domIh atoms
    | body _ _ _ atom =>
      rw [inst_subst_up]
      exact bodyIh (atom.extend atoms)
  | _ =>
    constructor
    intro u part
    cases part <;> simp_all

theorem acc_part (t : Bare) : Acc Part t := by
  have acc := acc_part_subst t .var
  rwa [subst_var] at acc

/-- The steps of a part are parts of steps of the whole. -/
theorem acc_inside_of_steps {t : Bare} (steps : ∀ u, Step t u → Acc Inside u) : Acc Inside t := by
  induction acc_part t with
  | intro t _ ih =>
    constructor
    intro u inside
    rcases inside with step | part
    · exact steps u step
    · apply ih u part
      intro v step
      obtain ⟨t', whole, within⟩ := part.step step
      exact (steps t' whole).inv (.inr within)

theorem Halts.acc_inside {t : Bare} (halts : Halts t) : Acc Inside t := by
  induction halts with
  | intro t _ ih => exact acc_inside_of_steps ih

/-- The first term is reached from the second by steps and descents, at least one in all. -/
def Below : Bare → Bare → Prop := Relation.TransGen Inside

theorem Halts.acc_below {t : Bare} (halts : Halts t) : Acc Below t := halts.acc_inside.transGen

namespace Below

variable {t u v : Bare}

theorem of_part (part : Part u t) : Below u t := .single (.inr part)

theorem reach (steps : Steps t u) : Relation.ReflTransGen Inside u t := by
  induction steps with
  | refl => exact .refl
  | tail _ step ih => exact .head (.inl step) ih

/-- Going on from what is below. -/
theorem on (below : Below u t) (reduces : Reduces u v) : Below v t :=
  Relation.TransGen.trans_right (reach reduces.steps) below

theorem of_beta {dom body s : Bare} (reduces : Reduces t (.app (.bind .lam dom body) s)) :
    Below (inst s body) t :=
  .trans_left (.single (.inl (.beta dom body s))) (reach reduces.steps)

end Below

end DepCalc.Bare

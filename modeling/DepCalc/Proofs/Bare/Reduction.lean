import DepCalc.Proofs.Bare.Substitution
import Mathlib.Logic.Relation

/-!
Reduction of bare terms. One parallel step contracts any of the redexes that a term shows, under all
binders and in all positions. Contracting all of them is the furthest that one step can go, so
reduction is confluent, and two terms with a common reduct stay together under every term former and
every substitution.
-/
namespace DepCalc.Bare

inductive Par : Bare → Bare → Prop
  | var (i : Nat) : Par (.var i) (.var i)
  | stray (ix : Int) : Par (.stray ix) (.stray ix)
  | const (c : Constant) : Par (.const c) (.const c)
  | binop {op : Operator} {l l' r r' : Bare} (left : Par l l') (right : Par r r') :
      Par (.binop op l r) (.binop op l' r')
  | not {t t' : Bare} (operand : Par t t') : Par (.not t) (.not t')
  | app {f f' a a' : Bare} (fn : Par f f') (arg : Par a a') : Par (.app f a) (.app f' a')
  | bind {b : Binder} {dom dom' body body' : Bare} (domain : Par dom dom') (under : Par body body') :
      Par (.bind b dom body) (.bind b dom' body')
  | cond {t t' y y' n n' : Bare} (test : Par t t') (yes : Par y y') (no : Par n n') :
      Par (.cond t y n) (.cond t' y' n')
  | beta {dom body body' s s' : Bare} (under : Par body body') (arg : Par s s') :
      Par (.app (.bind .lam dom body) s) (inst s' body')
  | selectYes {y y' n : Bare} (yes : Par y y') : Par (.cond (.const (.bool true)) y n) y'
  | selectNo {y n n' : Bare} (no : Par n n') : Par (.cond (.const (.bool false)) y n) n'
  | negate (b : Bool) : Par (.not (.const (.bool b))) (.const (.bool (!b)))
  | compute {op : Operator} {c d result : Constant} (computed : op.compute? c d = some result) :
      Par (.binop op (.const c) (.const d)) (.const result)

theorem Par.refl (t : Bare) : Par t t := by
  induction t with
  | var i => exact .var i
  | stray ix => exact .stray ix
  | const c => exact .const c
  | binop op l r left right => exact .binop left right
  | not t operand => exact .not operand
  | app f a fn arg => exact .app fn arg
  | bind b dom body domain under => exact .bind domain under
  | cond t y n test yes no => exact .cond test yes no

theorem Par.rename {t t' : Bare} (step : Par t t') (ξ : Nat → Nat) :
    Par (t.rename ξ) (t'.rename ξ) := by
  induction step generalizing ξ with
  | var i => exact .var _
  | stray ix => exact .stray ix
  | const c => exact .const c
  | binop _ _ left right => exact .binop (left ξ) (right ξ)
  | not _ operand => exact .not (operand ξ)
  | app _ _ fn arg => exact .app (fn ξ) (arg ξ)
  | bind _ _ domain under => exact .bind (domain ξ) (under (lift ξ))
  | cond _ _ _ test yes no => exact .cond (test ξ) (yes ξ) (no ξ)
  | beta _ _ under arg =>
    rw [rename_inst]
    exact .beta (under (lift ξ)) (arg ξ)
  | selectYes _ yes => exact .selectYes (yes ξ)
  | selectNo _ no => exact .selectNo (no ξ)
  | negate b => exact .negate b
  | compute computed => exact .compute computed

theorem Par.up {σ σ' : Nat → Bare} (steps : ∀ i, Par (σ i) (σ' i)) (i : Nat) :
    Par (up σ i) (up σ' i) := by
  cases i with
  | zero => exact .var 0
  | succ i => exact (steps i).rename _

/-- Terms and the substitution put into them may step at once. -/
theorem Par.subst {t t' : Bare} (step : Par t t') {σ σ' : Nat → Bare}
    (steps : ∀ i, Par (σ i) (σ' i)) : Par (t.subst σ) (t'.subst σ') := by
  induction step generalizing σ σ' with
  | var i => exact steps i
  | stray ix => exact .stray ix
  | const c => exact .const c
  | binop _ _ left right => exact .binop (left steps) (right steps)
  | not _ operand => exact .not (operand steps)
  | app _ _ fn arg => exact .app (fn steps) (arg steps)
  | bind _ _ domain under => exact .bind (domain steps) (under (Par.up steps))
  | cond _ _ _ test yes no => exact .cond (test steps) (yes steps) (no steps)
  | beta _ _ under arg =>
    rw [subst_inst]
    exact .beta (under (Par.up steps)) (arg steps)
  | selectYes _ yes => exact .selectYes (yes steps)
  | selectNo _ no => exact .selectNo (no steps)
  | negate b => exact .negate b
  | compute computed => exact .compute computed

theorem Par.inst {s s' body body' : Bare} (arg : Par s s') (under : Par body body') :
    Par (inst s body) (inst s' body') := by
  refine under.subst fun i => ?_
  cases i with
  | zero => exact arg
  | succ i => exact .var i

theorem Par.const_inv {c : Constant} {u : Bare} (step : Par (.const c) u) : u = .const c := by
  cases step
  rfl

theorem Par.bind_inv {b : Binder} {dom body u : Bare} (step : Par (.bind b dom body) u) :
    ∃ dom' body', u = .bind b dom' body' ∧ Par dom dom' ∧ Par body body' := by
  cases step with
  | bind domain under => exact ⟨_, _, rfl, domain, under⟩

-- What becomes of a form whose parts are developed: it is contracted if the form, as it stood
-- before, was a redex.
def contractBinop (op : Operator) (l r l' r' : Bare) : Bare :=
  match l, r with
  | .const c, .const d => ((op.compute? c d).map .const).getD (.binop op l' r')
  | _, _ => .binop op l' r'

def contractNot (t t' : Bare) : Bare :=
  match t with
  | .const (.bool b) => .const (.bool (!b))
  | _ => .not t'

def contractApp (f f' a' : Bare) : Bare :=
  match f, f' with
  | .bind .lam _ _, .bind .lam _ body' => inst a' body'
  | _, _ => .app f' a'

def contractCond (t t' y' n' : Bare) : Bare :=
  match t with
  | .const (.bool true) => y'
  | .const (.bool false) => n'
  | _ => .cond t' y' n'

/-- All redexes of the term contracted at once. -/
def develop : Bare → Bare
  | .var i => .var i
  | .stray ix => .stray ix
  | .const c => .const c
  | .binop op l r => contractBinop op l r l.develop r.develop
  | .not t => contractNot t t.develop
  | .app f a => contractApp f f.develop a.develop
  | .bind b dom body => .bind b dom.develop body.develop
  | .cond t y n => contractCond t t.develop y.develop n.develop

private theorem develop_binop {op : Operator} {l l' r r' : Bare} (leftStep : Par l l')
    (rightStep : Par r r') (left : Par l' l.develop) (right : Par r' r.develop) :
    Par (.binop op l' r') (develop (.binop op l r)) := by
  unfold develop contractBinop
  split
  · rename_i c d
    obtain rfl := leftStep.const_inv
    obtain rfl := rightStep.const_inv
    cases computed : op.compute? c d with
    | none => exact .refl _
    | some result => exact .compute computed
  · exact .binop left right

private theorem develop_not {t t' : Bare} (step : Par t t') (operand : Par t' t.develop) :
    Par (.not t') (develop (.not t)) := by
  unfold develop contractNot
  split
  · obtain rfl := step.const_inv
    exact .negate _
  · exact .not operand

private theorem develop_app {f f' a a' : Bare} (step : Par f f') (fn : Par f' f.develop)
    (arg : Par a' a.develop) : Par (.app f' a') (develop (.app f a)) := by
  unfold develop contractApp
  split
  · rename_i developed
    obtain ⟨dom', body', rfl, -, -⟩ := step.bind_inv
    obtain ⟨_, _, same, _, under⟩ := fn.bind_inv
    rw [developed] at same
    cases same
    exact .beta under arg
  · exact .app fn arg

private theorem develop_cond {t t' y y' n n' : Bare} (step : Par t t') (test : Par t' t.develop)
    (yes : Par y' y.develop) (no : Par n' n.develop) :
    Par (.cond t' y' n') (develop (.cond t y n)) := by
  unfold develop contractCond
  split
  · obtain rfl := step.const_inv
    exact .selectYes yes
  · obtain rfl := step.const_inv
    exact .selectNo no
  · exact .cond test yes no

/-- Whatever one step contracts, a further step reaches the full development. -/
theorem Par.to_develop {t t' : Bare} (step : Par t t') : Par t' t.develop := by
  induction step with
  | var i => exact .var i
  | stray ix => exact .stray ix
  | const c => exact .const c
  | bind _ _ domain under => exact .bind domain under
  | binop leftStep rightStep left right => exact develop_binop leftStep rightStep left right
  | not step operand => exact develop_not step operand
  | app step _ fn arg => exact develop_app step fn arg
  | cond step _ _ test yes no => exact develop_cond step test yes no
  | beta _ _ under arg => exact arg.inst under
  | selectYes _ yes => exact yes
  | selectNo _ no => exact no
  | negate b => exact .const _
  | compute computed =>
    simp only [develop, contractBinop, computed]
    exact .const _

def Reduces : Bare → Bare → Prop := Relation.ReflTransGen Par

def Joinable : Bare → Bare → Prop := Relation.Join Reduces

theorem Reduces.refl (t : Bare) : Reduces t t := Relation.ReflTransGen.refl

theorem Reduces.trans {t u v : Bare} (first : Reduces t u) (second : Reduces u v) : Reduces t v :=
  Relation.ReflTransGen.trans first second

theorem Par.reduces {t u : Bare} (step : Par t u) : Reduces t u :=
  Relation.ReflTransGen.single step

/-- Both steps of a fork lead on to the full development of its source. -/
theorem Par.diamond (t u v : Bare) (left : Par t u) (right : Par t v) :
    ∃ w, Relation.ReflGen Par u w ∧ Relation.ReflTransGen Par v w :=
  ⟨t.develop, .single left.to_develop, .single right.to_develop⟩

theorem Reduces.confluent {t u v : Bare} (left : Reduces t u) (right : Reduces t v) :
    Joinable u v :=
  Relation.church_rosser Par.diamond left right

theorem Joinable.refl (t : Bare) : Joinable t t := ⟨t, .refl t, .refl t⟩

theorem Joinable.symm {t u : Bare} (h : Joinable t u) : Joinable u t := by
  obtain ⟨w, left, right⟩ := h
  exact ⟨w, right, left⟩

theorem Joinable.trans {t u v : Bare} (first : Joinable t u) (second : Joinable u v) :
    Joinable t v := by
  obtain ⟨p, left, toFirst⟩ := first
  obtain ⟨q, toSecond, right⟩ := second
  obtain ⟨w, fromFirst, fromSecond⟩ := toFirst.confluent toSecond
  exact ⟨w, left.trans fromFirst, right.trans fromSecond⟩

theorem Reduces.joinable {t u : Bare} (h : Reduces t u) : Joinable t u := ⟨u, h, .refl u⟩

namespace Reduces

theorem binop {op : Operator} {l l' r r' : Bare} (left : Reduces l l') (right : Reduces r r') :
    Reduces (.binop op l r) (.binop op l' r') :=
  (left.lift (Bare.binop op · r) fun _ _ step => .binop step (.refl r)).trans
    (right.lift (Bare.binop op l' ·) fun _ _ step => .binop (.refl l') step)

theorem not {t t' : Bare} (operand : Reduces t t') : Reduces (.not t) (.not t') :=
  operand.lift Bare.not fun _ _ step => .not step

theorem app {f f' a a' : Bare} (fn : Reduces f f') (arg : Reduces a a') :
    Reduces (.app f a) (.app f' a') :=
  (fn.lift (Bare.app · a) fun _ _ step => .app step (.refl a)).trans
    (arg.lift (Bare.app f' ·) fun _ _ step => .app (.refl f') step)

theorem bind {b : Binder} {dom dom' body body' : Bare} (domain : Reduces dom dom')
    (under : Reduces body body') : Reduces (.bind b dom body) (.bind b dom' body') :=
  (domain.lift (Bare.bind b · body) fun _ _ step => .bind step (.refl body)).trans
    (under.lift (Bare.bind b dom' ·) fun _ _ step => .bind (.refl dom') step)

theorem cond {t t' y y' n n' : Bare} (test : Reduces t t') (yes : Reduces y y')
    (no : Reduces n n') : Reduces (.cond t y n) (.cond t' y' n') :=
  ((test.lift (Bare.cond · y n) fun _ _ step => .cond step (.refl y) (.refl n)).trans
    (yes.lift (Bare.cond t' · n) fun _ _ step => .cond (.refl t') step (.refl n))).trans
    (no.lift (Bare.cond t' y' ·) fun _ _ step => .cond (.refl t') (.refl y') step)

theorem rename {t u : Bare} (h : Reduces t u) (ξ : Nat → Nat) :
    Reduces (t.rename ξ) (u.rename ξ) :=
  h.lift (Bare.rename ξ) fun _ _ step => step.rename ξ

theorem subst {t u : Bare} (h : Reduces t u) (σ : Nat → Bare) :
    Reduces (t.subst σ) (u.subst σ) :=
  h.lift (Bare.subst σ) fun _ _ step => step.subst fun i => .refl (σ i)

theorem inst {s s' body body' : Bare} (arg : Reduces s s') (under : Reduces body body') :
    Reduces (inst s body) (inst s' body') :=
  (under.subst _).trans (arg.lift (Bare.inst · body') fun _ _ step => step.inst (.refl body'))

theorem const_inv {c : Constant} {u : Bare} (h : Reduces (.const c) u) : u = .const c := by
  induction h with
  | refl => rfl
  | tail _ step ih =>
    subst ih
    exact step.const_inv

theorem bind_inv {b : Binder} {dom body u : Bare} (h : Reduces (.bind b dom body) u) :
    ∃ dom' body', u = .bind b dom' body' ∧ Reduces dom dom' ∧ Reduces body body' := by
  induction h with
  | refl => exact ⟨dom, body, rfl, .refl dom, .refl body⟩
  | tail _ step ih =>
    obtain ⟨dom', body', rfl, domain, under⟩ := ih
    obtain ⟨dom'', body'', rfl, domainStep, underStep⟩ := step.bind_inv
    exact ⟨dom'', body'', rfl, domain.trans domainStep.reduces, under.trans underStep.reduces⟩

end Reduces

namespace Joinable

theorem binop {op : Operator} {l l' r r' : Bare} (left : Joinable l l') (right : Joinable r r') :
    Joinable (.binop op l r) (.binop op l' r') := by
  obtain ⟨l₀, left, left'⟩ := left
  obtain ⟨r₀, right, right'⟩ := right
  exact ⟨.binop op l₀ r₀, left.binop right, left'.binop right'⟩

theorem not {t t' : Bare} (operand : Joinable t t') : Joinable (.not t) (.not t') := by
  obtain ⟨t₀, left, right⟩ := operand
  exact ⟨.not t₀, left.not, right.not⟩

theorem app {f f' a a' : Bare} (fn : Joinable f f') (arg : Joinable a a') :
    Joinable (.app f a) (.app f' a') := by
  obtain ⟨f₀, left, right⟩ := fn
  obtain ⟨a₀, leftArg, rightArg⟩ := arg
  exact ⟨.app f₀ a₀, left.app leftArg, right.app rightArg⟩

theorem cond {t t' y y' n n' : Bare} (test : Joinable t t') (yes : Joinable y y')
    (no : Joinable n n') : Joinable (.cond t y n) (.cond t' y' n') := by
  obtain ⟨t₀, left, right⟩ := test
  obtain ⟨y₀, leftYes, rightYes⟩ := yes
  obtain ⟨n₀, leftNo, rightNo⟩ := no
  exact ⟨.cond t₀ y₀ n₀, left.cond leftYes leftNo, right.cond rightYes rightNo⟩

theorem bind {b : Binder} {dom dom' body body' : Bare} (domain : Joinable dom dom')
    (under : Joinable body body') : Joinable (.bind b dom body) (.bind b dom' body') := by
  obtain ⟨dom₀, left, right⟩ := domain
  obtain ⟨body₀, leftBody, rightBody⟩ := under
  exact ⟨.bind b dom₀ body₀, left.bind leftBody, right.bind rightBody⟩

theorem rename {t u : Bare} (h : Joinable t u) (ξ : Nat → Nat) :
    Joinable (t.rename ξ) (u.rename ξ) := by
  obtain ⟨w, left, right⟩ := h
  exact ⟨w.rename ξ, left.rename ξ, right.rename ξ⟩

theorem subst {t u : Bare} (h : Joinable t u) (σ : Nat → Bare) :
    Joinable (t.subst σ) (u.subst σ) := by
  obtain ⟨w, left, right⟩ := h
  exact ⟨w.subst σ, left.subst σ, right.subst σ⟩

theorem inst {s s' body body' : Bare} (arg : Joinable s s') (under : Joinable body body') :
    Joinable (inst s body) (inst s' body') := by
  obtain ⟨s₀, left, right⟩ := arg
  obtain ⟨body₀, leftBody, rightBody⟩ := under
  exact ⟨Bare.inst s₀ body₀, left.inst leftBody, right.inst rightBody⟩

theorem const_injective {c d : Constant} (h : Joinable (.const c) (.const d)) : c = d := by
  obtain ⟨w, left, right⟩ := h
  have same := left.const_inv.symm.trans right.const_inv
  injection same

theorem const_bind {c : Constant} {b : Binder} {dom body : Bare}
    (h : Joinable (.const c) (.bind b dom body)) : False := by
  obtain ⟨w, left, right⟩ := h
  obtain ⟨dom', body', same, -, -⟩ := right.bind_inv
  cases left.const_inv.symm.trans same

theorem bind_injective {b b' : Binder} {dom dom' body body' : Bare}
    (h : Joinable (.bind b dom body) (.bind b' dom' body')) :
    b = b' ∧ Joinable dom dom' ∧ Joinable body body' := by
  obtain ⟨w, left, right⟩ := h
  obtain ⟨dom₁, body₁, rfl, domain₁, under₁⟩ := left.bind_inv
  obtain ⟨dom₂, body₂, same, domain₂, under₂⟩ := right.bind_inv
  cases same
  exact ⟨rfl, ⟨dom₁, domain₁, domain₂⟩, ⟨body₁, under₁, under₂⟩⟩

end Joinable

def Rigid (t : Bare) : Prop := ∀ u, Par t u → u = t

namespace Rigid

theorem ofIndex (ix : Int) : Rigid (.ofIndex ix) := by
  intro u step
  rw [Bare.ofIndex] at step ⊢
  split at step <;> (cases step; simp_all)

theorem const (c : Constant) : Rigid (.const c) := fun _ step => step.const_inv

theorem binop {op : Operator} {l r : Bare} (left : Rigid l) (right : Rigid r)
    (waits : (∀ c, l ≠ .const c) ∨ ∀ d, r ≠ .const d) : Rigid (.binop op l r) := by
  intro u step
  cases step with
  | binop leftStep rightStep => rw [left _ leftStep, right _ rightStep]
  | @compute _ c d _ _ =>
    rcases waits with waits | waits
    · exact absurd rfl (waits c)
    · exact absurd rfl (waits d)

theorem not {t : Bare} (operand : Rigid t) (waits : ∀ c, t ≠ .const c) : Rigid (.not t) := by
  intro u step
  cases step with
  | not operandStep => rw [operand _ operandStep]
  | negate b => exact absurd rfl (waits (.bool b))

theorem app {f a : Bare} (fn : Rigid f) (arg : Rigid a)
    (waits : ∀ b dom body, f ≠ .bind b dom body) : Rigid (.app f a) := by
  intro u step
  cases step with
  | app fnStep argStep => rw [fn _ fnStep, arg _ argStep]
  | beta _ _ => exact absurd rfl (waits _ _ _)

theorem bind {b : Binder} {dom body : Bare} (domain : Rigid dom) (under : Rigid body) :
    Rigid (.bind b dom body) := by
  intro u step
  cases step with
  | bind domainStep underStep => rw [domain _ domainStep, under _ underStep]

theorem cond {t y n : Bare} (test : Rigid t) (yes : Rigid y) (no : Rigid n)
    (waits : ∀ c, t ≠ .const c) : Rigid (.cond t y n) := by
  intro u step
  cases step with
  | cond testStep yesStep noStep => rw [test _ testStep, yes _ yesStep, no _ noStep]
  | selectYes _ => exact absurd rfl (waits (.bool true))
  | selectNo _ => exact absurd rfl (waits (.bool false))

end Rigid

theorem Rigid.eq_of_reduces {t u : Bare} (rigid : Rigid t) (h : Reduces t u) : u = t := by
  induction h with
  | refl => rfl
  | tail _ step ih =>
    subst ih
    exact rigid _ step

theorem Joinable.reduces {t u : Bare} (h : Joinable t u) (rigid : Rigid u) : Reduces t u := by
  obtain ⟨w, left, right⟩ := h
  rwa [rigid.eq_of_reduces right] at left

theorem Joinable.eq {t u : Bare} (h : Joinable t u) (left : Rigid t) (right : Rigid u) : t = u :=
  (left.eq_of_reduces (h.reduces right)).symm

end DepCalc.Bare

import DepCalc.Proofs.Outcome
import DepCalc.Typing.Infer
import Mathlib.Data.List.Forall2

/-!
Accounts of type inference. Inference takes a term apart in one way: it infers the types of the parts,
compares them with the types that are wanted, and makes the type of the whole. An account says what is
known before and after each of these steps. That it is then true of inference as a whole is shown here,
once for a single run and once for two runs side by side.
-/
namespace DepCalc

namespace Term

/-- The parts of a term whose types are inferred in the context of the term itself. -/
def parts : Indexed → List Indexed
  | var _ | const _ => []
  | binop _ l r => [l, r]
  | not t => [t]
  | app f a => [f, a]
  | bind _ _ dom _ => [dom]
  | cond t yes no => [t, yes, no]
  | ascribe t _ => [t]

/-- The parts of a term that are checked against a constant. -/
def operands : Indexed → List (Indexed × Constant)
  | binop op l r => [(l, op.operandType), (r, op.operandType)]
  | not t => [(t, .boolType)]
  | cond t _ _ => [(t, .boolType)]
  | _ => []

end Term

namespace Context

variable {fuel : Nat} {Γ : Context}

def variableType (Γ : Context) (v : Occurrence) : Except Rejection Indexed :=
  match Γ.lookup? v.ix with
  | some type => .ok type
  | none => .error (.illTyped (.unknownVariable v.name))

/-- The domain and the codomain of the type of a function. -/
def functionType (fuel : Nat) (Γ : Context) (f type : Indexed) :
    Except Rejection (Indexed × Indexed) := do
  match ← Γ.normalize fuel type with
  | .bind .pi _ dom cod => return (dom, cod)
  | other => throw (.illTyped (.notFunction Γ.names f other))

/-- Accept two types that are convertible, and refuse others for a given cause. A type that is
expected and the types of two branches are compared in this way. -/
def equate (fuel : Nat) (Γ : Context) (s t : Indexed) (cause : TypeError) :
    Except Rejection Unit := do
  if ← Γ.convertible fuel s t then return ()
  else throw (.illTyped cause)

theorem infer_binop (op : Operator) (l r : Indexed) :
    Γ.infer fuel (.binop op l r) = do
      Γ.check fuel l (.const op.operandType)
      Γ.check fuel r (.const op.operandType)
      return .const op.resultType := by
  simp only [infer, check, bind_assoc]

theorem infer_not (t : Indexed) :
    Γ.infer fuel (.not t) = do
      Γ.check fuel t (.const .boolType)
      return .const .boolType := by
  simp only [infer, check, bind_assoc]

theorem infer_app (f a : Indexed) :
    Γ.infer fuel (.app f a) = do
      let fnType ← Γ.infer fuel f
      let parts ← Γ.functionType fuel f fnType
      Γ.check fuel a parts.1
      return Term.instantiate a parts.2 := by
  simp only [infer, functionType, check, bind_assoc]
  refine bind_congr fun fnType => bind_congr fun normal => ?_
  cases normal with
  | bind b x dom cod => cases b <;> rfl
  | _ => rfl

theorem infer_lam (x : Name) (dom body : Indexed) :
    Γ.infer fuel (.bind .lam x dom body) = do
      let _ ← Γ.inferUniverse fuel dom
      let bodyType ← (Γ.extend x dom).infer fuel body
      return .bind .pi x dom bodyType := by
  simp only [infer, inferUniverse, bind_assoc]

theorem infer_form {b : Binder} (type : b ≠ .lam) (x : Name) (dom body : Indexed) :
    Γ.infer fuel (.bind b x dom body) = do
      let domLevel ← Γ.inferUniverse fuel dom
      let bodyLevel ← (Γ.extend x dom).inferUniverse fuel body
      return .const (.univ (max domLevel bodyLevel)) := by
  cases b with
  | lam => exact absurd rfl type
  | pi | sigma => simp only [infer, inferUniverse, bind_assoc]

theorem infer_cond (t yes no : Indexed) :
    Γ.infer fuel (.cond t yes no) = do
      Γ.check fuel t (.const .boolType)
      let yesType ← Γ.infer fuel yes
      let noType ← Γ.infer fuel no
      Γ.equate fuel yesType noType (.branches Γ.names yesType noType)
      return yesType := by
  simp only [infer, check, equate, bind_assoc]
  refine bind_congr fun testType => bind_congr fun _ => bind_congr fun yesType =>
    bind_congr fun noType => bind_congr fun answer => ?_
  split <;> rfl

theorem infer_ascribe (t type : Indexed) :
    Γ.infer fuel (.ascribe t type) = do
      Γ.check fuel t type
      return type := by
  simp only [infer, check, bind_assoc]

end Context

/-- Something to say of computations that take fuel and may fail, in terms of what holds of their
answers. It goes through answers and sequences. -/
structure Modality (ε : Type) where
  Says : {α : Type} → (α → Prop) → (Nat → Except ε α) → Prop
  answer : ∀ {α : Type} {holds : α → Prop} {a : α}, holds a → Says holds fun _ => .ok a
  bind : ∀ {α β : Type} {holds : α → Prop} {holds' : β → Prop} {x : Nat → Except ε α}
    {f : α → Nat → Except ε β}, Says holds x → (∀ a, holds a → Says holds' (f a)) →
      Says holds' fun fuel => x fuel >>= fun a => f a fuel

/-- The outcome with a certain amount of fuel. -/
def Modality.outcome {ε : Type} (fuel : Nat) (fails : ε → Prop) : Modality ε where
  Says holds x := Outcome fails holds (x fuel)
  answer := id
  bind := Outcome.bind

/-- What is known in the course of an inference. -/
structure Account where
  /-- Of a term, before its type is inferred. -/
  Before : Context → Indexed → Prop
  /-- Of a term and the type inferred for it. -/
  After : Context → Indexed → Indexed → Prop
  /-- Of a term and a type against which it is going to be checked. -/
  Wanted : Context → Indexed → Indexed → Prop
  /-- Of a term that has been checked against a type. -/
  Meets : Context → Indexed → Indexed → Prop
  /-- Of a type and the level of its universe. -/
  Level : Context → Indexed → Int64 → Prop
  /-- Of a function, its argument, and the domain and the codomain of its type. -/
  Function : Context → Indexed → Indexed → Indexed → Indexed → Prop
  /-- Of a term and the type that is made for it from those of its parts. -/
  Makes : Context → Indexed → Indexed → Prop := After

namespace Account

variable {logic : Modality Rejection} {account : Account} {Γ : Context}

/-- Each step of an inference brings about what the account says of it. -/
structure Holds (account : Account) (logic : Modality Rejection) : Prop where
  part : ∀ {Γ t s}, account.Before Γ t → s ∈ t.parts → account.Before Γ s
  body : ∀ {Γ b x dom body k}, account.Before Γ (.bind b x dom body) → account.Level Γ dom k →
    account.Before (Γ.extend x dom) body
  operand : ∀ {Γ t s c}, account.Before Γ t → (s, c) ∈ t.operands → account.Wanted Γ s (.const c)
  argument : ∀ {Γ f a dom cod}, account.Before Γ (.app f a) → account.Function Γ f a dom cod →
    account.Wanted Γ a dom
  ascribed : ∀ {Γ t type}, account.Before Γ (.ascribe t type) → account.Wanted Γ t type
  expect : ∀ {Γ t type expected}, account.Before Γ t → account.After Γ t type →
    account.Wanted Γ t expected →
    logic.Says (fun _ => account.Meets Γ t expected) fun fuel =>
      Γ.equate fuel type expected (.mismatch Γ.names t type expected)
  function : ∀ {Γ f a fnType}, account.Before Γ (.app f a) → account.After Γ f fnType →
    logic.Says (fun p => account.Function Γ f a p.1 p.2) fun fuel => Γ.functionType fuel f fnType
  domain : ∀ {Γ b x dom body domType}, account.Before Γ (.bind b x dom body) →
    account.After Γ dom domType →
    logic.Says (account.Level Γ dom) fun fuel => Γ.universeLevel fuel dom domType
  codomain : ∀ {Γ b x dom body bodyType}, b ≠ .lam → account.Before Γ (.bind b x dom body) →
    account.Before (Γ.extend x dom) body → account.After (Γ.extend x dom) body bodyType →
    logic.Says (account.Level (Γ.extend x dom) body) fun fuel =>
      (Γ.extend x dom).universeLevel fuel body bodyType
  branches : ∀ {Γ t yes no yesType noType}, account.Before Γ (.cond t yes no) →
    account.Meets Γ t (.const .boolType) → account.After Γ yes yesType →
    account.After Γ no noType →
    logic.Says (fun _ => account.Makes Γ (.cond t yes no) yesType) fun fuel =>
      Γ.equate fuel yesType noType (.branches Γ.names yesType noType)
  var : ∀ {Γ v}, account.Before Γ (.var v) →
    logic.Says (account.Makes Γ (.var v)) fun _ => Γ.variableType v
  const : ∀ {Γ c}, account.Before Γ (.const c) → account.Makes Γ (.const c) (.const c.type)
  binop : ∀ {Γ op l r}, account.Before Γ (.binop op l r) →
    account.Meets Γ l (.const op.operandType) → account.Meets Γ r (.const op.operandType) →
    account.Makes Γ (.binop op l r) (.const op.resultType)
  not : ∀ {Γ t}, account.Before Γ (.not t) → account.Meets Γ t (.const .boolType) →
    account.Makes Γ (.not t) (.const .boolType)
  app : ∀ {Γ f a dom cod}, account.Before Γ (.app f a) → account.Function Γ f a dom cod →
    account.Meets Γ a dom → account.Makes Γ (.app f a) (Term.instantiate a cod)
  lam : ∀ {Γ x dom body k bodyType}, account.Before Γ (.bind .lam x dom body) →
    account.Level Γ dom k → account.After (Γ.extend x dom) body bodyType →
    account.Makes Γ (.bind .lam x dom body) (.bind .pi x dom bodyType)
  form : ∀ {Γ b x dom body k j}, b ≠ .lam → account.Before Γ (.bind b x dom body) →
    account.Level Γ dom k → account.Level (Γ.extend x dom) body j →
    account.Makes Γ (.bind b x dom body) (.const (.univ (max k j)))
  ascribe : ∀ {Γ t type}, account.Before Γ (.ascribe t type) → account.Meets Γ t type →
    account.Makes Γ (.ascribe t type) type
  /-- More may be known of the inference as a whole than its last step shows. -/
  settle : ∀ {Γ t}, account.Before Γ t →
    (logic.Says (account.Makes Γ t) fun fuel => Γ.infer fuel t) →
    logic.Says (account.After Γ t) fun fuel => Γ.infer fuel t := by exact fun _ made => made

namespace Holds

/-- What is inferred for a term may be checked. -/
theorem checks (holds : account.Holds logic) {t expected : Indexed} (ready : account.Before Γ t)
    (inferred : logic.Says (account.After Γ t) fun fuel => Γ.infer fuel t)
    (wanted : account.Wanted Γ t expected) :
    logic.Says (fun _ => account.Meets Γ t expected) fun fuel => Γ.check fuel t expected :=
  logic.bind inferred fun _ after => holds.expect ready after wanted

theorem infer (holds : account.Holds logic) {t : Indexed} (ready : account.Before Γ t) :
    logic.Says (account.After Γ t) fun fuel => Γ.infer fuel t := by
  induction t generalizing Γ with refine holds.settle ready ?_
  | var v => exact holds.var ready
  | const c => exact logic.answer (holds.const ready)
  | binop op l r left right =>
    have readyLeft : account.Before Γ l := holds.part ready (by simp [Term.parts])
    have readyRight : account.Before Γ r := holds.part ready (by simp [Term.parts])
    have wantedLeft := holds.operand (s := l) (c := op.operandType) ready (by simp [Term.operands])
    have wantedRight := holds.operand (s := r) (c := op.operandType) ready (by simp [Term.operands])
    simp only [Context.infer_binop]
    apply logic.bind (holds.checks readyLeft (left readyLeft) wantedLeft)
    intro _ meetsLeft
    apply logic.bind (holds.checks readyRight (right readyRight) wantedRight)
    intro _ meetsRight
    exact logic.answer (holds.binop ready meetsLeft meetsRight)
  | not t operand =>
    have readyOperand : account.Before Γ t := holds.part ready (by simp [Term.parts])
    have wanted := holds.operand (s := t) (c := .boolType) ready (by simp [Term.operands])
    simp only [Context.infer_not]
    apply logic.bind (holds.checks readyOperand (operand readyOperand) wanted)
    intro _ meets
    exact logic.answer (holds.not ready meets)
  | app f a fn arg =>
    have readyFn : account.Before Γ f := holds.part ready (by simp [Term.parts])
    have readyArg : account.Before Γ a := holds.part ready (by simp [Term.parts])
    simp only [Context.infer_app]
    apply logic.bind (fn readyFn)
    intro fnType after
    apply logic.bind (holds.function ready after)
    intro parts function
    apply logic.bind (holds.checks readyArg (arg readyArg) (holds.argument ready function))
    intro _ meets
    exact logic.answer (holds.app ready function meets)
  | bind b x dom body domain under =>
    have readyDom : account.Before Γ dom := holds.part ready (by simp [Term.parts])
    have domLevel : logic.Says (account.Level Γ dom) fun fuel => Γ.inferUniverse fuel dom :=
      logic.bind (domain readyDom) fun _ after => holds.domain ready after
    by_cases function : b = .lam
    · subst function
      simp only [Context.infer_lam]
      apply logic.bind domLevel
      intro k level
      apply logic.bind (under (holds.body ready level))
      intro bodyType after
      exact logic.answer (holds.lam ready level after)
    · simp only [Context.infer_form function]
      apply logic.bind domLevel
      intro k level
      have readyBody := holds.body ready level
      have bodyLevel : logic.Says (account.Level (Γ.extend x dom) body) fun fuel =>
          (Γ.extend x dom).inferUniverse fuel body :=
        logic.bind (under readyBody) fun _ after => holds.codomain function ready readyBody after
      apply logic.bind bodyLevel
      intro j level'
      exact logic.answer (holds.form function ready level level')
  | cond t yes no test whenTrue whenFalse =>
    have readyTest : account.Before Γ t := holds.part ready (by simp [Term.parts])
    have readyYes : account.Before Γ yes := holds.part ready (by simp [Term.parts])
    have readyNo : account.Before Γ no := holds.part ready (by simp [Term.parts])
    have wanted := holds.operand (s := t) (c := .boolType) ready (by simp [Term.operands])
    simp only [Context.infer_cond]
    apply logic.bind (holds.checks readyTest (test readyTest) wanted)
    intro _ meets
    apply logic.bind (whenTrue readyYes)
    intro yesType afterYes
    apply logic.bind (whenFalse readyNo)
    intro noType afterNo
    apply logic.bind (holds.branches ready meets afterYes afterNo)
    intro _ makes
    exact logic.answer makes
  | ascribe t type subject _ =>
    have readySubject : account.Before Γ t := holds.part ready (by simp [Term.parts])
    simp only [Context.infer_ascribe]
    apply logic.bind (holds.checks readySubject (subject readySubject) (holds.ascribed ready))
    intro _ meets
    exact logic.answer (holds.ascribe ready meets)

end Holds

end Account

/-- Something to say of two computations side by side, in terms of a relation between their answers. -/
structure Pairing (ε : Type) where
  Says : {α : Type} → (α → α → Prop) → Except ε α → Except ε α → Prop
  answer : ∀ {α : Type} {related : α → α → Prop} {a b : α}, related a b →
    Says related (.ok a) (.ok b)
  bind : ∀ {α β : Type} {related : α → α → Prop} {related' : β → β → Prop} {x y : Except ε α}
    {f g : α → Except ε β}, Says related x y → (∀ a b, related a b → Says related' (f a) (g b)) →
      Says related' (x >>= f) (y >>= g)

def Pairing.alike {ε : Type} (failures : ε → ε → Prop) : Pairing ε where
  Says := Alike failures
  answer := id
  bind := Alike.bind

def Pairing.alikeUnless {ε : Type} (out : ε) (failures : ε → ε → Prop) : Pairing ε where
  Says := AlikeUnless out failures
  answer := .inr
  bind := AlikeUnless.bind

/-- Terms of the same form, whatever their parts are. -/
inductive SameForm : Indexed → Indexed → Prop
  | var (v v' : Occurrence) : SameForm (.var v) (.var v')
  | const (c : Constant) : SameForm (.const c) (.const c)
  | binop (op : Operator) (l r l' r' : Indexed) : SameForm (.binop op l r) (.binop op l' r')
  | not (t t' : Indexed) : SameForm (.not t) (.not t')
  | app (f a f' a' : Indexed) : SameForm (.app f a) (.app f' a')
  | bind (b : Binder) (x x' : Name) (dom body dom' body' : Indexed) :
      SameForm (.bind b x dom body) (.bind b x' dom' body')
  | cond (t yes no t' yes' no' : Indexed) : SameForm (.cond t yes no) (.cond t' yes' no')
  | ascribe (t type t' type' : Indexed) : SameForm (.ascribe t type) (.ascribe t' type')

namespace SameForm

theorem refl (t : Indexed) : SameForm t t := by
  cases t <;> constructor

theorem symm {t t' : Indexed} (form : SameForm t t') : SameForm t' t := by
  cases form <;> constructor

theorem trans {t t' t'' : Indexed} (first : SameForm t t') (second : SameForm t' t'') :
    SameForm t t'' := by
  cases first <;> cases second <;> constructor

end SameForm

/-- How two inferences that take the same course are related. -/
structure Comparison where
  /-- Of two terms, before their types are inferred. -/
  Before : Context → Context → Indexed → Indexed → Prop
  /-- Of two types, inferred or wanted. -/
  After : Context → Context → Indexed → Indexed → Prop
  /-- Of the domains and the codomains of two types of functions. -/
  Function : Context → Context → Indexed × Indexed → Indexed × Indexed → Prop
  /-- Of two types that are made from those of the parts. -/
  Makes : Context → Context → Indexed → Indexed → Prop := After

namespace Comparison

/-- Each step of the two inferences keeps up the relation. -/
structure Holds (comparison : Comparison) (pairing : Pairing Rejection) (fuel fuel' : Nat) : Prop where
  sameForm : ∀ {Γ Γ' t t'}, comparison.Before Γ Γ' t t' → SameForm t t'
  parts : ∀ {Γ Γ' t t'}, comparison.Before Γ Γ' t t' →
    List.Forall₂ (comparison.Before Γ Γ') t.parts t'.parts
  body : ∀ {Γ Γ' b x x' dom dom' body body'},
    comparison.Before Γ Γ' (.bind b x dom body) (.bind b x' dom' body') →
    comparison.Before (Γ.extend x dom) (Γ'.extend x' dom') body body'
  constant : ∀ {Γ Γ' t t'} (c : Constant), comparison.Before Γ Γ' t t' →
    comparison.After Γ Γ' (.const c) (.const c)
  argument : ∀ {Γ Γ' f f' a a' p p'}, comparison.Before Γ Γ' (.app f a) (.app f' a') →
    comparison.Function Γ Γ' p p' → comparison.After Γ Γ' p.1 p'.1
  ascribed : ∀ {Γ Γ' t t' type type'},
    comparison.Before Γ Γ' (.ascribe t type) (.ascribe t' type') → comparison.After Γ Γ' type type'
  expect : ∀ {Γ Γ' t t' type type' expected expected'}, comparison.Before Γ Γ' t t' →
    comparison.After Γ Γ' type type' → comparison.After Γ Γ' expected expected' →
    pairing.Says Eq (Γ.equate fuel type expected (.mismatch Γ.names t type expected))
      (Γ'.equate fuel' type' expected' (.mismatch Γ'.names t' type' expected'))
  function : ∀ {Γ Γ' f f' fnType fnType'}, comparison.Before Γ Γ' f f' →
    comparison.After Γ Γ' fnType fnType' →
    pairing.Says (comparison.Function Γ Γ') (Γ.functionType fuel f fnType)
      (Γ'.functionType fuel' f' fnType')
  universeLevel : ∀ {Γ Γ' t t' type type'}, comparison.Before Γ Γ' t t' →
    comparison.After Γ Γ' type type' →
    pairing.Says Eq (Γ.universeLevel fuel t type) (Γ'.universeLevel fuel' t' type')
  branches : ∀ {Γ Γ' t t' yesType yesType' noType noType'}, comparison.Before Γ Γ' t t' →
    comparison.After Γ Γ' yesType yesType' → comparison.After Γ Γ' noType noType' →
    pairing.Says Eq (Γ.equate fuel yesType noType (.branches Γ.names yesType noType))
      (Γ'.equate fuel' yesType' noType' (.branches Γ'.names yesType' noType'))
  var : ∀ {Γ Γ' v v'}, comparison.Before Γ Γ' (.var v) (.var v') →
    pairing.Says (comparison.Makes Γ Γ') (Γ.variableType v) (Γ'.variableType v')
  app : ∀ {Γ Γ' f f' a a' p p'}, comparison.Before Γ Γ' (.app f a) (.app f' a') →
    comparison.Function Γ Γ' p p' →
    comparison.Makes Γ Γ' (Term.instantiate a p.2) (Term.instantiate a' p'.2)
  lam : ∀ {Γ Γ' x x' dom dom' body body' bodyType bodyType'},
    comparison.Before Γ Γ' (.bind .lam x dom body) (.bind .lam x' dom' body') →
    comparison.After (Γ.extend x dom) (Γ'.extend x' dom') bodyType bodyType' →
    comparison.Makes Γ Γ' (.bind .pi x dom bodyType) (.bind .pi x' dom' bodyType')
  forget : ∀ {Γ Γ' type type'}, comparison.After Γ Γ' type type' →
    comparison.Makes Γ Γ' type type' := by exact fun after => after
  /-- More may be known of the inferences as a whole than their last steps show. -/
  settle : ∀ {Γ Γ' t t'}, comparison.Before Γ Γ' t t' →
    pairing.Says (comparison.Makes Γ Γ') (Γ.infer fuel t) (Γ'.infer fuel' t') →
    pairing.Says (comparison.After Γ Γ') (Γ.infer fuel t) (Γ'.infer fuel' t') := by
      exact fun _ made => made

namespace Holds

variable {comparison : Comparison} {pairing : Pairing Rejection} {fuel fuel' : Nat}
  {Γ Γ' : Context} {t t' : Indexed}

theorem checks (holds : comparison.Holds pairing fuel fuel') {expected expected' : Indexed}
    (ready : comparison.Before Γ Γ' t t')
    (inferred : pairing.Says (comparison.After Γ Γ') (Γ.infer fuel t) (Γ'.infer fuel' t'))
    (wanted : comparison.After Γ Γ' expected expected') :
    pairing.Says Eq (Γ.check fuel t expected) (Γ'.check fuel' t' expected') :=
  pairing.bind inferred fun _ _ after => holds.expect ready after wanted

theorem levels (holds : comparison.Holds pairing fuel fuel')
    (ready : comparison.Before Γ Γ' t t')
    (inferred : pairing.Says (comparison.After Γ Γ') (Γ.infer fuel t) (Γ'.infer fuel' t')) :
    pairing.Says Eq (Γ.inferUniverse fuel t) (Γ'.inferUniverse fuel' t') :=
  pairing.bind inferred fun _ _ after => holds.universeLevel ready after

theorem infer (holds : comparison.Holds pairing fuel fuel') (ready : comparison.Before Γ Γ' t t') :
    pairing.Says (comparison.After Γ Γ') (Γ.infer fuel t) (Γ'.infer fuel' t') := by
  induction t generalizing Γ Γ' t' with
    (refine holds.settle ready ?_
     have form := holds.sameForm ready)
  | var v =>
    cases form
    exact holds.var ready
  | const c =>
    cases form
    exact pairing.answer (holds.forget (holds.constant _ ready))
  | binop op l r left right =>
    cases form with
    | binop _ _ _ l' r' =>
      obtain ⟨readyLeft, readyRight⟩ : comparison.Before Γ Γ' l l' ∧ comparison.Before Γ Γ' r r' := by
        simpa [Term.parts] using holds.parts ready
      simp only [Context.infer_binop]
      apply pairing.bind (holds.checks readyLeft (left readyLeft) (holds.constant _ ready))
      intro _ _ _
      apply pairing.bind
        (holds.checks readyRight (right readyRight) (holds.constant _ ready))
      intro _ _ _
      exact pairing.answer (holds.forget (holds.constant _ ready))
  | not t operand =>
    cases form with
    | not _ t' =>
      have readyOperand : comparison.Before Γ Γ' t t' := by
        simpa [Term.parts] using holds.parts ready
      simp only [Context.infer_not]
      apply pairing.bind
        (holds.checks readyOperand (operand readyOperand) (holds.constant _ ready))
      intro _ _ _
      exact pairing.answer (holds.forget (holds.constant _ ready))
  | app f a fn arg =>
    cases form with
    | app _ _ f' a' =>
      obtain ⟨readyFn, readyArg⟩ : comparison.Before Γ Γ' f f' ∧ comparison.Before Γ Γ' a a' := by
        simpa [Term.parts] using holds.parts ready
      simp only [Context.infer_app]
      apply pairing.bind (fn readyFn)
      intro fnType fnType' after
      apply pairing.bind (holds.function readyFn after)
      intro p p' function
      apply pairing.bind
        (holds.checks readyArg (arg readyArg) (holds.argument ready function))
      intro _ _ _
      exact pairing.answer (holds.app ready function)
  | bind b x dom body domain under =>
    cases form with
    | bind _ _ x' _ _ dom' body' =>
      have readyDom : comparison.Before Γ Γ' dom dom' := by
        simpa [Term.parts] using holds.parts ready
      have readyBody := holds.body ready
      have domLevel := holds.levels readyDom (domain readyDom)
      by_cases function : b = .lam
      · subst function
        simp only [Context.infer_lam]
        apply pairing.bind domLevel
        intro _ _ _
        apply pairing.bind (under readyBody)
        intro bodyType bodyType' after
        exact pairing.answer (holds.lam ready after)
      · simp only [Context.infer_form function]
        apply pairing.bind domLevel
        rintro k _ rfl
        apply pairing.bind (holds.levels readyBody (under readyBody))
        rintro j _ rfl
        exact pairing.answer (holds.forget (holds.constant _ ready))
  | cond t yes no test whenTrue whenFalse =>
    cases form with
    | cond _ _ _ t' yes' no' =>
      obtain ⟨readyTest, readyYes, readyNo⟩ : comparison.Before Γ Γ' t t' ∧
          comparison.Before Γ Γ' yes yes' ∧ comparison.Before Γ Γ' no no' := by
        simpa [Term.parts] using holds.parts ready
      simp only [Context.infer_cond]
      apply pairing.bind (holds.checks readyTest (test readyTest) (holds.constant _ ready))
      intro _ _ _
      apply pairing.bind (whenTrue readyYes)
      intro yesType yesType' afterYes
      apply pairing.bind (whenFalse readyNo)
      intro noType noType' afterNo
      apply pairing.bind (holds.branches ready afterYes afterNo)
      intro _ _ _
      exact pairing.answer (holds.forget afterYes)
  | ascribe t type subject _ =>
    cases form with
    | ascribe _ _ t' type' =>
      have readySubject : comparison.Before Γ Γ' t t' := by
        simpa [Term.parts] using holds.parts ready
      have ascribed := holds.ascribed ready
      simp only [Context.infer_ascribe]
      apply pairing.bind (holds.checks readySubject (subject readySubject) ascribed)
      intro _ _ _
      exact pairing.answer (holds.forget ascribed)

end Holds

end Comparison

end DepCalc

import DepCalc.Proofs.Bare.Reduction
import DepCalc.Typing.Infer

/-!
Typing of bare terms by rules. Types are compared by convertibility, and the type that the rule of
conversion gives must itself be typed, so that in a context of types every type of a term is a type.
The levels of universes are words, and the last level is followed by the least one; no proof here
depends on the order of levels or on reduction coming to an end. Main results: substitution, types of
terms are types, types are unique up to conversion, and reduction keeps types.
-/
namespace DepCalc.Bare

/-- The variable `i` has the type `A`, which is told in the whole context. -/
inductive Lookup : List Bare → Nat → Bare → Prop
  | here (Γ : List Bare) (A : Bare) : Lookup (A :: Γ) 0 A.weaken
  | there {Γ : List Bare} {i : Nat} {A : Bare} (B : Bare) (outside : Lookup Γ i A) :
      Lookup (B :: Γ) (i + 1) A.weaken

/-- The universe of the given level. -/
abbrev univ (level : Int64) : Bare := .const (.univ level)

inductive HasType : List Bare → Bare → Bare → Prop
  | var {Γ : List Bare} {i : Nat} {A : Bare} (found : Lookup Γ i A) : HasType Γ (.var i) A
  | const {Γ : List Bare} (c : Constant) : HasType Γ (.const c) (.const c.type)
  | binop {Γ : List Bare} {op : Operator} {l r : Bare} (left : HasType Γ l (.const op.operandType))
      (right : HasType Γ r (.const op.operandType)) :
      HasType Γ (.binop op l r) (.const op.resultType)
  | not {Γ : List Bare} {t : Bare} (operand : HasType Γ t (.const .boolType)) :
      HasType Γ (.not t) (.const .boolType)
  | app {Γ : List Bare} {f a A B : Bare} (fn : HasType Γ f (.bind .pi A B))
      (arg : HasType Γ a A) : HasType Γ (.app f a) (inst a B)
  | lam {Γ : List Bare} {A body B : Bare} {k : Int64} (domain : HasType Γ A (univ k))
      (under : HasType (A :: Γ) body B) : HasType Γ (.bind .lam A body) (.bind .pi A B)
  | form {Γ : List Bare} {b : Binder} {A B : Bare} {k j : Int64} (type : b ≠ .lam)
      (domain : HasType Γ A (univ k)) (under : HasType (A :: Γ) B (univ j)) :
      HasType Γ (.bind b A B) (univ (max k j))
  | cond {Γ : List Bare} {t y n A : Bare} (test : HasType Γ t (.const .boolType))
      (yes : HasType Γ y A) (no : HasType Γ n A) : HasType Γ (.cond t y n) A
  | conv {Γ : List Bare} {t A B : Bare} {k : Int64} (term : HasType Γ t A) (same : Joinable A B)
      (type : HasType Γ B (univ k)) : HasType Γ t B

/-- Every type of the context is a type in the context outside it. -/
inductive WellTyped : List Bare → Prop
  | nil : WellTyped []
  | cons {Γ : List Bare} {A : Bare} {k : Int64} (outside : WellTyped Γ)
      (type : HasType Γ A (univ k)) : WellTyped (A :: Γ)

/-- Every variable of `Γ` becomes one of its renamed type in `Δ`. -/
def Renames (ξ : Nat → Nat) (Γ Δ : List Bare) : Prop :=
  ∀ i B, Lookup Γ i B → Lookup Δ (ξ i) (B.rename ξ)

/-- Under a binder the renaming is lifted. -/
theorem Renames.lift {ξ : Nat → Nat} {Γ Δ : List Bare} (h : Renames ξ Γ Δ) (A : Bare) :
    Renames (lift ξ) (A :: Γ) (A.rename ξ :: Δ) := by
  intro i B found
  cases found with
  | here =>
    rw [rename_weaken]
    exact .here Δ (A.rename ξ)
  | there _ outside =>
    rw [rename_weaken]
    exact .there _ (h _ _ outside)

theorem HasType.rename {Γ Δ : List Bare} {t A : Bare} {ξ : Nat → Nat} (typed : HasType Γ t A)
    (renames : Renames ξ Γ Δ) : HasType Δ (t.rename ξ) (A.rename ξ) := by
  induction typed generalizing Δ ξ with
  | var found => exact .var (renames _ _ found)
  | const c => exact .const c
  | binop _ _ left right => exact .binop (left renames) (right renames)
  | not _ operand => exact .not (operand renames)
  | app _ _ fn arg =>
    rw [rename_inst]
    exact .app (fn renames) (arg renames)
  | lam _ _ domain under => exact .lam (domain renames) (under (renames.lift _))
  | form type _ _ domain under => exact .form type (domain renames) (under (renames.lift _))
  | cond _ _ _ test yes no => exact .cond (test renames) (yes renames) (no renames)
  | conv _ same _ term type => exact .conv (term renames) (same.rename ξ) (type renames)

theorem HasType.weaken {Γ : List Bare} {t A : Bare} (typed : HasType Γ t A) (B : Bare) :
    HasType (B :: Γ) t.weaken A.weaken :=
  typed.rename fun _ _ found => .there B found

/-- Every variable of `Γ` is replaced by a term of its type in `Δ`. -/
def Substitutes (σ : Nat → Bare) (Γ Δ : List Bare) : Prop :=
  ∀ i A, Lookup Γ i A → HasType Δ (σ i) (A.subst σ)

theorem Substitutes.up {σ : Nat → Bare} {Γ Δ : List Bare} (h : Substitutes σ Γ Δ) (A : Bare) :
    Substitutes (up σ) (A :: Γ) (A.subst σ :: Δ) := by
  intro i B found
  cases found with
  | here =>
    rw [subst_weaken]
    exact .var (.here Δ (A.subst σ))
  | there _ outside =>
    rw [subst_weaken]
    exact (h _ _ outside).weaken _

theorem HasType.subst {Γ Δ : List Bare} {t A : Bare} {σ : Nat → Bare} (typed : HasType Γ t A)
    (substitutes : Substitutes σ Γ Δ) : HasType Δ (t.subst σ) (A.subst σ) := by
  induction typed generalizing Δ σ with
  | var found => exact substitutes _ _ found
  | const c => exact .const c
  | binop _ _ left right => exact .binop (left substitutes) (right substitutes)
  | not _ operand => exact .not (operand substitutes)
  | app _ _ fn arg =>
    rw [subst_inst]
    exact .app (fn substitutes) (arg substitutes)
  | lam _ _ domain under => exact .lam (domain substitutes) (under (substitutes.up _))
  | form type _ _ domain under => exact .form type (domain substitutes) (under (substitutes.up _))
  | cond _ _ _ test yes no => exact .cond (test substitutes) (yes substitutes) (no substitutes)
  | conv _ same _ term type => exact .conv (term substitutes) (same.subst σ) (type substitutes)

theorem HasType.inst {Γ : List Bare} {body B s A : Bare} (under : HasType (A :: Γ) body B)
    (arg : HasType Γ s A) : HasType Γ (inst s body) (inst s B) := by
  refine under.subst fun i C found => ?_
  cases found with
  | here =>
    change HasType Γ s (Bare.inst s A.weaken)
    rwa [inst_weaken]
  | @there _ i C _ outside =>
    change HasType Γ (.var i) (Bare.inst s C.weaken)
    rw [inst_weaken]
    exact .var outside

/-- The type of a variable may be replaced by a convertible type. -/
theorem HasType.convert_domain {Γ : List Bare} {t B A A' : Bare} {k : Int64}
    (typed : HasType (A :: Γ) t B) (same : Joinable A A') (type : HasType Γ A (univ k)) :
    HasType (A' :: Γ) t B := by
  have identity : Substitutes Bare.var (A :: Γ) (A' :: Γ) := by
    intro i C found
    rw [subst_var]
    cases found with
    | here => exact .conv (.var (.here Γ A')) (same.symm.rename _) (type.weaken A')
    | there _ outside => exact .var (.there A' outside)
  simpa only [subst_var] using typed.subst identity

/-- What a typed term says of its parts: the rule of its form was used, up to a conversion of the
type at the end. -/
def Generates (Γ : List Bare) : Bare → Bare → Prop
  | .var i, C => ∃ A, Lookup Γ i A ∧ Joinable A C
  | .stray _, _ => False
  | .const c, C => Joinable (.const c.type) C
  | .binop op l r, C =>
    HasType Γ l (.const op.operandType) ∧ HasType Γ r (.const op.operandType) ∧
      Joinable (.const op.resultType) C
  | .not t, C => HasType Γ t (.const .boolType) ∧ Joinable (.const .boolType) C
  | .app f a, C => ∃ A B, HasType Γ f (.bind .pi A B) ∧ HasType Γ a A ∧ Joinable (inst a B) C
  | .bind .lam A body, C =>
    ∃ k B, HasType Γ A (univ k) ∧ HasType (A :: Γ) body B ∧ Joinable (.bind .pi A B) C
  | .bind _ A B, C =>
    ∃ k j, HasType Γ A (univ k) ∧ HasType (A :: Γ) B (univ j) ∧ Joinable (univ (max k j)) C
  | .cond t y n, C =>
    ∃ A, HasType Γ t (.const .boolType) ∧ HasType Γ y A ∧ HasType Γ n A ∧ Joinable A C

theorem Generates.convert {Γ : List Bare} {t C D : Bare} (h : Generates Γ t C)
    (same : Joinable C D) : Generates Γ t D := by
  cases t with
  | var i =>
    obtain ⟨A, found, type⟩ := h
    exact ⟨A, found, type.trans same⟩
  | stray ix => exact h
  | const c => exact Joinable.trans h same
  | binop op l r =>
    obtain ⟨left, right, type⟩ := h
    exact ⟨left, right, type.trans same⟩
  | not t =>
    obtain ⟨operand, type⟩ := h
    exact ⟨operand, type.trans same⟩
  | app f a =>
    obtain ⟨A, B, fn, arg, type⟩ := h
    exact ⟨A, B, fn, arg, type.trans same⟩
  | bind b A body =>
    cases b <;>
    · obtain ⟨k, B, domain, under, type⟩ := h
      exact ⟨k, B, domain, under, type.trans same⟩
  | cond t y n =>
    obtain ⟨A, test, yes, no, type⟩ := h
    exact ⟨A, test, yes, no, type.trans same⟩

theorem HasType.generates {Γ : List Bare} {t A : Bare} (typed : HasType Γ t A) :
    Generates Γ t A := by
  induction typed with
  | var found => exact ⟨_, found, .refl _⟩
  | const c => exact Joinable.refl _
  | binop left right _ _ => exact ⟨left, right, .refl _⟩
  | not operand _ => exact ⟨operand, .refl _⟩
  | app fn arg _ _ => exact ⟨_, _, fn, arg, .refl _⟩
  | lam domain under _ _ => exact ⟨_, _, domain, under, .refl _⟩
  | @form _ b _ _ _ _ type domain under _ _ =>
    cases b with
    | lam => exact absurd rfl type
    | pi => exact ⟨_, _, domain, under, .refl _⟩
    | sigma => exact ⟨_, _, domain, under, .refl _⟩
  | cond test yes no _ _ _ => exact ⟨_, test, yes, no, .refl _⟩
  | conv _ same _ term _ => exact term.convert same

/-- The domain of a typed binder is a type, and under it the body has a type. -/
theorem HasType.bind_parts {Γ : List Bare} {b : Binder} {A body C : Bare}
    (typed : HasType Γ (.bind b A body) C) :
    ∃ k B, HasType Γ A (univ k) ∧ HasType (A :: Γ) body B := by
  cases b with
  | lam =>
    obtain ⟨k, B, domain, under, -⟩ := typed.generates
    exact ⟨k, B, domain, under⟩
  | pi | sigma =>
    obtain ⟨k, j, domain, under, -⟩ := typed.generates
    exact ⟨k, univ j, domain, under⟩

/-- Domain and codomain of a typed function type are types. -/
theorem HasType.form_body {Γ : List Bare} {b : Binder} {A B C : Bare}
    (typed : HasType Γ (.bind b A B) C) (type : b ≠ .lam) : ∃ j, HasType (A :: Γ) B (univ j) := by
  cases b with
  | lam => exact absurd rfl type
  | pi | sigma =>
    obtain ⟨k, j, -, under, -⟩ := typed.generates
    exact ⟨j, under⟩

theorem HasType.pi_parts {Γ : List Bare} {A B C : Bare} (typed : HasType Γ (.bind .pi A B) C) :
    ∃ k j, HasType Γ A (univ k) ∧ HasType (A :: Γ) B (univ j) := by
  obtain ⟨k, j, domain, under, -⟩ := typed.generates
  exact ⟨k, j, domain, under⟩

/-- A typed function has the domain that its type says, and its body the codomain. -/
theorem HasType.lam_parts {Γ : List Bare} {A A' body B' : Bare}
    (typed : HasType Γ (.bind .lam A body) (.bind .pi A' B')) :
    ∃ k B, HasType Γ A (univ k) ∧ HasType (A :: Γ) body B ∧ Joinable A A' ∧ Joinable B B' := by
  obtain ⟨k, B, domain, under, same⟩ := typed.generates
  obtain ⟨-, sameDomain, sameCodomain⟩ := same.bind_injective
  exact ⟨k, B, domain, under, sameDomain, sameCodomain⟩

theorem HasType.const_type {Γ : List Bare} {c d : Constant}
    (typed : HasType Γ (.const c) (.const d)) : c.type = d :=
  Joinable.const_injective typed.generates

theorem HasType.const_ne_pi {Γ : List Bare} {c : Constant} {A B : Bare} :
    ¬ HasType Γ (.const c) (.bind .pi A B) :=
  fun typed => Joinable.const_bind typed.generates

/-- Only functions have a function type. -/
theorem HasType.bind_eq_lam {Γ : List Bare} {b : Binder} {A body A' B' : Bare}
    (typed : HasType Γ (.bind b A body) (.bind .pi A' B')) : b = .lam := by
  cases b with
  | lam => rfl
  | pi | sigma =>
    obtain ⟨k, j, -, -, same⟩ := typed.generates
    exact same.const_bind.elim

/-- A binder is a function or a type, so the only constants that are types of binders are
universes. -/
theorem HasType.bind_const {Γ : List Bare} {b : Binder} {A body : Bare} {c : Constant}
    (typed : HasType Γ (.bind b A body) (.const c)) : ∃ k, c = .univ k := by
  cases b with
  | lam =>
    obtain ⟨k, B, -, -, same⟩ := typed.generates
    exact same.symm.const_bind.elim
  | pi | sigma =>
    obtain ⟨k, j, -, -, same⟩ := typed.generates
    exact ⟨_, same.const_injective.symm⟩

theorem Lookup.lt_length {Γ : List Bare} {i : Nat} {A : Bare} (found : Lookup Γ i A) :
    i < Γ.length := by
  induction found with
  | here => exact Nat.zero_lt_succ _
  | there _ _ ih => exact Nat.succ_lt_succ ih

/-- Every variable of a typed term is in its context. -/
theorem HasType.scoped {Γ : List Bare} {t A : Bare} (typed : HasType Γ t A) :
    t.Scoped Γ.length := by
  induction typed with
  | var found => exact found.lt_length
  | const c => trivial
  | binop _ _ left right => exact ⟨left, right⟩
  | not _ operand => exact operand
  | app _ _ fn arg => exact ⟨fn, arg⟩
  | lam _ _ domain under => exact ⟨domain, under⟩
  | form _ _ _ domain under => exact ⟨domain, under⟩
  | cond _ _ _ test yes no => exact ⟨test, yes, no⟩
  | conv _ _ _ term _ => exact term

/-- Every type of the context has its variables in the context outside it. -/
def ScopedTypes : List Bare → Prop
  | [] => True
  | A :: Γ => ScopedTypes Γ ∧ A.Scoped Γ.length

theorem WellTyped.scopedTypes {Γ : List Bare} (context : WellTyped Γ) : ScopedTypes Γ := by
  induction context with
  | nil => trivial
  | cons _ type ih => exact ⟨ih, type.scoped⟩

theorem ScopedTypes.get {Γ : List Bare} {i : Nat} {A : Bare} (types : ScopedTypes Γ)
    (found : Γ[i]? = some A) :
    Lookup Γ i (A.rename (· + (i + 1))) ∧ A.Scoped (Γ.length - (i + 1)) := by
  induction Γ generalizing i with
  | nil => simp at found
  | cons B Γ ih =>
    cases i with
    | zero =>
      simp only [List.getElem?_cons_zero, Option.some.injEq] at found
      subst found
      exact ⟨.here Γ B, types.2⟩
    | succ i =>
      obtain ⟨looked, scope⟩ := ih types.1 (by simpa using found)
      have further := Lookup.there B looked
      rw [weaken, rename_rename] at further
      refine ⟨further, ?_⟩
      rwa [List.length_cons, Nat.add_sub_add_right]

theorem Lookup.unique {Γ : List Bare} {i : Nat} {A B : Bare} (left : Lookup Γ i A)
    (right : Lookup Γ i B) : A = B := by
  induction left generalizing B with
  | here =>
    cases right
    rfl
  | there _ _ ih =>
    cases right with
    | there _ outside => rw [ih outside]

/-- Functions carry their domains, and a type belongs to one universe only, so a term has one type up
to conversion. -/
theorem HasType.unique {Γ : List Bare} {t A B : Bare} (left : HasType Γ t A)
    (right : HasType Γ t B) : Joinable A B := by
  induction t generalizing Γ A B with
  | var i =>
    obtain ⟨C, found, same⟩ := left.generates
    obtain ⟨D, found', same'⟩ := right.generates
    obtain rfl := found.unique found'
    exact same.symm.trans same'
  | stray ix => exact left.generates.elim
  | const c => exact Joinable.trans (Joinable.symm left.generates) right.generates
  | binop op l r _ _ =>
    obtain ⟨-, -, same⟩ := left.generates
    obtain ⟨-, -, same'⟩ := right.generates
    exact same.symm.trans same'
  | not t _ =>
    obtain ⟨-, same⟩ := left.generates
    obtain ⟨-, same'⟩ := right.generates
    exact same.symm.trans same'
  | app f a fn _ =>
    obtain ⟨C, D, fnTyped, -, same⟩ := left.generates
    obtain ⟨C', D', fnTyped', -, same'⟩ := right.generates
    obtain ⟨-, -, codomain⟩ := (fn fnTyped fnTyped').bind_injective
    exact same.symm.trans ((Joinable.inst (.refl a) codomain).trans same')
  | bind b dom body domain under =>
    cases b with
    | lam =>
      obtain ⟨k, D, -, underTyped, same⟩ := left.generates
      obtain ⟨k', D', -, underTyped', same'⟩ := right.generates
      have codomain := under underTyped underTyped'
      exact same.symm.trans ((Joinable.bind (.refl dom) codomain).trans same')
    | pi | sigma =>
      obtain ⟨k, j, domTyped, underTyped, same⟩ := left.generates
      obtain ⟨k', j', domTyped', underTyped', same'⟩ := right.generates
      cases (domain domTyped domTyped').const_injective
      cases (under underTyped underTyped').const_injective
      exact same.symm.trans same'
  | cond t y n _ yes _ =>
    obtain ⟨C, -, yesTyped, -, same⟩ := left.generates
    obtain ⟨C', -, yesTyped', -, same'⟩ := right.generates
    exact same.symm.trans ((yes yesTyped yesTyped').trans same')

theorem WellTyped.lookup {Γ : List Bare} {i : Nat} {A : Bare} (context : WellTyped Γ)
    (found : Lookup Γ i A) : ∃ k, HasType Γ A (univ k) := by
  induction found with
  | here Γ A =>
    cases context with
    | cons _ type => exact ⟨_, type.weaken A⟩
  | there B _ ih =>
    cases context with
    | cons outside _ =>
      obtain ⟨k, type⟩ := ih outside
      exact ⟨k, type.weaken B⟩

theorem HasType.type {Γ : List Bare} {t A : Bare} (context : WellTyped Γ) (typed : HasType Γ t A) :
    ∃ k, HasType Γ A (univ k) := by
  induction typed with
  | var found => exact context.lookup found
  | const c => cases c <;> exact ⟨_, .const _⟩
  | @binop _ op _ _ _ _ _ _ => cases op <;> exact ⟨_, .const _⟩
  | not _ _ => exact ⟨_, .const _⟩
  | app _ arg fn _ =>
    obtain ⟨k, functionType⟩ := fn context
    obtain ⟨-, j, -, codomain⟩ := functionType.pi_parts
    exact ⟨j, codomain.inst arg⟩
  | lam domain _ _ under =>
    obtain ⟨j, codomain⟩ := under (.cons context domain)
    exact ⟨_, .form (by decide) domain codomain⟩
  | form _ _ _ _ _ => exact ⟨_, .const _⟩
  | cond _ _ _ _ yes _ => exact yes context
  | conv _ _ type _ _ => exact ⟨_, type⟩

theorem HasType.pi_domain {Γ : List Bare} {f A B : Bare} (context : WellTyped Γ)
    (typed : HasType Γ f (.bind .pi A B)) : ∃ k, HasType Γ A (univ k) := by
  obtain ⟨j, functionType⟩ := typed.type context
  obtain ⟨k, _, domain, -⟩ := functionType.pi_parts
  exact ⟨k, domain⟩

theorem compute_type {op : Operator} {c d result : Constant}
    (computed : op.compute? c d = some result) : result.type = op.resultType := by
  cases c <;> cases d <;> cases op <;>
    simp_all [Operator.compute?, Operator.onInts, Operator.onBools] <;>
    subst computed <;> rfl

/-- An application has its type also when function and argument have stepped. -/
private theorem app_stepped {Γ : List Bare} {f a a' A B : Bare} (context : WellTyped Γ)
    (fn : HasType Γ f (.bind .pi A B)) (arg : HasType Γ a A) (step : Par a a')
    {u : Bare} (typed : HasType Γ u (inst a' B)) : HasType Γ u (inst a B) := by
  obtain ⟨k, functionType⟩ := fn.type context
  obtain ⟨-, j, -, codomain⟩ := functionType.pi_parts
  exact .conv typed (step.reduces.joinable.symm.inst (.refl B)) (codomain.inst arg)

theorem HasType.par {Γ : List Bare} {t t' A : Bare} (context : WellTyped Γ) (typed : HasType Γ t A)
    (step : Par t t') : HasType Γ t' A := by
  induction typed generalizing t' with
  | var found =>
    cases step
    exact .var found
  | const c =>
    cases step
    exact .const c
  | binop _ _ left right =>
    cases step with
    | binop leftStep rightStep => exact .binop (left context leftStep) (right context rightStep)
    | compute computed =>
      rw [← compute_type computed]
      exact .const _
  | not _ operand =>
    cases step with
    | not operandStep => exact .not (operand context operandStep)
    | negate b => exact .const _
  | app fnTyped argTyped fn arg =>
    cases step with
    | app fnStep argStep =>
      exact app_stepped context fnTyped argTyped argStep
        (.app (fn context fnStep) (arg context argStep))
    | @beta dom _ body' _ _ underStep argStep =>
      obtain ⟨k, B, domain, under, sameDomain, sameCodomain⟩ :=
        (fn context (.bind (.refl dom) underStep)).lam_parts
      have argument := HasType.conv (arg context argStep) sameDomain.symm domain
      obtain ⟨j, functionType⟩ := fnTyped.type context
      obtain ⟨-, i, -, codomain⟩ := functionType.pi_parts
      refine app_stepped context fnTyped argTyped argStep ?_
      exact .conv (under.inst argument) (Joinable.inst (.refl _) sameCodomain)
        (codomain.inst (arg context argStep))
  | lam domainTyped underTyped domain under =>
    cases step with
    | bind domainStep underStep =>
      have inside := WellTyped.cons context domainTyped
      obtain ⟨j, codomain⟩ := underTyped.type inside
      have stepped := domainStep.reduces.joinable
      refine .conv (.lam (domain context domainStep) ?_) (stepped.symm.bind (.refl _))
        (.form (by decide) domainTyped codomain)
      exact (under inside underStep).convert_domain stepped domainTyped
  | form type domainTyped _ domain under =>
    cases step with
    | bind domainStep underStep =>
      refine .form type (domain context domainStep) ?_
      exact (under (.cons context domainTyped) underStep).convert_domain
        domainStep.reduces.joinable domainTyped
  | cond _ _ _ test yes no =>
    cases step with
    | cond testStep yesStep noStep =>
      exact .cond (test context testStep) (yes context yesStep) (no context noStep)
    | selectYes yesStep => exact yes context yesStep
    | selectNo noStep => exact no context noStep
  | conv _ same type term _ => exact .conv (term context step) same type

theorem HasType.reduces {Γ : List Bare} {t u A : Bare} (context : WellTyped Γ)
    (typed : HasType Γ t A) (reduces : Reduces t u) : HasType Γ u A := by
  induction reduces with
  | refl => exact typed
  | tail _ step ih => exact ih.par context step

end DepCalc.Bare

import DepCalc.Proofs.Bare.Candidates

/-!
Validity: a term belongs to a type if, whatever terms from the meanings of the types in the context
are put for its variables, it is in the meaning of its type. Valid terms halt. The rules of typing are
lemmas here, with one exception: the universe of the greatest level has no valid type, for the level
that follows it is the least one.
-/
namespace DepCalc.Bare

/-- Each variable of the context is replaced by a term in the meaning of its type. -/
def Realizes (σ : Nat → Bare) (Γ : List Bare) : Prop :=
  ∀ i A, Lookup Γ i A → ∃ P, Means top (A.subst σ) P ∧ P.contains (σ i)

def Valid (Γ : List Bare) (t A : Bare) : Prop :=
  ∀ σ, Realizes σ Γ → ∃ P, Means top (A.subst σ) P ∧ P.contains (t.subst σ)

theorem subst_weaken_extend (a : Bare) (σ : Nat → Bare) (A : Bare) :
    A.weaken.subst (extend a σ) = A.subst σ := by
  rw [weaken, subst_rename]
  rfl

theorem Realizes.extend {σ : Nat → Bare} {Γ : List Bare} {A a : Bare} {P : Candidate}
    (realizes : Realizes σ Γ) (means : Means top (A.subst σ) P) (arg : P.contains a) :
    Realizes (extend a σ) (A :: Γ) := by
  intro i B found
  cases found with
  | here =>
    rw [subst_weaken_extend]
    exact ⟨P, means, arg⟩
  | there _ outside =>
    rw [subst_weaken_extend]
    exact realizes _ _ outside

namespace Means

variable {n : Nat} {X Y : Bare} {P : Candidate}

theorem of_univ {A : Bare} {k : Int64} (means : Means top (univ k) P) (member : P.contains A) :
    ∃ Q, Means (rank k) A Q := by
  obtain ⟨below, rfl⟩ := means.univ_inv (.refl _)
  exact types_contains.mp member

theorem univ {k : Int64} (below : rank k < n) : Means n (Bare.univ k) (types (rank k)) :=
  Interp.univ (.const _) (.refl _) below

theorem mono {m : Nat} {A : Bare} (means : Means n A P) (le : n ≤ m) : Means m A P :=
  Interp.mono means le fun _ _ _ => rfl

theorem const {c : Constant} (noUniverse : ∀ k, c ≠ .univ k) : Means n (.const c) .halting := by
  refine Interp.base (.const c) (fun X Y toPi => ?_) fun k toUniverse => ?_
  · cases toPi.const_inv
  · cases toUniverse.const_inv
    exact noUniverse k rfl

theorem eq_halting {c : Constant} (noUniverse : ∀ k, c ≠ .univ k) (means : Means n (.const c) P) :
    P = .halting :=
  Interp.eq_of_joinable means (const noUniverse) (.refl _)

/-- A codomain with a meaning for each argument, of which one is a variable. -/
theorem halts_of_family (family : ∀ a, P.contains a → ∃ Q, Means n (inst a Y) Q) : Halts Y := by
  obtain ⟨Q, means⟩ := family (.var 0) (P.var 0)
  exact Halts.of_subst means.halts

theorem pi (domain : Means n X P) (family : ∀ a, P.contains a → ∃ Q, Means n (inst a Y) Q) :
    ∃ (Q : Bare → Candidate) (stable : P.Stable Q), (∀ a, P.contains a → Means n (inst a Y) (Q a)) ∧
      Means n (.bind .pi X Y) (P.arrow Q stable) := by
  classical
  let Q : Bare → Candidate := fun a =>
    if arg : P.contains a then (family a arg).choose else .halting
  have codomain : ∀ a, P.contains a → Means n (inst a Y) (Q a) := by
    intro a arg
    simp only [Q, dif_pos arg]
    exact (family a arg).choose_spec
  have stable : P.Stable Q := by
    intro a a' arg step
    have same : Joinable (inst a Y) (inst a' Y) := (step.reduces.inst (.refl Y)).joinable
    exact Interp.eq_of_joinable (codomain a arg) (codomain a' (P.step arg step)) same
  have halts : Halts (.bind .pi X Y) := .bind domain.halts (halts_of_family family)
  refine ⟨Q, stable, codomain,
    Interp.pi halts (.refl _) (fun X' Y' toPi => ?_) fun X' Y' toPi a arg => ?_⟩
  · obtain ⟨_, _, same, domReduces, -⟩ := toPi.bind_inv
    cases same
    exact domain.reduces domReduces
  · obtain ⟨_, _, same, -, codReduces⟩ := toPi.bind_inv
    cases same
    exact (codomain a arg).reduces ((Reduces.refl a).inst codReduces)

theorem sigma (domain : Halts X) (codomain : Halts Y) : Means n (.bind .sigma X Y) .halting := by
  refine Interp.base (.bind domain codomain) (fun X' Y' toPi => ?_) fun k toUniverse => ?_
  · obtain ⟨_, _, same, -, -⟩ := toPi.bind_inv
    cases same
  · obtain ⟨_, _, same, -, -⟩ := toUniverse.bind_inv
    cases same

end Means

/-- Every type of the context is a valid type in the context outside it. -/
def ValidContext : List Bare → Prop
  | [] => True
  | A :: Γ => ValidContext Γ ∧ A.Scoped Γ.length ∧ ∃ k, Valid Γ A (univ k)

theorem ValidContext.scopedTypes {Γ : List Bare} (context : ValidContext Γ) : ScopedTypes Γ := by
  induction Γ with
  | nil => trivial
  | cons A Γ ih => exact ⟨ih context.1, context.2.1⟩

/-- Variables may stand for themselves, under any renaming. -/
theorem ValidContext.realizes {Γ : List Bare} (context : ValidContext Γ) (ξ : Nat → Nat) :
    Realizes (fun i => .var (ξ i)) Γ := by
  induction Γ generalizing ξ with
  | nil =>
    intro i A found
    cases found
  | cons B Γ ih =>
    obtain ⟨outside, -, k, type⟩ := context
    have inner := ih outside fun i => ξ (i + 1)
    intro i A found
    cases found with
    | here =>
      rw [weaken, subst_rename]
      obtain ⟨P, means, member⟩ := type _ inner
      obtain ⟨Q, typeMeans⟩ := Means.of_univ means member
      exact ⟨Q, typeMeans.mono (Nat.le_of_lt (rank_lt_top k)), Q.var _⟩
    | there _ further =>
      rw [weaken, subst_rename]
      exact inner _ _ further

namespace Valid

variable {Γ : List Bare} {t A : Bare}

theorem halts (context : ValidContext Γ) (valid : Valid Γ t A) : Halts t ∧ Halts A := by
  obtain ⟨P, means, member⟩ := valid _ (context.realizes id)
  exact ⟨.of_subst (P.halts member), .of_subst means.halts⟩

theorem reduces {B : Bare} (valid : Valid Γ t A) (reduces : Reduces A B) : Valid Γ t B := by
  intro σ realizes
  obtain ⟨P, means, member⟩ := valid σ realizes
  exact ⟨P, means.reduces (reduces.subst σ), member⟩

theorem var {i : Nat} (found : Lookup Γ i A) : Valid Γ (.var i) A :=
  fun _ realizes => realizes i A found

theorem const {c : Constant} (notLast : c ≠ .univ Int64.maxValue) :
    Valid Γ (.const c) (.const c.type) := by
  intro σ _
  cases c with
  | int n => exact ⟨_, .const (by simp [Constant.type]), .const _⟩
  | bool b => exact ⟨_, .const (by simp [Constant.type]), .const _⟩
  | intType | boolType =>
    exact ⟨_, .univ (rank_lt_top 0), types_contains.mpr ⟨_, .const (by simp)⟩⟩
  | univ k =>
    have next := rank_succ fun last => notLast (congrArg Constant.univ last)
    exact ⟨_, .univ (rank_lt_top (k + 1)), types_contains.mpr ⟨_, .univ next⟩⟩

/-- A term of a type of literals halts, whatever is put for its variables. -/
theorem halts_literal {c : Constant} (noUniverse : ∀ k, c ≠ .univ k) (valid : Valid Γ t (.const c))
    {σ : Nat → Bare} (realizes : Realizes σ Γ) : Halts (t.subst σ) := by
  obtain ⟨P, means, member⟩ := valid σ realizes
  obtain rfl := Means.eq_halting noUniverse means
  exact member

theorem binop {op : Operator} {l r : Bare} (left : Valid Γ l (.const op.operandType))
    (right : Valid Γ r (.const op.operandType)) :
    Valid Γ (.binop op l r) (.const op.resultType) := by
  intro σ realizes
  have operands : ∀ k, op.operandType ≠ .univ k := by cases op <;> simp [Operator.operandType]
  have results : ∀ k, op.resultType ≠ .univ k := by cases op <;> simp [Operator.resultType]
  have halts : Halts (.binop op (l.subst σ) (r.subst σ)) :=
    .binop (left.halts_literal operands realizes) (right.halts_literal operands realizes)
  exact ⟨_, .const results, halts⟩

theorem not (operand : Valid Γ t (.const .boolType)) : Valid Γ (.not t) (.const .boolType) := by
  intro σ realizes
  have noUniverse : ∀ k, Constant.boolType ≠ .univ k := by simp
  have halts : Halts (.not (t.subst σ)) := .not (operand.halts_literal noUniverse realizes)
  exact ⟨_, .const noUniverse, halts⟩

theorem cond {y n B : Bare} (test : Valid Γ t (.const .boolType)) (yes : Valid Γ y A)
    (no : Valid Γ n B) (same : Joinable B A) : Valid Γ (.cond t y n) A := by
  intro σ realizes
  have testHalts := test.halts_literal (by simp) realizes
  obtain ⟨P, means, yesMember⟩ := yes σ realizes
  obtain ⟨Q, means', noMember⟩ := no σ realizes
  obtain rfl := Interp.eq_of_joinable means' means (same.subst σ)
  exact ⟨Q, means, Q.cond testHalts yesMember noMember⟩

theorem app {f a X X' Y : Bare} (fn : Valid Γ f (.bind .pi X Y)) (arg : Valid Γ a X')
    (same : Joinable X' X) : Valid Γ (.app f a) (inst a Y) := by
  intro σ realizes
  obtain ⟨R, means, maps⟩ := fn σ realizes
  obtain ⟨P, Q, stable, rfl, domain, codomain⟩ := means.pi_inv (.refl _)
  obtain ⟨P', argMeans, member⟩ := arg σ realizes
  obtain rfl := Interp.eq_of_joinable argMeans domain (same.subst σ)
  rw [subst_inst]
  exact ⟨_, codomain _ member, maps _ member⟩

/-- What is valid of a type holds of its meaning below its own universe. -/
theorem type {k : Int64} (valid : Valid Γ A (univ k)) {σ : Nat → Bare} (realizes : Realizes σ Γ) :
    ∃ P, Means (rank k) (A.subst σ) P := by
  obtain ⟨R, means, member⟩ := valid σ realizes
  exact Means.of_univ means member

theorem lam {X body B : Bare} {k : Int64} (domain : Valid Γ X (univ k))
    (under : Valid (X :: Γ) body B) : Valid Γ (.bind .lam X body) (.bind .pi X B) := by
  intro σ realizes
  obtain ⟨P, below⟩ := domain.type realizes
  have means := below.mono (Nat.le_of_lt (rank_lt_top k))
  have inside : ∀ a, P.contains a → ∃ Q, Means top (inst a (B.subst (up σ))) Q ∧
      Q.contains (inst a (body.subst (up σ))) := by
    intro a arg
    rw [inst_subst_up, inst_subst_up]
    exact under _ (realizes.extend means arg)
  obtain ⟨Q, stable, codomain, function⟩ :=
    Means.pi means fun a arg => (inside a arg).imp fun _ holds => holds.1
  have results : ∀ a, P.contains a → (Q a).contains (inst a (body.subst (up σ))) := by
    intro a arg
    obtain ⟨Q', means', member⟩ := inside a arg
    rwa [Interp.eq_of_joinable (codomain a arg) means' (.refl _)]
  have bodyHalts : Halts (body.subst (up σ)) :=
    .of_subst ((Q _).halts (results (.var 0) (P.var 0)))
  refine ⟨_, function, fun a arg => ?_⟩
  exact (Q a).beta means.halts bodyHalts (P.halts arg) (results a arg)

theorem form {b : Binder} {X Y : Bare} {k j : Int64} (isType : b ≠ .lam)
    (domain : Valid Γ X (univ k)) (under : Valid (X :: Γ) Y (univ j)) :
    Valid Γ (.bind b X Y) (univ (max k j)) := by
  intro σ realizes
  obtain ⟨P, below⟩ := domain.type realizes
  have means := below.mono (rank_max k j).1
  have family : ∀ a, P.contains a → ∃ Q, Means (rank (max k j)) (inst a (Y.subst (up σ))) Q := by
    intro a arg
    have inside := realizes.extend (below.mono (Nat.le_of_lt (rank_lt_top k))) arg
    obtain ⟨Q, below'⟩ := under.type inside
    rw [inst_subst_up]
    exact ⟨Q, below'.mono (rank_max k j).2⟩
  refine ⟨_, .univ (rank_lt_top _), types_contains.mpr ?_⟩
  cases b with
  | lam => exact absurd rfl isType
  | pi =>
    obtain ⟨Q, stable, -, function⟩ := Means.pi means family
    exact ⟨_, function⟩
  | sigma => exact ⟨_, .sigma means.halts (Means.halts_of_family family)⟩

end Valid
end DepCalc.Bare

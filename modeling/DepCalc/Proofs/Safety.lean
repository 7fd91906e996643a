import DepCalc.Proofs.Bare.Typing
import DepCalc.Proofs.Fuel
import DepCalc.Proofs.Meaning

/-!
Typed terms do not go wrong. The evaluation of a typed term applies only functions, branches on and
negates only truth values, computes only on operands of the operator's type and finds every variable;
so does reading its value back. All that can stop them is that the fuel runs out.
-/
namespace DepCalc

open Bare (HasType WellTyped univ)

/-- A variable that the environment does not bind is beyond all levels. -/
theorem Env.subst_of_length_le {level i : Nat} {env : List Value} (beyond : env.length ≤ i) :
    Env.subst level env i = .var (level + (i - env.length)) := by
  induction env generalizing i with
  | nil => rfl
  | cons v rest ih =>
    cases i with
    | zero => exact absurd beyond (Nat.not_succ_le_zero _)
    | succ i =>
      rw [Env.subst, Bare.extend, ih (Nat.le_of_succ_le_succ beyond), List.length_cons,
        Nat.add_sub_add_right]

theorem lookup_faultless {Γ : List Bare} {env : Env} {ix : Int64} {A : Bare}
    (typed : HasType Γ ((Bare.ofIndex ix.toInt).subst (Env.subst Γ.length env)) A) :
    Outcome (· = .outOfFuel) (fun _ => True) (env.lookup ix) := by
  have nonneg : ¬ ix.toInt < 0 := by
    intro negative
    rw [Bare.ofIndex_neg negative] at typed
    exact typed.generates.elim
  rw [Bare.ofIndex, if_neg nonneg, Bare.subst, Int64.toNat_toInt] at typed
  unfold Env.lookup atIndex?
  rw [if_neg (by rwa [Int64.lt_iff_toInt_lt])]
  cases found : env[ix.toNatClampNeg]? with
  | some v => trivial
  | none =>
    rw [Env.subst_of_length_le (List.getElem?_eq_none_iff.mp found)] at typed
    obtain ⟨B, outside, -⟩ := typed.generates
    have inContext := outside.lt_length
    omega

theorem compute_defined {op : Operator} {c d : Constant} (left : c.type = op.operandType)
    (right : d.type = op.operandType) : ∃ result, op.compute? c d = some result := by
  cases op <;> cases c <;> cases left <;> cases d <;> cases right <;> exact ⟨_, rfl⟩

theorem onValues_faultless {Γ : List Bare} {level : Nat} {op : Operator} {l r : Value}
    (left : HasType Γ (l.term level) (.const op.operandType))
    (right : HasType Γ (r.term level) (.const op.operandType)) :
    Outcome (· = .outOfFuel) (fun _ => True) (op.onValues l r) := by
  have noUniverse : ∀ k, op.operandType ≠ .univ k := by
    intro k
    cases op <;> simp [Operator.operandType]
  cases l with
  | neutral n => trivial
  | bind b dom x env body =>
    obtain ⟨k, same⟩ := left.bind_const
    exact absurd same (noUniverse k)
  | const c =>
    cases r with
    | neutral n => trivial
    | bind b dom x env body =>
      obtain ⟨k, same⟩ := right.bind_const
      exact absurd same (noUniverse k)
    | const d =>
      obtain ⟨result, computed⟩ := compute_defined left.const_type right.const_type
      simp only [Operator.onValues, computed]
      trivial

/-- A value of the type of truth values is a truth value or waits for a variable. -/
theorem bool_cases {Γ : List Bare} {level : Nat} {v : Value}
    (typed : HasType Γ (v.term level) (.const .boolType)) :
    (∃ b, v = .const (.bool b)) ∨ ∃ n, v = .neutral n := by
  cases v with
  | neutral n => exact .inr ⟨n, rfl⟩
  | bind b dom x env body =>
    obtain ⟨k, same⟩ := typed.bind_const
    cases same
  | const c =>
    have same := typed.const_type
    cases c <;> cases same
    exact .inl ⟨_, rfl⟩

/-- A value of a function type is a function or waits for a variable. -/
theorem function_cases {Γ : List Bare} {level : Nat} {v : Value} {A B : Bare}
    (typed : HasType Γ (v.term level) (.bind .pi A B)) :
    (∃ dom x env body, v = .bind .lam dom x env body) ∨ ∃ n, v = .neutral n := by
  cases v with
  | neutral n => exact .inr ⟨n, rfl⟩
  | const c => exact (HasType.const_ne_pi typed).elim
  | bind b dom x env body =>
    obtain rfl := typed.bind_eq_lam
    exact .inl ⟨dom, x, env, body, rfl⟩

/-- The evaluation of a typed term finds what it needs at every step. The induction is on the fuel;
what has been evaluated so far is typed because reduction keeps types. -/
theorem eval_faultless {Γ : List Bare} {fuel : Nat} {env : Env} {t : Indexed} {A : Bare}
    (context : WellTyped Γ) (sound : Env.Sound Γ.length env)
    (typed : HasType Γ (t.erase.subst (Env.subst Γ.length env)) A) :
    Outcome (· = .outOfFuel) (Value.Represents Γ.length (t.erase.subst (Env.subst Γ.length env)))
      (eval fuel env t) := by
  refine Outcome.of_answer ?_ (eval_represents sound t)
  induction fuel generalizing env t A with
  | zero => rfl
  | succ fuel ih =>
    have step : ∀ {env : Env} {t : Indexed} {A : Bare}, Env.Sound Γ.length env →
        HasType Γ (t.erase.subst (Env.subst Γ.length env)) A →
        Outcome (· = .outOfFuel)
          (Value.Represents Γ.length (t.erase.subst (Env.subst Γ.length env))) (eval fuel env t) :=
      fun sound typed => (ih sound typed).of_answer (eval_represents sound _)
    cases t with
    | var v => exact lookup_faultless typed
    | const c => trivial
    | ascribe t type => exact ih sound typed
    | binop op l r =>
      obtain ⟨left, right, -⟩ := typed.generates
      apply (step sound left).bind
      intro lv leftMeans
      apply (step sound right).bind
      intro rv rightMeans
      exact onValues_faultless (left.reduces context leftMeans.2) (right.reduces context rightMeans.2)
    | not t =>
      obtain ⟨operand, -⟩ := typed.generates
      apply (step sound operand).bind
      intro v means
      obtain ⟨b, rfl⟩ | ⟨n, rfl⟩ := bool_cases (operand.reduces context means.2) <;> trivial
    | bind b x dom body =>
      obtain ⟨k, B, domain, -⟩ := typed.bind_parts
      exact (step sound domain).bind fun _ _ => trivial
    | app f a =>
      obtain ⟨C, D, fn, arg, -⟩ := typed.generates
      apply (step sound fn).bind
      intro fv fnMeans
      apply (step sound arg).bind
      intro av argMeans
      obtain ⟨dom, x, captured, body, rfl⟩ | ⟨n, rfl⟩ :=
        function_cases (fn.reduces context fnMeans.2)
      · -- The body, with the argument for its variable, is a reduct of the application.
        have contracted := fnMeans.2.app argMeans.2 |>.trans
          (@Bare.Par.beta (dom.term Γ.length) _ _ _ _ (.refl _) (.refl _)).reduces
        have bodyTyped := typed.reduces context contracted
        rw [Bare.inst_subst_up] at bodyTyped
        have inside : Env.Sound Γ.length (av :: captured) := ⟨argMeans.1, fnMeans.1.2⟩
        exact ih (t := body) inside bodyTyped
      · trivial
    | cond t y n =>
      obtain ⟨C, test, yes, no, -⟩ := typed.generates
      apply (step sound test).bind
      intro v means
      obtain ⟨b, rfl⟩ | ⟨n, rfl⟩ := bool_cases (test.reduces context means.2)
      · cases b with
        | true => exact ih sound yes
        | false => exact ih sound no
      · exact (step sound yes).bind fun _ _ => (step sound no).bind fun _ _ => trivial

theorem quote_faultless (fuel : Nat) :
    (∀ {Γ : List Bare} {v : Value} {A : Bare}, WellTyped Γ → Γ.length + fuel < 2 ^ 63 →
      v.Sound Γ.length → HasType Γ (v.term Γ.length) A →
      Outcome (· = .outOfFuel) (fun _ => True) (v.quote fuel (Int64.ofNat Γ.length))) ∧
    (∀ {Γ : List Bare} {n : Neutral} {A : Bare}, WellTyped Γ → Γ.length + fuel < 2 ^ 63 →
      n.Sound Γ.length → HasType Γ (n.term Γ.length) A →
      Outcome (· = .outOfFuel) (fun _ => True) (n.quote fuel (Int64.ofNat Γ.length))) := by
  induction fuel with
  | zero => exact ⟨fun _ _ _ _ => rfl, fun _ _ _ _ => rfl⟩
  | succ fuel ih =>
    obtain ⟨value, neutral⟩ := ih
    constructor
    · intro Γ v A context room sound typed
      have less : Γ.length + fuel < 2 ^ 63 := by omega
      cases v with
      | const c => trivial
      | neutral n => exact neutral context less sound typed
      | bind b dom x env body =>
        simp only [Value.quote, ofNat_succ]
        obtain ⟨k, B, domain, under⟩ := typed.bind_parts
        have inside : WellTyped (dom.term Γ.length :: Γ) := .cons context domain
        have fits : Γ.length + 1 < 2 ^ 63 := by omega
        have opening := sound.2.fresh x fits
        rw [← Env.subst_fresh sound.2 x fits] at under
        apply (value context less sound.1 domain).bind
        intro d _
        apply (eval_faultless inside opening under).bind
        intro opened means
        have openedTyped := under.reduces inside means.2
        refine (value inside ?_ means.1 openedTyped).bind fun u _ => trivial
        simp only [List.length_cons]
        omega
    · intro Γ n A context room sound typed
      have less : Γ.length + fuel < 2 ^ 63 := by omega
      cases n with
      | var x bound =>
        have index := toInt_level_sub sound.1 sound.2 (by omega)
        simp only [Neutral.quote, Int64.lt_iff_toInt_lt, index]
        rw [if_neg (by have := sound.2; simp; omega)]
        trivial
      | not n =>
        obtain ⟨operand, -⟩ := typed.generates
        exact (neutral (n := n) context less sound operand).bind fun _ _ => trivial
      | binop op l r =>
        obtain ⟨left, right, -⟩ := typed.generates
        exact (value context less sound.1 left).bind fun _ _ =>
          (value context less sound.2.1 right).bind fun _ _ => trivial
      | app f a =>
        obtain ⟨C, D, fn, arg, -⟩ := typed.generates
        exact (neutral context less sound.1 fn).bind fun _ _ =>
          (value context less sound.2 arg).bind fun _ _ => trivial
      | cond t y n =>
        obtain ⟨C, test, yes, no, -⟩ := typed.generates
        exact (neutral context less sound.1 test).bind fun _ _ =>
          (value context less sound.2.1 yes).bind fun _ _ =>
            (value context less sound.2.2 no).bind fun _ _ => trivial

/-- With any amount of fuel, the term has a normal form to which it reduces, or the fuel runs out. The
amount keeps the levels of binders from being wrapped around. -/
def Term.Faultless (scope : List Name) (t : Indexed) : Prop :=
  ∀ fuel, scope.length + fuel < 2 ^ 63 →
    Outcome (· = .outOfFuel) (Reads scope.length t.erase) (t.normalize fuel scope)

namespace Term.Faultless

theorem of_failures {scope : List Name} {t : Indexed}
    (failures : ∀ fuel, scope.length + fuel < 2 ^ 63 →
      Outcome (· = .outOfFuel) (fun _ => True) (t.normalize fuel scope)) : t.Faultless scope := by
  intro fuel room
  apply (failures fuel room).of_answer
  cases normalized : t.normalize fuel scope with
  | error h => trivial
  | ok n =>
    have bound := normalize_depth_lt normalized
    exact normalize_reads normalized (by omega)

/-- A typed term is faultless in any scope with a name for each variable of the context. -/
theorem of_typed {Γ : List Bare} {scope : List Name} {t : Indexed} {A : Bare}
    (context : WellTyped Γ) (length : Γ.length = scope.length) (typed : HasType Γ t.erase A) :
    t.Faultless scope := by
  apply of_failures
  intro fuel room
  have fits : scope.length < 2 ^ 63 := by omega
  have sound := Env.Sound.ofNames fits
  have identity := Env.subst_ofNames fits
  rw [← length] at sound identity
  have opened : HasType Γ (t.erase.subst (Env.subst Γ.length (Env.ofNames scope))) A := by
    rwa [identity, Bare.subst_var]
  unfold Term.normalize
  rw [← length] at room ⊢
  apply (eval_faultless context sound opened).bind
  intro v means
  exact (quote_faultless fuel).1 context room means.1 (opened.reduces context means.2)

/-- Once some fuel has led to a normal form, no fuel leads to a fault. -/
theorem of_normalize {fuel : Nat} {scope : List Name} {t n : Indexed}
    (normalized : t.normalize fuel scope = .ok n) : t.Faultless scope := by
  apply of_failures
  intro fuel' _
  by_cases finished : t.normalize fuel' scope = .error .outOfFuel
  · rw [finished]
    rfl
  · have more := normalize_mono (Nat.le_max_left fuel fuel') (by rw [normalized]; simp)
    have same := normalize_mono (Nat.le_max_right fuel fuel') finished
    rw [← same, more, normalized]
    trivial

theorem bind {scope : List Name} {b : Binder} {x : Name} {dom body : Indexed}
    (domain : dom.Faultless scope) (under : body.Faultless (x :: scope)) :
    (Term.bind b x dom body).Faultless scope := by
  intro fuel room
  cases fuel with
  | zero => rfl
  | succ fuel =>
    rw [normalize_bind]
    apply (domain fuel (by omega)).bind
    intro d domainReads
    refine (under fuel ?_).bind fun u underReads => domainReads.bind underReads
    simp only [List.length_cons]
    omega

end Term.Faultless
end DepCalc

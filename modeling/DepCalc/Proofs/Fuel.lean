import DepCalc.Proofs.Accounts

/-!
More fuel keeps a finished answer: evaluation, reading back, normalisation, conversion and inference
that do not run out of fuel give the same result, or the same fault, with any greater amount.
-/
namespace DepCalc

/-- A step may be replaced by one that agrees with it wherever it does not fail with `out`. -/
theorem bind_eq_of_finished {ε α β : Type} {out : ε} {x x' : Except ε α} {f f' : α → Except ε β}
    (first : x ≠ .error out → x' = x) (next : ∀ a, f a ≠ .error out → f' a = f a)
    (finished : (x >>= f) ≠ .error out) : (x' >>= f') = (x >>= f) := by
  cases x with
  | error e =>
    have same : x' = .error e := first fun h => finished (by rw [h]; rfl)
    rw [same]
    rfl
  | ok a =>
    have same : x' = .ok a := first (by simp)
    rw [same]
    exact next a finished

theorem eval_succ {fuel : Nat} {env : Env} {t : Indexed}
    (finished : eval fuel env t ≠ .error .outOfFuel) :
    eval (fuel + 1) env t = eval fuel env t := by
  induction fuel generalizing env t with
  | zero => exact absurd rfl finished
  | succ fuel ih =>
    cases t with
    | var v => rfl
    | const c => rfl
    | ascribe t type => exact ih finished
    | binop op l r =>
      exact bind_eq_of_finished ih (fun _ => bind_eq_of_finished ih fun _ _ => rfl) finished
    | not t => exact bind_eq_of_finished ih (fun _ _ => rfl) finished
    | bind b x dom body => exact bind_eq_of_finished ih (fun _ _ => rfl) finished
    | app f a =>
      refine bind_eq_of_finished ih (fun fn => bind_eq_of_finished ih fun arg h => ?_) finished
      cases fn with
      | const c => rfl
      | neutral n => rfl
      | bind b dom x captured body =>
        cases b with
        | lam => exact ih h
        | pi => rfl
        | sigma => rfl
    | cond t yes no =>
      refine bind_eq_of_finished ih (fun test h => ?_) finished
      cases test with
      | bind => rfl
      | neutral n => exact bind_eq_of_finished ih (fun _ => bind_eq_of_finished ih fun _ _ => rfl) h
      | const c =>
        cases c with
        | bool b => cases b <;> exact ih h
        | _ => rfl

theorem eval_mono {fuel more : Nat} {env : Env} {t : Indexed} (le : fuel ≤ more)
    (finished : eval fuel env t ≠ .error .outOfFuel) : eval more env t = eval fuel env t := by
  induction le with
  | refl => rfl
  | step _ ih => rw [eval_succ (ih ▸ finished), ih]

theorem quote_succ (fuel : Nat) :
    (∀ {level : Int64} {v : Value}, v.quote fuel level ≠ .error .outOfFuel →
      v.quote (fuel + 1) level = v.quote fuel level) ∧
    (∀ {level : Int64} {n : Neutral}, n.quote fuel level ≠ .error .outOfFuel →
      n.quote (fuel + 1) level = n.quote fuel level) := by
  induction fuel with
  | zero => exact ⟨fun h => absurd rfl h, fun h => absurd rfl h⟩
  | succ fuel ih =>
    obtain ⟨value, neutral⟩ := ih
    refine ⟨fun {level v} finished => ?_, fun {level n} finished => ?_⟩
    · cases v with
      | const c => rfl
      | neutral n => exact neutral finished
      | bind b dom x env body =>
        exact bind_eq_of_finished value (fun _ => bind_eq_of_finished eval_succ fun _ =>
          bind_eq_of_finished value fun _ _ => rfl) finished
    · cases n with
      | var x bound => rfl
      | not n => exact bind_eq_of_finished neutral (fun _ _ => rfl) finished
      | binop op l r =>
        exact bind_eq_of_finished value (fun _ => bind_eq_of_finished value fun _ _ => rfl) finished
      | app f a =>
        exact bind_eq_of_finished neutral (fun _ => bind_eq_of_finished value fun _ _ => rfl) finished
      | cond t y n =>
        exact bind_eq_of_finished neutral (fun _ => bind_eq_of_finished value fun _ =>
          bind_eq_of_finished value fun _ _ => rfl) finished

theorem quote_mono {fuel more : Nat} {level : Int64} {v : Value} (le : fuel ≤ more)
    (finished : v.quote fuel level ≠ .error .outOfFuel) :
    v.quote more level = v.quote fuel level := by
  induction le with
  | refl => rfl
  | step _ ih => rw [(quote_succ _).1 (ih ▸ finished), ih]

theorem normalize_mono {fuel more : Nat} {scope : List Name} {t : Indexed} (le : fuel ≤ more)
    (finished : t.normalize fuel scope ≠ .error .outOfFuel) :
    t.normalize more scope = t.normalize fuel scope :=
  bind_eq_of_finished (eval_mono le) (fun _ => quote_mono le) finished

theorem convertible_mono {fuel more : Nat} {scope : List Name} {s t : Indexed} (le : fuel ≤ more)
    (finished : s.convertible fuel scope t ≠ .error .outOfFuel) :
    s.convertible more scope t = s.convertible fuel scope t :=
  bind_eq_of_finished (normalize_mono le)
    (fun _ => bind_eq_of_finished (normalize_mono le) fun _ _ => rfl) finished

/-- Nothing but lack of fuel depends on the fuel. -/
theorem outcome_unique {ε α : Type} {out : ε} {run : Nat → Except ε α}
    (mono : ∀ fuel more, fuel ≤ more → run fuel ≠ .error out → run more = run fuel)
    {fuel fuel' : Nat} (first : run fuel ≠ .error out) (second : run fuel' ≠ .error out) :
    run fuel = run fuel' := by
  rw [← mono fuel _ (Nat.le_max_left fuel fuel') first,
    mono fuel' _ (Nat.le_max_right fuel fuel') second]

theorem answer_unique {ε α : Type} {out : ε} {run : Nat → Except ε α}
    (mono : ∀ fuel more, fuel ≤ more → run fuel ≠ .error out → run more = run fuel)
    {fuel fuel' : Nat} {a b : α} (first : run fuel = .ok a) (second : run fuel' = .ok b) : a = b := by
  have left : run fuel ≠ .error out := by simp [first]
  have right : run fuel' ≠ .error out := by simp [second]
  have same := outcome_unique mono left right
  rw [first, second] at same
  injection same

theorem normalize_unique {fuel fuel' : Nat} {scope : List Name} {t n m : Indexed}
    (first : t.normalize fuel scope = .ok n) (second : t.normalize fuel' scope = .ok m) : n = m :=
  answer_unique (fun _ _ => normalize_mono) first second

theorem convertible_unique {fuel fuel' : Nat} {scope : List Name} {s t : Indexed} {a b : Bool}
    (first : s.convertible fuel scope t = .ok a) (second : s.convertible fuel' scope t = .ok b) :
    a = b :=
  answer_unique (fun _ _ => convertible_mono) first second

theorem mapError_halted_eq {α : Type} {x x' : Except Halt α} (same : x ≠ .error .outOfFuel → x' = x)
    (finished : x.mapError Rejection.halted ≠ .error (.halted .outOfFuel)) :
    x'.mapError Rejection.halted = x.mapError Rejection.halted := by
  rw [same]
  rintro rfl
  exact finished rfl

namespace AlikeUnless

variable {ε α : Type} {out : ε} {x y : Except ε α}

theorem of_finished (same : x ≠ .error out → y = x) : AlikeUnless out Eq Eq x y := by
  by_cases lacks : x = .error out
  · exact .inl lacks
  · rw [same lacks]
    cases x with
    | error e => exact .inr rfl
    | ok a => exact .inr rfl

theorem eq_of_finished (alike : AlikeUnless out Eq Eq x y) (finished : x ≠ .error out) : y = x := by
  have both := alike.resolve_left finished
  cases x with
  | error e =>
    cases y with
    | error e' => exact congrArg Except.error (Eq.symm both)
    | ok b => exact both.elim
  | ok a =>
    cases y with
    | error e' => exact both.elim
    | ok b => exact congrArg Except.ok (Eq.symm both)

end AlikeUnless

namespace Context

variable {fuel more : Nat} {Γ : Context}

theorem equate_mono {s t : Indexed} {cause : TypeError} (le : fuel ≤ more)
    (finished : Γ.equate fuel s t cause ≠ .error (.halted .outOfFuel)) :
    Γ.equate more s t cause = Γ.equate fuel s t cause :=
  bind_eq_of_finished (mapError_halted_eq (convertible_mono le)) (fun _ _ => rfl) finished

theorem universeLevel_mono {t type : Indexed} (le : fuel ≤ more)
    (finished : Γ.universeLevel fuel t type ≠ .error (.halted .outOfFuel)) :
    Γ.universeLevel more t type = Γ.universeLevel fuel t type :=
  bind_eq_of_finished (mapError_halted_eq (normalize_mono le)) (fun _ _ => rfl) finished

theorem functionType_mono {f type : Indexed} (le : fuel ≤ more)
    (finished : Γ.functionType fuel f type ≠ .error (.halted .outOfFuel)) :
    Γ.functionType more f type = Γ.functionType fuel f type :=
  bind_eq_of_finished (mapError_halted_eq (normalize_mono le)) (fun _ _ => rfl) finished

/-- Inference with more fuel takes the same course, unless there was too little. -/
abbrev steadiness : Comparison where
  Before Γ Γ' t t' := Γ = Γ' ∧ t = t'
  After _ _ := Eq
  Function _ _ := Eq

theorem steadiness_holds (le : fuel ≤ more) :
    steadiness.Holds (.alikeUnless (.halted .outOfFuel) Eq) fuel more where
  sameForm ready := ready.2 ▸ .refl _
  parts := by
    rintro Γ _ t _ ⟨rfl, rfl⟩
    rw [List.forall₂_same]
    exact fun s _ => ⟨rfl, rfl⟩
  body := by
    rintro Γ _ b x x' dom dom' body body' ⟨rfl, same⟩
    cases same
    exact ⟨rfl, rfl⟩
  constant _ _ := rfl
  argument _ same := congrArg Prod.fst same
  ascribed ready := (Term.ascribe.inj ready.2).2
  expect := by
    rintro Γ _ t _ type _ expected _ ⟨rfl, rfl⟩ rfl rfl
    exact .of_finished (equate_mono le)
  function := by
    rintro Γ _ f _ type _ ⟨rfl, rfl⟩ rfl
    exact .of_finished (functionType_mono le)
  universeLevel := by
    rintro Γ _ t _ type _ ⟨rfl, rfl⟩ rfl
    exact .of_finished (universeLevel_mono le)
  branches := by
    rintro Γ _ t _ yes _ no _ ⟨rfl, rfl⟩ rfl rfl
    exact .of_finished (equate_mono le)
  var := by
    rintro Γ _ v v' ⟨rfl, same⟩
    cases same
    exact .of_finished fun _ => rfl
  app := by
    rintro Γ _ f f' a a' p _ ⟨-, same⟩ rfl
    cases same
    rfl
  lam := by
    rintro Γ _ x x' dom dom' body body' bodyType _ ⟨-, same⟩ rfl
    cases same
    rfl

theorem infer_mono {t : Indexed} (le : fuel ≤ more)
    (finished : Γ.infer fuel t ≠ .error (.halted .outOfFuel)) :
    Γ.infer more t = Γ.infer fuel t :=
  ((steadiness_holds le).infer ⟨rfl, rfl⟩).eq_of_finished finished

theorem infer_unique {fuel fuel' : Nat} {t type type' : Indexed} (first : Γ.infer fuel t = .ok type)
    (second : Γ.infer fuel' t = .ok type') : type = type' :=
  answer_unique (fun _ _ => infer_mono) first second

end Context

end DepCalc

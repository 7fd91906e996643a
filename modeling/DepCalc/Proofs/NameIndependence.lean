import DepCalc.Proofs.Accounts
import DepCalc.Proofs.Weakening

/-!
Names never matter. Evaluation, reading back, normalisation and the steps of inference commute with
forgetting all names, those in faults and type errors included. So two runs on terms, scopes and
contexts that differ in names only end alike, with the same fuel. Indices may be anything here, and
may wrap around.
-/
namespace DepCalc

section MapBoth

variable {ε ε' α α' β β' : Type} {f : ε → ε'} {g : α → α'} {k : β → β'}

/-- The computation with its failure and its answer mapped. -/
def mapBoth (f : ε → ε') (g : α → α') : Except ε α → Except ε' α'
  | .ok a => .ok (g a)
  | .error e => .error (f e)

theorem mapBoth_bind {x : Except ε α} {next : α → Except ε β} {next' : α' → Except ε' β'}
    (same : ∀ a, next' (g a) = mapBoth f k (next a)) :
    (mapBoth f g x >>= next') = mapBoth f k (x >>= next) := by
  cases x with
  | error e => rfl
  | ok a => exact same a

end MapBoth

namespace Term

theorem forgetNames_shift (d c : Int64) (t : Indexed) :
    (t.shift d c).forgetNames = t.forgetNames.shift d c := by
  induction t generalizing c with
  | var v =>
    simp only [shift, forgetNames]
    split <;> rfl
  | _ => simp_all [shift, forgetNames]

theorem forgetNames_subst (j : Int64) (s t : Indexed) :
    (subst j s t).forgetNames = subst j s.forgetNames t.forgetNames := by
  induction t generalizing j s with
  | var v =>
    simp only [subst, forgetNames]
    split <;> rfl
  | _ => simp_all [subst, forgetNames, forgetNames_shift]

theorem forgetNames_instantiate (s body : Indexed) :
    (instantiate s body).forgetNames = instantiate s.forgetNames body.forgetNames := by
  rw [instantiate, forgetNames_shift, forgetNames_subst, forgetNames_shift, instantiate]

end Term

mutual

def Value.forgetNames : Value → Value
  | .const c => .const c
  | .bind b dom _ env body => .bind b dom.forgetNames "" (Env.forgetNames env) body.forgetNames
  | .neutral n => .neutral n.forgetNames

def Neutral.forgetNames : Neutral → Neutral
  | .var _ level => .var "" level
  | .binop op l r => .binop op l.forgetNames r.forgetNames
  | .not n => .not n.forgetNames
  | .app f a => .app f.forgetNames a.forgetNames
  | .cond t y n => .cond t.forgetNames y.forgetNames n.forgetNames

def Env.forgetNames : List Value → List Value
  | [] => []
  | v :: rest => v.forgetNames :: Env.forgetNames rest

end

def Halt.forgetNames : Halt → Halt
  | outOfScope _ bound level => outOfScope "" bound level
  | h => h

/-- The names that stand for forgotten ones. -/
def blank (scope : List Name) : List Name := scope.map fun _ => ""

theorem Env.forgetNames_eq_map (env : Env) : Env.forgetNames env = env.map Value.forgetNames := by
  induction env with
  | nil => rfl
  | cons v rest ih => rw [Env.forgetNames, ih, List.map_cons]

theorem Env.forgetNames_ofNames (scope : List Name) :
    Env.forgetNames (Env.ofNames scope) = Env.ofNames (blank scope) := by
  unfold Env.ofNames blank
  rw [List.length_map]
  generalize Int64.ofNat scope.length = level
  induction scope generalizing level with
  | nil => rfl
  | cons x rest ih => exact congrArg (Value.fresh "" level :: ·) (ih (level - 1))

theorem Value.kind_forgetNames (v : Value) : v.forgetNames.kind = v.kind := by
  cases v with
  | const c => rfl
  | neutral n => rfl
  | bind b dom x env body => cases b <;> rfl

theorem atIndex?_map {α β : Type} (f : α → β) (entries : List α) (ix : Int64) :
    atIndex? (entries.map f) ix = (atIndex? entries ix).map f := by
  unfold atIndex?
  split
  · rfl
  · exact List.getElem?_map

theorem lookup_forgetNames (env : Env) (ix : Int64) :
    Env.lookup (Env.forgetNames env) ix =
      mapBoth Halt.forgetNames Value.forgetNames (env.lookup ix) := by
  rw [Env.forgetNames_eq_map, Env.lookup, Env.lookup, atIndex?_map, List.length_map]
  cases atIndex? env ix with
  | none => rfl
  | some v => rfl

theorem negate_forgetNames (v : Value) :
    v.forgetNames.negate = mapBoth Halt.forgetNames Value.forgetNames v.negate := by
  cases v with
  | const c => cases c <;> rfl
  | neutral n => rfl
  | bind b dom x env body => cases b <;> rfl

theorem onValues_forgetNames (op : Operator) (l r : Value) :
    op.onValues l.forgetNames r.forgetNames =
      mapBoth Halt.forgetNames Value.forgetNames (op.onValues l r) := by
  cases l with
  | neutral n => rfl
  | bind b dom x env body =>
    cases r with
    | neutral n => rfl
    | const c => cases b <;> rfl
    | bind b' dom' x' env' body' => cases b <;> cases b' <;> rfl
  | const c =>
    cases r with
    | neutral n => rfl
    | bind b dom x env body => cases b <;> rfl
    | const d =>
      simp only [Value.forgetNames, Operator.onValues]
      cases op.compute? c d <;> rfl

theorem eval_forgetNames (fuel : Nat) (env : Env) (t : Indexed) :
    eval fuel (Env.forgetNames env) t.forgetNames =
      mapBoth Halt.forgetNames Value.forgetNames (eval fuel env t) := by
  induction fuel generalizing env t with
  | zero => rfl
  | succ fuel ih =>
    cases t with
    | var v => exact lookup_forgetNames env v.ix
    | const c => rfl
    | ascribe t type => exact ih env t
    | binop op l r =>
      simp only [Term.forgetNames, eval, ih]
      apply mapBoth_bind
      intro left
      apply mapBoth_bind
      intro right
      exact onValues_forgetNames op left right
    | not t =>
      simp only [Term.forgetNames, eval, ih]
      apply mapBoth_bind
      intro operand
      exact negate_forgetNames operand
    | bind b x dom body =>
      simp only [Term.forgetNames, eval, ih]
      apply mapBoth_bind
      intro domain
      rfl
    | app f a =>
      simp only [Term.forgetNames, eval, ih]
      apply mapBoth_bind
      intro fn
      apply mapBoth_bind
      intro arg
      cases fn with
      | const c => exact congrArg (Except.error ∘ Halt.cannotApply) (Value.kind_forgetNames _)
      | neutral n => rfl
      | bind b dom x captured body =>
        cases b with
        | lam => exact ih (arg :: captured) body
        | pi => rfl
        | sigma => rfl
    | cond t y n =>
      simp only [Term.forgetNames, eval, ih]
      apply mapBoth_bind
      intro test
      cases test with
      | bind b dom x captured body => cases b <;> rfl
      | neutral stuck =>
        simp only [Value.forgetNames]
        apply mapBoth_bind
        intro yes
        apply mapBoth_bind
        intro no
        rfl
      | const c =>
        cases c with
        | bool b => cases b <;> rfl
        | _ => rfl

theorem quote_forgetNames (fuel : Nat) :
    (∀ (level : Int64) (v : Value), v.forgetNames.quote fuel level =
      mapBoth Halt.forgetNames Term.forgetNames (v.quote fuel level)) ∧
    (∀ (level : Int64) (n : Neutral), n.forgetNames.quote fuel level =
      mapBoth Halt.forgetNames Term.forgetNames (n.quote fuel level)) := by
  induction fuel with
  | zero => exact ⟨fun _ _ => rfl, fun _ _ => rfl⟩
  | succ fuel ih =>
    obtain ⟨value, neutral⟩ := ih
    constructor
    · intro level v
      cases v with
      | const c => rfl
      | neutral n => exact neutral level n
      | bind b dom x env body =>
        have opening := eval_forgetNames fuel (Value.fresh x (level + 1) :: env) body
        simp only [Value.forgetNames, Value.quote, value]
        apply mapBoth_bind
        intro d
        rw [Env.forgetNames] at opening
        rw [show Value.fresh "" (level + 1) = (Value.fresh x (level + 1)).forgetNames from rfl, opening]
        apply mapBoth_bind
        intro opened
        rw [value]
        apply mapBoth_bind
        intro u
        rfl
    · intro level n
      cases n with
      | var x bound =>
        simp only [Neutral.forgetNames, Neutral.quote]
        split <;> rfl
      | binop op l r =>
        simp only [Neutral.forgetNames, Neutral.quote, value]
        apply mapBoth_bind
        intro left
        apply mapBoth_bind
        intro right
        rfl
      | not n =>
        simp only [Neutral.forgetNames, Neutral.quote, neutral]
        apply mapBoth_bind
        intro operand
        rfl
      | app f a =>
        simp only [Neutral.forgetNames, Neutral.quote, value, neutral]
        apply mapBoth_bind
        intro fn
        apply mapBoth_bind
        intro arg
        rfl
      | cond t y n =>
        simp only [Neutral.forgetNames, Neutral.quote, value, neutral]
        apply mapBoth_bind
        intro test
        apply mapBoth_bind
        intro yes
        apply mapBoth_bind
        intro no
        rfl

namespace Term

theorem normalize_forgetNames (fuel : Nat) (scope : List Name) (t : Indexed) :
    t.forgetNames.normalize fuel (blank scope) =
      mapBoth Halt.forgetNames forgetNames (t.normalize fuel scope) := by
  have sameLength : (blank scope).length = scope.length := List.length_map _
  simp only [normalize, ← Env.forgetNames_ofNames, eval_forgetNames, sameLength]
  apply mapBoth_bind
  intro v
  exact (quote_forgetNames fuel).1 _ v

end Term

/-- The same cause, told without names. -/
def TypeError.forgetNames : TypeError → TypeError
  | unknownVariable _ => unknownVariable ""
  | notFunction scope fn type => notFunction (blank scope) fn.forgetNames type.forgetNames
  | notType scope t type => notType (blank scope) t.forgetNames type.forgetNames
  | mismatch scope t type expected =>
    mismatch (blank scope) t.forgetNames type.forgetNames expected.forgetNames
  | branches scope yes no => branches (blank scope) yes.forgetNames no.forgetNames

def Rejection.forgetNames : Rejection → Rejection
  | halted h => halted h.forgetNames
  | illTyped e => illTyped e.forgetNames

theorem mapError_halted {α β : Type} {g : α → β} (x : Except Halt α) :
    (mapBoth Halt.forgetNames g x).mapError Rejection.halted =
      mapBoth Rejection.forgetNames g (x.mapError .halted) := by
  cases x with
  | error h => rfl
  | ok a => rfl

namespace Context

def forgetNames (Γ : Context) : Context :=
  Γ.map fun binding => ⟨"", binding.type.forgetNames⟩

theorem names_forgetNames (Γ : Context) : Γ.forgetNames.names = blank Γ.names := by
  simp [forgetNames, names, blank]

variable {fuel : Nat}

theorem normalize_forgetNames (Γ : Context) (t : Indexed) :
    Γ.forgetNames.normalize fuel t.forgetNames =
      mapBoth Rejection.forgetNames Term.forgetNames (Γ.normalize fuel t) := by
  rw [normalize, names_forgetNames, Term.normalize_forgetNames, mapError_halted, normalize]

end Context

/-- The same fault, but for the name that a variable out of scope is told by. -/
def Halt.AlphaEq (h h' : Halt) : Prop :=
  h.forgetNames = h'.forgetNames

/-- Two faults of normalisation or two type errors, the same but for the names they tell. -/
def Rejection.AlphaEq (e e' : Rejection) : Prop :=
  e.forgetNames = e'.forgetNames

/-- Contexts of one length whose types are pairwise the same up to names. -/
def Context.AlphaEq (Γ Γ' : Context) : Prop :=
  List.Forall₂ (fun binding binding' => binding.type.AlphaEq binding'.type) Γ Γ'

theorem Alike.of_mapBoth_eq {ε α : Type} {f : ε → ε} {g : α → α} {x y : Except ε α}
    (same : mapBoth f g x = mapBoth f g y) :
    Alike (fun e e' => f e = f e') (fun a b => g a = g b) x y := by
  cases x with
  | error e =>
    cases y with
    | error e' => exact Except.error.inj same
    | ok b => cases same
  | ok a =>
    cases y with
    | error e' => cases same
    | ok b => exact Except.ok.inj same

theorem Term.AlphaEq.normalize_alike (fuel : Nat) {scope scope' : List Name} {t t' : Indexed}
    (sameLength : scope.length = scope'.length) (terms : t.AlphaEq t') :
    Alike Halt.AlphaEq Term.AlphaEq (t.normalize fuel scope) (t'.normalize fuel scope') := by
  have blanks : blank scope = blank scope' := by
    simp [blank, List.map_const', sameLength]
  apply Alike.of_mapBoth_eq
  rw [← Term.normalize_forgetNames, ← Term.normalize_forgetNames, blanks, terms]

theorem Term.parts_forgetNames (t : Indexed) : t.forgetNames.parts = t.parts.map forgetNames := by
  cases t <;> rfl

theorem SameForm.forgetNames (t : Indexed) : SameForm t t.forgetNames := by
  cases t <;> constructor

theorem SameForm.of_alphaEq {t t' : Indexed} (same : t.AlphaEq t') : SameForm t t' :=
  (forgetNames t).trans (same ▸ (forgetNames t').symm)

theorem Term.AlphaEq.parts {t t' : Indexed} (same : t.AlphaEq t') :
    List.Forall₂ AlphaEq t.parts t'.parts := by
  have parts : List.Forall₂ Eq (t.parts.map forgetNames) (t'.parts.map forgetNames) := by
    rw [List.forall₂_eq_eq_eq, ← parts_forgetNames, ← parts_forgetNames, same]
  rwa [List.forall₂_map_left_iff, List.forall₂_map_right_iff] at parts

end DepCalc

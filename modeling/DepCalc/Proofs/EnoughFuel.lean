import DepCalc.Proofs.Bare.Halting
import DepCalc.Proofs.Meaning

/-!
Where the fuel suffices. A term that halts has a normal form, or a fault, for some amount of fuel and
for all greater ones. Evaluation and reading back follow steps of reduction and descents into parts,
which come to an end; that levels are words, and may wrap around, does not matter.
-/
namespace DepCalc

open Bare (Below Halts Atom Reduces)

/-- From some amount of fuel on the outcome is the same, it is not the failure `out`, and `holds` is
true of the answer if there is one. -/
def Finishes {ε α : Type} (out : ε) (holds : α → Prop) (run : Nat → Except ε α) : Prop :=
  ∃ enough outcome, (∀ fuel ≥ enough, run fuel = outcome) ∧ Outcome (· ≠ out) holds outcome

namespace Finishes

variable {ε α β : Type} {out : ε} {holds : α → Prop} {run : Nat → Except ε α}

/-- A computation that takes no fuel. -/
theorem of_outcome {outcome : Except ε α} (known : Outcome (· ≠ out) holds outcome) :
    Finishes out holds fun _ => outcome :=
  ⟨0, outcome, fun _ _ => rfl, known⟩

theorem of_ne {outcome : Except ε α} (finished : outcome ≠ .error out) :
    Finishes out (fun _ => True) fun _ => outcome := by
  apply of_outcome
  cases outcome with
  | ok a => trivial
  | error e => exact fun same => finished (congrArg _ same)

/-- A computation that needs no fuel itself hands on all but one of what it has. -/
theorem succ (finishes : Finishes out holds fun fuel => run (fuel + 1)) :
    Finishes out holds run := by
  obtain ⟨enough, outcome, settled, known⟩ := finishes
  refine ⟨enough + 1, outcome, fun fuel more => ?_, known⟩
  cases fuel with
  | zero => omega
  | succ fuel => exact settled fuel (by omega)

theorem mono {holds' : α → Prop} (finishes : Finishes out holds run)
    (weaker : ∀ a, holds a → holds' a) : Finishes out holds' run := by
  obtain ⟨enough, outcome, settled, known⟩ := finishes
  exact ⟨enough, outcome, settled, known.mono weaker⟩

/-- What is true of the answers with any amount of fuel is true of the one that is settled on. -/
theorem and {holds' : α → Prop} (finishes : Finishes out holds run)
    (answers : ∀ fuel, Outcome (fun _ => True) holds' (run fuel)) :
    Finishes out (fun a => holds a ∧ holds' a) run := by
  obtain ⟨enough, outcome, settled, known⟩ := finishes
  have answer := answers enough
  rw [settled enough (Nat.le_refl _)] at answer
  exact ⟨enough, outcome, settled, known.and answer⟩

theorem bind {holds' : β → Prop} {next : Nat → α → Except ε β}
    (first : Finishes out holds run)
    (after : ∀ a, holds a → Finishes out holds' fun fuel => next fuel a) :
    Finishes out holds' fun fuel => run fuel >>= next fuel := by
  obtain ⟨enough, outcome, settled, known⟩ := first
  cases outcome with
  | error e =>
    refine ⟨enough, .error e, fun fuel more => ?_, known⟩
    simp only [settled fuel more]
    rfl
  | ok a =>
    obtain ⟨further, outcome, settled', known'⟩ := after a known
    refine ⟨max enough further, outcome, fun fuel more => ?_, known'⟩
    simp only [settled fuel (by omega)]
    exact settled' fuel (by omega)

theorem mapError {ε' : Type} {f : ε → ε'} (injective : ∀ e, f e = f out → e = out)
    (finishes : Finishes out holds run) :
    Finishes (f out) holds fun fuel => (run fuel).mapError f := by
  obtain ⟨enough, outcome, settled, known⟩ := finishes
  refine ⟨enough, outcome.mapError f, fun fuel more => congrArg _ (settled fuel more), ?_⟩
  exact known.mapError fun e other same => other (injective e same)

end Finishes

theorem lookup_finished (env : Env) (ix : Int64) : env.lookup ix ≠ .error .outOfFuel := by
  unfold Env.lookup
  split <;> simp

theorem negate_finished (v : Value) : v.negate ≠ .error .outOfFuel := by
  unfold Value.negate
  split <;> simp

theorem onValues_finished (op : Operator) (l r : Value) :
    op.onValues l r ≠ .error .outOfFuel := by
  unfold Operator.onValues
  split
  · split <;> simp
  all_goals simp

/-- The value of a term that halts once the environment has been put into it. The induction is on
steps and descents from there; the value of an ascribed term is that of the same bare term. -/
theorem eval_finishes {level : Nat} (env : Env) (t : Indexed)
    (halts : Acc Below (t.erase.subst (Env.subst level env))) :
    Finishes Halt.outOfFuel
      (fun v => Reduces (t.erase.subst (Env.subst level env)) (v.term level))
      fun fuel => eval fuel env t := by
  generalize whole : t.erase.subst (Env.subst level env) = u at halts
  induction halts generalizing env t with
  | intro u acc ih =>
    clear acc
    subst whole
    -- What the value means is known for all fuel; what is left to see is that it is reached.
    suffices reached : Finishes Halt.outOfFuel (fun _ => True) fun fuel => eval fuel env t by
      apply (reached.and fun fuel => eval_follows level fuel env t).mono
      intro v known
      exact known.2.2
    have part : ∀ s : Indexed, Below (s.erase.subst (Env.subst level env))
        (t.erase.subst (Env.subst level env)) → Finishes Halt.outOfFuel
          (fun v => Reduces (s.erase.subst (Env.subst level env)) (v.term level))
          fun fuel => eval fuel env s :=
      fun s below => ih _ below env s rfl
    induction t with
    | var v => exact (Finishes.of_ne (lookup_finished env v.ix)).succ
    | const c => exact (Finishes.of_ne (by simp)).succ
    | ascribe t type subject _ => exact (subject ih part).succ
    | binop op l r =>
      apply Finishes.succ
      apply (part l (.of_part (.left _ _ _))).bind
      intro left _
      apply (part r (.of_part (.right _ _ _))).bind
      intro right _
      exact .of_ne (onValues_finished op left right)
    | not t =>
      apply Finishes.succ
      apply (part t (.of_part (.operand _))).bind
      intro operand _
      exact .of_ne (negate_finished operand)
    | bind b x dom body =>
      apply Finishes.succ
      apply (part dom (.of_part (.dom _ _ _))).bind
      intro domain _
      exact .of_ne (by simp)
    | app f a =>
      apply Finishes.succ
      apply (part f (.of_part (.fn _ _))).bind
      intro fn fnReduces
      apply (part a (.of_part (.arg _ _))).bind
      intro arg argReduces
      cases fn with
      | const c => exact .of_ne (by simp)
      | neutral n => exact .of_ne (by simp)
      | bind b dom x captured body =>
        cases b with
        | pi => exact .of_ne (by simp)
        | sigma => exact .of_ne (by simp)
        | lam =>
          have below := Below.of_beta (fnReduces.app argReduces)
          rw [Bare.inst_subst_up] at below
          have called := ih _ below (arg :: captured) body rfl
          exact called.mono fun _ _ => trivial
    | cond t y n =>
      apply Finishes.succ
      apply (part t (.of_part (.test _ _ _))).bind
      intro test _
      have yes := part y (.of_part (.yes _ _ _))
      have no := part n (.of_part (.no _ _ _))
      cases test with
      | bind b dom x captured body => exact .of_ne (by simp)
      | neutral stuck =>
        apply yes.bind
        intro _ _
        apply no.bind
        intro _ _
        exact .of_ne (by simp)
      | const c =>
        cases c with
        | bool b =>
          cases b with
          | true => exact yes.mono fun _ _ => trivial
          | false => exact no.mono fun _ _ => trivial
        | _ => exact .of_ne (by simp)

/-- A fresh variable stands for some variable, whatever its level. -/
theorem Value.atom_fresh (level : Nat) (x : Name) (bound : Int64) :
    Atom ((Value.fresh x bound).term level) :=
  .ofIndex _

/-- The parts of a neutral value are below it, so the two halves are shown together: first for neutral
values and then for all. -/
theorem quote_finishes {level : Nat} {u : Bare} (halts : Acc Below u) :
    (∀ (n : Neutral) (word : Int64), n.term level = u →
      Finishes Halt.outOfFuel (fun _ => True) fun fuel => n.quote fuel word) ∧
    (∀ (v : Value) (word : Int64), v.term level = u →
      Finishes Halt.outOfFuel (fun _ => True) fun fuel => v.quote fuel word) := by
  induction halts with
  | intro u acc ih =>
    have neutral : ∀ (n : Neutral) (word : Int64), n.term level = u →
        Finishes Halt.outOfFuel (fun _ => True) fun fuel => n.quote fuel word := by
      rintro n word rfl
      apply Finishes.succ
      cases n with
      | var x bound =>
        simp only [Neutral.quote]
        split <;> exact .of_ne (by simp)
      | binop op l r =>
        apply ((ih _ (.of_part (.left _ _ _))).2 l word rfl).bind
        intro _ _
        apply ((ih _ (.of_part (.right _ _ _))).2 r word rfl).bind
        intro _ _
        exact .of_ne (by simp)
      | not n =>
        apply ((ih _ (.of_part (.operand _))).1 n word rfl).bind
        intro _ _
        exact .of_ne (by simp)
      | app f a =>
        apply ((ih _ (.of_part (.fn _ _))).1 f word rfl).bind
        intro _ _
        apply ((ih _ (.of_part (.arg _ _))).2 a word rfl).bind
        intro _ _
        exact .of_ne (by simp)
      | cond t y n =>
        apply ((ih _ (.of_part (.test _ _ _))).1 t word rfl).bind
        intro _ _
        apply ((ih _ (.of_part (.yes _ _ _))).2 y word rfl).bind
        intro _ _
        apply ((ih _ (.of_part (.no _ _ _))).2 n word rfl).bind
        intro _ _
        exact .of_ne (by simp)
    refine ⟨neutral, ?_⟩
    rintro v word rfl
    apply Finishes.succ
    cases v with
    | const c => exact .of_ne (by simp)
    | neutral n => exact neutral n word rfl
    | bind b dom x env body =>
      apply ((ih _ (.of_part (.dom _ _ _))).2 dom word rfl).bind
      intro _ _
      -- The body is opened with a fresh variable, which is a descent into it.
      have opening := Below.of_part (.body b (dom.term level)
        (body.erase.subst (Bare.up (Env.subst level env))) (Value.atom_fresh level x (word + 1)))
      rw [Bare.inst_subst_up] at opening
      apply (eval_finishes (Value.fresh x (word + 1) :: env) body (acc _ opening)).bind
      intro opened reduces
      apply ((ih _ (opening.on reduces)).2 opened (word + 1) rfl).bind
      intro _ _
      exact .of_ne (by simp)

theorem Env.atoms_descending (level : Nat) (bound : Int64) (names : List Name) (i : Nat) :
    Atom (Env.subst level (Env.descending bound names) i) := by
  induction names generalizing bound i with
  | nil => exact .var _
  | cons x rest ih =>
    cases i with
    | zero => exact Value.atom_fresh level x bound
    | succ i => exact ih (bound - 1) i

/-- Normalising the term comes to an end, in a normal form or a fault. -/
def Term.Normalizable (scope : List Name) (t : Indexed) : Prop :=
  Finishes Halt.outOfFuel (fun _ => True) fun fuel => t.normalize fuel scope

theorem normalizable_of_halts {t : Indexed} (halts : Halts t.erase) (scope : List Name) :
    t.Normalizable scope := by
  have atoms := Env.atoms_descending 0 (Int64.ofNat scope.length) scope
  have acc := (halts.subst_atoms atoms).acc_below
  apply (eval_finishes (Env.ofNames scope) t acc).bind
  intro v reduces
  exact (quote_finishes ((halts.subst_atoms atoms).reduces reduces).acc_below).2 v _ rfl

end DepCalc

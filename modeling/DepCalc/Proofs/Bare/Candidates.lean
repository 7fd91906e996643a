import DepCalc.Proofs.Bare.Halting
import DepCalc.Proofs.Bare.Typing
import DepCalc.Proofs.Widening

/-!
Sets of halting terms as the meanings of types. A candidate is a set of halting terms that is closed
under steps, and under going back a step where no term former of the language observes the
difference. The meaning of a type is found from what the type reduces to: a function type means the
functions from its domain into its codomains, a universe the types that have a meaning below it, and
every other type all halting terms. Universes are given meanings in the order of their levels, so
that no level may be followed by a lesser one; the greatest word is followed by the least. Main
result: a type has one meaning at most, and keeps it under reduction.
-/
namespace DepCalc.Bare

/-- Neither a constant nor a binder, so that putting the term into a place makes no redex. -/
def Passive : Bare → Prop
  | .const _ | .bind .. => False
  | _ => True

structure Candidate where
  contains : Bare → Prop
  halts : ∀ {t}, contains t → Halts t
  step : ∀ {t u}, contains t → Step t u → contains u
  expand : ∀ {t}, Passive t → (∀ u, Step t u → contains u) → contains t

namespace Candidate

theorem ext {P Q : Candidate} (same : ∀ t, P.contains t ↔ Q.contains t) : P = Q := by
  have sets : P.contains = Q.contains := funext fun t => propext (same t)
  cases P
  cases Q
  cases sets
  rfl

theorem steps (P : Candidate) {t u : Bare} (member : P.contains t) (steps : Steps t u) :
    P.contains u := by
  induction steps with
  | refl => exact member
  | tail _ step ih => exact P.step ih step

theorem var (P : Candidate) (i : Nat) : P.contains (.var i) :=
  P.expand trivial fun _ step => nomatch step

/-- All terms that halt. -/
def halting : Candidate where
  contains := Halts
  halts := id
  step := Halts.step
  expand := fun _ => .of_steps

theorem beta (P : Candidate) {dom body s : Bare} (domain : Halts dom) (under : Halts body)
    (arg : Halts s) (contracted : P.contains (inst s body)) :
    P.contains (.app (.bind .lam dom body) s) := by
  induction domain generalizing body s with
  | intro dom domHalts domIh =>
    induction under generalizing s with
    | intro body bodyHalts bodyIh =>
      induction arg with
      | intro s argHalts argIh =>
        apply P.expand (t := .app (.bind .lam dom body) s) trivial
        intro u step
        cases step with
        | beta => exact contracted
        | appArg _ argStep =>
          have reduced : Reduces (inst s body) (inst _ body) := argStep.reduces.inst (.refl body)
          exact argIh _ argStep (P.steps contracted reduced.steps)
        | appFn _ fnStep =>
          cases fnStep with
          | bindDom _ domStep =>
            exact domIh _ domStep (.intro body bodyHalts) (.intro s argHalts) contracted
          | bindBody _ bodyStep =>
            exact bodyIh _ bodyStep (.intro s argHalts) (P.step contracted (bodyStep.subst _))

theorem cond (P : Candidate) {t y n : Bare} (test : Halts t) (yes : P.contains y)
    (no : P.contains n) : P.contains (.cond t y n) := by
  have yesHalts := P.halts yes
  have noHalts := P.halts no
  induction test generalizing y n with
  | intro t testHalts testIh =>
    induction yesHalts generalizing n with
    | intro y yesHalts yesIh =>
      induction noHalts with
      | intro n noHalts noIh =>
        apply P.expand (t := .cond t y n) trivial
        intro u step
        cases step with
        | condTest _ _ testStep =>
          exact testIh _ testStep yes no (.intro y yesHalts) (.intro n noHalts)
        | condYes _ _ yesStep =>
          exact yesIh _ yesStep (P.step yes yesStep) no (.intro n noHalts)
        | condNo _ _ noStep => exact noIh _ noStep (P.step no noStep)
        | selectYes => exact yes
        | selectNo => exact no

/-- A family of candidates that does not change when its argument takes a step. -/
def Stable (P : Candidate) (Q : Bare → Candidate) : Prop :=
  ∀ a a', P.contains a → Step a a' → Q a = Q a'

theorem app_of_passive {P : Candidate} {Q : Bare → Candidate} (stable : Stable P Q) {f a : Bare}
    (passive : Passive f) (steps : ∀ g, Step f g → ∀ a, P.contains a → (Q a).contains (.app g a))
    (arg : P.contains a) : (Q a).contains (.app f a) := by
  have argHalts := P.halts arg
  induction argHalts with
  | intro a _ ih =>
    apply (Q a).expand (t := .app f a) trivial
    intro u step
    cases step with
    | beta => exact passive.elim
    | appFn _ fnStep => exact steps _ fnStep a arg
    | appArg _ argStep =>
      rw [stable a _ arg argStep]
      exact ih _ argStep (P.step arg argStep)

/-- The functions that take each argument in `P` to a result in the candidate for it. -/
def arrow (P : Candidate) (Q : Bare → Candidate) (stable : Stable P Q) : Candidate where
  contains f := ∀ a, P.contains a → (Q a).contains (.app f a)
  halts maps := ((Q _).halts (maps (.var 0) (P.var 0))).of_app
  step maps step a arg := (Q a).step (maps a arg) (.appFn a step)
  expand passive steps _ arg := app_of_passive stable passive steps arg

end Candidate

/-- The place of a level in the order of levels. -/
def rank (k : Int64) : Nat := (k.toInt + 2 ^ 63).toNat

/-- The meaning of a type, given the meanings of the universes of rank less than `n`. Of a function
type all reducts are considered, since instances of its codomain need not halt on the ground that
instances of reducts of it do. -/
inductive Interp (n : Nat) (U : ∀ j, j < n → Candidate) : Bare → Candidate → Prop
  | base {A : Bare} (halts : Halts A) (noPi : ∀ X Y, ¬ Reduces A (.bind .pi X Y))
      (noUniverse : ∀ k, ¬ Reduces A (Bare.univ k)) : Interp n U A .halting
  | univ {A : Bare} {k : Int64} (halts : Halts A) (reduces : Reduces A (Bare.univ k))
      (below : rank k < n) : Interp n U A (U (rank k) below)
  | pi {A X Y : Bare} {P : Candidate} {Q : Bare → Candidate} {stable : P.Stable Q} (halts : Halts A)
      (reduces : Reduces A (.bind .pi X Y))
      (domain : ∀ X Y, Reduces A (.bind .pi X Y) → Interp n U X P)
      (codomain : ∀ X Y, Reduces A (.bind .pi X Y) → ∀ a, P.contains a →
        Interp n U (inst a Y) (Q a)) :
      Interp n U A (P.arrow Q stable)

theorem Joinable.reduces_bind {t X Y : Bare} {b : Binder} (same : Joinable t (.bind b X Y)) :
    ∃ X' Y', Reduces t (.bind b X' Y') := by
  obtain ⟨w, left, right⟩ := same
  obtain ⟨X', Y', rfl, -, -⟩ := right.bind_inv
  exact ⟨X', Y', left⟩

namespace Interp

variable {n m : Nat} {U : ∀ j, j < n → Candidate} {U' : ∀ j, j < m → Candidate} {A B : Bare}
  {P P' : Candidate}

theorem halts (interp : Interp n U A P) : Halts A := by
  cases interp with
  | base halts _ _ => exact halts
  | univ halts _ _ => exact halts
  | pi halts _ _ _ => exact halts

theorem reduces (interp : Interp n U A P) (reduces : Reduces A B) : Interp n U B P := by
  cases interp with
  | base halts noPi noUniverse =>
    exact .base (halts.reduces reduces) (fun X Y further => noPi X Y (reduces.trans further))
      fun k further => noUniverse k (reduces.trans further)
  | univ halts toUniverse below =>
    have same := reduces.confluent toUniverse
    exact .univ (halts.reduces reduces) (same.reduces (.const _)) below
  | pi halts toPi domain codomain =>
    obtain ⟨X', Y', further⟩ := (reduces.confluent toPi).reduces_bind
    exact .pi (halts.reduces reduces) further (fun X Y onward => domain X Y (reduces.trans onward))
      fun X Y onward => codomain X Y (reduces.trans onward)

theorem pi_inv (interp : Interp n U A P) {X Y : Bare} (toPi : Reduces A (.bind .pi X Y)) :
    ∃ (D : Candidate) (Q : Bare → Candidate) (stable : D.Stable Q), P = D.arrow Q stable ∧
      Interp n U X D ∧ ∀ a, D.contains a → Interp n U (inst a Y) (Q a) := by
  cases interp with
  | base _ noPi _ => exact absurd toPi (noPi X Y)
  | univ _ toUniverse _ => exact (toUniverse.confluent toPi).const_bind.elim
  | pi _ _ domain codomain => exact ⟨_, _, _, rfl, domain X Y toPi, codomain X Y toPi⟩

theorem univ_inv (interp : Interp n U A P) {k : Int64} (toUniverse : Reduces A (Bare.univ k)) :
    ∃ below, P = U (rank k) below := by
  cases interp with
  | base _ _ noUniverse => exact absurd toUniverse (noUniverse k)
  | univ _ toOther below =>
    cases (toUniverse.confluent toOther).const_injective
    exact ⟨below, rfl⟩
  | pi _ toPi _ _ => exact (toUniverse.confluent toPi).const_bind.elim

theorem base_inv (interp : Interp n U A P) (noPi : ∀ X Y, ¬ Reduces A (.bind .pi X Y))
    (noUniverse : ∀ k, ¬ Reduces A (Bare.univ k)) : P = .halting := by
  cases interp with
  | base _ _ _ => rfl
  | univ _ toUniverse _ => exact absurd toUniverse (noUniverse _)
  | pi _ toPi _ _ => exact absurd toPi (noPi _ _)

/-- Convertible types have one meaning. -/
theorem unique (agree : ∀ j below below', U j below = U' j below') (interp : Interp n U A P)
    (interp' : Interp m U' B P') (same : Joinable A B) : P = P' := by
  induction interp generalizing B P' with
  | base halts noPi noUniverse =>
    refine (interp'.base_inv (fun X Y toPi => ?_) fun k toUniverse => ?_).symm
    · obtain ⟨X', Y', further⟩ := (same.trans toPi.joinable).reduces_bind
      exact noPi X' Y' further
    · exact noUniverse k ((same.trans toUniverse.joinable).reduces (.const _))
  | univ halts toUniverse below =>
    have further := (same.symm.trans toUniverse.joinable).reduces (.const _)
    obtain ⟨below', rfl⟩ := interp'.univ_inv further
    exact agree _ below below'
  | @pi A X Y P Q stable halts toPi domain codomain domIh codIh =>
    obtain ⟨X', Y', toPi'⟩ := (same.symm.trans toPi.joinable).reduces_bind
    obtain ⟨D, Q', stable', rfl, domain', codomain'⟩ := interp'.pi_inv toPi'
    obtain ⟨-, sameDom, sameCod⟩ :=
      (toPi.joinable.symm.trans (same.trans toPi'.joinable)).bind_injective
    obtain rfl := domIh X Y toPi domain' sameDom
    have family : ∀ a, P.contains a → Q a = Q' a := fun a arg =>
      codIh X Y toPi a arg (codomain' a arg) ((Joinable.refl a).inst sameCod)
    apply Candidate.ext
    intro f
    constructor
    · intro maps a arg
      rw [← family a arg]
      exact maps a arg
    · intro maps a arg
      rw [family a arg]
      exact maps a arg

theorem mono (interp : Interp n U A P) (le : n ≤ m)
    (agree : ∀ j below below', U j below = U' j below') : Interp m U' A P := by
  induction interp with
  | base halts noPi noUniverse => exact .base halts noPi noUniverse
  | univ halts toUniverse below =>
    rw [agree _ below (Nat.lt_of_lt_of_le below le)]
    exact .univ halts toUniverse _
  | pi halts toPi domain codomain domIh codIh =>
    exact .pi halts toPi domIh codIh

theorem eq_of_joinable (interp : Interp n U A P) (interp' : Interp n U B P')
    (same : Joinable A B) : P = P' := by
  refine unique ?_ interp interp' same
  intro j below below'
  rfl

/-- A passive type has the meaning of the types it steps to, if they have one. -/
theorem of_steps (passive : Passive A) (steps : ∀ u, Step A u → ∃ P, Interp n U u P) :
    ∃ P, Interp n U A P := by
  have halts : Halts A := .of_steps fun u step => (steps u step).elim fun _ interp => interp.halts
  -- What a passive term reduces to, if it is a constant or a binder, is reached by a first step.
  have first : ∀ {B : Bare}, ¬ Passive B → Reduces A B → ∃ u, Step A u ∧ Reduces u B := by
    intro B other reduces
    rcases Relation.ReflTransGen.cases_head reduces.steps with rfl | ⟨u, step, onward⟩
    · exact absurd passive other
    · exact ⟨u, step, onward.lift id fun _ _ step => step.par⟩
  by_cases function : ∃ X Y, Reduces A (.bind .pi X Y)
  · obtain ⟨X, Y, toPi⟩ := function
    obtain ⟨u, step, onward⟩ := first id toPi
    obtain ⟨P, interp⟩ := steps u step
    obtain ⟨D, Q, stable, rfl, domain, codomain⟩ := interp.pi_inv onward
    have same : ∀ {X' Y'}, Reduces A (.bind .pi X' Y') → Joinable X X' ∧ Joinable Y Y' :=
      fun toPi' => (toPi.confluent toPi').bind_injective.2
    refine ⟨D.arrow Q stable, .pi halts toPi (fun X' Y' toPi' => ?_) fun X' Y' toPi' a arg => ?_⟩
    · obtain ⟨u', step', onward'⟩ := first id toPi'
      obtain ⟨P', interp'⟩ := steps u' step'
      obtain ⟨D', Q', stable', -, domain', -⟩ := interp'.pi_inv onward'
      rwa [domain.eq_of_joinable domain' (same toPi').1]
    · obtain ⟨u', step', onward'⟩ := first id toPi'
      obtain ⟨P', interp'⟩ := steps u' step'
      obtain ⟨D', Q', stable', -, domain', codomain'⟩ := interp'.pi_inv onward'
      obtain rfl := domain.eq_of_joinable domain' (same toPi').1
      rw [(codomain a arg).eq_of_joinable (codomain' a arg)
        ((Joinable.refl a).inst (same toPi').2)]
      exact codomain' a arg
  · by_cases level : ∃ k, Reduces A (Bare.univ k)
    · obtain ⟨k, toUniverse⟩ := level
      obtain ⟨u, step, onward⟩ := first id toUniverse
      obtain ⟨P, interp⟩ := steps u step
      obtain ⟨below, rfl⟩ := interp.univ_inv onward
      exact ⟨_, .univ halts toUniverse below⟩
    · exact ⟨_, .base halts (fun X Y toPi => function ⟨X, Y, toPi⟩)
        fun k toUniverse => level ⟨k, toUniverse⟩⟩

end Interp

/-- The types with a meaning, given the meanings of the lesser universes. -/
def typesOver (n : Nat) (U : ∀ j, j < n → Candidate) : Candidate where
  contains A := ∃ P, Interp n U A P
  halts type := type.elim fun _ interp => interp.halts
  step type step := type.elim fun P interp => ⟨P, interp.reduces step.reduces⟩
  expand := Interp.of_steps

/-- The meaning of the universe of the given rank. -/
def types (n : Nat) : Candidate := typesOver n fun j _ => types j
termination_by n

/-- The meaning of a type in which only universes of rank less than `n` have one. -/
def Means (n : Nat) : Bare → Candidate → Prop := Interp n fun j _ => types j

theorem types_contains {n : Nat} {A : Bare} : (types n).contains A ↔ ∃ P, Means n A P := by
  rw [types]
  rfl

/-- Above the ranks of all levels. -/
def top : Nat := 2 ^ 64

theorem rank_lt_top (k : Int64) : rank k < top := by
  have low := k.le_toInt
  have high := k.toInt_lt
  unfold rank top
  omega

theorem rank_le {k j : Int64} (le : k ≤ j) : rank k ≤ rank j := by
  rw [Int64.le_iff_toInt_le] at le
  unfold rank
  omega

theorem rank_succ {k : Int64} (notLast : k ≠ Int64.maxValue) : rank k < rank (k + 1) := by
  have low := k.le_toInt
  have bound := Int64.toInt_le k
  have differ : k.toInt ≠ Int64.maxValue.toInt := fun same => notLast (Int64.toInt_inj.mp same)
  rw [Int64.toInt_maxValue] at bound differ
  have next := Term.toInt_succ_of_fits (c := k) (by omega)
  unfold rank
  omega

theorem rank_max (k j : Int64) : rank k ≤ rank (max k j) ∧ rank j ≤ rank (max k j) := by
  change rank k ≤ rank (if k ≤ j then j else k) ∧ rank j ≤ rank (if k ≤ j then j else k)
  split
  · rename_i le
    exact ⟨rank_le le, Nat.le_refl _⟩
  · rename_i greater
    rw [Int64.le_iff_toInt_le] at greater
    exact ⟨Nat.le_refl _, rank_le (by rw [Int64.le_iff_toInt_le]; omega)⟩

end DepCalc.Bare

import DepCalc.Proofs.Fuel
import DepCalc.Proofs.Parts
import DepCalc.Proofs.Widening

/-!
Normal forms are their own normal forms, down to the names in them. Every variable of a value that is
read back carries the name under which it is in scope, so that a second evaluation finds it by its
index under the same name; what was neutral is neutral again, and nothing reduces. This does not ask
for types, nor for more fuel than the first normalisation had.
-/
namespace DepCalc

/-- The variable bound at `level` is in scope under the name `x`. -/
def Labelled (names : List Name) (x : Name) (level : Int64) : Prop :=
  ∃ i : Nat, names[i]? = some x ∧ level.toInt = names.length - i

/-- No condition on constants and indices. -/
def Parts.any : Parts where
  constant _ := True
  index _ _ := True
  int _ := trivial
  bool _ := trivial

theorem Term.all_any (n : Nat) (t : Indexed) : t.All .any n := by
  induction t generalizing n with
  | var v => trivial
  | const c => trivial
  | not t ih => exact ih n
  | bind b x dom body domain under => exact ⟨domain n, under (n + 1)⟩
  | cond t yes no test whenTrue whenFalse => exact ⟨test n, whenTrue n, whenFalse n⟩
  | binop _ _ _ left right | app _ _ left right | ascribe _ _ left right => exact ⟨left n, right n⟩

theorem Env.ofNames_cons (x : Name) (names : List Name) :
    Env.ofNames (x :: names) =
      Value.fresh x (Int64.ofNat (names.length + 1)) :: Env.ofNames names := by
  rw [Env.ofNames, List.length_cons, Env.descending, ofNat_succ_sub_one, Env.ofNames]

namespace Labelled

variable {names : List Name} {x : Name} {level : Int64}

theorem under (y : Name) (labelled : Labelled names x level) : Labelled (y :: names) x level := by
  obtain ⟨i, named, word⟩ := labelled
  refine ⟨i + 1, named, ?_⟩
  rw [List.length_cons]
  omega

theorem fresh (x : Name) (room : names.length + 1 < 2 ^ 63) :
    Labelled (x :: names) x (Int64.ofNat (names.length + 1)) :=
  ⟨0, rfl, Int64.toInt_ofNat_of_lt room⟩

theorem env (names : List Name) (room : names.length < 2 ^ 63) :
    Env.All .any (Labelled names) (Env.ofNames names) := by
  induction names with
  | nil => trivial
  | cons x rest ih =>
    rw [Env.ofNames_cons]
    refine ⟨fresh x room, (ih ?_).mono fun y level => under x⟩
    rw [List.length_cons] at room
    omega

/-- The index of a variable, as it is read back. -/
theorem index (labelled : Labelled names x level) (room : names.length < 2 ^ 63) :
    ∃ i : Nat, names[i]? = some x ∧ (Int64.ofNat names.length - level).toInt = i ∧
      level = Int64.ofNat (names.length - i) := by
  obtain ⟨i, named, word⟩ := labelled
  have inside : i < names.length := (List.getElem?_eq_some_iff.mp named).1
  refine ⟨i, named, ?_, ?_⟩
  · rw [toInt_ofNat_sub room (by omega)]
    omega
  · apply Int64.toInt_inj.mp
    rw [Int64.toInt_ofNat_of_lt (by omega)]
    omega

/-- Found by its index, a variable has its name and its level. -/
theorem lookup (labelled : Labelled names x level) (room : names.length < 2 ^ 63) :
    (Env.ofNames names).lookup (Int64.ofNat names.length - level) = .ok (Value.fresh x level) := by
  obtain ⟨i, named, word, rfl⟩ := labelled.index room
  rw [Env.lookup, atIndex?_eq word, Env.ofNames, getElem?_descending, named]
  rfl

theorem quote (fuel : Nat) (labelled : Labelled names x level) (room : names.length < 2 ^ 63) :
    (Neutral.var x level).quote (fuel + 1) (Int64.ofNat names.length) =
      .ok (.var ⟨x, Int64.ofNat names.length - level⟩) := by
  obtain ⟨i, -, word, -⟩ := labelled.index room
  rw [Neutral.quote, if_neg]
  rw [Int64.lt_iff_toInt_lt, word, Int64.toInt_zero]
  omega

end Labelled

/-- Evaluated among the names, `n` has the value `v`, which is read back as `n`. -/
structure Settles (fuel : Nat) (names : List Name) (n : Indexed) (v : Value) : Prop where
  eval : eval fuel (Env.ofNames names) n = .ok v
  quote : v.quote fuel (Int64.ofNat names.length) = .ok n

theorem Value.exists_neutral {v : Value} (kind : v.kind = .neutral) : ∃ n, v = .neutral n := by
  cases v with
  | const c => cases c <;> cases kind
  | bind b dom x env body => cases b <;> cases kind
  | neutral n => exact ⟨n, rfl⟩

theorem onValues_neutral (op : Operator) {l r : Value}
    (waits : l.kind = .neutral ∨ r.kind = .neutral) :
    op.onValues l r = .ok (.neutral (.binop op l r)) := by
  rcases waits with left | right
  · obtain ⟨n, rfl⟩ := Value.exists_neutral left
    rfl
  · obtain ⟨n, rfl⟩ := Value.exists_neutral right
    cases l <;> rfl

/-- The neutral value of `n` among the names, which is read back as `n`. -/
structure SettlesNeutral (fuel : Nat) (names : List Name) (n : Indexed) (m : Neutral) : Prop where
  eval : eval fuel (Env.ofNames names) n = .ok (.neutral m)
  quote : m.quote fuel (Int64.ofNat names.length) = .ok n

namespace Settles

variable {fuel : Nat} {names : List Name}

theorem const (c : Constant) : Settles (fuel + 1) names (.const c) (.const c) := ⟨rfl, rfl⟩

theorem binder {b : Binder} {x : Name} {dom body : Indexed} {domain opened : Value}
    (domSettles : Settles fuel names dom domain) (bodySettles : Settles fuel (x :: names) body opened) :
    Settles (fuel + 1) names (.bind b x dom body)
      (.bind b domain x (Env.ofNames names) body) := by
  have opening := bodySettles.eval
  have reading := bodySettles.quote
  rw [Env.ofNames_cons] at opening
  rw [List.length_cons] at reading
  constructor
  · simp only [DepCalc.eval, domSettles.eval, bind, Except.bind]
  · simp only [Value.quote, ofNat_succ, domSettles.quote, opening, reading, bind, Except.bind]

/-- The fuel that suffices to read a neutral back suffices to evaluate it once more. -/
theorem neutral {n : Indexed} {m : Neutral} (settles : SettlesNeutral fuel names n m) :
    Settles (fuel + 1) names n (.neutral m) := by
  constructor
  · rw [eval_succ (by rw [settles.eval]; simp), settles.eval]
  · exact settles.quote

end Settles

namespace SettlesNeutral

variable {fuel : Nat} {names : List Name}

theorem var {x : Name} {level : Int64} (labelled : Labelled names x level)
    (room : names.length < 2 ^ 63) :
    SettlesNeutral (fuel + 1) names (.var ⟨x, Int64.ofNat names.length - level⟩) (.var x level) :=
  ⟨labelled.lookup room, labelled.quote fuel room⟩

theorem binop {op : Operator} {l r : Indexed} {left right : Value}
    (leftSettles : Settles fuel names l left) (rightSettles : Settles fuel names r right)
    (waits : left.kind = .neutral ∨ right.kind = .neutral) :
    SettlesNeutral (fuel + 1) names (.binop op l r) (.binop op left right) := by
  constructor
  · simp only [DepCalc.eval, leftSettles.eval, rightSettles.eval, bind, Except.bind]
    exact onValues_neutral op waits
  · simp only [Neutral.quote, leftSettles.quote, rightSettles.quote, bind, Except.bind]

theorem not {t : Indexed} {m : Neutral} (settles : SettlesNeutral fuel names t m) :
    SettlesNeutral (fuel + 1) names (.not t) (.not m) := by
  constructor
  · simp only [DepCalc.eval, settles.eval, bind, Except.bind, Value.negate]
  · simp only [Neutral.quote, settles.quote, bind, Except.bind]

theorem app {f a : Indexed} {fn : Neutral} {arg : Value}
    (fnSettles : SettlesNeutral fuel names f fn) (argSettles : Settles fuel names a arg) :
    SettlesNeutral (fuel + 1) names (.app f a) (.app fn arg) := by
  constructor
  · simp only [DepCalc.eval, fnSettles.eval, argSettles.eval, bind, Except.bind]
  · simp only [Neutral.quote, fnSettles.quote, argSettles.quote, bind, Except.bind]

theorem cond {t y n : Indexed} {test : Neutral} {yes no : Value}
    (testSettles : SettlesNeutral fuel names t test) (yesSettles : Settles fuel names y yes)
    (noSettles : Settles fuel names n no) :
    SettlesNeutral (fuel + 1) names (.cond t y n) (.cond test yes no) := by
  constructor
  · simp only [DepCalc.eval, testSettles.eval, yesSettles.eval, noSettles.eval, bind, Except.bind]
  · simp only [Neutral.quote, testSettles.quote, yesSettles.quote, noSettles.quote, bind, Except.bind]

end SettlesNeutral

/-- The induction is on the fuel of the first reading, which bounds the second evaluation too. -/
theorem quote_settles (fuel : Nat) :
    (∀ {names : List Name} {v : Value}, names.length < 2 ^ 63 → v.Sound names.length →
      v.All .any (Labelled names) →
      Outcome (fun _ => True) (fun n => names.length + n.depth < 2 ^ 63 →
        ∃ v', Settles fuel names n v' ∧ (v.kind = .neutral → v'.kind = .neutral))
        (v.quote fuel (Int64.ofNat names.length))) ∧
    (∀ {names : List Name} {m : Neutral}, names.length < 2 ^ 63 → m.Sound names.length →
      m.All .any (Labelled names) →
      Outcome (fun _ => True) (fun n => names.length + n.depth < 2 ^ 63 →
        ∃ m', SettlesNeutral fuel names n m') (m.quote fuel (Int64.ofNat names.length))) := by
  induction fuel with
  | zero => exact ⟨fun _ _ _ => trivial, fun _ _ _ => trivial⟩
  | succ fuel ih =>
    obtain ⟨value, neutral⟩ := ih
    constructor
    · intro names v fits sound labelled
      cases v with
      | const c => exact fun _ => ⟨_, .const c, id⟩
      | neutral m =>
        apply (neutral fits sound labelled).mono
        intro n settles room
        obtain ⟨m', again⟩ := settles room
        exact ⟨_, .neutral again, fun _ => rfl⟩
      | bind b dom x env body =>
        simp only [Value.quote, ofNat_succ]
        by_cases deeper : names.length + 1 < 2 ^ 63
        · have inside : Env.All .any (Labelled (x :: names))
              (Value.fresh x (Int64.ofNat (names.length + 1)) :: env) :=
            ⟨.fresh x deeper, labelled.2.1.mono fun y level => .under x⟩
          have evaluated : Outcome _ (Value.All .any (Labelled (x :: names)))
              (eval fuel (Value.fresh x (Int64.ofNat (names.length + 1)) :: env) body) :=
            eval_parts inside (Term.all_any _ _)
          apply (value fits sound.1 labelled.1).bind
          intro d domain
          apply ((evaluated.mono_error fun _ _ => trivial).and
            (eval_represents (sound.2.fresh x deeper) body)).bind
          intro opened holds
          obtain ⟨openedLabelled, openedSound, -⟩ := holds
          have reading := @value (x :: names) opened deeper openedSound openedLabelled
          apply reading.bind
          intro u under room
          simp only [Term.depth] at room
          obtain ⟨domain', domSettles, -⟩ := domain (by omega)
          obtain ⟨opened', bodySettles, -⟩ := under (by rw [List.length_cons]; omega)
          refine ⟨_, .binder domSettles bodySettles, ?_⟩
          intro stuck
          cases b <;> cases stuck
        · apply (Outcome.answered _).bind
          intro d _
          apply (Outcome.answered _).bind
          intro opened _
          apply (Outcome.answered _).bind
          intro u _ room
          simp only [Term.depth] at room
          omega
    · intro names m fits sound labelled
      cases m with
      | var x level =>
        rw [Labelled.quote fuel labelled fits]
        exact fun _ => ⟨_, .var labelled fits⟩
      | not m =>
        apply (neutral (m := m) fits sound labelled).bind
        intro n settles room
        obtain ⟨m', again⟩ := settles room
        exact ⟨_, .not again⟩
      | binop op l r =>
        apply (value fits sound.1 labelled.1).bind
        intro left leftSettles
        apply (value fits sound.2.1 labelled.2).bind
        intro right rightSettles room
        simp only [Term.depth] at room
        obtain ⟨l', leftAgain, leftKind⟩ := leftSettles (by omega)
        obtain ⟨r', rightAgain, rightKind⟩ := rightSettles (by omega)
        exact ⟨_, .binop leftAgain rightAgain (sound.2.2.imp leftKind rightKind)⟩
      | app f a =>
        apply (neutral fits sound.1 labelled.1).bind
        intro fn fnSettles
        apply (value fits sound.2 labelled.2).bind
        intro arg argSettles room
        simp only [Term.depth] at room
        obtain ⟨f', fnAgain⟩ := fnSettles (by omega)
        obtain ⟨a', argAgain, -⟩ := argSettles (by omega)
        exact ⟨_, .app fnAgain argAgain⟩
      | cond t y n =>
        apply (neutral fits sound.1 labelled.1).bind
        intro test testSettles
        apply (value fits sound.2.1 labelled.2.1).bind
        intro yes yesSettles
        apply (value fits sound.2.2 labelled.2.2).bind
        intro no noSettles room
        simp only [Term.depth] at room
        obtain ⟨t', testAgain⟩ := testSettles (by omega)
        obtain ⟨y', yesAgain, -⟩ := yesSettles (by omega)
        obtain ⟨n', noAgain, -⟩ := noSettles (by omega)
        exact ⟨_, .cond testAgain yesAgain noAgain⟩

/-- Normalising a normal form gives it back, with all its names, and takes no more fuel. -/
theorem normalize_idempotent {fuel fuel' : Nat} {scope : List Name} {t n : Indexed}
    (normalized : t.normalize fuel scope = .ok n) (room : scope.length + n.depth < 2 ^ 63)
    (enough : fuel ≤ fuel') : n.normalize fuel' scope = .ok n := by
  have fits : scope.length < 2 ^ 63 := by omega
  have evaluated : Outcome _ (Value.All .any (Labelled scope)) (eval fuel (Env.ofNames scope) t) :=
    eval_parts (Labelled.env scope fits) (Term.all_any _ _)
  have settles : Outcome (fun _ => True) (fun n => scope.length + n.depth < 2 ^ 63 →
      n.normalize fuel scope = .ok n) (t.normalize fuel scope) := by
    apply ((evaluated.mono_error fun _ _ => trivial).and (eval_represents (.ofNames fits) t)).bind
    intro v holds
    obtain ⟨labelled, sound, -⟩ := holds
    apply ((quote_settles fuel).1 fits sound labelled).mono
    intro n again room
    obtain ⟨v', settled, -⟩ := again room
    simp only [Term.normalize, settled.eval, settled.quote, bind, Except.bind]
  have again := settles.of_eq_ok normalized room
  rw [normalize_mono enough (by rw [again]; simp), again]

/-- A choice between a function and a number, which no type allows. Two of its variables are stored
under names that are not those of their binders. -/
def untypedChoice : Indexed :=
  .app (.bind .lam "y" (.const .intType) (.cond (.var ⟨"m", 1⟩)
    (.bind .lam "n" (.const .intType) (.binop .add (.var ⟨"y", 1⟩) (.var ⟨"k", 0⟩)))
    (.const (.int 3)))) (.const (.int 2))

def untypedChoiceNormal : Indexed :=
  .cond (.var ⟨"n", 0⟩)
    (.bind .lam "n" (.const .intType) (.binop .add (.const (.int 2)) (.var ⟨"n", 0⟩)))
    (.const (.int 3))

theorem normalize_idempotent_untypedChoice :
    untypedChoice.normalize 9 ["n"] = .ok untypedChoiceNormal ∧
    ["n"].length + untypedChoiceNormal.depth < 2 ^ 63 ∧
    untypedChoiceNormal.normalize 9 ["n"] = .ok untypedChoiceNormal := by
  have normalized : untypedChoice.normalize 9 ["n"] = .ok untypedChoiceNormal := by rfl
  have room : ["n"].length + untypedChoiceNormal.depth < 2 ^ 63 := by decide
  exact ⟨normalized, room, normalize_idempotent normalized room (Nat.le_refl 9)⟩

end DepCalc

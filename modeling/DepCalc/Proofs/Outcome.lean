/-!
Computations that may fail, what holds of their outcomes, and when two of them come out alike.
-/
namespace DepCalc

variable {ε ε' α β : Type}

/-- `holds` is true of the answer, or `fails` of the failure. -/
def Outcome (fails : ε → Prop) (holds : α → Prop) : Except ε α → Prop
  | .ok a => holds a
  | .error e => fails e

namespace Outcome

variable {fails : ε → Prop} {holds : α → Prop} {x : Except ε α}

/-- Nothing is known but that this is the answer. -/
theorem answered (x : Except ε α) : Outcome (fun _ => True) (fun a => x = .ok a) x := by
  cases x with
  | error e => trivial
  | ok a => rfl

theorem bind {holds' : β → Prop} {f : α → Except ε β} (first : Outcome fails holds x)
    (next : ∀ a, holds a → Outcome fails holds' (f a)) : Outcome fails holds' (x >>= f) := by
  cases x with
  | error e => exact first
  | ok a => exact next a first

theorem mono {holds' : α → Prop} (h : Outcome fails holds x) (weaker : ∀ a, holds a → holds' a) :
    Outcome fails holds' x := by
  cases x with
  | error e => exact h
  | ok a => exact weaker a h

theorem mono_error {fails' : ε → Prop} (h : Outcome fails holds x)
    (weaker : ∀ e, fails e → fails' e) : Outcome fails' holds x := by
  cases x with
  | error e => exact weaker e h
  | ok a => exact h

/-- What fails and what is answered may be told apart. -/
theorem of_answer (h : Outcome fails (fun _ => True) x)
    (answer : Outcome (fun _ => True) holds x) : Outcome fails holds x := by
  cases x with
  | error e => exact h
  | ok a => exact answer

theorem and {holds' : α → Prop} (h : Outcome fails holds x)
    (answer : Outcome (fun _ => True) holds' x) : Outcome fails (fun a => holds a ∧ holds' a) x := by
  cases x with
  | error e => exact h
  | ok a => exact ⟨h, answer⟩

theorem of_eq_ok {a : α} (h : Outcome fails holds x) (answer : x = .ok a) : holds a := by
  subst answer
  exact h

theorem of_eq_error {e : ε} (h : Outcome fails holds x) (failure : x = .error e) : fails e := by
  subst failure
  exact h

theorem mapError {fails' : ε' → Prop} {g : ε → ε'} (h : Outcome fails holds x)
    (told : ∀ e, fails e → fails' (g e)) : Outcome fails' holds (x.mapError g) := by
  cases x with
  | error e => exact told e h
  | ok a => exact h

end Outcome

/-- Both runs answer, with related answers, or both fail, with related failures. -/
def Alike {ε α : Type} (failures : ε → ε → Prop) (answers : α → α → Prop) :
    Except ε α → Except ε α → Prop
  | .ok a, .ok b => answers a b
  | .error e, .error e' => failures e e'
  | _, _ => False

namespace Alike

variable {ε α β : Type} {failures : ε → ε → Prop} {answers : α → α → Prop} {x y : Except ε α}

theorem bind {answers' : β → β → Prop} {f g : α → Except ε β} (first : Alike failures answers x y)
    (next : ∀ a b, answers a b → Alike failures answers' (f a) (g b)) :
    Alike failures answers' (x >>= f) (y >>= g) := by
  cases x with
  | error e =>
    cases y with
    | error e' => exact first
    | ok b => exact first.elim
  | ok a =>
    cases y with
    | error e' => exact first.elim
    | ok b => exact next a b first

theorem mono {answers' : α → α → Prop} (alike : Alike failures answers x y)
    (weaker : ∀ a b, answers a b → answers' a b) : Alike failures answers' x y := by
  cases x with
  | error e =>
    cases y with
    | error e' => exact alike
    | ok b => exact alike.elim
  | ok a =>
    cases y with
    | error e' => exact alike.elim
    | ok b => exact weaker a b alike

theorem mono_error {failures' : ε → ε → Prop} (alike : Alike failures answers x y)
    (weaker : ∀ e e', failures e e' → failures' e e') : Alike failures' answers x y := by
  cases x with
  | error e =>
    cases y with
    | error e' => exact weaker e e' alike
    | ok b => exact alike.elim
  | ok a =>
    cases y with
    | error e' => exact alike.elim
    | ok b => exact alike

/-- What is known of the first answer may be told with the relation between both. -/
theorem and {holds : α → Prop} (alike : Alike failures answers x y)
    (known : Outcome (fun _ => True) holds x) :
    Alike failures (fun a b => answers a b ∧ holds a) x y := by
  cases x with
  | error e =>
    cases y with
    | error e' => exact alike
    | ok b => exact alike.elim
  | ok a =>
    cases y with
    | error e' => exact alike.elim
    | ok b => exact ⟨alike, known⟩

end Alike

/-- The runs end alike, unless the first one fails with `out`. -/
def AlikeUnless {ε α : Type} (out : ε) (failures : ε → ε → Prop) (answers : α → α → Prop)
    (x y : Except ε α) : Prop :=
  x = .error out ∨ Alike failures answers x y

theorem AlikeUnless.bind {ε α β : Type} {out : ε} {failures : ε → ε → Prop} {answers : α → α → Prop}
    {answers' : β → β → Prop} {x y : Except ε α} {f g : α → Except ε β}
    (first : AlikeUnless out failures answers x y)
    (next : ∀ a b, answers a b → AlikeUnless out failures answers' (f a) (g b)) :
    AlikeUnless out failures answers' (x >>= f) (y >>= g) := by
  rcases first with rfl | alike
  · exact .inl rfl
  · cases x with
    | error e =>
      cases y with
      | error e' => exact .inr alike
      | ok b => exact alike.elim
    | ok a =>
      cases y with
      | error e' => exact alike.elim
      | ok b => exact next a b alike

end DepCalc

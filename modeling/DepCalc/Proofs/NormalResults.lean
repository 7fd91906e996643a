import DepCalc.Proofs.Idempotence
import DepCalc.Proofs.NameIndependence

/-!
What normalisation can result in: the normal forms with their variables in scope, and up to names
nothing else. Terms that are not in scope, or have no type, make no exception. The parts of a term that
do not count, such as ascribed types and branches not taken, are gone from its normal form, and all
others have been evaluated. Conversely a normal form need not come from elsewhere: it is its own
result, under the names in scope.
-/
namespace DepCalc

namespace Settles

variable {fuel more : Nat} {names : List Name} {n : Indexed}

theorem mono {v : Value} (settles : Settles fuel names n v) (le : fuel ≤ more) :
    Settles more names n v := by
  constructor
  · rw [eval_mono le (by rw [settles.eval]; simp), settles.eval]
  · rw [quote_mono le (by rw [settles.quote]; simp), settles.quote]

theorem normalize {v : Value} (settles : Settles fuel names n v) : n.normalize fuel names = .ok n := by
  simp only [Term.normalize, settles.eval, settles.quote, bind, Except.bind]

theorem neutral_inv {m : Neutral} (settles : Settles fuel names n (.neutral m)) :
    SettlesNeutral fuel names n m := by
  refine ⟨settles.eval, ?_⟩
  have reading := settles.quote
  cases fuel with
  | zero => cases reading
  | succ fuel =>
    have finished : m.quote fuel (Int64.ofNat names.length) = .ok n := reading
    rw [(quote_succ fuel).2 (by rw [finished]; simp), finished]

end Settles

/-- The variable at an index in scope, among blank names. -/
theorem settles_blank_var {scope : List Name} {ix : Int64} (low : 0 ≤ ix.toInt)
    (high : ix.toInt < scope.length) (room : scope.length < 2 ^ 63) :
    ∃ m, SettlesNeutral 1 (blank scope) (.var ⟨"", ix⟩) m := by
  have sameLength : (blank scope).length = scope.length := List.length_map _
  obtain ⟨i, word⟩ := Int.eq_ofNat_of_zero_le low
  have inside : i < scope.length := by omega
  have labelled : Labelled (blank scope) "" (.ofNat (scope.length - i)) := by
    refine ⟨i, ?_, ?_⟩
    · rw [blank, List.getElem?_map, List.getElem?_eq_getElem inside]
      rfl
    · rw [sameLength, Int64.toInt_ofNat_of_lt (by omega)]
      omega
  have index : Int64.ofNat (blank scope).length - .ofNat (scope.length - i) = ix := by
    have level : (Int64.ofNat (scope.length - i)).toInt = ↑(scope.length - i) :=
      Int64.toInt_ofNat_of_lt (by omega)
    apply Int64.toInt_inj.mp
    rw [sameLength, toInt_ofNat_sub room (by omega)]
    omega
  have settles := @SettlesNeutral.var 0 _ _ _ labelled (by omega)
  rw [index] at settles
  exact ⟨_, settles⟩

/-- A normal form in scope settles, and a stuck one on a neutral value. All names are blank, so that
those of the variables are those in scope. -/
theorem Term.IsNormal.settles {scope : List Name} {n : Indexed} (normal : n.IsNormal)
    (closed : n.widen.InScope scope.length) (room : scope.length + n.depth < 2 ^ 63) :
    ∃ fuel v, Settles fuel (blank scope) n.forgetNames v ∧ (n.isStuck → v.kind = .neutral) := by
  induction n generalizing scope with
  | var v =>
    obtain ⟨m, settles⟩ := settles_blank_var closed.1 closed.2 (by omega)
    exact ⟨2, .neutral m, .neutral settles, fun _ => rfl⟩
  | const c => exact ⟨1, .const c, .const c, fun stuck => by cases stuck⟩
  | binop op l r left right =>
    simp only [depth] at room
    obtain ⟨normalLeft, normalRight, waits⟩ := normal
    obtain ⟨fuel, leftValue, leftSettles, leftKind⟩ := left normalLeft closed.1 (by omega)
    obtain ⟨fuel', rightValue, rightSettles, rightKind⟩ := right normalRight closed.2 (by omega)
    -- Each part has an amount of fuel of its own, of which the greatest does for all.
    have settles : SettlesNeutral (max fuel fuel' + 1) (blank scope) (Term.binop op l r).forgetNames
        (.binop op leftValue rightValue) :=
      .binop (leftSettles.mono (Nat.le_max_left fuel fuel'))
        (rightSettles.mono (Nat.le_max_right fuel fuel')) (waits.imp leftKind rightKind)
    exact ⟨_, _, .neutral settles, fun _ => rfl⟩
  | not t operand =>
    obtain ⟨fuel, v, settles, kind⟩ := operand normal.1 closed room
    obtain ⟨m, rfl⟩ := Value.exists_neutral (kind normal.2)
    exact ⟨_, _, .neutral settles.neutral_inv.not, fun _ => rfl⟩
  | app f a fn arg =>
    simp only [depth] at room
    obtain ⟨normalFn, stuck, normalArg⟩ := normal
    obtain ⟨fuel, fnValue, fnSettles, fnKind⟩ := fn normalFn closed.1 (by omega)
    obtain ⟨fuel', argValue, argSettles, -⟩ := arg normalArg closed.2 (by omega)
    obtain ⟨m, rfl⟩ := Value.exists_neutral (fnKind stuck)
    have settles := (fnSettles.mono (Nat.le_max_left fuel fuel')).neutral_inv.app
      (argSettles.mono (Nat.le_max_right fuel fuel'))
    exact ⟨_, _, .neutral settles, fun _ => rfl⟩
  | bind b x dom body domain under =>
    simp only [depth] at room
    obtain ⟨fuel, domValue, domSettles, -⟩ := domain normal.1 closed.1 (by omega)
    obtain ⟨fuel', bodyValue, bodySettles, -⟩ :=
      @under (x :: scope) normal.2 closed.2 (by rw [List.length_cons]; omega)
    have settles := Settles.binder (b := b) (domSettles.mono (Nat.le_max_left fuel fuel'))
      (bodySettles.mono (Nat.le_max_right fuel fuel'))
    exact ⟨_, _, settles, fun stuck => by cases stuck⟩
  | cond t y n test yes no =>
    simp only [depth] at room
    obtain ⟨normalTest, stuck, normalYes, normalNo⟩ := normal
    obtain ⟨fuel, testValue, testSettles, testKind⟩ := test normalTest closed.1 (by omega)
    obtain ⟨fuel', yesValue, yesSettles, -⟩ := yes normalYes closed.2.1 (by omega)
    obtain ⟨fuel'', noValue, noSettles, -⟩ := no normalNo closed.2.2 (by omega)
    obtain ⟨m, rfl⟩ := Value.exists_neutral (testKind stuck)
    have settles := SettlesNeutral.cond
      (testSettles.mono (by omega : fuel ≤ max fuel (max fuel' fuel''))).neutral_inv
      (yesSettles.mono (by omega)) (noSettles.mono (by omega))
    exact ⟨_, _, .neutral settles, fun _ => rfl⟩
  | ascribe t type _ _ => exact normal.elim

theorem Term.IsNormal.normalize {scope : List Name} {n : Indexed} (normal : n.IsNormal)
    (closed : n.widen.InScope scope.length) (room : scope.length + n.depth < 2 ^ 63) :
    ∃ fuel m, n.normalize fuel scope = .ok m ∧ AlphaEq m n := by
  obtain ⟨fuel, v, settles, -⟩ := normal.settles closed room
  have blanked := settles.normalize
  rw [normalize_forgetNames] at blanked
  cases normalized : n.normalize fuel scope with
  | error h =>
    rw [normalized] at blanked
    cases blanked
  | ok m =>
    rw [normalized] at blanked
    exact ⟨fuel, m, normalized, Except.ok.inj blanked⟩

/-- Whatever term is normalised, in scope and typed or not, the result is a normal form with its
variables in scope: there is no ascription in it, every function that is applied, every condition and
every negated term is stuck, and so is an operand of every operation. Up to names every such term is a
result, namely its own. -/
theorem results_are_normal_forms {scope : List Name} {n : Indexed}
    (room : scope.length + n.depth < 2 ^ 63) :
    (∀ (fuel : Nat) (t : Indexed), t.normalize fuel scope = .ok n →
      n.IsNormal ∧ n.widen.InScope scope.length) ∧
    (n.IsNormal → n.widen.InScope scope.length →
      ∃ fuel m, n.normalize fuel scope = .ok m ∧ Term.AlphaEq m n) := by
  constructor
  · intro fuel t normalized
    have reads := normalize_reads normalized room
    exact ⟨reads.normal, reads.inScope⟩
  · intro normal closed
    exact normal.normalize closed room

/-- A function chosen by a literal, applied to a sum. The other choice and the type that is ascribed
are out of scope. -/
def strayChoice : Indexed :=
  .ascribe (.app (.cond (.const (.bool true)) (.var ⟨"f", 0⟩) (.var ⟨"g", 7⟩))
    (.binop .add (.const (.int 1)) (.const (.int 2)))) (.var ⟨"T", -2⟩)

def strayChoiceNormal : Indexed := .app (.var ⟨"f", 0⟩) (.const (.int 3))

theorem results_are_normal_forms_strayChoice :
    strayChoice.normalize 9 ["f"] = .ok strayChoiceNormal ∧ ¬ strayChoice.widen.InScope 1 ∧
    ["f"].length + strayChoiceNormal.depth < 2 ^ 63 ∧
    strayChoiceNormal.IsNormal ∧ strayChoiceNormal.widen.InScope 1 := by
  have normalized : strayChoice.normalize 9 ["f"] = .ok strayChoiceNormal := by rfl
  have room : ["f"].length + strayChoiceNormal.depth < 2 ^ 63 := by decide
  have stray : ¬ strayChoice.widen.InScope 1 := fun closed => absurd closed.2.1 (by decide)
  exact ⟨normalized, stray, room, (results_are_normal_forms room).1 9 strayChoice normalized⟩

end DepCalc

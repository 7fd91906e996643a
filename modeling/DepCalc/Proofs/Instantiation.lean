import DepCalc.Proofs.Fuel
import DepCalc.Proofs.Weakening
import Mathlib.Logic.Function.Iterate

/-!
A binder is opened in two ways: evaluation keeps the value of the argument beside the body, typing
puts the argument itself into it. Normalising one or the other takes the same course. The values met
on the two ways are not the same, since closures carry other environments and other bodies; what
relates them is that each variable of a body on the one side has the value that some term standing
for it on the other side evaluates to, wherever that term has been moved.

The argument is evaluated once on the first way and at every use on the second, so that the second
needs more fuel. One induction follows both runs.
-/
namespace DepCalc

/-- `x` is what the first run gives with `fuel`. If the second run ends with as much, the two end
alike; if the first one ends, so does the second with enough fuel. -/
structure Trails {α β : Type} (related : α → β → Prop) (fuel : Nat) (x : Except Halt α)
    (y : Nat → Except Halt β) : Prop where
  back : y fuel ≠ .error .outOfFuel → Agree related x (y fuel)
  forth : x ≠ .error .outOfFuel →
    ∃ r, Agree related x r ∧ ∃ enough, ∀ more, enough ≤ more → y more = r

namespace Trails

variable {α β α' β' : Type} {related : α → β → Prop} {related' : α' → β' → Prop} {fuel : Nat}

/-- Neither side looks at the fuel. -/
theorem of_agree {x : Except Halt α} {y : Except Halt β} (agree : Agree related x y) :
    Trails related fuel x fun _ => y :=
  ⟨fun _ => agree, fun _ => ⟨y, agree, 0, fun _ _ => rfl⟩⟩

theorem fault {h h' : Halt} (left : h ≠ .outOfFuel) (right : h' ≠ .outOfFuel) :
    Trails related fuel (.error h) fun _ => .error h' :=
  .of_agree (.fault left right)

theorem succ {x : Except Halt α} {y : Nat → Except Halt β}
    (trails : Trails related fuel x fun m => y (m + 1)) : Trails related (fuel + 1) x y := by
  constructor
  · exact trails.back
  · intro finished
    obtain ⟨r, agree, enough, ends⟩ := trails.forth finished
    refine ⟨r, agree, enough + 1, fun more le => ?_⟩
    cases more with
    | zero => omega
    | succ more => exact ends more (Nat.le_of_succ_le_succ le)

theorem bind {x : Except Halt α} {y : Nat → Except Halt β} {f : α → Except Halt α'}
    {g : Nat → β → Except Halt β'} (first : Trails related fuel x y)
    (next : ∀ a b, related a b → Trails related' fuel (f a) fun m => g m b) :
    Trails related' fuel (x >>= f) fun m => y m >>= g m := by
  constructor
  · intro finished
    have agree := first.back fun stopped => finished (by simp only [stopped]; rfl)
    cases right : y fuel with
    | error h' =>
      simp only [right] at agree ⊢
      cases x with
      | error h => exact agree
      | ok a => exact agree.elim
    | ok b =>
      simp only [right] at agree finished ⊢
      cases x with
      | error h => exact agree.elim
      | ok a => exact (next a b agree).back finished
  · intro finished
    obtain ⟨r, agree, enough, ends⟩ := first.forth fun stopped => finished (by rw [stopped]; rfl)
    cases x with
    | error h =>
      cases r with
      | error h' => exact ⟨.error h', agree, enough, fun more le => by simp only [ends more le]; rfl⟩
      | ok b => exact agree.elim
    | ok a =>
      cases r with
      | error h' => exact agree.elim
      | ok b =>
        obtain ⟨r', agree', enough', ends'⟩ := (next a b agree).forth finished
        refine ⟨r', agree', max enough enough', fun more le => ?_⟩
        simp only [ends more (by omega)]
        exact ends' more (by omega)

/-- The two runs give the same answers. -/
theorem answer_iff {x y : Nat → Except Halt α} (trails : ∀ fuel, Trails Eq fuel (x fuel) y) (a : α) :
    (∃ fuel, x fuel = .ok a) ↔ ∃ fuel, y fuel = .ok a := by
  constructor
  · rintro ⟨fuel, answer⟩
    obtain ⟨r, agree, enough, ends⟩ := (trails fuel).forth (by rw [answer]; simp)
    rw [answer] at agree
    cases r with
    | error h => exact agree.elim
    | ok b =>
      obtain rfl : a = b := agree
      exact ⟨enough, ends enough (Nat.le_refl _)⟩
  · rintro ⟨fuel, answer⟩
    have agree := (trails fuel).back (by rw [answer]; simp)
    rw [answer] at agree
    cases given : x fuel with
    | error h =>
      rw [given] at agree
      exact agree.elim
    | ok b =>
      rw [given] at agree
      obtain rfl : b = a := agree
      exact ⟨fuel, given⟩

/-- One run meets a fault if and only if the other does. -/
theorem fault_iff {x : Nat → Except Halt α} {y : Nat → Except Halt β}
    (trails : ∀ fuel, Trails related fuel (x fuel) y) :
    (∃ fuel h, h ≠ .outOfFuel ∧ x fuel = .error h) ↔
      ∃ fuel h, h ≠ .outOfFuel ∧ y fuel = .error h := by
  constructor
  · rintro ⟨fuel, h, faulty, failed⟩
    obtain ⟨r, agree, enough, ends⟩ := (trails fuel).forth (by rw [failed]; simpa using faulty)
    rw [failed] at agree
    cases r with
    | error h' => exact ⟨enough, h', mt agree.mpr faulty, ends enough (Nat.le_refl _)⟩
    | ok b => exact agree.elim
  · rintro ⟨fuel, h, faulty, failed⟩
    have agree := (trails fuel).back (by rw [failed]; simpa using faulty)
    rw [failed] at agree
    cases given : x fuel with
    | error h' =>
      rw [given] at agree
      exact ⟨fuel, h', mt agree.mp faulty, given⟩
    | ok b =>
      rw [given] at agree
      exact agree.elim

end Trails

namespace Term

/-- What stands for the variables under one more binder. -/
def Lifted (stands : Nat → Indexed → Prop) : Nat → Indexed → Prop
  | 0, u => ∃ x, u = .var ⟨x, 0⟩
  | i + 1, u => ∃ w, stands i w ∧ u = w.shift 1 0

/-- The second term is the first with a term that stands for it in the place of each variable. -/
inductive Filled : (Nat → Indexed → Prop) → Indexed → Indexed → Prop
  | var {stands : Nat → Indexed → Prop} {v : Occurrence} {u : Indexed} {i : Nat}
      (word : v.ix.toInt = i) (place : stands i u) : Filled stands (.var v) u
  | const {stands : Nat → Indexed → Prop} (c : Constant) : Filled stands (.const c) (.const c)
  | binop {stands : Nat → Indexed → Prop} {l l' r r' : Indexed} (op : Operator)
      (left : Filled stands l l') (right : Filled stands r r') :
      Filled stands (.binop op l r) (.binop op l' r')
  | not {stands : Nat → Indexed → Prop} {t t' : Indexed} (operand : Filled stands t t') :
      Filled stands (.not t) (.not t')
  | app {stands : Nat → Indexed → Prop} {f f' a a' : Indexed} (fn : Filled stands f f')
      (arg : Filled stands a a') : Filled stands (.app f a) (.app f' a')
  | bind {stands : Nat → Indexed → Prop} {dom dom' body body' : Indexed} (b : Binder) (x : Name)
      (domain : Filled stands dom dom') (under : Filled (Lifted stands) body body') :
      Filled stands (.bind b x dom body) (.bind b x dom' body')
  | cond {stands : Nat → Indexed → Prop} {t t' y y' n n' : Indexed} (test : Filled stands t t')
      (yes : Filled stands y y') (no : Filled stands n n') :
      Filled stands (.cond t y n) (.cond t' y' n')
  | ascribe {stands : Nat → Indexed → Prop} {t t' type type' : Indexed}
      (subject : Filled stands t t') (ascribed : Filled stands type type') :
      Filled stands (.ascribe t type) (.ascribe t' type')

end Term

mutual

/-- A value where the environment keeps the values of variables, and the same value where terms stand
for them. The terms may be moved below any more values that there is room for. -/
inductive Value.Filled : Value → Value → Prop
  | const (c : Constant) : Value.Filled (.const c) (.const c)
  | bind {stands : Nat → Indexed → Prop} {dom dom' : Value} {env env' : List Value}
      {body body' : Indexed} (b : Binder) (x : Name) (domain : Value.Filled dom dom')
      (bounded : ∀ i u, stands i u → i < env.length)
      (values : ∀ i v u above, env[i]? = some v → stands i u →
        above.length + env'.length + u.depth < 2 ^ 63 →
        Stands v (above ++ env') ((Term.shift 1 0)^[above.length] u))
      (under : Term.Filled (Term.Lifted stands) body body')
      (room : env'.length + 1 + body'.depth < 2 ^ 63) :
      Value.Filled (.bind b dom x env body) (.bind b dom' x env' body')
  | neutral {n n' : Neutral} (waiting : Neutral.Filled n n') :
      Value.Filled (.neutral n) (.neutral n')

inductive Neutral.Filled : Neutral → Neutral → Prop
  | var (x : Name) (level : Int64) : Neutral.Filled (.var x level) (.var x level)
  | binop {l l' r r' : Value} (op : Operator) (left : Value.Filled l l')
      (right : Value.Filled r r') : Neutral.Filled (.binop op l r) (.binop op l' r')
  | not {n n' : Neutral} (operand : Neutral.Filled n n') : Neutral.Filled (.not n) (.not n')
  | app {f f' : Neutral} {a a' : Value} (fn : Neutral.Filled f f') (arg : Value.Filled a a') :
      Neutral.Filled (.app f a) (.app f' a')
  | cond {t t' : Neutral} {y y' n n' : Value} (test : Neutral.Filled t t')
      (yes : Value.Filled y y') (no : Value.Filled n n') :
      Neutral.Filled (.cond t y n) (.cond t' y' n')

/-- The term evaluates to a value that is filled in for `v`. -/
inductive Stands : Value → List Value → Indexed → Prop
  | mk {fuel : Nat} {v v' : Value} {env : List Value} {u : Indexed}
      (evaluates : eval fuel env u = .ok v') (filled : Value.Filled v v') : Stands v env u

end

/-- Each variable of the first environment has a value to which whatever stands for it evaluates in
the second one. -/
structure Env.Filled (stands : Nat → Indexed → Prop) (env env' : List Value) : Prop where
  bounded : ∀ i u, stands i u → i < env.length
  values : ∀ i v u above, env[i]? = some v → stands i u →
    above.length + env'.length + u.depth < 2 ^ 63 →
    Stands v (above ++ env') ((Term.shift 1 0)^[above.length] u)

theorem Value.Filled.fresh (x : Name) (level : Int64) :
    Value.Filled (.fresh x level) (.fresh x level) :=
  .neutral (.var x level)

namespace Term

theorem ofNat_index {v : Occurrence} {i : Nat} (word : v.ix.toInt = i) :
    (var v : Indexed) = .var ⟨v.name, Int64.ofNat i⟩ := by
  have below := v.ix.toInt_lt
  have same : v.ix = Int64.ofNat i := by
    rw [← Int64.toInt_inj, word, Int64.toInt_ofNat_of_lt (by omega)]
  rw [← same]

theorem shift_iterate_var (x : Name) {i k : Nat} (room : i + k < 2 ^ 63) :
    (shift 1 0)^[k] (.var ⟨x, Int64.ofNat i⟩ : Indexed) = .var ⟨x, Int64.ofNat (i + k)⟩ := by
  induction k with
  | zero => rfl
  | succ k ih =>
    have nonneg : ¬ Int64.ofNat (i + k) < 0 := by
      rw [Int64.lt_iff_toInt_lt, Int64.toInt_ofNat_of_lt (by omega), Int64.toInt_zero]
      omega
    rw [Function.iterate_succ_apply', ih (by omega), shift, if_neg nonneg]
    simp only [ofNat_succ, ← Nat.add_assoc]

theorem depth_shift_iterate (k : Nat) (u : Indexed) : ((shift 1 0)^[k] u).depth = u.depth := by
  induction k with
  | zero => rfl
  | succ k ih => rw [Function.iterate_succ_apply', depth_shift, ih]

end Term

theorem Env.lookup_eq {env : Env} {ix : Int64} {i : Nat} {v : Value} (word : ix.toInt = i)
    (found : env[i]? = some v) : env.lookup ix = .ok v := by
  rw [Env.lookup, atIndex?_eq word, found]

theorem Env.Filled.cons {stands : Nat → Indexed → Prop} {env env' : List Value} {v v' : Value}
    (head : Value.Filled v v') (tail : Env.Filled stands env env') :
    Env.Filled (Term.Lifted stands) (v :: env) (v' :: env') := by
  constructor
  · intro i u place
    cases i with
    | zero => exact Nat.succ_pos _
    | succ i =>
      obtain ⟨w, outer, -⟩ := place
      exact Nat.succ_lt_succ (tail.bounded i w outer)
  · intro i w u above found place room
    rw [List.length_cons] at room
    cases i with
    | zero =>
      obtain ⟨x, rfl⟩ := place
      cases found
      have moved : (Term.shift 1 0)^[above.length] (.var ⟨x, 0⟩ : Indexed) =
          .var ⟨x, Int64.ofNat (0 + above.length)⟩ :=
        Term.shift_iterate_var x (by omega : 0 + above.length < 2 ^ 63)
      have here : (above ++ v' :: env')[above.length]? = some v' := by simp
      rw [moved, Nat.zero_add]
      have evaluates : eval 1 (above ++ v' :: env') (.var ⟨x, Int64.ofNat above.length⟩) = .ok v' :=
        Env.lookup_eq (Int64.toInt_ofNat_of_lt (by omega)) here
      exact .mk evaluates head
    | succ i =>
      obtain ⟨u, outer, rfl⟩ := place
      rw [Term.depth_shift] at room
      have further := tail.values i w u (above ++ [v']) found outer (by simp; omega)
      rw [List.append_assoc, List.length_append, List.length_singleton,
        Function.iterate_succ_apply] at further
      exact further

theorem negate_filled {v v' : Value} (operand : Value.Filled v v') :
    Agree Value.Filled v.negate v'.negate := by
  cases operand with
  | const c =>
    cases c with
    | bool b => exact .const _
    | _ => exact .fault (by simp) (by simp)
  | bind => exact .fault (by simp) (by simp)
  | neutral waiting => exact .neutral (.not waiting)

theorem onValues_filled {l l' r r' : Value} (op : Operator) (left : Value.Filled l l')
    (right : Value.Filled r r') : Agree Value.Filled (op.onValues l r) (op.onValues l' r') := by
  cases left with
  | neutral waiting => exact .neutral (.binop op (.neutral waiting) right)
  | const c =>
    cases right with
    | neutral waiting => exact .neutral (.binop op (.const c) (.neutral waiting))
    | bind => exact .fault (by simp) (by simp)
    | const d =>
      simp only [Operator.onValues]
      cases op.compute? c d with
      | some result => exact .const result
      | none => exact .fault (by simp) (by simp)
  | bind b x domain bounded values under room =>
    cases right with
    | neutral waiting =>
      exact .neutral (.binop op (.bind b x domain bounded values under room) (.neutral waiting))
    | const c => exact .fault (by simp) (by simp)
    | bind => exact .fault (by simp) (by simp)

/-- A variable is looked up on one side while a term is evaluated on the other. -/
theorem lookup_filled {stands : Nat → Indexed → Prop} {env env' : Env} {ix : Int64} {i : Nat}
    {u : Indexed} {fuel : Nat} (scope : Env.Filled stands env env') (word : ix.toInt = i)
    (place : stands i u) (room : env'.length + u.depth < 2 ^ 63) :
    Trails Value.Filled fuel (env.lookup ix) fun m => eval m env' u := by
  have inside := scope.bounded i u place
  have found : env[i]? = some env[i] := List.getElem?_eq_getElem inside
  obtain ⟨evaluates, filled⟩ := scope.values i _ u [] found place (by simpa using room)
  rename_i enough v'
  change eval enough env' u = .ok v' at evaluates
  rw [Env.lookup_eq word found]
  constructor
  · intro finished
    have ends := eval_mono (Nat.le_max_left fuel enough) finished
    rw [← ends, eval_mono (Nat.le_max_right fuel enough) (by rw [evaluates]; simp), evaluates]
    exact filled
  · intro _
    refine ⟨.ok v', filled, enough, fun more le => ?_⟩
    rw [eval_mono le (by rw [evaluates]; simp), evaluates]

theorem eval_filled {stands : Nat → Indexed → Prop} (fuel : Nat) {env env' : Env} {t t' : Indexed}
    (scope : Env.Filled stands env env') (filled : Term.Filled stands t t')
    (room : env'.length + t'.depth < 2 ^ 63) :
    Trails Value.Filled fuel (eval fuel env t) fun m => eval m env' t' := by
  induction fuel generalizing stands env env' t t' with
  | zero => exact ⟨fun finished => absurd rfl finished, fun finished => absurd rfl finished⟩
  | succ fuel ih =>
    cases filled with
    | var word place => exact lookup_filled scope word place room
    | const c => exact .succ (.of_agree (.const c))
    | ascribe subject _ =>
      simp only [Term.depth] at room
      exact .succ (ih scope subject (by omega))
    | binop op left right =>
      simp only [Term.depth] at room
      apply Trails.succ
      apply (ih scope left (by omega)).bind
      intro l l' leftFilled
      apply (ih scope right (by omega)).bind
      intro r r' rightFilled
      exact .of_agree (onValues_filled op leftFilled rightFilled)
    | not operand =>
      apply Trails.succ
      apply (ih scope operand room).bind
      intro v v' operandFilled
      exact .of_agree (negate_filled operandFilled)
    | bind b x domain under =>
      simp only [Term.depth] at room
      apply Trails.succ
      apply (ih scope domain (by omega)).bind
      intro dom dom' domFilled
      exact .of_agree (Value.Filled.bind b x domFilled scope.bounded scope.values under (by omega))
    | app fn arg =>
      simp only [Term.depth] at room
      apply Trails.succ
      apply (ih scope fn (by omega)).bind
      intro f f' fnFilled
      apply (ih scope arg (by omega)).bind
      intro a a' argFilled
      cases fnFilled with
      | const c => exact .fault (by simp) (by simp)
      | neutral waiting => exact .of_agree (.neutral (.app waiting argFilled))
      | bind b x _ bounded values under room =>
        cases b with
        | lam => exact ih (Env.Filled.cons argFilled ⟨bounded, values⟩) under room
        | pi => exact .fault (by simp) (by simp)
        | sigma => exact .fault (by simp) (by simp)
    | cond test yes no =>
      simp only [Term.depth] at room
      apply Trails.succ
      apply (ih scope test (by omega)).bind
      intro v v' testFilled
      cases testFilled with
      | bind => exact .fault (by simp) (by simp)
      | neutral waiting =>
        apply (ih scope yes (by omega)).bind
        intro y y' yesFilled
        apply (ih scope no (by omega)).bind
        intro n n' noFilled
        exact .of_agree (.neutral (.cond waiting yesFilled noFilled))
      | const c =>
        cases c with
        | bool b =>
          cases b with
          | true => exact ih scope yes (by omega)
          | false => exact ih scope no (by omega)
        | _ => exact .fault (by simp) (by simp)

theorem quote_filled (fuel : Nat) :
    (∀ {level : Int64} {v v' : Value}, Value.Filled v v' →
      Trails Eq fuel (v.quote fuel level) fun m => v'.quote m level) ∧
    (∀ {level : Int64} {n n' : Neutral}, Neutral.Filled n n' →
      Trails Eq fuel (n.quote fuel level) fun m => n'.quote m level) := by
  induction fuel with
  | zero =>
    constructor <;>
      exact fun _ => ⟨fun finished => absurd rfl finished, fun finished => absurd rfl finished⟩
  | succ fuel ih =>
    obtain ⟨value, neutral⟩ := ih
    constructor
    · intro level v v' filled
      apply Trails.succ
      cases filled with
      | const c => exact .of_agree rfl
      | neutral waiting => exact neutral waiting
      | bind b x domain bounded values under room =>
        apply (value domain).bind
        rintro dom _ rfl
        have opening := Env.Filled.cons (.fresh x (level + 1)) ⟨bounded, values⟩
        apply (eval_filled fuel opening under room).bind
        intro opened opened' openedFilled
        apply (value openedFilled).bind
        rintro body _ rfl
        exact .of_agree rfl
    · intro level n n' filled
      apply Trails.succ
      cases filled with
      | var x bound =>
        simp only [Neutral.quote]
        split
        · exact .fault (by simp) (by simp)
        · exact .of_agree rfl
      | not operand =>
        apply (neutral operand).bind
        rintro t _ rfl
        exact .of_agree rfl
      | binop op left right =>
        apply (value left).bind
        rintro l _ rfl
        apply (value right).bind
        rintro r _ rfl
        exact .of_agree rfl
      | app fn arg =>
        apply (neutral fn).bind
        rintro f _ rfl
        apply (value arg).bind
        rintro a _ rfl
        exact .of_agree rfl
      | cond test yes no =>
        apply (neutral test).bind
        rintro t _ rfl
        apply (value yes).bind
        rintro y _ rfl
        apply (value no).bind
        rintro n _ rfl
        exact .of_agree rfl

namespace Term

variable {stands : Nat → Indexed → Prop}

theorem lifted_below {k i : Nat} {v : Occurrence} (word : v.ix.toInt = i) (below : i < k) :
    Lifted^[k] stands i (.var v) := by
  induction k generalizing i v with
  | zero => omega
  | succ k ih =>
    rw [Function.iterate_succ_apply']
    have fits := v.ix.toInt_lt
    cases i with
    | zero => exact ⟨v.name, ofNat_index word⟩
    | succ i =>
      have before : (Int64.ofNat i).toInt = i := Int64.toInt_ofNat_of_lt (by omega)
      refine ⟨.var ⟨v.name, Int64.ofNat i⟩, ih before (by omega), ?_⟩
      have moved := shift_iterate_var v.name (by omega : i + 1 < 2 ^ 63)
      rw [Function.iterate_one] at moved
      rw [moved, ofNat_index word]

theorem lifted_above {i : Nat} {u : Indexed} (place : stands i u) (k : Nat) :
    Lifted^[k] stands (i + k) ((shift 1 0)^[k] u) := by
  induction k with
  | zero => exact place
  | succ k ih =>
    rw [Function.iterate_succ_apply', Function.iterate_succ_apply']
    exact ⟨_, ih, rfl⟩

/-- Further out by `d`. -/
def Moved (d n : Nat) (i : Nat) (u : Indexed) : Prop :=
  i < n ∧ ∃ x, u = .var ⟨x, Int64.ofNat (i + d)⟩

theorem Shifted.filled {d c n : Nat} {t t' : Indexed} (shifted : Shifted Eq d c n t t')
    (scope : t.widen.InScope n) (inner : c ≤ n) (room : n + d + t.depth < 2 ^ 63) :
    Filled (Lifted^[c] (Moved d (n - c))) t t' := by
  induction shifted with
  | @var c n v v' named moved =>
    simp only [widen, InScope] at scope
    rcases moved with ⟨i, inside, word, word'⟩ | ⟨beyond, -⟩
    · refine .var word ?_
      unfold raise at word'
      split at word'
      · rename_i below
        exact lifted_below word' below
      · rename_i above
        have place : Moved d (n - c) (i - c) (.var ⟨v'.name, Int64.ofNat (i - c + d)⟩) :=
          ⟨by omega, v'.name, rfl⟩
        have lifted := lifted_above place c
        rw [shift_iterate_var v'.name (by omega), Nat.sub_add_cancel (by omega)] at lifted
        rw [ofNat_index word']
        rwa [show i + d = i - c + d + c by omega]
    · simp only [Beyond] at beyond
      omega
  | const k => exact .const k
  | binop op _ _ left right =>
    simp only [depth] at room
    exact .binop op (left scope.1 inner (by omega)) (right scope.2 inner (by omega))
  | not _ operand => exact .not (operand scope inner room)
  | app _ _ fn arg =>
    simp only [depth] at room
    exact .app (fn scope.1 inner (by omega)) (arg scope.2 inner (by omega))
  | @bind c n x x' _ _ _ _ b named _ _ domain under =>
    simp only [depth] at room
    obtain rfl := named
    refine .bind b x (domain scope.1 inner (by omega)) ?_
    have body := under scope.2 (by omega) (by omega)
    rwa [Function.iterate_succ_apply', Nat.add_sub_add_right] at body
  | cond _ _ _ test yes no =>
    simp only [depth] at room
    exact .cond (test scope.1 inner (by omega)) (yes scope.2.1 inner (by omega))
      (no scope.2.2 inner (by omega))
  | ascribe _ _ subject ascribed =>
    simp only [depth] at room
    exact .ascribe (subject scope.1 inner (by omega)) (ascribed scope.2 inner (by omega))

/-- What is in scope is moved to one place only. -/
theorem Shifted.unique {d c n : Nat} {t t' t'' : Indexed} (first : Shifted Eq d c n t t')
    (second : Shifted Eq d c n t t'') (scope : t.widen.InScope n) : t' = t'' := by
  induction first generalizing t'' with
  | @var c n v v' named moved =>
    cases second with
    | @var _ _ _ v'' named' moved' =>
      simp only [widen, InScope] at scope
      rcases moved with ⟨i, -, word, place⟩ | ⟨beyond, -⟩
      · rcases moved' with ⟨j, -, word', place'⟩ | ⟨beyond, -⟩
        · obtain rfl : i = j := by omega
          rw [ofNat_index place, ofNat_index place', ← named, ← named']
        · simp only [Beyond] at beyond
          omega
      · simp only [Beyond] at beyond
        omega
  | const k =>
    cases second
    rfl
  | binop op _ _ left right =>
    cases second with
    | binop _ left' right' => rw [left left' scope.1, right right' scope.2]
  | not _ operand =>
    cases second with
    | not operand' => rw [operand operand' scope]
  | app _ _ fn arg =>
    cases second with
    | app fn' arg' => rw [fn fn' scope.1, arg arg' scope.2]
  | bind b named _ _ domain under =>
    cases second with
    | bind _ named' domain' under' =>
      rw [domain domain' scope.1, under under' scope.2, ← named, ← named']
  | cond _ _ _ test yes no =>
    cases second with
    | cond test' yes' no' => rw [test test' scope.1, yes yes' scope.2.1, no no' scope.2.2]
  | ascribe _ _ subject ascribed =>
    cases second with
    | ascribe subject' ascribed' => rw [subject subject' scope.1, ascribed ascribed' scope.2]

theorem shifted_iterate {n : Nat} {u : Indexed} (d : Nat) (room : n + d + u.depth < 2 ^ 63) :
    Shifted Eq d 0 n u ((shift 1 0)^[d] u) := by
  induction d with
  | zero => exact .refl (fun _ => rfl) 0 n u
  | succ d ih =>
    rw [Function.iterate_succ_apply']
    refine (ih (by omega)).shift (k := 0) (by decide) ?_ rfl (Nat.zero_le _) (Nat.zero_le _) ?_
    · rw [Int64.toInt_one]
      omega
    · omega

/-- The variable of the binder is the argument, the others are nearer by one. -/
def Opened (s : Indexed) (n : Nat) : Nat → Indexed → Prop
  | 0, u => u = s
  | i + 1, u => i < n ∧ ∃ x, u = .var ⟨x, Int64.ofNat i⟩

/-- Under `k` binders of the body the argument has been shifted past these. -/
theorem filled_contract {n k : Nat} {s t : Indexed} {j : Int64} (arg : s.widen.InScope n)
    (scope : t.widen.InScope (n + k + 1)) (word : j.toInt = k)
    (room : n + k + 1 + s.depth + t.depth < 2 ^ 63) :
    Filled (Lifted^[k] (Opened s n)) t
      ((subst j ((shift 1 0)^[k + 1] s) t).shift (-1) j) := by
  induction t generalizing k j with
  | var v =>
    simp only [widen, InScope] at scope
    have nonneg : 0 ≤ v.ix.toInt := scope.1
    obtain ⟨i, index⟩ := Int.eq_ofNat_of_zero_le nonneg
    simp only [subst, ← Int64.toInt_inj, index, word]
    by_cases same : (i : Int) = k
    · rw [if_pos same]
      have shifted := shifted_iterate (n := n) (u := s) (k + 1) (by omega)
      have lowered : Shifted Eq k 0 n s (((shift 1 0)^[k + 1] s).shift (-1) j) := by
        refine shifted.shift (k := k) (by decide) ?_ ?_ (Nat.le_succ k) (Nat.zero_le _) (by omega)
        · change ((k + 1 : Nat) : Int) + -1 = k
          omega
        · rw [word]
          omega
      rw [lowered.unique (shifted_iterate k (by omega)) arg]
      have place : Opened s n 0 s := rfl
      have lifted := lifted_above place k
      rw [Nat.zero_add] at lifted
      exact .var (i := k) (by omega) lifted
    · rw [if_neg same]
      simp only [shift, Int64.lt_iff_toInt_lt, index, word]
      by_cases below : (i : Int) < k
      · rw [if_pos below]
        exact .var index (lifted_below index (by omega))
      · rw [if_neg below]
        obtain ⟨m, rfl⟩ : ∃ m, i = m + 1 + k := ⟨i - k - 1, by omega⟩
        have minus : (-1 : Int64).toInt = -1 := by decide
        have lowered : (v.ix + -1).toInt = (m + k : Nat) := by
          rw [toInt_add_of_fits (by rw [minus]; omega) (by rw [minus]; omega), minus]
          omega
        have place : Opened s n (m + 1) (.var ⟨v.name, Int64.ofNat m⟩) :=
          ⟨by omega, v.name, rfl⟩
        have lifted := lifted_above place k
        rw [shift_iterate_var v.name (by omega)] at lifted
        rw [ofNat_index (v := ⟨v.name, v.ix + -1⟩) lowered]
        exact .var index lifted
  | const c => exact .const c
  | binop op l r left right =>
    simp only [depth] at room
    exact .binop op (left scope.1 word (by omega)) (right scope.2 word (by omega))
  | not t operand => exact .not (operand scope word room)
  | app f a fn argument =>
    simp only [depth] at room
    exact .app (fn scope.1 word (by omega)) (argument scope.2 word (by omega))
  | bind b x dom body domain under =>
    simp only [depth] at room
    have next : (j + 1).toInt = (k + 1 : Nat) := by
      rw [toInt_succ_of_fits (by omega), word]
      omega
    have inside := under (k := k + 1) scope.2 next (by omega)
    rw [Function.iterate_succ_apply', Function.iterate_succ_apply'] at inside
    exact .bind b x (domain scope.1 word (by omega)) inside
  | cond t yes no test first second =>
    simp only [depth] at room
    exact .cond (test scope.1 word (by omega)) (first scope.2.1 word (by omega))
      (second scope.2.2 word (by omega))
  | ascribe t type subject ascribed =>
    simp only [depth] at room
    exact .ascribe (subject scope.1 word (by omega)) (ascribed scope.2 word (by omega))

theorem filled_instantiate {n : Nat} {s t : Indexed} (arg : s.widen.InScope n)
    (scope : t.widen.InScope (n + 1)) (room : n + 1 + s.depth + t.depth < 2 ^ 63) :
    Filled (Opened s n) t (instantiate s t) :=
  filled_contract (k := 0) arg scope rfl room

end Term

theorem getElem?_ofNames {names : List Name} {i : Nat} {v : Value}
    (found : (Env.ofNames names)[i]? = some v) : ∃ x level, v = Value.fresh x level := by
  rw [Env.ofNames, getElem?_descending, Option.map_eq_some_iff] at found
  obtain ⟨x, -, rfl⟩ := found
  exact ⟨x, _, rfl⟩

/-- Variables that stand for variables further in are found there under any more values. -/
theorem Env.Filled.moved {names : List Name} (above : List Value) :
    Env.Filled (Term.Moved above.length names.length) (Env.ofNames names)
      (above ++ Env.ofNames names) := by
  constructor
  · rintro i u ⟨inside, -⟩
    rwa [length_ofNames]
  · rintro i v u more found ⟨inside, x, rfl⟩ room
    rw [List.length_append, length_ofNames] at room
    rw [Term.shift_iterate_var x (by omega)]
    have here : (more ++ (above ++ Env.ofNames names))[i + above.length + more.length]? = some v := by
      rw [List.getElem?_append_right (by omega), List.getElem?_append_right (by omega)]
      rw [← found]
      congr 1
      omega
    obtain ⟨y, level, rfl⟩ := getElem?_ofNames found
    have evaluates : eval 1 (more ++ (above ++ Env.ofNames names))
        (.var ⟨x, Int64.ofNat (i + above.length + more.length)⟩) = .ok (.fresh y level) :=
      Env.lookup_eq (Int64.toInt_ofNat_of_lt (by omega)) here
    exact .mk evaluates (.fresh y level)

/-- The argument evaluates, below any more values, to what its value is filled in for. -/
theorem Env.Filled.opened {names : List Name} {fuel : Nat} {s : Indexed} {v : Value}
    (arg : s.widen.InScope names.length) (evaluates : eval fuel (Env.ofNames names) s = .ok v) :
    Env.Filled (Term.Opened s names.length) (v :: Env.ofNames names) (Env.ofNames names) := by
  constructor
  · intro i u place
    cases i with
    | zero => exact Nat.succ_pos _
    | succ i =>
      rw [List.length_cons, length_ofNames]
      exact Nat.succ_lt_succ place.1
  · intro i w u above found place room
    rw [length_ofNames] at room
    cases i with
    | zero =>
      cases found
      obtain rfl : u = s := place
      have shifted := Term.shifted_iterate (n := names.length) (u := u) above.length (by omega)
      have filled := shifted.filled arg (Nat.zero_le _) (by omega)
      have follows := eval_filled fuel (Env.Filled.moved above) filled (by
        rw [List.length_append, length_ofNames, Term.depth_shift_iterate]
        omega)
      obtain ⟨r, agree, enough, ends⟩ := follows.forth (by rw [evaluates]; simp)
      rw [evaluates] at agree
      cases r with
      | error h => exact agree.elim
      | ok v' => exact .mk (ends enough (Nat.le_refl _)) agree
    | succ i =>
      have room' : above.length + ([] ++ Env.ofNames names).length + u.depth < 2 ^ 63 := by
        rw [List.nil_append, length_ofNames]
        omega
      exact (Env.Filled.moved []).values i w u above found place room'

/-- With enough fuel for the domain and the argument, a redex is evaluated by opening its binder. -/
theorem eval_redex {fuel fuel' more : Nat} {env : Env} {x : Name} {dom s t : Indexed}
    {domain v : Value} (evaluatesDom : eval fuel env dom = .ok domain)
    (evaluates : eval fuel' env s = .ok v) (enough : fuel ≤ more) (enough' : fuel' ≤ more) :
    eval (more + 2) env (.app (.bind .lam x dom t) s) = eval (more + 1) (v :: env) t := by
  have first : eval more env dom = .ok domain := by
    rw [eval_mono enough (by rw [evaluatesDom]; simp), evaluatesDom]
  have second : eval (more + 1) env s = .ok v := by
    rw [eval_mono (Nat.le_succ_of_le enough') (by rw [evaluates]; simp), evaluates]
  have closure : eval (more + 1) env (.bind .lam x dom t) = .ok (.bind .lam domain x env t) := by
    rw [eval, first]
    rfl
  rw [eval, closure, second]
  rfl

/-- Normalising a redex ends as reading back the value of the opened body does. -/
theorem normalize_redex_iff {fuel fuel' : Nat} {scope : List Name} {x : Name} {dom s t : Indexed}
    {domain v : Value} {r : Except Halt Indexed}
    (evaluatesDom : eval fuel (Env.ofNames scope) dom = .ok domain)
    (evaluates : eval fuel' (Env.ofNames scope) s = .ok v) (finished : r ≠ .error .outOfFuel) :
    (∃ m, Term.normalize m scope (.app (.bind .lam x dom t) s) = r) ↔
      ∃ m, (eval m (v :: Env.ofNames scope) t >>= fun opened =>
        opened.quote m (Int64.ofNat scope.length)) = r := by
  have opens (m : Nat) (le : max fuel fuel' ≤ m) :
      Term.normalize (m + 2) scope (.app (.bind .lam x dom t) s) =
        eval (m + 1) (v :: Env.ofNames scope) t >>= fun opened =>
          opened.quote (m + 2) (Int64.ofNat scope.length) := by
    rw [Term.normalize, eval_redex evaluatesDom evaluates (by omega) (by omega)]
  constructor
  · rintro ⟨m, rfl⟩
    have more : m ≤ max m (max fuel fuel') + 2 := by omega
    have longer := normalize_mono more finished
    rw [opens _ (Nat.le_max_right _ _)] at longer
    refine ⟨max m (max fuel fuel') + 2, ?_⟩
    rw [← longer]
    exact bind_eq_of_finished (eval_mono (Nat.le_succ _)) (fun _ _ => rfl) (longer ▸ finished)
  · rintro ⟨m, rfl⟩
    refine ⟨max m (max fuel fuel') + 2, ?_⟩
    rw [opens _ (Nat.le_max_right _ _)]
    exact bind_eq_of_finished (eval_mono (by omega)) (fun _ => quote_mono (by omega)) finished

/-- A redex and the body with the argument in it are normalised alike: the same normal forms are
reached, and one meets a fault if and only if the other does. -/
theorem redex_normalizes_as_instance {fuel fuel' : Nat} {scope : List Name} {x : Name}
    {dom s t : Indexed} {domain v : Value}
    (evaluatesDom : eval fuel (Env.ofNames scope) dom = .ok domain)
    (evaluates : eval fuel' (Env.ofNames scope) s = .ok v)
    (argScope : s.widen.InScope scope.length) (bodyScope : t.widen.InScope (scope.length + 1))
    (room : scope.length + 1 + s.depth + t.depth < 2 ^ 63) :
    (∀ n, (∃ m, Term.normalize m scope (.app (.bind .lam x dom t) s) = .ok n) ↔
      ∃ m, (Term.instantiate s t).normalize m scope = .ok n) ∧
    ((∃ m h, h ≠ .outOfFuel ∧ Term.normalize m scope (.app (.bind .lam x dom t) s) = .error h) ↔
      ∃ m h, h ≠ .outOfFuel ∧ (Term.instantiate s t).normalize m scope = .error h) := by
  have filled := Term.filled_instantiate argScope bodyScope room
  have depth := Term.depth_instantiate_le s t
  have fits : (Env.ofNames scope).length + (Term.instantiate s t).depth < 2 ^ 63 := by
    rw [length_ofNames]
    omega
  have follows (m : Nat) : Trails Eq m
      (eval m (v :: Env.ofNames scope) t >>= fun opened =>
        opened.quote m (Int64.ofNat scope.length))
      fun m => (Term.instantiate s t).normalize m scope := by
    apply (eval_filled m (.opened argScope evaluates) filled fits).bind
    intro opened opened' openedFilled
    exact (quote_filled m).1 openedFilled
  have opens {r : Except Halt Indexed} (finished : r ≠ .error .outOfFuel) :=
    normalize_redex_iff (x := x) (t := t) evaluatesDom evaluates finished
  constructor
  · intro n
    rw [opens (by simp)]
    exact Trails.answer_iff follows n
  · rw [← Trails.fault_iff follows]
    constructor
    · rintro ⟨m, h, faulty, failed⟩
      obtain ⟨m', failed'⟩ := (opens (by simpa using faulty)).mp ⟨m, failed⟩
      exact ⟨m', h, faulty, failed'⟩
    · rintro ⟨m, h, faulty, failed⟩
      obtain ⟨m', failed'⟩ := (opens (by simpa using faulty)).mpr ⟨m, failed⟩
      exact ⟨m', h, faulty, failed'⟩

/-- Adds the variable outside to its own. -/
def plusOuter : Indexed :=
  .bind .lam "z" (.const .intType) (.binop .add (.var ⟨"z", 0⟩) (.var ⟨"y", 1⟩))

def plusOuterValue : Value :=
  .bind .lam (.const .intType) "z" (Env.ofNames ["y"])
    (.binop .add (.var ⟨"z", 0⟩) (.var ⟨"y", 1⟩))

/-- A function that applies the variable outside to its own. -/
def applyOuter : Indexed :=
  .bind .lam "x" (.const .intType) (.app (.var ⟨"f", 1⟩) (.var ⟨"x", 0⟩))

/-- The argument, itself a function that captures its environment, is used under a binder of the body
and applied to the variable of that. -/
theorem redex_normalizes_as_instance_captured :
    (eval 5 (Env.ofNames ["y"]) (.const .intType) = .ok (.const .intType) ∧
      eval 5 (Env.ofNames ["y"]) plusOuter = .ok plusOuterValue) ∧
    ((∀ n, (∃ m, Term.normalize m ["y"] (.app (.bind .lam "f" (.const .intType) applyOuter) plusOuter) =
        .ok n) ↔ ∃ m, (Term.instantiate plusOuter applyOuter).normalize m ["y"] = .ok n) ∧
      ((∃ m h, h ≠ .outOfFuel ∧
          Term.normalize m ["y"] (.app (.bind .lam "f" (.const .intType) applyOuter) plusOuter) =
            .error h) ↔
        ∃ m h, h ≠ .outOfFuel ∧
          (Term.instantiate plusOuter applyOuter).normalize m ["y"] = .error h)) := by
  have dom : eval 5 (Env.ofNames ["y"]) (.const .intType) = .ok (.const .intType) := by rfl
  have arg : eval 5 (Env.ofNames ["y"]) plusOuter = .ok plusOuterValue := by rfl
  have argScope : plusOuter.widen.InScope ["y"].length :=
    ⟨trivial, ⟨by decide, by decide⟩, by decide, by decide⟩
  have bodyScope : applyOuter.widen.InScope (["y"].length + 1) :=
    ⟨trivial, ⟨by decide, by decide⟩, by decide, by decide⟩
  exact ⟨⟨dom, arg⟩, redex_normalizes_as_instance dom arg argScope bodyScope (by decide)⟩

end DepCalc

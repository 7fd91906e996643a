import DepCalc.Proofs.Meaning

/-!
Evaluation in a larger scope. If more variables are brought into scope and the indices are shifted to
make room for them, evaluation, reading back and normalisation take the same course: both end with
answers that differ by the same shift, both run out of fuel, or both meet a fault. This holds of all
terms, typed or not. Names play no part in it; a relation between them is handed on.
-/
namespace DepCalc

open Term (raise)

/-- Two computations end alike. -/
def Agree {α β : Type} (related : α → β → Prop) : Except Halt α → Except Halt β → Prop
  | .ok a, .ok b => related a b
  | .error h, .error h' => h = .outOfFuel ↔ h' = .outOfFuel
  | _, _ => False

namespace Agree

variable {α β α' β' : Type} {related : α → β → Prop} {related' : α' → β' → Prop}

theorem fault {h h' : Halt} (left : h ≠ .outOfFuel) (right : h' ≠ .outOfFuel) :
    Agree related (.error h) (.error h') :=
  iff_of_false left right

theorem bind {x : Except Halt α} {y : Except Halt β} {f : α → Except Halt α'}
    {g : β → Except Halt β'} (first : Agree related x y)
    (next : ∀ a b, related a b → Agree related' (f a) (g b)) :
    Agree related' (x >>= f) (y >>= g) := by
  cases x with
  | error h =>
    cases y with
    | error h' => exact first
    | ok b => exact first.elim
  | ok a =>
    cases y with
    | error h' => exact first.elim
    | ok b => exact next a b first

/-- What else is known of the first answer may be used. -/
theorem mono {related' : α → β → Prop} {x : Except Halt α} {y : Except Halt β}
    (agree : Agree related x y)
    (weaker : ∀ a b, x = .ok a → related a b → related' a b) : Agree related' x y := by
  cases x with
  | error h =>
    cases y with
    | error h' => exact agree
    | ok b => exact agree.elim
  | ok a =>
    cases y with
    | error h' => exact agree.elim
    | ok b => exact weaker a b rfl agree

end Agree

/-- No variable of a scope of `n` has this index. -/
def Beyond (n : Nat) (ix : Int64) : Prop :=
  ix.toInt < 0 ∨ n ≤ ix.toInt

/-- An index in a scope of `n` variables, and where it is once `d` variables have been brought in
below the `c` innermost ones. Indices beyond the scope stay beyond it. -/
def ShiftedIndex (d c n : Nat) (ix ix' : Int64) : Prop :=
  (∃ i : Nat, i < n ∧ ix.toInt = i ∧ ix'.toInt = raise d c i) ∨ Beyond n ix ∧ Beyond (n + d) ix'

/-- A term in a scope of `n` variables, and the same term in the larger scope. -/
inductive Term.Shifted (same : Name → Name → Prop) (d : Nat) : Nat → Nat → Indexed → Indexed → Prop
  | var {c n : Nat} {v v' : Occurrence} (named : same v.name v'.name)
      (moved : ShiftedIndex d c n v.ix v'.ix) : Shifted same d c n (.var v) (.var v')
  | const {c n : Nat} (k : Constant) : Shifted same d c n (.const k) (.const k)
  | binop {c n : Nat} {l l' r r' : Indexed} (op : Operator) (left : Shifted same d c n l l')
      (right : Shifted same d c n r r') : Shifted same d c n (.binop op l r) (.binop op l' r')
  | not {c n : Nat} {t t' : Indexed} (operand : Shifted same d c n t t') :
      Shifted same d c n (.not t) (.not t')
  | app {c n : Nat} {f f' a a' : Indexed} (fn : Shifted same d c n f f')
      (arg : Shifted same d c n a a') : Shifted same d c n (.app f a) (.app f' a')
  | bind {c n : Nat} {x x' : Name} {dom dom' body body' : Indexed} (b : Binder) (named : same x x')
      (domain : Shifted same d c n dom dom') (under : Shifted same d (c + 1) (n + 1) body body') :
      Shifted same d c n (.bind b x dom body) (.bind b x' dom' body')
  | cond {c n : Nat} {t t' y y' e e' : Indexed} (test : Shifted same d c n t t')
      (yes : Shifted same d c n y y') (no : Shifted same d c n e e') :
      Shifted same d c n (.cond t y e) (.cond t' y' e')
  | ascribe {c n : Nat} {t t' type type' : Indexed} (subject : Shifted same d c n t t')
      (ascribed : Shifted same d c n type type') :
      Shifted same d c n (.ascribe t type) (.ascribe t' type')

mutual

/-- A value, and the same value where `d` variables have been brought in above level `g`. -/
inductive Value.Shifted (same : Name → Name → Prop) (d g : Nat) : Value → Value → Prop
  | const (k : Constant) : Value.Shifted same d g (.const k) (.const k)
  | bind {c : Nat} {dom dom' : Value} {x x' : Name} {env env' : List Value} {body body' : Indexed}
      (b : Binder) (named : same x x') (domain : Value.Shifted same d g dom dom')
      (length : env'.length = env.length + d)
      (values : ∀ i v v', env[i]? = some v → env'[raise d c i]? = some v' →
        Value.Shifted same d g v v')
      (under : Term.Shifted same d (c + 1) (env.length + 1) body body') :
      Value.Shifted same d g (.bind b dom x env body) (.bind b dom' x' env' body')
  | neutral {n n' : Neutral} (waiting : Neutral.Shifted same d g n n') :
      Value.Shifted same d g (.neutral n) (.neutral n')

inductive Neutral.Shifted (same : Name → Name → Prop) (d g : Nat) : Neutral → Neutral → Prop
  | var {x x' : Name} {bound bound' : Int64} {l : Nat} (named : same x x') (low : 1 ≤ l)
      (word : bound.toInt = l) (word' : bound'.toInt = raise d (g + 1) l) :
      Neutral.Shifted same d g (.var x bound) (.var x' bound')
  | binop {l l' r r' : Value} (op : Operator) (left : Value.Shifted same d g l l')
      (right : Value.Shifted same d g r r') :
      Neutral.Shifted same d g (.binop op l r) (.binop op l' r')
  | not {n n' : Neutral} (operand : Neutral.Shifted same d g n n') :
      Neutral.Shifted same d g (.not n) (.not n')
  | app {f f' : Neutral} {a a' : Value} (fn : Neutral.Shifted same d g f f')
      (arg : Value.Shifted same d g a a') : Neutral.Shifted same d g (.app f a) (.app f' a')
  | cond {t t' : Neutral} {y y' e e' : Value} (test : Neutral.Shifted same d g t t')
      (yes : Value.Shifted same d g y y') (no : Value.Shifted same d g e e') :
      Neutral.Shifted same d g (.cond t y e) (.cond t' y' e')

end

structure Env.Shifted (same : Name → Name → Prop) (d g c : Nat) (env env' : List Value) : Prop where
  length : env'.length = env.length + d
  values : ∀ i v v', env[i]? = some v → env'[raise d c i]? = some v' → Value.Shifted same d g v v'

variable {same : Name → Name → Prop} {d g c : Nat}

theorem raise_lt {n i : Nat} (inside : i < n) : raise d c i < n + d := by
  unfold raise
  split <;> omega

theorem Env.Shifted.cons {env env' : List Value} {v v' : Value}
    (head : Value.Shifted same d g v v') (tail : Env.Shifted same d g c env env') :
    Env.Shifted same d g (c + 1) (v :: env) (v' :: env') := by
  constructor
  · simp only [List.length_cons, tail.length]
    omega
  · intro i w w' found found'
    rw [← Term.lift_raise] at found'
    cases i with
    | zero =>
      cases found
      cases found'
      exact head
    | succ i => exact tail.values i w w' found found'

theorem atIndex?_eq {α : Type} {entries : List α} {ix : Int64} {i : Nat} (word : ix.toInt = i) :
    atIndex? entries ix = entries[i]? := by
  have index : ix.toNatClampNeg = i := by
    rw [← Int64.toNat_toInt, word, Int.toNat_natCast]
  rw [atIndex?, if_neg (by rw [Int64.lt_iff_toInt_lt, word]; simp), index]

theorem atIndex?_beyond {α : Type} {entries : List α} {ix : Int64}
    (beyond : Beyond entries.length ix) : atIndex? entries ix = none := by
  unfold atIndex?
  split
  · rfl
  · rename_i nonneg
    rw [Int64.lt_iff_toInt_lt, Int64.toInt_zero] at nonneg
    rw [List.getElem?_eq_none_iff, ← Int64.toNat_toInt]
    rcases beyond with negative | outside <;> omega

theorem Env.Shifted.lookup {env env' : Env} {ix ix' : Int64} (scope : Env.Shifted same d g c env env')
    (moved : ShiftedIndex d c env.length ix ix') :
    Agree (Value.Shifted same d g) (env.lookup ix) (env'.lookup ix') := by
  unfold Env.lookup
  rcases moved with ⟨i, inside, word, word'⟩ | ⟨beyond, beyond'⟩
  · have inside' : raise d c i < env'.length := by
      rw [scope.length]
      exact raise_lt inside
    rw [atIndex?_eq word, atIndex?_eq word', List.getElem?_eq_getElem inside,
      List.getElem?_eq_getElem inside']
    exact scope.values i _ _ (List.getElem?_eq_getElem inside) (List.getElem?_eq_getElem inside')
  · rw [atIndex?_beyond beyond, atIndex?_beyond (by rw [scope.length]; exact beyond')]
    exact .fault (by simp) (by simp)

theorem negate_shifted {v v' : Value} (operand : Value.Shifted same d g v v') :
    Agree (Value.Shifted same d g) v.negate v'.negate := by
  cases operand with
  | const k =>
    cases k with
    | bool b => exact .const _
    | _ => exact .fault (by simp) (by simp)
  | bind => exact .fault (by simp) (by simp)
  | neutral waiting => exact .neutral (.not waiting)

theorem onValues_shifted {l l' r r' : Value} (op : Operator) (left : Value.Shifted same d g l l')
    (right : Value.Shifted same d g r r') :
    Agree (Value.Shifted same d g) (op.onValues l r) (op.onValues l' r') := by
  cases left with
  | neutral waiting => exact .neutral (.binop op (.neutral waiting) right)
  | const k =>
    cases right with
    | neutral waiting => exact .neutral (.binop op (.const k) (.neutral waiting))
    | bind => exact .fault (by simp) (by simp)
    | const k' =>
      simp only [Operator.onValues]
      cases op.compute? k k' with
      | some result => exact .const result
      | none => exact .fault (by simp) (by simp)
  | bind b named domain length values under =>
    cases right with
    | neutral waiting =>
      exact .neutral (.binop op (.bind b named domain length values under) (.neutral waiting))
    | const k => exact .fault (by simp) (by simp)
    | bind => exact .fault (by simp) (by simp)

theorem eval_shifted {fuel : Nat} {env env' : Env} {t t' : Indexed}
    (scope : Env.Shifted same d g c env env') (shifted : Term.Shifted same d c env.length t t') :
    Agree (Value.Shifted same d g) (eval fuel env t) (eval fuel env' t') := by
  induction fuel generalizing c env env' t t' with
  | zero => exact Iff.rfl
  | succ fuel ih =>
    cases shifted with
    | var named moved => exact scope.lookup moved
    | const k => exact .const k
    | ascribe subject _ => exact ih scope subject
    | binop op left right =>
      exact (ih scope left).bind fun _ _ leftShifted =>
        (ih scope right).bind fun _ _ rightShifted => onValues_shifted op leftShifted rightShifted
    | not operand => exact (ih scope operand).bind fun _ _ => negate_shifted
    | bind b named domain under =>
      exact (ih scope domain).bind fun _ _ domShifted =>
        Value.Shifted.bind b named domShifted scope.length scope.values under
    | app fn arg =>
      apply (ih scope fn).bind
      intro f f' fnShifted
      apply (ih scope arg).bind
      intro a a' argShifted
      cases fnShifted with
      | const k => exact .fault (by simp) (by simp)
      | neutral waiting => exact .neutral (.app waiting argShifted)
      | bind b _ _ length values under =>
        cases b with
        | lam =>
          have inside := Env.Shifted.cons argShifted ⟨length, values⟩
          exact ih inside under
        | pi => exact .fault (by simp) (by simp)
        | sigma => exact .fault (by simp) (by simp)
    | cond test yes no =>
      apply (ih scope test).bind
      intro v v' testShifted
      cases testShifted with
      | bind => exact .fault (by simp) (by simp)
      | neutral waiting =>
        exact (ih scope yes).bind fun _ _ yesShifted =>
          (ih scope no).bind fun _ _ noShifted => .neutral (.cond waiting yesShifted noShifted)
      | const k =>
        cases k with
        | bool b =>
          cases b with
          | true => exact ih scope yes
          | false => exact ih scope no
        | _ => exact .fault (by simp) (by simp)

theorem toInt_ofNat_sub {level : Nat} {bound : Int64} (room : level < 2 ^ 63)
    (low : 0 ≤ bound.toInt) : (Int64.ofNat level - bound).toInt = level - bound.toInt := by
  have high := bound.toInt_lt
  rw [Int64.toInt_sub, Int64.toInt_ofNat_of_lt room]
  exact Int.bmod_eq_of_le (by omega) (by omega)

theorem quote_var_shifted {n l : Nat} {x x' : Name} {bound bound' : Int64} (fuel : Nat)
    (outer : g ≤ n) (room : n + d < 2 ^ 63) (named : same x x') (low : 1 ≤ l)
    (word : bound.toInt = l) (word' : bound'.toInt = raise d (g + 1) l) :
    Agree (Term.Shifted same d (n - g) n)
      ((Neutral.var x bound).quote (fuel + 1) (Int64.ofNat n))
      ((Neutral.var x' bound').quote (fuel + 1) (Int64.ofNat (n + d))) := by
  have index := toInt_ofNat_sub (by omega : n < 2 ^ 63) (by omega : 0 ≤ bound.toInt)
  have index' := toInt_ofNat_sub room (by omega : 0 ≤ bound'.toInt)
  simp only [Neutral.quote, Int64.lt_iff_toInt_lt, Int64.toInt_zero]
  rw [index, index', word, word']
  have level' : raise d (g + 1) l ≤ n + d ↔ l ≤ n := by
    unfold raise
    split <;> omega
  by_cases inside : l ≤ n
  · rw [if_neg (by omega), if_neg (by omega)]
    refine .var named (.inl ⟨n - l, by omega, ?_, ?_⟩)
    · rw [index, word]
      omega
    · rw [index', word']
      unfold raise
      split <;> split <;> omega
  · rw [if_pos (by omega), if_pos (by omega)]
    exact .fault (by simp) (by simp)

theorem quote_shifted (fuel : Nat) :
    (∀ {n : Nat} {v v' : Value}, g ≤ n → n + d + fuel < 2 ^ 63 → Value.Shifted same d g v v' →
      Agree (Term.Shifted same d (n - g) n) (v.quote fuel (Int64.ofNat n))
        (v'.quote fuel (Int64.ofNat (n + d)))) ∧
    (∀ {n : Nat} {u u' : Neutral}, g ≤ n → n + d + fuel < 2 ^ 63 → Neutral.Shifted same d g u u' →
      Agree (Term.Shifted same d (n - g) n) (u.quote fuel (Int64.ofNat n))
        (u'.quote fuel (Int64.ofNat (n + d)))) := by
  induction fuel with
  | zero => exact ⟨fun _ _ _ => Iff.rfl, fun _ _ _ => Iff.rfl⟩
  | succ fuel ih =>
    obtain ⟨value, neutral⟩ := ih
    constructor
    · intro n v v' outer room shifted
      cases shifted with
      | const k => exact .const k
      | neutral waiting => exact neutral outer (by omega) waiting
      | @bind c dom dom' x x' env env' body body' b named domain length values under =>
        simp only [Value.quote, ofNat_succ]
        have cut : n + 1 - g = n - g + 1 := by omega
        have next : n + d + 1 = n + 1 + d := by omega
        have fresh : Value.Shifted same d g (.fresh x (Int64.ofNat (n + 1)))
            (.fresh x' (Int64.ofNat (n + 1 + d))) := by
          refine .neutral (.var named (l := n + 1) (by omega) ?_ ?_)
          · exact Int64.toInt_ofNat_of_lt (by omega)
          · rw [Int64.toInt_ofNat_of_lt (by omega), raise, if_neg (by omega)]
        have opening := Env.Shifted.cons fresh ⟨length, values⟩
        rw [next]
        apply (value outer (by omega) domain).bind
        intro a a' domShifted
        apply (eval_shifted opening under).bind
        intro w w' opened
        have reads := value (n := n + 1) (by omega) (by omega) opened
        rw [cut] at reads
        exact reads.bind fun _ _ bodyShifted => Term.Shifted.bind b named domShifted bodyShifted
    · intro n u u' outer room shifted
      cases shifted with
      | var named low word word' =>
        exact quote_var_shifted fuel outer (by omega) named low word word'
      | not operand =>
        exact (neutral outer (by omega) operand).bind fun _ _ shifted => .not shifted
      | binop op left right =>
        exact (value outer (by omega) left).bind fun _ _ leftShifted =>
          (value outer (by omega) right).bind fun _ _ rightShifted =>
            .binop op leftShifted rightShifted
      | app fn arg =>
        exact (neutral outer (by omega) fn).bind fun _ _ fnShifted =>
          (value outer (by omega) arg).bind fun _ _ argShifted => .app fnShifted argShifted
      | cond test yes no =>
        exact (neutral outer (by omega) test).bind fun _ _ testShifted =>
          (value outer (by omega) yes).bind fun _ _ yesShifted =>
            (value outer (by omega) no).bind fun _ _ noShifted =>
              .cond testShifted yesShifted noShifted

theorem getElem?_descending (names : List Name) (i : Nat) :
    (Env.descending (Int64.ofNat names.length) names)[i]? =
      names[i]?.map fun x => Value.fresh x (Int64.ofNat (names.length - i)) := by
  induction names generalizing i with
  | nil => rfl
  | cons x rest ih =>
    rw [List.length_cons, Env.descending, ofNat_succ_sub_one]
    cases i with
    | zero => rfl
    | succ i =>
      rw [List.getElem?_cons_succ, List.getElem?_cons_succ, ih]
      congr 1
      funext y
      congr 2
      omega

theorem length_descending (level : Int64) (names : List Name) :
    (Env.descending level names).length = names.length := by
  induction names generalizing level with
  | nil => rfl
  | cons x rest ih => rw [Env.descending, List.length_cons, ih, List.length_cons]

@[simp] theorem length_ofNames (names : List Name) : (Env.ofNames names).length = names.length :=
  length_descending _ names

/-- The names that stand at the places of other names, with `d` more of them. -/
structure ScopeShifted (same : Name → Name → Prop) (d c : Nat) (scope scope' : List Name) :
    Prop where
  length : scope'.length = scope.length + d
  names : ∀ i x x', scope[i]? = some x → scope'[raise d c i]? = some x' → same x x'

theorem Env.Shifted.ofNames {scope scope' : List Name} (inner : c ≤ scope.length)
    (room : scope.length + d < 2 ^ 63) (shifted : ScopeShifted same d c scope scope') :
    Env.Shifted same d (scope.length - c) c (Env.ofNames scope) (Env.ofNames scope') := by
  constructor
  · rw [length_ofNames, length_ofNames, shifted.length]
  · intro i v v' found found'
    rw [Env.ofNames, getElem?_descending, Option.map_eq_some_iff] at found found'
    obtain ⟨x, place, rfl⟩ := found
    obtain ⟨x', place', rfl⟩ := found'
    have inside : i < scope.length := (List.getElem?_eq_some_iff.mp place).1
    refine .neutral (.var (l := scope.length - i) (shifted.names i x x' place place')
      (by omega) ?_ ?_)
    · exact Int64.toInt_ofNat_of_lt (by omega)
    · rw [Int64.toInt_ofNat_of_lt (by rw [shifted.length]; omega), shifted.length]
      unfold raise
      split <;> split <;> omega

/-- Normalisation takes the same course in a larger scope. -/
theorem normalize_shifted {fuel : Nat} {scope scope' : List Name} {t t' : Indexed}
    (inner : c ≤ scope.length) (room : scope.length + d + fuel < 2 ^ 63)
    (names : ScopeShifted same d c scope scope')
    (shifted : Term.Shifted same d c scope.length t t') :
    Agree (Term.Shifted same d c scope.length) (t.normalize fuel scope)
      (t'.normalize fuel scope') := by
  have env := Env.Shifted.ofNames inner (by omega) names
  have cut : scope.length - (scope.length - c) = c := by omega
  unfold Term.normalize
  rw [← length_ofNames] at shifted
  apply (eval_shifted env shifted).bind
  intro v v' values
  have reads := (quote_shifted fuel).1 (Nat.sub_le _ _) room values
  rw [cut, ← names.length] at reads
  exact reads

namespace Term.Shifted

variable {n : Nat} {t t' : Indexed}

theorem refl (equal : ∀ x, same x x) (c n : Nat) (t : Indexed) : Shifted same 0 c n t t := by
  induction t generalizing c n with
  | var v =>
    refine .var (equal _) ?_
    by_cases inside : 0 ≤ v.ix.toInt ∧ v.ix.toInt < n
    · refine .inl ⟨v.ix.toInt.toNat, by omega, by omega, ?_⟩
      unfold raise
      split <;> omega
    · refine .inr ⟨?_, ?_⟩ <;> unfold Beyond <;> omega
  | const k => exact .const k
  | binop op l r left right => exact .binop op (left c n) (right c n)
  | not t ih => exact .not (ih c n)
  | app f a fn arg => exact .app (fn c n) (arg c n)
  | bind b x dom body domain under => exact .bind b (equal x) (domain c n) (under (c + 1) (n + 1))
  | cond t y e test yes no => exact .cond (test c n) (yes c n) (no c n)
  | ascribe t type subject ascribed => exact .ascribe (subject c n) (ascribed c n)

theorem beyond_add {m m' : Nat} {ix amount : Int64} (beyond : m ≤ ix.toInt)
    (low : -1 ≤ amount.toInt) (total : m + amount.toInt = m') : Beyond m' (ix + amount) := by
  have high := ix.toInt_lt
  have highAmount := amount.toInt_lt
  by_cases fits : ix.toInt + amount.toInt < 2 ^ 63
  · rw [Beyond, toInt_add_of_fits (by omega) fits]
    omega
  · -- The sum is wrapped around and has become negative.
    left
    rw [Int64.toInt_add, Int.bmod_def]
    omega

/-- Shifting what has been shifted already, upwards or down by one. -/
theorem shift {d' k : Nat} {amount cut : Int64} (shifted : Shifted same d c n t t')
    (low : -1 ≤ amount.toInt) (total : d + amount.toInt = d') (cutoff : cut.toInt = c + k)
    (between : k ≤ d) (inner : c ≤ n) (room : n + max d d' + t.depth < 2 ^ 63) :
    Shifted same d' c n t (t'.shift amount cut) := by
  induction shifted generalizing cut with
  | @var c n v v' named moved =>
    simp only [Term.shift, Int64.lt_iff_toInt_lt, cutoff]
    rcases moved with ⟨i, inside, word, word'⟩ | ⟨beyond, beyond'⟩
    · unfold raise at word'
      split at word'
      · rw [if_pos (by omega)]
        exact .var named (.inl ⟨i, inside, word, by rw [word', raise, if_pos (by omega)]⟩)
      · rw [if_neg (by omega)]
        refine .var named (.inl ⟨i, inside, word, ?_⟩)
        rw [toInt_add_of_fits (by omega) (by omega), raise, if_neg (by omega)]
        omega
    · rcases beyond' with negative | outside
      · rw [if_pos (by omega)]
        exact .var named (.inr ⟨beyond, .inl negative⟩)
      · rw [if_neg (by omega)]
        exact .var named (.inr ⟨beyond, beyond_add outside low (by omega)⟩)
  | const k => exact .const k
  | binop op _ _ left right =>
    simp only [depth] at room
    exact .binop op (left cutoff inner (by omega)) (right cutoff inner (by omega))
  | not _ operand => exact .not (operand cutoff inner room)
  | app _ _ fn arg =>
    simp only [depth] at room
    exact .app (fn cutoff inner (by omega)) (arg cutoff inner (by omega))
  | @bind c n _ _ _ _ _ _ b named _ _ domain under =>
    simp only [depth] at room
    have next : (cut + 1).toInt = (c + 1 : Nat) + k := by
      rw [toInt_succ_of_fits (by omega), cutoff]
      omega
    exact .bind b named (domain cutoff inner (by omega)) (under next (by omega) (by omega))
  | cond _ _ _ test yes no =>
    simp only [depth] at room
    exact .cond (test cutoff inner (by omega)) (yes cutoff inner (by omega))
      (no cutoff inner (by omega))
  | ascribe _ _ subject ascribed =>
    simp only [depth] at room
    exact .ascribe (subject cutoff inner (by omega)) (ascribed cutoff inner (by omega))

theorem of_shift {amount : Int64} (equal : ∀ x, same x x) (word : amount.toInt = d)
    (room : n + d + t.depth < 2 ^ 63) : Shifted same d 0 n t (t.shift amount 0) := by
  refine (refl equal 0 n t).shift (k := 0) ?_ ?_ rfl (Nat.le_refl _) (Nat.zero_le _) ?_
  · omega
  · omega
  · omega

/-- What is in scope is renamed. -/
theorem erase_eq (shifted : Shifted same d c n t t') (scope : t.erase.Scoped n) :
    t'.erase = t.erase.rename (raise d c) := by
  induction shifted with
  | @var c n v v' named moved =>
    simp only [erase, widen, bare] at scope ⊢
    rcases moved with ⟨i, inside, word, word'⟩ | ⟨beyond, -⟩
    · rw [word, word', Bare.ofIndex_natCast, Bare.ofIndex_natCast, Bare.rename]
    · unfold Bare.ofIndex at scope
      split at scope
      · exact scope.elim
      · simp only [Bare.Scoped] at scope
        rcases beyond with negative | outside <;> omega
  | const k => rfl
  | binop op _ _ left right => exact congrArg₂ (Bare.binop op) (left scope.1) (right scope.2)
  | not _ operand => exact congrArg Bare.not (operand scope)
  | app _ _ fn arg => exact congrArg₂ Bare.app (fn scope.1) (arg scope.2)
  | bind b _ _ _ domain under =>
    have body := under scope.2
    rw [← lift_raise] at body
    exact congrArg₂ (Bare.bind b) (domain scope.1) body
  | cond _ _ _ test yes no =>
    simp only [erase, widen, bare, Bare.rename] at test yes no scope ⊢
    rw [test scope.1, yes scope.2.1, no scope.2.2]
  | ascribe _ _ subject _ => exact subject scope

end Term.Shifted

end DepCalc

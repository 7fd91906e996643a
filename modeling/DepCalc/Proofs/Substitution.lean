import DepCalc.Proofs.Shifting

/-!
How instantiations change places with shifts and with each other. On integers the laws hold of all
terms, whatever their indices refer to. On words they hold, names included, wherever none of the
steps on the two sides wraps around.
-/
namespace DepCalc.Term

section Integers

variable {j : Nat} {s : Term (Variable Int)}

/-- A part of a body, under `j` binders inside it, with `s` for the variable of the body. -/
def instantiateAt (j : Nat) (s t : Term (Variable Int)) : Term (Variable Int) :=
  (subst (j : Int) (s.shift (j + 1 : Nat) 0) t).shift (-1) (j : Int)

theorem instantiateAt_below {v : Variable Int} (below : v.ix < j) :
    instantiateAt j s (var v) = var v := by
  simp only [instantiateAt, subst, if_neg (by omega : ¬ v.ix = j), shift, if_pos below]

theorem instantiateAt_here {v : Variable Int} (here : v.ix = j) :
    instantiateAt j s (var v) = s.shift (j : Int) 0 := by
  have lowered : ((j + 1 : Nat) : Int) + -1 = j := by omega
  rw [instantiateAt, subst, if_pos here, shift_shift (by omega) (by omega), lowered]

theorem instantiateAt_above {v : Variable Int} (above : j < v.ix) :
    instantiateAt j s (var v) = var ⟨v.name, v.ix + -1⟩ := by
  simp only [instantiateAt, subst, if_neg (by omega : ¬ v.ix = j), shift,
    if_neg (by omega : ¬ v.ix < j)]

@[simp]
theorem instantiateAt_const (c : Constant) : instantiateAt j s (const c) = const c :=
  rfl

@[simp]
theorem instantiateAt_binop (op : Operator) (l r : Term (Variable Int)) :
    instantiateAt j s (binop op l r) = binop op (instantiateAt j s l) (instantiateAt j s r) :=
  rfl

@[simp]
theorem instantiateAt_not (t : Term (Variable Int)) :
    instantiateAt j s (not t) = not (instantiateAt j s t) :=
  rfl

@[simp]
theorem instantiateAt_app (f a : Term (Variable Int)) :
    instantiateAt j s (app f a) = app (instantiateAt j s f) (instantiateAt j s a) :=
  rfl

@[simp]
theorem instantiateAt_bind (b : Binder) (x : Name) (dom body : Term (Variable Int)) :
    instantiateAt j s (bind b x dom body) =
      bind b x (instantiateAt j s dom) (instantiateAt (j + 1) s body) := by
  have raised : (s.shift ((j + 1 : Nat) : Int) 0).shift 1 0 = s.shift ((j + 1 + 1 : Nat) : Int) 0 :=
    shift_shift (Int.le_refl 0) (by omega) s
  rw [instantiateAt, subst, raised]
  rfl

@[simp]
theorem instantiateAt_cond (t yes no : Term (Variable Int)) :
    instantiateAt j s (cond t yes no) =
      cond (instantiateAt j s t) (instantiateAt j s yes) (instantiateAt j s no) :=
  rfl

@[simp]
theorem instantiateAt_ascribe (t type : Term (Variable Int)) :
    instantiateAt j s (ascribe t type) = ascribe (instantiateAt j s t) (instantiateAt j s type) :=
  rfl

/-- Where a place was made for the variable of the body, it does not occur. -/
theorem instantiateAt_shift_one (j : Nat) (s t : Term (Variable Int)) :
    instantiateAt j s (t.shift 1 (j : Int)) = t := by
  induction t generalizing j with
  | var v =>
    by_cases below : v.ix < j
    · rw [shift, if_pos below, instantiateAt_below below]
    · rw [shift, if_neg below, instantiateAt_above (by simp only; omega)]
      simp only [Int.add_neg_cancel_right]
  | bind b x dom body domIh bodyIh =>
    rw [shift, instantiateAt_bind, domIh, ← Int.natCast_succ, bodyIh]
  | _ => simp_all [shift]

/-- A body is instantiated before it is put under `j` binders more, or afterwards. -/
theorem instantiateAt_shift (j k : Nat) (s t : Term (Variable Int)) :
    instantiateAt (k + j) s (t.shift (j : Int) (k : Int)) =
      (instantiateAt k s t).shift (j : Int) (k : Int) := by
  induction t generalizing k with
  | var v =>
    rcases Int.lt_trichotomy v.ix k with below | here | above
    · rw [shift, if_pos below, instantiateAt_below below, instantiateAt_below (by omega), shift,
        if_pos below]
    · have raised : (s.shift (k : Int) 0).shift (j : Int) (k : Int) = s.shift ((k : Int) + j) 0 :=
        shift_shift (by omega) (by omega) s
      rw [shift, if_neg (by omega), instantiateAt_here here, instantiateAt_here (by simp only; omega),
        raised, Int.natCast_add]
    · rw [shift, if_neg (by omega), instantiateAt_above above,
        instantiateAt_above (by simp only; omega), shift, if_neg (by simp only; omega)]
      simp only [Int.add_right_comm]
  | bind b x dom body domIh bodyIh =>
    rw [shift, instantiateAt_bind, instantiateAt_bind, shift, domIh, ← Int.natCast_succ, ← bodyIh,
      Nat.add_right_comm]
  | _ => simp_all [shift]

/-- Of the two variables of a body the inner one may be instantiated first, by a term that the outer
one stands in, or the outer one, if it is then instantiated in that term too. -/
theorem instantiateAt_instantiateAt (j : Nat) (s u t : Term (Variable Int)) :
    instantiateAt j s (instantiateAt j u t) =
      instantiateAt j (instantiate s u) (instantiateAt (j + 1) s t) := by
  induction t generalizing j with
  | var v =>
    rcases Int.lt_trichotomy v.ix j with below | inner | above
    · rw [instantiateAt_below below, instantiateAt_below (j := j + 1) (by omega),
        instantiateAt_below below, instantiateAt_below below]
    · -- The inner variable: `s` is put into `u` under the binders, or outside them.
      have moved := instantiateAt_shift j 0 s u
      rw [Nat.zero_add] at moved
      rw [instantiateAt_here inner, instantiateAt_below (j := j + 1) (by omega),
        instantiateAt_here inner]
      exact moved
    · rcases Int.lt_trichotomy v.ix (j + 1) with between | outer | beyond
      · omega
      · -- The outer variable: nothing in `s` refers to the inner one.
        have raised : (s.shift (j : Int) 0).shift 1 (j : Int) = s.shift ((j : Int) + 1) 0 :=
          shift_shift (by omega) (by omega) s
        rw [instantiateAt_above above, instantiateAt_here (by simp only; omega),
          instantiateAt_here (j := j + 1) (by omega), Int.natCast_succ, ← raised,
          instantiateAt_shift_one]
      · rw [instantiateAt_above above, instantiateAt_above (by simp only; omega),
          instantiateAt_above (j := j + 1) (by omega), instantiateAt_above (by simp only; omega)]
  | _ => simp_all

end Integers

/-- Nothing wraps around when the two variables of a body are replaced, whichever comes first. -/
structure InstantiationsFit (s u t : Indexed) : Prop where
  inner : InstantiateFits u t
  innerFirst : InstantiateFits s (instantiate u t)
  outer : EliminateFits 2 1 s t
  term : InstantiateFits s u
  outerFirst : InstantiateFits (instantiate s u) ((subst 1 (s.shift 2 0) t).shift (-1) 1)

theorem InScope.instantiationsFit {n : Nat} {s u t : Indexed} (scope : s.widen.InScope n)
    (scopeTerm : u.widen.InScope (n + 1)) (scopeBody : t.widen.InScope (n + 2))
    (room : n + 2 + 2 * s.depth + u.depth + t.depth < 2 ^ 63) : InstantiationsFit s u t := by
  have inner : InstantiateFits u t := scopeTerm.instantiateFits scopeBody (by omega)
  have outer : EliminateFits 2 1 s t := scope.eliminateFits scopeBody rfl (by decide) (by omega)
  have term : InstantiateFits s u := scope.instantiateFits scopeTerm (by omega)
  have scopeInner : (Term.instantiate u t).widen.InScope (n + 1) := by
    rw [inner.widen_instantiate]
    exact scopeTerm.instantiate scopeBody
  have scopeArg : (Term.instantiate s u).widen.InScope n := by
    rw [term.widen_instantiate]
    exact scope.instantiate scopeTerm
  have scopeOuter :
      ((Term.subst 1 (s.shift 2 0) t).shift (-1) 1).widen.InScope (n + 1) := by
    rw [outer.widen]
    exact scope.contract (j := 1) scopeBody
  have depthInner := depth_instantiate_le u t
  have depthArg := depth_instantiate_le s u
  have depthOuter := depth_eliminate_le 2 1 s t
  exact {
    inner, outer, term
    innerFirst := scope.instantiateFits scopeInner (by omega)
    outerFirst := scopeArg.instantiateFits scopeOuter (by omega) }

/-- A body with two variables may be instantiated from the inside, where the outer variable can stand
in the term for the inner one, or from the outside, with the outer variable replaced in the body and
in that term. The two ways come to the same term, its names included, if no step of either wraps
around, as none does on shallow terms in scope. -/
theorem instantiations_commute (s u t : Indexed) :
    (InstantiationsFit s u t →
      instantiate s (instantiate u t) =
        instantiate (instantiate s u) ((subst 1 (s.shift 2 0) t).shift (-1) 1)) ∧
    ∀ n : Nat, s.widen.InScope n → u.widen.InScope (n + 1) → t.widen.InScope (n + 2) →
      n + 2 + 2 * s.depth + u.depth + t.depth < 2 ^ 63 → InstantiationsFit s u t := by
  constructor
  · intro fits
    apply widen_injective
    rw [fits.innerFirst.widen_instantiate, fits.inner.widen_instantiate,
      fits.outerFirst.widen_instantiate, fits.term.widen_instantiate, fits.outer.widen]
    exact instantiateAt_instantiateAt 0 s.widen u.widen t.widen
  · intro n scope scopeTerm scopeBody room
    exact scope.instantiationsFit scopeTerm scopeBody room

/-- A function whose domain is the inner variable; under its binder both variables and the one outside
them are applied. -/
def twoVariables : Indexed :=
  .bind .lam "z" (.var ⟨"x", 0⟩)
    (.app (.app (.var ⟨"z", 0⟩) (.var ⟨"x", 1⟩)) (.app (.var ⟨"y", 2⟩) (.var ⟨"g", 3⟩)))

/-- A function that applies the outer variable to the one outside. -/
def oneVariable : Indexed :=
  .bind .lam "w" (.var ⟨"y", 0⟩) (.app (.var ⟨"y", 1⟩) (.var ⟨"g", 2⟩))

theorem instantiations_commute_twoVariables :
    instantiate (.not (.var ⟨"g", 0⟩)) (instantiate oneVariable twoVariables) =
      instantiate (instantiate (.not (.var ⟨"g", 0⟩)) oneVariable)
        ((subst 1 (shift 2 0 (.not (.var ⟨"g", 0⟩))) twoVariables).shift (-1) 1) := by
  obtain ⟨commutes, fits⟩ := instantiations_commute (.not (.var ⟨"g", 0⟩)) oneVariable twoVariables
  apply commutes
  apply fits 1
  · exact ⟨by decide, by decide⟩
  · simp [oneVariable, widen, InScope]
  · simp [twoVariables, widen, InScope]
  · decide

/-- A shift may be made before an instantiation or after it. And where a place has been made for the
variable of a body, instantiating gives the term back, whatever is put in. Both hold exactly, names
included, if no step wraps around. -/
theorem instantiation_respects_shift (s t : Indexed) :
    (∀ d c : Int64, 0 ≤ d → 0 ≤ c →
      InstantiateFits s t → (instantiate s t).ShiftFits d c →
      s.ShiftFits d c → SumFits c 1 → t.ShiftFits d (c + 1) →
      InstantiateFits (s.shift d c) (t.shift d (c + 1)) →
      (instantiate s t).shift d c = instantiate (s.shift d c) (t.shift d (c + 1))) ∧
    (t.ShiftFits 1 0 → InstantiateFits s (t.shift 1 0) → instantiate s (t.shift 1 0) = t) := by
  constructor
  · intro d c upwards nonneg whole wholeShift argShift next bodyShift shifted
    obtain ⟨n, amount⟩ := Int.eq_ofNat_of_zero_le (Int64.le_iff_toInt_le.mp upwards)
    have nextWord : (c + 1).toInt = c.toInt + 1 := next.toInt_add
    apply widen_injective
    rw [wholeShift.widen_shift, whole.widen_instantiate, shifted.widen_instantiate,
      argShift.widen_shift, bodyShift.widen_shift, nextWord, amount]
    exact shift_instantiate (Int64.le_iff_toInt_le.mp nonneg) s.widen t.widen
  · intro raise fits
    apply widen_injective
    rw [fits.widen_instantiate, raise.widen_shift]
    exact instantiateAt_shift_one 0 s.widen t.widen

/-- The cutoff stands between the variable that is moved and those that stay, under a binder. -/
theorem instantiation_respects_shift_twoVariables :
    (instantiate oneVariable twoVariables).shift 5 1 =
        instantiate (oneVariable.shift 5 1) (twoVariables.shift 5 2) ∧
      instantiate oneVariable (twoVariables.shift 1 0) = twoVariables := by
  obtain ⟨commutes, cancels⟩ := instantiation_respects_shift oneVariable twoVariables
  constructor
  · apply commutes 5 1 <;> decide
  · apply cancels <;> decide

end DepCalc.Term

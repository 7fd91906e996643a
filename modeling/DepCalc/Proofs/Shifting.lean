import DepCalc.Proofs.Widening

/-!
How shifts change places with each other and with instantiation. On integers the laws hold of all
terms; on words they hold as long as no index wraps around.
-/
namespace DepCalc.Term

section Integers

variable {d : Nat} {c k j : Int}

theorem shift_zero (c : Int) (t : Term (Variable Int)) : t.shift 0 c = t := by
  induction t generalizing c with
  | var v => simp [shift]
  | _ => simp_all [shift]

/-- A shift further in, upwards or downwards, can be made later if the place further out, which it has
moved, stays beyond it. -/
theorem shift_shift_comm {e : Int} (before : k ≤ c) (after : k ≤ c + e) (t : Term (Variable Int)) :
    (t.shift e k).shift (d : Int) (c + e) = (t.shift (d : Int) c).shift e k := by
  induction t generalizing c k with
  | var v =>
    by_cases below : v.ix < k
    · simp only [shift, if_pos below, if_pos (by omega : v.ix < c + e), if_pos (by omega : v.ix < c)]
    · by_cases between : v.ix < c
      · simp only [shift, if_neg below, if_pos (by omega : v.ix + e < c + e), if_pos between]
      · simp only [shift, if_neg below, if_neg between, if_neg (by omega : ¬ v.ix + e < c + e),
          if_neg (by omega : ¬ v.ix + d < k), Int.add_right_comm]
  | const => rfl
  | not t ih => exact congrArg not (ih before after)
  | bind b x dom body domIh bodyIh =>
    have under := bodyIh (by omega : k + 1 ≤ c + 1) (by omega)
    rw [Int.add_right_comm] at under
    simp only [shift, domIh before after, under]
  | cond t yes no ihT ihY ihN =>
    simp only [shift, ihT before after, ihY before after, ihN before after]
  | binop _ _ _ left right | app _ _ left right | ascribe _ _ left right =>
    simp only [shift, left before after, right before after]

theorem shift_subst (nonneg : 0 ≤ c) (below : j < c) (s t : Term (Variable Int)) :
    (subst j s t).shift (d : Int) c = subst j (s.shift (d : Int) c) (t.shift (d : Int) c) := by
  induction t generalizing c j s with
  | var v =>
    by_cases here : v.ix = j
    · simp only [subst, if_pos here, shift, if_pos (by omega : v.ix < c)]
    · simp only [subst, if_neg here, shift]
      split
      · simp only [subst, if_neg here]
      · simp only [subst, if_neg (by omega : ¬ v.ix + d = j)]
  | const => rfl
  | not t ih => exact congrArg not (ih nonneg below s)
  | bind b x dom body domIh bodyIh =>
    have under := bodyIh (by omega) (by omega : j + 1 < c + 1) (s.shift 1 0)
    rw [shift_shift_comm nonneg (by omega)] at under
    simp only [subst, shift, domIh nonneg below s, under]
  | cond t yes no ihT ihY ihN =>
    simp only [subst, shift, ihT nonneg below s, ihY nonneg below s, ihN nonneg below s]
  | binop _ _ _ left right | app _ _ left right | ascribe _ _ left right =>
    simp only [subst, shift, left nonneg below s, right nonneg below s]

theorem shift_instantiate (nonneg : 0 ≤ c) (s body : Term (Variable Int)) :
    (instantiate s body).shift (d : Int) c =
      instantiate (s.shift (d : Int) c) (body.shift (d : Int) (c + 1)) := by
  calc (instantiate s body).shift (d : Int) c
    _ = ((subst 0 (s.shift 1 0) body).shift (d : Int) (c + 1)).shift (-1) 0 := by
      rw [← shift_shift_comm (by omega) (by omega), Int.add_neg_cancel_right, instantiate]
    _ = (subst 0 ((s.shift 1 0).shift (d : Int) (c + 1)) (body.shift (d : Int) (c + 1))).shift
          (-1) 0 := by
      rw [shift_subst (by omega) (by omega)]
    _ = instantiate (s.shift (d : Int) c) (body.shift (d : Int) (c + 1)) := by
      rw [shift_shift_comm nonneg (by omega), instantiate]

theorem shift_injective {t u : Term (Variable Int)} (same : t.shift (d : Int) c = u.shift (d : Int) c) :
    t = u := by
  have back := congrArg (shift (-(d : Int)) c) same
  rwa [shift_shift (Int.le_refl c) (by omega), shift_shift (Int.le_refl c) (by omega),
    Int.add_right_neg, shift_zero, shift_zero] at back

end Integers

section Words

variable {k d e c : Nat} {amount cut : Int64} {t : Indexed}

theorem shift_var (amount cut : Int64) (v : Occurrence) :
    (var v).shift amount cut = var ⟨v.name, if v.ix < cut then v.ix else v.ix + amount⟩ := by
  simp only [shift]
  split <;> rfl

/-- Shifting upwards is the same on words as on integers where no index wraps around. -/
theorem widen_raise (scope : t.widen.InScope k) (word : amount.toInt = d) (cutWord : cut.toInt = c)
    (room : k + d + t.depth < 2 ^ 63) (cutRoom : c + t.depth < 2 ^ 63) :
    (t.shift amount cut).widen = t.widen.shift (d : Int) (c : Int) := by
  rw [widen_shift scope (by omega) (by omega) (by omega), word, cutWord]

theorem inScope_raise (scope : t.widen.InScope k) (word : amount.toInt = d) (cutWord : cut.toInt = c)
    (room : k + d + t.depth < 2 ^ 63) (cutRoom : c + t.depth < 2 ^ 63) :
    (t.shift amount cut).widen.InScope (k + d) := by
  rw [widen_raise scope word cutWord room cutRoom]
  exact scope.shift c

/-- What is brought out from under `e` binders is shifted there beyond them. -/
theorem raise_raise_comm {outward cut' : Int64} (scope : t.widen.InScope k)
    (word : amount.toInt = d) (outwardWord : outward.toInt = e) (cutWord : cut.toInt = c)
    (cutWord' : cut'.toInt = (c + e : Nat)) (inner : c ≤ k) (room : k + d + e + t.depth < 2 ^ 63) :
    (t.shift outward 0).shift amount cut' = (t.shift amount cut).shift outward 0 := by
  have zero : (0 : Int64).toInt = (0 : Nat) := rfl
  apply widen_injective
  rw [widen_raise (inScope_raise scope outwardWord zero (by omega) (by omega)) word cutWord'
      (by rw [depth_shift]; omega) (by rw [depth_shift]; omega),
    widen_raise (inScope_raise scope word cutWord (by omega) (by omega)) outwardWord zero
      (by rw [depth_shift]; omega) (by rw [depth_shift]; omega),
    widen_raise scope outwardWord zero (by omega) (by omega),
    widen_raise scope word cutWord (by omega) (by omega)]
  have nonneg := Int.natCast_nonneg c
  exact shift_shift_comm nonneg (Int.add_nonneg nonneg (Int.natCast_nonneg e)) t.widen

/-- Two shifts add up if the second one leaves none of what the first one moved behind. -/
theorem raise_raise {further total : Int64} (scope : t.widen.InScope k) (word : amount.toInt = d)
    (furtherWord : further.toInt = e) (totalWord : total.toInt = (d + e : Nat))
    (cutWord : cut.toInt = c) (inside : c ≤ d) (room : k + d + e + t.depth < 2 ^ 63) :
    (t.shift amount 0).shift further cut = t.shift total 0 := by
  have zero : (0 : Int64).toInt = (0 : Nat) := rfl
  apply widen_injective
  rw [widen_raise (inScope_raise scope word zero (by omega) (by omega)) furtherWord cutWord
      (by rw [depth_shift]; omega) (by rw [depth_shift]; omega),
    widen_raise scope word zero (by omega) (by omega),
    widen_raise scope totalWord zero (by omega) (by omega)]
  exact shift_shift (by omega) (by omega) t.widen

theorem raise_instantiate {s body : Indexed} (arg : s.widen.InScope k)
    (scope : body.widen.InScope (k + 1)) (word : amount.toInt = d) (cutWord : cut.toInt = c)
    (inner : c ≤ k) (room : k + 1 + d + s.depth + body.depth < 2 ^ 63) :
    (instantiate s body).shift amount cut =
      instantiate (s.shift amount cut) (body.shift amount (cut + 1)) := by
  have nextWord : (cut + 1).toInt = (c + 1 : Nat) := by
    rw [toInt_succ_of_fits (by omega), cutWord, Int.natCast_succ]
  have whole : (instantiate s body).widen = instantiate s.widen body.widen :=
    widen_instantiate arg scope (by omega)
  have wholeScope : (instantiate s body).widen.InScope k := whole ▸ arg.instantiate scope
  have depth := depth_instantiate_le s body
  have argMoved := inScope_raise arg word cutWord (by omega) (by omega)
  have bodyMoved := inScope_raise scope word nextWord (by omega) (by omega)
  rw [Nat.add_right_comm] at bodyMoved
  apply widen_injective
  rw [widen_raise wholeScope word cutWord (by omega) (by omega), whole,
    widen_instantiate argMoved bodyMoved (by rw [depth_shift, depth_shift]; omega),
    widen_raise arg word cutWord (by omega) (by omega),
    widen_raise scope word nextWord (by omega) (by omega), Int.natCast_succ]
  exact shift_instantiate (Int.natCast_nonneg c) s.widen body.widen

theorem inScope_forgetNames : t.forgetNames.widen.InScope k ↔ t.widen.InScope k := by
  induction t generalizing k <;> simp_all [forgetNames, widen, InScope]

/-- Shifting upwards tells apart what was apart. -/
theorem raise_injective {u : Indexed} (scope : t.widen.InScope k) (scope' : u.widen.InScope k)
    (word : amount.toInt = d) (cutWord : cut.toInt = c) (inner : c ≤ k)
    (room : k + d + t.depth < 2 ^ 63) (room' : k + d + u.depth < 2 ^ 63)
    (same : t.shift amount cut = u.shift amount cut) : t = u := by
  apply widen_injective
  apply shift_injective (d := d) (c := c)
  rw [← widen_raise scope word cutWord room (by omega),
    ← widen_raise scope' word cutWord room' (by omega), same]

end Words

end DepCalc.Term

import DepCalc.Term.Alpha
import DepCalc.Term.Substitution
import Mathlib.Algebra.Group.Int.Defs
import Mathlib.Algebra.Group.Nat.Defs

/-!
Indexed terms with words for indices beside those with integers. Shifting and substitution are the
same functions on both; on words they wrap around, on integers they do not. As long as the indices
and the depths of binders stay below `2 ^ 63`, widening every index to an integer commutes with them.
-/
namespace DepCalc.Term

/-- The term with its indices read as integers. -/
def widen : Indexed → Term (Variable Int)
  | var v => var ⟨v.name, v.ix.toInt⟩
  | const c => const c
  | binop op l r => binop op l.widen r.widen
  | not t => not t.widen
  | app f a => app f.widen a.widen
  | bind b x dom body => bind b x dom.widen body.widen
  | cond t yes no => cond t.widen yes.widen no.widen
  | ascribe t type => ascribe t.widen type.widen

/-- How many binders stand around the most deeply nested part. -/
def depth {ν : Type} : Term ν → Nat
  | var _ | const _ => 0
  | binop _ l r => max l.depth r.depth
  | not t => t.depth
  | app f a => max f.depth a.depth
  | bind _ _ dom body => max dom.depth (body.depth + 1)
  | cond t yes no => max t.depth (max yes.depth no.depth)
  | ascribe t type => max t.depth type.depth

/-- Every index refers to a binder around it or to one of `k` variables outside. -/
def InScope : Nat → Term (Variable Int) → Prop
  | k, var v => 0 ≤ v.ix ∧ v.ix < k
  | _, const _ => True
  | k, binop _ l r => l.InScope k ∧ r.InScope k
  | k, not t => t.InScope k
  | k, app f a => f.InScope k ∧ a.InScope k
  | k, bind _ _ dom body => dom.InScope k ∧ body.InScope (k + 1)
  | k, cond t yes no => t.InScope k ∧ yes.InScope k ∧ no.InScope k
  | k, ascribe t type => t.InScope k ∧ type.InScope k

theorem InScope.shift {k d : Nat} {t : Term (Variable Int)} (scope : t.InScope k) (c : Int) :
    (t.shift (d : Int) c).InScope (k + d) := by
  induction t generalizing k c with
  | var v =>
    obtain ⟨low, high⟩ := scope
    simp only [Term.shift]
    split <;> (simp only [InScope]; omega)
  | const => trivial
  | not t ih => exact ih scope c
  | bind b x dom body domIh bodyIh =>
    refine ⟨domIh scope.1 c, ?_⟩
    have under := bodyIh scope.2 (c + 1)
    rwa [Nat.add_right_comm] at under
  | cond t yes no ihT ihY ihN =>
    exact ⟨ihT scope.1 c, ihY scope.2.1 c, ihN scope.2.2 c⟩
  | binop _ _ _ left right | app _ _ left right | ascribe _ _ left right =>
    exact ⟨left scope.1 c, right scope.2 c⟩

theorem InScope.subst {k : Nat} {s t : Term (Variable Int)} (scope : t.InScope k)
    (scopeArg : s.InScope k) (j : Int) : (Term.subst j s t).InScope k := by
  induction t generalizing k s j with
  | var v =>
    simp only [Term.subst]
    split
    · exact scopeArg
    · exact scope
  | const => trivial
  | not t ih => exact ih scope scopeArg j
  | bind b x dom body domIh bodyIh =>
    exact ⟨domIh scope.1 scopeArg j, bodyIh scope.2 (scopeArg.shift (d := 1) 0) (j + 1)⟩
  | cond t yes no ihT ihY ihN =>
    exact ⟨ihT scope.1 scopeArg j, ihY scope.2.1 scopeArg j, ihN scope.2.2 scopeArg j⟩
  | binop _ _ _ left right | app _ _ left right | ascribe _ _ left right =>
    exact ⟨left scope.1 scopeArg j, right scope.2 scopeArg j⟩

/-- Two shifts add up if the second one leaves none of what the first one moved behind. -/
theorem shift_shift {d : Nat} {e c c' : Int} (low : c ≤ c') (high : c' ≤ c + d)
    (t : Term (Variable Int)) : (t.shift (d : Int) c).shift e c' = t.shift (d + e) c := by
  induction t generalizing c c' with
  | var v =>
    by_cases below : v.ix < c
    · simp only [shift, if_pos below]
      rw [if_pos (by omega)]
    · simp only [shift, if_neg below]
      rw [if_neg (by omega), Int.add_assoc]
  | const => rfl
  | not t ih => exact congrArg not (ih low high)
  | bind b x dom body domIh bodyIh =>
    simp only [shift, domIh low high, bodyIh (by omega : c + 1 ≤ c' + 1) (by omega)]
  | cond t yes no ihT ihY ihN => simp only [shift, ihT low high, ihY low high, ihN low high]
  | binop _ _ _ left right | app _ _ left right | ascribe _ _ left right =>
    simp only [shift, left low high, right low high]

/-- Under `j` binders of the body the argument has been shifted past these and the variable that it
is put in for. -/
theorem InScope.contract {k j : Nat} {s t : Term (Variable Int)} (arg : s.InScope k)
    (scope : t.InScope (k + j + 1)) :
    ((Term.subst (j : Int) (s.shift (j + 1 : Nat) 0) t).shift (-1) (j : Int)).InScope (k + j) := by
  induction t generalizing j with
  | var v =>
    obtain ⟨low, high⟩ := scope
    simp only [Term.subst]
    split
    · have lowered : ((j + 1 : Nat) : Int) + -1 = j := by omega
      rw [shift_shift (by omega) (by omega), lowered]
      exact arg.shift 0
    · simp only [Term.shift]
      split <;> (simp only [InScope]; omega)
  | const => trivial
  | not t ih => exact ih scope
  | bind b x dom body domIh bodyIh =>
    have under := bodyIh (j := j + 1) scope.2
    rw [Int.natCast_succ (j + 1), ← shift_shift (Int.le_refl 0) (by omega) s, Int.natCast_succ j]
      at under
    exact ⟨domIh scope.1, under⟩
  | cond t yes no ihT ihY ihN => exact ⟨ihT scope.1, ihY scope.2.1, ihN scope.2.2⟩
  | binop _ _ _ left right | app _ _ left right | ascribe _ _ left right =>
    exact ⟨left scope.1, right scope.2⟩

theorem InScope.instantiate {k : Nat} {s body : Term (Variable Int)} (arg : s.InScope k)
    (scope : body.InScope (k + 1)) : (Term.instantiate s body).InScope k :=
  arg.contract (j := 0) scope

theorem depth_shift (d c : Int64) (t : Indexed) : (t.shift d c).depth = t.depth := by
  induction t generalizing c with
  | var v =>
    simp only [shift]
    split <;> rfl
  | _ => simp_all [shift, depth]

theorem depth_subst_le (j : Int64) (s t : Indexed) :
    (subst j s t).depth ≤ s.depth + t.depth := by
  induction t generalizing j s with
  | var v =>
    simp only [subst]
    split
    · exact Nat.le_add_right _ _
    · exact Nat.zero_le _
  | const => exact Nat.zero_le _
  | not t ih => exact ih j s
  | bind b x dom body domIh bodyIh =>
    have domBound := domIh j s
    have bodyBound := bodyIh (j + 1) (s.shift 1 0)
    rw [depth_shift] at bodyBound
    simp only [subst, depth]
    omega
  | cond t yes no ihT ihY ihN =>
    have testBound := ihT j s
    have yesBound := ihY j s
    have noBound := ihN j s
    simp only [subst, depth]
    omega
  | binop _ _ _ left right | app _ _ left right | ascribe _ _ left right =>
    have leftBound := left j s
    have rightBound := right j s
    simp only [subst, depth]
    omega

theorem depth_eliminate_le (d j : Int64) (s t : Indexed) :
    ((subst j (s.shift d 0) t).shift (-1) j).depth ≤ s.depth + t.depth := by
  have bound := depth_subst_le j (s.shift d 0) t
  rw [depth_shift] at bound
  rwa [depth_shift]

theorem depth_instantiate_le (s body : Indexed) :
    (instantiate s body).depth ≤ s.depth + body.depth :=
  depth_eliminate_le 1 0 s body

/-- The sum of two words is a word. -/
def SumFits (a b : Int64) : Prop :=
  -2 ^ 63 ≤ a.toInt + b.toInt ∧ a.toInt + b.toInt < 2 ^ 63

/-- Neither an index nor a cutoff wraps around when `d` is added to the indices from `c` on. -/
def ShiftFits (d c : Int64) : Indexed → Prop
  | var v => v.ix < c ∨ SumFits v.ix d
  | const _ => True
  | binop _ l r => l.ShiftFits d c ∧ r.ShiftFits d c
  | not t => t.ShiftFits d c
  | app f a => f.ShiftFits d c ∧ a.ShiftFits d c
  | bind _ _ dom body => dom.ShiftFits d c ∧ SumFits c 1 ∧ body.ShiftFits d (c + 1)
  | cond t yes no => t.ShiftFits d c ∧ yes.ShiftFits d c ∧ no.ShiftFits d c
  | ascribe t type => t.ShiftFits d c ∧ type.ShiftFits d c

/-- Nothing wraps around when `s` is put in the place of index `j`, on its way under the binders. -/
def SubstFits (j : Int64) (s : Indexed) : Indexed → Prop
  | var _ | const _ => True
  | binop _ l r => SubstFits j s l ∧ SubstFits j s r
  | not t => SubstFits j s t
  | app f a => SubstFits j s f ∧ SubstFits j s a
  | bind _ _ dom body =>
    SubstFits j s dom ∧ SumFits j 1 ∧ s.ShiftFits 1 0 ∧ SubstFits (j + 1) (s.shift 1 0) body
  | cond t yes no => SubstFits j s t ∧ SubstFits j s yes ∧ SubstFits j s no
  | ascribe t type => SubstFits j s t ∧ SubstFits j s type

/-- Nothing wraps around in the three steps of an elimination: `s` is brought under `d` binders, it
replaces index `j` there, and the indices beyond move up to the place that is now free. -/
structure EliminateFits (d j : Int64) (s t : Indexed) : Prop where
  raise : s.ShiftFits d 0
  replace : SubstFits j (s.shift d 0) t
  lower : (subst j (s.shift d 0) t).ShiftFits (-1) j

/-- Nothing wraps around in an instantiation. -/
abbrev InstantiateFits (s body : Indexed) : Prop :=
  EliminateFits 1 0 s body

instance (a b : Int64) : Decidable (SumFits a b) :=
  inferInstanceAs (Decidable (_ ∧ _))

instance ShiftFits.decidable (d c : Int64) : (t : Indexed) → Decidable (t.ShiftFits d c)
  | var v => inferInstanceAs (Decidable (v.ix < c ∨ SumFits v.ix d))
  | const _ => inferInstanceAs (Decidable True)
  | not t => decidable d c t
  | bind _ _ dom body =>
    have := decidable d c dom
    have := decidable d (c + 1) body
    inferInstanceAs (Decidable (dom.ShiftFits d c ∧ SumFits c 1 ∧ body.ShiftFits d (c + 1)))
  | cond t yes no =>
    have := decidable d c t
    have := decidable d c yes
    have := decidable d c no
    inferInstanceAs (Decidable (t.ShiftFits d c ∧ yes.ShiftFits d c ∧ no.ShiftFits d c))
  | binop _ l r | app l r | ascribe l r =>
    have := decidable d c l
    have := decidable d c r
    inferInstanceAs (Decidable (l.ShiftFits d c ∧ r.ShiftFits d c))

instance SubstFits.decidable (j : Int64) (s : Indexed) : (t : Indexed) → Decidable (SubstFits j s t)
  | var _ | const _ => inferInstanceAs (Decidable True)
  | not t => decidable j s t
  | bind _ _ dom body =>
    have := decidable j s dom
    have := decidable (j + 1) (s.shift 1 0) body
    inferInstanceAs (Decidable
      (SubstFits j s dom ∧ SumFits j 1 ∧ s.ShiftFits 1 0 ∧ SubstFits (j + 1) (s.shift 1 0) body))
  | cond t yes no =>
    have := decidable j s t
    have := decidable j s yes
    have := decidable j s no
    inferInstanceAs (Decidable (SubstFits j s t ∧ SubstFits j s yes ∧ SubstFits j s no))
  | binop _ l r | app l r | ascribe l r =>
    have := decidable j s l
    have := decidable j s r
    inferInstanceAs (Decidable (SubstFits j s l ∧ SubstFits j s r))

instance (d j : Int64) (s t : Indexed) : Decidable (EliminateFits d j s t) :=
  decidable_of_iff
    (s.ShiftFits d 0 ∧ SubstFits j (s.shift d 0) t ∧
      (subst j (s.shift d 0) t).ShiftFits (-1) j)
    ⟨fun fits => ⟨fits.1, fits.2.1, fits.2.2⟩, fun fits => ⟨fits.raise, fits.replace, fits.lower⟩⟩

/-- A sum of words that fits is exact. -/
theorem toInt_add_of_fits {a b : Int64} (low : -2 ^ 63 ≤ a.toInt + b.toInt)
    (high : a.toInt + b.toInt < 2 ^ 63) : (a + b).toInt = a.toInt + b.toInt := by
  rw [Int64.toInt_add]
  exact Int.bmod_eq_of_le (by omega) (by omega)

theorem SumFits.toInt_add {a b : Int64} (fits : SumFits a b) :
    (a + b).toInt = a.toInt + b.toInt :=
  toInt_add_of_fits fits.1 fits.2

theorem sumFits_one {c : Int64} (high : c.toInt + 1 < 2 ^ 63) : SumFits c 1 := by
  have low := c.le_toInt
  refine ⟨?_, high⟩
  simp only [Int64.toInt_one]
  omega

theorem toInt_succ_of_fits {c : Int64} (high : c.toInt + 1 < 2 ^ 63) :
    (c + 1).toInt = c.toInt + 1 :=
  (sumFits_one high).toInt_add

theorem ShiftFits.widen_shift {d c : Int64} {t : Indexed} (fits : t.ShiftFits d c) :
    (t.shift d c).widen = t.widen.shift d.toInt c.toInt := by
  induction t generalizing c with
  | var v =>
    simp only [shift, widen, ← Int64.lt_iff_toInt_lt]
    split
    · rfl
    · rename_i beyond
      have sum : SumFits v.ix d := fits.resolve_left beyond
      rw [widen, sum.toInt_add]
  | const => rfl
  | not t ih => exact congrArg not (ih fits)
  | bind b x dom body domIh bodyIh =>
    have next : (c + 1).toInt = c.toInt + 1 := fits.2.1.toInt_add
    simp only [shift, widen, domIh fits.1, bodyIh fits.2.2, next]
  | cond t yes no ihT ihY ihN => simp only [shift, widen, ihT fits.1, ihY fits.2.1, ihN fits.2.2]
  | binop _ _ _ left right | app _ _ left right | ascribe _ _ left right =>
    simp only [shift, widen, left fits.1, right fits.2]

theorem SubstFits.widen_subst {j : Int64} {s t : Indexed} (fits : SubstFits j s t) :
    (subst j s t).widen = subst j.toInt s.widen t.widen := by
  induction t generalizing j s with
  | var v =>
    simp only [subst, widen, ← Int64.toInt_inj]
    split <;> rfl
  | const => rfl
  | not t ih => exact congrArg not (ih fits)
  | bind b x dom body domIh bodyIh =>
    obtain ⟨domain, next, raise, under⟩ := fits
    have nextWord : (j + 1).toInt = j.toInt + 1 := next.toInt_add
    have raised : (s.shift 1 0).widen = s.widen.shift 1 0 := raise.widen_shift
    simp only [subst, widen, domIh domain, bodyIh under, nextWord, raised]
  | cond t yes no ihT ihY ihN => simp only [subst, widen, ihT fits.1, ihY fits.2.1, ihN fits.2.2]
  | binop _ _ _ left right | app _ _ left right | ascribe _ _ left right =>
    simp only [subst, widen, left fits.1, right fits.2]

theorem EliminateFits.widen {d j : Int64} {s t : Indexed} (fits : EliminateFits d j s t) :
    ((subst j (s.shift d 0) t).shift (-1) j).widen =
      (subst j.toInt (s.widen.shift d.toInt 0) t.widen).shift (-1) j.toInt := by
  have raised : (s.shift d 0).widen = s.widen.shift d.toInt 0 := fits.raise.widen_shift
  have lowered := fits.lower.widen_shift
  rw [lowered, fits.replace.widen_subst, raised]
  rfl

theorem EliminateFits.widen_instantiate {s body : Indexed} (fits : InstantiateFits s body) :
    (instantiate s body).widen = instantiate s.widen body.widen :=
  fits.widen

theorem InScope.shiftFits {d c : Int64} {k : Nat} {t : Indexed} (scope : t.widen.InScope k)
    (low : -1 ≤ d.toInt) (high : k + t.depth + d.toInt < 2 ^ 63)
    (cutoff : c.toInt + t.depth < 2 ^ 63) : t.ShiftFits d c := by
  induction t generalizing k c with
  | var v =>
    have nonneg : 0 ≤ v.ix.toInt := scope.1
    have bound : v.ix.toInt < k := scope.2
    simp only [depth] at high
    exact .inr ⟨by omega, by omega⟩
  | const => trivial
  | not t ih => exact ih scope high cutoff
  | bind b x dom body domIh bodyIh =>
    simp only [depth] at high cutoff
    have next : (c + 1).toInt = c.toInt + 1 := toInt_succ_of_fits (by omega)
    have domain := domIh scope.1 (by omega) (by omega : c.toInt + dom.depth < 2 ^ 63)
    have under := bodyIh scope.2 (by omega) (by omega : (c + 1).toInt + body.depth < 2 ^ 63)
    exact ⟨domain, sumFits_one (by omega), under⟩
  | cond t yes no ihT ihY ihN =>
    simp only [depth] at high cutoff
    have test := ihT scope.1 (by omega) (by omega : c.toInt + t.depth < 2 ^ 63)
    have yes := ihY scope.2.1 (by omega) (by omega : c.toInt + yes.depth < 2 ^ 63)
    have no := ihN scope.2.2 (by omega) (by omega : c.toInt + no.depth < 2 ^ 63)
    exact ⟨test, yes, no⟩
  | binop _ l r left right | app l r left right | ascribe l r left right =>
    simp only [depth] at high cutoff
    have first := left scope.1 (by omega) (by omega : c.toInt + l.depth < 2 ^ 63)
    have second := right scope.2 (by omega) (by omega : c.toInt + r.depth < 2 ^ 63)
    exact ⟨first, second⟩

theorem widen_shift {d c : Int64} {k : Nat} {t : Indexed} (scope : t.widen.InScope k)
    (low : -1 ≤ d.toInt) (high : k + t.depth + d.toInt < 2 ^ 63)
    (cutoff : c.toInt + t.depth < 2 ^ 63) :
    (t.shift d c).widen = t.widen.shift d.toInt c.toInt :=
  (scope.shiftFits low high cutoff).widen_shift

theorem InScope.raiseFits {k : Nat} {s : Indexed} (scope : s.widen.InScope k)
    (room : k + s.depth + 1 < 2 ^ 63) :
    s.ShiftFits 1 0 ∧ (s.shift 1 0).widen.InScope (k + 1) := by
  have fits : s.ShiftFits 1 0 := scope.shiftFits (by simp) (by simp; omega) (by simp; omega)
  refine ⟨fits, ?_⟩
  rw [fits.widen_shift]
  exact scope.shift (d := 1) 0

theorem InScope.substFits {j : Int64} {k : Nat} {s t : Indexed} (scope : s.widen.InScope k)
    (room : k + s.depth + t.depth < 2 ^ 63) (index : j.toInt + t.depth < 2 ^ 63) :
    SubstFits j s t := by
  induction t generalizing k j s with
  | var | const => trivial
  | not t ih => exact ih scope room index
  | bind b x dom body domIh bodyIh =>
    simp only [depth] at room index
    have next : (j + 1).toInt = j.toInt + 1 := toInt_succ_of_fits (by omega)
    obtain ⟨raise, scopeRaised⟩ := scope.raiseFits (by omega)
    have domain := domIh scope (by omega) (by omega : j.toInt + dom.depth < 2 ^ 63)
    have under := bodyIh scopeRaised (by rw [depth_shift]; omega)
      (by omega : (j + 1).toInt + body.depth < 2 ^ 63)
    exact ⟨domain, sumFits_one (by omega), raise, under⟩
  | cond t yes no ihT ihY ihN =>
    simp only [depth] at room index
    have test := ihT scope (by omega) (by omega : j.toInt + t.depth < 2 ^ 63)
    have yes := ihY scope (by omega) (by omega : j.toInt + yes.depth < 2 ^ 63)
    have no := ihN scope (by omega) (by omega : j.toInt + no.depth < 2 ^ 63)
    exact ⟨test, yes, no⟩
  | binop _ l r left right | app l r left right | ascribe l r left right =>
    simp only [depth] at room index
    have first := left scope (by omega) (by omega : j.toInt + l.depth < 2 ^ 63)
    have second := right scope (by omega) (by omega : j.toInt + r.depth < 2 ^ 63)
    exact ⟨first, second⟩

/-- An elimination does not wrap around if its parts are shallow enough. -/
theorem InScope.eliminateFits {d j : Int64} {k m : Nat} {s t : Indexed} (scope : s.widen.InScope k)
    (scopeBody : t.widen.InScope (k + m)) (amount : d.toInt = m) (index : j.toInt ≤ m)
    (room : k + m + s.depth + t.depth < 2 ^ 63) : EliminateFits d j s t := by
  have raise : s.ShiftFits d 0 := scope.shiftFits (by omega) (by omega) (by simp; omega)
  have scopeRaised : (s.shift d 0).widen.InScope (k + m) := by
    rw [raise.widen_shift, amount]
    exact scope.shift 0
  have replace : SubstFits j (s.shift d 0) t :=
    scopeRaised.substFits (by rw [depth_shift]; omega) (by omega)
  have scopeReplaced : (Term.subst j (s.shift d 0) t).widen.InScope (k + m) := by
    rw [replace.widen_subst]
    exact scopeBody.subst scopeRaised j.toInt
  have bound := depth_subst_le j (s.shift d 0) t
  rw [depth_shift] at bound
  exact ⟨raise, replace, scopeReplaced.shiftFits (by decide) (by simp; omega) (by omega)⟩

theorem InScope.instantiateFits {k : Nat} {s body : Indexed} (scope : s.widen.InScope k)
    (scopeBody : body.widen.InScope (k + 1)) (room : k + 1 + s.depth + body.depth < 2 ^ 63) :
    InstantiateFits s body :=
  scope.eliminateFits scopeBody rfl (by decide) room

theorem widen_instantiate {k : Nat} {s body : Indexed} (scope : s.widen.InScope k)
    (scopeBody : body.widen.InScope (k + 1)) (room : k + 1 + s.depth + body.depth < 2 ^ 63) :
    (instantiate s body).widen = instantiate s.widen body.widen :=
  (scope.instantiateFits scopeBody room).widen_instantiate

theorem forgetNames_widen (t : Indexed) : t.widen.forgetNames = t.forgetNames.widen := by
  induction t <;> simp_all [widen, forgetNames]

theorem widen_injective {t u : Indexed} (h : t.widen = u.widen) : t = u := by
  induction t generalizing u with
  | var v =>
    cases u with
    | var w =>
      cases v
      cases w
      simpa [widen, Int64.toInt_inj] using h
    | _ => cases h
  | _ => cases u <;> simp_all [widen] <;> grind

theorem alphaEq_widen {t u : Indexed} : AlphaEq t.widen u.widen ↔ AlphaEq t u := by
  unfold AlphaEq
  rw [forgetNames_widen, forgetNames_widen]
  exact ⟨widen_injective, congrArg widen⟩

end DepCalc.Term

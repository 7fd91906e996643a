import DepCalc.Proofs.Bare.Substitution
import DepCalc.Proofs.Widening
import Mathlib.Logic.Function.Iterate

/-!
The bare term of an indexed term: names and ascriptions are dropped, and an index is read as the
variable it refers to. Contracting a redex by shifting and substitution of indices is instantiation
of the bare body. On words this needs no more than that what is not inside an ascription has room.
-/
namespace DepCalc.Term

def bare : Term (Variable Int) → Bare
  | var v => .ofIndex v.ix
  | const c => .const c
  | binop op l r => .binop op l.bare r.bare
  | not t => .not t.bare
  | app f a => .app f.bare a.bare
  | bind b _ dom body => .bind b dom.bare body.bare
  | cond t yes no => .cond t.bare yes.bare no.bare
  | ascribe t _ => t.bare

/-- The bare term of a term of words. -/
def erase (t : Indexed) : Bare := t.widen.bare

/-- The term without its ascriptions. -/
def strip {ν : Type} : Term ν → Term ν
  | var v => var v
  | const c => const c
  | binop op l r => binop op l.strip r.strip
  | not t => not t.strip
  | app f a => app f.strip a.strip
  | bind b x dom body => bind b x dom.strip body.strip
  | cond t yes no => cond t.strip yes.strip no.strip
  | ascribe t _ => t.strip

theorem bare_forgetNames (t : Term (Variable Int)) : t.forgetNames.bare = t.bare := by
  induction t <;> simp_all [forgetNames, bare]

theorem bare_strip (t : Term (Variable Int)) : t.strip.bare = t.bare := by
  induction t <;> simp_all [strip, bare]

theorem widen_strip (t : Indexed) : t.strip.widen = t.widen.strip := by
  induction t <;> simp_all [strip, widen]

theorem erase_strip (t : Indexed) : t.strip.erase = t.erase := by
  rw [erase, widen_strip, bare_strip, erase]

/-- The nameless indexed term of a bare term. -/
def ofBare : Bare → Term (Variable Int)
  | .var i => var ⟨"", i⟩
  | .stray ix => var ⟨"", ix⟩
  | .const c => const c
  | .binop op l r => binop op (ofBare l) (ofBare r)
  | .not t => not (ofBare t)
  | .app f a => app (ofBare f) (ofBare a)
  | .bind b dom body => bind b "" (ofBare dom) (ofBare body)
  | .cond t yes no => cond (ofBare t) (ofBare yes) (ofBare no)

theorem ofBare_bare (t : Term (Variable Int)) : ofBare t.bare = t.strip.forgetNames := by
  induction t with
  | var v =>
    simp only [bare, Bare.ofIndex, strip, forgetNames]
    split
    · rfl
    · simp only [ofBare, Term.var.injEq, Variable.mk.injEq, true_and]
      omega
  | _ => simp_all [bare, ofBare, strip, forgetNames]

theorem bare_eq_iff {t u : Term (Variable Int)} : t.bare = u.bare ↔ AlphaEq t.strip u.strip := by
  constructor
  · intro same
    rw [AlphaEq, ← ofBare_bare, ← ofBare_bare, same]
  · intro same
    rw [← bare_strip, ← bare_strip u, ← bare_forgetNames, ← bare_forgetNames u.strip, same]

/-- The renaming that makes room for `d` variables below the `c` innermost ones. -/
def raise (d c i : Nat) : Nat := if i < c then i else i + d

theorem lift_raise (d c : Nat) : Bare.lift (raise d c) = raise d (c + 1) := by
  funext i
  cases i with
  | zero => rfl
  | succ i =>
    simp only [Bare.lift, raise, Nat.add_lt_add_iff_right]
    split <;> omega

theorem bare_shift (d c : Nat) (t : Term (Variable Int)) :
    (t.shift (d : Int) (c : Int)).bare = t.bare.rename (raise d c) := by
  induction t generalizing c with
  | var v =>
    simp only [shift, bare]
    by_cases negative : v.ix < 0
    · rw [if_pos (by omega), bare, Bare.ofIndex_neg negative, Bare.rename]
    · obtain ⟨i, index⟩ := Int.eq_ofNat_of_zero_le (Int.not_lt.mp negative)
      simp only [index, Int.ofNat_lt, Bare.ofIndex_natCast, Bare.rename, raise]
      split
      · rw [bare, index, Bare.ofIndex_natCast]
      · rw [bare, ← Int.natCast_add, Bare.ofIndex_natCast]
  | bind b x dom body domIh bodyIh =>
    have under := bodyIh (c + 1)
    rw [Int.natCast_succ] at under
    simp only [shift, bare, Bare.rename, domIh, under, lift_raise]
  | _ => simp_all [shift, bare, Bare.rename]

/-- Shifting down undoes the renaming that made room for one variable. -/
theorem bare_lower {c : Nat} {t : Term (Variable Int)} {u : Bare}
    (raised : t.bare = u.rename (raise 1 c)) : (t.shift (-1) (c : Int)).bare = u := by
  induction t generalizing c u with
  | var v =>
    by_cases negative : v.ix < 0
    · rw [bare, Bare.ofIndex_neg negative] at raised
      cases u <;> cases raised
      rw [shift, if_pos (by omega), bare, Bare.ofIndex_neg negative]
    · obtain ⟨i, index⟩ := Int.eq_ofNat_of_zero_le (Int.not_lt.mp negative)
      rw [bare, index, Bare.ofIndex_natCast] at raised
      cases u <;> cases raised
      rename_i j
      by_cases below : j < c
      · rw [raise, if_pos below] at index
        rw [shift, if_pos (by omega), bare, index, Bare.ofIndex_natCast]
      · rw [raise, if_neg below] at index
        have lowered : ((j + 1 : Nat) : Int) + -1 = j := by omega
        rw [shift, if_neg (by omega), bare, index, lowered, Bare.ofIndex_natCast]
  | ascribe t type ih _ => exact ih raised
  | const k =>
    cases u <;> cases raised
    rfl
  | bind b x dom body domIh bodyIh =>
    cases u <;> simp only [bare, Bare.rename, reduceCtorEq, Bare.bind.injEq] at raised
    obtain ⟨rfl, domain, under⟩ := raised
    rw [lift_raise] at under
    have lowered := bodyIh under
    rw [Int.natCast_succ] at lowered
    simp only [shift, bare, domIh domain, lowered]
  | not t ih =>
    cases u <;> simp only [bare, Bare.rename, reduceCtorEq, Bare.not.injEq] at raised
    exact congrArg Bare.not (ih raised)
  | binop op l r left right =>
    cases u <;> simp only [bare, Bare.rename, reduceCtorEq, Bare.binop.injEq] at raised
    simp only [shift, bare, raised.1, left raised.2.1, right raised.2.2]
  | app f a fn arg =>
    cases u <;> simp only [bare, Bare.rename, reduceCtorEq, Bare.app.injEq] at raised
    simp only [shift, bare, fn raised.1, arg raised.2]
  | cond t y n test yes no =>
    cases u <;> simp only [bare, Bare.rename, reduceCtorEq, Bare.cond.injEq] at raised
    simp only [shift, bare, test raised.1, yes raised.2.1, no raised.2.2]

theorem up_iterate (c i : Nat) (σ : Nat → Bare) :
    Bare.up^[c] σ i = if i < c then .var i else (σ (i - c)).rename (· + c) := by
  induction c generalizing i with
  | zero =>
    rw [if_neg (Nat.not_lt_zero i)]
    exact (Bare.rename_id (σ i)).symm
  | succ c ih =>
    rw [Function.iterate_succ_apply']
    cases i with
    | zero => rfl
    | succ i =>
      simp only [Bare.up, ih, Nat.add_lt_add_iff_right, Nat.add_sub_add_right]
      split
      · rfl
      · rw [Bare.weaken, Bare.rename_rename]
        rfl

/-- The argument has been shifted past the bound variable and the `c` binders above the place where
it is put in. -/
theorem bare_contract {c : Nat} {s : Bare} {s' t : Term (Variable Int)}
    (shifted : s'.bare = s.rename (· + (c + 1))) :
    ((subst (c : Int) s' t).shift (-1) (c : Int)).bare =
      t.bare.subst (Bare.up^[c] (Bare.extend s .var)) := by
  induction t generalizing c s' with
  | var v =>
    by_cases negative : v.ix < 0
    · rw [subst, if_neg (by omega), shift, if_pos (by omega), bare, Bare.ofIndex_neg negative,
        Bare.subst]
    obtain ⟨i, index⟩ := Int.eq_ofNat_of_zero_le (Int.not_lt.mp negative)
    rw [bare, index, Bare.ofIndex_natCast, Bare.subst, up_iterate, subst, index]
    by_cases same : i = c
    · -- The variable itself: the argument, shifted back by one.
      subst same
      rw [if_pos rfl, if_neg (Nat.lt_irrefl i), Nat.sub_self]
      refine bare_lower ?_
      rw [shifted, Bare.extend, Bare.rename_rename]
      congr 1
      funext j
      simp only [Function.comp, raise]
      rw [if_neg (by omega)]
      rfl
    · rw [if_neg (by omega), shift, index]
      by_cases below : i < c
      · rw [if_pos (by omega), if_pos below, bare, index, Bare.ofIndex_natCast]
      · obtain ⟨j, rfl⟩ : ∃ j, i = c + (j + 1) := ⟨i - c - 1, by omega⟩
        have lowered : ((c + (j + 1) : Nat) : Int) + -1 = (j + c : Nat) := by omega
        rw [if_neg (by omega), if_neg below, bare, lowered, Bare.ofIndex_natCast,
          Nat.add_sub_cancel_left]
        rfl
  | bind b x dom body domIh bodyIh =>
    have shiftedMore : (s'.shift 1 0).bare = s.rename (· + (c + 1 + 1)) := by
      have raised := bare_shift 1 0 s'
      rw [shifted, Bare.rename_rename] at raised
      exact raised
    have under := bodyIh shiftedMore
    rw [Int.natCast_succ, Function.iterate_succ_apply'] at under
    simp only [subst, shift, bare, Bare.subst, domIh shifted, under]
  | _ => simp_all [subst, shift, bare, Bare.subst]

/-- Contracting a redex by indices instantiates the bare body. -/
theorem bare_instantiate (s body : Term (Variable Int)) :
    (instantiate s body).bare = Bare.inst s.bare body.bare := by
  have shifted : (s.shift 1 0).bare = s.bare.rename (· + (0 + 1)) := bare_shift 1 0 s
  exact bare_contract (c := 0) shifted

section Strip

variable {ι : Type} [Add ι] [OfNat ι 1] [LT ι] [DecidableLT ι]

theorem strip_shift (d c : ι) (t : Term (Variable ι)) : (t.shift d c).strip = t.strip.shift d c := by
  induction t generalizing c with
  | var v =>
    simp only [shift, strip]
    split <;> rfl
  | _ => simp_all [shift, strip]

variable [OfNat ι 0] [DecidableEq ι]

theorem strip_subst (j : ι) (s t : Term (Variable ι)) :
    (subst j s t).strip = subst j s.strip t.strip := by
  induction t generalizing j s with
  | var v =>
    simp only [subst, strip]
    split <;> rfl
  | _ => simp_all [subst, strip, strip_shift]

variable [Neg ι]

theorem strip_instantiate (s body : Term (Variable ι)) :
    (instantiate s body).strip = instantiate s.strip body.strip := by
  rw [instantiate, strip_shift, strip_subst, strip_shift, instantiate]

end Strip

theorem depth_strip_le {ν : Type} (t : Term ν) : t.strip.depth ≤ t.depth := by
  induction t <;> simp only [strip, depth] <;> omega

/-- What is in scope outside the ascriptions is in scope once they are gone. -/
theorem inScope_strip {k : Nat} {t : Indexed} (scope : t.erase.Scoped k) :
    t.strip.widen.InScope k := by
  induction t generalizing k with
  | var v =>
    simp only [erase, widen, bare, Bare.ofIndex] at scope
    simp only [strip, widen, InScope]
    split at scope
    · exact scope.elim
    · simp only [Bare.Scoped] at scope
      omega
  | const => trivial
  | not t ih => exact ih scope
  | bind b x dom body domIh bodyIh => exact ⟨domIh scope.1, bodyIh scope.2⟩
  | binop _ _ _ left right | app _ _ left right => exact ⟨left scope.1, right scope.2⟩
  | cond t y n test yes no => exact ⟨test scope.1, yes scope.2.1, no scope.2.2⟩
  | ascribe t type ih _ => exact ih scope

theorem erase_shift {k n : Nat} {d : Int64} {t : Indexed} (scope : t.erase.Scoped k)
    (amount : d.toInt = n) (room : k + t.depth + n < 2 ^ 63) :
    (t.shift d 0).erase = t.erase.rename (· + n) := by
  have bound := depth_strip_le t
  have widened : (t.strip.shift d 0).widen = t.strip.widen.shift (n : Int) 0 := by
    rw [widen_shift (inScope_strip scope) (by omega) (by omega) (by simp; omega), amount]
    rfl
  rw [← erase_strip, strip_shift, erase, widened, ← erase_strip t]
  exact bare_shift n 0 t.strip.widen

theorem erase_instantiate {k : Nat} {s body : Indexed} (scope : s.erase.Scoped k)
    (scopeBody : body.erase.Scoped (k + 1)) (room : k + 1 + s.depth + body.depth < 2 ^ 63) :
    (instantiate s body).erase = Bare.inst s.erase body.erase := by
  have bound := depth_strip_le s
  have boundBody := depth_strip_le body
  rw [← erase_strip, strip_instantiate, erase, widen_instantiate (inScope_strip scope)
    (inScope_strip scopeBody) (by omega), bare_instantiate, ← erase_strip s, ← erase_strip body]
  rfl

end DepCalc.Term

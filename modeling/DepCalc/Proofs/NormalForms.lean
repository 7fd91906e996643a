import DepCalc.Proofs.Bare.Reduction
import DepCalc.Proofs.Erasure

/-!
Normal forms: terms in which nothing is left to compute. Every function that is applied, every
condition and every negated term waits for a variable, and so does an operand of every operation.
-/
namespace DepCalc.Term

variable {ν : Type}

/-- A variable or a form that waits for one of its parts. -/
def isStuck : Term ν → Bool
  | var _ | binop .. | not _ | app .. | cond .. => true
  | const _ | bind .. | ascribe .. => false

def IsNormal : Term ν → Prop
  | var _ | const _ => True
  | binop _ l r => l.IsNormal ∧ r.IsNormal ∧ (l.isStuck ∨ r.isStuck)
  | not t => t.IsNormal ∧ t.isStuck
  | app f a => f.IsNormal ∧ f.isStuck ∧ a.IsNormal
  | bind _ _ dom body => dom.IsNormal ∧ body.IsNormal
  | cond t yes no => t.IsNormal ∧ t.isStuck ∧ yes.IsNormal ∧ no.IsNormal
  | ascribe .. => False

theorem isStuck_widen (t : Indexed) : t.widen.isStuck = t.isStuck := by
  cases t <;> rfl

theorem IsNormal.widen {t : Indexed} (normal : t.IsNormal) : t.widen.IsNormal := by
  induction t <;> simp_all [IsNormal, Term.widen, isStuck_widen]

theorem IsNormal.strip_eq {t : Term ν} (normal : t.IsNormal) : t.strip = t := by
  induction t <;> simp_all [IsNormal, strip]

/-- A stuck term is no literal and no binder. -/
theorem bare_of_isStuck {t : Term (Variable Int)} (stuck : t.isStuck) :
    (∀ c, t.bare ≠ .const c) ∧ ∀ b dom body, t.bare ≠ .bind b dom body := by
  cases t with
  | var v =>
    simp only [bare, Bare.ofIndex]
    split <;> simp
  | _ => simp_all [isStuck, bare]

theorem IsNormal.rigid {t : Term (Variable Int)} (normal : t.IsNormal) : t.bare.Rigid := by
  induction t with
  | var v => exact .ofIndex v.ix
  | const c => exact .const c
  | binop op l r left right =>
    obtain ⟨normalLeft, normalRight, waits⟩ := normal
    exact .binop (left normalLeft) (right normalRight)
      (waits.imp (fun stuck => (bare_of_isStuck stuck).1) fun stuck => (bare_of_isStuck stuck).1)
  | not t operand => exact .not (operand normal.1) (bare_of_isStuck normal.2).1
  | app f a fn arg =>
    obtain ⟨normalFn, stuck, normalArg⟩ := normal
    exact .app (fn normalFn) (arg normalArg) (bare_of_isStuck stuck).2
  | bind b x dom body domain under => exact .bind (domain normal.1) (under normal.2)
  | cond t y n test yes no =>
    obtain ⟨normalTest, stuck, normalYes, normalNo⟩ := normal
    exact .cond (test normalTest) (yes normalYes) (no normalNo) (bare_of_isStuck stuck).1
  | ascribe t type _ _ => exact normal.elim

theorem IsNormal.rigid_erase {t : Indexed} (normal : t.IsNormal) : t.erase.Rigid :=
  normal.widen.rigid

/-- Normal forms with the same bare term differ in names only. -/
theorem IsNormal.alphaEq_iff {t u : Indexed} (left : t.IsNormal) (right : u.IsNormal) :
    AlphaEq t u ↔ t.erase = u.erase := by
  rw [erase, erase, bare_eq_iff, left.widen.strip_eq, right.widen.strip_eq, alphaEq_widen]

theorem IsNormal.eq_const {n : Indexed} {c : Constant} (normal : n.IsNormal)
    (shown : n.erase = .const c) : n = .const c := by
  have names := (normal.alphaEq_iff (u := .const c) trivial).mpr shown
  cases n <;> simp_all [AlphaEq, forgetNames]

theorem IsNormal.eq_bind {n : Indexed} {b : Binder} {dom body : Bare} (normal : n.IsNormal)
    (shown : n.erase = .bind b dom body) :
    ∃ x d u, n = .bind b x d u ∧ d.erase = dom ∧ u.erase = body := by
  cases n with
  | bind _ x d u =>
    cases shown
    exact ⟨x, d, u, rfl, rfl, rfl⟩
  | var v =>
    have rigid := bare_of_isStuck (t := (Term.var v : Indexed).widen) rfl
    exact absurd shown (rigid.2 b dom body)
  | ascribe t type => exact normal.elim
  | _ => cases shown

theorem isStuck_forgetNames (t : Indexed) : t.forgetNames.isStuck = t.isStuck := by
  cases t <;> rfl

theorem isNormal_forgetNames (t : Indexed) : t.forgetNames.IsNormal ↔ t.IsNormal := by
  induction t <;> simp_all [IsNormal, forgetNames, isStuck_forgetNames]

theorem AlphaEq.isNormal {t u : Indexed} (same : AlphaEq t u) (normal : u.IsNormal) : t.IsNormal := by
  rw [← isNormal_forgetNames, same, isNormal_forgetNames]
  exact normal

theorem depth_forgetNames (t : Indexed) : t.forgetNames.depth = t.depth := by
  induction t <;> simp_all [depth, forgetNames]

theorem AlphaEq.depth_eq {t u : Indexed} (same : AlphaEq t u) : t.depth = u.depth := by
  rw [← depth_forgetNames, same, depth_forgetNames]

end DepCalc.Term

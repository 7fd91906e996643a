import DepCalc.Term.Basic

/-!
Bare terms: the calculus without names and ascriptions, its variables counted by naturals. All the
theory of reduction and typing is about them. Substitution is simultaneous, and its laws are
equations between substitutions that are checked variable by variable.
-/
namespace DepCalc

inductive Bare where
  | var (i : Nat)
  /-- An index below zero refers to nothing, whatever binders stand around it. -/
  | stray (ix : Int)
  | const (c : Constant)
  | binop (op : Operator) (left right : Bare)
  | not (operand : Bare)
  | app (fn arg : Bare)
  | bind (b : Binder) (dom body : Bare)
  | cond (test yes no : Bare)

namespace Bare

/-- The variable of an index; below zero there is none. -/
def ofIndex (ix : Int) : Bare :=
  if ix < 0 then .stray ix else .var ix.toNat

theorem ofIndex_natCast (i : Nat) : ofIndex i = .var i := by
  rw [ofIndex, if_neg (by omega), Int.toNat_natCast]

theorem ofIndex_neg {ix : Int} (negative : ix < 0) : ofIndex ix = .stray ix :=
  if_pos negative

/-- A renaming under one more binder. -/
def lift (ξ : Nat → Nat) : Nat → Nat
  | 0 => 0
  | i + 1 => ξ i + 1

def rename (ξ : Nat → Nat) : Bare → Bare
  | var i => var (ξ i)
  | stray ix => stray ix
  | const c => const c
  | binop op l r => binop op (l.rename ξ) (r.rename ξ)
  | not t => not (t.rename ξ)
  | app f a => app (f.rename ξ) (a.rename ξ)
  | bind b dom body => bind b (dom.rename ξ) (body.rename (lift ξ))
  | cond t yes no => cond (t.rename ξ) (yes.rename ξ) (no.rename ξ)

/-- The term under one more binder. -/
def weaken (t : Bare) : Bare := t.rename (· + 1)

/-- A substitution under one more binder. -/
def up (σ : Nat → Bare) : Nat → Bare
  | 0 => var 0
  | i + 1 => (σ i).weaken

def subst (σ : Nat → Bare) : Bare → Bare
  | var i => σ i
  | stray ix => stray ix
  | const c => const c
  | binop op l r => binop op (l.subst σ) (r.subst σ)
  | not t => not (t.subst σ)
  | app f a => app (f.subst σ) (a.subst σ)
  | bind b dom body => bind b (dom.subst σ) (body.subst (up σ))
  | cond t yes no => cond (t.subst σ) (yes.subst σ) (no.subst σ)

/-- The substitution `σ` with `s` for one variable more, the innermost. -/
def extend (s : Bare) (σ : Nat → Bare) : Nat → Bare
  | 0 => s
  | i + 1 => σ i

/-- The body of a binder with `s` for the bound variable. -/
def inst (s body : Bare) : Bare := body.subst (extend s var)

/-- Every variable is bound inside the term or one of `k` variables outside. -/
def Scoped : Nat → Bare → Prop
  | k, var i => i < k
  | _, stray _ => False
  | _, const _ => True
  | k, binop _ l r => l.Scoped k ∧ r.Scoped k
  | k, not t => t.Scoped k
  | k, app f a => f.Scoped k ∧ a.Scoped k
  | k, bind _ dom body => dom.Scoped k ∧ body.Scoped (k + 1)
  | k, cond t yes no => t.Scoped k ∧ yes.Scoped k ∧ no.Scoped k

-- Each law is proved by induction on the term; under a binder it needs the same law for the lifted
-- renamings or substitutions, which holds variable by variable.
theorem lift_comp (ξ ζ : Nat → Nat) : lift ζ ∘ lift ξ = lift (ζ ∘ ξ) := by
  funext i
  cases i <;> rfl

theorem lift_id : lift id = id := by
  funext i
  cases i <;> rfl

theorem up_comp_lift (ξ : Nat → Nat) (σ : Nat → Bare) : up σ ∘ lift ξ = up (σ ∘ ξ) := by
  funext i
  cases i <;> rfl

theorem up_var : up var = var := by
  funext i
  cases i <;> rfl

theorem rename_rename (ξ ζ : Nat → Nat) (t : Bare) :
    (t.rename ξ).rename ζ = t.rename (ζ ∘ ξ) := by
  induction t generalizing ξ ζ with
  | bind b dom body domIh bodyIh => simp only [rename, domIh, bodyIh, lift_comp]
  | _ => simp_all [rename]

theorem rename_id (t : Bare) : t.rename id = t := by
  induction t with
  | bind b dom body domIh bodyIh => simp only [rename, lift_id, domIh, bodyIh]
  | _ => simp_all [rename]

theorem rename_weaken (ξ : Nat → Nat) (t : Bare) :
    t.weaken.rename (lift ξ) = (t.rename ξ).weaken := by
  simp only [weaken, rename_rename]
  rfl

theorem subst_rename (ξ : Nat → Nat) (σ : Nat → Bare) (t : Bare) :
    (t.rename ξ).subst σ = t.subst (σ ∘ ξ) := by
  induction t generalizing ξ σ with
  | bind b dom body domIh bodyIh => simp only [rename, subst, domIh, bodyIh, up_comp_lift]
  | _ => simp_all [rename, subst]

theorem rename_up (ξ : Nat → Nat) (σ : Nat → Bare) :
    (fun i => (up σ i).rename (lift ξ)) = up fun i => (σ i).rename ξ := by
  funext i
  cases i with
  | zero => rfl
  | succ i => exact rename_weaken ξ (σ i)

theorem rename_subst (ξ : Nat → Nat) (σ : Nat → Bare) (t : Bare) :
    (t.subst σ).rename ξ = t.subst fun i => (σ i).rename ξ := by
  induction t generalizing ξ σ with
  | bind b dom body domIh bodyIh => simp only [rename, subst, domIh, bodyIh, rename_up]
  | _ => simp_all [rename, subst]

theorem subst_weaken (σ : Nat → Bare) (t : Bare) : t.weaken.subst (up σ) = (t.subst σ).weaken := by
  simp only [weaken, subst_rename, rename_subst]
  rfl

theorem subst_up (σ τ : Nat → Bare) :
    (fun i => (up σ i).subst (up τ)) = up fun i => (σ i).subst τ := by
  funext i
  cases i with
  | zero => rfl
  | succ i => exact subst_weaken τ (σ i)

theorem subst_subst (σ τ : Nat → Bare) (t : Bare) :
    (t.subst σ).subst τ = t.subst fun i => (σ i).subst τ := by
  induction t generalizing σ τ with
  | bind b dom body domIh bodyIh => simp only [subst, domIh, bodyIh, subst_up]
  | _ => simp_all [subst]

@[simp] theorem subst_var (t : Bare) : t.subst var = t := by
  induction t with
  | bind b dom body domIh bodyIh => simp only [subst, up_var, domIh, bodyIh]
  | _ => simp_all [subst]

@[simp] theorem inst_weaken (s t : Bare) : inst s t.weaken = t := by
  rw [inst, weaken, subst_rename]
  exact subst_var t

theorem inst_subst_up (s : Bare) (σ : Nat → Bare) (body : Bare) :
    inst s (body.subst (up σ)) = body.subst (extend s σ) := by
  rw [inst, subst_subst]
  congr 1
  funext i
  cases i with
  | zero => rfl
  | succ i => exact inst_weaken s (σ i)

theorem subst_inst (σ : Nat → Bare) (s body : Bare) :
    (inst s body).subst σ = inst (s.subst σ) (body.subst (up σ)) := by
  rw [inst_subst_up, inst, subst_subst]
  congr 1
  funext i
  cases i <;> rfl

theorem rename_inst (ξ : Nat → Nat) (s body : Bare) :
    (inst s body).rename ξ = inst (s.rename ξ) (body.rename (lift ξ)) := by
  rw [inst, inst, rename_subst, subst_rename]
  congr 1
  funext i
  cases i <;> rfl

end Bare
end DepCalc

import DepCalc.Normal
import DepCalc.Proofs.NormalForms
import DepCalc.Proofs.Outcome

/-!
What values mean. A value under `level` binders stands for a bare term: a variable bound at some level
for the index that leads to it, a closure for the binder whose body has the environment put into it.
Evaluation and reading back then only reduce: a term with an environment put into it reduces to what
its value means, and what a value means reduces to the term that is read back. Neither needs a typed
term, or one whose variables are all in scope.
-/
namespace DepCalc

open Bare (Reduces)

mutual

def Value.term (level : Nat) : Value → Bare
  | .const c => .const c
  | .bind b dom _ env body => .bind b (dom.term level) (body.erase.subst (Bare.up (Env.subst level env)))
  | .neutral n => n.term level

def Neutral.term (level : Nat) : Neutral → Bare
  | .var _ bound => .ofIndex (level - bound.toInt)
  | .binop op l r => .binop op (l.term level) (r.term level)
  | .not n => .not (n.term level)
  | .app f a => .app (f.term level) (a.term level)
  | .cond t y n => .cond (t.term level) (y.term level) (n.term level)

/-- The substitution that an environment stands for. What it does not bind is bound outside all of
the `level` binders. -/
def Env.subst (level : Nat) : List Value → Nat → Bare
  | [] => fun i => .var (level + i)
  | v :: rest => Bare.extend (v.term level) (Env.subst level rest)

end

mutual

/-- Every variable in the value is bound at one of the levels `1` to `level`, and every stuck
operation waits for one of its operands. -/
def Value.Sound (level : Nat) : Value → Prop
  | .const _ => True
  | .bind _ dom _ env _ => dom.Sound level ∧ Env.Sound level env
  | .neutral n => n.Sound level

def Neutral.Sound (level : Nat) : Neutral → Prop
  | .var _ bound => 1 ≤ bound.toInt ∧ bound.toInt ≤ level
  | .binop _ l r => l.Sound level ∧ r.Sound level ∧ (l.kind = .neutral ∨ r.kind = .neutral)
  | .not n => n.Sound level
  | .app f a => f.Sound level ∧ a.Sound level
  | .cond t y n => t.Sound level ∧ y.Sound level ∧ n.Sound level

def Env.Sound (level : Nat) : List Value → Prop
  | [] => True
  | v :: rest => v.Sound level ∧ Env.Sound level rest

end

mutual

theorem Value.term_succ {level : Nat} {v : Value} (sound : v.Sound level) :
    v.term (level + 1) = (v.term level).weaken := by
  cases v with
  | const c => rfl
  | neutral n => exact Neutral.term_succ sound
  | bind b dom x env body =>
    have domain := Value.term_succ sound.1
    have outside := Env.subst_succ sound.2
    simp only [Value.term, Bare.weaken, Bare.rename] at domain outside ⊢
    rw [domain, outside, Bare.rename_subst, Bare.rename_up]

theorem Neutral.term_succ {level : Nat} {n : Neutral} (sound : n.Sound level) :
    n.term (level + 1) = (n.term level).weaken := by
  cases n with
  | var x bound =>
    have below : bound.toInt ≤ level := sound.2
    obtain ⟨i, index⟩ := Int.eq_ofNat_of_zero_le (Int.sub_nonneg_of_le below)
    have next : ((level + 1 : Nat) : Int) - bound.toInt = (i + 1 : Nat) := by omega
    rw [Neutral.term, Neutral.term, index, next, Bare.ofIndex_natCast, Bare.ofIndex_natCast]
    rfl
  | binop op l r =>
    rw [Neutral.term, Value.term_succ sound.1, Value.term_succ sound.2.1]
    rfl
  | not n =>
    rw [Neutral.term, Neutral.term_succ (n := n) sound]
    rfl
  | app f a =>
    rw [Neutral.term, Neutral.term_succ sound.1, Value.term_succ sound.2]
    rfl
  | cond t y n =>
    rw [Neutral.term, Neutral.term_succ sound.1, Value.term_succ sound.2.1,
      Value.term_succ sound.2.2]
    rfl

theorem Env.subst_succ {level : Nat} {env : List Value} (sound : Env.Sound level env) :
    Env.subst (level + 1) env = fun i => (Env.subst level env i).weaken := by
  cases env with
  | nil =>
    funext i
    simp only [Env.subst, Bare.weaken, Bare.rename, Bare.var.injEq]
    omega
  | cons v rest =>
    funext i
    cases i with
    | zero => exact Value.term_succ sound.1
    | succ i => exact congrFun (Env.subst_succ sound.2) i

end

mutual

theorem Value.Sound.succ {level : Nat} {v : Value} (sound : v.Sound level) :
    v.Sound (level + 1) := by
  cases v with
  | const c => trivial
  | neutral n => exact Neutral.Sound.succ sound
  | bind b dom x env body => exact ⟨Value.Sound.succ sound.1, Env.Sound.succ sound.2⟩

theorem Neutral.Sound.succ {level : Nat} {n : Neutral} (sound : n.Sound level) :
    n.Sound (level + 1) := by
  cases n with
  | var x bound => exact ⟨sound.1, Int.le_trans sound.2 (by omega)⟩
  | binop op l r => exact ⟨Value.Sound.succ sound.1, Value.Sound.succ sound.2.1, sound.2.2⟩
  | not n => exact Neutral.Sound.succ (n := n) sound
  | app f a => exact ⟨Neutral.Sound.succ sound.1, Value.Sound.succ sound.2⟩
  | cond t y n =>
    exact ⟨Neutral.Sound.succ sound.1, Value.Sound.succ sound.2.1, Value.Sound.succ sound.2.2⟩

theorem Env.Sound.succ {level : Nat} {env : List Value} (sound : Env.Sound level env) :
    Env.Sound (level + 1) env := by
  cases env with
  | nil => trivial
  | cons v rest => exact ⟨Value.Sound.succ sound.1, Env.Sound.succ sound.2⟩

end

/-- The environment under one more binder, whose variable is fresh. -/
theorem Env.Sound.fresh {level : Nat} {env : List Value} (sound : Env.Sound level env) (x : Name)
    (room : level + 1 < 2 ^ 63) :
    Env.Sound (level + 1) (Value.fresh x (Int64.ofNat (level + 1)) :: env) := by
  have word : (Int64.ofNat (level + 1)).toInt = (level + 1 : Nat) := Int64.toInt_ofNat_of_lt room
  refine ⟨?_, sound.succ⟩
  simp only [Value.fresh, Value.Sound, Neutral.Sound, word]
  omega

theorem Env.subst_fresh {level : Nat} {env : List Value} (sound : Env.Sound level env) (x : Name)
    (room : level + 1 < 2 ^ 63) :
    Env.subst (level + 1) (Value.fresh x (Int64.ofNat (level + 1)) :: env) =
      Bare.up (Env.subst level env) := by
  have word : (Int64.ofNat (level + 1)).toInt = (level + 1 : Nat) := Int64.toInt_ofNat_of_lt room
  funext i
  cases i with
  | zero =>
    simp only [Env.subst, Bare.extend, Value.fresh, Value.term, Neutral.term, word, Int.sub_self]
    exact Bare.ofIndex_natCast 0
  | succ i => exact congrFun (Env.subst_succ sound) i

/-- The value is sound, and the term reduces to what it means. -/
def Value.Represents (level : Nat) (t : Bare) (v : Value) : Prop :=
  v.Sound level ∧ Reduces t (v.term level)

/-- What is known of a value whose parts may be unsound: the term reduces to what it means, and it is
sound if they are. -/
def Value.Follows (level : Nat) (parts : Prop) (t : Bare) (v : Value) : Prop :=
  (parts → v.Sound level) ∧ Reduces t (v.term level)

theorem Value.Follows.of_reduces {level : Nat} {parts : Prop} {t u : Bare} {v : Value}
    (first : Reduces t u) (h : v.Follows level parts u) : v.Follows level parts t :=
  ⟨h.1, first.trans h.2⟩

theorem Value.Follows.of_imp {level : Nat} {parts parts' : Prop} {t : Bare} {v : Value}
    (h : v.Follows level parts t) (stronger : parts' → parts) : v.Follows level parts' t :=
  ⟨fun sound => h.1 (stronger sound), h.2⟩

theorem Env.get_follows (level : Nat) {env : List Value} {i : Nat} {v : Value}
    (found : env[i]? = some v) :
    (Env.Sound level env → v.Sound level) ∧ Env.subst level env i = v.term level := by
  induction env generalizing i with
  | nil => simp at found
  | cons w rest ih =>
    cases i with
    | zero =>
      simp only [List.getElem?_cons_zero, Option.some.injEq] at found
      subst found
      exact ⟨fun sound => sound.1, rfl⟩
    | succ i =>
      obtain ⟨outside, same⟩ := ih (by simpa using found)
      exact ⟨fun sound => outside sound.2, same⟩

theorem lookup_follows (level : Nat) (env : Env) (ix : Int64) :
    Outcome (fun _ => True)
      (Value.Follows level (Env.Sound level env)
        ((Bare.ofIndex ix.toInt).subst (Env.subst level env)))
      (env.lookup ix) := by
  unfold Env.lookup atIndex?
  by_cases negative : ix < 0
  · rw [if_pos negative]
    trivial
  · rw [if_neg negative]
    cases found : env[ix.toNatClampNeg]? with
    | none => trivial
    | some v =>
      obtain ⟨soundValue, same⟩ := Env.get_follows level found
      have index : ¬ ix.toInt < 0 := by rwa [Int64.lt_iff_toInt_lt] at negative
      refine ⟨soundValue, ?_⟩
      rw [Bare.ofIndex, if_neg index, Int64.toNat_toInt, Bare.subst, same]
      exact .refl _

theorem negate_follows (level : Nat) (v : Value) :
    Outcome (fun _ => True) (Value.Follows level (v.Sound level) (.not (v.term level))) v.negate := by
  unfold Value.negate
  split
  · exact ⟨fun _ => trivial, (Bare.Par.negate _).reduces⟩
  · exact ⟨id, .refl _⟩
  · trivial

theorem onValues_follows (level : Nat) (op : Operator) (l r : Value) :
    Outcome (fun _ => True)
      (Value.Follows level (l.Sound level ∧ r.Sound level)
        (.binop op (l.term level) (r.term level)))
      (op.onValues l r) := by
  unfold Operator.onValues
  split
  · split
    · rename_i computed
      exact ⟨fun _ => trivial, (Bare.Par.compute computed).reduces⟩
    · trivial
  · exact ⟨fun sound => ⟨sound.1, sound.2, .inl rfl⟩, .refl _⟩
  · exact ⟨fun sound => ⟨sound.1, sound.2, .inr rfl⟩, .refl _⟩
  · trivial

/-- The value of a term is what the term, with the environment put into it, reduces to. The
induction is on the fuel, since the body of a closure is no part of the term that calls it. -/
theorem eval_follows (level fuel : Nat) (env : Env) (t : Indexed) :
    Outcome (fun _ => True)
      (Value.Follows level (Env.Sound level env) (t.erase.subst (Env.subst level env)))
      (eval fuel env t) := by
  induction fuel generalizing env t with
  | zero => trivial
  | succ fuel ih =>
    cases t with
    | var v => exact lookup_follows level env v.ix
    | const c => exact ⟨fun _ => trivial, .refl _⟩
    | ascribe t type => exact ih env t
    | binop op l r =>
      apply (ih env l).bind
      intro left leftMeans
      apply (ih env r).bind
      intro right rightMeans
      apply (onValues_follows level op left right).mono
      intro v means
      apply (means.of_reduces (leftMeans.2.binop rightMeans.2)).of_imp
      exact fun sound => ⟨leftMeans.1 sound, rightMeans.1 sound⟩
    | not t =>
      apply (ih env t).bind
      intro operand operandMeans
      apply (negate_follows level operand).mono
      intro v means
      exact (means.of_reduces operandMeans.2.not).of_imp operandMeans.1
    | bind b x dom body =>
      apply (ih env dom).bind
      intro domain domainMeans
      exact ⟨fun sound => ⟨domainMeans.1 sound, sound⟩, domainMeans.2.bind (.refl _)⟩
    | app f a =>
      apply (ih env f).bind
      intro fn fnMeans
      apply (ih env a).bind
      intro arg argMeans
      have parts := fnMeans.2.app argMeans.2
      cases fn with
      | const c => trivial
      | neutral n => exact ⟨fun sound => ⟨fnMeans.1 sound, argMeans.1 sound⟩, parts⟩
      | bind b dom x captured body =>
        cases b with
        | pi => trivial
        | sigma => trivial
        | lam =>
          have inside : Env.Sound level env → Env.Sound level (arg :: captured) :=
            fun sound => ⟨argMeans.1 sound, (fnMeans.1 sound).2⟩
          refine (ih (arg :: captured) body).mono fun v means =>
            (means.of_reduces (parts.trans ?_)).of_imp inside
          have contracted := @Bare.Par.beta (dom.term level) _ _ _ _
            (.refl (body.erase.subst (Bare.up (Env.subst level captured)))) (.refl (arg.term level))
          rw [Bare.inst_subst_up] at contracted
          exact contracted.reduces
    | cond t y n =>
      apply (ih env t).bind
      intro test testMeans
      cases test with
      | bind b dom x captured body => trivial
      | neutral stuck =>
        apply (ih env y).bind
        intro yes yesMeans
        apply (ih env n).bind
        intro no noMeans
        exact ⟨fun sound => ⟨testMeans.1 sound, yesMeans.1 sound, noMeans.1 sound⟩,
          testMeans.2.cond yesMeans.2 noMeans.2⟩
      | const c =>
        cases c with
        | bool b =>
          have selected := testMeans.2.cond (.refl (y.erase.subst (Env.subst level env)))
            (.refl (n.erase.subst (Env.subst level env)))
          cases b with
          | true =>
            refine (ih env y).mono fun v means => means.of_reduces (selected.trans ?_)
            exact (Bare.Par.selectYes (.refl _)).reduces
          | false =>
            refine (ih env n).mono fun v means => means.of_reduces (selected.trans ?_)
            exact (Bare.Par.selectNo (.refl _)).reduces
        | _ => trivial

theorem eval_represents {level fuel : Nat} {env : Env} (sound : Env.Sound level env) (t : Indexed) :
    Outcome (fun _ => True) (Value.Represents level (t.erase.subst (Env.subst level env)))
      (eval fuel env t) :=
  (eval_follows level fuel env t).mono fun _ means => ⟨means.1 sound, means.2⟩

/-- The term is a normal form with its variables in scope, and `t` reduces to it. -/
structure Reads (level : Nat) (t : Bare) (n : Indexed) : Prop where
  normal : n.IsNormal
  scope : n.erase.Scoped level
  reduces : Reduces t n.erase

theorem Reads.inScope {level : Nat} {t : Bare} {n : Indexed} (reads : Reads level t n) :
    n.widen.InScope level := by
  have inside := Term.inScope_strip reads.scope
  rwa [reads.normal.strip_eq] at inside

theorem Reads.of_reduces {level : Nat} {t u : Bare} {n : Indexed} (first : Reduces t u)
    (h : Reads level u n) : Reads level t n :=
  ⟨h.normal, h.scope, first.trans h.reduces⟩

theorem Reads.bind {level : Nat} {b : Binder} {x : Name} {dom body : Bare} {d u : Indexed}
    (domain : Reads level dom d) (under : Reads (level + 1) body u) :
    Reads level (.bind b dom body) (.bind b x d u) :=
  ⟨⟨domain.normal, under.normal⟩, ⟨domain.scope, under.scope⟩, domain.reduces.bind under.reduces⟩

theorem ofNat_succ (level : Nat) : Int64.ofNat level + 1 = Int64.ofNat (level + 1) :=
  (Int64.ofNat_add level 1).symm

theorem ofNat_succ_sub_one (level : Nat) : Int64.ofNat (level + 1) - 1 = Int64.ofNat level := by
  rw [← ofNat_succ, Int64.add_sub_cancel]

/-- The index that leads from `level` binders to the one at `bound`. -/
theorem toInt_level_sub {level : Nat} {bound : Int64} (low : 1 ≤ bound.toInt)
    (high : bound.toInt ≤ level) (room : level < 2 ^ 63) :
    (Int64.ofNat level - bound).toInt = level - bound.toInt := by
  rw [Int64.toInt_sub, Int64.toInt_ofNat_of_lt room]
  exact Int.bmod_eq_of_le (by omega) (by omega)

theorem var_reads {level : Nat} {bound : Int64} (x : Name) (low : 1 ≤ bound.toInt)
    (high : bound.toInt ≤ level) (room : level < 2 ^ 63) :
    Reads level (Bare.ofIndex (level - bound.toInt)) (.var ⟨x, Int64.ofNat level - bound⟩) := by
  have index := toInt_level_sub low high room
  refine ⟨trivial, ?_, ?_⟩
  · simp only [Term.erase, Term.widen, Term.bare, index, Bare.ofIndex]
    rw [if_neg (by omega)]
    simp only [Bare.Scoped]
    omega
  · simp only [Term.erase, Term.widen, Term.bare, index]
    exact .refl _

/-- What is read back is a normal form to which the value reduces, as long as the levels of its
binders are not wrapped around. -/
theorem quote_reads (fuel : Nat) :
    (∀ {level : Nat} {v : Value}, v.Sound level →
      Outcome (fun _ => True) (fun n => level + n.depth < 2 ^ 63 →
        Reads level (v.term level) n ∧ (v.kind = .neutral → n.isStuck))
        (v.quote fuel (Int64.ofNat level))) ∧
    (∀ {level : Nat} {n : Neutral}, n.Sound level →
      Outcome (fun _ => True) (fun t => level + t.depth < 2 ^ 63 →
        Reads level (n.term level) t ∧ t.isStuck)
        (n.quote fuel (Int64.ofNat level))) := by
  induction fuel with
  | zero => exact ⟨fun _ => trivial, fun _ => trivial⟩
  | succ fuel ih =>
    obtain ⟨value, neutral⟩ := ih
    constructor
    · intro level v sound
      cases v with
      | const c => exact fun _ => ⟨⟨trivial, trivial, .refl _⟩, by cases c <;> simp [Value.kind]⟩
      | neutral n =>
        exact (neutral sound).mono fun t reads room => ⟨(reads room).1, fun _ => (reads room).2⟩
      | bind b dom x env body =>
        simp only [Value.quote, ofNat_succ]
        have noNeutral : (Value.bind b dom x env body).kind ≠ .neutral := by
          cases b <;> simp [Value.kind]
        by_cases fits : level + 1 < 2 ^ 63
        · apply (value sound.1).bind
          intro domain domainReads
          apply (eval_represents (sound.2.fresh x fits) body).bind
          intro opened means
          apply (value means.1).bind
          intro under underReads room
          rw [Env.subst_fresh sound.2 x fits] at means
          simp only [Term.depth] at room
          obtain ⟨domainReads, -⟩ := domainReads (by omega)
          obtain ⟨underReads, -⟩ := underReads (by omega)
          exact ⟨domainReads.bind (underReads.of_reduces means.2), fun h => absurd h noNeutral⟩
        · -- No term this deep is shallow enough for the statement.
          apply (Outcome.answered _).bind
          intro domain _
          apply (Outcome.answered _).bind
          intro opened _
          apply (Outcome.answered _).bind
          intro under _ room
          simp only [Term.depth] at room
          omega
    · intro level n sound
      cases n with
      | var x bound =>
        simp only [Neutral.quote]
        split
        · trivial
        · exact fun room => ⟨var_reads x sound.1 sound.2 room, rfl⟩
      | not n =>
        apply (neutral (n := n) sound).bind
        intro t reads room
        obtain ⟨reads, stuck⟩ := reads room
        exact ⟨⟨⟨reads.normal, stuck⟩, reads.scope, reads.reduces.not⟩, rfl⟩
      | binop op l r =>
        apply (value sound.1).bind
        intro left leftReads
        apply (value sound.2.1).bind
        intro right rightReads room
        simp only [Term.depth] at room
        obtain ⟨leftReads, leftStuck⟩ := leftReads (by omega)
        obtain ⟨rightReads, rightStuck⟩ := rightReads (by omega)
        have waits := sound.2.2.imp leftStuck rightStuck
        exact ⟨⟨⟨leftReads.normal, rightReads.normal, waits⟩, ⟨leftReads.scope, rightReads.scope⟩,
          leftReads.reduces.binop rightReads.reduces⟩, rfl⟩
      | app f a =>
        apply (neutral sound.1).bind
        intro fn fnReads
        apply (value sound.2).bind
        intro arg argReads room
        simp only [Term.depth] at room
        obtain ⟨fnReads, stuck⟩ := fnReads (by omega)
        obtain ⟨argReads, -⟩ := argReads (by omega)
        exact ⟨⟨⟨fnReads.normal, stuck, argReads.normal⟩, ⟨fnReads.scope, argReads.scope⟩,
          fnReads.reduces.app argReads.reduces⟩, rfl⟩
      | cond t y n =>
        apply (neutral sound.1).bind
        intro test testReads
        apply (value sound.2.1).bind
        intro yes yesReads
        apply (value sound.2.2).bind
        intro no noReads room
        simp only [Term.depth] at room
        obtain ⟨testReads, stuck⟩ := testReads (by omega)
        obtain ⟨yesReads, -⟩ := yesReads (by omega)
        obtain ⟨noReads, -⟩ := noReads (by omega)
        exact ⟨⟨⟨testReads.normal, stuck, yesReads.normal, noReads.normal⟩,
          ⟨testReads.scope, yesReads.scope, noReads.scope⟩,
          testReads.reduces.cond yesReads.reduces noReads.reduces⟩, rfl⟩

/-- The variables of the innermost names, which are bound at the levels down from `level`. -/
theorem Env.Sound.descending {level : Nat} (names : List Name) (enough : names.length ≤ level)
    (room : level < 2 ^ 63) :
    Env.Sound level (Env.descending (Int64.ofNat names.length) names) := by
  induction names with
  | nil => trivial
  | cons x rest ih =>
    have word : (Int64.ofNat (rest.length + 1)).toInt = (rest.length + 1 : Nat) :=
      Int64.toInt_ofNat_of_lt (Nat.lt_of_le_of_lt enough room)
    simp only [List.length_cons] at enough ⊢
    rw [Env.descending, ofNat_succ_sub_one]
    refine ⟨?_, ih (by omega)⟩
    simp only [Value.fresh, Value.Sound, Neutral.Sound, word]
    omega

theorem Env.subst_descending {level : Nat} (names : List Name) (enough : names.length ≤ level)
    (room : level < 2 ^ 63) (i : Nat) :
    Env.subst level (Env.descending (Int64.ofNat names.length) names) i =
      .var (level - names.length + i) := by
  induction names generalizing i with
  | nil => rfl
  | cons x rest ih =>
    have word : (Int64.ofNat (rest.length + 1)).toInt = (rest.length + 1 : Nat) :=
      Int64.toInt_ofNat_of_lt (Nat.lt_of_le_of_lt enough room)
    simp only [List.length_cons] at enough ⊢
    rw [Env.descending, ofNat_succ_sub_one, Env.subst]
    cases i with
    | zero =>
      simp only [Bare.extend, Value.fresh, Value.term, Neutral.term, word]
      rw [← Int.ofNat_sub enough, Bare.ofIndex_natCast]
      rfl
    | succ i =>
      rw [Bare.extend, ih (by omega)]
      congr 1
      omega

theorem Env.Sound.ofNames {names : List Name} (room : names.length < 2 ^ 63) :
    Env.Sound names.length (Env.ofNames names) :=
  .descending names (Nat.le_refl _) room

theorem Env.subst_ofNames {names : List Name} (room : names.length < 2 ^ 63) :
    Env.subst names.length (Env.ofNames names) = Bare.var := by
  funext i
  rw [Env.ofNames, Env.subst_descending names (Nat.le_refl _) room, Nat.sub_self, Nat.zero_add]

/-- Every binder of a normal form was read back with less fuel than the one around it. -/
theorem quote_depth_lt (fuel : Nat) :
    (∀ (level : Int64) (v : Value),
      Outcome (fun _ => True) (fun n => n.depth < fuel) (v.quote fuel level)) ∧
    (∀ (level : Int64) (n : Neutral),
      Outcome (fun _ => True) (fun t => t.depth < fuel) (n.quote fuel level)) := by
  induction fuel with
  | zero => exact ⟨fun _ _ => trivial, fun _ _ => trivial⟩
  | succ fuel ih =>
    obtain ⟨value, neutral⟩ := ih
    constructor
    · intro level v
      cases v with
      | const c => exact Nat.zero_lt_succ fuel
      | neutral n => exact (neutral level n).mono fun t bound => Nat.lt_succ_of_lt bound
      | bind b dom x env body =>
        apply (value level dom).bind
        intro d domain
        apply (Outcome.answered _).bind
        intro opened _
        apply (value (level + 1) opened).bind
        intro u under
        simp only [Outcome, Term.depth]
        omega
    · intro level n
      cases n with
      | var x bound =>
        simp only [Neutral.quote]
        split
        · trivial
        · exact Nat.zero_lt_succ fuel
      | not n => exact (neutral level n).bind fun t bound => Nat.lt_succ_of_lt bound
      | binop op l r =>
        apply (value level l).bind
        intro _ left
        apply (value level r).bind
        intro _ right
        simp only [Outcome, Term.depth]
        omega
      | app f a =>
        apply (neutral level f).bind
        intro _ fn
        apply (value level a).bind
        intro _ arg
        simp only [Outcome, Term.depth]
        omega
      | cond t y n =>
        apply (neutral level t).bind
        intro _ test
        apply (value level y).bind
        intro _ yes
        apply (value level n).bind
        intro _ no
        simp only [Outcome, Term.depth]
        omega

theorem normalize_depth_lt {fuel : Nat} {scope : List Name} {t n : Indexed}
    (normalized : t.normalize fuel scope = .ok n) : n.depth < fuel := by
  have bound : Outcome (fun _ => True) (fun n => n.depth < fuel) (t.normalize fuel scope) :=
    (Outcome.answered _).bind fun v _ => (quote_depth_lt fuel).1 _ v
  exact bound.of_eq_ok normalized

/-- The normal form of a binder is the binder of the normal forms. -/
theorem normalize_bind (fuel : Nat) (scope : List Name) (b : Binder) (x : Name) (dom body : Indexed) :
    (Term.bind b x dom body).normalize (fuel + 1) scope = (do
      let d ← dom.normalize fuel scope
      let u ← body.normalize fuel (x :: scope)
      .ok (.bind b x d u)) := by
  have inside : Value.fresh x (Int64.ofNat scope.length + 1) :: Env.ofNames scope =
      Env.ofNames (x :: scope) := by
    simp only [Env.ofNames, Env.descending, List.length_cons]
    rw [ofNat_succ_sub_one, ofNat_succ]
  simp only [Term.normalize, eval, List.length_cons, ← inside]
  cases eval fuel (Env.ofNames scope) dom with
  | error h => rfl
  | ok v =>
    simp only [bind, Except.bind, Value.quote, ofNat_succ]
    cases v.quote fuel (Int64.ofNat scope.length) with
    | error h => rfl
    | ok d =>
      simp only
      cases eval fuel (Value.fresh x (Int64.ofNat (scope.length + 1)) :: Env.ofNames scope) body with
      | error h => rfl
      | ok opened => rfl

/-- A term reduces to its normal form, whether it is typed or not. -/
theorem normalize_reads {fuel : Nat} {scope : List Name} {t n : Indexed}
    (normalized : t.normalize fuel scope = .ok n) (room : scope.length + n.depth < 2 ^ 63) :
    Reads scope.length t.erase n := by
  have fits : scope.length < 2 ^ 63 := by omega
  have reads : Outcome (fun _ => True)
      (fun n => scope.length + n.depth < 2 ^ 63 → Reads scope.length t.erase n)
      (t.normalize fuel scope) := by
    apply (eval_represents (.ofNames fits) t).bind
    intro v means
    rw [Env.subst_ofNames fits, Bare.subst_var] at means
    apply ((quote_reads fuel).1 means.1).mono
    intro n reads room
    exact (reads room).1.of_reduces means.2
  exact reads.of_eq_ok normalized room

/-- Normal forms are equal up to names just in case their sources have a common reduct. -/
theorem Reads.alphaEq_iff {level : Nat} {t u : Bare} {n m : Indexed} (left : Reads level t n)
    (right : Reads level u m) : Term.AlphaEq n m ↔ Bare.Joinable t u := by
  rw [left.normal.alphaEq_iff right.normal]
  constructor
  · intro same
    exact ⟨n.erase, left.reduces, same ▸ right.reduces⟩
  · intro join
    have joined := left.reduces.joinable.symm.trans (join.trans right.reduces.joinable)
    exact joined.eq left.normal.rigid_erase right.normal.rigid_erase

end DepCalc

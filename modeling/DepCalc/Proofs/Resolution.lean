import DepCalc.Proofs.Scoping
import DepCalc.Proofs.Shifting
import DepCalc.Proofs.Source.RoundTrip

/-!
What resolution does with the names of a surface term. Each variable is looked at together with the
binders around it: resolution fails at the first one, from left to right, that none of them binds,
and otherwise it puts the place of the innermost one that does beside the name and changes nothing
else. A name that does not occur free may be added to the scope; that moves the other indices as a
shift does.
-/
namespace DepCalc

/-- A name has the place of the innermost name to which it refers for its index. -/
theorem Scope.lookup_ofNames (how : Matching) (xs : List Name) (x : Name) :
    (Scope.ofNames xs).lookup how x =
      if xs.any (how.refersTo x) then .ok (Int64.ofNat (xs.findIdx (how.refersTo x)))
      else .error ⟨x⟩ := by
  induction xs with
  | nil => rfl
  | cons y xs ih =>
    rw [Scope.ofNames]
    cases found : how.refersTo x y with
    | true => simp [Scope.lookup, Scope.lift, found, List.findIdx_cons]
    | false =>
      rw [Scope.lookup_lift_of_passed _ found, ih]
      simp only [List.any_cons, found, Bool.false_or, List.findIdx_cons, cond_false]
      split
      · simp [Except.map]
      · rfl

namespace Term

/-- The names of the variables that no binder of the term binds, from left to right. -/
def freeNames : Surface → List Name
  | var x => [x]
  | const _ => []
  | binop _ l r => l.freeNames ++ r.freeNames
  | not t => t.freeNames
  | app f a => f.freeNames ++ a.freeNames
  | bind _ x dom body => dom.freeNames ++ body.freeNames.filter (· ≠ x)
  | cond t yes no => t.freeNames ++ yes.freeNames ++ no.freeNames
  | ascribe t type => t.freeNames ++ type.freeNames

/-- The variables, from left to right, each with the names of the binders around it, innermost
first. A binder is around its body and not around its domain; `scope` is around the whole term. -/
def occurrences {ν : Type} (scope : List Name) : Term ν → List (ν × List Name)
  | var v => [(v, scope)]
  | const _ => []
  | binop _ l r => l.occurrences scope ++ r.occurrences scope
  | not t => t.occurrences scope
  | app f a => f.occurrences scope ++ a.occurrences scope
  | bind _ x dom body => dom.occurrences scope ++ body.occurrences (x :: scope)
  | cond t yes no => t.occurrences scope ++ yes.occurrences scope ++ no.occurrences scope
  | ascribe t type => t.occurrences scope ++ type.occurrences scope

/-- The surface term that is left without the indices. -/
def dropIndices : Indexed → Surface
  | var v => var v.name
  | const c => const c
  | binop op l r => binop op l.dropIndices r.dropIndices
  | not t => not t.dropIndices
  | app f a => app f.dropIndices a.dropIndices
  | bind b x dom body => bind b x dom.dropIndices body.dropIndices
  | cond t yes no => cond t.dropIndices yes.dropIndices no.dropIndices
  | ascribe t type => ascribe t.dropIndices type.dropIndices

/-- A term is closed by the names of a scope if each variable has its name among the binders around
it. -/
theorem forall_mem_freeNames_iff {t : Surface} {xs : List Name} :
    (∀ x ∈ t.freeNames, x ∈ xs) ↔ ∀ o ∈ t.occurrences xs, o.1 ∈ o.2 := by
  induction t generalizing xs with
  | var x => simp [freeNames, occurrences]
  | const c => simp [freeNames, occurrences]
  | not t ih => exact ih
  | bind b x dom body domain under =>
    simp only [freeNames, occurrences, List.forall_mem_append, ← domain, ← under, List.mem_filter,
      List.mem_cons, decide_eq_true_eq]
    grind
  | cond t yes no test first second =>
    simp only [freeNames, occurrences, List.forall_mem_append, test, first, second]
  | binop _ _ _ left right | app _ _ left right | ascribe _ _ left right =>
    simp only [freeNames, occurrences, List.forall_mem_append, left, right]

/-- The first variable, from left to right, that is not bound has this name. -/
def FailsAt (bound : Name → List Name → Bool) (os : List (Name × List Name)) (x : Name) : Prop :=
  (os.find? fun o => !bound o.1 o.2).map Prod.fst = some x

section Sequence

variable {bound : Name → List Name → Bool} {os os' : List (Name × List Name)} {x : Name}

theorem FailsAt.append_right (fails : FailsAt bound os x) (os' : List (Name × List Name)) :
    FailsAt bound (os ++ os') x := by
  obtain ⟨o, found, name⟩ := Option.map_eq_some_iff.mp fails
  rw [FailsAt, List.find?_append, found, Option.some_or, Option.map_some, name]

theorem find?_eq_none_of_bound (passed : ∀ o ∈ os, bound o.1 o.2) :
    (os.find? fun o => !bound o.1 o.2) = none := by
  rw [List.find?_eq_none]
  intro o member
  simp [passed o member]

theorem FailsAt.append_left (passed : ∀ o ∈ os, bound o.1 o.2) (fails : FailsAt bound os' x) :
    FailsAt bound (os ++ os') x := by
  rwa [FailsAt, List.find?_append, find?_eq_none_of_bound passed, Option.none_or]

end Sequence

/-- All variables of the term are bound, and `t'` is the term with the indices that `index` asks
for. -/
structure Resolved (bound : Name → List Name → Bool) (index : Occurrence → List Name → Prop)
    (xs : List Name) (t : Surface) (t' : Indexed) : Prop where
  same : t'.dropIndices = t
  bound : ∀ o ∈ t.occurrences xs, bound o.1 o.2
  index : ∀ o ∈ t'.occurrences xs, index o.1 o.2

/-- The second of two parts is resolved after the first, in a scope of its own. -/
theorem Resolved.pair {bound : Name → List Name → Bool} {index : Occurrence → List Name → Prop}
    {xs ys zs : List Name} {t u whole : Surface} {x y : Except Unbound Indexed}
    {make : Indexed → Indexed → Indexed}
    (first : Outcome (fun e => FailsAt bound (t.occurrences xs) e.name) (Resolved bound index xs t) x)
    (second : Outcome (fun e => FailsAt bound (u.occurrences ys) e.name)
      (Resolved bound index ys u) y)
    (parts : whole.occurrences zs = t.occurrences xs ++ u.occurrences ys)
    (made : ∀ t' u', (make t' u').occurrences zs = t'.occurrences xs ++ u'.occurrences ys)
    (same : ∀ t' u', t'.dropIndices = t → u'.dropIndices = u → (make t' u').dropIndices = whole) :
    Outcome (fun e => FailsAt bound (whole.occurrences zs) e.name) (Resolved bound index zs whole)
      (x >>= fun t' => y >>= fun u' => .ok (make t' u')) := by
  rw [parts]
  apply (first.mono_error fun e fails => fails.append_right _).bind
  intro t' left
  apply (second.mono_error fun e fails => fails.append_left left.bound).bind
  intro u' right
  refine ⟨same t' u' left.same right.same, ?_, ?_⟩
  · rw [parts]
    exact List.forall_mem_append.mpr ⟨left.bound, right.bound⟩
  · rw [made]
    exact List.forall_mem_append.mpr ⟨left.index, right.index⟩

/-- One of these names is a name to which `x` refers. -/
def binds (how : Matching) (x : Name) (scope : List Name) : Bool :=
  scope.any (how.refersTo x)

/-- The index of the variable is the place of the first name to which its own name refers. -/
def AtFirst (how : Matching) (v : Occurrence) (scope : List Name) : Prop :=
  binds how v.name scope ∧ v.ix = Int64.ofNat (scope.findIdx (how.refersTo v.name))

/-- The variables are resolved one after the other, and the first that refers to none of the names
around it ends it all. -/
theorem resolve_outcome (how : Matching) (xs : List Name) (t : Surface) :
    Outcome (fun e => FailsAt (binds how) (t.occurrences xs) e.name)
      (Resolved (binds how) (AtFirst how) xs t) (t.resolve how (.ofNames xs)) := by
  induction t generalizing xs with
  | var x =>
    simp only [resolve, Scope.lookup_ofNames]
    split
    · rename_i found
      exact ⟨rfl, List.forall_mem_singleton.mpr found,
        List.forall_mem_singleton.mpr ⟨found, rfl⟩⟩
    · rename_i missing
      have unbound : binds how x xs = false := Bool.eq_false_iff.mpr missing
      change FailsAt (binds how) [(x, xs)] x
      rw [FailsAt, List.find?_cons, unbound]
      rfl
  | const c => exact ⟨rfl, List.forall_mem_nil _, List.forall_mem_nil _⟩
  | not t operand =>
    apply (operand xs).bind
    intro t' done
    exact ⟨congrArg not done.same, done.bound, done.index⟩
  | binop op l r left right =>
    exact Resolved.pair (left xs) (right xs) rfl (fun _ _ => rfl) fun _ _ => congrArg₂ (binop op)
  | app f a fn arg =>
    exact Resolved.pair (fn xs) (arg xs) rfl (fun _ _ => rfl) fun _ _ => congrArg₂ app
  | bind b x dom body domain under =>
    exact Resolved.pair (domain xs) (under (x :: xs)) rfl (fun _ _ => rfl) fun _ _ =>
      congrArg₂ (bind b x)
  | cond t y n test yes no =>
    apply ((test xs).mono_error fun e fails => (fails.append_right _).append_right _).bind
    intro t' first
    apply ((yes xs).mono_error fun e fails => (fails.append_left first.bound).append_right _).bind
    intro y' second
    have before := List.forall_mem_append.mpr ⟨first.bound, second.bound⟩
    apply ((no xs).mono_error fun e fails => fails.append_left before).bind
    intro n' third
    refine ⟨?_, List.forall_mem_append.mpr ⟨before, third.bound⟩, ?_⟩
    · change cond _ _ _ = _
      rw [first.same, second.same, third.same]
    · exact List.forall_mem_append.mpr
        ⟨List.forall_mem_append.mpr ⟨first.index, second.index⟩, third.index⟩
  | ascribe t type subject ascribed =>
    exact Resolved.pair (subject xs) (ascribed xs) rfl (fun _ _ => rfl) fun _ _ => congrArg₂ ascribe

/-- Resolution goes by the variables of the term: it succeeds if and only if all of them are bound,
and then the result is the term with the indices that `index` asks for; and it fails if and only if
one is not bound, with the name of the first such. -/
structure ResolvesBy (how : Matching) (bound : Name → List Name → Bool)
    (index : Occurrence → List Name → Prop) (xs : List Name) (t : Surface) : Prop where
  success : (∃ t', t.resolve how (.ofNames xs) = .ok t') ↔ ∀ o ∈ t.occurrences xs, bound o.1 o.2
  answer : ∀ t', t.resolve how (.ofNames xs) = .ok t' →
    t'.dropIndices = t ∧ ∀ o ∈ t'.occurrences xs, index o.1 o.2
  failure : ∀ e, t.resolve how (.ofNames xs) = .error e ↔
    FailsAt bound (t.occurrences xs) e.name

theorem ResolvesBy.of_outcome {how : Matching} {bound : Name → List Name → Bool}
    {index : Occurrence → List Name → Prop} {xs : List Name} {t : Surface}
    (goes : Outcome (fun e => FailsAt bound (t.occurrences xs) e.name) (Resolved bound index xs t)
      (t.resolve how (.ofNames xs))) : ResolvesBy how bound index xs t := by
  cases result : t.resolve how (.ofNames xs) with
  | ok t' =>
    have done := goes.of_eq_ok result
    refine ⟨⟨fun _ => done.bound, fun _ => ⟨t', result⟩⟩, ?_, ?_⟩
    · intro u same
      cases result.symm.trans same
      exact ⟨done.same, done.index⟩
    · intro e
      rw [result, FailsAt, find?_eq_none_of_bound done.bound]
      simp
  | error e =>
    have fails := goes.of_eq_error result
    refine ⟨⟨?_, ?_⟩, ?_, ?_⟩
    · rintro ⟨t', answered⟩
      cases result.symm.trans answered
    · intro passed
      rw [FailsAt, find?_eq_none_of_bound passed] at fails
      cases fails
    · intro t' answered
      cases result.symm.trans answered
    · intro e'
      rw [result, FailsAt, fails]
      cases e
      cases e'
      simp

/-- The variable has the place of the innermost binder of its name for its index. The place is counted
in words; where there are no more binders than words can count, it is the index. -/
def AtInnermost (v : Occurrence) (scope : List Name) : Prop :=
  ∃ i, i < scope.length ∧ scope[i]? = some v.name ∧ (∀ j < i, scope[j]? ≠ some v.name) ∧
    v.ix = Int64.ofNat i ∧ (scope.length ≤ 2 ^ 63 → v.ix.toInt = i)

theorem AtFirst.atInnermost {v : Occurrence} {scope : List Name}
    (first : AtFirst .textual v scope) : AtInnermost v scope := by
  obtain ⟨found, word⟩ := first
  have inside : scope.findIdx (Matching.refersTo .textual v.name) < scope.length := by
    rw [List.findIdx_lt_length]
    simpa [binds] using found
  refine ⟨_, inside, ?_, ?_, word, ?_⟩
  · have here := List.findIdx_getElem (w := inside)
    rw [Matching.refersTo, beq_iff_eq] at here
    rw [List.getElem?_eq_getElem inside, ← here]
  · intro j before same
    have earlier := List.not_of_lt_findIdx before
    rw [Matching.refersTo, beq_eq_false_iff_ne] at earlier
    obtain ⟨_, name⟩ := List.getElem?_eq_some_iff.mp same
    exact earlier name.symm
  · intro few
    rw [word, Int64.toInt_ofNat_of_lt (by omega)]

/-- If every binder is referred to, the innermost one is. -/
theorem AtFirst.innermost {v : Occurrence} {scope : List Name}
    (first : AtFirst .vacuous v scope) : v.ix = 0 ∧ 0 < scope.length := by
  obtain ⟨found, word⟩ := first
  cases scope with
  | nil => cases found
  | cons x scope => exact ⟨word, Nat.zero_lt_succ _⟩

theorem binds_textual : binds .textual = fun x scope => decide (x ∈ scope) := by
  funext x scope
  change (scope.any fun y => x == y) = _
  rw [List.any_beq, List.contains_eq_mem]

theorem binds_vacuous : binds .vacuous = fun _ scope => !scope.isEmpty := by
  funext x scope
  cases scope <;> rfl

theorem ResolvesBy.mono {how : Matching} {bound : Name → List Name → Bool}
    {index index' : Occurrence → List Name → Prop} {xs : List Name} {t : Surface}
    (resolves : ResolvesBy how bound index xs t) (weaker : ∀ v scope, index v scope → index' v scope) :
    ResolvesBy how bound index' xs t := by
  refine ⟨resolves.success, ?_, resolves.failure⟩
  intro t' answered
  obtain ⟨same, indices⟩ := resolves.answer t' answered
  exact ⟨same, fun o member => weaker o.1 o.2 (indices o member)⟩

theorem resolves_textual (xs : List Name) (t : Surface) :
    ResolvesBy .textual (fun x scope => x ∈ scope) AtInnermost xs t := by
  have goes := ResolvesBy.of_outcome (resolve_outcome .textual xs t)
  rw [binds_textual] at goes
  exact goes.mono fun _ _ first => first.atInnermost

theorem resolves_vacuous (xs : List Name) (t : Surface) :
    ResolvesBy .vacuous (fun _ scope => !scope.isEmpty)
      (fun v scope => v.ix = 0 ∧ 0 < scope.length) xs t := by
  have goes := ResolvesBy.of_outcome (resolve_outcome .vacuous xs t)
  rw [binds_vacuous] at goes
  exact goes.mono fun _ _ first => first.innermost

end Term

/-- Resolution by names succeeds exactly on the terms whose free names are in scope. It keeps the term
and gives each variable the place of the innermost binder of its name; and where it fails, it tells
the first name, from left to right, that no binder around it bears. If every occurrence refers to
every binder, the same holds with the innermost binder for all of them, so that only a variable with
no binder around it is an obstacle. -/
theorem resolution_finds_innermost (xs : List Name) (t : Surface) :
    ((∃ t', t.resolve .textual (.ofNames xs) = .ok t') ↔ ∀ x ∈ t.freeNames, x ∈ xs) ∧
      t.ResolvesBy .textual (fun x scope => x ∈ scope) Term.AtInnermost xs ∧
      t.ResolvesBy .vacuous (fun _ scope => !scope.isEmpty)
        (fun v scope => v.ix = 0 ∧ 0 < scope.length) xs ∧
      ((∃ t', t.resolve .textual (.ofNames xs) = .ok t') →
        ∃ t', t.resolve .vacuous (.ofNames xs) = .ok t') := by
  have textual := t.resolves_textual xs
  have vacuous := t.resolves_vacuous xs
  refine ⟨?_, textual, vacuous, ?_⟩
  · rw [textual.success, Term.forall_mem_freeNames_iff]
    simp only [decide_eq_true_eq]
  · rw [textual.success, vacuous.success]
    intro bound o member
    have found : o.1 ∈ o.2 := of_decide_eq_true (bound o member)
    simp [List.ne_nil_of_mem found]

/-- A binder whose domain speaks of an outer variable of the same name. -/
def namesake (ν : Type) (outer inner other : ν) : Term ν :=
  .bind .lam "x" (.var outer) (.bind .pi "y" (.const .intType) (.app (.var inner) (.var other)))

/-- The domain of a binder does not see it, its body does. -/
theorem resolution_finds_innermost_namesake :
    (namesake Name "x" "x" "z").resolve .textual (.ofNames ["z", "x"]) =
        .ok (namesake Occurrence ⟨"x", 1⟩ ⟨"x", 1⟩ ⟨"z", 2⟩) ∧
      Term.AtInnermost ⟨"z", 2⟩ ["y", "x", "z", "x"] ∧
      ∃ t', (namesake Name "x" "x" "z").resolve .vacuous (.ofNames ["z", "x"]) = .ok t' := by
  have resolved : (namesake Name "x" "x" "z").resolve .textual (.ofNames ["z", "x"]) =
      .ok (namesake Occurrence ⟨"x", 1⟩ ⟨"x", 1⟩ ⟨"z", 2⟩) := by rfl
  obtain ⟨-, textual, -, weaker⟩ := resolution_finds_innermost ["z", "x"] (namesake Name "x" "x" "z")
  obtain ⟨-, indices⟩ := textual.answer _ resolved
  refine ⟨resolved, indices (⟨"z", 2⟩, ["y", "x", "z", "x"]) ?_, weaker ⟨_, resolved⟩⟩
  simp [namesake, Term.occurrences]

/-- The second scope finds the name where the first does, but for one more binder beyond `cut`. -/
def Scope.Raises (cut : Int64) (scope scope' : Scope) (y : Name) : Prop :=
  scope'.lookup .textual y =
    (scope.lookup .textual y).map fun ix => if ix < cut then ix else ix + 1

theorem Scope.Within.lookup {n : Nat} {scope : Scope} {how : Matching} {y : Name} {ix : Int64}
    (within : scope.Within n) (found : scope.lookup how y = .ok ix) :
    0 ≤ ix.toInt ∧ ix.toInt < n := by
  unfold Scope.lookup at found
  split at found
  · rename_i e first
    cases found
    exact within e (List.mem_of_find?_eq_some first)
  · cases found

/-- A scope finds a name under a new binder of another name one place further out. -/
theorem Scope.Raises.of_lift {n : Nat} {scope : Scope} {x y : Name} (within : scope.Within n)
    (apart : y ≠ x) : scope.Raises 0 (scope.lift x) y := by
  unfold Scope.Raises
  rw [Scope.lookup_lift scope apart]
  cases found : scope.lookup .textual y with
  | error e => rfl
  | ok ix =>
    obtain ⟨low, -⟩ := within.lookup found
    have nonneg : ¬ ix < 0 := by
      rw [Int64.lt_iff_toInt_lt, Int64.toInt_zero]
      omega
    simp only [Except.map, if_neg nonneg]

/-- A binder around both scopes. -/
theorem Scope.Raises.under {n : Nat} {c : Nat} {cut : Int64} {scope scope' : Scope} {y z : Name}
    (within : scope.Within n) (room : n < 2 ^ 63) (cutWord : cut.toInt = c) (cutRoom : c + 1 < 2 ^ 63)
    (raises : y ≠ z → scope.Raises cut scope' y) :
    (scope.lift z).Raises (cut + 1) (scope'.lift z) y := by
  have next : (cut + 1).toInt = cut.toInt + 1 := Term.toInt_succ_of_fits (by omega)
  unfold Scope.Raises
  by_cases bound : y = z
  · have below : (0 : Int64) < cut + 1 := by
      rw [Int64.lt_iff_toInt_lt, next, cutWord, Int64.toInt_zero]
      omega
    rw [bound]
    simp [Scope.lookup, Scope.lift, Matching.refersTo, Except.map, below]
  · rw [Scope.lookup_lift _ bound, Scope.lookup_lift _ bound, raises bound]
    cases found : scope.lookup .textual y with
    | error e => rfl
    | ok ix =>
      obtain ⟨low, high⟩ := within.lookup found
      have later : ix + 1 < cut + 1 ↔ ix < cut := by
        rw [Int64.lt_iff_toInt_lt, Int64.lt_iff_toInt_lt, next, Term.toInt_succ_of_fits (by omega)]
        omega
      simp only [Except.map, later]
      split <;> rfl

/-- The cut counts the binders of the term that have been passed; the new name stands right behind
them. -/
theorem Term.resolve_raised {n c : Nat} {cut : Int64} {scope scope' : Scope} {t : Surface}
    (within : scope.Within n) (room : n + t.depth < 2 ^ 63) (cutWord : cut.toInt = c)
    (cutRoom : c + t.depth < 2 ^ 63) (raises : ∀ y ∈ t.freeNames, scope.Raises cut scope' y) :
    t.resolve .textual scope' = (t.resolve .textual scope).map (shift 1 cut) := by
  induction t generalizing n c cut scope scope' with
  | var x =>
    have found : scope.Raises cut scope' x := raises x List.mem_cons_self
    simp only [resolve]
    rw [found]
    cases scope.lookup .textual x with
    | error e => rfl
    | ok ix => exact congrArg Except.ok (shift_var 1 cut ⟨x, ix⟩).symm
  | const c => rfl
  | not t operand =>
    simp only [resolve, operand within room cutWord cutRoom raises]
    cases t.resolve .textual scope <;> rfl
  | bind b x dom body domain under =>
    simp only [depth] at room cutRoom
    simp only [freeNames, List.forall_mem_append, List.mem_filter, decide_eq_true_eq] at raises
    have next : (cut + 1).toInt = (c + 1 : Nat) := by
      rw [toInt_succ_of_fits (by omega), cutWord, Int.natCast_succ]
    have first := domain within (by omega) cutWord (by omega) raises.1
    have second := under (within.lift (by omega) x) (by omega) next (by omega) fun y member =>
      Scope.Raises.under within (by omega) cutWord (by omega) fun other => raises.2 y ⟨member, other⟩
    simp only [resolve, first, second]
    cases dom.resolve .textual scope <;> cases body.resolve .textual (scope.lift x) <;> rfl
  | cond t y e test yes no =>
    simp only [depth] at room cutRoom
    simp only [freeNames, List.forall_mem_append] at raises
    simp only [resolve, test within (by omega) cutWord (by omega) raises.1.1,
      yes within (by omega) cutWord (by omega) raises.1.2,
      no within (by omega) cutWord (by omega) raises.2]
    cases t.resolve .textual scope <;> cases y.resolve .textual scope <;>
      cases e.resolve .textual scope <;> rfl
  | binop _ l r left right | app l r left right | ascribe l r left right =>
    simp only [depth] at room cutRoom
    simp only [freeNames, List.forall_mem_append] at raises
    simp only [resolve, left within (by omega) cutWord (by omega) raises.1,
      right within (by omega) cutWord (by omega) raises.2]
    cases l.resolve .textual scope <;> cases r.resolve .textual scope <;> rfl

/-- Under one more binder, whose name does not occur free, a term resolves to what it resolves to
without it, shifted by one, or fails as it does without it. The bound says that no index of the
result wraps around. -/
theorem resolve_lift_eq_shift {n : Nat} {scope : Scope} {x : Name} {t : Surface}
    (within : scope.Within n) (room : n + t.depth < 2 ^ 63) (unused : x ∉ t.freeNames) :
    t.resolve .textual (scope.lift x) = (t.resolve .textual scope).map (Term.shift 1 0) := by
  apply Term.resolve_raised within room (c := 0) rfl (by omega)
  intro y member
  apply Scope.Raises.of_lift within
  rintro rfl
  exact unused member

/-- The new name stands between the binders of the term and the names that were in scope, and one of
those binders has the same name. -/
theorem resolve_lift_eq_shift_namesake :
    "x" ∉ (namesake Name "z" "x" "z").freeNames ∧
      (namesake Name "z" "x" "z").resolve .textual (Scope.lift [⟨"z", 3⟩, ⟨"x", 5⟩] "x") =
        .ok (namesake Occurrence ⟨"z", 4⟩ ⟨"x", 1⟩ ⟨"z", 6⟩) := by
  have within : Scope.Within 6 [⟨"z", 3⟩, ⟨"x", 5⟩] := by
    simp [Scope.Within]
  have unused : "x" ∉ (namesake Name "z" "x" "z").freeNames := by decide
  refine ⟨unused, ?_⟩
  rw [resolve_lift_eq_shift within (by decide) unused]
  rfl

end DepCalc

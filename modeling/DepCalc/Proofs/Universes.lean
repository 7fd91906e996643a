import DepCalc.Proofs.Inference
import DepCalc.Proofs.Parts

/-!
Universe levels. The levels in an inferred type come from the universes that the term and its context
mention, by taking the level above and the greater of two. A type that ranges over a universe lives
above it, with one exception: nothing is above the greatest level, where the count wraps around.
-/
namespace DepCalc

variable {p q : Int64 → Prop}

namespace Term

/-- The levels of the universes that stand in a term. -/
def universes : Indexed → List Int64
  | var _ => []
  | const (.univ level) => [level]
  | const _ => []
  | binop _ l r => l.universes ++ r.universes
  | not t => t.universes
  | app f a => f.universes ++ a.universes
  | bind _ _ dom body => dom.universes ++ body.universes
  | cond t yes no => t.universes ++ (yes.universes ++ no.universes)
  | ascribe t type => t.universes ++ type.universes

theorem universes_part {s t : Indexed} (member : s ∈ t.parts) : s.universes ⊆ t.universes := by
  cases t <;> simp only [parts, List.mem_cons, List.not_mem_nil, or_false] at member
  all_goals
    intro level within
    simp only [universes, List.mem_append]
    grind

theorem universes_shift (d c : Int64) (t : Indexed) : (t.shift d c).universes = t.universes := by
  induction t generalizing c with
  | var v =>
    unfold shift
    split <;> rfl
  | const k => rfl
  | _ => simp_all [shift, universes]

theorem universes_subst {j : Int64} {s t : Indexed} (outer : ∀ level ∈ t.universes, p level)
    (inner : ∀ level ∈ s.universes, p level) : ∀ level ∈ (subst j s t).universes, p level := by
  induction t generalizing j s with
  | var v =>
    unfold subst
    split
    · exact inner
    · exact outer
  | const k => exact outer
  | not t ih => exact ih outer inner
  | binop _ _ _ left right | app _ _ left right | ascribe _ _ left right =>
    rw [universes, List.forall_mem_append] at outer
    rw [subst, universes, List.forall_mem_append]
    exact ⟨left outer.1 inner, right outer.2 inner⟩
  | bind b x dom body domain under =>
    rw [universes, List.forall_mem_append] at outer
    rw [subst, universes, List.forall_mem_append]
    exact ⟨domain outer.1 inner, under outer.2 (by rwa [universes_shift])⟩
  | cond t yes no test whenTrue whenFalse =>
    rw [universes, List.forall_mem_append, List.forall_mem_append] at outer
    rw [subst, universes, List.forall_mem_append, List.forall_mem_append]
    exact ⟨test outer.1 inner, whenTrue outer.2.1 inner, whenFalse outer.2.2 inner⟩

theorem universes_instantiate {s body : Indexed} (outer : ∀ level ∈ body.universes, p level)
    (inner : ∀ level ∈ s.universes, p level) :
    ∀ level ∈ (instantiate s body).universes, p level := by
  rw [instantiate, universes_shift]
  exact universes_subst outer (by rwa [universes_shift])

end Term

/-- Universes whose levels have a property. -/
def Parts.levels (p : Int64 → Prop) : Parts where
  constant c := ∀ level, c = .univ level → p level
  index _ _ := True
  int _ _ impossible := by cases impossible
  bool _ _ impossible := by cases impossible

theorem Term.all_levels {n : Nat} {t : Indexed} :
    t.All (.levels p) n ↔ ∀ level ∈ t.universes, p level := by
  induction t generalizing n with
  | var v => exact iff_of_true trivial (List.forall_mem_nil _)
  | const c =>
    cases c <;> simp [All, Parts.levels, universes]
  | not t ih => exact ih
  | binop _ _ _ left right | app _ _ left right | ascribe _ _ left right
  | bind _ _ _ _ left right =>
    rw [universes, List.forall_mem_append]
    exact and_congr left right
  | cond t yes no test whenTrue whenFalse =>
    rw [universes, List.forall_mem_append, List.forall_mem_append]
    exact and_congr test (and_congr whenTrue whenFalse)

theorem quote_levels (fuel : Nat) :
    (∀ {level : Int64} {n : Nat} {v : Value}, v.All (.levels p) anyVariable →
      Outcome (fun _ => True) (Term.All (.levels p) n) (v.quote fuel level)) ∧
    (∀ {level : Int64} {n : Nat} {m : Neutral}, m.All (.levels p) anyVariable →
      Outcome (fun _ => True) (Term.All (.levels p) n) (m.quote fuel level)) := by
  induction fuel with
  | zero => exact ⟨fun _ => trivial, fun _ => trivial⟩
  | succ fuel ih =>
    obtain ⟨value, neutral⟩ := ih
    constructor
    · intro level n v all
      cases v with
      | const c => exact all
      | neutral m => exact neutral all
      | bind b dom x env body =>
        have inside : Env.All (.levels p) anyVariable (Value.fresh x (level + 1) :: env) :=
          ⟨trivial, all.2.1⟩
        apply (value all.1).bind
        intro d domain
        apply ((eval_parts inside all.2.2).mono_error fun _ _ => trivial).bind
        intro opened openedAll
        apply (value openedAll).bind
        intro u under
        exact ⟨domain, under⟩
    · intro level n m all
      cases m with
      | var x bound =>
        simp only [Neutral.quote]
        split
        · trivial
        · trivial
      | not m =>
        apply (neutral (m := m) all).bind
        intro operand operandAll
        exact operandAll
      | binop op l r =>
        apply (value all.1).bind
        intro left leftAll
        apply (value all.2).bind
        intro right rightAll
        exact ⟨leftAll, rightAll⟩
      | app f a =>
        apply (neutral all.1).bind
        intro fn fnAll
        apply (value all.2).bind
        intro arg argAll
        exact ⟨fnAll, argAll⟩
      | cond t y n =>
        apply (neutral all.1).bind
        intro test testAll
        apply (value all.2.1).bind
        intro yes yesAll
        apply (value all.2.2).bind
        intro no noAll
        exact ⟨testAll, yesAll, noAll⟩

/-- Normalisation brings up no other universe. -/
theorem normalize_levels {fuel : Nat} {scope : List Name} {t : Indexed}
    (levels : ∀ level ∈ t.universes, p level) :
    Outcome (fun _ => True) (fun n => ∀ level ∈ n.universes, p level) (t.normalize fuel scope) := by
  have evaluated : Outcome _ (Value.All (.levels p) anyVariable) (eval fuel (Env.ofNames scope) t) :=
    eval_parts .ofNames (Term.all_levels.mpr levels)
  apply (evaluated.mono_error fun _ _ => trivial).bind
  intro v all
  exact ((quote_levels fuel).1 all).mono fun n => (Term.all_levels (n := 0)).mp

/-- A constant is its own normal form. -/
theorem normalize_const (fuel : Nat) (scope : List Name) (c : Constant) :
    Outcome (fun _ => True) (· = .const c) ((.const c : Indexed).normalize fuel scope) := by
  cases fuel with
  | zero => trivial
  | succ fuel => rfl

/-- From levels with the property `p`, inference makes levels with the property `q`. -/
structure Climbs (p q : Int64 → Prop) : Prop where
  keep : ∀ level, p level → q level
  next : ∀ level, p level → q (level + 1)
  zero : q 0
  max : ∀ level level', q level → q level' → q (max level level')

theorem Climbs.typeOf {c : Constant} (climbs : Climbs p q)
    (levels : ∀ level ∈ (Term.const c : Indexed).universes, p level) :
    ∀ level ∈ (Term.const c.type : Indexed).universes, q level := by
  cases c with
  | univ level =>
    refine List.forall_mem_singleton.mpr (climbs.next level ?_)
    exact levels level (List.mem_singleton_self level)
  | intType | boolType => exact List.forall_mem_singleton.mpr climbs.zero
  | int n | bool b => exact List.forall_mem_nil _

namespace Context

variable {fuel : Nat} {Γ : Context}

theorem normalize_levels {t : Indexed} (levels : ∀ level ∈ t.universes, p level) :
    Outcome (fun _ => True) (fun n => ∀ level ∈ n.universes, p level) (Γ.normalize fuel t) :=
  (DepCalc.normalize_levels levels).mapError fun _ _ => trivial

theorem universeLevel_levels {t type : Indexed} (levels : ∀ level ∈ type.universes, p level) :
    Outcome (fun _ => True) p (Γ.universeLevel fuel t type) := by
  apply (normalize_levels levels).bind
  intro n normal
  split
  · exact normal _ (List.mem_singleton_self _)
  · trivial

theorem functionType_levels {f type : Indexed} (levels : ∀ level ∈ type.universes, p level) :
    Outcome (fun _ => True) (fun parts => ∀ level ∈ parts.2.universes, p level)
      (Γ.functionType fuel f type) := by
  apply (normalize_levels levels).bind
  intro n normal
  split
  · rw [Term.universes, List.forall_mem_append] at normal
    exact normal.2
  · trivial

theorem variableType_levels {v : Occurrence}
    (types : ∀ binding ∈ Γ, ∀ level ∈ binding.type.universes, p level) :
    Outcome (fun _ => True) (fun type => ∀ level ∈ type.universes, p level) (Γ.variableType v) := by
  unfold variableType
  cases found : Γ.lookup? v.ix with
  | none => trivial
  | some type =>
    obtain ⟨i, binding, -, got, rfl⟩ := lookup_inv found
    change ∀ level ∈ (binding.type.shift (v.ix + 1) 0).universes, p level
    rw [Term.universes_shift]
    exact types binding (List.mem_of_getElem? got)

/-- From the universes of the term and its context, inference climbs to those of its type. -/
abbrev climbing (p q : Int64 → Prop) : Account where
  Before Γ t := (∀ binding ∈ Γ, ∀ level ∈ binding.type.universes, q level) ∧
    ∀ level ∈ t.universes, p level
  After _ _ type := ∀ level ∈ type.universes, q level
  Wanted _ _ _ := True
  Meets _ _ _ := True
  Level _ _ level := q level
  Function _ _ _ _ cod := ∀ level ∈ cod.universes, q level

theorem climbing_holds (climbs : Climbs p q) :
    (climbing p q).Holds (.outcome fuel fun _ => True) where
  part ready member := ⟨ready.1, fun level within =>
    ready.2 level (Term.universes_part member within)⟩
  body ready _ := by
    obtain ⟨types, levels⟩ := ready
    rw [Term.universes, List.forall_mem_append] at levels
    refine ⟨List.forall_mem_cons.mpr ⟨?_, types⟩, levels.2⟩
    exact fun level within => climbs.keep level (levels.1 level within)
  operand _ _ := trivial
  argument _ _ := trivial
  ascribed _ := trivial
  expect _ _ _ := (Outcome.answered _).mono fun _ _ => trivial
  function _ after := functionType_levels after
  domain _ after := universeLevel_levels after
  codomain _ _ _ after := universeLevel_levels after
  branches _ _ yes _ := (Outcome.answered _).mono fun _ _ => yes
  var ready := variableType_levels ready.1
  const ready := climbs.typeOf ready.2
  binop := by
    intro Γ op l r _ _ _
    cases op <;> exact List.forall_mem_nil _
  not _ _ := List.forall_mem_nil _
  app ready function _ := by
    have levels := ready.2
    rw [Term.universes, List.forall_mem_append] at levels
    exact Term.universes_instantiate function fun level within =>
      climbs.keep level (levels.2 level within)
  lam ready _ under := by
    have levels := ready.2
    rw [Term.universes, List.forall_mem_append] at levels
    refine List.forall_mem_append.mpr ⟨?_, under⟩
    exact fun level within => climbs.keep level (levels.1 level within)
  form _ _ domain under := List.forall_mem_singleton.mpr (climbs.max _ _ domain under)
  ascribe ready _ level within :=
    climbs.keep level (ready.2 level (List.mem_append_right _ within))

theorem infer_levels (climbs : Climbs p q) {t : Indexed}
    (types : ∀ binding ∈ Γ, ∀ level ∈ binding.type.universes, q level)
    (levels : ∀ level ∈ t.universes, p level) :
    Outcome (fun _ => True) (fun type => ∀ level ∈ type.universes, q level) (Γ.infer fuel t) :=
  (climbing_holds climbs).infer ⟨types, levels⟩

end Context

theorem toInt_max (a b : Int64) : (max a b).toInt = max a.toInt b.toInt := by
  change (if a ≤ b then b else a).toInt = _
  simp only [Int64.le_iff_toInt_le]
  split <;> omega

theorem toInt_next {level : Int64} (below : level ≠ Int64.maxValue) :
    (level + 1).toInt = level.toInt + 1 := by
  have bound := Int64.toInt_le level
  have differ : level.toInt ≠ Int64.maxValue.toInt := fun same => below (Int64.toInt_inj.mp same)
  rw [Int64.toInt_maxValue] at bound differ
  apply Term.toInt_succ_of_fits
  omega

/-- The universe at level `n`, or a type of functions or of pairs in whose domain or codomain stands
a type that ranges over it. -/
inductive Term.RangesOver (n : Int64) : Indexed → Prop
  | itself : RangesOver n (.const (.univ n))
  | domain (b : Binder) (x : Name) (dom body : Indexed) (type : b ≠ .lam) :
    RangesOver n dom → RangesOver n (.bind b x dom body)
  | codomain (b : Binder) (x : Name) (dom body : Indexed) (type : b ≠ .lam) :
    RangesOver n body → RangesOver n (.bind b x dom body)

namespace Context

variable {fuel : Nat} {Γ : Context} {n : Int64}

theorem universeLevel_univ (t : Indexed) (k : Int64) :
    Outcome (fun _ => True) (· = k) (Γ.universeLevel fuel t (.const (.univ k))) := by
  apply ((normalize_const fuel Γ.names (.univ k)).mapError fun _ _ => trivial).bind
  intro n itself
  subst itself
  rfl

theorem infer_above {t : Indexed} (ranges : t.RangesOver n) (below : n ≠ Int64.maxValue) :
    Outcome (fun _ => True) (fun type => ∃ k, type = .const (.univ k) ∧ n < k) (Γ.infer fuel t) := by
  induction ranges generalizing Γ with
  | itself =>
    refine ⟨n + 1, rfl, ?_⟩
    rw [Int64.lt_iff_toInt_lt, toInt_next below]
    omega
  | domain b x dom body type _ ih =>
    apply ih.bind
    intro domType above
    obtain ⟨k, rfl, greater⟩ := above
    apply (universeLevel_univ dom k).bind
    intro domLevel same
    subst same
    apply (Outcome.answered _).bind
    intro bodyType _
    cases b with
    | lam => exact absurd rfl type
    | pi | sigma =>
      apply (Outcome.answered _).bind
      intro bodyLevel _
      refine ⟨_, rfl, ?_⟩
      rw [Int64.lt_iff_toInt_lt] at greater ⊢
      rw [toInt_max]
      omega
  | codomain b x dom body type _ ih =>
    apply (Outcome.answered _).bind
    intro domType _
    apply (Outcome.answered _).bind
    intro domLevel _
    apply ih.bind
    intro bodyType above
    obtain ⟨k, rfl, greater⟩ := above
    cases b with
    | lam => exact absurd rfl type
    | pi | sigma =>
      apply (universeLevel_univ body k).bind
      intro bodyLevel same
      subst same
      refine ⟨_, rfl, ?_⟩
      rw [Int64.lt_iff_toInt_lt] at greater ⊢
      rw [toInt_max]
      omega

end Context

/-- From levels that are not negative come others, and the least of all levels if `wraps`. -/
theorem climbs_wrapping (wraps : Prop) :
    Climbs (fun level => 0 ≤ level ∧ (level = Int64.maxValue → wraps))
      (fun level => 0 ≤ level ∨ level = Int64.minValue ∧ wraps) := by
  simp only [Int64.le_iff_toInt_le, Int64.toInt_zero]
  constructor
  · intro level literal
    exact .inl literal.1
  · intro level literal
    by_cases greatest : level = Int64.maxValue
    · subst greatest
      exact .inr ⟨rfl, literal.2 rfl⟩
    · rw [toInt_next greatest]
      exact .inl (by omega)
  · exact .inl (Int.le_refl 0)
  · intro level level' left right
    rw [toInt_max]
    rcases left with nonneg | ⟨rfl, wrapped⟩
    · exact .inl (by omega)
    · rcases right with nonneg | ⟨rfl, -⟩
      · exact .inl (by omega)
      · exact .inr ⟨rfl, wrapped⟩

/-- A type lives above every universe over which it ranges, unless that is the greatest one. Its own
level is not negative, unless a universe at the greatest level stands in it. -/
theorem infer_stratified {fuel fuel' : Nat} {t type : Indexed} {k : Int64}
    (literals : ∀ level ∈ t.universes, 0 ≤ level)
    (inferred : Context.infer fuel [] t = .ok type)
    (normal : type.normalize fuel' [] = .ok (.const (.univ k))) :
    (0 ≤ k ∨ k = Int64.minValue ∧ Int64.maxValue ∈ t.universes) ∧
      ∀ n, t.RangesOver n → (n < k ↔ n ≠ Int64.maxValue) := by
  constructor
  · have levels := (Context.infer_levels (climbs_wrapping (Int64.maxValue ∈ t.universes))
      (List.forall_mem_nil _) fun level within =>
        ⟨literals level within, fun greatest => greatest ▸ within⟩).of_eq_ok inferred
    have normalLevels := (normalize_levels levels).of_eq_ok normal
    exact normalLevels k (List.mem_singleton_self k)
  · intro n ranges
    constructor
    · intro above greatest
      have bound := Int64.toInt_le k
      rw [greatest, Int64.lt_iff_toInt_lt] at above
      omega
    · intro below
      obtain ⟨k', rfl, above⟩ := (Context.infer_above ranges below).of_eq_ok inferred
      cases (normalize_const fuel' [] (.univ k')).of_eq_ok normal
      exact above

/-- The type of all functions from the universe at a level to the integers. -/
def fromUniverse (level : Int64) : Indexed :=
  .bind .pi "A" (.const (.univ level)) (.const .intType)

-- The greatest universe with one above it.
theorem infer_stratified_nextToGreatest :
    Context.infer 9 [] (fromUniverse (Int64.maxValue - 1)) = .ok (.const (.univ Int64.maxValue)) ∧
    (∀ level ∈ (fromUniverse (Int64.maxValue - 1)).universes, 0 ≤ level) ∧
    Int64.maxValue - 1 < Int64.maxValue := by
  have literals : ∀ level ∈ (fromUniverse (Int64.maxValue - 1)).universes, 0 ≤ level :=
    List.forall_mem_singleton.mpr (by decide)
  have inferred : Context.infer 9 [] (fromUniverse (Int64.maxValue - 1)) =
      .ok (.const (.univ Int64.maxValue)) := by rfl
  have normal : (.const (.univ Int64.maxValue) : Indexed).normalize 9 [] =
      .ok (.const (.univ Int64.maxValue)) := by rfl
  have stratified := infer_stratified literals inferred normal
  have ranges : (fromUniverse (Int64.maxValue - 1)).RangesOver (Int64.maxValue - 1) :=
    .domain .pi "A" _ _ (by decide) .itself
  exact ⟨inferred, literals, (stratified.2 _ ranges).mpr (by decide)⟩

/-- The greatest universe lives in the least one, and functions from it live below it. -/
theorem infer_greatest_wraps :
    Context.infer 9 [] (.const (.univ Int64.maxValue)) = .ok (.const (.univ Int64.minValue)) ∧
    (fromUniverse Int64.maxValue).RangesOver Int64.maxValue ∧
    Context.infer 9 [] (fromUniverse Int64.maxValue) = .ok (.const (.univ 0)) ∧
    ¬ Int64.maxValue < 0 := by
  refine ⟨by rfl, ?_, by rfl, by decide⟩
  exact .domain .pi "A" _ _ (by decide) .itself

end DepCalc

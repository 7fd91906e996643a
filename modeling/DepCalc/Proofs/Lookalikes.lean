import DepCalc.Proofs.Source.Outline

/-!
Terms that are displayed alike. Binders are displayed apart, all but the wildcard, which is never
renamed, and the names of the context, which are displayed as they are. Two terms with the same text
are therefore the same up to names, except that variables with one of these names may be exchanged.
-/
namespace DepCalc

open Source

/-- The name under which a binder is displayed whatever else is in scope, if there is one. -/
def fixedName? (x : Name) : Option Name :=
  if x = wildcard then some wildcard else none

theorem freshen_eq_wildcard (taken : List Name) {x : Name} :
    freshen taken x = wildcard ↔ x = wildcard :=
  ⟨fun same => by_contra fun named => freshen_ne_wildcard named same,
    fun anonymous => by rw [anonymous, freshen_wildcard]⟩

theorem Bindable.freshen {x : Name} (bindable : Bindable x) (taken : List Name) :
    Bindable (freshen taken x) := by
  by_cases named : x = wildcard
  · rw [named, freshen_wildcard]
    exact named ▸ bindable
  · have referable : Referable x := ⟨named, bindable.plain⟩
    exact ⟨bindable.identifier.freshen taken, (referable.freshen taken).plain⟩

/-- The names in scope and the names under which they are displayed, with those that are fixed. The
outer ones are names of a context, and the inner ones those of binders. -/
inductive Displays : List (Option Name) → List Name → List Name → Prop
  | context {names : List Name} (identifiers : ∀ x ∈ names, IsIdentifier x) :
      Displays (names.map some) names names
  | cons {fixed : List (Option Name)} {names shown : List Name} {x : Name}
      (identifier : IsIdentifier x) (outer : Displays fixed names shown) :
      Displays (fixedName? x :: fixed) (x :: names) (freshen shown x :: shown)

namespace Displays

variable {fixed : List (Option Name)} {names shown : List Name} {i j : Nat} {x y : Name}

theorem bindable (scope : Displays fixed names shown) (found : names[i]? = some x)
    (plain : ¬ SpellsUniverse x) : ∃ y, shown[i]? = some y ∧ Bindable y := by
  induction scope generalizing i with
  | context identifiers =>
    exact ⟨x, found, identifiers x (List.mem_of_getElem? found), plain⟩
  | @cons fixed names shown z identifier outer ih =>
    cases i with
    | zero =>
      cases found
      exact ⟨_, rfl, Bindable.freshen ⟨identifier, plain⟩ shown⟩
    | succ i => exact ih found

theorem wildcard_fixed (scope : Displays fixed names shown) (found : shown[i]? = some wildcard) :
    fixed[i]? = some (some wildcard) := by
  induction scope generalizing i with
  | context => rw [List.getElem?_map, found, Option.map_some]
  | @cons fixed names shown z identifier outer ih =>
    cases i with
    | zero =>
      have anonymous : z = wildcard := (freshen_eq_wildcard shown).mp (Option.some.inj found)
      rw [List.getElem?_cons_zero, fixedName?, if_pos anonymous]
    | succ i => exact ih found

/-- The name of a new binder stands further out only if it is the wildcard. -/
theorem fixed_of_inner (outer : Displays fixed names shown) (inner : freshen shown x = y)
    (found : shown[i]? = some y) : fixedName? x = some y ∧ fixed[i]? = some (some y) := by
  subst inner
  by_cases anonymous : x = wildcard
  · subst anonymous
    rw [freshen_wildcard] at found ⊢
    exact ⟨if_pos rfl, outer.wildcard_fixed found⟩
  · exact absurd (List.mem_of_getElem? found) (freshen_not_mem anonymous)

/-- Only fixed names are displayed more than once. -/
theorem unique_or_fixed (scope : Displays fixed names shown) (found : shown[i]? = some y)
    (found' : shown[j]? = some y) :
    i = j ∨ fixed[i]? = some (some y) ∧ fixed[j]? = some (some y) := by
  induction scope generalizing i j with
  | context =>
    exact .inr ⟨by rw [List.getElem?_map, found, Option.map_some],
      by rw [List.getElem?_map, found', Option.map_some]⟩
  | @cons fixed names shown z identifier outer ih =>
    cases i with
    | zero =>
      cases j with
      | zero => exact .inl rfl
      | succ j =>
        obtain ⟨head, tail⟩ := outer.fixed_of_inner (Option.some.inj found) found'
        exact .inr ⟨congrArg some head, tail⟩
    | succ i =>
      cases j with
      | zero =>
        obtain ⟨head, tail⟩ := outer.fixed_of_inner (Option.some.inj found') found
        exact .inr ⟨tail, congrArg some head⟩
      | succ j => exact (ih found found').imp_left (congrArg (· + 1))

end Displays

namespace Term

/-- Every variable refers to a name in scope that spells no universe, and every binder is an
identifier. The constants may be any. -/
abbrev Legible (names : List Name) (t : Indexed) : Prop :=
  t.Readable (fun x => ¬ SpellsUniverse x) anyConstant names

/-- Equality up to names and up to the exchange of variables that refer to the same fixed name. Inside
a term only the wildcard is fixed. -/
inductive Lookalike : List (Option Name) → Indexed → Indexed → Prop
  | var {fixed : List (Option Name)} {v w : Occurrence} (same : v.ix = w.ix) :
      Lookalike fixed (.var v) (.var w)
  | twins {fixed : List (Option Name)} {v w : Occurrence} {x : Name}
      (left : atIndex? fixed v.ix = some (some x)) (right : atIndex? fixed w.ix = some (some x)) :
      Lookalike fixed (.var v) (.var w)
  | const {fixed : List (Option Name)} (c : Constant) : Lookalike fixed (.const c) (.const c)
  | binop {fixed : List (Option Name)} {l l' r r' : Indexed} (op : Operator)
      (left : Lookalike fixed l l') (right : Lookalike fixed r r') :
      Lookalike fixed (.binop op l r) (.binop op l' r')
  | not {fixed : List (Option Name)} {t t' : Indexed} (operand : Lookalike fixed t t') :
      Lookalike fixed (.not t) (.not t')
  | app {fixed : List (Option Name)} {f f' a a' : Indexed} (fn : Lookalike fixed f f')
      (arg : Lookalike fixed a a') : Lookalike fixed (.app f a) (.app f' a')
  | bind {fixed : List (Option Name)} {x x' : Name} {dom dom' body body' : Indexed} (b : Binder)
      (anonymous : x = wildcard ↔ x' = wildcard) (domain : Lookalike fixed dom dom')
      (under : Lookalike (fixedName? x :: fixed) body body') :
      Lookalike fixed (.bind b x dom body) (.bind b x' dom' body')
  | cond {fixed : List (Option Name)} {t t' y y' n n' : Indexed} (test : Lookalike fixed t t')
      (yes : Lookalike fixed y y') (no : Lookalike fixed n n') :
      Lookalike fixed (.cond t y n) (.cond t' y' n')
  | ascribe {fixed : List (Option Name)} {t t' type type' : Indexed}
      (subject : Lookalike fixed t t') (ascribed : Lookalike fixed type type') :
      Lookalike fixed (.ascribe t type) (.ascribe t' type')

theorem Lookalike.symm {fixed : List (Option Name)} {t u : Indexed} (alike : Lookalike fixed t u) :
    Lookalike fixed u t := by
  induction alike with
  | var same => exact .var same.symm
  | twins left right => exact .twins right left
  | const c => exact .const c
  | binop op _ _ left right => exact .binop op left right
  | not _ ih => exact .not ih
  | app _ _ left right => exact .app left right
  | bind b anonymous _ _ domIh bodyIh =>
    refine .bind b anonymous.symm domIh ?_
    simpa only [fixedName?, anonymous] using bodyIh
  | cond _ _ _ testIh yesIh noIh => exact .cond testIh yesIh noIh
  | ascribe _ _ left right => exact .ascribe left right

variable {fixed : List (Option Name)} {names names' shown : List Name}

theorem surface_spelled {t : Indexed} (legible : t.Legible names)
    (scope : Displays fixed names shown) :
    (t.surface shown).Spelled Bindable anyConstant := by
  induction t generalizing fixed names shown with
  | var v =>
    obtain ⟨x, found, plain⟩ := legible
    obtain ⟨nonneg, found⟩ := atIndex?_eq_some.mp found
    obtain ⟨y, place, bindable⟩ := scope.bindable found plain
    rw [surface, atIndex?_eq_some.mpr ⟨nonneg, place⟩]
    exact bindable
  | const c => trivial
  | not t ih => exact ih legible scope
  | bind b x dom body domIh bodyIh =>
    obtain ⟨identifier, domain, under⟩ := legible
    exact ⟨identifier.freshen shown, domIh domain scope, bodyIh under (scope.cons identifier)⟩
  | cond t yes no testIh yesIh noIh =>
    exact ⟨testIh legible.1 scope, yesIh legible.2.1 scope, noIh legible.2.2 scope⟩
  | binop _ _ _ left right | app _ _ left right | ascribe _ _ left right =>
    exact ⟨left legible.1 scope, right legible.2 scope⟩

theorem Lookalike.variables {v w : Occurrence} (legible : (Term.var v).Legible names)
    (legible' : (Term.var w).Legible names') (scope : Displays fixed names shown)
    (scope' : Displays fixed names' shown)
    (same : surface shown (.var v) = surface shown (.var w)) :
    Lookalike fixed (.var v) (.var w) := by
  obtain ⟨x, found, plain⟩ := legible
  obtain ⟨x', found', plain'⟩ := legible'
  obtain ⟨nonneg, found⟩ := atIndex?_eq_some.mp found
  obtain ⟨nonneg', found'⟩ := atIndex?_eq_some.mp found'
  obtain ⟨y, place, -⟩ := scope.bindable found plain
  obtain ⟨y', place', -⟩ := scope'.bindable found' plain'
  simp only [surface, atIndex?_eq_some.mpr ⟨nonneg, place⟩, atIndex?_eq_some.mpr ⟨nonneg', place'⟩,
    Option.getD_some, Term.var.injEq] at same
  subst same
  rcases scope.unique_or_fixed place place' with index | ⟨left, right⟩
  · refine .var ?_
    rw [← ofNat_toNatClampNeg nonneg, index, ofNat_toNatClampNeg nonneg']
  · exact .twins (atIndex?_eq_some.mpr ⟨nonneg, left⟩) (atIndex?_eq_some.mpr ⟨nonneg', right⟩)

theorem Lookalike.of_surface {t u : Indexed} (legible : t.Legible names)
    (legible' : u.Legible names') (scope : Displays fixed names shown)
    (scope' : Displays fixed names' shown) (same : t.surface shown = u.surface shown) :
    Lookalike fixed t u := by
  induction t generalizing u fixed names names' shown with
  | var v =>
    cases u with
    | var w => exact .variables legible legible' scope scope' same
    | _ => cases same
  | const c =>
    cases u with
    | const d =>
      cases same
      exact .const c
    | _ => cases same
  | binop op l r left right =>
    cases u with
    | binop op' l' r' =>
      simp only [surface, Term.binop.injEq] at same
      obtain ⟨rfl, first, second⟩ := same
      exact .binop op (left legible.1 legible'.1 scope scope' first)
        (right legible.2 legible'.2 scope scope' second)
    | _ => cases same
  | not t ih =>
    cases u with
    | not t' => exact .not (ih legible legible' scope scope' (Term.not.inj same))
    | _ => cases same
  | app f a left right =>
    cases u with
    | app f' a' =>
      obtain ⟨first, second⟩ := Term.app.inj same
      exact .app (left legible.1 legible'.1 scope scope' first)
        (right legible.2 legible'.2 scope scope' second)
    | _ => cases same
  | bind b x dom body domIh bodyIh =>
    cases u with
    | bind b' x' dom' body' =>
      simp only [surface, Term.bind.injEq] at same
      obtain ⟨rfl, binder, domain, under⟩ := same
      have anonymous : x = wildcard ↔ x' = wildcard := by
        rw [← freshen_eq_wildcard shown, binder, freshen_eq_wildcard]
      have inner := scope.cons legible.1
      have inner' := scope'.cons legible'.1
      have fixes : fixedName? x' = fixedName? x := by simp only [fixedName?, anonymous]
      rw [← binder, fixes] at inner'
      rw [← binder] at under
      exact .bind b anonymous (domIh legible.2.1 legible'.2.1 scope scope' domain)
        (bodyIh legible.2.2 legible'.2.2 inner inner' under)
    | _ => cases same
  | cond t yes no testIh yesIh noIh =>
    cases u with
    | cond t' yes' no' =>
      obtain ⟨test, first, second⟩ := Term.cond.inj same
      exact .cond (testIh legible.1 legible'.1 scope scope' test)
        (yesIh legible.2.1 legible'.2.1 scope scope' first)
        (noIh legible.2.2 legible'.2.2 scope scope' second)
    | _ => cases same
  | ascribe t type left right =>
    cases u with
    | ascribe t' type' =>
      obtain ⟨first, second⟩ := Term.ascribe.inj same
      exact .ascribe (left legible.1 legible'.1 scope scope' first)
        (right legible.2 legible'.2 scope scope' second)
    | _ => cases same

theorem Legible.display {t : Indexed} (legible : t.Legible names) (scope : List Name) :
    t.display scope = .ok (t.render scope Tier.term) := by
  simp only [Term.display, t.negativeIndex?_eq_none legible]

/-- Terms with the same text in a context, whatever names are shadowed there. -/
theorem Lookalike.of_render {a b : Indexed} {scope : List Name}
    (identifiers : ∀ x ∈ scope, IsIdentifier x) (legible : a.Legible scope)
    (legible' : b.Legible scope) (same : a.render scope Tier.term = b.render scope Tier.term) :
    Lookalike (scope.map some) a b := by
  have shows := Displays.context identifiers
  have spelled := surface_spelled legible shows
  have spelled' := surface_spelled legible' shows
  exact .of_surface legible legible' shows shows (surface_eq_of_render_eq spelled spelled' same)

end Term

/-- No name but the wildcard stands twice among the names. -/
def Unshadowed (names : List Name) : Prop :=
  names.Pairwise fun x y => x = y → x = wildcard

/-- Of the fixed names, only the wildcard may stand at several places. -/
structure Told (fixed : List (Option Name)) (names : List Name) : Prop where
  name : ∀ (i : Nat) x, fixed[i]? = some (some x) → names[i]? = some x
  once : ∀ (i j : Nat) x, x ≠ wildcard → fixed[i]? = some (some x) →
    fixed[j]? = some (some x) → i = j

namespace Told

theorem context {names : List Name} (distinct : Unshadowed names) :
    Told (names.map some) names where
  name i x found := by simpa using found
  once i j x named found found' := by
    simp only [List.getElem?_map, Option.map_eq_some_iff, Option.some.injEq, exists_eq_right]
      at found found'
    obtain ⟨inside, rfl⟩ := List.getElem?_eq_some_iff.mp found
    obtain ⟨inside', same⟩ := List.getElem?_eq_some_iff.mp found'
    have apart := List.pairwise_iff_getElem.mp distinct
    rcases Nat.lt_trichotomy i j with before | equal | after
    · exact absurd (apart i j inside inside' before same.symm) named
    · exact equal
    · exact absurd (apart j i inside' inside after same) (same ▸ named)

theorem fixedName?_eq_some {x y : Name} (fixes : fixedName? x = some y) : x = y ∧ y = wildcard := by
  unfold fixedName? at fixes
  split at fixes
  · rename_i anonymous
    cases fixes
    exact ⟨anonymous, rfl⟩
  · cases fixes

theorem cons {fixed : List (Option Name)} {names : List Name} (outer : Told fixed names)
    (x : Name) : Told (fixedName? x :: fixed) (x :: names) where
  name i y found := by
    cases i with
    | zero =>
      obtain ⟨same, -⟩ := fixedName?_eq_some (Option.some.inj found)
      exact congrArg some same
    | succ i => exact outer.name i y found
  once i j y named found found' := by
    cases i with
    | zero => exact absurd (fixedName?_eq_some (Option.some.inj found)).2 named
    | succ i =>
      cases j with
      | zero => exact absurd (fixedName?_eq_some (Option.some.inj found')).2 named
      | succ j => exact congrArg (· + 1) (outer.once i j y named found found')

end Told

/-- No variable that refers to something else than a wildcard has a twin. -/
theorem Term.Lookalike.alphaEq {fixed : List (Option Name)} {a b : Indexed} {names : List Name}
    {p : Constant → Prop} (alike : Lookalike fixed a b) (told : Told fixed names)
    (referable : a.Readable Referable p names) : AlphaEq a b := by
  induction alike generalizing names with
  | var same => simp only [AlphaEq, forgetNames, same]
  | @twins fixed v w x left right =>
    obtain ⟨y, found, other⟩ := referable
    obtain ⟨nonneg, found⟩ := atIndex?_eq_some.mp found
    obtain ⟨-, left⟩ := atIndex?_eq_some.mp left
    obtain ⟨nonneg', right⟩ := atIndex?_eq_some.mp right
    have same : x = y := Option.some.inj ((told.name _ x left).symm.trans found)
    have index := told.once _ _ x (same ▸ other.named) left right
    have indices : v.ix = w.ix := by
      rw [← ofNat_toNatClampNeg nonneg, index, ofNat_toNatClampNeg nonneg']
    simp only [AlphaEq, forgetNames, indices]
  | const c => rfl
  | binop op _ _ left right =>
    exact congrArg₂ (Term.binop op) (left told referable.1) (right told referable.2)
  | not _ ih => exact congrArg Term.not (ih told referable)
  | app _ _ left right => exact congrArg₂ Term.app (left told referable.1) (right told referable.2)
  | bind b _ _ _ domIh bodyIh =>
    exact congrArg₂ (Term.bind b "") (domIh told referable.2.1)
      (bodyIh (told.cons _) referable.2.2)
  | cond _ _ _ testIh yesIh noIh =>
    have test := testIh told referable.1
    have first := yesIh told referable.2.1
    have second := noIh told referable.2.2
    simp only [AlphaEq, forgetNames] at test first second ⊢
    rw [test, first, second]
  | ascribe _ _ left right =>
    exact congrArg₂ Term.ascribe (left told referable.1) (right told referable.2)

theorem Term.Lookalike.alphaEq_of_either {fixed : List (Option Name)} {a b : Indexed}
    {names : List Name} {p : Constant → Prop} (alike : Lookalike fixed a b)
    (told : Told fixed names)
    (referable : a.Readable Referable p names ∨ b.Readable Referable p names) : AlphaEq a b := by
  rcases referable with left | right
  · exact alike.alphaEq told left
  · exact (alike.symm.alphaEq told right).symm

/-- Closed terms with the same text are the same up to names and up to the exchange of variables that
both refer to wildcards. If one of the terms has no such variable, they are the same up to names. -/
theorem closed_display_determines (a b : Indexed) (legible : a.Legible []) (legible' : b.Legible [])
    (same : a.display [] = b.display []) :
    Term.Lookalike [] a b ∧
      (a.Readable Referable anyConstant [] ∨ b.Readable Referable anyConstant [] →
        Term.AlphaEq a b) := by
  rw [legible.display, legible'.display] at same
  have alike : Term.Lookalike [] a b :=
    .of_render (fun x member => absurd member List.not_mem_nil) legible legible'
      (Except.ok.inj same)
  exact ⟨alike, alike.alphaEq_of_either (.context .nil)⟩

/-- The inner binder of the second term has the name that the one of the first is displayed with. -/
theorem closed_display_determines_shadowing :
    Term.display [] (.bind .lam "x" (.const .intType)
      (.bind .lam "x" (.const .intType) (.var ⟨"x", 1⟩))) = .ok "λx:Int. λx':Int. x" ∧
    Term.AlphaEq
      (.bind .lam "x" (.const .intType) (.bind .lam "x" (.const .intType) (.var ⟨"x", 1⟩)))
      (.bind .lam "x" (.const .intType)
        (.bind .lam "x'" (.const .intType) (.var ⟨"x", (1 : Int64)⟩))) := by
  have x : IsIdentifier "x" := ⟨'x', [], rfl, by decide +kernel⟩
  have x' : IsIdentifier "x'" := ⟨'x', ['\''], rfl, by decide +kernel⟩
  have plain : Referable "x" := ⟨by decide, not_spellsUniverse (by decide)⟩
  refine ⟨by decide +kernel, (closed_display_determines _ _ ?_ ?_ (by decide +kernel)).2 (.inl ?_)⟩
  · exact ⟨x, trivial, x, trivial, "x", rfl, plain.plain⟩
  · exact ⟨x, trivial, x', trivial, "x", rfl, plain.plain⟩
  · exact ⟨x, trivial, x, trivial, "x", rfl, plain⟩

/-- Two binders without a name around a variable with the given index. -/
def anonymousPair (ix : Int64) : Indexed :=
  .bind .lam wildcard (.const .intType)
    (.bind .lam wildcard (.const .intType) (.var ⟨wildcard, ix⟩))

/-- Whether a variable refers to the one wildcard or to the other cannot be seen. -/
theorem anonymousPair_alike :
    Bindable wildcard ∧ (anonymousPair 0).Legible [] ∧ (anonymousPair 1).Legible [] ∧
      (anonymousPair 0).display [] = (anonymousPair 1).display [] ∧
      ¬ Term.AlphaEq (anonymousPair 0) (anonymousPair 1) := by
  have plain := not_spellsUniverse_wildcard
  have word := isIdentifier_wildcard
  exact ⟨⟨word, plain⟩, ⟨word, trivial, word, trivial, wildcard, rfl, plain⟩,
    ⟨word, trivial, word, trivial, wildcard, rfl, plain⟩, by decide +kernel, by decide⟩

end DepCalc

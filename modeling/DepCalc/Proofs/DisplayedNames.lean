import DepCalc.Proofs.Lookalikes
import Mathlib.Logic.Relation
import Mathlib.Order.Bounds.Defs

/-!
Names on display. A name is primed until it is free; this comes to an end, at the fewest primes that
keep the name apart from those in scope. So no displayed name but the wildcard shadows another, however
deep the renderer has gone into a term.
-/
namespace DepCalc

/-- The names in scope with the new one in front, and the new one. The fuel bounds how many primes are
tried. -/
def primeUntilFree : Nat → List Name → Name → Option (List Name × Name)
  | 0, _, _ => none
  | fuel + 1, taken, x =>
    if x ≠ wildcard ∧ x ∈ taken then primeUntilFree fuel taken (x ++ "'")
    else some (x :: taken, x)

theorem primed_append_prime (x : Name) (count : Nat) :
    primed (x ++ "'") count = primed x (count + 1) := by
  apply String.toList_inj.mp
  simp [List.replicate_succ]

theorem append_prime_ne_wildcard (x : Name) : x ++ "'" ≠ wildcard := by
  intro same
  have prime : '\'' ∈ wildcard.toList := by
    rw [← same]
    simp
  revert prime
  decide

/-- The name grows on the way, and with each prime there is one less to come. -/
theorem primeUntilFree_of_fewest {taken : List Name} {x : Name} {count fuel : Nat}
    (named : x ≠ wildcard) (free : primed x count ∉ taken)
    (fewest : ∀ fewer < count, primed x fewer ∈ taken) (enough : count < fuel) :
    primeUntilFree fuel taken x = some (primed x count :: taken, primed x count) := by
  induction fuel generalizing x count with
  | zero => cases enough
  | succ fuel ih =>
    cases count with
    | zero =>
      rw [primed_zero] at free ⊢
      rw [primeUntilFree, if_neg fun both => free both.2]
    | succ count =>
      have present : x ∈ taken := primed_zero x ▸ fewest 0 (Nat.succ_pos count)
      rw [primeUntilFree, if_pos ⟨named, present⟩, ← primed_append_prime]
      apply ih (append_prime_ne_wildcard x)
      · rwa [primed_append_prime]
      · intro fewer below
        rw [primed_append_prime]
        exact fewest (fewer + 1) (Nat.succ_lt_succ below)
      · exact Nat.lt_of_succ_lt_succ enough

/-- There are no more primes than names that are taken. -/
theorem primeUntilFree_eq {taken : List Name} {fuel : Nat} (enough : taken.length < fuel)
    (x : Name) :
    primeUntilFree fuel taken x = some (freshen taken x :: taken, freshen taken x) := by
  by_cases named : x = wildcard
  · obtain ⟨fuel, rfl⟩ := Nat.exists_eq_add_one.mpr (Nat.zero_lt_of_lt enough)
    rw [primeUntilFree, if_neg fun both => both.1 named, named, freshen_wildcard]
  · obtain ⟨count, chosen, free, fewest⟩ := freshen_spec taken named
    have few : count ≤ taken.length := by
      obtain ⟨candidate, below, absent⟩ := exists_primed_not_mem taken x
      by_contra more
      exact absent (fewest candidate (by omega))
    rw [chosen]
    exact primeUntilFree_of_fewest named free fewest (by omega)

theorem Unshadowed.freshen {taken : List Name} (distinct : Unshadowed taken) (x : Name) :
    Unshadowed (freshen taken x :: taken) := by
  refine List.pairwise_cons.mpr ⟨fun y present same => ?_, distinct⟩
  by_contra named
  have other : x ≠ wildcard := mt (freshen_eq_wildcard taken).mpr named
  exact freshen_not_mem other (same ▸ present)

/-- A call of the renderer. -/
structure Rendering where
  scope : List Name
  limit : Nat
  term : Indexed
  deriving DecidableEq, Repr

namespace Rendering

def text (call : Rendering) : String :=
  call.term.render call.scope call.limit

/-- The calls that the renderer makes for the parts of its term. -/
def parts (call : Rendering) : List Rendering :=
  match call.term with
  | .var _ | .const _ => []
  | .binop op l r =>
    [⟨call.scope, if op.isComparison then op.tier - 1 else op.tier, l⟩,
     ⟨call.scope, op.tier - 1, r⟩]
  | .not t => [⟨call.scope, Tier.atom, t⟩]
  | .app f a => [⟨call.scope, Tier.application, f⟩, ⟨call.scope, Tier.atom, a⟩]
  | .bind b x dom body =>
    let isArrow := b = .pi ∧ x = wildcard
    [⟨call.scope, if isArrow then Tier.arrow - 1 else Tier.term, dom⟩,
     ⟨freshen call.scope x :: call.scope, if isArrow then Tier.arrow else Tier.term, body⟩]
  | .cond t yes no =>
    [⟨call.scope, Tier.term, t⟩, ⟨call.scope, Tier.term, yes⟩, ⟨call.scope, Tier.term, no⟩]
  | .ascribe t type => [⟨call.scope, Tier.term, t⟩, ⟨call.scope, Tier.term, type⟩]

/-- The text of a call, put together from what the calls for its parts give. -/
def layout (call : Rendering) (texts : List String) : String :=
  match call.term, texts with
  | .var v, [] => (atIndex? call.scope v.ix).getD v.name
  | .const c, [] => Term.bracketAbove call.limit c.tier c.text
  | .binop op _ _, [l, r] =>
    Term.bracketAbove call.limit op.tier (l ++ " " ++ op.symbol ++ " " ++ r)
  | .not _, [t] => Term.bracketAbove call.limit Tier.unary ("!" ++ t)
  | .app _ _, [f, a] => Term.bracketAbove call.limit Tier.application (f ++ " " ++ a)
  | .bind b x _ _, [dom, body] =>
    if b = .pi ∧ x = wildcard then
      Term.bracketAbove call.limit Tier.arrow (dom ++ " -> " ++ body)
    else
      Term.bracketAbove call.limit Tier.term
        (Term.binderHead b (freshen call.scope x) dom ++ ". " ++ body)
  | .cond _ _ _, [t, yes, no] =>
    Term.bracketAbove call.limit Tier.term
      ("if " ++ t ++ " then " ++ yes ++ " else " ++ no)
  | .ascribe _ _, [t, type] => "(" ++ t ++ " : " ++ type ++ ")"
  | _, _ => ""

def Path : Rendering → Rendering → Prop :=
  Relation.ReflTransGen fun call part => part ∈ call.parts

/-- A call for a part keeps the names in scope, or has one more, which is made fresh. -/
theorem scope_of_mem_parts {call part : Rendering} (made : part ∈ call.parts) :
    part.scope = call.scope ∨ ∃ x, part.scope = freshen call.scope x :: call.scope := by
  obtain ⟨scope, limit, t⟩ := call
  cases t with
  | var v | const c => cases made
  | not t =>
    obtain rfl := List.mem_singleton.mp made
    exact .inl rfl
  | binop op l r | app f a | ascribe t type =>
    rcases List.mem_pair.mp made with rfl | rfl <;> exact .inl rfl
  | bind b x dom body =>
    rcases List.mem_pair.mp made with rfl | rfl
    · exact .inl rfl
    · exact .inr ⟨x, rfl⟩
  | cond t yes no =>
    simp only [parts, List.mem_cons, List.not_mem_nil, or_false] at made
    rcases made with rfl | rfl | rfl <;> exact .inl rfl

theorem Path.unshadowed {start last : Rendering} (path : start.Path last)
    (distinct : Unshadowed start.scope) : Unshadowed last.scope := by
  induction path with
  | refl => exact distinct
  | tail _ made ih =>
    rcases scope_of_mem_parts made with same | ⟨x, extended⟩
    · rwa [same]
    · rw [extended]
      exact ih.freshen x

theorem text_eq_layout (call : Rendering) : call.text = call.layout (call.parts.map text) := by
  obtain ⟨scope, limit, t⟩ := call
  cases t with
  | bind b x dom body =>
    by_cases isArrow : b = .pi ∧ x = wildcard
    · simp only [text, Term.render, layout, parts, List.map_cons, List.map_nil, if_pos isArrow]
    · simp only [text, Term.render, layout, parts, List.map_cons, List.map_nil, if_neg isArrow]
  | _ => rfl

end Rendering

/-- Priming comes to an end, with the wildcard as it is and any other name with the fewest primes that
keep it apart from those in scope, and puts the name in front of these. If no name but the wildcard
stands twice in the scope of a call of the renderer, then none does in the scope of any call that it
leads to. No call is left out on the way: a text is laid out from the texts of the parts. -/
theorem displayed_names_fresh :
    (∀ (taken : List Name) (x : Name),
      (∀ fuel, taken.length < fuel →
        primeUntilFree fuel taken x = some (freshen taken x :: taken, freshen taken x)) ∧
      (x = wildcard → freshen taken x = wildcard) ∧
      (x ≠ wildcard → ∃ count, freshen taken x = primed x count ∧
        IsLeast {k | primed x k ∉ taken} count)) ∧
    (∀ start last : Rendering, start.Path last → Unshadowed start.scope → Unshadowed last.scope) ∧
    ∀ call : Rendering, call.text = call.layout (call.parts.map Rendering.text) := by
  refine ⟨fun taken x => ⟨fun fuel enough => primeUntilFree_eq enough x, ?_, ?_⟩,
    fun _ _ => Rendering.Path.unshadowed, Rendering.text_eq_layout⟩
  · intro anonymous
    rw [anonymous, freshen_wildcard]
  · intro named
    obtain ⟨count, chosen, free, fewest⟩ := freshen_spec taken named
    refine ⟨count, chosen, free, fun k other => ?_⟩
    by_contra below
    exact other (fewest k (Nat.lt_of_not_le below))

/-- The binder takes the name of a variable in scope, beside which the same name with a prime and two
wildcards are in scope. -/
def primedNamesake : Rendering :=
  ⟨["x'", "_", "x", "_"], Tier.term, .bind .lam "x" (.const .intType) (.var ⟨"x", 0⟩)⟩

theorem displayed_names_fresh_primedNamesake :
    Unshadowed ["x'", "_", "x", "_"] ∧
    primedNamesake.Path ⟨["x''", "x'", "_", "x", "_"], Tier.term, .var ⟨"x", 0⟩⟩ ∧
    primeUntilFree 5 ["x'", "_", "x", "_"] "x" = some (["x''", "x'", "_", "x", "_"], "x''") ∧
    Unshadowed ["x''", "x'", "_", "x", "_"] := by
  have distinct : Unshadowed primedNamesake.scope := by
    unfold Unshadowed
    decide
  have path : primedNamesake.Path ⟨["x''", "x'", "_", "x", "_"], Tier.term, .var ⟨"x", 0⟩⟩ :=
    .single (by decide)
  obtain ⟨fresh, apart, -⟩ := displayed_names_fresh
  have primes := (fresh ["x'", "_", "x", "_"] "x").1
  have chosen : freshen ["x'", "_", "x", "_"] "x" = "x''" := by decide
  rw [chosen] at primes
  exact ⟨distinct, path, primes 5 (by decide), apart _ _ path distinct⟩

end DepCalc

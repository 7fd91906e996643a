import DepCalc.Proofs.Naming
import DepCalc.Proofs.Outcome
import DepCalc.Proofs.Source.RoundTrip
import DepCalc.Proofs.Widening
import Mathlib.Data.Sum.Basic

/-!
What resolution by names forgets. Two surface terms that resolve become the same indexed term, up to
the names it carries, exactly when one is turned into the other by renaming binders. Both sides are
compared through the places of binders: a term with the place of its binder for each variable keeps
what an index tells, and renaming a binder does not change it.
-/
namespace DepCalc

namespace Term

/-- The names that stand in a term, at its variables and at its binders. -/
def names : Surface → List Name
  | var x => [x]
  | const _ => []
  | binop _ l r => l.names ++ r.names
  | not t => t.names
  | app f a => f.names ++ a.names
  | bind _ x dom body => x :: dom.names ++ body.names
  | cond t yes no => t.names ++ yes.names ++ no.names
  | ascribe t type => t.names ++ type.names

/-- The term with `y` for the variables `x` that no binder inside it binds. -/
def rename (x y : Name) : Surface → Surface
  | var z => var (if z = x then y else z)
  | const c => const c
  | binop op l r => binop op (l.rename x y) (r.rename x y)
  | not t => not (t.rename x y)
  | app f a => app (f.rename x y) (a.rename x y)
  | bind b z dom body =>
    bind b z (dom.rename x y) (if z = x then body else body.rename x y)
  | cond t yes no => cond (t.rename x y) (yes.rename x y) (no.rename x y)
  | ascribe t type => ascribe (t.rename x y) (type.rename x y)

end Term

/-- Equality up to the names of binders: the least equivalence that goes through all forms and lets a
binder take any name that does not stand in its body. The wildcard is a name like any other. -/
inductive Surface.AlphaEquiv : Surface → Surface → Prop
  | rename (b : Binder) (x y : Name) (dom body : Surface) (fresh : y ∉ body.names) :
      AlphaEquiv (.bind b x dom body) (.bind b y dom (body.rename x y))
  | refl (t : Surface) : AlphaEquiv t t
  | symm {t u : Surface} (same : AlphaEquiv t u) : AlphaEquiv u t
  | trans {t u v : Surface} (first : AlphaEquiv t u) (second : AlphaEquiv u v) : AlphaEquiv t v
  | binop {l l' r r' : Surface} (op : Operator) (left : AlphaEquiv l l')
      (right : AlphaEquiv r r') : AlphaEquiv (.binop op l r) (.binop op l' r')
  | not {t t' : Surface} (operand : AlphaEquiv t t') : AlphaEquiv (.not t) (.not t')
  | app {f f' a a' : Surface} (fn : AlphaEquiv f f') (arg : AlphaEquiv a a') :
      AlphaEquiv (.app f a) (.app f' a')
  | bind {dom dom' body body' : Surface} (b : Binder) (x : Name) (domain : AlphaEquiv dom dom')
      (under : AlphaEquiv body body') : AlphaEquiv (.bind b x dom body) (.bind b x dom' body')
  | cond {t t' y y' n n' : Surface} (test : AlphaEquiv t t') (yes : AlphaEquiv y y')
      (no : AlphaEquiv n n') : AlphaEquiv (.cond t y n) (.cond t' y' n')
  | ascribe {t t' type type' : Surface} (subject : AlphaEquiv t t')
      (ascribed : AlphaEquiv type type') : AlphaEquiv (.ascribe t type) (.ascribe t' type')

/-- How far out the nearest binder of a name is, or the name itself if there is none. -/
def place : List Name → Name → Nat ⊕ Name
  | [], x => .inr x
  | y :: scope, x => if x = y then .inl 0 else (place scope x).map (· + 1) id

theorem place_cons_of_ne (scope : List Name) {x y : Name} (apart : x ≠ y) :
    place (y :: scope) x = (place scope x).map (· + 1) id :=
  if_neg apart

/-- A binder around both scopes keeps the places of a name in one and of a name in the other alike. -/
theorem place_cons_congr {scope scope' : List Name} {x x' : Name} (z : Name)
    (same : place scope x = place scope' x') (apart : x ≠ z) (apart' : x' ≠ z) :
    place (z :: scope) x = place (z :: scope') x' := by
  rw [place_cons_of_ne scope apart, place_cons_of_ne scope' apart', same]

/-- A binder in front of two scopes binds the same name in both. -/
theorem place_cons_eq {scope scope' : List Name} {x z : Name}
    (same : x ≠ z → place scope x = place scope' x) :
    place (z :: scope) x = place (z :: scope') x := by
  by_cases bound : x = z
  · rw [place, place, if_pos bound, if_pos bound]
  · exact place_cons_congr z (same bound) bound bound

theorem place_injective (scope : List Name) : Function.Injective (place scope) := by
  intro x y same
  induction scope with
  | nil => exact Sum.inr.inj same
  | cons z scope ih =>
    by_cases first : x = z
    · by_cases second : y = z
      · rw [first, second]
      · rw [place, if_pos first, place_cons_of_ne scope second] at same
        cases found : place scope y <;> simp [found] at same
    · rw [place_cons_of_ne scope first] at same
      by_cases second : y = z
      · rw [place, if_pos second] at same
        cases found : place scope x <;> simp [found] at same
      · rw [place_cons_of_ne scope second] at same
        exact ih (Sum.map_injective.mpr ⟨fun _ _ => Nat.succ.inj, Function.injective_id⟩ same)

namespace Term

/-- The term with the place of its binder for each variable, and no names of binders. -/
def located : List Name → Surface → Term (Nat ⊕ Name)
  | scope, var x => var (place scope x)
  | _, const c => const c
  | scope, binop op l r => binop op (l.located scope) (r.located scope)
  | scope, not t => not (t.located scope)
  | scope, app f a => app (f.located scope) (a.located scope)
  | scope, bind b x dom body => bind b "" (dom.located scope) (body.located (x :: scope))
  | scope, cond t yes no => cond (t.located scope) (yes.located scope) (no.located scope)
  | scope, ascribe t type => ascribe (t.located scope) (type.located scope)

/-- Only the places of the names that stand in the term matter. -/
theorem located_congr {scope scope' : List Name} {t : Surface}
    (same : ∀ x ∈ t.names, place scope x = place scope' x) :
    t.located scope = t.located scope' := by
  induction t generalizing scope scope' with
  | var x => exact congrArg var (same x List.mem_cons_self)
  | const c => rfl
  | not t ih => exact congrArg not (ih same)
  | bind b x dom body domain under =>
    simp only [names, List.cons_append, List.mem_cons, List.mem_append] at same
    have inside : ∀ z ∈ body.names, place (x :: scope) z = place (x :: scope') z := by
      intro z member
      exact place_cons_eq fun _ => same z (.inr (.inr member))
    rw [located, located, domain fun z member => same z (.inr (.inl member)), under inside]
  | cond t yes no test first second =>
    simp only [names, List.mem_append] at same
    rw [located, located, test fun z member => same z (.inl (.inl member)),
      first fun z member => same z (.inl (.inr member)),
      second fun z member => same z (.inr member)]
  | binop _ _ _ left right | app _ _ left right | ascribe _ _ left right =>
    simp only [names, List.mem_append] at same
    rw [located, located, left fun z member => same z (.inl member),
      right fun z member => same z (.inr member)]

theorem located_eq_bind {t : Surface} {scope : List Name} {b : Binder} {x : Name}
    {p q : Term (Nat ⊕ Name)} (same : t.located scope = .bind b x p q) :
    ∃ y dom body, t = .bind b y dom body ∧ dom.located scope = p ∧
      body.located (y :: scope) = q := by
  cases t with
  | bind b' y dom body =>
    simp only [located, Term.bind.injEq] at same
    obtain ⟨rfl, -, domain, under⟩ := same
    exact ⟨y, dom, body, rfl, domain, under⟩
  | _ => simp only [located, reduceCtorEq] at same

/-- Renaming a variable moves nothing, if the new name is where the old one was and does not stand in
the term. -/
theorem located_rename {scope scope' : List Name} {x y : Name} {t : Surface} (fresh : y ∉ t.names)
    (moved : place scope x = place scope' y)
    (others : ∀ z, z ≠ x → z ≠ y → place scope z = place scope' z) :
    t.located scope = (t.rename x y).located scope' := by
  induction t generalizing scope scope' with
  | var z =>
    simp only [names, List.mem_singleton] at fresh
    simp only [rename, located]
    split
    · rename_i same
      rw [same, moved]
    · rename_i other
      rw [others z other (Ne.symm fresh)]
  | const c => rfl
  | not t ih => exact congrArg not (ih fresh moved others)
  | bind b z dom body domain under =>
    simp only [names, List.cons_append, List.mem_cons, List.mem_append, not_or] at fresh
    obtain ⟨apart, freshDom, freshBody⟩ := fresh
    have sameDom := domain freshDom moved others
    simp only [rename, located, sameDom]
    congr 1
    split
    · -- The binder takes the old name, which nothing outside is called by any more.
      rename_i shadowed
      apply located_congr
      intro w member
      have other : w ≠ y := fun same => freshBody (same ▸ member)
      exact place_cons_eq fun free => others w (shadowed ▸ free) other
    · rename_i free
      apply under freshBody
      · exact place_cons_congr z moved (Ne.symm free) apart
      · intro w notOld notNew
        exact place_cons_eq fun _ => others w notOld notNew
  | cond t yes no test first second =>
    simp only [names, List.mem_append, not_or] at fresh
    simp only [rename, located, test fresh.1.1 moved others, first fresh.1.2 moved others,
      second fresh.2 moved others]
  | binop _ _ _ left right | app _ _ left right | ascribe _ _ left right =>
    simp only [names, List.mem_append, not_or] at fresh
    simp only [rename, located, left fresh.1 moved others, right fresh.2 moved others]

/-- Under its binder a variable may be renamed. -/
theorem located_rename_cons {scope : List Name} {x y : Name} {t : Surface} (fresh : y ∉ t.names) :
    t.located (x :: scope) = (t.rename x y).located (y :: scope) := by
  apply located_rename fresh
  · rw [place, place, if_pos rfl, if_pos rfl]
  · intro z notOld notNew
    rw [place_cons_of_ne scope notOld, place_cons_of_ne scope notNew]

end Term

namespace Surface.AlphaEquiv

theorem located_eq {t u : Surface} (same : AlphaEquiv t u) (scope : List Name) :
    t.located scope = u.located scope := by
  induction same generalizing scope with
  | rename b x y dom body fresh =>
    simp only [Term.located]
    rw [Term.located_rename_cons fresh]
  | refl t => rfl
  | symm _ ih => exact (ih scope).symm
  | trans _ _ first second => exact (first scope).trans (second scope)
  | not _ operand => exact congrArg Term.not (operand scope)
  | bind b x _ _ domain under => simp only [Term.located, domain scope, under (x :: scope)]
  | cond _ _ _ test yes no => simp only [Term.located, test scope, yes scope, no scope]
  | binop _ _ _ left right | app _ _ left right | ascribe _ _ left right =>
    simp only [Term.located, left scope, right scope]

/-- The induction is on the located term, which renaming the binders keeps: both binders are given one
name that is new to both bodies, and the bodies are compared under it. -/
theorem of_located {p : Term (Nat ⊕ Name)} {t u : Surface} {scope : List Name}
    (left : t.located scope = p) (right : u.located scope = p) : AlphaEquiv t u := by
  induction p generalizing t u scope with
  | var v =>
    cases t <;> cases u <;> simp only [Term.located, Term.var.injEq, reduceCtorEq] at left right
    rw [place_injective scope (left.trans right.symm)]
    exact .refl _
  | const c =>
    cases t <;> cases u <;> simp only [Term.located, Term.const.injEq, reduceCtorEq] at left right
    rw [left, right]
    exact .refl _
  | binop op l r leftIh rightIh =>
    cases t <;> cases u <;> simp only [Term.located, Term.binop.injEq, reduceCtorEq] at left right
    obtain ⟨rfl, leftL, leftR⟩ := left
    obtain ⟨rfl, rightL, rightR⟩ := right
    exact .binop _ (leftIh leftL rightL) (rightIh leftR rightR)
  | not p ih =>
    cases t <;> cases u <;> simp only [Term.located, Term.not.injEq, reduceCtorEq] at left right
    exact .not (ih left right)
  | app f a fnIh argIh =>
    cases t <;> cases u <;> simp only [Term.located, Term.app.injEq, reduceCtorEq] at left right
    exact .app (fnIh left.1 right.1) (argIh left.2 right.2)
  | cond test yes no testIh yesIh noIh =>
    cases t <;> cases u <;> simp only [Term.located, Term.cond.injEq, reduceCtorEq] at left right
    exact .cond (testIh left.1 right.1) (yesIh left.2.1 right.2.1) (noIh left.2.2 right.2.2)
  | ascribe subject type ih typeIh =>
    cases t <;> cases u <;> simp only [Term.located, Term.ascribe.injEq, reduceCtorEq] at left right
    exact .ascribe (ih left.1 right.1) (typeIh left.2 right.2)
  | bind b _ domain under domIh bodyIh =>
    obtain ⟨x, dom, body, rfl, leftDom, leftBody⟩ := Term.located_eq_bind left
    obtain ⟨y, dom', body', rfl, rightDom, rightBody⟩ := Term.located_eq_bind right
    obtain ⟨count, -, new⟩ := exists_primed_not_mem (body.names ++ body'.names) x
    generalize primed x count = z at new
    rw [List.mem_append, not_or] at new
    rw [Term.located_rename_cons new.1] at leftBody
    rw [Term.located_rename_cons new.2] at rightBody
    have between := AlphaEquiv.bind b z (domIh leftDom rightDom) (bodyIh leftBody rightBody)
    exact (AlphaEquiv.rename b x z dom body new.1).trans
      (between.trans (AlphaEquiv.rename b y z dom' body' new.2).symm)

end Surface.AlphaEquiv

namespace Term

/-- The located term that the indices of a term tell. -/
def placed : Indexed → Term (Nat ⊕ Name)
  | var v => var (.inl v.ix.toBitVec.toNat)
  | const c => const c
  | binop op l r => binop op l.placed r.placed
  | not t => not t.placed
  | app f a => app f.placed a.placed
  | bind b _ dom body => bind b "" dom.placed body.placed
  | cond t yes no => cond t.placed yes.placed no.placed
  | ascribe t type => ascribe t.placed type.placed

theorem alphaEq_iff_placed {t u : Indexed} : AlphaEq t u ↔ t.placed = u.placed := by
  unfold AlphaEq
  induction t generalizing u with
  | var v =>
    cases u <;> simp [forgetNames, placed, BitVec.toNat_inj, Int64.toBitVec_inj]
  | const c => cases u <;> simp [forgetNames, placed]
  | binop op l r left right => cases u <;> simp [forgetNames, placed, left, right]
  | not t ih => cases u <;> simp [forgetNames, placed, ih]
  | app f a fn arg => cases u <;> simp [forgetNames, placed, fn, arg]
  | bind b x dom body domain under => cases u <;> simp [forgetNames, placed, domain, under]
  | cond t yes no test first second =>
    cases u <;> simp [forgetNames, placed, test, first, second]
  | ascribe t type subject ascribed => cases u <;> simp [forgetNames, placed, subject, ascribed]

/-- The index of a name is the place of its binder. -/
theorem lookup_place {scope : List Name} {x : Name} :
    Outcome (fun _ => True) (fun ix => ∃ i, i < scope.length ∧ place scope x = .inl i ∧
      ix = Int64.ofNat i) ((Scope.ofNames scope).lookup .textual x) := by
  induction scope with
  | nil => trivial
  | cons y scope ih =>
    by_cases bound : x = y
    · rw [bound]
      simp [Scope.lookup, Scope.ofNames, Scope.lift, Matching.refersTo, Outcome, place]
    · rw [Scope.ofNames, Scope.lookup_lift _ bound]
      apply ih.bind
      rintro ix ⟨i, inside, found, rfl⟩
      refine ⟨i + 1, by simpa using inside, ?_, ?_⟩
      · rw [place_cons_of_ne scope bound, found]
        rfl
      · simp

/-- The indices that resolution gives tell the places of the binders. -/
theorem resolve_placed {scope : List Name} {t : Surface} (room : scope.length + t.depth ≤ 2 ^ 64) :
    Outcome (fun _ => True) (fun t' => t.located scope = t'.placed)
      (t.resolve .textual (Scope.ofNames scope)) := by
  induction t generalizing scope with
  | var x =>
    apply lookup_place.bind
    rintro ix ⟨i, inside, found, rfl⟩
    have word : (Int64.ofNat i).toBitVec.toNat = i := by
      rw [Int64.toBitVec_ofNat', BitVec.toNat_ofNat, Nat.mod_eq_of_lt (by omega)]
    change var (place scope x) = var (.inl (Int64.ofNat i).toBitVec.toNat)
    rw [found, word]
  | const c => rfl
  | binop op l r left right =>
    simp only [depth] at room
    apply (left (by omega)).bind
    intro l' sameL
    apply (right (by omega)).bind
    intro r' sameR
    exact congrArg₂ (binop op) sameL sameR
  | not t operand =>
    apply (operand room).bind
    intro t' same
    exact congrArg not same
  | app f a fn arg =>
    simp only [depth] at room
    apply (fn (by omega)).bind
    intro f' sameF
    apply (arg (by omega)).bind
    intro a' sameA
    exact congrArg₂ app sameF sameA
  | bind b x dom body domain under =>
    simp only [depth] at room
    apply (domain (by omega)).bind
    intro dom' sameDom
    have inside := @under (x :: scope) (by rw [List.length_cons]; omega)
    apply inside.bind
    intro body' sameBody
    exact congrArg₂ (bind b "") sameDom sameBody
  | cond t y n test yes no =>
    simp only [depth] at room
    apply (test (by omega)).bind
    intro t' sameT
    apply (yes (by omega)).bind
    intro y' sameY
    apply (no (by omega)).bind
    intro n' sameN
    change located scope _ = placed _
    rw [located, placed, sameT, sameY, sameN]
  | ascribe t type subject ascribed =>
    simp only [depth] at room
    apply (subject (by omega)).bind
    intro t' sameT
    apply (ascribed (by omega)).bind
    intro type' sameType
    exact congrArg₂ ascribe sameT sameType

end Term

/-- Resolution by names identifies exactly the terms that differ in the names of their binders. -/
theorem resolve_alphaEq_iff_alphaEquiv {t u : Surface} {t' u' : Indexed}
    (resolved : t.resolve .textual [] = .ok t') (resolved' : u.resolve .textual [] = .ok u')
    (depth : t.depth ≤ 2 ^ 64) (depth' : u.depth ≤ 2 ^ 64) :
    Term.AlphaEq t' u' ↔ Surface.AlphaEquiv t u := by
  have placed : t.located [] = t'.placed :=
    (Term.resolve_placed (by simpa using depth)).of_eq_ok resolved
  have placed' : u.located [] = u'.placed :=
    (Term.resolve_placed (by simpa using depth')).of_eq_ok resolved'
  rw [Term.alphaEq_iff_placed, ← placed, ← placed']
  constructor
  · intro same
    exact .of_located same rfl
  · intro same
    exact same.located_eq []

/-- A variable under two binders. -/
def underTwo {ν : Type} (x y : Name) (v : ν) : Term ν :=
  .bind .lam x (.const .intType) (.bind .lam y (.const .intType) (.var v))

/-- The inner of two binders of one name may be called by the wildcard; the outer one is another
variable. -/
theorem resolve_alphaEq_iff_alphaEquiv_shadowing :
    ((underTwo "x" "x" "x" : Surface).resolve .textual [] = .ok (underTwo "x" "x" ⟨"x", 0⟩) ∧
      (underTwo "y" "_" "_" : Surface).resolve .textual [] = .ok (underTwo "y" "_" ⟨"_", 0⟩) ∧
      (underTwo "x" "y" "x" : Surface).resolve .textual [] = .ok (underTwo "x" "y" ⟨"x", 1⟩)) ∧
    Surface.AlphaEquiv (underTwo "x" "x" "x") (underTwo "y" "_" "_") ∧
    ¬ Surface.AlphaEquiv (underTwo "x" "x" "x") (underTwo "x" "y" "x") := by
  have inner : (underTwo "x" "x" "x" : Surface).resolve .textual [] =
      .ok (underTwo "x" "x" ⟨"x", 0⟩) := by rfl
  have anonymous : (underTwo "y" "_" "_" : Surface).resolve .textual [] =
      .ok (underTwo "y" "_" ⟨"_", 0⟩) := by rfl
  have outer : (underTwo "x" "y" "x" : Surface).resolve .textual [] =
      .ok (underTwo "x" "y" ⟨"x", 1⟩) := by rfl
  refine ⟨⟨inner, anonymous, outer⟩, ?_, ?_⟩
  · exact (resolve_alphaEq_iff_alphaEquiv inner anonymous (by decide) (by decide)).mp (by decide)
  · intro same
    have equal := (resolve_alphaEq_iff_alphaEquiv inner outer (by decide) (by decide)).mpr same
    revert equal
    decide

end DepCalc

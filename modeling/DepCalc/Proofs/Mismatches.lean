import DepCalc.Proofs.Lookalikes
import DepCalc.Proofs.NameIndependence
import DepCalc.Proofs.Rereading
import DepCalc.Proofs.Shifting

/-!
What the texts of an error about two types tell. The types have been found different, so they are not
the same up to names, and each of their variables is called by the name of its binder. Their texts
differ therefore, unless they refer to a name that stands twice in the context, or to a wildcard.
-/
namespace DepCalc

open Source

variable {q : Name → Prop}

namespace Term

/-- All variables refer to names of which `q` holds, and all binders are identifiers. -/
def Calls (q : Name → Prop) : List Name → Term (Variable Int) → Prop
  | names, var v => ∃ (i : Nat) (x : Name), v.ix = i ∧ names[i]? = some x ∧ q x
  | _, const _ => True
  | names, binop _ l r => l.Calls q names ∧ r.Calls q names
  | names, not t => t.Calls q names
  | names, app f a => f.Calls q names ∧ a.Calls q names
  | names, bind _ x dom body => IsIdentifier x ∧ dom.Calls q names ∧ body.Calls q (x :: names)
  | names, cond t yes no => t.Calls q names ∧ yes.Calls q names ∧ no.Calls q names
  | names, ascribe t type => t.Calls q names ∧ type.Calls q names

theorem calls_widen {t : Indexed} {names : List Name} :
    t.widen.Calls q names ↔ t.Readable q anyConstant names := by
  induction t generalizing names with
  | var v =>
    constructor
    · intro calls
      obtain ⟨i, x, word, found, allowed⟩ := calls
      exact ⟨x, by rwa [atIndex?_eq word], allowed⟩
    · intro readable
      obtain ⟨x, found, allowed⟩ := readable
      obtain ⟨nonneg, found⟩ := atIndex?_eq_some.mp found
      refine ⟨v.ix.toNatClampNeg, x, ?_, found, allowed⟩
      rw [Int64.lt_iff_toInt_lt, Int64.toInt_zero] at nonneg
      rw [← Int64.toNat_toInt, Int.toNat_of_nonneg (Int.not_lt.mp nonneg)]
  | const c => exact Iff.rfl
  | not t ih => exact ih
  | bind b x dom body domIh bodyIh => exact Iff.rfl.and (domIh.and bodyIh)
  | cond t yes no testIh yesIh noIh => exact testIh.and (yesIh.and noIh)
  | binop _ _ _ left right | app _ _ left right | ascribe _ _ left right => exact left.and right

namespace Calls

theorem inScope {t : Term (Variable Int)} {names : List Name} (calls : t.Calls q names) :
    t.InScope names.length := by
  induction t generalizing names with
  | var v =>
    obtain ⟨i, x, word, found, -⟩ := calls
    have inside := (List.getElem?_eq_some_iff.mp found).1
    exact ⟨by omega, by omega⟩
  | const c => trivial
  | not t ih => exact ih calls
  | bind b x dom body domIh bodyIh => exact ⟨domIh calls.2.1, bodyIh calls.2.2⟩
  | cond t yes no testIh yesIh noIh =>
    exact ⟨testIh calls.1, yesIh calls.2.1, noIh calls.2.2⟩
  | binop _ _ _ left right | app _ _ left right | ascribe _ _ left right =>
    exact ⟨left calls.1, right calls.2⟩

theorem shift {t : Term (Variable Int)} {inner outer : List Name} (between : List Name)
    (calls : t.Calls q (inner ++ outer)) :
    (t.shift (between.length : Int) inner.length).Calls q (inner ++ (between ++ outer)) := by
  induction t generalizing inner with
  | var v =>
    obtain ⟨i, x, word, found, allowed⟩ := calls
    simp only [Term.shift, word]
    split
    · have inside : i < inner.length := by omega
      rw [List.getElem?_append_left inside] at found
      exact ⟨i, x, word, by rwa [List.getElem?_append_left inside], allowed⟩
    · have outside : inner.length ≤ i := by omega
      rw [List.getElem?_append_right outside] at found
      refine ⟨i + between.length, x, by simp, ?_, allowed⟩
      rw [List.getElem?_append_right (by omega), List.getElem?_append_right (by omega), ← found]
      congr 1
      omega
  | const c => trivial
  | not t ih => exact ih calls
  | bind b x dom body domIh bodyIh =>
    have under := @bodyIh (x :: inner) calls.2.2
    rw [List.length_cons, Int.natCast_succ] at under
    exact ⟨calls.1, domIh calls.2.1, under⟩
  | cond t yes no testIh yesIh noIh =>
    exact ⟨testIh calls.1, yesIh calls.2.1, noIh calls.2.2⟩
  | binop _ _ _ left right | app _ _ left right | ascribe _ _ left right =>
    exact ⟨left calls.1, right calls.2⟩

/-- Under the binders `inner` of the body the argument has been shifted past these and the variable
that it is put in for. -/
theorem contract {s t : Term (Variable Int)} {x : Name} {inner outer : List Name}
    (arg : s.Calls q outer) (calls : t.Calls q (inner ++ x :: outer)) :
    ((Term.subst (inner.length : Int) (s.shift (inner.length + 1 : Nat) 0) t).shift (-1)
      (inner.length : Int)).Calls q (inner ++ outer) := by
  induction t generalizing inner with
  | var v =>
    obtain ⟨i, y, word, found, allowed⟩ := calls
    simp only [Term.subst]
    split
    · have lowered : ((inner.length + 1 : Nat) : Int) + -1 = inner.length := by omega
      rw [shift_shift (by omega) (by omega), lowered]
      exact @shift q s [] outer inner arg
    · rename_i other
      simp only [Term.shift, word]
      split
      · have inside : i < inner.length := by omega
        rw [List.getElem?_append_left inside] at found
        exact ⟨i, y, word, by rwa [List.getElem?_append_left inside], allowed⟩
      · have outside : inner.length < i := by omega
        refine ⟨i - 1, y, ?_, ?_, allowed⟩
        · change (i : Int) + -1 = (i - 1 : Nat)
          omega
        · have next : i - inner.length = i - 1 - inner.length + 1 := by omega
          rw [List.getElem?_append_right (by omega), next, List.getElem?_cons_succ] at found
          rw [List.getElem?_append_right (by omega), found]
  | const c => trivial
  | not t ih => exact ih calls
  | bind b y dom body domIh bodyIh =>
    have under := @bodyIh (y :: inner) calls.2.2
    rw [List.length_cons, Int.natCast_succ (inner.length + 1),
      ← shift_shift (Int.le_refl 0) (by omega) s, Int.natCast_succ inner.length] at under
    exact ⟨calls.1, domIh calls.2.1, under⟩
  | cond t yes no testIh yesIh noIh =>
    exact ⟨testIh calls.1, yesIh calls.2.1, noIh calls.2.2⟩
  | binop _ _ _ left right | app _ _ left right | ascribe _ _ left right =>
    exact ⟨left calls.1, right calls.2⟩

end Calls

theorem Readable.part {s t : Indexed} {names : List Name} (readable : t.Readable q anyConstant names)
    (member : s ∈ t.parts) : s.Readable q anyConstant names := by
  cases t <;> simp only [parts, List.mem_cons, List.not_mem_nil, or_false] at member
  all_goals
    simp only [Readable] at readable
    grind

theorem Readable.inScope {t : Indexed} {names : List Name}
    (readable : t.Readable q anyConstant names) : t.widen.InScope names.length :=
  (calls_widen.mpr readable).inScope

theorem Readable.instantiate {s body : Indexed} {x : Name} {names : List Name}
    (arg : s.Readable q anyConstant names) (readable : body.Readable q anyConstant (x :: names))
    (room : names.length + 1 + s.depth + body.depth < 2 ^ 63) :
    (Term.instantiate s body).Readable q anyConstant names := by
  have calls := @Calls.contract q s.widen body.widen x [] names (calls_widen.mpr arg)
    (calls_widen.mpr readable)
  have same := widen_instantiate arg.inScope readable.inScope room
  exact calls_widen.mp (same ▸ calls)

theorem Readable.raise {t : Indexed} {names : List Name} {amount : Int64} (between : List Name)
    (readable : t.Readable q anyConstant names) (word : amount.toInt = between.length)
    (room : names.length + between.length + t.depth < 2 ^ 63) :
    (t.shift amount 0).Readable q anyConstant (between ++ names) := by
  have calls := @Calls.shift q t.widen [] names between (calls_widen.mpr readable)
  have zero : (0 : Int64).toInt = (0 : Nat) := Int64.toInt_zero
  have same := widen_raise readable.inScope word zero room (by omega)
  exact calls_widen.mp (same ▸ calls)

/-- The names to which the variables refer, of the scope and of the binders inside. -/
def referred (names : List Name) : Indexed → List Name
  | var v => (atIndex? names v.ix).toList
  | const _ => []
  | binop _ l r => l.referred names ++ r.referred names
  | not t => t.referred names
  | app f a => f.referred names ++ a.referred names
  | bind _ x dom body => dom.referred names ++ body.referred (x :: names)
  | cond t yes no => t.referred names ++ (yes.referred names ++ no.referred names)
  | ascribe t type => t.referred names ++ type.referred names

theorem Readable.referable {t : Indexed} {names : List Name} {p : Constant → Prop}
    (readable : t.Readable (fun x => ¬ SpellsUniverse x) p names)
    (named : wildcard ∉ t.referred names) : t.Readable Referable p names := by
  induction t generalizing names with
  | var v =>
    obtain ⟨x, found, plain⟩ := readable
    have other : x ≠ wildcard := by
      rintro rfl
      exact named (by rw [referred, found]; exact List.mem_singleton_self _)
    exact ⟨x, found, other, plain⟩
  | const c => exact readable
  | not t ih => exact ih readable named
  | bind b x dom body domIh bodyIh =>
    rw [referred, List.mem_append, not_or] at named
    exact ⟨readable.1, domIh readable.2.1 named.1, bodyIh readable.2.2 named.2⟩
  | cond t yes no testIh yesIh noIh =>
    rw [referred, List.mem_append, List.mem_append, not_or, not_or] at named
    exact ⟨testIh readable.1 named.1, yesIh readable.2.1 named.2.1, noIh readable.2.2 named.2.2⟩
  | binop _ _ _ left right | app _ _ left right | ascribe _ _ left right =>
    rw [referred, List.mem_append, not_or] at named
    exact ⟨left readable.1 named.1, right readable.2 named.2⟩

end Term

/-- What an error says about the types that it tells: they can be displayed, and they are not the
same up to names. -/
structure Apart (q : Name → Prop) (scope : List Name) (S T : Indexed) : Prop where
  identifiers : ∀ x ∈ scope, IsIdentifier x
  left : S.Readable q anyConstant scope
  right : T.Readable q anyConstant scope
  differ : ¬ Term.AlphaEq S T

def Rejection.TellsApart (q : Name → Prop) : Rejection → Prop
  | illTyped (.mismatch scope t type expected) =>
    t.Readable q anyConstant scope ∧ Apart q scope type expected
  | illTyped (.branches scope yes no) => Apart q scope yes no
  | _ => True

namespace Context

/-- The names of the context are identifiers, and each type calls names outside its own variable. -/
structure Readable (q : Name → Prop) (Γ : Context) : Prop where
  identifiers : ∀ x ∈ Γ.names, IsIdentifier x
  types : ∀ (i : Nat) (binding : Binding), Γ[i]? = some binding →
    binding.type.Readable q anyConstant (Γ.names.drop (i + 1))

theorem Readable.extend {Γ : Context} {x : Name} {dom : Indexed} (context : Γ.Readable q)
    (identifier : IsIdentifier x) (domain : dom.Readable q anyConstant Γ.names) :
    (Γ.extend x dom).Readable q where
  identifiers := List.forall_mem_cons.mpr ⟨identifier, context.identifiers⟩
  types i binding got := by
    cases i with
    | zero =>
      cases got
      exact domain
    | succ i => exact context.types i binding got

variable {fuel limit : Nat} {Γ : Context}

theorem Readable.lookup {v : Occurrence} {type : Indexed} (context : Γ.Readable q)
    (covers : Γ.Covers limit (.var v)) (room : limit + limit < 2 ^ 63)
    (found : Γ.lookup? v.ix = some type) : type.Readable q anyConstant Γ.names := by
  obtain ⟨i, binding, word, got, rfl⟩ := lookup_inv found
  have shallow := (covers.types i binding got).2
  have inside : i < Γ.length := (List.getElem?_eq_some_iff.mp got).1
  have bound := covers.depth
  have amount : (v.ix + 1).toInt = (Γ.names.take (i + 1)).length := by
    rw [Term.toInt_succ_of_fits (by omega), word, List.length_take, length_names]
    omega
  have raised := (context.types i binding got).raise (Γ.names.take (i + 1)) amount (by
    rw [List.length_drop, List.length_take, length_names]
    omega)
  rwa [List.take_append_drop] at raised

theorem normalize_readable {t : Indexed} (levels : Γ.names.length + fuel < 2 ^ 63)
    (readable : t.Readable q anyConstant Γ.names) :
    Outcome (Rejection.TellsApart q) (fun n => n.Readable q anyConstant Γ.names ∧ n.depth < fuel)
      (Γ.normalize fuel t) := by
  have shallow : Outcome (fun _ => True) (fun n => n.depth < fuel) (t.normalize fuel Γ.names) :=
    (Outcome.answered _).mono fun n normalized => normalize_depth_lt normalized
  exact ((DepCalc.normalize_readable readable levels).and shallow).mapError fun _ _ => trivial

/-- Terms that are the same up to names are never found different. -/
theorem convertible_apart (s t : Indexed) :
    Outcome (Rejection.TellsApart q) (fun answer => answer = false → ¬ Term.AlphaEq s t)
      (Γ.convertible fuel s t) := by
  have compared : Outcome (fun _ => True) (fun answer => answer = false → ¬ Term.AlphaEq s t)
      (s.convertible fuel Γ.names t) := by
    refine (Outcome.answered _).bind fun n left => ?_
    refine (Outcome.answered _).bind fun m right => ?_
    intro different same
    have alike := same.normalize_alike fuel (rfl : Γ.names.length = Γ.names.length)
    rw [left, right] at alike
    exact of_decide_eq_false different alike
  exact compared.mapError fun _ _ => trivial

theorem equate_apart {s t : Indexed} {cause : TypeError}
    (told : ¬ Term.AlphaEq s t → (Rejection.illTyped cause).TellsApart q) :
    Outcome (Rejection.TellsApart q) (fun _ => True) (Γ.equate fuel s t cause) := by
  refine (convertible_apart s t).bind fun answer differ => ?_
  cases answer with
  | true => trivial
  | false => exact told (differ rfl)

theorem universeLevel_apart {t type : Indexed} (levels : Γ.names.length + fuel < 2 ^ 63)
    (found : type.Readable q anyConstant Γ.names) :
    Outcome (Rejection.TellsApart q) (fun _ => True) (Γ.universeLevel fuel t type) := by
  refine (normalize_readable levels found).bind fun n _ => ?_
  split <;> trivial

theorem functionType_apart {f type : Indexed} (levels : Γ.names.length + fuel < 2 ^ 63)
    (found : type.Readable q anyConstant Γ.names) :
    Outcome (Rejection.TellsApart q)
      (fun p => p.1.Readable q anyConstant Γ.names ∧
        (∃ x, p.2.Readable q anyConstant (x :: Γ.names)) ∧ p.2.depth < fuel)
      (Γ.functionType fuel f type) := by
  refine (normalize_readable levels found).bind fun n holds => ?_
  obtain ⟨normal, bound⟩ := holds
  split
  · rename_i x dom cod
    simp only [Term.depth] at bound
    have shallow : cod.depth < fuel := by omega
    exact ⟨normal.2.1, ⟨x, normal.2.2⟩, shallow⟩
  · trivial

theorem variableType_apart {v : Occurrence} (context : Γ.Readable q)
    (covers : Γ.Covers limit (.var v)) (room : limit + limit < 2 ^ 63) :
    Outcome (Rejection.TellsApart q) (Term.Readable q anyConstant Γ.names) (Γ.variableType v) := by
  unfold variableType
  cases found : Γ.lookup? v.ix with
  | none => trivial
  | some type => exact context.lookup covers room found

theorem app_readable {f a cod : Indexed} {x : Name} (room : limit + max limit fuel < 2 ^ 63)
    (covers : Γ.Covers limit (.app f a)) (readable : (Term.app f a).Readable q anyConstant Γ.names)
    (codomain : cod.Readable q anyConstant (x :: Γ.names)) (shallow : cod.depth < fuel) :
    (Term.instantiate a cod).Readable q anyConstant Γ.names := by
  have depth := covers.depth
  simp only [Term.depth] at depth
  apply readable.2.instantiate codomain
  rw [length_names]
  omega

/-- Inference hands on types in which each variable is called by the name of its binder, and those are
the types it tells when it fails. -/
abbrev telling (q : Name → Prop) (limit fuel : Nat) : Account where
  Before Γ t := Γ.Covers limit t ∧ Γ.Readable q ∧ t.Readable q anyConstant Γ.names
  After Γ _ type := type.Readable q anyConstant Γ.names
  Wanted Γ _ expected := expected.Readable q anyConstant Γ.names
  Meets _ _ _ := True
  Level _ _ _ := True
  Function Γ _ _ dom cod := dom.Readable q anyConstant Γ.names ∧
    (∃ x, cod.Readable q anyConstant (x :: Γ.names)) ∧ cod.depth < fuel

theorem telling_holds (room : limit + max limit fuel < 2 ^ 63) :
    (telling q limit fuel).Holds (.outcome fuel (Rejection.TellsApart q)) where
  part ready member := ⟨ready.1.part member, ready.2.1, ready.2.2.part member⟩
  body ready _ := ⟨ready.1.under, ready.2.1.extend ready.2.2.1 ready.2.2.2.1, ready.2.2.2.2⟩
  operand _ _ := trivial
  argument _ function := function.1
  ascribed ready := ready.2.2.2
  expect ready found wanted := equate_apart fun differ =>
    ⟨ready.2.2, ready.2.1.identifiers, found, wanted, differ⟩
  function ready found := functionType_apart (ready.1.levels room) found
  domain ready found := universeLevel_apart (ready.1.levels room) found
  codomain _ _ ready found := universeLevel_apart (ready.1.levels room) found
  branches ready _ yes no := by
    refine Outcome.mono (equate_apart fun differ => ?_) fun _ _ => yes
    exact ⟨ready.2.1.identifiers, yes, no, differ⟩
  var ready := variableType_apart ready.2.1 ready.1 (by omega)
  const _ := trivial
  binop _ _ _ := trivial
  not _ _ := trivial
  app ready function _ := function.2.1.elim fun _ codomain =>
    app_readable room ready.1 ready.2.2 codomain function.2.2
  lam ready _ under := ⟨ready.2.2.1, ready.2.2.2.1, under⟩
  form _ _ _ _ := trivial
  ascribe ready _ := ready.2.2.2

theorem infer_apart (room : limit + max limit fuel < 2 ^ 63) {t : Indexed}
    (covers : Γ.Covers limit t) (context : Γ.Readable q)
    (readable : t.Readable q anyConstant Γ.names) :
    Outcome (Rejection.TellsApart q) (Term.Readable q anyConstant Γ.names) (Γ.infer fuel t) :=
  (telling_holds room).infer ⟨covers, context, readable⟩

end Context

/-- The error tells two types that were compared in a scope. -/
inductive TypeError.Compares : TypeError → List Name → Indexed → Indexed → Prop
  | mismatch (scope : List Name) (t type expected : Indexed) :
      Compares (.mismatch scope t type expected) scope type expected
  | branches (scope : List Name) (yes no : Indexed) : Compares (.branches scope yes no) scope yes no

/-- The message of the error has the two texts in the places of the types. -/
def TypeError.Shows (e : TypeError) (type expected : String) : Prop :=
  (∃ t, e.message = .ok (t ++ " has type " ++ type ++ " but expected " ++ expected)) ∨
    e.message = .ok ("branches of conditional have different types " ++ type ++ " and " ++ expected)

theorem TypeError.shows_of_tellsApart {e : TypeError} {scope : List Name} {S T : Indexed}
    (compares : e.Compares scope S T)
    (apart : (Rejection.illTyped e).TellsApart fun x => ¬ SpellsUniverse x) :
    Apart (fun x => ¬ SpellsUniverse x) scope S T ∧
      e.Shows (S.render scope Tier.term) (T.render scope Tier.term) := by
  cases compares with
  | mismatch scope t type expected =>
    obtain ⟨term, apart⟩ := apart
    refine ⟨apart, .inl ⟨t.render scope Tier.term, ?_⟩⟩
    rw [message, Term.Legible.display term, Term.Legible.display apart.left,
      Term.Legible.display apart.right]
    rfl
  | branches =>
    refine ⟨apart, .inr ?_⟩
    rw [message, Term.Legible.display apart.left, Term.Legible.display apart.right]
    rfl

namespace Program

variable {fuel : Nat} {options : Options} {text : List Char}

def Error.TellsApart (q : Name → Prop) : Error → Prop
  | illTyped e => (Rejection.illTyped e).TellsApart q
  | _ => True

theorem run_apart (textual : options.textualNames = true)
    (room : ∀ surface, Source.parse text = .ok surface →
      surface.depth + max surface.depth fuel < 2 ^ 63) :
    Outcome (Error.TellsApart fun x => ¬ SpellsUniverse x) (fun _ => True)
      (run fuel options text) := by
  have matching : options.matching = .textual := by rw [Options.matching, if_pos textual]
  unfold run
  rw [matching]
  cases parsed : Source.parse text with
  | error e => trivial
  | ok surface =>
    have fits := room surface parsed
    have spelled : surface.Spelled (fun x => ¬ SpellsUniverse x) Constant.Writable :=
      Source.parse_spelled parsed fun _ _ _ _ plain => plain
    have outer : Scope.Within 0 [] := fun _ member => absurd member List.not_mem_nil
    have resolves : Outcome (fun _ => True)
        (fun t => t.Readable (fun x => ¬ SpellsUniverse x) Constant.Writable [] ∧
          t.widen.InScope 0 ∧ t.depth = surface.depth) (surface.resolve .textual []) :=
      (Term.resolve_readable spelled (by rw [List.length_nil]; omega)).and
        (Term.resolve_closes outer (by omega))
    refine (resolves.mapError fun _ _ => trivial).bind fun t holds => ?_
    obtain ⟨readable, closed, sameDepth⟩ := holds
    have covers : Context.Covers [] surface.depth t :=
      ⟨fun _ _ got => by simp at got, closed, by simp [sameDepth]⟩
    have context : Context.Readable (fun x => ¬ SpellsUniverse x) [] :=
      ⟨fun _ member => absurd member List.not_mem_nil, fun _ _ got => by simp at got⟩
    have infers : Outcome (Error.TellsApart fun x => ¬ SpellsUniverse x) (fun _ => True)
        ((Context.infer fuel [] t).mapError Error.ofRejection) :=
      ((Context.infer_apart fits covers context readable.any).mono fun _ _ => trivial).mapError
        fun e told => by cases e <;> exact told
    have normalizes : ∀ u : Indexed, Outcome (Error.TellsApart fun x => ¬ SpellsUniverse x)
        (fun _ => True) ((u.normalize fuel []).mapError Error.halted) := fun u =>
      ((Outcome.answered _).mono fun _ _ => trivial).mapError fun _ _ => trivial
    refine infers.bind fun inferred _ => ?_
    exact (normalizes inferred).bind fun _ _ => (normalizes t).bind fun _ _ => trivial

/-- The two types of an error are displayed, and they are not the same up to names. If their texts are
the same, the types differ only in variables that refer to one name at two places of the scope, or to
two wildcards. The texts differ, then, if no name but the wildcard stands twice in the scope and no
variable of one of the types refers to a wildcard. -/
theorem mismatch_texts {scope : List Name} {S T : Indexed} {e : TypeError}
    (textual : options.textualNames = true)
    (room : ∀ surface, Source.parse text = .ok surface →
      surface.depth + max surface.depth fuel < 2 ^ 63)
    (failed : run fuel options text = .error (.illTyped e)) (compares : e.Compares scope S T) :
    ∃ s s', S.display scope = .ok s ∧ T.display scope = .ok s' ∧ e.Shows s s' ∧
      ¬ Term.AlphaEq S T ∧ (s = s' → Term.Lookalike (scope.map some) S T) ∧
      (Unshadowed scope →
        wildcard ∉ S.referred scope ∨ wildcard ∉ T.referred scope → s ≠ s') := by
  have told := (run_apart textual room).of_eq_error failed
  obtain ⟨apart, shows⟩ := TypeError.shows_of_tellsApart compares told
  have alike (same : S.render scope Tier.term = T.render scope Tier.term) :
      Term.Lookalike (scope.map some) S T :=
    .of_render apart.identifiers apart.left apart.right same
  have left := Term.Legible.display apart.left scope
  have right := Term.Legible.display apart.right scope
  refine ⟨_, _, left, right, shows, apart.differ, alike, fun distinct named same =>
    apart.differ ?_⟩
  have referable := named.imp apart.left.referable apart.right.referable
  exact (alike same).alphaEq_of_either (.context distinct) referable

/-- The branches of a conditional have a type of the context and another type. -/
theorem mismatch_texts_branches :
    run 9 ⟨true, false⟩ "λA:Type. λa:A. if True then a else 1".toList =
        .error (.illTyped (.branches ["a", "A"] (.var ⟨"A", 1⟩) (.const .intType))) ∧
      ∃ s s', Term.display ["a", "A"] (.var ⟨"A", 1⟩) = .ok s ∧
        Term.display ["a", "A"] (.const .intType) = .ok s' ∧ s ≠ s' := by
  have parsed : Source.parse "λA:Type. λa:A. if True then a else 1".toList =
      .ok (.bind .lam "A" (.const (.univ 0)) (.bind .lam "a" (.var "A")
        (.cond (.const (.bool true)) (.var "a") (.const (.int 1))))) := by
    decide +kernel
  have failed : run 9 ⟨true, false⟩ "λA:Type. λa:A. if True then a else 1".toList =
      .error (.illTyped (.branches ["a", "A"] (.var ⟨"A", 1⟩) (.const .intType))) := by
    rw [run, parsed]
    rfl
  have room : ∀ surface, Source.parse "λA:Type. λa:A. if True then a else 1".toList = .ok surface →
      surface.depth + max surface.depth 9 < 2 ^ 63 := fun surface other => by
    rw [parsed] at other
    cases other
    decide
  obtain ⟨s, s', left, right, -, -, -, differ⟩ := mismatch_texts rfl room failed (.branches _ _ _)
  have distinct : Unshadowed ["a", "A"] := by
    unfold Unshadowed
    decide
  exact ⟨failed, s, s', left, right, differ distinct (.inl (by decide))⟩

/-- The argument of a function whose domain is an outer variable of the same name. -/
def namesakeMismatch : TypeError :=
  .mismatch ["a", "A", "f", "A"] (.var ⟨"a", 0⟩) (.var ⟨"A", 1⟩) (.var ⟨"A", 3⟩)

/-- A name that stands twice in the scope is displayed alike at both places: the names of the scope are
taken as they are. -/
theorem run_namesake_mismatch :
    run 9 ⟨true, false⟩ "\\A:Type. \\f:A -> Int. \\A:Type. \\a:A. f a".toList =
        .error (.illTyped namesakeMismatch) ∧
      namesakeMismatch.Compares ["a", "A", "f", "A"] (.var ⟨"A", 1⟩) (.var ⟨"A", 3⟩) ∧
      wildcard ∉ Term.referred ["a", "A", "f", "A"] (.var ⟨"A", 1⟩) ∧
      namesakeMismatch.message = .ok "a has type A but expected A" :=
  ⟨by decide +kernel, .mismatch _ _ _ _, by decide, by decide⟩

/-- The argument of a function whose domain is another variable without a name. -/
def anonymousMismatch : TypeError :=
  .mismatch ["a", "_", "f", "_"] (.var ⟨"a", 0⟩) (.var ⟨"_", 1⟩) (.var ⟨"_", 3⟩)

/-- The two types of the error are displayed alike. -/
theorem run_anonymous_mismatch :
    run 9 ⟨true, false⟩ "\\_:Type. \\f:_ -> Int. \\_:Type. \\a:_. f a".toList =
        .error (.illTyped anonymousMismatch) ∧
      anonymousMismatch.Compares ["a", "_", "f", "_"] (.var ⟨"_", 1⟩) (.var ⟨"_", 3⟩) ∧
      Term.display ["a", "_", "f", "_"] (.var ⟨"_", 1⟩) = .ok "_" ∧
      Term.display ["a", "_", "f", "_"] (.var ⟨"_", 3⟩) = .ok "_" ∧
      anonymousMismatch.message = .ok "a has type _ but expected _" :=
  ⟨by decide +kernel, .mismatch _ _ _ _, by decide, by decide, by decide⟩

end Program
end DepCalc

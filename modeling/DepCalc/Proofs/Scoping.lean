import DepCalc.Program
import DepCalc.Proofs.Inference
import DepCalc.Proofs.Parts
import DepCalc.Proofs.Source.Parsing

/-!
Programs are closed. Resolution gives every variable the index of a binder around it, and whatever is
evaluated, read back, inferred or instantiated from there on stays in scope, the types of ascriptions
included, which nobody checks. So no variable is ever missed, and what is displayed in the end shows
the names of binders only. This does not ask for types; what it asks for is that no index wraps
around.
-/
namespace DepCalc

/-- Indices that refer to a variable in scope. -/
def Parts.inScope : Parts where
  constant _ := True
  index n ix := ¬ Beyond n ix
  int _ := trivial
  bool _ := trivial

theorem Term.all_inScope {n : Nat} {t : Indexed} : t.All .inScope n ↔ t.widen.InScope n := by
  induction t generalizing n with
  | var v =>
    simp only [All, Parts.inScope, Beyond, widen, InScope]
    omega
  | const => rfl
  | not t ih => exact ih
  | bind b x dom body domIh bodyIh => exact and_congr domIh bodyIh
  | cond t yes no ihT ihY ihN => exact and_congr ihT (and_congr ihY ihN)
  | binop _ _ _ left right | app _ _ left right | ascribe _ _ left right =>
    exact and_congr left right

theorem Term.inScope_part {n : Nat} {s t : Indexed} (closed : t.widen.InScope n)
    (member : s ∈ t.parts) : s.widen.InScope n := by
  cases t <;> simp only [parts, List.mem_cons, List.not_mem_nil, or_false] at member
  all_goals
    simp only [widen, InScope] at closed
    grind

theorem Term.exists_atIndex? {α : Type} {v : Occurrence} {entries : List α}
    (closed : (var v).widen.InScope entries.length) : ∃ entry, atIndex? entries v.ix = some entry := by
  cases found : atIndex? entries v.ix with
  | some entry => exact ⟨entry, rfl⟩
  | none =>
    obtain ⟨low, high⟩ := closed
    rcases beyond_of_atIndex? found with negative | outside
    · exact absurd low (Int.not_le.mpr negative)
    · exact absurd high (Int.not_lt.mpr outside)

/-- A variable has not been found. -/
def Halt.MissesVariable : Halt → Prop
  | indexOutOfRange .. | outOfScope .. => True
  | _ => False

theorem Parts.inScope_explains {h : Halt} (explains : Parts.inScope.Explains h) :
    ¬ h.MissesVariable := by
  cases h with
  | indexOutOfRange ix size => exact fun _ => explains.1 explains.2
  | outOfScope x bound level => exact fun _ => explains
  | _ => exact id

theorem quote_finds (fuel : Nat) :
    (∀ {level : Nat} {v : Value}, level + fuel < 2 ^ 63 → v.Sound level →
      v.All .inScope anyVariable →
      Outcome (¬ ·.MissesVariable) (fun _ => True) (v.quote fuel (Int64.ofNat level))) ∧
    (∀ {level : Nat} {n : Neutral}, level + fuel < 2 ^ 63 → n.Sound level →
      n.All .inScope anyVariable →
      Outcome (¬ ·.MissesVariable) (fun _ => True) (n.quote fuel (Int64.ofNat level))) := by
  induction fuel with
  | zero => exact ⟨fun _ _ _ => id, fun _ _ _ => id⟩
  | succ fuel ih =>
    obtain ⟨value, neutral⟩ := ih
    constructor
    · intro level v room sound all
      have less : level + fuel < 2 ^ 63 := by omega
      cases v with
      | const c => trivial
      | neutral n => exact neutral less sound all
      | bind b dom x env body =>
        simp only [Value.quote, ofNat_succ]
        have opening := sound.2.fresh x (by omega)
        have inside : Env.All .inScope anyVariable (Value.fresh x (Int64.ofNat (level + 1)) :: env) :=
          ⟨trivial, all.2.1⟩
        have evaluated : Outcome (¬ ·.MissesVariable) (Value.All .inScope anyVariable)
            (eval fuel (Value.fresh x (Int64.ofNat (level + 1)) :: env) body) :=
          (eval_parts inside all.2.2).mono_error fun _ => Parts.inScope_explains
        apply (value less sound.1 all.1).bind
        intro d _
        apply (evaluated.and (eval_represents opening body)).bind
        rintro opened ⟨openedAll, openedSound, -⟩
        exact (value (by omega) openedSound openedAll).bind fun _ _ => trivial
    · intro level n room sound all
      have less : level + fuel < 2 ^ 63 := by omega
      cases n with
      | var x bound =>
        have index := toInt_level_sub sound.1 sound.2 (by omega)
        have inside : bound.toInt ≤ level := sound.2
        simp only [Neutral.quote, Int64.lt_iff_toInt_lt, index]
        rw [if_neg (by simp only [Int64.toInt_zero]; omega)]
        trivial
      | not n => exact (neutral (n := n) less sound all).bind fun _ _ => trivial
      | binop op l r =>
        exact (value less sound.1 all.1).bind fun _ _ =>
          (value less sound.2.1 all.2).bind fun _ _ => trivial
      | app f a =>
        exact (neutral less sound.1 all.1).bind fun _ _ =>
          (value less sound.2 all.2).bind fun _ _ => trivial
      | cond t y n =>
        exact (neutral less sound.1 all.1).bind fun _ _ =>
          (value less sound.2.1 all.2.1).bind fun _ _ =>
            (value less sound.2.2 all.2.2).bind fun _ _ => trivial

/-- Normalisation finds the variables of a term whose variables are in scope, and its result is such
a term again. -/
theorem normalize_finds {fuel : Nat} {scope : List Name} {t : Indexed}
    (levels : scope.length + fuel < 2 ^ 63) (closed : t.widen.InScope scope.length) :
    Outcome (¬ ·.MissesVariable) (fun n => n.widen.InScope scope.length ∧ n.depth < fuel)
      (t.normalize fuel scope) := by
  have fits : scope.length < 2 ^ 63 := by omega
  have finds : Outcome (¬ ·.MissesVariable) (fun _ => True) (t.normalize fuel scope) := by
    have values : Env.All .inScope anyVariable (Env.ofNames scope) := .ofNames
    have all : t.All .inScope (Env.ofNames scope).length := by
      rwa [length_ofNames, Term.all_inScope]
    have evaluated : Outcome (¬ ·.MissesVariable) (Value.All .inScope anyVariable)
        (eval fuel (Env.ofNames scope) t) :=
      (eval_parts values all).mono_error fun _ => Parts.inScope_explains
    apply (evaluated.and (eval_represents (.ofNames fits) t)).bind
    rintro v ⟨valueAll, valueSound, -⟩
    exact (quote_finds fuel).1 levels valueSound valueAll
  apply finds.of_answer
  cases normalized : t.normalize fuel scope with
  | error h => trivial
  | ok n =>
    have bound := normalize_depth_lt normalized
    exact ⟨(normalize_reads normalized (by omega)).inScope, bound⟩

/-- A variable has not been found, in a term or in one of the types that were normalised for it. -/
def Rejection.MissesVariable : Rejection → Prop
  | halted h => h.MissesVariable
  | illTyped (.unknownVariable _) => True
  | illTyped _ => False

namespace Context

/-- The variables of the term and of the types of the context are in scope, and neither is nested
more deeply than `limit` allows. -/
structure Covers (Γ : Context) (limit : Nat) (t : Indexed) : Prop where
  types : ∀ (i : Nat) (binding : Binding), Γ[i]? = some binding →
    binding.type.widen.InScope (Γ.length - (i + 1)) ∧ binding.type.depth ≤ limit
  term : t.widen.InScope Γ.length
  depth : Γ.length + t.depth ≤ limit

namespace Covers

variable {Γ : Context} {limit : Nat} {t : Indexed}

theorem part {u : Indexed} (covers : Γ.Covers limit t) (member : u ∈ t.parts) : Γ.Covers limit u := by
  have shallower := Term.depth_le_of_mem_parts member
  exact ⟨covers.types, Term.inScope_part covers.term member,
    Nat.le_trans (Nat.add_le_add_left shallower _) covers.depth⟩

theorem under {b : Binder} {x : Name} {dom body : Indexed}
    (covers : Γ.Covers limit (.bind b x dom body)) : (Γ.extend x dom).Covers limit body := by
  obtain ⟨types, term, depth⟩ := covers
  simp only [Term.depth] at depth
  have shallow : dom.depth ≤ limit := by omega
  refine ⟨?_, term.2, ?_⟩
  · intro i binding got
    cases i with
    | zero =>
      cases got
      exact ⟨term.1, shallow⟩
    | succ i =>
      have outer := types i binding (by simpa [extend] using got)
      rwa [extend, List.length_cons, Nat.add_sub_add_right]
  · simp only [extend, List.length_cons]
    omega

theorem levels {fuel : Nat} (covers : Γ.Covers limit t) (room : limit + max limit fuel < 2 ^ 63) :
    Γ.names.length + fuel < 2 ^ 63 := by
  have depth := covers.depth
  rw [length_names]
  omega

theorem const {c : Constant} {more : Nat} (covers : Γ.Covers limit t) :
    (Term.const c : Indexed).widen.InScope Γ.length ∧
      Γ.length + (Term.const c : Indexed).depth ≤ limit + more := by
  have depth := covers.depth
  simp only [Term.depth]
  exact ⟨trivial, by omega⟩

/-- The type found for a variable is in scope once it is shifted into the whole context. -/
theorem lookup {v : Occurrence} {type : Indexed} (covers : Γ.Covers limit (.var v))
    (room : limit + limit < 2 ^ 63) (found : Γ.lookup? v.ix = some type) :
    type.widen.InScope Γ.length ∧ type.depth ≤ limit := by
  obtain ⟨i, binding, word, got, rfl⟩ := lookup_inv found
  obtain ⟨closed, shallow⟩ := covers.types i binding got
  have inside : i < Γ.length := (List.getElem?_eq_some_iff.mp got).1
  have bound := covers.depth
  have amount : (v.ix + 1).toInt = (i + 1 : Nat) := by
    rw [Term.toInt_succ_of_fits (by omega), word, Int.natCast_succ]
  have total : Γ.length - (i + 1) + (i + 1) = Γ.length := by omega
  rw [Term.widen_shift closed (by omega) (by omega) (by simp only [Int64.toInt_zero]; omega), amount,
    Term.depth_shift]
  have shifted := closed.shift (d := i + 1) (0 : Int64).toInt
  rw [total] at shifted
  exact ⟨shifted, shallow⟩

end Covers

variable {fuel : Nat} {Γ : Context}

theorem normalize_finds {t : Indexed} (levels : Γ.names.length + fuel < 2 ^ 63)
    (closed : t.widen.InScope Γ.length) :
    Outcome (¬ ·.MissesVariable) (fun n => n.widen.InScope Γ.length ∧ n.depth < fuel)
      (Γ.normalize fuel t) := by
  rw [← length_names] at closed ⊢
  exact (DepCalc.normalize_finds levels closed).mapError fun _ found => found

theorem convertible_finds {s t : Indexed} (levels : Γ.names.length + fuel < 2 ^ 63)
    (left : s.widen.InScope Γ.length) (right : t.widen.InScope Γ.length) :
    Outcome (¬ ·.MissesVariable) (fun _ => True) (Γ.convertible fuel s t) := by
  rw [← length_names] at left right
  have compared : Outcome (¬ ·.MissesVariable) (fun _ => True) (s.convertible fuel Γ.names t) :=
    (DepCalc.normalize_finds levels left).bind fun _ _ =>
      (DepCalc.normalize_finds levels right).bind fun _ _ => trivial
  exact compared.mapError fun _ found => found

theorem equate_finds {s t : Indexed} {cause : TypeError} (levels : Γ.names.length + fuel < 2 ^ 63)
    (left : s.widen.InScope Γ.length) (right : t.widen.InScope Γ.length)
    (other : ¬ (Rejection.illTyped cause).MissesVariable) :
    Outcome (¬ ·.MissesVariable) (fun _ => True) (Γ.equate fuel s t cause) := by
  apply (convertible_finds levels left right).bind
  intro answer _
  cases answer with
  | true => trivial
  | false => exact other

theorem universeLevel_finds {t type : Indexed} (levels : Γ.names.length + fuel < 2 ^ 63)
    (closed : type.widen.InScope Γ.length) :
    Outcome (¬ ·.MissesVariable) (fun _ => True) (Γ.universeLevel fuel t type) := by
  apply (normalize_finds levels closed).bind
  intro n _
  split
  · trivial
  · exact id

theorem functionType_finds {f type : Indexed} (levels : Γ.names.length + fuel < 2 ^ 63)
    (closed : type.widen.InScope Γ.length) :
    Outcome (¬ ·.MissesVariable)
      (fun p => p.1.widen.InScope Γ.length ∧ p.2.widen.InScope (Γ.length + 1) ∧ p.2.depth < fuel)
      (Γ.functionType fuel f type) := by
  apply (normalize_finds levels closed).bind
  rintro n ⟨normalClosed, bound⟩
  split
  · rename_i x dom cod
    simp only [Term.depth] at bound
    have inside : cod.depth < fuel := by omega
    exact ⟨normalClosed.1, normalClosed.2, inside⟩
  · exact id

theorem variableType_finds {limit : Nat} {v : Occurrence} (room : limit + limit < 2 ^ 63)
    (covers : Γ.Covers limit (.var v)) :
    Outcome (¬ ·.MissesVariable) (fun type => type.widen.InScope Γ.length ∧ type.depth ≤ limit)
      (Γ.variableType v) := by
  unfold variableType
  cases found : Γ.lookup? v.ix with
  | none =>
    obtain ⟨binding, got⟩ := Term.exists_atIndex? covers.term
    rw [lookup?, got] at found
    cases found
  | some type => exact covers.lookup room found

/-- Inference finds the variables of the term, and those of the types it has normalised on the way.
The inferred type is in scope again; together with the context it is nested at most as deeply as a
type of the context inside the whole term, or as a normal form with the argument put into it. -/
abbrev finding (limit fuel : Nat) : Account where
  Before Γ t := Γ.Covers limit t
  After Γ _ type := type.widen.InScope Γ.length ∧ Γ.length + type.depth ≤ limit + max limit fuel
  Wanted Γ _ expected := expected.widen.InScope Γ.length
  Meets _ _ _ := True
  Level _ _ _ := True
  Function Γ _ _ dom cod :=
    dom.widen.InScope Γ.length ∧ cod.widen.InScope (Γ.length + 1) ∧ cod.depth < fuel

theorem finding_holds {limit : Nat} (room : limit + max limit fuel < 2 ^ 63) :
    (finding limit fuel).Holds (.outcome fuel (¬ ·.MissesVariable)) where
  part covers member := covers.part member
  body covers _ := covers.under
  operand _ _ := trivial
  argument _ function := function.1
  ascribed covers := covers.term.2
  expect covers after wanted := equate_finds (covers.levels room) after.1 wanted id
  function covers after := functionType_finds (covers.levels room) after.1
  domain covers after := universeLevel_finds (covers.levels room) after.1
  codomain _ _ covers after := universeLevel_finds (covers.levels room) after.1
  branches covers _ yes no :=
    (equate_finds (covers.levels room) yes.1 no.1 id).mono fun _ _ => yes
  var covers := by
    have depth := covers.depth
    apply (variableType_finds (by omega) covers).mono
    rintro type ⟨closed, shallow⟩
    simp only [Term.depth] at depth
    exact ⟨closed, by omega⟩
  const covers := covers.const
  binop covers _ _ := covers.const
  not covers _ := covers.const
  app := by
    intro Γ f a dom cod covers function _
    obtain ⟨-, closed, bound⟩ := function
    have depth := covers.depth
    have size := Term.depth_instantiate_le a cod
    simp only [Term.depth] at depth
    refine ⟨?_, by omega⟩
    rw [Term.widen_instantiate covers.term.2 closed (by omega)]
    exact Term.InScope.instantiate covers.term.2 closed
  lam covers _ under := by
    have depth := covers.depth
    have bodyDepth := under.2
    simp only [extend, List.length_cons] at bodyDepth
    simp only [Term.depth] at depth ⊢
    exact ⟨⟨covers.term.1, under.1⟩, by omega⟩
  form _ covers _ _ := covers.const
  ascribe covers _ := by
    have depth := covers.depth
    simp only [Term.depth] at depth
    exact ⟨covers.term.2, by omega⟩

theorem infer_finds {limit : Nat} (room : limit + max limit fuel < 2 ^ 63) {t : Indexed}
    (covers : Γ.Covers limit t) :
    Outcome (¬ ·.MissesVariable)
      (fun type => type.widen.InScope Γ.length ∧ Γ.length + type.depth ≤ limit + max limit fuel)
      (Γ.infer fuel t) :=
  (finding_holds room).infer covers

end Context

/-- Every entry has the index of one of `n` binders. -/
def Scope.Within (n : Nat) (scope : Scope) : Prop :=
  ∀ e ∈ scope, 0 ≤ e.ix.toInt ∧ e.ix.toInt < n

theorem Scope.Within.lift {n : Nat} {scope : Scope} (within : scope.Within n) (room : n < 2 ^ 63)
    (x : Name) : (scope.lift x).Within (n + 1) := by
  intro e member
  rcases List.mem_cons.mp member with rfl | further
  · simp only [Int64.toInt_zero]
    omega
  · obtain ⟨outer, place, rfl⟩ := List.mem_map.mp further
    obtain ⟨low, high⟩ := within outer place
    simp only [Term.toInt_succ_of_fits (by omega : outer.ix.toInt + 1 < 2 ^ 63)]
    omega

/-- However names are matched, a variable gets the index of a binder around it. -/
theorem Term.resolve_closes {how : Matching} {n : Nat} {scope : Scope} {s : Surface}
    (within : scope.Within n) (room : n + s.depth < 2 ^ 63) :
    Outcome (fun _ => True) (fun t => t.widen.InScope n ∧ t.depth = s.depth)
      (s.resolve how scope) := by
  induction s generalizing n scope with
  | var x =>
    unfold resolve Scope.lookup
    cases found : scope.find? fun e => how.refersTo x e.name with
    | none => trivial
    | some e => exact ⟨within e (List.mem_of_find?_eq_some found), rfl⟩
  | const c => exact ⟨trivial, rfl⟩
  | binop op l r left right =>
    simp only [depth] at room
    apply (left within (by omega)).bind
    rintro l' ⟨leftClosed, leftDepth⟩
    apply (right within (by omega)).bind
    rintro r' ⟨rightClosed, rightDepth⟩
    exact ⟨⟨leftClosed, rightClosed⟩, by simp only [depth, leftDepth, rightDepth]⟩
  | not t operand =>
    apply (operand within room).bind
    rintro t' ⟨closed, sameDepth⟩
    exact ⟨closed, sameDepth⟩
  | app f a fn arg =>
    simp only [depth] at room
    apply (fn within (by omega)).bind
    rintro f' ⟨fnClosed, fnDepth⟩
    apply (arg within (by omega)).bind
    rintro a' ⟨argClosed, argDepth⟩
    exact ⟨⟨fnClosed, argClosed⟩, by simp only [depth, fnDepth, argDepth]⟩
  | bind b x dom body domain under =>
    simp only [depth] at room
    apply (domain within (by omega)).bind
    rintro dom' ⟨domClosed, domDepth⟩
    apply (under (within.lift (by omega) x) (by omega)).bind
    rintro body' ⟨bodyClosed, bodyDepth⟩
    exact ⟨⟨domClosed, bodyClosed⟩, by simp only [depth, domDepth, bodyDepth]⟩
  | cond t y e test yes no =>
    simp only [depth] at room
    apply (test within (by omega)).bind
    rintro t' ⟨testClosed, testDepth⟩
    apply (yes within (by omega)).bind
    rintro y' ⟨yesClosed, yesDepth⟩
    apply (no within (by omega)).bind
    rintro e' ⟨noClosed, noDepth⟩
    exact ⟨⟨testClosed, yesClosed, noClosed⟩, by simp only [depth, testDepth, yesDepth, noDepth]⟩
  | ascribe t type subject ascribed =>
    simp only [depth] at room
    apply (subject within (by omega)).bind
    rintro t' ⟨subjectClosed, subjectDepth⟩
    apply (ascribed within (by omega)).bind
    rintro type' ⟨typeClosed, typeDepth⟩
    exact ⟨⟨subjectClosed, typeClosed⟩, by simp only [depth, subjectDepth, typeDepth]⟩

namespace Term

/-- The term with other names in its variables; those of its binders stay. -/
def renamed (name : Occurrence → Name) : Indexed → Indexed
  | var v => var ⟨name v, v.ix⟩
  | const c => const c
  | binop op l r => binop op (l.renamed name) (r.renamed name)
  | not t => not (t.renamed name)
  | app f a => app (f.renamed name) (a.renamed name)
  | bind b x dom body => bind b x (dom.renamed name) (body.renamed name)
  | cond t yes no => cond (t.renamed name) (yes.renamed name) (no.renamed name)
  | ascribe t type => ascribe (t.renamed name) (type.renamed name)

/-- Where all variables are in scope, the names that they carry are never displayed. -/
theorem render_renamed (name : Occurrence → Name) {scope : List Name} {t : Indexed} {limit : Nat}
    (closed : t.widen.InScope scope.length) :
    (t.renamed name).render scope limit = t.render scope limit := by
  induction t generalizing scope limit with
  | var v =>
    obtain ⟨x, found⟩ := exists_atIndex? closed
    simp only [renamed, render, found, Option.getD_some]
  | const c => rfl
  | binop op l r left right => simp only [renamed, render, left closed.1, right closed.2]
  | not t operand =>
    have inside : t.widen.InScope scope.length := closed
    simp only [renamed, render, operand inside]
  | app f a fn arg => simp only [renamed, render, fn closed.1, arg closed.2]
  | bind b x dom body domain under =>
    have inside : body.widen.InScope (freshen scope x :: scope).length := closed.2
    simp only [renamed, render, domain closed.1, under inside]
  | cond t y n test yes no =>
    simp only [renamed, render, test closed.1, yes closed.2.1, no closed.2.2]
  | ascribe t type subject ascribed =>
    simp only [renamed, render, subject closed.1, ascribed closed.2]

theorem InScope.negativeIndex? {k : Nat} {t : Indexed} (closed : t.widen.InScope k) :
    t.negativeIndex? = none := by
  induction t generalizing k with
  | var v =>
    have nonneg : ¬ v.ix < 0 := by
      rw [Int64.lt_iff_toInt_lt]
      exact Int.not_lt.mpr closed.1
    rw [Term.negativeIndex?, if_neg nonneg]
  | const c => rfl
  | not t operand => exact operand closed
  | binop _ _ _ left right | app _ _ left right | ascribe _ _ left right =>
    simp [Term.negativeIndex?, left closed.1, right closed.2]
  | bind b x dom body domain under =>
    simp [Term.negativeIndex?, domain closed.1, under closed.2]
  | cond t y n test yes no =>
    simp [Term.negativeIndex?, test closed.1, yes closed.2.1, no closed.2.2]

end Term

namespace Program

/-- A variable has not been found at some stage after resolution. -/
def Error.MissesVariable : Error → Prop
  | halted h => h.MissesVariable
  | illTyped e => (Rejection.illTyped e).MissesVariable
  | _ => False

variable {fuel : Nat} {options : Options} {text : List Char}

theorem run_finds
    (room : ∀ surface, Source.parse text = .ok surface →
      surface.depth + max surface.depth fuel < 2 ^ 63) :
    Outcome (¬ ·.MissesVariable)
      (fun result => result.term.widen.InScope 0 ∧ result.normal.widen.InScope 0 ∧
        result.type.widen.InScope 0)
      (run fuel options text) := by
  unfold run
  cases parsed : Source.parse text with
  | error e => exact id
  | ok surface =>
    have fits := room surface parsed
    have resolves : Outcome (¬ ·.MissesVariable)
        (fun t => t.widen.InScope 0 ∧ t.depth = surface.depth)
        ((surface.resolve options.matching []).mapError Error.unbound) := by
      have outer : Scope.Within 0 [] := fun _ member => absurd member (List.not_mem_nil)
      exact (Term.resolve_closes outer (by omega)).mapError fun _ _ => id
    apply resolves.bind
    rintro t ⟨closed, sameDepth⟩
    have covers : Context.Covers [] surface.depth t :=
      ⟨fun _ _ got => by simp at got, closed, by simp [sameDepth]⟩
    have infers : Outcome (¬ ·.MissesVariable) (fun type => type.widen.InScope 0)
        ((Context.infer fuel [] t).mapError Error.ofRejection) := by
      apply ((Context.infer_finds fits covers).mono fun _ h => h.1).mapError
      intro e found
      cases e with
      | halted h => exact found
      | illTyped cause => exact found
    apply infers.bind
    intro inferred typeClosed
    have levels : ([] : List Name).length + fuel < 2 ^ 63 := by
      simp only [List.length_nil]
      omega
    have normalizes : ∀ {u : Indexed}, u.widen.InScope 0 →
        Outcome (¬ ·.MissesVariable) (fun n => n.widen.InScope 0)
          ((u.normalize fuel []).mapError Error.halted) := by
      intro u inside
      exact ((normalize_finds levels inside).mono fun _ h => h.1).mapError fun _ found => found
    apply (normalizes typeClosed).bind
    intro type typeNormal
    apply (normalizes closed).bind
    intro normal normalClosed
    exact ⟨closed, normalClosed, typeNormal⟩

/-- No stage of a program misses a variable, and its term, normal form and type are closed: they are
displayed without a fault, and whatever names their variables carry, the text is the same. The bound
says that no index wraps around. What is nested most deeply is a type of the context inside the whole
term, or a normal form in the context, and a normal form is nested less deeply than its fuel. -/
theorem run_scope_safe
    (room : ∀ surface, Source.parse text = .ok surface →
      surface.depth + max surface.depth fuel < 2 ^ 63) :
    (∀ e, run fuel options text = .error e →
      (∀ x, e ≠ .illTyped (.unknownVariable x)) ∧
      (∀ ix size, e ≠ .halted (.indexOutOfRange ix size)) ∧
      ∀ x bound level, e ≠ .halted (.outOfScope x bound level)) ∧
    ∀ result, run fuel options text = .ok result →
      ∀ t ∈ [result.term, result.normal, result.type],
        t.widen.InScope 0 ∧ t.display [] = .ok (t.render [] Tier.term) ∧
          ∀ name, (t.renamed name).render [] Tier.term = t.render [] Tier.term := by
  have finds := @run_finds fuel options text room
  constructor
  · intro e failed
    have found := finds.of_eq_error failed
    refine ⟨?_, ?_, ?_⟩
    · rintro x rfl
      exact found trivial
    · rintro ix size rfl
      exact found trivial
    · rintro x bound level rfl
      exact found trivial
  · intro result ran t member
    obtain ⟨termClosed, normalClosed, typeClosed⟩ := finds.of_eq_ok ran
    have closed : t.widen.InScope 0 := by
      simp only [List.mem_cons, List.not_mem_nil, or_false] at member
      rcases member with rfl | rfl | rfl
      · exact termClosed
      · exact normalClosed
      · exact typeClosed
    refine ⟨closed, ?_, fun name => Term.render_renamed name closed⟩
    rw [Term.display, closed.negativeIndex?]

theorem parse_identity :
    Source.parse "λA:Type. λx:A. x".toList =
      .ok (.bind .lam "A" (.const (.univ 0)) (.bind .lam "x" (.var "A") (.var "x"))) := by
  have scans : Source.Scans "λA:Type. λx:A. x".toList
      [.symbol .lambda, .ident "A", .symbol .colon, .keyword .typeWord, .symbol .dot,
        .symbol .lambda, .ident "x", .symbol .colon, .ident "A", .symbol .dot, .ident "x"] :=
    @Source.Scans.lexeme 'λ' _ _ 0 _ (by decide +kernel) <|
    @Source.Scans.lexeme 'A' _ _ 0 _ (by decide +kernel) <|
    @Source.Scans.lexeme ':' _ _ 0 _ (by decide +kernel) <|
    @Source.Scans.lexeme 'T' _ _ 3 _ (by decide +kernel) <|
    @Source.Scans.lexeme '.' _ _ 0 _ (by decide +kernel) <|
    @Source.Scans.gap ' ' _ 0 _ (by decide +kernel) <|
    @Source.Scans.lexeme 'λ' _ _ 0 _ (by decide +kernel) <|
    @Source.Scans.lexeme 'x' _ _ 0 _ (by decide +kernel) <|
    @Source.Scans.lexeme ':' _ _ 0 _ (by decide +kernel) <|
    @Source.Scans.lexeme 'A' _ _ 0 _ (by decide +kernel) <|
    @Source.Scans.lexeme '.' _ _ 0 _ (by decide +kernel) <|
    @Source.Scans.gap ' ' _ 0 _ (by decide +kernel) <|
    @Source.Scans.lexeme 'x' _ _ 0 _ (by decide +kernel) .nil
  have type : Source.Derives Tier.term [.keyword .typeWord] (.const (.univ 0)) :=
    .mono (.constant (by decide)) (by decide) (by decide)
  have a : Source.Derives Tier.term [.ident "A"] (.var "A") :=
    .mono (.var (Source.not_spellsUniverse (by decide))) (by decide) (by decide)
  have x : Source.Derives Tier.term [.ident "x"] (.var "x") :=
    .mono (.var (Source.not_spellsUniverse (by decide))) (by decide) (by decide)
  have under := @Source.Derives.lambda (.symbol .lambda) "x" _ _ _ _ (by decide) a x
  have form := @Source.Derives.lambda (.symbol .lambda) "A" _ _ _ _ (by decide) type under
  obtain ⟨tokens, scanned, lexemes⟩ := scans.scan
  exact Source.parse_eq_ok_iff.mpr ⟨tokens, scanned, lexemes ▸ form⟩

/-- The identity on all types, with its type. -/
def identityResult : Result where
  term := .bind .lam "A" (.const (.univ 0)) (.bind .lam "x" (.var ⟨"A", 0⟩) (.var ⟨"x", 0⟩))
  normal := .bind .lam "A" (.const (.univ 0)) (.bind .lam "x" (.var ⟨"A", 0⟩) (.var ⟨"x", 0⟩))
  type := .bind .pi "A" (.const (.univ 0)) (.bind .pi "x" (.var ⟨"A", 0⟩) (.var ⟨"A", 1⟩))

theorem run_scope_safe_identity :
    run 10 ⟨true, false⟩ "λA:Type. λx:A. x".toList = .ok identityResult ∧
    ∀ t ∈ [identityResult.term, identityResult.normal, identityResult.type],
      t.widen.InScope 0 ∧ t.display [] = .ok (t.render [] Tier.term) ∧
        ∀ name, (t.renamed name).render [] Tier.term = t.render [] Tier.term := by
  have ran : run 10 ⟨true, false⟩ "λA:Type. λx:A. x".toList = .ok identityResult := by
    rw [run, parse_identity]
    rfl
  refine ⟨ran, (run_scope_safe ?_).2 _ ran⟩
  intro surface parsed
  rw [parse_identity] at parsed
  cases parsed
  decide

end Program
end DepCalc

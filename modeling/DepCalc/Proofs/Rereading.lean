import DepCalc.Proofs.Idempotence
import DepCalc.Proofs.Preservation
import DepCalc.Proofs.Scoping
import DepCalc.Proofs.Source.Identifiers
import DepCalc.Proofs.Universes

/-!
Programs print programs. The normal form of an accepted text is written out as a text that is parsed,
resolved and accepted again, with the same normal form and the same type. Names survive normalisation
because a variable of a normal form is called by the name of its binder, and the binder has that name
from a variable of the text. Only the least word, which no literal spells, is in the way.
-/
namespace DepCalc

open Source

mutual

/-- All variables of the value have names of which `q` holds, and all its binders are identifiers. The
body of a binder refers to the values of the names in the environment. -/
inductive Value.Readable (q : Name → Prop) : Value → Prop
  | const (c : Constant) : Value.Readable q (.const c)
  | bind {b : Binder} {dom : Value} {x : Name} {env : List Value} {body : Indexed}
      {names : List Name} (domain : Value.Readable q dom) (identifier : IsIdentifier x)
      (outer : Env.Readable q names env) (under : body.Readable q anyConstant (x :: names)) :
      Value.Readable q (.bind b dom x env body)
  | neutral {n : Neutral} (stuck : Neutral.Readable q n) : Value.Readable q (.neutral n)

inductive Neutral.Readable (q : Name → Prop) : Neutral → Prop
  | var {x : Name} {level : Int64} (allowed : q x) : Neutral.Readable q (.var x level)
  | binop {op : Operator} {l r : Value} (left : Value.Readable q l) (right : Value.Readable q r) :
      Neutral.Readable q (.binop op l r)
  | not {n : Neutral} (operand : Neutral.Readable q n) : Neutral.Readable q (.not n)
  | app {f : Neutral} {a : Value} (fn : Neutral.Readable q f) (arg : Value.Readable q a) :
      Neutral.Readable q (.app f a)
  | cond {t : Neutral} {y n : Value} (test : Neutral.Readable q t) (yes : Value.Readable q y)
      (no : Value.Readable q n) : Neutral.Readable q (.cond t y n)

/-- The values of the names. One that no variable is called by may stand for any value. -/
inductive Env.Readable (q : Name → Prop) : List Name → List Value → Prop
  | nil : Env.Readable q [] []
  | cons {x : Name} {v : Value} {names : List Name} {env : List Value}
      (value : q x → Value.Readable q v) (outer : Env.Readable q names env) :
      Env.Readable q (x :: names) (v :: env)

end

variable {q : Name → Prop}

theorem Value.Readable.fresh {x : Name} (level : Int64) (allowed : q x) :
    (Value.fresh x level).Readable q :=
  .neutral (.var allowed)

theorem Env.Readable.get {names : List Name} {env : List Value}
    (readable : Env.Readable q names env) {i : Nat} {x : Name} (found : names[i]? = some x)
    (allowed : q x) : ∃ v, env[i]? = some v ∧ v.Readable q := by
  induction names generalizing env i with
  | nil => cases found
  | cons y names ih =>
    cases readable with
    | cons value outer =>
      cases i with
      | zero =>
        cases found
        exact ⟨_, rfl, value allowed⟩
      | succ i => exact ih outer found

theorem Env.Readable.ofNames (names : List Name) : Env.Readable q names (Env.ofNames names) := by
  induction names with
  | nil => exact .nil
  | cons x names ih =>
    rw [Env.ofNames_cons]
    exact .cons (.fresh _) ih

theorem lookup_readable {names : List Name} {env : Env} {ix : Int64} {x : Name}
    (readable : Env.Readable q names env) (found : atIndex? names ix = some x)
    (allowed : q x) : Outcome (fun _ => True) (Value.Readable q) (env.lookup ix) := by
  obtain ⟨nonneg, found⟩ := atIndex?_eq_some.mp found
  obtain ⟨v, got, value⟩ := readable.get found allowed
  rw [Env.lookup, atIndex?_eq_some.mpr ⟨nonneg, got⟩]
  exact value

theorem negate_readable {v : Value} (readable : v.Readable q) :
    Outcome (fun _ => True) (Value.Readable q) v.negate := by
  unfold Value.negate
  split
  · exact .const _
  · cases readable with
    | neutral stuck => exact Value.Readable.neutral (.not stuck)
  · trivial

theorem onValues_readable {op : Operator} {l r : Value} (left : l.Readable q)
    (right : r.Readable q) : Outcome (fun _ => True) (Value.Readable q) (op.onValues l r) := by
  unfold Operator.onValues
  split
  · split
    · exact .const _
    · trivial
  · exact Value.Readable.neutral (.binop left right)
  · exact Value.Readable.neutral (.binop left right)
  · trivial

/-- A term refers to the environment by names of which `q` holds, so that the values of the others stay
out of its value. -/
theorem eval_readable {fuel : Nat} {names : List Name} {env : Env} {t : Indexed}
    (values : Env.Readable q names env) (readable : t.Readable q anyConstant names) :
    Outcome (fun _ => True) (Value.Readable q) (eval fuel env t) := by
  induction fuel generalizing names env t with
  | zero => trivial
  | succ fuel ih =>
    cases t with
    | var v =>
      obtain ⟨x, found, allowed⟩ := readable
      exact lookup_readable values found allowed
    | const c => exact .const c
    | ascribe t type => exact ih values readable.1
    | binop op l r =>
      apply (ih values readable.1).bind
      intro left leftReadable
      apply (ih values readable.2).bind
      intro right rightReadable
      exact onValues_readable leftReadable rightReadable
    | not t =>
      apply (ih (t := t) values readable).bind
      intro operand operandReadable
      exact negate_readable operandReadable
    | bind b x dom body =>
      obtain ⟨identifier, domain, under⟩ := readable
      apply (ih values domain).bind
      intro dom' domReadable
      exact Value.Readable.bind domReadable identifier values under
    | app f a =>
      apply (ih values readable.1).bind
      intro fn fnReadable
      apply (ih values readable.2).bind
      intro arg argReadable
      cases fnReadable with
      | const c => trivial
      | neutral stuck => exact Value.Readable.neutral (.app stuck argReadable)
      | @bind b _ _ _ _ _ _ _ captured under =>
        cases b with
        | pi => trivial
        | sigma => trivial
        | lam => exact ih (.cons (fun _ => argReadable) captured) under
    | cond t y n =>
      apply (ih values readable.1).bind
      intro test testReadable
      cases testReadable with
      | bind => trivial
      | neutral stuck =>
        apply (ih values readable.2.1).bind
        intro yes yesReadable
        apply (ih values readable.2.2).bind
        intro no noReadable
        exact Value.Readable.neutral (.cond stuck yesReadable noReadable)
      | const c =>
        cases c with
        | bool b =>
          cases b with
          | true => exact ih values readable.2.1
          | false => exact ih values readable.2.2
        | _ => trivial

theorem quote_readable (fuel : Nat) :
    (∀ {names : List Name} {v : Value}, names.length + fuel < 2 ^ 63 →
      v.All .any (Labelled names) → v.Readable q →
      Outcome (fun _ => True) (Term.Readable q anyConstant names)
        (v.quote fuel (Int64.ofNat names.length))) ∧
    (∀ {names : List Name} {m : Neutral}, names.length + fuel < 2 ^ 63 →
      m.All .any (Labelled names) → m.Readable q →
      Outcome (fun _ => True) (Term.Readable q anyConstant names)
        (m.quote fuel (Int64.ofNat names.length))) := by
  induction fuel with
  | zero => exact ⟨fun _ _ _ => trivial, fun _ _ _ => trivial⟩
  | succ fuel ih =>
    obtain ⟨value, neutral⟩ := ih
    constructor
    · intro names v room labelled readable
      have less : names.length + fuel < 2 ^ 63 := by omega
      cases readable with
      | const c => trivial
      | neutral stuck => exact neutral less labelled stuck
      | @bind b dom x env body outside domain identifier outer under =>
        simp only [Value.quote, ofNat_succ]
        have deeper : names.length + 1 < 2 ^ 63 := by omega
        have inside : Env.All .any (Labelled (x :: names))
            (Value.fresh x (Int64.ofNat (names.length + 1)) :: env) :=
          ⟨.fresh x deeper, labelled.2.1.mono fun y level => .under x⟩
        have parts : Outcome _ (Value.All .any (Labelled (x :: names)))
            (eval fuel (Value.fresh x (Int64.ofNat (names.length + 1)) :: env) body) :=
          eval_parts inside (Term.all_any _ _)
        have opens : Env.Readable q (x :: outside)
            (Value.fresh x (Int64.ofNat (names.length + 1)) :: env) := .cons (.fresh _) outer
        apply (value less labelled.1 domain).bind
        intro d domReadable
        apply ((parts.mono_error fun _ _ => trivial).and (eval_readable opens under)).bind
        intro opened holds
        obtain ⟨openedLabelled, openedReadable⟩ := holds
        have room' : (x :: names).length + fuel < 2 ^ 63 := by
          rw [List.length_cons]
          omega
        have reading := value room' openedLabelled openedReadable
        apply reading.bind
        intro u bodyReadable
        exact ⟨identifier, domReadable, bodyReadable⟩
    · intro names m room labelled readable
      have less : names.length + fuel < 2 ^ 63 := by omega
      cases readable with
      | @var x level allowed =>
        have fits : names.length < 2 ^ 63 := by omega
        obtain ⟨i, named, word, -⟩ := Labelled.index labelled fits
        rw [Labelled.quote fuel labelled fits]
        exact ⟨x, by rw [atIndex?_eq word, named], allowed⟩
      | @not n operand =>
        apply (neutral (m := n) less labelled operand).bind
        intro t readable
        exact readable
      | binop left right =>
        apply (value less labelled.1 left).bind
        intro l leftReadable
        apply (value less labelled.2 right).bind
        intro r rightReadable
        exact ⟨leftReadable, rightReadable⟩
      | app fn arg =>
        apply (neutral less labelled.1 fn).bind
        intro f fnReadable
        apply (value less labelled.2 arg).bind
        intro a argReadable
        exact ⟨fnReadable, argReadable⟩
      | cond test yes no =>
        apply (neutral less labelled.1 test).bind
        intro t testReadable
        apply (value less labelled.2.1 yes).bind
        intro y yesReadable
        apply (value less labelled.2.2 no).bind
        intro n noReadable
        exact ⟨testReadable, yesReadable, noReadable⟩

theorem normalize_readable {fuel : Nat} {names : List Name} {t : Indexed}
    (readable : t.Readable q anyConstant names) (room : names.length + fuel < 2 ^ 63) :
    Outcome (fun _ => True) (Term.Readable q anyConstant names) (t.normalize fuel names) := by
  have fits : names.length < 2 ^ 63 := by omega
  have parts : Outcome _ (Value.All .any (Labelled names)) (eval fuel (Env.ofNames names) t) :=
    eval_parts (Labelled.env names fits) (Term.all_any _ _)
  have evaluated : Outcome _ (Value.Readable q) (eval fuel (Env.ofNames names) t) :=
    eval_readable (.ofNames names) readable
  apply ((parts.mono_error fun _ _ => trivial).and evaluated).bind
  intro v holds
  obtain ⟨labelled, value⟩ := holds
  exact (quote_readable fuel).1 room labelled value

namespace Term

/-- The integers that stand in a term. -/
def integers : Indexed → List Int64
  | var _ => []
  | const (.int n) => [n]
  | const _ => []
  | binop _ l r => l.integers ++ r.integers
  | not t => t.integers
  | app f a => f.integers ++ a.integers
  | bind _ _ dom body => dom.integers ++ body.integers
  | cond t yes no => t.integers ++ (yes.integers ++ no.integers)
  | ascribe t type => t.integers ++ type.integers

theorem Readable.any {p : Constant → Prop} {t : Indexed} {names : List Name}
    (readable : t.Readable q p names) : t.Readable q anyConstant names := by
  induction t generalizing names with
  | var v => exact readable
  | const c => trivial
  | not t ih => exact ih readable
  | bind b x dom body domain under =>
    exact ⟨readable.1, domain readable.2.1, under readable.2.2⟩
  | cond t yes no test first second =>
    exact ⟨test readable.1, first readable.2.1, second readable.2.2⟩
  | binop _ _ _ left right | app _ _ left right | ascribe _ _ left right =>
    exact ⟨left readable.1, right readable.2⟩

theorem Readable.levels {t : Indexed} {names : List Name}
    (readable : t.Readable q Constant.Writable names) : ∀ level ∈ t.universes, 0 ≤ level := by
  induction t generalizing names with
  | var v => simp [universes]
  | const c => cases c <;> simp_all [universes, Readable, Constant.Writable]
  | not t ih => exact ih readable
  | bind b x dom body domain under =>
    exact List.forall_mem_append.mpr ⟨domain readable.2.1, under readable.2.2⟩
  | cond t yes no test first second =>
    have branches := List.forall_mem_append.mpr ⟨first readable.2.1, second readable.2.2⟩
    exact List.forall_mem_append.mpr ⟨test readable.1, branches⟩
  | binop _ _ _ left right | app _ _ left right | ascribe _ _ left right =>
    exact List.forall_mem_append.mpr ⟨left readable.1, right readable.2⟩

/-- Constants can be written but for the least word and negative levels. -/
theorem Readable.writable {t : Indexed} {names : List Name}
    (readable : t.Readable q anyConstant names) (spellable : Int64.minValue ∉ t.integers)
    (levels : ∀ level ∈ t.universes, 0 ≤ level) : t.Readable q Constant.Writable names := by
  induction t generalizing names with
  | var v => exact readable
  | const c =>
    cases c with
    | int n =>
      have least := n.minValue_le_toInt
      have other : Int64.minValue.toInt ≠ n.toInt := fun same =>
        spellable (List.mem_singleton.mpr (Int64.toInt_inj.mp same))
      change Int64.minValue < n
      rw [Int64.lt_iff_toInt_lt]
      omega
    | univ level => exact levels level List.mem_cons_self
    | _ => trivial
  | not t ih => exact ih readable spellable levels
  | bind b x dom body domain under =>
    rw [integers, List.mem_append, not_or] at spellable
    rw [universes, List.forall_mem_append] at levels
    exact ⟨readable.1, domain readable.2.1 spellable.1 levels.1,
      under readable.2.2 spellable.2 levels.2⟩
  | cond t yes no test first second =>
    rw [integers, List.mem_append, not_or, List.mem_append, not_or] at spellable
    rw [universes, List.forall_mem_append, List.forall_mem_append] at levels
    exact ⟨test readable.1 spellable.1 levels.1, first readable.2.1 spellable.2.1 levels.2.1,
      second readable.2.2 spellable.2.2 levels.2.2⟩
  | binop _ _ _ left right | app _ _ left right | ascribe _ _ left right =>
    rw [integers, List.mem_append, not_or] at spellable
    rw [universes, List.forall_mem_append] at levels
    exact ⟨left readable.1 spellable.1 levels.1, right readable.2 spellable.2 levels.2⟩

end Term

namespace Program

variable {fuel : Nat} {options : Options} {text : List Char}

/-- The stages by which a run has come to its result. -/
def Passes (fuel : Nat) (options : Options) (text : List Char) (result : Result) : Prop :=
  ∃ surface inferred, Source.parse text = .ok surface ∧
    surface.resolve options.matching [] = .ok result.term ∧
    Context.infer fuel [] result.term = .ok inferred ∧
    inferred.normalize fuel [] = .ok result.type ∧
    result.term.normalize fuel [] = .ok result.normal

theorem run_passes : Outcome (fun _ => True) (Passes fuel options text) (run fuel options text) := by
  apply ((Outcome.answered _).mapError fun _ _ => trivial).bind
  intro surface parsed
  apply ((Outcome.answered _).mapError fun _ _ => trivial).bind
  intro term resolved
  apply ((Outcome.answered _).mapError fun _ _ => trivial).bind
  intro inferred infers
  apply ((Outcome.answered _).mapError fun _ _ => trivial).bind
  intro type typeNormal
  apply ((Outcome.answered _).mapError fun _ _ => trivial).bind
  intro normal termNormal
  exact ⟨surface, inferred, parsed, resolved, infers, typeNormal, termNormal⟩

/-- A typed normal form, read from a text, is accepted; only the fuel can keep the run from an
answer. -/
theorem run_accepts {surface : Surface} {u : Indexed} {A : Bare} (enough : fuel < sizeLimit)
    (parsed : Source.parse text = .ok surface)
    (resolved : surface.resolve options.matching [] = .ok u) (normal : u.IsNormal)
    (depth : u.depth < sizeLimit) (typed : Bare.HasType [] u.erase A) :
    Outcome (· = .halted .outOfFuel)
      (fun again => Reads 0 u.erase again.normal ∧
        ∃ inferred : Indexed, Bare.Joinable inferred.erase A ∧ Reads 0 inferred.erase again.type)
      (run fuel options text) := by
  have context : Bare.WellTyped (Context.erase []) := .nil
  have room : Context.HasRoom [] u :=
    Context.WellFormed.hasRoom trivial (by decide : 0 < sizeLimit) depth
  have levels := room.levels enough
  have infers : Outcome (· = Error.halted .outOfFuel) (Context.Infers [] u)
      ((Context.infer fuel [] u).mapError Error.ofRejection) :=
    (Context.infer_accepts enough context room normal typed).mapError
      fun _ out => congrArg Error.ofRejection out
  have normalizes : ∀ {t : Indexed}, t.Faultless [] → Outcome (· = Error.halted .outOfFuel)
      (Reads 0 t.erase) ((t.normalize fuel []).mapError Error.halted) :=
    fun faultless => (faultless fuel levels).mapError fun _ out => congrArg Error.halted out
  unfold run
  rw [parsed]
  change Outcome _ _ ((surface.resolve options.matching []).mapError _ >>= _)
  rw [resolved]
  apply infers.bind
  intro inferred holds
  apply (normalizes holds.faultless).bind
  intro type typeReads
  apply (normalizes (.of_typed .nil rfl typed)).bind
  intro normal termReads
  exact ⟨termReads, inferred, holds.same typed, typeReads⟩

variable {result : Result}

theorem Passes.depth (passes : Passes fuel options text result)
    (shallow : ∀ surface, Source.parse text = .ok surface → surface.depth < sizeLimit) :
    result.term.depth < sizeLimit := by
  obtain ⟨surface, -, parsed, resolved, -⟩ := passes
  have bound := shallow surface parsed
  have closed : Scope.Within 0 [] := fun _ member => absurd member List.not_mem_nil
  have room : 0 + surface.depth < 2 ^ 63 := by
    unfold sizeLimit at bound
    omega
  have same := ((Term.resolve_closes closed room).of_eq_ok resolved).2
  rwa [same]

/-- The normal form of an accepted term has a type, which has the normal form of the inferred one. -/
theorem Passes.typed (passes : Passes fuel options text result) (enough : fuel < sizeLimit)
    (depth : result.term.depth < sizeLimit) :
    Reads 0 result.term.erase result.normal ∧
      ∃ A, Bare.HasType [] result.normal.erase A ∧ Reads 0 A result.type := by
  obtain ⟨surface, inferred, -, -, infers, typeNormal, termNormal⟩ := passes
  have context : Bare.WellTyped (Context.erase []) := .nil
  have room : Context.HasRoom [] result.term :=
    Context.WellFormed.hasRoom trivial (by decide : 0 < sizeLimit) depth
  have reads : ∀ {t n : Indexed}, t.normalize fuel [] = .ok n → Reads 0 t.erase n := by
    intro t n normalized
    have bound := normalize_depth_lt normalized
    unfold sizeLimit at enough
    exact normalize_reads normalized (by rw [List.length_nil]; omega)
  obtain ⟨A, typed, toType⟩ := ((Context.infer_sound enough context room).of_eq_ok infers).typed
  have termReads := reads termNormal
  have typeReads := reads typeNormal
  have reached := (toType.trans typeReads.reduces.joinable).reduces typeReads.normal.rigid_erase
  exact ⟨termReads, A, typed.reduces context termReads.reduces, typeReads.normal, typeReads.scope,
    reached⟩

/-- The normal form of a text without a wildcard can be written but for the least word. -/
theorem Passes.readable (passes : Passes fuel options text result)
    (textual : options.textualNames = true) (named : Source.NoWildcard text)
    (enough : fuel < sizeLimit)
    (shallow : ∀ surface, Source.parse text = .ok surface → surface.depth < sizeLimit)
    (spellable : Int64.minValue ∉ result.normal.integers) :
    result.normal.Readable Referable Constant.Writable [] := by
  obtain ⟨surface, inferred, parsed, resolved, -, -, termNormal⟩ := passes
  have bound := shallow surface parsed
  unfold sizeLimit at bound enough
  have matching : options.matching = .textual := by rw [Options.matching, if_pos textual]
  rw [matching] at resolved
  have spelled : surface.Spelled Referable Constant.Writable :=
    Source.parse_spelled parsed fun _ scanned _ member => named.referable scanned member
  have room : ([] : List Name).length + surface.depth ≤ 2 ^ 63 := by
    rw [List.length_nil]
    omega
  have fits : ([] : List Name).length + fuel < 2 ^ 63 := by
    rw [List.length_nil]
    omega
  have term : result.term.Readable Referable Constant.Writable [] :=
    (Term.resolve_readable spelled room).of_eq_ok resolved
  have names := (normalize_readable term.any fits).of_eq_ok termNormal
  have levels := (normalize_levels term.levels).of_eq_ok termNormal
  exact names.writable spellable levels

/-- The normal form of an accepted text, written out, is accepted again, with the same normal form and
the same type, unless the fuel runs out; the least word must not stand in it. -/
theorem normal_text_runs_again (textual : options.textualNames = true)
    (named : Source.NoWildcard text)
    (shallow : ∀ surface, Source.parse text = .ok surface → surface.depth < sizeLimit)
    (enough : fuel < sizeLimit) (ran : run fuel options text = .ok result)
    (spellable : Int64.minValue ∉ result.normal.integers) :
    ∀ more < sizeLimit,
      run more options (result.normal.render [] Tier.term).toList = .error (.halted .outOfFuel) ∨
      ∃ again, run more options (result.normal.render [] Tier.term).toList = .ok again ∧
        Term.AlphaEq again.normal result.normal ∧ Term.AlphaEq again.type result.type := by
  intro more enoughMore
  have passes := run_passes.of_eq_ok ran
  obtain ⟨termReads, A, typed, typeReads⟩ := passes.typed enough (passes.depth shallow)
  have readable := passes.readable textual named enough shallow spellable
  obtain ⟨s, u, parsed, resolved, same⟩ := Term.render_reads readable .nil
  have matching : options.matching = .textual := by rw [Options.matching, if_pos textual]
  have resolved : s.resolve options.matching [] = .ok u := by rwa [matching]
  have normal := same.isNormal termReads.normal
  have erased := (normal.alphaEq_iff termReads.normal).mp same
  have depth : u.depth < sizeLimit := by
    obtain ⟨-, -, -, -, -, -, termNormal⟩ := passes
    rw [same.depth_eq]
    exact Nat.lt_trans (normalize_depth_lt termNormal) enough
  rw [← erased] at typed
  have accepted := run_accepts enoughMore parsed resolved normal depth typed
  cases result' : run more options (result.normal.render [] Tier.term).toList with
  | error e => exact .inl (congrArg Except.error (accepted.of_eq_error result'))
  | ok again =>
    obtain ⟨againReads, inferred, toType, againType⟩ := accepted.of_eq_ok result'
    rw [erased] at againReads
    have sameNormal := (againReads.alphaEq_iff termReads).mpr termReads.reduces.joinable.symm
    have sameType := (againType.alphaEq_iff typeReads).mpr toType
    exact .inr ⟨again, rfl, sameNormal, sameType⟩

/-- The inner of two binders of one name, which reduction has brought together. -/
def shadowingResult : Result where
  term := .bind .lam "x" (.const .intType)
    (.app (.bind .lam "y" (.const .intType) (.bind .lam "x" (.const .intType)
      (.binop .sub (.var ⟨"y", 1⟩) (.var ⟨"x", 0⟩)))) (.var ⟨"x", 0⟩))
  normal := .bind .lam "x" (.const .intType) (.bind .lam "x" (.const .intType)
    (.binop .sub (.var ⟨"x", 1⟩) (.var ⟨"x", 0⟩)))
  type := .bind .pi "x" (.const .intType) (.bind .pi "x" (.const .intType) (.const .intType))

theorem scans_shadowing : Source.Scans "λx:Int. (λy:Int. λx:Int. y - x) x".toList
    [.symbol .lambda, .ident "x", .symbol .colon, .keyword .intWord, .symbol .dot,
      .symbol .openParen, .symbol .lambda, .ident "y", .symbol .colon, .keyword .intWord,
      .symbol .dot, .symbol .lambda, .ident "x", .symbol .colon, .keyword .intWord, .symbol .dot,
      .ident "y", .symbol .minus, .ident "x", .symbol .closeParen, .ident "x"] :=
  @Source.Scans.lexeme 'λ' _ _ 0 _ (by decide +kernel) <|
  @Source.Scans.lexeme 'x' _ _ 0 _ (by decide +kernel) <|
  @Source.Scans.lexeme ':' _ _ 0 _ (by decide +kernel) <|
  @Source.Scans.lexeme 'I' _ _ 2 _ (by decide +kernel) <|
  @Source.Scans.lexeme '.' _ _ 0 _ (by decide +kernel) <|
  @Source.Scans.gap ' ' _ 0 _ (by decide +kernel) <|
  @Source.Scans.lexeme '(' _ _ 0 _ (by decide +kernel) <|
  @Source.Scans.lexeme 'λ' _ _ 0 _ (by decide +kernel) <|
  @Source.Scans.lexeme 'y' _ _ 0 _ (by decide +kernel) <|
  @Source.Scans.lexeme ':' _ _ 0 _ (by decide +kernel) <|
  @Source.Scans.lexeme 'I' _ _ 2 _ (by decide +kernel) <|
  @Source.Scans.lexeme '.' _ _ 0 _ (by decide +kernel) <|
  @Source.Scans.gap ' ' _ 0 _ (by decide +kernel) <|
  @Source.Scans.lexeme 'λ' _ _ 0 _ (by decide +kernel) <|
  @Source.Scans.lexeme 'x' _ _ 0 _ (by decide +kernel) <|
  @Source.Scans.lexeme ':' _ _ 0 _ (by decide +kernel) <|
  @Source.Scans.lexeme 'I' _ _ 2 _ (by decide +kernel) <|
  @Source.Scans.lexeme '.' _ _ 0 _ (by decide +kernel) <|
  @Source.Scans.gap ' ' _ 0 _ (by decide +kernel) <|
  @Source.Scans.lexeme 'y' _ _ 0 _ (by decide +kernel) <|
  @Source.Scans.gap ' ' _ 0 _ (by decide +kernel) <|
  @Source.Scans.lexeme '-' _ _ 0 _ (by decide +kernel) <|
  @Source.Scans.gap ' ' _ 0 _ (by decide +kernel) <|
  @Source.Scans.lexeme 'x' _ _ 0 _ (by decide +kernel) <|
  @Source.Scans.lexeme ')' _ _ 0 _ (by decide +kernel) <|
  @Source.Scans.gap ' ' _ 0 _ (by decide +kernel) <|
  @Source.Scans.lexeme 'x' _ _ 0 _ (by decide +kernel) .nil

theorem parse_shadowing : Source.parse "λx:Int. (λy:Int. λx:Int. y - x) x".toList =
    .ok (.bind .lam "x" (.const .intType) (.app (.bind .lam "y" (.const .intType)
      (.bind .lam "x" (.const .intType) (.binop .sub (.var "y") (.var "x")))) (.var "x"))) := by
  have int : Source.Derives Tier.term [.keyword .intWord] (.const .intType) :=
    .mono (.constant (by decide)) (by decide) (by decide)
  have x : Source.Derives Tier.atom [.ident "x"] (.var "x") :=
    .var (Source.not_spellsUniverse (by decide))
  have y : Source.Derives Tier.atom [.ident "y"] (.var "y") :=
    .var (Source.not_spellsUniverse (by decide))
  have difference := Source.Derives.operation .sub (y.mono (by decide) (by decide))
    (x.mono (by decide) (by decide))
  have inner := @Source.Derives.lambda (.symbol .lambda) "x" _ _ _ _ (by decide) int
    (difference.mono (by decide) (Nat.le_refl _))
  have outer := @Source.Derives.lambda (.symbol .lambda) "y" _ _ _ _ (by decide) int inner
  have applied := Source.Derives.application (outer.brackets.mono (by decide) (by decide)) x
  have form := @Source.Derives.lambda (.symbol .lambda) "x" _ _ _ _ (by decide) int
    (applied.mono (by decide) (Nat.le_refl _))
  obtain ⟨tokens, scanned, lexemes⟩ := scans_shadowing.scan
  exact Source.parse_eq_ok_iff.mpr ⟨tokens, scanned, lexemes ▸ form⟩

theorem normal_text_runs_again_shadowing :
    run 20 ⟨true, false⟩ "λx:Int. (λy:Int. λx:Int. y - x) x".toList = .ok shadowingResult ∧
    shadowingResult.normal.render [] Tier.term = "λx:Int. λx':Int. x - x'" ∧
    ∀ more < sizeLimit,
      run more ⟨true, false⟩ (shadowingResult.normal.render [] Tier.term).toList =
        .error (.halted .outOfFuel) ∨
      ∃ again, run more ⟨true, false⟩ (shadowingResult.normal.render [] Tier.term).toList = .ok again ∧
        Term.AlphaEq again.normal shadowingResult.normal ∧
        Term.AlphaEq again.type shadowingResult.type := by
  have ran : run 20 ⟨true, false⟩ "λx:Int. (λy:Int. λx:Int. y - x) x".toList =
      .ok shadowingResult := by
    rw [run, parse_shadowing]
    rfl
  refine ⟨ran, by decide +kernel, normal_text_runs_again rfl ?_ ?_ (by decide) ran (by decide)⟩
  · intro tokens scanned
    obtain ⟨tokens', scanned', lexemes⟩ := scans_shadowing.scan
    rw [scanned] at scanned'
    cases scanned'
    rw [lexemes]
    decide
  · intro surface parsed
    rw [parse_shadowing] at parsed
    cases parsed
    decide

def leastWordResult : Result where
  term := .binop .sub (.const (.int (-9223372036854775807))) (.const (.int 1))
  normal := .const (.int Int64.minValue)
  type := .const .intType

theorem parse_leastWord : Source.parse "-9223372036854775807 - 1".toList =
    .ok (.binop .sub (.const (.int (-9223372036854775807))) (.const (.int 1))) := by
  have scans : Source.Scans "-9223372036854775807 - 1".toList
      [.symbol .minus, .numeral "9223372036854775807", .symbol .minus, .numeral "1"] :=
    @Source.Scans.lexeme '-' _ _ 0 _ (by decide +kernel) <|
    @Source.Scans.lexeme '9' _ _ 18 _ (by decide +kernel) <|
    @Source.Scans.gap ' ' _ 0 _ (by decide +kernel) <|
    @Source.Scans.lexeme '-' _ _ 0 _ (by decide +kernel) <|
    @Source.Scans.gap ' ' _ 0 _ (by decide +kernel) <|
    @Source.Scans.lexeme '1' _ _ 0 _ (by decide +kernel) .nil
  have negative : Source.Derives Tier.unary [.symbol .minus, .numeral "9223372036854775807"]
      (.const (.int (-Int64.ofNat 9223372036854775807))) :=
    .negative ⟨by decide, List.all_eq_true.mp rfl, rfl, by decide⟩
  have one : Source.Derives Tier.atom [.numeral "1"] (.const (.int 1)) :=
    .numeral ⟨by decide, List.all_eq_true.mp rfl, rfl, by decide⟩
  have form := Source.Derives.operation .sub (negative.mono (by decide) (by decide))
    (one.mono (by decide) (by decide))
  obtain ⟨tokens, scanned, lexemes⟩ := scans.scan
  exact Source.parse_eq_ok_iff.mpr
    ⟨tokens, scanned, lexemes ▸ form.mono (by decide) (Nat.le_refl _)⟩

/-- The digits of a negative literal are read before its sign, and those of the least word do not fit
a word. -/
theorem run_leastWord_unreadable :
    run 10 ⟨true, false⟩ "-9223372036854775807 - 1".toList = .ok leastWordResult ∧
    leastWordResult.normal.render [] Tier.term = "-9223372036854775808" ∧
    ∃ e, ∀ more, run more ⟨true, false⟩ "-9223372036854775808".toList = .error (.malformed e) := by
  have ran : run 10 ⟨true, false⟩ "-9223372036854775807 - 1".toList = .ok leastWordResult := by
    rw [run, parse_leastWord]
    rfl
  have scans : Source.Scans "-9223372036854775808".toList
      [.symbol .minus, .numeral "9223372036854775808"] :=
    @Source.Scans.lexeme '-' _ _ 0 _ (by decide +kernel) <|
    @Source.Scans.lexeme '9' _ _ 18 _ (by decide +kernel) .nil
  refine ⟨ran, by decide +kernel, ?_⟩
  cases parsed : Source.parse "-9223372036854775808".toList with
  | error e =>
    refine ⟨e, fun more => ?_⟩
    rw [run, parsed]
    rfl
  | ok s =>
    obtain ⟨tokens, scanned, form⟩ := Source.parse_eq_ok_iff.mp parsed
    obtain ⟨tokens', scanned', lexemes⟩ := scans.scan
    rw [scanned] at scanned'
    cases scanned'
    rw [lexemes] at form
    obtain ⟨n, -, -, value, fits⟩ := form.numeral_fits (List.mem_cons_of_mem _ List.mem_cons_self)
    have tooLarge : Nat.ofDigitChars 10 "9223372036854775808".toList 0 = 2 ^ 63 := by decide
    omega

end Program
end DepCalc

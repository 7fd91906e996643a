import DepCalc.Proofs.Preservation
import DepCalc.Proofs.Source.Parsing

/-!
Why programs are refused. Inference normalises inferred types, which never leads to a fault, and the
types of ascriptions, which nobody has checked. So a program that is parsed and resolved fails with a
type error, or because the fuel runs out, or with the fault of an ascribed type; and it does fail
with such a fault, although it is ill-typed.
-/
namespace DepCalc

open Bare (HasType WellTyped univ)

/-- The types ascribed in a term, each with the names in scope where it stands. -/
def Term.ascribed (scope : List Name) : Indexed → List (List Name × Indexed)
  | var _ | const _ => []
  | binop _ l r => l.ascribed scope ++ r.ascribed scope
  | not t => t.ascribed scope
  | app f a => f.ascribed scope ++ a.ascribed scope
  | bind _ x dom body => dom.ascribed scope ++ body.ascribed (x :: scope)
  | cond t yes no => t.ascribed scope ++ yes.ascribed scope ++ no.ascribed scope
  | ascribe t type => (scope, type) :: t.ascribed scope

/-- Why inference may give no type, where the types `ascribed` have not been checked. -/
inductive Refused (fuel : Nat) (ascribed : List (List Name × Indexed)) : Rejection → Prop
  | illTyped (e : TypeError) : Refused fuel ascribed (.illTyped e)
  | outOfFuel : Refused fuel ascribed (.halted .outOfFuel)
  | ascription {scope : List Name} {type : Indexed} {h : Halt} (member : (scope, type) ∈ ascribed)
      (faults : type.normalize fuel scope = .error h) : Refused fuel ascribed (.halted h)

theorem Term.ascribed_part {scope : List Name} {s t : Indexed} (member : s ∈ t.parts) :
    s.ascribed scope ⊆ t.ascribed scope := by
  cases t <;> simp only [parts, List.mem_cons, List.not_mem_nil, or_false] at member
  all_goals
    intro place within
    simp only [ascribed, List.mem_append, List.mem_cons]
    grind

namespace Context

variable {fuel : Nat} {Γ : Context} {ascribed : List (List Name × Indexed)}

theorem normalize_refuses {t : Indexed} (levels : Γ.names.length + fuel < 2 ^ 63)
    (faultless : t.Faultless Γ.names) :
    Outcome (Refused fuel ascribed) (Reads Γ.names.length t.erase) (Γ.normalize fuel t) := by
  apply (normalize_accepts levels faultless).mono_error
  rintro _ rfl
  exact .outOfFuel

theorem convertible_refuses {s t : Indexed} (levels : Γ.names.length + fuel < 2 ^ 63)
    (left : s.Faultless Γ.names) (right : t.Faultless Γ.names ∨ (Γ.names, t) ∈ ascribed) :
    Outcome (Refused fuel ascribed) (fun _ => True) (Γ.convertible fuel s t) := by
  have first : Outcome (fun h => Refused fuel ascribed (.halted h)) (fun _ => True)
      (s.normalize fuel Γ.names) := by
    apply ((left fuel levels).mono fun _ _ => trivial).mono_error
    rintro _ rfl
    exact .outOfFuel
  have second : Outcome (fun h => Refused fuel ascribed (.halted h)) (fun _ => True)
      (t.normalize fuel Γ.names) := by
    rcases right with faultless | member
    · apply ((faultless fuel levels).mono fun _ _ => trivial).mono_error
      rintro _ rfl
      exact .outOfFuel
    · cases normalized : t.normalize fuel Γ.names with
      | ok n => trivial
      | error h => exact .ascription member normalized
  have compared : Outcome (fun h => Refused fuel ascribed (.halted h)) (fun _ => True)
      (s.convertible fuel Γ.names t) :=
    first.bind fun _ _ => second.bind fun _ _ => trivial
  exact compared.mapError fun _ refused => refused

theorem equate_refuses {s t : Indexed} {cause : TypeError}
    (levels : Γ.names.length + fuel < 2 ^ 63) (left : s.Faultless Γ.names)
    (right : t.Faultless Γ.names ∨ (Γ.names, t) ∈ ascribed) :
    Outcome (Refused fuel ascribed) (fun _ => True) (Γ.equate fuel s t cause) := by
  apply (convertible_refuses levels left right).bind
  intro answer _
  cases answer with
  | true => trivial
  | false => exact .illTyped _

theorem universeLevel_refuses {t type : Indexed} (levels : Γ.names.length + fuel < 2 ^ 63)
    (faultless : type.Faultless Γ.names) :
    Outcome (Refused fuel ascribed) (fun k => Reads Γ.names.length type.erase (.const (.univ k)))
      (Γ.universeLevel fuel t type) := by
  apply (normalize_refuses levels faultless).bind
  intro n reads
  split
  · exact reads
  · exact .illTyped _

theorem functionType_refuses {f fnType : Indexed} (levels : Γ.names.length + fuel < 2 ^ 63)
    (context : WellTyped Γ.erase) (fn : Γ.Infers f fnType) :
    Outcome (Refused fuel ascribed) (fun p => p.1.Faultless Γ.names)
      (Γ.functionType fuel f fnType) := by
  apply (normalize_refuses levels fn.faultless).bind
  intro n reads
  split
  · exact fn.domain context reads
  · exact .illTyped _

theorem variableType_refuses (v : Occurrence) :
    Outcome (Refused fuel ascribed) (fun _ => True) (Γ.variableType v) := by
  unfold variableType
  split
  · trivial
  · exact .illTyped _

/-- Wherever inference fails, it has found a type error or has normalised a type: one that it inferred
or one that the term ascribes. -/
abbrev refusal (ascribed : List (List Name × Indexed)) : Account where
  Before Γ t := WellTyped Γ.erase ∧ Γ.HasRoom t ∧ t.ascribed Γ.names ⊆ ascribed
  After := Infers
  Wanted Γ _ expected := expected.Faultless Γ.names ∨ (Γ.names, expected) ∈ ascribed
  Meets _ _ _ := True
  Level Γ t k := HasType Γ.erase t.erase (univ k)
  Function Γ _ _ dom _ := dom.Faultless Γ.names
  Makes _ _ _ := True

theorem refusal_holds (enough : fuel < sizeLimit) (ascribed : List (List Name × Indexed)) :
    (refusal ascribed).Holds (.outcome fuel (Refused fuel ascribed)) where
  part ready member := ⟨ready.1, ready.2.1.part member,
    List.Subset.trans (Term.ascribed_part member) ready.2.2⟩
  body ready level := ⟨.cons ready.1 level, ready.2.1.under,
    List.Subset.trans (List.subset_append_right _ _) ready.2.2⟩
  operand _ _ := .inl (.const _ _)
  argument _ := .inl
  ascribed ready := .inr (ready.2.2 List.mem_cons_self)
  expect ready infers := equate_refuses (ready.2.1.levels enough) infers.faultless
  function ready := functionType_refuses (ready.2.1.levels enough) ready.1
  domain ready infers := (universeLevel_refuses (ready.2.1.levels enough) infers.faultless).mono
    fun _ => infers.at_normal ready.1
  codomain _ _ ready infers :=
    (universeLevel_refuses (ready.2.1.levels enough) infers.faultless).mono
      fun _ => infers.at_normal ready.1
  branches ready _ yes no :=
    equate_refuses (ready.2.1.levels enough) yes.faultless (.inl no.faultless)
  var _ := variableType_refuses _
  const _ := trivial
  binop _ _ _ := trivial
  not _ _ := trivial
  app _ _ _ := trivial
  lam _ _ _ := trivial
  form _ _ _ _ := trivial
  ascribe _ _ := trivial
  -- What is inferred is known already; what had to be seen is how inference fails.
  settle ready made := made.of_answer (infer_sound enough ready.1 ready.2.1)

theorem infer_refuses (enough : fuel < sizeLimit) {t : Indexed} (context : WellTyped Γ.erase)
    (room : Γ.HasRoom t) :
    Outcome (Refused fuel (t.ascribed Γ.names)) (Γ.Infers t) (Γ.infer fuel t) :=
  (refusal_holds enough _).infer ⟨context, room, List.Subset.refl _⟩

/-- A program that is parsed and resolved is refused with a type error, or the fuel runs out, or it
fails with the fault to which normalising the type of one of its ascriptions leads. -/
theorem run_fails_typed_or_ascribing {options : Program.Options} {text : List Char}
    {surface : Surface} {t : Indexed} (parsed : Source.parse text = .ok surface)
    (resolved : surface.resolve options.matching [] = .ok t) (depth : t.depth < sizeLimit)
    (enough : fuel < sizeLimit) :
    ∀ e, Program.run fuel options text = .error e →
      (∃ cause, e = .illTyped cause) ∨ e = .halted .outOfFuel ∨
      ∃ scope type h, (scope, type) ∈ t.ascribed [] ∧ type.normalize fuel scope = .error h ∧
        e = .halted h := by
  have context : WellFormed [] := trivial
  have wellTyped := context.wellTyped (by decide)
  have room := context.hasRoom (by decide) depth
  intro e failed
  have refuses := infer_refuses enough wellTyped room
  cases inferred : Context.infer fuel [] t with
  | error r =>
    have reported : e = .ofRejection r := by
      rw [Program.run, parsed] at failed
      change ((surface.resolve options.matching []).mapError _ >>= _) = _ at failed
      rw [resolved] at failed
      change ((Context.infer fuel [] t).mapError _ >>= _) = _ at failed
      rw [inferred] at failed
      exact (Except.error.inj failed).symm
    subst reported
    cases refuses.of_eq_error inferred with
    | illTyped cause => exact .inl ⟨cause, rfl⟩
    | outOfFuel => exact .inr (.inl rfl)
    | ascription member faults => exact .inr (.inr ⟨_, _, _, member, faults, rfl⟩)
  | ok type =>
    obtain ⟨⟨A, typed, -⟩, typeFaultless⟩ := refuses.of_eq_ok inferred
    have termFaultless : t.Faultless [] := .of_typed wellTyped (by simp) typed
    have levels := room.levels enough
    have typeSafe := (typeFaultless fuel levels).mono fun _ _ => trivial
    have termSafe := (termFaultless fuel levels).mono fun _ _ => trivial
    exact .inr (.inl ((run_outcome parsed resolved inferred typeSafe termSafe).of_eq_error failed))

/-- One, ascribed the type that one would have as a function of two. -/
def ascribedOneOfTwo : Indexed :=
  .ascribe (.const (.int 1)) (.app (.const (.int 1)) (.const (.int 2)))

theorem parse_ascribedOneOfTwo :
    Source.parse "(1 : 1 2)".toList =
      .ok (.ascribe (.const (.int 1)) (.app (.const (.int 1)) (.const (.int 2)))) := by
  have scans : Source.Scans "(1 : 1 2)".toList
      [.symbol .openParen, .numeral "1", .symbol .colon, .numeral "1", .numeral "2",
        .symbol .closeParen] :=
    @Source.Scans.lexeme '(' _ _ 0 _ (by decide +kernel) <|
    @Source.Scans.lexeme '1' _ _ 0 _ (by decide +kernel) <|
    @Source.Scans.gap ' ' _ 0 _ (by decide +kernel) <|
    @Source.Scans.lexeme ':' _ _ 0 _ (by decide +kernel) <|
    @Source.Scans.gap ' ' _ 0 _ (by decide +kernel) <|
    @Source.Scans.lexeme '1' _ _ 0 _ (by decide +kernel) <|
    @Source.Scans.gap ' ' _ 0 _ (by decide +kernel) <|
    @Source.Scans.lexeme '2' _ _ 0 _ (by decide +kernel) <|
    @Source.Scans.lexeme ')' _ _ 0 _ (by decide +kernel) .nil
  have one : Source.Derives Tier.atom [.numeral "1"] (.const (.int 1)) :=
    .numeral ⟨by decide, List.all_eq_true.mp rfl, rfl, by decide⟩
  have two : Source.Derives Tier.atom [.numeral "2"] (.const (.int 2)) :=
    .numeral ⟨by decide, List.all_eq_true.mp rfl, rfl, by decide⟩
  have type := Source.Derives.application (one.mono (by decide) (by decide)) two
  have form := Source.Derives.ascription (one.mono (by decide) (by decide))
    (type.mono (by decide) (Nat.le_refl _))
  obtain ⟨tokens, scanned, lexemes⟩ := scans.scan
  exact Source.parse_eq_ok_iff.mpr
    ⟨tokens, scanned, lexemes ▸ form.mono (by decide) (Nat.le_refl _)⟩

/-- The ascribed type is normalised without having been checked, and an integer cannot be applied. -/
theorem run_oneOfTwo (fuel : Nat) (options : Program.Options) :
    Program.run (fuel + 2) options "(1 : 1 2)".toList = .error (.halted (.cannotApply .int)) := by
  rw [Program.run, parse_ascribedOneOfTwo]
  rfl

theorem run_fails_typed_or_ascribing_oneOfTwo :
    Program.run 10 ⟨true, false⟩ "(1 : 1 2)".toList = .error (.halted (.cannotApply .int)) ∧
    ((∃ cause, Program.Error.halted (.cannotApply .int) = .illTyped cause) ∨
      Program.Error.halted (.cannotApply .int) = .halted .outOfFuel ∨
      ∃ scope type h, (scope, type) ∈ ascribedOneOfTwo.ascribed [] ∧
        type.normalize 10 scope = .error h ∧
        Program.Error.halted (.cannotApply .int) = .halted h) :=
  ⟨run_oneOfTwo 8 _, run_fails_typed_or_ascribing parse_ascribedOneOfTwo rfl (by decide) (by decide)
    _ (run_oneOfTwo 8 ⟨true, false⟩)⟩

/-- That the ascribed type has no type itself is not what is reported, whichever way names are
matched. -/
theorem run_ascribedOneOfTwo :
    infer 10 [] (.app (.const (.int 1)) (.const (.int 2))) =
      .error (.illTyped (.notFunction [] (.const (.int 1)) (.const .intType))) ∧
    Program.run 10 ⟨true, false⟩ "(1 : 1 2)".toList = .error (.halted (.cannotApply .int)) ∧
    Program.run 10 ⟨false, false⟩ "(1 : 1 2)".toList = .error (.halted (.cannotApply .int)) :=
  ⟨rfl, run_oneOfTwo 8 _, run_oneOfTwo 8 _⟩

end Context
end DepCalc

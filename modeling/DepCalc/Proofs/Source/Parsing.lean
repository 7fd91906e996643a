import DepCalc.Proofs.Outcome
import DepCalc.Proofs.Source.Scanning

/-!
The parser accepts exactly what the grammar derives. Soundness: what was read from the front of the
tokens derives the term. Completeness: a form that the grammar derives is read as a whole, if it is
not followed by a lexeme with which it could go on.
-/
namespace DepCalc.Source

/-- What was read from the front of the tokens is a form of the tier. -/
def ReadsForm (tier : Nat) (tokens : List Token) {bound : Nat} (p : Parsed Surface bound) : Prop :=
  ∃ used, tokens = used ++ p.rest ∧ Derives tier (used.map Token.lexeme) p.value

/-- Together with what was read before it is a form of the tier. -/
def ExtendsForm (tier : Nat) (before tokens : List Token) {bound : Nat}
    (p : Parsed Surface bound) : Prop :=
  ∃ used, tokens = used ++ p.rest ∧ Derives tier ((before ++ used).map Token.lexeme) p.value

theorem ReadsForm.mono {tier tier' : Nat} {tokens : List Token} {bound : Nat}
    {p : Parsed Surface bound} (reads : ReadsForm tier tokens p) (le : tier ≤ tier')
    (most : tier' ≤ Tier.term) : ReadsForm tier' tokens p := by
  obtain ⟨used, split, form⟩ := reads
  exact ⟨used, split, form.mono le most⟩

theorem ExtendsForm.reads {tier : Nat} {before rest tokens : List Token} {bound bound' : Nat}
    {p : Parsed Surface bound} (extends_ : ExtendsForm tier before rest p)
    (front : tokens = before ++ rest) (fewer : p.rest.length < bound') :
    ReadsForm tier tokens (⟨p.value, p.rest, fewer⟩ : Parsed Surface bound') := by
  obtain ⟨used, split, form⟩ := extends_
  exact ⟨before ++ used, by rw [front, split, List.append_assoc], form⟩

theorem expect_sound (stop : Position) (wanted : Lexeme) (tokens : List Token) :
    Outcome (fun _ => True) (fun p => ∃ pos, tokens = ⟨wanted, pos⟩ :: p.rest)
      (expect stop wanted tokens) := by
  cases tokens with
  | nil => trivial
  | cons token rest =>
    by_cases same : token.lexeme = wanted
    · simp only [expect, if_pos same]
      exact ⟨token.pos, by rw [← same]⟩
    · simp only [expect, if_neg same]
      trivial

theorem expectName_sound (stop : Position) (tokens : List Token) :
    Outcome (fun _ => True) (fun p => ∃ pos, tokens = ⟨.ident p.value, pos⟩ :: p.rest)
      (expectName stop tokens) := by
  unfold expectName
  split
  · trivial
  · exact ⟨_, rfl⟩
  · trivial

theorem accept?_sound {wanted : Lexeme} {tokens : List Token} {p : Parsed Unit tokens.length}
    (accepted : accept? wanted tokens = some p) : ∃ pos, tokens = ⟨wanted, pos⟩ :: p.rest := by
  cases tokens with
  | nil => cases accepted
  | cons token rest =>
    by_cases same : token.lexeme = wanted
    · simp only [accept?, if_pos same, Option.some.injEq] at accepted
      subst accepted
      exact ⟨token.pos, by rw [← same]⟩
    · simp [accept?, if_neg same] at accepted

theorem integer_sound (pos : Position) (digits : String) :
    Outcome (fun _ => True) (fun w => ∃ n, Numeral digits.toList n ∧ w = Int64.ofNat n)
      (integer pos digits) := by
  unfold integer
  split
  · rename_i found
    exact word?_eq_some.mp found
  · trivial

theorem variableOrUniverse_sound (pos : Position) (x : Name) :
    Outcome (fun _ => True) (Derives Tier.atom [.ident x]) (variableOrUniverse pos x) := by
  unfold variableOrUniverse
  split
  · rename_i none
    exact .var (levelDigits?_eq_none.mp none)
  · rename_i digits found
    obtain ⟨spelled, -, -⟩ := levelDigits?_eq_some.mp found
    split
    · trivial
    · rename_i canonical
      split
      · rename_i level denotes
        obtain ⟨n, value, rfl⟩ := word?_eq_some.mp denotes
        refine .univ spelled value fun zero => ?_
        have single : ¬ digits.length > 1 := fun long => canonical ⟨long, zero⟩
        cases digits with
        | nil => cases zero
        | cons c more => simp_all
      · trivial

mutual

theorem parseTerm_sound (stop : Position) (tokens : List Token) :
    Outcome (fun _ => True) (ReadsForm Tier.term tokens) (parseTerm stop tokens) := by
  unfold parseTerm
  cases tokens with
  | nil =>
    apply (parseArrow_sound stop []).mono
    intro p reads
    exact reads.mono (by decide) (by decide)
  | cons token rest =>
    simp only
    cases opens : token.lexeme.opening? with
    | none =>
      apply (parseArrow_sound stop (token :: rest)).mono
      intro p reads
      exact reads.mono (by decide) (by decide)
    | some opening =>
      cases opening with
      | lambda =>
        apply (expectName_sound stop rest).bind
        rintro ⟨x, rest₁, _⟩ ⟨p₁, name⟩
        apply (expect_sound stop _ rest₁).bind
        rintro ⟨_, rest₂, _⟩ ⟨p₂, colon⟩
        apply (parseTerm_sound stop rest₂).bind
        rintro ⟨dom, rest₃, _⟩ ⟨domain, inDomain, domainForm⟩
        apply (expect_sound stop _ rest₃).bind
        rintro ⟨_, rest₄, _⟩ ⟨p₃, dot⟩
        apply (parseTerm_sound stop rest₄).bind
        rintro ⟨body, rest₅, _⟩ ⟨under, inBody, underForm⟩
        simp only at *
        subst inBody dot inDomain colon name
        refine ⟨token :: ⟨.ident x, p₁⟩ :: ⟨.symbol .colon, p₂⟩ :: domain ++
          ⟨.symbol .dot, p₃⟩ :: under, by simp, ?_⟩
        simpa using Derives.lambda (opening?_eq_lambda.mp opens) domainForm underForm
      | quantifier b =>
        apply (expect_sound stop _ rest).bind
        rintro ⟨_, rest₁, _⟩ ⟨p₁, openParen⟩
        apply (expectName_sound stop rest₁).bind
        rintro ⟨x, rest₂, _⟩ ⟨p₂, name⟩
        apply (expect_sound stop _ rest₂).bind
        rintro ⟨_, rest₃, _⟩ ⟨p₃, colon⟩
        apply (parseTerm_sound stop rest₃).bind
        rintro ⟨dom, rest₄, _⟩ ⟨domain, inDomain, domainForm⟩
        apply (expect_sound stop _ rest₄).bind
        rintro ⟨_, rest₅, _⟩ ⟨p₄, closeParen⟩
        apply (expect_sound stop _ rest₅).bind
        rintro ⟨_, rest₆, _⟩ ⟨p₅, dot⟩
        apply (parseTerm_sound stop rest₆).bind
        rintro ⟨body, rest₇, _⟩ ⟨under, inBody, underForm⟩
        simp only at *
        subst inBody dot closeParen inDomain colon name openParen
        refine ⟨token :: ⟨.symbol .openParen, p₁⟩ :: ⟨.ident x, p₂⟩ :: ⟨.symbol .colon, p₃⟩ :: domain ++
          ⟨.symbol .closeParen, p₄⟩ :: ⟨.symbol .dot, p₅⟩ :: under, by simp, ?_⟩
        obtain ⟨type, opens⟩ := opening?_eq_quantifier.mp opens
        simpa using Derives.quantifier type opens domainForm underForm
      | conditional =>
        apply (parseTerm_sound stop rest).bind
        rintro ⟨t, rest₁, _⟩ ⟨test, inTest, testForm⟩
        apply (expect_sound stop _ rest₁).bind
        rintro ⟨_, rest₂, _⟩ ⟨p₁, thenWord⟩
        apply (parseTerm_sound stop rest₂).bind
        rintro ⟨yes, rest₃, _⟩ ⟨first, inYes, yesForm⟩
        apply (expect_sound stop _ rest₃).bind
        rintro ⟨_, rest₄, _⟩ ⟨p₂, elseWord⟩
        apply (parseTerm_sound stop rest₄).bind
        rintro ⟨no, rest₅, _⟩ ⟨second, inNo, noForm⟩
        simp only at *
        subst inNo elseWord inYes thenWord inTest
        refine ⟨token :: test ++ ⟨.keyword .thenWord, p₁⟩ :: first ++
          ⟨.keyword .elseWord, p₂⟩ :: second, by simp, ?_⟩
        simpa [opening?_eq_conditional.mp opens] using Derives.conditional testForm yesForm noForm
termination_by tokens.length * 16 + 9
decreasing_by all_goals simp only [List.length_nil, List.length_cons]; omega

theorem parseArrow_sound (stop : Position) (tokens : List Token) :
    Outcome (fun _ => True) (ReadsForm Tier.arrow tokens) (parseArrow stop tokens) := by
  unfold parseArrow
  apply (parseOperation_sound stop Tier.operators (by decide) tokens).bind
  rintro ⟨dom, rest, _⟩ ⟨domain, inDomain, domainForm⟩
  simp only
  split
  · rename_i rest₁ _ accepted
    obtain ⟨pos, arrow⟩ := accept?_sound accepted
    apply (parseTerm_sound stop rest₁).bind
    rintro ⟨cod, rest₂, _⟩ ⟨codomain, inCodomain, codomainForm⟩
    simp only at *
    subst inCodomain arrow inDomain
    refine ⟨domain ++ ⟨.symbol .arrow, pos⟩ :: codomain, by simp, ?_⟩
    simpa using Derives.arrow domainForm codomainForm
  · exact ⟨domain, inDomain, domainForm.mono (by decide) (by decide)⟩
termination_by tokens.length * 16 + 8
decreasing_by
  · simp only [Tier.operators]; omega
  · omega

theorem parseOperation_sound (stop : Position) (tiers : Nat) (most : tiers ≤ Tier.operators)
    (tokens : List Token) :
    Outcome (fun _ => True) (ReadsForm (Tier.unary + tiers) tokens)
      (parseOperation stop tiers tokens) := by
  cases tiers with
  | zero =>
    unfold parseOperation
    exact parseUnary_sound stop tokens
  | succ tiers =>
    unfold parseOperation
    apply (parseOperation_sound stop tiers (Nat.le_of_lt most) tokens).bind
    rintro ⟨left, rest, _⟩ ⟨used, inLeft, leftForm⟩
    have loosest : Tier.unary + (tiers + 1) ≤ Tier.term := by
      simp only [Tier.unary, Tier.term, Tier.operators] at *
      omega
    have form : Derives (Tier.unary + (tiers + 1)) (used.map Token.lexeme) left :=
      leftForm.mono (by omega) loosest
    have operand : ∀ op : Operator, op.rule.whole = Tier.unary + (tiers + 1) →
        Derives op.rule.left (used.map Token.lexeme) left := by
      intro op same
      rw [(rule_operands same).1]
      split
      · exact leftForm
      · exact form
    apply (parseOperands_sound stop tiers most left rest used operand form).bind
    intro p further
    exact further.reads inLeft _
termination_by tokens.length * 16 + tiers + 2
decreasing_by all_goals omega

theorem parseOperands_sound (stop : Position) (tiers : Nat) (most : tiers + 1 ≤ Tier.operators)
    (left : Surface) (tokens before : List Token)
    (leftForm : ∀ op : Operator, op.rule.whole = Tier.unary + (tiers + 1) →
      Derives op.rule.left (before.map Token.lexeme) left)
    (form : Derives (Tier.unary + (tiers + 1)) (before.map Token.lexeme) left) :
    Outcome (fun _ => True) (ExtendsForm (Tier.unary + (tiers + 1)) before tokens)
      (parseOperands stop tiers left tokens) := by
  cases tokens with
  | nil =>
    unfold parseOperands
    exact ⟨[], rfl, by simpa using form⟩
  | cons token rest =>
    unfold parseOperands
    simp only
    cases found : token.lexeme.operator? tiers with
    | none => exact ⟨[], rfl, by simpa using form⟩
    | some op =>
      obtain ⟨sign, tier⟩ := operator?_eq_some.mp found
      apply (parseOperation_sound stop tiers (Nat.le_of_lt most) rest).bind
      rintro ⟨right, rest₁, _⟩ ⟨operand, inRight, rightForm⟩
      have rightTier := (rule_operands tier).2
      have operation : Derives (Tier.unary + (tiers + 1))
          ((before ++ token :: operand).map Token.lexeme) (.binop op left right) := by
        have derived := Derives.operation op (leftForm op tier) (rightTier ▸ rightForm)
        rw [tier, ← sign] at derived
        simpa using derived
      simp only at *
      split
      · split
        · trivial
        · exact ⟨token :: operand, congrArg (token :: ·) inRight, operation⟩
      · rename_i associates
        -- All operators of this tier associate, so the operation may be a left operand again.
        have again : ∀ op' : Operator, op'.rule.whole = Tier.unary + (tiers + 1) →
            Derives op'.rule.left ((before ++ token :: operand).map Token.lexeme)
              (.binop op left right) := by
          intro op' same
          rw [(rule_operands same).1, if_neg associates]
          exact operation
        apply (parseOperands_sound stop tiers most _ rest₁ _ again operation).bind
        rintro ⟨t, rest₂, _⟩ ⟨further, inRest, form⟩
        refine ⟨token :: operand ++ further, ?_, by simpa using form⟩
        simp only at *
        rw [inRight, inRest]
        simp
termination_by tokens.length * 16 + tiers + 2
decreasing_by all_goals simp only [List.length_cons]; omega

theorem parseUnary_sound (stop : Position) (tokens : List Token) :
    Outcome (fun _ => True) (ReadsForm Tier.unary tokens) (parseUnary stop tokens) := by
  unfold parseUnary
  generalize front : tokens = list
  split
  · rename_i pos rest
    apply (parseUnary_sound stop rest).bind
    rintro ⟨t, rest₁, _⟩ ⟨used, inOperand, form⟩
    exact ⟨⟨.symbol .bang, pos⟩ :: used, congrArg _ inOperand, .negation form⟩
  · rename_i digits pos rest
    apply (integer_sound pos digits).bind
    rintro w ⟨n, value, rfl⟩
    exact ⟨[_, _], rfl, .negative value⟩
  · apply (parseAtom_sound stop list).bind
    rintro ⟨fn, rest, _⟩ ⟨used, inFn, form⟩
    apply (parseArguments_sound stop fn rest used (form.mono (by decide) (by decide))).bind
    intro p further
    exact (further.reads inFn _).mono (by decide) (by decide)
termination_by tokens.length * 16 + 1
decreasing_by
  · simp only [front, List.length_cons]; omega
  · omega
  · omega

theorem parseArguments_sound (stop : Position) (fn : Surface) (tokens before : List Token)
    (form : Derives Tier.application (before.map Token.lexeme) fn) :
    Outcome (fun _ => True) (ExtendsForm Tier.application before tokens)
      (parseArguments stop fn tokens) := by
  cases tokens with
  | nil =>
    unfold parseArguments
    exact ⟨[], rfl, by simpa using form⟩
  | cons token rest =>
    unfold parseArguments
    simp only
    split
    · apply (parseAtom_sound stop (token :: rest)).bind
      rintro ⟨arg, rest₁, _⟩ ⟨used, inArg, argForm⟩
      have applied : Derives Tier.application ((before ++ used).map Token.lexeme) (.app fn arg) := by
        simpa using Derives.application form argForm
      apply (parseArguments_sound stop _ rest₁ _ applied).bind
      rintro ⟨t, rest₂, _⟩ ⟨further, inRest, form⟩
      refine ⟨used ++ further, ?_, by simpa using form⟩
      simp only at *
      rw [inArg, inRest, List.append_assoc]
    · exact ⟨[], rfl, by simpa using form⟩
termination_by tokens.length * 16 + 1
decreasing_by all_goals omega

theorem parseAtom_sound (stop : Position) (tokens : List Token) :
    Outcome (fun _ => True) (ReadsForm Tier.atom tokens) (parseAtom stop tokens) := by
  unfold parseAtom
  generalize front : tokens = list
  split
  · trivial
  · rename_i digits pos rest
    apply (integer_sound pos digits).bind
    rintro w ⟨n, value, rfl⟩
    exact ⟨[_], rfl, .numeral value⟩
  · rename_i x pos rest
    apply (variableOrUniverse_sound pos x).bind
    intro t form
    exact ⟨[_], rfl, form⟩
  · rename_i word pos rest
    split
    · rename_i c means
      exact ⟨[_], rfl, .constant (constant?_eq_some.mp means)⟩
    · trivial
  · rename_i pos rest
    apply (parseTerm_sound stop rest).bind
    rintro ⟨t, rest₁, _⟩ ⟨subject, inSubject, subjectForm⟩
    simp only
    split
    · rename_i rest₂ _ accepted
      obtain ⟨p₁, colon⟩ := accept?_sound accepted
      apply (parseTerm_sound stop rest₂).bind
      rintro ⟨type, rest₃, _⟩ ⟨ascribed, inType, typeForm⟩
      apply (expect_sound stop _ rest₃).bind
      rintro ⟨_, rest₄, _⟩ ⟨p₂, closeParen⟩
      simp only at *
      subst closeParen inType colon inSubject
      refine ⟨⟨.symbol .openParen, pos⟩ :: subject ++ ⟨.symbol .colon, p₁⟩ :: ascribed ++
        [⟨.symbol .closeParen, p₂⟩], by simp, ?_⟩
      simpa using Derives.ascription subjectForm typeForm
    · apply (expect_sound stop _ rest₁).bind
      rintro ⟨_, rest₂, _⟩ ⟨p₁, closeParen⟩
      simp only at *
      subst closeParen inSubject
      refine ⟨⟨.symbol .openParen, pos⟩ :: subject ++ [⟨.symbol .closeParen, p₁⟩], by simp, ?_⟩
      simpa using Derives.brackets subjectForm
  · trivial
termination_by tokens.length * 16
decreasing_by all_goals simp only [front, List.length_cons]; omega

end

/-- The answer is the value, with these tokens left. -/
def Yields {α : Type} {bound : Nat} (x : Except Error (Parsed α bound)) (a : α)
    (rest : List Token) : Prop :=
  ∃ fewer, x = .ok ⟨a, rest, fewer⟩

theorem Yields.bind {α β : Type} {bound bound' : Nat} {x : Except Error (Parsed α bound)}
    {f : Parsed α bound → Except Error (Parsed β bound')} {a : α} {b : β} {rest rest' : List Token}
    (first : Yields x a rest) (next : ∀ fewer, Yields (f ⟨a, rest, fewer⟩) b rest') :
    Yields (x >>= f) b rest' := by
  obtain ⟨fewer, rfl⟩ := first
  exact next fewer

def Symbol.operator? : Symbol → Option Operator
  | plus => some .add
  | minus => some .sub
  | times => some .mul
  | slash => some .div
  | equal => some .eq
  | less => some .lt
  | and => some .and
  | or => some .or
  | _ => none

/-- The tier of the forms that go on with the lexeme behind their first part. -/
def Lexeme.continues? : Lexeme → Option Nat
  | ident _ | numeral _ => some Tier.application
  | keyword word => word.constant?.map fun _ => Tier.application
  | symbol .openParen => some Tier.application
  | symbol .arrow => some Tier.arrow
  | symbol sign => sign.operator?.map fun op => op.rule.whole

theorem continues?_of_beginsAtom {lexeme : Lexeme} (begins : lexeme.beginsAtom) :
    lexeme.continues? = some Tier.application := by
  cases lexeme with
  | ident x => rfl
  | numeral digits => rfl
  | keyword word => cases word <;> first | rfl | cases begins
  | symbol sign => cases sign <;> first | rfl | cases begins

@[simp] theorem continues?_sign (op : Operator) :
    (Lexeme.symbol op.sign).continues? = some op.rule.whole := by
  cases op <;> rfl

theorem continues?_range {lexeme : Lexeme} {further : Nat}
    (continues : lexeme.continues? = some further) :
    Tier.atom < further ∧ further ≤ Tier.arrow := by
  cases lexeme with
  | ident x => cases continues; decide
  | numeral digits => cases continues; decide
  | keyword word => cases word <;> cases continues <;> decide
  | symbol sign => cases sign <;> cases continues <;> decide

/-- No form of the tier goes on with what is at the front. -/
def Stops (tier : Nat) (rest : List Token) : Prop :=
  ∀ token ∈ rest.head?, ∀ further ∈ token.lexeme.continues?, tier < further

namespace Stops

variable {tier : Nat} {rest : List Token}

theorem nil (tier : Nat) : Stops tier [] := by
  intro token front
  cases front

theorem mono {tier' : Nat} (stops : Stops tier rest) (le : tier' ≤ tier) : Stops tier' rest := by
  intro token front further continues
  exact Nat.lt_of_le_of_lt le (stops token front further continues)

theorem cons {lexeme : Lexeme} {further : Nat} (pos : Position) (rest : List Token)
    (continues : lexeme.continues? = some further) (below : tier < further) :
    Stops tier (⟨lexeme, pos⟩ :: rest) := by
  intro token front k found
  cases front
  rw [continues, Option.mem_some_iff] at found
  exact found ▸ below

theorem atom (rest : List Token) : Stops Tier.atom rest := by
  intro token _ further continues
  exact (continues?_range continues).1

theorem of_arrow (stops : Stops Tier.arrow rest) : Stops tier rest := by
  intro token front further continues
  have looser := stops token front further continues
  exact absurd (continues?_range continues).2 (Nat.not_le_of_lt looser)

/-- What continues no form at all ends every form. -/
theorem closing {lexeme : Lexeme} (pos : Position) (rest : List Token)
    (closes : lexeme.continues? = none) : Stops tier (⟨lexeme, pos⟩ :: rest) := by
  intro token front k found
  cases front
  rw [closes] at found
  cases found

theorem sign (op : Operator) (pos : Position) (rest : List Token) :
    Stops op.rule.right (⟨.symbol op.sign, pos⟩ :: rest) :=
  .cons pos rest (continues?_sign op) (by cases op <;> decide)

theorem not_beginsAtom {token : Token} (stops : Stops Tier.application (token :: rest)) :
    token.lexeme.beginsAtom = false := by
  rw [Bool.eq_false_iff]
  intro begins
  exact Nat.lt_irrefl _ (stops token rfl _ (continues?_of_beginsAtom begins))

theorem operator?_eq_none {tiers : Nat} {token : Token}
    (stops : Stops (Tier.unary + (tiers + 1)) (token :: rest)) :
    token.lexeme.operator? tiers = none := by
  rw [Option.eq_none_iff_forall_ne_some]
  intro op found
  obtain ⟨spelled, same⟩ := operator?_eq_some.mp found
  have looser := stops token rfl op.rule.whole (by rw [spelled, continues?_sign]; rfl)
  omega

end Stops

theorem expect_yields (stop : Position) (wanted : Lexeme) (pos : Position) (rest : List Token) :
    Yields (expect stop wanted (⟨wanted, pos⟩ :: rest)) () rest :=
  ⟨by simp, by simp [expect]⟩

theorem expectName_yields (stop : Position) (x : Name) (pos : Position) (rest : List Token) :
    Yields (expectName stop (⟨.ident x, pos⟩ :: rest)) x rest :=
  ⟨by simp, rfl⟩

theorem integer_eq {digits : String} {n : Nat} (pos : Position) (value : Numeral digits.toList n) :
    integer pos digits = .ok (Int64.ofNat n) := by
  rw [integer, word?_eq_some.mpr ⟨n, value, rfl⟩]

/-- The part of the parser that reads the forms of a tier. -/
def parseTier (stop : Position) (tier : Nat) (tokens : List Token) :
    Except Error (Parsed Surface tokens.length) :=
  match tier with
  | 0 => parseAtom stop tokens
  | 1 => do
    let fn ← parseAtom stop tokens
    let t ← parseArguments stop fn.value fn.rest
    return ⟨t.value, t.rest, Nat.lt_of_le_of_lt (Nat.le_of_lt_succ t.fewer) fn.fewer⟩
  | 8 => parseArrow stop tokens
  | 9 => parseTerm stop tokens
  | tiers + 2 => parseOperation stop tiers tokens

theorem parseTier_operation {stop : Position} {tiers : Nat} {tokens : List Token}
    (most : tiers ≤ Tier.operators) :
    parseTier stop (Tier.unary + tiers) tokens = parseOperation stop tiers tokens := by
  match tiers with
  | 0 | 1 | 2 | 3 | 4 | 5 => rfl
  | _ + 6 => simp [Tier.operators] at most

section

variable {stop pos : Position} {tokens rest rest' : List Token}

theorem parseAtom_ident {x : Name} {t : Surface} (reads : variableOrUniverse pos x = .ok t) :
    Yields (parseAtom stop (⟨.ident x, pos⟩ :: rest)) t rest := by
  rw [parseAtom, reads]
  exact ⟨_, rfl⟩

theorem variableOrUniverse_var {x : Name} (plain : ¬ SpellsUniverse x) :
    variableOrUniverse pos x = .ok (.var x) := by
  rw [variableOrUniverse, levelDigits?_eq_none.mpr plain]

theorem variableOrUniverse_univ {x : Name} {digits : List Char} {n : Nat}
    (spelled : x.toList = 'U' :: digits) (value : Numeral digits n)
    (noLeadingZero : digits.head? = some '0' → digits = ['0']) :
    variableOrUniverse pos x = .ok (.const (.univ (Int64.ofNat n))) := by
  have canonical : ¬ (digits.length > 1 ∧ digits.head? = some '0') := by
    rintro ⟨long, zero⟩
    rw [noLeadingZero zero] at long
    exact Nat.lt_irrefl _ long
  rw [variableOrUniverse, levelDigits?_eq_some.mpr ⟨spelled, value.nonempty, value.ascii⟩]
  simp only [if_neg canonical, word?_eq_some.mpr ⟨n, value, rfl⟩]

theorem parseAtom_brackets {p : Position} {t : Surface}
    (inside : Yields (parseTerm stop rest) t (⟨.symbol .closeParen, p⟩ :: rest')) :
    Yields (parseAtom stop (⟨.symbol .openParen, pos⟩ :: rest)) t rest' := by
  rw [parseAtom]
  apply inside.bind
  intro _
  exact (expect_yields stop _ p rest').bind fun _ => ⟨_, rfl⟩

theorem parseAtom_ascription {p p' : Position} {t type : Surface} {rest'' : List Token}
    (subject : Yields (parseTerm stop rest) t (⟨.symbol .colon, p⟩ :: rest'))
    (ascribed : Yields (parseTerm stop rest') type (⟨.symbol .closeParen, p'⟩ :: rest'')) :
    Yields (parseAtom stop (⟨.symbol .openParen, pos⟩ :: rest)) (.ascribe t type) rest'' := by
  rw [parseAtom]
  apply subject.bind
  intro _
  apply ascribed.bind
  intro _
  exact (expect_yields stop _ p' rest'').bind fun _ => ⟨_, rfl⟩

theorem parseArguments_stops {fn : Surface} (stops : Stops Tier.application rest) :
    Yields (parseArguments stop fn rest) fn rest := by
  unfold parseArguments
  cases rest with
  | nil => exact ⟨_, rfl⟩
  | cons token rest =>
    simp only [stops.not_beginsAtom]
    exact ⟨_, rfl⟩

theorem parseArguments_atom {token : Token} {fn arg t : Surface} {rest'' : List Token}
    (begins : token.lexeme.beginsAtom)
    (atom : Yields (parseAtom stop (token :: rest)) arg rest')
    (further : Yields (parseArguments stop (.app fn arg) rest') t rest'') :
    Yields (parseArguments stop fn (token :: rest)) t rest'' := by
  unfold parseArguments
  simp only [if_pos begins]
  apply atom.bind
  intro _
  exact further.bind fun _ => ⟨_, rfl⟩

theorem parseTier_application {fn t : Surface} (atom : Yields (parseAtom stop tokens) fn rest)
    (further : Yields (parseArguments stop fn rest) t rest') :
    Yields (parseTier stop Tier.application tokens) t rest' := by
  apply atom.bind
  intro _
  exact further.bind fun _ => ⟨_, rfl⟩

theorem parseUnary_negation {t : Surface} (operand : Yields (parseUnary stop rest) t rest') :
    Yields (parseUnary stop (⟨.symbol .bang, pos⟩ :: rest)) (.not t) rest' := by
  rw [parseUnary]
  exact operand.bind fun _ => ⟨_, rfl⟩

theorem parseUnary_negative {p : Position} {digits : String} {n : Nat}
    (value : Numeral digits.toList n) :
    Yields (parseUnary stop (⟨.symbol .minus, pos⟩ :: ⟨.numeral digits, p⟩ :: rest))
      (.const (.int (-Int64.ofNat n))) rest := by
  rw [parseUnary, integer_eq p value]
  exact ⟨_, rfl⟩

theorem parseUnary_application {token : Token} {t : Surface} (begins : token.lexeme.beginsAtom)
    (form : Yields (parseTier stop Tier.application (token :: rest)) t rest') :
    Yields (parseUnary stop (token :: rest)) t rest' := by
  unfold parseUnary
  obtain ⟨lexeme, pos⟩ := token
  cases lexeme with
  | symbol sign => cases sign <;> first | exact form | cases begins
  | _ => exact form

theorem parseOperation_zero (stop : Position) (tokens : List Token) :
    parseOperation stop 0 tokens = parseUnary stop tokens := by
  rw [parseOperation]

theorem parseOperation_succ {tiers : Nat} {left t : Surface}
    (first : Yields (parseOperation stop tiers tokens) left rest)
    (further : Yields (parseOperands stop tiers left rest) t rest') :
    Yields (parseOperation stop (tiers + 1) tokens) t rest' := by
  unfold parseOperation
  apply first.bind
  intro _
  exact further.bind fun _ => ⟨_, rfl⟩

theorem parseOperands_stops {tiers : Nat} {left : Surface}
    (stops : Stops (Tier.unary + (tiers + 1)) rest) :
    Yields (parseOperands stop tiers left rest) left rest := by
  unfold parseOperands
  cases rest with
  | nil => exact ⟨_, rfl⟩
  | cons token rest =>
    simp only [stops.operator?_eq_none]
    exact ⟨_, rfl⟩

theorem parseOperands_associative {op : Operator} {tiers : Nat} {left right t : Surface}
    {rest'' : List Token} (tier : op.rule.whole = Tier.unary + (tiers + 1))
    (associates : tiers ≠ comparisonTier) (operand : Yields (parseOperation stop tiers rest) right rest')
    (further : Yields (parseOperands stop tiers (.binop op left right) rest') t rest'') :
    Yields (parseOperands stop tiers left (⟨.symbol op.sign, pos⟩ :: rest)) t rest'' := by
  unfold parseOperands
  simp only [operator?_eq_some.mpr ⟨rfl, tier⟩]
  apply operand.bind
  intro _
  simp only [if_neg associates]
  exact further.bind fun _ => ⟨_, rfl⟩

theorem operatorPlace?_stops {tiers : Nat} (stops : Stops (Tier.unary + (tiers + 1)) rest) :
    operatorPlace? tiers rest = none := by
  cases rest with
  | nil => rfl
  | cons token rest => simp [operatorPlace?, stops.operator?_eq_none]

theorem parseOperands_comparison {op : Operator} {tiers : Nat} {left right : Surface}
    (tier : op.rule.whole = Tier.unary + (tiers + 1)) (compares : tiers = comparisonTier)
    (operand : Yields (parseOperation stop tiers rest) right rest')
    (stops : Stops (Tier.unary + (tiers + 1)) rest') :
    Yields (parseOperands stop tiers left (⟨.symbol op.sign, pos⟩ :: rest))
      (.binop op left right) rest' := by
  unfold parseOperands
  simp only [operator?_eq_some.mpr ⟨rfl, tier⟩]
  apply operand.bind
  intro _
  simp only [if_pos compares, operatorPlace?_stops stops]
  exact ⟨_, rfl⟩

theorem accept?_arrow_stops (stops : Stops Tier.arrow rest) :
    accept? (.symbol .arrow) rest = none := by
  cases rest with
  | nil => rfl
  | cons token rest =>
    refine if_neg fun same => ?_
    have looser := stops token rfl Tier.arrow (by rw [same]; rfl)
    exact Nat.lt_irrefl _ looser

theorem parseArrow_stops {t : Surface}
    (form : Yields (parseOperation stop Tier.operators tokens) t rest)
    (stops : Stops Tier.arrow rest) : Yields (parseArrow stop tokens) t rest := by
  unfold parseArrow
  apply form.bind
  intro _
  simp only [accept?_arrow_stops stops]
  exact ⟨_, rfl⟩

theorem parseArrow_arrow {dom cod : Surface}
    (domain : Yields (parseOperation stop Tier.operators tokens) dom
      (⟨.symbol .arrow, pos⟩ :: rest))
    (codomain : Yields (parseTerm stop rest) cod rest') :
    Yields (parseArrow stop tokens) (.bind .pi wildcard dom cod) rest' := by
  unfold parseArrow
  apply domain.bind
  intro _
  exact codomain.bind fun _ => ⟨_, rfl⟩

theorem parseTerm_arrow {token : Token} {t : Surface} (plain : token.lexeme.opening? = none)
    (form : Yields (parseArrow stop (token :: rest)) t rest') :
    Yields (parseTerm stop (token :: rest)) t rest' := by
  unfold parseTerm
  simp only [plain]
  exact form

theorem parseTerm_lambda {opening : Lexeme} {x : Name} {dom body : Surface} {p p' p'' : Position}
    {rest'' : List Token} (opens : opening ∈ openings .lam)
    (domain : Yields (parseTerm stop rest) dom (⟨.symbol .dot, p''⟩ :: rest'))
    (under : Yields (parseTerm stop rest') body rest'') :
    Yields
      (parseTerm stop (⟨opening, pos⟩ :: ⟨.ident x, p⟩ :: ⟨.symbol .colon, p'⟩ :: rest))
      (.bind .lam x dom body) rest'' := by
  unfold parseTerm
  simp only [opening?_eq_lambda.mpr opens]
  apply (expectName_yields stop x p _).bind
  intro _
  apply (expect_yields stop _ p' _).bind
  intro _
  apply domain.bind
  intro _
  apply (expect_yields stop _ p'' _).bind
  intro _
  exact under.bind fun _ => ⟨_, rfl⟩

theorem parseTerm_quantifier {b : Binder} {opening : Lexeme} {x : Name} {dom body : Surface}
    {p₁ p₂ p₃ p₄ p₅ : Position} {rest'' : List Token} (type : b ≠ .lam)
    (opens : opening ∈ openings b)
    (domain : Yields (parseTerm stop rest) dom
      (⟨.symbol .closeParen, p₄⟩ :: ⟨.symbol .dot, p₅⟩ :: rest'))
    (under : Yields (parseTerm stop rest') body rest'') :
    Yields
      (parseTerm stop (⟨opening, pos⟩ :: ⟨.symbol .openParen, p₁⟩ :: ⟨.ident x, p₂⟩ ::
        ⟨.symbol .colon, p₃⟩ :: rest))
      (.bind b x dom body) rest'' := by
  unfold parseTerm
  simp only [opening?_eq_quantifier.mpr ⟨type, opens⟩]
  apply (expect_yields stop _ p₁ _).bind
  intro _
  apply (expectName_yields stop x p₂ _).bind
  intro _
  apply (expect_yields stop _ p₃ _).bind
  intro _
  apply domain.bind
  intro _
  apply (expect_yields stop _ p₄ _).bind
  intro _
  apply (expect_yields stop _ p₅ _).bind
  intro _
  exact under.bind fun _ => ⟨_, rfl⟩

theorem parseTerm_conditional {t yes no : Surface} {p p' : Position} {rest'' rest₃ : List Token}
    (test : Yields (parseTerm stop rest) t (⟨.keyword .thenWord, p⟩ :: rest'))
    (first : Yields (parseTerm stop rest') yes (⟨.keyword .elseWord, p'⟩ :: rest''))
    (second : Yields (parseTerm stop rest'') no rest₃) :
    Yields (parseTerm stop (⟨.keyword .ifWord, pos⟩ :: rest)) (.cond t yes no) rest₃ := by
  unfold parseTerm
  simp only [Lexeme.opening?]
  apply test.bind
  intro _
  apply (expect_yields stop _ p _).bind
  intro _
  apply first.bind
  intro _
  apply (expect_yields stop _ p' _).bind
  intro _
  exact second.bind fun _ => ⟨_, rfl⟩

end

theorem noOperator {tier : Nat} (outside : tier ≤ Tier.unary ∨ Tier.arrow ≤ tier) (tiers : Nat)
    (most : tiers < Tier.operators) (same : tier = Tier.unary + (tiers + 1)) :
    tiers = comparisonTier := by
  simp only [Tier.unary, Tier.arrow, Tier.operators] at *
  omega

/-- The tokens are read as a form of the tier, whatever follows that stops it. Where the tier
associates to the left, they are also read as the front of a longer form. -/
structure Completes (stop : Position) (tier : Nat) (tokens : List Token) (t : Surface) : Prop where
  alone : ∀ rest, Stops tier rest → Yields (parseTier stop tier (tokens ++ rest)) t rest
  arguments : tier = Tier.application → ∀ {rest u rest'},
    Yields (parseArguments stop t rest) u rest' →
      Yields (parseTier stop Tier.application (tokens ++ rest)) u rest'
  operands : ∀ {tiers}, tiers < Tier.operators → tier = Tier.unary + (tiers + 1) →
    tiers ≠ comparisonTier → ∀ {rest u rest'},
    Stops (Tier.unary + tiers) rest → Yields (parseOperands stop tiers t rest) u rest' →
      Yields (parseOperation stop (tiers + 1) (tokens ++ rest)) u rest'

namespace Completes

variable {stop : Position} {tokens : List Token} {t : Surface}

/-- At the tiers where nothing associates there is no more to show. -/
theorem of_alone {tier : Nat} (noApplication : tier ≠ Tier.application)
    (noChain : ∀ tiers < Tier.operators, tier = Tier.unary + (tiers + 1) → tiers = comparisonTier)
    (alone : ∀ rest, Stops tier rest → Yields (parseTier stop tier (tokens ++ rest)) t rest) :
    Completes stop tier tokens t :=
  ⟨alone, fun same => absurd same noApplication,
    fun most same associates => absurd (noChain _ most same) associates⟩

theorem of_arguments
    (arguments : ∀ {rest u rest'}, Yields (parseArguments stop t rest) u rest' →
      Yields (parseTier stop Tier.application (tokens ++ rest)) u rest') :
    Completes stop Tier.application tokens t := by
  refine ⟨?_, fun _ => arguments, ?_⟩
  · intro rest stops
    exact arguments (parseArguments_stops stops)
  · intro tiers _ same
    simp only [Tier.application, Tier.unary] at same
    omega

theorem of_operands {tiers : Nat} (most : tiers < Tier.operators)
    (operands : ∀ {rest u rest'}, Stops (Tier.unary + tiers) rest →
      Yields (parseOperands stop tiers t rest) u rest' →
      Yields (parseOperation stop (tiers + 1) (tokens ++ rest)) u rest') :
    Completes stop (Tier.unary + (tiers + 1)) tokens t := by
  refine ⟨?_, ?_, ?_⟩
  · intro rest stops
    rw [parseTier_operation most]
    exact operands (stops.mono (by omega)) (parseOperands_stops stops)
  · intro same
    simp only [Tier.application, Tier.unary] at same
    omega
  · intro tiers' _ same _ rest u rest' stops further
    obtain rfl : tiers' = tiers := by omega
    exact operands stops further

/-- An operand alone is an operation. -/
theorem operand (tiers : Nat) (form : Completes stop (Tier.unary + tiers) tokens t)
    (most : tiers < Tier.operators) : Completes stop (Tier.unary + (tiers + 1)) tokens t := by
  apply of_operands most
  intro rest u rest' stops further
  have first := form.alone rest stops
  rw [parseTier_operation (Nat.le_of_lt most)] at first
  exact parseOperation_succ first further

/-- What is read as a form of a tier is read as one of the next tier, since no form of the next tier
goes on behind it. -/
theorem looser {tier : Nat} {lexeme : Lexeme} {pos : Position} (below : tier < Tier.term)
    (form : Completes stop tier (⟨lexeme, pos⟩ :: tokens) t)
    (begins : tier ≤ Tier.application → lexeme.beginsAtom)
    (plain : tier ≤ Tier.arrow → lexeme.opening? = none) :
    Completes stop (tier + 1) (⟨lexeme, pos⟩ :: tokens) t := by
  match tier with
  | 0 =>
    apply of_arguments
    intro rest u rest' further
    exact parseTier_application (form.alone rest (Stops.atom rest)) further
  | 1 =>
    apply of_alone (by decide) (noOperator (by decide))
    intro rest stops
    show Yields (parseOperation stop 0 _) t rest
    rw [parseOperation_zero]
    exact parseUnary_application (begins (Nat.le_refl _)) (form.alone rest (stops.mono (by decide)))
  | 2 => exact form.operand 0 (by decide)
  | 3 => exact form.operand 1 (by decide)
  | 4 => exact form.operand 2 (by decide)
  | 5 => exact form.operand 3 (by decide)
  | 6 => exact form.operand 4 (by decide)
  | 7 =>
    apply of_alone (by decide) (noOperator (by decide))
    intro rest stops
    exact parseArrow_stops (form.alone rest (stops.mono (by decide))) stops
  | 8 =>
    apply of_alone (by decide) (noOperator (by decide))
    intro rest stops
    exact parseTerm_arrow (plain (Nat.le_refl _)) (form.alone rest (stops.mono (by decide)))
  | _ + 9 => exact absurd below (by simp [Tier.term])

end Completes

theorem Derives.begins {tier : Nat} {ls : List Lexeme} {t : Surface} (form : Derives tier ls t) :
    ∃ first more, ls = first :: more ∧ (tier ≤ Tier.application → first.beginsAtom) ∧
      (tier ≤ Tier.arrow → first.opening? = none) := by
  induction form with
  | numeral value => exact ⟨_, _, rfl, fun _ => rfl, fun _ => rfl⟩
  | constant means =>
    rw [← constant?_eq_some] at means
    refine ⟨_, _, rfl, fun _ => ?_, fun _ => ?_⟩
    · simp only [Lexeme.beginsAtom, means, Option.isSome_some]
    · revert means
      cases ‹Keyword› <;> simp [Keyword.constant?, Lexeme.opening?]
  | univ spelled value canonical => exact ⟨_, _, rfl, fun _ => rfl, fun _ => rfl⟩
  | var plain => exact ⟨_, _, rfl, fun _ => rfl, fun _ => rfl⟩
  | brackets inside _ => exact ⟨_, _, rfl, fun _ => rfl, fun _ => rfl⟩
  | ascription subject ascribed _ _ =>
    rw [List.cons_append, List.cons_append]
    exact ⟨_, _, rfl, fun _ => rfl, fun _ => rfl⟩
  | application fn arg ih _ =>
    obtain ⟨first, more, rfl, begins, plain⟩ := ih
    exact ⟨first, _, rfl, begins, plain⟩
  | negation operand _ => exact ⟨_, _, rfl, fun tight => absurd tight (by decide), fun _ => rfl⟩
  | negative value => exact ⟨_, _, rfl, fun tight => absurd tight (by decide), fun _ => rfl⟩
  | operation op left right ih _ =>
    obtain ⟨first, more, rfl, -, plain⟩ := ih
    exact ⟨first, _, rfl, fun tight => absurd tight (by cases op <;> decide),
      fun _ => plain (by cases op <;> decide)⟩
  | arrow domain codomain ih _ =>
    obtain ⟨first, more, rfl, -, plain⟩ := ih
    exact ⟨first, _, rfl, fun tight => absurd tight (by decide), fun _ => plain (by decide)⟩
  | lambda opens domain under _ _ | quantifier type opens domain under _ _ =>
    exact ⟨_, _, rfl, fun tight => absurd tight (by decide), fun tight => absurd tight (by decide)⟩
  | conditional test first second _ _ _ =>
    rw [List.cons_append, List.cons_append]
    exact ⟨_, _, rfl, fun tight => absurd tight (by decide), fun tight => absurd tight (by decide)⟩
  | looser below form ih =>
    obtain ⟨first, more, rfl, begins, plain⟩ := ih
    exact ⟨first, more, rfl, fun h => begins (by omega), fun h => plain (by omega)⟩

theorem map_lexeme_eq_cons {tokens : List Token} {lexeme : Lexeme} {ls : List Lexeme} :
    tokens.map Token.lexeme = lexeme :: ls ↔
      ∃ pos rest, tokens = ⟨lexeme, pos⟩ :: rest ∧ rest.map Token.lexeme = ls := by
  rw [List.map_eq_cons_iff]
  constructor
  · rintro ⟨⟨_, pos⟩, rest, rfl, rfl, rfl⟩
    exact ⟨pos, rest, rfl, rfl⟩
  · rintro ⟨pos, rest, rfl, rfl⟩
    exact ⟨_, rest, rfl, rfl, rfl⟩

/-- The operands of an operation of a tier that associates are read one after another. -/
theorem Completes.operation {stop pos : Position} {op : Operator} {left right : List Token}
    {l r : Surface} (first : Completes stop op.rule.left left l)
    (second : Completes stop op.rule.right right r) :
    Completes stop op.rule.whole (left ++ ⟨.symbol op.sign, pos⟩ :: right) (.binop op l r) := by
  obtain ⟨tiers, tier, most⟩ : ∃ tiers, op.rule.whole = Tier.unary + (tiers + 1) ∧
      tiers < Tier.operators := ⟨op.rule.whole - Tier.product, by cases op <;> decide⟩
  obtain ⟨leftTier, rightTier⟩ := rule_operands tier
  have ahead : ∀ rest, Stops (Tier.unary + tiers) (⟨.symbol op.sign, pos⟩ :: rest) :=
    fun rest => rightTier ▸ Stops.sign op pos rest
  have operand : ∀ rest, Stops (Tier.unary + tiers) rest →
      Yields (parseOperation stop tiers (right ++ rest)) r rest := by
    intro rest stops
    have reads := second.alone rest (rightTier ▸ stops)
    rwa [rightTier, parseTier_operation (Nat.le_of_lt most)] at reads
  rw [tier]
  by_cases compares : tiers = comparisonTier
  · rw [leftTier, if_pos compares] at first
    apply of_alone
    · unfold Tier.unary Tier.application
      omega
    · intro tiers' _ same
      omega
    intro rest stops
    have reads := first.alone _ (ahead (right ++ rest))
    rw [parseTier_operation (Nat.le_of_lt most)] at reads
    rw [List.append_assoc, List.cons_append, parseTier_operation most]
    apply parseOperation_succ reads
    exact parseOperands_comparison tier compares (operand rest (stops.mono (by omega))) stops
  · rw [leftTier, if_neg compares] at first
    apply of_operands most
    intro rest u rest' stops further
    rw [List.append_assoc, List.cons_append]
    apply first.operands most rfl compares (ahead (right ++ rest))
    exact parseOperands_associative tier compares (operand rest stops) further

/-- Everything that the grammar derives is read. -/
theorem Derives.completes {tier : Nat} {ls : List Lexeme} {t : Surface} (form : Derives tier ls t)
    (stop : Position) {tokens : List Token} (spelled : tokens.map Token.lexeme = ls) :
    Completes stop tier tokens t := by
  induction form generalizing tokens with
  | numeral value =>
    simp only [map_lexeme_eq_cons, List.map_eq_nil_iff] at spelled
    obtain ⟨pos, _, rfl, rfl⟩ := spelled
    apply Completes.of_alone (by decide) (noOperator (by decide))
    intro rest _
    change Yields (parseAtom stop _) _ _
    rw [List.singleton_append, parseAtom, integer_eq pos value]
    exact ⟨_, rfl⟩
  | constant means =>
    simp only [map_lexeme_eq_cons, List.map_eq_nil_iff] at spelled
    obtain ⟨pos, _, rfl, rfl⟩ := spelled
    apply Completes.of_alone (by decide) (noOperator (by decide))
    intro rest _
    change Yields (parseAtom stop _) _ _
    rw [List.singleton_append, parseAtom]
    simp only [constant?_eq_some.mpr means]
    exact ⟨_, rfl⟩
  | univ spells value canonical =>
    simp only [map_lexeme_eq_cons, List.map_eq_nil_iff] at spelled
    obtain ⟨pos, _, rfl, rfl⟩ := spelled
    apply Completes.of_alone (by decide) (noOperator (by decide))
    intro rest _
    exact parseAtom_ident (variableOrUniverse_univ spells value canonical)
  | var plain =>
    simp only [map_lexeme_eq_cons, List.map_eq_nil_iff] at spelled
    obtain ⟨pos, _, rfl, rfl⟩ := spelled
    apply Completes.of_alone (by decide) (noOperator (by decide))
    intro rest _
    exact parseAtom_ident (variableOrUniverse_var plain)
  | brackets inside ih =>
    simp only [List.cons_append, map_lexeme_eq_cons, List.map_eq_append_iff,
      List.map_eq_nil_iff] at spelled
    obtain ⟨pos, _, rfl, used, _, rfl, inner, p, _, rfl, rfl⟩ := spelled
    apply Completes.of_alone (by decide) (noOperator (by decide))
    intro rest _
    rw [List.cons_append, List.append_assoc]
    exact parseAtom_brackets ((ih inner).alone _ (.closing p rest rfl))
  | ascription subject ascribed subjectIh ascribedIh =>
    simp only [List.cons_append, List.append_assoc, map_lexeme_eq_cons, List.map_eq_append_iff,
      List.map_eq_nil_iff] at spelled
    obtain ⟨pos, _, rfl, used, _, rfl, inner, p, _, rfl, used', _, rfl, inner', p', _, rfl, rfl⟩ :=
      spelled
    apply Completes.of_alone (by decide) (noOperator (by decide))
    intro rest _
    rw [List.cons_append, List.append_assoc, List.cons_append, List.append_assoc]
    exact parseAtom_ascription ((subjectIh inner).alone _ (.closing p _ rfl))
      ((ascribedIh inner').alone _ (.closing p' rest rfl))
  | application fn arg fnIh argIh =>
    obtain ⟨used, used', rfl, inner, inner'⟩ := List.map_eq_append_iff.mp spelled
    have atom := argIh inner'
    obtain ⟨first, more, rfl, begins, -⟩ := arg.begins
    obtain ⟨pos, tail, rfl, -⟩ := map_lexeme_eq_cons.mp inner'
    apply Completes.of_arguments
    intro rest u rest' further
    rw [List.append_assoc]
    exact (fnIh inner).arguments rfl
      (parseArguments_atom (begins (by decide)) (atom.alone rest (Stops.atom rest)) further)
  | negation operand ih =>
    obtain ⟨pos, used, rfl, inner⟩ := map_lexeme_eq_cons.mp spelled
    apply Completes.of_alone (by decide) (noOperator (by decide))
    intro rest stops
    have inside : Yields (parseOperation stop 0 (used ++ rest)) _ rest := (ih inner).alone rest stops
    show Yields (parseOperation stop 0 _) _ rest
    rw [parseOperation_zero] at inside ⊢
    exact parseUnary_negation inside
  | negative value =>
    simp only [map_lexeme_eq_cons, List.map_eq_nil_iff] at spelled
    obtain ⟨pos, _, rfl, p, _, rfl, rfl⟩ := spelled
    apply Completes.of_alone (by decide) (noOperator (by decide))
    intro rest _
    show Yields (parseOperation stop 0 _) _ rest
    rw [parseOperation_zero]
    exact parseUnary_negative value
  | operation op left right leftIh rightIh =>
    simp only [map_lexeme_eq_cons, List.map_eq_append_iff] at spelled
    obtain ⟨used, _, rfl, inner, pos, used', rfl, inner'⟩ := spelled
    exact .operation (leftIh inner) (rightIh inner')
  | arrow domain codomain domainIh codomainIh =>
    simp only [map_lexeme_eq_cons, List.map_eq_append_iff] at spelled
    obtain ⟨used, _, rfl, inner, pos, used', rfl, inner'⟩ := spelled
    apply Completes.of_alone (by decide) (noOperator (by decide))
    intro rest stops
    rw [List.append_assoc]
    exact parseArrow_arrow ((domainIh inner).alone _ (.cons pos _ rfl (by decide)))
      ((codomainIh inner').alone rest stops.of_arrow)
  | lambda opens domain under domainIh underIh =>
    simp only [List.cons_append, map_lexeme_eq_cons, List.map_eq_append_iff] at spelled
    obtain ⟨pos, _, rfl, p, _, rfl, p', _, rfl, used, _, rfl, inner, p'', used', rfl, inner'⟩ :=
      spelled
    apply Completes.of_alone (by decide) (noOperator (by decide))
    intro rest stops
    simp only [List.cons_append]
    rw [List.append_assoc]
    exact parseTerm_lambda opens ((domainIh inner).alone _ (.closing p'' _ rfl))
      ((underIh inner').alone rest stops)
  | quantifier type opens domain under domainIh underIh =>
    simp only [List.cons_append, map_lexeme_eq_cons, List.map_eq_append_iff] at spelled
    obtain ⟨pos, _, rfl, p₁, _, rfl, p₂, _, rfl, p₃, _, rfl, used, _, rfl, inner, p₄, _, rfl, p₅,
      used', rfl, inner'⟩ := spelled
    apply Completes.of_alone (by decide) (noOperator (by decide))
    intro rest stops
    simp only [List.cons_append]
    rw [List.append_assoc]
    exact parseTerm_quantifier type opens ((domainIh inner).alone _ (.closing p₄ _ rfl))
      ((underIh inner').alone rest stops)
  | conditional test first second testIh firstIh secondIh =>
    simp only [List.cons_append, List.append_assoc, map_lexeme_eq_cons,
      List.map_eq_append_iff] at spelled
    obtain ⟨pos, _, rfl, used, _, rfl, inner, p, _, rfl, used', _, rfl, inner', p', used'', rfl,
      inner''⟩ := spelled
    apply Completes.of_alone (by decide) (noOperator (by decide))
    intro rest stops
    simp only [List.cons_append]
    rw [List.append_assoc, List.cons_append, List.append_assoc]
    exact parseTerm_conditional ((testIh inner).alone _ (.closing p _ rfl))
      ((firstIh inner').alone _ (.closing p' _ rfl)) ((secondIh inner'').alone rest stops)
  | looser below form ih =>
    obtain ⟨first, more, rfl, begins, plain⟩ := form.begins
    have reads := ih spelled
    obtain ⟨pos, tail, rfl, -⟩ := map_lexeme_eq_cons.mp spelled
    exact reads.looser below begins plain

/-- A form that stands alone is read to the end. -/
theorem Derives.parseTerm {tokens : List Token} {t : Surface}
    (form : Derives Tier.term (tokens.map Token.lexeme) t) (stop : Position) :
    Yields (parseTerm stop tokens) t [] := by
  have reads := (form.completes stop rfl).alone [] (.nil Tier.term)
  rw [List.append_nil] at reads
  exact reads

/-- The grammar is unambiguous, since the parser gives one answer. -/
theorem Derives.unique {lexemes : List Lexeme} {t u : Surface} (form : Derives Tier.term lexemes t)
    (form' : Derives Tier.term lexemes u) : t = u := by
  have spelled : (lexemes.map fun lexeme => Token.mk lexeme .start).map Token.lexeme = lexemes := by
    rw [List.map_map]
    exact List.map_id lexemes
  rw [← spelled] at form form'
  obtain ⟨_, first⟩ := form.parseTerm .start
  obtain ⟨_, second⟩ := form'.parseTerm .start
  rw [first] at second
  cases second
  rfl

theorem parse_eq_ok_iff {text : List Char} {t : Surface} :
    parse text = .ok t ↔ ∃ tokens, Tokens.scan text = .ok tokens ∧
      Derives Tier.term (tokens.list.map Token.lexeme) t := by
  unfold parse
  cases scanned : Tokens.scan text with
  | error e =>
    constructor
    · intro parsed
      cases parsed
    · rintro ⟨tokens, other, -⟩
      cases other
  | ok tokens =>
    simp only [bind, Except.bind, Except.ok.injEq, exists_eq_left']
    constructor
    · intro parsed
      cases reads : parseTerm tokens.stop tokens.list with
      | error e => simp [reads] at parsed
      | ok p =>
        obtain ⟨value, rest, fewer⟩ := p
        obtain ⟨used, split, form⟩ := (parseTerm_sound tokens.stop tokens.list).of_eq_ok reads
        rw [reads] at parsed
        cases rest with
        | nil =>
          cases parsed
          rw [List.append_nil] at split
          exact split ▸ form
        | cons token rest => cases parsed
    · intro form
      obtain ⟨fewer, reads⟩ := form.parseTerm tokens.stop
      rw [reads]
      rfl

/-- A text is parsed as a term exactly if it is cut into tokens that the grammar derives the term
from, and tokens derive one term at most. -/
theorem parse_accepts_exactly_grammar :
    (∀ (text : List Char) (t : Surface), parse text = .ok t ↔
      ∃ tokens, Tokens.scan text = .ok tokens ∧
        Derives Tier.term (tokens.list.map Token.lexeme) t) ∧
    ∀ (lexemes : List Lexeme) (t u : Surface), Derives Tier.term lexemes t →
      Derives Tier.term lexemes u → t = u :=
  ⟨fun _ _ => parse_eq_ok_iff, fun _ _ _ form form' => form.unique form'⟩

/-- Differences group to the left, whatever separates their tokens. -/
theorem parse_accepts_exactly_grammar_differences :
    parse "x - y -- less y\n-1".toList =
      .ok (.binop .sub (.binop .sub (.var "x") (.var "y")) (.const (.int 1))) ∧
    ∀ u, Derives Tier.term
      [.ident "x", .symbol .minus, .ident "y", .symbol .minus, .numeral "1"] u →
      .binop .sub (.binop .sub (.var "x") (.var "y")) (.const (.int 1)) = u := by
  have x : Derives Tier.atom [.ident "x"] (.var "x") := .var (not_spellsUniverse (by decide))
  have y : Derives Tier.atom [.ident "y"] (.var "y") := .var (not_spellsUniverse (by decide))
  have one : Derives Tier.atom [.numeral "1"] (.const (.int 1)) :=
    .numeral ⟨by decide, List.all_eq_true.mp rfl, rfl, by decide⟩
  have form : Derives Tier.term
      [.ident "x", .symbol .minus, .ident "y", .symbol .minus, .numeral "1"]
      (.binop .sub (.binop .sub (.var "x") (.var "y")) (.const (.int 1))) :=
    .mono (.operation .sub (.operation .sub (x.mono (by decide) (by decide))
      (y.mono (by decide) (by decide))) (one.mono (by decide) (by decide))) (by decide) (by decide)
  have scans : Scans "x - y -- less y\n-1".toList
      [.ident "x", .symbol .minus, .ident "y", .symbol .minus, .numeral "1"] :=
    @Scans.lexeme 'x' _ _ 0 _ (by decide +kernel) <| @Scans.gap ' ' _ 0 _ (by decide +kernel) <|
    @Scans.lexeme '-' _ _ 0 _ (by decide +kernel) <| @Scans.gap ' ' _ 0 _ (by decide +kernel) <|
    @Scans.lexeme 'y' _ _ 0 _ (by decide +kernel) <| @Scans.gap ' ' _ 0 _ (by decide +kernel) <|
    @Scans.gap '-' _ 8 _ (by decide +kernel) <| @Scans.gap '\n' _ 0 _ (by decide +kernel) <|
    @Scans.lexeme '-' _ _ 0 _ (by decide +kernel) <|
    @Scans.lexeme '1' _ _ 0 _ (by decide +kernel) .nil
  obtain ⟨tokens, scanned, lexemes⟩ := scans.scan
  exact ⟨(parse_accepts_exactly_grammar.1 _ _).mpr ⟨tokens, scanned, lexemes ▸ form⟩,
    fun u other => parse_accepts_exactly_grammar.2 _ _ u form other⟩

end DepCalc.Source

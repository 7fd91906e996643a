import DepCalc.Proofs.Source.Cursor
import DepCalc.Proofs.Source.Positions

/-!
Progress of the parser. Read with a cursor from any place of a list of tokens, every form comes to an
end, with fuel in proportion to the tokens left: the cursor has then moved on, but not past the mark at
the end of the list, or an error is told at one of the tokens or at the mark. Nothing is read outside of
the list.
-/
namespace DepCalc.Source.Cursor

theorem levelTiers_eq {level tiers : Nat} (complements : level + (tiers + 1) = Tier.operators) :
    levelTiers level = tiers := by
  unfold levelTiers
  omega

theorem eq_comparisonLevel_iff {level tiers : Nat}
    (complements : level + (tiers + 1) = Tier.operators) :
    level = comparisonLevel ↔ tiers = comparisonTier := by
  unfold Tier.operators at complements
  unfold comparisonLevel comparisonTier
  omega

/-- With this fuel the reader follows the parser in each of its calls, as far as the fuel exceeds the
measure by which the parser descends. -/
structure Abreast (tokens : Tokens) (fuel : Nat) : Prop where
  term : ∀ {i list}, At tokens i list → list.length * 16 + 9 < fuel →
    Follows tokens i (term tokens.items fuel) (parseTerm tokens.stop list)
  quantifier : ∀ {i list}, At tokens i list → list.length * 16 + 10 < fuel →
    Follows tokens i (quantifier tokens.items fuel) (parseQuantifier tokens.stop list)
  arrow : ∀ {i list}, At tokens i list → list.length * 16 + 8 < fuel →
    Follows tokens i (arrow tokens.items fuel) (parseArrow tokens.stop list)
  binary : ∀ {level tiers i list}, level + tiers = Tier.operators → At tokens i list →
    list.length * 16 + tiers + 2 < fuel →
    Follows tokens i (binary tokens.items fuel level) (parseOperation tokens.stop tiers list)
  operands : ∀ {level tiers i list} left, level + (tiers + 1) = Tier.operators →
    At tokens i list → list.length * 16 + tiers + 2 < fuel →
    Follows tokens i (operands tokens.items fuel level left)
      (parseOperands tokens.stop tiers left list)
  unary : ∀ {i list}, At tokens i list → list.length * 16 + 1 < fuel →
    Follows tokens i (unary tokens.items fuel) (parseUnary tokens.stop list)
  arguments : ∀ {i list} fn, At tokens i list → list.length * 16 + 1 < fuel →
    Follows tokens i (arguments tokens.items fuel fn) (parseArguments tokens.stop fn list)
  atom : ∀ {i list}, At tokens i list → list.length * 16 < fuel →
    Follows tokens i (atom tokens.items fuel) (parseAtom tokens.stop list)

namespace Abreast

variable {tokens : Tokens} {fuel i : Nat} {list : List Token}

theorem term_succ (abreast : Abreast tokens fuel) (here : At tokens i list)
    (enough : list.length * 16 + 9 < fuel + 1) :
    Follows tokens i (Cursor.term tokens.items (fuel + 1)) (parseTerm tokens.stop list) := by
  unfold Cursor.term
  cases list with
  | nil =>
    unfold parseTerm
    exact .step here.look (abreast.arrow here (by omega))
  | cons token rest =>
    rw [List.length_cons] at enough
    apply Follows.step here.look
    have first : (front tokens (token :: rest)).lexeme?.bind Lexeme.opening? =
      token.lexeme.opening? := rfl
    cases opens : token.lexeme.opening? with
    | none =>
      unfold parseTerm
      simp only [first, opens]
      exact abreast.arrow here (by rw [List.length_cons]; omega)
    | some opening =>
      cases opening with
      | quantifier b =>
        rw [parseTerm_of_quantifier opens]
        simp only [first, opens]
        apply Follows.step here.next
        apply (abreast.quantifier here.behind (by omega)).bind
        intro q _ rest₁ _ there
        exact .ends there
      | lambda =>
        unfold parseTerm
        simp only [first, opens]
        apply Follows.step here.next
        apply (expectName_follows here.behind).bind
        intro x _ rest₁ _ behindName
        apply (expect_follows behindName _).bind
        intro _ _ rest₂ _ behindColon
        apply (abreast.term behindColon (by omega)).bind
        intro dom _ rest₃ _ behindDomain
        apply (expect_follows behindDomain _).bind
        intro _ _ rest₄ _ behindDot
        apply (abreast.term behindDot (by omega)).bind
        intro body _ rest₅ _ behindBody
        exact .ends behindBody
      | conditional =>
        unfold parseTerm
        simp only [first, opens]
        apply Follows.step here.next
        apply (abreast.term here.behind (by omega)).bind
        intro test _ rest₁ _ behindTest
        apply (expect_follows behindTest _).bind
        intro _ _ rest₂ _ behindThen
        apply (abreast.term behindThen (by omega)).bind
        intro yes _ rest₃ _ behindYes
        apply (expect_follows behindYes _).bind
        intro _ _ rest₄ _ behindElse
        apply (abreast.term behindElse (by omega)).bind
        intro no _ rest₅ _ behindNo
        exact .ends behindNo

theorem quantifier_succ (abreast : Abreast tokens fuel) (here : At tokens i list)
    (enough : list.length * 16 + 10 < fuel + 1) :
    Follows tokens i (Cursor.quantifier tokens.items (fuel + 1))
      (parseQuantifier tokens.stop list) := by
  unfold Cursor.quantifier parseQuantifier
  apply (expect_follows here _).bind
  intro _ _ rest₁ _ behindParen
  apply (expectName_follows behindParen).bind
  intro x _ rest₂ _ behindName
  apply (expect_follows behindName _).bind
  intro _ _ rest₃ _ behindColon
  apply (abreast.term behindColon (by omega)).bind
  intro dom _ rest₄ _ behindDomain
  apply (expect_follows behindDomain _).bind
  intro _ _ rest₅ _ behindClose
  apply (expect_follows behindClose _).bind
  intro _ _ rest₆ _ behindDot
  apply (abreast.term behindDot (by omega)).bind
  intro body _ rest₇ _ behindBody
  exact .ends behindBody

theorem arrow_succ (abreast : Abreast tokens fuel) (here : At tokens i list)
    (enough : list.length * 16 + 8 < fuel + 1) :
    Follows tokens i (Cursor.arrow tokens.items (fuel + 1)) (parseArrow tokens.stop list) := by
  unfold Cursor.arrow parseArrow
  apply (abreast.binary (Nat.zero_add _) here (by unfold Tier.operators; omega)).bind
  intro dom _ rest _ behindDomain
  simp only
  cases accepted : accept? (.symbol .arrow) rest with
  | none => exact .step (behindDomain.refuses accepted) (.ends behindDomain)
  | some p =>
    obtain ⟨ran, behindArrow⟩ := behindDomain.accepts accepted
    have fewer := p.fewer
    apply Follows.step ran
    apply (abreast.term behindArrow (by omega)).bind
    intro cod _ rest₂ _ behindCodomain
    exact .ends behindCodomain

theorem binary_succ (abreast : Abreast tokens fuel) {level tiers : Nat}
    (complements : level + tiers = Tier.operators) (here : At tokens i list)
    (enough : list.length * 16 + tiers + 2 < fuel + 1) :
    Follows tokens i (Cursor.binary tokens.items (fuel + 1) level)
      (parseOperation tokens.stop tiers list) := by
  unfold Cursor.binary parseOperation
  cases tiers with
  | zero =>
    rw [if_pos (by omega)]
    exact abreast.unary here (by omega)
  | succ tiers =>
    rw [if_neg (by omega)]
    apply (abreast.binary (by omega) here (by omega)).bind
    intro left _ rest _ behindLeft
    simp only
    apply (abreast.operands left complements behindLeft (by omega)).last
    exact fun _ _ _ => ⟨_, rfl⟩

theorem operands_succ (abreast : Abreast tokens fuel) {level tiers : Nat} (left : Surface)
    (complements : level + (tiers + 1) = Tier.operators) (here : At tokens i list)
    (enough : list.length * 16 + tiers + 2 < fuel + 1) :
    Follows tokens i (Cursor.operands tokens.items (fuel + 1) level left)
      (parseOperands tokens.stop tiers left list) := by
  unfold Cursor.operands parseOperands
  have same := levelTiers_eq complements
  apply Follows.step (here.operator? level)
  cases list with
  | nil => exact .ends here
  | cons token rest =>
    rw [List.length_cons] at enough
    simp only [List.head?_cons, Option.bind_some, same]
    cases found : token.lexeme.operator? tiers with
    | none => exact .ends here
    | some op =>
      have compares := eq_comparisonLevel_iff complements
      apply Follows.step here.next
      apply (abreast.binary (by omega) here.behind (by omega)).bind
      intro right _ rest₁ _ behindRight
      simp only
      by_cases comparison : level = comparisonLevel
      · rw [if_pos comparison, if_pos (compares.mp comparison)]
        apply Follows.step (behindRight.operator? level)
        cases rest₁ with
        | nil => exact .ends behindRight
        | cons second rest₁ =>
          simp only [List.head?_cons, Option.bind_some, operatorPlace?, same]
          cases second.lexeme.operator? tiers with
          | none => exact .ends behindRight
          | some op' => exact .step behindRight.look rfl
      · rw [if_neg comparison, if_neg (mt compares.mpr comparison)]
        apply (abreast.operands (.binop op left right) complements behindRight (by omega)).last
        exact fun _ _ _ => ⟨_, rfl⟩

/-- Whatever begins neither a negation nor a negative literal is read as an application. -/
theorem application_succ (abreast : Abreast tokens fuel) (here : At tokens i list)
    (enough : list.length * 16 + 1 < fuel + 1) (plain : accept? (.symbol .bang) list = none)
    (unsigned : frontNegative? list = none) :
    Follows tokens i (Cursor.unary tokens.items (fuel + 1)) (do
      let p ← parseAtom tokens.stop list
      let q ← parseArguments tokens.stop p.value p.rest
      return (⟨q.value, q.rest, by have := p.fewer; have := q.fewer; omega⟩ :
        Parsed Surface list.length)) := by
  unfold Cursor.unary
  apply Follows.step (here.refuses plain)
  apply Follows.step here.negative?
  rw [unsigned]
  apply (abreast.atom here (by omega)).bind
  intro fn _ rest _ behindFn
  apply (abreast.arguments fn behindFn (by omega)).last
  exact fun _ _ _ => ⟨_, rfl⟩

theorem unary_succ (abreast : Abreast tokens fuel) (here : At tokens i list)
    (enough : list.length * 16 + 1 < fuel + 1) :
    Follows tokens i (Cursor.unary tokens.items (fuel + 1)) (parseUnary tokens.stop list) := by
  have application := abreast.application_succ here enough
  unfold parseUnary
  cases list with
  | nil => exact application rfl rfl
  | cons token rest =>
    rw [List.length_cons] at enough
    obtain ⟨lexeme, pos⟩ := token
    cases lexeme with
    | symbol sign =>
      cases sign with
      | bang =>
        unfold Cursor.unary
        apply Follows.step (here.accepts rfl).1
        apply (abreast.unary here.behind (by omega)).bind
        intro t _ rest₁ _ behind
        exact .ends behind
      | minus =>
        cases rest with
        | nil => exact application rfl rfl
        | cons second rest =>
          obtain ⟨lexeme, place⟩ := second
          cases lexeme with
          | numeral digits =>
            unfold Cursor.unary
            apply Follows.step (here.refuses rfl)
            apply Follows.step here.negative?
            apply Follows.step here.next
            apply Follows.step here.behind.next
            exact .ofExcept fun n => .ends here.behind.behind
          | _ => exact application rfl rfl
      | _ => exact application rfl rfl
    | _ => exact application rfl rfl

theorem arguments_succ (abreast : Abreast tokens fuel) (fn : Surface) (here : At tokens i list)
    (enough : list.length * 16 + 1 < fuel + 1) :
    Follows tokens i (Cursor.arguments tokens.items (fuel + 1) fn)
      (parseArguments tokens.stop fn list) := by
  unfold Cursor.arguments parseArguments
  apply Follows.step here.beginsAtom
  cases list with
  | nil => exact .ends here
  | cons token rest =>
    by_cases begins : token.lexeme.beginsAtom
    · simp only [List.head?_cons, Option.any_some, begins, if_true]
      apply (abreast.atom here (by omega)).bind
      intro arg _ rest₁ _ behindArg
      simp only
      apply (abreast.arguments (.app fn arg) behindArg (by omega)).last
      exact fun _ _ _ => ⟨_, rfl⟩
    · simp only [List.head?_cons, Option.any_some, begins]
      exact .ends here

theorem atom_succ (abreast : Abreast tokens fuel) (here : At tokens i list)
    (enough : list.length * 16 < fuel + 1) :
    Follows tokens i (Cursor.atom tokens.items (fuel + 1)) (parseAtom tokens.stop list) := by
  unfold Cursor.atom parseAtom
  cases list with
  | nil => exact .step here.next_end rfl
  | cons token rest =>
    rw [List.length_cons] at enough
    apply Follows.step here.next
    have behind := here.behind
    obtain ⟨lexeme, pos⟩ := token
    cases lexeme with
    | numeral digits => exact .ofExcept fun n => .ends behind
    | ident x => exact .ofExcept_last behind fun _ => ⟨_, rfl⟩
    | keyword word =>
      simp only [Token.item]
      cases word.constant? with
      | some c => exact .ends behind
      | none => rfl
    | symbol sign =>
      cases sign with
      | openParen =>
        apply (abreast.term behind (by omega)).bind
        intro t _ rest₁ _ behindTerm
        simp only
        cases accepted : accept? (.symbol .colon) rest₁ with
        | none =>
          apply Follows.step (behindTerm.refuses accepted)
          apply (expect_follows behindTerm _).bind
          intro _ _ rest₂ _ behindClose
          exact .ends behindClose
        | some p =>
          obtain ⟨ran, behindColon⟩ := behindTerm.accepts accepted
          have fewer := p.fewer
          apply Follows.step ran
          apply (abreast.term behindColon (by omega)).bind
          intro type _ rest₃ _ behindType
          apply (expect_follows behindType _).bind
          intro _ _ rest₄ _ behindClose
          exact .ends behindClose
      | _ => rfl

end Abreast

theorem abreast (tokens : Tokens) (fuel : Nat) : Abreast tokens fuel := by
  induction fuel with
  | zero => constructor <;> intros <;> omega
  | succ fuel ih =>
    exact {
      term := ih.term_succ
      quantifier := ih.quantifier_succ
      arrow := ih.arrow_succ
      binary := ih.binary_succ
      operands := ih.operands_succ
      unary := ih.unary_succ
      arguments := ih.arguments_succ
      atom := ih.atom_succ }

/-- One of the tokens, or the mark behind them, is at this place. -/
def HasPlace (tokens : Tokens) (pos : Position) : Prop :=
  ∃ item ∈ tokens.items, item.pos = pos

theorem hasPlace_stop (tokens : Tokens) : HasPlace tokens tokens.stop :=
  ⟨⟨none, tokens.stop⟩, List.mem_append_right _ (List.mem_singleton_self _), rfl⟩

theorem placed_drop (tokens : Tokens) (i : Nat) :
    Placed (HasPlace tokens) (tokens.list.drop i) := by
  intro token member
  have listed := List.mem_map_of_mem (f := Token.item) (List.mem_of_mem_drop member)
  exact ⟨token.item, List.mem_append_left _ listed, rfl⟩

/-- From the place `i` the call ends in this way with all fuel from an amount on that the number of
tokens left determines. -/
def Returns (tokens : Tokens) (i : Nat) {α : Type} (call : Nat → Reader α)
    (outcome : Except Fault (α × Nat)) : Prop :=
  ∀ fuel, 16 * ((tokens.list.drop i).length + 1) ≤ fuel → (call fuel).run i = outcome

/-- The call returns as the parser does with the tokens from the place `i` on. With a value the cursor
has moved on, to the tokens that are left or to the mark; an error is told at one of the tokens or at
the mark. -/
def Advances (tokens : Tokens) (i : Nat) {α : Type} (call : Nat → Reader α) {bound : Nat} :
    Except Error (Parsed α bound) → Prop
  | .ok p => ∃ j, Returns tokens i call (.ok (p.value, j)) ∧ i < j ∧ j ≤ tokens.list.length ∧
      p.rest = tokens.list.drop j
  | .error e => Returns tokens i call (.error (.malformed e)) ∧ HasPlace tokens e.pos

theorem Advances.of_follows {tokens : Tokens} {i : Nat} {α : Type} {call : Nat → Reader α}
    {x : Except Error (Parsed α (tokens.list.drop i).length)}
    (follows : ∀ fuel, 16 * ((tokens.list.drop i).length + 1) ≤ fuel →
      Follows tokens i (call fuel) x)
    (keeps : Keeps (HasPlace tokens) x) : Advances tokens i call x := by
  cases x with
  | error e => exact ⟨follows, keeps⟩
  | ok p =>
    obtain ⟨j, -, there⟩ := follows _ (Nat.le_refl _)
    have fewer := p.fewer
    rw [← there.left, List.length_drop, List.length_drop] at fewer
    refine ⟨j, fun fuel enough => ?_, by omega, there.inside, there.left.symm⟩
    obtain ⟨j', ran, there'⟩ := follows fuel enough
    rw [there.unique there']
    exact ran

/-- No token begins with a character of the text, and this is told at its place. -/
def Unreadable (text : List Char) (e : Error) : Prop :=
  ∃ before c behind, text = before ++ c :: behind ∧ piece? c behind = none ∧
    e = ⟨Position.start.after before, .unexpectedCharacter c⟩

/-- The scanner stops at an unreadable character, or it finds no more tokens than there are
characters. -/
theorem scanOnto_outcome {text before : List Char} (done : List Token) (pos : Position)
    (rest : List Char) (split : text = before ++ rest) (here : pos = Position.start.after before) :
    Outcome (Unreadable text) (fun tokens => tokens.list.length ≤ done.length + rest.length)
      (Tokens.scanOnto done pos rest) := by
  induction done, pos, rest using Tokens.scanOnto.induct generalizing before with
  | case1 done pos =>
    rw [Tokens.scanOnto]
    exact (List.length_reverse).le
  | case2 done pos c rest stuck =>
    rw [Tokens.scanOnto, stuck]
    exact ⟨before, c, rest, split, stuck, by rw [here]⟩
  | case3 done pos c rest lexeme? more front found =>
    rename_i ih
    have further : text = (before ++ c :: rest.take more) ++ rest.drop more := by
      rw [split, List.append_assoc, List.cons_append, List.take_append_drop]
    have longer : found.length ≤ done.length + 1 := by
      cases lexeme? <;> simp [found]
    simp only [Tokens.scanOnto, front]
    apply (ih further (by rw [here, Position.after_append])).mono
    intro tokens most
    rw [List.length_drop] at most
    rw [List.length_cons]
    omega

theorem scan_outcome (text : List Char) :
    Outcome (Unreadable text) (fun tokens => tokens.list.length ≤ text.length)
      (Tokens.scan text) := by
  have outcome := @scanOnto_outcome text [] [] .start text rfl rfl
  rwa [List.length_nil, Nat.zero_add] at outcome

/-- The error is told at a token of the text or at its end, or where no token begins. -/
def Blames (text : List Char) (e : Error) : Prop :=
  (∃ tokens, Tokens.scan text = .ok tokens ∧ HasPlace tokens e.pos) ∨ Unreadable text e

theorem parse_returns (text : List Char) :
    (∃ t, Source.parse text = .ok t ∧
      ∀ fuel, 16 * (text.length + 1) ≤ fuel → parse fuel text = .ok t) ∨
    ∃ e, Source.parse text = .error e ∧ Blames text e ∧
      ∀ fuel, 16 * (text.length + 1) ≤ fuel → parse fuel text = .error (.malformed e) := by
  have outcome := scan_outcome text
  unfold Source.parse parse
  cases scanned : Tokens.scan text with
  | error e => exact .inr ⟨e, rfl, .inr (outcome.of_eq_error scanned), fun _ _ => rfl⟩
  | ok tokens =>
    simp only
    have most := outcome.of_eq_ok scanned
    have follows fuel (enough : 16 * (text.length + 1) ≤ fuel) :=
      (abreast tokens fuel).term ⟨Nat.zero_le _, rfl⟩ (by rw [List.drop_zero]; omega)
    have keeps := parseTerm_keeps (hasPlace_stop tokens) (placed_drop tokens 0)
    rw [List.drop_zero] at follows keeps
    change (∃ t, (parseTerm tokens.stop tokens.list >>= _) = _ ∧ _) ∨
      ∃ e, (parseTerm tokens.stop tokens.list >>= _) = _ ∧ _
    generalize parseTerm tokens.stop tokens.list = read at follows keeps ⊢
    cases read with
    | error e =>
      refine .inr ⟨e, rfl, .inl ⟨tokens, scanned, keeps⟩, fun fuel enough => ?_⟩
      rw [whole, run_bind_error (follows fuel enough)]
      rfl
    | ok p =>
      obtain ⟨t, rest, _⟩ := p
      cases rest with
      | nil =>
        refine .inl ⟨t, rfl, fun fuel enough => ?_⟩
        obtain ⟨j, ran, there⟩ := follows fuel enough
        rw [whole, run_bind_ok ran, run_bind_ok there.expectEnd]
        rfl
      | cons token rest =>
        refine .inr ⟨_, rfl, .inl ⟨tokens, scanned, keeps token List.mem_cons_self⟩,
          fun fuel enough => ?_⟩
        obtain ⟨j, ran, there⟩ := follows fuel enough
        rw [whole, run_bind_ok ran, run_bind_error there.expectEnd_token]
        rfl

/-- From every place of a list of tokens that ends in its only mark, each call of the reader returns as
the parser does: with the cursor moved on and not past the mark, or with an error at one of the tokens or
at the mark. So no read is out of range. Operations have as many levels as there are tiers of operators,
and one more below them. Every text gives a term, or an error at a token, at the end or at a character
that begins no token. -/
theorem parser_always_advances :
    (∀ (tokens : Tokens) (i : Nat), i ≤ tokens.list.length →
      Advances tokens i (term tokens.items) (parseTerm tokens.stop (tokens.list.drop i)) ∧
      Advances tokens i (quantifier tokens.items)
        (parseQuantifier tokens.stop (tokens.list.drop i)) ∧
      (∀ level ≤ Tier.operators, Advances tokens i (fun fuel => binary tokens.items fuel level)
        (parseOperation tokens.stop (Tier.operators - level) (tokens.list.drop i))) ∧
      Advances tokens i (unary tokens.items) (parseUnary tokens.stop (tokens.list.drop i)) ∧
      Advances tokens i (atom tokens.items) (parseAtom tokens.stop (tokens.list.drop i))) ∧
    ∀ text : List Char,
      (∃ t, Source.parse text = .ok t ∧
        ∀ fuel, 16 * (text.length + 1) ≤ fuel → parse fuel text = .ok t) ∨
      ∃ e, Source.parse text = .error e ∧ Blames text e ∧
        ∀ fuel, 16 * (text.length + 1) ≤ fuel → parse fuel text = .error (.malformed e) := by
  refine ⟨fun tokens i inside => ?_, parse_returns⟩
  have here : At tokens i (tokens.list.drop i) := ⟨inside, rfl⟩
  have ends := hasPlace_stop tokens
  have placed := placed_drop tokens i
  refine ⟨?_, ?_, fun level most => ?_, ?_, ?_⟩
  · apply Advances.of_follows _ (parseTerm_keeps ends placed)
    exact fun fuel enough => (abreast tokens fuel).term here (by omega)
  · apply Advances.of_follows _ (parseQuantifier_keeps ends placed)
    exact fun fuel enough => (abreast tokens fuel).quantifier here (by omega)
  · apply Advances.of_follows _ (parseOperation_keeps _ ends placed)
    intro fuel enough
    have few : Tier.operators - level ≤ 5 := Nat.sub_le _ _
    exact (abreast tokens fuel).binary (by omega) here (by omega)
  · apply Advances.of_follows _ (parseUnary_keeps ends placed)
    exact fun fuel enough => (abreast tokens fuel).unary here (by omega)
  · apply Advances.of_follows _ (parseAtom_keeps ends placed)
    exact fun fuel enough => (abreast tokens fuel).atom here (by omega)

/-- The tokens of `5 + -`. Behind the minus there is only the mark. -/
def lastMinus : Tokens :=
  ⟨[⟨.numeral "5", ⟨1, 1, 0⟩⟩, ⟨.symbol .plus, ⟨1, 3, 2⟩⟩, ⟨.symbol .minus, ⟨1, 5, 4⟩⟩], ⟨1, 6, 5⟩⟩

theorem parser_always_advances_lastMinus :
    2 ≤ lastMinus.list.length ∧
    Returns lastMinus 2 (unary lastMinus.items)
      (.error (.malformed ⟨⟨1, 5, 4⟩, .unexpected (some (.symbol .minus))⟩)) ∧
    HasPlace lastMinus ⟨1, 5, 4⟩ := by
  obtain ⟨-, -, -, advances, -⟩ := parser_always_advances.1 lastMinus 2 (by decide)
  have read : parseUnary lastMinus.stop (lastMinus.list.drop 2) =
      .error ⟨⟨1, 5, 4⟩, .unexpected (some (.symbol .minus))⟩ := by
    change parseUnary _ [⟨.symbol .minus, _⟩] = _
    unfold parseUnary parseAtom
    rfl
  rw [read] at advances
  exact ⟨by decide, advances⟩

end DepCalc.Source.Cursor

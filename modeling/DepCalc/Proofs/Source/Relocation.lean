import DepCalc.Proofs.Source.Parsing
import Mathlib.Data.List.Forall2

/-!
The parser reads lexemes and only hands their places on. Two lists of tokens with the same lexemes, at
places that are related in some way, are read as the same term, with related tokens left, or the same
thing is wrong with them, at related places.
-/
namespace DepCalc.Source

/-- The same lexemes in the same order, at related places. -/
def Relocated (moves : Position → Position → Prop) : List Token → List Token → Prop :=
  List.Forall₂ fun token token' => token.lexeme = token'.lexeme ∧ moves token.pos token'.pos

/-- Two steps of the parser read the same and leave the same lexemes, at related places, or the same
thing is wrong, at related places. -/
def ReadsAlike (moves : Position → Position → Prop) {α : Type} {m n : Nat} :
    Except Error (Parsed α m) → Except Error (Parsed α n) → Prop
  | .ok p, .ok q => p.value = q.value ∧ Relocated moves p.rest q.rest
  | .error e, .error e' => e.cause = e'.cause ∧ moves e.pos e'.pos
  | _, _ => False

section Steps

variable {moves : Position → Position → Prop} {stop stop' : Position} {tokens tokens' : List Token}

theorem Relocated.cons_inv {token : Token} {rest : List Token}
    (same : Relocated moves (token :: rest) tokens') :
    ∃ pos rest', tokens' = ⟨token.lexeme, pos⟩ :: rest' ∧ moves token.pos pos ∧
      Relocated moves rest rest' := by
  obtain ⟨⟨lexeme, pos⟩, rest', ⟨spelled, moved⟩, further, whole⟩ :=
    List.forall₂_cons_left_iff.mp same
  refine ⟨pos, rest', ?_, moved, further⟩
  rw [whole, spelled]

theorem Relocated.nil_inv (same : Relocated moves [] tokens') : tokens' = [] :=
  List.forall₂_nil_left_iff.mp same

/-- The place that a lexeme is read at only says where it is wrong. -/
def Unmoved {α : Type} (read : Position → Except Error α) : Prop :=
  (∃ a, ∀ pos, read pos = .ok a) ∨ ∃ cause, ∀ pos, read pos = .error ⟨pos, cause⟩

theorem integer_unmoved (digits : String) : Unmoved (integer · digits) := by
  unfold integer
  cases Text.Decimal.word? digits.toList with
  | some n => exact .inl ⟨n, fun _ => rfl⟩
  | none => exact .inr ⟨.invalidInteger digits, fun _ => rfl⟩

theorem variableOrUniverse_unmoved (x : Name) : Unmoved (variableOrUniverse · x) := by
  unfold variableOrUniverse
  cases levelDigits? x with
  | none => exact .inl ⟨.var x, fun _ => rfl⟩
  | some digits =>
    by_cases leadingZero : digits.length > 1 ∧ digits.head? = some '0'
    · exact .inr ⟨.invalidLevel x, fun _ => if_pos leadingZero⟩
    · simp only [if_neg leadingZero]
      cases Text.Decimal.word? digits with
      | some level => exact .inl ⟨.const (.univ level), fun _ => rfl⟩
      | none => exact .inr ⟨.invalidLevel x, fun _ => rfl⟩

section Bind

variable {α β : Type} {m n k l : Nat} {x : Except Error (Parsed α m)} {y : Except Error (Parsed α n)}
  {f : Parsed α m → Except Error (Parsed β k)} {g : Parsed α n → Except Error (Parsed β l)}

theorem ReadsAlike.bind (same : ReadsAlike moves x y)
    (next : ∀ a rest fewer rest' fewer', Relocated moves rest rest' →
      ReadsAlike moves (f ⟨a, rest, fewer⟩) (g ⟨a, rest', fewer'⟩)) :
    ReadsAlike moves (x >>= f) (y >>= g) := by
  cases x with
  | error e =>
    cases y with
    | error e' => exact same
    | ok q => exact same.elim
  | ok p =>
    cases y with
    | error e => exact same.elim
    | ok q =>
      obtain ⟨a, rest, fewer⟩ := p
      obtain ⟨b, rest', fewer'⟩ := q
      obtain ⟨rfl, left⟩ := same
      exact next a rest fewer rest' fewer' left

theorem Unmoved.bind {read : Position → Except Error α} {pos pos' : Position}
    {f : α → Except Error (Parsed β m)} {g : α → Except Error (Parsed β n)} (unmoved : Unmoved read)
    (moved : moves pos pos') (next : ∀ a, ReadsAlike moves (f a) (g a)) :
    ReadsAlike moves (read pos >>= f) (read pos' >>= g) := by
  rcases unmoved with ⟨a, reads⟩ | ⟨cause, fails⟩
  · rw [reads pos, reads pos']
    exact next a
  · rw [fails pos, fails pos']
    exact ⟨rfl, moved⟩

end Bind

theorem expect_relocated (ends : moves stop stop') (wanted : Lexeme)
    (same : Relocated moves tokens tokens') :
    ReadsAlike moves (expect stop wanted tokens) (expect stop' wanted tokens') := by
  cases tokens with
  | nil =>
    obtain rfl := same.nil_inv
    exact ⟨rfl, ends⟩
  | cons token rest =>
    obtain ⟨pos, rest', rfl, moved, further⟩ := same.cons_inv
    by_cases found : token.lexeme = wanted
    · simp only [expect, if_pos found]
      exact ⟨rfl, further⟩
    · simp only [expect, if_neg found]
      exact ⟨rfl, moved⟩

theorem expectName_relocated (ends : moves stop stop') (same : Relocated moves tokens tokens') :
    ReadsAlike moves (expectName stop tokens) (expectName stop' tokens') := by
  cases tokens with
  | nil =>
    obtain rfl := same.nil_inv
    exact ⟨rfl, ends⟩
  | cons token rest =>
    obtain ⟨pos, rest', rfl, moved, further⟩ := same.cons_inv
    obtain ⟨lexeme, _⟩ := token
    cases lexeme with
    | ident x => exact ⟨rfl, further⟩
    | _ => exact ⟨rfl, moved⟩

theorem accept?_relocated (wanted : Lexeme) (same : Relocated moves tokens tokens') :
    (accept? wanted tokens = none ∧ accept? wanted tokens' = none) ∨
      ∃ rest fewer rest' fewer', accept? wanted tokens = some ⟨(), rest, fewer⟩ ∧
        accept? wanted tokens' = some ⟨(), rest', fewer'⟩ ∧ Relocated moves rest rest' := by
  cases tokens with
  | nil =>
    obtain rfl := same.nil_inv
    exact .inl ⟨rfl, rfl⟩
  | cons token rest =>
    obtain ⟨pos, rest', rfl, -, further⟩ := same.cons_inv
    by_cases found : token.lexeme = wanted
    · exact .inr ⟨rest, _, rest', _, if_pos found, if_pos found, further⟩
    · exact .inl ⟨if_neg found, if_neg found⟩

theorem operatorPlace?_relocated (tiers : Nat) (same : Relocated moves tokens tokens') :
    (operatorPlace? tiers tokens = none ∧ operatorPlace? tiers tokens' = none) ∨
      ∃ pos pos', operatorPlace? tiers tokens = some pos ∧
        operatorPlace? tiers tokens' = some pos' ∧ moves pos pos' := by
  cases tokens with
  | nil =>
    obtain rfl := same.nil_inv
    exact .inl ⟨rfl, rfl⟩
  | cons token rest =>
    obtain ⟨pos, rest', rfl, moved, -⟩ := same.cons_inv
    by_cases found : (token.lexeme.operator? tiers).isSome
    · exact .inr ⟨_, _, if_pos found, if_pos found, moved⟩
    · exact .inl ⟨if_neg found, if_neg found⟩

end Steps

/-- The parser's share of a quantifier. -/
def parseQuantifier (stop : Position) (list : List Token) :
    Except Error (Parsed (Name × Surface × Surface) list.length) := do
  let paren ← expect stop (.symbol .openParen) list
  let x ← expectName stop paren.rest
  let colon ← expect stop (.symbol .colon) x.rest
  let dom ← parseTerm stop colon.rest
  let close ← expect stop (.symbol .closeParen) dom.rest
  let dot ← expect stop (.symbol .dot) close.rest
  let body ← parseTerm stop dot.rest
  return ⟨(x.value, dom.value, body.value), body.rest, by
    have := paren.fewer; have := x.fewer; have := colon.fewer; have := dom.fewer
    have := close.fewer; have := dot.fewer; have := body.fewer
    omega⟩

theorem parseTerm_of_quantifier {stop : Position} {token : Token} {rest : List Token} {b : Binder}
    (opens : token.lexeme.opening? = some (.quantifier b)) :
    parseTerm stop (token :: rest) = do
      let p ← parseQuantifier stop rest
      return ⟨.bind b p.value.1 p.value.2.1 p.value.2.2, p.rest, Nat.lt_succ_of_lt p.fewer⟩ := by
  unfold parseTerm parseQuantifier
  simp only [opens, bind_assoc, pure_bind]

section Descent

variable {moves : Position → Position → Prop} {stop stop' : Position}

-- The two runs take the same branches, so they are followed side by side. The recursion and its
-- measure are those of the parser, on the tokens of the first run.

mutual

theorem parseTerm_relocated (ends : moves stop stop') (tokens tokens' : List Token) :
    Relocated moves tokens tokens' →
      ReadsAlike moves (parseTerm stop tokens) (parseTerm stop' tokens') := by
  cases tokens with
  | nil =>
    intro same
    obtain rfl := same.nil_inv
    unfold parseTerm
    exact parseArrow_relocated ends [] [] same
  | cons token rest =>
    intro same
    obtain ⟨pos, rest', rfl, moved, further⟩ := same.cons_inv
    cases opens : token.lexeme.opening? with
    | none =>
      simp only [parseTerm, opens]
      exact parseArrow_relocated ends (token :: rest) (⟨token.lexeme, pos⟩ :: rest') same
    | some opening =>
      cases opening with
      | lambda =>
        simp only [parseTerm, opens]
        apply (expectName_relocated ends further).bind
        intro x rest₁ _ rest₁' _ behindName
        apply (expect_relocated ends _ behindName).bind
        intro _ rest₂ _ rest₂' _ behindColon
        apply (parseTerm_relocated ends rest₂ rest₂' behindColon).bind
        intro dom rest₃ _ rest₃' _ behindDomain
        apply (expect_relocated ends _ behindDomain).bind
        intro _ rest₄ _ rest₄' _ behindDot
        apply (parseTerm_relocated ends rest₄ rest₄' behindDot).bind
        intro body rest₅ _ rest₅' _ behindBody
        exact ⟨rfl, behindBody⟩
      | quantifier b =>
        have opens' : Lexeme.opening? (Token.mk token.lexeme pos).lexeme = _ := opens
        rw [parseTerm_of_quantifier opens, parseTerm_of_quantifier opens']
        apply (parseQuantifier_relocated ends rest rest' further).bind
        intro parts rest₁ _ rest₁' _ behind
        exact ⟨rfl, behind⟩
      | conditional =>
        simp only [parseTerm, opens]
        apply (parseTerm_relocated ends rest rest' further).bind
        intro test rest₁ _ rest₁' _ behindTest
        apply (expect_relocated ends _ behindTest).bind
        intro _ rest₂ _ rest₂' _ behindThen
        apply (parseTerm_relocated ends rest₂ rest₂' behindThen).bind
        intro yes rest₃ _ rest₃' _ behindYes
        apply (expect_relocated ends _ behindYes).bind
        intro _ rest₄ _ rest₄' _ behindElse
        apply (parseTerm_relocated ends rest₄ rest₄' behindElse).bind
        intro no rest₅ _ rest₅' _ behindNo
        exact ⟨rfl, behindNo⟩
termination_by tokens.length * 16 + 9
decreasing_by all_goals simp only [List.length_nil, List.length_cons]; omega

theorem parseQuantifier_relocated (ends : moves stop stop') (tokens tokens' : List Token)
    (same : Relocated moves tokens tokens') :
    ReadsAlike moves (parseQuantifier stop tokens) (parseQuantifier stop' tokens') := by
  unfold parseQuantifier
  apply (expect_relocated ends _ same).bind
  intro _ rest₁ _ rest₁' _ behindParen
  apply (expectName_relocated ends behindParen).bind
  intro x rest₂ _ rest₂' _ behindName
  apply (expect_relocated ends _ behindName).bind
  intro _ rest₃ _ rest₃' _ behindColon
  apply (parseTerm_relocated ends rest₃ rest₃' behindColon).bind
  intro dom rest₄ _ rest₄' _ behindDomain
  apply (expect_relocated ends _ behindDomain).bind
  intro _ rest₅ _ rest₅' _ behindClose
  apply (expect_relocated ends _ behindClose).bind
  intro _ rest₆ _ rest₆' _ behindDot
  apply (parseTerm_relocated ends rest₆ rest₆' behindDot).bind
  intro body rest₇ _ rest₇' _ behindBody
  exact ⟨rfl, behindBody⟩
termination_by tokens.length * 16
decreasing_by all_goals omega

theorem parseArrow_relocated (ends : moves stop stop') (tokens tokens' : List Token)
    (same : Relocated moves tokens tokens') :
    ReadsAlike moves (parseArrow stop tokens) (parseArrow stop' tokens') := by
  unfold parseArrow
  apply (parseOperation_relocated ends Tier.operators tokens tokens' same).bind
  intro dom rest _ rest' _ behindDomain
  simp only
  rcases accept?_relocated (.symbol .arrow) behindDomain with
    ⟨none, none'⟩ | ⟨rest₁, _, rest₁', _, found, found', behindArrow⟩
  · simp only [none, none']
    exact ⟨rfl, behindDomain⟩
  · simp only [found, found']
    apply (parseTerm_relocated ends rest₁ rest₁' behindArrow).bind
    intro cod rest₂ _ rest₂' _ behindCodomain
    exact ⟨rfl, behindCodomain⟩
termination_by tokens.length * 16 + 8
decreasing_by
  · simp only [Tier.operators]; omega
  · omega

theorem parseOperation_relocated (ends : moves stop stop') (tiers : Nat) (tokens tokens' : List Token)
    (same : Relocated moves tokens tokens') :
    ReadsAlike moves (parseOperation stop tiers tokens) (parseOperation stop' tiers tokens') := by
  cases tiers with
  | zero =>
    unfold parseOperation
    exact parseUnary_relocated ends tokens tokens' same
  | succ tiers =>
    unfold parseOperation
    apply (parseOperation_relocated ends tiers tokens tokens' same).bind
    intro left rest _ rest' _ behindLeft
    apply (parseOperands_relocated ends tiers left rest rest' behindLeft).bind
    intro t rest₁ _ rest₁' _ behind
    exact ⟨rfl, behind⟩
termination_by tokens.length * 16 + tiers + 2
decreasing_by all_goals omega

theorem parseOperands_relocated (ends : moves stop stop') (tiers : Nat) (left : Surface)
    (tokens tokens' : List Token) : Relocated moves tokens tokens' →
      ReadsAlike moves (parseOperands stop tiers left tokens)
        (parseOperands stop' tiers left tokens') := by
  unfold parseOperands
  cases tokens with
  | nil =>
    intro same
    obtain rfl := same.nil_inv
    exact ⟨rfl, same⟩
  | cons token rest =>
    intro same
    obtain ⟨pos, rest', rfl, moved, further⟩ := same.cons_inv
    simp only
    cases found : token.lexeme.operator? tiers with
    | none => exact ⟨rfl, same⟩
    | some op =>
      apply (parseOperation_relocated ends tiers rest rest' further).bind
      intro right rest₁ _ rest₁' _ behindRight
      simp only
      split
      · rcases operatorPlace?_relocated tiers behindRight with
          ⟨none, none'⟩ | ⟨place, place', again, again', moved⟩
        · simp only [none, none']
          exact ⟨rfl, behindRight⟩
        · simp only [again, again']
          exact ⟨rfl, moved⟩
      · apply (parseOperands_relocated ends tiers (.binop op left right) rest₁ rest₁' behindRight).bind
        intro t rest₂ _ rest₂' _ behind
        exact ⟨rfl, behind⟩
termination_by tokens.length * 16 + tiers + 2
decreasing_by all_goals simp only [List.length_cons]; omega

theorem parseUnary_relocated (ends : moves stop stop') (tokens tokens' : List Token) :
    Relocated moves tokens tokens' →
      ReadsAlike moves (parseUnary stop tokens) (parseUnary stop' tokens') := by
  unfold parseUnary
  -- Whatever begins neither a negation nor a negative literal is read as an application.
  have application (same : Relocated moves tokens tokens') :
      ReadsAlike moves (do
        let p ← parseAtom stop tokens
        let q ← parseArguments stop p.value p.rest
        return (⟨q.value, q.rest, by have := p.fewer; have := q.fewer; omega⟩ :
          Parsed Surface tokens.length))
      (do
        let p ← parseAtom stop' tokens'
        let q ← parseArguments stop' p.value p.rest
        return (⟨q.value, q.rest, by have := p.fewer; have := q.fewer; omega⟩ :
          Parsed Surface tokens'.length)) := by
    apply (parseAtom_relocated ends tokens tokens' same).bind
    intro fn rest _ rest' _ behindFn
    apply (parseArguments_relocated ends fn rest rest' behindFn).bind
    intro t rest₁ _ rest₁' _ behind
    exact ⟨rfl, behind⟩
  cases tokens with
  | nil =>
    intro same
    obtain rfl := same.nil_inv
    exact application same
  | cons token rest =>
    intro same
    obtain ⟨pos', rest', rfl, moved, further⟩ := same.cons_inv
    obtain ⟨lexeme, pos⟩ := token
    cases lexeme with
    | symbol sign =>
      cases sign with
      | bang =>
        apply (parseUnary_relocated ends rest rest' further).bind
        intro t rest₁ _ rest₁' _ behind
        exact ⟨rfl, behind⟩
      | minus =>
        cases rest with
        | nil =>
          obtain rfl := further.nil_inv
          exact application same
        | cons second rest =>
          obtain ⟨place', rest', rfl, moved, beyond⟩ := further.cons_inv
          obtain ⟨lexeme, place⟩ := second
          cases lexeme with
          | numeral digits =>
            apply (integer_unmoved digits).bind moved
            intro n
            exact ⟨rfl, beyond⟩
          | _ => exact application same
      | _ => exact application same
    | _ => exact application same
termination_by tokens.length * 16 + 1
decreasing_by
  · omega
  · omega
  · simp only [List.length_cons]; omega

theorem parseArguments_relocated (ends : moves stop stop') (fn : Surface)
    (tokens tokens' : List Token) : Relocated moves tokens tokens' →
      ReadsAlike moves (parseArguments stop fn tokens) (parseArguments stop' fn tokens') := by
  unfold parseArguments
  cases tokens with
  | nil =>
    intro same
    obtain rfl := same.nil_inv
    exact ⟨rfl, same⟩
  | cons token rest =>
    intro same
    obtain ⟨pos, rest', rfl, moved, further⟩ := same.cons_inv
    simp only
    split
    · apply (parseAtom_relocated ends (token :: rest) (⟨token.lexeme, pos⟩ :: rest') same).bind
      intro arg rest₁ _ rest₁' _ behindArg
      apply (parseArguments_relocated ends (.app fn arg) rest₁ rest₁' behindArg).bind
      intro t rest₂ _ rest₂' _ behind
      exact ⟨rfl, behind⟩
    · exact ⟨rfl, same⟩
termination_by tokens.length * 16 + 1
decreasing_by all_goals omega

theorem parseAtom_relocated (ends : moves stop stop') (tokens tokens' : List Token) :
    Relocated moves tokens tokens' →
      ReadsAlike moves (parseAtom stop tokens) (parseAtom stop' tokens') := by
  unfold parseAtom
  cases tokens with
  | nil =>
    intro same
    obtain rfl := same.nil_inv
    exact ⟨rfl, ends⟩
  | cons token rest =>
    intro same
    obtain ⟨pos', rest', rfl, moved, further⟩ := same.cons_inv
    obtain ⟨lexeme, pos⟩ := token
    cases lexeme with
    | numeral digits =>
      apply (integer_unmoved digits).bind moved
      intro n
      exact ⟨rfl, further⟩
    | ident x =>
      apply (variableOrUniverse_unmoved x).bind moved
      intro t
      exact ⟨rfl, further⟩
    | keyword word =>
      simp only
      cases word.constant? with
      | some c => exact ⟨rfl, further⟩
      | none => exact ⟨rfl, moved⟩
    | symbol sign =>
      cases sign with
      | openParen =>
        apply (parseTerm_relocated ends rest rest' further).bind
        intro t rest₁ _ rest₁' _ behindTerm
        simp only
        rcases accept?_relocated (.symbol .colon) behindTerm with
          ⟨none, none'⟩ | ⟨rest₂, _, rest₂', _, found, found', behindColon⟩
        · simp only [none, none']
          apply (expect_relocated ends _ behindTerm).bind
          intro _ rest₂ _ rest₂' _ behindClose
          exact ⟨rfl, behindClose⟩
        · simp only [found, found']
          apply (parseTerm_relocated ends rest₂ rest₂' behindColon).bind
          intro type rest₃ _ rest₃' _ behindType
          apply (expect_relocated ends _ behindType).bind
          intro _ rest₄ _ rest₄' _ behindClose
          exact ⟨rfl, behindClose⟩
      | _ => exact ⟨rfl, moved⟩
termination_by tokens.length * 16
decreasing_by all_goals simp only [List.length_cons]; omega

end

end Descent

/-- The lexemes of two lists of tokens are the same. -/
def SameLexemes (tokens tokens' : List Token) : Prop :=
  tokens.map Token.lexeme = tokens'.map Token.lexeme

theorem SameLexemes.relocated {tokens tokens' : List Token} (same : SameLexemes tokens tokens') :
    Relocated (fun _ _ => True) tokens tokens' := by
  rw [SameLexemes, ← List.forall₂_eq_eq_eq, List.forall₂_map_left_iff,
    List.forall₂_map_right_iff] at same
  exact same.imp fun _ _ spelled => ⟨spelled, trivial⟩

/-- Texts with the same lexemes are read as the same term, or the same thing is wrong with them. -/
theorem parse_unplaced {text text' : List Char} {tokens tokens' : Tokens}
    (scanned : Tokens.scan text = .ok tokens) (scanned' : Tokens.scan text' = .ok tokens')
    (same : SameLexemes tokens.list tokens'.list) :
    (parse text).mapError Error.cause = (parse text').mapError Error.cause := by
  have read : ReadsAlike (fun _ _ => True) (parseTerm tokens.stop tokens.list)
      (parseTerm tokens'.stop tokens'.list) := parseTerm_relocated trivial _ _ same.relocated
  unfold parse
  rw [scanned, scanned']
  change Except.mapError _ (parseTerm tokens.stop tokens.list >>= _) =
    Except.mapError _ (parseTerm tokens'.stop tokens'.list >>= _)
  generalize parseTerm tokens.stop tokens.list = outcome at read ⊢
  generalize parseTerm tokens'.stop tokens'.list = outcome' at read ⊢
  cases outcome with
  | error e =>
    cases outcome' with
    | error e' => exact congrArg Except.error read.1
    | ok q => exact read.elim
  | ok p =>
    cases outcome' with
    | error e' => exact read.elim
    | ok q =>
      obtain ⟨t, rest, _⟩ := p
      obtain ⟨t', rest', _⟩ := q
      obtain ⟨rfl, left⟩ := read
      cases rest with
      | nil =>
        obtain rfl := left.nil_inv
        rfl
      | cons token rest =>
        obtain ⟨pos, rest', rfl, -, -⟩ := left.cons_inv
        rfl

end DepCalc.Source

import DepCalc.Source.Tokens
import DepCalc.Term.Basic

/-!
Reading a surface term from tokens by recursive descent. Every step hands back the tokens behind
what it read, together with the proof that they are fewer. The measure counts the tokens first and
then how far the descent has still to go before it takes one.
-/
namespace DepCalc.Source

/-- What was read from the front of a token list, and the remaining tokens. -/
structure Parsed (α : Type) (bound : Nat) where
  value : α
  rest : List Token
  fewer : rest.length < bound

/-- The binary operators as the parser groups them, from the tightest tier on. -/
def operatorTiers : List (List Operator) :=
  [[.mul, .div], [.add, .sub], [.eq, .lt], [.and], [.or]]

/-- How many tiers are tighter than that of the comparisons, which do not associate. -/
def comparisonTier : Nat := 2

/-- The operator of the tier above the `tiers` tightest ones that a lexeme spells. -/
def Lexeme.operator? (tiers : Nat) : Lexeme → Option Operator
  | symbol sign => (operatorTiers.getD tiers []).find? fun op => op.symbol == sign.text
  | _ => none

/-- The constant that a keyword stands for. -/
def Keyword.constant? : Keyword → Option Constant
  | trueWord => some (.bool true)
  | falseWord => some (.bool false)
  | intWord => some .intType
  | boolWord => some .boolType
  | typeWord => some (.univ 0)
  | _ => none

/-- Whether an atom can begin with the lexeme. -/
def Lexeme.beginsAtom : Lexeme → Bool
  | ident _ | numeral _ => true
  | keyword word => word.constant?.isSome
  | symbol sign => sign == .openParen

/-- The forms that are recognised by their first lexeme. -/
inductive Opening where
  | lambda
  | quantifier (b : Binder)
  | conditional
  deriving DecidableEq, Repr

def Lexeme.opening? : Lexeme → Option Opening
  | symbol .backslash | symbol .lambda => some .lambda
  | keyword .forallWord | symbol .forallSign => some (.quantifier .pi)
  | keyword .existsWord | symbol .existsSign => some (.quantifier .sigma)
  | keyword .ifWord => some .conditional
  | _ => none

def integer (pos : Position) (digits : String) : Except Error Int64 :=
  match Text.Decimal.word? digits.toList with
  | some n => .ok n
  | none => .error ⟨pos, .invalidInteger digits⟩

/-- The digits of a name that consists of `U` and at least one ASCII digit. -/
def levelDigits? (x : Name) : Option (List Char) :=
  match x.toList with
  | 'U' :: digits => if digits ≠ [] ∧ digits.all Char.isDigit then some digits else none
  | _ => none

/-- A name on its own is a variable, unless it spells a universe. -/
def variableOrUniverse (pos : Position) (x : Name) : Except Error Surface :=
  match levelDigits? x with
  | none => .ok (.var x)
  | some digits =>
    if digits.length > 1 ∧ digits.head? = some '0' then .error ⟨pos, .invalidLevel x⟩
    else
      match Text.Decimal.word? digits with
      | some level => .ok (.const (.univ level))
      | none => .error ⟨pos, .invalidLevel x⟩

/-- The tokens behind `wanted`, if they begin with it. -/
def accept? (wanted : Lexeme) : (tokens : List Token) → Option (Parsed Unit tokens.length)
  | [] => none
  | token :: rest => if token.lexeme = wanted then some ⟨(), rest, by simp⟩ else none

/-- The place of an operator of the tier above the `tiers` tightest ones at the front. -/
def operatorPlace? (tiers : Nat) : List Token → Option Position
  | [] => none
  | token :: _ => if (token.lexeme.operator? tiers).isSome then some token.pos else none

/-- The tokens behind `wanted`; the input ends at `stop`. -/
def expect (stop : Position) (wanted : Lexeme) :
    (tokens : List Token) → Except Error (Parsed Unit tokens.length)
  | [] => .error ⟨stop, .expected (.lexeme wanted) none⟩
  | token :: rest =>
    if token.lexeme = wanted then .ok ⟨(), rest, by simp⟩
    else .error ⟨token.pos, .expected (.lexeme wanted) (some token.lexeme)⟩

def expectName (stop : Position) : (tokens : List Token) → Except Error (Parsed Name tokens.length)
  | [] => .error ⟨stop, .expected .identifier none⟩
  | ⟨.ident x, _⟩ :: rest => .ok ⟨x, rest, by simp⟩
  | token :: _ => .error ⟨token.pos, .expected .identifier (some token.lexeme)⟩

mutual

def parseTerm (stop : Position) (tokens : List Token) :
    Except Error (Parsed Surface tokens.length) :=
  match tokens with
  | [] => parseArrow stop []
  | token :: rest =>
    match token.lexeme.opening? with
    | some .lambda => do
      let ⟨x, rest, _⟩ ← expectName stop rest
      let ⟨_, rest, _⟩ ← expect stop (.symbol .colon) rest
      let ⟨dom, rest, _⟩ ← parseTerm stop rest
      let ⟨_, rest, _⟩ ← expect stop (.symbol .dot) rest
      let ⟨body, rest, _⟩ ← parseTerm stop rest
      return ⟨.bind .lam x dom body, rest, by simp only [List.length_cons]; omega⟩
    | some (.quantifier b) => do
      let ⟨_, rest, _⟩ ← expect stop (.symbol .openParen) rest
      let ⟨x, rest, _⟩ ← expectName stop rest
      let ⟨_, rest, _⟩ ← expect stop (.symbol .colon) rest
      let ⟨dom, rest, _⟩ ← parseTerm stop rest
      let ⟨_, rest, _⟩ ← expect stop (.symbol .closeParen) rest
      let ⟨_, rest, _⟩ ← expect stop (.symbol .dot) rest
      let ⟨body, rest, _⟩ ← parseTerm stop rest
      return ⟨.bind b x dom body, rest, by simp only [List.length_cons]; omega⟩
    | some .conditional => do
      let ⟨test, rest, _⟩ ← parseTerm stop rest
      let ⟨_, rest, _⟩ ← expect stop (.keyword .thenWord) rest
      let ⟨yes, rest, _⟩ ← parseTerm stop rest
      let ⟨_, rest, _⟩ ← expect stop (.keyword .elseWord) rest
      let ⟨no, rest, _⟩ ← parseTerm stop rest
      return ⟨.cond test yes no, rest, by simp only [List.length_cons]; omega⟩
    | none => parseArrow stop (token :: rest)
termination_by tokens.length * 16 + 9
decreasing_by all_goals simp only [List.length_nil, List.length_cons]; omega

/-- An operation, alone or as the domain of an arrow, which associates to the right. -/
def parseArrow (stop : Position) (tokens : List Token) :
    Except Error (Parsed Surface tokens.length) := do
  let ⟨dom, rest, _⟩ ← parseOperation stop Tier.operators tokens
  match accept? (.symbol .arrow) rest with
  | some ⟨_, rest, _⟩ => do
    let ⟨body, rest, _⟩ ← parseTerm stop rest
    return ⟨.bind .pi wildcard dom body, rest, by omega⟩
  | none => return ⟨dom, rest, by omega⟩
termination_by tokens.length * 16 + 8
decreasing_by
  · simp only [Tier.operators]; omega
  · omega

/-- An operation whose operators are of the `tiers` tightest tiers. -/
def parseOperation (stop : Position) (tiers : Nat) (tokens : List Token) :
    Except Error (Parsed Surface tokens.length) :=
  match tiers with
  | 0 => parseUnary stop tokens
  | tiers + 1 => do
    let ⟨left, rest, _⟩ ← parseOperation stop tiers tokens
    let ⟨t, rest, _⟩ ← parseOperands stop tiers left rest
    return ⟨t, rest, by omega⟩
termination_by tokens.length * 16 + tiers + 2
decreasing_by all_goals omega

/-- The operators of the tier above the `tiers` tightest ones, with their right operands, that
follow the operand `left`. -/
def parseOperands (stop : Position) (tiers : Nat) (left : Surface) (tokens : List Token) :
    Except Error (Parsed Surface (tokens.length + 1)) :=
  match tokens with
  | [] => return ⟨left, [], by simp⟩
  | token :: rest =>
    match token.lexeme.operator? tiers with
    | none => return ⟨left, token :: rest, by simp⟩
    | some op => do
      let ⟨right, rest, _⟩ ← parseOperation stop tiers rest
      if tiers = comparisonTier then
        match operatorPlace? tiers rest with
        | some pos => throw ⟨pos, .chainedComparison⟩
        | none => return ⟨.binop op left right, rest, by simp only [List.length_cons]; omega⟩
      else
        let ⟨t, rest, _⟩ ← parseOperands stop tiers (.binop op left right) rest
        return ⟨t, rest, by simp only [List.length_cons]; omega⟩
termination_by tokens.length * 16 + tiers + 2
decreasing_by all_goals simp only [List.length_cons]; omega

/-- A negation, a negative literal, or an atom applied to atoms. Nothing is applied to a negative
literal without brackets. -/
def parseUnary (stop : Position) (tokens : List Token) :
    Except Error (Parsed Surface tokens.length) :=
  match tokens with
  | ⟨.symbol .bang, _⟩ :: rest => do
    let ⟨t, rest, _⟩ ← parseUnary stop rest
    return ⟨.not t, rest, by simp only [List.length_cons]; omega⟩
  | ⟨.symbol .minus, _⟩ :: ⟨.numeral digits, pos⟩ :: rest => do
    let n ← integer pos digits
    return ⟨.const (.int (-n)), rest, by simp only [List.length_cons]; omega⟩
  | tokens => do
    let ⟨fn, rest, _⟩ ← parseAtom stop tokens
    let ⟨t, rest, _⟩ ← parseArguments stop fn rest
    return ⟨t, rest, by omega⟩
termination_by tokens.length * 16 + 1
decreasing_by
  · simp only [List.length_cons]; omega
  · omega
  · omega

/-- The atoms to which `fn` is applied. -/
def parseArguments (stop : Position) (fn : Surface) (tokens : List Token) :
    Except Error (Parsed Surface (tokens.length + 1)) :=
  match tokens with
  | [] => return ⟨fn, [], by simp⟩
  | token :: rest =>
    if token.lexeme.beginsAtom then do
      let ⟨arg, rest, _⟩ ← parseAtom stop (token :: rest)
      let ⟨t, rest, _⟩ ← parseArguments stop (.app fn arg) rest
      return ⟨t, rest, by simp only [List.length_cons] at *; omega⟩
    else return ⟨fn, token :: rest, by simp⟩
termination_by tokens.length * 16 + 1
decreasing_by
  · omega
  · simp only [List.length_cons] at *; omega

def parseAtom (stop : Position) (tokens : List Token) :
    Except Error (Parsed Surface tokens.length) :=
  match tokens with
  | [] => throw ⟨stop, .unexpected none⟩
  | ⟨.numeral digits, pos⟩ :: rest => do
    let n ← integer pos digits
    return ⟨.const (.int n), rest, by simp⟩
  | ⟨.ident x, pos⟩ :: rest => do
    let t ← variableOrUniverse pos x
    return ⟨t, rest, by simp⟩
  | ⟨.keyword word, pos⟩ :: rest =>
    match word.constant? with
    | some c => return ⟨.const c, rest, by simp⟩
    | none => throw ⟨pos, .unexpected (some (.keyword word))⟩
  | ⟨.symbol .openParen, _⟩ :: rest => do
    let ⟨t, rest, _⟩ ← parseTerm stop rest
    match accept? (.symbol .colon) rest with
    | some ⟨_, rest, _⟩ => do
      let ⟨type, rest, _⟩ ← parseTerm stop rest
      let ⟨_, rest, _⟩ ← expect stop (.symbol .closeParen) rest
      return ⟨.ascribe t type, rest, by simp only [List.length_cons]; omega⟩
    | none => do
      let ⟨_, rest, _⟩ ← expect stop (.symbol .closeParen) rest
      return ⟨t, rest, by simp only [List.length_cons]; omega⟩
  | ⟨.symbol sign, pos⟩ :: _ => throw ⟨pos, .unexpected (some (.symbol sign))⟩
termination_by tokens.length * 16
decreasing_by all_goals simp only [List.length_cons]; omega

end

/-- The single term that a source text spells. -/
def parse (text : List Char) : Except Error Surface := do
  let tokens ← Tokens.scan text
  let ⟨t, rest, _⟩ ← parseTerm tokens.stop tokens.list
  match rest with
  | [] => return t
  | token :: _ => throw ⟨token.pos, .expected .endOfInput (some token.lexeme)⟩

end DepCalc.Source

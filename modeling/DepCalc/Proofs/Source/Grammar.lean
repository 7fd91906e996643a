import DepCalc.Source.Parser
import Mathlib.Algebra.Group.Int.Defs
import Mathlib.Algebra.Group.Nat.Defs

/-!
The grammar of surface terms, as rules on lexemes. A form of a tier is also one of every looser tier;
from the loosest tier down, the rules are those of

    term        := lambda | forall | exists | if | arrow
    lambda      := ("\" | "λ") ident ":" term "." term
    forall      := ("forall" | "∀") "(" ident ":" term ")" "." term
    exists      := ("exists" | "∃") "(" ident ":" term ")" "." term
    if          := "if" term "then" term "else" term
    arrow       := or ("->" term)?
    or          := and | or "||" and
    and         := cmp | and "&&" cmp
    cmp         := add (("==" | "<") add)?
    add         := mul | add ("+" | "-") mul
    mul         := unary | mul ("*" | "/") unary
    unary       := "!" unary | "-" int | app
    app         := atom | app atom
    atom        := int | "True" | "False" | "Int" | "Bool" | "Type" | "U" digits | ident
                 | "(" term (":" term)? ")"

The rules have a table of their own for the binary operators. The table by which the parser groups
them and the tiers by which the printer sets brackets both agree with it.
-/
namespace DepCalc

namespace Tier

def product : Nat := 3
def sum : Nat := 4
def comparison : Nat := 5
def conjunction : Nat := 6
def disjunction : Nat := 7

end Tier

/-- The tiers of an operation and of its two operands. -/
structure OperationRule where
  whole : Nat
  left : Nat
  right : Nat

namespace Operator

def sign : Operator → Source.Symbol
  | add => .plus
  | sub => .minus
  | mul => .times
  | div => .slash
  | eq => .equal
  | lt => .less
  | and => .and
  | or => .or

def rule : Operator → OperationRule
  | or => ⟨Tier.disjunction, Tier.disjunction, Tier.conjunction⟩
  | and => ⟨Tier.conjunction, Tier.conjunction, Tier.comparison⟩
  | eq | lt => ⟨Tier.comparison, Tier.sum, Tier.sum⟩
  | add | sub => ⟨Tier.sum, Tier.sum, Tier.product⟩
  | mul | div => ⟨Tier.product, Tier.product, Tier.unary⟩

/-- The loosest tier of a left operand that the printer leaves without brackets. -/
def leftTier (op : Operator) : Nat :=
  if op.isComparison then op.tier - 1 else op.tier

/-- The printer leaves an operand without brackets just where its rule asks for none. -/
theorem rule_eq (op : Operator) : op.rule = ⟨op.tier, op.leftTier, op.tier - 1⟩ := by
  cases op <;> rfl

end Operator

namespace Source

/-- The lexemes with which a binder may begin. -/
def openings : Binder → List Lexeme
  | .lam => [.symbol .backslash, .symbol .lambda]
  | .pi => [.keyword .forallWord, .symbol .forallSign]
  | .sigma => [.keyword .existsWord, .symbol .existsSign]

def constantWords : List (Keyword × Constant) :=
  [(.trueWord, .bool true), (.falseWord, .bool false), (.intWord, .intType),
   (.boolWord, .boolType), (.typeWord, .univ 0)]

/-- ASCII digits for a number that fits a signed 64-bit word. -/
structure Numeral (digits : List Char) (n : Nat) : Prop where
  nonempty : digits ≠ []
  ascii : ∀ c ∈ digits, c.isDigit
  value : Nat.ofDigitChars 10 digits 0 = n
  fits : n < 2 ^ 63

/-- The letter `U` followed by ASCII digits only. Such a name is never a variable. -/
def SpellsUniverse (x : Name) : Prop :=
  ∃ digits : List Char, digits ≠ [] ∧ (∀ c ∈ digits, c.isDigit) ∧ x.toList = 'U' :: digits

theorem not_spellsUniverse {x : Name} (other : x.toList.head? ≠ some 'U') :
    ¬ SpellsUniverse x := by
  rintro ⟨digits, -, -, spelled⟩
  rw [spelled] at other
  exact other rfl

/-- The lexemes spell the term as a form of the given tier. -/
inductive Derives : Nat → List Lexeme → Surface → Prop
  | numeral {digits : String} {n : Nat} (value : Numeral digits.toList n) :
      Derives Tier.atom [.numeral digits] (.const (.int (Int64.ofNat n)))
  | constant {word : Keyword} {c : Constant} (means : (word, c) ∈ constantWords) :
      Derives Tier.atom [.keyword word] (.const c)
  | univ {x : Name} {digits : List Char} {n : Nat} (spelled : x.toList = 'U' :: digits)
      (value : Numeral digits n) (noLeadingZero : digits.head? = some '0' → digits = ['0']) :
      Derives Tier.atom [.ident x] (.const (.univ (Int64.ofNat n)))
  | var {x : Name} (plain : ¬ SpellsUniverse x) : Derives Tier.atom [.ident x] (.var x)
  | brackets {ls : List Lexeme} {t : Surface} (inside : Derives Tier.term ls t) :
      Derives Tier.atom (.symbol .openParen :: ls ++ [.symbol .closeParen]) t
  | ascription {ls ls' : List Lexeme} {t type : Surface} (subject : Derives Tier.term ls t)
      (ascribed : Derives Tier.term ls' type) :
      Derives Tier.atom
        (.symbol .openParen :: ls ++ .symbol .colon :: ls' ++ [.symbol .closeParen])
        (.ascribe t type)
  | application {ls ls' : List Lexeme} {f a : Surface} (fn : Derives Tier.application ls f)
      (arg : Derives Tier.atom ls' a) : Derives Tier.application (ls ++ ls') (.app f a)
  | negation {ls : List Lexeme} {t : Surface} (operand : Derives Tier.unary ls t) :
      Derives Tier.unary (.symbol .bang :: ls) (.not t)
  | negative {digits : String} {n : Nat} (value : Numeral digits.toList n) :
      Derives Tier.unary [.symbol .minus, .numeral digits] (.const (.int (-Int64.ofNat n)))
  | operation {ls ls' : List Lexeme} {l r : Surface} (op : Operator)
      (left : Derives op.rule.left ls l) (right : Derives op.rule.right ls' r) :
      Derives op.rule.whole (ls ++ .symbol op.sign :: ls') (.binop op l r)
  | arrow {ls ls' : List Lexeme} {dom cod : Surface} (domain : Derives (Tier.arrow - 1) ls dom)
      (codomain : Derives Tier.term ls' cod) :
      Derives Tier.arrow (ls ++ .symbol .arrow :: ls') (.bind .pi wildcard dom cod)
  | lambda {opening : Lexeme} {x : Name} {ls ls' : List Lexeme} {dom body : Surface}
      (opens : opening ∈ openings .lam) (domain : Derives Tier.term ls dom)
      (under : Derives Tier.term ls' body) :
      Derives Tier.term
        (opening :: .ident x :: .symbol .colon :: ls ++ .symbol .dot :: ls')
        (.bind .lam x dom body)
  | quantifier {b : Binder} {opening : Lexeme} {x : Name} {ls ls' : List Lexeme}
      {dom body : Surface} (type : b ≠ .lam) (opens : opening ∈ openings b)
      (domain : Derives Tier.term ls dom) (under : Derives Tier.term ls' body) :
      Derives Tier.term
        (opening :: .symbol .openParen :: .ident x :: .symbol .colon :: ls ++
          .symbol .closeParen :: .symbol .dot :: ls')
        (.bind b x dom body)
  | conditional {ls ls' ls'' : List Lexeme} {t yes no : Surface} (test : Derives Tier.term ls t)
      (first : Derives Tier.term ls' yes) (second : Derives Tier.term ls'' no) :
      Derives Tier.term
        (.keyword .ifWord :: ls ++ .keyword .thenWord :: ls' ++ .keyword .elseWord :: ls'')
        (.cond t yes no)
  | looser {tier : Nat} {ls : List Lexeme} {t : Surface} (below : tier < Tier.term)
      (form : Derives tier ls t) : Derives (tier + 1) ls t

/-- A form of a tier is one of every looser tier. -/
theorem Derives.mono {tier tier' : Nat} {ls : List Lexeme} {t : Surface} (form : Derives tier ls t)
    (le : tier ≤ tier') (most : tier' ≤ Tier.term) : Derives tier' ls t := by
  induction le with
  | refl => exact form
  | step _ ih => exact .looser most (ih (Nat.le_of_lt most))

/-- Operands that the printer leaves without brackets are those of the rule. -/
theorem Derives.binop {ls ls' : List Lexeme} {l r : Surface} (op : Operator)
    (left : Derives op.leftTier ls l) (right : Derives (op.tier - 1) ls' r) :
    Derives op.tier (ls ++ .symbol op.sign :: ls') (.binop op l r) := by
  have whole : op.rule.whole = op.tier := by rw [op.rule_eq]
  rw [← whole]
  apply Derives.operation op
  · rwa [op.rule_eq]
  · rwa [op.rule_eq]

/-- The parser groups the operators as the rules do. -/
theorem mem_operatorTiers {op : Operator} {tiers : Nat} :
    op ∈ operatorTiers.getD tiers [] ↔ op.rule.whole = Tier.unary + (tiers + 1) := by
  match tiers with
  | 0 | 1 | 2 | 3 | 4 => cases op <;> decide
  | tiers + 5 =>
    have most : op.rule.whole ≤ Tier.disjunction := by cases op <;> decide
    have beyond : op.rule.whole ≠ Tier.unary + (tiers + 5 + 1) := by
      unfold Tier.disjunction at most
      unfold Tier.unary
      omega
    simp [operatorTiers, beyond]

/-- The operands of an operator are forms of the tiers below its own, except that the left one may
be of its own tier if the parser lets the operator be chained. -/
theorem rule_operands {op : Operator} {tiers : Nat}
    (here : op.rule.whole = Tier.unary + (tiers + 1)) :
    op.rule.left = Tier.unary + (if tiers = comparisonTier then tiers else tiers + 1) ∧
      op.rule.right = Tier.unary + tiers := by
  obtain rfl : tiers = op.rule.whole - Tier.product := by
    unfold Tier.unary at here
    unfold Tier.product
    omega
  cases op <;> decide

theorem sign_injective {op op' : Operator} (same : op.sign = op'.sign) : op' = op := by
  cases op <;> cases op' <;> first | rfl | cases same

theorem symbol_eq_text {op : Operator} {sign : Symbol} : op.symbol = sign.text ↔ sign = op.sign := by
  cases op <;> cases sign <;> decide

theorem operator?_eq_some {lexeme : Lexeme} {tiers : Nat} {op : Operator} :
    lexeme.operator? tiers = some op ↔
      lexeme = .symbol op.sign ∧ op.rule.whole = Tier.unary + (tiers + 1) := by
  rw [← mem_operatorTiers]
  constructor
  · intro found
    cases lexeme with
    | symbol sign =>
      have spelled : op.symbol = sign.text := by simpa using List.find?_some found
      exact ⟨congrArg _ (symbol_eq_text.mp spelled), List.mem_of_find?_eq_some found⟩
    | _ => cases found
  · rintro ⟨rfl, member⟩
    have spelled : op.symbol = op.sign.text := symbol_eq_text.mpr rfl
    obtain ⟨op', found⟩ : ∃ op', Lexeme.operator? tiers (.symbol op.sign) = some op' :=
      Option.isSome_iff_exists.mp (List.find?_isSome.mpr ⟨op, member, by simpa using spelled⟩)
    -- Only one operator has the sign, so the one that is found first is this one.
    have same : op'.symbol = op.sign.text := by simpa using List.find?_some found
    rw [found, sign_injective (symbol_eq_text.mp same)]

theorem opening?_eq_lambda {lexeme : Lexeme} :
    lexeme.opening? = some .lambda ↔ lexeme ∈ openings .lam := by
  cases lexeme with
  | symbol sign => cases sign <;> simp [Lexeme.opening?, openings]
  | keyword word => cases word <;> simp [Lexeme.opening?, openings]
  | _ => simp [Lexeme.opening?, openings]

theorem opening?_eq_quantifier {lexeme : Lexeme} {b : Binder} :
    lexeme.opening? = some (.quantifier b) ↔ b ≠ .lam ∧ lexeme ∈ openings b := by
  cases lexeme with
  | symbol sign => cases sign <;> cases b <;> simp [Lexeme.opening?, openings]
  | keyword word => cases word <;> cases b <;> simp [Lexeme.opening?, openings]
  | _ => cases b <;> simp [Lexeme.opening?, openings]

theorem opening?_eq_conditional {lexeme : Lexeme} :
    lexeme.opening? = some .conditional ↔ lexeme = .keyword .ifWord := by
  cases lexeme with
  | symbol sign => cases sign <;> simp [Lexeme.opening?]
  | keyword word => cases word <;> simp [Lexeme.opening?]
  | _ => simp [Lexeme.opening?]

theorem constant?_eq_some {word : Keyword} {c : Constant} :
    word.constant? = some c ↔ (word, c) ∈ constantWords := by
  cases word <;> simp [Keyword.constant?, constantWords, eq_comm]

theorem word?_eq_some {digits : List Char} {w : Int64} :
    Text.Decimal.word? digits = some w ↔ ∃ n, Numeral digits n ∧ w = Int64.ofNat n := by
  have limit : Int64.maxValue.toInt = 2 ^ 63 - 1 := by decide
  unfold Text.Decimal.word? Text.Decimal.value?
  by_cases decimal : digits ≠ [] ∧ digits.all Char.isDigit
  · simp only [if_pos decimal, limit]
    have ascii : ∀ c ∈ digits, c.isDigit := by simpa using decimal.2
    constructor
    · intro found
      split at found
      · rename_i fits
        cases found
        exact ⟨_, ⟨decimal.1, ascii, rfl, by omega⟩, rfl⟩
      · cases found
    · rintro ⟨n, ⟨-, -, rfl, fits⟩, rfl⟩
      rw [if_pos (by omega)]
  · simp only [if_neg decimal]
    constructor
    · intro found
      cases found
    · rintro ⟨n, ⟨nonempty, ascii, -, -⟩, -⟩
      exact absurd ⟨nonempty, by simpa using ascii⟩ decimal

theorem levelDigits?_eq_some {x : Name} {digits : List Char} :
    levelDigits? x = some digits ↔
      x.toList = 'U' :: digits ∧ digits ≠ [] ∧ ∀ c ∈ digits, c.isDigit := by
  unfold levelDigits?
  split
  · rename_i found spelled
    rw [spelled]
    constructor
    · intro found
      split at found
      · rename_i decimal
        cases found
        exact ⟨rfl, decimal.1, by simpa using decimal.2⟩
      · cases found
    · rintro ⟨same, nonempty, ascii⟩
      cases same
      rw [if_pos ⟨nonempty, by simpa using ascii⟩]
  · rename_i other
    constructor
    · intro found
      cases found
    · rintro ⟨spelled, -⟩
      exact absurd spelled (other digits)

theorem levelDigits?_eq_none {x : Name} : levelDigits? x = none ↔ ¬ SpellsUniverse x := by
  rw [Option.eq_none_iff_forall_ne_some]
  constructor
  · rintro none ⟨digits, nonempty, ascii, spelled⟩
    exact none digits (levelDigits?_eq_some.mpr ⟨spelled, nonempty, ascii⟩)
  · intro plain digits found
    obtain ⟨spelled, nonempty, ascii⟩ := levelDigits?_eq_some.mp found
    exact plain ⟨digits, nonempty, ascii, spelled⟩

end Source
end DepCalc

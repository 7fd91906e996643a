import DepCalc.Source.Error
import DepCalc.Text.Blank
import DepCalc.Text.Digit
import DepCalc.Text.Letter

/-!
Cutting a source text into tokens. Blanks and comments separate tokens and leave no trace but the
places of the tokens behind them.
-/
namespace DepCalc.Source

/-- The sign of abstraction is a letter, but none of a name. -/
def isNameStart (c : Char) : Bool :=
  c == '_' || (Text.isLetter c && c != 'λ')

def isNamePart (c : Char) : Bool :=
  isNameStart c || Text.isDigit c || c == '\''

/-- A piece at the front of a text: the lexeme it spells, or `none` for a gap, and how many
characters after the first belong to it. -/
structure Piece where
  lexeme? : Option Lexeme
  more : Nat
  deriving DecidableEq, Repr

/-- A comment ends before the next line break. -/
def commentPart (c : Char) : Bool :=
  c != '\n'

def Lexeme.ofWord (word : String) : Lexeme :=
  match Keyword.ofText? word with
  | some reserved => .keyword reserved
  | none => .ident word

/-- The piece at the front of `c :: rest`, unless no lexeme begins with `c`. -/
def piece? (c : Char) (rest : List Char) : Option Piece :=
  if Text.isBlank c then some ⟨none, 0⟩
  else if c = '-' ∧ rest.head? = some '-' then
    some ⟨none, (rest.takeWhile commentPart).length⟩
  else if Text.isDigit c then
    let more := rest.takeWhile Text.isDigit
    some ⟨some (.numeral (String.ofList (c :: more))), more.length⟩
  else if isNameStart c then
    let more := rest.takeWhile isNamePart
    some ⟨some (Lexeme.ofWord (String.ofList (c :: more))), more.length⟩
  else
    (Symbol.front? (c :: rest)).map fun sign => ⟨some (.symbol sign), sign.text.length - 1⟩

structure Tokens where
  list : List Token
  /-- Where the text ends. -/
  stop : Position
  deriving DecidableEq, Repr

/-- Tokens already found stand in `done`, the last one first. -/
def Tokens.scanOnto (done : List Token) (pos : Position) : List Char → Except Error Tokens
  | [] => .ok ⟨done.reverse, pos⟩
  | c :: rest =>
    match piece? c rest with
    | none => .error ⟨pos, .unexpectedCharacter c⟩
    | some ⟨lexeme?, more⟩ =>
      let found := match lexeme? with
        | some lexeme => ⟨lexeme, pos⟩ :: done
        | none => done
      scanOnto found (pos.after (c :: rest.take more)) (rest.drop more)
termination_by text => text.length
decreasing_by simp only [List.length_drop, List.length_cons]; omega

def Tokens.scan (text : List Char) : Except Error Tokens :=
  Tokens.scanOnto [] Position.start text

end DepCalc.Source

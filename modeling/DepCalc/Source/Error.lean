import DepCalc.Source.Lexeme
import DepCalc.Text.Quoted

/-!
What can be wrong with a source text, and how it is told.
-/
namespace DepCalc.Source

inductive Wanted where
  | lexeme (l : Lexeme)
  | identifier
  | endOfInput
  deriving DecidableEq, Repr

/-- A lexeme that was found is `none` at the end of the input. -/
inductive Cause where
  | unexpectedCharacter (c : Char)
  | expected (wanted : Wanted) (found : Option Lexeme)
  | unexpected (found : Option Lexeme)
  | chainedComparison
  | invalidInteger (digits : String)
  | invalidLevel (word : String)
  deriving DecidableEq, Repr

structure Error where
  pos : Position
  cause : Cause
  deriving DecidableEq, Repr

def endText : String := "EOF"

def Wanted.text : Wanted → String
  | lexeme l => l.text
  | identifier => "identifier"
  | endOfInput => endText

def foundText : Option Lexeme → String
  | some l => l.text
  | none => endText

def Cause.message : Cause → String
  | unexpectedCharacter c => "unexpected character " ++ Text.Quoted.char c
  | expected wanted found =>
    "expected " ++ Text.Quoted.string wanted.text ++ ", got " ++
      Text.Quoted.string (foundText found)
  | unexpected found => "unexpected " ++ Text.Quoted.string (foundText found)
  | chainedComparison => "comparison operators do not associate"
  | invalidInteger digits => "invalid integer " ++ digits
  | invalidLevel word => "invalid universe level " ++ word

def Error.message (e : Error) : String :=
  e.pos.text ++ ": " ++ e.cause.message

end DepCalc.Source

import DepCalc.Name
import DepCalc.Source.Position

/-!
Lexemes: the words and signs of which a source text consists.
-/
namespace DepCalc.Source

inductive Keyword where
  | ifWord | thenWord | elseWord | forallWord | existsWord
  | trueWord | falseWord | intWord | boolWord | typeWord
  deriving DecidableEq, Repr

namespace Keyword

def all : List Keyword :=
  [ifWord, thenWord, elseWord, forallWord, existsWord, trueWord, falseWord, intWord, boolWord,
   typeWord]

def text : Keyword → String
  | ifWord => "if"
  | thenWord => "then"
  | elseWord => "else"
  | forallWord => "forall"
  | existsWord => "exists"
  | trueWord => "True"
  | falseWord => "False"
  | intWord => "Int"
  | boolWord => "Bool"
  | typeWord => "Type"

def ofText? (word : String) : Option Keyword :=
  all.find? fun keyword => keyword.text == word

end Keyword

inductive Symbol where
  | arrow | equal | and | or
  | openParen | closeParen | colon | dot
  | backslash | lambda | forallSign | existsSign
  | plus | minus | times | slash | less | bang
  deriving DecidableEq, Repr

namespace Symbol

/-- Longer signs first: `->` wins over `-`. -/
def all : List Symbol :=
  [arrow, equal, and, or, openParen, closeParen, colon, dot, backslash, lambda, forallSign,
   existsSign, plus, minus, times, slash, less, bang]

def text : Symbol → String
  | arrow => "->"
  | equal => "=="
  | and => "&&"
  | or => "||"
  | openParen => "("
  | closeParen => ")"
  | colon => ":"
  | dot => "."
  | backslash => "\\"
  | lambda => "λ"
  | forallSign => "∀"
  | existsSign => "∃"
  | plus => "+"
  | minus => "-"
  | times => "*"
  | slash => "/"
  | less => "<"
  | bang => "!"

/-- The sign with which a text begins. -/
def front? (text : List Char) : Option Symbol :=
  all.find? fun symbol => symbol.text.toList.isPrefixOf text

end Symbol

inductive Lexeme where
  | ident (x : Name)
  | numeral (digits : String)
  | keyword (word : Keyword)
  | symbol (sign : Symbol)
  deriving DecidableEq, Repr

def Lexeme.text : Lexeme → String
  | ident x => x
  | numeral digits => digits
  | keyword word => word.text
  | symbol sign => sign.text

structure Token where
  lexeme : Lexeme
  pos : Position
  deriving DecidableEq, Repr

end DepCalc.Source

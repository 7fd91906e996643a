import DepCalc.Program
import DepCalc.Text.Lines

/-!
What is printed about one program: its result, or what is wrong with it.
-/
namespace DepCalc

structure Report where
  ok : Bool
  out : Text.Bytes
  deriving DecidableEq, Repr

namespace Report

open Text (Bytes)

/-- The place and cause of a fault in the source text, the line at fault, and a caret under it. Of a
line that the text does not have nothing is shown. -/
def malformed (name source : Bytes) (e : Source.Error) : Bytes :=
  name ++ Bytes.ofString (":" ++ e.message ++ "\n") ++
    match (source.splitOn Bytes.lineFeed)[e.pos.line - 1]? with
    | none => []
    | some line =>
      line ++
        Bytes.ofString ("\n" ++ String.ofList (List.replicate (e.pos.column - 1) ' ') ++ "^\n")

/-- A message about the program called `name`. -/
def complaint (name : Bytes) (message : String) : Bytes :=
  name ++ Bytes.ofString (": " ++ message ++ "\n")

/-- Where the terms of a type error cannot be displayed, the reason for that is told. -/
def typeErrorText (e : TypeError) : String :=
  match e.message with
  | .ok message => message
  | .error fault => fault.message

/-- Run the program called `name`. -/
def ofSource (fuel : Nat) (options : Program.Options) (name source : Bytes) : Report :=
  match Program.run fuel options (Text.Utf8.decode source) with
  | .ok result => ⟨true, Bytes.ofString (result.text options ++ "\n")⟩
  | .error (.malformed e) => ⟨false, malformed name source e⟩
  | .error (.unbound e) => ⟨false, complaint name (e.message ++ " (this is a bug)")⟩
  | .error (.halted h) => ⟨false, complaint name (h.message ++ " (this is a bug)")⟩
  | .error (.illTyped e) => ⟨false, complaint name ("type error: " ++ typeErrorText e)⟩

end Report
end DepCalc

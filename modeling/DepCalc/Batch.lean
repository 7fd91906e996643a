import DepCalc.Report

/-!
Batches: one program on each line of an input.
-/
namespace DepCalc.Batch

open Text (Bytes)

/-- A line of this many bytes, or more, ends the batch. -/
def lineLimit : Nat := 65536

def isShort (line : Bytes) : Bool :=
  line.length < lineLimit

def isBlankLine (line : Bytes) : Bool :=
  (Text.Utf8.decode line).all Text.isBlank

def lineName : Bytes := Bytes.ofString "<stdin>"

/-- What is printed about one line; blank lines are passed over. -/
def answer (fuel : Nat) (options : Program.Options) (line : Bytes) : Bytes :=
  let line := line.trimReturn
  if isBlankLine line then [] else (Report.ofSource fuel options lineName line).out

/-- Whether the fuel does not suffice for a line. -/
def exhausts (fuel : Nat) (options : Program.Options) (line : Bytes) : Bool :=
  let line := line.trimReturn
  !isBlankLine line && Program.exhausts fuel options (Text.Utf8.decode line)

/-- How a batch ends. -/
inductive Ending where
  | complete
  /-- A line is too long. -/
  | tooLong
  /-- The fuel does not suffice for a line. -/
  | exhausted
  deriving DecidableEq, Repr

structure Transcript where
  out : Bytes
  ending : Ending
  deriving DecidableEq, Repr

/-- Answer the lines in order. One that is too long ends the batch, and so does one for which the fuel
does not suffice: nothing is printed about it, nor about the lines behind it. -/
def answerLines (fuel : Nat) (options : Program.Options) : List Bytes → Transcript
  | [] => ⟨[], .complete⟩
  | line :: rest =>
    if !isShort line then ⟨[], .tooLong⟩
    else if exhausts fuel options line then ⟨[], .exhausted⟩
    else
      let later := answerLines fuel options rest
      ⟨answer fuel options line ++ later.out, later.ending⟩

def run (fuel : Nat) (options : Program.Options) (input : Bytes) : Transcript :=
  answerLines fuel options input.lines

def out (fuel : Nat) (options : Program.Options) (input : Bytes) : Bytes :=
  (run fuel options input).out

end DepCalc.Batch

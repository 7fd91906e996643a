import DepCalc.Batch

/-!
The command line: what a list of arguments asks for, and what is printed in answer.
-/
namespace DepCalc.CommandLine

open Text (Bytes)

inductive Command where
  /-- No command: tell the usage, or the version. -/
  | overview
  /-- Run the term that the operands spell. -/
  | eval
  /-- Run each file named by an operand. -/
  | run
  /-- Run each line of the standard input. -/
  | repl
  deriving DecidableEq, Repr

def Command.ofWord? : String → Option Command
  | "eval" => some .eval
  | "run" => some .run
  | "repl" => some .repl
  | _ => none

structure Switches where
  textualNames : Bool := false
  numbered : Bool := false
  /-- Accepted for the sake of a log beside the answer; it changes nothing in the answer. -/
  verbose : Bool := false
  version : Bool := false
  deriving DecidableEq, Repr

def Switches.options (switches : Switches) : Program.Options :=
  { textualNames := switches.textualNames, numbered := switches.numbered }

/-- Set the switch with a long name. Only the bare program has a version. -/
def Switches.set? (command : Command) (switches : Switches) : String → Bool → Option Switches
  | "textual-names", value => some { switches with textualNames := value }
  | "debruijn", value => some { switches with numbered := value }
  | "verbose", value => some { switches with verbose := value }
  | "version", value =>
    if command = .overview then some { switches with version := value } else none
  | _, _ => none

/-- The words for a truth value. -/
def truth? (word : String) : Option Bool :=
  if ["1", "t", "T", "true", "TRUE", "True"].contains word then some true
  else if ["0", "f", "F", "false", "FALSE", "False"].contains word then some false
  else none

/-- A long flag, without its dashes: a name, or a name and a truth value. -/
def longFlag? (command : Command) (switches : Switches) (flag : List Char) : Option Switches :=
  let name := String.ofList (flag.takeWhile (· != '='))
  match flag.dropWhile (· != '=') with
  | [] => switches.set? command name true
  | _ :: value => do
    let value ← truth? (String.ofList value)
    switches.set? command name value

/-- A cluster of one-letter flags, the last of which may have a truth value. Flags of a test runner
are left alone. -/
def shortFlags? (switches : Switches) : List Char → Option Switches
  | [] => some switches
  | letter :: rest =>
    if "test.".toList.isPrefixOf (letter :: rest) then some switches
    else if letter = 'v' then
      match rest with
      | '=' :: c :: value => do
        let value ← truth? (String.ofList (c :: value))
        some { switches with verbose := value }
      | _ => shortFlags? { switches with verbose := true } rest
    else none

/-- A single dash is an operand. -/
def isFlag (word : String) : Bool :=
  word.startsWith "-" && word != "-"

def flag? (command : Command) (switches : Switches) (word : String) : Option Switches :=
  match word.toList with
  | '-' :: '-' :: flag => longFlag? command switches flag
  | '-' :: flag => shortFlags? switches flag
  | _ => none

/-- What the arguments ask for. -/
structure Invocation where
  command : Command
  switches : Switches
  operands : List String
  deriving DecidableEq, Repr

/-- Whether a command can have so many operands. -/
def Command.accepts : Command → Nat → Bool
  | overview, _ => true
  | eval, count | run, count => 1 ≤ count
  | repl, count => count = 0

/-- The first word that is neither empty nor begins with a dash. -/
def commandWord? (words : List String) : Option String :=
  words.find? fun word => word != "" && !word.startsWith "-"

/-- The command, and the words without the one that names it. -/
def command? (words : List String) : Option (Command × List String) :=
  match commandWord? words with
  | none => some (.overview, words)
  | some word => (Command.ofWord? word).map fun command => (command, words.erase word)

/-- Flags and the command stand anywhere before the first `--`; behind it all words are operands.
Arguments that ask for nothing known are refused. -/
def parse? (args : List String) : Option Invocation := do
  let (command, words) ← command? (args.takeWhile (· != "--"))
  let switches ← (words.filter isFlag).foldlM (flag? command) {}
  let operands := words.filter (!isFlag ·) ++ (args.dropWhile (· != "--")).drop 1
  if command.accepts operands.length then some ⟨command, switches, operands⟩ else none

/-- What a run of the program can read. -/
structure Inputs where
  stdin : Bytes
  file? : String → Option Bytes

structure Outcome where
  stdout : Bytes
  code : Nat
  deriving DecidableEq, Repr

def versionText : String := "dtt (devel)\n"

def usageText : String :=
"Usage:
  dtt [flags]
  dtt [command]

Available Commands:
  completion  Generate the autocompletion script for the specified shell
  eval        Evaluate a term given on the command line.
  help        Help about any command
  repl        Evaluate terms interactively, one per line.
  run         Evaluate programs read from files.

Flags:
      --debruijn        print de Bruijn indices instead of names
  -h, --help            help for dtt
      --textual-names   resolve variables by comparing names
  -v, --verbose         log each pipeline stage
      --version         report version of this executable

Use \"dtt [command] --help\" for more information about a command.

"

/-- The name under which the standard input is a file. It can be read once. -/
def stdinName : String := "-"

/-- The status of a run that is broken off because evaluation nests too deeply. Nothing is printed
about the program that did it, nor about those after it. -/
def exhaustedCode : Nat := 2

def endingCode : Batch.Ending → Nat
  | .complete => 0
  | .tooLong => 1
  | .exhausted => exhaustedCode

/-- Run the named files in order. One that cannot be read ends the run. -/
def runFiles (fuel : Nat) (options : Program.Options) (inputs : Inputs) : List String → Outcome
  | [] => ⟨[], 0⟩
  | name :: rest =>
    let source? := if name = stdinName then some inputs.stdin else inputs.file? name
    match source? with
    | none => ⟨[], 1⟩
    | some source =>
      if Program.exhausts fuel options (Text.Utf8.decode source) then ⟨[], exhaustedCode⟩ else
      let inputs := if name = stdinName then { inputs with stdin := [] } else inputs
      let report := Report.ofSource fuel options (Bytes.ofString name) source
      let later := runFiles fuel options inputs rest
      ⟨report.out ++ later.stdout, if report.ok then later.code else max 1 later.code⟩

def Invocation.execute (fuel : Nat) (inputs : Inputs) (invocation : Invocation) : Outcome :=
  let options := invocation.switches.options
  match invocation.command with
  | .overview =>
    if invocation.switches.version then ⟨Bytes.ofString versionText, 0⟩
    else ⟨Bytes.ofString usageText, 2⟩
  | .eval =>
    let source := Bytes.ofString (" ".intercalate invocation.operands)
    if Program.exhausts fuel options (Text.Utf8.decode source) then ⟨[], exhaustedCode⟩ else
    let report := Report.ofSource fuel options (Bytes.ofString "<arg>") source
    ⟨report.out, if report.ok then 0 else 1⟩
  | .run => runFiles fuel options inputs invocation.operands
  | .repl =>
    let batch := Batch.run fuel options inputs.stdin
    ⟨batch.out, endingCode batch.ending⟩

/-- The answer to a list of arguments. -/
def execute (fuel : Nat) (inputs : Inputs) (args : List String) : Outcome :=
  match parse? args with
  | some invocation => invocation.execute fuel inputs
  | none => ⟨[], 1⟩

end DepCalc.CommandLine

import DepCalc.CommandLine

/-!
The program's entry point: it reads what the arguments ask for and prints the answer.
-/
namespace DepCalc.CommandLine

/-- Whether the standard input is asked for. -/
def Invocation.readsStdin (invocation : Invocation) : Bool :=
  match invocation.command with
  | .repl => true
  | .run => invocation.operands.contains stdinName
  | _ => false

def readFile? (name : String) : IO (Option Text.Bytes) := do
  try
    let bytes ← IO.FS.readBinFile name
    return some bytes.toList
  catch _ => return none

def gather (invocation : Invocation) : IO Inputs := do
  let stdin ← if invocation.readsStdin then (← IO.getStdin).readBinToEnd else pure .empty
  let names := if invocation.command = .run then invocation.operands else []
  let files ← names.mapM fun name => return (name, ← readFile? name)
  return { stdin := stdin.toList, file? := fun name => (files.lookup name).bind id }

def run (args : List String) : IO UInt32 := do
  let some invocation := parse? args | return 1
  let outcome := invocation.execute Program.defaultFuel (← gather invocation)
  (← IO.getStdout).write ⟨outcome.stdout.toArray⟩
  return outcome.code.toUInt32

end DepCalc.CommandLine

def main (args : List String) : IO UInt32 :=
  DepCalc.CommandLine.run args

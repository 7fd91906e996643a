import DepCalc.Scope
import DepCalc.Source.Parser
import DepCalc.Term.Bracketed
import DepCalc.Typing.Infer

/-!
Programs: a source text is parsed, resolved, typed and normalised. An ill-typed term is refused
before it is normalised.
-/
namespace DepCalc.Program

structure Options where
  /-- Resolve variables by comparing names; otherwise each refers to the innermost binder. -/
  textualNames : Bool := false
  /-- Write indices in place of names. -/
  numbered : Bool := false
  deriving DecidableEq, Repr

def Options.matching (options : Options) : Matching :=
  if options.textualNames then .textual else .vacuous

/-- A well-typed program: the resolved term, its normal form and its normalised type. -/
structure Result where
  term : Indexed
  normal : Indexed
  type : Indexed
  deriving DecidableEq, Repr

inductive Error where
  | malformed (e : Source.Error)
  | unbound (e : Unbound)
  | halted (h : Halt)
  | illTyped (e : TypeError)
  deriving DecidableEq, Repr

def Error.ofRejection : Rejection → Error
  | .halted h => .halted h
  | .illTyped e => .illTyped e

/-- Fuel for programs from outside: evaluation may nest as deeply as this. -/
def defaultFuel : Nat := 1000000

def run (fuel : Nat) (options : Options) (text : List Char) : Except Error Result := do
  let surface ← (Source.parse text).mapError .malformed
  let term ← (surface.resolve options.matching []).mapError .unbound
  let inferred ← (Context.infer fuel [] term).mapError .ofRejection
  let type ← (inferred.normalize fuel []).mapError .halted
  let normal ← (term.normalize fuel []).mapError .halted
  return ⟨term, normal, type⟩

/-- Whether the fuel does not suffice for the program. -/
def exhausts (fuel : Nat) (options : Options) (text : List Char) : Bool :=
  match run fuel options text with
  | .error (.halted .outOfFuel) => true
  | _ => false

def Options.write (options : Options) (t : Indexed) : String :=
  if options.numbered then t.numbered else t.render [] Tier.term

/-- The normal form followed by its type. -/
def Result.text (options : Options) (result : Result) : String :=
  options.write result.normal ++ " : " ++ options.write result.type

end DepCalc.Program

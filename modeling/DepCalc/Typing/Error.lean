import DepCalc.Term.Display
import DepCalc.Value.Halt

/-!
Why a term has no type.
-/
namespace DepCalc

/-- Causes carry the names in scope, under which their terms are told. -/
inductive TypeError where
  | unknownVariable (x : Name)
  | notFunction (scope : List Name) (fn type : Indexed)
  | notType (scope : List Name) (t type : Indexed)
  | mismatch (scope : List Name) (t type expected : Indexed)
  | branches (scope : List Name) (yes no : Indexed)
  deriving DecidableEq, Repr

/-- A term with a negative index cannot be told. -/
def TypeError.message : TypeError → Except Term.NegativeIndex String
  | unknownVariable x => return "cannot find variable " ++ x
  | notFunction scope fn type => do
    let fn ← fn.display scope
    let type ← type.display scope
    return fn ++ " is not a function; it has type " ++ type
  | notType scope t type => do
    let t ← t.display scope
    let type ← type.display scope
    return t ++ " is not a type; it has type " ++ type
  | mismatch scope t type expected => do
    let t ← t.display scope
    let type ← type.display scope
    let expected ← expected.display scope
    return t ++ " has type " ++ type ++ " but expected " ++ expected
  | branches scope yes no => do
    let yes ← yes.display scope
    let no ← no.display scope
    return "branches of conditional have different types " ++ yes ++ " and " ++ no

/-- Why no type was inferred: a type could not be normalised, or the term has none. -/
inductive Rejection where
  | halted (h : Halt)
  | illTyped (e : TypeError)
  deriving DecidableEq, Repr

end DepCalc

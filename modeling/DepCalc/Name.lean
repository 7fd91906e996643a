/-!
Names of variables, and the choice of a name that is not yet taken.
-/
namespace DepCalc

abbrev Name := String

/-- The name of a binder whose variable is not meant to be used. -/
def wildcard : Name := "_"

/-- The name `x` followed by `count` primes. -/
def primed (x : Name) (count : Nat) : Name :=
  x ++ String.ofList (List.replicate count '\'')

/-- The name `x` with the fewest primes that keep it apart from `taken`; the wildcard is never
renamed. There is one candidate more than there are taken names, so one of them is free. -/
def freshen (taken : List Name) (x : Name) : Name :=
  if x = wildcard then x
  else
    match (List.range (taken.length + 1)).find? fun count => !taken.contains (primed x count) with
    | some count => primed x count
    | none => x

end DepCalc

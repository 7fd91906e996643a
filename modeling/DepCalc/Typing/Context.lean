import DepCalc.Term.Substitution

/-!
Typing contexts.
-/
namespace DepCalc

structure Binding where
  name : Name
  type : Indexed
  deriving DecidableEq, Repr

/-- Variables with their types, innermost first. Each type is relative to the bindings outside. -/
abbrev Context := List Binding

namespace Context

def names (Γ : Context) : List Name :=
  Γ.map Binding.name

def extend (Γ : Context) (x : Name) (type : Indexed) : Context :=
  ⟨x, type⟩ :: Γ

/-- The type of the variable at `ix`, shifted into the whole context. -/
def lookup? (Γ : Context) (ix : Int64) : Option Indexed :=
  (atIndex? Γ ix).map fun binding => binding.type.shift (ix + 1) 0

end Context
end DepCalc

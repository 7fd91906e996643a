import DepCalc.Normal
import DepCalc.Typing.Context
import DepCalc.Typing.Error

/-!
Type inference. Types are compared by their normal forms, for which the fuel is spent; the recursion
itself follows the term.
-/
namespace DepCalc

def Constant.type : Constant → Constant
  | int _ => .intType
  | bool _ => .boolType
  | intType | boolType => .univ 0
  | univ level => .univ (level + 1)

namespace Context

def normalize (fuel : Nat) (Γ : Context) (t : Indexed) : Except Rejection Indexed :=
  (t.normalize fuel Γ.names).mapError .halted

def convertible (fuel : Nat) (Γ : Context) (s t : Indexed) : Except Rejection Bool :=
  (s.convertible fuel Γ.names t).mapError .halted

/-- Accept `t`, whose type is `type`, where `expected` is wanted. -/
def expect (fuel : Nat) (Γ : Context) (t type expected : Indexed) : Except Rejection Unit := do
  if ← Γ.convertible fuel type expected then return ()
  else throw (.illTyped (.mismatch Γ.names t type expected))

/-- The level of the universe to which `t` belongs, given its type. -/
def universeLevel (fuel : Nat) (Γ : Context) (t type : Indexed) : Except Rejection Int64 := do
  match ← Γ.normalize fuel type with
  | .const (.univ level) => return level
  | other => throw (.illTyped (.notType Γ.names t other))

/-- The type of a term; of several faults the first met from left to right is reported. -/
def infer (fuel : Nat) (Γ : Context) : Indexed → Except Rejection Indexed
  | .var v =>
    match Γ.lookup? v.ix with
    | some type => return type
    | none => throw (.illTyped (.unknownVariable v.name))
  | .const c => return .const c.type
  | .binop op l r => do
    let leftType ← infer fuel Γ l
    Γ.expect fuel l leftType (.const op.operandType)
    let rightType ← infer fuel Γ r
    Γ.expect fuel r rightType (.const op.operandType)
    return .const op.resultType
  | .not t => do
    let type ← infer fuel Γ t
    Γ.expect fuel t type (.const .boolType)
    return .const .boolType
  | .app f a => do
    let fnType ← infer fuel Γ f
    match ← Γ.normalize fuel fnType with
    | .bind .pi _ dom cod => do
      let argType ← infer fuel Γ a
      Γ.expect fuel a argType dom
      return Term.instantiate a cod
    | other => throw (.illTyped (.notFunction Γ.names f other))
  | .bind b x dom body => do
    let domType ← infer fuel Γ dom
    let domLevel ← Γ.universeLevel fuel dom domType
    let bodyType ← infer fuel (Γ.extend x dom) body
    match b with
    | .lam => return .bind .pi x dom bodyType
    | .pi | .sigma => do
      let bodyLevel ← universeLevel fuel (Γ.extend x dom) body bodyType
      return .const (.univ (max domLevel bodyLevel))
  | .cond t yes no => do
    let testType ← infer fuel Γ t
    Γ.expect fuel t testType (.const .boolType)
    let yesType ← infer fuel Γ yes
    let noType ← infer fuel Γ no
    if ← Γ.convertible fuel yesType noType then return yesType
    else throw (.illTyped (.branches Γ.names yesType noType))
  | .ascribe t type => do
    let found ← infer fuel Γ t
    Γ.expect fuel t found type
    return type

/-- Accept `t` if its type is convertible to `expected`, which is not itself checked. -/
def check (fuel : Nat) (Γ : Context) (t expected : Indexed) : Except Rejection Unit := do
  let type ← Γ.infer fuel t
  Γ.expect fuel t type expected

/-- The level of the universe to which the type `t` belongs. -/
def inferUniverse (fuel : Nat) (Γ : Context) (t : Indexed) : Except Rejection Int64 := do
  let type ← Γ.infer fuel t
  Γ.universeLevel fuel t type

end Context
end DepCalc

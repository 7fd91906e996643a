import DepCalc.Term.Basic
import DepCalc.Text.Quoted

/-!
Naming contexts and the resolution of surface terms into indexed terms.
-/
namespace DepCalc

/-- When an occurrence refers to a binder. -/
inductive Matching where
  /-- When both have the same name. -/
  | textual
  /-- Always, so that every occurrence refers to the innermost binder. -/
  | vacuous
  deriving DecidableEq, Repr

def Matching.refersTo : Matching → Name → Name → Bool
  | textual, used, bound => used == bound
  | vacuous, _, _ => true

structure ScopeEntry where
  name : Name
  ix : Int64
  deriving DecidableEq, Repr

/-- Names in scope with the indices they resolve to, innermost first. -/
abbrev Scope := List ScopeEntry

structure Unbound where
  name : Name
  deriving DecidableEq, Repr

def Unbound.message (e : Unbound) : String :=
  "internal error: unbound variable " ++ Text.Quoted.string e.name

namespace Scope

/-- The scope inside a binder of `x`. -/
def lift (scope : Scope) (x : Name) : Scope :=
  ⟨x, 0⟩ :: scope.map fun e => { e with ix := e.ix + 1 }

def names (scope : Scope) : List Name :=
  scope.map ScopeEntry.name

/-- The scope in which every name has its own position as index, innermost first. -/
def ofNames : List Name → Scope
  | [] => []
  | x :: rest => lift (ofNames rest) x

/-- The index of the first entry to which `x` refers. -/
def lookup (scope : Scope) (how : Matching) (x : Name) : Except Unbound Int64 :=
  match scope.find? fun e => how.refersTo x e.name with
  | some e => .ok e.ix
  | none => .error ⟨x⟩

end Scope

/-- Give every occurrence its index. Of several unbound names the leftmost is reported. -/
def Term.resolve (how : Matching) (scope : Scope) : Surface → Except Unbound Indexed
  | var x => do
    let ix ← scope.lookup how x
    return var ⟨x, ix⟩
  | const c => return const c
  | binop op l r => do
    let left ← l.resolve how scope
    let right ← r.resolve how scope
    return binop op left right
  | not t => do
    let operand ← t.resolve how scope
    return not operand
  | app f a => do
    let fn ← f.resolve how scope
    let arg ← a.resolve how scope
    return app fn arg
  | bind b x dom body => do
    let dom ← dom.resolve how scope
    let body ← body.resolve how (scope.lift x)
    return bind b x dom body
  | cond t y n => do
    let test ← t.resolve how scope
    let yes ← y.resolve how scope
    let no ← n.resolve how scope
    return cond test yes no
  | ascribe t a => do
    let subject ← t.resolve how scope
    let type ← a.resolve how scope
    return ascribe subject type

end DepCalc

import DepCalc.Value.Halt

/-!
Evaluation of indexed terms. The fuel bounds the depth of the recursion: an answer that is reached
with some fuel is reached with any more of it.
-/
namespace DepCalc

def Env.lookup (env : Env) (ix : Int64) : Except Halt Value :=
  match atIndex? env ix with
  | some v => .ok v
  | none => .error (.indexOutOfRange ix env.length)

/-- The negation of a truth value; a neutral value stays under the negation. -/
def Value.negate : Value → Except Halt Value
  | const (.bool b) => .ok (.const (.bool (!b)))
  | neutral n => .ok (.neutral (.not n))
  | v => .error (.cannotNegate v.kind)

/-- Literals are computed; an operation with a neutral operand waits. -/
def Operator.onValues (op : Operator) : Value → Value → Except Halt Value
  | .const c, .const d =>
    match op.compute? c d with
    | some result => .ok (.const result)
    | none => .error (.operands (Value.const c).kind op (Value.const d).kind)
  | .neutral n, v => .ok (.neutral (.binop op (.neutral n) v))
  | v, .neutral n => .ok (.neutral (.binop op v (.neutral n)))
  | v, w => .error (.operands v.kind op w.kind)

/-- The value of a term. Bodies of binders wait until the binder is applied; both operands of an
operator, and function and argument, are evaluated before they are looked at. -/
def eval : Nat → Env → Indexed → Except Halt Value
  | 0, _, _ => .error .outOfFuel
  | fuel + 1, env, t =>
    match t with
    | .var v => env.lookup v.ix
    | .const c => .ok (.const c)
    | .binop op l r => do
      let left ← eval fuel env l
      let right ← eval fuel env r
      op.onValues left right
    | .not t => do
      let operand ← eval fuel env t
      operand.negate
    | .app f a => do
      let fn ← eval fuel env f
      let arg ← eval fuel env a
      match fn with
      | .bind .lam _ _ captured body => eval fuel (arg :: captured) body
      | .neutral n => .ok (.neutral (.app n arg))
      | v => .error (.cannotApply v.kind)
    | .bind b x dom body => do
      let dom ← eval fuel env dom
      .ok (.bind b dom x env body)
    | .cond t yes no => do
      let test ← eval fuel env t
      match test with
      | .const (.bool true) => eval fuel env yes
      | .const (.bool false) => eval fuel env no
      | .neutral n => do
        let yes ← eval fuel env yes
        let no ← eval fuel env no
        .ok (.neutral (.cond n yes no))
      | v => .error (.cannotBranch v.kind)
    | .ascribe t _ => eval fuel env t

end DepCalc

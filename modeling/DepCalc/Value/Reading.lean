import DepCalc.Value.Evaluation

/-!
Reading values back as indexed terms in normal form.
-/
namespace DepCalc

mutual

/-- The term of a value under `level` binders. A body is read off its value at a fresh variable. -/
def Value.quote : Nat → Int64 → Value → Except Halt Indexed
  | 0, _, _ => .error .outOfFuel
  | fuel + 1, level, v =>
    match v with
    | .const c => .ok (.const c)
    | .bind b dom x env body => do
      let dom ← dom.quote fuel level
      let opened ← eval fuel (Value.fresh x (level + 1) :: env) body
      let body ← opened.quote fuel (level + 1)
      .ok (.bind b x dom body)
    | .neutral n => n.quote fuel level

def Neutral.quote : Nat → Int64 → Neutral → Except Halt Indexed
  | 0, _, _ => .error .outOfFuel
  | fuel + 1, level, n =>
    match n with
    | .var x bound =>
      if level - bound < 0 then .error (.outOfScope x bound level)
      else .ok (.var ⟨x, level - bound⟩)
    | .binop op l r => do
      let left ← l.quote fuel level
      let right ← r.quote fuel level
      .ok (.binop op left right)
    | .not n => do
      let operand ← n.quote fuel level
      .ok (.not operand)
    | .app f a => do
      let fn ← f.quote fuel level
      let arg ← a.quote fuel level
      .ok (.app fn arg)
    | .cond t y n => do
      let test ← t.quote fuel level
      let yes ← y.quote fuel level
      let no ← n.quote fuel level
      .ok (.cond test yes no)

end

end DepCalc

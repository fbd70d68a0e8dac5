/-
Arithmetic on machine words.

Sums, differences and products wrap around; a quotient is truncated toward zero, and is refused when the divisor is 0
or when no word holds it. A truth value is 1 or 0, and every word but 0 counts as true.
-/
import ThreeMachines.Syntax.Expr
import ThreeMachines.Data.Word
import ThreeMachines.Run.Fault

namespace ThreeMachines

/-- a truth value as a word -/
def truth (b : Bool) : Int := if b then 1 else 0

def UnaryOp.eval (op : UnaryOp) (operand : Int) : Int :=
  match op with
  | .neg => wrap (-operand)
  | .not => truth (operand = 0)

/-- quotient of words -/
def quotient (lhs rhs : Int) : Except Fault Int :=
  if rhs = 0 then .error .divisionByZero
  else if lhs = leastWord ∧ rhs = -1 then .error .overflow
  else .ok (lhs.tdiv rhs)

def BinaryOp.eval (op : BinaryOp) (lhs rhs : Int) : Except Fault Int :=
  match op with
  | .add => .ok (wrap (lhs + rhs))
  | .sub => .ok (wrap (lhs - rhs))
  | .mul => .ok (wrap (lhs * rhs))
  | .div => quotient lhs rhs
  | .lt => .ok (truth (lhs < rhs))
  | .gt => .ok (truth (lhs > rhs))
  | .le => .ok (truth (lhs ≤ rhs))
  | .ge => .ok (truth (lhs ≥ rhs))
  | .eq => .ok (truth (lhs = rhs))
  | .ne => .ok (truth (lhs ≠ rhs))
  | .and => .ok (truth (lhs ≠ 0 ∧ rhs ≠ 0))
  | .or => .ok (truth (lhs ≠ 0 ∨ rhs ≠ 0))

end ThreeMachines

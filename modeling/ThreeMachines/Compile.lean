/-
Compilation of an expression for one of the machines.

`Machine.Op` are the operations of a machine, and the instances give every machine what the theory of one machine gives:
the text of its instructions, their native code and how they run. `compile` is the code of an expression in a session of
its own, with its labels checked.
-/
import ThreeMachines.Stack.Code
import ThreeMachines.Stack.Run
import ThreeMachines.Stack.Native
import ThreeMachines.Closure.Code
import ThreeMachines.Closure.Run
import ThreeMachines.Closure.Native
import ThreeMachines.Vector.Code
import ThreeMachines.Vector.Run
import ThreeMachines.Vector.Native
import ThreeMachines.Code.Listing

namespace ThreeMachines

/-- the operations of a machine -/
@[reducible]
def Machine.Op : Machine → Type
  | stack => Stack.Op
  | closure => Closure.Op
  | vector => Vector.Op

/-- the registers of a machine -/
@[reducible]
def Machine.Registers : Machine → Type
  | stack => Stack.Registers
  | closure => Closure.Registers
  | vector => Vector.Registers

instance (m : Machine) : Lowerable m.Op :=
  match m with
  | .stack => inferInstanceAs (Lowerable Stack.Op)
  | .closure => inferInstanceAs (Lowerable Closure.Op)
  | .vector => inferInstanceAs (Lowerable Vector.Op)

instance (m : Machine) : Runnable m.Op m.Registers :=
  match m with
  | .stack => inferInstanceAs (Runnable Stack.Op Stack.Registers)
  | .closure => inferInstanceAs (Runnable Closure.Op Closure.Registers)
  | .vector => inferInstanceAs (Runnable Vector.Op Vector.Registers)

/-- the program of an expression -/
def generate (m : Machine) (e : Expr) : Gen m.Op (Program m.Op) :=
  match m with
  | .stack => Stack.generate e
  | .closure => Closure.generate e
  | .vector => Vector.generate e

/-- the program of an expression in a new session -/
def compile (m : Machine) (e : Expr) : Except CompileError (Program m.Op) := do
  let p ← (Gen.inSession .new (generate m e)).1
  p.checkLabels
  return p

end ThreeMachines

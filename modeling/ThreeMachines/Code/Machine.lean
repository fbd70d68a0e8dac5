/-
The three target machines.

They run code of a common shape (`Instr`), each with operations of its own: the stack machine has first-order
procedures, the closure machine pairs code with copies of captured values, the vector machine keeps every value in a
shared cell.
-/

namespace ThreeMachines

inductive Machine where
  | stack | closure | vector
deriving DecidableEq, Repr, Inhabited

namespace Machine

def all : List Machine := [stack, closure, vector]

def name : Machine → String
  | stack => "stack"
  | closure => "closure"
  | vector => "vector"

/-- the machine with this name -/
def ofName (name : String) : Except String Machine :=
  match all.find? (fun m => m.name == name) with
  | some m => .ok m
  | none => .error ("unknown machine `" ++ name ++ "` (expected stack, closure or vector)")

end Machine
end ThreeMachines

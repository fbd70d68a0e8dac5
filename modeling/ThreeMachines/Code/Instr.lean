/-
Instructions and programs.

All machines share the instructions for constants, arithmetic and jumps; `Instr.own` adds the operations of one machine,
of which `Operation` says how they are written, which label they name and by how many words they change the stack. A
program is an entry stream of code, the bodies of its functions (`LambdaTable`) and its global variables.
-/
import ThreeMachines.Syntax.Expr
import ThreeMachines.Scope.Table

namespace ThreeMachines

/-- operand of `loadc`: a word, or the code address of a label -/
inductive Const where
  | int (value : Int)
  | addr (label : Label)
deriving DecidableEq, Repr

def Const.text : Const → String
  | int value => toString value
  | addr label => label.text

/-- the operations that a machine has beside the common instructions -/
class Operation (ι : Type) where
  machine : Machine
  mnemonic : ι → String
  operands : ι → List String
  /-- the label that the operation names -/
  reference : ι → Option Label
  /-- words that the operation adds to the stack -/
  effect : ι → Int

inductive Instr (ι : Type) where
  /-- push a word or a code address -/
  | loadc (value : Const)
  | pop
  | dup
  | swap
  /-- subtract 1 from the top -/
  | dec
  | unary (op : UnaryOp)
  | binary (op : BinaryOp)
  /-- the place of a label; does nothing -/
  | label (label : Label)
  | jump (target : Label)
  /-- pop a word and jump if it is 0 -/
  | jumpz (target : Label)
  | own (op : ι)
deriving DecidableEq, Repr

/-- the instruction of an operator -/
def BinaryOp.mnemonic : BinaryOp → String
  | .lt => "le"
  | .gt => "gr"
  | .le => "leq"
  | .ge => "geq"
  | .ne => "neq"
  | op => op.name

namespace Instr

variable {ι : Type}

def mnemonic [Operation ι] : Instr ι → String
  | loadc _ => "loadc"
  | pop => "pop"
  | dup => "dup"
  | swap => "swap"
  | dec => "dec"
  | unary op => op.name
  | binary op => op.mnemonic
  | label _ => "label"
  | jump _ => "jump"
  | jumpz _ => "jumpz"
  | own op => Operation.mnemonic op

def operands [Operation ι] : Instr ι → List String
  | loadc value => [value.text]
  | label l | jump l | jumpz l => [l.text]
  | own op => Operation.operands op
  | pop | dup | swap | dec | unary _ | binary _ => []

/-- the label whose place this is -/
def defines : Instr ι → Option Label
  | label l => some l
  | _ => none

/-- the label that the instruction jumps to or takes the address of -/
def references [Operation ι] : Instr ι → Option Label
  | loadc (.addr l) | jump l | jumpz l => some l
  | own op => Operation.reference op
  | loadc (.int _) | pop | dup | swap | dec | unary _ | binary _ | label _ => none

/-- words that the instruction adds to the stack -/
def effect [Operation ι] : Instr ι → Int
  | loadc _ | dup => 1
  | pop | binary _ | jumpz _ => -1
  | swap | dec | unary _ | label _ | jump _ => 0
  | own op => Operation.effect op

/-- `name:` for a label, else the mnemonic and the operands with a blank between them -/
def text [Operation ι] (i : Instr ι) : String :=
  match i.defines with
  | some l => l.text ++ ":"
  | none => String.intercalate " " (i.mnemonic :: i.operands)

end Instr

/-- a stream of instructions -/
abbrev Code (ι : Type) := List (Instr ι)

/-- the body of a function, out of line -/
structure LambdaBody (ι : Type) where
  label : Label
  params : List String
  /-- captured names, in the order of the closure's vector -/
  captures : List String
  code : Code ι
deriving Repr

/-- function bodies in the order of their registration -/
structure LambdaTable (ι : Type) where
  bodies : List (LambdaBody ι)
deriving Repr

namespace LambdaTable

variable {ι : Type}

def empty : LambdaTable ι := ⟨[]⟩

/-- add a body under a new label -/
def register (t : LambdaTable ι) (body : LambdaBody ι) : Except CompileError (LambdaTable ι) :=
  if t.bodies.any (fun other => other.label = body.label) then .error (.internal (.bodyRegisteredTwice body.label))
  else .ok ⟨t.bodies ++ [body]⟩

end LambdaTable

structure Program (ι : Type) where
  /-- the entry stream -/
  code : Code ι
  lambdas : LambdaTable ι
  /-- global variables in the order of their addresses -/
  globals : List Binding
deriving Repr

namespace Program

variable {ι : Type}

/-- bytes that the globals take -/
def globalSpace (p : Program ι) : Int := p.globals.foldr (fun b space => b.size + space) 0

/-- the entry stream, then the bodies -/
def instructions (p : Program ι) : Code ι := p.code ++ p.lambdas.bodies.flatMap LambdaBody.code

def instructionCount (p : Program ι) : Nat := p.instructions.length

/-- the labels that the program defines: places in code, then bodies -/
def definitions (p : Program ι) : List Label :=
  p.instructions.filterMap Instr.defines ++ p.lambdas.bodies.map LambdaBody.label

/-- every label is defined at most once, and every label that is named is defined -/
def checkLabels [Operation ι] (p : Program ι) : Except CompileError Unit :=
  let defined := p.definitions
  match defined.find? (fun l => 1 < defined.count l) with
  | some l => .error (.internal (.labelDefinedTwice l))
  | none =>
    match (p.instructions.filterMap Instr.references).find? (fun l => !defined.contains l) with
    | some l => .error (.internal (.labelUndefined l))
    | none => .ok ()

end Program
end ThreeMachines

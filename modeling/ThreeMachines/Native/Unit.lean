/-
The assembly text of a program.

A unit names the functions of the C library that it calls and the format of the result. The bodies of functions follow,
and then `main`, which is the entry stream between the machine's prologue and its epilogue. Each instruction of the
machine but a label is echoed in a comment before its native code.
-/
import ThreeMachines.Native.Snippet

namespace ThreeMachines

/-- how the operations of a machine are carried out by the processor -/
class Lowerable (ι : Type) extends Operation ι where
  /-- functions of the C library that the code calls -/
  imports : List String
  lower : ι → Native.Asm
  prologue : Program ι → Native.Asm
  /-- finds the result on top of the stack -/
  epilogue : Program ι → Native.Asm

namespace Native

/-- a part of a unit -/
inductive Part where
  | imported (symbol : String)
  | segment (name : String)
  /-- the format in which the result is printed -/
  | format
  | exported (label : Label)
  | echo (text : String)
  | item (item : Item)
  | blank
deriving DecidableEq, Repr

def Part.line : Part → Line
  | imported symbol => .directive ("extern " ++ symbol)
  | segment name => .directive ("SECTION ." ++ name)
  | format => .directive (Snippet.formatLabel ++ ": db \"%lld\", 10, 0")
  | exported l => .directive ("global " ++ l.text)
  | echo text => .comment text
  | item i => i.line
  | blank => .blank

variable {ι : Type} [Lowerable ι]

/-- native code of an instruction -/
def lower (i : ThreeMachines.Instr ι) : Asm := Snippet.lower Lowerable.lower i

/-- an instruction in a unit -/
def instrParts (i : ThreeMachines.Instr ι) : List Part :=
  (if i.defines.isNone then [.echo i.text] else []) ++ (lower i).map .item

def bodyParts (body : LambdaBody ι) : List Part :=
  [.blank, .exported body.label, .item (.label body.label)] ++ body.code.flatMap instrParts

/-- the label of the entry stream -/
def mainLabel : Label := ⟨"main"⟩

/-- the unit of a program -/
def unit (p : Program ι) : List Part :=
  (Lowerable.imports ι).map .imported ++ [.blank, .segment "data", .format, .blank, .segment "text"] ++
    p.lambdas.bodies.flatMap bodyParts ++
    [.blank, .exported mainLabel, .item (.label mainLabel)] ++ (Lowerable.prologue p).map .item ++
    p.code.flatMap instrParts ++ (Lowerable.epilogue p).map .item

end Native

/-- the assembly text of a program -/
def Program.assembly {ι : Type} [Lowerable ι] (p : Program ι) : String :=
  Line.render ((Native.unit p).map Native.Part.line)

end ThreeMachines

/-
The listing of a program: its instructions as text.

The first lines are comments with the machine and the globals. The bodies of functions follow, each under a comment with
its parameters and its captured names, and the entry stream comes last, under the label `main`.
-/
import ThreeMachines.Code.Instr
import ThreeMachines.Text.Line

namespace ThreeMachines

variable {ι : Type} [Operation ι]

/-- the line of an instruction -/
def Instr.line (i : Instr ι) : Line :=
  match i.defines with
  | some l => .label l.text
  | none => .instr i.mnemonic i.operands none

def Binding.listed (b : Binding) : String := b.name ++ "@" ++ toString b.address

namespace Program

def globalsLine (globals : List Binding) : List Line :=
  if globals.isEmpty then []
  else [.directive ("; globals: " ++ String.intercalate ", " (globals.map Binding.listed))]

def bodyLines (body : LambdaBody ι) : List Line :=
  [.blank,
   .directive ("; (" ++ String.intercalate ", " body.params ++ ") captures [" ++
     String.intercalate ", " body.captures ++ "]"),
   .label body.label.text] ++ body.code.map Instr.line

def listingLines (p : Program ι) : List Line :=
  [.directive ("; " ++ (Operation.machine ι).name ++ " machine")] ++ globalsLine p.globals ++
    p.lambdas.bodies.flatMap bodyLines ++ [.blank, .label "main"] ++ p.code.map Instr.line

/-- the text of a program -/
def listing (p : Program ι) : String := Line.render p.listingLines

end Program
end ThreeMachines

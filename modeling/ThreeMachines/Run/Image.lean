/-
A program in memory: the bodies of all functions, one after the other, and then the entry stream.

A run starts at the entry stream and ends when it runs past the last instruction, so no body stands behind that stream.
Instruction `k` lies at address `Image.base + k`. A body's label names its first instruction, unless the label is also
defined in code; of two places with the same label the last one counts.
-/
import ThreeMachines.Code.Instr
import ThreeMachines.Run.Fault

namespace ThreeMachines

structure Image (ι : Type) where
  instrs : Array (Instr ι)
  /-- places of labels, the one that counts first -/
  labels : List (Label × Nat)
  /-- the first instruction of the entry stream -/
  entry : Nat

namespace Image

variable {ι : Type}

/-- code address of the first instruction -/
def base : Int := 0x40000000

/-- where bodies begin if the first one stands at `pc` -/
def bodyPlaces (pc : Nat) : List (LambdaBody ι) → List (Label × Nat)
  | [] => []
  | body :: bodies => (body.label, pc) :: bodyPlaces (pc + body.code.length) bodies

/-- where labels are defined if the first instruction stands at `pc` -/
def labelPlaces (pc : Nat) : Code ι → List (Label × Nat)
  | [] => []
  | instr :: instrs =>
    match instr.defines with
    | some label => (label, pc) :: labelPlaces (pc + 1) instrs
    | none => labelPlaces (pc + 1) instrs

/-- the image of a program -/
def ofProgram (p : Program ι) : Image ι :=
  let bodies := p.lambdas.bodies
  let before := bodies.flatMap LambdaBody.code
  let instrs := before ++ p.code
  ⟨instrs.toArray, (bodyPlaces 0 bodies ++ labelPlaces 0 instrs).reverse, before.length⟩

/-- one past the last instruction; who comes here halts -/
def stop (image : Image ι) : Nat := image.instrs.size

/-- the instruction that a label names -/
def target (image : Image ι) (label : Label) : Except Fault Nat :=
  match image.labels.lookup label with
  | some pc => .ok pc
  | none => .error (.unknownLabel label.text)

/-- the code address of a label -/
def addressOf (image : Image ι) (label : Label) : Except Fault Int := do
  let pc ← image.target label
  return base + pc

/-- the instruction at a code address -/
def pcOf (image : Image ι) (address : Int) : Except Fault Nat :=
  let pc := address - base
  if 0 ≤ pc ∧ pc.toNat < image.instrs.size then .ok pc.toNat else .error (.badAddress address .code)

end Image
end ThreeMachines

/-
Running a program.

A machine's state is the next instruction, the operand stack, the heap and the machine's registers. The common
instructions work alike on all machines (`Instr.exec`); `Runnable` says how a machine starts and what its own operations
do. `Image.run` halts at the end of the entry stream with the word on top of the stack; the test for the end comes
before a step is counted, so a run of `n` steps needs a limit of `n`.

Addresses are computed exactly: only `wrap` keeps words to 64 bits.
-/
import ThreeMachines.Run.Arithmetic
import ThreeMachines.Run.OperandStack
import ThreeMachines.Run.Heap
import ThreeMachines.Run.Image

namespace ThreeMachines

/-- a machine between two instructions; `ρ` are its registers -/
structure State (ρ : Type) where
  /-- the next instruction -/
  pc : Nat
  stack : OperandStack
  heap : Heap
  regs : ρ

/-- a part of the work of one instruction -/
abbrev Exec (ρ : Type) := EStateM Fault (State ρ)

namespace Exec

variable {ρ : Type} {α : Type}

@[inline]
def onStack (step : StackM α) : Exec ρ α := fun ⟨pc, stack, heap, regs⟩ =>
  match step stack with
  | .ok value stack => .ok value ⟨pc, stack, heap, regs⟩
  | .error fault stack => .error fault ⟨pc, stack, heap, regs⟩

@[inline]
def onHeap (step : HeapM α) : Exec ρ α := fun ⟨pc, stack, heap, regs⟩ =>
  match step heap with
  | .ok value heap => .ok value ⟨pc, stack, heap, regs⟩
  | .error fault heap => .error fault ⟨pc, stack, heap, regs⟩

/-- a look-up that may fail -/
@[inline]
def check (found : Except Fault α) : Exec ρ α := fun s =>
  match found with
  | .ok value => .ok value s
  | .error fault => .error fault s

def push (value : Int) : Exec ρ Unit := onStack (OperandStack.push value)

def pop : Exec ρ Int := onStack OperandStack.pop

def top : Exec ρ Int := onStack OperandStack.top

def peek (depth : Nat) : Exec ρ Int := onStack (OperandStack.peek depth)

def poke (depth : Nat) (value : Int) : Exec ρ Unit := onStack (OperandStack.poke depth value)

/-- the word at a stack index -/
def getAt (index : Nat) : Exec ρ Int := onStack (OperandStack.get index)

/-- replace the word at a stack index -/
def setAt (index : Nat) (value : Int) : Exec ρ Unit := onStack (OperandStack.set index value)

def truncate (count : Nat) : Exec ρ Unit := onStack (OperandStack.truncate count)

def drop (count : Nat) : Exec ρ Unit := onStack (OperandStack.drop count)

def slide (count : Nat) : Exec ρ Unit := onStack (OperandStack.slide count)

/-- words on the stack -/
def stackSize : Exec ρ Nat := fun s => .ok s.stack.size s

/-- push a word `count` times -/
def pushTimes (value : Int) : Nat → Exec ρ Unit
  | 0 => return ()
  | count + 1 => do
    push value
    pushTimes value count

/-- pop `count` words; the first popped word comes first -/
def popTimes : Nat → Exec ρ (List Int)
  | 0 => return []
  | count + 1 => do
    let value ← pop
    return value :: (← popTimes count)

/-- push words, the last one first -/
def pushAll : List Int → Exec ρ Unit
  | [] => return ()
  | value :: values => do
    pushAll values
    push value

def alloc (count : Nat) : Exec ρ Int := onHeap (Heap.alloc count)

def load (address : Int) : Exec ρ Int := onHeap (Heap.load address)

def store (address value : Int) : Exec ρ Unit := onHeap (Heap.store address value)

/-- the next instruction -/
def next : Exec ρ Nat := fun s => .ok s.pc s

def jumpTo (pc : Nat) : Exec ρ Unit := fun ⟨_, stack, heap, regs⟩ => .ok () ⟨pc, stack, heap, regs⟩

def registers : Exec ρ ρ := fun s => .ok s.regs s

def setRegisters (regs : ρ) : Exec ρ Unit := fun ⟨pc, stack, heap, _⟩ => .ok () ⟨pc, stack, heap, regs⟩

end Exec

/-- what is left of a limit of steps -/
structure Fuel where
  left : Nat
  limit : Nat
deriving DecidableEq, Repr

/-- count a step -/
def Fuel.burn (f : Fuel) : Except Fault Fuel :=
  match f.left with
  | 0 => .error (.stepLimit f.limit)
  | left + 1 => .ok ⟨left, f.limit⟩

/-- how a machine starts and what its own operations do -/
class Runnable (ι : Type) (ρ : outParam Type) where
  start : Program ι → State ρ
  exec : Image ι → ι → Exec ρ Unit

variable {ι ρ : Type} [Runnable ι ρ]

/-- one instruction; the state's next instruction is already the one after it -/
def Instr.exec (image : Image ι) : Instr ι → Exec ρ Unit
  | loadc (.int value) => Exec.push value
  | loadc (.addr l) => do Exec.push (← Exec.check (image.addressOf l))
  | pop => do
    let _ ← Exec.pop
  | dup => do Exec.push (← Exec.top)
  | swap => do
    let upper ← Exec.pop
    let lower ← Exec.pop
    Exec.push upper
    Exec.push lower
  | dec => do Exec.poke 0 (wrap ((← Exec.top) - 1))
  | unary op => do Exec.push (op.eval (← Exec.pop))
  | binary op => do
    let rhs ← Exec.pop
    let lhs ← Exec.pop
    Exec.push (← Exec.check (op.eval lhs rhs))
  | label _ => return ()
  | jump target => do Exec.jumpTo (← Exec.check (image.target target))
  | jumpz target => do
    if (← Exec.pop) = 0 then Exec.jumpTo (← Exec.check (image.target target))
  | own op => Runnable.exec image op

namespace Image

/-- fetch the next instruction and run it -/
def step (image : Image ι) : Exec ρ Unit := do
  let pc ← Exec.next
  Exec.onStack (OperandStack.running pc)
  match image.instrs[pc]? with
  | some instr =>
    Exec.jumpTo (pc + 1)
    instr.exec image
  | none => throw (.badAddress pc .instruction)

/-- the word on top of the stack -/
def result (s : State ρ) : Except Fault Int :=
  match OperandStack.pop s.stack with
  | .ok value _ => .ok value
  | .error fault _ => .error fault

/-- run on with `left` steps of a limit; `run_eq_burn` says how it counts -/
def run (image : Image ι) (limit : Nat) (left : Nat) (s : State ρ) : Except Fault Int :=
  if s.pc = image.stop then result s
  else match left with
    | 0 => .error (.stepLimit limit)
    | left + 1 =>
      match image.step s with
      | .ok () s => run image limit left s
      | .error fault _ => .error fault

theorem run_eq_burn (image : Image ι) (limit left : Nat) (s : State ρ) :
    image.run limit left s =
      if s.pc = image.stop then result s
      else match Fuel.burn ⟨left, limit⟩ with
        | .error fault => .error fault
        | .ok fuel =>
          match image.step s with
          | .ok () s => image.run fuel.limit fuel.left s
          | .error fault _ => .error fault := by
  cases left <;> rfl

end Image

/-- the value of a program, found in at most `limit` steps -/
def Program.simulate (p : Program ι) (limit : Nat) : Except Fault Int :=
  (Image.ofProgram p).run limit limit (Runnable.start p)

end ThreeMachines

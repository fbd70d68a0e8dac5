/-
Running the closure machine.

`mark` saves GP and the frame pointer under the return address and makes the place of the latter the frame pointer;
`popenv` undoes this. Outside of functions the frame pointer is -1.
-/
import ThreeMachines.Run.Block
import ThreeMachines.Closure.Op

namespace ThreeMachines.Closure

structure Registers where
  /-- the vector of captured values -/
  gp : Int
  /-- stack index of the newest return address -/
  fp : Int
deriving DecidableEq, Repr

/-- the index of a return address, under which a frame has two more words -/
def frame (fp : Int) : Except Fault Nat :=
  if 2 ≤ fp then .ok fp.toNat else .error (.badAddress fp .frame)

/-- push `count` new blocks of two words -/
def pushBlocks : Nat → Exec Registers Unit
  | 0 => return ()
  | count + 1 => do
    Exec.push (← Exec.alloc 2)
    pushBlocks count

/-- what an operation does -/
def exec (image : Image Op) : Op → Exec Registers Unit
  | .pushloc k => do Exec.push (← Exec.peek (← Exec.check (stackOffset k)))
  | .storeloc k => do
    let depth ← Exec.check (stackOffset k)
    Exec.poke depth (← Exec.top)
  | .pushglob i => do Exec.push (← Exec.element (← Exec.registers).gp i)
  | .load => do Exec.push (← Exec.load (← Exec.pop))
  | .store => do
    let cell ← Exec.pop
    Exec.store cell (← Exec.top)
  | .alloc n => pushBlocks n.toNat
  | .refill k => do
    let closure ← Exec.pop
    let cell ← Exec.peek (← Exec.check (stackOffset (k - 1)))
    Exec.copyPair closure cell
  | .mkvec n => do Exec.push (← Exec.makeVector n)
  | .mkfunval body => do Exec.push (← Exec.makeFunction image body)
  | .mark back => do
    let regs ← Exec.registers
    Exec.push regs.gp
    Exec.push regs.fp
    Exec.push (← Exec.check (image.addressOf back))
    Exec.setRegisters { regs with fp := (← Exec.stackSize) - 1 }
  | .apply _ => do
    let closure ← Exec.pop
    let gp ← Exec.load (closure + wordSize)
    Exec.setRegisters { (← Exec.registers) with gp }
    Exec.jumpTo (← Exec.check (image.pcOf (← Exec.load closure)))
  | .popenv => do
    let result ← Exec.pop
    let place ← Exec.check (frame (← Exec.registers).fp)
    let back ← Exec.getAt place
    let fp ← Exec.getAt (place - 1)
    let gp ← Exec.getAt (place - 2)
    Exec.truncate (place - 2)
    Exec.push result
    Exec.setRegisters ⟨gp, fp⟩
    Exec.jumpTo (← Exec.check (image.pcOf back))
  | .slide n => do Exec.slide (← Exec.check (stackOffset n))
  | .setgp => do
    let gp ← Exec.pop
    Exec.setRegisters { (← Exec.registers) with gp }

/-- the state at the start of a program -/
def start (p : Program Op) : State Registers := ⟨(Image.ofProgram p).entry, .empty, .empty, ⟨0, -1⟩⟩

instance : Runnable Op Registers where
  start := start
  exec := exec

end ThreeMachines.Closure

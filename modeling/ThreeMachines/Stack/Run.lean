/-
Running the stack machine.

Word `i` of the operand stack lies at address `8 * i`. The globals are the lowest words, and 0 at the start. The frame
pointer is the address of a return address, with the caller's frame pointer under it; outside of procedures it is the
address of the last global.
-/
import ThreeMachines.Run.Execution
import ThreeMachines.Stack.Op

namespace ThreeMachines.Stack

structure Registers where
  /-- frame pointer -/
  fp : Int
deriving DecidableEq, Repr

/-- the stack index of an address -/
def slot (address : Int) : Except Fault Nat :=
  if 0 ≤ address ∧ address % wordSize = 0 then .ok (address / wordSize).toNat
  else .error (.badAddress address .stack)

def setFp (fp : Int) : Exec Registers Unit := Exec.setRegisters ⟨fp⟩

/-- what an operation does -/
def exec (image : Image Op) : Op → Exec Registers Unit
  | .load => do
    let address ← Exec.pop
    Exec.push (← Exec.getAt (← Exec.check (slot address)))
  | .store => do
    let address ← Exec.pop
    let value ← Exec.top
    Exec.setAt (← Exec.check (slot address)) value
  | .loadrc offset => do Exec.push ((← Exec.registers).fp + offset)
  | .enter => do setFp (wordSize * ((← Exec.stackSize) - 1))
  | .alloc bytes => Exec.pushTimes 0 (bytes.tdiv wordSize).toNat
  | .mark => do Exec.push (← Exec.registers).fp
  | .call => do
    let target ← Exec.pop
    Exec.push (Image.base + (← Exec.next))
    Exec.jumpTo (← Exec.check (image.pcOf target))
  | .ret => do
    Exec.truncate ((← Exec.check (slot (← Exec.registers).fp)) + 1)
    let back ← Exec.pop
    setFp (← Exec.top)
    Exec.jumpTo (← Exec.check (image.pcOf back))
  | .slide drop keep => do
    let kept ← Exec.popTimes (keep.tdiv wordSize).toNat
    Exec.drop (drop.tdiv wordSize).toNat
    Exec.pushAll kept

/-- the state at the start of a program -/
def start (p : Program Op) : State Registers :=
  ⟨(Image.ofProgram p).entry, .zeros p.globals.length, .empty, ⟨p.globalSpace - wordSize⟩⟩

instance : Runnable Op Registers where
  start := start
  exec := exec

end ThreeMachines.Stack

/-
Running the vector machine.

A call finds the function's cell under the vectors of arguments and of return addresses. It puts the caller's vectors in
the place of these two, saves GP and the frame pointer above them and makes the place of the latter the frame pointer,
so that local variable `a` lies `a` words above it. `return` puts its result in the place of the function's cell.
Outside of functions the frame pointer is -1.
-/
import ThreeMachines.Run.Block
import ThreeMachines.Vector.Op

namespace ThreeMachines.Vector

structure Registers where
  /-- the vector of captured cells -/
  gp : Int
  /-- the vector of parameters -/
  formals : Int
  /-- the vector of return addresses -/
  returns : Int
  /-- stack index of the saved frame pointer -/
  fp : Int
deriving DecidableEq, Repr

/-- a stack index -/
def slot (index : Int) : Except Fault Nat :=
  if 0 ≤ index then .ok index.toNat else .error (.badAddress index .stackSlot)

/-- the index of the function's cell under a saved frame pointer -/
def calleeSlot (fp : Int) : Except Fault Nat :=
  if 4 ≤ fp then .ok (fp - 4).toNat else .error (.badAddress fp .frame)

/-- push `count` cells that hold 0 -/
def pushCells : Nat → Exec Registers Unit
  | 0 => return ()
  | count + 1 => do
    let basic ← Exec.alloc 1
    Exec.push (← Exec.makePair basic Tag.basic.word)
    pushCells count

/-- what an operation does -/
def exec (image : Image Op) : Op → Exec Registers Unit
  | .mkbasic => do
    let basic ← Exec.alloc 1
    Exec.store basic (← Exec.pop)
    Exec.push basic
  | .getbasic => do
    let cell ← Exec.pop
    let payload ← Exec.load cell
    if (← Exec.load (cell + wordSize)) = Tag.basic.word then Exec.push (← Exec.load payload)
    else Exec.push payload
  | .mkind tag => do Exec.push (← Exec.makePair (← Exec.pop) tag.word)
  | .copy => do
    let cell ← Exec.pop
    let new ← Exec.alloc 2
    Exec.copyPair cell new
    Exec.push new
  | .mkvec n => do Exec.push (← Exec.makeVector n)
  | .mkfunval body => do Exec.push (← Exec.makeFunction image body)
  | .pushloc a => do Exec.push (← Exec.getAt (← Exec.check (slot ((← Exec.registers).fp + a))))
  | .pushglob i => do Exec.push (← Exec.element (← Exec.registers).gp i)
  | .pushform i => do Exec.push (← Exec.element (← Exec.registers).formals i)
  | .alloc n => pushCells n.toNat
  | .store => do
    let source ← Exec.pop
    Exec.copyPair source (← Exec.top)
  | .setgp => do
    let gp ← Exec.pop
    Exec.setRegisters { (← Exec.registers) with gp }
  | .call => do
    let caller ← Exec.registers
    let function ← Exec.load (← Exec.peek 2)
    Exec.push caller.gp
    let gp ← Exec.load (function + wordSize)
    Exec.push caller.fp
    let fp := (← Exec.stackSize) - 1
    let returns ← Exec.getAt (fp - 2)
    Exec.setAt (fp - 2) caller.returns
    let formals ← Exec.getAt (fp - 3)
    Exec.setAt (fp - 3) caller.formals
    Exec.setRegisters ⟨gp, formals, returns, fp⟩
    Exec.jumpTo (← Exec.check (image.pcOf (← Exec.load function)))
  | .ret i => do
    let callee ← Exec.registers
    let result ← Exec.pop
    let place ← Exec.check (slot callee.fp)
    Exec.setAt (← Exec.check (calleeSlot callee.fp)) result
    Exec.truncate (place + 1)
    let fp ← Exec.pop
    let gp ← Exec.pop
    let back ← Exec.element callee.returns i
    let returns ← Exec.pop
    let formals ← Exec.pop
    Exec.setRegisters ⟨gp, formals, returns, fp⟩
    Exec.jumpTo (← Exec.check (image.pcOf back))
  | .slide n => do Exec.slide (← Exec.check (slot n))

/-- the state at the start of a program -/
def start (p : Program Op) : State Registers := ⟨(Image.ofProgram p).entry, .empty, .empty, ⟨0, 0, 0, -1⟩⟩

instance : Runnable Op Registers where
  start := start
  exec := exec

end ThreeMachines.Vector

/-
Operations of the stack machine.

Addresses are byte offsets into the machine's stack. Globals lie at its bottom, at fixed addresses; parameters and local
variables are reached through `loadrc`, relative to the frame pointer.
-/
import ThreeMachines.Code.Instr

namespace ThreeMachines.Stack

inductive Op where
  /-- replace the address on top by the word stored there -/
  | load
  /-- pop an address and store the word under it there; the word stays -/
  | store
  /-- push the frame pointer plus `offset` -/
  | loadrc (offset : Int)
  /-- make the address of the top the frame pointer -/
  | enter
  /-- push zeros, `bytes` of them -/
  | alloc (bytes : Int)
  /-- push the frame pointer -/
  | mark
  /-- pop a code address and call it -/
  | call
  /-- drop the frame, restore the caller's frame pointer and return -/
  | ret
  /-- drop `drop` bytes under the top `keep` bytes -/
  | slide (drop keep : Int)
deriving DecidableEq, Repr

instance : Operation Op where
  machine := .stack
  mnemonic
    | .load => "load"
    | .store => "store"
    | .loadrc _ => "loadrc"
    | .enter => "enter"
    | .alloc _ => "alloc"
    | .mark => "mark"
    | .call => "call"
    | .ret => "return"
    | .slide _ _ => "slide"
  operands
    | .loadrc offset => [toString offset]
    | .alloc bytes => [toString bytes]
    | .slide drop keep => [toString drop, toString keep]
    | .load | .store | .enter | .mark | .call | .ret => []
  reference _ := none
  effect
    | .loadrc _ | .mark => 1
    | .store | .call => -1
    | .alloc bytes => bytes.tdiv wordSize
    | .slide drop _ => -drop.tdiv wordSize
    | .load | .enter | .ret => 0

end ThreeMachines.Stack

/-
Operations of the closure machine.

A closure is a block of two words, the address of its code and a vector of captured values; a vector is a block of its
length and its elements. The register GP holds the vector of the running function, and the frame pointer holds the place
of the newest return address.
-/
import ThreeMachines.Code.Instr

namespace ThreeMachines.Closure

/-- words that a `mark` pushes: GP, frame pointer, return address -/
def frameWords : Int := 3

inductive Op where
  /-- push the word `k` places under the top -/
  | pushloc (k : Int)
  /-- copy the top into the place `k` under it -/
  | storeloc (k : Int)
  /-- push element `i` of the vector in GP -/
  | pushglob (i : Int)
  /-- replace the pointer to a cell by the word in the cell -/
  | load
  /-- pop the pointer to a cell and write the top into the cell -/
  | store
  /-- push `n` empty closures -/
  | alloc (n : Int)
  /-- pop a closure and copy it into the one `k` places under the popped word -/
  | refill (k : Int)
  /-- pop `n` words into a new vector -/
  | mkvec (n : Int)
  /-- pop a vector and pair it with the code at a label -/
  | mkfunval (body : Label)
  /-- push GP, frame pointer and the return address -/
  | mark (back : Label)
  /-- pop a closure and enter it; its `n` arguments stay -/
  | apply (n : Int)
  /-- return to the newest `mark` and leave the result in its place -/
  | popenv
  /-- drop `n` words under the top -/
  | slide (n : Int)
  /-- pop a vector into GP -/
  | setgp
deriving DecidableEq, Repr

instance : Operation Op where
  machine := .closure
  mnemonic
    | .pushloc _ => "pushloc"
    | .storeloc _ => "storeloc"
    | .pushglob _ => "pushglob"
    | .load => "load"
    | .store => "store"
    | .alloc _ => "alloc"
    | .refill _ => "rewrite"
    | .mkvec _ => "mkvec"
    | .mkfunval _ => "mkfunval"
    | .mark _ => "mark"
    | .apply _ => "apply"
    | .popenv => "popenv"
    | .slide _ => "slide"
    | .setgp => "setgp"
  operands
    | .pushloc n | .storeloc n | .pushglob n | .alloc n | .refill n | .mkvec n | .apply n | .slide n => [toString n]
    | .mkfunval label | .mark label => [label.text]
    | .load | .store | .popenv | .setgp => []
  reference
    | .mkfunval label | .mark label => some label
    | _ => none
  effect
    | .pushloc _ | .pushglob _ => 1
    | .refill _ | .store | .setgp => -1
    | .alloc n => n
    | .mkvec n => 1 - n
    | .mark _ => frameWords
    | .apply n => -(n + frameWords)
    | .slide n => -n
    | .storeloc _ | .load | .mkfunval _ | .popenv => 0

end ThreeMachines.Closure

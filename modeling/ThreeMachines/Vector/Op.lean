/-
Operations of the vector machine.

Every value is a cell of two words: a payload and a tag that tells what the payload points at. A basic value points at a
block of one word, a function at a block of its code address and the vector of its captured cells. Registers hold the
vectors of captured cells, of parameters and of return addresses of the running function; the frame pointer holds the
place where the caller's frame pointer is saved.
-/
import ThreeMachines.Code.Instr

namespace ThreeMachines.Vector

/-- what the payload of a cell points at -/
inductive Tag where
  | basic | function | vector
deriving DecidableEq, Repr

namespace Tag

def char : Tag → Char
  | basic => 'B'
  | function => 'F'
  | vector => 'V'

def text (t : Tag) : String := "'" ++ t.char.toString ++ "'"

/-- the tag as a word -/
def word (t : Tag) : Int := t.char.toNat

end Tag

inductive Op where
  /-- pop a word into a new block of one word -/
  | mkbasic
  /-- replace a basic cell by its word, any other cell by its payload -/
  | getbasic
  /-- wrap the pointer on top in a new cell -/
  | mkind (tag : Tag)
  /-- replace a cell by a new copy of it -/
  | copy
  /-- pop `n` words into a new vector -/
  | mkvec (n : Int)
  /-- pop a vector and pair it with the code at a label -/
  | mkfunval (body : Label)
  /-- push the cell of the variable at place `a` of the frame -/
  | pushloc (a : Int)
  /-- push the cell of global or captured variable `i` -/
  | pushglob (i : Int)
  /-- push the cell of parameter `i` -/
  | pushform (i : Int)
  /-- push `n` cells that hold 0 -/
  | alloc (n : Int)
  /-- pop a cell and copy it into the cell under it, which stays -/
  | store
  /-- pop a vector into the register of globals -/
  | setgp
  /-- enter the function under the vectors of arguments and of return addresses -/
  | call
  /-- leave through return address `i` -/
  | ret (i : Int)
  /-- drop `n` words under the top -/
  | slide (n : Int)
deriving DecidableEq, Repr

instance : Operation Op where
  machine := .vector
  mnemonic
    | .mkbasic => "mkbasic"
    | .getbasic => "getbasic"
    | .mkind _ => "mkind"
    | .copy => "copy"
    | .mkvec _ => "mkvec"
    | .mkfunval _ => "mkfunval"
    | .pushloc _ => "pushloc"
    | .pushglob _ => "pushglob"
    | .pushform _ => "pushform"
    | .alloc _ => "alloc"
    | .store => "store"
    | .setgp => "setgp"
    | .call => "call"
    | .ret _ => "return"
    | .slide _ => "slide"
  operands
    | .mkind tag => [tag.text]
    | .mkvec n | .pushloc n | .pushglob n | .pushform n | .alloc n | .ret n | .slide n => [toString n]
    | .mkfunval label => [label.text]
    | .mkbasic | .getbasic | .copy | .store | .setgp | .call => []
  reference
    | .mkfunval label => some label
    | _ => none
  effect
    | .pushloc _ | .pushglob _ | .pushform _ => 1
    | .store | .setgp => -1
    | .alloc n => n
    | .mkvec n => 1 - n
    | .call => -2
    | .slide n => -n
    | .mkbasic | .getbasic | .mkind _ | .copy | .mkfunval _ | .ret _ => 0

end ThreeMachines.Vector

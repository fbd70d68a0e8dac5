/-
The stack of a running machine.

Words are counted from the bottom (`get`, `set`, `truncate`) or from the top (`peek`, `poke`). A word that is not there
is an underflow, reported for the instruction `pc`. An operation that fails leaves the stack as it found it, except that
`slide` has taken the top off before it looks for the words under it.
-/
import ThreeMachines.Run.Fault

namespace ThreeMachines

structure OperandStack where
  /-- the bottom word first -/
  words : Array Int
  /-- the instruction that is being run -/
  pc : Nat
deriving Repr

/-- a step that works on an operand stack -/
abbrev StackM := EStateM Fault OperandStack

namespace OperandStack

def empty : OperandStack := ⟨#[], 0⟩

def size (s : OperandStack) : Nat := s.words.size

/-- a stack of `count` words 0 -/
def zeros (count : Nat) : OperandStack := ⟨Array.replicate count 0, 0⟩

def push (value : Int) : StackM Unit := fun ⟨words, pc⟩ => .ok () ⟨words.push value, pc⟩

def pop : StackM Int := fun ⟨words, pc⟩ =>
  match words.back? with
  | some value => .ok value ⟨words.pop, pc⟩
  | none => .error (.stackUnderflow pc) ⟨words, pc⟩

/-- the word at an index from the bottom -/
def get (index : Nat) : StackM Int := fun s =>
  match s.words[index]? with
  | some value => .ok value s
  | none => .error (.stackUnderflow s.pc) s

/-- replace the word at an index from the bottom -/
def set (index : Nat) (value : Int) : StackM Unit := fun ⟨words, pc⟩ =>
  if h : index < words.size then .ok () ⟨words.set index value h, pc⟩
  else .error (.stackUnderflow pc) ⟨words, pc⟩

/-- the index from the bottom of the word `depth` places under the top -/
def indexFromTop (depth : Nat) : StackM Nat := fun s =>
  if depth < s.words.size then .ok (s.words.size - 1 - depth) s else .error (.stackUnderflow s.pc) s

/-- the word `depth` places under the top -/
def peek (depth : Nat) : StackM Int := do get (← indexFromTop depth)

/-- replace the word `depth` places under the top -/
def poke (depth : Nat) (value : Int) : StackM Unit := do set (← indexFromTop depth) value

def top : StackM Int := peek 0

/-- keep the lowest `count` words, or all if there are not so many -/
def truncate (count : Nat) : StackM Unit := fun ⟨words, pc⟩ => .ok () ⟨words.shrink count, pc⟩

/-- drop `count` words -/
def drop (count : Nat) : StackM Unit := fun ⟨words, pc⟩ =>
  if count ≤ words.size then .ok () ⟨words.shrink (words.size - count), pc⟩
  else .error (.stackUnderflow pc) ⟨words, pc⟩

/-- drop `count` words under the top -/
def slide (count : Nat) : StackM Unit := do
  let value ← pop
  drop count
  push value

/-- say which instruction is being run -/
def running (pc : Nat) : StackM Unit := fun ⟨words, _⟩ => .ok () ⟨words, pc⟩

end OperandStack
end ThreeMachines

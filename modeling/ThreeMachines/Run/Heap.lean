/-
The heap of a running machine.

It only grows. Word `i` lies at address `Heap.base + 8 * i`, far above all code, so that a word of one kind is never
taken for the other. An operation that fails leaves the heap as it found it.
-/
import ThreeMachines.Scope.Binding
import ThreeMachines.Run.Fault

namespace ThreeMachines

structure Heap where
  words : Array Int
deriving Repr

/-- a step that works on a heap -/
abbrev HeapM := EStateM Fault Heap

namespace Heap

/-- address of the first word -/
def base : Int := 0x100000000000

def empty : Heap := ⟨#[]⟩

/-- words allocated so far -/
def size (h : Heap) : Nat := h.words.size

/-- the number of the word at an address -/
def index (h : Heap) (address : Int) : Except Fault Nat :=
  let offset := address - base
  if 0 ≤ offset ∧ offset % wordSize = 0 ∧ (offset / wordSize).toNat < h.words.size then
    .ok (offset / wordSize).toNat
  else .error (.badAddress address .heap)

/-- the address of a new block of `count` words 0 -/
def alloc (count : Nat) : HeapM Int := fun ⟨words⟩ =>
  .ok (base + wordSize * words.size) ⟨words ++ Array.replicate count 0⟩

def load (address : Int) : HeapM Int := fun h =>
  match h.index address with
  | .ok i => .ok (h.words[i]?.getD 0) h
  | .error fault => .error fault h

def store (address value : Int) : HeapM Unit := fun h =>
  match h.index address with
  | .ok i => .ok () ⟨h.words.setIfInBounds i value⟩
  | .error fault => .error fault h

end Heap
end ThreeMachines

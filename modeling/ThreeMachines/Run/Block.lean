/-
Blocks of words on the heap of a running machine.

A vector of `n` words is a block that holds `n` and then the words; element `i`, counted from 1, lies `8 * i` bytes
after its start.
-/
import ThreeMachines.Run.Execution

namespace ThreeMachines

/-- a count of stack words -/
def stackOffset (k : Int) : Except Fault Nat :=
  if 0 ≤ k then .ok k.toNat else .error (.badAddress k .stackOffset)

namespace Exec

variable {ι ρ : Type}

/-- pop words into elements `count`, ..., 1 of a vector -/
def fillVector (vector : Int) : Nat → Exec ρ Unit
  | 0 => return ()
  | count + 1 => do
    store (vector + wordSize * (count + 1)) (← pop)
    fillVector vector count

/-- pop `n` words into a new vector, the last one first -/
def makeVector (n : Int) : Exec ρ Int := do
  let count ← check (stackOffset n)
  let vector ← alloc (count + 1)
  store vector n
  fillVector vector count
  return vector

/-- element `i` of a vector, counted from 0 -/
def element (vector i : Int) : Exec ρ Int := load (vector + wordSize * (i + 1))

/-- a new block of two words -/
def makePair (first second : Int) : Exec ρ Int := do
  let pair ← alloc 2
  store pair first
  store (pair + wordSize) second
  return pair

/-- copy a block of two words, one after the other -/
def copyPair (source dest : Int) : Exec ρ Unit := do
  store dest (← load source)
  store (dest + wordSize) (← load (source + wordSize))

/-- pop a vector and pair it with a code address -/
def makeFunction (image : Image ι) (body : Label) : Exec ρ Int := do
  let function ← alloc 2
  store function (← check (image.addressOf body))
  store (function + wordSize) (← pop)
  return function

end Exec
end ThreeMachines

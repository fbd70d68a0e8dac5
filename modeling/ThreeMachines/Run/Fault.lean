/-
Why a run of a program ends without a value.
-/
import ThreeMachines.Data.Word
import ThreeMachines.Text.Hex

namespace ThreeMachines

/-- what a word was taken as when it turned out to be no address of that kind -/
inductive Place where
  | code | heap | stack | stackOffset | frame | stackSlot | instruction
deriving DecidableEq, Repr

def Place.name : Place → String
  | code => "code"
  | heap => "heap"
  | stack => "stack"
  | stackOffset => "stack offset"
  | frame => "frame"
  | stackSlot => "stack slot"
  | instruction => "instruction"

inductive Fault where
  /-- the instruction at `pc` needs a word that is not on the stack -/
  | stackUnderflow (pc : Nat)
  | unknownLabel (label : String)
  | badAddress (address : Int) (place : Place)
  | divisionByZero
  /-- a quotient that no word holds -/
  | overflow
  /-- the run needs more than `limit` steps -/
  | stepLimit (limit : Nat)
deriving DecidableEq, Repr

/-- the 64 bits of a word, in hexadecimal digits -/
def bitsText (word : Int) : String := "0x" ++ Text.hex (word % wordCount).toNat

def Fault.message : Fault → String
  | stackUnderflow pc => "operand stack underflow at instruction " ++ toString pc
  | unknownLabel label => "jump to undefined label " ++ label
  | badAddress address place => bitsText address ++ " is not a valid " ++ place.name ++ " address"
  | divisionByZero => "division by zero"
  | overflow => "arithmetic overflow"
  | stepLimit limit => "step limit of " ++ toString limit ++ " exceeded"

end ThreeMachines

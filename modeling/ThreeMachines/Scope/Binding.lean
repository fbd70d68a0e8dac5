/-
What a name stands for in generated code: the kind of storage and its address.

What an address counts depends on the machine and on the storage: bytes of the machine's stack, words from the frame, or
places in a vector. Every binding takes one word of eight bytes.
-/

namespace ThreeMachines

/-- bytes of a machine word -/
def wordSize : Int := 8

inductive Storage where
  | global
  /-- a variable of a local block or of a procedure -/
  | blockLocal
  /-- a parameter -/
  | formal
  /-- a variable of an enclosing function, reached through the closure -/
  | captured
deriving DecidableEq, Repr

def Storage.name : Storage → String
  | global => "global"
  | blockLocal => "local"
  | formal => "formal"
  | captured => "captured"

structure Binding where
  name : String
  storage : Storage
  address : Int
deriving DecidableEq, Repr

namespace Binding

/-- bytes that the binding takes -/
def size (_ : Binding) : Int := wordSize

/-- `kind name@address` -/
def text (b : Binding) : String := b.storage.name ++ " " ++ b.name ++ "@" ++ toString b.address

end Binding
end ThreeMachines

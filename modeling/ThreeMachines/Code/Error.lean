/-
Why an expression has no code for a machine.

An expression may use a name that nothing binds, or need what the machine does not offer. The remaining causes
(`InternalFault`) are breaches of the generators' own rules: an address fixed twice or read too early, an empty
sequence, a label that is defined twice or not at all.
-/
import ThreeMachines.Code.Machine
import ThreeMachines.Code.Label
import ThreeMachines.Scope.Binding

namespace ThreeMachines

/-- what a machine does not offer -/
inductive Construct where
  /-- a procedure of the stack machine that uses a variable which is not global -/
  | capturing (storage : Storage) (name : String)
  /-- an assignment, on the closure machine, to a variable that was copied into the closure -/
  | assignmentToCaptured (name : String)
deriving DecidableEq, Repr

def Construct.text : Construct → String
  | capturing storage name => "closure capturing " ++ storage.name ++ " `" ++ name ++ "`"
  | assignmentToCaptured name => "assignment to captured variable `" ++ name ++ "`"

inductive InternalFault where
  | alreadyBound (name : String) (existing : Binding)
  | readBeforeFixed (name : String)
  | emptySequence
  | bodyRegisteredTwice (label : Label)
  | labelDefinedTwice (label : Label)
  | labelUndefined (label : Label)
  | capturedOnStack (binding : Binding)
deriving DecidableEq, Repr

def InternalFault.text : InternalFault → String
  | alreadyBound name existing => "`" ++ name ++ "` is already bound as " ++ existing.text
  | readBeforeFixed name => "`" ++ name ++ "` is read before its address is fixed"
  | emptySequence => "empty sequence"
  | bodyRegisteredTwice label => "lambda body " ++ label.text ++ " registered twice"
  | labelDefinedTwice label => "label " ++ label.text ++ " is defined more than once"
  | labelUndefined label => "label " ++ label.text ++ " is referenced but never defined"
  | capturedOnStack binding => "captured binding " ++ binding.text ++ " on the stack machine"

inductive CompileError where
  | undefinedVariable (name : String)
  | unsupported (construct : Construct) (machine : Machine)
  | internal (fault : InternalFault)
deriving DecidableEq, Repr

/-- how a broken rule of the library itself is reported -/
def internalMessage (text : String) : String := "Internal compiler error: " ++ text

def CompileError.message : CompileError → String
  | undefinedVariable name => "Undefined variable: " ++ name
  | unsupported construct machine =>
    "Unsupported construct for the " ++ machine.name ++ " machine: " ++ construct.text
  | internal fault => internalMessage fault.text

end ThreeMachines

/-
Code for the stack machine.

`depth` is the number of words between the frame pointer and the top of the stack when an expression starts, so a local
block at `depth` puts its first variable `8 * (depth + 1)` bytes above the frame pointer. Parameter `i` lies `16 + 8 *
i` bytes below it; the place of parameter 0 receives the result, also when there is no parameter.

Procedures stand in the stream, behind a jump. They see globals, their parameters and their locals, and nothing of the
blocks and procedures around them: an expression in which one would is refused. A name that is assigned and bound
nowhere becomes a global when the generator meets its first assignment.
-/
import ThreeMachines.Syntax.Names
import ThreeMachines.Code.Generator
import ThreeMachines.Stack.Op

namespace ThreeMachines.Stack

/-- frame offset of parameter 0, which is also the place of the result -/
def firstFormal : Int := -2 * wordSize

/-- frame offset of the word that is pushed at a depth -/
def offsetAt (depth : Int) : Int := wordSize * (depth + 1)

def zero : Code Op := [.loadc (.int 0)]

/-- push the address of a variable -/
def address (b : Binding) : Gen Op (Code Op) :=
  match b.storage with
  | .global => return [.loadc (.int b.address)]
  | .blockLocal | .formal => return [.own (.loadrc b.address)]
  | .captured => throw (.internal (.capturedOnStack b))

/-- variables that lie one after the other from a depth on -/
def blockBindings (depth : Int) : List String → List Binding
  | [] => []
  | name :: names => ⟨name, .blockLocal, offsetAt depth⟩ :: blockBindings (depth + 1) names

/-- parameters from an offset on, each below the one before it -/
def formalBindings (offset : Int) : List String → List Binding
  | [] => []
  | name :: names => ⟨name, .formal, offset⟩ :: formalBindings (offset - wordSize) names

/-- refuse a procedure that uses a variable which is visible here and not global -/
def refuseCaptures (scope : ScopeId) : List String → Gen Op Unit
  | [] => return ()
  | name :: names => do
    match (← get).scopes.lookup scope name with
    | .ok b =>
      if b.storage = .global then refuseCaptures scope names
      else throw (.unsupported (.capturing b.storage name) .stack)
    | .error _ => refuseCaptures scope names

/-- a procedure whose body has the given code, and its address pushed -/
def procedure (entry stop : Label) (locals : Int) (body : Code Op) : Code Op :=
  [.jump stop, .label entry, .own .enter] ++ (if locals = 0 then [] else [.own (.alloc (wordSize * locals))]) ++ body ++
    [.own (.loadrc firstFormal), .own .store, .pop, .own .ret, .label stop, .loadc (.addr entry)]

/-- call what `callee` pushes, with the words of `args` as arguments -/
def callWith (slots : Int) (args callee : Code Op) : Code Op :=
  args ++ [.own .mark] ++ callee ++ [.own .call, .pop] ++
    (if 1 < slots then [.own (.slide (wordSize * (slots - 1)) wordSize)] else [])

mutual

/-- code that pushes the value of an expression -/
def code (scope : ScopeId) (depth : Int) : Expr → Gen Op (Code Op)
  | .number value => return [.loadc (.int value.toInt)]
  | .bool value => return [.loadc (.int (if value then 1 else 0))]
  | .var name => do
    let b ← Gen.lookup scope name
    return (← address b) ++ [.own .load]
  | .unary op operand => return (← code scope depth operand) ++ [.unary op]
  | .binary op lhs rhs => do
    let left ← code scope depth lhs
    let right ← code scope (depth + 1) rhs
    return left ++ right ++ [.binary op]
  | .assign name value => do
    let b ← Gen.resolveOrAllocate scope name
    let pushed ← code scope depth value
    return pushed ++ (← address b) ++ [.own .store]
  | .seq items => sequence scope depth items
  | .ite cond thenBranch elseBranch =>
    Gen.ifThenElse (code scope depth cond) (code scope depth thenBranch) (optional scope depth elseBranch)
  | .whileDo cond body => Gen.whileDo zero (code scope (depth + 1) cond) (code scope depth body)
  | .doWhile body cond => Gen.doWhile (code scope depth body) (code scope (depth + 1) cond)
  | .loop count body => Gen.countedLoop zero (code scope (depth + 1) count) (code scope (depth + 1) body)
  | .block bindings body => do
    let count : Int := bindings.length
    let inner ← Gen.openScope (some scope) (blockBindings depth (bindings.map Prod.fst))
    let values ← initial inner (depth + count) depth bindings
    let result ← code inner (depth + count) body
    return [.own (.alloc (wordSize * count))] ++ values ++ result ++ [.own (.slide (wordSize * count) wordSize)]
  | .lambda params body => do
    refuseCaptures scope (body.captures params)
    let entry ← Gen.fresh "proc"
    let stop ← Gen.fresh "endproc"
    let frame ← Gen.openScope (some (← Gen.rootOf scope)) (formalBindings firstFormal params)
    return procedure entry stop 0 (← code frame 0 body)
  | .proc params locals body => do
    refuseCaptures scope (body.captures (params ++ locals))
    let entry ← Gen.fresh "proc"
    let stop ← Gen.fresh "endproc"
    let frame ← Gen.openScope (some (← Gen.rootOf scope))
      (formalBindings firstFormal params ++ blockBindings 0 locals)
    return procedure entry stop locals.length (← code frame locals.length body)
  | .call callee [] => return callWith 1 zero (← code scope (depth + 2) callee)
  | .call callee (arg :: args) => do
    let slots : Int := (arg :: args).length
    let pushed ← reversed scope depth (arg :: args)
    return callWith slots pushed (← code scope (depth + slots + 1) callee)

/-- the value of the last item; the others are dropped -/
def sequence (scope : ScopeId) (depth : Int) : List Expr → Gen Op (Code Op)
  | [] => throw (.internal .emptySequence)
  | [item] => code scope depth item
  | item :: items => do
    let first ← code scope depth item
    return first ++ [.pop] ++ (← sequence scope depth items)

/-- the value of an expression, or 0 if there is none -/
def optional (scope : ScopeId) (depth : Int) : Option Expr → Gen Op (Code Op)
  | none => return zero
  | some e => code scope depth e

/-- store the values of a block's variables; the first of them lies at depth `place` -/
def initial (scope : ScopeId) (depth place : Int) : List (String × Expr) → Gen Op (Code Op)
  | [] => return []
  | (_, value) :: rest => do
    let pushed ← code scope depth value
    return pushed ++ [.own (.loadrc (offsetAt place)), .own .store, .pop] ++ (← initial scope depth (place + 1) rest)

/-- the values of arguments, the last one first -/
def reversed (scope : ScopeId) (depth : Int) : List Expr → Gen Op (Code Op)
  | [] => return []
  | arg :: args => do
    let later ← reversed scope depth args
    return later ++ (← code scope (depth + args.length) arg)

end

/-- the program of an expression -/
def generate (e : Expr) : Gen Op (Program Op) := do
  let entry ← code ScopeTable.global 0 e
  return ⟨entry, .empty, (← get).scopes.globals⟩

end ThreeMachines.Stack

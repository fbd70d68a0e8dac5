/-
Code for the closure machine.

Addresses of variables are depths of the stack: the variable at address `a` is read with `pushloc (depth - a)`. The body
of a function is a stream of its own and sees its parameters and its captured names only.

Each global has a cell in the heap, and the vector of the entry stream holds the cells. A function that mentions a
global captures the cell, so all functions share it; any other captured variable is copied when the function is made,
and cannot be assigned inside it. A block makes its places first, as empty closures, so that functions bound in it can
refer to each other: `refill` fills such a place once its function exists.
-/
import ThreeMachines.Syntax.Names
import ThreeMachines.Code.Generator
import ThreeMachines.Closure.Op

namespace ThreeMachines.Closure

def zero : Code Op := [.loadc (.int 0)]

/-- global variables, numbered in order -/
def globalBindings (place : Int) : List String → List Binding
  | [] => []
  | name :: names => ⟨name, .global, place⟩ :: globalBindings (place + 1) names

/-- variables of a block that starts at a depth -/
def blockBindings (depth : Int) : List String → List Binding
  | [] => []
  | name :: names => ⟨name, .blockLocal, depth + 1⟩ :: blockBindings (depth + 1) names

/-- captured names, numbered in order: cells of globals, copies of anything else -/
def captureBindings (place : Int) : List (String × Bool) → List Binding
  | [] => []
  | (name, shared) :: rest =>
    ⟨name, if shared then .global else .captured, place⟩ :: captureBindings (place + 1) rest

/-- parameters, the last one at address 0 -/
def formalBindings (address : Int) : List String → List Binding
  | [] => []
  | name :: names => ⟨name, .formal, address⟩ :: formalBindings (address + 1) names

/-- push the value of a variable -/
def fetch (depth : Int) (b : Binding) : Code Op :=
  match b.storage with
  | .global => [.own (.pushglob b.address), .own .load]
  | .captured => [.own (.pushglob b.address)]
  | .blockLocal | .formal => [.own (.pushloc (depth - b.address))]

/-- write the value on top, which was pushed at `depth`, into a variable -/
def update (depth : Int) (b : Binding) : Code Op :=
  match b.storage with
  | .global => [.own (.pushglob b.address), .own .store]
  | _ => [.own (.storeloc (depth + 1 - b.address))]

/-- push what a function captures, and tell which names are globals -/
def capture (scope : ScopeId) (depth : Int) : List String → Gen Op (Code Op × List (String × Bool))
  | [] => return ([], [])
  | name :: names => do
    let b ← Gen.lookup scope name
    let pushed := if b.storage = .global then [.own (.pushglob b.address)] else fetch depth b
    let (later, shared) ← capture scope (depth + 1) names
    return (pushed ++ later, (name, decide (b.storage = .global)) :: shared)

/-- push a function; `body` gives the code of its body in the scope of the function -/
def function (scope : ScopeId) (depth : Int) (params captures : List String) (body : ScopeId → Gen Op (Code Op)) :
    Gen Op (Code Op) := do
  let (pushed, shared) ← capture scope depth captures
  let label ← Gen.fresh "fun"
  let arity : Int := params.length
  let frame ← Gen.openScope none (captureBindings 0 shared ++ formalBindings (1 - arity) params)
  let bodyCode ← body frame
  Gen.register ⟨label, params, captures, bodyCode ++ [.own .popenv]⟩
  return pushed ++ [.own (.mkvec captures.length), .own (.mkfunval label)]

/-- a block of variables that start at 0 -/
def zeroedBlock (scope : ScopeId) (names : List String) (body : ScopeId → Gen Op (Code Op)) : Gen Op (Code Op) := do
  let inner ← Gen.openScope (some scope) (blockBindings 0 names)
  let result ← body inner
  return [.own (.alloc names.length)] ++ zeros names.length ++ result ++ [.own (.slide names.length)]
where
  /-- write 0 into the top `n` places, the lowest first -/
  zeros : Nat → Code Op
    | 0 => []
    | n + 1 => zero ++ [.own (.storeloc (n + 1)), .pop] ++ zeros n

mutual

/-- code that pushes the value of an expression -/
def code (scope : ScopeId) (depth : Int) : Expr → Gen Op (Code Op)
  | .number value => return [.loadc (.int value.toInt)]
  | .bool value => return [.loadc (.int (if value then 1 else 0))]
  | .var name => return fetch depth (← Gen.lookup scope name)
  | .unary op operand => return (← code scope depth operand) ++ [.unary op]
  | .binary op lhs rhs => do
    let left ← code scope depth lhs
    let right ← code scope (depth + 1) rhs
    return left ++ right ++ [.binary op]
  | .assign name value => do
    let b ← Gen.lookup scope name
    if b.storage = .captured then throw (.unsupported (.assignmentToCaptured name) .closure)
    let pushed ← code scope depth value
    return pushed ++ update depth b
  | .seq items => sequence scope depth items
  | .ite cond thenBranch elseBranch =>
    Gen.ifThenElse (code scope depth cond) (code scope depth thenBranch) (optional scope depth elseBranch)
  | .whileDo cond body => Gen.whileDo zero (code scope (depth + 1) cond) (code scope depth body)
  | .doWhile body cond => Gen.doWhile (code scope depth body) (code scope (depth + 1) cond)
  | .loop count body => Gen.countedLoop zero (code scope (depth + 1) count) (code scope (depth + 1) body)
  | .block bindings body => do
    let count : Int := bindings.length
    let inner ← Gen.openScope (some scope) (blockBindings depth (bindings.map Prod.fst))
    let values ← initial inner (depth + count) bindings
    let result ← code inner (depth + count) body
    return [.own (.alloc count)] ++ values ++ result ++ [.own (.slide count)]
  | .lambda params body =>
    function scope depth params (body.captures params) fun frame => code frame 0 body
  | .proc params [] body =>
    function scope depth params (body.captures params) fun frame => code frame 0 body
  | .proc params (first :: rest) body =>
    function scope depth params (unbound params (unbound (first :: rest) body.freeNames)) fun frame =>
      zeroedBlock frame (first :: rest) fun inner => code inner (first :: rest).length body
  | .call callee args => do
    let back ← Gen.fresh "ret"
    let pushed ← arguments scope (depth + frameWords) args
    let target ← code scope (depth + frameWords + args.length) callee
    return [.own (.mark back)] ++ pushed ++ target ++ [.own (.apply args.length), .label back]

/-- the value of the last item; the others are dropped -/
def sequence (scope : ScopeId) (depth : Int) : List Expr → Gen Op (Code Op)
  | [] => throw (.internal .emptySequence)
  | [item] => code scope depth item
  | item :: items => do
    let first ← code scope depth item
    return first ++ [.pop] ++ (← sequence scope depth items)

/-- the value of an expression, or 0 if there is none -/
def optional (scope : ScopeId) (depth : Int) : Option Expr → Gen Op (Code Op)
  | none => return zero
  | some e => code scope depth e

/-- write the values of a block's variables into their places; as many variables as are listed lie on top -/
def initial (scope : ScopeId) (depth : Int) : List (String × Expr) → Gen Op (Code Op)
  | [] => return []
  | (name, value) :: rest => do
    let pushed ← code scope depth value
    let place : Int := ((name, value) :: rest).length
    let written : Code Op := if value.isFunction then [.own (.refill place)] else [.own (.storeloc place), .pop]
    return pushed ++ written ++ (← initial scope depth rest)

/-- the values of arguments, the first one first -/
def arguments (scope : ScopeId) (depth : Int) : List Expr → Gen Op (Code Op)
  | [] => return []
  | arg :: args => do
    let first ← code scope depth arg
    return first ++ (← arguments scope (depth + 1) args)

end

/-- the program of an expression -/
def generate (e : Expr) : Gen Op (Program Op) := do
  let names := e.globalNames
  Gen.bindAll ScopeTable.global (globalBindings 0 names)
  let entry ← code ScopeTable.global 0 e
  let d ← get
  return ⟨[.own (.alloc names.length), .own (.mkvec names.length), .own .setgp] ++ entry, d.lambdas, d.scopes.globals⟩

end ThreeMachines.Closure

/-
Code for the vector machine.

There are two ways to generate an expression (`Mode`): `basic` leaves its word, `value` leaves a new cell that holds the
value. The cell of a variable itself is pushed by `storage`. Variables of blocks are addressed from the frame pointer,
so their addresses do not move with the top of the stack. A function captures the cells of its free names, so an
assignment made later on is seen inside it.
-/
import ThreeMachines.Syntax.Names
import ThreeMachines.Code.Generator
import ThreeMachines.Vector.Op

namespace ThreeMachines.Vector

/-- what the code of an expression leaves on the stack -/
inductive Mode where
  /-- the word -/
  | basic
  /-- a new cell that holds the value -/
  | value
deriving DecidableEq, Repr

namespace Mode

/-- after a word -/
def box : Mode → Code Op
  | basic => []
  | value => [.own .mkbasic, .own (.mkind .basic)]

/-- after a new cell -/
def unbox : Mode → Code Op
  | basic => [.own .getbasic]
  | value => []

/-- after the cell of a variable -/
def read : Mode → Code Op
  | basic => [.own .getbasic]
  | value => [.own .copy]

/-- the value 0 -/
def zero (mode : Mode) : Code Op := [.loadc (.int 0)] ++ mode.box

end Mode

/-- bindings of one kind of storage, numbered in order -/
def numbered (storage : Storage) (place : Int) : List String → List Binding
  | [] => []
  | name :: names => ⟨name, storage, place⟩ :: numbered storage (place + 1) names

/-- push the cell of a variable -/
def storage (b : Binding) : Instr Op :=
  match b.storage with
  | .blockLocal => .own (.pushloc b.address)
  | .formal => .own (.pushform b.address)
  | .global | .captured => .own (.pushglob b.address)

/-- push the cells of several variables -/
def storages (scope : ScopeId) : List String → Gen Op (Code Op)
  | [] => return []
  | name :: names => do
    let b ← Gen.lookup scope name
    return storage b :: (← storages scope names)

/-- push a function; `body` gives the code of its body in the scope of the function -/
def function (scope : ScopeId) (params captures : List String) (body : ScopeId → Gen Op (Code Op)) :
    Gen Op (Code Op) := do
  let pushed ← storages scope captures
  let label ← Gen.fresh "fun"
  let frame ← Gen.openScope none (numbered .formal 0 params ++ numbered .captured 0 captures)
  let bodyCode ← body frame
  Gen.register ⟨label, params, captures, bodyCode ++ [.own (.ret 0)]⟩
  return pushed ++ [.own (.mkvec captures.length), .own (.mkfunval label), .own (.mkind .function)]

/-- a block, in value mode, of variables that start at 0 -/
def zeroedBlock (scope : ScopeId) (names : List String) (body : ScopeId → Gen Op (Code Op)) : Gen Op (Code Op) := do
  let bindings := numbered .blockLocal 1 names
  let inner ← Gen.openScope (some scope) bindings
  let result ← body inner
  let zeros := bindings.flatMap fun b => storage b :: Mode.zero .value ++ [.own .store, .pop]
  return [.own (.alloc names.length)] ++ zeros ++ result ++ [.own (.slide names.length)]

mutual

/-- code that pushes the value of an expression in one mode or the other -/
def code (scope : ScopeId) (depth : Int) (mode : Mode) : Expr → Gen Op (Code Op)
  | .number value => return [.loadc (.int value.toInt)] ++ mode.box
  | .bool value => return [.loadc (.int (if value then 1 else 0))] ++ mode.box
  | .var name => return storage (← Gen.lookup scope name) :: mode.read
  | .unary op operand => return (← code scope depth .basic operand) ++ [.unary op] ++ mode.box
  | .binary op lhs rhs => do
    let left ← code scope depth .basic lhs
    let right ← code scope (depth + 1) .basic rhs
    return left ++ right ++ [.binary op] ++ mode.box
  | .assign name value => do
    let b ← Gen.lookup scope name
    let pushed ← code scope (depth + 1) .value value
    return storage b :: pushed ++ [.own .store] ++ mode.read
  | .seq items => sequence scope depth mode items
  | .ite cond thenBranch elseBranch =>
    Gen.ifThenElse (code scope depth .basic cond) (code scope depth mode thenBranch)
      (optional scope depth mode elseBranch)
  | .whileDo cond body => Gen.whileDo mode.zero (code scope (depth + 1) .basic cond) (code scope depth mode body)
  | .doWhile body cond => Gen.doWhile (code scope depth mode body) (code scope (depth + 1) .basic cond)
  | .loop count body =>
    Gen.countedLoop mode.zero (code scope (depth + 1) .basic count) (code scope (depth + 1) mode body)
  | .block bindings body => do
    let count : Int := bindings.length
    let inner ← Gen.openScope (some scope) (numbered .blockLocal (depth + 1) (bindings.map Prod.fst))
    let values ← initial inner (depth + count + 1) bindings
    let result ← code inner (depth + count) mode body
    return [.own (.alloc count)] ++ values ++ result ++ [.own (.slide count)]
  | .lambda params body => do
    let pushed ← function scope params (body.captures params) fun frame => code frame 0 .value body
    return pushed ++ mode.unbox
  | .proc params [] body => do
    let pushed ← function scope params (body.captures params) fun frame => code frame 0 .value body
    return pushed ++ mode.unbox
  | .proc params (first :: rest) body => do
    let pushed ← function scope params (unbound params (unbound (first :: rest) body.freeNames)) fun frame =>
      zeroedBlock frame (first :: rest) fun inner => code inner (first :: rest).length .value body
    return pushed ++ mode.unbox
  | .call callee args => do
    let target ← code scope depth .value callee
    let pushed ← arguments scope (depth + 1) args
    let back ← Gen.fresh "ret"
    let entered : Code Op :=
      [.own (.mkvec args.length), .loadc (.addr back), .own (.mkvec 1), .own .call, .label back]
    return target ++ pushed ++ entered ++ mode.unbox

/-- the value of the last item; the others are dropped -/
def sequence (scope : ScopeId) (depth : Int) (mode : Mode) : List Expr → Gen Op (Code Op)
  | [] => throw (.internal .emptySequence)
  | [item] => code scope depth mode item
  | item :: items => do
    let first ← code scope depth .value item
    return first ++ [.pop] ++ (← sequence scope depth mode items)

/-- the value of an expression, or 0 if there is none -/
def optional (scope : ScopeId) (depth : Int) (mode : Mode) : Option Expr → Gen Op (Code Op)
  | none => return mode.zero
  | some e => code scope depth mode e

/-- copy the values of a block's variables into their cells -/
def initial (scope : ScopeId) (depth : Int) : List (String × Expr) → Gen Op (Code Op)
  | [] => return []
  | (name, value) :: rest => do
    let b ← Gen.lookup scope name
    let pushed ← code scope depth .value value
    return storage b :: pushed ++ [.own .store, .pop] ++ (← initial scope depth rest)

/-- new cells of arguments, the first one first -/
def arguments (scope : ScopeId) (depth : Int) : List Expr → Gen Op (Code Op)
  | [] => return []
  | arg :: args => do
    let first ← code scope depth .value arg
    return first ++ (← arguments scope (depth + 1) args)

end

/-- the program of an expression -/
def generate (e : Expr) : Gen Op (Program Op) := do
  let names := e.globalNames
  Gen.bindAll ScopeTable.global (numbered .global 0 names)
  let entry ← code ScopeTable.global 0 .basic e
  let d ← get
  return ⟨[.own (.alloc names.length), .own (.mkvec names.length), .own .setgp] ++ entry, d.lambdas, d.scopes.globals⟩

end ThreeMachines.Vector

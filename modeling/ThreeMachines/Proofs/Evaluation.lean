/-
The meaning of expressions, told without a machine.

Every variable is a cell that is shared by all who see it: a block makes a cell for each of its names, a call makes one
for each parameter and each local, and a name that nothing binds is a global variable. A function value keeps the names
that were in scope where it was made (`Env`), so it reads and writes the same cells as the code around it.

- `Expr.eval` evaluates an expression in an environment; what it costs is bounded by a fuel, and a run that the fuel cuts
  off ends in `Trouble.outOfFuel`, which is no result.
- `Expr.Yields` is the meaning of a program: the number or the arithmetic fault that some fuel brings out.
- A `Convention` fixes what the machines do in different ways: the order in which a call evaluates callee and arguments,
  what a block's variable holds before its value is stored, and the passes of a loop. Under the usual convention such a
  variable holds 0, as a global does, and a loop makes as many passes as its count says.
-/
import ThreeMachines.Run.Arithmetic
import ThreeMachines.Syntax.Names

namespace ThreeMachines

/-- a variable of a running program -/
inductive Variable where
  /-- a name that nothing binds -/
  | global (name : String)
  /-- a cell made by a block or by a call -/
  | cell (index : Nat)
deriving DecidableEq, Repr

/-- the names in scope and their cells, the innermost first -/
abbrev Env := List (String × Nat)

/-- what a name stands for -/
def Env.variable (env : Env) (name : String) : Variable :=
  match env.lookup name with
  | some i => .cell i
  | none => .global name

/-- a function and the names that were in scope where it was made -/
structure FunctionValue where
  params : List String
  locals : List String
  body : Expr
  env : Env
deriving Repr

inductive Value where
  | int (n : Int)
  | function (f : FunctionValue)
deriving Repr

/-- the values of all variables; cells are numbered in the order of their making -/
structure Store where
  /-- the number of the next cell -/
  next : Nat
  value : Variable → Value

/-- no cells, and every global is 0 -/
def Store.empty : Store := ⟨0, fun _ => .int 0⟩

def Store.write (σ : Store) (x : Variable) (v : Value) : Store :=
  ⟨σ.next, fun y => if y = x then v else σ.value y⟩

/-- why an evaluation ends without a value -/
inductive Trouble where
  /-- a division that has no result -/
  | fault (cause : Fault)
  /-- a function where a number is needed, or the reverse -/
  | wrongKind
  /-- a call with too few or too many arguments -/
  | arity
  | outOfFuel
deriving DecidableEq, Repr

/-- a step of evaluation -/
abbrev Eval := EStateM Trouble Store

namespace Eval

def read (x : Variable) : Eval Value := fun σ => .ok (σ.value x) σ

def write (x : Variable) (v : Value) : Eval Unit := fun σ => .ok () (σ.write x v)

/-- a new cell; what it holds at first may depend on its number -/
def make (initial : Nat → Value) : Eval Nat := fun σ =>
  .ok σ.next ⟨σ.next + 1, (σ.write (.cell σ.next) (initial σ.next)).value⟩

/-- the number that a value is -/
def word : Value → Eval Int
  | .int n => return n
  | .function _ => throw .wrongKind

/-- the function that a value is, if it takes so many arguments -/
def callee (count : Nat) : Value → Eval FunctionValue
  | .int _ => throw .wrongKind
  | .function f => if f.params.length = count then return f else throw .arity

def arithmetic : Except Fault Int → Eval Value
  | .ok n => return .int n
  | .error cause => throw (.fault cause)

/-- new cells for names, in order; of two equal names the later one counts -/
def extend (env : Env) : List (String × (Nat → Value)) → Eval Env
  | [] => return env
  | (name, initial) :: rest => do
    let i ← make initial
    extend ((name, i) :: env) rest

/-- the value of the last item; `last` if there is none -/
def items (ev : Expr → Eval Value) (last : Value) : List Expr → Eval Value
  | [] => return last
  | e :: es => do items ev (← ev e) es

/-- the values of a list, evaluated from the first to the last -/
def forward (ev : Expr → Eval Value) : List Expr → Eval (List Value)
  | [] => return []
  | e :: es => do
    let v ← ev e
    return v :: (← forward ev es)

/-- the values of a list, evaluated from the last to the first -/
def backward (ev : Expr → Eval Value) : List Expr → Eval (List Value)
  | [] => return []
  | e :: es => do
    let vs ← backward ev es
    return (← ev e) :: vs

/-- store the values of a block's variables -/
def bindings (ev : Expr → Eval Value) (env : Env) : List (String × Expr) → Eval Unit
  | [] => return ()
  | (name, value) :: rest => do
    write (env.variable name) (← ev value)
    bindings ev env rest

/-- at most `fuel` tests of the condition; the value is that of the last pass -/
def whileDo (cond : Eval Int) (body : Eval Value) : Nat → Value → Eval Value
  | 0, _ => throw .outOfFuel
  | fuel + 1, last => do
    if (← cond) ≠ 0 then whileDo cond body fuel (← body) else return last

/-- at most `fuel` passes -/
def doWhile (body : Eval Value) (cond : Eval Int) : Nat → Eval Value
  | 0 => throw .outOfFuel
  | fuel + 1 => do
    let last ← body
    if (← cond) ≠ 0 then doWhile body cond fuel else return last

/-- exactly `count` passes -/
def loop (body : Eval Value) : Nat → Value → Eval Value
  | 0, last => return last
  | count + 1, _ => do loop body count (← body)

/-- enter a function -/
def apply (ev : Env → Expr → Eval Value) (f : FunctionValue) (values : List Value) : Eval Value := do
  let env ← extend f.env ((f.params.zip values).map (fun p => (p.1, fun _ => p.2)) ++
    f.locals.map fun name => (name, fun _ => .int 0))
  ev env f.body

end Eval

/-- when a call evaluates its callee and its arguments -/
inductive CallOrder where
  /-- the callee, then the arguments from the first to the last -/
  | calleeFirst
  /-- the arguments from the first to the last, then the callee -/
  | calleeLast
  /-- the arguments from the last to the first, then the callee -/
  | reversed
deriving DecidableEq, Repr

/-- what the machines do in different ways -/
structure Convention where
  order : CallOrder
  /-- what the block variable in a cell holds before its value is stored -/
  fresh : Nat → Int
  /-- the passes that a loop with a count makes -/
  passes : Int → Nat

/-- variables of blocks start at 0, and a loop makes no pass for a negative count -/
def Convention.usual (order : CallOrder) : Convention := ⟨order, fun _ => 0, Int.toNat⟩

namespace Expr

/-- the value of an expression; `fuel` bounds the depth of evaluation and the passes of each `while` -/
def eval (conv : Convention) : Nat → Env → Expr → Eval Value
  | 0, _, _ => throw .outOfFuel
  | fuel + 1, env, e =>
    match e with
    | number value => return .int value.toInt
    | bool value => return .int (if value then 1 else 0)
    | var name => Eval.read (env.variable name)
    | unary op operand => do
      let n ← Eval.word (← eval conv fuel env operand)
      return .int (op.eval n)
    | binary op lhs rhs => do
      let left ← Eval.word (← eval conv fuel env lhs)
      let right ← Eval.word (← eval conv fuel env rhs)
      Eval.arithmetic (op.eval left right)
    | assign name value => do
      let v ← eval conv fuel env value
      Eval.write (env.variable name) v
      return v
    | seq items => Eval.items (eval conv fuel env) (.int 0) items
    | ite cond thenBranch elseBranch => do
      if (← Eval.word (← eval conv fuel env cond)) ≠ 0 then eval conv fuel env thenBranch
      else match elseBranch with
        | some e => eval conv fuel env e
        | none => return .int 0
    | whileDo cond body =>
      Eval.whileDo (do Eval.word (← eval conv fuel env cond)) (eval conv fuel env body) fuel (.int 0)
    | doWhile body cond =>
      Eval.doWhile (eval conv fuel env body) (do Eval.word (← eval conv fuel env cond)) fuel
    | loop count body => do
      let n ← Eval.word (← eval conv fuel env count)
      Eval.loop (eval conv fuel env body) (conv.passes n) (.int 0)
    | block bindings body => do
      let inner ← Eval.extend env (bindings.map fun b => (b.1, fun i => .int (conv.fresh i)))
      Eval.bindings (eval conv fuel inner) inner bindings
      eval conv fuel inner body
    | lambda params body => return .function ⟨params, [], body, env⟩
    | proc params locals body => return .function ⟨params, locals, body, env⟩
    | call callee args =>
      match conv.order with
      | .calleeFirst => do
        let f ← Eval.callee args.length (← eval conv fuel env callee)
        let values ← Eval.forward (eval conv fuel env) args
        Eval.apply (eval conv fuel) f values
      | .calleeLast => do
        let values ← Eval.forward (eval conv fuel env) args
        let f ← Eval.callee args.length (← eval conv fuel env callee)
        Eval.apply (eval conv fuel) f values
      | .reversed => do
        let values ← Eval.backward (eval conv fuel env) args
        let f ← Eval.callee args.length (← eval conv fuel env callee)
        Eval.apply (eval conv fuel) f values

/-- the number that a program computes with a fuel -/
def evaluate (conv : Convention) (fuel : Nat) (e : Expr) : Except Trouble Int :=
  match eval conv fuel [] e .empty with
  | .ok (.int n) _ => .ok n
  | .ok (.function _) _ => .error .wrongKind
  | .error trouble _ => .error trouble

/-- the program ends in a number or in an arithmetic fault -/
def Yields (conv : Convention) (e : Expr) (result : Except Fault Int) : Prop :=
  ∃ fuel, evaluate conv fuel e = result.mapError Trouble.fault

end Expr
end ThreeMachines

/-
The expression language.

A program is one expression. Every construct has a value, so sequences, loops and local blocks stand wherever an operand
may stand. Truth is a number: 0 is false and everything else is true. The values of a run and of number literals are
signed 64-bit words.
-/

namespace ThreeMachines

inductive UnaryOp where
  /-- arithmetic negation -/
  | neg
  /-- 0 becomes 1, everything else becomes 0 -/
  | not
deriving DecidableEq, Repr

inductive BinaryOp where
  | add | sub | mul | div | lt | gt | le | ge | eq | ne | and | or
deriving DecidableEq, Repr

namespace UnaryOp

def all : List UnaryOp := [neg, not]

/-- the operator's name, in data and as an instruction -/
def name : UnaryOp → String
  | neg => "neg"
  | not => "not"

end UnaryOp

namespace BinaryOp

def all : List BinaryOp := [add, sub, mul, div, lt, gt, le, ge, eq, ne, and, or]

/-- the operator's name in data -/
def name : BinaryOp → String
  | add => "add"
  | sub => "sub"
  | mul => "mul"
  | div => "div"
  | lt => "lt"
  | gt => "gt"
  | le => "le"
  | ge => "ge"
  | eq => "eq"
  | ne => "ne"
  | and => "and"
  | or => "or"

/-- how the operator is written in a program -/
def symbol : BinaryOp → String
  | add => "+"
  | sub => "-"
  | mul => "*"
  | div => "/"
  | lt => "<"
  | gt => ">"
  | le => "<="
  | ge => ">="
  | eq => "=="
  | ne => "!="
  | and => "and"
  | or => "or"

/-- whether the operator compares its operands -/
def isComparison : BinaryOp → Bool
  | lt | gt | le | ge | eq | ne => true
  | add | sub | mul | div | and | or => false

end BinaryOp

inductive Expr where
  | number (value : Int64)
  | bool (value : Bool)
  | var (name : String)
  | unary (op : UnaryOp) (operand : Expr)
  | binary (op : BinaryOp) (lhs rhs : Expr)
  /-- `name := value`; the value is the assigned one -/
  | assign (name : String) (value : Expr)
  /-- `a; b; c`; the value is the last one -/
  | seq (items : List Expr)
  | ite (cond thenBranch : Expr) (elseBranch : Option Expr)
  | whileDo (cond body : Expr)
  /-- `do body while cond` -/
  | doWhile (body cond : Expr)
  /-- `loop count do body` -/
  | loop (count body : Expr)
  /-- `local a := e1, b := e2 in body`; every name is in scope in every value -/
  | block (bindings : List (String × Expr)) (body : Expr)
  /-- `(a, b) -> body` -/
  | lambda (params : List String) (body : Expr)
  /-- `proc (a, b) local t -> body`; the locals start at 0 -/
  | proc (params locals : List String) (body : Expr)
  | call (callee : Expr) (args : List Expr)
deriving Repr, Inhabited

namespace Expr

/-- a sequence, or its item if there is just one -/
def ofItems : List Expr → Expr
  | [item] => item
  | items => seq items

/-- `fun name(params) -> body`: `name := local name := (params) -> body in name`, so the body sees its own name -/
def namedFunction (name : String) (params : List String) (body : Expr) : Expr :=
  assign name (block [(name, lambda params body)] (var name))

/-- short name of the kind of expression -/
def kindName : Expr → String
  | number _ => "number"
  | bool _ => "boolean"
  | var _ => "variable"
  | unary _ _ => "unary operation"
  | binary _ _ _ => "binary operation"
  | assign _ _ => "assignment"
  | seq _ => "sequence"
  | ite _ _ _ => "if"
  | whileDo _ _ => "while"
  | doWhile _ _ => "do-while"
  | loop _ _ => "loop"
  | block _ _ => "local"
  | lambda _ _ => "lambda"
  | proc _ _ _ => "procedure"
  | call _ _ => "call"

/-- function literals: lambdas and procedures -/
def isFunction : Expr → Bool
  | lambda _ _ | proc _ _ _ => true
  | _ => false

end Expr

end ThreeMachines

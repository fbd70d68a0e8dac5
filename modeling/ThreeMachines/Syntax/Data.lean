/-
Expressions as JSON values.

An expression is an object with a field `kind` and the fields of that kind. `Expr.toJson` writes the fields in a fixed
order and always writes `else_branch`, as `null` when there is none. `Expr.ofJson?` takes the fields in any order and
ignores further ones; a missing `else_branch` is none. It takes other forms too. An expression may be a list of the
kind and then every field in order, and a binding a list of the name and the value. The kind of an expression inside
another one may be its number in `Expr.kinds`. An operator may be an object whose only field, which holds nothing, has
the operator's name.
-/
import ThreeMachines.Data.Json
import ThreeMachines.Syntax.Expr

namespace ThreeMachines

namespace UnaryOp

def ofName? (name : String) : Option UnaryOp := all.find? (fun op => op.name == name)

end UnaryOp

namespace BinaryOp

def ofName? (name : String) : Option BinaryOp := all.find? (fun op => op.name == name)

end BinaryOp

namespace Expr

def names (ns : List String) : Json := .arr (ns.map .str)

mutual

def toJson : Expr → Json
  | number value => .obj [("kind", .str "number"), ("value", .int value.toInt)]
  | bool value => .obj [("kind", .str "bool"), ("value", .bool value)]
  | var name => .obj [("kind", .str "var"), ("name", .str name)]
  | unary op operand => .obj [("kind", .str "unary"), ("op", .str op.name), ("operand", operand.toJson)]
  | binary op lhs rhs =>
    .obj [("kind", .str "binary"), ("op", .str op.name), ("lhs", lhs.toJson), ("rhs", rhs.toJson)]
  | assign name value => .obj [("kind", .str "assign"), ("name", .str name), ("value", value.toJson)]
  | seq items => .obj [("kind", .str "seq"), ("items", .arr (listToJson items))]
  | ite cond thenBranch elseBranch =>
    .obj [("kind", .str "if"), ("cond", cond.toJson), ("then_branch", thenBranch.toJson),
      ("else_branch", optionToJson elseBranch)]
  | whileDo cond body => .obj [("kind", .str "while"), ("cond", cond.toJson), ("body", body.toJson)]
  | doWhile body cond => .obj [("kind", .str "do_while"), ("body", body.toJson), ("cond", cond.toJson)]
  | loop count body => .obj [("kind", .str "loop"), ("count", count.toJson), ("body", body.toJson)]
  | block bindings body =>
    .obj [("kind", .str "local"), ("bindings", .arr (bindingsToJson bindings)), ("body", body.toJson)]
  | lambda params body => .obj [("kind", .str "lambda"), ("params", names params), ("body", body.toJson)]
  | proc params locals body =>
    .obj [("kind", .str "proc"), ("params", names params), ("locals", names locals), ("body", body.toJson)]
  | call callee args => .obj [("kind", .str "call"), ("callee", callee.toJson), ("args", .arr (listToJson args))]

def listToJson : List Expr → List Json
  | [] => []
  | e :: es => e.toJson :: listToJson es

def optionToJson : Option Expr → Json
  | none => .null
  | some e => e.toJson

def bindingsToJson : List (String × Expr) → List Json
  | [] => []
  | (name, value) :: rest => .obj [("name", .str name), ("value", value.toJson)] :: bindingsToJson rest

end

/-- the parts of an expression or a binding, by name or by place -/
inductive Parts where
  | named (fields : List (String × Json))
  | listed (items : List Json)

namespace Parts

/-- the part with this place and this name, with the evidence that it is smaller -/
def get? (index : Nat) (name : String) (parts : Parts) : Option { v : Json // sizeOf v < sizeOf parts } :=
  match parts with
  | named fields => (Json.field? name fields).map fun v => ⟨v.1, by have := v.2; simp; omega⟩
  | listed items => (Json.item? index items).map fun v => ⟨v.1, by have := v.2; simp; omega⟩

/-- listed parts are neither more nor fewer than the parts there are; named ones may come with others -/
def fits? (count : Nat) : Parts → Option Unit
  | named _ => some ()
  | listed items => if items.length = count then some () else none

/-- only a named part may be left out -/
def mayOmit? : Parts → Option Unit
  | named _ => some ()
  | listed _ => none

end Parts

/-- the kinds of expressions as data names them -/
def kinds : List String :=
  ["number", "bool", "var", "unary", "binary", "assign", "seq", "if", "while", "do_while", "loop", "local", "lambda",
    "proc", "call"]

/-- the kind of an expression inside another one, by its name or its number -/
def innerKind? : Json → Option String
  | .str kind => some kind
  | .number (.ofNat index) 0 => kinds[index]?
  | _ => none

mutual

/-- the expression that a value inside another expression stands for -/
def ofInner? (value : Json) : Option Expr :=
  match value with
  | .obj fields => do
    let kind ← Json.field? "kind" fields
    ofParts? (← innerKind? kind.1) (.named fields)
  | .arr (kind :: items) => do
    ofParts? (← innerKind? kind) (.listed items)
  | _ => none
termination_by 3 * sizeOf value + 1
decreasing_by all_goals grind

/-- the expression of a kind with the given parts -/
def ofParts? (kind : String) (parts : Parts) : Option Expr :=
  match kind with
  | "number" => do
    parts.fits? 1
    return number (← (← parts.get? 0 "value").1.word?)
  | "bool" => do
    parts.fits? 1
    return bool (← (← parts.get? 0 "value").1.bool?)
  | "var" => do
    parts.fits? 1
    return var (← (← parts.get? 0 "name").1.text?)
  | "unary" => do
    parts.fits? 2
    let ⟨op, _⟩ ← parts.get? 0 "op"
    let ⟨operand, _⟩ ← parts.get? 1 "operand"
    return unary (← UnaryOp.ofName? (← op.tag?)) (← ofInner? operand)
  | "binary" => do
    parts.fits? 3
    let ⟨op, _⟩ ← parts.get? 0 "op"
    let ⟨lhs, _⟩ ← parts.get? 1 "lhs"
    let ⟨rhs, _⟩ ← parts.get? 2 "rhs"
    return binary (← BinaryOp.ofName? (← op.tag?)) (← ofInner? lhs) (← ofInner? rhs)
  | "assign" => do
    parts.fits? 2
    let ⟨name, _⟩ ← parts.get? 0 "name"
    let ⟨value, _⟩ ← parts.get? 1 "value"
    return assign (← name.text?) (← ofInner? value)
  | "seq" => do
    parts.fits? 1
    let ⟨items, _⟩ ← parts.get? 0 "items"
    return seq (← listOfJson? items)
  | "if" => do
    parts.fits? 3
    let ⟨cond, _⟩ ← parts.get? 0 "cond"
    let ⟨thenBranch, _⟩ ← parts.get? 1 "then_branch"
    match parts.get? 2 "else_branch" with
    | some ⟨elseBranch, _⟩ =>
      return ite (← ofInner? cond) (← ofInner? thenBranch) (← optionOfJson? elseBranch)
    | none =>
      parts.mayOmit?
      return ite (← ofInner? cond) (← ofInner? thenBranch) none
  | "while" => do
    parts.fits? 2
    let ⟨cond, _⟩ ← parts.get? 0 "cond"
    let ⟨body, _⟩ ← parts.get? 1 "body"
    return whileDo (← ofInner? cond) (← ofInner? body)
  | "do_while" => do
    parts.fits? 2
    let ⟨body, _⟩ ← parts.get? 0 "body"
    let ⟨cond, _⟩ ← parts.get? 1 "cond"
    return doWhile (← ofInner? body) (← ofInner? cond)
  | "loop" => do
    parts.fits? 2
    let ⟨count, _⟩ ← parts.get? 0 "count"
    let ⟨body, _⟩ ← parts.get? 1 "body"
    return loop (← ofInner? count) (← ofInner? body)
  | "local" => do
    parts.fits? 2
    let ⟨bindings, _⟩ ← parts.get? 0 "bindings"
    let ⟨body, _⟩ ← parts.get? 1 "body"
    return block (← bindingsOfJson? bindings) (← ofInner? body)
  | "lambda" => do
    parts.fits? 2
    let ⟨params, _⟩ ← parts.get? 0 "params"
    let ⟨body, _⟩ ← parts.get? 1 "body"
    return lambda (← params.texts?) (← ofInner? body)
  | "proc" => do
    parts.fits? 3
    let ⟨params, _⟩ ← parts.get? 0 "params"
    let ⟨locals, _⟩ ← parts.get? 1 "locals"
    let ⟨body, _⟩ ← parts.get? 2 "body"
    return proc (← params.texts?) (← locals.texts?) (← ofInner? body)
  | "call" => do
    parts.fits? 2
    let ⟨callee, _⟩ ← parts.get? 0 "callee"
    let ⟨args, _⟩ ← parts.get? 1 "args"
    return call (← ofInner? callee) (← listOfJson? args)
  | _ => none
termination_by 3 * sizeOf parts
decreasing_by all_goals omega

def optionOfJson? (value : Json) : Option (Option Expr) :=
  match value with
  | .null => some none
  | value => (ofInner? value).map some
termination_by 3 * sizeOf value + 2
decreasing_by all_goals omega

def listOfJson? (value : Json) : Option (List Expr) :=
  match value with
  | .arr items => listOfItems? items
  | _ => none
termination_by 3 * sizeOf value + 1
decreasing_by all_goals grind

def listOfItems? (items : List Json) : Option (List Expr) :=
  match items with
  | [] => some []
  | item :: rest => do
    let e ← ofInner? item
    return e :: (← listOfItems? rest)
termination_by 3 * sizeOf items + 1
decreasing_by all_goals grind

def bindingsOfJson? (value : Json) : Option (List (String × Expr)) :=
  match value with
  | .arr items => bindingsOfItems? items
  | _ => none
termination_by 3 * sizeOf value + 1
decreasing_by all_goals grind

def bindingsOfItems? (items : List Json) : Option (List (String × Expr)) :=
  match items with
  | [] => some []
  | .obj fields :: rest => do
    let b ← bindingOfParts? (.named fields)
    return b :: (← bindingsOfItems? rest)
  | .arr parts :: rest => do
    let b ← bindingOfParts? (.listed parts)
    return b :: (← bindingsOfItems? rest)
  | _ => none
termination_by 3 * sizeOf items + 1
decreasing_by all_goals grind

def bindingOfParts? (parts : Parts) : Option (String × Expr) := do
  parts.fits? 2
  let ⟨name, _⟩ ← parts.get? 0 "name"
  let ⟨value, _⟩ ← parts.get? 1 "value"
  return (← name.text?, ← ofInner? value)
termination_by 3 * sizeOf parts
decreasing_by all_goals omega

end

/-- the expression that a value stands for -/
def ofJson? : Json → Option Expr
  | .obj fields => do
    let kind ← Json.field? "kind" fields
    ofParts? (← kind.1.text?) (.named fields)
  | .arr (.str kind :: items) => ofParts? kind (.listed items)
  | _ => none

end Expr
end ThreeMachines

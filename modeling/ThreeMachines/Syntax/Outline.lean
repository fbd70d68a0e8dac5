/-
Expressions as an outline.

An outline is a tree of named records, lists and single words. Its text has one field or item a line, indented by four
blanks and followed by a comma. `Expr.outline` gives every kind of expression a record of its parts.
-/
import ThreeMachines.Text.Quoted
import ThreeMachines.Syntax.Expr

namespace ThreeMachines

inductive Outline where
  | word (text : String)
  | record (name : String) (fields : List (String × Outline))
  | list (items : List Outline)
  /-- a named wrapper around one outline -/
  | wrapped (name : String) (inner : Outline)

namespace Outline

mutual

/-- the text of an outline whose first line stands at the given indentation -/
def render (indent : String) : Outline → String
  | word text => text
  | record name fields =>
    name ++ " \x7b\n" ++ renderFields (indent ++ "    ") fields ++ indent ++ "\x7d"
  | list [] => "[]"
  | list items => "[\n" ++ renderItems (indent ++ "    ") items ++ indent ++ "]"
  | wrapped name inner =>
    name ++ "(\n" ++ indent ++ "    " ++ render (indent ++ "    ") inner ++ ",\n" ++ indent ++ ")"

def renderFields (indent : String) : List (String × Outline) → String
  | [] => ""
  | (name, value) :: rest =>
    indent ++ name ++ ": " ++ render indent value ++ ",\n" ++ renderFields indent rest

def renderItems (indent : String) : List Outline → String
  | [] => ""
  | item :: rest => indent ++ render indent item ++ ",\n" ++ renderItems indent rest

end

def text (o : Outline) : String := render "" o

def quoted (s : String) : Outline := word (Text.quoted s)

def quotedList (names : List String) : Outline := list (names.map quoted)

end Outline

/-- the operator's name in an outline -/
def UnaryOp.outline : UnaryOp → Outline
  | neg => .word "Neg"
  | not => .word "Not"

/-- the operator's name in an outline -/
def BinaryOp.outline (op : BinaryOp) : Outline := .word op.name.capitalize

namespace Expr

mutual

def outline : Expr → Outline
  | number value => .record "Number" [("value", .word (toString value.toInt))]
  | bool value => .record "Bool" [("value", .word (if value then "true" else "false"))]
  | var name => .record "Var" [("name", .quoted name)]
  | unary op operand => .record "Unary" [("op", op.outline), ("operand", operand.outline)]
  | binary op lhs rhs => .record "Binary" [("op", op.outline), ("lhs", lhs.outline), ("rhs", rhs.outline)]
  | assign name value => .record "Assign" [("name", .quoted name), ("value", value.outline)]
  | seq items => .record "Seq" [("items", .list (outlines items))]
  | ite cond thenBranch elseBranch =>
    .record "If" [("cond", cond.outline), ("then_branch", thenBranch.outline),
      ("else_branch", optionOutline elseBranch)]
  | whileDo cond body => .record "While" [("cond", cond.outline), ("body", body.outline)]
  | doWhile body cond => .record "DoWhile" [("body", body.outline), ("cond", cond.outline)]
  | loop count body => .record "Loop" [("count", count.outline), ("body", body.outline)]
  | block bindings body =>
    .record "Local" [("bindings", .list (bindingOutlines bindings)), ("body", body.outline)]
  | lambda params body => .record "Lambda" [("params", .quotedList params), ("body", body.outline)]
  | proc params locals body =>
    .record "Proc" [("params", .quotedList params), ("locals", .quotedList locals), ("body", body.outline)]
  | call callee args => .record "Call" [("callee", callee.outline), ("args", .list (outlines args))]

def outlines : List Expr → List Outline
  | [] => []
  | e :: es => e.outline :: outlines es

def optionOutline : Option Expr → Outline
  | none => .word "None"
  | some e => .wrapped "Some" e.outline

def bindingOutlines : List (String × Expr) → List Outline
  | [] => []
  | (name, value) :: rest =>
    .record "Binding" [("name", .quoted name), ("value", value.outline)] :: bindingOutlines rest

end

end Expr
end ThreeMachines

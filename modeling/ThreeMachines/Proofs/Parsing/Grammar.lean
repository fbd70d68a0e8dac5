/-
The grammar of the expression language, on tokens.

A derivation relates the tokens of a phrase to what they spell. The productions are

  program   := expr {`;` expr}
  expr      := params `->` expr  |  NAME `:=` expr  |  form  |  level 1
  params    := NAME  |  `(` [NAME {`,` NAME}] `)`
  form      := `local` NAME `:=` expr {`,` NAME `:=` expr} `in` expr
             | `if` expr `then` expr [`else` expr]
             | `while` expr `do` expr  |  `do` expr `while` expr  |  `loop` expr `do` expr
             | `fun` NAME params `->` expr
             | `proc` `(` [NAME {`,` NAME}] `)` [`local` NAME {`,` NAME}] `->` expr
  level n   := level (n + 1) {operator of strength n, level (n + 1)}       for n from 1 to 6
  level 7   := (`-` | `not`) level 7  |  operand
  operand   := primary {`(` [expr {`,` expr}] `)`}
  primary   := NUMBER  |  `true`  |  `false`  |  NAME  |  `(` program `)`  |  `{` program `}`  |  form

with the operators `or`, `and`, equality, order, sums and products as the levels from 1 to 6, grouped from the left.
Nothing here says which derivation of a text is meant: the `else` of two nested `if`s, the body of a function literal
and the last part of a form may end at several places.
-/
import Mathlib.Order.Nat
import ThreeMachines.Syntax.Parse

namespace ThreeMachines.Grammar

/-! ## Productions -/

section
variable {α : Type}

/-- one or more items with `sep` between them -/
inductive SeparatedBy (sep : Token) (Item : List Token → α → Prop) : List Token → List α → Prop where
  | one {u : List Token} {a : α} (item : Item u a) : SeparatedBy sep Item u [a]
  | more {u v : List Token} {a : α} {as : List α} (item : Item u a) (later : SeparatedBy sep Item v as) :
      SeparatedBy sep Item (u ++ sep :: v) (a :: as)

/-- items with commas between them in parentheses, possibly none -/
inductive Parenthesised (Item : List Token → α → Prop) : List Token → List α → Prop where
  | none : Parenthesised Item [.mark .leftParen, .mark .rightParen] []
  | some {u : List Token} {as : List α} (items : SeparatedBy (.mark .comma) Item u as) :
      Parenthesised Item (.mark .leftParen :: u ++ [.mark .rightParen]) as

end

inductive Name : List Token → String → Prop where
  | ident (name : String) : Name [.ident name] name

/-- parameters of a function literal: a name, or names in parentheses -/
inductive Parameters : List Token → List String → Prop where
  | single {u : List Token} {name : String} (h : Name u name) : Parameters u [name]
  | list {u : List Token} {names : List String} (h : Parenthesised Name u names) : Parameters u names

/-- the names after the word `local` of a procedure, if it is there -/
inductive Locals : List Token → List String → Prop where
  | none : Locals [] []
  | some {u : List Token} {names : List String} (h : SeparatedBy (.mark .comma) Name u names) :
      Locals (.keyword .localWord :: u) names

/-- the operators of each strength -/
def operatorsAt : Nat → List (Token × BinaryOp)
  | 1 => [(.keyword .orWord, .or)]
  | 2 => [(.keyword .andWord, .and)]
  | 3 => [(.mark .equalEqual, .eq), (.mark .bangEqual, .ne)]
  | 4 => [(.mark .less, .lt), (.mark .greater, .gt), (.mark .lessEqual, .le), (.mark .greaterEqual, .ge)]
  | 5 => [(.mark .plus, .add), (.mark .minus, .sub)]
  | 6 => [(.mark .star, .mul), (.mark .slash, .div)]
  | _ => []

mutual

inductive Expression : List Token → Expr → Prop where
  | lambda {u v : List Token} {params : List String} {body : Expr} (head : Parameters u params)
      (h : Expression v body) : Expression (u ++ .mark .arrow :: v) (.lambda params body)
  | assign {u v : List Token} {name : String} {value : Expr} (head : Name u name) (h : Expression v value) :
      Expression (u ++ .mark .assign :: v) (.assign name value)
  | form {u : List Token} {e : Expr} (h : Form u e) : Expression u e
  | operation {u : List Token} {e : Expr} (h : Level 1 u e) : Expression u e

/-- the phrases that a keyword starts -/
inductive Form : List Token → Expr → Prop where
  | block {u v : List Token} {bound : List (String × Expr)} {body : Expr}
      (bindings : SeparatedBy (.mark .comma) Binding u bound) (h : Expression v body) :
      Form (.keyword .localWord :: u ++ .keyword .inWord :: v) (.block bound body)
  | ifThen {u v : List Token} {cond thenBranch : Expr} (h₁ : Expression u cond) (h₂ : Expression v thenBranch) :
      Form (.keyword .ifWord :: u ++ .keyword .thenWord :: v) (.ite cond thenBranch none)
  | ifThenElse {u v w : List Token} {cond thenBranch elseBranch : Expr} (h₁ : Expression u cond)
      (h₂ : Expression v thenBranch) (h₃ : Expression w elseBranch) :
      Form (.keyword .ifWord :: u ++ .keyword .thenWord :: v ++ .keyword .elseWord :: w)
        (.ite cond thenBranch (some elseBranch))
  | whileDo {u v : List Token} {cond body : Expr} (h₁ : Expression u cond) (h₂ : Expression v body) :
      Form (.keyword .whileWord :: u ++ .keyword .doWord :: v) (.whileDo cond body)
  | doWhile {u v : List Token} {body cond : Expr} (h₁ : Expression u body) (h₂ : Expression v cond) :
      Form (.keyword .doWord :: u ++ .keyword .whileWord :: v) (.doWhile body cond)
  | loop {u v : List Token} {count body : Expr} (h₁ : Expression u count) (h₂ : Expression v body) :
      Form (.keyword .loopWord :: u ++ .keyword .doWord :: v) (.loop count body)
  | function {u v w : List Token} {name : String} {params : List String} {body : Expr} (head : Name u name)
      (parameters : Parameters v params) (h : Expression w body) :
      Form (.keyword .funWord :: u ++ v ++ .mark .arrow :: w) (.namedFunction name params body)
  | procedure {u v w : List Token} {params locals : List String} {body : Expr}
      (parameters : Parenthesised Name u params) (names : Locals v locals) (h : Expression w body) :
      Form (.keyword .procWord :: u ++ v ++ .mark .arrow :: w) (.proc params locals body)

/-- a name and the value that a block binds to it -/
inductive Binding : List Token → String × Expr → Prop where
  | assign {u v : List Token} {name : String} {value : Expr} (head : Name u name) (h : Expression v value) :
      Binding (u ++ .mark .assign :: v) (name, value)

/-- operands and operators of at least the given strength -/
inductive Level : Nat → List Token → Expr → Prop where
  | unary {u : List Token} {e : Expr} (h : Unary u e) : Level 7 u e
  | weaker {n : Nat} {u : List Token} {e : Expr} (h : Level (n + 1) u e) : Level n u e
  | binary {n : Nat} {u v : List Token} {t : Token} {op : BinaryOp} {lhs rhs : Expr} (left : Level n u lhs)
      (operator : (t, op) ∈ operatorsAt n) (right : Level (n + 1) v rhs) :
      Level n (u ++ t :: v) (.binary op lhs rhs)

inductive Unary : List Token → Expr → Prop where
  | neg {u : List Token} {e : Expr} (h : Unary u e) : Unary (.mark .minus :: u) (.unary .neg e)
  | not {u : List Token} {e : Expr} (h : Unary u e) : Unary (.keyword .notWord :: u) (.unary .not e)
  | operand {u : List Token} {e : Expr} (h : Operand u e) : Unary u e

/-- an operand and the calls that follow it -/
inductive Operand : List Token → Expr → Prop where
  | primary {u : List Token} {e : Expr} (h : Primary u e) : Operand u e
  | call {u v : List Token} {callee : Expr} {args : List Expr} (h : Operand u callee)
      (arguments : Parenthesised Expression v args) : Operand (u ++ v) (.call callee args)

inductive Primary : List Token → Expr → Prop where
  | number (value : Int64) : Primary [.number value] (.number value)
  | true : Primary [.keyword .trueWord] (.bool true)
  | false : Primary [.keyword .falseWord] (.bool false)
  | name {u : List Token} {name : String} (h : Name u name) : Primary u (.var name)
  | paren {u : List Token} {items : List Expr} (h : SeparatedBy (.mark .semicolon) Expression u items) :
      Primary (.mark .leftParen :: u ++ [.mark .rightParen]) (.ofItems items)
  | brace {u : List Token} {items : List Expr} (h : SeparatedBy (.mark .semicolon) Expression u items) :
      Primary (.mark .leftBrace :: u ++ [.mark .rightBrace]) (.ofItems items)
  | form {u : List Token} {e : Expr} (h : Form u e) : Primary u e

end

abbrev Names : List Token → List String → Prop := SeparatedBy (.mark .comma) Name

abbrev Bindings : List Token → List (String × Expr) → Prop := SeparatedBy (.mark .comma) Binding

abbrev Sequence : List Token → List Expr → Prop := SeparatedBy (.mark .semicolon) Expression

/-- a whole text: one item stands for itself, several for the sequence of them -/
inductive Program : List Token → Expr → Prop where
  | items {u : List Token} {items : List Expr} (h : Sequence u items) : Program u (.ofItems items)

theorem mem_operatorsAt {t : Token} {op : BinaryOp} {n : Nat} :
    (t, op) ∈ operatorsAt n ↔ Parse.operator? t = some (op, n) := by
  constructor
  · intro h
    unfold operatorsAt at h
    split at h <;> grind [Parse.operator?]
  · intro h
    unfold Parse.operator? at h
    split at h <;> cases h <;> simp [operatorsAt]

theorem strength_le {t : Token} {op : BinaryOp} {n : Nat} (h : (t, op) ∈ operatorsAt n) : n ≤ 6 := by
  unfold operatorsAt at h
  split at h
  case h_7 => cases h
  all_goals decide

/-- operators of at least some strength are of at least every lower one -/
theorem Level.weaken {m n : Nat} {u : List Token} {e : Expr} (h : Level m u e) (hn : n ≤ m) : Level n u e := by
  induction m, hn using Nat.le_induction with
  | base => exact h
  | succ m _ ih => exact ih h.weaker

end ThreeMachines.Grammar

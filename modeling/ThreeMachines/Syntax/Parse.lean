/-
From tokens to an expression.

Binary operators are grouped by strength, equal strength from the left. The forms that start with a keyword, function
literals and assignments take the longest expression to their right as their last part, so only `;`, a comma, a closing
bracket or one of the words `in`, `then`, `else`, `do`, `while` ends them. `Expr.parse` reads a whole text: a sequence
of expressions separated by `;` and nothing after it.

A reader gets the tokens that are left and gives the ones it leaves, with the evidence that they are fewer (`Parsed`) or
not more (`Continued`). That evidence is what makes the mutual recursion end: `8 * tokens + level` goes down, where the
level orders the readers that call each other on the same tokens. The token `eof` is never taken.
-/
import ThreeMachines.Syntax.Scan
import ThreeMachines.Syntax.Expr

namespace ThreeMachines

/-- what is read off the front of `ts`, and the strictly fewer tokens that are left -/
abbrev Parsed (α : Type) (ts : List Located) : Type :=
  Except SyntaxError { r : α × List Located // r.2.length < ts.length }

/-- what is read off the front of `ts`, and the tokens that are left -/
abbrev Continued (α : Type) (ts : List Located) : Type :=
  Except SyntaxError { r : α × List Located // r.2.length ≤ ts.length }

namespace Parse

/-- the report that the first token is not the expected one -/
def unexpected (expected : Expected) : List Located → SyntaxError
  | [] => ⟨.unexpectedEnd expected, default⟩
  | ⟨.eof, span⟩ :: _ => ⟨.unexpectedEnd expected, span⟩
  | ⟨token, span⟩ :: _ => ⟨.unexpectedToken expected token, span⟩

/-- take this very token -/
def expect (token : Token) (ts : List Located) : Parsed Unit ts :=
  match ts with
  | [] => .error (unexpected (.token token) [])
  | t :: rest =>
    if t.token = token then .ok ⟨((), rest), by simp⟩ else .error (unexpected (.token token) (t :: rest))

def identifier (ts : List Located) : Parsed String ts :=
  match ts with
  | ⟨.ident name, _⟩ :: rest => .ok ⟨(name, rest), by simp⟩
  | ts => .error (unexpected .identifier ts)

/-- one or more names separated by commas -/
def identifiers (ts : List Located) : Parsed (List String) ts := do
  let ⟨(name, rest), h⟩ ← identifier ts
  match rest, h with
  | ⟨.mark .comma, _⟩ :: more, h =>
    let ⟨(names, left), h'⟩ ← identifiers more
    return ⟨(name :: names, left), by grind⟩
  | left, h => return ⟨([name], left), h⟩
termination_by ts.length
decreasing_by grind

/-- `(a, b, c)`, possibly without a name -/
def parameters (ts : List Located) : Parsed (List String) ts := do
  let ⟨(_, rest), h⟩ ← expect (.mark .leftParen) ts
  match rest, h with
  | ⟨.mark .rightParen, _⟩ :: left, h => return ⟨([], left), by grind⟩
  | rest, h =>
    let ⟨(names, rest), h'⟩ ← identifiers rest
    let ⟨(_, left), h''⟩ ← expect (.mark .rightParen) rest
    return ⟨(names, left), by grind⟩

/-- names separated by commas, then `) ->` -/
def namesThenArrow : List Located → Bool
  | ⟨.ident _, _⟩ :: ⟨.mark .comma, _⟩ :: rest => namesThenArrow rest
  | ⟨.ident _, _⟩ :: ⟨.mark .rightParen, _⟩ :: ⟨.mark .arrow, _⟩ :: _ => true
  | _ => false

/-- whether an opened parenthesis starts the parameters of a lambda -/
def lambdaAhead : List Located → Bool
  | ⟨.mark .rightParen, _⟩ :: ⟨.mark .arrow, _⟩ :: _ => true
  | rest => namesThenArrow rest

/-- parameters of a named function: a list in parentheses or a single name -/
def functionParameters (ts : List Located) : Parsed (List String) ts :=
  match ts with
  | ⟨.mark .leftParen, span⟩ :: rest => parameters (⟨.mark .leftParen, span⟩ :: rest)
  | ts => do
    let ⟨(name, left), h⟩ ← identifier ts
    return ⟨([name], left), h⟩

/-- the names after the word `local` of a procedure, if it is there -/
def procedureLocals (ts : List Located) : Continued (List String) ts :=
  match ts with
  | ⟨.keyword .localWord, _⟩ :: rest => do
    let ⟨(names, left), h⟩ ← identifiers rest
    return ⟨(names, left), by grind⟩
  | ts => return ⟨([], ts), Nat.le_refl _⟩

/-- the operator that a token stands for, and its strength -/
def operator? : Token → Option (BinaryOp × Nat)
  | .keyword .orWord => some (.or, 1)
  | .keyword .andWord => some (.and, 2)
  | .mark .equalEqual => some (.eq, 3)
  | .mark .bangEqual => some (.ne, 3)
  | .mark .less => some (.lt, 4)
  | .mark .greater => some (.gt, 4)
  | .mark .lessEqual => some (.le, 4)
  | .mark .greaterEqual => some (.ge, 4)
  | .mark .plus => some (.add, 5)
  | .mark .minus => some (.sub, 5)
  | .mark .star => some (.mul, 6)
  | .mark .slash => some (.div, 6)
  | _ => none

/-- the forms that a keyword starts -/
inductive Form where
  | block | ite | whileDo | doWhile | loop | function | procedure

/-- the form that a keyword starts -/
def form? : Keyword → Option Form
  | .localWord => some .block
  | .ifWord => some .ite
  | .whileWord => some .whileDo
  | .doWord => some .doWhile
  | .loopWord => some .loop
  | .funWord => some .function
  | .procWord => some .procedure
  | _ => none

mutual

/-- expressions separated by `;` -/
def items (ts : List Located) : Parsed (List Expr) ts := do
  let ⟨(item, rest), h⟩ ← expression ts
  match rest, h with
  | ⟨.mark .semicolon, _⟩ :: more, h =>
    let ⟨(later, left), h'⟩ ← items more
    return ⟨(item :: later, left), by grind⟩
  | left, h => return ⟨([item], left), h⟩
termination_by 8 * ts.length + 6
decreasing_by all_goals grind

/-- expressions separated by commas -/
def expressions (ts : List Located) : Parsed (List Expr) ts := do
  let ⟨(item, rest), h⟩ ← expression ts
  match rest, h with
  | ⟨.mark .comma, _⟩ :: more, h =>
    let ⟨(later, left), h'⟩ ← expressions more
    return ⟨(item :: later, left), by grind⟩
  | left, h => return ⟨([item], left), h⟩
termination_by 8 * ts.length + 6
decreasing_by all_goals grind

/-- pairs `name := value` separated by commas -/
def bindings (ts : List Located) : Parsed (List (String × Expr)) ts := do
  let ⟨(name, rest), h₁⟩ ← identifier ts
  let ⟨(_, rest), h₂⟩ ← expect (.mark .assign) rest
  let ⟨(value, rest), h₃⟩ ← expression rest
  match rest, h₃ with
  | ⟨.mark .comma, _⟩ :: more, h₃ =>
    let ⟨(later, left), h₄⟩ ← bindings more
    return ⟨((name, value) :: later, left), by grind⟩
  | left, h₃ => return ⟨([(name, value)], left), by grind⟩
termination_by 8 * ts.length + 6
decreasing_by all_goals grind

/-- the arguments of a call after its opening parenthesis, up to the closing one -/
def arguments (ts : List Located) : Parsed (List Expr) ts :=
  match ts with
  | ⟨.mark .rightParen, _⟩ :: left => return ⟨([], left), by grind⟩
  | ts => do
    let ⟨(args, rest), h₁⟩ ← expressions ts
    let ⟨(_, left), h₂⟩ ← expect (.mark .rightParen) rest
    return ⟨(args, left), by grind⟩
termination_by 8 * ts.length + 7
decreasing_by all_goals grind

/-- an expression: a form, a function literal, an assignment, or operators and operands -/
def expression (ts : List Located) : Parsed Expr ts :=
  match ts with
  | ⟨.keyword word, span⟩ :: rest =>
    match form? word with
    | some f => do
      let ⟨(e, left), h⟩ ← form f rest
      return ⟨(e, left), by grind⟩
    | none => binary 0 (⟨.keyword word, span⟩ :: rest)
  | ⟨.ident name, _⟩ :: ⟨.mark .arrow, _⟩ :: rest => do
    let ⟨(body, left), h⟩ ← expression rest
    return ⟨(.lambda [name] body, left), by grind⟩
  | ⟨.ident name, _⟩ :: ⟨.mark .assign, _⟩ :: rest => do
    let ⟨(value, left), h⟩ ← expression rest
    return ⟨(.assign name value, left), by grind⟩
  | ⟨.mark .leftParen, span⟩ :: rest =>
    if lambdaAhead rest then do
      let ⟨(params, rest₁), h₁⟩ ← parameters (⟨.mark .leftParen, span⟩ :: rest)
      let ⟨(_, rest₂), h₂⟩ ← expect (.mark .arrow) rest₁
      let ⟨(body, left), h₃⟩ ← expression rest₂
      return ⟨(.lambda params body, left), by grind⟩
    else binary 0 (⟨.mark .leftParen, span⟩ :: rest)
  | ts => binary 0 ts
termination_by 8 * ts.length + 5
decreasing_by all_goals grind

/-- what follows the keyword of a form -/
def form (f : Form) (ts : List Located) : Parsed Expr ts :=
  match f with
  | .block => do
    let ⟨(bound, rest₁), h₁⟩ ← bindings ts
    let ⟨(_, rest₂), h₂⟩ ← expect (.keyword .inWord) rest₁
    let ⟨(body, left), h₃⟩ ← expression rest₂
    return ⟨(.block bound body, left), by grind⟩
  | .ite => do
    let ⟨(cond, rest₁), h₁⟩ ← expression ts
    let ⟨(_, rest₂), h₂⟩ ← expect (.keyword .thenWord) rest₁
    let ⟨(thenBranch, rest₃), h₃⟩ ← expression rest₂
    match rest₃, h₃ with
    | ⟨.keyword .elseWord, _⟩ :: more, h₃ =>
      let ⟨(elseBranch, left), h₄⟩ ← expression more
      return ⟨(.ite cond thenBranch (some elseBranch), left), by grind⟩
    | left, h₃ => return ⟨(.ite cond thenBranch none, left), by grind⟩
  | .whileDo => do
    let ⟨(cond, rest₁), h₁⟩ ← expression ts
    let ⟨(_, rest₂), h₂⟩ ← expect (.keyword .doWord) rest₁
    let ⟨(body, left), h₃⟩ ← expression rest₂
    return ⟨(.whileDo cond body, left), by grind⟩
  | .doWhile => do
    let ⟨(body, rest₁), h₁⟩ ← expression ts
    let ⟨(_, rest₂), h₂⟩ ← expect (.keyword .whileWord) rest₁
    let ⟨(cond, left), h₃⟩ ← expression rest₂
    return ⟨(.doWhile body cond, left), by grind⟩
  | .loop => do
    let ⟨(count, rest₁), h₁⟩ ← expression ts
    let ⟨(_, rest₂), h₂⟩ ← expect (.keyword .doWord) rest₁
    let ⟨(body, left), h₃⟩ ← expression rest₂
    return ⟨(.loop count body, left), by grind⟩
  | .function => do
    let ⟨(name, rest₁), h₁⟩ ← identifier ts
    let ⟨(params, rest₂), h₂⟩ ← functionParameters rest₁
    let ⟨(_, rest₃), h₃⟩ ← expect (.mark .arrow) rest₂
    let ⟨(body, left), h₄⟩ ← expression rest₃
    return ⟨(.namedFunction name params body, left), by grind⟩
  | .procedure => do
    let ⟨(params, rest₁), h₁⟩ ← parameters ts
    let ⟨(locals, rest₂), h₂⟩ ← procedureLocals rest₁
    let ⟨(_, rest₃), h₃⟩ ← expect (.mark .arrow) rest₂
    let ⟨(body, left), h₄⟩ ← expression rest₃
    return ⟨(.proc params locals body, left), by grind⟩
termination_by 8 * ts.length + 7
decreasing_by all_goals grind

/-- an operand and the operators stronger than `floor` that follow it -/
def binary (floor : Nat) (ts : List Located) : Parsed Expr ts := do
  let ⟨(lhs, rest), h₁⟩ ← unary ts
  let ⟨(e, left), h₂⟩ ← operators floor lhs rest
  return ⟨(e, left), by grind⟩
termination_by 8 * ts.length + 4
decreasing_by all_goals grind

/-- the operators stronger than `floor` after the operand `lhs`, with their right operands -/
def operators (floor : Nat) (lhs : Expr) (ts : List Located) : Continued Expr ts :=
  match ts with
  | [] => return ⟨(lhs, []), Nat.le_refl _⟩
  | t :: rest =>
    match operator? t.token with
    | some (op, strength) =>
      if floor < strength then do
        let ⟨(rhs, rest₁), h₁⟩ ← binary strength rest
        let ⟨(e, left), h₂⟩ ← operators floor (.binary op lhs rhs) rest₁
        return ⟨(e, left), by grind⟩
      else return ⟨(lhs, t :: rest), Nat.le_refl _⟩
    | none => return ⟨(lhs, t :: rest), Nat.le_refl _⟩
termination_by 8 * ts.length
decreasing_by all_goals grind

/-- prefix operators, then an operand with its calls -/
def unary (ts : List Located) : Parsed Expr ts :=
  match ts with
  | ⟨.mark .minus, _⟩ :: rest => do
    let ⟨(operand, left), h⟩ ← unary rest
    return ⟨(.unary .neg operand, left), by grind⟩
  | ⟨.keyword .notWord, _⟩ :: rest => do
    let ⟨(operand, left), h⟩ ← unary rest
    return ⟨(.unary .not operand, left), by grind⟩
  | ts => do
    let ⟨(head, rest), h₁⟩ ← primary ts
    let ⟨(e, left), h₂⟩ ← calls head rest
    return ⟨(e, left), by grind⟩
termination_by 8 * ts.length + 3
decreasing_by all_goals grind

/-- the calls that follow the operand `callee` -/
def calls (callee : Expr) (ts : List Located) : Continued Expr ts :=
  match ts with
  | ⟨.mark .leftParen, _⟩ :: rest => do
    let ⟨(args, rest₁), h₁⟩ ← arguments rest
    let ⟨(e, left), h₂⟩ ← calls (.call callee args) rest₁
    return ⟨(e, left), by grind⟩
  | ts => return ⟨(callee, ts), Nat.le_refl _⟩
termination_by 8 * ts.length
decreasing_by all_goals grind

/-- an operand: a literal, a name, a sequence in brackets or a form -/
def primary (ts : List Located) : Parsed Expr ts :=
  match ts with
  | ⟨.number value, _⟩ :: left => return ⟨(.number value, left), by grind⟩
  | ⟨.keyword .trueWord, _⟩ :: left => return ⟨(.bool true, left), by grind⟩
  | ⟨.keyword .falseWord, _⟩ :: left => return ⟨(.bool false, left), by grind⟩
  | ⟨.ident name, _⟩ :: left => return ⟨(.var name, left), by grind⟩
  | ⟨.mark .leftParen, _⟩ :: rest => do
    let ⟨(inner, rest₁), h₁⟩ ← items rest
    let ⟨(_, left), h₂⟩ ← expect (.mark .rightParen) rest₁
    return ⟨(.ofItems inner, left), by grind⟩
  | ⟨.mark .leftBrace, _⟩ :: rest => do
    let ⟨(inner, rest₁), h₁⟩ ← items rest
    let ⟨(_, left), h₂⟩ ← expect (.mark .rightBrace) rest₁
    return ⟨(.ofItems inner, left), by grind⟩
  | ⟨.keyword word, span⟩ :: rest =>
    match form? word with
    | some f => do
      let ⟨(e, left), h⟩ ← form f rest
      return ⟨(e, left), by grind⟩
    | none => .error (unexpected .expression (⟨.keyword word, span⟩ :: rest))
  | ts => .error (unexpected .expression ts)
termination_by 8 * ts.length + 2
decreasing_by all_goals grind

end

/-- a whole list of tokens: a sequence of expressions up to the end -/
def program (ts : List Located) : Except SyntaxError Expr := do
  let ⟨(inner, rest), _⟩ ← items ts
  match rest with
  | ⟨.eof, _⟩ :: _ => return .ofItems inner
  | rest => throw (unexpected .semicolonOrEnd rest)

end Parse

/-- the expression that a text spells -/
def Expr.parse (text : String) : Except SyntaxError Expr := do
  let tokens ← Token.scan text
  Parse.program tokens

end ThreeMachines

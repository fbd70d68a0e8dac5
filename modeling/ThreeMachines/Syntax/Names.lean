/-
Names that an expression uses, names that it assigns, and names that a function captures.

`Expr.uses` and `Expr.assigns` list the free occurrences of names, of assignment targets only for the latter: a local
block binds its names in its values and in its body, a lambda its parameters, a procedure its parameters and locals.
`Expr.freeNames`, `Expr.assignedNames` and `captures` list each name once, in the order of their characters' code
points, so that whatever is numbered by them gets the same numbers on every run.
-/
import ThreeMachines.Syntax.Expr

namespace ThreeMachines

/-- put a name at its place in an ordered list, unless it is there already -/
def insertName (name : String) : List String → List String
  | [] => [name]
  | other :: rest =>
    if name = other then other :: rest
    else if name < other then name :: other :: rest
    else other :: insertName name rest

/-- the names of a list, each once and in order -/
def orderNames (names : List String) : List String := names.foldr insertName []

/-- the names that are not bound -/
def unbound (bound names : List String) : List String := names.filter fun name => !bound.contains name

namespace Expr

mutual

/-- free occurrences of names, assignment targets included -/
def uses : Expr → List String
  | number _ | bool _ => []
  | var name => [name]
  | unary _ operand => operand.uses
  | binary _ lhs rhs => lhs.uses ++ rhs.uses
  | assign name value => name :: value.uses
  | seq items => listUses items
  | ite cond thenBranch elseBranch => cond.uses ++ thenBranch.uses ++ optionUses elseBranch
  | whileDo cond body => cond.uses ++ body.uses
  | doWhile body cond => cond.uses ++ body.uses
  | loop count body => count.uses ++ body.uses
  | block bindings body => unbound (bindings.map Prod.fst) (bindingUses bindings ++ body.uses)
  | lambda params body => unbound params body.uses
  | proc params locals body => unbound (params ++ locals) body.uses
  | call callee args => callee.uses ++ listUses args

def listUses : List Expr → List String
  | [] => []
  | e :: es => e.uses ++ listUses es

def optionUses : Option Expr → List String
  | none => []
  | some e => e.uses

def bindingUses : List (String × Expr) → List String
  | [] => []
  | (_, value) :: rest => value.uses ++ bindingUses rest

end

mutual

/-- free occurrences of assignment targets -/
def assigns : Expr → List String
  | number _ | bool _ | var _ => []
  | unary _ operand => operand.assigns
  | binary _ lhs rhs => lhs.assigns ++ rhs.assigns
  | assign name value => name :: value.assigns
  | seq items => listAssigns items
  | ite cond thenBranch elseBranch => cond.assigns ++ thenBranch.assigns ++ optionAssigns elseBranch
  | whileDo cond body => cond.assigns ++ body.assigns
  | doWhile body cond => cond.assigns ++ body.assigns
  | loop count body => count.assigns ++ body.assigns
  | block bindings body => unbound (bindings.map Prod.fst) (bindingAssigns bindings ++ body.assigns)
  | lambda params body => unbound params body.assigns
  | proc params locals body => unbound (params ++ locals) body.assigns
  | call callee args => callee.assigns ++ listAssigns args

def listAssigns : List Expr → List String
  | [] => []
  | e :: es => e.assigns ++ listAssigns es

def optionAssigns : Option Expr → List String
  | none => []
  | some e => e.assigns

def bindingAssigns : List (String × Expr) → List String
  | [] => []
  | (_, value) :: rest => value.assigns ++ bindingAssigns rest

end

/-- the names that the expression uses and does not bind -/
def freeNames (e : Expr) : List String := orderNames e.uses

/-- the free names that the expression assigns somewhere -/
def assignedNames (e : Expr) : List String := orderNames e.assigns

/-- the names of a function body that its parameters do not bind -/
def captures (params : List String) (body : Expr) : List String := unbound params body.freeNames

/-- the names that the expression reads or writes and assigns somewhere: its global variables -/
def globalNames (e : Expr) : List String := e.freeNames.filter fun name => e.assignedNames.contains name

end Expr
end ThreeMachines

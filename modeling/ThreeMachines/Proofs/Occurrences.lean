/-
Where names occur in the parts of an expression.

What occurs free in a part occurs free in the whole, unless the whole binds it (`mem_uses`, `mem_assigns`). So an
expression that binds no names passes on to its parts whatever holds of all its names.
-/
import ThreeMachines.Proofs.Expressions
import ThreeMachines.Syntax.Names

namespace ThreeMachines

variable {x : String}

theorem mem_unbound {bound names : List String} : x ∈ unbound bound names ↔ x ∉ bound ∧ x ∈ names := by
  simp [unbound, and_comm]

theorem mem_insertName {name : String} {names : List String} : x ∈ insertName name names ↔ x = name ∨ x ∈ names := by
  induction names with
  | nil => simp [insertName]
  | cons other rest ih =>
    rw [insertName]
    by_cases heq : name = other
    · simp [heq]
    · rw [if_neg heq]
      split <;> simp [ih, or_left_comm]

theorem mem_orderNames {names : List String} : x ∈ orderNames names ↔ x ∈ names := by
  rw [orderNames]
  induction names with
  | nil => simp
  | cons name names ih => rw [List.foldr_cons, mem_insertName, ih, List.mem_cons]

namespace Expr

theorem mem_freeNames {e : Expr} : x ∈ e.freeNames ↔ x ∈ e.uses := mem_orderNames

theorem mem_captures {params : List String} {body : Expr} : x ∈ body.captures params ↔ x ∉ params ∧ x ∈ body.uses := by
  rw [captures, mem_unbound, mem_freeNames]

/-- the names that the expression binds in its parts -/
def binders : Expr → List String
  | block bindings _ => bindings.map Prod.fst
  | lambda params _ => params
  | proc params locals _ => params ++ locals
  | _ => []

theorem listUses_eq (items : List Expr) : listUses items = items.flatMap uses := by
  induction items with
  | nil => rfl
  | cons e es ih => rw [listUses, ih, List.flatMap_cons]

theorem bindingUses_eq (bindings : List (String × Expr)) :
    bindingUses bindings = bindings.flatMap fun b => b.2.uses := by
  induction bindings with
  | nil => rfl
  | cons b rest ih => rw [bindingUses, ih, List.flatMap_cons]

theorem listAssigns_eq (items : List Expr) : listAssigns items = items.flatMap assigns := by
  induction items with
  | nil => rfl
  | cons e es ih => rw [listAssigns, ih, List.flatMap_cons]

theorem bindingAssigns_eq (bindings : List (String × Expr)) :
    bindingAssigns bindings = bindings.flatMap fun b => b.2.assigns := by
  induction bindings with
  | nil => rfl
  | cons b rest ih => rw [bindingAssigns, ih, List.flatMap_cons]

/-- a name occurs free in an expression at its root, or in a part without being bound -/
theorem mem_uses {e : Expr} :
    x ∈ e.uses ↔ (e = var x ∨ ∃ value, e = assign x value) ∨ x ∉ e.binders ∧ ∃ part ∈ e.children, x ∈ part.uses := by
  cases e with
  | ite cond thenBranch elseBranch => cases elseBranch <;> simp [uses, optionUses, children, binders]
  | seq items => simp [uses, listUses_eq, children, binders]
  | block bindings body => simp [uses, bindingUses_eq, mem_unbound, children, binders, -Prod.exists, or_comm]
  | call callee args => simp [uses, listUses_eq, children, binders]
  | var name => simp [uses, children, eq_comm]
  | assign name value => simp [uses, children, binders, eq_comm]
  | _ => simp [uses, mem_unbound, children, binders, or_comm]

theorem mem_assigns {e : Expr} :
    x ∈ e.assigns ↔ (∃ value, e = assign x value) ∨ x ∉ e.binders ∧ ∃ part ∈ e.children, x ∈ part.assigns := by
  cases e with
  | ite cond thenBranch elseBranch => cases elseBranch <;> simp [assigns, optionAssigns, children, binders]
  | seq items => simp [assigns, listAssigns_eq, children, binders]
  | block bindings body => simp [assigns, bindingAssigns_eq, mem_unbound, children, binders, -Prod.exists, or_comm]
  | call callee args => simp [assigns, listAssigns_eq, children, binders]
  | assign name value => simp [assigns, children, binders, eq_comm]
  | _ => simp [assigns, mem_unbound, children, binders, or_comm]

theorem uses_child {e part : Expr} (h : part ∈ e.children) (hx : x ∈ part.uses) (hb : x ∉ e.binders) : x ∈ e.uses :=
  mem_uses.2 (.inr ⟨hb, part, h, hx⟩)

theorem assigns_child {e part : Expr} (h : part ∈ e.children) (hx : x ∈ part.assigns) (hb : x ∉ e.binders) :
    x ∈ e.assigns :=
  mem_assigns.2 (.inr ⟨hb, part, h, hx⟩)

/-- what is assigned is used -/
theorem uses_of_assigns {e : Expr} (h : x ∈ e.assigns) : x ∈ e.uses := by
  induction e using byParts with
  | step e ih =>
    rcases mem_assigns.1 h with ⟨value, rfl⟩ | ⟨hb, part, hp, hx⟩
    · exact mem_uses.2 (.inl (.inr ⟨value, rfl⟩))
    · exact uses_child hp (ih part hp hx) hb

end Expr
end ThreeMachines

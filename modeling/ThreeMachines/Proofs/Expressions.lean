/-
The parts of an expression.

- `Expr.children` are the expressions directly inside an expression, and `Expr.byParts` is induction over them.
- `Expr.everywhere`: a check succeeds for an expression and for all its parts, theirs included (`everywhere_iff`).
- `Expr.functionFree`: the expression neither makes nor calls a function. The depth of its evaluation is then bounded by
  its size, so that only the passes of loops use up a large fuel. `Expr.Budget` says how many passes a fuel leaves.
-/
import Mathlib.Tactic
import ThreeMachines.Syntax.Expr

namespace ThreeMachines.Expr

/-- the expressions directly inside an expression -/
def children : Expr → List Expr
  | number _ | bool _ | var _ => []
  | unary _ operand => [operand]
  | binary _ lhs rhs => [lhs, rhs]
  | assign _ value => [value]
  | seq items => items
  | ite cond thenBranch elseBranch => cond :: thenBranch :: elseBranch.toList
  | whileDo cond body => [cond, body]
  | doWhile body cond => [body, cond]
  | loop count body => [count, body]
  | block bindings body => body :: bindings.map Prod.snd
  | lambda _ body | proc _ _ body => [body]
  | call callee args => callee :: args

theorem sizeOf_child {e part : Expr} (h : part ∈ e.children) : sizeOf part < sizeOf e := by
  cases e with
  | number | bool | var => simp [children] at h
  | unary | assign | lambda | proc =>
    rw [children, List.mem_singleton] at h
    subst h
    simp
  | binary | whileDo | doWhile | loop =>
    simp only [children, List.mem_cons, List.not_mem_nil, or_false] at h
    rcases h with rfl | rfl
    · simp
      omega
    · simp
  | seq items =>
    have := List.sizeOf_lt_of_mem h
    simp only [children] at this
    simp
    omega
  | ite cond thenBranch elseBranch =>
    simp only [children, List.mem_cons, Option.mem_toList] at h
    rcases h with rfl | rfl | rfl <;> simp <;> omega
  | block bindings body =>
    simp only [children, List.mem_cons, List.mem_map] at h
    rcases h with rfl | ⟨⟨name, value⟩, hb, rfl⟩
    · simp
    · have := List.sizeOf_lt_of_mem hb
      simp at this ⊢
      omega
  | call callee args =>
    rcases List.mem_cons.1 h with rfl | h
    · simp
      omega
    · have := List.sizeOf_lt_of_mem h
      simp
      omega

/-- induction over the parts -/
theorem byParts {motive : Expr → Prop} (step : ∀ e, (∀ part ∈ e.children, motive part) → motive e) (e : Expr) :
    motive e :=
  step e fun part _ => byParts step part
termination_by sizeOf e
decreasing_by exact sizeOf_child ‹_›

/-! ## What holds of all parts -/

mutual

/-- the check succeeds for the expression and for all expressions in it -/
def everywhere (check : Expr → Bool) : Expr → Bool
  | number value => check (number value)
  | bool value => check (bool value)
  | var name => check (var name)
  | unary op operand => check (unary op operand) && operand.everywhere check
  | binary op lhs rhs => check (binary op lhs rhs) && lhs.everywhere check && rhs.everywhere check
  | assign name value => check (assign name value) && value.everywhere check
  | seq items => check (seq items) && listEverywhere check items
  | ite cond thenBranch elseBranch =>
    check (ite cond thenBranch elseBranch) && cond.everywhere check && thenBranch.everywhere check &&
      optionEverywhere check elseBranch
  | whileDo cond body => check (whileDo cond body) && cond.everywhere check && body.everywhere check
  | doWhile body cond => check (doWhile body cond) && body.everywhere check && cond.everywhere check
  | loop count body => check (loop count body) && count.everywhere check && body.everywhere check
  | block bindings body =>
    check (block bindings body) && bindingsEverywhere check bindings && body.everywhere check
  | lambda params body => check (lambda params body) && body.everywhere check
  | proc params locals body => check (proc params locals body) && body.everywhere check
  | call callee args => check (call callee args) && callee.everywhere check && listEverywhere check args

def listEverywhere (check : Expr → Bool) : List Expr → Bool
  | [] => true
  | e :: es => e.everywhere check && listEverywhere check es

def optionEverywhere (check : Expr → Bool) : Option Expr → Bool
  | none => true
  | some e => e.everywhere check

def bindingsEverywhere (check : Expr → Bool) : List (String × Expr) → Bool
  | [] => true
  | (_, value) :: rest => value.everywhere check && bindingsEverywhere check rest

end

section
variable {check : Expr → Bool} {e part : Expr}

theorem listEverywhere_eq (items : List Expr) : listEverywhere check items = items.all (everywhere check) := by
  induction items with
  | nil => rfl
  | cons e es ih => rw [listEverywhere, ih, List.all_cons]

theorem bindingsEverywhere_eq (bindings : List (String × Expr)) :
    bindingsEverywhere check bindings = bindings.all fun b => b.2.everywhere check := by
  induction bindings with
  | nil => rfl
  | cons b rest ih => rw [bindingsEverywhere, ih, List.all_cons]

/-- what holds everywhere holds of the expression and everywhere in its parts -/
theorem everywhere_iff : e.everywhere check ↔ check e ∧ ∀ part ∈ e.children, part.everywhere check := by
  cases e with
  | ite cond thenBranch elseBranch =>
    cases elseBranch <;> simp [everywhere, children, optionEverywhere, and_assoc]
  | seq items => simp [everywhere, children, listEverywhere_eq]
  | block bindings body =>
    simp only [everywhere, children, bindingsEverywhere_eq, Bool.and_eq_true, List.all_eq_true, List.forall_mem_cons,
      List.forall_mem_map, and_assoc]
    rw [and_comm (a := ∀ b ∈ bindings, _)]
  | call callee args => simp [everywhere, children, listEverywhere_eq, and_assoc]
  | _ => simp [everywhere, children, and_assoc]

theorem everywhere_self (h : e.everywhere check) : check e := (everywhere_iff.1 h).1

theorem everywhere_child (h : e.everywhere check) (hp : part ∈ e.children) : part.everywhere check :=
  (everywhere_iff.1 h).2 part hp

end

/-- no function is made and none is called -/
def functionFree (e : Expr) : Bool :=
  e.everywhere fun
    | lambda _ _ | proc _ _ _ | call _ _ => false
    | _ => true

theorem isFunction_of_functionFree {e : Expr} (h : e.functionFree) : e.isFunction = false := by
  cases e <;> first | rfl | cases everywhere_self h

/-! ## What a fuel leaves for loops -/

/-- with this fuel an evaluation that is cut off has made `k` passes of some loop; nothing is said for `k = 0` -/
def Budget (e : Expr) (fuel k : Nat) : Prop := k = 0 ∨ e.functionFree ∧ k + sizeOf e ≤ fuel

namespace Budget

variable {e part : Expr} {fuel k : Nat}

theorem none (e : Expr) (fuel : Nat) : e.Budget fuel 0 := .inl rfl

theorem eq_zero (h : e.Budget 0 k) : k = 0 := by
  rcases h with h | ⟨-, h⟩ <;> omega

theorem child (h : e.Budget (fuel + 1) k) (hp : part ∈ e.children) : part.Budget fuel k := by
  rcases h with h | ⟨hf, h⟩
  · exact .inl h
  · have := sizeOf_child hp
    exact .inr ⟨everywhere_child hf hp, by omega⟩

theorem le (h : e.Budget (fuel + 1) k) : k ≤ fuel := by
  rcases h with h | ⟨-, h⟩
  · omega
  · have : 0 < sizeOf e := by cases e <;> simp
    omega

theorem of_not_functionFree (h : e.Budget fuel k) (he : e.functionFree = false) : k = 0 := by
  rcases h with h | ⟨hf, -⟩
  · exact h
  · rw [he] at hf
    cases hf

end Budget
end ThreeMachines.Expr

/-
Names that functions capture, and when a copy of a captured variable is as good as the variable.

`Expr.captured` are the names that occur free in a function literal of an expression without being bound on the way out.
A machine that copies what a function captures does as the variable itself would, if the variable is not assigned
(`Expr.copyable`) and has its value when the function is made. Blocks are in order if all their values are functions, or
if no value uses its own name or a later one (`Expr.inOrder`). `Expr.capturesByValue` asks for both everywhere.
-/
import ThreeMachines.Proofs.Occurrences

namespace ThreeMachines.Expr

variable {x : String} {e part : Expr}

mutual

/-- the free names of the expression that occur free in a function literal in it -/
def captured : Expr → List String
  | number _ | bool _ | var _ => []
  | unary _ operand => operand.captured
  | binary _ lhs rhs => lhs.captured ++ rhs.captured
  | assign _ value => value.captured
  | seq items => listCaptured items
  | ite cond thenBranch elseBranch => cond.captured ++ thenBranch.captured ++ optionCaptured elseBranch
  | whileDo cond body => cond.captured ++ body.captured
  | doWhile body cond => cond.captured ++ body.captured
  | loop count body => count.captured ++ body.captured
  | block bindings body => unbound (bindings.map Prod.fst) (bindingCaptured bindings ++ body.captured)
  | lambda params body => unbound params body.uses
  | proc params locals body => unbound (params ++ locals) body.uses
  | call callee args => callee.captured ++ listCaptured args

def listCaptured : List Expr → List String
  | [] => []
  | e :: es => e.captured ++ listCaptured es

def optionCaptured : Option Expr → List String
  | none => []
  | some e => e.captured

def bindingCaptured : List (String × Expr) → List String
  | [] => []
  | (_, value) :: rest => value.captured ++ bindingCaptured rest

end

theorem listCaptured_eq (items : List Expr) : listCaptured items = items.flatMap captured := by
  induction items with
  | nil => rfl
  | cons e es ih => rw [listCaptured, ih, List.flatMap_cons]

theorem bindingCaptured_eq (bindings : List (String × Expr)) :
    bindingCaptured bindings = bindings.flatMap fun b => b.2.captured := by
  induction bindings with
  | nil => rfl
  | cons b rest ih => rw [bindingCaptured, ih, List.flatMap_cons]

/-- what a function literal uses it captures -/
theorem captured_of_isFunction (h : e.isFunction) : e.captured = e.uses := by
  cases e <;> first | rfl | cases h

theorem mem_captured_of_not_isFunction (h : e.isFunction = false) :
    x ∈ e.captured ↔ x ∉ e.binders ∧ ∃ part ∈ e.children, x ∈ part.captured := by
  cases e with
  | ite cond thenBranch elseBranch => cases elseBranch <;> simp [captured, optionCaptured, children, binders]
  | seq items => simp [captured, listCaptured_eq, children, binders]
  | block bindings body =>
    simp [captured, bindingCaptured_eq, mem_unbound, children, binders, -Prod.exists, or_comm]
  | call callee args => simp [captured, listCaptured_eq, children, binders]
  | lambda | proc => cases h
  | _ => simp [captured, children, binders, or_comm]

/-- what is captured is used -/
theorem uses_of_captured (h : x ∈ e.captured) : x ∈ e.uses := by
  induction e using byParts with
  | step e ih =>
    by_cases hf : e.isFunction
    · rwa [captured_of_isFunction hf] at h
    · obtain ⟨hb, part, hp, hx⟩ := (mem_captured_of_not_isFunction (by simpa using hf)).1 h
      exact uses_child hp (ih part hp hx) hb

/-- what a part captures the whole captures, unless it binds it -/
theorem captured_child (h : part ∈ e.children) (hx : x ∈ part.captured) (hb : x ∉ e.binders) : x ∈ e.captured := by
  by_cases hf : e.isFunction
  · rw [captured_of_isFunction hf]
    exact uses_child h (uses_of_captured hx) hb
  · exact (mem_captured_of_not_isFunction (by simpa using hf)).2 ⟨hb, part, h, hx⟩

/-- without functions nothing is captured -/
theorem captured_eq_nil (h : e.functionFree) : e.captured = [] := by
  refine List.eq_nil_iff_forall_not_mem.2 fun x hx => ?_
  induction e using byParts with
  | step e ih =>
    obtain ⟨-, part, hp, hx⟩ := (mem_captured_of_not_isFunction (isFunction_of_functionFree h)).1 hx
    exact ih part hp (everywhere_child h hp) hx

/-! ## Captures that may be copied -/

/-- no name that the expression binds is both captured and assigned in its scope -/
def copyable (e : Expr) : Bool :=
  e.binders.all fun x => !((e.children.flatMap captured).contains x && (e.children.flatMap assigns).contains x)

/-- no value uses its own name or a later one -/
def ordered : List (String × Expr) → Bool
  | [] => true
  | (name, value) :: rest => (name :: rest.map Prod.fst).all (fun x => !value.uses.contains x) && ordered rest

/-- the values of a block are all functions, or each of them uses only names that have their values already -/
def inOrder : Expr → Bool
  | block bindings _ => bindings.all (fun b => b.2.isFunction) || ordered bindings
  | _ => true

/-- a function may copy what it captures, everywhere in the expression -/
def capturesByValue (e : Expr) : Bool := e.everywhere fun part => part.copyable && part.inOrder

/-- without functions no name is captured -/
theorem copyable_of_functionFree (h : e.functionFree) : e.copyable := by
  have hnone : e.children.flatMap captured = [] :=
    List.flatMap_eq_nil_iff.2 fun part hp => captured_eq_nil (everywhere_child h hp)
  refine List.all_eq_true.2 fun x _ => ?_
  rw [hnone]
  rfl

/-- without functions only the order within blocks counts -/
theorem capturesByValue_of_functionFree (h : e.functionFree) (ho : e.everywhere inOrder) : e.capturesByValue := by
  induction e using byParts with
  | step e ih =>
    refine everywhere_iff.2 ⟨?_, fun part hp => ih part hp (everywhere_child h hp) (everywhere_child ho hp)⟩
    exact Bool.and_eq_true_iff.2 ⟨copyable_of_functionFree h, everywhere_self ho⟩

/-- a name that is assigned in its scope is not captured there -/
theorem not_captured_of_assigned {other : Expr} (h : e.copyable) (hx : x ∈ e.binders) (hp : part ∈ e.children)
    (ha : x ∈ part.assigns) (ho : other ∈ e.children) : x ∉ other.captured := by
  intro hc
  have := List.all_eq_true.1 h x hx
  rw [Bool.not_eq_true', Bool.and_eq_false_iff, List.contains_eq_mem, List.contains_eq_mem, decide_eq_false_iff_not,
    decide_eq_false_iff_not] at this
  rcases this with hno | hno
  · exact hno (List.mem_flatMap_of_mem ho hc)
  · exact hno (List.mem_flatMap_of_mem hp ha)

end ThreeMachines.Expr

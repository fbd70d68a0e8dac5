/-
Labels in the code of the closure machine.

A call issues the label that it returns to, and a function literal the label of its body; the skeletons issue theirs.
Each gets one place, and nothing else is namedIn (`balanced_code`).
-/
import ThreeMachines.Compile
import ThreeMachines.Proofs.Expressions
import ThreeMachines.Proofs.Labels.Assembly

namespace ThreeMachines.Closure

open Gen

theorem unlabelled_fetch (depth : Int) (b : Binding) : Unlabelled (fetch depth b) := by
  rw [fetch]
  cases b.storage <;> exact ⟨rfl, rfl⟩

theorem unlabelled_update (depth : Int) (b : Binding) : Unlabelled (update depth b) := by
  rw [update]
  cases b.storage <;> exact ⟨rfl, rfl⟩

theorem unlabelled_zero : Unlabelled zero := ⟨rfl, rfl⟩

theorem unlabelled_zeros (n : Nat) : Unlabelled (zeroedBlock.zeros n) := by
  induction n with
  | zero => exact .nil
  | succ n ih =>
    have hstore : Unlabelled ([.own (.storeloc (n + 1)), .pop] : Code Op) := ⟨rfl, rfl⟩
    exact (unlabelled_zero.append hstore).append ih

theorem quiet_capture (scope : ScopeId) (depth : Int) (names : List String) :
    Quiet (fun pushed => Unlabelled pushed.1) (capture scope depth names) := by
  induction names generalizing depth with
  | nil => exact .pure .nil
  | cons name names ih =>
    refine .bind (.lookup scope name) fun b _ => .bind (ih (depth + 1)) fun later hlater => .pure ?_
    refine Unlabelled.append ?_ hlater
    by_cases hb : b.storage = .global
    · rw [if_pos hb]
      exact ⟨rfl, rfl⟩
    · rw [if_neg hb]
      exact unlabelled_fetch depth b

/-- the account of a step that leaves no label in hand and takes none -/
abbrev Balanced (x : Gen Op (Code Op)) : Prop := Balances (fun _ => True) [] [] x

theorem balanced_function {scope : ScopeId} {depth : Int} {params captures : List String}
    {body : ScopeId → Gen Op (Code Op)} (hb : ∀ frame, Balanced (body frame)) :
    Balanced (function scope depth params captures body) := by
  refine .quiet (quiet_capture scope depth captures) fun pushed hpushed => .fresh fun label =>
    .quiet (.openScope _ _) fun frame _ => .bind (hb frame) fun bodyCode => ?_
  refine .register [] trivial (.pure ?_ ?_) ?_ ?_
  · simp [hpushed.placed, Instr.defines]
  · simp [hpushed.named, Instr.references, Operation.reference]
  · have hlabel : ([label] ++ definedIn bodyCode).Perm (definedIn bodyCode ++ [label]) := List.perm_append_comm
    simpa [Instr.defines] using hlabel
  · simp +contextual [Instr.references, Operation.reference]

theorem balanced_zeroedBlock {scope : ScopeId} {names : List String} {body : ScopeId → Gen Op (Code Op)}
    (hb : ∀ inner, Balanced (body inner)) : Balanced (zeroedBlock scope names body) := by
  refine .quiet (.openScope _ _) fun inner _ => .bind (hb inner) fun result => .pure ?_ ?_
  · simp [(unlabelled_zeros _).placed, Instr.defines]
  · simp +contextual [(unlabelled_zeros _).named, Instr.references, Operation.reference]

theorem balanced_sequence {scope : ScopeId} {depth : Int} {items : List Expr}
    (ih : ∀ e ∈ items, Balanced (code scope depth e)) : Balanced (sequence scope depth items) := by
  induction items with
  | nil => exact .throw _
  | cons item rest ihr =>
    cases rest with
    | nil => exact ih item (by simp)
    | cons next rest =>
      refine .bind (ih item (by simp)) fun first =>
        .bind (ihr fun e he => ih e (List.mem_cons_of_mem _ he)) fun later => .pure ?_ ?_
      · simp [Instr.defines]
      · simp [Instr.references]
        tauto

theorem balanced_optional {scope : ScopeId} {depth : Int} {e : Option Expr}
    (ih : ∀ part ∈ e.toList, Balanced (code scope depth part)) : Balanced (optional scope depth e) := by
  cases e with
  | none => exact .pure (by simp [unlabelled_zero.placed]) (by simp [unlabelled_zero.named])
  | some part => exact ih part (by simp)

theorem balanced_initial {scope : ScopeId} {depth : Int} {bindings : List (String × Expr)}
    (ih : ∀ b ∈ bindings, Balanced (code scope depth b.2)) : Balanced (initial scope depth bindings) := by
  induction bindings with
  | nil => exact .pure (by simp) (by simp)
  | cons binding rest ihr =>
    refine .bind (ih binding (by simp)) fun pushed =>
      .bind (ihr fun b hb => ih b (List.mem_cons_of_mem _ hb)) fun later => ?_
    by_cases hv : binding.2.isFunction
    · refine .pure ?_ ?_
      · simp [hv, Instr.defines]
      · simp [hv, Instr.references, Operation.reference]
        tauto
    · refine .pure ?_ ?_
      · simp [hv, Instr.defines]
      · simp [hv, Instr.references, Operation.reference]
        tauto

theorem balanced_arguments {scope : ScopeId} {args : List Expr}
    (ih : ∀ e ∈ args, ∀ depth, Balanced (code scope depth e)) (depth : Int) :
    Balanced (arguments scope depth args) := by
  induction args generalizing depth with
  | nil => exact .pure (by simp) (by simp)
  | cons arg rest ihr =>
    refine .bind (ih arg (by simp) depth) fun first =>
      .bind (ihr (fun e he => ih e (List.mem_cons_of_mem _ he)) (depth + 1)) fun later => .pure ?_ ?_
    · simp
    · simp
      tauto

/-- **Expressions.** Whatever labels the code of an expression needs, it issues and places itself. -/
theorem balanced_code (e : Expr) : ∀ s depth, Balanced (code s depth e) := by
  refine Expr.byParts (motive := fun e => ∀ s depth, Balanced (code s depth e)) (fun e ih => ?_) e
  intro s depth
  cases e with
  | number | bool => exact .pure (by simp [Instr.defines]) (by simp [Instr.references])
  | var name =>
    exact .quiet (.lookup s name) fun b _ =>
      .pure (by simp [(unlabelled_fetch depth b).placed]) (by simp [(unlabelled_fetch depth b).named])
  | unary op operand =>
    refine .bind (ih operand (by simp [Expr.children]) s depth) fun c => .pure ?_ ?_
    · simp [Instr.defines]
    · simp +contextual [Instr.references]
  | binary op lhs rhs =>
    refine .bind (ih lhs (by simp [Expr.children]) s depth) fun left =>
      .bind (ih rhs (by simp [Expr.children]) s (depth + 1)) fun right => .pure ?_ ?_
    · simp [Instr.defines]
    · simp [Instr.references]
      tauto
  | assign name value =>
    refine .quiet (.lookup s name) fun b _ => ?_
    have hvalue : Balanced (code s depth value >>= fun pushed => pure (pushed ++ update depth b)) := by
      refine .bind (ih value (by simp [Expr.children]) s depth) fun pushed => .pure ?_ ?_
      · simp [(unlabelled_update depth b).placed]
      · simp +contextual [(unlabelled_update depth b).named]
    by_cases hb : b.storage = .captured
    · rw [if_pos hb]
      exact .quiet (Q := fun _ => True) (.throw _) fun _ _ => hvalue
    · rw [if_neg hb]
      exact hvalue
  | seq items => exact balanced_sequence fun e he => ih e he s depth
  | ite cond thenBranch elseBranch =>
    exact .ifThenElse (ih cond (by simp [Expr.children]) s depth) (ih thenBranch (by simp [Expr.children]) s depth)
      (balanced_optional fun part hp => ih part (by simp_all [Expr.children]) s depth)
  | whileDo cond body =>
    exact .whileDo unlabelled_zero (ih cond (by simp [Expr.children]) s (depth + 1))
      (ih body (by simp [Expr.children]) s depth)
  | doWhile body cond =>
    exact .doWhile (ih body (by simp [Expr.children]) s depth) (ih cond (by simp [Expr.children]) s (depth + 1))
  | loop count body =>
    exact .countedLoop unlabelled_zero (ih count (by simp [Expr.children]) s (depth + 1))
      (ih body (by simp [Expr.children]) s (depth + 1))
  | block bindings body =>
    refine .quiet (.openScope _ _) fun inner _ =>
      .bind (balanced_initial fun b hb => ih b.2 (List.mem_cons_of_mem _ (List.mem_map_of_mem hb)) inner _)
        fun values => .bind (ih body (by simp [Expr.children]) inner _) fun result => .pure ?_ ?_
    · simp [Instr.defines]
    · simp [Instr.references, Operation.reference]
      tauto
  | lambda params body => exact balanced_function fun frame => ih body (by simp [Expr.children]) frame 0
  | proc params locals body =>
    cases locals with
    | nil => exact balanced_function fun frame => ih body (by simp [Expr.children]) frame 0
    | cons first rest =>
      exact balanced_function fun frame => balanced_zeroedBlock fun inner =>
        ih body (by simp [Expr.children]) inner _
  | call callee args =>
    refine .fresh fun back =>
      .bind (balanced_arguments (fun e he depth => ih e (List.mem_cons_of_mem _ he) s depth) _) fun pushed =>
        .bind (ih callee (by simp [Expr.children]) s _) fun target => .pure ?_ ?_
    · simpa [Instr.defines] using List.perm_append_singleton back (definedIn pushed ++ definedIn target)
    · simp [Instr.references, Operation.reference]
      tauto

/-- the program of an expression defines the labels that its generation issues -/
theorem accounts_generate (e : Expr) : Accounts (generate e) :=
  .quiet (.bindAll _ _) fun _ _ => .of_balances
    [.own (.alloc e.globalNames.length), .own (.mkvec e.globalNames.length), .own .setgp]
    (balanced_code e _ 0) ⟨rfl, rfl⟩ (fun _ _ => rfl) fun _ _ _ => rfl

/-! ## Native code -/

theorem finds_pushZeroPairs {labels : List Label} {imports : List String} (h : "malloc" ∈ imports) (count : Nat) :
    ∀ i ∈ pushZeroPairs count, i.Finds labels imports := by
  induction count with
  | zero => exact fun _ h => absurd h List.not_mem_nil
  | succ count ih =>
    have halloc : ∀ i ∈ Native.Snippet.heapAlloc 2, i.Finds labels imports := Native.finds_heapAlloc 2 h
    simp only [pushZeroPairs, List.forall_mem_append]
    simpa [Native.Instr.Finds] using ⟨halloc, ih⟩

theorem links : Native.Links Op where
  lower op := by
    have hmalloc : "malloc" ∈ Lowerable.imports Op := by decide
    cases op with
    | alloc n => exact .plain (finds_pushZeroPairs hmalloc n.toNat)
    | refill k => exact .plain (Native.finds_copyPair _)
    | mkvec n => exact .plain (Native.finds_mkvec n hmalloc)
    | mkfunval body => exact .plain (Native.finds_mkfunval hmalloc List.mem_cons_self)
    | popenv => refine .append (.append (.plain ?_) (.instr trivial)) (.plain ?_) <;> simp [Native.Instr.Finds]
    | slide n => exact .plain (Native.finds_slide n)
    | mark back => exact .plain (by simp [Native.Instr.Finds, Operation.reference])
    | _ => exact .plain (by simp [Native.Instr.Finds])
  prologue _ := Native.finds_openFrame
  epilogue _ := Native.finds_closeFrame (by decide)
  imports symbol hs := by
    rcases List.mem_pair.1 hs with rfl | rfl
    · exact ⟨'f', by decide⟩
    · exact ⟨'c', by decide⟩

end ThreeMachines.Closure

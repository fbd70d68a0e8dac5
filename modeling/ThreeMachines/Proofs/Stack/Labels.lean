/-
Labels in the code of the stack machine.

A procedure issues the label of its code and the label behind it, and stands in the stream; the skeletons issue theirs.
Each label gets one place, nothing else is named, and no body stands out of line (`balanced_code`).
-/
import ThreeMachines.Compile
import ThreeMachines.Proofs.Expressions
import ThreeMachines.Proofs.Labels.Assembly

namespace ThreeMachines.Stack

open Gen

theorem unlabelled_zero : Unlabelled zero := ⟨rfl, rfl⟩

theorem quiet_address (b : Binding) : Quiet Unlabelled (address b) := by
  rw [address]
  cases b.storage with
  | global | blockLocal | formal => exact .pure ⟨rfl, rfl⟩
  | captured => exact .throw _

theorem quiet_refuseCaptures (scope : ScopeId) (names : List String) :
    Quiet (fun _ => True) (refuseCaptures scope names) := by
  induction names with
  | nil => exact .pure trivial
  | cons name names ih =>
    refine .of_get (fun d => ?_) fun _ _ _ _ => trivial
    cases d.scopes.lookup scope name with
    | error e => exact ih.same d
    | ok b =>
      by_cases hb : b.storage = .global
      · simp only [if_pos hb]
        exact ih.same d
      · simp only [if_neg hb]
        exact ⟨rfl, rfl⟩

/-- the account of a step that leaves no label in hand and takes none, without bodies out of line -/
abbrev Balanced (x : Gen Op (Code Op)) : Prop := Balances (fun _ => False) [] [] x

/-- a procedure takes two labels, one for its code and one for the place behind it -/
theorem balances_procedure {entry stop : Label} {locals : Int} {body : Gen Op (Code Op)} (hb : Balanced body) :
    Balances (fun _ => False) [entry, stop] [entry, stop]
      (body >>= fun c => pure (procedure entry stop locals c)) := by
  have halloc : Unlabelled (if locals = 0 then [] else [.own (.alloc (wordSize * locals))] : Code Op) := by
    split <;> exact ⟨rfl, rfl⟩
  refine .bind hb fun c => .pure ?_ ?_
  · simp only [procedure, definedIn_append, halloc.placed]
    simp [Instr.defines]
  · simp only [procedure, namedIn_append, halloc.named]
    simp [Instr.references, Operation.reference]
    tauto

theorem balanced_sequence {scope : ScopeId} {depth : Int} {items : List Expr}
    (ih : ∀ e ∈ items, Balanced (code scope depth e)) : Balanced (sequence scope depth items) := by
  induction items with
  | nil => exact .throw _
  | cons item rest ihr =>
    cases rest with
    | nil => exact ih item (by simp)
    | cons next rest =>
      refine .bind (ih item (by simp)) fun first =>
        .bind (ihr fun e he => ih e (List.mem_cons_of_mem _ he)) fun later => .pure ?_ ?_
      · simp [Instr.defines]
      · simp [Instr.references]
        tauto

theorem balanced_optional {scope : ScopeId} {depth : Int} {e : Option Expr}
    (ih : ∀ part ∈ e.toList, Balanced (code scope depth part)) : Balanced (optional scope depth e) := by
  cases e with
  | none => exact .pure (by simp [unlabelled_zero.placed]) (by simp [unlabelled_zero.named])
  | some part => exact ih part (by simp)

theorem balanced_initial {scope : ScopeId} {depth : Int} {bindings : List (String × Expr)}
    (ih : ∀ b ∈ bindings, Balanced (code scope depth b.2)) (place : Int) :
    Balanced (initial scope depth place bindings) := by
  induction bindings generalizing place with
  | nil => exact .pure (by simp) (by simp)
  | cons binding rest ihr =>
    refine .bind (ih binding (by simp)) fun pushed =>
      .bind (ihr (fun b hb => ih b (List.mem_cons_of_mem _ hb)) (place + 1)) fun later => .pure ?_ ?_
    · simp [Instr.defines]
    · simp [Instr.references, Operation.reference]
      tauto

theorem balanced_reversed {scope : ScopeId} {depth : Int} {args : List Expr}
    (ih : ∀ e ∈ args, ∀ depth, Balanced (code scope depth e)) : Balanced (reversed scope depth args) := by
  induction args with
  | nil => exact .pure (by simp) (by simp)
  | cons arg rest ihr =>
    refine .bind (ihr fun e he => ih e (List.mem_cons_of_mem _ he)) fun later =>
      .bind (ih arg (by simp) _) fun first => .pure ?_ ?_
    · simp
    · simp
      tauto

/-- **Expressions.** Whatever labels the code of an expression needs, it issues and places itself. -/
theorem balanced_code (e : Expr) : ∀ s depth, Balanced (code s depth e) := by
  refine Expr.byParts (motive := fun e => ∀ s depth, Balanced (code s depth e)) (fun e ih => ?_) e
  intro s depth
  cases e with
  | number | bool => exact .pure (by simp [Instr.defines]) (by simp [Instr.references])
  | var name =>
    refine .quiet (.lookup s name) fun b _ => .quiet (quiet_address b) fun pushed hpushed => .pure ?_ ?_
    · simp [hpushed.placed, Instr.defines]
    · simp [hpushed.named, Instr.references, Operation.reference]
  | unary op operand =>
    refine .bind (ih operand (by simp [Expr.children]) s depth) fun c => .pure ?_ ?_
    · simp [Instr.defines]
    · simp +contextual [Instr.references]
  | binary op lhs rhs =>
    refine .bind (ih lhs (by simp [Expr.children]) s depth) fun left =>
      .bind (ih rhs (by simp [Expr.children]) s (depth + 1)) fun right => .pure ?_ ?_
    · simp [Instr.defines]
    · simp [Instr.references]
      tauto
  | assign name value =>
    refine .quiet (.resolveOrAllocate s name) fun b _ => .bind (ih value (by simp [Expr.children]) s depth) fun pushed =>
      .quiet (quiet_address b) fun place hplace => .pure ?_ ?_
    · simp [hplace.placed, Instr.defines]
    · simp +contextual [hplace.named, Instr.references, Operation.reference]
  | seq items => exact balanced_sequence fun e he => ih e he s depth
  | ite cond thenBranch elseBranch =>
    exact .ifThenElse (ih cond (by simp [Expr.children]) s depth) (ih thenBranch (by simp [Expr.children]) s depth)
      (balanced_optional fun part hp => ih part (by simp_all [Expr.children]) s depth)
  | whileDo cond body =>
    exact .whileDo unlabelled_zero (ih cond (by simp [Expr.children]) s (depth + 1))
      (ih body (by simp [Expr.children]) s depth)
  | doWhile body cond =>
    exact .doWhile (ih body (by simp [Expr.children]) s depth) (ih cond (by simp [Expr.children]) s (depth + 1))
  | loop count body =>
    exact .countedLoop unlabelled_zero (ih count (by simp [Expr.children]) s (depth + 1))
      (ih body (by simp [Expr.children]) s (depth + 1))
  | block bindings body =>
    refine .quiet (.openScope _ _) fun inner _ =>
      .bind (balanced_initial (fun b hb => ih b.2 (List.mem_cons_of_mem _ (List.mem_map_of_mem hb)) inner _) _)
        fun values => .bind (ih body (by simp [Expr.children]) inner _) fun result => .pure ?_ ?_
    · simp [Instr.defines]
    · simp [Instr.references, Operation.reference]
      tauto
  | lambda params body =>
    exact .quiet (quiet_refuseCaptures _ _) fun _ _ => .fresh fun entry => .fresh fun stop =>
      .quiet (.rootOf s) fun _ _ => .quiet (.openScope _ _) fun frame _ =>
        balances_procedure (ih body (by simp [Expr.children]) frame 0)
  | proc params locals body =>
    exact .quiet (quiet_refuseCaptures _ _) fun _ _ => .fresh fun entry => .fresh fun stop =>
      .quiet (.rootOf s) fun _ _ => .quiet (.openScope _ _) fun frame _ =>
        balances_procedure (ih body (by simp [Expr.children]) frame _)
  | call callee args =>
    cases args with
    | nil =>
      refine .bind (ih callee (by simp [Expr.children]) s _) fun target => .pure ?_ ?_
      · simp [callWith, unlabelled_zero.placed, Instr.defines]
      · simp +contextual [callWith, unlabelled_zero.named, Instr.references, Operation.reference]
    | cons arg args =>
      have hslide (slots : Int) : Unlabelled
          (if 1 < slots then [.own (.slide (wordSize * (slots - 1)) wordSize)] else [] : Code Op) := by
        split <;> exact ⟨rfl, rfl⟩
      refine .bind (balanced_reversed fun e he depth => ih e (List.mem_cons_of_mem _ he) s depth) fun pushed =>
        .bind (ih callee (by simp [Expr.children]) s _) fun target => .pure ?_ ?_
      · simp only [callWith, definedIn_append, (hslide _).placed]
        simp [Instr.defines]
      · simp only [callWith, namedIn_append, (hslide _).named]
        simp [Instr.references, Operation.reference]
        tauto

/-- the program of an expression defines the labels that its generation issues -/
theorem accounts_generate (e : Expr) : Accounts (generate e) := by
  refine .of_balances [] (balanced_code e _ 0) .nil (fun _ _ => rfl) fun c d hd => ?_
  have hbodies : d.lambdas.bodies = [] := List.eq_nil_iff_forall_not_mem.2 hd
  exact congrArg LambdaTable.mk hbodies.symm

/-! ## Native code -/

theorem finds_moveWords {labels : List Label} {imports : List String} (drop : Int) (count : Nat) :
    ∀ i ∈ moveWords drop count, i.Finds labels imports := by
  induction count with
  | zero => exact fun _ h => absurd h List.not_mem_nil
  | succ count ih => simpa [moveWords, Native.Instr.Finds] using ih

theorem links : Native.Links Op where
  lower op := by
    cases op with
    | ret => refine .append (.append (.plain ?_) (.instr trivial)) (.plain ?_) <;> simp [Native.Instr.Finds]
    | slide drop keep =>
      exact .plain (List.forall_mem_append.2 ⟨finds_moveWords drop _, by simp [Native.Instr.Finds]⟩)
    | _ => exact .plain (by simp [locate, Native.Instr.Finds])
  prologue p := by
    refine .append (.append (.plain ?_) fun part hp => ?_) (.plain ?_)
    · simp [Native.Snippet.savedRegs, Native.Instr.Finds]
    · obtain ⟨b, -, rfl⟩ := List.mem_map.1 hp
      exact ⟨_, _, rfl, trivial⟩
    · simp [Native.Instr.Finds]
  epilogue _ := by
    refine .append (.append (.append (.instr trivial) (.plain ?_)) (.plain ?_))
      (Native.finds_printAndReturn (by decide)) <;> simp [Native.Snippet.savedRegs, Native.Instr.Finds]
  imports symbol hs := by
    rw [List.mem_singleton.1 hs]
    exact ⟨'f', by decide⟩

end ThreeMachines.Stack

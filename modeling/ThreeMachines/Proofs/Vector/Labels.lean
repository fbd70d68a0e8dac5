/-
Labels in the code of the vector machine.

A call issues the label that it returns to, and a function literal the label of its body; the skeletons issue theirs.
Each gets one place, and nothing else is namedIn (`balanced_code`).
-/
import ThreeMachines.Compile
import ThreeMachines.Proofs.Expressions
import ThreeMachines.Proofs.Labels.Assembly

namespace ThreeMachines.Vector

open Gen

theorem unlabelled_box (mode : Mode) : Unlabelled mode.box := by cases mode <;> exact ⟨rfl, rfl⟩

theorem unlabelled_unbox (mode : Mode) : Unlabelled mode.unbox := by cases mode <;> exact ⟨rfl, rfl⟩

theorem unlabelled_read (mode : Mode) : Unlabelled mode.read := by cases mode <;> exact ⟨rfl, rfl⟩

theorem unlabelled_zero (mode : Mode) : Unlabelled mode.zero := by cases mode <;> exact ⟨rfl, rfl⟩

theorem defines_storage (b : Binding) : (storage b).defines = none := by
  rw [storage]
  cases b.storage <;> rfl

theorem references_storage (b : Binding) : (storage b).references = none := by
  rw [storage]
  cases b.storage <;> rfl

theorem unlabelled_storage (b : Binding) : Unlabelled [storage b] :=
  ⟨by rw [definedIn_cons, defines_storage]; rfl, by rw [namedIn_cons, references_storage]; rfl⟩

/-- new cells of 0 are stored in variables -/
theorem unlabelled_zeros (bindings : List Binding) :
    Unlabelled (bindings.flatMap fun b => storage b :: Mode.zero .value ++ [.own .store, .pop]) := by
  induction bindings with
  | nil => exact .nil
  | cons b rest ih =>
    have hstore : Unlabelled ([.own .store, .pop] : Code Op) := ⟨rfl, rfl⟩
    exact (((unlabelled_storage b).append (unlabelled_zero .value)).append hstore).append ih

theorem quiet_storages (scope : ScopeId) (names : List String) : Quiet Unlabelled (storages scope names) := by
  induction names with
  | nil => exact .pure .nil
  | cons name names ih =>
    exact .bind (.lookup scope name) fun b _ => .bind ih fun rest hrest => .pure ((unlabelled_storage b).append hrest)

/-- the account of a step that leaves no label in hand and takes none -/
abbrev Balanced (x : Gen Op (Code Op)) : Prop := Balances (fun _ => True) [] [] x

theorem balanced_function {scope : ScopeId} {params captures : List String} {body : ScopeId → Gen Op (Code Op)}
    (hb : ∀ frame, Balanced (body frame)) : Balanced (function scope params captures body) := by
  refine .quiet (quiet_storages scope captures) fun pushed hpushed => .fresh fun label =>
    .quiet (.openScope _ _) fun frame _ => .bind (hb frame) fun bodyCode => ?_
  refine .register [] trivial (.pure ?_ ?_) ?_ ?_
  · simp [hpushed.placed, Instr.defines]
  · simp [hpushed.named, Instr.references, Operation.reference]
  · have hlabel : ([label] ++ definedIn bodyCode).Perm (definedIn bodyCode ++ [label]) := List.perm_append_comm
    simpa [Instr.defines] using hlabel
  · simp +contextual [Instr.references, Operation.reference]

theorem balanced_zeroedBlock {scope : ScopeId} {names : List String} {body : ScopeId → Gen Op (Code Op)}
    (hb : ∀ inner, Balanced (body inner)) : Balanced (zeroedBlock scope names body) := by
  refine .quiet (.openScope _ _) fun inner _ => .bind (hb inner) fun result => .pure ?_ ?_
  · simp only [definedIn_append, (unlabelled_zeros _).placed]
    simp [Instr.defines]
  · simp only [namedIn_append, (unlabelled_zeros _).named]
    simp +contextual [Instr.references, Operation.reference]

theorem balanced_sequence {scope : ScopeId} {depth : Int} {items : List Expr}
    (ih : ∀ e ∈ items, ∀ mode, Balanced (code scope depth mode e)) (mode : Mode) :
    Balanced (sequence scope depth mode items) := by
  induction items with
  | nil => exact .throw _
  | cons item rest ihr =>
    cases rest with
    | nil => exact ih item (by simp) mode
    | cons next rest =>
      refine .bind (ih item (by simp) .value) fun first =>
        .bind (ihr fun e he => ih e (List.mem_cons_of_mem _ he)) fun later => .pure ?_ ?_
      · simp [Instr.defines]
      · simp [Instr.references]
        tauto

theorem balanced_optional {scope : ScopeId} {depth : Int} {mode : Mode} {e : Option Expr}
    (ih : ∀ part ∈ e.toList, Balanced (code scope depth mode part)) : Balanced (optional scope depth mode e) := by
  cases e with
  | none => exact .pure (by simp [(unlabelled_zero mode).placed]) (by simp [(unlabelled_zero mode).named])
  | some part => exact ih part (by simp)

theorem balanced_initial {scope : ScopeId} {depth : Int} {bindings : List (String × Expr)}
    (ih : ∀ b ∈ bindings, Balanced (code scope depth .value b.2)) : Balanced (initial scope depth bindings) := by
  induction bindings with
  | nil => exact .pure (by simp) (by simp)
  | cons binding rest ihr =>
    refine .quiet (.lookup scope binding.1) fun b _ => .bind (ih binding (by simp)) fun pushed =>
      .bind (ihr fun b hb => ih b (List.mem_cons_of_mem _ hb)) fun later => .pure ?_ ?_
    · simp only [definedIn_append, definedIn_cons, defines_storage]
      simp [Instr.defines]
    · simp only [namedIn_append, namedIn_cons, references_storage]
      simp [Instr.references, Operation.reference]
      tauto

theorem balanced_arguments {scope : ScopeId} {args : List Expr}
    (ih : ∀ e ∈ args, ∀ depth, Balanced (code scope depth .value e)) (depth : Int) :
    Balanced (arguments scope depth args) := by
  induction args generalizing depth with
  | nil => exact .pure (by simp) (by simp)
  | cons arg rest ihr =>
    refine .bind (ih arg (by simp) depth) fun first =>
      .bind (ihr (fun e he => ih e (List.mem_cons_of_mem _ he)) (depth + 1)) fun later => .pure ?_ ?_
    · simp
    · simp
      tauto

/-- **Expressions.** Whatever labels the code of an expression needs, it issues and places itself. -/
theorem balanced_code (e : Expr) : ∀ s depth mode, Balanced (code s depth mode e) := by
  refine Expr.byParts (motive := fun e => ∀ s depth mode, Balanced (code s depth mode e)) (fun e ih => ?_) e
  intro s depth mode
  have hbox := unlabelled_box mode
  have hread := unlabelled_read mode
  have hunbox := unlabelled_unbox mode
  cases e with
  | number | bool =>
    refine .pure ?_ ?_
    · simp [hbox.placed, Instr.defines]
    · simp [hbox.named, Instr.references]
  | var name =>
    refine .quiet (.lookup s name) fun b _ => .pure ?_ ?_
    · rw [definedIn_cons, defines_storage]
      simp [hread.placed]
    · rw [namedIn_cons, references_storage]
      simp [hread.named]
  | unary op operand =>
    refine .bind (ih operand (by simp [Expr.children]) s depth .basic) fun c => .pure ?_ ?_
    · simp [hbox.placed, Instr.defines]
    · simp +contextual [hbox.named, Instr.references]
  | binary op lhs rhs =>
    refine .bind (ih lhs (by simp [Expr.children]) s depth .basic) fun left =>
      .bind (ih rhs (by simp [Expr.children]) s (depth + 1) .basic) fun right => .pure ?_ ?_
    · simp [hbox.placed, Instr.defines]
    · simp [hbox.named, Instr.references]
      tauto
  | assign name value =>
    refine .quiet (.lookup s name) fun b _ =>
      .bind (ih value (by simp [Expr.children]) s (depth + 1) .value) fun pushed => .pure ?_ ?_
    · simp only [definedIn_append, definedIn_cons, defines_storage]
      simp [hread.placed, Instr.defines]
    · simp only [namedIn_append, namedIn_cons, references_storage]
      simp +contextual [hread.named, Instr.references, Operation.reference]
  | seq items => exact balanced_sequence (fun e he => ih e he s depth) mode
  | ite cond thenBranch elseBranch =>
    exact .ifThenElse (ih cond (by simp [Expr.children]) s depth .basic)
      (ih thenBranch (by simp [Expr.children]) s depth mode)
      (balanced_optional fun part hp => ih part (by simp_all [Expr.children]) s depth mode)
  | whileDo cond body =>
    exact .whileDo (unlabelled_zero mode) (ih cond (by simp [Expr.children]) s (depth + 1) .basic)
      (ih body (by simp [Expr.children]) s depth mode)
  | doWhile body cond =>
    exact .doWhile (ih body (by simp [Expr.children]) s depth mode)
      (ih cond (by simp [Expr.children]) s (depth + 1) .basic)
  | loop count body =>
    exact .countedLoop (unlabelled_zero mode) (ih count (by simp [Expr.children]) s (depth + 1) .basic)
      (ih body (by simp [Expr.children]) s (depth + 1) mode)
  | block bindings body =>
    refine .quiet (.openScope _ _) fun inner _ =>
      .bind (balanced_initial fun b hb => ih b.2 (List.mem_cons_of_mem _ (List.mem_map_of_mem hb)) inner _ .value)
        fun values => .bind (ih body (by simp [Expr.children]) inner _ mode) fun result => .pure ?_ ?_
    · simp [Instr.defines]
    · simp [Instr.references, Operation.reference]
      tauto
  | lambda params body =>
    refine .bind (balanced_function fun frame => ih body (by simp [Expr.children]) frame 0 .value) fun pushed =>
      .pure ?_ ?_
    · simp [hunbox.placed]
    · simp +contextual [hunbox.named]
  | proc params locals body =>
    cases locals with
    | nil =>
      refine .bind (balanced_function fun frame => ih body (by simp [Expr.children]) frame 0 .value) fun pushed =>
        .pure ?_ ?_
      · simp [hunbox.placed]
      · simp +contextual [hunbox.named]
    | cons first rest =>
      refine .bind (balanced_function fun frame => balanced_zeroedBlock fun inner =>
        ih body (by simp [Expr.children]) inner _ .value) fun pushed => .pure ?_ ?_
      · simp [hunbox.placed]
      · simp +contextual [hunbox.named]
  | call callee args =>
    refine .bind (ih callee (by simp [Expr.children]) s depth .value) fun target =>
      .bind (balanced_arguments (fun e he depth => ih e (List.mem_cons_of_mem _ he) s depth .value) _) fun pushed =>
        .fresh fun back => .pure ?_ ?_
    · simp [hunbox.placed, Instr.defines]
    · simp [hunbox.named, Instr.references, Operation.reference]
      tauto

/-- the program of an expression defines the labels that its generation issues -/
theorem accounts_generate (e : Expr) : Accounts (generate e) :=
  .quiet (.bindAll _ _) fun _ _ => .of_balances
    [.own (.alloc e.globalNames.length), .own (.mkvec e.globalNames.length), .own .setgp]
    (balanced_code e _ 0 .basic) ⟨rfl, rfl⟩ (fun _ _ => rfl) fun _ _ _ => rfl

/-! ## Native code -/

section
variable {labels : List Label} {imports : List String}

theorem finds_pushCell (tag : Tag) (h : "malloc" ∈ imports) : ∀ i ∈ pushCell tag, i.Finds labels imports := by
  have halloc : ∀ i ∈ Native.Snippet.heapAlloc 2, i.Finds labels imports := Native.finds_heapAlloc 2 h
  simp only [pushCell, List.forall_mem_append]
  simpa [Native.Instr.Finds] using halloc

theorem finds_pushZeroCells (h : "malloc" ∈ imports) (count : Nat) :
    ∀ i ∈ pushZeroCells count, i.Finds labels imports := by
  induction count with
  | zero => exact fun _ h => absurd h List.not_mem_nil
  | succ count ih =>
    have halloc : ∀ i ∈ Native.Snippet.heapAlloc 1, i.Finds labels imports := Native.finds_heapAlloc 1 h
    have hcell : ∀ i ∈ pushCell .basic, i.Finds labels imports := finds_pushCell .basic h
    simp only [pushZeroCells, List.forall_mem_append]
    simpa [Native.Instr.Finds] using ⟨⟨halloc, hcell⟩, ih⟩

end

theorem links : Native.Links Op where
  lower op := by
    have hmalloc : "malloc" ∈ Lowerable.imports Op := by decide
    have halloc (words : Int) : ∀ i ∈ Native.Snippet.heapAlloc words, i.Finds [] (Lowerable.imports Op) :=
      Native.finds_heapAlloc words hmalloc
    cases op with
    | mkbasic => exact .plain (List.forall_mem_append.2 ⟨halloc 1, by simp [Native.Instr.Finds]⟩)
    | getbasic => refine .append (.append (.plain ?_) (.instr trivial)) (.plain ?_) <;> simp [Native.Instr.Finds]
    | mkind tag => exact .plain (finds_pushCell tag hmalloc)
    | copy => exact .plain (List.forall_mem_append.2 ⟨halloc 2, by simp [Native.Instr.Finds]⟩)
    | mkvec n => exact .plain (Native.finds_mkvec n hmalloc)
    | mkfunval body => exact .plain (Native.finds_mkfunval hmalloc List.mem_cons_self)
    | alloc n => exact .plain (finds_pushZeroCells hmalloc n.toNat)
    | store => exact .plain (Native.finds_copyPair _)
    | call => exact .append (.instr trivial) (.plain (by simp [Native.Instr.Finds]))
    | ret i => refine .append (.append (.plain ?_) (.instr trivial)) (.plain ?_) <;> simp [Native.Instr.Finds]
    | slide n => exact .plain (Native.finds_slide n)
    | _ => exact .plain (by simp [Native.Instr.Finds])
  prologue _ := Native.finds_openFrame
  epilogue _ := Native.finds_closeFrame (by decide)
  imports symbol hs := by
    rcases List.mem_pair.1 hs with rfl | rfl
    · exact ⟨'f', by decide⟩
    · exact ⟨'c', by decide⟩

end ThreeMachines.Vector

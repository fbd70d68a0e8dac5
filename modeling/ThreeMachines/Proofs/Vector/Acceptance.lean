/-
Which expressions the vector machine accepts.

All variables are cells, so a function literal captures whatever it uses and assigns to it as it likes. The generator
then fails for a name that stands for nothing, and for names that are not in order (`accepts_code`).
-/
import ThreeMachines.Proofs.Acceptance.Names
import ThreeMachines.Proofs.Acceptance.Steps
import ThreeMachines.Proofs.Vector.Emission

namespace ThreeMachines.Vector

open Gen

section
variable {s : ScopeId} {ρ : Scope} {depth : Int} {mode : Mode}

theorem accepts_storages (names : List String) : Accepts s ρ (storages s names) (∀ x ∈ names, (ρ x).isSome) := by
  induction names with
  | nil => exact (Accepts.pure _).congr (by simp)
  | cons name names ih => exact (Accepts.lookup fun _ _ => ih.map _).congr (by simp)

theorem accepts_sequence {items : List Expr} {P : Expr → Prop}
    (ih : ∀ e ∈ items, ∀ mode, Accepts s ρ (code s depth mode e) (P e)) (mode : Mode) :
    Accepts s ρ (sequence s depth mode items) (items ≠ [] ∧ ∀ e ∈ items, P e) := by
  induction items with
  | nil => exact (Accepts.throw _).congr (by simp)
  | cons item rest ihr =>
    have hitem := ih item List.mem_cons_self
    cases rest with
    | nil => exact (hitem mode).congr (by simp)
    | cons next rest =>
      exact ((hitem .value).bind fun _ => (ihr fun e he => ih e (List.mem_cons_of_mem _ he)).map _).congr (by simp)

theorem accepts_optional {e : Option Expr} {P : Expr → Prop}
    (ih : ∀ part ∈ e.toList, Accepts s ρ (code s depth mode part) (P part)) :
    Accepts s ρ (optional s depth mode e) (∀ part ∈ e.toList, P part) := by
  cases e with
  | none => exact (Accepts.pure _).congr (by simp)
  | some part => exact (ih part (by simp)).congr (by simp)

theorem accepts_initial {bindings : List (String × Expr)} {P : Expr → Prop}
    (ih : ∀ b ∈ bindings, Accepts s ρ (code s depth .value b.2) (P b.2)) :
    Accepts s ρ (initial s depth bindings) (∀ b ∈ bindings, (ρ b.1).isSome ∧ P b.2) := by
  induction bindings with
  | nil => exact (Accepts.pure _).congr (by simp)
  | cons binding rest ihr =>
    refine (Accepts.lookup fun _ _ => (ih binding List.mem_cons_self).bind fun _ =>
      (ihr fun b hb => ih b (List.mem_cons_of_mem _ hb)).map _).congr ?_
    rw [List.forall_mem_cons, and_assoc]

theorem accepts_arguments {args : List Expr} {P : Expr → Prop}
    (ih : ∀ e ∈ args, ∀ depth, Accepts s ρ (code s depth .value e) (P e)) (depth : Int) :
    Accepts s ρ (arguments s depth args) (∀ e ∈ args, P e) := by
  induction args generalizing depth with
  | nil => exact (Accepts.pure _).congr (by simp)
  | cons arg rest ihr =>
    exact ((ih arg List.mem_cons_self depth).bind fun _ =>
      (ihr (fun e he => ih e (List.mem_cons_of_mem _ he)) (depth + 1)).map _).congr (by simp)

theorem map_name_functionBindings (params captures : List String) :
    (numbered .formal 0 params ++ numbered .captured 0 captures).map Binding.name = params ++ captures := by
  rw [List.map_append, map_name_numbered, map_name_numbered]

theorem accepts_function {params captures : List String} {body : ScopeId → Gen Op (Code Op)} {P : Prop}
    (hlabels : ∀ frame, Balanced (body frame))
    (hb : ∀ frame, Accepts frame (functionScope params captures) (body frame) P) :
    Accepts s ρ (function s params captures body)
      ((∀ x ∈ captures, (ρ x).isSome) ∧ (params ++ captures).Nodup ∧ P) := by
  rw [← map_name_functionBindings]
  exact (accepts_storages captures).bind fun _ => .literal (fun _ _ => rfl) hlabels hb

theorem accepts_zeroedBlock {names : List String} {body : ScopeId → Gen Op (Code Op)} {P : Prop}
    (hb : ∀ inner, Accepts inner (ρ.extend (numbered .blockLocal 1 names)) (body inner) P) :
    Accepts s ρ (zeroedBlock s names body) (names.Nodup ∧ P) := by
  have h := Accepts.openScope (s := s) fun inner => (hb inner).map fun result => [.own (.alloc names.length)] ++
    ((numbered .blockLocal 1 names).flatMap fun b => storage b :: Mode.zero .value ++ [.own .store, .pop]) ++ result ++
      [.own (.slide names.length)]
  rwa [map_name_numbered] at h

end

/-- what a function sees: its parameters and all that it captures -/
theorem isSome_functionScope {params captures : List String} {x : String} :
    (functionScope params captures x).isSome ↔ x ∈ params ∨ x ∈ captures := by
  rw [functionScope, Scope.isSome_extend, map_name_functionBindings, List.mem_append]
  simp [Scope.empty]

/-- all that a body uses stands for something in the function -/
theorem isSome_of_captures {params captures : List String} {body : Expr}
    (h : ∀ x, x ∈ captures ↔ x ∉ params ∧ x ∈ body.uses) : ∀ x ∈ body.uses, (functionScope params captures x).isSome := by
  intro x hx
  rw [isSome_functionScope, h]
  tauto

/-- **Expressions.** The code of an expression is generated just when its names are in order and all stand for
something. -/
theorem accepts_code (e : Expr) : ∀ s ρ depth mode, Accepts s ρ (code s depth mode e) (e.ResolvesIn ρ) := by
  refine Expr.byParts (motive := fun e => ∀ s ρ depth mode, Accepts s ρ (code s depth mode e) (e.ResolvesIn ρ))
    (fun e ih => ?_) e
  intro s ρ depth mode
  cases e with
  | number | bool => exact (Accepts.pure _).congr (by simp [Expr.ResolvesIn, Expr.uses, Expr.everywhere, Expr.distinctNames])
  | var name =>
    exact (Accepts.lookup fun _ _ => .pure _).congr
      (by simp [Expr.ResolvesIn, Expr.uses, Expr.everywhere, Expr.distinctNames])
  | unary op operand =>
    refine ((ih operand (by simp [Expr.children]) s ρ depth .basic).map _).congr ?_
    simp [Expr.resolvesIn_iff_of_binders (e := .unary op operand) rfl, Expr.distinctNames, Expr.children]
  | binary op lhs rhs =>
    refine ((ih lhs (by simp [Expr.children]) s ρ depth .basic).bind fun _ =>
      (ih rhs (by simp [Expr.children]) s ρ (depth + 1) .basic).map _).congr ?_
    simp [Expr.resolvesIn_iff_of_binders (e := .binary op lhs rhs) rfl, Expr.distinctNames, Expr.children]
  | assign name value =>
    refine (Accepts.lookup fun _ _ => (ih value (by simp [Expr.children]) s ρ (depth + 1) .value).map _).congr ?_
    simp [Expr.resolvesIn_iff_of_binders (e := .assign name value) rfl, Expr.distinctNames, Expr.children]
  | seq items =>
    refine (accepts_sequence (fun e he => ih e he s ρ depth) mode).congr ?_
    simp [Expr.resolvesIn_iff_of_binders (e := .seq items) rfl, Expr.distinctNames, Expr.children]
  | ite cond thenBranch elseBranch =>
    refine (Accepts.ifThenElse (ih cond (by simp [Expr.children]) s ρ depth .basic)
      (ih thenBranch (by simp [Expr.children]) s ρ depth mode)
      (accepts_optional fun part hp => ih part (by simp_all [Expr.children]) s ρ depth mode)).congr ?_
    simp [Expr.resolvesIn_iff_of_binders (e := .ite cond thenBranch elseBranch) rfl, Expr.distinctNames, Expr.children]
  | whileDo cond body =>
    refine (Accepts.whileDo (ih cond (by simp [Expr.children]) s ρ (depth + 1) .basic)
      (ih body (by simp [Expr.children]) s ρ depth mode)).congr ?_
    simp [Expr.resolvesIn_iff_of_binders (e := .whileDo cond body) rfl, Expr.distinctNames, Expr.children]
  | doWhile body cond =>
    refine (Accepts.doWhile (ih body (by simp [Expr.children]) s ρ depth mode)
      (ih cond (by simp [Expr.children]) s ρ (depth + 1) .basic)).congr ?_
    simp [Expr.resolvesIn_iff_of_binders (e := .doWhile body cond) rfl, Expr.distinctNames, Expr.children]
  | loop count body =>
    refine (Accepts.countedLoop (ih count (by simp [Expr.children]) s ρ (depth + 1) .basic)
      (ih body (by simp [Expr.children]) s ρ (depth + 1) mode)).congr ?_
    simp [Expr.resolvesIn_iff_of_binders (e := .loop count body) rfl, Expr.distinctNames, Expr.children]
  | block bindings body =>
    refine (Accepts.openScope fun inner =>
      (accepts_initial fun b hb => ih b.2 (List.mem_cons_of_mem _ (List.mem_map_of_mem hb)) inner _ _ .value).bind
        fun _ => (ih body (by simp [Expr.children]) inner _ _ mode).map _).congr ?_
    have hinner (x : String) : (ρ.extend (numbered .blockLocal (depth + 1) (bindings.map Prod.fst)) x).isSome ↔
        x ∈ bindings.map Prod.fst ∨ (ρ x).isSome := by rw [Scope.isSome_extend, map_name_numbered]
    rw [Expr.resolvesIn_iff (e := .block bindings body) hinner, map_name_numbered, Expr.children, List.forall_mem_cons,
      List.forall_mem_map]
    simp +contextual only [hinner, List.mem_map_of_mem, true_or, true_and, Expr.distinctNames, decide_eq_true_eq]
    simp [and_comm]
  | lambda params body =>
    refine ((accepts_function (fun frame => balanced_code body frame 0 .value)
      fun frame => ih body (by simp [Expr.children]) frame _ 0 .value).map _).congr ?_
    rw [Expr.resolvesIn_of_uses (isSome_of_captures fun x => Expr.mem_captures), Expr.captures,
      nodup_append_unbound body.nodup_freeNames, Expr.resolvesIn_function (e := .lambda params body) rfl rfl]
    simp [Expr.distinctNames, Expr.binders, mem_unbound, Expr.mem_freeNames]
  | proc params locals body =>
    cases locals with
    | nil =>
      refine ((accepts_function (fun frame => balanced_code body frame 0 .value)
        fun frame => ih body (by simp [Expr.children]) frame _ 0 .value).map _).congr ?_
      rw [Expr.resolvesIn_of_uses (isSome_of_captures fun x => Expr.mem_captures), Expr.captures,
        nodup_append_unbound body.nodup_freeNames, Expr.resolvesIn_function (e := .proc params [] body) rfl rfl]
      simp [Expr.distinctNames, Expr.binders, mem_unbound, Expr.mem_freeNames]
    | cons first rest =>
      refine ((accepts_function (fun frame => balanced_zeroedBlock fun inner => balanced_code body inner _ .value)
        fun frame => accepts_zeroedBlock fun inner => ih body (by simp [Expr.children]) inner _ _ .value).map _).congr ?_
      have hbody : ∀ x ∈ body.uses, (((functionScope params (unbound params (unbound (first :: rest) body.freeNames))).extend
          (numbered .blockLocal 1 (first :: rest))) x).isSome := by
        intro x hx
        rw [Scope.isSome_extend, map_name_numbered, isSome_functionScope, mem_unbound, mem_unbound, Expr.mem_freeNames]
        tauto
      rw [Expr.resolvesIn_of_uses hbody, nodup_append_unbound (nodup_unbound body.nodup_freeNames),
        Expr.resolvesIn_function (e := .proc params (first :: rest) body) rfl rfl]
      simp [Expr.distinctNames, Expr.binders, mem_unbound, Expr.mem_freeNames, and_assoc]
  | call callee args =>
    refine ((ih callee (by simp [Expr.children]) s ρ depth .value).bind fun _ =>
      (accepts_arguments (fun e he depth => ih e (List.mem_cons_of_mem _ he) s ρ depth .value) _).bind fun _ =>
        .fresh fun _ => .pure _).congr ?_
    simp [Expr.resolvesIn_iff_of_binders (e := .call callee args) rfl, Expr.distinctNames, Expr.children]

/-- **Programs.** An expression has a program just when each free name is assigned somewhere, and its names are in
order. -/
theorem exists_compile {e : Expr} : (∃ p, compile .vector e = .ok p) ↔
    (∀ x ∈ e.uses, x ∈ e.assigns) ∧ e.everywhere Expr.distinctNames := by
  have hnodup : ((numbered .global 0 e.globalNames).map Binding.name).Nodup := by
    rw [map_name_numbered]
    exact e.nodup_globalNames
  have hglobals (x : String) : (Scope.empty.extend (numbered .global 0 e.globalNames) x).isSome ↔
      x ∈ e.uses ∧ x ∈ e.assigns := by
    rw [Scope.isSome_extend, map_name_numbered, Expr.mem_globalNames]
    simp [Scope.empty]
  refine exists_compile_iff.trans ((exists_program_iff hnodup (accepts_code e _ _ 0 .basic) .new).trans ?_)
  rw [Expr.ResolvesIn]
  simp +contextual [hglobals]

end ThreeMachines.Vector

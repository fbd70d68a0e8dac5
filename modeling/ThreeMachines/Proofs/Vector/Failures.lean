/-
Why the vector machine refuses an expression.

Every variable is a cell, so nothing that the expression does is out of the machine's reach: the generator fails for a
name that stands for nothing, for a name that one frame binds twice, and for a sequence without items (`blames_code`).
-/
import ThreeMachines.Proofs.Failures.Steps
import ThreeMachines.Proofs.Vector.Acceptance

namespace ThreeMachines.Vector

open Gen

section
variable {K : Storage → Prop} {E : CompileError → Prop} {s : ScopeId} {depth : Int} {mode : Mode}

theorem blames_storages (hundefined : ∀ x, E (.undefinedVariable x)) (names : List String) :
    Blames K E s (storages s names) := by
  induction names with
  | nil => exact .pure _
  | cons name names ih => exact .lookup (hundefined name) fun _ _ => ih.map _

theorem blames_sequence {items : List Expr} (hempty : items = [] → E (.internal .emptySequence))
    (ih : ∀ e ∈ items, ∀ mode, Blames K E s (code s depth mode e)) (mode : Mode) :
    Blames K E s (sequence s depth mode items) := by
  induction items with
  | nil => exact .throw (hempty rfl)
  | cons item rest ihr =>
    have hitem := ih item List.mem_cons_self
    cases rest with
    | nil => exact hitem mode
    | cons next rest => exact (hitem .value).bind fun _ => (ihr nofun fun e he => ih e (List.mem_cons_of_mem _ he)).map _

theorem blames_optional {e : Option Expr} (ih : ∀ part ∈ e.toList, Blames K E s (code s depth mode part)) :
    Blames K E s (optional s depth mode e) := by
  cases e with
  | none => exact .pure _
  | some part => exact ih part (by simp)

theorem blames_initial {bindings : List (String × Expr)} (hundefined : ∀ x, E (.undefinedVariable x))
    (ih : ∀ b ∈ bindings, Blames K E s (code s depth .value b.2)) : Blames K E s (initial s depth bindings) := by
  induction bindings with
  | nil => exact .pure _
  | cons binding rest ihr =>
    exact .lookup (hundefined binding.1) fun _ _ => (ih binding List.mem_cons_self).bind fun _ =>
      (ihr fun b hb => ih b (List.mem_cons_of_mem _ hb)).map _

theorem blames_arguments {args : List Expr} (ih : ∀ e ∈ args, ∀ depth, Blames K E s (code s depth .value e))
    (depth : Int) : Blames K E s (arguments s depth args) := by
  induction args generalizing depth with
  | nil => exact .pure _
  | cons arg rest ihr =>
    exact (ih arg List.mem_cons_self depth).bind fun _ =>
      (ihr (fun e he => ih e (List.mem_cons_of_mem _ he)) (depth + 1)).map _

theorem blames_function {params captures : List String} {body : ScopeId → Gen Op (Code Op)} (hK : ∀ storage, K storage)
    (hundefined : ∀ x, E (.undefinedVariable x))
    (hrepeated : ∀ x b, 1 < (params ++ captures).count x → E (.internal (.alreadyBound x b)))
    (hlabels : ∀ frame, Balanced (body frame)) (hb : ∀ frame, Blames K E frame (body frame)) :
    Blames K E s (function s params captures body) := by
  refine (blames_storages hundefined captures).bind fun _ =>
    .literal (fun _ _ => rfl) hlabels (fun b _ => hK b.storage) (fun x b hx => hrepeated x b ?_) hb
  rwa [map_name_functionBindings] at hx

theorem blames_zeroedBlock {names : List String} {body : ScopeId → Gen Op (Code Op)} (hK : ∀ storage, K storage)
    (hrepeated : ∀ x b, 1 < names.count x → E (.internal (.alreadyBound x b)))
    (hb : ∀ inner, Blames K E inner (body inner)) : Blames K E s (zeroedBlock s names body) := by
  refine .openScope (fun b _ => hK b.storage) (fun x b hx => hrepeated x b ?_)
    fun inner => (hb inner).map _
  rwa [map_name_numbered] at hx

end

/-- **Expressions.** The generator fails for what is wrong with the expression, and for nothing else. -/
theorem blames_code (e : Expr) : ∀ s depth mode, Blames (fun _ => True) (Blame .vector e) s (code s depth mode e) := by
  refine Expr.byParts (motive := fun e => ∀ s depth mode, Blames (fun _ => True) (Blame .vector e) s
    (code s depth mode e)) (fun e ih => ?_) e
  intro s depth mode
  have hpart {part : Expr} (hp : part ∈ e.children) (s : ScopeId) (depth : Int) (mode : Mode) :
      Blames (fun _ => True) (Blame .vector e) s (code s depth mode part) :=
    (ih part hp s depth mode).mono fun _ => .of_child hp
  cases e with
  | number | bool => exact .pure _
  | var name => exact .lookup (.undefined name) fun _ _ => .pure _
  | unary op operand => exact (hpart (by simp [Expr.children]) s depth .basic).map _
  | binary op lhs rhs =>
    exact (hpart (by simp [Expr.children]) s depth .basic).bind fun _ =>
      (hpart (by simp [Expr.children]) s (depth + 1) .basic).map _
  | assign name value =>
    exact .lookup (.undefined name) fun _ _ => (hpart (by simp [Expr.children]) s (depth + 1) .value).map _
  | seq items => exact blames_sequence .of_nil (fun e he => hpart he s depth) mode
  | ite cond thenBranch elseBranch =>
    exact .ifThenElse (hpart (by simp [Expr.children]) s depth .basic) (hpart (by simp [Expr.children]) s depth mode)
      (blames_optional fun part hp => hpart (by simp_all [Expr.children]) s depth mode)
  | whileDo cond body =>
    exact .whileDo (hpart (by simp [Expr.children]) s (depth + 1) .basic) (hpart (by simp [Expr.children]) s depth mode)
  | doWhile body cond =>
    exact .doWhile (hpart (by simp [Expr.children]) s depth mode) (hpart (by simp [Expr.children]) s (depth + 1) .basic)
  | loop count body =>
    exact .countedLoop (hpart (by simp [Expr.children]) s (depth + 1) .basic)
      (hpart (by simp [Expr.children]) s (depth + 1) mode)
  | block bindings body =>
    refine .openScope (fun _ _ => trivial) (fun x b hx => .repeated ?_ b)
      fun inner => (blames_initial .undefined fun b hb =>
        hpart (List.mem_cons_of_mem _ (List.mem_map_of_mem hb)) inner _ .value).bind
          fun _ => (hpart (by simp [Expr.children]) inner _ mode).map _
    rw [map_name_numbered] at hx
    exact Expr.bindsTwice_of_frame List.mem_cons_self hx
  | lambda params body =>
    refine (blames_function (fun _ => trivial) .undefined (fun x b hx => .repeated ?_ b)
      (fun frame => balanced_code body frame 0 .value) fun frame => hpart (by simp [Expr.children]) frame 0 .value).map _
    exact Expr.bindsTwice_of_frame List.mem_cons_self (count_of_append_unbound body.nodup_freeNames hx)
  | proc params locals body =>
    cases locals with
    | nil =>
      refine (blames_function (fun _ => trivial) .undefined (fun x b hx => .repeated ?_ b)
        (fun frame => balanced_code body frame 0 .value) fun frame => hpart (by simp [Expr.children]) frame 0 .value).map _
      exact Expr.bindsTwice_of_frame List.mem_cons_self (count_of_append_unbound body.nodup_freeNames hx)
    | cons first rest =>
      refine (blames_function (fun _ => trivial) .undefined (fun x b hx => .repeated ?_ b)
        (fun frame => balanced_zeroedBlock fun inner => balanced_code body inner _ .value) fun frame =>
          blames_zeroedBlock (fun _ => trivial) (fun x b hx => .repeated ?_ b) fun inner =>
            hpart (by simp [Expr.children]) inner _ .value).map _
      · exact Expr.bindsTwice_of_frame List.mem_cons_self
          (count_of_append_unbound (nodup_unbound body.nodup_freeNames) hx)
      · exact Expr.bindsTwice_of_frame (List.mem_cons_of_mem _ List.mem_cons_self) hx
  | call callee args =>
    exact (hpart (by simp [Expr.children]) s depth .value).bind fun _ =>
      (blames_arguments (fun e he depth => hpart (List.mem_cons_of_mem _ he) s depth .value) _).bind fun _ =>
        (Blames.fresh _).map _

/-- **Programs.** So does the generator of programs. -/
theorem blames_generate {e : Expr} {er : CompileError} {d : Draft Op}
    (h : generate e ⟨.new, .empty, .empty⟩ = .error er d) : Blame .vector e er := by
  refine error_program ?_ (fun _ _ => trivial) (blames_code e _ 0 .basic) h
  rw [map_name_numbered]
  exact e.nodup_globalNames

end ThreeMachines.Vector

/-
Why the closure machine refuses an expression.

A variable that a function has captured is a copy, unless it is a global, and the machine offers no assignment to a copy;
this is looked at before the value of the assignment. Apart from that the generator fails for a name that stands for
nothing, for a name that one frame binds twice, and for a sequence without items (`blames_code`).
-/
import ThreeMachines.Proofs.Failures.Steps
import ThreeMachines.Proofs.Closure.Acceptance

namespace ThreeMachines.Closure

open Gen

section
variable {K : Storage → Prop} {E : CompileError → Prop} {s : ScopeId} {depth : Int}

theorem blames_capture (hundefined : ∀ x, E (.undefinedVariable x)) (names : List String) :
    Blames K E s (capture s depth names) := by
  induction names generalizing depth with
  | nil => exact .pure _
  | cons name names ih => exact .lookup (hundefined name) fun _ _ => ih.map _

theorem blames_sequence {items : List Expr} (hempty : items = [] → E (.internal .emptySequence))
    (ih : ∀ e ∈ items, Blames K E s (code s depth e)) : Blames K E s (sequence s depth items) := by
  induction items with
  | nil => exact .throw (hempty rfl)
  | cons item rest ihr =>
    have hitem := ih item List.mem_cons_self
    cases rest with
    | nil => exact hitem
    | cons next rest => exact hitem.bind fun _ => (ihr nofun fun e he => ih e (List.mem_cons_of_mem _ he)).map _

theorem blames_optional {e : Option Expr} (ih : ∀ part ∈ e.toList, Blames K E s (code s depth part)) :
    Blames K E s (optional s depth e) := by
  cases e with
  | none => exact .pure _
  | some part => exact ih part (by simp)

theorem blames_initial {bindings : List (String × Expr)} (ih : ∀ b ∈ bindings, Blames K E s (code s depth b.2)) :
    Blames K E s (initial s depth bindings) := by
  induction bindings with
  | nil => exact .pure _
  | cons binding rest ihr =>
    exact (ih binding List.mem_cons_self).bind fun _ => (ihr fun b hb => ih b (List.mem_cons_of_mem _ hb)).map _

theorem blames_arguments {args : List Expr} (ih : ∀ e ∈ args, ∀ depth, Blames K E s (code s depth e)) (depth : Int) :
    Blames K E s (arguments s depth args) := by
  induction args generalizing depth with
  | nil => exact .pure _
  | cons arg rest ihr =>
    exact (ih arg List.mem_cons_self depth).bind fun _ =>
      (ihr (fun e he => ih e (List.mem_cons_of_mem _ he)) (depth + 1)).map _

theorem blames_function {params captures : List String} {body : ScopeId → Gen Op (Code Op)} (hK : ∀ storage, K storage)
    (hundefined : ∀ x, E (.undefinedVariable x))
    (hrepeated : ∀ x b, 1 < (params ++ captures).count x → E (.internal (.alreadyBound x b)))
    (hlabels : ∀ frame, Balanced (body frame)) (hb : ∀ frame, Blames K E frame (body frame)) :
    Blames K E s (function s depth params captures body) := by
  have hcapture : Blames K E s (capture s depth captures) := blames_capture hundefined captures
  -- whatever they are stored as, the names that are captured come in this order
  refine .andThen (R := fun made => made.2.map Prod.fst = captures) (t := fun _ => s) (fun d hd => ?_)
    fun made hmade => .literal (fun _ _ => rfl) hlabels (fun b _ => hK b.storage) (fun x b hx => hrepeated x b ?_) hb
  · cases h : capture s depth captures d with
    | ok made d' =>
      obtain ⟨-, hpushed⟩ := capture_ok h
      exact ⟨map_fst_of_pushed hpushed, hcapture.keeps hd h s hd, hcapture.keeps hd h⟩
    | error er d' => exact hcapture.error hd h
  · rwa [List.map_append, map_name_captureBindings, map_name_formalBindings, hmade,
      List.perm_append_comm.count_eq] at hx

theorem blames_zeroedBlock {names : List String} {body : ScopeId → Gen Op (Code Op)} (hK : ∀ storage, K storage)
    (hrepeated : ∀ x b, 1 < names.count x → E (.internal (.alreadyBound x b)))
    (hb : ∀ inner, Blames K E inner (body inner)) : Blames K E s (zeroedBlock s names body) := by
  refine .openScope (fun b _ => hK b.storage) (fun x b hx => hrepeated x b ?_)
    fun inner => (hb inner).map _
  rwa [map_name_blockBindings] at hx

end

/-- **Expressions.** The generator fails for what is wrong with the expression, and for nothing else. -/
theorem blames_code (e : Expr) : ∀ s depth, Blames (fun _ => True) (Blame .closure e) s (code s depth e) := by
  refine Expr.byParts (motive := fun e => ∀ s depth, Blames (fun _ => True) (Blame .closure e) s (code s depth e))
    (fun e ih => ?_) e
  intro s depth
  have hpart {part : Expr} (hp : part ∈ e.children) (s : ScopeId) (depth : Int) :
      Blames (fun _ => True) (Blame .closure e) s (code s depth part) :=
    (ih part hp s depth).mono fun _ => .of_child hp
  cases e with
  | number | bool => exact .pure _
  | var name => exact .lookup (.undefined name) fun _ _ => .pure _
  | unary op operand => exact (hpart (by simp [Expr.children]) s depth).map _
  | binary op lhs rhs =>
    exact (hpart (by simp [Expr.children]) s depth).bind fun _ => (hpart (by simp [Expr.children]) s (depth + 1)).map _
  | assign name value =>
    refine .lookup (.undefined name) fun b _ => ?_
    by_cases hcopy : b.storage = .captured
    · rw [if_pos hcopy]
      exact (Blames.throw (.assigning rfl name)).bind fun _ => (hpart (by simp [Expr.children]) s depth).map _
    · rw [if_neg hcopy]
      exact (hpart (by simp [Expr.children]) s depth).map _
  | seq items => exact blames_sequence .of_nil fun e he => hpart he s depth
  | ite cond thenBranch elseBranch =>
    exact .ifThenElse (hpart (by simp [Expr.children]) s depth) (hpart (by simp [Expr.children]) s depth)
      (blames_optional fun part hp => hpart (by simp_all [Expr.children]) s depth)
  | whileDo cond body =>
    exact .whileDo (hpart (by simp [Expr.children]) s (depth + 1)) (hpart (by simp [Expr.children]) s depth)
  | doWhile body cond =>
    exact .doWhile (hpart (by simp [Expr.children]) s depth) (hpart (by simp [Expr.children]) s (depth + 1))
  | loop count body =>
    exact .countedLoop (hpart (by simp [Expr.children]) s (depth + 1)) (hpart (by simp [Expr.children]) s (depth + 1))
  | block bindings body =>
    refine .openScope (fun _ _ => trivial) (fun x b hx => .repeated ?_ b)
      fun inner => (blames_initial fun b hb =>
        hpart (List.mem_cons_of_mem _ (List.mem_map_of_mem hb)) inner _).bind
          fun _ => (hpart (by simp [Expr.children]) inner _).map _
    rw [map_name_blockBindings] at hx
    exact Expr.bindsTwice_of_frame List.mem_cons_self hx
  | lambda params body =>
    refine blames_function (fun _ => trivial) .undefined (fun x b hx => .repeated ?_ b)
      (fun frame => balanced_code body frame 0) fun frame => hpart (by simp [Expr.children]) frame 0
    exact Expr.bindsTwice_of_frame List.mem_cons_self (count_of_append_unbound body.nodup_freeNames hx)
  | proc params locals body =>
    cases locals with
    | nil =>
      refine blames_function (fun _ => trivial) .undefined (fun x b hx => .repeated ?_ b)
        (fun frame => balanced_code body frame 0) fun frame => hpart (by simp [Expr.children]) frame 0
      exact Expr.bindsTwice_of_frame List.mem_cons_self (count_of_append_unbound body.nodup_freeNames hx)
    | cons first rest =>
      refine blames_function (fun _ => trivial) .undefined (fun x b hx => .repeated ?_ b)
        (fun frame => balanced_zeroedBlock fun inner => balanced_code body inner _) fun frame =>
          blames_zeroedBlock (fun _ => trivial) (fun x b hx => .repeated ?_ b) fun inner =>
            hpart (by simp [Expr.children]) inner _
      · exact Expr.bindsTwice_of_frame List.mem_cons_self
          (count_of_append_unbound (nodup_unbound body.nodup_freeNames) hx)
      · exact Expr.bindsTwice_of_frame (List.mem_cons_of_mem _ List.mem_cons_self) hx
  | call callee args =>
    exact (Blames.fresh _).bind fun _ =>
      (blames_arguments (fun e he depth => hpart (List.mem_cons_of_mem _ he) s depth) _).bind fun _ =>
        (hpart (by simp [Expr.children]) s _).map _

/-- **Programs.** So does the generator of programs. -/
theorem blames_generate {e : Expr} {er : CompileError} {d : Draft Op}
    (h : generate e ⟨.new, .empty, .empty⟩ = .error er d) : Blame .closure e er := by
  refine error_program ?_ (fun _ _ => trivial) (blames_code e _ 0) h
  rw [map_name_globalBindings]
  exact e.nodup_globalNames

end ThreeMachines.Closure

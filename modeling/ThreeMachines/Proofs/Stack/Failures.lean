/-
Why the stack machine refuses an expression.

A procedure lies in a frame of its own and sees nothing of the frames around it, so the generator refuses one that uses a
variable which is visible where it stands and not global. Apart from that it fails for a name that stands for nothing yet,
for a name that one frame binds twice, where the parameters and the locals of a procedure share a frame, and for a
sequence without items (`blames_code`). No name is ever stored as captured, so every variable has an address.
-/
import ThreeMachines.Proofs.Failures.Steps
import ThreeMachines.Proofs.Stack.Acceptance

namespace ThreeMachines.Stack

open Gen

/-- the kinds of storage there are on the stack machine -/
def Addressed (storage : Storage) : Prop := storage ≠ .captured

section
variable {E : CompileError → Prop} {s : ScopeId} {depth : Int}

theorem blames_address {b : Binding} (hb : Addressed b.storage) : Blames Addressed E s (address b) := by
  unfold address
  split
  · exact .pure _
  · exact .pure _
  · exact .pure _
  · rename_i hcaptured
    exact absurd hcaptured hb

theorem blames_refuseCaptures
    (hcapturing : ∀ storage x, storage ≠ .global → E (.unsupported (.capturing storage x) .stack)) (names : List String) :
    Blames Addressed E s (refuseCaptures s names) := by
  induction names with
  | nil => exact .pure _
  | cons name names ih =>
    unfold refuseCaptures
    refine .of_get fun d => ?_
    split
    · split
      · exact ih
      · rename_i hlocal
        exact .throw (hcapturing _ name hlocal)
    · exact ih

theorem blames_sequence {items : List Expr} (hempty : items = [] → E (.internal .emptySequence))
    (ih : ∀ e ∈ items, Blames Addressed E s (code s depth e)) : Blames Addressed E s (sequence s depth items) := by
  induction items with
  | nil => exact .throw (hempty rfl)
  | cons item rest ihr =>
    have hitem := ih item List.mem_cons_self
    cases rest with
    | nil => exact hitem
    | cons next rest => exact hitem.bind fun _ => (ihr nofun fun e he => ih e (List.mem_cons_of_mem _ he)).map _

theorem blames_optional {e : Option Expr} (ih : ∀ part ∈ e.toList, Blames Addressed E s (code s depth part)) :
    Blames Addressed E s (optional s depth e) := by
  cases e with
  | none => exact .pure _
  | some part => exact ih part (by simp)

theorem blames_initial {bindings : List (String × Expr)}
    (ih : ∀ b ∈ bindings, Blames Addressed E s (code s depth b.2)) (place : Int) :
    Blames Addressed E s (initial s depth place bindings) := by
  induction bindings generalizing place with
  | nil => exact .pure _
  | cons binding rest ihr =>
    exact (ih binding List.mem_cons_self).bind fun _ =>
      (ihr (fun b hb => ih b (List.mem_cons_of_mem _ hb)) (place + 1)).map _

theorem blames_reversed {args : List Expr} (ih : ∀ e ∈ args, ∀ depth, Blames Addressed E s (code s depth e)) :
    Blames Addressed E s (reversed s depth args) := by
  induction args with
  | nil => exact .pure _
  | cons arg rest ihr =>
    exact (ihr fun e he => ih e (List.mem_cons_of_mem _ he)).bind fun _ => (ih arg List.mem_cons_self _).map _

/-- a procedure, with or without locals -/
theorem blames_procedure {bindings : List Binding} {captures : List String} {body : ScopeId → Gen Op (Code Op)}
    {result : Label → Label → Code Op → Code Op} (hbindings : ∀ b ∈ bindings, Addressed b.storage)
    (hcapturing : ∀ storage x, storage ≠ .global → E (.unsupported (.capturing storage x) .stack))
    (hrepeated : ∀ x b, 1 < (bindings.map Binding.name).count x → E (.internal (.alreadyBound x b)))
    (hb : ∀ frame, Blames Addressed E frame (body frame)) : Blames Addressed E s (do
      refuseCaptures s captures
      let entry ← Gen.fresh "proc"
      let stop ← Gen.fresh "endproc"
      let frame ← Gen.openScope (some (← Gen.rootOf s)) bindings
      return result entry stop (← body frame)) :=
  (blames_refuseCaptures hcapturing captures).bind fun _ => (Blames.fresh _).bind fun _ => (Blames.fresh _).bind fun _ =>
    .rootOf fun _ => .openScope hbindings hrepeated fun frame => (hb frame).map _

end

/-- **Expressions.** The generator fails for what is wrong with the expression, and for nothing else. -/
theorem blames_code (e : Expr) : ∀ s depth, Blames Addressed (Blame .stack e) s (code s depth e) := by
  refine Expr.byParts (motive := fun e => ∀ s depth, Blames Addressed (Blame .stack e) s (code s depth e))
    (fun e ih => ?_) e
  intro s depth
  have hpart {part : Expr} (hp : part ∈ e.children) (s : ScopeId) (depth : Int) :
      Blames Addressed (Blame .stack e) s (code s depth part) :=
    (ih part hp s depth).mono fun _ => .of_child hp
  cases e with
  | number | bool => exact .pure _
  | var name => exact .lookup (.undefined name) fun b hb => (blames_address hb).map _
  | unary op operand => exact (hpart (by simp [Expr.children]) s depth).map _
  | binary op lhs rhs =>
    exact (hpart (by simp [Expr.children]) s depth).bind fun _ => (hpart (by simp [Expr.children]) s (depth + 1)).map _
  | assign name value =>
    exact .resolveOrAllocate nofun fun b hb => (hpart (by simp [Expr.children]) s depth).bind fun _ =>
      (blames_address hb).map _
  | seq items => exact blames_sequence .of_nil fun e he => hpart he s depth
  | ite cond thenBranch elseBranch =>
    exact .ifThenElse (hpart (by simp [Expr.children]) s depth) (hpart (by simp [Expr.children]) s depth)
      (blames_optional fun part hp => hpart (by simp_all [Expr.children]) s depth)
  | whileDo cond body =>
    exact .whileDo (hpart (by simp [Expr.children]) s (depth + 1)) (hpart (by simp [Expr.children]) s depth)
  | doWhile body cond =>
    exact .doWhile (hpart (by simp [Expr.children]) s depth) (hpart (by simp [Expr.children]) s (depth + 1))
  | loop count body =>
    exact .countedLoop (hpart (by simp [Expr.children]) s (depth + 1)) (hpart (by simp [Expr.children]) s (depth + 1))
  | block bindings body =>
    refine .openScope (fun b hb => by simp [Addressed, mem_blockBindings hb]) (fun x b hx => .repeated ?_ b)
      fun inner => (blames_initial (fun b hb =>
        hpart (List.mem_cons_of_mem _ (List.mem_map_of_mem hb)) inner _) _).bind
          fun _ => (hpart (by simp [Expr.children]) inner _).map _
    rw [map_name_blockBindings] at hx
    exact Expr.bindsTwice_of_frame List.mem_cons_self hx
  | lambda params body =>
    refine blames_procedure (fun b hb => by simp [Addressed, mem_formalBindings hb]) (fun _ x hs => .capturing rfl hs x)
      (fun x b hx => .repeated ?_ b) fun frame => hpart (by simp [Expr.children]) frame 0
    rw [map_name_formalBindings] at hx
    exact Expr.bindsTwice_of_frame List.mem_cons_self hx
  | proc params locals body =>
    refine blames_procedure (fun b hb => ?_) (fun _ x hs => .capturing rfl hs x)
      (fun x b hx => .repeated ?_ b) fun frame => hpart (by simp [Expr.children]) frame _
    · rcases List.mem_append.1 hb with hb | hb
      · simp [Addressed, mem_formalBindings hb]
      · simp [Addressed, mem_blockBindings hb]
    · rw [← frameBindings, map_name_frameBindings] at hx
      exact Expr.bindsTwice_of_frame List.mem_cons_self hx
  | call callee args =>
    cases args with
    | nil => exact (hpart (by simp [Expr.children]) s _).map _
    | cons arg args =>
      exact (blames_reversed fun e he depth => hpart (List.mem_cons_of_mem _ he) s depth).bind fun _ =>
        (hpart (by simp [Expr.children]) s _).map _

/-- **Programs.** So does the generator of programs. -/
theorem blames_generate {e : Expr} {er : CompileError} {d : Draft Op}
    (h : generate e ⟨.new, .empty, .empty⟩ = .error er d) : Blame .stack e er := by
  have hprogram : Blames Addressed (Blame .stack e) ScopeTable.global (generate e) :=
    (blames_code e _ 0).bind fun _ => .of_get fun _ => .pure _
  exact hprogram.error (ready_start .new) h

end ThreeMachines.Stack

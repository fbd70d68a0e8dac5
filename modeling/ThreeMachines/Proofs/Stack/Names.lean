/-
The names and labels that the stack machine's code comes with.

- `keepsNames_code`: the generator binds names of the expression and issues labels of known kinds.
-/
import ThreeMachines.Proofs.Listings.Names
import ThreeMachines.Proofs.Stack.Acceptance

namespace ThreeMachines.Stack

open Gen

section
variable {s : ScopeId} {depth : Int}

theorem keepsNames_address (b : Binding) : KeepsNames (address b) := by
  unfold address
  split
  · exact .pure _
  · exact .pure _
  · exact .pure _
  · exact .throw _

theorem keepsNames_refuseCaptures (s : ScopeId) (names : List String) : KeepsNames (refuseCaptures s names) := by
  induction names with
  | nil => exact .pure _
  | cons name names ih =>
    unfold refuseCaptures
    refine .of_get fun d => ?_
    split
    · split
      · exact ih
      · exact .throw _
    · exact ih

theorem keepsNames_sequence {items : List Expr} (ih : ∀ e ∈ items, KeepsNames (code s depth e)) :
    KeepsNames (sequence s depth items) := by
  induction items with
  | nil => exact .throw _
  | cons item rest ihr =>
    have hitem := ih item List.mem_cons_self
    cases rest with
    | nil => exact hitem
    | cons next rest => exact hitem.bind fun _ => (ihr fun e he => ih e (List.mem_cons_of_mem _ he)).map _

theorem keepsNames_optional {e : Option Expr} (ih : ∀ part ∈ e.toList, KeepsNames (code s depth part)) :
    KeepsNames (optional s depth e) := by
  cases e with
  | none => exact .pure _
  | some part => exact ih part (by simp)

theorem keepsNames_initial {bindings : List (String × Expr)} (ih : ∀ b ∈ bindings, KeepsNames (code s depth b.2))
    (place : Int) : KeepsNames (initial s depth place bindings) := by
  induction bindings generalizing place with
  | nil => exact .pure _
  | cons binding rest ihr =>
    exact (ih binding List.mem_cons_self).bind fun _ =>
      (ihr (fun b hb => ih b (List.mem_cons_of_mem _ hb)) (place + 1)).map _

theorem keepsNames_reversed {args : List Expr} (ih : ∀ e ∈ args, ∀ depth, KeepsNames (code s depth e)) :
    KeepsNames (reversed s depth args) := by
  induction args with
  | nil => exact .pure _
  | cons arg rest ihr =>
    exact (ihr fun e he => ih e (List.mem_cons_of_mem _ he)).bind fun _ => (ih arg List.mem_cons_self _).map _

/-- a procedure, with or without locals -/
theorem keepsNames_procedure {bindings : List Binding} {captures : List String} {body : ScopeId → Gen Op (Code Op)}
    {result : Label → Label → Code Op → Code Op} (hbindings : ∀ x ∈ bindings.map Binding.name, isName x)
    (hb : ∀ frame, KeepsNames (body frame)) : KeepsNames (do
      refuseCaptures s captures
      let entry ← Gen.fresh "proc"
      let stop ← Gen.fresh "endproc"
      let frame ← Gen.openScope (some (← Gen.rootOf s)) bindings
      return result entry stop (← body frame)) :=
  (keepsNames_refuseCaptures s captures).bind fun _ => (KeepsNames.fresh (by decide)).bind fun _ =>
    (KeepsNames.fresh (by decide)).bind fun _ => (KeepsNames.rootOf s).bind fun _ =>
      (KeepsNames.openScope _ hbindings).bind fun frame => (hb frame).map _

end

/-- **Expressions.** The names are those of the expression. -/
theorem keepsNames_code {e : Expr} (h : e.wellFormed) (s : ScopeId) (depth : Int) : KeepsNames (code s depth e) := by
  induction e using Expr.byParts generalizing s depth with
  | step e ih =>
    have hpart {part : Expr} (hp : part ∈ e.children) (s : ScopeId) (depth : Int) : KeepsNames (code s depth part) :=
      ih part hp ((Expr.wellFormed_iff.1 h).2 part hp) s depth
    have hbound {x : String} (hx : x ∈ e.binders) : isName x := Expr.isName_of_binders h hx
    cases e with
    | number | bool => exact .pure _
    | var name => exact (KeepsNames.lookup s name).bind fun b => (keepsNames_address b).map _
    | unary op operand => exact (hpart (by simp [Expr.children]) s depth).map _
    | binary op lhs rhs =>
      exact (hpart (by simp [Expr.children]) s depth).bind fun _ =>
        (hpart (by simp [Expr.children]) s (depth + 1)).map _
    | assign name value =>
      have hname : isName name := (Expr.wellFormed_iff.1 h).1
      exact (KeepsNames.resolveOrAllocate s hname).bind fun b => (hpart (by simp [Expr.children]) s depth).bind fun _ =>
        (keepsNames_address b).map _
    | seq items => exact keepsNames_sequence fun e he => hpart he s depth
    | ite cond thenBranch elseBranch =>
      exact .ifThenElse (hpart (by simp [Expr.children]) s depth) (hpart (by simp [Expr.children]) s depth)
        (keepsNames_optional fun part hp => hpart (by simp_all [Expr.children]) s depth)
    | whileDo cond body =>
      exact .whileDo (hpart (by simp [Expr.children]) s (depth + 1)) (hpart (by simp [Expr.children]) s depth)
    | doWhile body cond =>
      exact .doWhile (hpart (by simp [Expr.children]) s depth) (hpart (by simp [Expr.children]) s (depth + 1))
    | loop count body =>
      exact .countedLoop (hpart (by simp [Expr.children]) s (depth + 1)) (hpart (by simp [Expr.children]) s (depth + 1))
    | block bindings body =>
      have hframe : ∀ x ∈ (blockBindings depth (bindings.map Prod.fst)).map Binding.name, isName x := by
        rw [map_name_blockBindings]
        exact fun x hx => hbound hx
      have hvalues (inner : ScopeId) (depth place : Int) : KeepsNames (initial inner depth place bindings) :=
        keepsNames_initial (fun b hb => hpart (List.mem_cons_of_mem _ (List.mem_map_of_mem hb)) inner depth) place
      exact (KeepsNames.openScope (some s) hframe).bind fun inner => (hvalues inner _ _).bind fun _ =>
        (hpart (by simp [Expr.children]) inner _).map _
    | lambda params body =>
      have hframe : ∀ x ∈ (formalBindings firstFormal params).map Binding.name, isName x := by
        rw [map_name_formalBindings]
        exact fun x hx => hbound hx
      exact keepsNames_procedure hframe fun frame => hpart (by simp [Expr.children]) frame 0
    | proc params locals body =>
      have hframe : ∀ x ∈ (formalBindings firstFormal params ++ blockBindings 0 locals).map Binding.name, isName x := by
        rw [← frameBindings, map_name_frameBindings]
        exact fun x hx => hbound hx
      exact keepsNames_procedure hframe fun frame => hpart (by simp [Expr.children]) frame _
    | call callee args =>
      cases args with
      | nil => exact (hpart (by simp [Expr.children]) s _).map _
      | cons arg args =>
        exact (keepsNames_reversed fun e he depth => hpart (List.mem_cons_of_mem _ he) s depth).bind fun _ =>
          (hpart (by simp [Expr.children]) s _).map _

/-- **Programs.** So are those of a program. -/
theorem keepsNames_generate {e : Expr} (h : e.wellFormed) : KeepsNames (generate e) :=
  (keepsNames_code h _ 0).bind fun _ => .of_get fun _ => .pure _

theorem reports_generate (e : Expr) : Reports (generate e) := by
  intro d p d' h
  simp only [generate, Gen.bind_ok, Gen.pure_ok, Gen.get_ok] at h
  obtain ⟨entry, d₁, -, _, _, ⟨rfl, rfl⟩, rfl, rfl⟩ := h
  exact ⟨rfl, List.nil_subset _⟩

end ThreeMachines.Stack

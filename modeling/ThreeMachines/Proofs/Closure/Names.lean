/-
The names and labels that the closure machine's code comes with.

- `keepsNames_code`: the generator binds names of the expression and issues labels of known kinds.
-/
import ThreeMachines.Proofs.Closure.Acceptance
import ThreeMachines.Proofs.Listings.Names

namespace ThreeMachines.Closure

open Gen

section
variable {s : ScopeId} {depth : Int}

theorem keepsNames_capture (s : ScopeId) (depth : Int) (names : List String) : KeepsNames (capture s depth names) := by
  induction names generalizing depth with
  | nil => exact .pure _
  | cons name names ih => exact (KeepsNames.lookup s name).bind fun _ => (ih (depth + 1)).map _

theorem keepsNames_sequence {items : List Expr} (ih : ∀ e ∈ items, KeepsNames (code s depth e)) :
    KeepsNames (sequence s depth items) := by
  induction items with
  | nil => exact .throw _
  | cons item rest ihr =>
    have hitem := ih item List.mem_cons_self
    cases rest with
    | nil => exact hitem
    | cons next rest => exact hitem.bind fun _ => (ihr fun e he => ih e (List.mem_cons_of_mem _ he)).map _

theorem keepsNames_optional {e : Option Expr} (ih : ∀ part ∈ e.toList, KeepsNames (code s depth part)) :
    KeepsNames (optional s depth e) := by
  cases e with
  | none => exact .pure _
  | some part => exact ih part (by simp)

theorem keepsNames_initial {bindings : List (String × Expr)} (ih : ∀ b ∈ bindings, KeepsNames (code s depth b.2)) :
    KeepsNames (initial s depth bindings) := by
  induction bindings with
  | nil => exact .pure _
  | cons binding rest ihr =>
    exact (ih binding List.mem_cons_self).bind fun _ => (ihr fun b hb => ih b (List.mem_cons_of_mem _ hb)).map _

theorem keepsNames_arguments {args : List Expr} (ih : ∀ e ∈ args, ∀ depth, KeepsNames (code s depth e)) (depth : Int) :
    KeepsNames (arguments s depth args) := by
  induction args generalizing depth with
  | nil => exact .pure _
  | cons arg rest ihr =>
    exact (ih arg List.mem_cons_self depth).bind fun _ =>
      (ihr (fun e he => ih e (List.mem_cons_of_mem _ he)) (depth + 1)).map _

theorem keepsNames_function {params captures : List String} {body : ScopeId → Gen Op (Code Op)}
    (hparams : ∀ x ∈ params, isName x) (hcaptures : ∀ x ∈ captures, isName x) (hb : ∀ frame, KeepsNames (body frame)) :
    KeepsNames (function s depth params captures body) := by
  refine (keepsNames_capture s depth captures).bind_of_ok fun d found d₁ hfound => ?_
  obtain ⟨pushed, shared⟩ := found
  -- whatever they are stored as, the names that are captured come in this order
  have hshared : shared.map Prod.fst = captures := map_fst_of_pushed (capture_ok hfound).2
  have hframe : ∀ x ∈ (captureBindings 0 shared ++
      formalBindings (1 - (params.length : Int)) params).map Binding.name, isName x := by
    rw [List.map_append, map_name_captureBindings, map_name_formalBindings, hshared]
    exact List.forall_mem_append.2 ⟨hcaptures, hparams⟩
  exact (KeepsNames.fresh (by decide)).bind fun _ => (KeepsNames.openScope none hframe).bind fun frame =>
    (hb frame).bind fun _ => (KeepsNames.register hparams hcaptures).map _

theorem keepsNames_zeroedBlock {names : List String} {body : ScopeId → Gen Op (Code Op)}
    (hnames : ∀ x ∈ names, isName x) (hb : ∀ inner, KeepsNames (body inner)) :
    KeepsNames (zeroedBlock s names body) := by
  have hframe : ∀ x ∈ (blockBindings 0 names).map Binding.name, isName x := by
    rwa [map_name_blockBindings]
  exact (KeepsNames.openScope _ hframe).bind fun inner => (hb inner).map _

end

/-- **Expressions.** The names are those of the expression. -/
theorem keepsNames_code {e : Expr} (h : e.wellFormed) (s : ScopeId) (depth : Int) : KeepsNames (code s depth e) := by
  induction e using Expr.byParts generalizing s depth with
  | step e ih =>
    have hpart {part : Expr} (hp : part ∈ e.children) (s : ScopeId) (depth : Int) : KeepsNames (code s depth part) :=
      ih part hp ((Expr.wellFormed_iff.1 h).2 part hp) s depth
    have hbound {x : String} (hx : x ∈ e.binders) : isName x := Expr.isName_of_binders h hx
    cases e with
    | number | bool => exact .pure _
    | var name => exact (KeepsNames.lookup s name).map _
    | unary op operand => exact (hpart (by simp [Expr.children]) s depth).map _
    | binary op lhs rhs =>
      exact (hpart (by simp [Expr.children]) s depth).bind fun _ =>
        (hpart (by simp [Expr.children]) s (depth + 1)).map _
    | assign name value =>
      refine (KeepsNames.lookup s name).bind fun b => ?_
      by_cases hcopy : b.storage = .captured
      · rw [if_pos hcopy]
        exact (KeepsNames.throw _).bind fun _ => (hpart (by simp [Expr.children]) s depth).map _
      · rw [if_neg hcopy]
        exact (hpart (by simp [Expr.children]) s depth).map _
    | seq items => exact keepsNames_sequence fun e he => hpart he s depth
    | ite cond thenBranch elseBranch =>
      exact .ifThenElse (hpart (by simp [Expr.children]) s depth) (hpart (by simp [Expr.children]) s depth)
        (keepsNames_optional fun part hp => hpart (by simp_all [Expr.children]) s depth)
    | whileDo cond body =>
      exact .whileDo (hpart (by simp [Expr.children]) s (depth + 1)) (hpart (by simp [Expr.children]) s depth)
    | doWhile body cond =>
      exact .doWhile (hpart (by simp [Expr.children]) s depth) (hpart (by simp [Expr.children]) s (depth + 1))
    | loop count body =>
      exact .countedLoop (hpart (by simp [Expr.children]) s (depth + 1)) (hpart (by simp [Expr.children]) s (depth + 1))
    | block bindings body =>
      have hframe : ∀ x ∈ (blockBindings depth (bindings.map Prod.fst)).map Binding.name, isName x := by
        rw [map_name_blockBindings]
        exact fun x hx => hbound hx
      have hvalues (inner : ScopeId) (depth : Int) : KeepsNames (initial inner depth bindings) :=
        keepsNames_initial fun b hb => hpart (List.mem_cons_of_mem _ (List.mem_map_of_mem hb)) inner depth
      exact (KeepsNames.openScope (some s) hframe).bind fun inner => (hvalues inner _).bind fun _ =>
        (hpart (by simp [Expr.children]) inner _).map _
    | lambda params body =>
      have hbody : body.wellFormed := (Expr.wellFormed_iff.1 h).2 body (by simp [Expr.children])
      have hcaptures : ∀ x ∈ body.captures params, isName x := fun x hx => Expr.isName_of_captures hbody hx
      exact keepsNames_function (fun x hx => hbound hx) hcaptures fun frame => hpart (by simp [Expr.children]) frame 0
    | proc params locals body =>
      have hbody : body.wellFormed := (Expr.wellFormed_iff.1 h).2 body (by simp [Expr.children])
      have hparams : ∀ x ∈ params, isName x := fun x hx => hbound (List.mem_append_left _ hx)
      have hlocals : ∀ x ∈ locals, isName x := fun x hx => hbound (List.mem_append_right _ hx)
      cases locals with
      | nil =>
        have hcaptures : ∀ x ∈ body.captures params, isName x := fun x hx => Expr.isName_of_captures hbody hx
        exact keepsNames_function hparams hcaptures fun frame => hpart (by simp [Expr.children]) frame 0
      | cons first rest =>
        have hcaptures : ∀ x ∈ unbound params (unbound (first :: rest) body.freeNames), isName x := fun x hx =>
          Expr.isName_of_freeNames hbody (mem_unbound.1 (mem_unbound.1 hx).2).2
        exact keepsNames_function hparams hcaptures fun frame => keepsNames_zeroedBlock hlocals fun inner =>
          hpart (by simp [Expr.children]) inner _
    | call callee args =>
      exact (KeepsNames.fresh (by decide)).bind fun _ =>
        (keepsNames_arguments (fun e he depth => hpart (List.mem_cons_of_mem _ he) s depth) _).bind fun _ =>
          (hpart (by simp [Expr.children]) s _).map _

/-- **Programs.** So are those of a program. -/
theorem keepsNames_generate {e : Expr} (h : e.wellFormed) : KeepsNames (generate e) := by
  have hglobals : ∀ x ∈ (globalBindings 0 e.globalNames).map Binding.name, isName x := by
    rw [map_name_globalBindings]
    exact fun x hx => Expr.isName_of_uses h (Expr.mem_globalNames.1 hx).1
  exact (KeepsNames.bindAll _ hglobals).bind fun _ => (keepsNames_code h _ 0).bind fun _ => .of_get fun _ => .pure _

theorem reports_generate (e : Expr) : Reports (generate e) := by
  intro d p d' h
  simp only [generate, Gen.bind_ok, Gen.pure_ok, Gen.get_ok] at h
  obtain ⟨_, d₁, -, entry, d₂, -, _, _, ⟨rfl, rfl⟩, rfl, rfl⟩ := h
  exact ⟨rfl, List.Subset.refl _⟩

end ThreeMachines.Closure

/-
The names and labels that the vector machine's code comes with.

- `keepsNames_code`: the generator binds names of the expression and issues labels of known kinds.
-/
import ThreeMachines.Proofs.Listings.Names
import ThreeMachines.Proofs.Vector.Acceptance

namespace ThreeMachines.Vector

open Gen

section
variable {s : ScopeId} {depth : Int} {mode : Mode}

theorem keepsNames_storages (s : ScopeId) (names : List String) : KeepsNames (storages s names) := by
  induction names with
  | nil => exact .pure _
  | cons name names ih => exact (KeepsNames.lookup s name).bind fun _ => ih.map _

theorem keepsNames_sequence {items : List Expr} (ih : ∀ e ∈ items, ∀ mode, KeepsNames (code s depth mode e))
    (mode : Mode) : KeepsNames (sequence s depth mode items) := by
  induction items with
  | nil => exact .throw _
  | cons item rest ihr =>
    have hitem := ih item List.mem_cons_self
    cases rest with
    | nil => exact hitem mode
    | cons next rest => exact (hitem .value).bind fun _ => (ihr fun e he => ih e (List.mem_cons_of_mem _ he)).map _

theorem keepsNames_optional {e : Option Expr} (ih : ∀ part ∈ e.toList, KeepsNames (code s depth mode part)) :
    KeepsNames (optional s depth mode e) := by
  cases e with
  | none => exact .pure _
  | some part => exact ih part (by simp)

theorem keepsNames_initial {bindings : List (String × Expr)}
    (ih : ∀ b ∈ bindings, KeepsNames (code s depth .value b.2)) : KeepsNames (initial s depth bindings) := by
  induction bindings with
  | nil => exact .pure _
  | cons binding rest ihr =>
    exact (KeepsNames.lookup s binding.1).bind fun _ => (ih binding List.mem_cons_self).bind fun _ =>
      (ihr fun b hb => ih b (List.mem_cons_of_mem _ hb)).map _

theorem keepsNames_arguments {args : List Expr} (ih : ∀ e ∈ args, ∀ depth, KeepsNames (code s depth .value e))
    (depth : Int) : KeepsNames (arguments s depth args) := by
  induction args generalizing depth with
  | nil => exact .pure _
  | cons arg rest ihr =>
    exact (ih arg List.mem_cons_self depth).bind fun _ =>
      (ihr (fun e he => ih e (List.mem_cons_of_mem _ he)) (depth + 1)).map _

theorem keepsNames_function {params captures : List String} {body : ScopeId → Gen Op (Code Op)}
    (hparams : ∀ x ∈ params, isName x) (hcaptures : ∀ x ∈ captures, isName x) (hb : ∀ frame, KeepsNames (body frame)) :
    KeepsNames (function s params captures body) := by
  have hframe : ∀ x ∈ (numbered .formal 0 params ++ numbered .captured 0 captures).map Binding.name, isName x := by
    rw [map_name_functionBindings]
    exact List.forall_mem_append.2 ⟨hparams, hcaptures⟩
  exact (keepsNames_storages s captures).bind fun _ => (KeepsNames.fresh (by decide)).bind fun _ =>
    (KeepsNames.openScope none hframe).bind fun frame => (hb frame).bind fun _ =>
      (KeepsNames.register hparams hcaptures).map _

theorem keepsNames_zeroedBlock {names : List String} {body : ScopeId → Gen Op (Code Op)}
    (hnames : ∀ x ∈ names, isName x) (hb : ∀ inner, KeepsNames (body inner)) :
    KeepsNames (zeroedBlock s names body) := by
  have hframe : ∀ x ∈ (numbered .blockLocal 1 names).map Binding.name, isName x := by
    rwa [map_name_numbered]
  exact (KeepsNames.openScope _ hframe).bind fun inner => (hb inner).map _

end

/-- **Expressions.** The names are those of the expression. -/
theorem keepsNames_code {e : Expr} (h : e.wellFormed) (s : ScopeId) (depth : Int) (mode : Mode) :
    KeepsNames (code s depth mode e) := by
  induction e using Expr.byParts generalizing s depth mode with
  | step e ih =>
    have hpart {part : Expr} (hp : part ∈ e.children) (s : ScopeId) (depth : Int) (mode : Mode) :
        KeepsNames (code s depth mode part) :=
      ih part hp ((Expr.wellFormed_iff.1 h).2 part hp) s depth mode
    have hbound {x : String} (hx : x ∈ e.binders) : isName x := Expr.isName_of_binders h hx
    cases e with
    | number | bool => exact .pure _
    | var name => exact (KeepsNames.lookup s name).map _
    | unary op operand => exact (hpart (by simp [Expr.children]) s depth .basic).map _
    | binary op lhs rhs =>
      exact (hpart (by simp [Expr.children]) s depth .basic).bind fun _ =>
        (hpart (by simp [Expr.children]) s (depth + 1) .basic).map _
    | assign name value =>
      exact (KeepsNames.lookup s name).bind fun _ => (hpart (by simp [Expr.children]) s (depth + 1) .value).map _
    | seq items => exact keepsNames_sequence (fun e he => hpart he s depth) mode
    | ite cond thenBranch elseBranch =>
      exact .ifThenElse (hpart (by simp [Expr.children]) s depth .basic) (hpart (by simp [Expr.children]) s depth mode)
        (keepsNames_optional fun part hp => hpart (by simp_all [Expr.children]) s depth mode)
    | whileDo cond body =>
      exact .whileDo (hpart (by simp [Expr.children]) s (depth + 1) .basic)
        (hpart (by simp [Expr.children]) s depth mode)
    | doWhile body cond =>
      exact .doWhile (hpart (by simp [Expr.children]) s depth mode)
        (hpart (by simp [Expr.children]) s (depth + 1) .basic)
    | loop count body =>
      exact .countedLoop (hpart (by simp [Expr.children]) s (depth + 1) .basic)
        (hpart (by simp [Expr.children]) s (depth + 1) mode)
    | block bindings body =>
      have hframe : ∀ x ∈ (numbered .blockLocal (depth + 1) (bindings.map Prod.fst)).map Binding.name, isName x := by
        rw [map_name_numbered]
        exact fun x hx => hbound hx
      have hvalues (inner : ScopeId) (depth : Int) : KeepsNames (initial inner depth bindings) :=
        keepsNames_initial fun b hb => hpart (List.mem_cons_of_mem _ (List.mem_map_of_mem hb)) inner depth .value
      exact (KeepsNames.openScope (some s) hframe).bind fun inner => (hvalues inner _).bind fun _ =>
        (hpart (by simp [Expr.children]) inner _ mode).map _
    | lambda params body =>
      have hbody : body.wellFormed := (Expr.wellFormed_iff.1 h).2 body (by simp [Expr.children])
      have hcaptures : ∀ x ∈ body.captures params, isName x := fun x hx => Expr.isName_of_captures hbody hx
      exact (keepsNames_function (fun x hx => hbound hx) hcaptures
        fun frame => hpart (by simp [Expr.children]) frame 0 .value).map _
    | proc params locals body =>
      have hbody : body.wellFormed := (Expr.wellFormed_iff.1 h).2 body (by simp [Expr.children])
      have hparams : ∀ x ∈ params, isName x := fun x hx => hbound (List.mem_append_left _ hx)
      have hlocals : ∀ x ∈ locals, isName x := fun x hx => hbound (List.mem_append_right _ hx)
      cases locals with
      | nil =>
        have hcaptures : ∀ x ∈ body.captures params, isName x := fun x hx => Expr.isName_of_captures hbody hx
        exact (keepsNames_function hparams hcaptures
          fun frame => hpart (by simp [Expr.children]) frame 0 .value).map _
      | cons first rest =>
        have hcaptures : ∀ x ∈ unbound params (unbound (first :: rest) body.freeNames), isName x := fun x hx =>
          Expr.isName_of_freeNames hbody (mem_unbound.1 (mem_unbound.1 hx).2).2
        exact (keepsNames_function hparams hcaptures fun frame => keepsNames_zeroedBlock hlocals fun inner =>
          hpart (by simp [Expr.children]) inner _ .value).map _
    | call callee args =>
      exact (hpart (by simp [Expr.children]) s depth .value).bind fun _ =>
        (keepsNames_arguments (fun e he depth => hpart (List.mem_cons_of_mem _ he) s depth .value) _).bind fun _ =>
          (KeepsNames.fresh (by decide)).map _

/-- **Programs.** So are those of a program. -/
theorem keepsNames_generate {e : Expr} (h : e.wellFormed) : KeepsNames (generate e) := by
  have hglobals : ∀ x ∈ (numbered .global 0 e.globalNames).map Binding.name, isName x := by
    rw [map_name_numbered]
    exact fun x hx => Expr.isName_of_uses h (Expr.mem_globalNames.1 hx).1
  exact (KeepsNames.bindAll _ hglobals).bind fun _ => (keepsNames_code h _ 0 .basic).bind fun _ =>
    .of_get fun _ => .pure _

theorem reports_generate (e : Expr) : Reports (generate e) := by
  intro d p d' h
  simp only [generate, Gen.bind_ok, Gen.pure_ok, Gen.get_ok] at h
  obtain ⟨_, d₁, -, entry, d₂, -, _, _, ⟨rfl, rfl⟩, rfl, rfl⟩ := h
  exact ⟨rfl, List.Subset.refl _⟩

end ThreeMachines.Vector

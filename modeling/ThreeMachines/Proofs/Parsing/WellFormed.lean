/-
Well-formed expressions, and why the parser gives no others.

An expression is well-formed if no number literal is negative, no sequence is shorter than two, every block binds a
name, and every name can be written (`isName`). Whatever derives from tokens that can be written is well-formed, by
induction on the derivation (`Expression.wellFormed`).
-/
import ThreeMachines.Proofs.Expressions
import ThreeMachines.Proofs.Parsing.Grammar
import ThreeMachines.Proofs.Parsing.Scanning

namespace ThreeMachines

namespace Expr

/-- what well-formed expressions ask of one node -/
def wellFormedNode : Expr → Bool
  | number value => 0 ≤ value
  | var name | assign name _ => isName name
  | seq items => 2 ≤ items.length
  | block bindings _ => !bindings.isEmpty && bindings.all fun b => isName b.1
  | lambda params _ => params.all isName
  | proc params locals _ => params.all isName && locals.all isName
  | _ => true

/-- the literals, the names and the lists of the expression and of all its parts can be written -/
def wellFormed (e : Expr) : Bool := e.everywhere wellFormedNode

theorem wellFormed_iff {e : Expr} : e.wellFormed ↔ e.wellFormedNode ∧ ∀ part ∈ e.children, part.wellFormed :=
  everywhere_iff

theorem wellFormed_ofItems {items : List Expr} (hne : items ≠ []) (h : ∀ e ∈ items, e.wellFormed) :
    (ofItems items).wellFormed := by
  match items, hne with
  | [e], _ => exact h e (List.mem_singleton_self e)
  | e :: e' :: items, _ =>
    have hseq : (seq (e :: e' :: items)).wellFormed := wellFormed_iff.2 ⟨by simp [wellFormedNode], h⟩
    exact hseq

theorem wellFormed_namedFunction {name : String} {params : List String} {body : Expr} (hname : isName name)
    (hparams : ∀ x ∈ params, isName x) (h : body.wellFormed) : (namedFunction name params body).wellFormed := by
  have hlambda : (lambda params body).wellFormed :=
    wellFormed_iff.2 ⟨List.all_eq_true.2 hparams, by simpa [children] using h⟩
  have hblock : (block [(name, lambda params body)] (var name)).wellFormed :=
    wellFormed_iff.2 ⟨by simp [wellFormedNode, hname],
      by simpa [children] using ⟨wellFormed_iff.2 ⟨hname, List.forall_mem_nil _⟩, hlambda⟩⟩
  exact wellFormed_iff.2 ⟨hname, List.forall_mem_singleton.2 hblock⟩

end Expr

namespace Grammar

open Token

theorem SeparatedBy.ne_nil {α : Type} {sep : Token} {Item : List Token → α → Prop} {u : List Token} {as : List α}
    (h : SeparatedBy sep Item u as) : as ≠ [] := by
  cases h <;> exact List.cons_ne_nil _ _

theorem Name.isName {u : List Token} {name : String} (h : Name u name) (hu : ∀ t ∈ u, t.Writable) : isName name := by
  cases h
  exact hu _ (List.mem_singleton_self _)

theorem Names.isName {u : List Token} {names : List String} (h : Names u names) (hu : ∀ t ∈ u, t.Writable) :
    ∀ name ∈ names, isName name := by
  induction h with
  | one item => simpa using item.isName hu
  | more item later ih =>
    rw [List.forall_mem_append, List.forall_mem_cons] at hu
    exact List.forall_mem_cons.2 ⟨item.isName hu.1, ih hu.2.2⟩

theorem Parenthesised.isName {u : List Token} {names : List String} (h : Parenthesised Name u names)
    (hu : ∀ t ∈ u, t.Writable) : ∀ name ∈ names, isName name := by
  cases h with
  | none => exact nofun
  | some items => exact Names.isName items fun t ht => hu t (by simp [ht])

theorem Parameters.isName {u : List Token} {names : List String} (h : Parameters u names)
    (hu : ∀ t ∈ u, t.Writable) : ∀ name ∈ names, isName name := by
  cases h with
  | single h => simpa using h.isName hu
  | list h => exact h.isName hu

theorem Locals.isName {u : List Token} {names : List String} (h : Locals u names)
    (hu : ∀ t ∈ u, t.Writable) : ∀ name ∈ names, isName name := by
  cases h with
  | none => exact nofun
  | some h => exact Names.isName h fun t ht => hu t (List.mem_cons_of_mem _ ht)

mutual

theorem Expression.wellFormed {u : List Token} {e : Expr} : Expression u e → (∀ t ∈ u, t.Writable) → e.wellFormed
  | .lambda head h, hu => by
    rw [List.forall_mem_append, List.forall_mem_cons] at hu
    refine Expr.wellFormed_iff.2 ⟨List.all_eq_true.2 (head.isName hu.1), ?_⟩
    simpa [Expr.children] using h.wellFormed hu.2.2
  | .assign head h, hu => by
    rw [List.forall_mem_append, List.forall_mem_cons] at hu
    refine Expr.wellFormed_iff.2 ⟨head.isName hu.1, ?_⟩
    simpa [Expr.children] using h.wellFormed hu.2.2
  | .form h, hu => h.wellFormed hu
  | .operation h, hu => h.wellFormed hu

theorem Form.wellFormed {u : List Token} {e : Expr} : Form u e → (∀ t ∈ u, t.Writable) → e.wellFormed
  | .block bindings h, hu => by
    simp only [List.cons_append, List.forall_mem_append, List.forall_mem_cons] at hu
    have hbound := bindings_wellFormed bindings hu.2.1
    refine Expr.wellFormed_iff.2 ⟨?_, List.forall_mem_cons.2 ⟨h.wellFormed hu.2.2.2, ?_⟩⟩
    · simp only [Expr.wellFormedNode, Bool.and_eq_true, Bool.not_eq_true', List.isEmpty_eq_false_iff, List.all_eq_true]
      exact ⟨bindings.ne_nil, fun b hb => (hbound b hb).1⟩
    · exact List.forall_mem_map.2 fun b hb => (hbound b hb).2
  | .ifThen h₁ h₂, hu => by
    simp only [List.cons_append, List.forall_mem_append, List.forall_mem_cons] at hu
    refine Expr.wellFormed_iff.2 ⟨rfl, ?_⟩
    simpa [Expr.children] using ⟨h₁.wellFormed hu.2.1, h₂.wellFormed hu.2.2.2⟩
  | .ifThenElse h₁ h₂ h₃, hu => by
    simp only [List.cons_append, List.forall_mem_append, List.forall_mem_cons] at hu
    refine Expr.wellFormed_iff.2 ⟨rfl, ?_⟩
    simpa [Expr.children] using ⟨h₁.wellFormed hu.2.1.1, h₂.wellFormed hu.2.1.2.2, h₃.wellFormed hu.2.2.2⟩
  | .whileDo h₁ h₂, hu | .doWhile h₁ h₂, hu | .loop h₁ h₂, hu => by
    simp only [List.cons_append, List.forall_mem_append, List.forall_mem_cons] at hu
    refine Expr.wellFormed_iff.2 ⟨rfl, ?_⟩
    simpa [Expr.children] using ⟨h₁.wellFormed hu.2.1, h₂.wellFormed hu.2.2.2⟩
  | .function head parameters h, hu => by
    simp only [List.cons_append, List.forall_mem_append, List.forall_mem_cons] at hu
    exact Expr.wellFormed_namedFunction (head.isName hu.2.1.1) (parameters.isName hu.2.1.2) (h.wellFormed hu.2.2.2)
  | .procedure parameters names h, hu => by
    simp only [List.cons_append, List.forall_mem_append, List.forall_mem_cons] at hu
    refine Expr.wellFormed_iff.2 ⟨?_, by simpa [Expr.children] using h.wellFormed hu.2.2.2⟩
    simp only [Expr.wellFormedNode, Bool.and_eq_true, List.all_eq_true]
    exact ⟨parameters.isName hu.2.1.1, names.isName hu.2.1.2⟩

theorem Level.wellFormed {n : Nat} {u : List Token} {e : Expr} : Level n u e → (∀ t ∈ u, t.Writable) → e.wellFormed
  | .unary h, hu => h.wellFormed hu
  | .weaker h, hu => h.wellFormed hu
  | .binary left _ right, hu => by
    rw [List.forall_mem_append, List.forall_mem_cons] at hu
    refine Expr.wellFormed_iff.2 ⟨rfl, ?_⟩
    simpa [Expr.children] using ⟨left.wellFormed hu.1, right.wellFormed hu.2.2⟩

theorem Unary.wellFormed {u : List Token} {e : Expr} : Unary u e → (∀ t ∈ u, t.Writable) → e.wellFormed
  | .neg h, hu | .not h, hu => by
    refine Expr.wellFormed_iff.2 ⟨rfl, ?_⟩
    simpa [Expr.children] using h.wellFormed (List.forall_mem_cons.1 hu).2
  | .operand h, hu => h.wellFormed hu

theorem Operand.wellFormed {u : List Token} {e : Expr} : Operand u e → (∀ t ∈ u, t.Writable) → e.wellFormed
  | .primary h, hu => h.wellFormed hu
  | .call h arguments, hu => by
    rw [List.forall_mem_append] at hu
    refine Expr.wellFormed_iff.2 ⟨rfl, List.forall_mem_cons.2 ⟨h.wellFormed hu.1, callTail_wellFormed arguments hu.2⟩⟩

theorem Primary.wellFormed {u : List Token} {e : Expr} : Primary u e → (∀ t ∈ u, t.Writable) → e.wellFormed
  | .number value, hu => Expr.wellFormed_iff.2 ⟨decide_eq_true (hu _ (List.mem_singleton_self _)), nofun⟩
  | .true, _ | .false, _ => rfl
  | .name h, hu => Expr.wellFormed_iff.2 ⟨h.isName hu, nofun⟩
  | .paren h, hu | .brace h, hu =>
    Expr.wellFormed_ofItems h.ne_nil (sequence_wellFormed h fun t ht => hu t (by simp [ht]))
  | .form h, hu => h.wellFormed hu

theorem sequence_wellFormed {u : List Token} {es : List Expr} :
    Sequence u es → (∀ t ∈ u, t.Writable) → ∀ e ∈ es, e.wellFormed
  | .one item, hu => by simpa using item.wellFormed hu
  | .more item later, hu => by
    rw [List.forall_mem_append, List.forall_mem_cons] at hu
    exact List.forall_mem_cons.2 ⟨item.wellFormed hu.1, sequence_wellFormed later hu.2.2⟩

theorem arguments_wellFormed {u : List Token} {es : List Expr} :
    SeparatedBy (.mark .comma) Expression u es → (∀ t ∈ u, t.Writable) → ∀ e ∈ es, e.wellFormed
  | .one item, hu => by simpa using item.wellFormed hu
  | .more item later, hu => by
    rw [List.forall_mem_append, List.forall_mem_cons] at hu
    exact List.forall_mem_cons.2 ⟨item.wellFormed hu.1, arguments_wellFormed later hu.2.2⟩

theorem callTail_wellFormed {u : List Token} {es : List Expr} :
    Parenthesised Expression u es → (∀ t ∈ u, t.Writable) → ∀ e ∈ es, e.wellFormed
  | .none, _ => nofun
  | .some items, hu => arguments_wellFormed items fun t ht => hu t (by simp [ht])

theorem bindings_wellFormed {u : List Token} {bound : List (String × Expr)} :
    Bindings u bound → (∀ t ∈ u, t.Writable) → ∀ b ∈ bound, isName b.1 ∧ b.2.wellFormed
  | .one item, hu => by simpa using item.wellFormed hu
  | .more item later, hu => by
    rw [List.forall_mem_append, List.forall_mem_cons] at hu
    exact List.forall_mem_cons.2 ⟨item.wellFormed hu.1, bindings_wellFormed later hu.2.2⟩

theorem Binding.wellFormed {u : List Token} {b : String × Expr} :
    Binding u b → (∀ t ∈ u, t.Writable) → isName b.1 ∧ b.2.wellFormed
  | .assign head h, hu => by
    rw [List.forall_mem_append, List.forall_mem_cons] at hu
    exact ⟨head.isName hu.1, h.wellFormed hu.2.2⟩

end

end Grammar
end ThreeMachines

/-
When the names of an expression are in order.

- `Expr.distinctNames`: a check of one node, that names which are bound together are different and that a sequence has an
  item.
- `Expr.assignsWithin`: no assignment reaches out of a function literal to the binder of its target. The names that are
  bound around an expression are told apart by the innermost function literal: `own` are bound in it, `outer` outside.

Both are stated once for all kinds of expression, over their parts (`assignsWithin_iff`).
-/
import Mathlib.Data.String.Basic
import ThreeMachines.Proofs.Generation
import ThreeMachines.Proofs.Occurrences

namespace ThreeMachines

/-! ## Ordered names -/

theorem pairwise_insertName {name : String} {names : List String} (h : names.Pairwise (· < ·)) :
    (insertName name names).Pairwise (· < ·) := by
  induction names with
  | nil => exact List.pairwise_singleton _ _
  | cons other rest ih =>
    obtain ⟨hother, hrest⟩ := List.pairwise_cons.1 h
    rw [insertName]
    split
    · exact h
    · rename_i hne
      split
      · rename_i hlt
        refine List.pairwise_cons.2 ⟨fun x hx => ?_, h⟩
        rcases List.mem_cons.1 hx with rfl | hx
        exacts [hlt, hlt.trans (hother x hx)]
      · rename_i hlt
        have hgt : other < name := lt_of_le_of_ne (not_lt.1 hlt) (Ne.symm hne)
        refine List.pairwise_cons.2 ⟨fun x hx => ?_, ih hrest⟩
        rcases mem_insertName.1 hx with rfl | hx
        exacts [hgt, hother x hx]

theorem pairwise_orderNames (names : List String) : (orderNames names).Pairwise (· < ·) := by
  induction names with
  | nil => exact .nil
  | cons name names ih => exact pairwise_insertName ih

/-- every name is listed once -/
theorem nodup_orderNames (names : List String) : (orderNames names).Nodup :=
  (pairwise_orderNames names).imp fun h => ne_of_lt h

theorem nodup_unbound {bound names : List String} (h : names.Nodup) : (unbound bound names).Nodup := h.filter _

/-- names that are not bound are different from those that are -/
theorem nodup_append_unbound {bound names : List String} (h : names.Nodup) :
    (bound ++ unbound bound names).Nodup ↔ bound.Nodup := by
  refine List.nodup_append'.trans ⟨fun h => h.1, fun hb => ⟨hb, nodup_unbound h, fun x hx hu => ?_⟩⟩
  exact (mem_unbound.1 hu).1 hx

theorem Scope.isSome_extend {ρ : Scope} {bindings : List Binding} {x : String} :
    (ρ.extend bindings x).isSome ↔ x ∈ bindings.map Binding.name ∨ (ρ x).isSome := by
  rw [extend]
  cases h : bindings.find? fun b => b.name = x with
  | some b =>
    have hname : b.name = x := by simpa using List.find?_some h
    simpa using .inl ⟨b, List.mem_of_find?_eq_some h, hname⟩
  | none =>
    have hnot : x ∉ bindings.map Binding.name := by
      rintro hx
      obtain ⟨b, hb, rfl⟩ := List.mem_map.1 hx
      simpa using List.find?_eq_none.1 h b hb
    simp [hnot]

namespace Expr

variable {x : String} {e part : Expr} {own outer : List String}

theorem mem_assignedNames : x ∈ e.assignedNames ↔ x ∈ e.assigns := mem_orderNames

theorem nodup_freeNames (e : Expr) : e.freeNames.Nodup := nodup_orderNames _

theorem nodup_globalNames (e : Expr) : e.globalNames.Nodup := (nodup_orderNames _).filter _

theorem mem_globalNames : x ∈ e.globalNames ↔ x ∈ e.uses ∧ x ∈ e.assigns := by
  rw [globalNames, List.mem_filter, List.contains_iff_mem, mem_freeNames, mem_assignedNames]

/-! ## The criteria -/

/-- names that are bound together are different, and a sequence has an item -/
def distinctNames : Expr → Bool
  | seq items => !items.isEmpty
  | block bindings _ => decide (bindings.map Prod.fst).Nodup
  | lambda params _ => decide params.Nodup
  | proc params locals _ => decide params.Nodup && decide locals.Nodup
  | _ => true

mutual

/-- no assignment has a target whose innermost binder lies outside the innermost function literal around it; around the
expression, `own` are the names bound inside that literal and `outer` those bound outside -/
def assignsWithin (own outer : List String) : Expr → Bool
  | number _ | bool _ | var _ => true
  | unary _ operand => operand.assignsWithin own outer
  | binary _ lhs rhs => lhs.assignsWithin own outer && rhs.assignsWithin own outer
  | assign name value => (own.contains name || !outer.contains name) && value.assignsWithin own outer
  | seq items => listAssignsWithin own outer items
  | ite cond thenBranch elseBranch =>
    cond.assignsWithin own outer && thenBranch.assignsWithin own outer && optionAssignsWithin own outer elseBranch
  | whileDo cond body => cond.assignsWithin own outer && body.assignsWithin own outer
  | doWhile body cond => body.assignsWithin own outer && cond.assignsWithin own outer
  | loop count body => count.assignsWithin own outer && body.assignsWithin own outer
  | block bindings body =>
    bindingsAssignWithin (bindings.map Prod.fst ++ own) outer bindings &&
      body.assignsWithin (bindings.map Prod.fst ++ own) outer
  | lambda params body => body.assignsWithin params (own ++ outer)
  | proc params locals body => body.assignsWithin (params ++ locals) (own ++ outer)
  | call callee args => callee.assignsWithin own outer && listAssignsWithin own outer args

def listAssignsWithin (own outer : List String) : List Expr → Bool
  | [] => true
  | e :: es => e.assignsWithin own outer && listAssignsWithin own outer es

def optionAssignsWithin (own outer : List String) : Option Expr → Bool
  | none => true
  | some e => e.assignsWithin own outer

def bindingsAssignWithin (own outer : List String) : List (String × Expr) → Bool
  | [] => true
  | (_, value) :: rest => value.assignsWithin own outer && bindingsAssignWithin own outer rest

end

/-- the names bound in the innermost function literal around the parts -/
def ownInside (own : List String) (e : Expr) : List String := if e.isFunction then e.binders else e.binders ++ own

/-- the names bound outside that literal -/
def outerInside (own outer : List String) (e : Expr) : List String := if e.isFunction then own ++ outer else outer

theorem listAssignsWithin_iff (items : List Expr) :
    listAssignsWithin own outer items ↔ ∀ e ∈ items, e.assignsWithin own outer := by
  induction items with
  | nil => simp [listAssignsWithin]
  | cons e es ih => simp [listAssignsWithin, ih]

theorem bindingsAssignWithin_iff (bindings : List (String × Expr)) :
    bindingsAssignWithin own outer bindings ↔ ∀ b ∈ bindings, b.2.assignsWithin own outer := by
  induction bindings with
  | nil => simp [bindingsAssignWithin]
  | cons b rest ih => simp [bindingsAssignWithin, ih]

theorem assignsWithin_iff : e.assignsWithin own outer ↔
    (∀ name value, e = assign name value → name ∈ own ∨ name ∉ outer) ∧
      ∀ part ∈ e.children, part.assignsWithin (e.ownInside own) (e.outerInside own outer) := by
  cases e with
  | ite cond thenBranch elseBranch =>
    cases elseBranch <;>
      simp [assignsWithin, optionAssignsWithin, children, ownInside, outerInside, isFunction, binders, and_assoc]
  | seq items => simp [assignsWithin, listAssignsWithin_iff, children, ownInside, outerInside, isFunction, binders]
  | block bindings body =>
    rw [assignsWithin, Bool.and_eq_true, bindingsAssignWithin_iff, children, List.forall_mem_cons, List.forall_mem_map]
    simp [ownInside, outerInside, isFunction, binders, and_comm]
  | call callee args => simp [assignsWithin, listAssignsWithin_iff, children, ownInside, outerInside, isFunction, binders]
  | assign name value => simp [assignsWithin, children, ownInside, outerInside, isFunction, binders]
  | _ => simp [assignsWithin, children, ownInside, outerInside, isFunction, binders]

/-! ## Names that stand for something -/

/-- every free name stands for something, and the names inside are in order -/
def ResolvesIn (ρ : Scope) (e : Expr) : Prop := (∀ x ∈ e.uses, (ρ x).isSome) ∧ e.everywhere distinctNames

variable {ρ ρ' : Scope}

/-- it is so if the parts resolve where the names that the expression binds stand for something too -/
theorem resolvesIn_iff (hρ : ∀ x, (ρ' x).isSome ↔ x ∈ e.binders ∨ (ρ x).isSome) : e.ResolvesIn ρ ↔
    (∀ x, (e = var x ∨ ∃ value, e = assign x value) → (ρ x).isSome) ∧ e.distinctNames ∧
      ∀ part ∈ e.children, part.ResolvesIn ρ' := by
  simp only [ResolvesIn, everywhere_iff (e := e)]
  constructor
  · rintro ⟨huses, hdistinct, hparts⟩
    refine ⟨fun x hx => huses x (mem_uses.2 (.inl hx)), hdistinct, fun part hp => ⟨fun x hx => ?_, hparts part hp⟩⟩
    rw [hρ, or_iff_not_imp_left]
    exact fun hb => huses x (uses_child hp hx hb)
  · rintro ⟨hroot, hdistinct, hparts⟩
    refine ⟨fun x hx => ?_, hdistinct, fun part hp => (hparts part hp).2⟩
    rcases mem_uses.1 hx with hx | ⟨hb, part, hp, hx⟩
    · exact hroot x hx
    · exact ((hρ x).1 ((hparts part hp).1 x hx)).resolve_left hb

/-- without names of its own, an expression is looked at where its parts are -/
theorem resolvesIn_iff_of_binders (hb : e.binders = []) : e.ResolvesIn ρ ↔
    (∀ x, (e = var x ∨ ∃ value, e = assign x value) → (ρ x).isSome) ∧ e.distinctNames ∧
      ∀ part ∈ e.children, part.ResolvesIn ρ :=
  resolvesIn_iff fun x => by simp [hb]

/-- where all that the expression uses stands for something -/
theorem resolvesIn_of_uses (hρ : ∀ x ∈ e.uses, (ρ x).isSome) : e.ResolvesIn ρ ↔ e.everywhere distinctNames :=
  and_iff_right hρ

/-- a function literal is looked at from where it stands -/
theorem resolvesIn_function {body : Expr} (hbody : e.children = [body]) (hf : e.isFunction) : e.ResolvesIn ρ ↔
    (∀ x ∈ unbound e.binders body.uses, (ρ x).isSome) ∧ e.distinctNames ∧ body.everywhere distinctNames := by
  have huses : e.uses = unbound e.binders body.uses := by
    cases e with
    | lambda | proc =>
      cases hbody
      rfl
    | _ => cases hf
  rw [ResolvesIn, huses, everywhere_iff, hbody, List.forall_mem_singleton]

end Expr
end ThreeMachines

/-
Names and their places on the closure machine.

A binding gives the place of a variable on the stack, relative to the words over the bottom of the frame, or an element of
the vector in GP (`Located`). `Scoped` says of all names of an expression that they find their variables, that those which
it assigns may be assigned, and that those which its functions capture will not be.
-/
import ThreeMachines.Proofs.Closure.Changes

namespace ThreeMachines.Closure

open Heap (address)

section
variable (globals : List String) (junk : Bool) (w : World) (depth : Int)

/-- the binding finds the variable, where `depth` words lie over the bottom of the frame -/
inductive Located : Binding → Variable → Prop
  | stack {b : Binding} {k i : Nat} : b.storage = .blockLocal ∨ b.storage = .formal → k < w.next → w.slot k = some i →
    (i : Int) + 1 + depth = w.words.size + b.address → Located b (.cell k)
  | vector {b : Binding} {g j : Nat} {flag : Bool} {x : Variable} :
    b.storage = (if flag then .global else .captured) → w.regs.gp = address g → b.address = j →
    w.Element globals junk g j flag x → Located b x

/-- the names of an expression find their variables, but for those that will be bound anew -/
structure ScopedBut (bound : List String) (env : Env) (ρ : Scope) (e : Expr) : Prop where
  finds : ∀ x ∈ e.uses, x ∉ bound → ∀ b, ρ x = some b → Located globals junk w depth b (env.variable x)
  loose : ∀ x ∈ e.assigns, x ∉ bound → ∀ b k, ρ x = some b → b.storage ≠ .captured → env.variable x = .cell k →
    w.constant k = none
  firm : ∀ x ∈ e.captured, x ∉ bound → ∀ k, env.variable x = .cell k → ∃ v, w.constant k = some v

/-- the names of an expression find their variables -/
abbrev Scoped (env : Env) (ρ : Scope) (e : Expr) : Prop := ScopedBut globals junk w depth [] env ρ e

end

variable {image : Image Op} {globals : List String} {junk : Bool} {pending : Nat → Prop} {w w' : World} {σ : Store}
  {depth depth' : Int} {env : Env} {ρ : Scope} {e part : Expr} {b : Binding} {x : Variable}

/-- a variable of the stack is found from the bottom of the frame, wherever the top is -/
theorem Located.grows (h : Located globals junk w depth b x) (hg : World.Grows w w') (hgp : w'.regs.gp = w.regs.gp)
    (hd : (w'.words.size : Int) - depth' = w.words.size - depth) : Located globals junk w' depth' b x := by
  cases h with
  | stack hs hk hi ha => exact .stack hs (hk.trans_le hg.next) (hg.slot _ _ hi) (by omega)
  | vector hs hv hj he => exact .vector hs (hgp.trans hv) hj (he.knows hg.knows)

namespace ScopedBut

variable {bound : List String}

theorem grows (h : ScopedBut globals junk w depth bound env ρ e) (hg : World.Grows w w')
    (hgp : w'.regs.gp = w.regs.gp) (hd : (w'.words.size : Int) - depth' = w.words.size - depth) :
    ScopedBut globals junk w' depth' bound env ρ e where
  finds x hx hno b hb := (h.finds x hx hno b hb).grows hg hgp hd
  loose x hx hno b k hb hs hk := by
    have hl := h.finds x (Expr.uses_of_assigns hx) hno b hb
    rw [hk] at hl
    cases hl with
    | stack _ hlt _ _ => rw [hg.constant_old k hlt, h.loose x hx hno b k hb hs hk]
    | @vector _ _ flag _ hst _ _ he =>
      obtain ⟨a, -, he⟩ := he
      cases he
      exact absurd hst hs
  firm x hx hno k hk := by
    obtain ⟨v, hv⟩ := h.firm x hx hno k hk
    exact ⟨v, hg.knows.constant k v hv⟩

theorem leads (h : ScopedBut globals junk w depth bound env ρ e) (hl : World.Leads w w') :
    ScopedBut globals junk w' depth bound env ρ e :=
  h.grows hl.grows (by rw [hl.regs]) (by rw [hl.size])

theorem pushes (h : ScopedBut globals junk w depth bound env ρ e) (as : List Int) :
    ScopedBut globals junk (w.pushes as) (depth + as.length) bound env ρ e :=
  h.grows (w.grows_pushes as) rfl (by simp [World.pushes])

theorem push (h : ScopedBut globals junk w depth bound env ρ e) (a : Int) :
    ScopedBut globals junk (w.push a) (depth + 1) bound env ρ e :=
  h.grows (w.grows_push a) rfl (by simp [World.push])

/-- what is known of the parts of an expression before its names are bound -/
theorem inner (h : Scoped globals junk w depth env ρ e) (hp : part ∈ e.children) :
    ScopedBut globals junk w depth e.binders env ρ part where
  finds x hx hno := h.finds x (Expr.uses_child hp hx hno) List.not_mem_nil
  loose x hx hno := h.loose x (Expr.assigns_child hp hx hno) List.not_mem_nil
  firm x hx hno := h.firm x (Expr.captured_child hp hx hno) List.not_mem_nil

theorem child (h : Scoped globals junk w depth env ρ e) (hp : part ∈ e.children) (hb : e.binders = []) :
    Scoped globals junk w depth env ρ part := by
  have hpart := h.inner hp
  rwa [hb] at hpart

end ScopedBut

/-! ## New names -/

/-- the values of captured variables are kept in mind -/
def constants (names captured : List String) (vs : List Value) (j : Nat) : Option Value :=
  if names[j]?.any captured.contains then vs[j]? else none

/-- new variables that have their values at once -/
theorem World.AgreesBut.entered (h : w.AgreesBut image globals junk pending σ) (as ws : List Int) (vs : List Value)
    (names captured : List String) (hlength : vs.length = as.length) (hws : junk = true → ws.length = 2 * as.length)
    (hshown : ∀ (j : Nat) v, vs[j]? = some v → ∃ a, as[j]? = some a ∧ w.Shown junk v a) :
    (w.opened as ws (constants names captured vs)).AgreesBut image globals junk pending
      (σ.cells (vs.map fun v _ => v)) := by
  refine h.opened (by simpa using hlength) hws (fun j initial hi => ?_) fun j initial v hi hv => ?_
  · obtain ⟨v, hv, rfl⟩ := Option.map_eq_some_iff.1 ((List.getElem?_map ..).symm.trans hi)
    exact hshown j v hv
  · obtain ⟨u, hu, rfl⟩ := Option.map_eq_some_iff.1 ((List.getElem?_map ..).symm.trans hi)
    exact Option.some.inj (hu.symm.trans (Option.ite_none_right_eq_some.1 hv).2)

/-- new variables `names` over a world, of which the `ready` ones have their values -/
structure Filling (ready : Nat → Prop) (w w' : World) (names captured : List String) : Prop where
  grows : World.Grows w w'
  size : w'.words.size = w.words.size + names.length
  next : w.next + names.length ≤ w'.next
  slot : ∀ j, j < names.length → ready j → w'.slot (w.next + j) = some (w.words.size + j)
  loose : ∀ j x, names[j]? = some x → x ∉ captured → w'.constant (w.next + j) = none
  firm : ∀ j x, names[j]? = some x → x ∈ captured → ready j → ∃ v, w'.constant (w.next + j) = some v

namespace Filling

variable {ready : Nat → Prop} {w'' : World} {names rest captured : List String} {bindings : List Binding}

theorem leads (h : Filling ready w w' names captured) (hl : World.Leads w' w'') :
    Filling ready w w'' names captured where
  grows := h.grows.trans hl.grows
  size := by rw [hl.size, h.size]
  next := h.next.trans hl.grows.next
  slot j hj hr := hl.grows.slot _ _ (h.slot j hj hr)
  loose j x hj hx := by
    have hlt := (List.getElem?_eq_some_iff.1 hj).1
    rw [hl.grows.constant_old _ ((Nat.add_lt_add_left hlt _).trans_le h.next), h.loose j x hj hx]
  firm j x hj hx hr := by
    obtain ⟨v, hv⟩ := h.firm j x hj hx hr
    exact ⟨v, hl.grows.knows.constant _ v hv⟩

/-- **New names** find the variables that have been put on the stack for them; the `rest` will be bound anew. -/
theorem enter (h : Filling ready w w' names captured) (bindings : List Binding)
    (hnames : bindings.map Binding.name = names) (hnodup : names.Nodup)
    (hs : ScopedBut globals junk w depth (names ++ rest) env ρ e) (hgp : w'.regs.gp = w.regs.gp)
    (hb : ∀ (j : Nat) b, bindings[j]? = some b →
      (b.storage = .blockLocal ∨ b.storage = .formal) ∧ b.address = depth + j + 1)
    (hready : ∀ j x, names[j]? = some x → x ∈ e.uses → ready j)
    (hcaptured : ∀ x ∈ names, x ∈ e.captured → x ∈ captured) (hassigned : ∀ x ∈ names, x ∈ e.assigns → x ∉ captured) :
    ScopedBut globals junk w' (depth + names.length) rest (env.cells w.next names) (ρ.extend bindings) e := by
  have hd : (w'.words.size : Int) - (depth + names.length) = w.words.size - depth := by
    rw [h.size]
    push_cast
    ring
  have hold := hs.grows h.grows hgp hd
  -- a name is a new one with its own cell, or what it was
  have hnew : ∀ x, x ∈ names → ∃ j, names[j]? = some x ∧ j < names.length ∧
      (env.cells w.next names).variable x = .cell (w.next + j) := by
    intro x hx
    obtain ⟨j, hj⟩ := List.mem_iff_getElem?.1 hx
    exact ⟨j, hj, (List.getElem?_eq_some_iff.1 hj).1, Env.variable_cells_new hnodup hj⟩
  have hno : ∀ x, x ∉ names → x ∉ rest → x ∉ names ++ rest := fun x h h' hx => (List.mem_append.1 hx).elim h h'
  refine ⟨fun x hx hrest b hρ => ?_, fun x hx hrest b k hρ hst hk => ?_, fun x hx hrest k hk => ?_⟩ <;>
    by_cases hin : x ∈ names
  · obtain ⟨j, hj, hlt, hvar⟩ := hnew x hin
    have hbind : bindings[j]? = some b := by
      obtain ⟨b', hb', rfl⟩ : ∃ b', bindings[j]? = some b' ∧ b'.name = x := by
        rw [← hnames, List.getElem?_map, Option.map_eq_some_iff] at hj
        exact hj
      rw [Scope.extend_of_mem ρ (by rwa [hnames]) (List.mem_of_getElem? hb')] at hρ
      rwa [← hρ]
    obtain ⟨hst, had⟩ := hb j b hbind
    rw [hvar]
    refine .stack hst ((Nat.add_lt_add_left hlt _).trans_le h.next) (h.slot j hlt (hready j x hj hx)) ?_
    rw [had, h.size]
    push_cast
    ring
  · rw [Scope.extend_of_not_mem (by rwa [hnames])] at hρ
    rw [Env.variable_cells_old hin]
    exact hold.finds x hx (hno x hin hrest) b hρ
  · obtain ⟨j, hj, hlt, hvar⟩ := hnew x hin
    rw [hvar, Variable.cell.injEq] at hk
    rw [← hk]
    exact h.loose j x hj (hassigned x hin hx)
  · rw [Scope.extend_of_not_mem (by rwa [hnames])] at hρ
    rw [Env.variable_cells_old hin] at hk
    exact hold.loose x hx (hno x hin hrest) b k hρ hst hk
  · obtain ⟨j, hj, hlt, hvar⟩ := hnew x hin
    rw [hvar, Variable.cell.injEq] at hk
    rw [← hk]
    exact h.firm j x hj (hcaptured x hin hx) (hready j x hj (Expr.uses_of_captured hx))
  · rw [Env.variable_cells_old hin] at hk
    exact hold.firm x hx (hno x hin hrest) k hk

/-- all variables at once -/
theorem of_opened {pending : Nat → Prop} (h : w.AgreesBut image globals junk pending σ) (as ws : List Int)
    (names captured : List String) (vs : List Value) (hlength : as.length = names.length)
    (hvs : captured = [] ∨ vs.length = names.length) :
    Filling (fun _ => True) w (w.opened as ws (constants names captured vs)) names captured where
  grows := h.grows_opened as ws _
  size := by simp [World.opened, World.allocated, hlength]
  next := by simp [World.opened, World.allocated, hlength]
  slot j hj _ := World.opened_slot (hlength ▸ hj)
  loose j x hj hx := by
    have hlt := (List.getElem?_eq_some_iff.1 hj).1
    rw [World.opened_constant (hlength ▸ hlt)]
    rw [constants, hj]
    simp [hx]
  firm j x hj hx _ := by
    have hlt := (List.getElem?_eq_some_iff.1 hj).1
    rcases hvs with rfl | hvs
    · cases hx
    · refine ⟨vs[j], ?_⟩
      rw [World.opened_constant (hlength ▸ hlt), constants, hj]
      simp [hx, hvs, hlt]

end Filling

/-! ## Values of variables -/

/-- the value of a variable -/
theorem reaches_fetch {pc : Nat} (hp : Placed image pc (fetch depth b))
    (ha : w.AgreesBut image globals junk pending σ) (hl : Located globals junk w depth b x) :
    ∃ a, w.Shown junk (σ.value x) a ∧ image.Reaches ⟨pc, w.mem⟩ ⟨pc + (fetch depth b).length, w.mem.push a⟩ := by
  cases hl with
  | @stack k i hs hk hi had =>
    have hfetch : fetch depth b = [.own (.pushloc (depth - b.address))] := by
      rw [fetch]
      rcases hs with hs | hs <;> rw [hs]
    rw [hfetch] at hp ⊢
    obtain ⟨a, hword, hv⟩ := ha.holds k i hi
    exact ⟨a, hv, (moves_pushloc (m := w.mem) hp.1 (by simp only [World.mem]; omega) hword).reaches⟩
  | @vector g j flag _ hs hgp hj he =>
    obtain ⟨c, hf, he⟩ := he
    cases he with
    | @shared n name hn =>
      have hfetch : fetch depth b = [.own (.pushglob b.address), .own .load] := by
        rw [fetch, hs]
        rfl
      rw [hfetch] at hp ⊢
      obtain ⟨a, hword, hv⟩ := ha.shared n name hn
      exact ⟨a, hv, (moves_pushglob (m := w.mem) hp.1 hgp hj (ha.fixed _ _ hf)).reaches.trans
        (moves_load (m := w.mem) hp.2.1 hword).reaches⟩
    | @copied k v _ hc hv =>
      have hfetch : fetch depth b = [.own (.pushglob b.address)] := by
        rw [fetch, hs]
        rfl
      rw [hfetch] at hp ⊢
      refine ⟨c, ?_, (moves_pushglob (m := w.mem) hp.1 hgp hj (ha.fixed _ _ hf)).reaches⟩
      rw [(ha.constant k v hc).2]
      exact hv

end ThreeMachines.Closure

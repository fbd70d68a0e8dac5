/-
Names at run time and names at compile time.

A block or a call makes one cell for each name, numbered from the next free cell on; `Env.cells` and `Store.cells` are
what it makes of an environment and of a store (`extend_eq`). A machine says where the binding of a name finds a variable
(`find`), and `Resolves find env ρ` says that every name of the scope `ρ` finds the variable that it stands for in `env`.

- `Resolves.extend`: this stays true when names are bound to new cells and to the places of these cells.
-/
import ThreeMachines.Proofs.Evaluation
import ThreeMachines.Proofs.Generation
import ThreeMachines.Proofs.Instructions

namespace ThreeMachines

/-! ## New cells -/

/-- names with new cells, numbered from `k` on -/
def Env.cells (env : Env) (k : Nat) : List String → Env
  | [] => env
  | name :: names => Env.cells ((name, k) :: env) (k + 1) names

/-- a store with one more cell -/
def Store.cell (σ : Store) (v : Value) : Store := ⟨σ.next + 1, (σ.write (.cell σ.next) v).value⟩

/-- a store with more cells -/
def Store.cells (σ : Store) : List (Nat → Value) → Store
  | [] => σ
  | initial :: rest => (σ.cell (initial σ.next)).cells rest

namespace Store

theorem write_self {σ : Store} {x : Variable} {v : Value} (h : σ.value x = v) : σ.write x v = σ := by
  have hvalue : (fun y => if y = x then v else σ.value y) = σ.value := by
    funext y
    split
    · rename_i hy
      rw [hy, h]
    · rfl
  rw [write, hvalue]

@[simp] theorem cell_next (σ : Store) (v : Value) : (σ.cell v).next = σ.next + 1 := rfl

/-- the next cells -/
def made (σ : Store) (count : Nat) : List Variable := (List.range count).map fun i => .cell (σ.next + i)

variable {σ : Store} {x : Variable}

theorem cells_next (σ : Store) (initials : List (Nat → Value)) : (σ.cells initials).next = σ.next + initials.length := by
  induction initials generalizing σ with
  | nil => rfl
  | cons initial rest ih =>
    rw [cells, ih, List.length_cons, cell_next]
    omega

theorem cells_append (σ : Store) (xs ys : List (Nat → Value)) : σ.cells (xs ++ ys) = (σ.cells xs).cells ys := by
  induction xs generalizing σ with
  | nil => rfl
  | cons initial rest ih => exact ih (σ.cell (initial σ.next))

theorem cells_value_old {initials : List (Nat → Value)} (h : ∀ i, x = .cell (σ.next + i) → initials.length ≤ i) :
    (σ.cells initials).value x = σ.value x := by
  induction initials generalizing σ with
  | nil => rfl
  | cons initial rest ih =>
    have hx : x ≠ .cell σ.next := fun hx => absurd (h 0 hx) (by simp)
    rw [cells, ih]
    · exact if_neg hx
    · intro i hi
      have hi' : x = .cell (σ.next + (i + 1)) := by rw [hi, cell_next, Nat.add_assoc, Nat.add_comm 1]
      have := h (i + 1) hi'
      rw [List.length_cons] at this
      omega

theorem cells_value_new (σ : Store) {initials : List (Nat → Value)} {i : Nat} {initial : Nat → Value}
    (h : initials[i]? = some initial) : (σ.cells initials).value (.cell (σ.next + i)) = initial (σ.next + i) := by
  induction initials generalizing σ i with
  | nil => simp at h
  | cons first rest ih =>
    rw [cells]
    cases i with
    | zero =>
      obtain rfl : first = initial := by simpa using h
      rw [cells_value_old]
      · exact if_pos rfl
      · intro i hi
        rw [Variable.cell.injEq, cell_next] at hi
        omega
    | succ i =>
      have := ih (σ.cell (first σ.next)) (i := i) (by simpa using h)
      rw [cell_next] at this
      rwa [show σ.next + (i + 1) = σ.next + 1 + i by omega]

/-- a write into an old variable may as well be made before the new cells -/
theorem write_cells {initials : List (Nat → Value)} {v : Value} (h : ∀ i, x ≠ .cell (σ.next + i)) :
    (σ.cells initials).write x v = (σ.write x v).cells initials := by
  induction initials generalizing σ with
  | nil => rfl
  | cons initial rest ih =>
    have hcell : (σ.cell (initial σ.next)).write x v = (σ.write x v).cell (initial σ.next) := by
      simp only [write, cell, mk.injEq, true_and]
      funext y
      split
      · rename_i hy
        rw [if_neg (hy ▸ h 0)]
      · rfl
    rw [cells, ih, hcell]
    · rfl
    · intro i
      rw [cell_next, Nat.add_assoc, Nat.add_comm 1]
      exact h (i + 1)

/-- a write into the first of the new cells -/
theorem write_cells_first (σ : Store) (initial : Nat → Value) (rest : List (Nat → Value)) (v : Value) :
    (σ.cells (initial :: rest)).write (.cell σ.next) v = σ.cells ((fun _ => v) :: rest) := by
  have hcell : (σ.cell (initial σ.next)).write (.cell σ.next) v = σ.cell v := by
    simp only [write, cell, mk.injEq, true_and]
    funext y
    split <;> rfl
  rw [cells, write_cells, hcell]
  · rfl
  · intro i hi
    rw [Variable.cell.injEq, cell_next] at hi
    omega

theorem nodup_made (σ : Store) (count : Nat) : (σ.made count).Nodup := by
  refine List.Nodup.map (fun i j h => ?_) List.nodup_range
  rw [Variable.cell.injEq] at h
  omega

theorem mem_made {count : Nat} : x ∈ σ.made count ↔ ∃ i, i < count ∧ x = .cell (σ.next + i) := by
  simp [made, eq_comm]

theorem map_value_made (σ : Store) (vs : List Value) :
    (σ.made vs.length).map (σ.cells (vs.map fun v _ => v)).value = vs := by
  refine List.ext_getElem? fun i => ?_
  by_cases hi : i < vs.length
  · have hnew := σ.cells_value_new (show (vs.map fun v (_ : Nat) => v)[i]? = some fun _ => vs[i] by simp [hi])
    simp [made, hi, hnew]
  · simp [made, hi]

end Store

theorem Env.cells_append (env : Env) (k : Nat) (xs ys : List String) :
    env.cells k (xs ++ ys) = (env.cells k xs).cells (k + xs.length) ys := by
  induction xs generalizing env k with
  | nil => rfl
  | cons x xs ih =>
    rw [List.cons_append, Env.cells, ih, Env.cells, List.length_cons, Nat.add_assoc, Nat.add_comm 1]

namespace Eval

theorem extend_eq (env : Env) (items : List (String × (Nat → Value))) (σ : Store) :
    extend env items σ = .ok (env.cells σ.next (items.map Prod.fst)) (σ.cells (items.map Prod.snd)) := by
  induction items generalizing env σ with
  | nil => rfl
  | cons item rest ih =>
    obtain ⟨name, initial⟩ := item
    exact ih ((name, σ.next) :: env) (σ.cell (initial σ.next))

theorem extend_append (env : Env) (xs ys : List (String × (Nat → Value))) :
    extend env (xs ++ ys) = extend env xs >>= fun inner => extend inner ys := by
  induction xs generalizing env with
  | nil => rfl
  | cons item rest ih =>
    funext σ
    exact congrFun (ih ((item.1, σ.next) :: env)) (σ.cell (item.2 σ.next))

/-- new cells that hold 0 -/
theorem extend_zeros {β : Type} (env : Env) (names : List String) (f : Env → Eval β) (σ : Store) :
    (extend env (names.map fun name => (name, fun _ => .int 0)) >>= f) σ =
      f (env.cells σ.next names) (σ.cells ((List.replicate names.length (.int 0)).map fun v _ => v)) := by
  have hnames : (names.map fun name => (name, fun _ : Nat => Value.int 0)).map Prod.fst = names := by
    rw [List.map_map]
    exact List.map_id names
  have hvalues : (names.map fun name => (name, fun _ : Nat => Value.int 0)).map Prod.snd =
      (List.replicate names.length (.int 0)).map fun v _ => v := by
    rw [List.map_map, List.map_replicate]
    exact List.map_const' ..
  rw [bind_apply, extend_eq, hnames, hvalues]

/-- a call makes the cells of the parameters first -/
theorem apply_eq (ev : Env → Expr → Eval Value) {f : FunctionValue} {vs : List Value}
    (h : f.params.length = vs.length) (σ : Store) :
    apply ev f vs σ =
      (do ev (← extend (f.env.cells σ.next f.params) (f.locals.map fun name => (name, fun _ => .int 0))) f.body)
        (σ.cells (vs.map fun v _ => v)) := by
  have hnames : ((f.params.zip vs).map fun p => (p.1, fun (_ : Nat) => p.2)).map Prod.fst = f.params := by
    rw [List.map_map]
    exact List.map_fst_zip (Nat.le_of_eq h)
  have hvalues : ((f.params.zip vs).map fun p => (p.1, fun (_ : Nat) => p.2)).map Prod.snd = vs.map fun v _ => v := by
    rw [← List.map_snd_zip (Nat.le_of_eq h.symm), List.map_map, List.map_map, List.map_snd_zip (Nat.le_of_eq h.symm)]
    rfl
  rw [apply, extend_append, bind_assoc, bind_apply, extend_eq, hnames, hvalues]

/-- a call makes the cells of the parameters, and those of the locals after them -/
theorem apply_eq_cells (ev : Env → Expr → Eval Value) {f : FunctionValue} {vs : List Value}
    (h : f.params.length = vs.length) (σ : Store) :
    apply ev f vs σ = ev (f.env.cells σ.next (f.params ++ f.locals)) f.body
      (σ.cells ((vs ++ List.replicate f.locals.length (Value.int 0)).map fun v _ => v)) := by
  have hnext := σ.cells_next (vs.map fun v _ => v)
  rw [List.length_map, ← h] at hnext
  rw [apply_eq ev h]
  refine (extend_zeros _ _ (fun env => ev env f.body) _).trans ?_
  rw [hnext, ← Env.cells_append, List.map_append, Store.cells_append]

end Eval

theorem Env.variable_cons (env : Env) (x name : String) (k : Nat) :
    Env.variable ((x, k) :: env) name = if name = x then .cell k else env.variable name := by
  rw [Env.variable, List.lookup_cons]
  by_cases h : name = x
  · simp [h]
  · rw [if_neg h, beq_false_of_ne h]
    rfl

namespace Env

variable {env : Env} {names : List String} {x : String}

theorem variable_cells_old {k : Nat} (h : x ∉ names) : (env.cells k names).variable x = env.variable x := by
  induction names generalizing env k with
  | nil => rfl
  | cons name names ih =>
    rw [List.mem_cons, not_or] at h
    rw [cells, ih h.2, variable_cons, if_neg h.1]

theorem variable_cells_new {k i : Nat} (hnodup : names.Nodup) (h : names[i]? = some x) :
    (env.cells k names).variable x = .cell (k + i) := by
  induction names generalizing env k i with
  | nil => simp at h
  | cons name names ih =>
    rw [List.nodup_cons] at hnodup
    rw [cells]
    cases i with
    | zero =>
      obtain rfl : name = x := by simpa using h
      rw [variable_cells_old hnodup.1, variable_cons, if_pos rfl, Nat.add_zero]
    | succ i =>
      rw [ih hnodup.2 (by simpa using h), Nat.add_assoc, Nat.add_comm 1]

end Env

/-! ## Scopes -/

namespace Scope

variable {ρ : Scope} {b : Binding} {bindings : List Binding} {x : String}

theorem extend_append (ρ : Scope) (bs cs : List Binding) : ρ.extend (bs ++ cs) = (ρ.extend cs).extend bs := by
  funext x
  rw [extend, extend, extend, List.find?_append]
  cases bs.find? (fun b => b.name = x) <;> rfl

theorem extend_singleton (ρ : Scope) (b : Binding) (x : String) :
    ρ.extend [b] x = if b.name = x then some b else ρ x := by
  rw [extend, List.find?_cons, List.find?_nil]
  by_cases h : b.name = x <;> simp [h]

theorem extend_of_not_mem (h : x ∉ bindings.map Binding.name) : ρ.extend bindings x = ρ x := by
  have hnone : bindings.find? (fun b => b.name = x) = none := by
    rw [List.find?_eq_none]
    intro b hb hn
    exact h (List.mem_map.2 ⟨b, hb, by simpa using hn⟩)
  rw [extend, hnone]

theorem extend_of_mem (ρ : Scope) (hnodup : (bindings.map Binding.name).Nodup) (h : b ∈ bindings) :
    ρ.extend bindings b.name = some b := by
  have hsome : bindings.find? (fun c => c.name = b.name) = some b := by
    induction bindings with
    | nil => simp at h
    | cons c rest ih =>
      rw [List.map_cons, List.nodup_cons] at hnodup
      rcases List.mem_cons.1 h with rfl | h
      · simp
      · have hne : c.name ≠ b.name := fun hc => hnodup.1 (hc ▸ List.mem_map_of_mem h)
        simpa [List.find?_cons, hne] using ih hnodup.2 h
  rw [extend, hsome]

theorem extend_eq_none (h : ρ.extend bindings x = none) : x ∉ bindings.map Binding.name ∧ ρ x = none := by
  rw [extend] at h
  split at h
  · cases h
  · rename_i hnone
    rw [List.find?_eq_none] at hnone
    refine ⟨fun hx => ?_, h⟩
    obtain ⟨b, hb, rfl⟩ := List.mem_map.1 hx
    exact hnone b hb (by simp)

theorem mem_of_extend (h : ρ.extend bindings x = some b) : b ∈ bindings ∨ ρ x = some b := by
  rw [extend] at h
  split at h
  · rename_i c hc
    obtain rfl := Option.some.inj h
    exact .inl (List.mem_of_find?_eq_some hc)
  · exact .inr h

theorem mem_of_extend_empty (h : empty.extend bindings x = some b) : b ∈ bindings ∧ b.name = x := by
  rw [extend] at h
  split at h
  · rename_i c hc
    obtain rfl := Option.some.inj h
    exact ⟨List.mem_of_find?_eq_some hc, by simpa using List.find?_some hc⟩
  · cases h

/-- bindings of different names may be made in any order -/
theorem extend_cons (h : b.name ∉ bindings.map Binding.name) :
    ρ.extend (b :: bindings) = (ρ.extend [b]).extend bindings := by
  funext x
  rw [← List.singleton_append, extend_append, extend_singleton]
  split
  · rename_i hx
    rw [extend_of_not_mem (by rwa [← hx]), extend_singleton, if_pos hx]
  · rename_i hx
    rw [extend, extend]
    cases bindings.find? (fun b => b.name = x) with
    | some _ => rfl
    | none => simp [extend_singleton, hx]

end Scope

/-! ## Names that find their variables -/

/-- every name of the scope finds the variable that it stands for -/
def Resolves (find : Binding → Variable → Prop) (env : Env) (ρ : Scope) : Prop :=
  ∀ x b, ρ x = some b → find b (env.variable x)

namespace Resolves

variable {find find' : Binding → Variable → Prop} {env : Env} {ρ : Scope} {b : Binding} {bindings : List Binding}
  {k : Nat}

theorem empty (find : Binding → Variable → Prop) (env : Env) : Resolves find env .empty :=
  fun _ _ h => nomatch h

theorem imp (h : Resolves find env ρ) (hf : ∀ b x, find b x → find' b x) : Resolves find' env ρ :=
  fun x b hb => hf b _ (h x b hb)

theorem cons (h : Resolves find env ρ) (hb : find b (.cell k)) :
    Resolves find ((b.name, k) :: env) (ρ.extend [b]) := by
  intro x c hc
  rw [Scope.extend_singleton] at hc
  rw [Env.variable_cons]
  by_cases hx : b.name = x
  · rw [if_pos hx, Option.some.injEq] at hc
    rw [if_pos hx.symm, ← hc]
    exact hb
  · rw [if_neg hx] at hc
    rw [if_neg (Ne.symm hx)]
    exact h x c hc

/-- **New names.** Each name is bound to the place of its own new cell. -/
theorem extend (bindings : List Binding) (h : Resolves find env ρ) (hnodup : (bindings.map Binding.name).Nodup)
    (hb : ∀ i b, bindings[i]? = some b → find b (.cell (k + i))) :
    Resolves find (env.cells k (bindings.map Binding.name)) (ρ.extend bindings) := by
  induction bindings generalizing env ρ k with
  | nil => exact h
  | cons b rest ih =>
    rw [List.map_cons, List.nodup_cons] at hnodup
    rw [Scope.extend_cons hnodup.1, List.map_cons, Env.cells]
    refine ih (h.cons (by simpa using hb 0 b)) hnodup.2 fun i c hc => ?_
    rw [Nat.add_assoc, Nat.add_comm 1]
    exact hb (i + 1) c hc

end Resolves
end ThreeMachines

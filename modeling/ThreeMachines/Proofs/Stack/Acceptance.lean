/-
What the stack machine asks of an expression that it accepts.

The generator sees the names of the blocks and parameters around it and the globals that have been assigned so far, and
it refuses a procedure that uses a name which is bound around it. So a program has a place for each name that it uses,
and no assignment reaches out of its procedure (`Emits.resolves`); and the generator makes globals of names only that are
assigned somewhere (`allocates_code`).
-/
import ThreeMachines.Proofs.Acceptance.Names
import ThreeMachines.Proofs.Stack.Emission

namespace ThreeMachines.Stack

/-! ## What code says of its expression -/

section
variable {globals : List String} {ρ ρ' : Scope} {depth place : Int} {e part : Expr} {c : Code Op}

theorem EmitsSequence.of_mem {items : List Expr} (h : EmitsSequence globals ρ depth items c) (hp : part ∈ items) :
    ∃ c', Emits globals ρ depth part c' := by
  induction items generalizing c with
  | nil => exact absurd hp List.not_mem_nil
  | cons item items ih =>
    rcases List.mem_cons.1 hp with rfl | hp
    · cases h with
      | last h => exact ⟨_, h⟩
      | cons h _ => exact ⟨_, h⟩
    · cases h with
      | last _ => exact absurd hp List.not_mem_nil
      | cons _ hrest => exact ih hrest hp

theorem EmitsInitial.of_mem {bindings : List (String × Expr)} (h : EmitsInitial globals ρ depth place bindings c)
    (hp : part ∈ bindings.map Prod.snd) : ∃ c', Emits globals ρ depth part c' := by
  induction bindings generalizing c place with
  | nil => exact absurd hp List.not_mem_nil
  | cons binding rest ih =>
    cases h with
    | cons h hrest =>
      rcases List.mem_cons.1 hp with rfl | hp
      · exact ⟨_, h⟩
      · exact ih hrest hp

theorem EmitsReversed.of_mem {args : List Expr} (h : EmitsReversed globals ρ depth args c) (hp : part ∈ args) :
    ∃ depth' c', Emits globals ρ depth' part c' := by
  induction args generalizing c with
  | nil => exact absurd hp List.not_mem_nil
  | cons arg args ih =>
    cases h with
    | cons hrest h =>
      rcases List.mem_cons.1 hp with rfl | hp
      · exact ⟨_, _, h⟩
      · exact ih hrest hp

/-- where a part of an expression is compiled: its own names are bound there, and those around it unless it is a procedure,
which uses none of them -/
structure Inside (ρ : Scope) (e part : Expr) (ρ' : Scope) : Prop where
  sees : ∀ x, (ρ' x).isSome ↔ x ∈ e.binders ∨ e.isFunction = false ∧ (ρ x).isSome
  hidden : e.isFunction → ∀ x ∈ part.uses, x ∉ e.binders → ρ x = none

theorem Inside.same (hf : e.isFunction = false) (hb : e.binders = []) : Inside ρ e part ρ :=
  ⟨fun x => by simp [hf, hb], fun h => by simp [hf] at h⟩

theorem EmitsProcedure.inside {params locals : List String} {body : Expr}
    (h : EmitsProcedure globals ρ params locals body c) (hf : e.isFunction) (hb : e.binders = params ++ locals) :
    (params ++ locals).Nodup ∧ ∃ ρ' depth', Emits globals ρ' depth' body c ∧ Inside ρ e body ρ' := by
  cases h with
  | intro hnodup hcaptures hbody =>
    refine ⟨hnodup, _, _, hbody, ⟨fun x => ?_, fun _ x hx hbound => ?_⟩⟩
    · rw [Scope.isSome_extend, map_name_frameBindings, hb, hf]
      simp [Scope.empty]
    · exact hcaptures x (Expr.mem_captures.2 ⟨hb ▸ hbound, hx⟩)

/-- the parts of an expression are compiled inside it -/
theorem Emits.child (h : Emits globals ρ depth e c) (hp : part ∈ e.children) :
    ∃ ρ' depth' c', Emits globals ρ' depth' part c' ∧ Inside ρ e part ρ' := by
  cases h with
  | number | bool | var => exact absurd hp List.not_mem_nil
  | unary h =>
    obtain rfl := List.mem_singleton.1 hp
    exact ⟨_, _, _, h, .same rfl rfl⟩
  | binary hl hr =>
    rcases List.mem_pair.1 hp with rfl | rfl
    exacts [⟨_, _, _, hl, .same rfl rfl⟩, ⟨_, _, _, hr, .same rfl rfl⟩]
  | assign _ h =>
    obtain rfl := List.mem_singleton.1 hp
    exact ⟨_, _, _, h, .same rfl rfl⟩
  | seq h =>
    obtain ⟨c', h⟩ := h.of_mem hp
    exact ⟨_, _, _, h, .same rfl rfl⟩
  | ite hc ht he =>
    rcases List.mem_cons.1 hp with rfl | hp
    · exact ⟨_, _, _, hc, .same rfl rfl⟩
    rcases List.mem_cons.1 hp with rfl | hp
    · exact ⟨_, _, _, ht, .same rfl rfl⟩
    cases he with
    | none => exact absurd hp List.not_mem_nil
    | some he =>
      obtain rfl := List.mem_singleton.1 hp
      exact ⟨_, _, _, he, .same rfl rfl⟩
  | whileDo hc hb | doWhile hc hb | loop hc hb =>
    rcases List.mem_pair.1 hp with rfl | rfl
    exacts [⟨_, _, _, hc, .same rfl rfl⟩, ⟨_, _, _, hb, .same rfl rfl⟩]
  | @block _ _ bindings body _ _ hnodup hi hb =>
    have hinside : Inside ρ (.block bindings body) part
        (ρ.extend (blockBindings depth (bindings.map Prod.fst))) :=
      ⟨fun x => by simp [Scope.isSome_extend, map_name_blockBindings, Expr.binders, Expr.isFunction], nofun⟩
    rcases List.mem_cons.1 hp with rfl | hp
    · exact ⟨_, _, _, hb, hinside⟩
    · obtain ⟨c', h⟩ := hi.of_mem hp
      exact ⟨_, _, _, h, hinside⟩
  | @lambda _ _ params _ _ _ _ h =>
    obtain rfl := List.mem_singleton.1 hp
    obtain ⟨-, ρ', depth', hbody, hinside⟩ := h.inside (e := .lambda params part) rfl (List.append_nil _).symm
    exact ⟨ρ', depth', _, hbody, hinside⟩
  | @proc _ _ params locals _ _ _ _ h =>
    obtain rfl := List.mem_singleton.1 hp
    obtain ⟨-, ρ', depth', hbody, hinside⟩ := h.inside (e := .proc params locals part) rfl rfl
    exact ⟨ρ', depth', _, hbody, hinside⟩
  | call ha hc =>
    rcases List.mem_cons.1 hp with rfl | hp
    · exact ⟨_, _, _, hc, .same rfl rfl⟩
    · obtain ⟨depth', c', h⟩ := ha.of_mem hp
      exact ⟨_, _, _, h, .same rfl rfl⟩

/-- the names that an expression binds together are different -/
theorem Emits.distinctNames (h : Emits globals ρ depth e c) : e.distinctNames := by
  cases h with
  | seq h => cases h <;> rfl
  | block hnodup => exact decide_eq_true hnodup
  | @lambda _ _ params body _ _ _ h =>
    obtain ⟨hnodup, -⟩ := h.inside (e := .lambda params body) rfl (List.append_nil _).symm
    exact decide_eq_true (List.append_nil params ▸ hnodup)
  | @proc _ _ params locals body _ _ _ h =>
    obtain ⟨hnodup, -⟩ := h.inside (e := .proc params locals body) rfl rfl
    simpa [Expr.distinctNames] using ⟨hnodup.of_append_left, hnodup.of_append_right⟩
  | _ => rfl

/-- a name that no scope around the expression binds is a global -/
theorem Emits.global {x : String} (h : Emits globals ρ depth e c) (he : e = .var x ∨ ∃ value, e = .assign x value)
    (hx : ρ x = none) : x ∈ globals := by
  have hglobal {b : Binding} (hb : ρ.over (globalScope globals) x = some b) : x ∈ globals := by
    by_contra hnot
    rw [Scope.over, hx, Option.none_or, globalScope, Scope.extend_of_not_mem (by rwa [map_name_globalBindings])] at hb
    cases hb
  rcases he with rfl | ⟨value, rfl⟩
  · cases h with
    | var hb => exact hglobal hb
  · cases h with
    | assign hb => exact hglobal hb

/-- **Code.** Every name stands for something, the names are in order, and no assignment reaches out of its procedure. -/
theorem Emits.resolves : ∀ {ρ depth c}, Emits globals ρ depth e c → (∀ x ∈ e.uses, ρ x = none → x ∈ globals) ∧
    e.everywhere Expr.distinctNames ∧ ∀ own outer, (∀ x, x ∈ own ↔ (ρ x).isSome) →
      (∀ x ∈ e.uses, x ∉ own → x ∉ outer) → e.assignsWithin own outer := by
  induction e using Expr.byParts with
  | step e ih =>
    intro ρ depth c h
    refine ⟨fun x hx hnone => ?_, Expr.everywhere_iff.2 ⟨h.distinctNames, fun part hp => ?_⟩,
      fun own outer hown houter => Expr.assignsWithin_iff.2 ⟨?_, fun part hp => ?_⟩⟩
    · rcases Expr.mem_uses.1 hx with hx | ⟨hb, part, hp, hx⟩
      · exact h.global hx hnone
      · obtain ⟨ρ', depth', c', h', hinside⟩ := h.child hp
        refine (ih part hp h').1 x hx (Option.not_isSome_iff_eq_none.1 ?_)
        rw [hinside.sees, hnone]
        simp [hb]
    · obtain ⟨ρ', depth', c', h', -⟩ := h.child hp
      exact (ih part hp h').2.1
    · rintro name value rfl
      by_contra hnot
      rw [not_or, not_not] at hnot
      exact houter name (Expr.mem_uses.2 (.inl (.inr ⟨value, rfl⟩))) hnot.1 hnot.2
    · obtain ⟨ρ', depth', c', h', hinside⟩ := h.child hp
      by_cases hf : e.isFunction
      · refine (ih part hp h').2.2 _ _ (fun x => ?_) fun x hx hbound => ?_
        · simp [Expr.ownInside, hinside.sees, hf]
        · rw [Expr.ownInside, if_pos hf] at hbound
          have hnot : x ∉ own := by
            rw [hown, hinside.hidden hf x hx hbound]
            simp
          rw [Expr.outerInside, if_pos hf, List.mem_append, not_or]
          exact ⟨hnot, houter x (Expr.uses_child hp hx hbound) hnot⟩
      · refine (ih part hp h').2.2 _ _ (fun x => ?_) fun x hx hbound => ?_
        · simp [Expr.ownInside, hinside.sees, hf, hown]
        · rw [Expr.ownInside, if_neg hf, List.mem_append, not_or] at hbound
          rw [Expr.outerInside, if_neg hf]
          exact houter x (Expr.uses_child hp hx hbound.1) hbound.2

end
/-! ## Globals that the generator makes -/

/-- where the scope adds `ρ` to the globals, the step makes new globals only of names with the property -/
def Allocates {α : Type} (s : ScopeId) (ρ : Scope) (T : String → Prop) (x : Gen Op α) : Prop :=
  ∀ ⦃d a d' names⦄, View d s names ρ → x d = .ok a d' →
    ∃ names', Widens d names d' names' ∧ ∀ y ∈ names', y ∈ names ∨ T y

namespace Allocates

variable {α β : Type} {s : ScopeId} {ρ : Scope} {T T' : String → Prop}

theorem mono {x : Gen Op α} (h : Allocates s ρ T x) (hT : ∀ y, T y → T' y) : Allocates s ρ T' x :=
  fun _ _ _ _ hv hx => by
    obtain ⟨names', hw, hnew⟩ := h hv hx
    exact ⟨names', hw, fun y hy => (hnew y hy).imp_right (hT y)⟩

protected theorem pure (a : α) : Allocates s ρ T (Pure.pure a : Gen Op α) := fun d b d' names _ h => by
  obtain ⟨-, rfl⟩ := Gen.pure_ok.1 h
  exact ⟨names, .refl d names, fun _ => .inl⟩

protected theorem throw (e : CompileError) : Allocates s ρ T (throw e : Gen Op α) := fun _ _ _ _ _ h =>
  absurd h Gen.throw_ok

protected theorem bind {x : Gen Op α} {f : α → Gen Op β} (hx : Allocates s ρ T x) (hf : ∀ a, Allocates s ρ T (f a)) :
    Allocates s ρ T (x >>= f) := fun d b d' names hv h => by
  obtain ⟨a, d₁, h₁, h₂⟩ := Gen.bind_ok.1 h
  obtain ⟨names₁, hw₁, hnew₁⟩ := hx hv h₁
  obtain ⟨names₂, hw₂, hnew₂⟩ := hf a (hw₁.view s ρ hv) h₂
  exact ⟨names₂, hw₁.trans hw₂, fun y hy => (hnew₂ y hy).elim (hnew₁ y) .inr⟩

theorem fresh (kind : String) : Allocates s ρ T (Gen.fresh kind : Gen Op Label) := fun d _ _ names _ h => by
  obtain ⟨labels, rfl⟩ := Gen.fresh_ok h
  exact ⟨names, widens_issued d labels names, fun _ => .inl⟩

theorem lookup (x : String) : Allocates s ρ T (Gen.lookup s x : Gen Op Binding) := fun d _ _ names hv h => by
  obtain ⟨rfl, -⟩ := lookup_ok hv h
  exact ⟨names, .refl _ names, fun _ => .inl⟩

theorem address (b : Binding) : Allocates s ρ T (address b) := fun d _ _ names _ h => by
  obtain ⟨-, rfl⟩ := address_ok h
  exact ⟨names, .refl _ names, fun _ => .inl⟩

/-- the target of an assignment becomes a global if no scope binds it -/
theorem resolveOrAllocate {x : String} (hT : ρ x = none → T x) : Allocates s ρ T (Gen.resolveOrAllocate s x) :=
  fun d b d' names hv h => by
    obtain ⟨names', hw, -, rfl | ⟨rfl, hx⟩⟩ := resolve_ok hv h
    · exact ⟨names', hw, fun _ => .inl⟩
    · exact ⟨x :: names, hw, fun y hy => (List.mem_cons.1 hy).elim (fun hy => .inr (hy ▸ hT hx)) .inl⟩

theorem openScope {bindings : List Binding} {f : ScopeId → Gen Op β} (hlocal : ∀ b ∈ bindings, b.storage ≠ .global)
    (hf : ∀ inner, Allocates inner (ρ.extend bindings) T (f inner)) :
    Allocates s ρ T (Gen.openScope (some s) bindings >>= f) := fun d b d' names hv h => by
  obtain ⟨inner, d₁, h₁, h₂⟩ := Gen.bind_ok.1 h
  obtain ⟨hw₁, -, hv₁⟩ := openScope_ok hv hlocal h₁
  obtain ⟨names₂, hw₂, hnew₂⟩ := hf inner hv₁ h₂
  exact ⟨names₂, hw₁.trans hw₂, hnew₂⟩

/-! ### Skeletons -/

section
variable {neutral : Code Op} {cond thenBranch elseBranch body count : Gen Op (Code Op)}

theorem ifThenElse (hc : Allocates s ρ T cond) (ht : Allocates s ρ T thenBranch) (he : Allocates s ρ T elseBranch) :
    Allocates s ρ T (Gen.ifThenElse cond thenBranch elseBranch) :=
  .bind (fresh _) fun _ => .bind (fresh _) fun _ => .bind (fresh _) fun _ => .bind (fresh _) fun _ =>
    .bind hc fun _ => .bind ht fun _ => .bind he fun _ => .pure _

theorem whileDo (hc : Allocates s ρ T cond) (hb : Allocates s ρ T body) :
    Allocates s ρ T (Gen.whileDo neutral cond body) :=
  .bind (fresh _) fun _ => .bind (fresh _) fun _ => .bind hc fun _ => .bind hb fun _ => .pure _

theorem doWhile (hb : Allocates s ρ T body) (hc : Allocates s ρ T cond) : Allocates s ρ T (Gen.doWhile body cond) :=
  .bind (fresh _) fun _ => .bind (fresh _) fun _ => .bind hb fun _ => .bind hc fun _ => .pure _

theorem countedLoop (hc : Allocates s ρ T count) (hb : Allocates s ρ T body) :
    Allocates s ρ T (Gen.countedLoop neutral count body) :=
  .bind (fresh _) fun _ => .bind (fresh _) fun _ => .bind hc fun _ => .bind hb fun _ => .pure _

end
end Allocates

section
variable {s : ScopeId} {ρ : Scope} {T : String → Prop} {depth : Int}

theorem allocates_sequence {items : List Expr} (ih : ∀ e ∈ items, Allocates s ρ T (code s depth e)) :
    Allocates s ρ T (sequence s depth items) := by
  induction items with
  | nil => exact .throw _
  | cons item rest ihr =>
    cases rest with
    | nil => exact ih item List.mem_cons_self
    | cons next rest =>
      exact .bind (ih item List.mem_cons_self) fun _ =>
        .bind (ihr fun e he => ih e (List.mem_cons_of_mem _ he)) fun _ => .pure _

theorem allocates_optional {e : Option Expr} (ih : ∀ part ∈ e.toList, Allocates s ρ T (code s depth part)) :
    Allocates s ρ T (optional s depth e) := by
  cases e with
  | none => exact .pure _
  | some part => exact ih part (by simp)

theorem allocates_initial {bindings : List (String × Expr)}
    (ih : ∀ b ∈ bindings, Allocates s ρ T (code s depth b.2)) (place : Int) :
    Allocates s ρ T (initial s depth place bindings) := by
  induction bindings generalizing place with
  | nil => exact .pure _
  | cons binding rest ihr =>
    exact .bind (ih binding List.mem_cons_self) fun _ =>
      .bind (ihr (fun b hb => ih b (List.mem_cons_of_mem _ hb)) (place + 1)) fun _ => .pure _

theorem allocates_reversed {args : List Expr} (ih : ∀ e ∈ args, ∀ depth, Allocates s ρ T (code s depth e)) :
    Allocates s ρ T (reversed s depth args) := by
  induction args with
  | nil => exact .pure _
  | cons arg rest ihr =>
    exact .bind (ihr fun e he => ih e (List.mem_cons_of_mem _ he)) fun _ =>
      .bind (ih arg List.mem_cons_self _) fun _ => .pure _

/-- a procedure is generated where only globals are around it, and uses no other name from outside -/
theorem allocates_procedure (s : ScopeId) (ρ : Scope) (frameDepth : Int) (params locals : List String) {body : Expr}
    (ih : ∀ s ρ depth, Allocates s ρ (fun y => y ∈ body.assigns ∧ ρ y = none) (code s depth body)) :
    Allocates s ρ (fun y => y ∉ params ++ locals ∧ y ∈ body.assigns ∧ ρ y = none) (do
      refuseCaptures s (body.captures (params ++ locals))
      let entry ← Gen.fresh "proc"
      let stop ← Gen.fresh "endproc"
      let frame ← Gen.openScope (some (← Gen.rootOf s)) (frameBindings params locals)
      return procedure entry stop frameDepth (← code frame frameDepth body)) := by
  intro d c d' names hv h
  simp only [Gen.bind_ok, Gen.pure_ok] at h
  obtain ⟨_, d₁, h₁, entry, d₂, h₂, stop, d₃, h₃, root, d₄, h₄, frame, d₅, h₅, b, d₆, h₆, rfl, rfl⟩ := h
  obtain ⟨rfl, hcaptures⟩ := refuseCaptures_ok hv h₁
  obtain ⟨labels₂, rfl⟩ := Gen.fresh_ok h₂
  obtain ⟨labels₃, rfl⟩ := Gen.fresh_ok h₃
  have hw := (widens_issued d₁ labels₂ names).trans (widens_issued _ labels₃ names)
  obtain ⟨rfl, rfl⟩ := rootOf_ok (hw.view s ρ hv) h₄
  obtain ⟨hw₅, -, hv₅⟩ := openFrame_ok (hw.view s ρ hv) (fun b hb => by
    rcases List.mem_append.1 hb with hb | hb
    · simp [mem_formalBindings hb]
    · simp [mem_blockBindings hb]) h₅
  obtain ⟨names₆, hw₆, hnew⟩ := ih frame _ frameDepth hv₅ h₆
  refine ⟨names₆, (hw.trans hw₅).trans hw₆, fun y hy => (hnew y hy).imp_right ?_⟩
  rintro ⟨hassigned, hnone⟩
  have hbound := (Scope.extend_eq_none hnone).1
  rw [map_name_frameBindings] at hbound
  exact ⟨hbound, hassigned, hcaptures y (Expr.mem_captures.2 ⟨hbound, Expr.uses_of_assigns hassigned⟩)⟩

end

/-- **Globals.** The generator makes globals only of names that the expression assigns and no scope around it binds. -/
theorem allocates_code (e : Expr) : ∀ s ρ depth, Allocates s ρ (fun y => y ∈ e.assigns ∧ ρ y = none) (code s depth e) := by
  refine Expr.byParts (motive := fun e => ∀ s ρ depth, Allocates s ρ (fun y => y ∈ e.assigns ∧ ρ y = none)
    (code s depth e)) (fun e ih => ?_) e
  intro s ρ depth
  -- what a part that sees the same names assigns, the whole assigns
  have hpart (hb : e.binders = []) {part : Expr} (hp : part ∈ e.children) (depth : Int) :
      Allocates s ρ (fun y => y ∈ e.assigns ∧ ρ y = none) (code s depth part) :=
    (ih part hp s ρ depth).mono fun y hy => ⟨Expr.assigns_child hp hy.1 (by simp [hb]), hy.2⟩
  cases e with
  | number | bool => exact .pure _
  | var name => exact .bind (.lookup name) fun b => .bind (.address b) fun _ => .pure _
  | unary op operand => exact .bind (hpart rfl (by simp [Expr.children]) depth) fun _ => .pure _
  | binary op lhs rhs =>
    exact .bind (hpart rfl (by simp [Expr.children]) depth) fun _ =>
      .bind (hpart rfl (by simp [Expr.children]) _) fun _ => .pure _
  | assign name value =>
    exact .bind (.resolveOrAllocate fun hx => ⟨by simp [Expr.assigns], hx⟩) fun b =>
      .bind (hpart rfl (by simp [Expr.children]) depth) fun _ => .bind (.address b) fun _ => .pure _
  | seq items => exact allocates_sequence fun e he => hpart rfl he depth
  | ite cond thenBranch elseBranch =>
    exact .ifThenElse (hpart rfl (by simp [Expr.children]) depth) (hpart rfl (by simp [Expr.children]) depth)
      (allocates_optional fun part hp => hpart rfl (by simp_all [Expr.children]) depth)
  | whileDo cond body =>
    exact .whileDo (hpart rfl (by simp [Expr.children]) _) (hpart rfl (by simp [Expr.children]) _)
  | doWhile body cond =>
    exact .doWhile (hpart rfl (by simp [Expr.children]) _) (hpart rfl (by simp [Expr.children]) _)
  | loop count body =>
    exact .countedLoop (hpart rfl (by simp [Expr.children]) _) (hpart rfl (by simp [Expr.children]) _)
  | block bindings body =>
    have hinner {part : Expr} (hp : part ∈ (Expr.block bindings body).children) (inner : ScopeId) (depth' : Int) :
        Allocates inner (ρ.extend (blockBindings depth (bindings.map Prod.fst)))
          (fun y => y ∈ (Expr.block bindings body).assigns ∧ ρ y = none) (code inner depth' part) :=
      (ih part hp inner _ depth').mono fun y hy => by
        obtain ⟨hbound, hnone⟩ := Scope.extend_eq_none hy.2
        rw [map_name_blockBindings] at hbound
        exact ⟨Expr.assigns_child hp hy.1 hbound, hnone⟩
    exact .openScope (fun b hb => by simp [mem_blockBindings hb]) fun inner =>
      .bind (allocates_initial (fun b hb => hinner (List.mem_cons_of_mem _ (List.mem_map_of_mem hb)) inner _) _) fun _ =>
        .bind (hinner (by simp [Expr.children]) inner _) fun _ => .pure _
  | lambda params body =>
    have hprocedure := allocates_procedure s ρ 0 params [] (ih body (by simp [Expr.children]))
    simp only [frameBindings, blockBindings, List.append_nil] at hprocedure
    exact hprocedure.mono fun y hy => ⟨Expr.assigns_child (by simp [Expr.children]) hy.2.1 hy.1, hy.2.2⟩
  | proc params locals body =>
    exact (allocates_procedure s ρ _ params locals (ih body (by simp [Expr.children]))).mono fun y hy =>
      ⟨Expr.assigns_child (by simp [Expr.children]) hy.2.1 hy.1, hy.2.2⟩
  | call callee args =>
    cases args with
    | nil => exact .bind (hpart rfl (by simp [Expr.children]) _) fun _ => .pure _
    | cons arg args =>
      exact .bind (allocates_reversed fun e he depth => hpart rfl (List.mem_cons_of_mem _ he) depth) fun _ =>
        .bind (hpart rfl (by simp [Expr.children]) _) fun _ => .pure _

/-- the globals are the names of the global scope -/
theorem Rooted.names_eq {frames : List Frame} {names : List String} (h : Rooted frames names) :
    names = ((frames.getLast?.map Frame.slots).getD []).map Prod.fst := by
  rw [h.slots_eq, List.map_map]
  exact (map_name_globalBindings names).symm

/-- the globals of a program, and what is left of the session: the expression assigns each of them, and its code knows no
other -/
theorem globals_compile {e : Expr} {p : Program Op} (h : compile .stack e = .ok p) : ∃ names d,
    generate e ⟨.new, .empty, .empty⟩ = .ok p d ∧ names.Nodup ∧ p.globals = (globalBindings names).reverse ∧
      d.session.globals.next = wordSize * names.length ∧ (∀ x ∈ names, x ∈ e.assigns) ∧
      Emits names .empty 0 e p.code := by
  obtain ⟨d, hgen, -⟩ := generate_of_compile h
  have hsteps := hgen
  simp only [ThreeMachines.generate, generate, Gen.bind_ok, Gen.pure_ok, Gen.get_ok] at hsteps
  obtain ⟨c, d₁, hcode, _, _, ⟨rfl, rfl⟩, rfl, rfl⟩ := hsteps
  have hv : View ⟨.new, .empty, .empty⟩ ScopeTable.global [] .empty := ⟨.root List.nodup_nil, rfl, Nat.one_pos, rfl⟩
  obtain ⟨names, hw, hnew⟩ := allocates_code e _ _ 0 hv hcode
  obtain ⟨names', hw', hemits⟩ := emits_code e hv hcode
  have hview := hw.view _ _ hv
  have hview' := hw'.view _ _ hv
  obtain rfl : names = names' := hview.rooted.names_eq.trans hview'.rooted.names_eq.symm
  exact ⟨names, _, hgen, hview.rooted.nodup, globals_rooted hview.rooted, hview.next,
    fun x hx => ((hnew x hx).resolve_left List.not_mem_nil).1, hemits names ⟨List.suffix_refl names, hview.rooted.nodup⟩⟩

/-- **Programs.** An expression that has a program assigns each free name somewhere, its names are in order, and no
assignment reaches out of its procedure. -/
theorem resolves_compile {e : Expr} (h : ∃ p, compile .stack e = .ok p) :
    ((∀ x ∈ e.uses, x ∈ e.assigns) ∧ e.everywhere Expr.distinctNames) ∧ e.assignsWithin [] [] := by
  obtain ⟨p, h⟩ := h
  obtain ⟨names, -, -, -, -, -, hassigned, hemits⟩ := globals_compile h
  obtain ⟨hglobals, hdistinct, hwithin⟩ := hemits.resolves
  exact ⟨⟨fun x hx => hassigned x (hglobals x hx rfl), hdistinct⟩, hwithin [] [] (by simp [Scope.empty]) (by simp)⟩

end ThreeMachines.Stack

/-
The function literals in the code of the closure machine.

The arguments of a call come before the callee. A function sees what it has captured under the places of its vector, and
its parameters on the stack.

- `adds_code`: the code of an expression and the bodies that the generator registers for it belong to the literals of the
  expression.
- `tabled_compile`: so do the streams of a program.
-/
import ThreeMachines.Proofs.Closure.Acceptance
import ThreeMachines.Proofs.Depths
import ThreeMachines.Proofs.Globals
import ThreeMachines.Proofs.Literals

namespace ThreeMachines.Closure

instance : FunctionOps Op where
  mkvec := .mkvec
  mkfunval := .mkfunval
  made
    | .mkfunval l => some l
    | _ => none
  captured
    | .pushglob i => some i
    | _ => none
  formal _ := none
  made_iff {op l} := by cases op <;> simp
  mkvec_plain _ := ⟨rfl, rfl, rfl⟩
  mkfunval_plain _ := ⟨rfl, rfl⟩

/-! ## Code without functions -/

section
variable {ρ : Scope} {depth : Int} {captures params : Nat} {b : Binding} {c : Code Op}

theorem bare_pushglob {i : Int} (h : 0 ≤ i ∧ i < captures) : Bare captures params [.own (.pushglob i : Op)] :=
  List.forall_mem_singleton.2 ⟨rfl, by rintro _ ⟨⟩; exact h, nofun⟩

theorem bare_fetch (h : b.Held captures) : Bare captures params (fetch depth b) := by
  rw [fetch]
  cases hb : b.storage with
  | global => exact (bare_pushglob (h (.inl hb))).append (bare_of_plain (c := [.own Op.load]) rfl)
  | captured => exact bare_pushglob (h (.inr hb))
  | blockLocal | formal => exact bare_of_plain rfl

theorem bare_update (h : b.Held captures) : Bare captures params (update depth b) := by
  rw [update]
  cases hb : b.storage with
  | global => exact (bare_pushglob (h (.inl hb))).append (bare_of_plain (c := [.own Op.store]) rfl)
  | captured | blockLocal | formal => exact bare_of_plain rfl

theorem bare_pushed {names : List String} {shared : List (String × Bool)} (hρ : ρ.Each (Binding.Held captures))
    (h : Pushed ρ depth names shared c) : Bare captures params c := by
  induction h with
  | nil => exact bare_of_plain rfl
  | @cons depth name names b later shared hb _ ih =>
    have hheld := hρ name b hb
    by_cases hglobal : b.storage = .global
    · rw [if_pos hglobal]
      exact (bare_pushglob (hheld (.inl hglobal))).append ih
    · rw [if_neg hglobal]
      exact (bare_fetch hheld).append ih

theorem bare_zeros (n : Nat) : Bare captures params (zeroedBlock.zeros n) := by
  induction n with
  | zero => exact bare_of_plain rfl
  | succ n ih => exact (bare_of_plain (c := zero ++ [.own (.storeloc (n + 1)), .pop]) rfl).append ih

end

/-! ## Scopes -/

theorem held_blockBindings (captures : Nat) (depth : Int) (names : List String) :
    ∀ b ∈ blockBindings depth names, b.Held captures := fun b hb => by
  obtain ⟨hstorage, -⟩ := mem_blockBindings hb
  exact Binding.held_of_ne (by simp [hstorage]) (by simp [hstorage])

theorem held_formalBindings (captures : Nat) (address : Int) (names : List String) :
    ∀ b ∈ formalBindings address names, b.Held captures := fun b hb => by
  obtain ⟨hstorage, -⟩ := mem_formalBindings hb
  exact Binding.held_of_ne (by simp [hstorage]) (by simp [hstorage])

theorem held_captureBindings {captures : Nat} {place : Int} {shared : List (String × Bool)} (h : 0 ≤ place)
    (hlast : place + shared.length ≤ captures) : ∀ b ∈ captureBindings place shared, b.Held captures := by
  induction shared generalizing place with
  | nil => nofun
  | cons entry rest ih =>
    rw [List.length_cons] at hlast
    exact List.forall_mem_cons.2 ⟨fun _ => ⟨h, by show place < _; omega⟩, ih (by omega) (by omega)⟩

theorem held_function (params : List String) (shared : List (String × Bool)) :
    (functionScope params shared).Each (Binding.Held shared.length) :=
  Scope.Each.empty.extend (List.forall_mem_append.2 ⟨held_captureBindings le_rfl (by omega), held_formalBindings _ _ _⟩)

theorem held_globalBindings (names : List String) : ∀ b ∈ globalBindings 0 names, b.Held names.length := fun b hb _ => by
  rw [globalBindings_eq] at hb
  exact Vector.address_numbered hb

/-! ## Expressions -/

/-- the code of an expression, begun after a draft in which the scope is known, belongs to its literals -/
def Tabulates (e : Expr) : Prop :=
  ∀ (captures params : Nat) ⦃d₀ d d' : Draft Op⦄ ⦃s : ScopeId⦄ ⦃depth : Int⦄ ⦃c : Code Op⦄,
    s.index < d₀.scopes.frames.length → d₀.Extends d → (d₀.scopes.sees s).Each (Binding.Held captures) →
    code s depth e d = .ok c d' → Adds captures params (e.literals false) d c d'

section
variable {d₀ d d' : Draft Op} {s : ScopeId} {depth : Int} {c : Code Op} {captures : Nat} (params : Nat)

theorem adds_sequence {items : List Expr} (hi : ∀ e ∈ items, Tabulates e) (hs : s.index < d₀.scopes.frames.length)
    (hx : d₀.Extends d) (hρ : (d₀.scopes.sees s).Each (Binding.Held captures))
    (h : sequence s depth items d = .ok c d') : Adds captures params (Expr.listLiterals false items) d c d' := by
  induction items generalizing d c with
  | nil => exact absurd h Gen.throw_ok
  | cons item items ih =>
    have hitem := hi item List.mem_cons_self
    cases items with
    | nil =>
      rw [Expr.listLiterals, Expr.listLiterals, List.append_nil]
      exact hitem captures params hs hx hρ h
    | cons next items =>
      simp only [sequence, Gen.bind_ok, Gen.pure_ok] at h
      obtain ⟨first, d₁, h₁, rest, d₂, h₂, rfl, rfl⟩ := h
      have hfirst := hitem captures params hs hx hρ h₁
      exact (hfirst.after (bare_of_plain rfl)).append
        (ih (fun e he => hi e (List.mem_cons_of_mem _ he)) (hx.trans hfirst.later) h₂)

theorem adds_optional {e : Option Expr} (hi : ∀ part ∈ e.toList, Tabulates part)
    (hs : s.index < d₀.scopes.frames.length) (hx : d₀.Extends d)
    (hρ : (d₀.scopes.sees s).Each (Binding.Held captures)) (h : optional s depth e d = .ok c d') :
    Adds captures params (Expr.optionLiterals false e) d c d' := by
  cases e with
  | none =>
    obtain ⟨rfl, rfl⟩ := Gen.pure_ok.1 h
    exact .bare (bare_of_plain rfl) d
  | some e => exact hi e (by simp) captures params hs hx hρ h

theorem adds_initial {bindings : List (String × Expr)} (hi : ∀ b ∈ bindings, Tabulates b.2)
    (hs : s.index < d₀.scopes.frames.length) (hx : d₀.Extends d)
    (hρ : (d₀.scopes.sees s).Each (Binding.Held captures)) (h : initial s depth bindings d = .ok c d') :
    Adds captures params (Expr.bindingLiterals false bindings) d c d' := by
  induction bindings generalizing d c with
  | nil =>
    obtain ⟨rfl, rfl⟩ := Gen.pure_ok.1 h
    exact .bare (bare_of_plain rfl) d
  | cons binding rest ih =>
    obtain ⟨name, value⟩ := binding
    simp only [initial, Gen.bind_ok, Gen.pure_ok] at h
    obtain ⟨pushed, d₁, h₁, values, d₂, h₂, rfl, rfl⟩ := h
    have hvalue := hi (name, value) List.mem_cons_self captures params hs hx hρ h₁
    refine (hvalue.after ?_).append (ih (fun b hb => hi b (List.mem_cons_of_mem _ hb)) (hx.trans hvalue.later) h₂)
    split <;> exact bare_of_plain rfl

theorem adds_arguments {args : List Expr} (hi : ∀ e ∈ args, Tabulates e) (hs : s.index < d₀.scopes.frames.length)
    (hx : d₀.Extends d) (hρ : (d₀.scopes.sees s).Each (Binding.Held captures))
    (h : arguments s depth args d = .ok c d') : Adds captures params (Expr.listLiterals false args) d c d' := by
  induction args generalizing d c depth with
  | nil =>
    obtain ⟨rfl, rfl⟩ := Gen.pure_ok.1 h
    exact .bare (bare_of_plain rfl) d
  | cons arg args ih =>
    simp only [arguments, Gen.bind_ok, Gen.pure_ok] at h
    obtain ⟨first, d₁, h₁, rest, d₂, h₂, rfl, rfl⟩ := h
    have hfirst := hi arg List.mem_cons_self captures params hs hx hρ h₁
    exact hfirst.append (ih (fun e he => hi e (List.mem_cons_of_mem _ he)) (hx.trans hfirst.later) h₂)

/-- a function literal: its body sees what has been captured, and its parameters -/
theorem adds_function {f : FunctionLiteral} {inner : List FunctionLiteral} {body : ScopeId → Gen Op (Code Op)}
    (hbody : ∀ {d₁ d₂ : Draft Op} {frame : ScopeId} {b : Code Op}, frame.index < d₁.scopes.frames.length →
      (d₁.scopes.sees frame).Each (Binding.Held f.captures.length) → body frame d₁ = .ok b d₂ →
      Adds f.captures.length f.params.length inner d₁ b d₂)
    (hs : s.index < d₀.scopes.frames.length) (hx : d₀.Extends d)
    (hρ : (d₀.scopes.sees s).Each (Binding.Held captures))
    (h : function s depth f.params f.captures body d = .ok c d') : Adds captures params (inner ++ [f]) d c d' := by
  simp only [function, Gen.bind_ok, Gen.pure_ok] at h
  obtain ⟨⟨pushed, shared⟩, _, h₁, label, d₁, h₂, frame, d₂, h₃, b, d₃, h₄, _, d₄, h₅, rfl, rfl⟩ := h
  obtain ⟨rfl, hpushed⟩ := capture_ok h₁
  obtain ⟨labels, rfl⟩ := Gen.fresh_ok h₂
  obtain ⟨rfl, -, hd, hsees⟩ := Gen.openScope_ok h₃
  rw [hx.sees hs] at hpushed
  have hheld := held_function f.params shared
  rw [← List.length_map (f := Prod.fst), map_fst_of_pushed hpushed] at hheld
  have hinner := hbody (by rw [hd]; simp) (by rw [hsees]; exact hheld) h₄
  exact .issued (.openScope h₃ (hinner.function (bare_of_plain rfl) (bare_pushed hρ hpushed) h₅))

/-- a function without locals -/
theorem adds_plain {ps : List String} {body : Expr} (hi : Tabulates body) (hs : s.index < d₀.scopes.frames.length)
    (hx : d₀.Extends d) (hρ : (d₀.scopes.sees s).Each (Binding.Held captures))
    (h : function s depth ps (body.captures ps) (fun frame => code frame 0 body) d = .ok c d') :
    Adds captures params (body.literals false ++ [⟨ps, [], body⟩]) d c d' := by
  rw [← FunctionLiteral.captures_plain] at h
  exact adds_function params (f := ⟨ps, [], body⟩) (fun hframe hheld hb => hi _ _ hframe (.refl _) hheld hb) hs hx hρ h

/-- a function with locals -/
theorem adds_withLocals {ps locals : List String} {body : Expr} (hi : Tabulates body)
    (hs : s.index < d₀.scopes.frames.length) (hx : d₀.Extends d)
    (hρ : (d₀.scopes.sees s).Each (Binding.Held captures))
    (h : function s depth ps (unbound ps (unbound locals body.freeNames))
      (fun frame => zeroedBlock frame locals fun inner => code inner locals.length body) d = .ok c d') :
    Adds captures params (body.literals false ++ [⟨ps, locals, body⟩]) d c d' := by
  rw [← FunctionLiteral.captures_withLocals] at h
  refine adds_function params (f := ⟨ps, locals, body⟩) (fun hframe hheld hb => ?_) hs hx hρ h
  simp only [zeroedBlock, Gen.bind_ok, Gen.pure_ok] at hb
  obtain ⟨inner, d₁, h₁, result, d₂, h₂, rfl, rfl⟩ := hb
  obtain ⟨rfl, -, hd, hsees⟩ := Gen.openScope_ok h₁
  have hresult := hi _ ps.length (by rw [hd]; simp) (.refl _)
    (by rw [hsees]; exact hheld.extend (held_blockBindings _ _ _)) h₂
  exact .openScope h₁ ((hresult.before ((bare_of_plain rfl).append (bare_zeros _))).after (bare_of_plain rfl))

end

/-- **Expressions.** The code of an expression and the bodies that are registered for it belong to its literals. -/
theorem adds_code (e : Expr) : Tabulates e := by
  refine Expr.byParts (fun e ih => ?_) e
  intro captures params d₀ d d' s depth c hs hx hρ h
  cases e with
  | number | bool =>
    obtain ⟨rfl, rfl⟩ := Gen.pure_ok.1 h
    exact .bare (bare_of_plain rfl) d
  | var name =>
    simp only [code, Gen.bind_ok, Gen.pure_ok, Gen.lookup_ok] at h
    obtain ⟨b, _, ⟨rfl, hb⟩, rfl, rfl⟩ := h
    rw [hx.sees hs] at hb
    exact .bare (bare_fetch (hρ name b hb)) _
  | unary op operand =>
    simp only [code, Gen.bind_ok, Gen.pure_ok] at h
    obtain ⟨c₁, d₁, h₁, rfl, rfl⟩ := h
    have hoperand := ih operand (by simp [Expr.children]) captures params hs hx hρ h₁
    exact hoperand.after (bare_of_plain rfl)
  | binary op lhs rhs =>
    simp only [code, Gen.bind_ok, Gen.pure_ok] at h
    obtain ⟨left, d₁, h₁, right, d₂, h₂, rfl, rfl⟩ := h
    have hleft := ih lhs (by simp [Expr.children]) captures params hs hx hρ h₁
    have hright := ih rhs (by simp [Expr.children]) captures params hs (hx.trans hleft.later) hρ h₂
    exact (hleft.append hright).after (bare_of_plain rfl)
  | assign name value =>
    simp only [code, Gen.bind_ok, Gen.lookup_ok] at h
    obtain ⟨b, _, ⟨rfl, hb⟩, h⟩ := h
    rw [hx.sees hs] at hb
    split at h
    · obtain ⟨_, _, hthrow, -⟩ := Gen.bind_ok.1 h
      exact absurd hthrow Gen.throw_ok
    · simp only [Gen.bind_ok, Gen.pure_ok] at h
      obtain ⟨pushed, d₂, h₂, rfl, rfl⟩ := h
      have hvalue := ih value (by simp [Expr.children]) captures params hs hx hρ h₂
      exact hvalue.after (bare_update (hρ name b hb))
  | seq items => exact adds_sequence params (fun e he => ih e he) hs hx hρ h
  | ite cond thenBranch elseBranch =>
    obtain ⟨l₁, l₂, l₃, l₄, _, cc, d₁, tc, d₂, ec, labels, rfl, hc, ht, he, rfl⟩ := Gen.ifThenElse_ok h
    have hx₀ := hx.trans (Gen.extends_issued d labels)
    have hcond := ih cond (by simp [Expr.children]) captures params hs hx₀ hρ hc
    have hthen := ih thenBranch (by simp [Expr.children]) captures params hs (hx₀.trans hcond.later) hρ ht
    have helse := adds_optional params (fun part hp => ih part (by simp_all [Expr.children])) hs
      ((hx₀.trans hcond.later).trans hthen.later) hρ he
    exact .issued (.ifThenElse hcond hthen helse)
  | whileDo cond body =>
    obtain ⟨l₁, l₂, _, cc, d₁, bc, labels, rfl, hc, hb, rfl⟩ := Gen.whileDo_ok h
    have hx₀ := hx.trans (Gen.extends_issued d labels)
    have hcond := ih cond (by simp [Expr.children]) captures params hs hx₀ hρ hc
    have hbody := ih body (by simp [Expr.children]) captures params hs (hx₀.trans hcond.later) hρ hb
    exact .issued (.whileDo (bare_of_plain rfl) hcond hbody)
  | doWhile body cond =>
    obtain ⟨l₁, l₂, _, bc, d₁, cc, labels, rfl, hb, hc, rfl⟩ := Gen.doWhile_ok h
    have hx₀ := hx.trans (Gen.extends_issued d labels)
    have hbody := ih body (by simp [Expr.children]) captures params hs hx₀ hρ hb
    have hcond := ih cond (by simp [Expr.children]) captures params hs (hx₀.trans hbody.later) hρ hc
    exact .issued (.doWhile hbody hcond)
  | loop count body =>
    obtain ⟨l₁, l₂, _, cc, d₁, bc, labels, rfl, hc, hb, rfl⟩ := Gen.countedLoop_ok h
    have hx₀ := hx.trans (Gen.extends_issued d labels)
    have hcount := ih count (by simp [Expr.children]) captures params hs hx₀ hρ hc
    have hbody := ih body (by simp [Expr.children]) captures params hs (hx₀.trans hcount.later) hρ hb
    exact .issued (.countedLoop (bare_of_plain rfl) hcount hbody)
  | block bindings body =>
    simp only [code, Gen.bind_ok, Gen.pure_ok] at h
    obtain ⟨inner, d₁, h₁, values, d₂, h₂, result, d₃, h₃, rfl, rfl⟩ := h
    obtain ⟨rfl, -, hd, hsees⟩ := Gen.openScope_ok h₁
    rw [Option.elim_some, hx.sees hs] at hsees
    have hinner : (⟨d.scopes.frames.length⟩ : ScopeId).index < d₁.scopes.frames.length := by rw [hd]; simp
    have hheld : (d₁.scopes.sees ⟨d.scopes.frames.length⟩).Each (Binding.Held captures) := by
      rw [hsees]
      exact hρ.extend (held_blockBindings _ _ _)
    have hvalues := adds_initial params
      (fun b hb => ih b.2 (List.mem_cons_of_mem _ (List.mem_map_of_mem hb))) hinner (.refl d₁) hheld h₂
    have hresult := ih body (by simp [Expr.children]) captures params hinner hvalues.later hheld h₃
    exact .openScope h₁ (((hvalues.before (bare_of_plain rfl)).append hresult).after (bare_of_plain rfl))
  | lambda ps body =>
    simp only [code] at h
    exact adds_plain params (ih body (by simp [Expr.children])) hs hx hρ h
  | proc ps locals body =>
    cases locals with
    | nil =>
      simp only [code] at h
      exact adds_plain params (ih body (by simp [Expr.children])) hs hx hρ h
    | cons first rest =>
      simp only [code] at h
      exact adds_withLocals params (ih body (by simp [Expr.children])) hs hx hρ h
  | call callee args =>
    simp only [code, Gen.bind_ok, Gen.pure_ok] at h
    obtain ⟨back, d₁, h₁, pushed, d₂, h₂, target, d₃, h₃, rfl, rfl⟩ := h
    obtain ⟨labels, rfl⟩ := Gen.fresh_ok h₁
    have hx₀ := hx.trans (Gen.extends_issued d labels)
    have hargs := adds_arguments params (fun e he => ih e (List.mem_cons_of_mem _ he)) hs hx₀ hρ h₂
    have hcallee := ih callee (by simp [Expr.children]) captures params hs (hx₀.trans hargs.later) hρ h₃
    exact .issued (((hargs.before (bare_of_plain rfl)).append hcallee).after (bare_of_plain rfl))

/-- **Programs.** The streams of a program belong to the literals of its expression. -/
theorem tabled_compile {e : Expr} {p : Program Op} (h : compile .closure e = .ok p) :
    Tabled p.globals.length 0 (e.literals false) p.code p.lambdas.bodies := by
  rw [globals_length (m := .closure) (by decide) h]
  obtain ⟨d, hgen, -⟩ := generate_of_compile h
  simp only [ThreeMachines.generate, generate, Gen.bind_ok, Gen.pure_ok, Gen.get_ok] at hgen
  obtain ⟨_, d₁, hbind, entry, d₂, hcode, _, _, ⟨rfl, rfl⟩, rfl, rfl⟩ := hgen
  obtain ⟨hd₁, -, hsees⟩ := Gen.bindGlobals_ok hbind
  have hheld : (d₁.scopes.sees ScopeTable.global).Each (Binding.Held e.globalNames.length) := by
    rw [hsees]
    exact Scope.Each.empty.extend (held_globalBindings _)
  have hentry := adds_code e _ 0 (by rw [hd₁]; exact Nat.one_pos) (.refl d₁) hheld hcode
  obtain ⟨-, bodies, hbodies, ht⟩ := hentry.before
    (bare_of_plain (c := [.own (.alloc e.globalNames.length), .own (.mkvec e.globalNames.length), .own Op.setgp]) rfl)
  rw [Gen.bodies_of_bindGlobals hbind, List.nil_append] at hbodies
  rwa [hbodies]

end ThreeMachines.Closure

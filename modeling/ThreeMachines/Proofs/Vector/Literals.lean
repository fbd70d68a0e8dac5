/-
The function literals in the code of the vector machine.

The callee of a call comes before the arguments. A function finds what it has captured and what it was given in two
vectors, both numbered from 0.

- `adds_code`: the code of an expression and the bodies that the generator registers for it belong to the literals of the
  expression.
- `tabled_compile`: so do the streams of a program.
-/
import ThreeMachines.Proofs.Depths
import ThreeMachines.Proofs.Globals
import ThreeMachines.Proofs.Literals
import ThreeMachines.Proofs.Registrations

namespace ThreeMachines.Vector

instance : FunctionOps Op where
  mkvec := .mkvec
  mkfunval := .mkfunval
  made
    | .mkfunval l => some l
    | _ => none
  captured
    | .pushglob i => some i
    | _ => none
  formal
    | .pushform i => some i
    | _ => none
  made_iff {op l} := by cases op <;> simp
  mkvec_plain _ := ⟨rfl, rfl, rfl⟩
  mkfunval_plain _ := ⟨rfl, rfl⟩

/-- a global or captured variable is one of so many, and so is a parameter -/
def Held (captures params : Nat) (b : Binding) : Prop :=
  b.Held captures ∧ (b.storage = .formal → 0 ≤ b.address ∧ b.address < params)

/-! ## Code without functions -/

section
variable {ρ : Scope} {captures params : Nat} {b : Binding} {c : Code Op}

theorem bare_storage (h : Held captures params b) : Bare captures params [storage b] := by
  obtain ⟨hcaptured, hformal⟩ := h
  refine List.forall_mem_singleton.2 ?_
  rw [storage]
  cases hb : b.storage with
  | blockLocal => exact ⟨rfl, nofun, nofun⟩
  | formal => exact ⟨rfl, nofun, by rintro _ ⟨⟩; exact hformal hb⟩
  | global => exact ⟨rfl, by rintro _ ⟨⟩; exact hcaptured (.inl hb), nofun⟩
  | captured => exact ⟨rfl, by rintro _ ⟨⟩; exact hcaptured (.inr hb), nofun⟩

theorem bare_box (mode : Mode) : Bare captures params mode.box := by
  cases mode <;> exact bare_of_plain rfl

theorem bare_unbox (mode : Mode) : Bare captures params mode.unbox := by
  cases mode <;> exact bare_of_plain rfl

theorem bare_read (mode : Mode) : Bare captures params mode.read := by
  cases mode <;> exact bare_of_plain rfl

theorem bare_zero (mode : Mode) : Bare captures params mode.zero := by
  cases mode <;> exact bare_of_plain rfl

theorem bare_pushed {names : List String} (hρ : ρ.Each (Held captures params)) (h : Pushed ρ names c) :
    Bare captures params c := by
  induction h with
  | nil => exact bare_of_plain rfl
  | cons hb _ ih =>
    obtain ⟨b, hb, rfl⟩ := hb
    exact (bare_storage (hρ _ b hb)).append ih

end

/-! ## Scopes -/

theorem held_blockLocal (captures params : Nat) (place : Int) (names : List String) :
    ∀ b ∈ numbered .blockLocal place names, Held captures params b := fun b hb => by
  have hstorage := storage_numbered hb
  exact ⟨Binding.held_of_ne (by simp [hstorage]) (by simp [hstorage]), by simp [hstorage]⟩

theorem held_function (params captures : List String) :
    (functionScope params captures).Each (Held captures.length params.length) := by
  refine Scope.Each.empty.extend (List.forall_mem_append.2 ⟨fun b hb => ?_, fun b hb => ?_⟩)
  · have hstorage := storage_numbered hb
    exact ⟨Binding.held_of_ne (by simp [hstorage]) (by simp [hstorage]), fun _ => address_numbered hb⟩
  · exact ⟨fun _ => address_numbered hb, by simp [storage_numbered hb]⟩

theorem bare_zeros (captures params : Nat) (names : List String) : Bare captures params (zeros names) := by
  refine List.forall_mem_flatMap.2 fun b hb => ?_
  exact (bare_storage (held_blockLocal _ _ _ _ b hb)).append ((bare_zero .value).append (bare_of_plain rfl))

/-! ## Expressions -/

/-- the code of an expression, begun after a draft in which the scope is known, belongs to its literals -/
def Tabulates (e : Expr) : Prop :=
  ∀ ⦃captures params : Nat⦄ ⦃d₀ d d' : Draft Op⦄ ⦃s : ScopeId⦄ ⦃depth : Int⦄ ⦃mode : Mode⦄ ⦃c : Code Op⦄,
    s.index < d₀.scopes.frames.length → d₀.Extends d → (d₀.scopes.sees s).Each (Held captures params) →
    code s depth mode e d = .ok c d' → Adds captures params (e.literals true) d c d'

section
variable {d₀ d d' : Draft Op} {s : ScopeId} {depth : Int} {mode : Mode} {c : Code Op} {captures params : Nat}

theorem adds_sequence {items : List Expr} (hi : ∀ e ∈ items, Tabulates e) (hs : s.index < d₀.scopes.frames.length)
    (hx : d₀.Extends d) (hρ : (d₀.scopes.sees s).Each (Held captures params))
    (h : sequence s depth mode items d = .ok c d') : Adds captures params (Expr.listLiterals true items) d c d' := by
  induction items generalizing d c with
  | nil => exact absurd h Gen.throw_ok
  | cons item items ih =>
    have hitem := hi item List.mem_cons_self
    cases items with
    | nil =>
      rw [Expr.listLiterals, Expr.listLiterals, List.append_nil]
      exact hitem hs hx hρ h
    | cons next items =>
      simp only [sequence, Gen.bind_ok, Gen.pure_ok] at h
      obtain ⟨first, d₁, h₁, rest, d₂, h₂, rfl, rfl⟩ := h
      have hfirst := hitem hs hx hρ h₁
      exact (hfirst.after (bare_of_plain rfl)).append
        (ih (fun e he => hi e (List.mem_cons_of_mem _ he)) (hx.trans hfirst.later) h₂)

theorem adds_optional {e : Option Expr} (hi : ∀ part ∈ e.toList, Tabulates part)
    (hs : s.index < d₀.scopes.frames.length) (hx : d₀.Extends d)
    (hρ : (d₀.scopes.sees s).Each (Held captures params)) (h : optional s depth mode e d = .ok c d') :
    Adds captures params (Expr.optionLiterals true e) d c d' := by
  cases e with
  | none =>
    obtain ⟨rfl, rfl⟩ := Gen.pure_ok.1 h
    exact .bare (bare_zero mode) d
  | some e => exact hi e (by simp) hs hx hρ h

theorem adds_initial {bindings : List (String × Expr)} (hi : ∀ b ∈ bindings, Tabulates b.2)
    (hs : s.index < d₀.scopes.frames.length) (hx : d₀.Extends d)
    (hρ : (d₀.scopes.sees s).Each (Held captures params)) (h : initial s depth bindings d = .ok c d') :
    Adds captures params (Expr.bindingLiterals true bindings) d c d' := by
  induction bindings generalizing d c with
  | nil =>
    obtain ⟨rfl, rfl⟩ := Gen.pure_ok.1 h
    exact .bare (bare_of_plain rfl) d
  | cons binding rest ih =>
    obtain ⟨name, value⟩ := binding
    simp only [initial, Gen.bind_ok, Gen.pure_ok, Gen.lookup_ok] at h
    obtain ⟨b, _, ⟨rfl, hb⟩, pushed, d₁, h₁, values, d₂, h₂, rfl, rfl⟩ := h
    rw [hx.sees hs] at hb
    have hvalue := hi (name, value) List.mem_cons_self hs hx hρ h₁
    exact ((hvalue.before (bare_storage (hρ name b hb))).after (bare_of_plain rfl)).append
      (ih (fun b hb => hi b (List.mem_cons_of_mem _ hb)) (hx.trans hvalue.later) h₂)

theorem adds_arguments {args : List Expr} (hi : ∀ e ∈ args, Tabulates e) (hs : s.index < d₀.scopes.frames.length)
    (hx : d₀.Extends d) (hρ : (d₀.scopes.sees s).Each (Held captures params))
    (h : arguments s depth args d = .ok c d') : Adds captures params (Expr.listLiterals true args) d c d' := by
  induction args generalizing d c depth with
  | nil =>
    obtain ⟨rfl, rfl⟩ := Gen.pure_ok.1 h
    exact .bare (bare_of_plain rfl) d
  | cons arg args ih =>
    simp only [arguments, Gen.bind_ok, Gen.pure_ok] at h
    obtain ⟨first, d₁, h₁, rest, d₂, h₂, rfl, rfl⟩ := h
    have hfirst := hi arg List.mem_cons_self hs hx hρ h₁
    exact hfirst.append (ih (fun e he => hi e (List.mem_cons_of_mem _ he)) (hx.trans hfirst.later) h₂)

/-- a function literal: its body sees what has been captured, and its parameters -/
theorem adds_function {f : FunctionLiteral} {inner : List FunctionLiteral} {body : ScopeId → Gen Op (Code Op)}
    (hbody : ∀ {d₁ d₂ : Draft Op} {frame : ScopeId} {b : Code Op}, frame.index < d₁.scopes.frames.length →
      (d₁.scopes.sees frame).Each (Held f.captures.length f.params.length) → body frame d₁ = .ok b d₂ →
      Adds f.captures.length f.params.length inner d₁ b d₂)
    (hs : s.index < d₀.scopes.frames.length) (hx : d₀.Extends d)
    (hρ : (d₀.scopes.sees s).Each (Held captures params))
    (h : function s f.params f.captures body d = .ok c d') : Adds captures params (inner ++ [f]) d c d' := by
  simp only [function, Gen.bind_ok, Gen.pure_ok] at h
  obtain ⟨pushed, _, h₁, label, d₁, h₂, frame, d₂, h₃, b, d₃, h₄, _, d₄, h₅, rfl, rfl⟩ := h
  obtain ⟨rfl, hpushed⟩ := storages_ok h₁
  obtain ⟨labels, rfl⟩ := Gen.fresh_ok h₂
  obtain ⟨rfl, -, hd, hsees⟩ := Gen.openScope_ok h₃
  rw [hx.sees hs] at hpushed
  have hinner := hbody (by rw [hd]; simp) (by rw [hsees]; exact held_function _ _) h₄
  have hmade := Adds.issued (.openScope h₃ (hinner.function (bare_of_plain rfl) (bare_pushed hρ hpushed) h₅))
  have htagged := hmade.after (bare_of_plain (c := [.own (Op.mkind .function)]) rfl)
  rwa [List.append_assoc] at htagged

/-- a function without locals -/
theorem adds_plain {ps : List String} {body : Expr} (hi : Tabulates body) (hs : s.index < d₀.scopes.frames.length)
    (hx : d₀.Extends d) (hρ : (d₀.scopes.sees s).Each (Held captures params))
    (h : function s ps (body.captures ps) (fun frame => code frame 0 .value body) d = .ok c d') :
    Adds captures params (body.literals true ++ [⟨ps, [], body⟩]) d c d' := by
  rw [← FunctionLiteral.captures_plain] at h
  exact adds_function (f := ⟨ps, [], body⟩) (fun hframe hheld hb => hi hframe (.refl _) hheld hb) hs hx hρ h

/-- a function with locals -/
theorem adds_withLocals {ps locals : List String} {body : Expr} (hi : Tabulates body)
    (hs : s.index < d₀.scopes.frames.length) (hx : d₀.Extends d)
    (hρ : (d₀.scopes.sees s).Each (Held captures params))
    (h : function s ps (unbound ps (unbound locals body.freeNames))
      (fun frame => zeroedBlock frame locals fun inner => code inner locals.length .value body) d = .ok c d') :
    Adds captures params (body.literals true ++ [⟨ps, locals, body⟩]) d c d' := by
  rw [← FunctionLiteral.captures_withLocals] at h
  refine adds_function (f := ⟨ps, locals, body⟩) (fun hframe hheld hb => ?_) hs hx hρ h
  simp only [zeroedBlock, Gen.bind_ok, Gen.pure_ok] at hb
  obtain ⟨inner, d₁, h₁, result, d₂, h₂, rfl, rfl⟩ := hb
  obtain ⟨rfl, -, hd, hsees⟩ := Gen.openScope_ok h₁
  have hresult := hi (by rw [hd]; simp) (.refl _)
    (by rw [hsees]; exact hheld.extend (held_blockLocal _ _ _ _)) h₂
  exact .openScope h₁ ((hresult.before ((bare_of_plain rfl).append (bare_zeros _ _ locals))).after (bare_of_plain rfl))

end

/-- **Expressions.** The code of an expression and the bodies that are registered for it belong to its literals. -/
theorem adds_code (e : Expr) : Tabulates e := by
  refine Expr.byParts (fun e ih => ?_) e
  intro captures params d₀ d d' s depth mode c hs hx hρ h
  cases e with
  | number | bool =>
    obtain ⟨rfl, rfl⟩ := Gen.pure_ok.1 h
    exact .bare ((bare_of_plain rfl).append (bare_box mode)) d
  | var name =>
    simp only [code, Gen.bind_ok, Gen.pure_ok, Gen.lookup_ok] at h
    obtain ⟨b, _, ⟨rfl, hb⟩, rfl, rfl⟩ := h
    rw [hx.sees hs] at hb
    exact .bare ((bare_storage (hρ name b hb)).append (bare_read mode)) _
  | unary op operand =>
    simp only [code, Gen.bind_ok, Gen.pure_ok] at h
    obtain ⟨c₁, d₁, h₁, rfl, rfl⟩ := h
    have hoperand := ih operand (by simp [Expr.children]) hs hx hρ h₁
    exact (hoperand.after (bare_of_plain rfl)).after (bare_box mode)
  | binary op lhs rhs =>
    simp only [code, Gen.bind_ok, Gen.pure_ok] at h
    obtain ⟨left, d₁, h₁, right, d₂, h₂, rfl, rfl⟩ := h
    have hleft := ih lhs (by simp [Expr.children]) hs hx hρ h₁
    have hright := ih rhs (by simp [Expr.children]) hs (hx.trans hleft.later) hρ h₂
    exact ((hleft.append hright).after (bare_of_plain rfl)).after (bare_box mode)
  | assign name value =>
    simp only [code, Gen.bind_ok, Gen.pure_ok, Gen.lookup_ok] at h
    obtain ⟨b, _, ⟨rfl, hb⟩, pushed, d₁, h₁, rfl, rfl⟩ := h
    rw [hx.sees hs] at hb
    have hvalue := ih value (by simp [Expr.children]) hs hx hρ h₁
    exact ((hvalue.before (bare_storage (hρ name b hb))).after (bare_of_plain rfl)).after (bare_read mode)
  | seq items => exact adds_sequence (fun e he => ih e he) hs hx hρ h
  | ite cond thenBranch elseBranch =>
    obtain ⟨l₁, l₂, l₃, l₄, _, cc, d₁, tc, d₂, ec, labels, rfl, hc, ht, he, rfl⟩ := Gen.ifThenElse_ok h
    have hx₀ := hx.trans (Gen.extends_issued d labels)
    have hcond := ih cond (by simp [Expr.children]) hs hx₀ hρ hc
    have hthen := ih thenBranch (by simp [Expr.children]) hs (hx₀.trans hcond.later) hρ ht
    have helse := adds_optional (fun part hp => ih part (by simp_all [Expr.children])) hs
      ((hx₀.trans hcond.later).trans hthen.later) hρ he
    exact .issued (.ifThenElse hcond hthen helse)
  | whileDo cond body =>
    obtain ⟨l₁, l₂, _, cc, d₁, bc, labels, rfl, hc, hb, rfl⟩ := Gen.whileDo_ok h
    have hx₀ := hx.trans (Gen.extends_issued d labels)
    have hcond := ih cond (by simp [Expr.children]) hs hx₀ hρ hc
    have hbody := ih body (by simp [Expr.children]) hs (hx₀.trans hcond.later) hρ hb
    exact .issued (.whileDo (bare_zero mode) hcond hbody)
  | doWhile body cond =>
    obtain ⟨l₁, l₂, _, bc, d₁, cc, labels, rfl, hb, hc, rfl⟩ := Gen.doWhile_ok h
    have hx₀ := hx.trans (Gen.extends_issued d labels)
    have hbody := ih body (by simp [Expr.children]) hs hx₀ hρ hb
    have hcond := ih cond (by simp [Expr.children]) hs (hx₀.trans hbody.later) hρ hc
    exact .issued (.doWhile hbody hcond)
  | loop count body =>
    obtain ⟨l₁, l₂, _, cc, d₁, bc, labels, rfl, hc, hb, rfl⟩ := Gen.countedLoop_ok h
    have hx₀ := hx.trans (Gen.extends_issued d labels)
    have hcount := ih count (by simp [Expr.children]) hs hx₀ hρ hc
    have hbody := ih body (by simp [Expr.children]) hs (hx₀.trans hcount.later) hρ hb
    exact .issued (.countedLoop (bare_zero mode) hcount hbody)
  | block bindings body =>
    simp only [code, Gen.bind_ok, Gen.pure_ok] at h
    obtain ⟨inner, d₁, h₁, values, d₂, h₂, result, d₃, h₃, rfl, rfl⟩ := h
    obtain ⟨rfl, -, hd, hsees⟩ := Gen.openScope_ok h₁
    rw [Option.elim_some, hx.sees hs] at hsees
    have hinner : (⟨d.scopes.frames.length⟩ : ScopeId).index < d₁.scopes.frames.length := by rw [hd]; simp
    have hheld : (d₁.scopes.sees ⟨d.scopes.frames.length⟩).Each (Held captures params) := by
      rw [hsees]
      exact hρ.extend (held_blockLocal _ _ _ _)
    have hvalues := adds_initial (fun b hb => ih b.2 (List.mem_cons_of_mem _ (List.mem_map_of_mem hb))) hinner
      (.refl d₁) hheld h₂
    have hresult := ih body (by simp [Expr.children]) hinner hvalues.later hheld h₃
    exact .openScope h₁ (((hvalues.before (bare_of_plain rfl)).append hresult).after (bare_of_plain rfl))
  | lambda ps body =>
    simp only [code, Gen.bind_ok, Gen.pure_ok] at h
    obtain ⟨pushed, d₁, h₁, rfl, rfl⟩ := h
    exact (adds_plain (ih body (by simp [Expr.children])) hs hx hρ h₁).after (bare_unbox mode)
  | proc ps locals body =>
    cases locals with
    | nil =>
      simp only [code, Gen.bind_ok, Gen.pure_ok] at h
      obtain ⟨pushed, d₁, h₁, rfl, rfl⟩ := h
      exact (adds_plain (ih body (by simp [Expr.children])) hs hx hρ h₁).after (bare_unbox mode)
    | cons first rest =>
      simp only [code, Gen.bind_ok, Gen.pure_ok] at h
      obtain ⟨pushed, d₁, h₁, rfl, rfl⟩ := h
      exact (adds_withLocals (ih body (by simp [Expr.children])) hs hx hρ h₁).after (bare_unbox mode)
  | call callee args =>
    simp only [code, Gen.bind_ok, Gen.pure_ok] at h
    obtain ⟨target, d₁, h₁, pushed, d₂, h₂, back, d₃, h₃, rfl, rfl⟩ := h
    have hcallee := ih callee (by simp [Expr.children]) hs hx hρ h₁
    have hargs := adds_arguments (fun e he => ih e (List.mem_cons_of_mem _ he)) hs (hx.trans hcallee.later) hρ h₂
    obtain ⟨labels, rfl⟩ := Gen.fresh_ok h₃
    exact (((hcallee.append hargs).issuedLast labels).after (bare_of_plain rfl)).after (bare_unbox mode)

/-- **Programs.** The streams of a program belong to the literals of its expression. -/
theorem tabled_compile {e : Expr} {p : Program Op} (h : compile .vector e = .ok p) :
    Tabled p.globals.length 0 (e.literals true) p.code p.lambdas.bodies := by
  rw [globals_length (m := .vector) (by decide) h]
  obtain ⟨d, hgen, -⟩ := generate_of_compile h
  simp only [ThreeMachines.generate, generate, Gen.bind_ok, Gen.pure_ok, Gen.get_ok] at hgen
  obtain ⟨_, d₁, hbind, entry, d₂, hcode, _, _, ⟨rfl, rfl⟩, rfl, rfl⟩ := hgen
  obtain ⟨hd₁, -, hsees⟩ := Gen.bindGlobals_ok hbind
  have hheld : (d₁.scopes.sees ScopeTable.global).Each (Held e.globalNames.length 0) := by
    rw [hsees]
    refine Scope.Each.empty.extend fun b hb => ⟨fun _ => address_numbered hb, by simp [storage_numbered hb]⟩
  have hentry := adds_code e (by rw [hd₁]; exact Nat.one_pos) (.refl d₁) hheld hcode
  obtain ⟨-, bodies, hbodies, ht⟩ := hentry.before
    (bare_of_plain (c := [.own (.alloc e.globalNames.length), .own (.mkvec e.globalNames.length), .own Op.setgp]) rfl)
  rw [Gen.bodies_of_bindGlobals hbind, List.nil_append] at hbodies
  rwa [hbodies]

end ThreeMachines.Vector

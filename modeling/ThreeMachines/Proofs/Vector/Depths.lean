/-
Depths in the code of the vector machine.

The variables of blocks lie in the words of the frame, at addresses from 1 up to the depth; parameters and captured cells
are reached through vectors. Function bodies are streams of their own.

- `annotated`: the code of an expression leads from its depth to the next one, in both modes.
- `registers_code`: the bodies that the generator registers are bodies of the function literals in the expression.
- `segment_compile`, `bodies_compile`: so the streams of a program can be annotated.
-/
import ThreeMachines.Proofs.Depths
import ThreeMachines.Proofs.Registrations
import ThreeMachines.Proofs.Vector.Emission

namespace ThreeMachines.Vector

/-- the operation leaves the function -/
def leaves : Op → Bool
  | .ret _ => true
  | _ => false

instance : Framed Op where
  returns := leaves
  exit _ := 1
  Reaches
    | _, depth, .pushloc a => 1 ≤ a ∧ a ≤ depth
    | _, _, _ => True
  inline := false

/-- a variable of a block lies in the frame -/
def Reachable (depth : Int) (b : Binding) : Prop := b.storage = .blockLocal → 1 ≤ b.address ∧ b.address ≤ depth

theorem Reachable.mono {d d' : Int} {b : Binding} (h : Reachable d b) (hd : d ≤ d') : Reachable d' b :=
  fun hb => ⟨(h hb).1, (h hb).2.trans hd⟩

theorem reachable_block {names : List String} {place depth : Int} (h : 1 ≤ place)
    (hd : place + names.length ≤ depth + 1) : ∀ b ∈ numbered .blockLocal place names, Reachable depth b := by
  induction names generalizing place with
  | nil => nofun
  | cons name names ih =>
    rw [List.length_cons] at hd
    exact List.forall_mem_cons.2 ⟨fun _ => ⟨h, by show place ≤ depth; omega⟩, ih (by omega) (by omega)⟩

/-- other variables do not lie in frames -/
theorem reachable_numbered {storage : Storage} (hs : storage ≠ .blockLocal) (depth : Int) {names : List String}
    {place : Int} : ∀ b ∈ numbered storage place names, Reachable depth b := by
  induction names generalizing place with
  | nil => nofun
  | cons name names ih => exact List.forall_mem_cons.2 ⟨fun hb => absurd hb hs, ih⟩

theorem reachable_function (params captures : List String) : (functionScope params captures).Each (Reachable 0) :=
  Scope.Each.empty.extend (List.forall_mem_append.2 ⟨reachable_numbered (by decide) 0, reachable_numbered (by decide) 0⟩)

/-! ## Expressions -/

/-- no routine stands in the code of another one -/
abbrev Piece (o : Option Routine) (c : Code Op) (d d' : Int) : Prop := Segment (fun _ => False) o c d d'

/-- the code of an expression leads from its depth to the next one -/
def Annotated (image : Image Op) (e : Expr) : Prop :=
  ∀ ⦃ρ : Scope⦄ ⦃o : Option Routine⦄ ⦃d : Int⦄ ⦃mode : Mode⦄ ⦃c : Code Op⦄, 0 ≤ d → ρ.Each (Reachable d) →
    Emits image ρ d mode e c → Piece o c d (d + 1)

section
variable {image : Image Op} {ρ : Scope} {o : Option Routine} {d : Int} {c : Code Op}

theorem segment_storage {b : Binding} (hd : 0 ≤ d) (h : Reachable d b) : Piece o [storage b] d (d + 1) := by
  rw [storage]
  cases hb : b.storage with
  | blockLocal => exact .own hd rfl rfl (h hb)
  | formal | global | captured => exact .own hd rfl rfl trivial

theorem segment_box (mode : Mode) (hd : 0 ≤ d) : Piece o mode.box (d + 1) (d + 1) := by
  have hd' : 0 ≤ d + 1 := by omega
  cases mode with
  | basic => exact .nil
  | value =>
    have hmkbasic : Piece o [.own .mkbasic] (d + 1) (d + 1) := .own hd' (Int.add_zero _) rfl trivial
    exact hmkbasic.append (.own hd' (Int.add_zero _) rfl trivial)

theorem segment_unbox (mode : Mode) (hd : 0 ≤ d) : Piece o mode.unbox (d + 1) (d + 1) := by
  cases mode with
  | basic => exact .own (by omega) (Int.add_zero _) rfl trivial
  | value => exact .nil

theorem segment_read (mode : Mode) (hd : 0 ≤ d) : Piece o mode.read (d + 1) (d + 1) := by
  cases mode <;> exact .own (by omega) (Int.add_zero _) rfl trivial

theorem segment_zero (mode : Mode) (hd : 0 ≤ d) : Piece o mode.zero d (d + 1) :=
  (Segment.loadc hd).append (segment_box mode hd)

theorem segment_store (hd : 0 ≤ d) : Piece o [.own .store] (d + 1 + 1) (d + 1) :=
  .own (by omega) (Int.add_neg_cancel_right _ 1) rfl trivial

theorem segment_mkvec {n : Nat} (hd : 0 ≤ d) : Piece o [.own (.mkvec n)] (d + n) (d + 1) :=
  .own (by omega) (by show d + (n : Int) + (1 - n) = d + 1; omega) rfl trivial

theorem segment_slide {n : Nat} (hd : 0 ≤ d) : Piece o [.own (.slide n)] (d + n + 1) (d + 1) :=
  .own (by omega) (by show d + n + 1 + -(n : Int) = d + 1; omega) rfl trivial

theorem segment_sequence {mode : Mode} {items : List Expr} (hi : ∀ e ∈ items, Annotated image e) (hd : 0 ≤ d)
    (hρ : ρ.Each (Reachable d)) (h : EmitsSequence image ρ d mode items c) : Piece o c d (d + 1) := by
  induction items generalizing c with
  | nil => cases h
  | cons item items ih =>
    have hitem := hi item List.mem_cons_self
    cases h with
    | last h => exact hitem hd hρ h
    | cons h hrest =>
      exact ((hitem hd hρ h).append (.pop hd)).append (ih (fun e he => hi e (List.mem_cons_of_mem _ he)) hrest)

theorem segment_optional {mode : Mode} {e : Option Expr} (hi : ∀ part ∈ e.toList, Annotated image part) (hd : 0 ≤ d)
    (hρ : ρ.Each (Reachable d)) (h : EmitsOptional image ρ d mode e c) : Piece o c d (d + 1) := by
  cases h with
  | none => exact segment_zero mode hd
  | some h => exact hi _ (by simp) hd hρ h

/-- the values of a block are generated over the cell that each is copied into -/
theorem segment_initial {bindings : List (String × Expr)} (hi : ∀ b ∈ bindings, Annotated image b.2) (hd : 0 ≤ d)
    (hρ : ρ.Each (Reachable d)) (h : EmitsInitial image ρ (d + 1) bindings c) : Piece o c d d := by
  induction bindings generalizing c with
  | nil =>
    cases h
    exact .nil
  | cons binding rest ih =>
    cases h with
    | cons hb h hrest =>
      have hvalue : Piece o _ (d + 1) (d + 1 + 1) :=
        hi _ List.mem_cons_self (by omega) (hρ.imp fun b hb => hb.mono (by omega)) h
      have hwrite : Piece o [.own .store, .pop] (d + 1 + 1) d := (segment_store hd).append (.pop hd)
      exact (((segment_storage hd (hρ _ _ hb)).append hvalue).append hwrite).append
        (ih (fun b hb => hi b (List.mem_cons_of_mem _ hb)) hrest)

theorem segment_arguments {args : List Expr} (hi : ∀ e ∈ args, Annotated image e) (hd : 0 ≤ d)
    (hρ : ρ.Each (Reachable d)) (h : EmitsArguments image ρ d args c) : Piece o c d (d + args.length) := by
  induction args generalizing c d with
  | nil =>
    cases h
    simpa using .nil
  | cons arg args ih =>
    cases h with
    | cons h hrest =>
      have hlater := ih (fun e he => hi e (List.mem_cons_of_mem _ he)) (by omega)
        (hρ.imp fun b hb => hb.mono (by omega)) hrest
      rw [List.length_cons, Nat.cast_add, Nat.cast_one, Int.add_comm (args.length : Int), ← Int.add_assoc]
      exact (hi arg List.mem_cons_self hd hρ h).append hlater

theorem segment_pushed {captures : List String} (hd : 0 ≤ d) (hρ : ρ.Each (Reachable d)) (h : Pushed ρ captures c) :
    Piece o c d (d + captures.length) := by
  induction h generalizing d with
  | nil => simpa using .nil
  | @cons x i captures c hx _ ih =>
    obtain ⟨b, hb, rfl⟩ := hx
    have hrest : Piece o c (d + 1) (d + 1 + captures.length) :=
      ih (by omega) (hρ.imp fun b hb => hb.mono (by omega))
    rw [List.length_cons, Nat.cast_add, Nat.cast_one, Int.add_comm (captures.length : Int), ← Int.add_assoc]
    exact (segment_storage hd (hρ _ _ hb)).append hrest

/-- a function literal pushes the cells that the function captures and makes it a value -/
theorem segment_function {captures : List String} {label : Label} {mode : Mode} (hd : 0 ≤ d) (hρ : ρ.Each (Reachable d))
    (h : Pushed ρ captures c) :
    Piece o (c ++ [.own (.mkvec captures.length), .own (.mkfunval label), .own (.mkind .function)] ++ mode.unbox) d
      (d + 1) := by
  have hd' : 0 ≤ d + 1 := by omega
  have hmkfunval : Piece o [.own (.mkfunval label)] (d + 1) (d + 1) := .own hd' (Int.add_zero _) rfl trivial
  have hmkind : Piece o [.own (.mkind .function)] (d + 1) (d + 1) := .own hd' (Int.add_zero _) rfl trivial
  exact ((segment_pushed hd hρ h).append ((segment_mkvec hd).append (hmkfunval.append hmkind))).append
    (segment_unbox mode hd)

/-- the arguments and the return address go into vectors -/
theorem segment_enter {n : Nat} {back : Label} (hd : 0 ≤ d) :
    Piece o [.own (.mkvec n), .loadc (.addr back), .own (.mkvec 1), .own .call, .label back] (d + 1 + n) (d + 1) := by
  have hargs : Piece o [.own (.mkvec n)] (d + 1 + n) (d + 1 + 1) := segment_mkvec (by omega)
  have hback : Piece o [.loadc (.addr back)] (d + 1 + 1) (d + 1 + 1 + 1) := .single (by omega) rfl rfl rfl nofun rfl
  have hreturns : Piece o [.own (.mkvec 1)] (d + 1 + 1 + 1) (d + 1 + 1 + 1) :=
    .own (by omega) (Int.add_zero _) rfl trivial
  have hcall : Piece o [.own .call] (d + 1 + 1 + 1) (d + 1) :=
    .own (by omega) (by show d + 1 + 1 + 1 + -2 = d + 1; omega) rfl trivial
  exact hargs.append (hback.append (hreturns.append (hcall.append
    (.single (by omega) (Int.add_zero _) rfl rfl nofun rfl))))

end

/-- **Expressions.** The code of an expression leads from its depth to the next one. -/
theorem annotated (image : Image Op) (e : Expr) : Annotated image e := by
  refine Expr.byParts (fun e ih => ?_) e
  intro ρ o d mode c hd hρ h
  have hd' : 0 ≤ d + 1 := by omega
  have hρ' : ρ.Each (Reachable (d + 1)) := hρ.imp fun b hb => hb.mono (by omega)
  cases h with
  | number | bool => exact (Segment.loadc hd).append (segment_box mode hd)
  | var hb => exact (segment_storage hd (hρ _ _ hb)).append (segment_read mode hd)
  | unary h => exact ((ih _ (by simp [Expr.children]) hd hρ h).append (.unary hd)).append (segment_box mode hd)
  | binary hl hr =>
    exact (((ih _ (by simp [Expr.children]) hd hρ hl).append (ih _ (by simp [Expr.children]) hd' hρ' hr)).append
      (.binary hd)).append (segment_box mode hd)
  | assign hb h =>
    exact (((segment_storage hd (hρ _ _ hb)).append (ih _ (by simp [Expr.children]) hd' hρ' h)).append
      (segment_store hd)).append (segment_read mode hd)
  | seq h => exact segment_sequence (fun part hp => ih part hp) hd hρ h
  | ite hc ht he =>
    exact segment_ifThenElse hd (ih _ (by simp [Expr.children]) hd hρ hc) (ih _ (by simp [Expr.children]) hd hρ ht)
      (segment_optional (fun part hp => ih part (by simp_all [Expr.children])) hd hρ he)
  | whileDo hc hb =>
    exact segment_whileDo hd (segment_zero mode hd) (ih _ (by simp [Expr.children]) hd' hρ' hc)
      (ih _ (by simp [Expr.children]) hd hρ hb)
  | doWhile hb hc =>
    exact segment_doWhile hd (ih _ (by simp [Expr.children]) hd hρ hb) (ih _ (by simp [Expr.children]) hd' hρ' hc)
  | loop hc hb =>
    exact segment_countedLoop hd (segment_zero mode hd) (ih _ (by simp [Expr.children]) hd' hρ' hc)
      (ih _ (by simp [Expr.children]) hd' hρ' hb)
  | @block _ _ _ bindings body values result _ hvalues hresult =>
    have hn : 0 ≤ d + bindings.length := by omega
    have hinner : (ρ.extend (numbered .blockLocal (d + 1) (bindings.map Prod.fst))).Each
        (Reachable (d + bindings.length)) :=
      (hρ.imp fun b hb => hb.mono (by omega)).extend (reachable_block (by omega) (by simp; omega))
    have halloc : Piece o [.own (.alloc bindings.length)] d (d + bindings.length) := .own hd rfl rfl trivial
    have hv : Piece o values (d + bindings.length) (d + bindings.length) :=
      segment_initial (fun b hb => ih b.2 (List.mem_cons_of_mem _ (List.mem_map_of_mem hb))) hn hinner hvalues
    exact ((halloc.append hv).append (ih body (by simp [Expr.children]) hn hinner hresult)).append (segment_slide hd)
  | lambda hpushed | proc hpushed => exact segment_function hd hρ hpushed
  | @call _ _ _ callee args target pushed back hcallee hargs =>
    exact (((ih callee (by simp [Expr.children]) hd hρ hcallee).append
      (segment_arguments (fun part hp => ih part (List.mem_cons_of_mem _ hp)) hd' hρ' hargs)).append
        (segment_enter hd)).append (segment_unbox mode hd)

/-! ## Bodies -/

/-- store 0 in new variables -/
theorem segment_zeros {o : Option Routine} {d place : Int} {names : List String} (h : 1 ≤ place)
    (hd : place + names.length ≤ d + 1) :
    Piece o ((numbered .blockLocal place names).flatMap fun b => storage b :: Mode.zero .value ++ [.own .store, .pop])
      d d := by
  induction names generalizing place with
  | nil => exact .nil
  | cons name names ih =>
    rw [List.length_cons] at hd
    have hd₀ : 0 ≤ d := by omega
    have hwrite : Piece o [.own .store, .pop] (d + 1 + 1) d := (segment_store hd₀).append (.pop hd₀)
    have hcell : Piece o [storage ⟨name, .blockLocal, place⟩] d (d + 1) :=
      segment_storage hd₀ fun _ => ⟨h, by show place ≤ d; omega⟩
    exact ((hcell.append (segment_zero .value (by omega))).append hwrite).append (ih (by omega) (by omega))

theorem bodyOf_ret {r : Routine} {c : Code Op} {i : Int} (h : Piece (some r) c 0 1) : BodyOf r (c ++ [.own (.ret i)]) :=
  Segment.body h rfl Int.one_nonneg trivial

section
variable {image : Image Op} {root body : Expr} {params locals captures : List String} {label : Label} {c : Code Op}

theorem fromLiteral_plain (hroot : Expr.Within (.lambda params body) root ∨ Expr.Within (.proc params [] body) root)
    (h : Emits image (functionScope params captures) 0 .value body c) :
    FromLiteral root ⟨label, params, captures, c ++ [.own (.ret 0)]⟩ := by
  refine ⟨⟨label, params, []⟩, rfl, rfl, ⟨body, hroot.symm.imp_right fun h => ⟨rfl, h⟩⟩, bodyOf_ret ?_⟩
  exact annotated image body le_rfl (reachable_function params captures) h

theorem fromLiteral_withLocals (hroot : Expr.Within (.proc params locals body) root)
    (h : ZeroedBlock locals body image (functionScope params captures) c) :
    FromLiteral root ⟨label, params, captures, c ++ [.own (.ret 0)]⟩ := by
  obtain ⟨-, result, rfl, hresult⟩ := h
  refine ⟨⟨label, params, locals⟩, rfl, rfl, ⟨body, .inl hroot⟩, bodyOf_ret ?_⟩
  have hn : 0 ≤ (locals.length : Int) := by omega
  have hinner : ((functionScope params captures).extend (numbered .blockLocal 1 locals)).Each
      (Reachable locals.length) :=
    ((reachable_function params captures).imp fun b hb => hb.mono hn).extend (reachable_block le_rfl (by omega))
  have halloc : Piece (some ⟨label, params, locals⟩) [.own (.alloc locals.length)] 0 locals.length :=
    .own le_rfl (Int.zero_add _) rfl trivial
  have hslide : Piece (some ⟨label, params, locals⟩) [.own (.slide locals.length)] (locals.length + 1) 1 := by
    simpa using segment_slide (o := some ⟨label, params, locals⟩) (d := 0) (n := locals.length) le_rfl
  exact ((halloc.append (segment_zeros le_rfl (by omega))).append (annotated image body hn hinner hresult)).append hslide

end

section
variable {image : Image Op} {T : LambdaBody Op → Prop}

theorem registers_storages (s : ScopeId) (names : List String) : Gen.Registers image T (storages s names) :=
  fun d c d' h => by
    obtain ⟨rfl, -⟩ := storages_ok h
    exact ⟨.refl d', fun _ body hb => .inl hb⟩

/-- a function registers its body, after whatever the code of its body has registered -/
theorem registers_function {s : ScopeId} {params captures : List String} {body : ScopeId → Gen Op (Code Op)}
    (hbody : ∀ frame, Gen.Registers image T (body frame))
    (hT : ∀ d₁ d₂ frame label b, frame.index < d₁.scopes.frames.length →
      d₁.scopes.sees frame = functionScope params captures → body frame d₁ = .ok b d₂ →
      image.Holds d₂.lambdas.bodies → T ⟨label, params, captures, b ++ [.own (.ret 0)]⟩) :
    Gen.Registers image T (function s params captures body) := fun d c d' h => by
  simp only [function, Gen.bind_ok, Gen.pure_ok] at h
  obtain ⟨pushed, d₀, h₀, label, d₁, h₁, frame, d₂, h₂, b, d₃, h₃, _, d₄, h₄, rfl, rfl⟩ := h
  obtain ⟨hx₀, hT₀⟩ := (registers_storages s captures).bind (fun _ => (Gen.Registers.fresh "fun").bind fun _ =>
    (Gen.Registers.openScope none (numbered .formal 0 params ++ numbered .captured 0 captures)).bind hbody)
    (Gen.bind_ok.2 ⟨_, d₀, h₀, Gen.bind_ok.2 ⟨label, d₁, h₁, Gen.bind_ok.2 ⟨frame, d₂, h₂, h₃⟩⟩⟩)
  obtain ⟨hx₄, -⟩ := Gen.extends_of_register h₄
  obtain ⟨rfl, -, hd, hsees⟩ := Gen.openScope_ok h₂
  refine ⟨hx₀.trans hx₄, fun hh body hb => ?_⟩
  have hh₃ : image.Holds d₃.lambdas.bodies := fun body hb => hh body (hx₄.bodies hb)
  rcases Gen.registers_register h₄ body hb with hb | rfl
  · exact hT₀ hh₃ body hb
  · exact .inr (hT d₂ d₃ _ label b (by rw [hd]; simp) hsees h₃ hh₃)

theorem registers_sequence {s : ScopeId} {depth : Int} {mode : Mode} {items : List Expr}
    (hi : ∀ e ∈ items, ∀ mode, Gen.Registers image T (code s depth mode e)) :
    Gen.Registers image T (sequence s depth mode items) := by
  induction items with
  | nil => exact .throw _
  | cons item items ih =>
    have hitem := hi item List.mem_cons_self
    cases items with
    | nil => exact hitem mode
    | cons next items =>
      exact .bind (hitem .value) fun _ => .bind (ih fun e he => hi e (List.mem_cons_of_mem _ he)) fun _ => .pure _

theorem registers_optional {s : ScopeId} {depth : Int} {mode : Mode} {e : Option Expr}
    (hi : ∀ part ∈ e.toList, Gen.Registers image T (code s depth mode part)) :
    Gen.Registers image T (optional s depth mode e) := by
  cases e with
  | none => exact .pure _
  | some e => exact hi e (by simp)

theorem registers_initial {s : ScopeId} {depth : Int} {bindings : List (String × Expr)}
    (hi : ∀ b ∈ bindings, Gen.Registers image T (code s depth .value b.2)) :
    Gen.Registers image T (initial s depth bindings) := by
  induction bindings with
  | nil => exact .pure _
  | cons binding rest ih =>
    exact .bind (.lookup s _) fun _ => .bind (hi binding List.mem_cons_self) fun _ =>
      .bind (ih fun b hb => hi b (List.mem_cons_of_mem _ hb)) fun _ => .pure _

theorem registers_arguments {s : ScopeId} {depth : Int} {args : List Expr}
    (hi : ∀ e ∈ args, ∀ depth, Gen.Registers image T (code s depth .value e)) :
    Gen.Registers image T (arguments s depth args) := by
  induction args generalizing depth with
  | nil => exact .pure _
  | cons arg args ih =>
    exact .bind (hi arg List.mem_cons_self depth) fun _ =>
      .bind (ih fun e he => hi e (List.mem_cons_of_mem _ he)) fun _ => .pure _

end

/-- **Bodies.** Whatever the generator registers for an expression is the body of a function literal in it. -/
theorem registers_code (image : Image Op) {root : Expr} (e : Expr) : e.Within root → ∀ s depth mode,
    Gen.Registers image (FromLiteral root) (code s depth mode e) := by
  refine Expr.byParts (motive := fun e => e.Within root → ∀ s depth mode, Gen.Registers image (FromLiteral root)
    (code s depth mode e)) (fun e hparts hroot => ?_) e
  have ih := fun part hp => hparts part hp (.head hp hroot)
  intro s depth mode
  cases e with
  | number value => exact .pure _
  | bool value => exact .pure _
  | var name => exact .bind (.lookup s name) fun _ => .pure _
  | unary op operand => exact .bind (ih operand (by simp [Expr.children]) s depth .basic) fun _ => .pure _
  | binary op lhs rhs =>
    exact .bind (ih lhs (by simp [Expr.children]) s depth .basic) fun _ =>
      .bind (ih rhs (by simp [Expr.children]) s (depth + 1) .basic) fun _ => .pure _
  | assign name value =>
    exact .bind (.lookup s name) fun _ =>
      .bind (ih value (by simp [Expr.children]) s (depth + 1) .value) fun _ => .pure _
  | seq items => exact registers_sequence fun e he => ih e he s depth
  | ite cond thenBranch elseBranch =>
    exact .ifThenElse (ih cond (by simp [Expr.children]) s depth .basic)
      (ih thenBranch (by simp [Expr.children]) s depth mode)
      (registers_optional fun part hp => ih part (by simp_all [Expr.children]) s depth mode)
  | whileDo cond body =>
    exact .whileDo (ih cond (by simp [Expr.children]) s (depth + 1) .basic)
      (ih body (by simp [Expr.children]) s depth mode)
  | doWhile body cond =>
    exact .doWhile (ih body (by simp [Expr.children]) s depth mode)
      (ih cond (by simp [Expr.children]) s (depth + 1) .basic)
  | loop count body =>
    exact .countedLoop (ih count (by simp [Expr.children]) s (depth + 1) .basic)
      (ih body (by simp [Expr.children]) s (depth + 1) mode)
  | block bindings body =>
    exact .bind (.openScope _ _) fun inner =>
      .bind (registers_initial fun b hb => ih b.2 (List.mem_cons_of_mem _ (List.mem_map_of_mem hb)) inner _ .value) fun _ =>
        .bind (ih body (by simp [Expr.children]) inner _ mode) fun _ => .pure _
  | lambda params body =>
    refine .bind (registers_function (fun frame => ih body (by simp [Expr.children]) frame 0 .value) ?_) fun _ => .pure _
    intro d₁ d₂ frame label b hframe hsees hb hh
    have hbody := (emits_code body hframe (.refl d₁) hb).2 image hh
    exact fromLiteral_plain (.inl hroot) (hsees ▸ hbody)
  | proc params locals body =>
    cases locals with
    | nil =>
      refine .bind (registers_function (fun frame => ih body (by simp [Expr.children]) frame 0 .value) ?_) fun _ => .pure _
      intro d₁ d₂ frame label b hframe hsees hb hh
      have hbody := (emits_code body hframe (.refl d₁) hb).2 image hh
      exact fromLiteral_plain (.inr hroot) (hsees ▸ hbody)
    | cons first rest =>
      refine .bind (registers_function (fun frame => .bind (.openScope _ _) fun inner =>
        .bind (ih body (by simp [Expr.children]) inner _ .value) fun _ => .pure _) ?_) fun _ => .pure _
      intro d₁ d₂ frame label b hframe hsees hb hh
      have hbody := (zeroedBlock_ok (emits_code body) hb).2 image hh
      exact fromLiteral_withLocals hroot (hsees ▸ hbody)
  | call callee args =>
    exact .bind (ih callee (by simp [Expr.children]) s depth .value) fun _ =>
      .bind (registers_arguments fun e he depth => ih e (List.mem_cons_of_mem _ he) s depth .value) fun _ =>
        .bind (.fresh _) fun _ => .pure _

/-! ## Programs -/

/-- the entry stream makes the cells of the globals and goes on with the code of the expression -/
theorem segment_compile {e : Expr} {p : Program Op} (h : compile .vector e = .ok p) : Piece none p.code 0 1 := by
  obtain ⟨-, -, entry, hcode, hentry⟩ := emits_compile h
  have halloc : Piece none [.own (.alloc e.globalNames.length)] 0 e.globalNames.length :=
    .own le_rfl (Int.zero_add _) rfl trivial
  have hmkvec : Piece none [.own (.mkvec e.globalNames.length)] e.globalNames.length 1 := by
    simpa using segment_mkvec (o := none) (d := 0) (n := e.globalNames.length) le_rfl
  have hsetgp : Piece none [.own .setgp] 1 0 := .own (by omega) rfl rfl trivial
  rw [hcode]
  exact (halloc.append (hmkvec.append hsetgp)).append
    (annotated _ e le_rfl (Scope.Each.empty.extend (reachable_numbered (by decide) 0)) hentry)

theorem bodies_compile {e : Expr} {p : Program Op} (h : compile .vector e = .ok p) :
    ∀ body ∈ p.lambdas.bodies, FromLiteral e body := by
  obtain ⟨d, hgen, hcheck⟩ := generate_of_compile h
  simp only [ThreeMachines.generate, generate, Gen.bind_ok, Gen.pure_ok, Gen.get_ok] at hgen
  obtain ⟨_, d₁, hbind, entry, d₂, hcode, _, _, ⟨rfl, rfl⟩, rfl, rfl⟩ := hgen
  intro body hb
  have hbodies := (registers_code _ e .refl ScopeTable.global 0 .basic hcode).2 (Image.holds_ofProgram hcheck) body hb
  rw [Gen.bodies_of_bindGlobals hbind] at hbodies
  exact hbodies.resolve_left List.not_mem_nil

end ThreeMachines.Vector

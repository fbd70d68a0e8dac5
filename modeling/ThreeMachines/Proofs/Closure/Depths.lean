/-
Depths in the code of the closure machine.

The variables of blocks lie in the words of the frame, at addresses from 1 up to the depth, and the parameters of the
running function right under them. Function bodies are streams of their own.

- `annotated`: the code of an expression leads from its depth to the next one.
- `registers_code`: the bodies that the generator registers are bodies of the function literals in the expression.
- `segment_compile`, `bodies_compile`: so the streams of a program can be annotated.
-/
import ThreeMachines.Proofs.Closure.Emission
import ThreeMachines.Proofs.Depths
import ThreeMachines.Proofs.Registrations

namespace ThreeMachines.Closure

/-- the parameters that lie under a frame -/
def arity (o : Option Routine) : Int := (o.map fun r => (r.params.length : Int)).getD 0

/-- the address is that of a word of the frame or of a parameter -/
def InFrame (o : Option Routine) (depth address : Int) : Prop := 1 - arity o ≤ address ∧ address ≤ depth

instance : Framed Op where
  returns op := op = .popenv
  exit _ := 1
  Reaches
    | o, depth, .pushloc k => InFrame o depth (depth - k)
    | o, depth, .storeloc k | o, depth, .refill k => InFrame o (depth - 1) (depth - k)
    | _, _, _ => True
  inline := false

/-- a variable of a block or a parameter lies in the frame -/
def Reachable (o : Option Routine) (depth : Int) (b : Binding) : Prop :=
  b.storage = .blockLocal ∨ b.storage = .formal → InFrame o depth b.address

theorem Reachable.mono {o : Option Routine} {d d' : Int} {b : Binding} (h : Reachable o d b) (hd : d ≤ d') :
    Reachable o d' b := fun hb => ⟨(h hb).1, (h hb).2.trans hd⟩

theorem arity_nonneg (o : Option Routine) : 0 ≤ arity o := by
  cases o <;> simp [arity]

theorem reachable_block (o : Option Routine) {names : List String} {place depth : Int} (h : 0 ≤ place)
    (hd : place + names.length ≤ depth) : ∀ b ∈ blockBindings place names, Reachable o depth b := by
  induction names generalizing place with
  | nil => nofun
  | cons name names ih =>
    rw [List.length_cons] at hd
    have := arity_nonneg o
    exact List.forall_mem_cons.2 ⟨fun _ => ⟨by show _ ≤ place + 1; omega, by show place + 1 ≤ _; omega⟩,
      ih (by omega) (by omega)⟩

theorem reachable_formal (o : Option Routine) {names : List String} {address depth : Int} (h : 1 - arity o ≤ address)
    (hd : address + names.length ≤ depth + 1) : ∀ b ∈ formalBindings address names, Reachable o depth b := by
  induction names generalizing address with
  | nil => nofun
  | cons name names ih =>
    rw [List.length_cons] at hd
    exact List.forall_mem_cons.2 ⟨fun _ => ⟨h, by show address ≤ _; omega⟩, ih (by omega) (by omega)⟩

theorem reachable_capture (o : Option Routine) (depth : Int) {shared : List (String × Bool)} {place : Int} :
    ∀ b ∈ captureBindings place shared, Reachable o depth b := by
  induction shared generalizing place with
  | nil => nofun
  | cons entry rest ih =>
    refine List.forall_mem_cons.2 ⟨fun hb => ?_, ih⟩
    cases hshared : entry.2 <;> simp [hshared] at hb

theorem reachable_function (r : Routine) (shared : List (String × Bool)) :
    (functionScope r.params shared).Each (Reachable (some r) 0) :=
  Scope.Each.empty.extend (List.forall_mem_append.2 ⟨reachable_capture _ _,
    reachable_formal (some r) le_rfl (by omega)⟩)

theorem reachable_global (o : Option Routine) (depth : Int) {names : List String} {place : Int} :
    ∀ b ∈ globalBindings place names, Reachable o depth b := by
  induction names generalizing place with
  | nil => nofun
  | cons name names ih => exact List.forall_mem_cons.2 ⟨nofun, ih⟩

/-! ## Expressions -/

/-- no routine stands in the code of another one -/
abbrev Piece (o : Option Routine) (c : Code Op) (d d' : Int) : Prop := Segment (fun _ => False) o c d d'

/-- the code of an expression leads from its depth to the next one -/
def Annotated (image : Image Op) (e : Expr) : Prop :=
  ∀ ⦃ρ : Scope⦄ ⦃o : Option Routine⦄ ⦃d : Int⦄ ⦃c : Code Op⦄, 0 ≤ d → ρ.Each (Reachable o d) → Emits image ρ d e c →
    Piece o c d (d + 1)

section
variable {image : Image Op} {ρ : Scope} {o : Option Routine} {d : Int} {c : Code Op}

theorem segment_fetch {b : Binding} (hd : 0 ≤ d) (h : Reachable o d b) : Piece o (fetch d b) d (d + 1) := by
  have hd' : 0 ≤ d + 1 := by omega
  have hglob : Piece o [.own (.pushglob b.address)] d (d + 1) := .own hd rfl rfl trivial
  have hloc (hb : b.storage = .blockLocal ∨ b.storage = .formal) : Piece o [.own (.pushloc (d - b.address))] d (d + 1) := by
    refine .own hd rfl rfl ?_
    show InFrame o d (d - (d - b.address))
    rw [Int.sub_sub_self]
    exact h hb
  rw [fetch]
  cases hb : b.storage with
  | global => exact hglob.append (.own hd' (Int.add_zero _) rfl trivial)
  | captured => exact hglob
  | blockLocal => exact hloc (.inl hb)
  | formal => exact hloc (.inr hb)

theorem segment_storeloc {k : Int} (hd : 0 ≤ d) (h : InFrame o d (d + 1 - k)) :
    Piece o [.own (.storeloc k)] (d + 1) (d + 1) := by
  refine .own (by omega) (Int.add_zero _) rfl ?_
  show InFrame o (d + 1 - 1) (d + 1 - k)
  rwa [Int.add_sub_cancel]

theorem segment_update {b : Binding} (hd : 0 ≤ d) (hb : b.storage ≠ .captured) (h : Reachable o d b) :
    Piece o (update d b) (d + 1) (d + 1) := by
  have hglob : Piece o [.own (.pushglob b.address)] (d + 1) (d + 1 + 1) := .own (by omega) rfl rfl trivial
  have hloc (hb : b.storage = .blockLocal ∨ b.storage = .formal) :
      Piece o [.own (.storeloc (d + 1 - b.address))] (d + 1) (d + 1) := by
    refine segment_storeloc hd ?_
    rw [Int.sub_sub_self]
    exact h hb
  rw [update]
  cases hs : b.storage with
  | global => exact hglob.append (.own (by omega) (Int.add_neg_cancel_right _ 1) rfl trivial)
  | captured => exact absurd hs hb
  | blockLocal => exact hloc (.inl hs)
  | formal => exact hloc (.inr hs)

theorem segment_zero (hd : 0 ≤ d) : Piece o zero d (d + 1) := .loadc hd

theorem segment_slide {n : Nat} (hd : 0 ≤ d) : Piece o [.own (.slide n)] (d + n + 1) (d + 1) :=
  .own (by omega) (by show d + n + 1 + -(n : Int) = d + 1; omega) rfl trivial

theorem segment_sequence {items : List Expr} (hi : ∀ e ∈ items, Annotated image e) (hd : 0 ≤ d)
    (hρ : ρ.Each (Reachable o d)) (h : EmitsSequence image ρ d items c) : Piece o c d (d + 1) := by
  induction items generalizing c with
  | nil => cases h
  | cons item items ih =>
    have hitem := hi item List.mem_cons_self
    cases h with
    | last h => exact hitem hd hρ h
    | cons h hrest =>
      exact ((hitem hd hρ h).append (.pop hd)).append (ih (fun e he => hi e (List.mem_cons_of_mem _ he)) hrest)

theorem segment_optional {e : Option Expr} (hi : ∀ part ∈ e.toList, Annotated image part) (hd : 0 ≤ d)
    (hρ : ρ.Each (Reachable o d)) (h : EmitsOptional image ρ d e c) : Piece o c d (d + 1) := by
  cases h with
  | none => exact segment_zero hd
  | some h => exact hi _ (by simp) hd hρ h

/-- the values of a block go to the words that the block has made -/
theorem segment_initial {bindings : List (String × Expr)} (hi : ∀ b ∈ bindings, Annotated image b.2)
    (hd : bindings.length ≤ d) (hρ : ρ.Each (Reachable o d)) (h : EmitsInitial image ρ d bindings c) :
    Piece o c d d := by
  induction bindings generalizing c with
  | nil =>
    cases h
    exact .nil
  | cons binding rest ih =>
    cases h with
    | cons h hrest =>
      rw [List.length_cons] at hd
      have hd₀ : 0 ≤ d := by omega
      have hplace : InFrame o d (d + 1 - (rest.length + 1 : Nat)) := by
        have := arity_nonneg o
        constructor <;> omega
      refine ((hi _ List.mem_cons_self hd₀ hρ h).append ?_).append
        (ih (fun b hb => hi b (List.mem_cons_of_mem _ hb)) (by omega) hrest)
      split
      · refine .own (by omega) (Int.add_neg_cancel_right d 1) rfl ?_
        show InFrame o (d + 1 - 1) _
        rwa [Int.add_sub_cancel]
      · exact (segment_storeloc hd₀ hplace).append (.pop hd₀)

theorem segment_arguments {args : List Expr} (hi : ∀ e ∈ args, Annotated image e) (hd : 0 ≤ d)
    (hρ : ρ.Each (Reachable o d)) (h : EmitsArguments image ρ d args c) : Piece o c d (d + args.length) := by
  induction args generalizing c d with
  | nil =>
    cases h
    simpa using .nil
  | cons arg args ih =>
    cases h with
    | cons h hrest =>
      have hlater := ih (fun e he => hi e (List.mem_cons_of_mem _ he)) (by omega)
        (hρ.imp fun b hb => hb.mono (by omega)) hrest
      rw [List.length_cons, Nat.cast_add, Nat.cast_one, Int.add_comm (args.length : Int), ← Int.add_assoc]
      exact (hi arg List.mem_cons_self hd hρ h).append hlater

theorem segment_pushed {names : List String} {shared : List (String × Bool)} (hd : 0 ≤ d) (hρ : ρ.Each (Reachable o d))
    (h : Pushed ρ d names shared c) : Piece o c d (d + names.length) := by
  induction names generalizing c d shared with
  | nil =>
    cases h
    simpa using .nil
  | cons name names ih =>
    cases h with
    | @cons _ _ _ b later shared hb hlater =>
      have hrest := ih (by omega) (hρ.imp fun b hb => hb.mono (by omega)) hlater
      have hfirst : Piece o (if b.storage = .global then [.own (.pushglob b.address)] else fetch d b) d (d + 1) := by
        split
        · exact .own hd rfl rfl trivial
        · exact segment_fetch hd (hρ _ _ hb)
      rw [List.length_cons, Nat.cast_add, Nat.cast_one, Int.add_comm (names.length : Int), ← Int.add_assoc]
      exact hfirst.append hrest

/-- a function literal pushes what the function captures and makes it a closure -/
theorem segment_function {params locals : List String} {body : Expr} (hd : 0 ≤ d) (hρ : ρ.Each (Reachable o d))
    (h : EmitsFunction image ρ d params locals body c) : Piece o c d (d + 1) := by
  obtain ⟨-, hpushed, -, -⟩ := h
  rename_i captures shared pushed label entry
  have hmkvec : Piece o [.own (.mkvec captures.length)] (d + captures.length) (d + 1) :=
    .own (by omega) (by show d + (captures.length : Int) + (1 - captures.length) = d + 1; omega) rfl trivial
  have hmkfunval : Piece o [.own (.mkfunval label)] (d + 1) (d + 1) := .own (by omega) (Int.add_zero _) rfl trivial
  exact (segment_pushed hd hρ hpushed).append (hmkvec.append hmkfunval)

end

/-- **Expressions.** The code of an expression leads from its depth to the next one. -/
theorem annotated (image : Image Op) (e : Expr) : Annotated image e := by
  refine Expr.byParts (fun e ih => ?_) e
  intro ρ o d c hd hρ h
  have hd' : 0 ≤ d + 1 := by omega
  have hρ' : ρ.Each (Reachable o (d + 1)) := hρ.imp fun b hb => hb.mono (by omega)
  cases h with
  | number | bool => exact .loadc hd
  | var hb => exact segment_fetch hd (hρ _ _ hb)
  | unary h => exact (ih _ (by simp [Expr.children]) hd hρ h).append (.unary hd)
  | binary hl hr =>
    exact ((ih _ (by simp [Expr.children]) hd hρ hl).append (ih _ (by simp [Expr.children]) hd' hρ' hr)).append (.binary hd)
  | assign hb hstorage h =>
    exact (ih _ (by simp [Expr.children]) hd hρ h).append (segment_update hd hstorage (hρ _ _ hb))
  | seq h => exact segment_sequence (fun part hp => ih part hp) hd hρ h
  | ite hc ht he =>
    exact segment_ifThenElse hd (ih _ (by simp [Expr.children]) hd hρ hc) (ih _ (by simp [Expr.children]) hd hρ ht)
      (segment_optional (fun part hp => ih part (by simp_all [Expr.children])) hd hρ he)
  | whileDo hc hb =>
    exact segment_whileDo hd (segment_zero hd) (ih _ (by simp [Expr.children]) hd' hρ' hc)
      (ih _ (by simp [Expr.children]) hd hρ hb)
  | doWhile hb hc =>
    exact segment_doWhile hd (ih _ (by simp [Expr.children]) hd hρ hb) (ih _ (by simp [Expr.children]) hd' hρ' hc)
  | loop hc hb =>
    exact segment_countedLoop hd (segment_zero hd) (ih _ (by simp [Expr.children]) hd' hρ' hc)
      (ih _ (by simp [Expr.children]) hd' hρ' hb)
  | @block _ _ bindings body values result _ hvalues hresult =>
    have hn : 0 ≤ d + bindings.length := by omega
    have hinner : (ρ.extend (blockBindings d (bindings.map Prod.fst))).Each (Reachable o (d + bindings.length)) :=
      (hρ.imp fun b hb => hb.mono (by omega)).extend (reachable_block o hd (by simp))
    have halloc : Piece o [.own (.alloc bindings.length)] d (d + bindings.length) := .own hd rfl rfl trivial
    have hv := segment_initial (fun b hb => ih b.2 (List.mem_cons_of_mem _ (List.mem_map_of_mem hb))) (by omega) hinner
      hvalues
    exact ((halloc.append hv).append (ih body (by simp [Expr.children]) hn hinner hresult)).append (segment_slide hd)
  | lambda h | proc h => exact segment_function hd hρ h
  | @call _ _ callee args pushed target back hargs hcallee =>
    have hd₃ : 0 ≤ d + frameWords := Int.add_nonneg hd (by decide)
    have hmark : Piece o [.own (.mark back)] d (d + frameWords) := .own hd rfl rfl trivial
    have ha := segment_arguments (fun part hp => ih part (List.mem_cons_of_mem _ hp)) hd₃
      (hρ.imp fun b hb => hb.mono (by simp [frameWords])) hargs
    have hc := ih callee (by simp [Expr.children]) (by omega)
      (hρ.imp fun b hb => hb.mono (by simp [frameWords]; omega)) hcallee
    have hback : Piece o [.own (.apply args.length), .label back] (d + frameWords + args.length + 1) (d + 1) := by
      have happly : Piece o [.own (.apply args.length)] (d + frameWords + args.length + 1) (d + 1) :=
        .own (by omega) (by show d + frameWords + (args.length : Int) + 1 + -(args.length + frameWords) = d + 1; omega) rfl
          trivial
      exact happly.append (.single hd' (Int.add_zero _) rfl rfl nofun rfl)
    exact ((hmark.append ha).append hc).append hback

/-! ## Bodies -/

/-- write 0 into new variables -/
theorem segment_zeros {o : Option Routine} {d : Int} {n : Nat} (hn : n ≤ d) : Piece o (zeroedBlock.zeros n) d d := by
  induction n with
  | zero => exact .nil
  | succ n ih =>
    have hd : 0 ≤ d := by omega
    have hplace : InFrame o d (d + 1 - (n + 1)) := by
      have := arity_nonneg o
      constructor <;> omega
    have hwrite : Piece o [.own (.storeloc (n + 1)), .pop] (d + 1) d := (segment_storeloc hd hplace).append (.pop hd)
    exact ((segment_zero hd).append hwrite).append (ih (by omega))

theorem bodyOf_popenv {r : Routine} {c : Code Op} (h : Piece (some r) c 0 1) : BodyOf r (c ++ [.own .popenv]) :=
  Segment.body h rfl Int.one_nonneg trivial

section
variable {image : Image Op} {root body : Expr} {params locals captures : List String} {label : Label}
  {shared : List (String × Bool)} {c : Code Op}

theorem fromLiteral_plain (hroot : Expr.Within (.lambda params body) root ∨ Expr.Within (.proc params [] body) root)
    (h : Emits image (functionScope params shared) 0 body c) :
    FromLiteral root ⟨label, params, captures, c ++ [.own .popenv]⟩ := by
  refine ⟨⟨label, params, []⟩, rfl, rfl, ⟨body, hroot.symm.imp_right fun h => ⟨rfl, h⟩⟩, bodyOf_popenv ?_⟩
  exact annotated image body le_rfl (reachable_function ⟨label, params, []⟩ shared) h

theorem fromLiteral_withLocals (hroot : Expr.Within (.proc params locals body) root)
    (h : ZeroedBlock locals body image (functionScope params shared) c) :
    FromLiteral root ⟨label, params, captures, c ++ [.own .popenv]⟩ := by
  obtain ⟨-, result, rfl, hresult⟩ := h
  refine ⟨⟨label, params, locals⟩, rfl, rfl, ⟨body, .inl hroot⟩, bodyOf_popenv ?_⟩
  have hn : 0 ≤ (locals.length : Int) := by omega
  have hinner : ((functionScope params shared).extend (blockBindings 0 locals)).Each
      (Reachable (some ⟨label, params, locals⟩) locals.length) :=
    ((reachable_function ⟨label, params, locals⟩ shared).imp fun b hb => hb.mono hn).extend
      (reachable_block _ le_rfl (by omega))
  have halloc : Piece (some ⟨label, params, locals⟩) [.own (.alloc locals.length)] 0 locals.length :=
    .own le_rfl (Int.zero_add _) rfl trivial
  have hslide : Piece (some ⟨label, params, locals⟩) [.own (.slide locals.length)] (locals.length + 1) 1 := by
    simpa using segment_slide (o := some ⟨label, params, locals⟩) (d := 0) (n := locals.length) le_rfl
  exact ((halloc.append (segment_zeros le_rfl)).append (annotated image body hn hinner hresult)).append hslide

end

section
variable {image : Image Op} {T : LambdaBody Op → Prop}

theorem registers_capture (s : ScopeId) (depth : Int) (names : List String) :
    Gen.Registers image T (capture s depth names) := fun d a d' h => by
  obtain ⟨pushed, shared⟩ := a
  obtain ⟨rfl, -⟩ := capture_ok h
  exact ⟨.refl d', fun _ body hb => .inl hb⟩

/-- a function registers its body, after whatever the code of its body has registered -/
theorem registers_function {s : ScopeId} {depth : Int} {params captures : List String}
    {body : ScopeId → Gen Op (Code Op)} (hbody : ∀ frame, Gen.Registers image T (body frame))
    (hT : ∀ d₁ d₂ frame shared label b, frame.index < d₁.scopes.frames.length →
      d₁.scopes.sees frame = functionScope params shared → body frame d₁ = .ok b d₂ → image.Holds d₂.lambdas.bodies →
      T ⟨label, params, captures, b ++ [.own .popenv]⟩) :
    Gen.Registers image T (function s depth params captures body) := fun d c d' h => by
  simp only [function, Gen.bind_ok, Gen.pure_ok] at h
  obtain ⟨⟨pushed, shared⟩, d₀, h₀, label, d₁, h₁, frame, d₂, h₂, b, d₃, h₃, _, d₄, h₄, rfl, rfl⟩ := h
  obtain ⟨hx₀, hT₀⟩ := (registers_capture s depth captures).bind (fun _ => (Gen.Registers.fresh "fun").bind fun _ =>
    (Gen.Registers.openScope none (captureBindings 0 shared ++ formalBindings (1 - params.length) params)).bind hbody)
    (Gen.bind_ok.2 ⟨_, d₀, h₀, Gen.bind_ok.2 ⟨label, d₁, h₁, Gen.bind_ok.2 ⟨frame, d₂, h₂, h₃⟩⟩⟩)
  obtain ⟨hx₄, -⟩ := Gen.extends_of_register h₄
  obtain ⟨rfl, -, hd, hsees⟩ := Gen.openScope_ok h₂
  refine ⟨hx₀.trans hx₄, fun hh body hb => ?_⟩
  have hh₃ : image.Holds d₃.lambdas.bodies := fun body hb => hh body (hx₄.bodies hb)
  rcases Gen.registers_register h₄ body hb with hb | rfl
  · exact hT₀ hh₃ body hb
  · exact .inr (hT d₂ d₃ _ shared label b (by rw [hd]; simp) hsees h₃ hh₃)

theorem registers_sequence {s : ScopeId} {depth : Int} {items : List Expr}
    (hi : ∀ e ∈ items, Gen.Registers image T (code s depth e)) : Gen.Registers image T (sequence s depth items) := by
  induction items with
  | nil => exact .throw _
  | cons item items ih =>
    have hitem := hi item List.mem_cons_self
    cases items with
    | nil => exact hitem
    | cons next items =>
      exact .bind hitem fun _ => .bind (ih fun e he => hi e (List.mem_cons_of_mem _ he)) fun _ => .pure _

theorem registers_optional {s : ScopeId} {depth : Int} {e : Option Expr}
    (hi : ∀ part ∈ e.toList, Gen.Registers image T (code s depth part)) : Gen.Registers image T (optional s depth e) := by
  cases e with
  | none => exact .pure _
  | some e => exact hi e (by simp)

theorem registers_initial {s : ScopeId} {depth : Int} {bindings : List (String × Expr)}
    (hi : ∀ b ∈ bindings, Gen.Registers image T (code s depth b.2)) : Gen.Registers image T (initial s depth bindings) := by
  induction bindings with
  | nil => exact .pure _
  | cons binding rest ih =>
    exact .bind (hi binding List.mem_cons_self) fun _ =>
      .bind (ih fun b hb => hi b (List.mem_cons_of_mem _ hb)) fun _ => .pure _

theorem registers_arguments {s : ScopeId} {depth : Int} {args : List Expr}
    (hi : ∀ e ∈ args, ∀ depth, Gen.Registers image T (code s depth e)) : Gen.Registers image T (arguments s depth args) := by
  induction args generalizing depth with
  | nil => exact .pure _
  | cons arg args ih =>
    exact .bind (hi arg List.mem_cons_self depth) fun _ =>
      .bind (ih fun e he => hi e (List.mem_cons_of_mem _ he)) fun _ => .pure _

end

/-- **Bodies.** Whatever the generator registers for an expression is the body of a function literal in it. -/
theorem registers_code (image : Image Op) {root : Expr} (e : Expr) : e.Within root → ∀ s depth,
    Gen.Registers image (FromLiteral root) (code s depth e) := by
  refine Expr.byParts (motive := fun e => e.Within root → ∀ s depth, Gen.Registers image (FromLiteral root)
    (code s depth e)) (fun e hparts hroot => ?_) e
  have ih := fun part hp => hparts part hp (.head hp hroot)
  intro s depth
  cases e with
  | number value => exact .pure _
  | bool value => exact .pure _
  | var name => exact .bind (.lookup s name) fun _ => .pure _
  | unary op operand => exact .bind (ih operand (by simp [Expr.children]) s depth) fun _ => .pure _
  | binary op lhs rhs =>
    exact .bind (ih lhs (by simp [Expr.children]) s depth) fun _ =>
      .bind (ih rhs (by simp [Expr.children]) s (depth + 1)) fun _ => .pure _
  | assign name value =>
    rw [code]
    refine .bind (.lookup s name) fun b => ?_
    split
    · exact .bind (.throw _) fun _ => .bind (ih value (by simp [Expr.children]) s depth) fun _ => .pure _
    · exact .bind (ih value (by simp [Expr.children]) s depth) fun _ => .pure _
  | seq items => exact registers_sequence fun e he => ih e he s depth
  | ite cond thenBranch elseBranch =>
    exact .ifThenElse (ih cond (by simp [Expr.children]) s depth) (ih thenBranch (by simp [Expr.children]) s depth)
      (registers_optional fun part hp => ih part (by simp_all [Expr.children]) s depth)
  | whileDo cond body =>
    exact .whileDo (ih cond (by simp [Expr.children]) s (depth + 1)) (ih body (by simp [Expr.children]) s depth)
  | doWhile body cond =>
    exact .doWhile (ih body (by simp [Expr.children]) s depth) (ih cond (by simp [Expr.children]) s (depth + 1))
  | loop count body =>
    exact .countedLoop (ih count (by simp [Expr.children]) s (depth + 1)) (ih body (by simp [Expr.children]) s (depth + 1))
  | block bindings body =>
    exact .bind (.openScope _ _) fun inner =>
      .bind (registers_initial fun b hb => ih b.2 (List.mem_cons_of_mem _ (List.mem_map_of_mem hb)) inner _) fun _ =>
        .bind (ih body (by simp [Expr.children]) inner _) fun _ => .pure _
  | lambda params body =>
    refine registers_function (fun frame => ih body (by simp [Expr.children]) frame 0) ?_
    intro d₁ d₂ frame shared label b hframe hsees hb hh
    have hbody := (emits_code body hframe (.refl d₁) hb).2 image hh
    exact fromLiteral_plain (.inl hroot) (hsees ▸ hbody)
  | proc params locals body =>
    cases locals with
    | nil =>
      refine registers_function (fun frame => ih body (by simp [Expr.children]) frame 0) ?_
      intro d₁ d₂ frame shared label b hframe hsees hb hh
      have hbody := (emits_code body hframe (.refl d₁) hb).2 image hh
      exact fromLiteral_plain (.inr hroot) (hsees ▸ hbody)
    | cons first rest =>
      refine registers_function (fun frame => .bind (.openScope _ _) fun inner =>
        .bind (ih body (by simp [Expr.children]) inner _) fun _ => .pure _) ?_
      intro d₁ d₂ frame shared label b hframe hsees hb hh
      have hbody := (zeroedBlock_ok (emits_code body) hb).2 image hh
      exact fromLiteral_withLocals hroot (hsees ▸ hbody)
  | call callee args =>
    exact .bind (.fresh _) fun _ =>
      .bind (registers_arguments fun e he => ih e (List.mem_cons_of_mem _ he) s) fun _ =>
        .bind (ih callee (by simp [Expr.children]) s _) fun _ => .pure _

/-! ## Programs -/

/-- the entry stream makes the cells of the globals and goes on with the code of the expression -/
theorem segment_compile {e : Expr} {p : Program Op} (h : compile .closure e = .ok p) : Piece none p.code 0 1 := by
  obtain ⟨-, -, entry, hcode, hentry⟩ := emits_compile h
  have halloc : Piece none [.own (.alloc e.globalNames.length)] 0 e.globalNames.length :=
    .own le_rfl (Int.zero_add _) rfl trivial
  have hmkvec : Piece none [.own (.mkvec e.globalNames.length)] e.globalNames.length 1 :=
    .own (by omega) (by show (e.globalNames.length : Int) + (1 - e.globalNames.length) = 1; omega) rfl trivial
  have hsetgp : Piece none [.own .setgp] 1 0 := .own (by omega) rfl rfl trivial
  rw [hcode]
  exact (halloc.append (hmkvec.append hsetgp)).append
    (annotated _ e le_rfl (Scope.Each.empty.extend (reachable_global none 0)) hentry)

theorem bodies_compile {e : Expr} {p : Program Op} (h : compile .closure e = .ok p) :
    ∀ body ∈ p.lambdas.bodies, FromLiteral e body := by
  obtain ⟨d, hgen, hcheck⟩ := generate_of_compile h
  simp only [ThreeMachines.generate, generate, Gen.bind_ok, Gen.pure_ok, Gen.get_ok] at hgen
  obtain ⟨_, d₁, hbind, entry, d₂, hcode, _, _, ⟨rfl, rfl⟩, rfl, rfl⟩ := hgen
  intro body hb
  have hbodies := (registers_code _ e .refl ScopeTable.global 0 hcode).2 (Image.holds_ofProgram hcheck) body hb
  rw [Gen.bodies_of_bindGlobals hbind] at hbodies
  exact hbodies.resolve_left List.not_mem_nil

end ThreeMachines.Closure

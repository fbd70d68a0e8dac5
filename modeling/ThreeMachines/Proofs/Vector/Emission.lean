/-
The code of the vector machine, told without the generator's state.

`Emits image ρ depth mode e c`: where names stand for the bindings of the scope `ρ`, `c` is the code of the expression `e`.
The bodies of functions lie in the image already, so the relation says of a function where its body begins.

- `emits_code`: what the generator returns is such code, for every image that holds the bodies it has registered.
- `emits_compile`: so the program of an expression is the code that makes the cells of the global variables, and then
  the code of the expression.
-/
import ThreeMachines.Proofs.Environments
import ThreeMachines.Proofs.Expressions
import ThreeMachines.Proofs.Placement

namespace ThreeMachines.Vector

/-- push the captured cells -/
def Pushed (ρ : Scope) (captures : List String) (c : Code Op) : Prop :=
  List.Forall₂ (fun x i => ∃ b, ρ x = some b ∧ i = storage b) captures c

/-- the scope of a function's body -/
def functionScope (params captures : List String) : Scope :=
  Scope.empty.extend (numbered .formal 0 params ++ numbered .captured 0 captures)

/-- store 0 in new variables -/
def zeros (names : List String) : Code Op :=
  (numbered .blockLocal 1 names).flatMap fun b => storage b :: Mode.zero .value ++ [.own .store, .pop]

mutual

/-- `c` is code of the expression -/
inductive Emits (image : Image Op) : Scope → Int → Mode → Expr → Code Op → Prop
  | number {ρ depth mode} (value : Int64) :
    Emits image ρ depth mode (.number value) ([.loadc (.int value.toInt)] ++ mode.box)
  | bool {ρ depth mode} (value : Bool) :
    Emits image ρ depth mode (.bool value) ([.loadc (.int (if value then 1 else 0))] ++ mode.box)
  | var {ρ depth mode name b} : ρ name = some b → Emits image ρ depth mode (.var name) (storage b :: mode.read)
  | unary {ρ depth mode op operand c} : Emits image ρ depth .basic operand c →
    Emits image ρ depth mode (.unary op operand) (c ++ [.unary op] ++ mode.box)
  | binary {ρ depth mode op lhs rhs left right} : Emits image ρ depth .basic lhs left →
    Emits image ρ (depth + 1) .basic rhs right →
    Emits image ρ depth mode (.binary op lhs rhs) (left ++ right ++ [.binary op] ++ mode.box)
  | assign {ρ depth mode name value b pushed} : ρ name = some b → Emits image ρ (depth + 1) .value value pushed →
    Emits image ρ depth mode (.assign name value) (storage b :: pushed ++ [.own .store] ++ mode.read)
  | seq {ρ depth mode items c} : EmitsSequence image ρ depth mode items c → Emits image ρ depth mode (.seq items) c
  | ite {ρ depth mode cond thenBranch elseBranch start thenLabel elseLabel stop cc tc ec} :
    Emits image ρ depth .basic cond cc → Emits image ρ depth mode thenBranch tc →
    EmitsOptional image ρ depth mode elseBranch ec →
    Emits image ρ depth mode (.ite cond thenBranch elseBranch)
      (Skeleton.ifThenElse start thenLabel elseLabel stop cc tc ec)
  | whileDo {ρ depth mode cond body start stop cc bc} : Emits image ρ (depth + 1) .basic cond cc →
    Emits image ρ depth mode body bc →
    Emits image ρ depth mode (.whileDo cond body) (Skeleton.whileDo start stop mode.zero cc bc)
  | doWhile {ρ depth mode body cond start stop bc cc} : Emits image ρ depth mode body bc →
    Emits image ρ (depth + 1) .basic cond cc →
    Emits image ρ depth mode (.doWhile body cond) (Skeleton.doWhile start stop bc cc)
  | loop {ρ depth mode count body start stop cc bc} : Emits image ρ (depth + 1) .basic count cc →
    Emits image ρ (depth + 1) mode body bc →
    Emits image ρ depth mode (.loop count body) (Skeleton.countedLoop start stop mode.zero cc bc)
  | block {ρ depth mode bindings body values result} : (bindings.map Prod.fst).Nodup →
    EmitsInitial image (ρ.extend (numbered .blockLocal (depth + 1) (bindings.map Prod.fst)))
      (depth + bindings.length + 1) bindings values →
    Emits image (ρ.extend (numbered .blockLocal (depth + 1) (bindings.map Prod.fst))) (depth + bindings.length) mode
      body result →
    Emits image ρ depth mode (.block bindings body)
      ([.own (.alloc bindings.length)] ++ values ++ result ++ [.own (.slide bindings.length)])
  | lambda {ρ depth mode params body captures pushed label entry} : Pushed ρ captures pushed →
    image.target label = .ok entry → EmitsFunction image params [] captures body entry →
    Emits image ρ depth mode (.lambda params body)
      (pushed ++ [.own (.mkvec captures.length), .own (.mkfunval label), .own (.mkind .function)] ++ mode.unbox)
  | proc {ρ depth mode params locals body captures pushed label entry} : Pushed ρ captures pushed →
    image.target label = .ok entry → EmitsFunction image params locals captures body entry →
    Emits image ρ depth mode (.proc params locals body)
      (pushed ++ [.own (.mkvec captures.length), .own (.mkfunval label), .own (.mkind .function)] ++ mode.unbox)
  | call {ρ depth mode callee args target pushed back} : Emits image ρ depth .value callee target →
    EmitsArguments image ρ (depth + 1) args pushed →
    Emits image ρ depth mode (.call callee args)
      (target ++ pushed ++ [.own (.mkvec args.length), .loadc (.addr back), .own (.mkvec 1), .own .call, .label back] ++
        mode.unbox)

/-- a sequence -/
inductive EmitsSequence (image : Image Op) : Scope → Int → Mode → List Expr → Code Op → Prop
  | last {ρ depth mode item c} : Emits image ρ depth mode item c → EmitsSequence image ρ depth mode [item] c
  | cons {ρ depth mode item next items first rest} : Emits image ρ depth .value item first →
    EmitsSequence image ρ depth mode (next :: items) rest →
    EmitsSequence image ρ depth mode (item :: next :: items) (first ++ [.pop] ++ rest)

/-- an expression that may be missing -/
inductive EmitsOptional (image : Image Op) : Scope → Int → Mode → Option Expr → Code Op → Prop
  | none {ρ depth mode} : EmitsOptional image ρ depth mode none mode.zero
  | some {ρ depth mode e c} : Emits image ρ depth mode e c → EmitsOptional image ρ depth mode (some e) c

/-- the values of a block -/
inductive EmitsInitial (image : Image Op) : Scope → Int → List (String × Expr) → Code Op → Prop
  | nil {ρ depth} : EmitsInitial image ρ depth [] []
  | cons {ρ depth name value rest b pushed values} : ρ name = some b → Emits image ρ depth .value value pushed →
    EmitsInitial image ρ depth rest values →
    EmitsInitial image ρ depth ((name, value) :: rest) (storage b :: pushed ++ [.own .store, .pop] ++ values)

/-- the arguments of a call -/
inductive EmitsArguments (image : Image Op) : Scope → Int → List Expr → Code Op → Prop
  | nil {ρ depth} : EmitsArguments image ρ depth [] []
  | cons {ρ depth arg args first rest} : Emits image ρ depth .value arg first →
    EmitsArguments image ρ (depth + 1) args rest → EmitsArguments image ρ depth (arg :: args) (first ++ rest)

/-- the body of a function lies at `entry` -/
inductive EmitsFunction (image : Image Op) : List String → List String → List String → Expr → Nat → Prop
  | plain {params captures body c entry} : (params ++ captures).Nodup →
    Emits image (functionScope params captures) 0 .value body c → Placed image entry (c ++ [.own (.ret 0)]) →
    EmitsFunction image params [] captures body entry
  | withLocals {params locals captures body c entry} : (params ++ captures).Nodup → locals.Nodup →
    Emits image ((functionScope params captures).extend (numbered .blockLocal 1 locals)) locals.length .value body c →
    Placed image entry ([.own (.alloc locals.length)] ++ zeros locals ++ c ++ [.own (.slide locals.length)] ++
      [.own (.ret 0)]) →
    EmitsFunction image params locals captures body entry

end

/-! ## What the generator returns -/

theorem map_name_numbered (storage : Storage) (place : Int) (names : List String) :
    (numbered storage place names).map Binding.name = names := by
  induction names generalizing place with
  | nil => rfl
  | cons name names ih => rw [numbered, List.map_cons, ih]

/-- the generator's code of an expression, begun after a draft in which the scope is known -/
def Emitted (e : Expr) : Prop :=
  ∀ ⦃d₀ d d' : Draft Op⦄ ⦃s : ScopeId⦄ ⦃depth : Int⦄ ⦃mode : Mode⦄ ⦃c : Code Op⦄, s.index < d₀.scopes.frames.length →
    d₀.Extends d → code s depth mode e d = .ok c d' →
    d.Extends d' ∧ ∀ image : Image Op, image.Holds d'.lambdas.bodies → Emits image (d₀.scopes.sees s) depth mode e c

variable {d₀ d d' : Draft Op} {s : ScopeId} {depth : Int} {mode : Mode} {c : Code Op}

theorem holds_of_extends {image : Image Op} (h : image.Holds d'.lambdas.bodies) (hx : d.Extends d') :
    image.Holds d.lambdas.bodies := fun body hb => h body (hx.bodies hb)

theorem emits_sequence {items : List Expr} (hi : ∀ e ∈ items, Emitted e) (hs : s.index < d₀.scopes.frames.length)
    (hx : d₀.Extends d) (h : sequence s depth mode items d = .ok c d') :
    d.Extends d' ∧ ∀ image : Image Op, image.Holds d'.lambdas.bodies →
      EmitsSequence image (d₀.scopes.sees s) depth mode items c := by
  induction items generalizing d c with
  | nil => exact absurd h Gen.throw_ok
  | cons item items ih =>
    have hitem := hi item List.mem_cons_self
    cases items with
    | nil =>
      obtain ⟨hx', hem⟩ := hitem hs hx h
      exact ⟨hx', fun image hh => .last (hem image hh)⟩
    | cons next items =>
      simp only [sequence, Gen.bind_ok, Gen.pure_ok] at h
      obtain ⟨first, d₁, h₁, rest, d₂, h₂, rfl, rfl⟩ := h
      obtain ⟨hx₁, hem₁⟩ := hitem hs hx h₁
      obtain ⟨hx₂, hem₂⟩ := ih (fun e he => hi e (List.mem_cons_of_mem _ he)) (hx.trans hx₁) h₂
      exact ⟨hx₁.trans hx₂, fun image hh => .cons (hem₁ image (holds_of_extends hh hx₂)) (hem₂ image hh)⟩

theorem emits_optional {e : Option Expr} (hi : ∀ part ∈ e.toList, Emitted part)
    (hs : s.index < d₀.scopes.frames.length) (hx : d₀.Extends d) (h : optional s depth mode e d = .ok c d') :
    d.Extends d' ∧ ∀ image : Image Op, image.Holds d'.lambdas.bodies →
      EmitsOptional image (d₀.scopes.sees s) depth mode e c := by
  cases e with
  | none =>
    obtain ⟨rfl, rfl⟩ := Gen.pure_ok.1 h
    exact ⟨.refl d, fun _ _ => .none⟩
  | some e =>
    obtain ⟨hx', hem⟩ := hi e (by simp) hs hx h
    exact ⟨hx', fun image hh => .some (hem image hh)⟩

theorem emits_initial {bindings : List (String × Expr)} (hi : ∀ b ∈ bindings, Emitted b.2)
    (hs : s.index < d₀.scopes.frames.length) (hx : d₀.Extends d) (h : initial s depth bindings d = .ok c d') :
    d.Extends d' ∧ ∀ image : Image Op, image.Holds d'.lambdas.bodies →
      EmitsInitial image (d₀.scopes.sees s) depth bindings c := by
  induction bindings generalizing d c with
  | nil =>
    obtain ⟨rfl, rfl⟩ := Gen.pure_ok.1 h
    exact ⟨.refl d, fun _ _ => .nil⟩
  | cons binding rest ih =>
    obtain ⟨name, value⟩ := binding
    simp only [initial, Gen.bind_ok, Gen.pure_ok, Gen.lookup_ok] at h
    obtain ⟨b, _, ⟨rfl, hb⟩, pushed, d₁, h₁, values, d₂, h₂, rfl, rfl⟩ := h
    obtain ⟨hx₁, hem₁⟩ := hi (name, value) List.mem_cons_self hs hx h₁
    obtain ⟨hx₂, hem₂⟩ := ih (fun b hb => hi b (List.mem_cons_of_mem _ hb)) (hx.trans hx₁) h₂
    rw [hx.sees hs] at hb
    exact ⟨hx₁.trans hx₂, fun image hh => .cons hb (hem₁ image (holds_of_extends hh hx₂)) (hem₂ image hh)⟩

theorem emits_arguments {args : List Expr} (hi : ∀ e ∈ args, Emitted e) (hs : s.index < d₀.scopes.frames.length)
    (hx : d₀.Extends d) (h : arguments s depth args d = .ok c d') :
    d.Extends d' ∧ ∀ image : Image Op, image.Holds d'.lambdas.bodies →
      EmitsArguments image (d₀.scopes.sees s) depth args c := by
  induction args generalizing d c depth with
  | nil =>
    obtain ⟨rfl, rfl⟩ := Gen.pure_ok.1 h
    exact ⟨.refl d, fun _ _ => .nil⟩
  | cons arg args ih =>
    simp only [arguments, Gen.bind_ok, Gen.pure_ok] at h
    obtain ⟨first, d₁, h₁, rest, d₂, h₂, rfl, rfl⟩ := h
    obtain ⟨hx₁, hem₁⟩ := hi arg List.mem_cons_self hs hx h₁
    obtain ⟨hx₂, hem₂⟩ := ih (fun e he => hi e (List.mem_cons_of_mem _ he)) (hx.trans hx₁) h₂
    exact ⟨hx₁.trans hx₂, fun image hh => .cons (hem₁ image (holds_of_extends hh hx₂)) (hem₂ image hh)⟩

theorem storages_ok {names : List String} (h : storages s names d = .ok c d') :
    d' = d ∧ Pushed (d.scopes.sees s) names c := by
  induction names generalizing c with
  | nil =>
    obtain ⟨rfl, rfl⟩ := Gen.pure_ok.1 h
    exact ⟨rfl, .nil⟩
  | cons name names ih =>
    simp only [storages, Gen.bind_ok, Gen.pure_ok, Gen.lookup_ok] at h
    obtain ⟨b, _, ⟨rfl, hb⟩, rest, d₂, h₂, rfl, rfl⟩ := h
    obtain ⟨rfl, hrest⟩ := ih h₂
    exact ⟨rfl, .cons ⟨b, hb, rfl⟩ hrest⟩

/-- the code that makes a function, and the body that it registers -/
theorem function_ok {params captures : List String} {body : ScopeId → Gen Op (Code Op)}
    {P : Image Op → Scope → Code Op → Prop}
    (hbody : ∀ {d₁ d₂ frame b}, frame.index < d₁.scopes.frames.length → body frame d₁ = .ok b d₂ →
      d₁.Extends d₂ ∧ ∀ image : Image Op, image.Holds d₂.lambdas.bodies → P image (d₁.scopes.sees frame) b)
    (hs : s.index < d₀.scopes.frames.length) (hx : d₀.Extends d)
    (h : function s params captures body d = .ok c d') :
    d.Extends d' ∧ ∃ pushed label b,
      c = pushed ++ [.own (.mkvec captures.length), .own (.mkfunval label), .own (.mkind .function)] ∧
      Pushed (d₀.scopes.sees s) captures pushed ∧ (params ++ captures).Nodup ∧
      ∀ image : Image Op, image.Holds d'.lambdas.bodies → P image (functionScope params captures) b ∧
        ∃ entry, image.target label = .ok entry ∧ Placed image entry (b ++ [.own (.ret 0)]) := by
  simp only [function, Gen.bind_ok, Gen.pure_ok] at h
  obtain ⟨pushed, _, h₁, label, d₁, h₂, frame, d₂, h₃, b, d₃, h₄, _, d₄, h₅, rfl, rfl⟩ := h
  obtain ⟨rfl, hpushed⟩ := storages_ok h₁
  have hx₁ := Gen.extends_of_fresh h₂
  have hx₂ := Gen.extends_of_openScope h₃
  obtain ⟨rfl, hnodup, hd, hsees⟩ := Gen.openScope_ok h₃
  obtain ⟨hx₃, hp⟩ := hbody (by rw [hd]; simp) h₄
  obtain ⟨hx₄, hmem⟩ := Gen.extends_of_register h₅
  rw [hx.sees hs] at hpushed
  rw [List.map_append, map_name_numbered, map_name_numbered] at hnodup
  refine ⟨((hx₁.trans hx₂).trans hx₃).trans hx₄, pushed, label, b, rfl, hpushed, hnodup, fun image hh => ⟨?_, ?_⟩⟩
  · have := hp image (holds_of_extends hh hx₄)
    rwa [hsees] at this
  · exact hh _ hmem

/-- a function without locals -/
theorem emits_plain {params captures : List String} {body : Expr} (hi : Emitted body)
    (hs : s.index < d₀.scopes.frames.length) (hx : d₀.Extends d)
    (h : function s params captures (fun frame => code frame 0 .value body) d = .ok c d') :
    d.Extends d' ∧ ∃ pushed label,
      c = pushed ++ [.own (.mkvec captures.length), .own (.mkfunval label), .own (.mkind .function)] ∧
      Pushed (d₀.scopes.sees s) captures pushed ∧ ∀ image : Image Op, image.Holds d'.lambdas.bodies →
        ∃ entry, image.target label = .ok entry ∧ EmitsFunction image params [] captures body entry := by
  obtain ⟨hx', pushed, label, b, rfl, hpushed, hnodup, hem⟩ :=
    function_ok (P := fun image ρ b => Emits image ρ 0 .value body b) (fun hf hb => hi hf (.refl _) hb) hs hx h
  refine ⟨hx', pushed, label, rfl, hpushed, fun image hh => ?_⟩
  obtain ⟨hbody, entry, ht, hplaced⟩ := hem image hh
  exact ⟨entry, ht, .plain hnodup hbody hplaced⟩

/-- the body of a function with locals -/
def ZeroedBlock (locals : List String) (body : Expr) (image : Image Op) (ρ : Scope) (b : Code Op) : Prop :=
  locals.Nodup ∧ ∃ result,
    b = [.own (.alloc locals.length)] ++ zeros locals ++ result ++ [.own (.slide locals.length)] ∧
    Emits image (ρ.extend (numbered .blockLocal 1 locals)) locals.length .value body result

theorem zeroedBlock_ok {locals : List String} {body : Expr} (hi : Emitted body)
    (h : zeroedBlock s locals (fun inner => code inner locals.length .value body) d = .ok c d') :
    d.Extends d' ∧ ∀ image : Image Op, image.Holds d'.lambdas.bodies →
      ZeroedBlock locals body image (d.scopes.sees s) c := by
  simp only [zeroedBlock, Gen.bind_ok, Gen.pure_ok] at h
  obtain ⟨inner, d₁, h₁, result, d₂, h₂, rfl, rfl⟩ := h
  have hx₁ := Gen.extends_of_openScope h₁
  obtain ⟨rfl, hlocals, hd, hsees⟩ := Gen.openScope_ok h₁
  obtain ⟨hx₂, hem⟩ := hi (by rw [hd]; simp) (.refl _) h₂
  rw [map_name_numbered] at hlocals
  refine ⟨hx₁.trans hx₂, fun image hh => ⟨hlocals, result, rfl, ?_⟩⟩
  have := hem image hh
  rwa [hsees] at this

/-- a function with locals -/
theorem emits_withLocals {params locals captures : List String} {body : Expr} (hi : Emitted body)
    (hs : s.index < d₀.scopes.frames.length) (hx : d₀.Extends d)
    (h : function s params captures
      (fun frame => zeroedBlock frame locals fun inner => code inner locals.length .value body) d = .ok c d') :
    d.Extends d' ∧ ∃ pushed label,
      c = pushed ++ [.own (.mkvec captures.length), .own (.mkfunval label), .own (.mkind .function)] ∧
      Pushed (d₀.scopes.sees s) captures pushed ∧ ∀ image : Image Op, image.Holds d'.lambdas.bodies →
        ∃ entry, image.target label = .ok entry ∧ EmitsFunction image params locals captures body entry := by
  obtain ⟨hx', pushed, label, b, rfl, hpushed, hnodup, hem⟩ :=
    function_ok (P := ZeroedBlock locals body) (fun _ hb => zeroedBlock_ok hi hb) hs hx h
  refine ⟨hx', pushed, label, rfl, hpushed, fun image hh => ?_⟩
  obtain ⟨⟨hlocals, result, rfl, hresult⟩, entry, ht, hplaced⟩ := hem image hh
  exact ⟨entry, ht, .withLocals hnodup hlocals hresult hplaced⟩

/-- **Generated code.** Where the generator succeeds, it returns code of the expression. -/
theorem emits_code (e : Expr) : Emitted e := by
  refine Expr.byParts (fun e ih => ?_) e
  intro d₀ d d' s depth mode c hs hx h
  cases e with
  | number value =>
    obtain ⟨rfl, rfl⟩ := Gen.pure_ok.1 h
    exact ⟨.refl d, fun _ _ => .number value⟩
  | bool value =>
    obtain ⟨rfl, rfl⟩ := Gen.pure_ok.1 h
    exact ⟨.refl d, fun _ _ => .bool value⟩
  | var name =>
    simp only [code, Gen.bind_ok, Gen.pure_ok, Gen.lookup_ok] at h
    obtain ⟨b, _, ⟨rfl, hb⟩, rfl, rfl⟩ := h
    rw [hx.sees hs] at hb
    exact ⟨.refl _, fun _ _ => .var hb⟩
  | unary op operand =>
    simp only [code, Gen.bind_ok, Gen.pure_ok] at h
    obtain ⟨c₁, d₁, h₁, rfl, rfl⟩ := h
    obtain ⟨hx₁, hem₁⟩ := ih operand (by simp [Expr.children]) hs hx h₁
    exact ⟨hx₁, fun image hh => .unary (hem₁ image hh)⟩
  | binary op lhs rhs =>
    simp only [code, Gen.bind_ok, Gen.pure_ok] at h
    obtain ⟨left, d₁, h₁, right, d₂, h₂, rfl, rfl⟩ := h
    obtain ⟨hx₁, hem₁⟩ := ih lhs (by simp [Expr.children]) hs hx h₁
    obtain ⟨hx₂, hem₂⟩ := ih rhs (by simp [Expr.children]) hs (hx.trans hx₁) h₂
    exact ⟨hx₁.trans hx₂, fun image hh => .binary (hem₁ image (holds_of_extends hh hx₂)) (hem₂ image hh)⟩
  | assign name value =>
    simp only [code, Gen.bind_ok, Gen.pure_ok, Gen.lookup_ok] at h
    obtain ⟨b, _, ⟨rfl, hb⟩, pushed, d₁, h₁, rfl, rfl⟩ := h
    obtain ⟨hx₁, hem₁⟩ := ih value (by simp [Expr.children]) hs hx h₁
    rw [hx.sees hs] at hb
    exact ⟨hx₁, fun image hh => .assign hb (hem₁ image hh)⟩
  | seq items =>
    obtain ⟨hx₁, hem₁⟩ := emits_sequence (fun e he => ih e he) hs hx h
    exact ⟨hx₁, fun image hh => .seq (hem₁ image hh)⟩
  | ite cond thenBranch elseBranch =>
    obtain ⟨l₁, l₂, l₃, l₄, _, cc, d₁, tc, d₂, ec, labels, rfl, hc, ht, he, rfl⟩ := Gen.ifThenElse_ok h
    have hx₀ := Gen.extends_issued d labels
    obtain ⟨hx₁, hem₁⟩ := ih cond (by simp [Expr.children]) hs (hx.trans hx₀) hc
    obtain ⟨hx₂, hem₂⟩ := ih thenBranch (by simp [Expr.children]) hs ((hx.trans hx₀).trans hx₁) ht
    obtain ⟨hx₃, hem₃⟩ := emits_optional (fun part hp => ih part (by simp_all [Expr.children])) hs
      (((hx.trans hx₀).trans hx₁).trans hx₂) he
    exact ⟨((hx₀.trans hx₁).trans hx₂).trans hx₃, fun image hh =>
      .ite (hem₁ image (holds_of_extends hh (hx₂.trans hx₃))) (hem₂ image (holds_of_extends hh hx₃)) (hem₃ image hh)⟩
  | whileDo cond body =>
    obtain ⟨l₁, l₂, _, cc, d₁, bc, labels, rfl, hc, hb, rfl⟩ := Gen.whileDo_ok h
    have hx₀ := Gen.extends_issued d labels
    obtain ⟨hx₁, hem₁⟩ := ih cond (by simp [Expr.children]) hs (hx.trans hx₀) hc
    obtain ⟨hx₂, hem₂⟩ := ih body (by simp [Expr.children]) hs ((hx.trans hx₀).trans hx₁) hb
    exact ⟨(hx₀.trans hx₁).trans hx₂, fun image hh =>
      .whileDo (hem₁ image (holds_of_extends hh hx₂)) (hem₂ image hh)⟩
  | doWhile body cond =>
    obtain ⟨l₁, l₂, _, bc, d₁, cc, labels, rfl, hb, hc, rfl⟩ := Gen.doWhile_ok h
    have hx₀ := Gen.extends_issued d labels
    obtain ⟨hx₁, hem₁⟩ := ih body (by simp [Expr.children]) hs (hx.trans hx₀) hb
    obtain ⟨hx₂, hem₂⟩ := ih cond (by simp [Expr.children]) hs ((hx.trans hx₀).trans hx₁) hc
    exact ⟨(hx₀.trans hx₁).trans hx₂, fun image hh =>
      .doWhile (hem₁ image (holds_of_extends hh hx₂)) (hem₂ image hh)⟩
  | loop count body =>
    obtain ⟨l₁, l₂, _, cc, d₁, bc, labels, rfl, hc, hb, rfl⟩ := Gen.countedLoop_ok h
    have hx₀ := Gen.extends_issued d labels
    obtain ⟨hx₁, hem₁⟩ := ih count (by simp [Expr.children]) hs (hx.trans hx₀) hc
    obtain ⟨hx₂, hem₂⟩ := ih body (by simp [Expr.children]) hs ((hx.trans hx₀).trans hx₁) hb
    exact ⟨(hx₀.trans hx₁).trans hx₂, fun image hh =>
      .loop (hem₁ image (holds_of_extends hh hx₂)) (hem₂ image hh)⟩
  | block bindings body =>
    simp only [code, Gen.bind_ok, Gen.pure_ok] at h
    obtain ⟨inner, d₁, h₁, values, d₂, h₂, result, d₃, h₃, rfl, rfl⟩ := h
    have hx₁ := Gen.extends_of_openScope h₁
    obtain ⟨rfl, hnodup, hd, hsees⟩ := Gen.openScope_ok h₁
    have hinner : (⟨d.scopes.frames.length⟩ : ScopeId).index < d₁.scopes.frames.length := by rw [hd]; simp
    obtain ⟨hx₂, hem₂⟩ := emits_initial (fun b hb => ih b.2 (List.mem_cons_of_mem _ (List.mem_map_of_mem hb))) hinner
      (.refl d₁) h₂
    obtain ⟨hx₃, hem₃⟩ := ih body (by simp [Expr.children]) hinner hx₂ h₃
    rw [Option.elim_some, hx.sees hs] at hsees
    rw [map_name_numbered] at hnodup
    rw [hsees] at hem₂ hem₃
    exact ⟨(hx₁.trans hx₂).trans hx₃, fun image hh =>
      .block hnodup (hem₂ image (holds_of_extends hh hx₃)) (hem₃ image hh)⟩
  | lambda params body =>
    simp only [code, Gen.bind_ok, Gen.pure_ok] at h
    obtain ⟨c₁, d₁, h₁, rfl, rfl⟩ := h
    obtain ⟨hx₁, pushed, label, rfl, hpushed, hem⟩ := emits_plain (ih body (by simp [Expr.children])) hs hx h₁
    refine ⟨hx₁, fun image hh => ?_⟩
    obtain ⟨entry, ht, hf⟩ := hem image hh
    exact .lambda hpushed ht hf
  | proc params locals body =>
    cases locals with
    | nil =>
      simp only [code, Gen.bind_ok, Gen.pure_ok] at h
      obtain ⟨c₁, d₁, h₁, rfl, rfl⟩ := h
      obtain ⟨hx₁, pushed, label, rfl, hpushed, hem⟩ := emits_plain (ih body (by simp [Expr.children])) hs hx h₁
      refine ⟨hx₁, fun image hh => ?_⟩
      obtain ⟨entry, ht, hf⟩ := hem image hh
      exact .proc hpushed ht hf
    | cons first rest =>
      simp only [code, Gen.bind_ok, Gen.pure_ok] at h
      obtain ⟨c₁, d₁, h₁, rfl, rfl⟩ := h
      obtain ⟨hx₁, pushed, label, rfl, hpushed, hem⟩ := emits_withLocals (ih body (by simp [Expr.children])) hs hx h₁
      refine ⟨hx₁, fun image hh => ?_⟩
      obtain ⟨entry, ht, hf⟩ := hem image hh
      exact .proc hpushed ht hf
  | call callee args =>
    simp only [code, Gen.bind_ok, Gen.pure_ok] at h
    obtain ⟨target, d₁, h₁, pushed, d₂, h₂, back, d₃, h₃, rfl, rfl⟩ := h
    obtain ⟨hx₁, hem₁⟩ := ih callee (by simp [Expr.children]) hs hx h₁
    obtain ⟨hx₂, hem₂⟩ := emits_arguments (fun e he => ih e (List.mem_cons_of_mem _ he)) hs (hx.trans hx₁) h₂
    have hx₃ := Gen.extends_of_fresh h₃
    exact ⟨(hx₁.trans hx₂).trans hx₃, fun image hh =>
      .call (hem₁ image (holds_of_extends hh (hx₂.trans hx₃))) (hem₂ image (holds_of_extends hh hx₃))⟩

/-- **Programs.** The program of an expression makes the cells of the global variables and goes on with its code. -/
theorem emits_compile {e : Expr} {p : Program Op} (h : compile .vector e = .ok p) :
    p.checkLabels = .ok () ∧ e.globalNames.Nodup ∧ ∃ entry,
      p.code = [.own (.alloc e.globalNames.length), .own (.mkvec e.globalNames.length), .own .setgp] ++ entry ∧
      Emits (Image.ofProgram p) (Scope.empty.extend (numbered .global 0 e.globalNames)) 0 .basic e entry := by
  obtain ⟨d, hgen, hcheck⟩ := generate_of_compile h
  simp only [ThreeMachines.generate, generate, Gen.bind_ok, Gen.pure_ok, Gen.get_ok] at hgen
  obtain ⟨_, d₁, hbind, entry, d₂, hcode, _, _, ⟨rfl, rfl⟩, rfl, rfl⟩ := hgen
  obtain ⟨hd₁, hnodup, hsees⟩ := Gen.bindGlobals_ok hbind
  obtain ⟨hx, hem⟩ := emits_code e (by rw [hd₁]; exact Nat.one_pos) (.refl d₁) hcode
  rw [map_name_numbered] at hnodup
  refine ⟨hcheck, hnodup, entry, rfl, ?_⟩
  rw [← hsees]
  exact hem _ (Image.holds_ofProgram hcheck)

end ThreeMachines.Vector

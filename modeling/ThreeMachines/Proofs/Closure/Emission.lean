/-
The code of the closure machine, told without the generator's state.

`Emits image ρ depth e c`: where names stand for the bindings of the scope `ρ` and `depth` words lie over the bottom of the
frame, `c` is the code of the expression `e`. The bodies of functions lie in the image already, so the relation says of a
function where its body begins.

- `emits_code`: what the generator returns is such code, for every image that holds the bodies it has registered.
- `emits_compile`: so the program of an expression is the code that makes the cells of the global variables, and then
  the code of the expression.
-/
import ThreeMachines.Proofs.Captures
import ThreeMachines.Proofs.Environments
import ThreeMachines.Proofs.Placement

namespace ThreeMachines.Closure

/-- push what a function captures: the cell of a global, the value of any other variable -/
inductive Pushed (ρ : Scope) : Int → List String → List (String × Bool) → Code Op → Prop
  | nil {depth} : Pushed ρ depth [] [] []
  | cons {depth name names b later shared} : ρ name = some b → Pushed ρ (depth + 1) names shared later →
    Pushed ρ depth (name :: names) ((name, decide (b.storage = .global)) :: shared)
      ((if b.storage = .global then [.own (.pushglob b.address)] else fetch depth b) ++ later)

/-- the scope of a function's body -/
def functionScope (params : List String) (shared : List (String × Bool)) : Scope :=
  Scope.empty.extend (captureBindings 0 shared ++ formalBindings (1 - params.length) params)

mutual

/-- `c` is code of the expression -/
inductive Emits (image : Image Op) : Scope → Int → Expr → Code Op → Prop
  | number {ρ depth} (value : Int64) : Emits image ρ depth (.number value) [.loadc (.int value.toInt)]
  | bool {ρ depth} (value : Bool) : Emits image ρ depth (.bool value) [.loadc (.int (if value then 1 else 0))]
  | var {ρ depth name b} : ρ name = some b → Emits image ρ depth (.var name) (fetch depth b)
  | unary {ρ depth op operand c} : Emits image ρ depth operand c →
    Emits image ρ depth (.unary op operand) (c ++ [.unary op])
  | binary {ρ depth op lhs rhs left right} : Emits image ρ depth lhs left → Emits image ρ (depth + 1) rhs right →
    Emits image ρ depth (.binary op lhs rhs) (left ++ right ++ [.binary op])
  | assign {ρ depth name value b pushed} : ρ name = some b → b.storage ≠ .captured →
    Emits image ρ depth value pushed → Emits image ρ depth (.assign name value) (pushed ++ update depth b)
  | seq {ρ depth items c} : EmitsSequence image ρ depth items c → Emits image ρ depth (.seq items) c
  | ite {ρ depth cond thenBranch elseBranch start thenLabel elseLabel stop cc tc ec} :
    Emits image ρ depth cond cc → Emits image ρ depth thenBranch tc → EmitsOptional image ρ depth elseBranch ec →
    Emits image ρ depth (.ite cond thenBranch elseBranch)
      (Skeleton.ifThenElse start thenLabel elseLabel stop cc tc ec)
  | whileDo {ρ depth cond body start stop cc bc} : Emits image ρ (depth + 1) cond cc → Emits image ρ depth body bc →
    Emits image ρ depth (.whileDo cond body) (Skeleton.whileDo start stop zero cc bc)
  | doWhile {ρ depth body cond start stop bc cc} : Emits image ρ depth body bc → Emits image ρ (depth + 1) cond cc →
    Emits image ρ depth (.doWhile body cond) (Skeleton.doWhile start stop bc cc)
  | loop {ρ depth count body start stop cc bc} : Emits image ρ (depth + 1) count cc →
    Emits image ρ (depth + 1) body bc →
    Emits image ρ depth (.loop count body) (Skeleton.countedLoop start stop zero cc bc)
  | block {ρ depth bindings body values result} : (bindings.map Prod.fst).Nodup →
    EmitsInitial image (ρ.extend (blockBindings depth (bindings.map Prod.fst))) (depth + bindings.length) bindings
      values →
    Emits image (ρ.extend (blockBindings depth (bindings.map Prod.fst))) (depth + bindings.length) body result →
    Emits image ρ depth (.block bindings body)
      ([.own (.alloc bindings.length)] ++ values ++ result ++ [.own (.slide bindings.length)])
  | lambda {ρ depth params body c} : EmitsFunction image ρ depth params [] body c →
    Emits image ρ depth (.lambda params body) c
  | proc {ρ depth params locals body c} : EmitsFunction image ρ depth params locals body c →
    Emits image ρ depth (.proc params locals body) c
  | call {ρ depth callee args pushed target back} : EmitsArguments image ρ (depth + frameWords) args pushed →
    Emits image ρ (depth + frameWords + args.length) callee target →
    Emits image ρ depth (.call callee args)
      ([.own (.mark back)] ++ pushed ++ target ++ [.own (.apply args.length), .label back])

/-- a sequence -/
inductive EmitsSequence (image : Image Op) : Scope → Int → List Expr → Code Op → Prop
  | last {ρ depth item c} : Emits image ρ depth item c → EmitsSequence image ρ depth [item] c
  | cons {ρ depth item next items first rest} : Emits image ρ depth item first →
    EmitsSequence image ρ depth (next :: items) rest →
    EmitsSequence image ρ depth (item :: next :: items) (first ++ [.pop] ++ rest)

/-- an expression that may be missing -/
inductive EmitsOptional (image : Image Op) : Scope → Int → Option Expr → Code Op → Prop
  | none {ρ depth} : EmitsOptional image ρ depth none zero
  | some {ρ depth e c} : Emits image ρ depth e c → EmitsOptional image ρ depth (some e) c

/-- the values of a block -/
inductive EmitsInitial (image : Image Op) : Scope → Int → List (String × Expr) → Code Op → Prop
  | nil {ρ depth} : EmitsInitial image ρ depth [] []
  | cons {ρ depth name value rest pushed values} : Emits image ρ depth value pushed →
    EmitsInitial image ρ depth rest values →
    EmitsInitial image ρ depth ((name, value) :: rest)
      (pushed ++ (if value.isFunction then [.own (.refill (rest.length + 1 : Nat))]
        else [.own (.storeloc (rest.length + 1 : Nat)), .pop]) ++ values)

/-- the arguments of a call -/
inductive EmitsArguments (image : Image Op) : Scope → Int → List Expr → Code Op → Prop
  | nil {ρ depth} : EmitsArguments image ρ depth [] []
  | cons {ρ depth arg args first rest} : Emits image ρ depth arg first →
    EmitsArguments image ρ (depth + 1) args rest → EmitsArguments image ρ depth (arg :: args) (first ++ rest)

/-- a function literal; what it captures occurs in its body -/
inductive EmitsFunction (image : Image Op) : Scope → Int → List String → List String → Expr → Code Op → Prop
  | intro {ρ depth params locals body captures shared pushed label entry} :
    (∀ x ∈ captures, x ∈ body.captures (params ++ locals)) → Pushed ρ depth captures shared pushed →
    image.target label = .ok entry → EmitsBody image params locals shared body entry →
    EmitsFunction image ρ depth params locals body
      (pushed ++ [.own (.mkvec captures.length), .own (.mkfunval label)])

/-- the body of a function lies at `entry` -/
inductive EmitsBody (image : Image Op) : List String → List String → List (String × Bool) → Expr → Nat → Prop
  | plain {params shared body c entry} : (shared.map Prod.fst ++ params).Nodup →
    (∀ x ∈ body.captures params, x ∈ shared.map Prod.fst) →
    Emits image (functionScope params shared) 0 body c → Placed image entry (c ++ [.own .popenv]) →
    EmitsBody image params [] shared body entry
  | withLocals {params locals shared body c entry} : (shared.map Prod.fst ++ params).Nodup → locals.Nodup →
    (∀ x ∈ body.captures (params ++ locals), x ∈ shared.map Prod.fst) →
    Emits image ((functionScope params shared).extend (blockBindings 0 locals)) locals.length body c →
    Placed image entry ([.own (.alloc locals.length)] ++ zeroedBlock.zeros locals.length ++ c ++
      [.own (.slide locals.length)] ++ [.own .popenv]) →
    EmitsBody image params locals shared body entry

end

/-! ## What the generator returns -/

theorem map_name_blockBindings (depth : Int) (names : List String) :
    (blockBindings depth names).map Binding.name = names := by
  induction names generalizing depth with
  | nil => rfl
  | cons name names ih => rw [blockBindings, List.map_cons, ih]

theorem map_name_globalBindings (place : Int) (names : List String) :
    (globalBindings place names).map Binding.name = names := by
  induction names generalizing place with
  | nil => rfl
  | cons name names ih => rw [globalBindings, List.map_cons, ih]

theorem map_name_formalBindings (address : Int) (names : List String) :
    (formalBindings address names).map Binding.name = names := by
  induction names generalizing address with
  | nil => rfl
  | cons name names ih => rw [formalBindings, List.map_cons, ih]

theorem map_name_captureBindings (place : Int) (shared : List (String × Bool)) :
    (captureBindings place shared).map Binding.name = shared.map Prod.fst := by
  induction shared generalizing place with
  | nil => rfl
  | cons entry rest ih => rw [captureBindings, List.map_cons, ih, List.map_cons]

/-- the generator's code of an expression, begun after a draft in which the scope is known -/
def Emitted (e : Expr) : Prop :=
  ∀ ⦃d₀ d d' : Draft Op⦄ ⦃s : ScopeId⦄ ⦃depth : Int⦄ ⦃c : Code Op⦄, s.index < d₀.scopes.frames.length →
    d₀.Extends d → code s depth e d = .ok c d' →
    d.Extends d' ∧ ∀ image : Image Op, image.Holds d'.lambdas.bodies → Emits image (d₀.scopes.sees s) depth e c

variable {d₀ d d' : Draft Op} {s : ScopeId} {depth : Int} {c : Code Op}

theorem holds_of_extends {image : Image Op} (h : image.Holds d'.lambdas.bodies) (hx : d.Extends d') :
    image.Holds d.lambdas.bodies := fun body hb => h body (hx.bodies hb)

theorem emits_sequence {items : List Expr} (hi : ∀ e ∈ items, Emitted e) (hs : s.index < d₀.scopes.frames.length)
    (hx : d₀.Extends d) (h : sequence s depth items d = .ok c d') :
    d.Extends d' ∧ ∀ image : Image Op, image.Holds d'.lambdas.bodies →
      EmitsSequence image (d₀.scopes.sees s) depth items c := by
  induction items generalizing d c with
  | nil => exact absurd h Gen.throw_ok
  | cons item items ih =>
    have hitem := hi item List.mem_cons_self
    cases items with
    | nil =>
      obtain ⟨hx', hem⟩ := hitem hs hx h
      exact ⟨hx', fun image hh => .last (hem image hh)⟩
    | cons next items =>
      simp only [sequence, Gen.bind_ok, Gen.pure_ok] at h
      obtain ⟨first, d₁, h₁, rest, d₂, h₂, rfl, rfl⟩ := h
      obtain ⟨hx₁, hem₁⟩ := hitem hs hx h₁
      obtain ⟨hx₂, hem₂⟩ := ih (fun e he => hi e (List.mem_cons_of_mem _ he)) (hx.trans hx₁) h₂
      exact ⟨hx₁.trans hx₂, fun image hh => .cons (hem₁ image (holds_of_extends hh hx₂)) (hem₂ image hh)⟩

theorem emits_optional {e : Option Expr} (hi : ∀ part ∈ e.toList, Emitted part)
    (hs : s.index < d₀.scopes.frames.length) (hx : d₀.Extends d) (h : optional s depth e d = .ok c d') :
    d.Extends d' ∧ ∀ image : Image Op, image.Holds d'.lambdas.bodies →
      EmitsOptional image (d₀.scopes.sees s) depth e c := by
  cases e with
  | none =>
    obtain ⟨rfl, rfl⟩ := Gen.pure_ok.1 h
    exact ⟨.refl d, fun _ _ => .none⟩
  | some e =>
    obtain ⟨hx', hem⟩ := hi e (by simp) hs hx h
    exact ⟨hx', fun image hh => .some (hem image hh)⟩

theorem emits_initial {bindings : List (String × Expr)} (hi : ∀ b ∈ bindings, Emitted b.2)
    (hs : s.index < d₀.scopes.frames.length) (hx : d₀.Extends d) (h : initial s depth bindings d = .ok c d') :
    d.Extends d' ∧ ∀ image : Image Op, image.Holds d'.lambdas.bodies →
      EmitsInitial image (d₀.scopes.sees s) depth bindings c := by
  induction bindings generalizing d c with
  | nil =>
    obtain ⟨rfl, rfl⟩ := Gen.pure_ok.1 h
    exact ⟨.refl d, fun _ _ => .nil⟩
  | cons binding rest ih =>
    obtain ⟨name, value⟩ := binding
    simp only [initial, Gen.bind_ok, Gen.pure_ok] at h
    obtain ⟨pushed, d₁, h₁, values, d₂, h₂, rfl, rfl⟩ := h
    obtain ⟨hx₁, hem₁⟩ := hi (name, value) List.mem_cons_self hs hx h₁
    obtain ⟨hx₂, hem₂⟩ := ih (fun b hb => hi b (List.mem_cons_of_mem _ hb)) (hx.trans hx₁) h₂
    exact ⟨hx₁.trans hx₂, fun image hh => .cons (hem₁ image (holds_of_extends hh hx₂)) (hem₂ image hh)⟩

theorem emits_arguments {args : List Expr} (hi : ∀ e ∈ args, Emitted e) (hs : s.index < d₀.scopes.frames.length)
    (hx : d₀.Extends d) (h : arguments s depth args d = .ok c d') :
    d.Extends d' ∧ ∀ image : Image Op, image.Holds d'.lambdas.bodies →
      EmitsArguments image (d₀.scopes.sees s) depth args c := by
  induction args generalizing d c depth with
  | nil =>
    obtain ⟨rfl, rfl⟩ := Gen.pure_ok.1 h
    exact ⟨.refl d, fun _ _ => .nil⟩
  | cons arg args ih =>
    simp only [arguments, Gen.bind_ok, Gen.pure_ok] at h
    obtain ⟨first, d₁, h₁, rest, d₂, h₂, rfl, rfl⟩ := h
    obtain ⟨hx₁, hem₁⟩ := hi arg List.mem_cons_self hs hx h₁
    obtain ⟨hx₂, hem₂⟩ := ih (fun e he => hi e (List.mem_cons_of_mem _ he)) (hx.trans hx₁) h₂
    exact ⟨hx₁.trans hx₂, fun image hh => .cons (hem₁ image (holds_of_extends hh hx₂)) (hem₂ image hh)⟩

/-! ### Functions -/

theorem capture_ok {names : List String} {pushed : Code Op} {shared : List (String × Bool)}
    (h : capture s depth names d = .ok (pushed, shared) d') :
    d' = d ∧ Pushed (d.scopes.sees s) depth names shared pushed := by
  induction names generalizing depth pushed shared with
  | nil =>
    obtain ⟨hnil, rfl⟩ := Gen.pure_ok.1 h
    cases hnil
    exact ⟨rfl, .nil⟩
  | cons name names ih =>
    simp only [capture, Gen.bind_ok, Gen.pure_ok, Gen.lookup_ok] at h
    obtain ⟨b, _, ⟨rfl, hb⟩, ⟨later, rest⟩, d₂, h₂, heq, rfl⟩ := h
    obtain ⟨rfl, hrest⟩ := ih h₂
    cases heq
    exact ⟨rfl, .cons hb hrest⟩

theorem map_fst_of_pushed {ρ : Scope} {names : List String} {shared : List (String × Bool)}
    (h : Pushed ρ depth names shared c) : shared.map Prod.fst = names := by
  induction h with
  | nil => rfl
  | cons _ _ ih => rw [List.map_cons, ih]

/-- the code that makes a function, and the body that it registers -/
theorem function_ok {params captures : List String} {body : ScopeId → Gen Op (Code Op)}
    {P : Image Op → Scope → Code Op → Prop}
    (hbody : ∀ {d₁ d₂ frame b}, frame.index < d₁.scopes.frames.length → body frame d₁ = .ok b d₂ →
      d₁.Extends d₂ ∧ ∀ image : Image Op, image.Holds d₂.lambdas.bodies → P image (d₁.scopes.sees frame) b)
    (hs : s.index < d₀.scopes.frames.length) (hx : d₀.Extends d)
    (h : function s depth params captures body d = .ok c d') :
    d.Extends d' ∧ ∃ pushed shared label b, c = pushed ++ [.own (.mkvec captures.length), .own (.mkfunval label)] ∧
      Pushed (d₀.scopes.sees s) depth captures shared pushed ∧ (shared.map Prod.fst ++ params).Nodup ∧
      ∀ image : Image Op, image.Holds d'.lambdas.bodies → P image (functionScope params shared) b ∧
        ∃ entry, image.target label = .ok entry ∧ Placed image entry (b ++ [.own .popenv]) := by
  simp only [function, Gen.bind_ok, Gen.pure_ok] at h
  obtain ⟨⟨pushed, shared⟩, _, h₁, label, d₁, h₂, frame, d₂, h₃, b, d₃, h₄, _, d₄, h₅, rfl, rfl⟩ := h
  obtain ⟨rfl, hpushed⟩ := capture_ok h₁
  have hx₁ := Gen.extends_of_fresh h₂
  have hx₂ := Gen.extends_of_openScope h₃
  obtain ⟨rfl, hnodup, hd, hsees⟩ := Gen.openScope_ok h₃
  obtain ⟨hx₃, hp⟩ := hbody (by rw [hd]; simp) h₄
  obtain ⟨hx₄, hmem⟩ := Gen.extends_of_register h₅
  rw [hx.sees hs] at hpushed
  rw [List.map_append, map_name_captureBindings, map_name_formalBindings] at hnodup
  refine ⟨((hx₁.trans hx₂).trans hx₃).trans hx₄, pushed, shared, label, b, rfl, hpushed, hnodup,
    fun image hh => ⟨?_, ?_⟩⟩
  · have := hp image (holds_of_extends hh hx₄)
    rwa [hsees] at this
  · exact hh _ hmem

/-- a function without locals -/
theorem emits_plain {params : List String} {body : Expr} (hi : Emitted body)
    (hs : s.index < d₀.scopes.frames.length) (hx : d₀.Extends d)
    (h : function s depth params (body.captures params) (fun frame => code frame 0 body) d = .ok c d') :
    d.Extends d' ∧ ∀ image : Image Op, image.Holds d'.lambdas.bodies →
      EmitsFunction image (d₀.scopes.sees s) depth params [] body c := by
  obtain ⟨hx', pushed, shared, label, b, rfl, hpushed, hnodup, hem⟩ :=
    function_ok (P := fun image ρ b => Emits image ρ 0 body b) (fun hf hb => hi hf (.refl _) hb) hs hx h
  refine ⟨hx', fun image hh => ?_⟩
  obtain ⟨hbody, entry, ht, hplaced⟩ := hem image hh
  exact .intro (by simp) hpushed ht (.plain hnodup (by simp [map_fst_of_pushed hpushed]) hbody hplaced)

/-- the body of a function with locals -/
def ZeroedBlock (locals : List String) (body : Expr) (image : Image Op) (ρ : Scope) (b : Code Op) : Prop :=
  locals.Nodup ∧ ∃ result,
    b = [.own (.alloc locals.length)] ++ zeroedBlock.zeros locals.length ++ result ++ [.own (.slide locals.length)] ∧
    Emits image (ρ.extend (blockBindings 0 locals)) locals.length body result

theorem zeroedBlock_ok {locals : List String} {body : Expr} (hi : Emitted body)
    (h : zeroedBlock s locals (fun inner => code inner locals.length body) d = .ok c d') :
    d.Extends d' ∧ ∀ image : Image Op, image.Holds d'.lambdas.bodies →
      ZeroedBlock locals body image (d.scopes.sees s) c := by
  simp only [zeroedBlock, Gen.bind_ok, Gen.pure_ok] at h
  obtain ⟨inner, d₁, h₁, result, d₂, h₂, rfl, rfl⟩ := h
  have hx₁ := Gen.extends_of_openScope h₁
  obtain ⟨rfl, hlocals, hd, hsees⟩ := Gen.openScope_ok h₁
  obtain ⟨hx₂, hem⟩ := hi (by rw [hd]; simp) (.refl _) h₂
  rw [map_name_blockBindings] at hlocals
  refine ⟨hx₁.trans hx₂, fun image hh => ⟨hlocals, result, rfl, ?_⟩⟩
  have := hem image hh
  rwa [hsees] at this

/-- a function with locals -/
theorem emits_withLocals {params locals : List String} {body : Expr} (hi : Emitted body)
    (hs : s.index < d₀.scopes.frames.length) (hx : d₀.Extends d)
    (h : function s depth params (unbound params (unbound locals body.freeNames))
      (fun frame => zeroedBlock frame locals fun inner => code inner locals.length body) d = .ok c d') :
    d.Extends d' ∧ ∀ image : Image Op, image.Holds d'.lambdas.bodies →
      EmitsFunction image (d₀.scopes.sees s) depth params locals body c := by
  obtain ⟨hx', pushed, shared, label, b, rfl, hpushed, hnodup, hem⟩ :=
    function_ok (P := ZeroedBlock locals body) (fun _ hb => zeroedBlock_ok hi hb) hs hx h
  refine ⟨hx', fun image hh => ?_⟩
  obtain ⟨⟨hlocals, result, rfl, hresult⟩, entry, ht, hplaced⟩ := hem image hh
  have hcaptures : ∀ x, x ∈ unbound params (unbound locals body.freeNames) ↔ x ∈ body.captures (params ++ locals) := by
    simp [mem_unbound, Expr.mem_captures, Expr.mem_freeNames, and_assoc]
  refine .intro (fun x => (hcaptures x).1) hpushed ht (.withLocals hnodup hlocals (fun x hx => ?_) hresult hplaced)
  rw [map_fst_of_pushed hpushed]
  exact (hcaptures x).2 hx

/-- **Generated code.** Where the generator succeeds, it returns code of the expression. -/
theorem emits_code (e : Expr) : Emitted e := by
  refine Expr.byParts (fun e ih => ?_) e
  intro d₀ d d' s depth c hs hx h
  cases e with
  | number value =>
    obtain ⟨rfl, rfl⟩ := Gen.pure_ok.1 h
    exact ⟨.refl d, fun _ _ => .number value⟩
  | bool value =>
    obtain ⟨rfl, rfl⟩ := Gen.pure_ok.1 h
    exact ⟨.refl d, fun _ _ => .bool value⟩
  | var name =>
    simp only [code, Gen.bind_ok, Gen.pure_ok, Gen.lookup_ok] at h
    obtain ⟨b, _, ⟨rfl, hb⟩, rfl, rfl⟩ := h
    rw [hx.sees hs] at hb
    exact ⟨.refl _, fun _ _ => .var hb⟩
  | unary op operand =>
    simp only [code, Gen.bind_ok, Gen.pure_ok] at h
    obtain ⟨c₁, d₁, h₁, rfl, rfl⟩ := h
    obtain ⟨hx₁, hem₁⟩ := ih operand (by simp [Expr.children]) hs hx h₁
    exact ⟨hx₁, fun image hh => .unary (hem₁ image hh)⟩
  | binary op lhs rhs =>
    simp only [code, Gen.bind_ok, Gen.pure_ok] at h
    obtain ⟨left, d₁, h₁, right, d₂, h₂, rfl, rfl⟩ := h
    obtain ⟨hx₁, hem₁⟩ := ih lhs (by simp [Expr.children]) hs hx h₁
    obtain ⟨hx₂, hem₂⟩ := ih rhs (by simp [Expr.children]) hs (hx.trans hx₁) h₂
    exact ⟨hx₁.trans hx₂, fun image hh => .binary (hem₁ image (holds_of_extends hh hx₂)) (hem₂ image hh)⟩
  | assign name value =>
    simp only [code, Gen.bind_ok, Gen.lookup_ok] at h
    obtain ⟨b, _, ⟨rfl, hb⟩, h⟩ := h
    split at h
    · obtain ⟨_, _, hthrow, -⟩ := Gen.bind_ok.1 h
      exact absurd hthrow Gen.throw_ok
    · rename_i hstorage
      simp only [Gen.bind_ok, Gen.pure_ok] at h
      obtain ⟨pushed, d₂, h₂, rfl, rfl⟩ := h
      obtain ⟨hx₂, hem₂⟩ := ih value (by simp [Expr.children]) hs hx h₂
      rw [hx.sees hs] at hb
      exact ⟨hx₂, fun image hh => .assign hb hstorage (hem₂ image hh)⟩
  | seq items =>
    obtain ⟨hx₁, hem₁⟩ := emits_sequence (fun e he => ih e he) hs hx h
    exact ⟨hx₁, fun image hh => .seq (hem₁ image hh)⟩
  | ite cond thenBranch elseBranch =>
    obtain ⟨l₁, l₂, l₃, l₄, _, cc, d₁, tc, d₂, ec, labels, rfl, hc, ht, he, rfl⟩ := Gen.ifThenElse_ok h
    have hx₀ := Gen.extends_issued d labels
    obtain ⟨hx₁, hem₁⟩ := ih cond (by simp [Expr.children]) hs (hx.trans hx₀) hc
    obtain ⟨hx₂, hem₂⟩ := ih thenBranch (by simp [Expr.children]) hs ((hx.trans hx₀).trans hx₁) ht
    obtain ⟨hx₃, hem₃⟩ := emits_optional (fun part hp => ih part (by simp_all [Expr.children])) hs
      (((hx.trans hx₀).trans hx₁).trans hx₂) he
    exact ⟨((hx₀.trans hx₁).trans hx₂).trans hx₃, fun image hh =>
      .ite (hem₁ image (holds_of_extends hh (hx₂.trans hx₃))) (hem₂ image (holds_of_extends hh hx₃)) (hem₃ image hh)⟩
  | whileDo cond body =>
    obtain ⟨l₁, l₂, _, cc, d₁, bc, labels, rfl, hc, hb, rfl⟩ := Gen.whileDo_ok h
    have hx₀ := Gen.extends_issued d labels
    obtain ⟨hx₁, hem₁⟩ := ih cond (by simp [Expr.children]) hs (hx.trans hx₀) hc
    obtain ⟨hx₂, hem₂⟩ := ih body (by simp [Expr.children]) hs ((hx.trans hx₀).trans hx₁) hb
    exact ⟨(hx₀.trans hx₁).trans hx₂, fun image hh =>
      .whileDo (hem₁ image (holds_of_extends hh hx₂)) (hem₂ image hh)⟩
  | doWhile body cond =>
    obtain ⟨l₁, l₂, _, bc, d₁, cc, labels, rfl, hb, hc, rfl⟩ := Gen.doWhile_ok h
    have hx₀ := Gen.extends_issued d labels
    obtain ⟨hx₁, hem₁⟩ := ih body (by simp [Expr.children]) hs (hx.trans hx₀) hb
    obtain ⟨hx₂, hem₂⟩ := ih cond (by simp [Expr.children]) hs ((hx.trans hx₀).trans hx₁) hc
    exact ⟨(hx₀.trans hx₁).trans hx₂, fun image hh =>
      .doWhile (hem₁ image (holds_of_extends hh hx₂)) (hem₂ image hh)⟩
  | loop count body =>
    obtain ⟨l₁, l₂, _, cc, d₁, bc, labels, rfl, hc, hb, rfl⟩ := Gen.countedLoop_ok h
    have hx₀ := Gen.extends_issued d labels
    obtain ⟨hx₁, hem₁⟩ := ih count (by simp [Expr.children]) hs (hx.trans hx₀) hc
    obtain ⟨hx₂, hem₂⟩ := ih body (by simp [Expr.children]) hs ((hx.trans hx₀).trans hx₁) hb
    exact ⟨(hx₀.trans hx₁).trans hx₂, fun image hh =>
      .loop (hem₁ image (holds_of_extends hh hx₂)) (hem₂ image hh)⟩
  | block bindings body =>
    simp only [code, Gen.bind_ok, Gen.pure_ok] at h
    obtain ⟨inner, d₁, h₁, values, d₂, h₂, result, d₃, h₃, rfl, rfl⟩ := h
    have hx₁ := Gen.extends_of_openScope h₁
    obtain ⟨rfl, hnodup, hd, hsees⟩ := Gen.openScope_ok h₁
    have hinner : (⟨d.scopes.frames.length⟩ : ScopeId).index < d₁.scopes.frames.length := by rw [hd]; simp
    obtain ⟨hx₂, hem₂⟩ := emits_initial (fun b hb => ih b.2 (List.mem_cons_of_mem _ (List.mem_map_of_mem hb))) hinner
      (.refl d₁) h₂
    obtain ⟨hx₃, hem₃⟩ := ih body (by simp [Expr.children]) hinner hx₂ h₃
    rw [Option.elim_some, hx.sees hs] at hsees
    rw [map_name_blockBindings] at hnodup
    rw [hsees] at hem₂ hem₃
    exact ⟨(hx₁.trans hx₂).trans hx₃, fun image hh =>
      .block hnodup (hem₂ image (holds_of_extends hh hx₃)) (hem₃ image hh)⟩
  | lambda params body =>
    simp only [code] at h
    obtain ⟨hx₁, hem⟩ := emits_plain (ih body (by simp [Expr.children])) hs hx h
    exact ⟨hx₁, fun image hh => .lambda (hem image hh)⟩
  | proc params locals body =>
    cases locals with
    | nil =>
      simp only [code] at h
      obtain ⟨hx₁, hem⟩ := emits_plain (ih body (by simp [Expr.children])) hs hx h
      exact ⟨hx₁, fun image hh => .proc (hem image hh)⟩
    | cons first rest =>
      simp only [code] at h
      obtain ⟨hx₁, hem⟩ := emits_withLocals (ih body (by simp [Expr.children])) hs hx h
      exact ⟨hx₁, fun image hh => .proc (hem image hh)⟩
  | call callee args =>
    simp only [code, Gen.bind_ok, Gen.pure_ok] at h
    obtain ⟨back, d₁, h₁, pushed, d₂, h₂, target, d₃, h₃, rfl, rfl⟩ := h
    have hx₁ := Gen.extends_of_fresh h₁
    obtain ⟨hx₂, hem₂⟩ := emits_arguments (fun e he => ih e (List.mem_cons_of_mem _ he)) hs (hx.trans hx₁) h₂
    obtain ⟨hx₃, hem₃⟩ := ih callee (by simp [Expr.children]) hs ((hx.trans hx₁).trans hx₂) h₃
    exact ⟨(hx₁.trans hx₂).trans hx₃, fun image hh =>
      .call (hem₂ image (holds_of_extends hh hx₃)) (hem₃ image hh)⟩

/-- **Programs.** The program of an expression makes the cells of the global variables and goes on with its code. -/
theorem emits_compile {e : Expr} {p : Program Op} (h : compile .closure e = .ok p) :
    p.checkLabels = .ok () ∧ e.globalNames.Nodup ∧ ∃ entry,
      p.code = [.own (.alloc e.globalNames.length), .own (.mkvec e.globalNames.length), .own .setgp] ++ entry ∧
      Emits (Image.ofProgram p) (Scope.empty.extend (globalBindings 0 e.globalNames)) 0 e entry := by
  obtain ⟨d, hgen, hcheck⟩ := generate_of_compile h
  simp only [ThreeMachines.generate, generate, Gen.bind_ok, Gen.pure_ok, Gen.get_ok] at hgen
  obtain ⟨_, d₁, hbind, entry, d₂, hcode, _, _, ⟨rfl, rfl⟩, rfl, rfl⟩ := hgen
  obtain ⟨hd₁, hnodup, hsees⟩ := Gen.bindGlobals_ok hbind
  obtain ⟨hx, hem⟩ := emits_code e (by rw [hd₁]; exact Nat.one_pos) (.refl d₁) hcode
  rw [map_name_globalBindings] at hnodup
  refine ⟨hcheck, hnodup, entry, rfl, ?_⟩
  rw [← hsees]
  exact hem _ (Image.holds_ofProgram hcheck)

end ThreeMachines.Closure

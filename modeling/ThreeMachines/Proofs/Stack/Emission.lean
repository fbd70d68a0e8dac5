/-
The code of the stack machine, told without the generator's state.

`Emits globals ρ depth e c`: `c` is the code of the expression `e` where the names of blocks and parameters stand for the
bindings of the scope `ρ`, all others for the globals, and `depth` words lie over the frame pointer. The globals are those
of the whole program, also where the generator meets some of them later.

- `emits_code`: what the generator returns is such code.
- `emits_compile`: so the program of an expression is its code, with a word for each global.
-/
import ThreeMachines.Proofs.Occurrences
import ThreeMachines.Proofs.Placement
import ThreeMachines.Proofs.Stack.Scopes

namespace ThreeMachines.Stack

/-- push the address of a variable -/
def push (b : Binding) : Instr Op :=
  if b.storage = .global then .loadc (.int b.address) else .own (.loadrc b.address)

/-- the names that a procedure binds -/
def frameBindings (params locals : List String) : List Binding :=
  formalBindings firstFormal params ++ blockBindings 0 locals

/-- a call without arguments makes a place for the result -/
def padding : List Expr → Code Op
  | [] => zero
  | _ :: _ => []

/-- the words that a call pushes for its arguments and its result -/
def slots (args : List Expr) : Nat := max 1 args.length

mutual

/-- `c` is code of the expression -/
inductive Emits (globals : List String) : Scope → Int → Expr → Code Op → Prop
  | number {ρ depth} (value : Int64) : Emits globals ρ depth (.number value) [.loadc (.int value.toInt)]
  | bool {ρ depth} (value : Bool) : Emits globals ρ depth (.bool value) [.loadc (.int (if value then 1 else 0))]
  | var {ρ depth name b} : ρ.over (globalScope globals) name = some b →
    Emits globals ρ depth (.var name) ([push b] ++ [.own .load])
  | unary {ρ depth op operand c} : Emits globals ρ depth operand c →
    Emits globals ρ depth (.unary op operand) (c ++ [.unary op])
  | binary {ρ depth op lhs rhs left right} : Emits globals ρ depth lhs left →
    Emits globals ρ (depth + 1) rhs right → Emits globals ρ depth (.binary op lhs rhs) (left ++ right ++ [.binary op])
  | assign {ρ depth name value b pushed} : ρ.over (globalScope globals) name = some b →
    Emits globals ρ depth value pushed →
    Emits globals ρ depth (.assign name value) (pushed ++ [push b] ++ [.own .store])
  | seq {ρ depth items c} : EmitsSequence globals ρ depth items c → Emits globals ρ depth (.seq items) c
  | ite {ρ depth cond thenBranch elseBranch start thenLabel elseLabel stop cc tc ec} :
    Emits globals ρ depth cond cc → Emits globals ρ depth thenBranch tc →
    EmitsOptional globals ρ depth elseBranch ec →
    Emits globals ρ depth (.ite cond thenBranch elseBranch)
      (Skeleton.ifThenElse start thenLabel elseLabel stop cc tc ec)
  | whileDo {ρ depth cond body start stop cc bc} : Emits globals ρ (depth + 1) cond cc →
    Emits globals ρ depth body bc →
    Emits globals ρ depth (.whileDo cond body) (Skeleton.whileDo start stop zero cc bc)
  | doWhile {ρ depth body cond start stop bc cc} : Emits globals ρ depth body bc →
    Emits globals ρ (depth + 1) cond cc → Emits globals ρ depth (.doWhile body cond) (Skeleton.doWhile start stop bc cc)
  | loop {ρ depth count body start stop cc bc} : Emits globals ρ (depth + 1) count cc →
    Emits globals ρ (depth + 1) body bc →
    Emits globals ρ depth (.loop count body) (Skeleton.countedLoop start stop zero cc bc)
  | block {ρ depth bindings body values result} : (bindings.map Prod.fst).Nodup →
    EmitsInitial globals (ρ.extend (blockBindings depth (bindings.map Prod.fst))) (depth + bindings.length) depth bindings
      values →
    Emits globals (ρ.extend (blockBindings depth (bindings.map Prod.fst))) (depth + bindings.length) body result →
    Emits globals ρ depth (.block bindings body)
      ([.own (.alloc (wordSize * bindings.length))] ++ values ++ result ++
        [.own (.slide (wordSize * bindings.length) wordSize)])
  | lambda {ρ depth params body entry stop c} : EmitsProcedure globals ρ params [] body c →
    Emits globals ρ depth (.lambda params body) (procedure entry stop 0 c)
  | proc {ρ depth params locals body entry stop c} : EmitsProcedure globals ρ params locals body c →
    Emits globals ρ depth (.proc params locals body) (procedure entry stop locals.length c)
  | call {ρ depth callee args pushed target} : EmitsReversed globals ρ depth args pushed →
    Emits globals ρ (depth + slots args + 1) callee target →
    Emits globals ρ depth (.call callee args) (callWith (slots args) (padding args ++ pushed) target)

/-- a sequence -/
inductive EmitsSequence (globals : List String) : Scope → Int → List Expr → Code Op → Prop
  | last {ρ depth item c} : Emits globals ρ depth item c → EmitsSequence globals ρ depth [item] c
  | cons {ρ depth item next items first rest} : Emits globals ρ depth item first →
    EmitsSequence globals ρ depth (next :: items) rest →
    EmitsSequence globals ρ depth (item :: next :: items) (first ++ [.pop] ++ rest)

/-- an expression that may be missing -/
inductive EmitsOptional (globals : List String) : Scope → Int → Option Expr → Code Op → Prop
  | none {ρ depth} : EmitsOptional globals ρ depth none zero
  | some {ρ depth e c} : Emits globals ρ depth e c → EmitsOptional globals ρ depth (some e) c

/-- the values of a block, the first of them for the variable at depth `place` -/
inductive EmitsInitial (globals : List String) : Scope → Int → Int → List (String × Expr) → Code Op → Prop
  | nil {ρ depth place} : EmitsInitial globals ρ depth place [] []
  | cons {ρ depth place name value rest pushed values} : Emits globals ρ depth value pushed →
    EmitsInitial globals ρ depth (place + 1) rest values →
    EmitsInitial globals ρ depth place ((name, value) :: rest)
      (pushed ++ [.own (.loadrc (offsetAt place)), .own .store, .pop] ++ values)

/-- arguments, the last one first -/
inductive EmitsReversed (globals : List String) : Scope → Int → List Expr → Code Op → Prop
  | nil {ρ depth} : EmitsReversed globals ρ depth [] []
  | cons {ρ depth arg args later first} : EmitsReversed globals ρ depth args later →
    Emits globals ρ (depth + args.length) arg first → EmitsReversed globals ρ depth (arg :: args) (later ++ first)

/-- the body of a procedure, which uses no names of the scopes around it but globals -/
inductive EmitsProcedure (globals : List String) : Scope → List String → List String → Expr → Code Op → Prop
  | intro {ρ params locals body c} : (params ++ locals).Nodup → (∀ x ∈ body.captures (params ++ locals), ρ x = none) →
    Emits globals (Scope.empty.extend (frameBindings params locals)) locals.length body c →
    EmitsProcedure globals ρ params locals body c

end

/-! ## What the generator returns -/

/-- the names are among the globals of the program, as the oldest of them -/
structure Final (names globals : List String) : Prop where
  suffix : names <:+ globals
  nodup : globals.Nodup

theorem Final.widens {d d' : Draft Op} {names names' globals : List String} (h : Final names' globals)
    (hx : Widens d names d' names') : Final names globals := ⟨hx.suffix.trans h.suffix, h.nodup⟩

theorem Final.stands {names globals : List String} {ρ : Scope} {x : String} {b : Binding} (h : Final names globals)
    (hb : ρ.over (globalScope names) x = some b) : ρ.over (globalScope globals) x = some b := by
  rw [Scope.over] at hb ⊢
  cases hρ : ρ x with
  | some b' => rwa [hρ] at hb
  | none =>
    rw [hρ, Option.none_or] at hb
    exact globalScope_suffix h.suffix h.nodup hb

/-- the generator's code of an expression -/
def Emitted (e : Expr) : Prop :=
  ∀ ⦃d d' : Draft Op⦄ ⦃s : ScopeId⦄ ⦃depth : Int⦄ ⦃names : List String⦄ ⦃ρ : Scope⦄ ⦃c : Code Op⦄, View d s names ρ →
    code s depth e d = .ok c d' →
    ∃ names', Widens d names d' names' ∧ ∀ globals, Final names' globals → Emits globals ρ depth e c

variable {d d' : Draft Op} {s : ScopeId} {depth : Int} {names : List String} {ρ : Scope} {c : Code Op}

theorem address_ok {b : Binding} (h : address b d = .ok c d') : c = [push b] ∧ d' = d := by
  rw [address] at h
  rw [push]
  cases hs : b.storage <;> simp only [hs] at h
  case captured => exact absurd h Gen.throw_ok
  all_goals
    obtain ⟨rfl, rfl⟩ := Gen.pure_ok.1 h
    simp

theorem emits_sequence {items : List Expr} (hi : ∀ e ∈ items, Emitted e) (hv : View d s names ρ)
    (h : sequence s depth items d = .ok c d') :
    ∃ names', Widens d names d' names' ∧ ∀ globals, Final names' globals → EmitsSequence globals ρ depth items c := by
  induction items generalizing d c names with
  | nil => exact absurd h Gen.throw_ok
  | cons item items ih =>
    have hitem := hi item List.mem_cons_self
    cases items with
    | nil =>
      obtain ⟨names', hx, hem⟩ := hitem hv h
      exact ⟨names', hx, fun globals hf => .last (hem globals hf)⟩
    | cons next items =>
      simp only [sequence, Gen.bind_ok, Gen.pure_ok] at h
      obtain ⟨first, d₁, h₁, rest, d₂, h₂, rfl, rfl⟩ := h
      obtain ⟨names₁, hx₁, hem₁⟩ := hitem hv h₁
      obtain ⟨names₂, hx₂, hem₂⟩ := ih (fun e he => hi e (List.mem_cons_of_mem _ he)) (hx₁.view s ρ hv) h₂
      exact ⟨names₂, hx₁.trans hx₂, fun globals hf => .cons (hem₁ globals (hf.widens hx₂)) (hem₂ globals hf)⟩

theorem emits_optional {e : Option Expr} (hi : ∀ part ∈ e.toList, Emitted part) (hv : View d s names ρ)
    (h : optional s depth e d = .ok c d') :
    ∃ names', Widens d names d' names' ∧ ∀ globals, Final names' globals → EmitsOptional globals ρ depth e c := by
  cases e with
  | none =>
    obtain ⟨rfl, rfl⟩ := Gen.pure_ok.1 h
    exact ⟨names, .refl d names, fun _ _ => .none⟩
  | some e =>
    obtain ⟨names', hx, hem⟩ := hi e (by simp) hv h
    exact ⟨names', hx, fun globals hf => .some (hem globals hf)⟩

theorem emits_initial {bindings : List (String × Expr)} {place : Int} (hi : ∀ b ∈ bindings, Emitted b.2)
    (hv : View d s names ρ) (h : initial s depth place bindings d = .ok c d') :
    ∃ names', Widens d names d' names' ∧
      ∀ globals, Final names' globals → EmitsInitial globals ρ depth place bindings c := by
  induction bindings generalizing d c names place with
  | nil =>
    obtain ⟨rfl, rfl⟩ := Gen.pure_ok.1 h
    exact ⟨names, .refl d names, fun _ _ => .nil⟩
  | cons binding rest ih =>
    obtain ⟨name, value⟩ := binding
    simp only [initial, Gen.bind_ok, Gen.pure_ok] at h
    obtain ⟨pushed, d₁, h₁, values, d₂, h₂, rfl, rfl⟩ := h
    obtain ⟨names₁, hx₁, hem₁⟩ := hi (name, value) List.mem_cons_self hv h₁
    obtain ⟨names₂, hx₂, hem₂⟩ := ih (fun b hb => hi b (List.mem_cons_of_mem _ hb)) (hx₁.view s ρ hv) h₂
    exact ⟨names₂, hx₁.trans hx₂, fun globals hf => .cons (hem₁ globals (hf.widens hx₂)) (hem₂ globals hf)⟩

theorem emits_reversed {args : List Expr} (hi : ∀ e ∈ args, Emitted e) (hv : View d s names ρ)
    (h : reversed s depth args d = .ok c d') :
    ∃ names', Widens d names d' names' ∧ ∀ globals, Final names' globals → EmitsReversed globals ρ depth args c := by
  induction args generalizing c d' with
  | nil =>
    obtain ⟨rfl, rfl⟩ := Gen.pure_ok.1 h
    exact ⟨names, .refl d names, fun _ _ => .nil⟩
  | cons arg args ih =>
    simp only [reversed, Gen.bind_ok, Gen.pure_ok] at h
    obtain ⟨later, d₁, h₁, first, d₂, h₂, rfl, rfl⟩ := h
    obtain ⟨names₁, hx₁, hem₁⟩ := ih (fun e he => hi e (List.mem_cons_of_mem _ he)) h₁
    obtain ⟨names₂, hx₂, hem₂⟩ := hi arg List.mem_cons_self (hx₁.view s ρ hv) h₂
    exact ⟨names₂, hx₁.trans hx₂, fun globals hf => .cons (hem₁ globals (hf.widens hx₂)) (hem₂ globals hf)⟩

/-! ### Procedures -/

theorem mem_blockBindings {b : Binding} {names : List String} (h : b ∈ blockBindings depth names) :
    b.storage = .blockLocal := by
  induction names generalizing depth with
  | nil => simp [blockBindings] at h
  | cons name names ih =>
    rcases List.mem_cons.1 h with rfl | h
    exacts [rfl, ih h]

theorem mem_formalBindings {b : Binding} {offset : Int} {names : List String} (h : b ∈ formalBindings offset names) :
    b.storage = .formal := by
  induction names generalizing offset with
  | nil => simp [formalBindings] at h
  | cons name names ih =>
    rcases List.mem_cons.1 h with rfl | h
    exacts [rfl, ih h]

theorem map_name_blockBindings (depth : Int) (names : List String) :
    (blockBindings depth names).map Binding.name = names := by
  induction names generalizing depth with
  | nil => rfl
  | cons name names ih => rw [blockBindings, List.map_cons, ih]

theorem map_name_formalBindings (offset : Int) (names : List String) :
    (formalBindings offset names).map Binding.name = names := by
  induction names generalizing offset with
  | nil => rfl
  | cons name names ih => rw [formalBindings, List.map_cons, ih]

theorem map_name_frameBindings (params locals : List String) :
    (frameBindings params locals).map Binding.name = params ++ locals := by
  rw [frameBindings, List.map_append, map_name_formalBindings, map_name_blockBindings]

/-- a procedure, with or without locals -/
theorem procedure_ok (params locals : List String) {body : Expr} {frameDepth : Int} (hi : Emitted body)
    (hv : View d s names ρ) (hdepth : frameDepth = locals.length)
    (h : (do
      refuseCaptures s (body.captures (params ++ locals))
      let entry ← Gen.fresh "proc"
      let stop ← Gen.fresh "endproc"
      let frame ← Gen.openScope (some (← Gen.rootOf s)) (frameBindings params locals)
      return procedure entry stop frameDepth (← code frame frameDepth body)) d = .ok c d') :
    ∃ names' entry stop, Widens d names d' names' ∧ ∀ globals, Final names' globals →
      ∃ b, c = procedure entry stop locals.length b ∧ EmitsProcedure globals ρ params locals body b := by
  subst hdepth
  simp only [Gen.bind_ok, Gen.pure_ok] at h
  obtain ⟨_, d₁, h₁, entry, d₂, h₂, stop, d₃, h₃, root, d₄, h₄, frame, d₅, h₅, b, d₆, h₆, rfl, rfl⟩ := h
  obtain ⟨rfl, hcaptures⟩ := refuseCaptures_ok hv h₁
  obtain ⟨labels₂, rfl⟩ := Gen.fresh_ok h₂
  obtain ⟨labels₃, rfl⟩ := Gen.fresh_ok h₃
  have hx := (widens_issued d₁ labels₂ names).trans (widens_issued _ labels₃ names)
  obtain ⟨rfl, rfl⟩ := rootOf_ok (hx.view s ρ hv) h₄
  obtain ⟨hx₅, hnodup, hv₅⟩ := openFrame_ok (hx.view s ρ hv) (fun b hb => by
    rcases List.mem_append.1 hb with hb | hb
    · simp [mem_formalBindings hb]
    · simp [mem_blockBindings hb]) h₅
  obtain ⟨names₆, hx₆, hem₆⟩ := hi hv₅ h₆
  rw [map_name_frameBindings] at hnodup
  exact ⟨names₆, entry, stop, (hx.trans hx₅).trans hx₆, fun globals hf => ⟨b, rfl, .intro hnodup hcaptures (hem₆ globals hf)⟩⟩

/-- **Generated code.** Where the generator succeeds, it returns code of the expression. -/
theorem emits_code (e : Expr) : Emitted e := by
  refine Expr.byParts (fun e ih => ?_) e
  intro d d' s depth names ρ c hv h
  cases e with
  | number value =>
    obtain ⟨rfl, rfl⟩ := Gen.pure_ok.1 h
    exact ⟨names, .refl d names, fun _ _ => .number value⟩
  | bool value =>
    obtain ⟨rfl, rfl⟩ := Gen.pure_ok.1 h
    exact ⟨names, .refl d names, fun _ _ => .bool value⟩
  | var name =>
    simp only [code, Gen.bind_ok, Gen.pure_ok] at h
    obtain ⟨b, d₁, h₁, pushed, d₂, h₂, rfl, rfl⟩ := h
    obtain ⟨rfl, hb⟩ := lookup_ok hv h₁
    obtain ⟨rfl, rfl⟩ := address_ok h₂
    exact ⟨names, .refl _ names, fun globals hf => .var (hf.stands hb)⟩
  | unary op operand =>
    simp only [code, Gen.bind_ok, Gen.pure_ok] at h
    obtain ⟨c₁, d₁, h₁, rfl, rfl⟩ := h
    obtain ⟨names₁, hx₁, hem₁⟩ := ih operand (by simp [Expr.children]) hv h₁
    exact ⟨names₁, hx₁, fun globals hf => .unary (hem₁ globals hf)⟩
  | binary op lhs rhs =>
    simp only [code, Gen.bind_ok, Gen.pure_ok] at h
    obtain ⟨left, d₁, h₁, right, d₂, h₂, rfl, rfl⟩ := h
    obtain ⟨names₁, hx₁, hem₁⟩ := ih lhs (by simp [Expr.children]) hv h₁
    obtain ⟨names₂, hx₂, hem₂⟩ := ih rhs (by simp [Expr.children]) (hx₁.view s ρ hv) h₂
    exact ⟨names₂, hx₁.trans hx₂, fun globals hf => .binary (hem₁ globals (hf.widens hx₂)) (hem₂ globals hf)⟩
  | assign name value =>
    simp only [code, Gen.bind_ok, Gen.pure_ok] at h
    obtain ⟨b, d₁, h₁, pushed, d₂, h₂, place, d₃, h₃, rfl, rfl⟩ := h
    obtain ⟨names₁, hx₁, hb, -⟩ := resolve_ok hv h₁
    obtain ⟨names₂, hx₂, hem₂⟩ := ih value (by simp [Expr.children]) (hx₁.view s ρ hv) h₂
    obtain ⟨rfl, rfl⟩ := address_ok h₃
    exact ⟨names₂, hx₁.trans hx₂, fun globals hf => .assign ((hf.widens hx₂).stands hb) (hem₂ globals hf)⟩
  | seq items =>
    obtain ⟨names₁, hx₁, hem₁⟩ := emits_sequence (fun e he => ih e he) hv h
    exact ⟨names₁, hx₁, fun globals hf => .seq (hem₁ globals hf)⟩
  | ite cond thenBranch elseBranch =>
    obtain ⟨l₁, l₂, l₃, l₄, _, cc, d₁, tc, d₂, ec, labels, rfl, hc, ht, he, rfl⟩ := Gen.ifThenElse_ok h
    have hx₀ := widens_issued d labels names
    obtain ⟨names₁, hx₁, hem₁⟩ := ih cond (by simp [Expr.children]) (hx₀.view s ρ hv) hc
    obtain ⟨names₂, hx₂, hem₂⟩ := ih thenBranch (by simp [Expr.children]) ((hx₀.trans hx₁).view s ρ hv) ht
    obtain ⟨names₃, hx₃, hem₃⟩ := emits_optional (fun part hp => ih part (by simp_all [Expr.children]))
      (((hx₀.trans hx₁).trans hx₂).view s ρ hv) he
    exact ⟨names₃, ((hx₀.trans hx₁).trans hx₂).trans hx₃, fun globals hf =>
      .ite (hem₁ globals (hf.widens (hx₂.trans hx₃))) (hem₂ globals (hf.widens hx₃)) (hem₃ globals hf)⟩
  | whileDo cond body =>
    obtain ⟨l₁, l₂, _, cc, d₁, bc, labels, rfl, hc, hb, rfl⟩ := Gen.whileDo_ok h
    have hx₀ := widens_issued d labels names
    obtain ⟨names₁, hx₁, hem₁⟩ := ih cond (by simp [Expr.children]) (hx₀.view s ρ hv) hc
    obtain ⟨names₂, hx₂, hem₂⟩ := ih body (by simp [Expr.children]) ((hx₀.trans hx₁).view s ρ hv) hb
    exact ⟨names₂, (hx₀.trans hx₁).trans hx₂, fun globals hf =>
      .whileDo (hem₁ globals (hf.widens hx₂)) (hem₂ globals hf)⟩
  | doWhile body cond =>
    obtain ⟨l₁, l₂, _, bc, d₁, cc, labels, rfl, hb, hc, rfl⟩ := Gen.doWhile_ok h
    have hx₀ := widens_issued d labels names
    obtain ⟨names₁, hx₁, hem₁⟩ := ih body (by simp [Expr.children]) (hx₀.view s ρ hv) hb
    obtain ⟨names₂, hx₂, hem₂⟩ := ih cond (by simp [Expr.children]) ((hx₀.trans hx₁).view s ρ hv) hc
    exact ⟨names₂, (hx₀.trans hx₁).trans hx₂, fun globals hf =>
      .doWhile (hem₁ globals (hf.widens hx₂)) (hem₂ globals hf)⟩
  | loop count body =>
    obtain ⟨l₁, l₂, _, cc, d₁, bc, labels, rfl, hc, hb, rfl⟩ := Gen.countedLoop_ok h
    have hx₀ := widens_issued d labels names
    obtain ⟨names₁, hx₁, hem₁⟩ := ih count (by simp [Expr.children]) (hx₀.view s ρ hv) hc
    obtain ⟨names₂, hx₂, hem₂⟩ := ih body (by simp [Expr.children]) ((hx₀.trans hx₁).view s ρ hv) hb
    exact ⟨names₂, (hx₀.trans hx₁).trans hx₂, fun globals hf =>
      .loop (hem₁ globals (hf.widens hx₂)) (hem₂ globals hf)⟩
  | block bindings body =>
    simp only [code, Gen.bind_ok, Gen.pure_ok] at h
    obtain ⟨inner, d₁, h₁, values, d₂, h₂, result, d₃, h₃, rfl, rfl⟩ := h
    obtain ⟨hx₁, hnodup, hv₁⟩ := openScope_ok hv (fun b hb => by simp [mem_blockBindings hb]) h₁
    obtain ⟨names₂, hx₂, hem₂⟩ := emits_initial
      (fun b hb => ih b.2 (List.mem_cons_of_mem _ (List.mem_map_of_mem hb))) hv₁ h₂
    obtain ⟨names₃, hx₃, hem₃⟩ := ih body (by simp [Expr.children]) (hx₂.view _ _ hv₁) h₃
    rw [map_name_blockBindings] at hnodup
    exact ⟨names₃, (hx₁.trans hx₂).trans hx₃, fun globals hf =>
      .block hnodup (hem₂ globals (hf.widens hx₃)) (hem₃ globals hf)⟩
  | lambda params body =>
    obtain ⟨names₁, entry, stop, hx₁, hem₁⟩ := procedure_ok params [] (ih body (by simp [Expr.children])) hv
      (show (0 : Int) = ([] : List String).length from rfl)
      (by simpa only [frameBindings, blockBindings, List.append_nil, code] using h)
    refine ⟨names₁, hx₁, fun globals hf => ?_⟩
    obtain ⟨b, rfl, hem⟩ := hem₁ globals hf
    exact .lambda hem
  | proc params locals body =>
    obtain ⟨names₁, entry, stop, hx₁, hem₁⟩ := procedure_ok params locals (ih body (by simp [Expr.children])) hv rfl h
    refine ⟨names₁, hx₁, fun globals hf => ?_⟩
    obtain ⟨b, rfl, hem⟩ := hem₁ globals hf
    exact .proc hem
  | call callee args =>
    have hargs : ∀ e ∈ args, Emitted e := fun e he => ih e (List.mem_cons_of_mem _ he)
    have hcallee := ih callee (by simp [Expr.children])
    cases args with
    | nil =>
      simp only [code, Gen.bind_ok, Gen.pure_ok] at h
      obtain ⟨target, d₁, h₁, rfl, rfl⟩ := h
      obtain ⟨names₁, hx₁, hem₁⟩ := hcallee hv h₁
      refine ⟨names₁, hx₁, fun globals hf => .call .nil ?_⟩
      have := hem₁ globals hf
      rwa [show depth + 2 = depth + (slots [] : Nat) + 1 by simp [slots]; ring] at this
    | cons arg args =>
      simp only [code, Gen.bind_ok, Gen.pure_ok] at h
      obtain ⟨pushed, d₁, h₁, target, d₂, h₂, rfl, rfl⟩ := h
      have hslots : (slots (arg :: args) : Nat) = (arg :: args).length := by simp [slots]
      obtain ⟨names₁, hx₁, hem₁⟩ := emits_reversed hargs hv h₁
      obtain ⟨names₂, hx₂, hem₂⟩ := hcallee (hx₁.view s ρ hv) h₂
      refine ⟨names₂, hx₁.trans hx₂, fun globals hf => ?_⟩
      have htarget := hem₂ globals hf
      rw [← hslots] at htarget ⊢
      exact .call (hem₁ globals (hf.widens hx₂)) htarget

/-! ## Programs -/

/-- the globals of a program, the oldest first -/
theorem globals_rooted {frames : List Frame} (h : Rooted frames names) :
    ScopeTable.globals ⟨frames⟩ = (globalBindings names).reverse := by
  refine ScopeTable.globals_eq_of_ascending frames ?_ (fun b hb => storage_of_mem (List.mem_reverse.1 hb)) ?_
  · rw [h.slots_eq, List.map_reverse, List.reverse_reverse]
  · exact List.pairwise_reverse.2 (descending_globalBindings names)

/-- there is a word for each global -/
theorem length_globals {frames : List Frame} (h : Rooted frames names) :
    (ScopeTable.globals ⟨frames⟩).length = names.length := by
  rw [globals_rooted h, List.length_reverse, ← List.length_map (f := Binding.name), map_name_globalBindings]

/-- **Programs.** The program of an expression is its code, with a word for each global. -/
theorem emits_compile {e : Expr} {p : Program Op} (h : compile .stack e = .ok p) :
    p.checkLabels = .ok () ∧ ∃ globals, globals.Nodup ∧ p.globals.length = globals.length ∧
      Emits globals .empty 0 e p.code := by
  obtain ⟨d, hgen, hcheck⟩ := generate_of_compile h
  simp only [ThreeMachines.generate, generate, Gen.bind_ok, Gen.pure_ok, Gen.get_ok] at hgen
  obtain ⟨c, d₁, hcode, _, _, ⟨rfl, rfl⟩, rfl, rfl⟩ := hgen
  have hv : View ⟨.new, .empty, .empty⟩ ScopeTable.global [] .empty := ⟨.root List.nodup_nil, rfl, Nat.one_pos, rfl⟩
  obtain ⟨names, hx, hem⟩ := emits_code e hv hcode
  have hrooted := (hx.view _ _ hv).rooted
  exact ⟨hcheck, names, hrooted.nodup, length_globals hrooted, hem names ⟨List.suffix_refl names, hrooted.nodup⟩⟩

end ThreeMachines.Stack

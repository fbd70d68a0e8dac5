/-
Which expressions the closure machine accepts.

Beside names that stand for nothing and names that are not in order, the generator refuses an assignment to a copy: a
variable that a function has captured and that is no global. Scopes tell apart where a name is bound: in the function
itself, in a function around it, or nowhere (`Tells`). So an assignment is refused just when its target is bound outside
the function (`accepts_code`).
-/
import ThreeMachines.Proofs.Acceptance.Names
import ThreeMachines.Proofs.Acceptance.Steps
import ThreeMachines.Proofs.Closure.Emission

namespace ThreeMachines.Closure

open Gen

/-- the scope shows names bound outside the function as captured, and names bound nowhere as globals -/
def Tells (ρ : Scope) (own outer : List String) : Prop := ∀ ⦃x b⦄, ρ x = some b →
  (b.storage = .captured ↔ x ∉ own ∧ x ∈ outer) ∧ (b.storage = .global ↔ x ∉ own ∧ x ∉ outer)

theorem mem_blockBindings {b : Binding} {depth : Int} {names : List String} (h : b ∈ blockBindings depth names) :
    b.storage = .blockLocal ∧ b.name ∈ names := by
  induction names generalizing depth with
  | nil => simp [blockBindings] at h
  | cons name names ih =>
    rcases List.mem_cons.1 h with rfl | h
    · exact ⟨rfl, List.mem_cons_self⟩
    · exact ⟨(ih h).1, List.mem_cons_of_mem _ (ih h).2⟩

theorem mem_formalBindings {b : Binding} {address : Int} {names : List String} (h : b ∈ formalBindings address names) :
    b.storage = .formal ∧ b.name ∈ names := by
  induction names generalizing address with
  | nil => simp [formalBindings] at h
  | cons name names ih =>
    rcases List.mem_cons.1 h with rfl | h
    · exact ⟨rfl, List.mem_cons_self⟩
    · exact ⟨(ih h).1, List.mem_cons_of_mem _ (ih h).2⟩

theorem storage_globalBindings {b : Binding} {place : Int} {names : List String} (h : b ∈ globalBindings place names) :
    b.storage = .global := by
  induction names generalizing place with
  | nil => simp [globalBindings] at h
  | cons name names ih =>
    rcases List.mem_cons.1 h with rfl | h
    exacts [rfl, ih h]

/-- what a function captures is a cell of a global or a copy, as it was where the function is made -/
theorem mem_captureBindings {ρ : Scope} {depth place : Int} {names : List String} {shared : List (String × Bool)}
    {c : Code Op} {b : Binding} (h : Pushed ρ depth names shared c) (hb : b ∈ captureBindings place shared) :
    b.name ∈ names ∧ ∃ b', ρ b.name = some b' ∧
      b.storage = if b'.storage = .global then .global else .captured := by
  induction h generalizing place with
  | nil => simp [captureBindings] at hb
  | @cons depth name names b' later shared hname hrest ih =>
    rcases List.mem_cons.1 hb with rfl | hb
    · refine ⟨List.mem_cons_self, b', hname, ?_⟩
      by_cases hs : b'.storage = .global <;> simp [hs]
    · obtain ⟨hmem, hb'⟩ := ih hb
      exact ⟨List.mem_cons_of_mem _ hmem, hb'⟩

namespace Tells

variable {ρ : Scope} {own outer own' : List String}

theorem block (h : Tells ρ own outer) {names : List String} {depth : Int}
    (hown : ∀ x, x ∈ own' ↔ x ∈ names ∨ x ∈ own) : Tells (ρ.extend (blockBindings depth names)) own' outer := by
  intro x b hb
  rw [Scope.extend] at hb
  split at hb
  · rename_i found hfound
    obtain rfl : found = b := Option.some.inj hb
    obtain ⟨hstorage, hname⟩ := mem_blockBindings (List.mem_of_find?_eq_some hfound)
    have hx : found.name = x := by simpa using List.find?_some hfound
    simp [hstorage, hown, ← hx, hname]
  · rename_i hnone
    have hx : x ∉ names := by
      intro hx
      rw [← map_name_blockBindings depth names] at hx
      obtain ⟨found, hfound, rfl⟩ := List.mem_map.1 hx
      simpa using List.find?_eq_none.1 hnone found hfound
    simpa [hown, hx] using h hb

/-- the body of a function is a place of its own -/
theorem function (h : Tells ρ own outer) {params names : List String} {depth : Int} {shared : List (String × Bool)}
    {c : Code Op} (hp : Pushed ρ depth names shared c) (hnames : ∀ x ∈ names, x ∉ params) :
    Tells (functionScope params shared) params (own ++ outer) := by
  intro x b hb
  obtain ⟨hmem, rfl⟩ := Scope.mem_of_extend_empty hb
  rcases List.mem_append.1 hmem with hmem | hmem
  · obtain ⟨hname, b', hb', hstorage⟩ := mem_captureBindings hp hmem
    obtain ⟨-, hglobal⟩ := h hb'
    by_cases hs : b'.storage = .global
    · obtain ⟨hown, houter⟩ := hglobal.1 hs
      simp [hstorage, hs, hnames _ hname, hown, houter]
    · have hbound : b.name ∈ own ∨ b.name ∈ outer := by
        by_contra hnot
        rw [not_or] at hnot
        exact hs (hglobal.2 hnot)
      simpa [hstorage, hs, hnames _ hname, ← or_iff_not_imp_left] using hbound
  · obtain ⟨hstorage, hname⟩ := mem_formalBindings hmem
    simp [hstorage, hname]

end Tells

section
variable {d : Draft Op} {s : ScopeId} {ρ : Scope} {depth : Int}

theorem exists_capture {names : List String} (hd : Shows d s ρ) :
    (∃ a d', capture s depth names d = .ok a d') ↔ ∀ x ∈ names, (ρ x).isSome := by
  induction names generalizing depth with
  | nil => exact ⟨fun _ => by simp, fun _ => ⟨_, _, rfl⟩⟩
  | cons name names ih =>
    rw [List.forall_mem_cons, ← ih]
    constructor
    · rintro ⟨a, d', h⟩
      obtain ⟨b, d₁, h₁, h⟩ := Gen.bind_ok.1 h
      obtain ⟨later, d₂, h₂, -⟩ := Gen.bind_ok.1 h
      obtain ⟨rfl, hb⟩ := Gen.lookup_ok.1 h₁
      rw [hd.sees] at hb
      exact ⟨by rw [hb]; rfl, later, d₂, h₂⟩
    · rintro ⟨hsome, later, d', h⟩
      obtain ⟨b, hb⟩ := Option.isSome_iff_exists.1 hsome
      exact ⟨_, d', Gen.bind_ok.2 ⟨b, d, Gen.lookup_ok.2 ⟨rfl, by rw [hd.sees, hb]⟩, Gen.bind_ok.2 ⟨later, d', h, rfl⟩⟩⟩

theorem accepts_sequence {items : List Expr} {P : Expr → Prop} (ih : ∀ e ∈ items, Accepts s ρ (code s depth e) (P e)) :
    Accepts s ρ (sequence s depth items) (items ≠ [] ∧ ∀ e ∈ items, P e) := by
  induction items with
  | nil => exact (Accepts.throw _).congr (by simp)
  | cons item rest ihr =>
    have hitem := ih item List.mem_cons_self
    cases rest with
    | nil => exact hitem.congr (by simp)
    | cons next rest =>
      exact (hitem.bind fun _ => (ihr fun e he => ih e (List.mem_cons_of_mem _ he)).map _).congr (by simp)

theorem accepts_optional {e : Option Expr} {P : Expr → Prop}
    (ih : ∀ part ∈ e.toList, Accepts s ρ (code s depth part) (P part)) :
    Accepts s ρ (optional s depth e) (∀ part ∈ e.toList, P part) := by
  cases e with
  | none => exact (Accepts.pure _).congr (by simp)
  | some part => exact (ih part (by simp)).congr (by simp)

theorem accepts_initial {bindings : List (String × Expr)} {P : Expr → Prop}
    (ih : ∀ b ∈ bindings, Accepts s ρ (code s depth b.2) (P b.2)) :
    Accepts s ρ (initial s depth bindings) (∀ b ∈ bindings, P b.2) := by
  induction bindings with
  | nil => exact (Accepts.pure _).congr (by simp)
  | cons binding rest ihr =>
    refine ((ih binding List.mem_cons_self).bind fun _ =>
      (ihr fun b hb => ih b (List.mem_cons_of_mem _ hb)).map _).congr ?_
    rw [List.forall_mem_cons]

theorem accepts_arguments {args : List Expr} {P : Expr → Prop}
    (ih : ∀ e ∈ args, ∀ depth, Accepts s ρ (code s depth e) (P e)) (depth : Int) :
    Accepts s ρ (arguments s depth args) (∀ e ∈ args, P e) := by
  induction args generalizing depth with
  | nil => exact (Accepts.pure _).congr (by simp)
  | cons arg rest ihr =>
    exact ((ih arg List.mem_cons_self depth).bind fun _ =>
      (ihr (fun e he => ih e (List.mem_cons_of_mem _ he)) (depth + 1)).map _).congr (by simp)

theorem accepts_function {params captures : List String} {body : ScopeId → Gen Op (Code Op)} {P : Prop}
    (hlabels : ∀ frame, Balanced (body frame))
    (hb : ∀ frame shared pushed, Pushed ρ depth captures shared pushed →
      Accepts frame (functionScope params shared) (body frame) P) :
    Accepts s ρ (function s depth params captures body)
      ((∀ x ∈ captures, (ρ x).isSome) ∧ (captures ++ params).Nodup ∧ P) := by
  refine .reading (R := fun made => Pushed ρ depth captures made.2 made.1) (fun d hd => exists_capture hd)
    (fun d made d' hd h => ?_) fun made hmade => ?_
  · obtain ⟨rfl, hpushed⟩ := capture_ok h
    exact ⟨rfl, hd.sees ▸ hpushed⟩
  · have hnames : (captureBindings 0 made.2 ++ formalBindings (1 - params.length) params).map Binding.name =
        captures ++ params := by
      rw [List.map_append, map_name_captureBindings, map_name_formalBindings, map_fst_of_pushed hmade]
    rw [← hnames]
    exact .literal (fun _ _ => rfl) hlabels fun frame => hb frame made.2 made.1 hmade

theorem accepts_zeroedBlock {names : List String} {body : ScopeId → Gen Op (Code Op)} {P : Prop}
    (hb : ∀ inner, Accepts inner (ρ.extend (blockBindings 0 names)) (body inner) P) :
    Accepts s ρ (zeroedBlock s names body) (names.Nodup ∧ P) := by
  have h := Accepts.openScope (s := s) fun inner => (hb inner).map fun result =>
    [.own (.alloc names.length)] ++ zeroedBlock.zeros names.length ++ result ++ [.own (.slide names.length)]
  rwa [map_name_blockBindings] at h

/-- what a function sees: its parameters and all that it captures -/
theorem isSome_functionScope {params captures : List String} {shared : List (String × Bool)} {c : Code Op} {x : String}
    (h : Pushed ρ depth captures shared c) :
    (functionScope params shared x).isSome ↔ x ∈ captures ∨ x ∈ params := by
  rw [functionScope, Scope.isSome_extend, List.map_append, map_name_captureBindings, map_name_formalBindings,
    map_fst_of_pushed h, List.mem_append]
  simp [Scope.empty]

end

/-! ## Expressions -/

/-- all names stand for something, they are in order, and no assignment reaches out of its function -/
def Acceptable (ρ : Scope) (own outer : List String) (e : Expr) : Prop := e.ResolvesIn ρ ∧ e.assignsWithin own outer

section
variable {ρ ρ' : Scope} {own outer : List String} {e : Expr}

theorem acceptable_iff (hf : e.isFunction = false) (hρ : ∀ x, (ρ' x).isSome ↔ x ∈ e.binders ∨ (ρ x).isSome) :
    Acceptable ρ own outer e ↔ (∀ x, (e = .var x ∨ ∃ value, e = .assign x value) → (ρ x).isSome) ∧
      (∀ name value, e = .assign name value → name ∈ own ∨ name ∉ outer) ∧ e.distinctNames ∧
        ∀ part ∈ e.children, Acceptable ρ' (e.binders ++ own) outer part := by
  rw [Acceptable, Expr.resolvesIn_iff hρ, Expr.assignsWithin_iff, Expr.ownInside, Expr.outerInside]
  simp only [Acceptable, hf, Bool.false_eq_true, if_false, forall_and]
  tauto

theorem acceptable_iff_of_binders (hf : e.isFunction = false) (hb : e.binders = []) :
    Acceptable ρ own outer e ↔ (∀ x, (e = .var x ∨ ∃ value, e = .assign x value) → (ρ x).isSome) ∧
      (∀ name value, e = .assign name value → name ∈ own ∨ name ∉ outer) ∧ e.distinctNames ∧
        ∀ part ∈ e.children, Acceptable ρ own outer part := by
  have hρ : ∀ x, (ρ x).isSome ↔ x ∈ e.binders ∨ (ρ x).isSome := by simp [hb]
  rw [acceptable_iff hf hρ, hb, List.nil_append]

end

/-- an assignment is no assignment to a copy just when its target is not bound outside the function -/
theorem Tells.assign {ρ : Scope} {own outer : List String} {x : String} {b : Binding} (h : Tells ρ own outer)
    (hb : ρ x = some b) : b.storage ≠ .captured ↔ x ∈ own ∨ x ∉ outer := by
  rw [Ne, (h hb).1]
  tauto

theorem acceptable_function {ρ : Scope} {own outer : List String} {e body : Expr} (hbody : e.children = [body])
    (hf : e.isFunction) : Acceptable ρ own outer e ↔ (∀ x ∈ unbound e.binders body.uses, (ρ x).isSome) ∧
      e.distinctNames ∧ body.everywhere Expr.distinctNames ∧ body.assignsWithin e.binders (own ++ outer) := by
  rw [Acceptable, Expr.resolvesIn_function hbody hf, Expr.assignsWithin_iff, hbody, List.forall_mem_singleton,
    Expr.ownInside, Expr.outerInside, if_pos hf, if_pos hf]
  have hroot : ∀ name value, e = .assign name value → name ∈ own ∨ name ∉ outer := by
    rintro name value rfl
    cases hf
  rw [and_iff_right hroot, and_assoc, and_assoc]

section
variable {s : ScopeId} {ρ : Scope} {own outer : List String} {depth : Int} {e body : Expr} {params : List String}

/-- a function literal without locals -/
theorem accepts_plain (hbody : e.children = [body]) (hf : e.isFunction) (hbinders : e.binders = params)
    (hdistinct : e.distinctNames = decide params.Nodup) (hρ : Tells ρ own outer)
    (ih : ∀ s ρ own outer depth, Tells ρ own outer → Accepts s ρ (code s depth body) (Acceptable ρ own outer body)) :
    Accepts s ρ (function s depth params (body.captures params) fun frame => code frame 0 body)
      (Acceptable ρ own outer e) := by
  have hfunction : Accepts s ρ (function s depth params (body.captures params) fun frame => code frame 0 body)
      ((∀ x ∈ body.captures params, (ρ x).isSome) ∧ (body.captures params ++ params).Nodup ∧
        body.everywhere Expr.distinctNames ∧ body.assignsWithin params (own ++ outer)) := by
    refine accepts_function (fun frame => balanced_code body frame 0) fun frame shared pushed hp => ?_
    refine (ih frame _ params (own ++ outer) 0 (hρ.function hp fun x hx => (Expr.mem_captures.1 hx).1)).congr ?_
    rw [Acceptable, Expr.resolvesIn_of_uses fun x hx => ?_]
    rw [isSome_functionScope hp, Expr.mem_captures]
    tauto
  refine hfunction.congr ?_
  rw [acceptable_function hbody hf, hbinders, hdistinct, List.nodup_append_comm, Expr.captures,
    nodup_append_unbound body.nodup_freeNames]
  simp [mem_unbound, Expr.mem_freeNames]

/-- a procedure with locals -/
theorem accepts_withLocals {locals : List String} (hρ : Tells ρ own outer)
    (ih : ∀ s ρ own outer depth, Tells ρ own outer → Accepts s ρ (code s depth body) (Acceptable ρ own outer body)) :
    Accepts s ρ (function s depth params (unbound params (unbound locals body.freeNames)) fun frame =>
      zeroedBlock frame locals fun inner => code inner locals.length body)
      (Acceptable ρ own outer (.proc params locals body)) := by
  have hcaptures (x : String) : x ∈ unbound params (unbound locals body.freeNames) ↔
      x ∉ params ∧ x ∉ locals ∧ x ∈ body.uses := by rw [mem_unbound, mem_unbound, Expr.mem_freeNames]
  have hfunction : Accepts s ρ (function s depth params (unbound params (unbound locals body.freeNames)) fun frame =>
      zeroedBlock frame locals fun inner => code inner locals.length body)
      ((∀ x ∈ unbound params (unbound locals body.freeNames), (ρ x).isSome) ∧
        (unbound params (unbound locals body.freeNames) ++ params).Nodup ∧ locals.Nodup ∧
          body.everywhere Expr.distinctNames ∧ body.assignsWithin (params ++ locals) (own ++ outer)) := by
    refine accepts_function (fun frame => balanced_zeroedBlock fun inner => balanced_code body inner _)
      fun frame shared pushed hp => accepts_zeroedBlock fun inner => ?_
    have htells : Tells ((functionScope params shared).extend (blockBindings 0 locals)) (params ++ locals)
        (own ++ outer) :=
      (hρ.function hp fun x hx => ((hcaptures x).1 hx).1).block fun x => List.mem_append.trans or_comm
    refine (ih inner _ _ _ _ htells).congr ?_
    rw [Acceptable, Expr.resolvesIn_of_uses fun x hx => ?_]
    rw [Scope.isSome_extend, map_name_blockBindings, isSome_functionScope hp, hcaptures]
    tauto
  refine hfunction.congr ?_
  rw [acceptable_function (e := .proc params locals body) rfl rfl, List.nodup_append_comm,
    nodup_append_unbound (nodup_unbound body.nodup_freeNames)]
  simp [hcaptures, mem_unbound, Expr.distinctNames, Expr.binders, and_assoc]

end

/-- **Expressions.** The code of an expression is generated just when its names are in order and stand for something, and
no assignment reaches out of its function. -/
theorem accepts_code (e : Expr) : ∀ s ρ own outer depth, Tells ρ own outer →
    Accepts s ρ (code s depth e) (Acceptable ρ own outer e) := by
  refine Expr.byParts (motive := fun e => ∀ s ρ own outer depth, Tells ρ own outer →
    Accepts s ρ (code s depth e) (Acceptable ρ own outer e)) (fun e ih => ?_) e
  intro s ρ own outer depth hρ
  cases e with
  | number value =>
    refine (Accepts.pure _).congr ?_
    simp [acceptable_iff_of_binders (e := .number value) rfl rfl, Expr.distinctNames, Expr.children]
  | bool value =>
    refine (Accepts.pure _).congr ?_
    simp [acceptable_iff_of_binders (e := .bool value) rfl rfl, Expr.distinctNames, Expr.children]
  | var name =>
    refine (Accepts.lookup fun _ _ => .pure _).congr ?_
    simp [acceptable_iff_of_binders (e := .var name) rfl rfl, Expr.distinctNames, Expr.children]
  | unary op operand =>
    refine ((ih operand (by simp [Expr.children]) s ρ own outer depth hρ).map _).congr ?_
    simp [acceptable_iff_of_binders (e := .unary op operand) rfl rfl, Expr.distinctNames, Expr.children]
  | binary op lhs rhs =>
    refine ((ih lhs (by simp [Expr.children]) s ρ own outer depth hρ).bind fun _ =>
      (ih rhs (by simp [Expr.children]) s ρ own outer (depth + 1) hρ).map _).congr ?_
    simp [acceptable_iff_of_binders (e := .binary op lhs rhs) rfl rfl, Expr.distinctNames, Expr.children]
  | assign name value =>
    have hvalue (b : Binding) : Accepts s ρ (code s depth value >>= fun pushed => pure (pushed ++ update depth b))
        (Acceptable ρ own outer value) := (ih value (by simp [Expr.children]) s ρ own outer depth hρ).map _
    have hassign : Accepts s ρ (code s depth (.assign name value))
        ((ρ name).isSome ∧ (name ∈ own ∨ name ∉ outer) ∧ Acceptable ρ own outer value) := by
      refine Accepts.lookup fun b hb => ?_
      by_cases hs : b.storage = .captured
      · rw [if_pos hs]
        refine ((Accepts.throw _).bind fun _ => hvalue b).congr ?_
        simp [← hρ.assign hb, hs]
      · rw [if_neg hs]
        refine (hvalue b).congr ?_
        simp [← hρ.assign hb, hs]
    refine hassign.congr ?_
    simp [acceptable_iff_of_binders (e := .assign name value) rfl rfl, Expr.distinctNames, Expr.children]
  | seq items =>
    refine (accepts_sequence fun e he => ih e he s ρ own outer depth hρ).congr ?_
    simp [acceptable_iff_of_binders (e := .seq items) rfl rfl, Expr.distinctNames, Expr.children]
  | ite cond thenBranch elseBranch =>
    refine (Accepts.ifThenElse (ih cond (by simp [Expr.children]) s ρ own outer depth hρ)
      (ih thenBranch (by simp [Expr.children]) s ρ own outer depth hρ)
      (accepts_optional fun part hp => ih part (by simp_all [Expr.children]) s ρ own outer depth hρ)).congr ?_
    simp [acceptable_iff_of_binders (e := .ite cond thenBranch elseBranch) rfl rfl, Expr.distinctNames, Expr.children]
  | whileDo cond body =>
    refine (Accepts.whileDo (ih cond (by simp [Expr.children]) s ρ own outer (depth + 1) hρ)
      (ih body (by simp [Expr.children]) s ρ own outer depth hρ)).congr ?_
    simp [acceptable_iff_of_binders (e := .whileDo cond body) rfl rfl, Expr.distinctNames, Expr.children]
  | doWhile body cond =>
    refine (Accepts.doWhile (ih body (by simp [Expr.children]) s ρ own outer depth hρ)
      (ih cond (by simp [Expr.children]) s ρ own outer (depth + 1) hρ)).congr ?_
    simp [acceptable_iff_of_binders (e := .doWhile body cond) rfl rfl, Expr.distinctNames, Expr.children]
  | loop count body =>
    refine (Accepts.countedLoop (ih count (by simp [Expr.children]) s ρ own outer (depth + 1) hρ)
      (ih body (by simp [Expr.children]) s ρ own outer (depth + 1) hρ)).congr ?_
    simp [acceptable_iff_of_binders (e := .loop count body) rfl rfl, Expr.distinctNames, Expr.children]
  | block bindings body =>
    have hinner (x : String) : (ρ.extend (blockBindings depth (bindings.map Prod.fst)) x).isSome ↔
        x ∈ bindings.map Prod.fst ∨ (ρ x).isSome := by rw [Scope.isSome_extend, map_name_blockBindings]
    have htells : Tells (ρ.extend (blockBindings depth (bindings.map Prod.fst))) (bindings.map Prod.fst ++ own) outer :=
      hρ.block fun x => List.mem_append
    refine (Accepts.openScope fun inner => (accepts_initial fun b hb =>
      ih b.2 (List.mem_cons_of_mem _ (List.mem_map_of_mem hb)) inner _ _ _ _ htells).bind fun _ =>
        (ih body (by simp [Expr.children]) inner _ _ _ _ htells).map _).congr ?_
    rw [acceptable_iff (e := .block bindings body) rfl hinner, map_name_blockBindings, Expr.children,
      List.forall_mem_cons, List.forall_mem_map]
    simp [Expr.distinctNames, Expr.binders, and_comm]
  | lambda params body => exact accepts_plain rfl rfl rfl rfl hρ (ih body (by simp [Expr.children]))
  | proc params locals body =>
    cases locals with
    | nil =>
      exact accepts_plain (e := .proc params [] body) rfl rfl (List.append_nil params)
        (by simp [Expr.distinctNames]) hρ (ih body (by simp [Expr.children]))
    | cons first rest => exact accepts_withLocals hρ (ih body (by simp [Expr.children]))
  | call callee args =>
    refine (Accepts.fresh fun _ => (accepts_arguments
      (fun e he depth => ih e (List.mem_cons_of_mem _ he) s ρ own outer depth hρ) _).bind fun _ =>
        (ih callee (by simp [Expr.children]) s ρ own outer _ hρ).map _).congr ?_
    simp [acceptable_iff_of_binders (e := .call callee args) rfl rfl, Expr.distinctNames, Expr.children, and_comm]

/-- **Programs.** An expression has a program just when each free name is assigned somewhere, its names are in order and
no assignment reaches out of its function. -/
theorem exists_compile {e : Expr} : (∃ p, compile .closure e = .ok p) ↔
    ((∀ x ∈ e.uses, x ∈ e.assigns) ∧ e.everywhere Expr.distinctNames) ∧ e.assignsWithin [] [] := by
  have hnodup : ((globalBindings 0 e.globalNames).map Binding.name).Nodup := by
    rw [map_name_globalBindings]
    exact e.nodup_globalNames
  have hglobals (x : String) : (Scope.empty.extend (globalBindings 0 e.globalNames) x).isSome ↔
      x ∈ e.uses ∧ x ∈ e.assigns := by
    rw [Scope.isSome_extend, map_name_globalBindings, Expr.mem_globalNames]
    simp [Scope.empty]
  have htells : Tells (Scope.empty.extend (globalBindings 0 e.globalNames)) [] [] := by
    intro x b hb
    have hstorage : b.storage = .global := storage_globalBindings (Scope.mem_of_extend_empty hb).1
    simp [hstorage]
  refine exists_compile_iff.trans ((exists_program_iff hnodup (accepts_code e _ _ [] [] 0 htells) .new).trans ?_)
  rw [Acceptable, Expr.ResolvesIn]
  simp +contextual [hglobals]

end ThreeMachines.Closure

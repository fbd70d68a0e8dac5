/-
Evaluation without functions.

Where all variables hold numbers, an expression that neither makes nor calls a function comes to a number and leaves
numbers in the variables, unless a division has no result (`ordinary_eval`). It never meets a value of the wrong kind.

- `Expr.counted`: every loop says beforehand how often it runs. Then a fuel as large as the expression suffices.
- `Expr.Means`: what a program comes to, or that no fuel brings it to an end; a program without functions has exactly one
  meaning (`exists_meaning`), and the order in which calls are evaluated has no part in it (`Means.of_order`).
-/
import ThreeMachines.Proofs.Evaluation
import ThreeMachines.Proofs.Expressions
import ThreeMachines.Proofs.Instructions

namespace ThreeMachines

/-- all variables hold numbers -/
def Store.Numeric (σ : Store) : Prop := ∀ x, ∃ n, σ.value x = .int n

theorem Store.Numeric.write {σ : Store} (h : σ.Numeric) (x : Variable) (n : Int) : (σ.write x (.int n)).Numeric := by
  intro y
  rw [Store.write]
  by_cases hy : y = x
  · exact ⟨n, if_pos hy⟩
  · simpa only [if_neg hy] using h y

/-- a quotient that does not exist -/
def Fault.ofDivision (cause : Fault) : Prop := cause = .divisionByZero ∨ cause = .overflow

namespace Eval

variable {α β : Type} {cut : Prop} {P : α → Prop} {Q : β → Prop}

/-- a result with `P` and numbers in the variables, or the fault of a division; `cut` if the fuel has run out -/
def Plain (cut : Prop) (P : α → Prop) : EStateM.Result Trouble Store α → Prop
  | .ok v σ => P v ∧ σ.Numeric
  | .error (.fault cause) _ => cause.ofDivision
  | .error .outOfFuel _ => cut
  | .error .wrongKind _ | .error .arity _ => False

/-- from numbers the evaluation comes to a plain result -/
def Ordinary (cut : Prop) (P : α → Prop) (x : Eval α) : Prop := ∀ σ : Store, σ.Numeric → Plain cut P (x σ)

/-- a value that is a number -/
def IsNumber (v : Value) : Prop := ∃ n, v = .int n

namespace Ordinary

theorem pure {v : α} (h : P v) : Ordinary cut P (pure v) := fun _ hσ => ⟨h, hσ⟩

theorem bind {x : Eval α} {f : α → Eval β} (hx : x.Ordinary cut P) (hf : ∀ v, P v → (f v).Ordinary cut Q) :
    (x >>= f).Ordinary cut Q := by
  intro σ hσ
  have hfirst := hx σ hσ
  rw [bind_apply]
  match x σ, hfirst with
  | .ok v σ', ⟨hv, hσ'⟩ => exact hf v hv σ' hσ'
  | .error (.fault _) _, h => exact h
  | .error .outOfFuel _, h => exact h

theorem weaken {cut' : Prop} {x : Eval α} (hx : x.Ordinary cut P) (h : cut → cut') : x.Ordinary cut' P := by
  intro σ hσ
  have hfirst := hx σ hσ
  match x σ, hfirst with
  | .ok v σ', hv => exact hv
  | .error (.fault _) _, hd => exact hd
  | .error .outOfFuel _, hc => exact h hc

theorem outOfFuel (h : cut) : Ordinary cut P (throw .outOfFuel) := fun _ _ => h

theorem read (x : Variable) : Ordinary cut IsNumber (Eval.read x) := fun _ hσ => ⟨hσ x, hσ⟩

theorem write (x : Variable) {v : Value} (hv : IsNumber v) : Ordinary cut (fun _ => True) (Eval.write x v) := by
  obtain ⟨n, rfl⟩ := hv
  exact fun _ hσ => ⟨trivial, hσ.write x n⟩

theorem word {v : Value} (hv : IsNumber v) : Ordinary cut (fun _ => True) (Eval.word v) := by
  obtain ⟨n, rfl⟩ := hv
  exact .pure trivial

theorem number {x : Eval Value} (hx : x.Ordinary cut IsNumber) :
    Ordinary cut (fun _ => True) (do Eval.word (← x)) :=
  hx.bind fun _ hv => word hv

theorem bindNumber {x : Eval Value} {f : Int → Eval β} (hx : x.Ordinary cut IsNumber)
    (hf : ∀ n, (f n).Ordinary cut Q) : Ordinary cut Q (do f (← Eval.word (← x))) :=
  hx.bind fun _ hv => (word hv).bind fun n _ => hf n

/-- only a quotient may fail to exist -/
theorem arithmetic (op : BinaryOp) (m n : Int) : Ordinary cut IsNumber (Eval.arithmetic (op.eval m n)) := by
  cases op with
  | div =>
    rw [BinaryOp.eval, quotient]
    by_cases hn : n = 0
    · rw [if_pos hn]
      exact fun _ _ => .inl rfl
    · rw [if_neg hn]
      split
      · exact fun _ _ => .inr rfl
      · exact .pure ⟨_, rfl⟩
  | _ => exact .pure ⟨_, rfl⟩

theorem extend {fresh : Nat → Int} (names : List String) (env : Env) :
    Ordinary cut (fun _ => True) (Eval.extend env (names.map fun name => (name, fun i => .int (fresh i)))) := by
  induction names generalizing env with
  | nil => exact .pure trivial
  | cons name names ih =>
    refine bind (P := fun _ => True) (fun σ hσ => ⟨trivial, ?_⟩) fun i _ => ih _
    exact hσ.write (.cell σ.next) (fresh σ.next)

theorem items {ev : Expr → Eval Value} {es : List Expr} (h : ∀ e ∈ es, (ev e).Ordinary cut IsNumber) {last : Value}
    (hlast : IsNumber last) : Ordinary cut IsNumber (Eval.items ev last es) := by
  induction es generalizing last with
  | nil => exact .pure hlast
  | cons e es ih =>
    exact (h e List.mem_cons_self).bind fun v hv => ih (fun e' he => h e' (List.mem_cons_of_mem _ he)) hv

theorem bindings {ev : Expr → Eval Value} {env : Env} {bs : List (String × Expr)}
    (h : ∀ b ∈ bs, (ev b.2).Ordinary cut IsNumber) : Ordinary cut (fun _ => True) (Eval.bindings ev env bs) := by
  induction bs with
  | nil => exact .pure trivial
  | cons b bs ih =>
    exact (h b List.mem_cons_self).bind fun v hv =>
      (write _ hv).bind fun _ _ => ih fun b' hb => h b' (List.mem_cons_of_mem _ hb)

section
variable {cond : Eval Int} {body : Eval Value}

theorem whileDo (hcut : cut) (hcond : cond.Ordinary cut fun _ => True) (hbody : body.Ordinary cut IsNumber)
    (fuel : Nat) {last : Value} (hlast : IsNumber last) : Ordinary cut IsNumber (Eval.whileDo cond body fuel last) := by
  induction fuel generalizing last with
  | zero => exact .outOfFuel hcut
  | succ fuel ih =>
    refine hcond.bind fun n _ => ?_
    split
    · exact hbody.bind fun v hv => ih hv
    · exact .pure hlast

theorem doWhile (hcut : cut) (hcond : cond.Ordinary cut fun _ => True) (hbody : body.Ordinary cut IsNumber)
    (fuel : Nat) : Ordinary cut IsNumber (Eval.doWhile body cond fuel) := by
  induction fuel with
  | zero => exact .outOfFuel hcut
  | succ fuel ih =>
    refine hbody.bind fun v hv => hcond.bind fun n _ => ?_
    split
    · exact ih
    · exact .pure hv

/-- a counted loop is never cut off by itself -/
theorem loop (hbody : body.Ordinary cut IsNumber) (count : Nat) {last : Value} (hlast : IsNumber last) :
    Ordinary cut IsNumber (Eval.loop body count last) := by
  induction count generalizing last with
  | zero => exact .pure hlast
  | succ count ih => exact hbody.bind fun v hv => ih hv

end
end Ordinary
end Eval

namespace Expr

/-- every loop says beforehand how often it runs -/
def counted (e : Expr) : Bool :=
  e.everywhere fun
    | whileDo _ _ | doWhile _ _ => false
    | _ => true

variable {conv : Convention} {e : Expr} {fuel : Nat}

/-- the evaluation may be cut off: the fuel is smaller than the expression, or there are loops without a count -/
def MayExhaust (e : Expr) (fuel : Nat) : Prop := e.counted → fuel < sizeOf e

theorem MayExhaust.of_child {part : Expr} (hp : part ∈ e.children) (h : part.MayExhaust fuel) :
    e.MayExhaust (fuel + 1) := by
  intro hc
  have := h (everywhere_child hc hp)
  have := sizeOf_child hp
  omega

/-- **Evaluation without functions** comes to a number if no division fails and the fuel suffices. -/
theorem ordinary_eval (hf : e.functionFree) (env : Env) :
    (e.eval conv fuel env).Ordinary (e.MayExhaust fuel) Eval.IsNumber := by
  induction fuel generalizing e env with
  | zero =>
    refine .outOfFuel fun _ => ?_
    cases e <;> simp
  | succ fuel ih =>
    have hpart : ∀ part ∈ e.children, ∀ env,
        (part.eval conv fuel env).Ordinary (e.MayExhaust (fuel + 1)) Eval.IsNumber :=
      fun part hp env => (ih (everywhere_child hf hp) env).weaken (.of_child hp)
    cases e with
    | number | bool => exact .pure ⟨_, rfl⟩
    | var name => exact .read _
    | unary op operand =>
      exact (hpart operand (by simp [children]) env).bindNumber fun n => .pure ⟨_, rfl⟩
    | binary op lhs rhs =>
      exact (hpart lhs (by simp [children]) env).bindNumber fun m =>
        (hpart rhs (by simp [children]) env).bindNumber fun n => .arithmetic op m n
    | assign name value =>
      exact (hpart value (by simp [children]) env).bind fun v hv => (Eval.Ordinary.write _ hv).bind fun _ _ => .pure hv
    | seq items => exact .items (fun e he => hpart e he env) ⟨0, rfl⟩
    | ite cond thenBranch elseBranch =>
      refine (hpart cond (by simp [children]) env).bindNumber fun n => ?_
      split
      · exact hpart thenBranch (by simp [children]) env
      · cases elseBranch with
        | none => exact .pure ⟨0, rfl⟩
        | some other => exact hpart other (by simp [children]) env
    | whileDo cond body =>
      exact .whileDo (fun hc => nomatch everywhere_self hc) (hpart cond (by simp [children]) env).number
        (hpart body (by simp [children]) env) fuel ⟨0, rfl⟩
    | doWhile body cond =>
      exact .doWhile (fun hc => nomatch everywhere_self hc) (hpart cond (by simp [children]) env).number
        (hpart body (by simp [children]) env) fuel
    | loop count body =>
      exact (hpart count (by simp [children]) env).bindNumber fun n =>
        .loop (hpart body (by simp [children]) env) _ ⟨0, rfl⟩
    | block bindings body =>
      have hvalue : ∀ b ∈ bindings, b.2 ∈ (block bindings body).children := fun b hb =>
        List.mem_cons_of_mem _ (List.mem_map_of_mem hb)
      have hnew : Eval.Ordinary ((block bindings body).MayExhaust (fuel + 1)) (fun _ => True)
          (Eval.extend env ((bindings.map Prod.fst).map fun name => (name, fun i => .int (conv.fresh i)))) :=
        Eval.Ordinary.extend (bindings.map Prod.fst) env
      rw [List.map_map] at hnew
      exact hnew.bind fun inner _ => (Eval.Ordinary.bindings fun b hb => hpart b.2 (hvalue b hb) inner).bind fun _ _ =>
        hpart body List.mem_cons_self inner
    | lambda | proc | call => cases everywhere_self hf

/-! ## What a program comes to -/

/-- the number or the fault that a program yields, or nothing if no fuel brings it to an end -/
def Means (conv : Convention) (e : Expr) : Option (Except Fault Int) → Prop
  | some result => e.Yields conv result
  | none => ∀ fuel, evaluate conv fuel e = .error .outOfFuel

/-- a number, or a division without a result -/
def IsArithmetic : Except Fault Int → Prop
  | .ok _ => True
  | .error cause => cause.ofDivision

/-- without functions an evaluation is cut off or comes to a number or to a division without a result -/
theorem evaluate_cases (hf : e.functionFree) (conv : Convention) (fuel : Nat) :
    (∃ result, IsArithmetic result ∧ evaluate conv fuel e = result.mapError Trouble.fault) ∨
      e.MayExhaust fuel ∧ evaluate conv fuel e = .error .outOfFuel := by
  have heval : (e.eval conv fuel []).Ordinary (e.MayExhaust fuel) Eval.IsNumber := ordinary_eval hf []
  have h := heval .empty fun _ => ⟨0, rfl⟩
  rw [evaluate]
  match e.eval conv fuel [] .empty, h with
  | .ok _ _, ⟨⟨n, rfl⟩, _⟩ => exact .inl ⟨.ok n, trivial, rfl⟩
  | .error (.fault cause) _, hd => exact .inl ⟨.error cause, hd, rfl⟩
  | .error .outOfFuel _, hc => exact .inr ⟨hc, rfl⟩

/-- **Meaning.** A program without functions comes to a number or to a division without a result, or it goes on. -/
theorem exists_meaning (hf : e.functionFree) (conv : Convention) :
    ∃ o, e.Means conv o ∧ ∀ result ∈ o, IsArithmetic result := by
  by_cases h : ∃ fuel result, IsArithmetic result ∧ evaluate conv fuel e = result.mapError Trouble.fault
  · obtain ⟨fuel, result, ha, hr⟩ := h
    exact ⟨some result, ⟨fuel, hr⟩, by simpa using ha⟩
  · refine ⟨none, fun fuel => ?_, by simp⟩
    rcases evaluate_cases hf conv fuel with ⟨result, ha, hr⟩ | ⟨-, hr⟩
    · exact absurd ⟨fuel, result, ha, hr⟩ h
    · exact hr

/-- a program whose loops are all counted comes to an end -/
theorem Means.of_counted (hf : e.functionFree) (hc : e.counted) {o : Option (Except Fault Int)} (h : e.Means conv o) :
    ∃ result, o = some result := by
  cases o with
  | some result => exact ⟨result, rfl⟩
  | none =>
    rcases evaluate_cases hf conv (sizeOf e) with ⟨result, -, hr⟩ | ⟨hm, -⟩
    · have hcut := h (sizeOf e)
      rw [hr] at hcut
      cases result <;> cases hcut
    · exact absurd (hm hc) (Nat.lt_irrefl _)

/-! ## The order of calls -/

theorem items_congr {ev ev' : Expr → Eval Value} {es : List Expr} (h : ∀ e ∈ es, ev e = ev' e) (last : Value) :
    Eval.items ev last es = Eval.items ev' last es := by
  induction es generalizing last with
  | nil => rfl
  | cons e es ih =>
    simp only [Eval.items, h e List.mem_cons_self, ih fun e' he => h e' (List.mem_cons_of_mem _ he)]

theorem bindings_congr {ev ev' : Expr → Eval Value} {env : Env} {bs : List (String × Expr)}
    (h : ∀ b ∈ bs, ev b.2 = ev' b.2) : Eval.bindings ev env bs = Eval.bindings ev' env bs := by
  induction bs with
  | nil => rfl
  | cons b bs ih =>
    simp only [Eval.bindings, h b List.mem_cons_self, ih fun b' hb => h b' (List.mem_cons_of_mem _ hb)]

/-- without calls the order in which a call evaluates its parts has no part in the evaluation -/
theorem eval_order (hf : e.functionFree) (order : CallOrder) (env : Env) :
    e.eval { conv with order } fuel env = e.eval conv fuel env := by
  induction fuel generalizing e env with
  | zero => rfl
  | succ fuel ih =>
    have hpart : ∀ part ∈ e.children, ∀ env, part.eval { conv with order } fuel env = part.eval conv fuel env :=
      fun part hp => ih (everywhere_child hf hp)
    cases e with
    | number | bool | var => rfl
    | unary op operand => simp only [eval, hpart operand (by simp [children])]
    | binary op lhs rhs => simp only [eval, hpart lhs (by simp [children]), hpart rhs (by simp [children])]
    | assign name value => simp only [eval, hpart value (by simp [children])]
    | seq items => exact items_congr (fun e he => hpart e he env) _
    | ite cond thenBranch elseBranch =>
      cases elseBranch with
      | none => simp only [eval, hpart cond (by simp [children]), hpart thenBranch (by simp [children])]
      | some other =>
        simp only [eval, hpart cond (by simp [children]), hpart thenBranch (by simp [children]),
          hpart other (by simp [children])]
    | whileDo cond body => simp only [eval, hpart cond (by simp [children]), hpart body (by simp [children])]
    | doWhile body cond => simp only [eval, hpart cond (by simp [children]), hpart body (by simp [children])]
    | loop count body => simp only [eval, hpart count (by simp [children]), hpart body (by simp [children])]
    | block bindings body =>
      have hvalues : ∀ inner, Eval.bindings (eval { conv with order } fuel inner) inner bindings =
          Eval.bindings (eval conv fuel inner) inner bindings := fun inner =>
        bindings_congr fun b hb => hpart b.2 (List.mem_cons_of_mem _ (List.mem_map_of_mem hb)) inner
      simp only [eval, hvalues, hpart body List.mem_cons_self]
    | lambda | proc | call => cases everywhere_self hf

theorem Means.of_order {o : Option (Except Fault Int)} (h : e.Means conv o) (hf : e.functionFree) (order : CallOrder) :
    e.Means { conv with order } o := by
  have heq : ∀ fuel, evaluate { conv with order } fuel e = evaluate conv fuel e := fun fuel => by
    rw [evaluate, evaluate, eval_order hf]
  cases o with
  | none => exact fun fuel => (heq fuel).trans (h fuel)
  | some result =>
    obtain ⟨fuel, hr⟩ := h
    exact ⟨fuel, (heq fuel).trans hr⟩

end Expr
end ThreeMachines

/-
The code of the closure machine, one kind of expression after the other.

`Correct image globals junk fuel k` says that the code of every expression follows its evaluation with this fuel, if
its functions may copy what they capture or if it has no functions at all (`Tame`). The lemmas here say of operators,
assignments and sequences that they follow their evaluation if their parts do.
-/
import ThreeMachines.Proofs.Closure.Scopes

namespace ThreeMachines.Closure

open Heap (address)

/-- arguments are evaluated from the first to the last, and the callee after them. Without functions (`junk`) a block
variable starts as the address of its pair, and the passes of a loop are counted down as the machine does it. -/
def convention (globals : Nat) : Bool → Convention
  | false => .usual .calleeLast
  | true => ⟨.calleeLast, fun i => address (3 * globals + 1 + 2 * i), countdown⟩

/-- the expressions whose evaluation the machine follows -/
def Tame : Bool → Expr → Prop
  | false, e => e.capturesByValue
  | true, e => e.functionFree

/-- one word that shows the value -/
abbrev Result (image : Image Op) (globals : List String) (junk : Bool) : World → Value → List Int → Prop :=
  (setting image globals junk).Single (World.Shown junk)

/-- the code of every expression follows its evaluation with this fuel -/
def Correct (image : Image Op) (globals : List String) (junk : Bool) (fuel k : Nat) : Prop :=
  ∀ ⦃w depth env ρ e c⦄, Emits image ρ depth e c → e.Budget fuel k → Tame junk e →
    Scoped globals junk w depth env ρ e →
    (setting image globals junk).Computes image k w [] c (e.eval (convention globals.length junk) fuel env)
      (Result image globals junk)

variable {image : Image Op} {globals : List String} {junk : Bool} {k fuel : Nat} {w : World} {depth : Int} {env : Env}
  {ρ : Scope}

theorem Tame.child {e part : Expr} (h : Tame junk e) (hp : part ∈ e.children) : Tame junk part := by
  cases junk <;> exact Expr.everywhere_child h hp

theorem Tame.junk_eq_false {e : Expr} (h : Tame junk e) (hfun : e.isFunction) : junk = false := by
  cases junk with
  | false => rfl
  | true => rw [Expr.isFunction_of_functionFree h] at hfun; cases hfun

/-- a loop makes as many passes as its counter counts down -/
theorem passes_convention (globals : Nat) {n : Int} (hn : junk = true ∨ isWord n = true) :
    (convention globals junk).passes n = countdown n := by
  cases junk with
  | false => exact (countdown_of_isWord (hn.resolve_left nofun)).symm
  | true => rfl

/-! ## Numbers -/

theorem computes_number {n : Int} (hn : isWord n = true) :
    (setting image globals junk).Computes image k w [] [.loadc (.int n)] (pure (.int n)) (Result image globals junk) :=
  Setting.computes_cons _ (fun _ h => Image.moves_loadc h) (Setting.computes_nil ⟨n, rfl, rfl, .inr hn⟩)

theorem good_binary {op : BinaryOp} {m n r : Int} (hm : junk = true ∨ isWord m = true) (h : op.eval m n = .ok r) :
    junk = true ∨ isWord r = true := hm.imp_right fun hm => isWord_binary hm h

theorem computes_unary {op : UnaryOp} {operand : Expr} {c : Code Op} (hc : Correct image globals junk fuel k)
    (he : Emits image ρ depth operand c) (hb : operand.Budget fuel k) (ht : Tame junk operand)
    (hs : Scoped globals junk w depth env ρ operand) :
    (setting image globals junk).Computes image k w [] (c ++ [.unary op])
      (Expr.eval (convention globals.length junk) (fuel + 1) env (.unary op operand)) (Result image globals junk) := by
  refine Setting.computes_bind_word (hc he hb ht hs) (fun _ _ _ => id) fun w' n hl _ => ?_
  refine Setting.computes_cons _ (fun pc h => ?_) (Setting.computes_nil ⟨_, rfl, rfl, .inr (isWord_unary op n)⟩)
  exact Image.moves_unary (m := w'.mem) h

theorem computes_binary {op : BinaryOp} {lhs rhs : Expr} {left right : Code Op} (hc : Correct image globals junk fuel k)
    (hel : Emits image ρ depth lhs left) (her : Emits image ρ (depth + 1) rhs right)
    (hb : ∀ part ∈ (Expr.binary op lhs rhs).children, part.Budget fuel k) (ht : Tame junk (.binary op lhs rhs))
    (hs : Scoped globals junk w depth env ρ (.binary op lhs rhs)) :
    (setting image globals junk).Computes image k w [] (left ++ right ++ [.binary op])
      (Expr.eval (convention globals.length junk) (fuel + 1) env (.binary op lhs rhs)) (Result image globals junk) := by
  have hlhs : lhs ∈ (Expr.binary op lhs rhs).children := by simp [Expr.children]
  have hrhs : rhs ∈ (Expr.binary op lhs rhs).children := by simp [Expr.children]
  rw [List.append_assoc]
  refine Setting.computes_bind_word (hc hel (hb _ hlhs) (ht.child hlhs) (hs.child hlhs rfl)) (fun _ _ _ => id)
    fun w₁ m hl₁ hm => ?_
  refine Setting.computes_bind_word (hc her (hb _ hrhs) (ht.child hrhs) (((hs.child hrhs rfl).leads hl₁).push m))
    (fun _ _ _ => id) fun w₂ n hl₂ _ => ?_
  exact Setting.computes_binary fun r hr => Setting.computes_nil ⟨r, rfl, rfl, good_binary hm hr⟩

/-! ## Variables -/

theorem computes_var {name : String} {b : Binding} (hb : ρ name = some b)
    (hs : Scoped globals junk w depth env ρ (.var name)) :
    (setting image globals junk).Computes image k w [] (fetch depth b) (Eval.read (env.variable name))
      (Result image globals junk) := by
  refine Setting.computes_of_reaches fun pc σ hp ha => ?_
  obtain ⟨a, hv, hreach⟩ := reaches_fetch hp ha (hs.finds name (by simp [Expr.uses]) List.not_mem_nil b hb)
  exact ⟨_, σ, w, [a], rfl, .refl w, ha, ⟨a, rfl, hv⟩, hreach⟩

/-- the value on top is written into a variable, and stays on top -/
theorem reaches_update {pc : Nat} {b : Binding} {x : Variable} {σ : Store} {v : Value} {a : Int}
    (hnodup : globals.Nodup) (hp : Placed image pc (update depth b)) (hstorage : b.storage ≠ .captured)
    (ha : w.AgreesBut image globals junk (fun _ => False) σ) (hl : Located globals junk w depth b x)
    (hloose : ∀ k, x = .cell k → w.constant k = none) (hv : w.Shown junk v a) :
    ∃ w', World.Leads w w' ∧ w'.AgreesBut image globals junk (fun _ => False) (σ.write x v) ∧
      image.Reaches ⟨pc, w.mem.push a⟩ ⟨pc + (update depth b).length, w'.mem.push a⟩ := by
  cases hl with
  | @stack k i hs hk hi had =>
    have hupdate : update depth b = [.own (.storeloc (depth + 1 - b.address))] := by
      rw [update]
      rcases hs with hs | hs <;> rw [hs]
    rw [hupdate] at hp ⊢
    have hc := hloose k rfl
    have hlt := ha.lt_size hi
    exact ⟨_, World.leads_put hi hc a, ha.put hk hlt (fun j hj => ha.apart j k i hj hi) hc nofun hv,
      (moves_storeloc (m := w.mem) hp.1 (by simp only [World.mem]; omega) hlt).reaches⟩
  | @vector g j flag _ hs hgp hj he =>
    obtain ⟨c, hf, he⟩ := he
    cases he with
    | copied _ _ => exact absurd hs hstorage
    | @shared n name hn =>
      have hupdate : update depth b = [.own (.pushglob b.address), .own .store] := by
        rw [update, hs]
        rfl
      rw [hupdate] at hp ⊢
      have hlt := ha.global_lt (List.getElem?_eq_some_iff.1 hn).1
      exact ⟨_, World.leads_setGlobal w n a, ha.setGlobal hnodup hn hv,
        (moves_pushglob (m := w.mem.push a) hp.1 hgp hj (ha.fixed _ _ hf)).reaches.trans
          (moves_store (m := w.mem) hp.2.1 hlt).reaches⟩

theorem computes_assign {name : String} {b : Binding} {value : Expr} {pushed : Code Op} (hnodup : globals.Nodup)
    (hc : Correct image globals junk fuel k) (hb : ρ name = some b) (hstorage : b.storage ≠ .captured)
    (he : Emits image ρ depth value pushed) (hbud : value.Budget fuel k) (ht : Tame junk value)
    (hs : Scoped globals junk w depth env ρ (.assign name value)) :
    (setting image globals junk).Computes image k w [] (pushed ++ update depth b)
      (Expr.eval (convention globals.length junk) (fuel + 1) env (.assign name value)) (Result image globals junk) := by
  refine Setting.computes_bind (hc he hbud ht (hs.child (by simp [Expr.children]) rfl)) fun w₁ v bs hl₁ hr => ?_
  obtain ⟨a, rfl, hv⟩ := hr
  have hs₁ := hs.leads hl₁
  refine Setting.computes_of_reaches fun pc σ hp ha => ?_
  obtain ⟨w₂, hl₂, ha₂, hreach⟩ := reaches_update hnodup hp hstorage ha
    (hs₁.finds name (by simp [Expr.uses]) List.not_mem_nil b hb)
    (fun k hk => hs₁.loose name (by simp [Expr.assigns]) List.not_mem_nil b k hb hstorage hk) hv
  exact ⟨v, _, w₂, [a], rfl, hl₂, ha₂, ⟨a, rfl, hv.knows hl₂.grows.knows⟩, hreach⟩

/-! ## Sequences, branches and loops -/

theorem computes_sequence {items : List Expr} {c : Code Op} (hc : Correct image globals junk fuel k)
    (he : EmitsSequence image ρ depth items c) (hb : ∀ e ∈ items, e.Budget fuel k) (ht : ∀ e ∈ items, Tame junk e)
    (hs : ∀ e ∈ items, Scoped globals junk w depth env ρ e) (last : Value) :
    (setting image globals junk).Computes image k w [] c
      (Eval.items (Expr.eval (convention globals.length junk) fuel env) last items) (Result image globals junk) := by
  induction items generalizing w c last with
  | nil => nomatch he
  | cons item items ih =>
    cases he with
    | last he =>
      have h := hc he (hb item List.mem_cons_self) (ht item List.mem_cons_self) (hs item List.mem_cons_self)
      rwa [← bind_pure (Expr.eval (convention globals.length junk) fuel env item)] at h
    | cons he hrest =>
      exact Setting.computes_drop
        (hc he (hb item List.mem_cons_self) (ht item List.mem_cons_self) (hs item List.mem_cons_self))
        fun w' v hl => ih hrest (fun e hm => hb e (List.mem_cons_of_mem _ hm))
          (fun e hm => ht e (List.mem_cons_of_mem _ hm)) (fun e hm => (hs e (List.mem_cons_of_mem _ hm)).leads hl) v

theorem computes_optional {e : Option Expr} {c : Code Op} (hc : Correct image globals junk fuel k)
    (he : EmitsOptional image ρ depth e c) (hb : ∀ part ∈ e.toList, part.Budget fuel k)
    (ht : ∀ part ∈ e.toList, Tame junk part) (hs : ∀ part ∈ e.toList, Scoped globals junk w depth env ρ part) :
    (setting image globals junk).Computes image k w [] c
      (match e with
        | some e => Expr.eval (convention globals.length junk) fuel env e
        | none => pure (.int 0)) (Result image globals junk) := by
  cases he with
  | none => exact computes_number rfl
  | some he => exact hc he (hb _ (by simp)) (ht _ (by simp)) (hs _ (by simp))

/-- a number for a test -/
theorem computes_test {e : Expr} {c : Code Op} (hc : Correct image globals junk fuel k) (he : Emits image ρ depth e c)
    (hb : e.Budget fuel k) (ht : Tame junk e) (hs : Scoped globals junk w depth env ρ e) :
    (setting image globals junk).Computes image k w [] c
      (do Eval.word (← Expr.eval (convention globals.length junk) fuel env e))
      ((setting image globals junk).Number fun n => junk = true ∨ isWord n = true) := by
  refine (hc he hb ht hs).word fun w' n bs hr => ?_
  obtain ⟨_, rfl, rfl, hn⟩ := hr
  exact ⟨rfl, hn⟩

/-- a number for a test over the value of the last pass -/
theorem computes_over {e : Expr} {c : Code Op} {v : Value} {a : Int} (hc : Correct image globals junk fuel k)
    (he : Emits image ρ (depth + 1) e c) (hb : e.Budget fuel k) (ht : Tame junk e)
    (hs : Scoped globals junk w depth env ρ e) (hv : w.Shown junk v a) :
    (setting image globals junk).Computes image k w [a] c
      (do Eval.word (← Expr.eval (convention globals.length junk) fuel env e))
      ((setting image globals junk).Kept (fun n => junk = true ∨ isWord n = true) (World.Shown junk) v a) :=
  Setting.computes_over (P := World.Shown junk) (fun _ (hl : World.Leads w _) => hv.knows hl.grows.knows)
    (computes_test hc he hb ht (hs.push a))

theorem computes_ite {cond thenBranch : Expr} {elseBranch : Option Expr} {start thenLabel elseLabel stop : Label}
    {cc tc ec : Code Op} (hl : image.WellLabelled) (hc : Correct image globals junk fuel k)
    (hcond : Emits image ρ depth cond cc) (hthen : Emits image ρ depth thenBranch tc)
    (helse : EmitsOptional image ρ depth elseBranch ec)
    (hb : ∀ part ∈ (Expr.ite cond thenBranch elseBranch).children, part.Budget fuel k)
    (ht : Tame junk (.ite cond thenBranch elseBranch))
    (hs : Scoped globals junk w depth env ρ (.ite cond thenBranch elseBranch)) :
    (setting image globals junk).Computes image k w [] (Skeleton.ifThenElse start thenLabel elseLabel stop cc tc ec)
      (Expr.eval (convention globals.length junk) (fuel + 1) env (.ite cond thenBranch elseBranch))
      (Result image globals junk) := by
  show (setting image globals junk).Computes image k w [] _
    (Expr.eval (convention globals.length junk) fuel env cond >>= fun v =>
      Eval.word v >>= fun n => if n ≠ 0 then _ else _) _
  rw [← bind_assoc]
  have hcond' : cond ∈ (Expr.ite cond thenBranch elseBranch).children := by simp [Expr.children]
  have hthen' : thenBranch ∈ (Expr.ite cond thenBranch elseBranch).children := by simp [Expr.children]
  have helse' : ∀ part ∈ elseBranch.toList, part ∈ (Expr.ite cond thenBranch elseBranch).children :=
    fun part hp => by simp [Expr.children, Option.mem_toList.1 hp]
  exact Setting.computes_ifThenElse hl
    (computes_test hc hcond (hb _ hcond') (ht.child hcond') (hs.child hcond' rfl))
    (fun w' hl' => hc hthen (hb _ hthen') (ht.child hthen') ((hs.child hthen' rfl).leads hl'))
    (fun w' hl' => computes_optional hc helse (fun part hp => hb part (helse' part hp))
      (fun part hp => ht.child (helse' part hp)) (fun part hp => (hs.child (helse' part hp) rfl).leads hl'))

end ThreeMachines.Closure

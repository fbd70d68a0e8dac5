/-
Code that follows an evaluation.

`Follows` says what a run does when an evaluation has a given outcome: it reaches a point for a value, it ends in the
fault of an arithmetic fault, and it goes on for a number of steps when the fuel was cut off. Nothing is said about an
evaluation that breaks off for other reasons.

A machine is described by a `Setting`: its worlds are memories with what is known about them, `Agrees` relates a world to
the values of all variables, and `Leads` says what a piece of code may have changed. In a setting,
`Computes image k w as c x R` means: wherever the code `c` lies, it follows the evaluation `x` from the world `w` with the
words `as` on top, and instead of them it leaves words that show the value (`R`).

- `computes_bind`: the code of two parts, one after the other, follows the two evaluations.
- `computes_cons_leads`, `computes_cons`, `computes_nil`: one instruction after the other.
-/
import ThreeMachines.Proofs.Evaluation
import ThreeMachines.Proofs.Instructions
import ThreeMachines.Proofs.Placement

namespace ThreeMachines

variable {ι ρ : Type} [Runnable ι ρ] {α β : Type}

/-! ## Outcomes -/

/-- what the run from `a` does if the evaluation has this outcome -/
def Follows (image : Image ι) (k : Nat) (a : Point ρ) (Q : α → Store → Point ρ → Prop) :
    EStateM.Result Trouble Store α → Prop
  | .ok v σ => ∃ b, image.Reaches a b ∧ Q v σ b
  | .error (.fault cause) _ => image.Faults a cause
  | .error .outOfFuel _ => image.RunsOn k a
  | .error .wrongKind _ | .error .arity _ => True

namespace Follows

variable {image : Image ι} {j k : Nat} {a b : Point ρ} {Q : α → Store → Point ρ → Prop}
  {r : EStateM.Result Trouble Store α}

theorem of_reaches (h : image.Reaches a b) (hf : Follows image k b Q r) : Follows image k a Q r := by
  match r, hf with
  | .ok _ _, ⟨c, hc, hq⟩ => exact ⟨c, h.trans hc, hq⟩
  | .error (.fault _) _, hf => exact h.faults hf
  | .error .outOfFuel _, hf => exact h.runsOn hf
  | .error .wrongKind _, _ => exact trivial
  | .error .arity _, _ => exact trivial

/-- a step before the rest counts -/
theorem of_moves (h : image.Moves a b) (hf : Follows image k b Q r) : Follows image (k + 1) a Q r := by
  match r, hf with
  | .ok _ _, ⟨c, hc, hq⟩ => exact ⟨c, h.reaches.trans hc, hq⟩
  | .error (.fault _) _, hf => exact h.reaches.faults hf
  | .error .outOfFuel _, hf => exact h.runsOn hf
  | .error .wrongKind _, _ => exact trivial
  | .error .arity _, _ => exact trivial

theorem mono (hf : Follows image k a Q r) (h : j ≤ k) : Follows image j a Q r := by
  match r, hf with
  | .ok _ _, hf => exact hf
  | .error (.fault _) _, hf => exact hf
  | .error .outOfFuel _, hf => exact Image.RunsOn.mono hf h
  | .error .wrongKind _, _ => exact trivial
  | .error .arity _, _ => exact trivial

/-- steps after the value -/
theorem onward {Q' : α → Store → Point ρ → Prop} (hf : Follows image k a Q r)
    (h : ∀ v σ b, Q v σ b → ∃ c, image.Reaches b c ∧ Q' v σ c) : Follows image k a Q' r := by
  match r, hf with
  | .ok v σ, ⟨b, hb, hq⟩ =>
    obtain ⟨c, hc, hq'⟩ := h v σ b hq
    exact ⟨c, hb.trans hc, hq'⟩
  | .error (.fault _) _, hf => exact hf
  | .error .outOfFuel _, hf => exact hf
  | .error .wrongKind _, _ => exact trivial
  | .error .arity _, _ => exact trivial

theorem imp {Q' : α → Store → Point ρ → Prop} (hf : Follows image k a Q r) (h : ∀ v σ b, Q v σ b → Q' v σ b) :
    Follows image k a Q' r := hf.onward fun v σ b hq => ⟨b, .refl b, h v σ b hq⟩

theorem bind {x : Eval α} {f : α → Eval β} {σ : Store} {R : β → Store → Point ρ → Prop}
    (hx : Follows image k a Q (x σ)) (hf : ∀ v σ' b, Q v σ' b → Follows image k b R (f v σ')) :
    Follows image k a R ((x >>= f) σ) := by
  rw [bind_apply]
  match x σ, hx with
  | .ok v σ', ⟨b, hb, hq⟩ => exact of_reaches hb (hf v σ' b hq)
  | .error (.fault _) _, hx => exact hx
  | .error .outOfFuel _, hx => exact hx
  | .error .wrongKind _, _ => exact trivial
  | .error .arity _, _ => exact trivial

end Follows

/-! ## Settings -/

/-- a machine's memories with what is known about them -/
structure Setting (ρ : Type) where
  World : Type
  mem : World → Memory ρ
  /-- one more word on top of the stack -/
  push : World → Int → World
  /-- the variables have their values in the memory -/
  Agrees : World → Store → Prop
  /-- what running a piece of code may have changed -/
  Leads : World → World → Prop
  mem_push (w : World) (a : Int) : mem (push w a) = (mem w).push a
  agrees_push {w : World} {σ : Store} (a : Int) : Agrees w σ → Agrees (push w a) σ
  leads_refl (w : World) : Leads w w
  leads_trans {w₁ w₂ w₃ : World} : Leads w₁ w₂ → Leads w₂ w₃ → Leads w₁ w₃
  /-- a word that was on top of the stack is there afterwards -/
  leads_push {w w' : World} {a : Int} {σ σ' : Store} : Agrees w σ → Leads (push w a) w' → Agrees w' σ' →
    ∃ w₁, w' = push w₁ a ∧ Leads w w₁ ∧ Agrees w₁ σ'

namespace Setting

variable (S : Setting ρ)

/-- several words on top, the last one uppermost -/
def pushes (w : S.World) (as : List Int) : S.World := as.foldl S.push w

variable {S} {image : Image ι} {j k : Nat} {w w' : S.World} {as bs : List Int} {σ σ' : Store}

theorem mem_pushes (w : S.World) (as : List Int) : S.mem (S.pushes w as) = (S.mem w).pushes as := by
  induction as generalizing w with
  | nil => rfl
  | cons a as ih =>
    rw [Memory.pushes_cons, ← S.mem_push]
    exact ih _

theorem agrees_pushes (h : S.Agrees w σ) (as : List Int) : S.Agrees (S.pushes w as) σ := by
  induction as generalizing w with
  | nil => exact h
  | cons a as ih => exact ih (S.agrees_push a h)

theorem leads_pushes (h : S.Agrees w σ) (hl : S.Leads (S.pushes w as) w') (h' : S.Agrees w' σ') :
    ∃ w₁, w' = S.pushes w₁ as ∧ S.Leads w w₁ ∧ S.Agrees w₁ σ' := by
  induction as generalizing w with
  | nil => exact ⟨w', rfl, hl, h'⟩
  | cons a as ih =>
    obtain ⟨w₁, rfl, hl₁, h₁⟩ := ih (S.agrees_push a h) hl
    obtain ⟨w₂, rfl, hl₂, h₂⟩ := S.leads_push h hl₁ h₁
    exact ⟨w₂, rfl, hl₂, h₂⟩

variable (S)

/-- where a piece of code leads, if its words show the value -/
def Post (w : S.World) (stop : Nat) (R : S.World → α → List Int → Prop) (v : α) (σ : Store) (b : Point ρ) : Prop :=
  ∃ w' bs, S.Leads w w' ∧ S.Agrees w' σ ∧ R w' v bs ∧ b = ⟨stop, (S.mem w').pushes bs⟩

/-- wherever the code lies, it follows the evaluation -/
def Computes (image : Image ι) (k : Nat) (w : S.World) (as : List Int) (c : Code ι) (x : Eval α)
    (R : S.World → α → List Int → Prop) : Prop :=
  ∀ pc σ, Placed image pc c → S.Agrees w σ →
    Follows image k ⟨pc, (S.mem w).pushes as⟩ (S.Post w (pc + c.length) R) (x σ)

/-- a word shows the value, and goes on to show it whatever happens later -/
structure Shows (P : S.World → α → Int → Prop) : Prop where
  leads {w w' : S.World} {v : α} {a : Int} : S.Leads w w' → P w v a → P w' v a
  of_push {w : S.World} {v : α} {a b : Int} : P (S.push w b) v a → P w v a

/-- a single word shows the value -/
def Single (P : S.World → α → Int → Prop) (w : S.World) (v : α) (bs : List Int) : Prop := ∃ a, bs = [a] ∧ P w v a

/-- the word is the number, which is one of the `good` ones -/
def Number (good : Int → Prop) (_ : S.World) (n : Int) (bs : List Int) : Prop := bs = [n] ∧ good n

variable {S}

theorem post_of_leads {stop : Nat} {R : S.World → α → List Int → Prop} {v : α} {b : Point ρ} (hl : S.Leads w w')
    (h : S.Post w' stop R v σ b) : S.Post w stop R v σ b := by
  obtain ⟨w₁, bs, hl₁, ha, hr, rfl⟩ := h
  exact ⟨w₁, bs, S.leads_trans hl hl₁, ha, hr, rfl⟩

variable {c d : Code ι} {x : Eval α} {R : S.World → α → List Int → Prop}

theorem Computes.imp {R' : S.World → α → List Int → Prop} (h : S.Computes image k w as c x R)
    (hr : ∀ w' v bs, S.Leads w w' → R w' v bs → R' w' v bs) : S.Computes image k w as c x R' := by
  intro pc σ hp ha
  refine (h pc σ hp ha).imp fun v σ' b hq => ?_
  obtain ⟨w', bs, hl, ha', hr', rfl⟩ := hq
  exact ⟨w', bs, hl, ha', hr w' v bs hl hr', rfl⟩

/-- **One piece of code after the other.** The second piece finds the words of the first one over its own. -/
theorem computes_bind {f : α → Eval β} {R' : S.World → β → List Int → Prop}
    (hx : S.Computes image k (S.pushes w as) [] c x R)
    (hf : ∀ w' v bs, S.Leads w w' → R (S.pushes w' as) v bs → S.Computes image k w' (as ++ bs) d (f v) R') :
    S.Computes image k w as (c ++ d) (x >>= f) R' := by
  intro pc σ hp ha
  rw [placed_append] at hp
  have hfirst := hx pc σ hp.1 (agrees_pushes ha as)
  rw [Memory.pushes_nil, mem_pushes] at hfirst
  refine hfirst.bind fun v σ' b hq => ?_
  obtain ⟨w', bs, hl, ha', hr, rfl⟩ := hq
  obtain ⟨w₁, rfl, hl₁, ha₁⟩ := leads_pushes ha hl ha'
  rw [mem_pushes, ← Memory.pushes_append]
  rw [List.length_append, ← Nat.add_assoc]
  exact (hf w₁ v bs hl₁ hr (pc + c.length) σ' hp.2 ha₁).imp fun _ _ _ hq => post_of_leads hl₁ hq

/-- **Code that runs through**, whatever the values of the variables are -/
theorem computes_of_reaches
    (h : ∀ pc σ, Placed image pc c → S.Agrees w σ → ∃ v σ' w' bs, x σ = .ok v σ' ∧ S.Leads w w' ∧ S.Agrees w' σ' ∧
      R w' v bs ∧ image.Reaches ⟨pc, (S.mem w).pushes as⟩ ⟨pc + c.length, (S.mem w').pushes bs⟩) :
    S.Computes image k w as c x R := by
  intro pc σ hp ha
  obtain ⟨v, σ', w', bs, hx, hl, ha', hr, hreach⟩ := h pc σ hp ha
  rw [hx]
  exact ⟨_, hreach, w', bs, hl, ha', hr, rfl⟩

/-- no code -/
theorem computes_nil {v : α} (hr : R w v bs) : S.Computes image k w bs [] (pure v) R :=
  computes_of_reaches fun _ σ _ ha => ⟨v, σ, w, bs, rfl, S.leads_refl w, ha, hr, .refl _⟩

/-- **One instruction before the rest**, with what it does to the world -/
theorem computes_cons_leads {i : Instr ι} (hl : S.Leads w w') (hw : ∀ σ, S.Agrees w σ → S.Agrees w' σ)
    (hi : ∀ pc, image.instrs[pc]? = some i →
      image.Moves ⟨pc, (S.mem w).pushes as⟩ ⟨pc + 1, (S.mem w').pushes bs⟩)
    (h : S.Computes image k w' bs c x R) : S.Computes image k w as (i :: c) x R := by
  intro pc σ hp ha
  refine Follows.of_reaches (hi pc hp.1).reaches ?_
  rw [List.length_cons, Nat.add_comm c.length, ← Nat.add_assoc]
  exact (h (pc + 1) σ hp.2 (hw σ ha)).imp fun _ _ _ hq => post_of_leads hl hq

/-- one instruction before the rest that works on the words on top only -/
theorem computes_cons {i : Instr ι} (bs : List Int)
    (hi : ∀ pc, image.instrs[pc]? = some i →
      image.Moves ⟨pc, (S.mem w).pushes as⟩ ⟨pc + 1, (S.mem w).pushes bs⟩)
    (h : S.Computes image k w bs c x R) : S.Computes image k w as (i :: c) x R :=
  computes_cons_leads (S.leads_refl w) (fun _ => id) hi h

/-- a number is its word -/
theorem Computes.word {good : Int → Prop} {x : Eval Value} {R : S.World → Value → List Int → Prop}
    (h : S.Computes image k w as c x R) (hr : ∀ w' n bs, R w' (.int n) bs → bs = [n] ∧ good n) :
    S.Computes image k w as c (x >>= Eval.word) (S.Number good) := by
  intro pc σ hp ha
  refine (h pc σ hp ha).bind fun v σ' b hq => ?_
  cases v with
  | int n =>
    obtain ⟨w', bs, hl, ha', hr', rfl⟩ := hq
    exact ⟨_, .refl _, w', bs, hl, ha', hr w' n bs hr', rfl⟩
  | function f => exact trivial

/-- a word where a number is needed -/
theorem computes_word {f : Int → Eval β} {v : Value} {R' : S.World → β → List Int → Prop}
    (h : ∀ n, v = .int n → S.Computes image k w as c (f n) R') :
    S.Computes image k w as c (Eval.word v >>= f) R' := by
  cases v with
  | int n => exact h n rfl
  | function f => exact fun _ _ _ _ => trivial

/-- the number of a value before the rest -/
theorem computes_bind_word {good : Int → Prop} {P : S.World → Value → Int → Prop} {x : Eval Value} {f : Int → Eval β}
    {R' : S.World → β → List Int → Prop} (hx : S.Computes image k (S.pushes w as) [] c x (S.Single P))
    (hP : ∀ w' n a, P w' (.int n) a → a = n ∧ good n)
    (hf : ∀ w' n, S.Leads w w' → good n → S.Computes image k w' (as ++ [n]) d (f n) R') :
    S.Computes image k w as (c ++ d) (x >>= fun v => Eval.word v >>= f) R' := by
  refine computes_bind hx fun w' v bs hl hr => ?_
  obtain ⟨a, rfl, hv⟩ := hr
  refine computes_word fun n hn => ?_
  subst hn
  obtain ⟨rfl, hgood⟩ := hP _ _ _ hv
  exact hf w' a hl hgood

/-- an operator on the two words on top, and what follows if it has a result -/
theorem computes_binary {op : BinaryOp} {m n : Int} {R : S.World → Value → List Int → Prop}
    (h : ∀ r, op.eval m n = .ok r → S.Computes image k w [r] c (pure (.int r)) R) :
    S.Computes image k w [m, n] (.binary op :: c) (Eval.arithmetic (op.eval m n)) R := by
  cases hop : op.eval m n with
  | ok r =>
    refine computes_cons _ (fun pc hi => ?_) (h r hop)
    exact Image.moves_binary (m := S.mem w) hi hop
  | error cause =>
    intro pc σ hp _
    exact (Image.fails_binary (m := S.mem w) hp.1 hop).faults

end Setting

/-! ## Programs -/

namespace Program

variable {p : Program ι} {conv : Convention} {e : Expr}

/-- the run has come to the end of the code with the number on top -/
def Halts (p : Program ι) (v : Value) (_ : Store) (b : Point ρ) : Prop :=
  ∀ n, v = .int n → ∃ m : Memory ρ, b = ⟨(Image.ofProgram p).stop, m.push n⟩

/-- a program whose run follows the evaluation ends in what the expression yields -/
theorem ends_of_follows {result : Except Fault Int}
    (h : ∀ fuel, Follows (Image.ofProgram p) 0 p.startPoint (p.Halts (ρ := ρ)) (e.eval conv fuel [] .empty))
    (hy : e.Yields conv result) : p.Ends result := by
  obtain ⟨fuel, hy⟩ := hy
  have hf := h fuel
  rw [Expr.evaluate] at hy
  cases hr : e.eval conv fuel [] .empty with
  | ok v σ =>
    rw [hr] at hy hf
    obtain ⟨b, hb, hhalt⟩ := hf
    cases v with
    | int n =>
      obtain ⟨m, rfl⟩ := hhalt n rfl
      cases result with
      | ok r =>
        cases hy
        exact ends_of_halts hb
      | error cause => cases hy
    | function f => cases result <;> cases hy
  | error trouble σ =>
    rw [hr] at hy hf
    cases result with
    | ok r => cases hy
    | error cause =>
      cases hy
      exact ends_of_faults hf

theorem settles_of_follows {result : Except Fault Int}
    (h : ∀ fuel, Follows (Image.ofProgram p) 0 p.startPoint (p.Halts (ρ := ρ)) (e.eval conv fuel [] .empty))
    (hy : e.Yields conv result) : p.Settles result :=
  (ends_of_follows h hy).settles

end Program
end ThreeMachines

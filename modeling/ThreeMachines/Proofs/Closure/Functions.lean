/-
Function literals on the closure machine.

The captured variables are pushed and put into a vector, and the function is a pair on the heap of the address of its code
and of this vector. What is copied is constant, so it still is the value of the variable whenever the function is called.
-/
import ThreeMachines.Proofs.Closure.Fragments

namespace ThreeMachines.Closure

open Heap (address)

variable {image : Image Op} {globals : List String} {junk : Bool} {pending : Nat → Prop} {k fuel : Nat} {w : World}
  {σ : Store} {depth : Int} {env : Env} {ρ : Scope}

/-- the word that is pushed for one captured name: its place if the name is global, else its constant value -/
theorem reaches_capture {pc : Nat} {b : Binding} {x : Variable}
    (hp : Placed image pc (if b.storage = .global then [.own (.pushglob b.address)] else fetch depth b))
    (ha : w.AgreesBut image globals junk pending σ) (hlocated : Located globals junk w depth b x)
    (hfirm : ∀ k, x = .cell k → ∃ v, w.constant k = some v) :
    ∃ a, w.Capture globals junk (decide (b.storage = .global)) x a ∧ image.Reaches ⟨pc, w.mem⟩
      ⟨pc + (if b.storage = .global then [.own (.pushglob b.address)] else fetch depth b).length, w.mem.push a⟩ := by
  by_cases hglobal : b.storage = .global
  · simp only [if_pos hglobal] at hp ⊢
    cases hlocated with
    | stack hs _ _ _ => rw [hglobal] at hs; exact absurd hs (by decide)
    | @vector g j flag _ hs hgp hj he =>
      obtain ⟨a, hf, he⟩ := he
      have hmoves := moves_pushglob (m := w.mem) hp.1 hgp hj (ha.fixed _ _ hf)
      cases he with
      | shared hn => exact ⟨_, by rw [decide_eq_true hglobal]; exact .shared hn, hmoves.reaches⟩
      | copied _ _ => rw [hglobal] at hs; exact absurd hs (by decide)
  · simp only [if_neg hglobal] at hp ⊢
    obtain ⟨a, hv, hreach⟩ := reaches_fetch hp ha hlocated
    refine ⟨a, ?_, hreach⟩
    rw [decide_eq_false hglobal]
    obtain ⟨k, rfl⟩ : ∃ k, x = .cell k := by
      cases hlocated with
      | stack _ _ _ _ => exact ⟨_, rfl⟩
      | vector hs _ _ he =>
        obtain ⟨_, -, he⟩ := he
        cases he with
        | shared _ => exact absurd hs hglobal
        | copied _ _ => exact ⟨_, rfl⟩
    obtain ⟨v, hconst⟩ := hfirm k rfl
    rw [(ha.constant k v hconst).2] at hv
    exact .copied hconst hv

/-- **Captures.** The words that are pushed for a function's captured names -/
theorem reaches_captures {pc : Nat} {captures : List String} {shared : List (String × Bool)} {c : Code Op}
    (hc : Pushed ρ depth captures shared c) (hp : Placed image pc c) (ha : w.AgreesBut image globals junk pending σ)
    (hfinds : ∀ x ∈ captures, ∀ b, ρ x = some b → Located globals junk w depth b (env.variable x))
    (hfirm : ∀ x ∈ captures, ∀ k, env.variable x = .cell k → ∃ v, w.constant k = some v) :
    ∃ as : List Int, as.length = captures.length ∧ (∀ (j : Nat) x flag, shared[j]? = some (x, flag) →
      ∃ a, as[j]? = some a ∧ w.Capture globals junk flag (env.variable x) a) ∧
      image.Reaches ⟨pc, w.mem⟩ ⟨pc + c.length, w.mem.pushes as⟩ := by
  induction hc generalizing pc w with
  | nil => exact ⟨[], rfl, by simp, .refl _⟩
  | @cons depth name names b later shared hb hlater ih =>
    rw [placed_append] at hp
    obtain ⟨a, hcapture, hreach⟩ := reaches_capture hp.1 ha (hfinds name List.mem_cons_self b hb)
      (hfirm name List.mem_cons_self)
    -- the other words, over it
    have hk : World.Knows (w.push a) w := ⟨fun _ _ => id, fun _ _ => id, fun _ _ => id⟩
    obtain ⟨as, hlength, has, hreach'⟩ := ih (w := w.push a) hp.2 (ha.push a)
      (fun x hx b hb => (hfinds x (List.mem_cons_of_mem _ hx) b hb).grows (w.grows_push a) rfl (by simp [World.push]))
      (fun x hx => hfirm x (List.mem_cons_of_mem _ hx))
    refine ⟨a :: as, by simp [hlength], fun j x flag hj => ?_, ?_⟩
    · cases j with
      | zero =>
        obtain ⟨rfl, rfl⟩ := Prod.mk.inj (Option.some.inj hj)
        exact ⟨a, rfl, hcapture⟩
      | succ j =>
        obtain ⟨a', ha', hc'⟩ := has j x flag hj
        exact ⟨a', ha', hc'.knows hk⟩
    · rw [List.length_append, ← Nat.add_assoc]
      exact hreach.trans hreach'

/-- **Function literals.** The code leaves a new function on the heap. -/
theorem reaches_function {pc : Nat} {f : FunctionValue} {c : Code Op}
    (he : EmitsFunction image ρ depth f.params f.locals f.body c) (hp : Placed image pc c) (hf : Copyable f)
    (ha : w.AgreesBut image globals false pending σ)
    (hfinds : ∀ x ∈ f.body.captures (f.params ++ f.locals), ∀ b, ρ x = some b →
      Located globals false w depth b (f.env.variable x))
    (hfirm : ∀ x ∈ f.body.captures (f.params ++ f.locals), ∀ k, f.env.variable x = .cell k → ∃ v, w.constant k = some v) :
    ∃ w' p, World.Leads w w' ∧ w'.AgreesBut image globals false pending σ ∧ w.heap.words.size ≤ p ∧
      w'.words = w.words ∧ w'.function p = some f ∧
      w'.Made image globals false p f ∧
      image.Reaches ⟨pc, w.mem⟩ ⟨pc + c.length, w'.mem.push (address p)⟩ := by
  obtain @⟨_, _, _, _, _, captures, shared, pushed, label, entry, hcaptures, hpushed, ht, hem⟩ := he
  rw [placed_append] at hp
  obtain ⟨as, hlength, has, hreach⟩ := reaches_captures hpushed hp.1 ha (fun x hx => hfinds x (hcaptures x hx))
    fun x hx => hfirm x (hcaptures x hx)
  obtain ⟨hvec, hfun, -⟩ := hp.2
  rw [← hlength] at hvec
  -- the vector, the pair and the function that the pair is
  have hl₁ := ha.leads_appended (as.length :: as)
  have ha₁ := ha.appended (as.length :: as)
  have hl₂ := ha₁.leads_appended [Image.base + (entry : Int), address w.heap.words.size]
  have ha₂ := ha₁.appended [Image.base + (entry : Int), address w.heap.words.size]
  have hl := hl₁.trans hl₂
  generalize hw₁ : w.appended (as.length :: as) = w₁ at ha₁ hl₁ hl₂ ha₂ hl
  generalize hw₂ : w₁.appended [Image.base + (entry : Int), address w.heap.words.size] = w₂ at hl₂ ha₂ hl
  have hfirst : w₂.fixed w₁.heap.words.size = some (Image.base + entry) := by
    rw [← hw₂, ← Nat.add_zero w₁.heap.words.size, World.appended_fixed]
    rfl
  have hsecond : w₂.fixed (w₁.heap.words.size + 1) = some (address w.heap.words.size) := by
    rw [← hw₂, World.appended_fixed]
    rfl
  have helement : ∀ j a, as[j]? = some a → w₂.fixed (w.heap.words.size + 1 + j) = some a := by
    intro j a hj
    refine hl₂.grows.knows.fixed _ _ ?_
    rw [← hw₁, Nat.add_assoc, Nat.add_comm 1, World.appended_fixed]
    exact hj
  have hnew : ∀ q, w₂.function q ≠ none →
      (fun q => if q = w₁.heap.words.size then some f else none) q = none := by
    intro q hq
    refine if_neg ?_
    rintro rfl
    refine hq ?_
    rw [← hw₂]
    exact ha₁.function_new le_rfl
  have hk := World.knows_named hnew
  have hmade : ∀ w', World.Knows w₂ w' → w'.Made image globals false w₁.heap.words.size f := by
    intro w' hk
    refine ⟨entry, w.heap.words.size, shared, hk.fixed _ _ hfirst, hk.fixed _ _ hsecond, hem, hf, fun j x flag hj => ?_⟩
    obtain ⟨a, ha', hc⟩ := has j x flag hj
    exact ⟨a, hk.fixed _ _ (helement j a ha'), hc.knows (hl.grows.knows.trans hk)⟩
  have ha₃ := ha₂.named hnew (fun _ => id) ha₂.pending_lt fun q g hq _ => by
    simp only [Option.ite_none_right_eq_some, Option.some.injEq] at hq
    obtain ⟨rfl, rfl⟩ := hq
    exact hmade _ hk
  refine ⟨_, w₁.heap.words.size, ⟨hl.grows.named hnew fun q hq => if_neg ?_, hl.regs, hl.size, hl.slot⟩, ha₃,
    hl₁.grows.heap, by rw [← hw₂, ← hw₁]; rfl, by simp [World.named], hmade _ hk, ?_⟩
  · have := hl₁.grows.heap
    omega
  · have h₁ := moves_mkvec (m := w.mem) as hvec
    have h₂ := moves_mkfunval (m := w₁.mem) (a := address w.heap.words.size) hfun ht
    rw [List.length_append, ← Nat.add_assoc]
    refine (hreach.trans h₁.reaches).trans ?_
    rw [← hw₂]
    rw [← hw₁] at h₂ ⊢
    exact h₂.reaches

/-! ## Literals as expressions -/

/-- the function that a literal makes -/
def literal (env : Env) : Expr → FunctionValue
  | .lambda params body => ⟨params, [], body, env⟩
  | .proc params locals body => ⟨params, locals, body, env⟩
  | e => ⟨[], [], e, env⟩

section
variable {e : Expr} {c : Code Op}

theorem eval_literal (hfun : e.isFunction) (conv : Convention) (fuel : Nat) (env : Env) :
    e.eval conv (fuel + 1) env = pure (.function (literal env e)) := by
  cases e <;> first | rfl | cases hfun

theorem emitsFunction_of_emits (hfun : e.isFunction) (he : Emits image ρ depth e c) (env : Env) :
    EmitsFunction image ρ depth (literal env e).params (literal env e).locals (literal env e).body c := by
  cases he <;> first | assumption | cases hfun

theorem literal_env (env : Env) (e : Expr) : (literal env e).env = env := by
  cases e <;> rfl

theorem children_literal (hfun : e.isFunction) (env : Env) : e.children = [(literal env e).body] := by
  cases e <;> first | rfl | cases hfun

theorem binders_literal (hfun : e.isFunction) (env : Env) :
    e.binders = (literal env e).params ++ (literal env e).locals := by
  cases e <;> first | rfl | exact (List.append_nil _).symm | cases hfun

theorem copyable_literal (hfun : e.isFunction) (he : e.capturesByValue) (env : Env) : Copyable (literal env e) := by
  have hbody : (literal env e).body ∈ e.children := by simp [children_literal hfun env]
  refine ⟨Expr.everywhere_child he hbody, fun x hx hassigned => ?_⟩
  have hcopy := Expr.everywhere_self he
  rw [Bool.and_eq_true] at hcopy
  exact Expr.not_captured_of_assigned hcopy.1 (by rwa [binders_literal hfun env]) hbody hassigned hbody

/-- the code of a literal leaves the function that the literal makes -/
theorem reaches_literal {pc : Nat} (hfun : e.isFunction) (he : Emits image ρ depth e c) (hp : Placed image pc c)
    (ht : e.capturesByValue) (hs : Scoped globals false w depth env ρ e)
    (ha : w.AgreesBut image globals false pending σ) :
    ∃ w' p, World.Leads w w' ∧ w'.AgreesBut image globals false pending σ ∧ w.heap.words.size ≤ p ∧
      w'.words = w.words ∧ w'.function p = some (literal env e) ∧ w'.Made image globals false p (literal env e) ∧
      image.Reaches ⟨pc, w.mem⟩ ⟨pc + c.length, w'.mem.push (address p)⟩ := by
  have huses : ∀ x ∈ (literal env e).body.captures ((literal env e).params ++ (literal env e).locals), x ∈ e.uses := by
    intro x hx
    obtain ⟨hno, hx⟩ := Expr.mem_captures.1 hx
    exact Expr.uses_child (by simp [children_literal hfun env]) hx (by rwa [binders_literal hfun env])
  have hreach := reaches_function (w := w) (emitsFunction_of_emits hfun he env) hp (copyable_literal hfun ht env) ha
  rw [literal_env env e] at hreach
  exact hreach (fun x hx => hs.finds x (huses x hx) List.not_mem_nil)
    fun x hx => hs.firm x (by rw [Expr.captured_of_isFunction hfun]; exact huses x hx) List.not_mem_nil

theorem computes_literal (hfun : e.isFunction) (he : Emits image ρ depth e c) (ht : e.capturesByValue)
    (hs : Scoped globals false w depth env ρ e) :
    (setting image globals false).Computes image k w [] c (pure (.function (literal env e)))
      (Result image globals false) := by
  refine Setting.computes_of_reaches fun pc σ hp ha => ?_
  obtain ⟨w', p, hl, ha', -, -, hfunction, -, hreach⟩ := reaches_literal hfun he hp ht hs ha
  exact ⟨_, σ, w', [address p], rfl, hl, ha', ⟨_, rfl, p, rfl, hfunction⟩, hreach⟩

end

end ThreeMachines.Closure

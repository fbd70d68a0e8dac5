/-
Correctness of the stack machine's code.

- `correct`: the code of every expression follows its evaluation, by induction on the fuel.
- `follows_compile`: the run of a compiled program follows the evaluation of its expression, from the start on.
- `settles_of_yields_reversed`: a compiled program settles on what its expression yields, a number or an arithmetic fault.
  Arguments are evaluated from the last to the first and the callee after them, and all variables start at 0.
-/
import ThreeMachines.Proofs.Stack.Calls

namespace ThreeMachines.Stack

/-! ## Expressions -/

/-- **Expressions.** The code of every expression follows its evaluation. -/
theorem correct {image : Image Op} {globals : List String} (hl : image.WellLabelled) (fuel k : Nat) :
    Correct image globals fuel k := by
  induction fuel generalizing k with
  | zero =>
    intro w env ρ depth e c _ hb _ _ pc σ _ _
    rw [hb.eq_zero]
    exact Image.RunsOn.zero _
  | succ fuel ih =>
    intro w env ρ depth e c he hb ho hs
    have hc := ih k
    have hpart : ∀ part ∈ e.children, part.Budget fuel k := fun part => hb.child
    have houter : e.binders = [] → ∀ part ∈ e.children, Outer env ρ part := fun hbind part hp => ho.child hp hbind
    cases he with
    | number value => exact computes_number (isWord_toInt value)
    | bool value => exact computes_number (by cases value <;> rfl)
    | var hname => exact computes_var hname ho hs
    | unary he => exact computes_unary hc he (hpart _ (by simp [Expr.children])) (houter rfl _ (by simp [Expr.children])) hs
    | binary hel her =>
      exact computes_binary hc hel her (hpart _ (by simp [Expr.children])) (hpart _ (by simp [Expr.children]))
        (houter rfl _ (by simp [Expr.children])) (houter rfl _ (by simp [Expr.children])) hs
    | assign hname he => exact computes_assign hc hname he (hpart _ (by simp [Expr.children])) ho hs
    | seq he => exact computes_sequence hc he hpart (houter rfl) hs _
    | ite hcond hthen helse => exact computes_ite hl hc hcond hthen helse hpart (houter rfl) hs
    | whileDo hcond hbody =>
      exact Setting.computes_whileDo hl hb.le (computes_number rfl)
        (fun w' v a hl' hv => computes_over hc hcond (hpart _ (by simp [Expr.children]))
          (houter rfl _ (by simp [Expr.children])) (hs.leads hl') hv)
        (fun w' hl' => hc hbody (hpart _ (by simp [Expr.children])) (houter rfl _ (by simp [Expr.children]))
          (hs.leads hl'))
    | doWhile hbody hcond =>
      exact Setting.computes_doWhile hl hb.le
        (fun w' v a hl' hv => computes_over hc hcond (hpart _ (by simp [Expr.children]))
          (houter rfl _ (by simp [Expr.children])) (hs.leads hl') hv)
        (fun w' hl' => hc hbody (hpart _ (by simp [Expr.children])) (houter rfl _ (by simp [Expr.children]))
          (hs.leads hl'))
    | loop hcount hbody =>
      show (setting image globals).Computes image k w [] _ (Expr.eval convention fuel env _ >>= fun v =>
        Eval.word v >>= fun n => Eval.loop _ (convention.passes n) (.int 0)) _
      rw [← bind_assoc]
      exact Setting.computes_countedLoop hl (fun _ _ _ _ hv => hv) (fun n hn => (countdown_of_isWord hn).symm)
        (computes_number rfl)
        (fun w' v a hl' hv => computes_over hc hcount (hpart _ (by simp [Expr.children]))
          (houter rfl _ (by simp [Expr.children])) (hs.leads hl') hv)
        (fun w' m hl' => hc hbody (hpart _ (by simp [Expr.children])) (houter rfl _ (by simp [Expr.children]))
          ((hs.leads hl').push m))
    | block hnodup hvalues hbody => exact computes_local hc hnodup hvalues hbody hpart ho hs
    | lambda hem => exact computes_procedure hl hem rfl (by simp [Expr.binders]) ho
    | proc hem => exact computes_procedure hl hem rfl rfl ho
    | call hargs hcallee =>
      obtain rfl := hb.of_not_functionFree rfl
      exact computes_call (ih 0) hargs hcallee (houter rfl) hs

/-! ## Programs -/

/-- where a global lies on the stack -/
def globalPlace : List String → String → Option Nat
  | [], _ => none
  | name :: names, x => if x = name then some names.length else globalPlace names x

section
variable {names : List String} {x y : String} {i : Nat}

theorem globalPlace_lt (h : globalPlace names x = some i) : i < names.length := by
  induction names with
  | nil => cases h
  | cons name names ih =>
    rw [globalPlace] at h
    rw [List.length_cons]
    split at h
    · cases h
      omega
    · have := ih h
      omega

theorem globalPlace_injective (hx : globalPlace names x = some i) (hy : globalPlace names y = some i) : x = y := by
  induction names with
  | nil => cases hx
  | cons name names ih =>
    rw [globalPlace] at hx hy
    split at hx <;> split at hy
    · rename_i hx' hy'
      rw [hx', hy']
    · cases hx
      exact absurd (globalPlace_lt hy) (Nat.lt_irrefl _)
    · cases hy
      exact absurd (globalPlace_lt hx) (Nat.lt_irrefl _)
    · exact ih hx hy

theorem globalPlace_globalScope {b : Binding} (h : globalScope names x = some b) :
    ∃ i : Nat, globalPlace names x = some i ∧ b.address = wordSize * i := by
  induction names with
  | nil => cases h
  | cons name names ih =>
    rw [globalScope, globalBindings, Scope.extend, List.find?_cons] at h
    rw [globalPlace]
    by_cases hx : name = x
    · simp only [hx, decide_true] at h
      cases h
      exact ⟨names.length, if_pos hx.symm, rfl⟩
    · simp only [hx, decide_false] at h
      rw [if_neg (Ne.symm hx)]
      exact ih h

end

/-- the world at the start of a program: a word for each global -/
def World.start (globals : List String) : World where
  words := (List.replicate globals.length 0).toArray
  fp := wordSize * (globals.length : Int) - wordSize
  place
    | .global name => globalPlace globals name
    | .cell _ => none

theorem World.agrees_start (image : Image Op) (globals : List String) :
    (World.start globals).Agrees image globals .empty where
  apart x y i hx hy := by
    cases x with
    | cell k => cases hx
    | global name =>
      cases y with
      | cell k => cases hy
      | global other => rw [globalPlace_injective hx hy]
  known k i h := nomatch h
  holds x i hx := by
    cases x with
    | cell k => cases hx
    | global name => exact ⟨0, by simp [World.start, globalPlace_lt hx], rfl, rfl⟩

theorem scoped_start (globals : List String) : Scoped globals (World.start globals) [] .empty 0 where
  size := by
    simp only [World.start, List.size_toArray, List.length_replicate]
    ring
  finds := .empty _ _
  globals x b hb := by
    obtain ⟨i, hi, ha⟩ := globalPlace_globalScope hb
    exact ⟨i, hi, by rw [if_pos (storage_globalScope hb), Int.zero_add, ha]⟩

theorem globalSpace_eq (p : Program Op) : p.globalSpace = wordSize * (p.globals.length : Int) := by
  rw [Program.globalSpace]
  induction p.globals with
  | nil => rfl
  | cons b rest ih =>
    rw [List.foldr_cons, ih, List.length_cons, Binding.size]
    push_cast
    ring

/-- **Programs.** The run of a compiled program follows the evaluation of its expression. -/
theorem follows_compile {e : Expr} {p : Program Op} {fuel k : Nat} (h : compile .stack e = .ok p)
    (hb : e.Budget fuel k) :
    Follows (Image.ofProgram p) k p.startPoint (p.Halts (ρ := Registers)) (e.eval convention fuel [] .empty) := by
  obtain ⟨hcheck, globals, -, hlength, hem⟩ := emits_compile h
  have ho : Outer [] .empty e := fun x _ _ => rfl
  have hf := correct (Image.wellLabelled_of_checkLabels hcheck) fuel k hem hb ho (scoped_start globals) _ _
    (Image.placed_entry p) (World.agrees_start _ globals)
  have hstart : p.startPoint = ⟨(Image.ofProgram p).entry, (World.start globals).mem⟩ := by
    show Point.mk _ (Memory.mk (Array.replicate p.globals.length 0) _ (Registers.mk (p.globalSpace - wordSize))) = _
    rw [globalSpace_eq, hlength, ← List.toArray_replicate]
    rfl
  rw [hstart]
  refine hf.imp fun v σ b hq n hn => ?_
  obtain ⟨w', bs, -, -, ⟨a, rfl, hv⟩, rfl⟩ := hq
  subst hn
  obtain ⟨rfl, -⟩ := hv
  exact ⟨w'.mem, by rw [Image.stop_ofProgram]; rfl⟩

/-- **Correctness of the stack machine.** A compiled program settles on what its expression yields. -/
theorem settles_of_yields_reversed {e : Expr} {p : Program Op} {result : Except Fault Int} (h : compile .stack e = .ok p)
    (hy : e.Yields (.usual .reversed) result) : p.Settles result :=
  Program.settles_of_follows (fun fuel => follows_compile h (.none e fuel)) hy

/-- a procedure that calls itself through a global, from inside of a local block -/
def countdownToZero : Expr :=
  .seq [
    .assign "f" (.proc ["n"] ["m"] (.seq [
      .assign "m" (.binary .sub (.var "n") (.number 1)),
      .ite (.binary .gt (.var "n") (.number 0)) (.binary .mul (.var "n") (.call (.var "f") [.var "m"]))
        (some (.binary .div (.number 1) (.var "n")))])),
    .block [("k", .number 3)] (.call (.var "f") [.var "k"])]

theorem countdownToZero_settles : ∃ p, compile .stack countdownToZero = .ok p ∧
    countdownToZero.Yields (.usual .reversed) (.error .divisionByZero) ∧ p.Settles (.error .divisionByZero) := by
  obtain ⟨p, hp⟩ := exists_of_isOk (m := .stack) (e := countdownToZero) (by decide +kernel)
  have hy : countdownToZero.Yields (.usual .reversed) (.error .divisionByZero) := ⟨40, by decide +kernel⟩
  exact ⟨p, hp, hy, settles_of_yields_reversed hp hy⟩

end ThreeMachines.Stack

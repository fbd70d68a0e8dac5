/-
Programs without functions on the three machines.

Such a program never faults: on every machine it ends in a number, in a division without a result, or it goes on as long
as the limit lets it (`simulate_functionFree`); with counted loops only it ends. What it comes to is a matter of the
expression, told by `Expr.Means`, and `Program.Does` is what the machine makes of it.

The stack machine and the vector machine always agree. On the closure machine a block's variable holds the address of its
pair until its value is stored, and that is the only difference (`outcomes_functionFree`): where no value uses its own
name or a later one, all three agree, and `local a := a in a` tells them apart.
-/
import ThreeMachines.Proofs.FunctionFree
import ThreeMachines.Proofs.Stack.Correctness
import ThreeMachines.Proofs.Closure.Correctness
import ThreeMachines.Proofs.Vector.Correctness

namespace ThreeMachines

namespace Program

variable {ι ρ : Type} [Runnable ι ρ] {p : Program ι} {conv : Convention} {e : Expr}

/-- the program ends in a result, or in none -/
def Does (p : Program ι) : Option (Except Fault Int) → Prop
  | some result => p.Ends result
  | none => p.Diverges

/-- a program whose run follows the evaluation does what the expression means -/
theorem does_of_means {o : Option (Except Fault Int)} (hf : e.functionFree)
    (h : ∀ fuel k, e.Budget fuel k →
      Follows (Image.ofProgram p) k p.startPoint (p.Halts (ρ := ρ)) (e.eval conv fuel [] .empty))
    (hm : e.Means conv o) : p.Does o := by
  cases o with
  | some result => exact ends_of_follows (fun fuel => h fuel 0 (.none e fuel)) hm
  | none =>
    -- a fuel that is larger by the size of the expression leaves `k` passes to some loop
    refine diverges_of_runsOn fun k => ?_
    have hcut := hm (k + sizeOf e)
    have hrun := h (k + sizeOf e) k (.inr ⟨hf, le_rfl⟩)
    unfold Expr.evaluate at hcut
    match e.eval conv (k + sizeOf e) [] .empty, hcut, hrun with
    | .error _ _, rfl, hrun => exact hrun

end Program

variable {e : Expr}

/-- on every machine a program without functions does what its expression means, in some convention -/
theorem does_functionFree (m : Machine) {p : Program m.Op} (h : compile m e = .ok p) (hf : e.functionFree) :
    ∃ conv o, e.Means conv o ∧ (∀ result ∈ o, Expr.IsArithmetic result) ∧ p.Does o := by
  cases m with
  | stack =>
    obtain ⟨o, hm, ha⟩ := Expr.exists_meaning hf Stack.convention
    exact ⟨_, o, hm, ha, Program.does_of_means hf (fun _ _ => Stack.follows_compile h) hm⟩
  | closure =>
    obtain ⟨o, hm, ha⟩ := Expr.exists_meaning hf (Closure.convention e.globalNames.length true)
    exact ⟨_, o, hm, ha, Program.does_of_means hf (fun _ _ => Closure.follows_compile true h hf) hm⟩
  | vector =>
    obtain ⟨o, hm, ha⟩ := Expr.exists_meaning hf Vector.convention
    exact ⟨_, o, hm, ha, Program.does_of_means hf (fun _ _ => Vector.follows_compile h) hm⟩

/-- **Programs without functions never fault.** They end in a number or in a division without a result, or the limit cuts
them off; if every loop is counted, a large enough limit does not. -/
theorem simulate_functionFree (m : Machine) {p : Program m.Op} (h : compile m e = .ok p) (hf : e.functionFree) :
    (∀ limit, (∃ n, p.simulate limit = .ok n) ∨ p.simulate limit = .error .divisionByZero ∨
      p.simulate limit = .error .overflow ∨ p.simulate limit = .error (.stepLimit limit)) ∧
    (e.counted → ∃ enough, ∀ limit, enough ≤ limit → ∀ l, p.simulate limit ≠ .error (.stepLimit l)) := by
  obtain ⟨conv, o, hm, ha, hd⟩ := does_functionFree m h hf
  cases o with
  | none =>
    refine ⟨fun limit => .inr (.inr (.inr (hd limit))), fun hc => ?_⟩
    obtain ⟨result, hr⟩ := hm.of_counted hf hc
    cases hr
  | some result =>
    obtain ⟨steps, hends⟩ := hd
    have hresult := ha result rfl
    refine ⟨fun limit => ?_, fun _ => ⟨steps, fun limit hl l => ?_⟩⟩
    · rw [hends]
      split
      · match result, hresult with
        | .ok n, _ => exact .inl ⟨n, rfl⟩
        | .error _, .inl rfl => exact .inr (.inl rfl)
        | .error _, .inr rfl => exact .inr (.inr (.inl rfl))
      · exact .inr (.inr (.inr rfl))
    · rw [hends, if_pos hl]
      match result, hresult with
      | .ok n, _ => nofun
      | .error _, .inl rfl => nofun
      | .error _, .inr rfl => nofun

/-- nested loops that add up a variable which is read before it has its value -/
def nestedLoops : Expr :=
  .block [("a", .var "a")] (.loop (.number 3) (.loop (.number 2) (.assign "x" (.binary .add (.var "x") (.var "a")))))

theorem simulate_nestedLoops : ∃ p, compile .closure nestedLoops = .ok p ∧ nestedLoops.functionFree ∧
    nestedLoops.counted ∧ ∃ enough, ∀ limit, enough ≤ limit → (∃ n, p.simulate limit = .ok n) ∨
      p.simulate limit = .error .divisionByZero ∨ p.simulate limit = .error .overflow := by
  obtain ⟨p, hp⟩ := exists_of_isOk (m := .closure) (e := nestedLoops) (by decide +kernel)
  have hf : nestedLoops.functionFree := by decide +kernel
  have hc : nestedLoops.counted := by decide +kernel
  obtain ⟨hsafe, hends⟩ := simulate_functionFree .closure hp hf
  obtain ⟨enough, henough⟩ := hends hc
  refine ⟨p, hp, hf, hc, enough, fun limit hl => ?_⟩
  rcases hsafe limit with h | h | h | h
  · exact .inl h
  · exact .inr (.inl h)
  · exact .inr (.inr h)
  · exact absurd h (henough limit hl limit)

/-! ## Agreement -/

section
variable {s : Program Stack.Op} {c : Program Closure.Op} {v : Program Vector.Op}

/-- **Agreement without functions.** The stack machine and the vector machine do the same; the closure machine does what
the expression means if the variables of blocks start as the addresses of their pairs, and the same as the others if no
value of a block uses its own name or a later one. -/
theorem outcomes_functionFree (hs : compile .stack e = .ok s) (hc : compile .closure e = .ok c)
    (hv : compile .vector e = .ok v) (hf : e.functionFree) :
    ∃ o o', e.Means (.usual .calleeFirst) o ∧ e.Means (Closure.convention e.globalNames.length true) o' ∧
      (∀ result ∈ o, Expr.IsArithmetic result) ∧ (∀ result ∈ o', Expr.IsArithmetic result) ∧
      s.Does o ∧ v.Does o ∧ c.Does o' ∧ (e.everywhere Expr.inOrder → c.Does o) := by
  obtain ⟨o, hm, ha⟩ := Expr.exists_meaning hf Vector.convention
  obtain ⟨o', hm', ha'⟩ := Expr.exists_meaning hf (Closure.convention e.globalNames.length true)
  have hstack : s.Does o :=
    Program.does_of_means hf (fun _ _ => Stack.follows_compile hs) (hm.of_order hf .reversed)
  have hvector : v.Does o := Program.does_of_means hf (fun _ _ => Vector.follows_compile hv) hm
  have hclosure : c.Does o' := Program.does_of_means hf (fun _ _ => Closure.follows_compile true hc hf) hm'
  refine ⟨o, o', hm, hm', ha, ha', hstack, hvector, hclosure, fun ho => ?_⟩
  have ht := Expr.capturesByValue_of_functionFree hf ho
  exact Program.does_of_means hf (fun _ _ => Closure.follows_compile false hc ht) (hm.of_order hf .calleeLast)

end

/-- a block whose second variable is computed from the first one, shadowing a global -/
def chainedBlock : Expr :=
  .seq [.assign "a" (.number 5),
    .block [("a", .number 3), ("b", .binary .mul (.var "a") (.number 2))]
      (.loop (.var "a") (.assign "b" (.binary .div (.number 84) (.var "b"))))]

theorem outcomes_chainedBlock : ∃ s c v, compile .stack chainedBlock = .ok s ∧ compile .closure chainedBlock = .ok c ∧
    compile .vector chainedBlock = .ok v ∧ chainedBlock.functionFree ∧ chainedBlock.everywhere Expr.inOrder ∧
    ∃ o, chainedBlock.Means (.usual .calleeFirst) o ∧ s.Does o ∧ c.Does o ∧ v.Does o := by
  obtain ⟨s, hs⟩ := exists_of_isOk (m := .stack) (e := chainedBlock) (by decide +kernel)
  obtain ⟨c, hc⟩ := exists_of_isOk (m := .closure) (e := chainedBlock) (by decide +kernel)
  obtain ⟨v, hv⟩ := exists_of_isOk (m := .vector) (e := chainedBlock) (by decide +kernel)
  have hf : chainedBlock.functionFree := by decide +kernel
  have ho : chainedBlock.everywhere Expr.inOrder := by decide +kernel
  obtain ⟨o, -, hm, -, -, -, hstack, hvector, -, hclosure⟩ := outcomes_functionFree hs hc hv hf
  exact ⟨s, c, v, hs, hc, hv, hf, ho, o, hm, hstack, hclosure ho, hvector⟩

/-- a block whose variable starts as itself -/
def selfInitialised : Expr := .block [("a", .var "a")] (.var "a")

/-- the stack machine finds 0 in the variable, the closure machine the address of its pair -/
theorem selfInitialised_disagrees : ∃ s c v, compile .stack selfInitialised = .ok s ∧
    compile .closure selfInitialised = .ok c ∧ compile .vector selfInitialised = .ok v ∧ selfInitialised.functionFree ∧
    ¬ ((∃ enough, ∀ limit, enough ≤ limit → s.simulate limit = c.simulate limit ∧ c.simulate limit = v.simulate limit) ∨
      s.Diverges ∧ c.Diverges ∧ v.Diverges) := by
  obtain ⟨s, hs⟩ := exists_of_isOk (m := .stack) (e := selfInitialised) (by decide +kernel)
  obtain ⟨c, hc⟩ := exists_of_isOk (m := .closure) (e := selfInitialised) (by decide +kernel)
  obtain ⟨v, hv⟩ := exists_of_isOk (m := .vector) (e := selfInitialised) (by decide +kernel)
  have hf : selfInitialised.functionFree := by decide +kernel
  have hstack : s.Settles (.ok 0) :=
    Program.settles_of_follows (fun fuel => Stack.follows_compile hs (.none _ fuel)) ⟨5, by decide +kernel⟩
  have hclosure : c.Settles (.ok (Heap.address 1)) :=
    Program.settles_of_follows (fun fuel => Closure.follows_compile true hc hf (.none _ fuel)) ⟨5, by decide +kernel⟩
  obtain ⟨m, hm⟩ := hstack
  obtain ⟨n, hn⟩ := hclosure
  refine ⟨s, c, v, hs, hc, hv, hf, ?_⟩
  rintro (⟨enough, h⟩ | ⟨h, -, -⟩)
  · have heq := (h (max enough (max m n)) (by omega)).1
    rw [hm _ (by omega), hn _ (by omega)] at heq
    exact absurd heq (by decide)
  · have hlimit := h m
    rw [hm m le_rfl] at hlimit
    cases hlimit

end ThreeMachines

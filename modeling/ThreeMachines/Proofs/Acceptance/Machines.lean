/-
Which expressions each machine accepts.

`exists_compile_iff_names`: the vector machine accepts an expression just when its names are in order and each free name
is assigned somewhere; the closure machine asks in addition that no assignment reaches out of a function literal; and
whatever the stack machine accepts the closure machine accepts too.
-/
import ThreeMachines.Proofs.Stack.Acceptance
import ThreeMachines.Proofs.Closure.Acceptance
import ThreeMachines.Proofs.Vector.Acceptance

namespace ThreeMachines

/-- **Acceptance.** What decides, on each machine, whether an expression has a program. -/
theorem exists_compile_iff_names (e : Expr) :
    ((∃ p, compile .vector e = .ok p) ↔
      (∀ x ∈ e.freeNames, x ∈ e.assignedNames) ∧ e.everywhere Expr.distinctNames) ∧
    ((∃ p, compile .closure e = .ok p) ↔ (∃ p, compile .vector e = .ok p) ∧ e.assignsWithin [] []) ∧
    ((∃ p, compile .stack e = .ok p) → ∃ p, compile .closure e = .ok p) := by
  refine ⟨?_, ?_, fun h => Closure.exists_compile.2 (Stack.resolves_compile h)⟩
  · simp only [Expr.mem_freeNames, Expr.mem_assignedNames]
    exact Vector.exists_compile
  · rw [Vector.exists_compile]
    exact Closure.exists_compile

/-- a function that writes into a variable of the block around it, and is called there -/
def outerWrite : Expr := .block [("x", .number 0)] (.call (.lambda [] (.assign "x" (.number 1))) [])

/-- the vector machine shares the variable with the function, the closure machine would write into a copy -/
theorem exists_compile_outerWrite : (∃ p, compile .vector outerWrite = .ok p) ∧
    ¬ (∃ p, compile .closure outerWrite = .ok p) ∧ ¬ ∃ p, compile .stack outerWrite = .ok p := by
  obtain ⟨hvector, hclosure, hstack⟩ := exists_compile_iff_names outerWrite
  have hrefused : ¬ ∃ p, compile .closure outerWrite = .ok p := fun h => absurd (hclosure.1 h).2 (by decide)
  exact ⟨hvector.2 (by decide), hrefused, fun h => hrefused (hstack h)⟩

end ThreeMachines

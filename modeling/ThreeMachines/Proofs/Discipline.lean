/-
The discipline of generated code.

On every machine, the program of an accepted expression comes with an owner and a depth for each instruction
(`disciplined_of_compile`): depths start at 0, follow the effects of the instructions on every way through the program, and
end at 1, or at the number of locals where a procedure of the stack machine returns; jumps stay in their stream and in
their routine; and frames are reached only where they have words.
-/
import ThreeMachines.Proofs.Annotations
import ThreeMachines.Proofs.Closure.Depths
import ThreeMachines.Proofs.Stack.Depths
import ThreeMachines.Proofs.Vector.Depths

namespace ThreeMachines

instance (m : Machine) : Framed m.Op :=
  match m with
  | .stack => inferInstanceAs (Framed Stack.Op)
  | .closure => inferInstanceAs (Framed Closure.Op)
  | .vector => inferInstanceAs (Framed Vector.Op)

/-- **Generated code** is disciplined: every instruction has its owner and its depth. -/
theorem disciplined_of_compile {m : Machine} {e : Expr} {p : Program m.Op} (h : compile m e = .ok p) :
    ∃ owner depth, Disciplined e p owner depth := by
  obtain ⟨_, -, hc⟩ := generate_of_compile h
  cases m with
  | stack =>
    have hbodies := Stack.bodies_compile h
    exact disciplined_of_segments hc (by simp [hbodies]) (Stack.segment_compile h) fun r hr => ⟨hr, by simp [hbodies]⟩
  | closure => exact disciplined_of_segments hc (Closure.bodies_compile h) (Closure.segment_compile h) nofun
  | vector => exact disciplined_of_segments hc (Vector.bodies_compile h) (Vector.segment_compile h) nofun

/-- a procedure with a local variable, called in a loop -/
def countedCalls : Expr :=
  .block [("f", .proc ["n"] ["m"] (.seq [.assign "m" (.binary .mul (.var "n") (.number 2)), .var "m"]))]
    (.loop (.number 3) (.call (.var "f") [.number 7]))

theorem disciplined_countedCalls : ∃ p : Program Machine.closure.Op, compile .closure countedCalls = .ok p ∧
    ∃ owner depth, Disciplined countedCalls p owner depth := by
  obtain ⟨p, hp⟩ := exists_of_isOk (m := .closure) (e := countedCalls) (by decide +kernel)
  exact ⟨p, hp, disciplined_of_compile hp⟩

end ThreeMachines

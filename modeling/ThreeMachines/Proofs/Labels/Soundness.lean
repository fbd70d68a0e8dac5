/-
What the check of labels is good for when a program runs.

The check counts definitions and compares the labels that instructions name with those that are defined; the run looks
labels up in the table of the image. `checkLabels_sound` puts the two side by side for every program of a machine, also
one that no compiler has made: checked labels are always found, each at the one place where it is written. That a run
never leaves the code takes no check at all.
-/
import ThreeMachines.Proofs.Confinement

namespace ThreeMachines

namespace Image

variable {ι : Type} [Operation ι] {p : Program ι} {l : Label} {pc : Nat}

/-- where labels have been checked, a defined label names the one place where it is written -/
theorem exists_target (h : p.checkLabels = .ok ()) (hl : l ∈ p.definitions) :
    ∃ pc, (ofProgram p).target l = .ok pc ∧ Marks p l pc ∧ ∀ other, Marks p l other → other = pc := by
  obtain ⟨pc, hpc⟩ := exists_marks hl
  have htarget := (target_eq_ok_iff h).2 hpc
  refine ⟨pc, htarget, hpc, fun other hother => ?_⟩
  cases ((target_eq_ok_iff h).2 hother).symm.trans htarget
  rfl

/-- where labels have been checked, no instruction of the image asks for a label in vain -/
theorem target_of_references (h : p.checkLabels = .ok ()) {instr : Instr ι} (hi : (ofProgram p).instrs[pc]? = some instr)
    (hl : instr.references = some l) : ∃ place, (ofProgram p).target l = .ok place := by
  obtain ⟨place, hplace, -⟩ := exists_target h (mem_definitions_of_references h hi hl)
  exact ⟨place, hplace⟩

end Image

namespace Program

/-- a function whose body is empty: called, it goes on with the body that lies behind its own -/
def fallingThrough : Program Closure.Op where
  code := [.own (.mark ⟨"back"⟩), .own (.mkvec 0), .own (.mkfunval ⟨"empty"⟩), .own (.apply 0), .label ⟨"back"⟩]
  lambdas := ⟨[⟨⟨"empty"⟩, [], [], []⟩, ⟨⟨"seven"⟩, [], [], [.loadc (.int 7), .own .popenv]⟩]⟩
  globals := []

end Program
end ThreeMachines

/-
Runs of a machine as sequences of steps.

`Image.run` counts a limit down; here a run is a chain of steps between points, a point being the next instruction and
the memory (stack, heap, registers). The instruction that the operand stack remembers for its underflow reports is left
out of a point: no step depends on it.

- `Runs image k a b`: `k` steps lead from `a` to `b`; `Reaches`, `RunsOn` and `Faults` are built on it.
- `run_of_runs`: a chain of steps takes exactly its length from the limit of `Image.run`.
- `Program.Ends p r`: the program ends in `r` after some steps, and a smaller limit only cuts it off; `ends_of_halts` and
  `ends_of_faults` give it. `Program.Settles p r` speaks of large limits only.
-/
import Mathlib.Tactic
import ThreeMachines.Run.Execution

namespace ThreeMachines

/-- all that a machine remembers from one instruction to the next, but its place in the code -/
structure Memory (ρ : Type) where
  words : Array Int
  heap : Heap
  regs : ρ

namespace Memory

variable {ρ : Type}

def push (m : Memory ρ) (w : Int) : Memory ρ := { m with words := m.words.push w }

/-- the machine about to run instruction `pc`, with `running` left over as the instruction before -/
def at_ (m : Memory ρ) (pc running : Nat) : State ρ := ⟨pc, ⟨m.words, running⟩, m.heap, m.regs⟩

end Memory

/-- the next instruction and the memory -/
structure Point (ρ : Type) where
  pc : Nat
  mem : Memory ρ

namespace Image

variable {ι ρ : Type} [Runnable ι ρ]

/-- one step without a fault -/
def Moves (image : Image ι) (a b : Point ρ) : Prop :=
  ∀ running, ∃ running', image.step (a.mem.at_ a.pc running) = .ok () (b.mem.at_ b.pc running')

/-- the next step is a fault -/
def Fails (image : Image ι) (a : Point ρ) (cause : Fault) : Prop :=
  a.pc ≠ image.stop ∧ ∀ running, ∃ s, image.step (a.mem.at_ a.pc running) = .error cause s

/-- a chain of steps and its length -/
inductive Runs (image : Image ι) : Nat → Point ρ → Point ρ → Prop
  | refl (a : Point ρ) : Runs image 0 a a
  | step {k : Nat} {a b c : Point ρ} : image.Moves a b → Runs image k b c → Runs image (k + 1) a c

def Reaches (image : Image ι) (a b : Point ρ) : Prop := ∃ k, image.Runs k a b

/-- the run from `a` has at least `k` steps -/
def RunsOn (image : Image ι) (k : Nat) (a : Point ρ) : Prop := ∃ n b, k ≤ n ∧ image.Runs n a b

def Faults (image : Image ι) (a : Point ρ) (cause : Fault) : Prop := ∃ b, image.Reaches a b ∧ image.Fails b cause

variable {image : Image ι} {a b c : Point ρ} {j k : Nat} {cause : Fault}

theorem Runs.trans (h1 : image.Runs j a b) (h2 : image.Runs k b c) : image.Runs (j + k) a c := by
  induction h1 with
  | refl => rwa [Nat.zero_add]
  | step hs _ ih => rw [Nat.add_right_comm]; exact .step hs (ih h2)

theorem Reaches.refl (a : Point ρ) : image.Reaches a a := ⟨0, .refl a⟩

theorem Reaches.trans (h1 : image.Reaches a b) (h2 : image.Reaches b c) : image.Reaches a c := by
  obtain ⟨j, h1⟩ := h1
  obtain ⟨k, h2⟩ := h2
  exact ⟨j + k, h1.trans h2⟩

theorem Moves.reaches (h : image.Moves a b) : image.Reaches a b := ⟨1, .step h (.refl b)⟩

theorem Reaches.faults (h1 : image.Reaches a b) (h2 : image.Faults b cause) : image.Faults a cause := by
  obtain ⟨c, hc, hf⟩ := h2
  exact ⟨c, h1.trans hc, hf⟩

theorem Fails.faults (h : image.Fails a cause) : image.Faults a cause := ⟨a, .refl a, h⟩

theorem RunsOn.zero (a : Point ρ) : image.RunsOn 0 a := ⟨0, a, le_rfl, .refl a⟩

theorem RunsOn.mono (h : image.RunsOn k a) (hj : j ≤ k) : image.RunsOn j a := by
  obtain ⟨n, b, hn, hr⟩ := h
  exact ⟨n, b, hj.trans hn, hr⟩

theorem Reaches.runsOn (h1 : image.Reaches a b) (h2 : image.RunsOn k b) : image.RunsOn k a := by
  obtain ⟨j, h1⟩ := h1
  obtain ⟨n, c, hn, h2⟩ := h2
  exact ⟨j + n, c, hn.trans (Nat.le_add_left n j), h1.trans h2⟩

theorem Moves.runsOn (h1 : image.Moves a b) (h2 : image.RunsOn k b) : image.RunsOn (k + 1) a := by
  obtain ⟨n, c, hn, h2⟩ := h2
  exact ⟨n + 1, c, Nat.succ_le_succ hn, .step h1 h2⟩

/-! ## Chains of steps and limits -/

/-- at the end of the code there is no step -/
theorem Moves.pc_ne_stop (h : image.Moves a b) : a.pc ≠ image.stop := by
  intro hpc
  obtain ⟨_, hs⟩ := h 0
  have hnone : image.instrs[a.pc]? = none := by
    rw [hpc]
    exact Array.getElem?_eq_none le_rfl
  simp only [step, bind, EStateM.bind, Exec.next, Exec.onStack, OperandStack.running, Memory.at_, hnone] at hs
  cases hs

/-- **Steps and limits.** A chain of `k` steps takes `k` from what is left of the limit. -/
theorem run_of_runs (limit left : Nat) (h : image.Runs k a b) (running : Nat) :
    ∃ running', image.run limit (k + left) (a.mem.at_ a.pc running) =
      image.run limit left (b.mem.at_ b.pc running') := by
  induction h generalizing running with
  | refl a => exact ⟨running, by rw [Nat.zero_add]⟩
  | @step k a b c hs _ ih =>
    obtain ⟨running₁, hs₁⟩ := hs running
    obtain ⟨running₂, ih₂⟩ := ih running₁
    refine ⟨running₂, ?_⟩
    rw [← ih₂, Nat.add_right_comm, run]
    simp only [hs₁]
    rw [if_neg]
    exact hs.pc_ne_stop

/-- the run ends where the code ends -/
theorem run_of_halts (limit left : Nat) (w : Int) (m : Memory ρ) (running : Nat) :
    image.run limit left ((m.push w).at_ image.stop running) = .ok w := by
  rw [run.eq_def]
  simp [Memory.at_, Memory.push, result, OperandStack.pop]

theorem run_of_fails (limit left : Nat) (h : image.Fails a cause) (running : Nat) :
    image.run limit (left + 1) (a.mem.at_ a.pc running) = .error cause := by
  obtain ⟨s, hs⟩ := h.2 running
  rw [run]
  simp only [hs]
  exact if_neg h.1

theorem run_of_runsOn (limit : Nat) (h : image.Runs k a b) (left : Nat) (hleft : left < k) (running : Nat) :
    image.run limit left (a.mem.at_ a.pc running) = .error (.stepLimit limit) := by
  induction h generalizing left running with
  | refl a => exact absurd hleft (Nat.not_lt_zero left)
  | @step k a b c hs _ ih =>
    obtain ⟨running₁, hs₁⟩ := hs running
    have hpc : ((a.mem.at_ a.pc running).pc = image.stop) = False := by simpa [Memory.at_] using hs.pc_ne_stop
    cases left with
    | zero => rw [run, if_neg (by rw [hpc]; exact id)]
    | succ left =>
      rw [run, if_neg (by rw [hpc]; exact id)]
      simp only [hs₁]
      exact ih left (Nat.lt_of_succ_lt_succ hleft) running₁

end Image

namespace Program

variable {ι ρ : Type} [Runnable ι ρ]

/-- with every large enough limit the program ends in `result` -/
def Settles (p : Program ι) (result : Except Fault Int) : Prop :=
  ∃ enough, ∀ limit, enough ≤ limit → p.simulate limit = result

/-- the program ends in `result` after some steps; a smaller limit only cuts the run off -/
def Ends (p : Program ι) (result : Except Fault Int) : Prop :=
  ∃ steps, ∀ limit, p.simulate limit = if steps ≤ limit then result else .error (.stepLimit limit)

/-- a limit never suffices -/
def Diverges (p : Program ι) : Prop := ∀ limit, p.simulate limit = .error (.stepLimit limit)

/-- the first point of a run -/
def startPoint (p : Program ι) : Point ρ :=
  let s : State ρ := Runnable.start p
  ⟨s.pc, s.stack.words, s.heap, s.regs⟩

variable {p : Program ι} {b : Point ρ}

theorem simulate_eq (p : Program ι) (limit : Nat) : ∃ running, p.simulate limit =
    (Image.ofProgram p).run limit limit ((startPoint (ρ := ρ) p).mem.at_ (startPoint (ρ := ρ) p).pc running) :=
  ⟨(Runnable.start p).stack.pc, rfl⟩

theorem Ends.settles {result : Except Fault Int} (h : p.Ends result) : p.Settles result := by
  obtain ⟨steps, h⟩ := h
  exact ⟨steps, fun limit hl => by rw [h, if_pos hl]⟩

/-- a chain of steps takes its length from the limit; a smaller limit cuts it off -/
theorem simulate_of_runs {k : Nat} (h : (Image.ofProgram p).Runs k p.startPoint b) (limit : Nat) :
    ∃ running, p.simulate limit =
      if k ≤ limit then (Image.ofProgram p).run limit (limit - k) (b.mem.at_ b.pc running)
      else .error (.stepLimit limit) := by
  obtain ⟨running, hs⟩ := simulate_eq (ρ := ρ) p limit
  by_cases hl : k ≤ limit
  · obtain ⟨running', hr⟩ := Image.run_of_runs limit (limit - k) h running
    rw [Nat.add_sub_cancel' hl] at hr
    exact ⟨running', by rw [hs, hr, if_pos hl]⟩
  · refine ⟨running, ?_⟩
    rw [hs, if_neg hl]
    exact Image.run_of_runsOn limit h limit (Nat.lt_of_not_le hl) running

/-- a run that reaches the end of the code with a word on top ends in the word -/
theorem ends_of_halts {m : Memory ρ} {w : Int}
    (h : (Image.ofProgram p).Reaches p.startPoint ⟨(Image.ofProgram p).stop, m.push w⟩) : p.Ends (.ok w) := by
  obtain ⟨k, hk⟩ := h
  refine ⟨k, fun limit => ?_⟩
  obtain ⟨running, hs⟩ := simulate_of_runs hk limit
  rw [hs, Image.run_of_halts]

/-- a run into a fault ends in the fault -/
theorem ends_of_faults {cause : Fault} (h : (Image.ofProgram p).Faults (ρ := ρ) p.startPoint cause) :
    p.Ends (.error cause) := by
  obtain ⟨b, ⟨k, hk⟩, hf⟩ := h
  refine ⟨k + 1, fun limit => ?_⟩
  obtain ⟨running, hs⟩ := simulate_of_runs hk limit
  rw [hs]
  rcases Nat.lt_trichotomy k limit with hlt | rfl | hlt
  · obtain ⟨left, hleft⟩ := Nat.exists_eq_add_of_lt hlt
    rw [if_pos hlt.le, if_pos (Nat.succ_le_of_lt hlt), show limit - k = left + 1 by omega]
    exact Image.run_of_fails _ _ hf _
  · rw [if_pos le_rfl, if_neg (Nat.not_succ_le_self k), Nat.sub_self, Image.run]
    exact if_neg hf.1
  · rw [if_neg (Nat.not_le.2 hlt), if_neg (by omega)]

/-- a run that goes on and on uses up every limit -/
theorem diverges_of_runsOn (h : ∀ k, (Image.ofProgram p).RunsOn (ρ := ρ) k p.startPoint) : p.Diverges := by
  intro limit
  obtain ⟨n, b, hn, hr⟩ := h (limit + 1)
  obtain ⟨running, hs⟩ := simulate_eq p limit
  rw [hs]
  exact Image.run_of_runsOn limit hr limit hn running

end Program
end ThreeMachines

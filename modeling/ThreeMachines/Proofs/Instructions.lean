/-
What single instructions do to the memory.

The parts of an instruction's work (`Exec.push`, `Exec.pop`, ...) are computed on a machine with a known memory, and
from them one lemma for each instruction that all machines share: where the run goes from the instruction, and with
which memory (`Image.Moves`), or that it fails there (`Image.Fails`).
-/
import ThreeMachines.Proofs.Steps

namespace ThreeMachines

/-! ## Sequencing -/

section
variable {ε σ α β : Type}

theorem bind_apply (x : EStateM ε σ α) (f : α → EStateM ε σ β) (s : σ) :
    (x >>= f) s = match x s with
      | .ok a t => f a t
      | .error e t => .error e t := rfl

theorem pure_apply (a : α) (s : σ) : (pure a : EStateM ε σ α) s = .ok a s := rfl

end

variable {ι ρ : Type} {m : Memory ρ} {pc r : Nat}

namespace Memory

@[simp] theorem push_words (m : Memory ρ) (w : Int) : (m.push w).words = m.words.push w := rfl

@[simp] theorem push_heap (m : Memory ρ) (w : Int) : (m.push w).heap = m.heap := rfl

@[simp] theorem push_regs (m : Memory ρ) (w : Int) : (m.push w).regs = m.regs := rfl

/-- several words on top, the last one uppermost -/
def pushes (m : Memory ρ) (as : List Int) : Memory ρ := as.foldl push m

@[simp] theorem pushes_nil (m : Memory ρ) : m.pushes [] = m := rfl

@[simp] theorem pushes_cons (m : Memory ρ) (a : Int) (as : List Int) : m.pushes (a :: as) = (m.push a).pushes as := rfl

@[simp] theorem pushes_append (m : Memory ρ) (as bs : List Int) : m.pushes (as ++ bs) = (m.pushes as).pushes bs :=
  List.foldl_append

theorem pushes_eq (m : Memory ρ) (as : List Int) : m.pushes as = { m with words := m.words ++ as.toArray } := by
  induction as generalizing m with
  | nil => simp
  | cons a as ih =>
    rw [pushes_cons, ih]
    simp [push]

@[simp] theorem pushes_heap (m : Memory ρ) (as : List Int) : (m.pushes as).heap = m.heap := by rw [pushes_eq]

@[simp] theorem pushes_regs (m : Memory ρ) (as : List Int) : (m.pushes as).regs = m.regs := by rw [pushes_eq]

theorem pushes_words (m : Memory ρ) (as : List Int) : (m.pushes as).words = m.words ++ as.toArray := by rw [pushes_eq]

/-- another word at a place of the stack -/
def write (m : Memory ρ) (i : Nat) (a : Int) : Memory ρ := { m with words := m.words.setIfInBounds i a }

theorem write_pushes (m : Memory ρ) (as : List Int) (i : Nat) (a : Int) :
    (m.pushes as).write (m.words.size + i) a = m.pushes (as.set i a) := by
  simp [write, pushes_eq, Array.setIfInBounds_append_right]

/-- a write under the top -/
theorem set_push {m : Memory ρ} {i : Nat} (a b : Int) (hi : i < m.words.size) :
    (m.words.push a).set i b (by simpa using Nat.lt_succ_of_lt hi) = (m.write i b).words.push a := by
  rw [Array.set_push, dif_pos hi, write, Array.setIfInBounds, dif_pos hi]

@[simp] theorem at_pc (m : Memory ρ) (pc r : Nat) : (m.at_ pc r).pc = pc := rfl

@[simp] theorem at_size (m : Memory ρ) (pc r : Nat) : (m.at_ pc r).stack.size = m.words.size := rfl

@[simp] theorem at_words (m : Memory ρ) (pc r : Nat) : (m.at_ pc r).stack.words = m.words := rfl

@[simp] theorem at_heap (m : Memory ρ) (pc r : Nat) : (m.at_ pc r).heap = m.heap := rfl

@[simp] theorem at_regs (m : Memory ρ) (pc r : Nat) : (m.at_ pc r).regs = m.regs := rfl

end Memory

/-! ## Parts of an instruction -/

namespace Exec

@[simp] theorem push_at (m : Memory ρ) (w : Int) : push w (m.at_ pc r) = .ok () ((m.push w).at_ pc r) := rfl

@[simp] theorem pop_at (m : Memory ρ) (w : Int) : pop ((m.push w).at_ pc r) = .ok w (m.at_ pc r) := by
  simp [pop, onStack, OperandStack.pop, Memory.at_, Memory.push]

@[simp] theorem top_at (m : Memory ρ) (w : Int) : top ((m.push w).at_ pc r) = .ok w ((m.push w).at_ pc r) := by
  simp [top, onStack, OperandStack.top, OperandStack.peek, OperandStack.indexFromTop, OperandStack.get, Memory.at_,
    Memory.push, bind_apply]

theorem getAt_at {i : Nat} {w : Int} (h : m.words[i]? = some w) :
    getAt i (m.at_ pc r) = .ok w (m.at_ pc r) := by
  simp [getAt, onStack, OperandStack.get, Memory.at_, h]

theorem setAt_at {i : Nat} (h : i < m.words.size) (w : Int) :
    setAt i w (m.at_ pc r) = .ok () (({ m with words := m.words.set i w h }).at_ pc r) := by
  simp [setAt, onStack, OperandStack.set, Memory.at_, h]

theorem peek_at {d i : Nat} {w : Int} (hd : d + i + 1 = m.words.size) (h : m.words[i]? = some w) :
    peek d (m.at_ pc r) = .ok w (m.at_ pc r) := by
  have hi : m.words.size - 1 - d = i := by omega
  have hlt : d < m.words.size := by omega
  simp [peek, onStack, OperandStack.peek, OperandStack.indexFromTop, OperandStack.get, Memory.at_, bind_apply, hi, hlt,
    h]

theorem poke_at {d i : Nat} (hd : d + i + 1 = m.words.size) (hi : i < m.words.size) (w : Int) :
    poke d w (m.at_ pc r) = .ok () (({ m with words := m.words.set i w hi }).at_ pc r) := by
  have hi' : m.words.size - 1 - d = i := by omega
  have hlt : d < m.words.size := by omega
  simp [poke, onStack, OperandStack.poke, OperandStack.indexFromTop, OperandStack.set, Memory.at_, bind_apply, hi',
    hlt, hi]

@[simp] theorem poke_zero_at (m : Memory ρ) (v w : Int) :
    poke 0 w ((m.push v).at_ pc r) = .ok () ((m.push w).at_ pc r) := by
  have hset : (m.words.push v).set m.words.size w (by simp) = m.words.push w := by
    ext i h1 h2
    · simp
    · have hle : i ≤ m.words.size := by simpa [Nat.lt_succ_iff] using h2
      rcases Nat.lt_or_eq_of_le hle with hi | rfl
      · rw [Array.getElem_set_ne (by simp) (by simpa using hle) (Nat.ne_of_gt hi), Array.getElem_push_lt hi,
          Array.getElem_push_lt hi]
      · simp
  rw [poke_at (i := m.words.size) (by simp) (by simp)]
  simp only [Memory.push, hset]

theorem truncate_at (m : Memory ρ) (count : Nat) :
    truncate count (m.at_ pc r) = .ok () (({ m with words := m.words.take count }).at_ pc r) := by
  simp [truncate, onStack, OperandStack.truncate, Memory.at_]

/-! ### The words over a memory -/

section
variable {as : List Int} {i d : Nat} {a : Int}

theorem getAt_pushes (m : Memory ρ) (h : as[i]? = some a) :
    getAt (m.words.size + i) ((m.pushes as).at_ pc r) = .ok a ((m.pushes as).at_ pc r) := by
  refine getAt_at ?_
  rw [Memory.pushes_words]
  simp [Array.getElem?_append, h]

theorem setAt_pushes (m : Memory ρ) (h : i < as.length) (w : Int) :
    setAt (m.words.size + i) w ((m.pushes as).at_ pc r) = .ok () ((m.pushes (as.set i w)).at_ pc r) := by
  rw [setAt_at (by rw [Memory.pushes_words]; simpa using h)]
  simp [Memory.pushes_eq, Array.set_append_right]

theorem peek_pushes (m : Memory ρ) (h : as[i]? = some a) (hd : d + i + 1 = as.length) :
    peek d ((m.pushes as).at_ pc r) = .ok a ((m.pushes as).at_ pc r) := by
  refine peek_at (i := m.words.size + i) ?_ ?_
  · rw [Memory.pushes_words]
    simp
    omega
  · rw [Memory.pushes_words]
    simp [Array.getElem?_append, h]

theorem truncate_pushes (m : Memory ρ) (as : List Int) (i : Nat) :
    truncate (m.words.size + i) ((m.pushes as).at_ pc r) = .ok () ((m.pushes (as.take i)).at_ pc r) := by
  have hwords : m.words.extract 0 (m.words.size + i) = m.words := Array.extract_eq_self_of_le (Nat.le_add_right _ i)
  rw [truncate_at]
  simp [Memory.pushes_eq, hwords]

/-- words that are dropped under the top -/
theorem slide_pushes (m : Memory ρ) (as : List Int) (a : Int) :
    slide as.length (((m.pushes as).push a).at_ pc r) = .ok () ((m.push a).at_ pc r) := by
  have hwords : (m.words ++ as.toArray).take m.words.size = m.words := by simp
  simp [slide, onStack, OperandStack.slide, OperandStack.pop, OperandStack.drop, OperandStack.push, bind_apply,
    Memory.at_, Memory.push, Memory.pushes_words, hwords]

end

@[simp] theorem stackSize_at (m : Memory ρ) : stackSize (m.at_ pc r) = .ok m.words.size (m.at_ pc r) := rfl

@[simp] theorem next_at (m : Memory ρ) : next (m.at_ pc r) = .ok pc (m.at_ pc r) := rfl

@[simp] theorem jumpTo_at (m : Memory ρ) (pc' : Nat) : jumpTo pc' (m.at_ pc r) = .ok () (m.at_ pc' r) := rfl

@[simp] theorem registers_at (m : Memory ρ) : registers (m.at_ pc r) = .ok m.regs (m.at_ pc r) := rfl

@[simp] theorem setRegisters_at (m : Memory ρ) (regs : ρ) :
    setRegisters regs (m.at_ pc r) = .ok () (({ m with regs }).at_ pc r) := rfl

@[simp] theorem check_ok {α : Type} (a : α) (s : State ρ) : check (.ok a) s = .ok a s := rfl

@[simp] theorem check_error {α : Type} (cause : Fault) (s : State ρ) :
    check (α := α) (.error cause) s = .error cause s := rfl

end Exec

/-! ## Instructions that all machines share -/

namespace Image

variable [Runnable ι ρ] {image : Image ι} {i : Instr ι} {m' : Memory ρ} {pc' target : Nat} {l : Label}

theorem step_at (h : image.instrs[pc]? = some i) :
    image.step (m.at_ pc r) = i.exec image (m.at_ (pc + 1) pc) := by
  have hs : Exec.onStack (OperandStack.running pc) (m.at_ pc r) = .ok () (m.at_ pc pc) := rfl
  simp [step, bind_apply, hs, h]

theorem moves_of_exec (h : image.instrs[pc]? = some i)
    (he : ∀ r, i.exec image (m.at_ (pc + 1) r) = .ok () (m'.at_ pc' r)) : image.Moves ⟨pc, m⟩ ⟨pc', m'⟩ :=
  fun r => ⟨pc, (step_at (r := r) h).trans (he pc)⟩

theorem fails_of_exec {cause : Fault} (h : image.instrs[pc]? = some i)
    (he : ∀ r, ∃ s, i.exec image (m.at_ (pc + 1) r) = .error cause s) : image.Fails ⟨pc, m⟩ cause := by
  refine ⟨fun hpc => ?_, fun r => ?_⟩
  · have hnone : image.instrs[pc]? = none := Array.getElem?_eq_none (Nat.le_of_eq hpc.symm)
    rw [hnone] at h
    cases h
  · obtain ⟨s, hs⟩ := he pc
    exact ⟨s, (step_at (r := r) h).trans hs⟩

theorem moves_own {op : ι} (h : image.instrs[pc]? = some (.own op))
    (he : ∀ r, Runnable.exec image op (m.at_ (pc + 1) r) = .ok () (m'.at_ pc' r)) :
    image.Moves ⟨pc, m⟩ ⟨pc', m'⟩ := moves_of_exec h he

theorem moves_loadc {n : Int} (h : image.instrs[pc]? = some (.loadc (.int n))) :
    image.Moves ⟨pc, m⟩ ⟨pc + 1, m.push n⟩ := moves_of_exec h fun _ => rfl

theorem addressOf_of_target (h : image.target l = .ok target) : image.addressOf l = .ok (base + target) := by
  simp [addressOf, h, bind, Except.bind, pure, Except.pure]

theorem moves_loadAddr (h : image.instrs[pc]? = some (.loadc (.addr l))) (ht : image.target l = .ok target) :
    image.Moves ⟨pc, m⟩ ⟨pc + 1, m.push (base + target)⟩ :=
  moves_of_exec h fun _ => by simp [Instr.exec, bind_apply, addressOf_of_target ht]

theorem pcOf_base {pc : Nat} (h : pc < image.instrs.size) : image.pcOf (base + pc) = .ok pc := by
  have hpc : base + (pc : Int) - base = pc := by omega
  rw [pcOf]
  simp only [hpc, Int.toNat_natCast]
  exact if_pos ⟨Int.natCast_nonneg pc, h⟩

theorem moves_pop {w : Int} (h : image.instrs[pc]? = some .pop) :
    image.Moves ⟨pc, m.push w⟩ ⟨pc + 1, m⟩ :=
  moves_of_exec h fun _ => by simp [Instr.exec, bind_apply, pure_apply]

theorem moves_dup {w : Int} (h : image.instrs[pc]? = some .dup) :
    image.Moves ⟨pc, m.push w⟩ ⟨pc + 1, (m.push w).push w⟩ :=
  moves_of_exec h fun _ => by simp [Instr.exec, bind_apply]

theorem moves_swap {v w : Int} (h : image.instrs[pc]? = some .swap) :
    image.Moves ⟨pc, (m.push v).push w⟩ ⟨pc + 1, (m.push w).push v⟩ :=
  moves_of_exec h fun _ => by simp [Instr.exec, bind_apply]

theorem moves_dec {w : Int} (h : image.instrs[pc]? = some .dec) :
    image.Moves ⟨pc, m.push w⟩ ⟨pc + 1, m.push (wrap (w - 1))⟩ :=
  moves_of_exec h fun _ => by simp [Instr.exec, bind_apply]

theorem moves_unary {op : UnaryOp} {w : Int} (h : image.instrs[pc]? = some (.unary op)) :
    image.Moves ⟨pc, m.push w⟩ ⟨pc + 1, m.push (op.eval w)⟩ :=
  moves_of_exec h fun _ => by simp [Instr.exec, bind_apply]

theorem moves_binary {op : BinaryOp} {v w n : Int} (h : image.instrs[pc]? = some (.binary op))
    (hop : op.eval v w = .ok n) : image.Moves ⟨pc, (m.push v).push w⟩ ⟨pc + 1, m.push n⟩ :=
  moves_of_exec h fun _ => by simp [Instr.exec, bind_apply, hop]

theorem fails_binary {op : BinaryOp} {v w : Int} {cause : Fault} (h : image.instrs[pc]? = some (.binary op))
    (hop : op.eval v w = .error cause) : image.Fails ⟨pc, (m.push v).push w⟩ cause :=
  fails_of_exec h fun r => ⟨m.at_ (pc + 1) r, by simp [Instr.exec, bind_apply, hop]⟩

theorem moves_label (h : image.instrs[pc]? = some (.label l)) : image.Moves ⟨pc, m⟩ ⟨pc + 1, m⟩ :=
  moves_of_exec h fun _ => rfl

theorem moves_jump (h : image.instrs[pc]? = some (.jump l)) (ht : image.target l = .ok target) :
    image.Moves ⟨pc, m⟩ ⟨target, m⟩ :=
  moves_of_exec h fun _ => by simp [Instr.exec, bind_apply, ht]

theorem moves_jumpz_zero (h : image.instrs[pc]? = some (.jumpz l)) (ht : image.target l = .ok target) :
    image.Moves ⟨pc, m.push 0⟩ ⟨target, m⟩ :=
  moves_of_exec h fun _ => by simp [Instr.exec, bind_apply, ht]

theorem moves_jumpz_ne {w : Int} (h : image.instrs[pc]? = some (.jumpz l)) (hw : w ≠ 0) :
    image.Moves ⟨pc, m.push w⟩ ⟨pc + 1, m⟩ :=
  moves_of_exec h fun _ => by simp [Instr.exec, bind_apply, hw, pure_apply]

end Image
end ThreeMachines

/-
What the operations of the stack machine do to the memory: one lemma for each of them.
-/
import ThreeMachines.Proofs.Simulation
import ThreeMachines.Stack.Run

namespace ThreeMachines.Stack

variable {image : Image Op} {m : Memory Registers} {pc i r : Nat} {a : Int}

/-- the memory with another frame pointer -/
def framed (m : Memory Registers) (fp : Int) : Memory Registers := { m with regs := ⟨fp⟩ }

@[simp] theorem framed_words (m : Memory Registers) (fp : Int) : (framed m fp).words = m.words := rfl

@[simp] theorem framed_fp (m : Memory Registers) (fp : Int) : (framed m fp).regs.fp = fp := rfl

@[simp] theorem framed_self (m : Memory Registers) : framed m m.regs.fp = m := rfl

theorem framed_pushes (m : Memory Registers) (as : List Int) (fp : Int) :
    framed (m.pushes as) fp = (framed m fp).pushes as := by
  simp [framed, Memory.pushes_eq]

theorem slot_mul (i : Nat) : slot (wordSize * i) = .ok i := by
  have h : wordSize * (i : Int) / wordSize = i := Int.mul_ediv_cancel_left _ (by decide)
  rw [slot, if_pos ⟨by simp only [wordSize]; omega, Int.mul_emod_right _ _⟩, h, Int.toNat_natCast]

theorem words_tdiv (count : Nat) : ((wordSize * (count : Int)).tdiv wordSize).toNat = count := by
  rw [Int.mul_tdiv_cancel_left _ (show wordSize ≠ 0 by decide), Int.toNat_natCast]

/-! ## Variables -/

theorem moves_load (h : image.instrs[pc]? = some (.own .load)) (ha : m.words[i]? = some a) :
    image.Moves ⟨pc, m.push (wordSize * i)⟩ ⟨pc + 1, m.push a⟩ := by
  refine Image.moves_own h fun r => ?_
  simp only [Runnable.exec, exec, bind_apply, Exec.pop_at, slot_mul, Exec.check_ok, Exec.getAt_at ha, Exec.push_at]

theorem moves_store (h : image.instrs[pc]? = some (.own .store)) (hi : i < m.words.size) :
    image.Moves ⟨pc, (m.push a).push (wordSize * i)⟩ ⟨pc + 1, (m.write i a).push a⟩ := by
  refine Image.moves_own h fun r => ?_
  simp only [Runnable.exec, exec, bind_apply, Exec.pop_at, Exec.top_at, slot_mul, Exec.check_ok]
  rw [Exec.setAt_at (by simpa using Nat.lt_succ_of_lt hi)]
  simp only [Memory.push, Memory.set_push a a hi]
  rfl

theorem moves_loadrc {offset : Int} (h : image.instrs[pc]? = some (.own (.loadrc offset))) :
    image.Moves ⟨pc, m⟩ ⟨pc + 1, m.push (m.regs.fp + offset)⟩ := by
  refine Image.moves_own h fun r => ?_
  simp only [Runnable.exec, exec, bind_apply, Exec.registers_at, Exec.push_at]

/-! ## Blocks -/

theorem pushTimes_at (m : Memory Registers) (a : Int) (count : Nat) :
    Exec.pushTimes a count (m.at_ pc r) = .ok () ((m.pushes (List.replicate count a)).at_ pc r) := by
  induction count generalizing m with
  | zero => rfl
  | succ count ih =>
    simp only [Exec.pushTimes, bind_apply, Exec.push_at]
    exact ih (m.push a)

theorem moves_alloc {count : Nat} (h : image.instrs[pc]? = some (.own (.alloc (wordSize * count)))) :
    image.Moves ⟨pc, m⟩ ⟨pc + 1, m.pushes (List.replicate count 0)⟩ := by
  refine Image.moves_own h fun r => ?_
  simp only [Runnable.exec, exec, words_tdiv, pushTimes_at]

theorem drop_pushes (m : Memory Registers) (as : List Int) :
    Exec.drop as.length ((m.pushes as).at_ pc r) = .ok () (m.at_ pc r) := by
  simp [Exec.drop, Exec.onStack, OperandStack.drop, Memory.at_, Memory.pushes_words]

theorem moves_slide (as : List Int)
    (h : image.instrs[pc]? = some (.own (.slide (wordSize * as.length) wordSize))) :
    image.Moves ⟨pc, (m.pushes as).push a⟩ ⟨pc + 1, m.push a⟩ := by
  refine Image.moves_own h fun r => ?_
  have hkeep : (wordSize.tdiv wordSize).toNat = 1 := by decide
  simp only [Runnable.exec, exec, hkeep, words_tdiv, Exec.popTimes, bind_apply, Exec.pop_at, pure_apply, drop_pushes,
    Exec.pushAll, Exec.push_at]

/-! ## Calls -/

theorem moves_mark (h : image.instrs[pc]? = some (.own .mark)) :
    image.Moves ⟨pc, m⟩ ⟨pc + 1, m.push m.regs.fp⟩ := by
  refine Image.moves_own h fun r => ?_
  simp only [Runnable.exec, exec, bind_apply, Exec.registers_at, Exec.push_at]

theorem moves_call {target : Nat} (h : image.instrs[pc]? = some (.own .call)) (ht : target < image.instrs.size) :
    image.Moves ⟨pc, m.push (Image.base + target)⟩ ⟨target, m.push (Image.base + (pc + 1 : Nat))⟩ := by
  refine Image.moves_own h fun r => ?_
  simp only [Runnable.exec, exec, bind_apply, Exec.pop_at, Exec.next_at, Exec.push_at, Image.pcOf_base ht, Exec.check_ok,
    Exec.jumpTo_at]

theorem moves_enter (h : image.instrs[pc]? = some (.own .enter)) :
    image.Moves ⟨pc, m⟩ ⟨pc + 1, framed m (wordSize * (m.words.size - 1))⟩ := by
  refine Image.moves_own h fun r => ?_
  simp only [Runnable.exec, exec, setFp, bind_apply, Exec.stackSize_at, Exec.setRegisters_at]
  rfl

/-- the frame pointer of a procedure that has been called over this memory -/
def framePointer (m : Memory Registers) : Int := wordSize * (m.words.size + 1 : Nat)

theorem moves_ret {back : Nat} {fp : Int} (as : List Int) (h : image.instrs[pc]? = some (.own .ret))
    (hback : back < image.instrs.size) :
    image.Moves ⟨pc, ((framed m (framePointer m)).pushes [fp, Image.base + back]).pushes as⟩
      ⟨back, (framed m fp).push fp⟩ := by
  refine Image.moves_own h fun r => ?_
  have hslot : slot (framePointer m) = .ok (m.words.size + 1) := slot_mul _
  simp only [Runnable.exec, exec, bind_apply, Exec.registers_at, ← Memory.pushes_append, Memory.pushes_regs, framed_fp,
    hslot, Exec.check_ok]
  rw [← framed_words m (framePointer m), Nat.add_assoc, Exec.truncate_pushes]
  simp only [List.cons_append, List.nil_append, List.take_succ_cons, List.take_zero, Memory.pushes_cons,
    Memory.pushes_nil, Exec.pop_at, Exec.top_at, setFp, Exec.setRegisters_at, Image.pcOf_base hback, Exec.check_ok,
    Exec.jumpTo_at]
  rfl

end ThreeMachines.Stack

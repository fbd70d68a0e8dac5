/-
What the operations of the vector machine do to the memory: one lemma for each of them.
-/
import ThreeMachines.Proofs.Blocks
import ThreeMachines.Vector.Run

namespace ThreeMachines.Vector

open Heap (address)

variable {image : Image Op} {m : Memory Registers} {pc q r : Nat} {a n : Int}

/-! ## Cells -/

theorem moves_mkbasic (h : image.instrs[pc]? = some (.own .mkbasic)) :
    image.Moves ⟨pc, m.push n⟩ ⟨pc + 1, (m.onHeap (m.heap.append [n])).push (address m.heap.words.size)⟩ := by
  refine Image.moves_own h fun r => ?_
  simp only [Runnable.exec, exec, bind_apply, Exec.alloc_at, Memory.push_heap, Memory.onHeap_push, Exec.pop_at,
    List.replicate]
  rw [Exec.store_at (by simp)]
  simp only [Memory.onHeap_heap, Memory.onHeap_onHeap, Heap.set_append_first, Exec.push_at]

theorem moves_mkind {tag : Tag} (h : image.instrs[pc]? = some (.own (.mkind tag))) :
    image.Moves ⟨pc, m.push a⟩ ⟨pc + 1, (m.onHeap (m.heap.append [a, tag.word])).push (address m.heap.words.size)⟩ := by
  refine Image.moves_own h fun r => ?_
  simp only [Runnable.exec, exec, bind_apply, Exec.pop_at, Exec.makePair_at, Exec.push_at]

theorem moves_getbasic_basic (h : image.instrs[pc]? = some (.own .getbasic)) (hp : m.heap.words[q]? = some (address r))
    (ht : m.heap.words[q + 1]? = some Tag.basic.word) (hn : m.heap.words[r]? = some n) :
    image.Moves ⟨pc, m.push (address q)⟩ ⟨pc + 1, m.push n⟩ := by
  refine Image.moves_own h fun r => ?_
  simp only [Runnable.exec, exec, bind_apply, Exec.pop_at, Exec.load_at hp, Heap.address_succ, Exec.load_at ht,
    if_pos, Exec.load_at hn, Exec.push_at]

theorem moves_getbasic_other {tag : Int} (h : image.instrs[pc]? = some (.own .getbasic))
    (hp : m.heap.words[q]? = some a) (ht : m.heap.words[q + 1]? = some tag) (hne : tag ≠ Tag.basic.word) :
    image.Moves ⟨pc, m.push (address q)⟩ ⟨pc + 1, m.push a⟩ := by
  refine Image.moves_own h fun r => ?_
  simp only [Runnable.exec, exec, bind_apply, Exec.pop_at, Exec.load_at hp, Heap.address_succ, Exec.load_at ht,
    if_neg hne, Exec.push_at]

theorem moves_copy {tag : Int} (h : image.instrs[pc]? = some (.own .copy)) (hp : m.heap.words[q]? = some a)
    (ht : m.heap.words[q + 1]? = some tag) :
    image.Moves ⟨pc, m.push (address q)⟩
      ⟨pc + 1, (m.onHeap (m.heap.append [a, tag])).push (address m.heap.words.size)⟩ := by
  refine Image.moves_own h fun r => ?_
  have hsize : q + 1 < m.heap.words.size := by
    by_contra hge
    rw [Array.getElem?_eq_none (by omega)] at ht
    cases ht
  simp only [Runnable.exec, exec, bind_apply, Exec.pop_at, Exec.alloc_at, List.replicate]
  rw [Exec.copyPair_at (a := a) (b := tag) (Heap.getElem?_append_of_some hp) (Heap.getElem?_append_of_some ht) (by simp)
    (by omega)]
  simp only [Memory.onHeap_heap, Memory.onHeap_onHeap, Heap.set_append_first, Heap.set_append_second, Exec.push_at]

theorem moves_store {p : Nat} {tag : Int} (h : image.instrs[pc]? = some (.own .store))
    (hp : m.heap.words[q]? = some a) (ht : m.heap.words[q + 1]? = some tag) (hsize : p + 1 < m.heap.words.size)
    (hne : p ≠ q + 1) :
    image.Moves ⟨pc, (m.push (address p)).push (address q)⟩
      ⟨pc + 1, (m.onHeap ((m.heap.set p a).set (p + 1) tag)).push (address p)⟩ := by
  refine Image.moves_own h fun r => ?_
  simp only [Runnable.exec, exec, bind_apply, Exec.pop_at, Exec.top_at]
  rw [Exec.copyPair_at (m := m.push (address p)) hp ht hsize hne]
  rfl

/-! ## Variables -/

theorem moves_pushloc {i : Nat} (h : image.instrs[pc]? = some (.own (.pushloc n))) (hi : (i : Int) = m.regs.fp + n)
    (ha : m.words[i]? = some a) : image.Moves ⟨pc, m⟩ ⟨pc + 1, m.push a⟩ := by
  refine Image.moves_own h fun r => ?_
  have hslot : slot (m.regs.fp + n) = .ok i := by
    rw [← hi, slot, if_pos (by omega), Int.toNat_natCast]
  simp only [Runnable.exec, exec, bind_apply, Exec.registers_at, hslot, Exec.check_ok, Exec.getAt_at ha, Exec.push_at]

theorem moves_pushglob {g j : Nat} (h : image.instrs[pc]? = some (.own (.pushglob n))) (hgp : m.regs.gp = address g)
    (hj : n = j) (ha : m.heap.words[g + 1 + j]? = some a) : image.Moves ⟨pc, m⟩ ⟨pc + 1, m.push a⟩ := by
  refine Image.moves_own h fun r => ?_
  simp only [Runnable.exec, exec, bind_apply, Exec.registers_at, hgp, Exec.element_at hj ha, Exec.push_at]

theorem moves_pushform {g j : Nat} (h : image.instrs[pc]? = some (.own (.pushform n)))
    (hf : m.regs.formals = address g) (hj : n = j) (ha : m.heap.words[g + 1 + j]? = some a) :
    image.Moves ⟨pc, m⟩ ⟨pc + 1, m.push a⟩ := by
  refine Image.moves_own h fun r => ?_
  simp only [Runnable.exec, exec, bind_apply, Exec.registers_at, hf, Exec.element_at hj ha, Exec.push_at]

/-- one more cell that holds 0, on top of the stack -/
def withCell (m : Memory Registers) : Memory Registers :=
  (m.onHeap (m.heap.append [0, address m.heap.words.size, Tag.basic.word])).push (address (m.heap.words.size + 1))

theorem pushCells_at (m : Memory Registers) (count : Nat) :
    pushCells count (m.at_ pc r) = .ok () ((withCell^[count] m).at_ pc r) := by
  induction count generalizing m with
  | zero => rfl
  | succ count ih =>
    have hcell : (m.heap.append [0]).words.size = m.heap.words.size + 1 := by simp
    simp only [pushCells, bind_apply, Exec.alloc_at, Exec.makePair_at, List.replicate, Memory.onHeap_heap,
      Memory.onHeap_onHeap, Heap.append_append, hcell, Exec.push_at]
    exact ih (withCell m)

theorem moves_alloc {count : Nat} (h : image.instrs[pc]? = some (.own (.alloc count))) :
    image.Moves ⟨pc, m⟩ ⟨pc + 1, withCell^[count] m⟩ := by
  refine Image.moves_own h fun r => ?_
  simp only [Runnable.exec, exec, Int.toNat_natCast, pushCells_at]

theorem moves_slide (as : List Int) (h : image.instrs[pc]? = some (.own (.slide as.length))) :
    image.Moves ⟨pc, (m.pushes as).push a⟩ ⟨pc + 1, m.push a⟩ := by
  refine Image.moves_own h fun r => ?_
  have hslot : slot as.length = .ok as.length := by simp [slot]
  simp only [Runnable.exec, exec, bind_apply, hslot, Exec.check_ok, Exec.slide_pushes]

/-! ## Vectors, functions and calls -/

theorem moves_mkvec (as : List Int) (h : image.instrs[pc]? = some (.own (.mkvec as.length))) :
    image.Moves ⟨pc, m.pushes as⟩
      ⟨pc + 1, (m.onHeap (m.heap.append (as.length :: as))).push (address m.heap.words.size)⟩ := by
  refine Image.moves_own h fun r => ?_
  simp only [Runnable.exec, exec, bind_apply, Exec.makeVector_at, Exec.push_at]

theorem moves_mkfunval {label : Label} {entry : Nat} (h : image.instrs[pc]? = some (.own (.mkfunval label)))
    (ht : image.target label = .ok entry) :
    image.Moves ⟨pc, m.push a⟩
      ⟨pc + 1, (m.onHeap (m.heap.append [Image.base + entry, a])).push (address m.heap.words.size)⟩ := by
  refine Image.moves_own h fun r => ?_
  simp only [Runnable.exec, exec, bind_apply, Exec.makeFunction_at m a ht, Exec.push_at]

theorem moves_setgp (h : image.instrs[pc]? = some (.own .setgp)) :
    image.Moves ⟨pc, m.push a⟩ ⟨pc + 1, { m with regs := { m.regs with gp := a } }⟩ := by
  refine Image.moves_own h fun r => ?_
  simp only [Runnable.exec, exec, bind_apply, Exec.pop_at, Exec.registers_at, Exec.setRegisters_at]

/-- the words of a frame, from the function's cell up to the caller's frame pointer -/
def frame (cell : Int) (caller : Registers) : List Int := [cell, caller.formals, caller.returns, caller.gp, caller.fp]

/-- where the frame pointer points in a function that has been called over this memory -/
def framePointer (m : Memory Registers) : Int := m.words.size + 4

/-- the memory in a function that has been called over this memory -/
def inFrame (m : Memory Registers) (cell : Int) (regs : Registers) : Memory Registers :=
  Memory.pushes { m with regs } (frame cell m.regs)

theorem moves_call {entry : Nat} {formals returns gp : Int} (h : image.instrs[pc]? = some (.own .call))
    (hentry : entry < image.instrs.size) (hcell : m.heap.words[q]? = some (address r))
    (hcode : m.heap.words[r]? = some (Image.base + entry)) (hgp : m.heap.words[r + 1]? = some gp) :
    image.Moves ⟨pc, m.pushes [address q, formals, returns]⟩
      ⟨entry, inFrame m (address q) ⟨gp, formals, returns, framePointer m⟩⟩ := by
  refine Image.moves_own h fun r' => ?_
  have hsize : (m.pushes [address q, formals, returns, m.regs.gp, m.regs.fp]).words.size - 1 = m.words.size + 4 := by
    simp
  have hpushes : ∀ (a b : Int), ((m.pushes [address q, formals, returns]).push a).push b =
    m.pushes [address q, formals, returns, a, b] := fun _ _ => rfl
  have hpeek (r : Nat) : Exec.peek 2 ((m.pushes [address q, formals, returns]).at_ (pc + 1) r) =
      .ok (address q) ((m.pushes [address q, formals, returns]).at_ (pc + 1) r) := Exec.peek_pushes (i := 0) m rfl rfl
  simp only [Runnable.exec, exec, bind_apply, Exec.registers_at, hpeek,
    Exec.load_at (m := m.pushes [address q, formals, returns]) hcell, Exec.push_at]
  rw [Heap.address_succ, Exec.load_at (a := gp) (by simpa using hgp)]
  simp only [Exec.push_at, Exec.stackSize_at, Memory.pushes_regs, hpushes, hsize]
  rw [show m.words.size + 4 - 2 = m.words.size + 2 by omega, Exec.getAt_pushes (a := returns) m rfl]
  simp only []
  rw [Exec.setAt_pushes m (by simp)]
  simp only [List.set_cons_succ, List.set_cons_zero]
  rw [show m.words.size + 4 - 3 = m.words.size + 1 by omega, Exec.getAt_pushes (a := formals) m rfl]
  simp only []
  rw [Exec.setAt_pushes m (by simp)]
  simp only [List.set_cons_succ, List.set_cons_zero, Exec.setRegisters_at]
  rw [Exec.load_at (a := Image.base + entry) (by simpa using hcode)]
  simp only [Image.pcOf_base hentry, Exec.check_ok, Exec.jumpTo_at]
  simp [inFrame, frame, framePointer, Memory.pushes_eq]

theorem moves_ret {v back : Nat} {cell result gp formals : Int} (h : image.instrs[pc]? = some (.own (.ret 0)))
    (hback : back < image.instrs.size) (hv : m.heap.words[v + 1]? = some (Image.base + back)) :
    image.Moves ⟨pc, (inFrame m cell ⟨gp, formals, address v, framePointer m⟩).push result⟩ ⟨back, m.push result⟩ := by
  refine Image.moves_own h fun r => ?_
  have hslot : slot (framePointer m) = .ok (m.words.size + 4) := by
    rw [slot, framePointer, if_pos (by omega)]
    rfl
  have hcallee : calleeSlot (framePointer m) = .ok (m.words.size + 0) := by
    rw [calleeSlot, framePointer, if_pos (by omega)]
    congr 1
    omega
  -- all that the frame holds is found relative to the size of the caller's stack
  rw [inFrame]
  generalize hm : ({ m with regs := ⟨gp, formals, address v, framePointer m⟩ } : Memory Registers) = m'
  have hwords : m'.words = m.words := by rw [← hm]
  have hheap : m'.heap = m.heap := by rw [← hm]
  have hregs : m'.regs = ⟨gp, formals, address v, framePointer m⟩ := by rw [← hm]
  simp only [Runnable.exec, exec, bind_apply, Exec.registers_at, Memory.push_regs, Memory.pushes_regs, hregs,
    Exec.pop_at, hslot, hcallee, Exec.check_ok]
  rw [← hwords, Exec.setAt_pushes m' (by simp [frame])]
  simp only [frame, List.set_cons_zero]
  rw [show m'.words.size + 4 + 1 = m'.words.size + 5 from rfl, Exec.truncate_pushes]
  simp only [List.take_succ_cons, List.take_zero, Memory.pushes_cons, Memory.pushes_nil, Exec.pop_at]
  rw [Exec.element_at (i := 0) (j := 0) (a := Image.base + back) rfl (by simpa [hheap] using hv)]
  simp only [Exec.pop_at, Exec.setRegisters_at, Image.pcOf_base hback, Exec.check_ok, Exec.jumpTo_at]
  simp [Memory.push, hwords, hheap]

end ThreeMachines.Vector
